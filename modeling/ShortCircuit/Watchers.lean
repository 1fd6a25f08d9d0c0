import ShortCircuit.SocketRuns

set_option autoImplicit false

/-!
# Sockets and their watchers (`socket.c`, `watcher.c`)

The functions of the library call the application back before they return, and the
application may call them again from there. `World` holds all sockets of a program with
the pointers of their watchers, and the callbacks that are running, innermost first. The
application makes any calls in any order; the loop moves only while no callback runs.
-/
namespace ShortCircuit.Watchers
open Message Boundary OutputMachine Receive Backend Socket SocketRuns WordBytes
open CStrings (Fault)

inductive Callback where
  | connect
  | connection
  | accept
  | recv
  | send
  | close
  deriving DecidableEq, Repr

/-- A pointer of `struct watcher`: one of the functions that only warn, a null pointer or a
function of the application. -/
inductive Handler (H : Type) where
  | noop
  | null
  | fn (h : H)
  deriving DecidableEq, Repr

abbrev Watcher (H : Type) := Callback → Handler H

def scWatcherInit {H : Type} : Watcher H := fun _ => .noop

def callbackName : Callback → String
  | .connect => "on_connect"
  | .connection => "on_connection"
  | .accept => "on_accept"
  | .recv => "on_recv"
  | .send => "on_send"
  | .close => "on_close"

def notsetWarning (c : Callback) : String := callbackName c ++ " callback called but not set"

def callback? : Effect → Option Callback
  | .onConnect _ => some .connect
  | .onConnection _ => some .connection
  | .onAccept _ => some .accept
  | .onRecv _ _ => some .recv
  | .onSend _ => some .send
  | .onClose => some .close
  | _ => none

/-- The callback that a function of the library has just called. -/
def calledBack (effects : List Effect) : Option Callback := effects.getLast?.bind callback?

/-- `read_wrap` as far as its call of `on_recv`. -/
def readHead (uv : Receiver) (nread : Int) : Except Fault (Receiver × List Effect) :=
  let errcode := readErrcode nread
  if nread < 0 then .ok (uv, [.onRecv none errcode])
  else if nread > 0 then
    match uv.msg with
    | none => .error .nullPointer
    | some msg =>
      let reader := (parseRead msg uv.reader (u32 nread.toNat)).1
      if msgReaderFinished msg reader then
        .ok ({ uv with reader := reader }, [.onRecv (some (deliver msg)) errcode])
      else .ok ({ uv with reader := reader }, [])
  else .ok (uv, [])

/-- The rest of `read_wrap`, after `on_recv` returned. -/
def readRest (uv : Receiver) : Receiver × List Effect :=
  ({ uv with msg := none }, [.msgFree (uv.msg.map ScMsg.id)])

def recvHead (heap : Heap) : Step Receiver ReadEvent Effect
  | uv, .alloc suggestedSize => recvStep heap uv (.alloc suggestedSize)
  | uv, .read bytes =>
    match uv.offered with
    | none => none
    | some buf =>
      if bytes.length ≤ buf.len then
        let filled := { uv with msg := uv.msg.map (fillBuf buf bytes), offered := none }
        match readHead filled bytes.length with
        | .error _ => none
        | .ok r => some r
      else none
  | uv, .stop nread =>
    if nread < 0 then
      match readHead { uv with offered := none } nread with
      | .error _ => none
      | .ok r => some r
    else none

/-- A function of the library as far as its call of the application. Only `read_wrap` has
something left to do then. -/
def stepHead (heap : Heap) : Step ScSocket Event Effect
  | s, .recv e =>
    let stream := s.backend.stream
    if stream.phase = .active ∧ stream.reading then
      (recvHead heap s.backend.toReceiver e).map fun r => (withReceiver s r.1, r.2)
    else none
  | s, e => step heap s e

def stepRest (s : ScSocket) : Callback → ScSocket × List Effect
  | .recv =>
    let r := readRest s.backend.toReceiver
    (withReceiver s r.1, r.2)
  | _ => (s, [])

/-- `socket` stays as it was when the memory is freed. -/
structure Slot (H : Type) where
  socket : ScSocket
  watcher : Watcher H
  freed : Bool

structure World (H : Type) where
  slots : List (Slot H)
  stack : List (ℕ × Callback)

def World.start {H : Type} : World H := ⟨[], []⟩

inductive Move (H : Type) where
  | new (mallocOk backendOk : Bool)
  | del (i : ℕ)
  | on (i : ℕ) (c : Callback) (cb : Option H)
  | call (i : ℕ) (e : Event)
  | accept (server client : ℕ) (ans : AcceptAnswers)
  | loop (i : ℕ) (e : Event)
  | ret

/-- `touched` records that a function used the memory of a socket that was freed before. -/
inductive Outcome (H : Type) where
  | effect (i : ℕ) (x : Effect)
  | entered (i : ℕ) (c : Callback) (h : H)
  | warned (i : ℕ) (c : Callback) (text : String)
  | deleted (i : ℕ) (uri : Option ℕ)
  | touched (i : ℕ)
  deriving DecidableEq

def isCall : Event → Bool
  | .connect _ _ | .bind _ _ | .listen _ _ | .send _ _ | .close => true
  | _ => false

def isLoop : Event → Bool
  | .connected _ | .connection _ | .recv _ | .flushed _ | .sent _ | .closed => true
  | _ => false

section Steps

variable {H : Type}

def World.setSlot (w : World H) (i : ℕ) (slot : Slot H) : World H :=
  { w with slots := w.slots.set i slot }

def touch (i : ℕ) (slot : Slot H) : List (Outcome H) := if slot.freed then [.touched i] else []

/-- What the library does with socket `i` when the callback `c` returned. -/
def leave (w : World H) (i : ℕ) : Callback → Option (World H × List (Outcome H))
  | .recv =>
    match w.slots[i]? with
    | none => none
    | some slot =>
      let r := stepRest slot.socket .recv
      some (w.setSlot i { slot with socket := r.1 }, touch i slot ++ r.2.map (.effect i))
  | _ => some (w, [])

/-- Call the function that the watcher of socket `i` holds for `c`. -/
def enter (w : World H) (i : ℕ) (watcher : Watcher H) (c : Callback) :
    Option (World H × List (Outcome H)) :=
  match watcher c with
  | .null => none
  | .fn h => some ({ w with stack := (i, c) :: w.stack }, [.entered i c h])
  | .noop => (leave w i c).map fun r => (r.1, .warned i c (notsetWarning c) :: r.2)

/-- A function of the library works on socket `i`. -/
def advance (heaps : ℕ → Heap) (w : World H) (i : ℕ) (e : Event) :
    Option (World H × List (Outcome H)) :=
  match w.slots[i]? with
  | none => none
  | some slot =>
    match stepHead (heaps i) slot.socket e with
    | none => none
    | some (s, effects) =>
      let next := w.setSlot i { slot with socket := s }
      let out := touch i slot ++ effects.map (.effect i)
      match calledBack effects with
      | none => some (next, out)
      | some c => (enter next i slot.watcher c).map fun r => (r.1, out ++ r.2)

def scSocketOn (slot : Slot H) (c : Callback) (cb : Option H) : Slot H :=
  { slot with watcher := Function.update slot.watcher c ((cb.map Handler.fn).getD .null) }

def worldStep (heaps : ℕ → Heap) : Step (World H) (Move H) (Outcome H)
  | w, .new mallocOk backendOk =>
    match scSocketNew mallocOk backendOk with
    | none => some (w, [])
    | some s => some ({ w with slots := w.slots ++ [⟨s, scWatcherInit, false⟩] }, [])
  | w, .del i =>
    match w.slots[i]? with
    | none => none
    | some slot =>
      some (w.setSlot i { slot with freed := true },
        touch i slot ++ [.deleted i (slot.socket.uri.map Prod.fst)])
  | w, .on i c cb =>
    match w.slots[i]? with
    | none => none
    | some slot => some (w.setSlot i (scSocketOn slot c cb), touch i slot)
  | w, .call i e => if isCall e then advance heaps w i e else none
  | w, .accept server client ans =>
    match w.slots[server]? with
    | none => none
    | some slot =>
      (advance heaps w client (.accept slot.socket.backend.proto ans)).map fun r =>
        (r.1, touch server slot ++ r.2)
  | w, .loop i e => if w.stack = [] ∧ isLoop e then advance heaps w i e else none
  | w, .ret =>
    match w.stack with
    | [] => none
    | (i, c) :: rest => leave { w with stack := rest } i c

/-- Everything that a function of the library can do: it calls nobody back, it waits for a
function of the application, or it goes on after a warning. -/
inductive Advanced (heaps : ℕ → Heap) (w : World H) (i : ℕ) (e : Event) :
    World H → List (Outcome H) → Prop where
  | quiet (slot : Slot H) (s : ScSocket) (effects : List Effect) (hi : w.slots[i]? = some slot)
      (hs : stepHead (heaps i) slot.socket e = some (s, effects)) (hc : calledBack effects = none) :
      Advanced heaps w i e (w.setSlot i { slot with socket := s })
        (touch i slot ++ effects.map (.effect i))
  | waiting (slot : Slot H) (s : ScSocket) (effects : List Effect) (c : Callback) (h : H)
      (hi : w.slots[i]? = some slot) (hs : stepHead (heaps i) slot.socket e = some (s, effects))
      (hc : calledBack effects = some c) (hh : slot.watcher c = .fn h) :
      Advanced heaps w i e
        { w.setSlot i { slot with socket := s } with stack := (i, c) :: w.stack }
        (touch i slot ++ effects.map (.effect i) ++ [.entered i c h])
  | warned (slot : Slot H) (s : ScSocket) (effects : List Effect) (c : Callback)
      (hi : w.slots[i]? = some slot) (hs : stepHead (heaps i) slot.socket e = some (s, effects))
      (hc : calledBack effects = some c) (hh : slot.watcher c = .noop) :
      Advanced heaps w i e (w.setSlot i { slot with socket := (stepRest s c).1 })
        (touch i slot ++ effects.map (.effect i) ++ .warned i c (notsetWarning c) ::
          ((if c = .recv then touch i slot else []) ++ (stepRest s c).2.map (.effect i)))

theorem setSlot_get {w : World H} {i : ℕ} {slot : Slot H} (h : w.slots[i]? = some slot)
    (new : Slot H) : (w.setSlot i new).slots[i]? = some new := by
  have hlt : i < w.slots.length := (List.getElem?_eq_some_iff.mp h).1
  simp [World.setSlot, hlt]

theorem setSlot_ne {w : World H} {i j : ℕ} (h : i ≠ j) (new : Slot H) :
    (w.setSlot i new).slots[j]? = w.slots[j]? := by simp [World.setSlot, h]

theorem setSlot_setSlot (w : World H) (i : ℕ) (a b : Slot H) :
    (w.setSlot i a).setSlot i b = w.setSlot i b := by simp [World.setSlot]

theorem leave_next {w : World H} {i : ℕ} {slot : Slot H} (h : w.slots[i]? = some slot)
    (s : ScSocket) (c : Callback) :
    leave (w.setSlot i { slot with socket := s }) i c =
      some (w.setSlot i { slot with socket := (stepRest s c).1 },
        (if c = .recv then touch i slot else []) ++ (stepRest s c).2.map (.effect i)) := by
  cases c with
  | recv =>
    simp only [leave, setSlot_get h, setSlot_setSlot, if_true]
    rfl
  | _ => rfl

theorem advance_advanced {heaps : ℕ → Heap} {w u : World H} {i : ℕ} {e : Event}
    {out : List (Outcome H)} (h : advance heaps w i e = some (u, out)) :
    Advanced heaps w i e u out := by
  simp only [advance] at h
  split at h
  · cases h
  · rename_i slot hi
    split at h
    · cases h
    · rename_i s effects hs
      split at h
      · rename_i hc
        obtain ⟨rfl, rfl⟩ := Prod.mk.inj (Option.some.inj h)
        exact .quiet slot s effects hi hs hc
      · rename_i c hc
        cases hh : slot.watcher c with
        | null => simp [enter, hh] at h
        | fn f =>
          simp only [enter, hh, Option.map_some, Option.some.injEq, Prod.mk.injEq] at h
          obtain ⟨rfl, rfl⟩ := h
          exact .waiting slot s effects c f hi hs hc hh
        | noop =>
          simp only [enter, hh, leave_next hi, Option.map_some, Option.some.injEq,
            Prod.mk.injEq] at h
          obtain ⟨rfl, rfl⟩ := h
          exact .warned slot s effects c hi hs hc hh

/-- Everything that one move can do. -/
inductive Made (heaps : ℕ → Heap) (w : World H) : Move H → World H → List (Outcome H) → Prop where
  | unmade (mallocOk backendOk : Bool) : Made heaps w (.new mallocOk backendOk) w []
  | made (mallocOk backendOk : Bool) :
      Made heaps w (.new mallocOk backendOk)
        { w with slots := w.slots ++ [⟨newSocket, scWatcherInit, false⟩] } []
  | deleted (i : ℕ) (slot : Slot H) (hi : w.slots[i]? = some slot) :
      Made heaps w (.del i) (w.setSlot i { slot with freed := true })
        (touch i slot ++ [.deleted i (slot.socket.uri.map Prod.fst)])
  | registered (i : ℕ) (c : Callback) (cb : Option H) (slot : Slot H)
      (hi : w.slots[i]? = some slot) :
      Made heaps w (.on i c cb) (w.setSlot i (scSocketOn slot c cb)) (touch i slot)
  | called (i : ℕ) (e : Event) (u : World H) (out : List (Outcome H)) (he : isCall e = true)
      (h : Advanced heaps w i e u out) : Made heaps w (.call i e) u out
  | accepted (server client : ℕ) (ans : AcceptAnswers) (slot : Slot H) (u : World H)
      (out : List (Outcome H)) (hi : w.slots[server]? = some slot)
      (h : Advanced heaps w client (.accept slot.socket.backend.proto ans) u out) :
      Made heaps w (.accept server client ans) u (touch server slot ++ out)
  | looped (i : ℕ) (e : Event) (u : World H) (out : List (Outcome H)) (hidle : w.stack = [])
      (he : isLoop e = true) (h : Advanced heaps w i e u out) : Made heaps w (.loop i e) u out
  | returned (i : ℕ) (c : Callback) (rest : List (ℕ × Callback))
      (hstack : w.stack = (i, c) :: rest) (hc : c ≠ .recv) :
      Made heaps w .ret { w with stack := rest } []
  | received (i : ℕ) (rest : List (ℕ × Callback)) (slot : Slot H)
      (hstack : w.stack = (i, .recv) :: rest) (hi : w.slots[i]? = some slot) :
      Made heaps w .ret
        { w.setSlot i { slot with socket := (stepRest slot.socket .recv).1 } with stack := rest }
        (touch i slot ++ (stepRest slot.socket .recv).2.map (.effect i))

theorem ret_made {heaps : ℕ → Heap} {w u : World H} {out : List (Outcome H)}
    (h : worldStep heaps w .ret = some (u, out)) : Made heaps w .ret u out := by
  simp only [worldStep] at h
  split at h
  · cases h
  · rename_i i c rest hstack
    by_cases hc : c = .recv
    · subst hc
      simp only [leave] at h
      split at h
      · cases h
      · rename_i slot hi
        obtain ⟨rfl, rfl⟩ := Prod.mk.inj (Option.some.inj h)
        exact .received i rest slot hstack hi
    · have hleave : some ({ w with stack := rest }, []) = some (u, out) := by
        cases c <;> first | exact h | exact absurd rfl hc
      obtain ⟨rfl, rfl⟩ := Prod.mk.inj (Option.some.inj hleave)
      exact .returned i c rest hstack hc

theorem worldStep_made {heaps : ℕ → Heap} {w u : World H} {m : Move H} {out : List (Outcome H)}
    (h : worldStep heaps w m = some (u, out)) : Made heaps w m u out := by
  cases m with
  | new mallocOk backendOk =>
    cases mallocOk <;> cases backendOk <;> obtain ⟨rfl, rfl⟩ := Prod.mk.inj (Option.some.inj h)
    · exact .unmade _ _
    · exact .unmade _ _
    · exact .unmade _ _
    · exact .made _ _
  | del i =>
    simp only [worldStep] at h
    split at h
    · cases h
    · rename_i slot hi
      obtain ⟨rfl, rfl⟩ := Prod.mk.inj (Option.some.inj h)
      exact .deleted i slot hi
  | on i c cb =>
    simp only [worldStep] at h
    split at h
    · cases h
    · rename_i slot hi
      obtain ⟨rfl, rfl⟩ := Prod.mk.inj (Option.some.inj h)
      exact .registered i c cb slot hi
  | call i e =>
    simp only [worldStep, Option.ite_none_right_eq_some] at h
    exact .called i e u out h.1 (advance_advanced h.2)
  | accept server client ans =>
    simp only [worldStep] at h
    split at h
    · cases h
    · rename_i slot hi
      obtain ⟨⟨v, more⟩, hv, h⟩ := Option.map_eq_some_iff.mp h
      obtain ⟨rfl, rfl⟩ := Prod.mk.inj h
      exact .accepted server client ans slot v more hi (advance_advanced hv)
  | loop i e =>
    simp only [worldStep, Option.ite_none_right_eq_some] at h
    exact .looped i e u out h.1.1 h.1.2 (advance_advanced h.2)
  | ret => exact ret_made h

end Steps

section Heads

variable {heap : Heap}

theorem stepHead_eq (s : ScSocket) {e : Event} (he : ∀ r, e ≠ .recv r) :
    stepHead heap s e = step heap s e := by
  cases e <;> first | rfl | exact absurd rfl (he _)

theorem readWrap_head (uv : Receiver) (nread : Int) :
    readWrap uv nread = (readHead uv nread).map fun r =>
      if r.2 = [] then r else ((readRest r.1).1, r.2 ++ (readRest r.1).2) := by
  unfold readWrap readHead
  by_cases hneg : nread < 0
  · simp [hneg, readRest, Except.map]
  · by_cases hpos : nread > 0
    · cases hm : uv.msg with
      | none => simp [hneg, hpos, Except.map]
      | some msg =>
        simp only [hneg, hpos, if_true, if_false]
        split <;> simp [Except.map, readRest]
    · simp [hneg, hpos, Except.map]

/-- `read_wrap` calls nobody but `on_recv`, and that at most once. -/
theorem readHead_calls {uv v : Receiver} {nread : Int} {head : List Effect}
    (h : readHead uv nread = .ok (v, head)) : head = [] ∨ ∃ msg errcode, head = [.onRecv msg errcode] := by
  unfold readHead at h
  by_cases hneg : nread < 0
  · simp only [hneg, if_true, Except.ok.injEq, Prod.mk.injEq] at h
    exact .inr ⟨_, _, h.2.symm⟩
  · by_cases hpos : nread > 0
    · simp only [hneg, hpos, if_true, if_false] at h
      split at h
      · cases h
      · split at h
        · exact .inr ⟨_, _, (Prod.mk.inj (Except.ok.inj h)).2.symm⟩
        · exact .inl (Prod.mk.inj (Except.ok.inj h)).2.symm
    · simp only [hneg, hpos, if_false, Except.ok.injEq, Prod.mk.injEq] at h
      exact .inl h.2.symm

theorem readWrap_of_head {uv v : Receiver} {nread : Int} {head : List Effect}
    (h : readHead uv nread = .ok (v, head)) :
    (calledBack head = none ∧ readWrap uv nread = .ok (v, head)) ∨
      (calledBack head = some .recv ∧
        readWrap uv nread = .ok ((readRest v).1, head ++ (readRest v).2)) := by
  rw [readWrap_head, h]
  rcases readHead_calls h with rfl | ⟨msg, errcode, rfl⟩
  · exact .inl ⟨rfl, rfl⟩
  · exact .inr ⟨rfl, rfl⟩

theorem recvStep_of_head {uv v : Receiver} {e : ReadEvent} {head : List Effect}
    (h : recvHead heap uv e = some (v, head)) :
    (calledBack head = none ∧ recvStep heap uv e = some (v, head)) ∨
      (calledBack head = some .recv ∧
        recvStep heap uv e = some ((readRest v).1, head ++ (readRest v).2)) := by
  cases e with
  | alloc sg =>
    refine .inl ⟨?_, h⟩
    cases alloc_moved h <;> rfl
  | read bytes =>
    simp only [recvHead] at h
    split at h
    · cases h
    · rename_i buf ho
      split at h
      · rename_i hlen
        split at h
        · cases h
        · rename_i r hr
          obtain rfl := Option.some.inj h
          refine (readWrap_of_head hr).imp (And.imp_right fun hw => ?_) (And.imp_right fun hw => ?_)
          all_goals simp only [recvStep, ho, hlen, if_true, hw]
      · cases h
  | stop nread =>
    simp only [recvHead] at h
    split at h
    · rename_i hneg
      split at h
      · cases h
      · rename_i r hr
        obtain rfl := Option.some.inj h
        refine (readWrap_of_head hr).imp (And.imp_right fun hw => ?_) (And.imp_right fun hw => ?_)
        all_goals simp only [recvStep, hneg, if_true, hw]
    · cases h

theorem plain_quiet {effects : List Effect} (h : ∀ x ∈ effects, Plain x) :
    ∀ x ∈ effects, x.family ≠ .message := by
  intro x hx
  rw [h x hx]
  decide

theorem opened_quiet {uv v : SocketUv} {effects : List Effect} {ok : Bool}
    (h : Opened uv v effects ok) : ∀ x ∈ effects, x.family ≠ .message := by
  cases h with
  | untouched _ _ he => exact plain_quiet he
  | refused proto pre rest _ _ he hpre hrest =>
    rw [he, List.forall_mem_append, List.forall_mem_cons]
    exact ⟨plain_quiet hpre, by simp [Effect.family], plain_quiet hrest⟩
  | ready proto reading connecting pre rest _ _ _ he hpre hrest =>
    rw [he, List.forall_mem_append, List.forall_mem_cons]
    exact ⟨plain_quiet hpre, by simp [Effect.family], plain_quiet hrest⟩

theorem step_quiet {s u : ScSocket} {e : Event} {effects : List Effect}
    (h : step heap s e = some (u, effects)) (he : ∀ r, e ≠ .recv r) :
    ∀ x ∈ effects, x.family ≠ .message := by
  cases step_stepped h with
  | opened e u effects _ h => exact opened_quiet h
  | received e r effects _ _ _ => exact absurd rfl (he e)
  | closing =>
    unfold uriDelEffects
    split <;> simp [Effect.family]
  | _ => simp [Effect.family]

theorem calledBack_recv {effects : List Effect} (h : calledBack effects = some .recv) :
    ∃ x ∈ effects, x.family = .message := by
  obtain ⟨x, hx, hc⟩ := Option.bind_eq_some_iff.mp h
  refine ⟨x, List.mem_of_getLast? hx, ?_⟩
  cases x <;> first | rfl | cases hc

/-- A function of the library is what it does before it calls back, and the rest. -/
theorem step_of_head {s u : ScSocket} {e : Event} {head : List Effect}
    (h : stepHead heap s e = some (u, head)) :
    (calledBack head = none ∧ step heap s e = some (u, head)) ∨
      ∃ c, calledBack head = some c ∧
        step heap s e = some ((stepRest u c).1, head ++ (stepRest u c).2) := by
  by_cases he : ∃ r, e = .recv r
  · obtain ⟨e, rfl⟩ := he
    simp only [stepHead] at h
    split at h
    · rename_i hactive
      obtain ⟨⟨v, _⟩, hv, h⟩ := Option.map_eq_some_iff.mp h
      obtain ⟨rfl, rfl⟩ := Prod.mk.inj h
      rcases recvStep_of_head hv with ⟨hc, hr⟩ | ⟨hc, hr⟩
      · refine .inl ⟨hc, ?_⟩
        simp only [step, hactive, and_self, if_true, hr]
        rfl
      · refine .inr ⟨.recv, hc, ?_⟩
        simp only [step, hactive, and_self, if_true, hr]
        rfl
    · cases h
  · have hne : ∀ r, e ≠ .recv r := fun r hr => he ⟨r, hr⟩
    have hstep : step heap s e = some (u, head) := stepHead_eq s hne ▸ h
    cases hc : calledBack head with
    | none => exact .inl ⟨rfl, hstep⟩
    | some c =>
      refine .inr ⟨c, rfl, ?_⟩
      cases c with
      | recv =>
        obtain ⟨x, hx, hfam⟩ := calledBack_recv hc
        exact absurd hfam (step_quiet hstep hne x hx)
      | _ => rw [hstep]; simp [stepRest]

end Heads

end ShortCircuit.Watchers
