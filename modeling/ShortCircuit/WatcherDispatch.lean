import ShortCircuit.Watchers

set_option autoImplicit false

/-!
# Which function a callback reaches

A function of the library calls the application at most once, when it has nothing else to
do than to free the message it handed over. The call goes to the function that was
registered last for that socket and that event; where none was, a warning names the event.
-/
namespace ShortCircuit.WatcherDispatch
open Message Boundary OutputMachine Receive Backend OpenAttempts Socket SocketRuns Watchers

section Functions

variable {heap : Heap} {s u : ScSocket} {effects : List Effect}

def callbacks (effects : List Effect) : List Callback := effects.filterMap callback?

/-- The callbacks among `effects` are no more than the last of them. -/
def CallsLast (effects : List Effect) : Prop := callbacks effects = (calledBack effects).toList

theorem attempt_callsLast (a : Attempt) (init : Int) (uv : SocketUv) (id : ℕ) :
    CallsLast (.uriNew id :: (a.result init uv).effects) := by
  have hr := attempted a init uv
  generalize a.result init uv = r at hr ⊢
  cases hr with
  | refused hi => rfl
  | unresolved hi ha => rfl
  | called hi ha =>
    unfold Attempt.call
    split <;> rfl

theorem buvAccept_callsLast {ans : AcceptAnswers} {srvProto : Proto} {uv : SocketUv}
    {r : Result Unit} (h : buvAccept ans srvProto uv = .ok r) : CallsLast r.effects := by
  by_cases hp : srvProto = .noset
  · simp [buvAccept, hp] at h
  · by_cases hi : ans.init = 0
    · by_cases ha : ans.accept = 0
      · by_cases hr : ans.readStart = 0 <;>
          simp only [buvAccept, uvInit, hp, hi, ha, hr, if_true, if_false, ne_eq,
            not_true_eq_false, not_false_eq_true, Except.ok.injEq] at h <;> subst h <;> rfl
      · simp only [buvAccept, uvInit, hp, hi, ha, if_true, if_false, ne_eq, not_true_eq_false,
          not_false_eq_true, Except.ok.injEq] at h
        subst h
        rfl
    · simp only [buvAccept, uvInit, hp, hi, if_true, if_false, ne_eq, not_false_eq_true,
        Except.ok.injEq] at h
      subst h
      rfl

theorem recvHead_callsLast {uv v : Receiver} {e : ReadEvent}
    (h : recvHead heap uv e = some (v, effects)) : CallsLast effects := by
  have hread : ∀ {uv : Receiver} {nread : Int} {r : Receiver × List Effect},
      readHead uv nread = .ok r → CallsLast r.2 := by
    intro uv nread r hr
    rcases readHead_calls hr with hnil | ⟨msg, errcode, hone⟩
    · rw [hnil]
      rfl
    · rw [hone]
      rfl
  cases e with
  | alloc sg => cases alloc_moved h <;> rfl
  | read bytes =>
    simp only [recvHead] at h
    split at h
    · cases h
    · split at h
      · split at h
        · cases h
        · rename_i r hr
          obtain rfl := Option.some.inj h
          exact hread hr
      · cases h
  | stop nread =>
    simp only [recvHead] at h
    split at h
    · split at h
      · cases h
      · rename_i r hr
        obtain rfl := Option.some.inj h
        exact hread hr
    · cases h

theorem plain_callsLast {e : Event} (h : step heap s e = some (u, effects)) (he : ¬ opens e)
    (hr : ∀ r, e ≠ .recv r) : CallsLast effects := by
  cases step_stepped h with
  | opened e u effects ho _ => exact absurd ho he
  | received e r effects _ _ _ => exact absurd rfl (hr e)
  | closing =>
    unfold uriDelEffects
    split <;> rfl
  | _ => rfl

theorem stepHead_callsLast {e : Event} (h : stepHead heap s e = some (u, effects)) :
    CallsLast effects := by
  cases e with
  | connect uri env =>
    obtain ⟨code, h⟩ := returned_some h
    obtain ⟨_, _, rfl⟩ | ⟨parsed, errcode, r, _, hr, _, _, rfl⟩ := withUri_cases h
    · rfl
    · obtain ⟨a, _, rfl⟩ := buvConnect_attempt hr
      exact attempt_callsLast a _ _ _
  | bind uri env =>
    obtain ⟨code, h⟩ := returned_some h
    obtain ⟨_, _, rfl⟩ | ⟨parsed, errcode, r, _, hr, _, _, rfl⟩ := withUri_cases h
    · rfl
    · obtain ⟨a, proto, _, rfl⟩ := buvBind_attempt hr
      exact attempt_callsLast a _ _ _
  | accept srvProto ans =>
    have hstep : step heap s (.accept srvProto ans) = some (u, effects) := h
    obtain ⟨r, hr, _, rfl⟩ := accept_cases hstep
    exact buvAccept_callsLast hr
  | recv e =>
    simp only [stepHead, Option.ite_none_right_eq_some, Option.map_eq_some_iff] at h
    obtain ⟨_, x, hx, heq⟩ := h
    obtain ⟨_, rfl⟩ := Prod.mk.inj heq
    exact recvHead_callsLast hx
  | _ =>
    rw [stepHead_eq s (by intro r hr; cases hr)] at h
    exact plain_callsLast h id (by intro r hr; cases hr)

end Functions

section Registration

variable {H : Type}

def registers? (i : ℕ) (c : Callback) : Move H → Option (Handler H)
  | .on j d cb => if j = i ∧ d = c then some ((cb.map Handler.fn).getD .null) else none
  | _ => none

/-- What was registered last for `c` at socket `i`. -/
def registered (ms : List (Move H)) (i : ℕ) (c : Callback) : Handler H :=
  (ms.reverse.findSome? (registers? i c)).getD .noop

theorem registered_snoc (ms : List (Move H)) (m : Move H) (i : ℕ) (c : Callback) :
    registered (ms ++ [m]) i c = (registers? i c m).getD (registered ms i c) := by
  simp only [registered, List.reverse_append, List.reverse_singleton, List.singleton_append,
    List.findSome?_cons]
  cases registers? i c m <;> rfl

/-- The calls of the application among the effects of a move. -/
def request? : Outcome H → Option (ℕ × Callback)
  | .effect i x => (callback? x).map (Prod.mk i)
  | _ => none

/-- The functions that were called. -/
def reached? : Outcome H → Option (ℕ × Callback × Handler H)
  | .entered i c h => some (i, c, .fn h)
  | .warned i c _ => some (i, c, .noop)
  | _ => none

def requests (out : List (Outcome H)) : List (ℕ × Callback) := out.filterMap request?

def reached (out : List (Outcome H)) : List (ℕ × Callback × Handler H) := out.filterMap reached?

/-- The watchers are what the application registered. -/
structure Registered (w : World H) (ms : List (Move H)) : Prop where
  known : ∀ i slot c, w.slots[i]? = some slot → slot.watcher c = registered ms i c
  unknown : ∀ i c, w.slots.length ≤ i → registered ms i c = .noop

variable {heaps : ℕ → Heap} {w u : World H} {i : ℕ} {e : Event} {m : Move H}
  {out : List (Outcome H)} {slot : Slot H} {ms : List (Move H)}

@[simp] theorem requests_nil : requests ([] : List (Outcome H)) = [] := rfl

@[simp] theorem reached_nil : reached ([] : List (Outcome H)) = [] := rfl

@[simp] theorem requests_entered (i : ℕ) (c : Callback) (h : H) (xs : List (Outcome H)) :
    requests (.entered i c h :: xs) = requests xs := rfl

@[simp] theorem reached_entered (i : ℕ) (c : Callback) (h : H) (xs : List (Outcome H)) :
    reached (.entered i c h :: xs) = (i, c, .fn h) :: reached xs := rfl

@[simp] theorem requests_warned (i : ℕ) (c : Callback) (text : String) (xs : List (Outcome H)) :
    requests (.warned i c text :: xs) = requests xs := rfl

@[simp] theorem reached_warned (i : ℕ) (c : Callback) (text : String) (xs : List (Outcome H)) :
    reached (.warned i c text :: xs) = (i, c, .noop) :: reached xs := rfl

@[simp] theorem requests_append (xs ys : List (Outcome H)) :
    requests (xs ++ ys) = requests xs ++ requests ys := List.filterMap_append

@[simp] theorem reached_append (xs ys : List (Outcome H)) :
    reached (xs ++ ys) = reached xs ++ reached ys := List.filterMap_append

@[simp] theorem requests_touch (i : ℕ) (slot : Slot H) : requests (touch i slot) = [] := by
  unfold touch
  split <;> rfl

@[simp] theorem reached_touch (i : ℕ) (slot : Slot H) : reached (touch i slot) = [] := by
  unfold touch
  split <;> rfl

@[simp] theorem requests_effects (i : ℕ) (effects : List Effect) :
    requests (effects.map (Outcome.effect (H := H) i)) = (callbacks effects).map (Prod.mk i) := by
  rw [requests, List.filterMap_map, callbacks, List.map_filterMap]
  rfl

@[simp] theorem reached_effects (i : ℕ) (effects : List Effect) :
    reached (effects.map (Outcome.effect (H := H) i)) = [] := by
  rw [reached, List.filterMap_map]
  simp [reached?]

theorem registered_keep (h : Registered w ms) (hm : ∀ i c, registers? i c m = none)
    (hlen : w.slots.length ≤ u.slots.length)
    (hslots : ∀ j new, u.slots[j]? = some new →
      (∃ old, w.slots[j]? = some old ∧ new.watcher = old.watcher) ∨
        w.slots.length ≤ j ∧ new.watcher = scWatcherInit) : Registered u (ms ++ [m]) := by
  constructor
  · intro j new c hj
    rw [registered_snoc, hm, Option.getD_none]
    rcases hslots j new hj with ⟨old, hold, heq⟩ | ⟨hle, heq⟩
    · rw [heq]
      exact h.known j old c hold
    · rw [heq, h.unknown j c hle]
      rfl
  · intro j c hj
    rw [registered_snoc, hm, Option.getD_none]
    exact h.unknown j c (hlen.trans hj)

theorem setSlot_watchers (hi : w.slots[i]? = some slot) (new : Slot H)
    (hnew : new.watcher = slot.watcher) {j : ℕ} {other : Slot H}
    (hj : (w.setSlot i new).slots[j]? = some other) :
    (∃ old, w.slots[j]? = some old ∧ other.watcher = old.watcher) ∨
      w.slots.length ≤ j ∧ other.watcher = scWatcherInit := by
  by_cases hij : i = j
  · subst hij
    obtain rfl : new = other := Option.some.inj ((setSlot_get hi new).symm.trans hj)
    exact .inl ⟨slot, hi, hnew⟩
  · rw [setSlot_ne hij] at hj
    exact .inl ⟨other, hj, rfl⟩

theorem setSlot_length (w : World H) (i : ℕ) (new : Slot H) :
    (w.setSlot i new).slots.length = w.slots.length := List.length_set

theorem advance_registered (h : Advanced heaps w i e u out) (hr : Registered w ms)
    (hm : ∀ i c, registers? i c m = none) : Registered u (ms ++ [m]) := by
  have hset : ∀ {slot : Slot H} {s : ScSocket} {next : World H}, w.slots[i]? = some slot →
      next.slots = (w.setSlot i { slot with socket := s }).slots → Registered next (ms ++ [m]) := by
    intro slot s next hi hnext
    refine registered_keep hr hm ?_ ?_
    · rw [hnext, setSlot_length]
    · intro j new hj
      rw [hnext] at hj
      exact setSlot_watchers hi { slot with socket := s } rfl hj
  cases h with
  | quiet slot v effects hi hs hc => exact hset hi rfl
  | waiting slot v effects c f hi hs hc hh => exact hset hi rfl
  | warned slot v effects c hi hs hc hh => exact hset hi rfl

theorem stepRest_callbacks (s : ScSocket) (c : Callback) : callbacks (stepRest s c).2 = [] := by
  cases c <;> rfl

/-- One function of the library calls the application at most once, and what it calls is what the
watcher holds. -/
theorem advance_dispatch (h : Advanced heaps w i e u out) (hr : Registered w ms) :
    (requests out).length ≤ 1 ∧
      reached out = (requests out).map fun r => (r.1, r.2, registered ms r.1 r.2) := by
  cases h with
  | quiet slot v effects hi hs hc =>
    have hlast := stepHead_callsLast hs
    rw [CallsLast, hc] at hlast
    simp [hlast]
  | waiting slot v effects c f hi hs hc hh =>
    have hlast := stepHead_callsLast hs
    rw [CallsLast, hc] at hlast
    have hreg := hr.known i slot c hi
    rw [hh] at hreg
    simp [hlast, ← hreg]
  | warned slot v effects c hi hs hc hh =>
    have hlast := stepHead_callsLast hs
    rw [CallsLast, hc] at hlast
    have hreg := hr.known i slot c hi
    rw [hh] at hreg
    split <;> simp [hlast, stepRest_callbacks, ← hreg]

theorem move_registered (h : Made heaps w m u out) (hr : Registered w ms) :
    Registered u (ms ++ [m]) := by
  cases h with
  | unmade =>
    exact registered_keep hr (fun _ _ => rfl) le_rfl fun j new hj => .inl ⟨new, hj, rfl⟩
  | made =>
    refine registered_keep hr (fun _ _ => rfl) (by simp) ?_
    intro j new hj
    by_cases hlt : j < w.slots.length
    · exact .inl ⟨new, (List.getElem?_append_left hlt).symm.trans hj, rfl⟩
    · have hlast := (List.getElem?_append_right (Nat.le_of_not_lt hlt)).symm.trans hj
      have hnew : new = ⟨newSocket, scWatcherInit, false⟩ := by
        simpa using List.mem_of_getElem? hlast
      exact .inr ⟨Nat.le_of_not_lt hlt, by rw [hnew]⟩
  | deleted k slot hk =>
    refine registered_keep hr (fun _ _ => rfl) (setSlot_length _ _ _).ge ?_
    exact fun j new hj => setSlot_watchers hk { slot with freed := true } rfl hj
  | registered k c cb slot hk =>
    constructor
    · intro j new d hj
      rw [registered_snoc]
      by_cases hkj : k = j
      · subst hkj
        obtain rfl : scSocketOn slot c cb = new :=
          Option.some.inj ((setSlot_get hk _).symm.trans hj)
        by_cases hcd : c = d
        · subst hcd
          simp [registers?, scSocketOn]
        · simp [registers?, scSocketOn, hcd, Function.update_of_ne (Ne.symm hcd),
            hr.known k slot d hk]
      · rw [setSlot_ne hkj] at hj
        simpa [registers?, hkj] using hr.known j new d hj
    · intro j d hj
      have hlt : k < w.slots.length := (List.getElem?_eq_some_iff.mp hk).1
      rw [setSlot_length] at hj
      have hkj : k ≠ j := by omega
      rw [registered_snoc]
      simpa [registers?, hkj] using hr.unknown j d hj
  | called k e u out he h => exact advance_registered h hr fun _ _ => rfl
  | accepted server client ans slot u out hk h => exact advance_registered h hr fun _ _ => rfl
  | looped k e u out hidle he h => exact advance_registered h hr fun _ _ => rfl
  | returned k c rest hstack hc =>
    exact registered_keep hr (fun _ _ => rfl) le_rfl fun j new hj => .inl ⟨new, hj, rfl⟩
  | received k rest slot hstack hk =>
    refine registered_keep hr (fun _ _ => rfl) (setSlot_length _ _ _).ge ?_
    exact fun j new hj => setSlot_watchers hk
      { slot with socket := (stepRest slot.socket .recv).1 } rfl hj

theorem move_dispatch (h : Made heaps w m u out) (hr : Registered w ms) :
    (requests out).length ≤ 1 ∧
      reached out = (requests out).map fun r => (r.1, r.2, registered ms r.1 r.2) := by
  cases h with
  | unmade => exact ⟨Nat.zero_le 1, rfl⟩
  | made => exact ⟨Nat.zero_le 1, rfl⟩
  | deleted k slot hk =>
    rw [reached_append, requests_append, reached_touch, requests_touch]
    exact ⟨Nat.zero_le 1, rfl⟩
  | registered k c cb slot hk => simp
  | called k e u out he h => exact advance_dispatch h hr
  | accepted server client ans slot u out hk h =>
    rw [reached_append, requests_append, reached_touch, requests_touch]
    exact advance_dispatch h hr
  | looped k e u out hidle he h => exact advance_dispatch h hr
  | returned k c rest hstack hc => exact ⟨Nat.zero_le 1, rfl⟩
  | received k rest slot hstack hk => simp [stepRest_callbacks]

end Registration

/-- In every reachable state a move calls the application at most once, and the call goes to what
was registered last for its socket and its event; without a registration it is a warning. -/
theorem callbacks_dispatched {H : Type} (heaps : ℕ → Heap) (ms : List (Move H)) (w : World H)
    (past : List (Outcome H)) (hrun : run (worldStep heaps) .start ms = some (w, past))
    (m : Move H) (u : World H) (out : List (Outcome H))
    (hstep : worldStep heaps w m = some (u, out)) :
    (requests out).length ≤ 1 ∧
      reached out = (requests out).map fun r => (r.1, r.2, registered ms r.1 r.2) := by
  have hstart : Registered (World.start (H := H)) [] := by
    refine ⟨?_, fun _ _ _ => rfl⟩
    intro i slot c hi
    cases hi
  have hreg : Registered w ms := by
    refine run_traced (fun w seen _ => Registered w seen) (fun _ _ => True) ?_ hstart
      (everyStep_of_forall _ _ fun _ _ => trivial) hrun
    intro w m u seen past out _ hr hs
    exact move_registered (worldStep_made hs) hr
  exact move_dispatch (worldStep_made hstep) hreg

/-- A handler that is replaced before the close it is registered for. -/
theorem callbacks_dispatched_replaced :
    ∃ w past u out, run (worldStep fun _ => reliable zeroBlocks) .start
        [.new true true, .on 0 .close (some 3), .call 0 (.bind pipeUri noErrors),
          .on 0 .close (some 4), .call 0 .close] = some (w, past) ∧
      worldStep (fun _ => reliable zeroBlocks) w (.loop 0 .closed) = some (u, out) ∧
      requests out = [(0, .close)] ∧ reached out = [(0, .close, .fn 4)] := by
  have h := callbacks_dispatched (fun _ => reliable zeroBlocks)
    [.new true true, .on 0 .close (some 3), .call 0 (.bind pipeUri noErrors),
      .on 0 .close (some 4), .call 0 .close] _ _ rfl (.loop 0 .closed) _ _ rfl
  exact ⟨_, _, _, _, rfl, rfl, rfl, h.2.trans rfl⟩

end ShortCircuit.WatcherDispatch
