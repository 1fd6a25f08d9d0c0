import ShortCircuit.TaggedTraces
import ShortCircuit.Watchers

set_option autoImplicit false

/-!
# Nested calls are calls in a row

A callback runs inside a function of the library and may use the same socket. Each socket
of a program still goes through a run of `Socket.step`: the same calls and callbacks, one
after the other. Only the message of an `on_recv` is freed later, when the calls that the
callback made are over.
-/
namespace ShortCircuit.NestedCalls
open Message Boundary OutputMachine TaggedTraces Receive UriParser Backend OpenAttempts Socket
open SocketRuns Watchers
open CStrings (Fault CString cstrAt)

section Message

variable {m : Option ScMsg}

/-- No call of the application looks at the message in progress. -/
def setMsg (m : Option ScMsg) (uv : SocketUv) : SocketUv := { uv with msg := m }

def setResult {α : Type} (m : Option ScMsg) (r : Result α) : Result α :=
  { r with state := setMsg m r.state }

def setSocketMsg (m : Option ScMsg) (s : ScSocket) : ScSocket :=
  { s with backend := setMsg m s.backend }

theorem attempt_setMsg (a : Attempt) (init : Int) (uv : SocketUv) :
    a.result init (setMsg m uv) = setResult m (a.result init uv) := by
  unfold Attempt.result uvInit
  by_cases hi : init = 0
  · by_cases ha : a.resolved.1 = 0 <;> simp [hi, ha, setMsg, setResult]
  · simp [hi, setMsg, setResult]

theorem buvConnect_setMsg (ans : UvAnswers) (uv : SocketUv) (uri : Uri) :
    buvConnect ans (setMsg m uv) uri = (buvConnect ans uv uri).map (setResult m) := by
  unfold buvConnect
  cases scUriProtocol uri with
  | error fault => rfl
  | ok proto =>
    cases proto with
    | noset => rfl
    | pipe =>
      cases cstrAt uri.str (scUriPipeFilepath uri) with
      | error fault => rfl
      | ok path =>
        change Except.ok (connectPipe ans (setMsg m uv) path) =
          .ok (setResult m (connectPipe ans uv path))
        rw [connectPipe_attempt, connectPipe_attempt, ← attempt_setMsg]
        rfl
    | tcp =>
      cases cstrAt uri.str (scUriTcpIp4 uri) with
      | error fault => rfl
      | ok ip4 =>
        cases scUriTcpPort uri with
        | error fault => rfl
        | ok port =>
          change Except.ok (connectTcp ans (setMsg m uv) ip4 port) =
            .ok (setResult m (connectTcp ans uv ip4 port))
          rw [connectTcp_attempt, connectTcp_attempt, ← attempt_setMsg]

theorem buvBind_setMsg (ans : UvAnswers) (uv : SocketUv) (uri : Uri) :
    buvBind ans (setMsg m uv) uri = (buvBind ans uv uri).map (setResult m) := by
  unfold buvBind
  cases scUriProtocol uri with
  | error fault => rfl
  | ok proto =>
    cases proto with
    | noset => rfl
    | pipe =>
      cases cstrAt uri.str (scUriPipeFilepath uri) with
      | error fault => rfl
      | ok path =>
        change Except.ok (bindPipe ans (setMsg m { uv with proto := .pipe }) path) =
          .ok (setResult m (bindPipe ans { uv with proto := .pipe } path))
        rw [bindPipe_attempt, bindPipe_attempt, ← attempt_setMsg]
        rfl
    | tcp =>
      cases cstrAt uri.str (scUriTcpIp4 uri) with
      | error fault => rfl
      | ok ip4 =>
        cases scUriTcpPort uri with
        | error fault => rfl
        | ok port =>
          change Except.ok (bindTcp ans (setMsg m { uv with proto := .tcp }) ip4 port) =
            .ok (setResult m (bindTcp ans { uv with proto := .tcp } ip4 port))
          rw [bindTcp_attempt, bindTcp_attempt, ← attempt_setMsg]

theorem buvAccept_setMsg (ans : AcceptAnswers) (srvProto : Proto) (uv : SocketUv) :
    buvAccept ans srvProto (setMsg m uv) = (buvAccept ans srvProto uv).map (setResult m) := by
  by_cases hp : srvProto = .noset
  · simp [buvAccept, hp, Except.map]
  · by_cases hi : ans.init = 0
    · by_cases ha : ans.accept = 0
      · by_cases hr : ans.readStart = 0 <;>
          simp [buvAccept, uvInit, hp, hi, ha, hr, Except.map, setMsg, setResult]
      · simp [buvAccept, uvInit, hp, hi, ha, Except.map, setMsg, setResult]
    · simp [buvAccept, uvInit, hp, hi, Except.map, setMsg, setResult]

def setReturned (m : Option ScMsg) (r : ScSocket × Int × List Effect) :
    ScSocket × Int × List Effect :=
  (setSocketMsg m r.1, r.2)

theorem withUri_setMsg {op : UvAnswers → SocketUv → Uri → Except Fault (Result Int)}
    (hop : ∀ ans uv uri, op ans (setMsg m uv) uri = (op ans uv uri).map (setResult m))
    (env : UriEnv) (s : ScSocket) (uri : CString) :
    withUri op env (setSocketMsg m s) uri = (withUri op env s uri).map (setReturned m) := by
  unfold withUri
  cases scUriNew env.mallocOk env.strdupOk uri with
  | error fault => rfl
  | ok parsed =>
    obtain ⟨u, errcode⟩ := parsed
    cases u with
    | none => rfl
    | some u =>
      have h := hop env.uv s.backend u
      simp only [setSocketMsg, bind, Except.bind] at h ⊢
      rw [h]
      cases op env.uv s.backend u <;> rfl

theorem returned_setMsg (x : Except Fault (ScSocket × Int × List Effect)) :
    returned (x.map (setReturned m)) = (returned x).map fun r => (setSocketMsg m r.1, r.2) := by
  cases x <;> rfl

/-- The calls of the application do the same whatever message is in progress, and leave it. -/
theorem step_setMsg (heap : Heap) (s : ScSocket) {e : Event} (he : isLoop e = false) :
    step heap (setSocketMsg m s) e = (step heap s e).map fun r => (setSocketMsg m r.1, r.2) := by
  cases e with
  | connect uri env =>
    rw [step, step, ← returned_setMsg, scSocketConnect, withUri_setMsg buvConnect_setMsg]
  | bind uri env =>
    rw [step, step, ← returned_setMsg, scSocketBind, withUri_setMsg buvBind_setMsg]
  | accept srvProto ans =>
    have h := buvAccept_setMsg (m := m) ans srvProto s.backend
    simp only [step, scSocketAccept, setSocketMsg, bind, Except.bind] at h ⊢
    rw [h]
    cases buvAccept ans srvProto s.backend <;> rfl
  | listen backlog result => rfl
  | send msg result =>
    simp only [step, scSocketSend, buvSend, returned, setSocketMsg, Option.map_some]
    split <;> rfl
  | close => rfl
  | _ => cases he

end Message

def isFree : Effect → Bool
  | .msgFree _ => true
  | _ => false

/-- The same calls in the same order, except that a message may be freed later; among the calls
that concern messages the order is the same, too. -/
structure SameCalls (xs ys : List Effect) : Prop where
  order : xs.filter (fun x => !isFree x) = ys.filter (fun x => !isFree x)
  messages : xs.filter (fun x => x.family = .message) = ys.filter (fun x => x.family = .message)

theorem SameCalls.append {xs ys : List Effect} (h : SameCalls xs ys) (zs : List Effect) :
    SameCalls (xs ++ zs) (ys ++ zs) := by
  constructor
  · rw [List.filter_append, List.filter_append, h.order]
  · rw [List.filter_append, List.filter_append, h.messages]

/-- Calls that concern no message may come before a message is freed. -/
theorem SameCalls.insert {xs ys zs owed : List Effect} (h : SameCalls (xs ++ owed) ys)
    (howed : ∀ x ∈ owed, isFree x) (hzs : ∀ x ∈ zs, x.family ≠ .message) :
    SameCalls (xs ++ zs ++ owed) (ys ++ zs) := by
  have hfree : owed.filter (fun x => !isFree x) = [] := by
    rw [List.filter_eq_nil_iff]
    intro x hx
    simp [howed x hx]
  have hquiet : zs.filter (fun x => x.family = .message) = [] := by
    rw [List.filter_eq_nil_iff]
    intro x hx
    simpa using hzs x hx
  constructor
  · rw [List.filter_append, List.filter_append, List.filter_append, ← h.order, List.filter_append,
      hfree, List.append_nil, List.append_nil]
  · rw [List.filter_append, List.filter_append, List.filter_append, ← h.messages,
      List.filter_append, hquiet, List.append_nil, List.append_nil]

section Projection

variable {H : Type}

/-- A socket and its calls to come, when the running callbacks make no further calls. -/
def settled (w : World H) (i : ℕ) : ScSocket × List Effect :=
  match w.slots[i]? with
  | none => (newSocket, [])
  | some slot => if (i, .recv) ∈ w.stack then stepRest slot.socket .recv else (slot.socket, [])

def effectAt? (i : ℕ) : Outcome H → Option Effect
  | .effect j x => if j = i then some x else none
  | _ => none

def effectsAt (i : ℕ) (out : List (Outcome H)) : List Effect := out.filterMap (effectAt? i)

/-- The call or the callback that a move makes, and the socket it is about. -/
def event? (w : World H) : Move H → Option (ℕ × Event)
  | .call i e | .loop i e => some (i, e)
  | .accept server client ans =>
    w.slots[server]?.map fun slot => (client, .accept slot.socket.backend.proto ans)
  | _ => none

def flatEvents (heaps : ℕ → Heap) : World H → List (Move H) → List (ℕ × Event)
  | _, [] => []
  | w, m :: ms =>
    match worldStep heaps w m with
    | none => []
    | some (u, _) => (event? w m).toList ++ flatEvents heaps u ms

/-- The running callbacks belong to sockets of the program, and `on_recv` was called by the loop. -/
structure Nested (w : World H) : Prop where
  inside : ∀ f ∈ w.stack, f.1 < w.slots.length
  bottom : w.stack.Pairwise fun f _ => f.2 ≠ .recv

structure Follows (i : ℕ) (w : World H) (past : List (Outcome H)) (s : ScSocket)
    (flat : List Effect) : Prop where
  socket : s = (settled w i).1
  calls : SameCalls (effectsAt i past ++ (settled w i).2) flat

variable {heaps : ℕ → Heap} {w u : World H} {i j : ℕ} {e : Event} {s : ScSocket}
  {flat : List Effect} {past out : List (Outcome H)} {slot : Slot H}

@[simp] theorem effectsAt_nil (i : ℕ) : effectsAt i ([] : List (Outcome H)) = [] := rfl

@[simp] theorem effectsAt_entered (i j : ℕ) (c : Callback) (h : H) (xs : List (Outcome H)) :
    effectsAt i (.entered j c h :: xs) = effectsAt i xs := rfl

@[simp] theorem effectsAt_warned (i j : ℕ) (c : Callback) (text : String)
    (xs : List (Outcome H)) : effectsAt i (.warned j c text :: xs) = effectsAt i xs := rfl

@[simp] theorem effectsAt_deleted (i j : ℕ) (uri : Option ℕ) (xs : List (Outcome H)) :
    effectsAt i (.deleted j uri :: xs) = effectsAt i xs := rfl

@[simp] theorem effectsAt_append (i : ℕ) (xs ys : List (Outcome H)) :
    effectsAt i (xs ++ ys) = effectsAt i xs ++ effectsAt i ys := List.filterMap_append

@[simp] theorem effectsAt_touch (i j : ℕ) (slot : Slot H) : effectsAt i (touch j slot) = [] := by
  unfold touch
  split <;> rfl

@[simp] theorem effectsAt_self (i : ℕ) (effects : List Effect) :
    effectsAt i (effects.map (Outcome.effect (H := H) i)) = effects := by
  induction effects with
  | nil => rfl
  | cons x xs ih => simpa [effectsAt, effectAt?] using ih

theorem effectsAt_ne (h : j ≠ i) (effects : List Effect) :
    effectsAt i (effects.map (Outcome.effect (H := H) j)) = [] := by
  rw [effectsAt, List.filterMap_eq_nil_iff]
  intro x hx
  obtain ⟨y, _, rfl⟩ := List.mem_map.mp hx
  exact if_neg h

theorem Follows.keep (h : Follows i w past s flat) (hsame : settled u i = settled w i)
    (hquiet : effectsAt i out = []) : Follows i u (past ++ out) s flat where
  socket := by rw [hsame]; exact h.socket
  calls := by
    rw [hsame, effectsAt_append, hquiet, List.append_nil]
    exact h.calls

theorem settled_setSlot (hi : w.slots[i]? = some slot) (new : Slot H)
    (hsocket : new.socket = slot.socket) (k : ℕ) : settled (w.setSlot i new) k = settled w k := by
  unfold settled
  by_cases hk : i = k
  · subst hk
    rw [setSlot_get hi, hi]
    simp only [hsocket]
    rfl
  · rw [setSlot_ne hk]
    rfl

/-- A function that works on another socket. -/
theorem advance_other (h : Advanced heaps w j e u out) (hj : j ≠ i) :
    settled u i = settled w i ∧ effectsAt i out = [] := by
  have hslot : ∀ new : Slot H, (w.setSlot j new).slots[i]? = w.slots[i]? := setSlot_ne hj
  cases h with
  | quiet slot s effects hi hs hc =>
    refine ⟨?_, by simp [effectsAt_ne hj]⟩
    simp only [settled, hslot]
    rfl
  | waiting slot s effects c f hi hs hc hh =>
    refine ⟨?_, by simp [effectsAt_ne hj]⟩
    simp only [settled, hslot, List.mem_cons, Prod.mk.injEq, Ne.symm hj, false_and, false_or]
  | warned slot s effects c hi hs hc hh =>
    refine ⟨?_, ?_⟩
    · simp only [settled, hslot]
      rfl
    · split <;> simp [effectsAt_ne hj]

@[simp] theorem effectsAt_touched (i : ℕ) (slot : Slot H) (c : Callback) :
    effectsAt i (if c = .recv then touch i slot else []) = [] := by
  split <;> simp

theorem settled_busy (hi : w.slots[i]? = some slot) (hbusy : (i, .recv) ∈ w.stack) :
    settled w i = stepRest slot.socket .recv := by
  simp [settled, hi, hbusy]

theorem settled_free (hi : w.slots[i]? = some slot) (hfree : (i, .recv) ∉ w.stack) :
    settled w i = (slot.socket, []) := by
  simp [settled, hi, hfree]

/-- A socket none of whose `on_recv` calls is running. -/
theorem advance_free (h : Advanced heaps w i e u out) (hfree : (i, .recv) ∉ w.stack)
    (hf : Follows i w past s flat) :
    ∃ t effects, step (heaps i) s e = some (t, effects) ∧
      Follows i u (past ++ out) t (flat ++ effects) := by
  have hcalls : ∀ {slot : Slot H} (effects : List Effect), w.slots[i]? = some slot →
      SameCalls (effectsAt i past ++ effects) (flat ++ effects) := by
    intro slot effects hi
    have hsame := hf.calls
    rw [settled_free hi hfree, List.append_nil] at hsame
    exact hsame.append effects
  cases h with
  | quiet slot v effects hi hs hc =>
    obtain ⟨-, hstep⟩ | ⟨c, hc', -⟩ := step_of_head hs
    · have hnext : settled (w.setSlot i { slot with socket := v }) i = (v, []) :=
        settled_free (setSlot_get hi _) hfree
      rw [hf.socket, settled_free hi hfree]
      refine ⟨_, _, hstep, ?_, ?_⟩
      · rw [hnext]
      · rw [hnext]
        simpa using hcalls _ hi
    · rw [hc] at hc'
      cases hc'
  | waiting slot v effects c f hi hs hc hh =>
    obtain ⟨hc', -⟩ | ⟨c', hc', hstep⟩ := step_of_head hs
    · rw [hc] at hc'
      cases hc'
    · rw [hc] at hc'
      obtain rfl := Option.some.inj hc'
      have hnext : settled
          { w.setSlot i { slot with socket := v } with stack := (i, c) :: w.stack } i =
            stepRest v c := by
        simp only [settled, setSlot_get hi]
        cases c <;> simp [hfree, stepRest]
      rw [hf.socket, settled_free hi hfree]
      refine ⟨_, _, hstep, ?_, ?_⟩
      · rw [hnext]
      · rw [hnext]
        simpa using hcalls (effects ++ (stepRest v c).2) hi
  | warned slot v effects c hi hs hc hh =>
    obtain ⟨hc', -⟩ | ⟨c', hc', hstep⟩ := step_of_head hs
    · rw [hc] at hc'
      cases hc'
    · rw [hc] at hc'
      obtain rfl := Option.some.inj hc'
      have hnext : settled (w.setSlot i { slot with socket := (stepRest v c).1 }) i =
          ((stepRest v c).1, []) := settled_free (setSlot_get hi _) hfree
      rw [hf.socket, settled_free hi hfree]
      refine ⟨_, _, hstep, ?_, ?_⟩
      · rw [hnext]
      · rw [hnext]
        simpa using hcalls (effects ++ (stepRest v c).2) hi

theorem stepRest_recv (s : ScSocket) :
    stepRest s .recv = (setSocketMsg none s, [.msgFree (s.backend.msg.map ScMsg.id)]) := rfl

/-- A call of the application inside an `on_recv` of the same socket. -/
theorem advance_busy (h : Advanced heaps w i e u out) (he : isLoop e = false)
    (hbusy : (i, .recv) ∈ w.stack) (hf : Follows i w past s flat) :
    ∃ t effects, step (heaps i) s e = some (t, effects) ∧
      Follows i u (past ++ out) t (flat ++ effects) := by
  have hrecv : ∀ r, e ≠ .recv r := by
    rintro r rfl
    cases he
  have hmain : ∀ (slot : Slot H) (v : ScSocket) (effects : List Effect),
      w.slots[i]? = some slot → stepHead (heaps i) slot.socket e = some (v, effects) →
      step (heaps i) s e = some ((stepRest v .recv).1, effects) ∧ calledBack effects ≠ some .recv ∧
        SameCalls (effectsAt i past ++ effects ++ (stepRest v .recv).2) (flat ++ effects) := by
    intro slot v effects hi hs
    rw [stepHead_eq _ hrecv] at hs
    have hquiet := step_quiet hs hrecv
    have hsame := step_setMsg (m := slot.socket.backend.msg) (heaps i) slot.socket he
    have hset : setSocketMsg slot.socket.backend.msg slot.socket = slot.socket := rfl
    rw [hset, hs, Option.map_some, Option.some.injEq, Prod.mk.injEq] at hsame
    have hmsg : v.backend.msg = slot.socket.backend.msg := by rw [hsame.1]; rfl
    refine ⟨?_, ?_, ?_⟩
    · rw [hf.socket, settled_busy hi hbusy, stepRest_recv, step_setMsg _ _ he, hs]
      rfl
    · intro hc
      obtain ⟨x, hx, hfam⟩ := calledBack_recv hc
      exact hquiet x hx hfam
    · have hcalls := hf.calls
      rw [settled_busy hi hbusy, stepRest_recv] at hcalls
      rw [stepRest_recv, hmsg]
      exact hcalls.insert (by simp [isFree]) hquiet
  cases h with
  | quiet slot v effects hi hs hc =>
    obtain ⟨hstep, -, hcalls⟩ := hmain slot v effects hi hs
    have hnext : settled (w.setSlot i { slot with socket := v }) i = stepRest v .recv :=
      settled_busy (setSlot_get hi _) hbusy
    refine ⟨_, _, hstep, ?_, ?_⟩
    · rw [hnext]
    · rw [hnext]
      simpa using hcalls
  | waiting slot v effects c f hi hs hc hh =>
    obtain ⟨hstep, -, hcalls⟩ := hmain slot v effects hi hs
    have hnext : settled
        { w.setSlot i { slot with socket := v } with stack := (i, c) :: w.stack } i =
          stepRest v .recv := by
      simp only [settled, setSlot_get hi, List.mem_cons_of_mem _ hbusy, if_true]
    refine ⟨_, _, hstep, ?_, ?_⟩
    · rw [hnext]
    · rw [hnext]
      simpa using hcalls
  | warned slot v effects c hi hs hc hh =>
    obtain ⟨hstep, hne, hcalls⟩ := hmain slot v effects hi hs
    have hrest : stepRest v c = (v, []) := by
      cases c <;> first | rfl | exact absurd hc hne
    have hnext : settled (w.setSlot i { slot with socket := (stepRest v c).1 }) i =
        stepRest v .recv := by
      rw [hrest]
      exact settled_busy (setSlot_get hi _) hbusy
    refine ⟨_, _, hstep, ?_, ?_⟩
    · rw [hnext]
    · rw [hnext]
      simpa [hrest] using hcalls

theorem isLoop_of_isCall (h : isCall e = true) : isLoop e = false := by
  cases e <;> first | rfl | cases h

theorem advance_follows (hidle : isLoop e = true → w.stack = [])
    (h : Advanced heaps w j e u out) (hf : Follows i w past s flat) :
    ∃ t effects, run (step (heaps i)) s (part i [(j, e)]) = some (t, effects) ∧
      Follows i u (past ++ out) t (flat ++ effects) := by
  by_cases hj : j = i
  · subst hj
    have hone : ∃ t effects, step (heaps j) s e = some (t, effects) ∧
        Follows j u (past ++ out) t (flat ++ effects) := by
      by_cases hbusy : (j, .recv) ∈ w.stack
      · refine advance_busy h ?_ hbusy hf
        by_contra hloop
        rw [hidle (by simpa using hloop)] at hbusy
        cases hbusy
      · exact advance_free h hbusy hf
    obtain ⟨t, effects, hs, hf'⟩ := hone
    refine ⟨t, effects, ?_, hf'⟩
    rw [part_cons_self]
    exact (run_cons_iff _ _ _ _ _ _).mpr ⟨t, effects, [], hs, rfl, by simp⟩
  · obtain ⟨hsame, hquiet⟩ := advance_other h hj
    rw [part_cons_ne hj]
    refine ⟨s, [], rfl, ?_⟩
    rw [List.append_nil]
    exact hf.keep hsame hquiet

/-- One move is no event or one event of the socket it works on. -/
theorem move_follows {m : Move H} (hn : Nested w) (h : Made heaps w m u out)
    (hf : Follows i w past s flat) :
    ∃ t effects, run (step (heaps i)) s (part i (event? w m).toList) = some (t, effects) ∧
      Follows i u (past ++ out) t (flat ++ effects) := by
  have hquiet : settled u i = settled w i → effectsAt i out = [] → event? w m = none →
      ∃ t effects, run (step (heaps i)) s (part i (event? w m).toList) = some (t, effects) ∧
        Follows i u (past ++ out) t (flat ++ effects) := by
    intro hsame hout hevent
    rw [hevent]
    refine ⟨s, [], rfl, ?_⟩
    rw [List.append_nil]
    exact hf.keep hsame hout
  cases h with
  | unmade => exact hquiet rfl rfl rfl
  | made =>
    refine hquiet ?_ rfl rfl
    by_cases hi : i < w.slots.length
    · simp only [settled, List.getElem?_append_left hi]
    · have hfree : (i, Callback.recv) ∉ w.stack := fun hmem => hi (hn.inside _ hmem)
      have hnone : w.slots[i]? = none := List.getElem?_eq_none (by omega)
      by_cases heq : i = w.slots.length
      · simp [settled, heq, heq ▸ hfree]
      · have hbeyond : w.slots.length + 1 ≤ i := by omega
        simp [settled, hnone, List.getElem?_eq_none, hbeyond]
  | deleted k slot hk =>
    exact hquiet (settled_setSlot hk { slot with freed := true } rfl i) (by simp) rfl
  | registered k c cb slot hk =>
    exact hquiet (settled_setSlot hk (scSocketOn slot c cb) rfl i) (by simp) rfl
  | called k e u out he h =>
    refine advance_follows ?_ h hf
    rw [isLoop_of_isCall he]
    intro hloop
    cases hloop
  | accepted server client ans slot u out hk h =>
    obtain ⟨t, effects, hs, hf'⟩ := advance_follows (by intro hloop; cases hloop) h hf
    refine ⟨t, effects, ?_, hf'.socket, ?_⟩
    · simp only [event?, hk]
      exact hs
    · have hcalls := hf'.calls
      simp only [effectsAt_append, effectsAt_touch, List.nil_append] at hcalls ⊢
      exact hcalls
  | looped k e u out hidle he h => exact advance_follows (fun _ => hidle) h hf
  | returned k c rest hstack hc =>
    refine hquiet ?_ rfl rfl
    have hiff : (i, Callback.recv) ∈ w.stack ↔ (i, Callback.recv) ∈ rest := by
      simp [hstack, Ne.symm hc]
    simp only [settled, hiff]
  | received k rest slot hstack hk =>
    have hnil : rest = [] := by
      have hbottom := hn.bottom
      rw [hstack, List.pairwise_cons] at hbottom
      exact List.eq_nil_iff_forall_not_mem.mpr fun f hmem => hbottom.1 f hmem rfl
    subst hnil
    by_cases hki : k = i
    · subst hki
      have hbefore : settled w k = stepRest slot.socket .recv :=
        settled_busy hk (by rw [hstack]; exact List.mem_cons_self)
      have hnext : settled { w.setSlot k { slot with socket := (stepRest slot.socket .recv).1 } with
          stack := [] } k = ((stepRest slot.socket .recv).1, []) := by
        simp only [settled, setSlot_get hk, List.not_mem_nil, if_false]
      refine ⟨s, [], rfl, ?_, ?_⟩
      · rw [hnext, hf.socket, hbefore]
      · have hcalls := hf.calls
        rw [hbefore] at hcalls
        rw [hnext]
        simpa using hcalls
    · refine hquiet ?_ (by simp [effectsAt_ne hki]) rfl
      have hslot := setSlot_ne (w := w) hki { slot with socket := (stepRest slot.socket .recv).1 }
      simp only [settled, hslot, hstack, List.mem_singleton, Prod.mk.injEq, Ne.symm hki, false_and,
        List.not_mem_nil]

theorem advance_nested (hidle : isLoop e = true → w.stack = []) (hn : Nested w)
    (h : Advanced heaps w j e u out) : Nested u := by
  cases h with
  | quiet slot v effects hi hs hc =>
    exact ⟨fun f hmem => by simpa [World.setSlot] using hn.inside f hmem, hn.bottom⟩
  | warned slot v effects c hi hs hc hh =>
    exact ⟨fun f hmem => by simpa [World.setSlot] using hn.inside f hmem, hn.bottom⟩
  | waiting slot v effects c f hi hs hc hh =>
    have hlt : j < w.slots.length := (List.getElem?_eq_some_iff.mp hi).1
    refine ⟨?_, List.pairwise_cons.mpr ⟨?_, hn.bottom⟩⟩
    · intro g hmem
      have hin : g = (j, c) ∨ g ∈ w.stack := List.mem_cons.mp hmem
      rcases hin with rfl | hin
      · simpa [World.setSlot] using hlt
      · simpa [World.setSlot] using hn.inside g hin
    · intro g hmem hrecv
      have hloop : isLoop e = true := by
        by_contra hno
        have hne : ∀ r, e ≠ .recv r := by
          rintro r rfl
          exact hno rfl
        have hstep : step (heaps j) slot.socket e = some (v, effects) := stepHead_eq _ hne ▸ hs
        have hcall : c = .recv := hrecv
        rw [hcall] at hc
        obtain ⟨x, hx, hfam⟩ := calledBack_recv hc
        exact step_quiet hstep hne x hx hfam
      have hmem' : g ∈ w.stack := hmem
      rw [hidle hloop] at hmem'
      cases hmem'

theorem move_nested {m : Move H} (hn : Nested w) (h : Made heaps w m u out) : Nested u := by
  cases h with
  | unmade => exact hn
  | made =>
    refine ⟨?_, hn.bottom⟩
    intro f hmem
    have hlt := hn.inside f hmem
    simp only [List.length_append, List.length_singleton]
    omega
  | deleted k slot hk => exact ⟨fun f hmem => by simpa [World.setSlot] using hn.inside f hmem, hn.bottom⟩
  | registered k c cb slot hk =>
    exact ⟨fun f hmem => by simpa [World.setSlot] using hn.inside f hmem, hn.bottom⟩
  | called k e u out he h =>
    refine advance_nested ?_ hn h
    rw [isLoop_of_isCall he]
    intro hloop
    cases hloop
  | accepted server client ans slot u out hk h =>
    exact advance_nested (by intro hloop; cases hloop) hn h
  | looped k e u out hidle he h => exact advance_nested (fun _ => hidle) hn h
  | returned k c rest hstack hc =>
    obtain ⟨hinside, hbottom⟩ := hn
    rw [hstack] at hinside hbottom
    exact ⟨fun f hmem => hinside f (List.mem_cons_of_mem _ hmem), (List.pairwise_cons.mp hbottom).2⟩
  | received k rest slot hstack hk =>
    obtain ⟨hinside, hbottom⟩ := hn
    rw [hstack] at hinside hbottom
    refine ⟨?_, (List.pairwise_cons.mp hbottom).2⟩
    intro f hmem
    simpa [World.setSlot] using hinside f (List.mem_cons_of_mem _ hmem)

theorem nested_start : Nested (World.start (H := H)) :=
  ⟨fun _ hmem => absurd hmem List.not_mem_nil, .nil⟩

theorem run_follows {ms : List (Move H)} {v : World H} (hn : Nested w)
    (hf : Follows i w past s flat) (h : run (worldStep heaps) w ms = some (v, out)) :
    ∃ t effects, run (step (heaps i)) s (part i (flatEvents heaps w ms)) = some (t, effects) ∧
      Follows i v (past ++ out) t (flat ++ effects) := by
  induction ms generalizing w past s flat out with
  | nil =>
    obtain ⟨rfl, rfl⟩ := Prod.mk.inj (Option.some.inj h)
    exact ⟨s, [], rfl, by simpa using hf⟩
  | cons m ms ih =>
    obtain ⟨u, o, more, hu, hr, rfl⟩ := (run_cons_iff _ _ _ _ _ _).mp h
    have hmade := worldStep_made hu
    obtain ⟨t, effects, ht, hf'⟩ := move_follows hn hmade hf
    obtain ⟨t', effects', ht', hf''⟩ := ih (move_nested hn hmade) hf' hr
    refine ⟨t', effects ++ effects', ?_, ?_⟩
    · simp only [flatEvents, hu, part_append]
      exact (run_append_iff _ _ _ _ _ _).mpr ⟨t, effects, effects', ht, ht', rfl⟩
    · simpa only [List.append_assoc] using hf''

end Projection

/-- However callbacks and calls are nested, each socket goes through the run of its own calls and
callbacks one after the other. -/
theorem nested_refines_flat {H : Type} (heaps : ℕ → Heap) (ms : List (Move H)) (w : World H)
    (out : List (Outcome H)) (hrun : run (worldStep heaps) .start ms = some (w, out)) (i : ℕ) :
    ∃ flat, run (step (heaps i)) newSocket (part i (flatEvents heaps .start ms)) =
        some ((settled w i).1, flat) ∧
      SameCalls (effectsAt i out ++ (settled w i).2) flat := by
  have hstart : Follows i (World.start (H := H)) [] newSocket [] := ⟨rfl, rfl, rfl⟩
  obtain ⟨t, flat, hflat, hf⟩ := run_follows nested_start hstart hrun
  obtain rfl := hf.socket
  exact ⟨flat, hflat, hf.calls⟩

/-- A server accepts a peer inside `on_connection` and closes it inside `on_recv`. -/
def nestedServer : List (Move ℕ) :=
  [.new true true, .new true true, .on 0 .connection (some 10), .on 1 .accept (some 11),
    .on 1 .recv (some 12), .call 0 (.bind pipeUri noErrors), .call 0 (.listen 4 0),
    .loop 0 (.connection 0), .accept 0 1 ⟨0, 0, 0⟩, .ret, .ret, .loop 1 (.recv (.alloc 64)),
    .loop 1 (.recv (.read [0, 0, 0, 0])), .call 1 .close, .ret, .loop 1 .closed]

theorem nested_refines_flat_server :
    ∃ w out, run (worldStep fun _ => reliable zeroBlocks) .start nestedServer = some (w, out) ∧
      ∃ flat, run (step (reliable zeroBlocks)) newSocket
          [.accept .pipe ⟨0, 0, 0⟩, .recv (.alloc 64), .recv (.read [0, 0, 0, 0]), .close, .closed] =
            some ((settled w 1).1, flat) ∧
        SameCalls (effectsAt 1 out ++ (settled w 1).2) flat :=
  ⟨_, _, rfl, nested_refines_flat (fun _ => reliable zeroBlocks) nestedServer _ _ rfl 1⟩

end ShortCircuit.NestedCalls
