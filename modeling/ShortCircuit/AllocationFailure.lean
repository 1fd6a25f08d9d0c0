import ShortCircuit.Library

set_option autoImplicit false

/-!
# Failing allocations

`sc_uri_new` survives every failed allocation and releases what it had. The other
places do not: `sc_socket_new` does not test the global backend and frees the wrong
pointer when the backend block fails, `alloc_wrap` uses a message that it did not get,
and `read_wrap` frees one that is not there. `Supplied` excludes exactly these calls.
-/
namespace ShortCircuit.AllocationFailure
open Message Boundary HeapCalls OutputMachine Receive UriParser Backend Socket SocketRuns Library
open CStrings (Fault)

/-- No null message, socket or backend is followed, no null message is freed, and a call that
reports failure has released its blocks. -/
def Robust : Act → Prop
  | .produced _ _ _ => True
  | .freed key _ => key ≠ none
  | .done calls ok => ok = false → held calls = []
  | .crashed what => what = .string

/-- The condition on one call: `sc_socket_new` gets its first block only with the backend set and
the second block to come, a message that is needed is obtained, and a stream ends only while a
message is held. -/
def Supplied (heaps : ℕ → Heap) (lib : Globals) : Call → Prop
  | .socketNew mallocOk backendOk =>
    mallocOk = true → lib.backend = .libuv ∧ backendOk = true
  | .recv i (.alloc _) =>
    ∀ uv, lib.sockets[i]? = some uv → uv.msg = none → heaps i uv.allocs ≠ none
  | .recv i (.stop _) => ∀ uv, lib.sockets[i]? = some uv → uv.msg ≠ none
  | .msgAlloc _ answer => lib.msgAlloc = .defaultHeapAlloc → answer ≠ none
  | _ => True

/-- A buffer that libuv holds belongs to a message. -/
def Backed (uv : Receiver) : Prop := uv.offered ≠ none → uv.msg ≠ none

theorem backed_init : Backed .init := fun h => absurd rfl h

theorem backed_step {heap : Heap} {uv v : Receiver} {e : ReadEvent} {effects : List Effect}
    (h : recvStep heap uv e = some (v, effects)) : Backed v := by
  cases recvStep_moved h with
  | offered sg msg hm => exact fun _ => by simp [hm]
  | fresh sg b hb hm => exact fun _ hn => (nomatch hn)
  | _ => exact fun hn => absurd rfl hn

def AllBacked (lib : Globals) : Prop := ∀ uv ∈ lib.sockets, Backed uv.toReceiver

variable {heaps : ℕ → Heap} {lib next : Globals} {call : Call} {acts : List Act}

theorem allBacked_set {i : ℕ} {v : SocketUv} (h : AllBacked lib) (hv : Backed v.toReceiver) :
    AllBacked { lib with sockets := lib.sockets.set i v } := by
  intro w hw
  rcases List.mem_or_eq_of_mem_set hw with hw | rfl
  · exact h w hw
  · exact hv

theorem backed_accept {ans : AcceptAnswers} {srvProto : Proto} {uv : SocketUv} {r : Result Unit}
    (h : Backed uv.toReceiver) (hr : buvAccept ans srvProto uv = .ok r) :
    Backed r.state.toReceiver := by
  have hopened := buvAccept_opened hr
  generalize (ans.init == 0) = ok at hopened
  cases hopened with
  | untouched _ hsame _ => exact hsame ▸ h
  | refused _ _ _ _ hsame _ _ _ => exact hsame ▸ h
  | ready _ _ _ _ _ _ _ hnew _ _ _ =>
    rw [hnew]
    exact fun hn => absurd rfl hn

theorem allBacked_step (h : AllBacked lib) (hs : libStep heaps lib call = some (next, acts)) :
    AllBacked next := by
  cases libStep_called hs with
  | initialised backend recAlloc recFree =>
    have hsame : (scInit backend recAlloc recFree lib).sockets = lib.sockets := by
      simp only [scInit, scMsgInitAllocator]
      split <;> rfl
    intro uv huv
    exact h uv (hsame ▸ huv)
  | socketMade mallocOk backendOk socket calls hm =>
    obtain ⟨rfl, _⟩ := scSocketNewCalls_some hm
    intro uv huv
    rcases List.mem_append.mp huv with huv | huv
    · exact h uv huv
    · rw [List.mem_singleton.mp huv]
      exact backed_init
  | accepted i srvProto ans uv r hi hr =>
    exact allBacked_set h (backed_accept (h uv (List.mem_of_getElem? hi)) hr)
  | closed i uv hi => exact allBacked_set h (h uv (List.mem_of_getElem? hi))
  | received i e uv v effects hi hr => exact allBacked_set h (backed_step hr)
  | _ => exact h

/-- With libuv's buffers backed by messages, only a message that was not obtained is followed. -/
theorem recvCall_fault {heap : Heap} {uv : Receiver} {e : ReadEvent} {fault : Fault}
    (hb : Backed uv) (h : recvCall heap uv e = some (.error fault)) :
    ∃ sg, e = .alloc sg ∧ uv.msg = none ∧ heap uv.allocs = none := by
  cases e with
  | alloc sg =>
    refine ⟨sg, rfl, ?_⟩
    cases hm : uv.msg with
    | some msg => simp [recvCall, allocWrap, hm] at h
    | none =>
      cases ha : heap uv.allocs with
      | none => exact ⟨rfl, rfl⟩
      | some b => simp [recvCall, allocWrap, hm, scMsgAlloc, ha, scMsgInit] at h
  | read bytes =>
    cases ho : uv.offered with
    | none => simp [recvCall, ho] at h
    | some buf =>
      obtain ⟨msg, hm⟩ := Option.ne_none_iff_exists'.mp (hb (by simp [ho]))
      by_cases hle : bytes.length ≤ buf.len
      · simp only [recvCall, ho, hle, if_true, readWrap, hm, Option.map_some,
          Option.some.injEq] at h
        split_ifs at h
      · simp [recvCall, ho, hle] at h
  | stop nread =>
    by_cases hneg : nread < 0
    · simp [recvCall, readWrap, hneg] at h
    · simp [recvCall, hneg] at h

theorem supplied_received {i : ℕ} {e : ReadEvent} {uv : SocketUv} {v : Receiver}
    {effects : List Effect} (hi : lib.sockets[i]? = some uv)
    (h : recvStep (heaps i) uv.toReceiver e = some (v, effects)) :
    (∀ x ∈ effects.filterMap (messageAct lib i), Robust x) ↔ Supplied heaps lib (.recv i e) := by
  cases recvStep_moved h with
  | offered sg msg hm =>
    refine iff_of_true (by simp [messageAct]) ?_
    intro w hw hnone
    rw [Option.some.inj (hi.symm.trans hw)] at hm
    rw [hnone] at hm
    cases hm
  | fresh sg b hb hm =>
    refine iff_of_true (by simp [messageAct, Robust]) ?_
    intro w hw _
    rw [← Option.some.inj (hi.symm.trans hw), hb]
    exact fun hn => (nomatch hn)
  | waited buf ho => exact iff_of_true (by simp) trivial
  | advanced bytes buf msg ho hlen hne hm hfin => exact iff_of_true (by simp) trivial
  | delivered bytes buf msg ho hlen hne hm hfin =>
    exact iff_of_true (by simp [messageAct, Robust]) trivial
  | stopped nread hneg =>
    simp only [messageAct, List.filterMap_cons, List.filterMap_nil, List.forall_mem_singleton,
      Robust, Supplied, hi, Option.some.injEq, forall_eq']
    cases uv.msg <;> simp

theorem robust_step (hb : AllBacked lib) (hs : libStep heaps lib call = some (next, acts)) :
    (∀ x ∈ acts, Robust x) ↔ Supplied heaps lib call := by
  cases libStep_called hs with
  | initialised backend recAlloc recFree => exact iff_of_true (by simp) trivial
  | socketMade mallocOk backendOk socket calls h =>
    exact iff_of_true (by simp [Robust]) fun _ => (scSocketNewCalls_some h).2
  | socketFailed mallocOk backendOk calls h =>
    rw [List.forall_mem_singleton]
    exact (forall_prop_of_true rfl).trans (scSocketNewCalls_none h)
  | socketCrashed mallocOk backendOk what h =>
    obtain ⟨rfl, rfl, hnull⟩ := scSocketNewCalls_error h
    refine iff_of_false (by simp [Robust]) fun hsup => ?_
    rw [(hsup rfl).1] at hnull
    cases hnull
  | parsed mallocOk strdupOk instr uri errcode calls h =>
    refine iff_of_true (List.forall_mem_singleton.mpr fun hno => ?_) trivial
    have hnone : uri = none := by simpa using hno
    exact (scUriNewCalls_released _ _ _ _ _ _ h hnone).2
  | accepted i srvProto ans uv r hi hr => exact iff_of_true (by simp) trivial
  | closed i uv hi => exact iff_of_true (by simp) trivial
  | parseCrashed mallocOk strdupOk instr => exact iff_of_true (by simp [Robust]) trivial
  | received i e uv v effects hi h => exact supplied_received hi h
  | recvCrashed i e uv fault hi h =>
    obtain ⟨sg, rfl, hm, ha⟩ := recvCall_fault (hb uv (List.mem_of_getElem? hi)) h
    exact iff_of_false (by simp [Robust]) fun hsup => hsup uv hi hm ha
  | obtained size b => exact iff_of_true (by simp [Robust]) fun _ hn => (nomatch hn)
  | unobtained size h => exact iff_of_true (by simp) fun hfn => absurd hfn h
  | allocCrashed size h => exact iff_of_false (by simp [Robust]) fun hsup => hsup h rfl
  | released n h => exact iff_of_true (by simp [Robust]) trivial

/-- Over every run of the library no null message, socket or backend is used, no null message is
freed and no failed call keeps a block, exactly when every call is supplied. -/
theorem allocation_failure_iff (heaps : ℕ → Heap) (calls : List Call) (lib : Globals)
    (acts : List Act) (hrun : run (libStep heaps) .start calls = some (lib, acts)) :
    (∀ x ∈ acts, Robust x) ↔ EveryStep (libStep heaps) (Supplied heaps) .start calls :=
  outputs_iff (fun _ => True) AllBacked (fun _ _ _ _ _ h hs => allBacked_step h hs) Robust
    (Supplied heaps) (fun _ _ _ _ _ h hs => robust_step h hs) (fun _ _ => trivial)
    (fun _ h => (nomatch h)) hrun

def allFail : ℕ → Heap := fun _ _ => none

def accepting : AcceptAnswers := ⟨0, 0, 0⟩

theorem allocation_failure_early :
    ∃ lib acts, run (libStep fun _ => reliable zeroBlocks) .start
        [.socketNew false true, .init .libuv none none, .uriNew true false ⟨[120], by decide⟩,
          .uriNew true true ⟨[120], by decide⟩, .socketNew true true, .accept 0 .pipe accepting,
          .recv 0 (.alloc 65536), .recv 0 (.stop uvEof)] = some (lib, acts) ∧
      ∀ x ∈ acts, Robust x := by
  have h := allocation_failure_iff (fun _ => reliable zeroBlocks) [.socketNew false true,
    .init .libuv none none, .uriNew true false ⟨[120], by decide⟩,
    .uriNew true true ⟨[120], by decide⟩, .socketNew true true, .accept 0 .pipe accepting,
    .recv 0 (.alloc 65536), .recv 0 (.stop uvEof)] _ _ rfl
  refine ⟨_, _, rfl, h.mpr ?_⟩
  refine (everyStep_cons _ rfl).mpr ⟨fun hno => (nomatch hno), ?_⟩
  refine (everyStep_cons _ rfl).mpr ⟨trivial, ?_⟩
  refine (everyStep_cons _ rfl).mpr ⟨trivial, ?_⟩
  refine (everyStep_cons _ rfl).mpr ⟨trivial, ?_⟩
  refine (everyStep_cons _ rfl).mpr ⟨fun _ => ⟨rfl, rfl⟩, ?_⟩
  refine (everyStep_cons _ rfl).mpr ⟨trivial, ?_⟩
  refine (everyStep_cons _ rfl).mpr ⟨fun uv _ _ hno => (nomatch hno), ?_⟩
  refine (everyStep_cons _ rfl).mpr ⟨?_, trivial⟩
  intro uv huv hnone
  rw [← Option.some.inj huv] at hnone
  cases hnone

/-- A socket before the backend is set, a socket without its backend block, a message that the
hook does not return, and the end of a stream after an empty message. -/
theorem allocation_failures_hurt :
    (∃ lib, run (libStep allFail) .start [.init .notset none none, .socketNew true true] =
      some (lib, [.crashed .backend])) ∧
    ¬ Robust (.crashed .backend) ∧
    (∃ lib, run (libStep allFail) .start [.init .libuv none none, .socketNew true false] =
      some (lib, [.done [.malloc .socket, .free none] false])) ∧
    ¬ Robust (.done [.malloc .socket, .free none] false) ∧
    (∃ lib, run (libStep allFail) .start [.init .libuv none none, .socketNew true true,
        .accept 0 .pipe accepting, .recv 0 (.alloc 65536)] =
      some (lib, [.done [.malloc .socket, .malloc .backend] true, .crashed .message])) ∧
    ¬ Robust (.crashed .message) ∧
    (∃ lib, run (libStep fun _ => reliable zeroBlocks) .start [.init .libuv none none,
        .socketNew true true, .accept 0 .pipe accepting, .recv 0 (.alloc 65536),
        .recv 0 (.read [0]), .recv 0 (.stop uvEof)] =
      some (lib, [.done [.malloc .socket, .malloc .backend] true,
        .produced (.socket 0 0) .defaultHeapAlloc (some .defaultHeapFree),
        .freed (some (.socket 0 0)) .defaultHeapFree, .freed none .defaultHeapFree])) ∧
    ¬ Robust (.freed none .defaultHeapFree) := by
  refine ⟨⟨_, rfl⟩, ?_, ⟨_, rfl⟩, ?_, ⟨_, rfl⟩, ?_, ⟨_, rfl⟩, ?_⟩
  · exact fun h => (nomatch h)
  · intro h
    exact absurd (h rfl) (by decide)
  · exact fun h => (nomatch h)
  · exact fun h => h rfl

end ShortCircuit.AllocationFailure
