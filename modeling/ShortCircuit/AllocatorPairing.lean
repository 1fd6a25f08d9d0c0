import ShortCircuit.Library

set_option autoImplicit false

/-!
# Pairing of the message hooks

`sc_init` replaces each hook on its own and does not look at the messages that are
alive, so a message can meet a free function that does not belong to its allocator.
`KeepsPairs` is what the calls of `sc_init` have to respect, and `PairsKept` below says
that then every message alive was produced for the free function that is installed.
-/
namespace ShortCircuit.AllocatorPairing
open Message Boundary OutputMachine Receive Backend Socket SocketRuns Library

/-- Every message that is freed was produced once, by an allocator to which the free function
belongs. -/
def Paired (acts : List Act) : Prop :=
  ∀ key fn, .freed (some key) fn ∈ acts →
    ∃ a, .produced key a (some fn) ∈ acts ∧
      ∀ b p, .produced key b p ∈ acts → b = a ∧ p = some fn

def Alive (lib : Globals) : MsgKey → Prop
  | .socket i id => ∃ uv, lib.sockets[i]? = some uv ∧ uv.msg.map ScMsg.id = some id
  | .app n => n ∈ lib.owned

def Issued (lib : Globals) : MsgKey → Prop
  | .socket i id => ∃ uv, lib.sockets[i]? = some uv ∧ id < uv.allocs
  | .app n => n < lib.messages

/-- After `sc_init` the two hooks come from one call, and the free function is not replaced while a
message is alive. -/
def KeepsPairs (lib : Globals) : Call → Prop
  | .init backend recAlloc recFree =>
    (scInit backend recAlloc recFree lib).partner =
        some (scInit backend recAlloc recFree lib).msgFree ∧
      ((∃ key, Alive lib key) →
        (scInit backend recAlloc recFree lib).msgFree = lib.msgFree)
  | _ => True

def key? : Act → Option MsgKey
  | .produced key _ _ => some key
  | .freed key _ => key
  | _ => none

structure PairsKept (lib : Globals) (past : List Act) : Prop where
  hooks : lib.partner = some lib.msgFree
  alive : ∀ key, Alive lib key → ∃ a, .produced key a (some lib.msgFree) ∈ past
  issued : ∀ key a p, .produced key a p ∈ past → Issued lib key
  once : ∀ key a b p q, .produced key a p ∈ past → .produced key b q ∈ past → b = a ∧ q = p
  paired : ∀ key fn, .freed (some key) fn ∈ past → ∃ a, .produced key a (some fn) ∈ past

theorem pairsKept_start : PairsKept .start [] where
  hooks := rfl
  alive := by
    rintro (⟨i, id⟩ | n) h
    · obtain ⟨uv, huv, _⟩ := h
      simp [Globals.start] at huv
    · simp [Alive, Globals.start] at h
  issued := by simp
  once := by simp
  paired := by simp

theorem PairsKept.pairs {lib : Globals} {past : List Act} (h : PairsKept lib past) : Paired past := by
  intro key fn hf
  obtain ⟨a, ha⟩ := h.paired key fn hf
  exact ⟨a, ha, fun b p hb => h.once key a b (some fn) p ha hb⟩

section Entries

variable {lib next : Globals} {past acts : List Act} {key : MsgKey}

/-- A step may free what is alive, with the hook that is installed, and produce what was never
issued. -/
theorem PairsKept.extend (h : PairsKept lib past) (hhooks : next.partner = some next.msgFree)
    (hfree : (∃ k, Alive lib k) → next.msgFree = lib.msgFree)
    (halive : ∀ k, Alive next k → Alive lib k ∨ ∃ a, .produced k a next.partner ∈ acts)
    (hissued : ∀ k, Issued lib k → Issued next k)
    (hproduced : ∀ k a p, .produced k a p ∈ acts → ¬ Issued lib k ∧ Issued next k)
    (honce : ∀ k a b p q, .produced k a p ∈ acts → .produced k b q ∈ acts → b = a ∧ q = p)
    (hfreed : ∀ k fn, .freed (some k) fn ∈ acts → Alive lib k ∧ fn = lib.msgFree) :
    PairsKept next (past ++ acts) where
  hooks := hhooks
  alive := by
    intro k hk
    rcases halive k hk with hk | ⟨a, ha⟩
    · obtain ⟨a, ha⟩ := h.alive k hk
      rw [hfree ⟨k, hk⟩]
      exact ⟨a, List.mem_append_left _ ha⟩
    · exact ⟨a, List.mem_append_right _ (hhooks ▸ ha)⟩
  issued := by
    intro k a p hp
    rcases List.mem_append.mp hp with hp | hp
    · exact hissued k (h.issued k a p hp)
    · exact (hproduced k a p hp).2
  once := by
    intro k a b p q hp hq
    rcases List.mem_append.mp hp with hp | hp <;> rcases List.mem_append.mp hq with hq | hq
    · exact h.once k a b p q hp hq
    · exact absurd (h.issued k a p hp) (hproduced k b q hq).1
    · exact absurd (h.issued k b q hq) (hproduced k a p hp).1
    · exact honce k a b p q hp hq
  paired := by
    intro k fn hf
    rcases List.mem_append.mp hf with hf | hf
    · obtain ⟨a, ha⟩ := h.paired k fn hf
      exact ⟨a, List.mem_append_left _ ha⟩
    · obtain ⟨hk, rfl⟩ := hfreed k fn hf
      obtain ⟨a, ha⟩ := h.alive k hk
      exact ⟨a, List.mem_append_left _ ha⟩

theorem PairsKept.keep (h : PairsKept lib past) (hhooks : next.partner = some next.msgFree)
    (hfree : (∃ k, Alive lib k) → next.msgFree = lib.msgFree)
    (halive : ∀ k, Alive next k → Alive lib k) (hissued : ∀ k, Issued lib k → Issued next k)
    (hacts : ∀ x ∈ acts, key? x = none) : PairsKept next (past ++ acts) := by
  have hno : ∀ x ∈ acts, key? x ≠ none → False := fun x hx hk => hk (hacts x hx)
  refine h.extend hhooks hfree (fun k hk => .inl (halive k hk)) hissued ?_ ?_ ?_
  · intro k a p hp
    exact (hno _ hp (by simp [key?])).elim
  · intro k a b p q hp
    exact (hno _ hp (by simp [key?])).elim
  · intro k fn hf
    exact (hno _ hf (by simp [key?])).elim

theorem PairsKept.idle (h : PairsKept lib past) (crashed : Bool) (hacts : ∀ x ∈ acts, key? x = none) :
    PairsKept { lib with crashed := crashed } (past ++ acts) :=
  h.keep h.hooks (fun _ => rfl) (fun _ hk => hk) (fun _ hk => hk) hacts

theorem PairsKept.obtain (h : PairsKept lib past) (hfree : next.msgFree = lib.msgFree)
    (hpartner : next.partner = lib.partner)
    (halive : ∀ k, Alive next k → Alive lib k ∨ k = key)
    (hissued : ∀ k, Issued lib k → Issued next k) (hnew : ¬ Issued lib key)
    (hkey : Issued next key) :
    PairsKept next (past ++ [.produced key lib.msgAlloc lib.partner]) := by
  have hhooks : next.partner = some next.msgFree := by rw [hpartner, hfree, h.hooks]
  refine h.extend hhooks (fun _ => hfree) ?_ hissued ?_ ?_ ?_
  · intro k hk
    rcases halive k hk with hk | rfl
    · exact .inl hk
    · exact .inr ⟨lib.msgAlloc, by rw [hpartner]; exact List.mem_singleton_self _⟩
  · intro k a p hp
    cases List.mem_singleton.mp hp
    exact ⟨hnew, hkey⟩
  · intro k a b p q hp hq
    cases List.mem_singleton.mp hp
    cases List.mem_singleton.mp hq
    exact ⟨rfl, rfl⟩
  · intro k fn hf
    cases List.mem_singleton.mp hf

theorem PairsKept.release (h : PairsKept lib past) (hfree : next.msgFree = lib.msgFree)
    (hpartner : next.partner = lib.partner) (halive : ∀ k, Alive next k → Alive lib k)
    (hissued : ∀ k, Issued lib k → Issued next k) (hkey : Alive lib key) :
    PairsKept next (past ++ [.freed (some key) lib.msgFree]) := by
  have hhooks : next.partner = some next.msgFree := by rw [hpartner, hfree, h.hooks]
  refine h.extend hhooks (fun _ => hfree) (fun k hk => .inl (halive k hk)) hissued ?_ ?_ ?_
  · intro k a p hp
    cases List.mem_singleton.mp hp
  · intro k a b p q hp
    cases List.mem_singleton.mp hp
  · intro k fn hf
    cases List.mem_singleton.mp hf
    exact ⟨hkey, rfl⟩

end Entries

section Sockets

variable {lib : Globals} {i : ℕ} {uv v : SocketUv}

theorem socket_set (hi : lib.sockets[i]? = some uv) : (lib.sockets.set i v)[i]? = some v :=
  List.getElem?_set_self (List.getElem?_eq_some_iff.mp hi).1

theorem alive_set (hi : lib.sockets[i]? = some uv) {key : MsgKey}
    (h : Alive { lib with sockets := lib.sockets.set i v } key) :
    Alive lib key ∨ ∃ id, key = .socket i id ∧ v.msg.map ScMsg.id = some id := by
  cases key with
  | app n => exact .inl h
  | socket j id =>
    obtain ⟨w, hw, hid⟩ := h
    by_cases hj : i = j
    · subst hj
      rw [socket_set hi] at hw
      cases hw
      exact .inr ⟨id, rfl, hid⟩
    · rw [List.getElem?_set_ne hj] at hw
      exact .inl ⟨w, hw, hid⟩

theorem alive_set_keep (hi : lib.sockets[i]? = some uv)
    (hm : ∀ id, v.msg.map ScMsg.id = some id → uv.msg.map ScMsg.id = some id) (key : MsgKey)
    (h : Alive { lib with sockets := lib.sockets.set i v } key) : Alive lib key := by
  rcases alive_set hi h with h | ⟨id, rfl, hid⟩
  · exact h
  · exact ⟨uv, hi, hm id hid⟩

theorem issued_set (hi : lib.sockets[i]? = some uv) (ha : uv.allocs ≤ v.allocs) (key : MsgKey)
    (h : Issued lib key) : Issued { lib with sockets := lib.sockets.set i v } key := by
  cases key with
  | app n => exact h
  | socket j id =>
    obtain ⟨w, hw, hid⟩ := h
    by_cases hj : i = j
    · subst hj
      rw [hi] at hw
      cases hw
      exact ⟨v, socket_set hi, hid.trans_le ha⟩
    · exact ⟨w, (List.getElem?_set_ne hj).trans hw, hid⟩

theorem alive_append (key : MsgKey)
    (h : Alive { lib with sockets := lib.sockets ++ [newSocket.backend] } key) : Alive lib key := by
  cases key with
  | app n => exact h
  | socket j id =>
    obtain ⟨w, hw, hid⟩ := h
    by_cases hj : j < lib.sockets.length
    · exact ⟨w, (List.getElem?_append_left hj).symm.trans hw, hid⟩
    · have hlast : w ∈ [newSocket.backend] :=
        List.mem_of_getElem? ((List.getElem?_append_right (Nat.le_of_not_lt hj)).symm.trans hw)
      rw [List.mem_singleton.mp hlast] at hid
      cases hid

theorem issued_append (key : MsgKey) (h : Issued lib key) :
    Issued { lib with sockets := lib.sockets ++ [newSocket.backend] } key := by
  cases key with
  | app n => exact h
  | socket j id =>
    obtain ⟨w, hw, hid⟩ := h
    exact ⟨w, (List.getElem?_append_left (List.getElem?_eq_some_iff.mp hw).1).trans hw, hid⟩

end Sockets

variable {heaps : ℕ → Heap} {lib next : Globals} {call : Call} {past acts : List Act}

theorem pairsKept_recv {i : ℕ} {e : ReadEvent} {uv : SocketUv} {v : Receiver} {effects : List Effect}
    (h : PairsKept lib past) (hi : lib.sockets[i]? = some uv)
    (hs : recvStep (heaps i) uv.toReceiver e = some (v, effects)) :
    PairsKept { lib with sockets := lib.sockets.set i { uv with toReceiver := v } }
      (past ++ effects.filterMap (messageAct lib i)) := by
  cases recvStep_moved hs with
  | offered sg msg hm =>
    exact h.keep h.hooks (fun _ => rfl) (alive_set_keep hi fun _ hid => hid)
      (issued_set hi le_rfl) (by simp [messageAct])
  | fresh sg b hb hm =>
    refine h.obtain rfl rfl ?_ (issued_set hi (Nat.le_succ _)) ?_ ?_
    · intro k hk
      rcases alive_set hi hk with hk | ⟨id, rfl, hid⟩
      · exact .inl hk
      · exact .inr (congrArg _ (Option.some.inj hid).symm)
    · rintro ⟨w, hw, hlt⟩
      rw [hi] at hw
      cases hw
      exact lt_irrefl _ hlt
    · exact ⟨_, socket_set hi, Nat.lt_succ_self _⟩
  | waited buf ho =>
    exact h.keep h.hooks (fun _ => rfl) (alive_set_keep hi fun _ hid => hid)
      (issued_set hi le_rfl) (by simp)
  | advanced bytes buf msg ho hlen hne hm hfin =>
    refine h.keep h.hooks (fun _ => rfl) (alive_set_keep hi ?_) (issued_set hi le_rfl) (by simp)
    intro id hid
    rw [hm]
    simpa using hid
  | delivered bytes buf msg ho hlen hne hm hfin =>
    exact h.release rfl rfl (alive_set_keep hi fun _ hid => by cases hid) (issued_set hi le_rfl)
      ⟨uv, hi, by rw [hm]; rfl⟩
  | stopped nread hneg =>
    have halive := alive_set_keep (v := { uv with toReceiver := { uv.toReceiver with msg := none, offered := none } })
      hi
      fun _ hid => by cases hid
    cases hm : uv.msg with
    | none =>
      refine h.keep h.hooks (fun _ => rfl) halive (issued_set hi le_rfl) ?_
      simp [messageAct, key?]
    | some msg =>
      exact h.release rfl rfl halive (issued_set hi le_rfl) ⟨uv, hi, by rw [hm]; rfl⟩

theorem accept_messages {ans : AcceptAnswers} {srvProto : Proto} {uv : SocketUv} {r : Result Unit}
    (hr : buvAccept ans srvProto uv = .ok r) :
    r.state.msg = uv.msg ∧ r.state.allocs = uv.allocs := by
  have hopened := buvAccept_opened hr
  generalize (ans.init == 0) = ok at hopened
  cases hopened with
  | untouched _ hsame _ => simp [hsame]
  | refused _ _ _ _ hsame _ _ _ => simp [hsame]
  | ready _ _ _ _ _ _ _ hnew _ _ _ => simp [hnew]

theorem scInit_messages (backend : ScBackend) (recAlloc recFree : Option ℕ) (lib : Globals) :
    Alive (scInit backend recAlloc recFree lib) = Alive lib ∧
      Issued (scInit backend recAlloc recFree lib) = Issued lib := by
  unfold scInit scMsgInitAllocator
  refine ⟨funext fun key => ?_, funext fun key => ?_⟩ <;> cases key <;> split <;> rfl

theorem pairsKept_step (hcall : KeepsPairs lib call) (h : PairsKept lib past)
    (hs : libStep heaps lib call = some (next, acts)) : PairsKept next (past ++ acts) := by
  cases libStep_called hs with
  | initialised backend recAlloc recFree =>
    obtain ⟨halive, hissued⟩ := scInit_messages backend recAlloc recFree lib
    exact h.keep hcall.1 hcall.2 (fun _ => (congrFun halive _).mp) (fun _ => (congrFun hissued _).mpr)
      (by simp)
  | socketMade mallocOk backendOk socket calls hm =>
    obtain ⟨rfl, _⟩ := scSocketNewCalls_some hm
    exact h.keep h.hooks (fun _ => rfl) alive_append issued_append (by simp [key?])
  | accepted i srvProto ans uv r hi hr =>
    obtain ⟨hm, ha⟩ := accept_messages hr
    exact h.keep h.hooks (fun _ => rfl) (alive_set_keep hi fun _ hid => hm ▸ hid)
      (issued_set hi ha.ge) (by simp)
  | closed i uv hi =>
    exact h.keep h.hooks (fun _ => rfl) (alive_set_keep hi fun _ hid => hid) (issued_set hi le_rfl)
      (by simp)
  | received i e uv v effects hi hr => exact pairsKept_recv h hi hr
  | obtained size b =>
    refine h.obtain rfl rfl ?_ ?_ (lt_irrefl lib.messages) (Nat.lt_succ_self lib.messages)
    · rintro (⟨i, id⟩ | n) hk
      · exact .inl hk
      · exact (List.mem_cons.mp hk).symm.imp id (congrArg MsgKey.app)
    · rintro (⟨i, id⟩ | n) hk
      · exact hk
      · exact Nat.lt_succ_of_lt hk
  | released n hn =>
    refine h.release rfl rfl ?_ (fun _ hk => hk) hn
    rintro (⟨i, id⟩ | m) hk
    · exact hk
    · exact List.mem_of_mem_erase hk
  | socketFailed mallocOk backendOk calls hno => exact h.idle lib.crashed (by simp [key?])
  | socketCrashed mallocOk backendOk what hno => exact h.idle true (by simp [key?])
  | parsed mallocOk strdupOk instr uri errcode calls hp => exact h.idle lib.crashed (by simp [key?])
  | parseCrashed mallocOk strdupOk instr => exact h.idle true (by simp [key?])
  | recvCrashed i e uv fault hi hf => exact h.idle true (by simp [key?])
  | unobtained size hfn => exact h.idle lib.crashed (by simp)
  | allocCrashed size hfn => exact h.idle true (by simp [key?])

/-- In every run in which the calls of `sc_init` keep pairs, every message is freed by the free
function that belongs to its allocator. -/
theorem allocators_paired (heaps : ℕ → Heap) (calls : List Call) (lib : Globals)
    (acts : List Act) (hcalls : EveryStep (libStep heaps) KeepsPairs .start calls)
    (hrun : run (libStep heaps) .start calls = some (lib, acts)) : Paired acts :=
  (run_traced (fun lib _ past => PairsKept lib past) KeepsPairs
    (fun _ _ _ _ _ _ hcall h hs => pairsKept_step hcall h hs) pairsKept_start hcalls hrun).pairs

theorem allocators_paired_reinstalled :
    ∃ lib, run (libStep fun _ => reliable zeroBlocks) .start
        [.init .libuv (some 0) (some 0), .socketNew true true, .accept 0 .pipe ⟨0, 0, 0⟩, .recv 0 (.alloc 65536),
          .recv 0 (.stop uvEof), .init .libuv (some 1) (some 1), .msgAlloc 8 (some (zeroBlocks 0)),
          .init .notset none none, .msgFree 0] =
        some (lib, [.done [.malloc .socket, .malloc .backend] true,
          .produced (.socket 0 0) (.custom 0) (some (.custom 0)),
          .freed (some (.socket 0 0)) (.custom 0),
          .produced (.app 0) (.custom 1) (some (.custom 1)),
          .freed (some (.app 0)) (.custom 1)]) ∧
      Paired [.done [.malloc .socket, .malloc .backend] true,
        .produced (.socket 0 0) (.custom 0) (some (.custom 0)),
        .freed (some (.socket 0 0)) (.custom 0),
        .produced (.app 0) (.custom 1) (some (.custom 1)),
        .freed (some (.app 0)) (.custom 1)] := by
  refine ⟨_, rfl, ?_⟩
  refine allocators_paired (fun _ => reliable zeroBlocks) [.init .libuv (some 0) (some 0),
    .socketNew true true, .accept 0 .pipe ⟨0, 0, 0⟩, .recv 0 (.alloc 65536),
    .recv 0 (.stop uvEof), .init .libuv (some 1) (some 1), .msgAlloc 8 (some (zeroBlocks 0)), .init .notset none none,
    .msgFree 0] _ _ ?_ rfl
  refine (everyStep_cons _ rfl).mpr ⟨⟨rfl, ?_⟩, ?_⟩
  · rintro ⟨⟨i, id⟩ | n, h⟩
    · obtain ⟨uv, huv, _⟩ := h
      cases huv
    · cases h
  refine (everyStep_cons _ rfl).mpr ⟨trivial, ?_⟩
  refine (everyStep_cons _ rfl).mpr ⟨trivial, ?_⟩
  refine (everyStep_cons _ rfl).mpr ⟨trivial, ?_⟩
  refine (everyStep_cons _ rfl).mpr ⟨trivial, ?_⟩
  refine (everyStep_cons _ rfl).mpr ⟨⟨rfl, ?_⟩, ?_⟩
  · rintro ⟨⟨i, id⟩ | n, h⟩
    · obtain ⟨uv, huv, hid⟩ := h
      rw [List.mem_singleton.mp (List.mem_of_getElem? huv)] at hid
      cases hid
    · cases h
  refine (everyStep_cons _ rfl).mpr ⟨trivial, ?_⟩
  refine (everyStep_cons _ rfl).mpr ⟨⟨rfl, fun _ => rfl⟩, ?_⟩
  exact (everyStep_cons _ rfl).mpr ⟨trivial, trivial⟩

/-- An allocator installed without a free function, and both hooks replaced while the socket holds
a message. -/
theorem hooks_mismatched :
    (∃ lib acts, run (libStep fun _ => reliable zeroBlocks) .start
        [.init .libuv (some 0) none, .socketNew true true, .accept 0 .pipe ⟨0, 0, 0⟩, .recv 0 (.alloc 65536),
          .recv 0 (.stop uvEof)] = some (lib, acts) ∧ ¬ Paired acts) ∧
    ∃ lib acts, run (libStep fun _ => reliable zeroBlocks) .start
        [.init .libuv (some 0) (some 0), .socketNew true true, .accept 0 .pipe ⟨0, 0, 0⟩, .recv 0 (.alloc 65536),
          .init .libuv (some 1) (some 1), .recv 0 (.stop uvEof)] = some (lib, acts) ∧
      ¬ Paired acts := by
  refine ⟨⟨_, [.done [.malloc .socket, .malloc .backend] true,
      .produced (.socket 0 0) (.custom 0) none, .freed (some (.socket 0 0)) .defaultHeapFree],
      rfl, ?_⟩,
    ⟨_, [.done [.malloc .socket, .malloc .backend] true,
      .produced (.socket 0 0) (.custom 0) (some (.custom 0)),
      .freed (some (.socket 0 0)) (.custom 1)], rfl, ?_⟩⟩
  · intro h
    obtain ⟨a, ha, _⟩ := h (.socket 0 0) .defaultHeapFree (by decide)
    simp at ha
  · intro h
    obtain ⟨a, ha, _⟩ := h (.socket 0 0) (.custom 1) (by decide)
    simp at ha

end ShortCircuit.AllocatorPairing
