import ShortCircuit.SocketRuns

set_option autoImplicit false

/-!
# Balance of the message hooks

Messages are obtained one after the other and a new one only when none is held, so the
identities freed and the one held are, in order, all identities obtained. Nothing frees
the one that is held when the socket is deleted.
-/
namespace ShortCircuit.MessageBalance
open Message Boundary OutputMachine Receive Backend Socket SocketRuns

def allocated (effects : List Effect) : List ℕ := effects.filterMap Effect.alloc?

def freed (effects : List Effect) : List ℕ := effects.filterMap Effect.free?

def heldId (uv : Receiver) : List ℕ := (uv.msg.map ScMsg.id).toList

/-- The messages obtained are numbered from zero, and those freed come first. -/
structure Balanced (uv : Receiver) (effects : List Effect) : Prop where
  obtained : allocated effects = List.range uv.allocs
  given : freed effects ++ heldId uv = List.range uv.allocs

theorem allocated_append (xs ys : List Effect) :
    allocated (xs ++ ys) = allocated xs ++ allocated ys := List.filterMap_append

theorem freed_append (xs ys : List Effect) : freed (xs ++ ys) = freed xs ++ freed ys :=
  List.filterMap_append

theorem allocated_nil {effects : List Effect} (h : ∀ x ∈ effects, x.family ≠ .message) :
    allocated effects = [] := by
  rw [allocated, List.filterMap_eq_nil_iff]
  intro x hx
  have hf := h x hx
  cases x <;> first | rfl | exact absurd rfl hf

theorem freed_nil {effects : List Effect} (h : ∀ x ∈ effects, x.family ≠ .message) :
    freed effects = [] := by
  rw [freed, List.filterMap_eq_nil_iff]
  intro x hx
  have hf := h x hx
  cases x <;> first | rfl | exact absurd rfl hf

theorem Balanced.keep {uv v : Receiver} {past effects : List Effect} (h : Balanced uv past)
    (hm : heldId v = heldId uv) (ha : v.allocs = uv.allocs) (hea : allocated effects = [])
    (hef : freed effects = []) : Balanced v (past ++ effects) := by
  refine ⟨?_, ?_⟩
  · rw [allocated_append, hea, List.append_nil, ha, h.obtained]
  · rw [freed_append, hef, List.append_nil, hm, ha, h.given]

theorem Balanced.release {uv v : Receiver} {past effects : List Effect} (h : Balanced uv past)
    (hm : heldId v = []) (ha : v.allocs = uv.allocs) (hea : allocated effects = [])
    (hef : freed effects = heldId uv) : Balanced v (past ++ effects) := by
  refine ⟨?_, ?_⟩
  · rw [allocated_append, hea, List.append_nil, ha, h.obtained]
  · rw [freed_append, hef, hm, List.append_nil, ha, h.given]

variable {heap : Heap}

theorem balanced_recv {uv v : Receiver} {e : ReadEvent} {past effects : List Effect}
    (h : Balanced uv past) (hs : recvStep heap uv e = some (v, effects)) :
    Balanced v (past ++ effects) := by
  cases recvStep_moved hs with
  | offered sg msg hm => exact h.keep rfl rfl rfl rfl
  | fresh sg b hb hm =>
    have hheld : heldId uv = [] := by rw [heldId, hm]; rfl
    have hfreed := h.given
    rw [hheld, List.append_nil] at hfreed
    refine ⟨?_, ?_⟩
    · rw [allocated_append, h.obtained, List.range_succ]
      rfl
    · rw [freed_append, hfreed, List.range_succ, List.append_assoc]
      rfl
  | waited buf ho => exact h.keep rfl rfl rfl rfl
  | advanced bytes buf msg ho hlen hne hm hfin =>
    refine h.keep ?_ rfl rfl rfl
    simp [heldId, hm]
  | delivered bytes buf msg ho hlen hne hm hfin =>
    refine h.release rfl rfl rfl ?_
    rw [heldId, hm]
    rfl
  | stopped nread hneg =>
    refine h.release rfl rfl rfl ?_
    rw [heldId]
    cases uv.msg <;> rfl

theorem opened_messages {uv v : SocketUv} {effects : List Effect} {ok : Bool}
    (h : Opened uv v effects ok) :
    heldId v.toReceiver = heldId uv.toReceiver ∧ v.allocs = uv.allocs ∧
      ∀ x ∈ effects, x.family ≠ .message := by
  have hplain : ∀ xs : List Effect, (∀ x ∈ xs, Plain x) → ∀ x ∈ xs, x.family ≠ .message := by
    intro xs hxs x hx
    rw [hxs x hx]
    decide
  cases h with
  | untouched hs hr he => exact ⟨by rw [hr], by rw [hr], hplain _ he⟩
  | refused proto pre rest hs hr he hpre hrest =>
    rw [he, List.forall_mem_append, List.forall_mem_cons]
    exact ⟨by rw [hr], by rw [hr], hplain _ hpre, by simp [Effect.family], hplain _ hrest⟩
  | ready proto reading connecting pre rest hone hs hr he hpre hrest =>
    rw [he, List.forall_mem_append, List.forall_mem_cons]
    exact ⟨by rw [hr]; rfl, by rw [hr], hplain _ hpre, by simp [Effect.family], hplain _ hrest⟩

theorem uriDel_messages (s : ScSocket) :
    allocated (uriDelEffects s) = [] ∧ freed (uriDelEffects s) = [] := by
  unfold uriDelEffects
  split <;> exact ⟨rfl, rfl⟩

theorem balanced_step {s u : ScSocket} {e : Event} {past effects : List Effect}
    (h : Balanced s.backend.toReceiver past) (hs : step heap s e = some (u, effects)) :
    Balanced u.backend.toReceiver (past ++ effects) := by
  cases step_stepped hs with
  | opened e u effects hopen ho =>
    obtain ⟨hm, ha, hq⟩ := opened_messages ho
    exact h.keep hm ha (allocated_nil hq) (freed_nil hq)
  | submitted msg result =>
    have hr := send_receiver result s msg
    exact h.keep (by rw [hr]) (by rw [hr]) rfl rfl
  | closing => exact h.keep rfl rfl (uriDel_messages s).1 (uriDel_messages s).2
  | received e r effects hactive hreading hr => exact balanced_recv h hr
  | _ => exact h.keep rfl rfl rfl rfl

theorem balanced_run {es : List Event} {s : ScSocket} {effects : List Effect}
    (hrun : run (step heap) newSocket es = some (s, effects)) :
    Balanced s.backend.toReceiver effects := by
  have hinit : Balanced newSocket.backend.toReceiver [] := ⟨rfl, rfl⟩
  exact run_traced (fun s _ past => Balanced s.backend.toReceiver past) (fun _ _ => True)
    (fun _ _ _ _ _ _ _ hI hs => balanced_step hI hs) hinit
    (everyStep_of_forall _ _ fun _ _ => trivial) hrun

/-- Every message obtained was freed exactly once. -/
def Released (effects : List Effect) : Prop :=
  ∀ id ∈ allocated effects, (freed effects).count id = 1

theorem released_of_balanced {uv : Receiver} {effects : List Effect} (h : Balanced uv effects) :
    Released effects ↔ uv.msg = none := by
  have hf := h.given
  unfold Released
  rw [h.obtained]
  cases hm : uv.msg with
  | none =>
    have hheld : heldId uv = [] := by rw [heldId, hm]; rfl
    rw [hheld, List.append_nil] at hf
    rw [hf]
    exact iff_of_true (fun id hid => List.count_eq_one_of_mem List.nodup_range hid) rfl
  | some msg =>
    have hheld : heldId uv = [msg.id] := by rw [heldId, hm]; rfl
    rw [hheld] at hf
    have hnodup : (freed effects ++ [msg.id]).Nodup := by
      rw [hf]
      exact List.nodup_range
    have hnot : msg.id ∉ freed effects := fun hin =>
      (List.nodup_append.mp hnodup).2.2 msg.id hin msg.id List.mem_cons_self rfl
    refine iff_of_false ?_ (by simp)
    intro hall
    have hone := hall msg.id (by rw [← hf]; simp)
    rw [List.count_eq_zero_of_not_mem hnot] at hone
    cases hone

/-- Over the life of a socket the message hooks are balanced exactly when it holds no message at
its deletion. -/
theorem released_iff (heap : Heap) (es : List Event) (s : ScSocket) (effects : List Effect)
    (hrun : run (step heap) newSocket es = some (s, effects)) :
    Released (effects ++ scSocketDel s) ↔ s.backend.msg = none :=
  released_of_balanced ((balanced_run hrun).keep rfl rfl (uriDel_messages s).1 (uriDel_messages s).2)

theorem released_after_eof :
    ∃ s effects, run (step (reliable zeroBlocks)) newSocket
        [.accept .pipe ⟨0, 0, 0⟩, .recv (.alloc 65536), .recv (.read [0, 0, 0, 2]),
          .recv (.alloc 65536), .recv (.stop uvEof), .close, .closed] = some (s, effects) ∧
      Released (effects ++ scSocketDel s) := by
  have h := released_iff (reliable zeroBlocks) [.accept .pipe ⟨0, 0, 0⟩, .recv (.alloc 65536),
    .recv (.read [0, 0, 0, 2]), .recv (.alloc 65536), .recv (.stop uvEof), .close, .closed] _ _ rfl
  exact ⟨_, _, rfl, h.mpr rfl⟩

theorem closed_partway_not_released :
    ∃ s effects, run (step (reliable zeroBlocks)) newSocket
        [.accept .pipe ⟨0, 0, 0⟩, .recv (.alloc 65536), .recv (.read [0, 0, 0, 2]), .close,
          .closed] = some (s, effects) ∧
      allocated (effects ++ scSocketDel s) = [0] ∧ freed (effects ++ scSocketDel s) = [] ∧
      ¬ Released (effects ++ scSocketDel s) := by
  refine ⟨_, _, rfl, rfl, rfl, ?_⟩
  intro h
  exact absurd (h 0 (by decide)) (by decide)

end ShortCircuit.MessageBalance
