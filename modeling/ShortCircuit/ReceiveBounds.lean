import ShortCircuit.ReaderInvariant

set_option autoImplicit false

/-!
# Where the offered buffers lie

The capacity of a message is fixed before its size is known. `offers_inside_iff` says
which `alloc_wrap` calls leave it: those that find a message with some body bytes
stored and a declared size above its capacity.
-/
namespace ShortCircuit.ReceiveBounds
open WordBytes Message Boundary OutputMachine FrameParser Receive ReceiveRefinement

/-- The buffer lies within the size word, or within the `cap` bytes of the data area. -/
def Inside (buf : UvBuf) (cap : ℕ) : Prop :=
  match buf.region with
  | .head => buf.base + buf.len ≤ 4
  | .body => buf.base + buf.len ≤ cap

instance (buf : UvBuf) (cap : ℕ) : Decidable (Inside buf cap) := by
  unfold Inside
  split <;> infer_instance

/-- A message declared larger than its capacity has already received body bytes. -/
def Oversized (uv : Receiver) : Prop :=
  ∃ msg, uv.msg = some msg ∧ msg.cap < scMsgGetSize msg ∧ 0 < uv.reader.bodyPos

def OffersInside (effects : List Effect) : Prop :=
  ∀ buf cap, Effect.offer buf cap ∈ effects → Inside buf cap

theorem offersInside_offers (effects : List Effect) :
    (∀ x ∈ offers effects, Inside x.1 x.2) ↔ OffersInside effects := by
  constructor
  · intro h buf cap hx
    exact h (buf, cap) (List.mem_filterMap.mpr ⟨_, hx, rfl⟩)
  · intro h x hx
    obtain ⟨y, hy, hxy⟩ := List.mem_filterMap.mp hx
    cases y with
    | offer buf cap =>
      obtain rfl := Option.some.inj hxy
      exact h buf cap hy
    | _ => cases hxy

instance (effects : List Effect) : Decidable (OffersInside effects) :=
  decidable_of_iff _ (offersInside_offers effects)

def AllocFits (uv : Receiver) (e : ReadEvent) : Prop :=
  (∃ sg, e = .alloc sg) → ¬ Oversized uv

theorem allocFits_read (uv : Receiver) (bytes : List UInt8) : AllocFits uv (.read bytes) := by
  rintro ⟨_, h⟩
  cases h

theorem allocFits_stop (uv : Receiver) (nread : Int) : AllocFits uv (.stop nread) := by
  rintro ⟨_, h⟩
  cases h

def Sized (S : ℕ) (uv : Receiver) : Prop :=
  (∃ p, Refines uv p) ∧ ∀ msg, uv.msg = some msg → msg.cap = u32 S

theorem sized_init (S : ℕ) : Sized S .init :=
  ⟨⟨_, refines_init⟩, fun _ h => (nomatch h)⟩

variable {blocks : ℕ → Block} {S : ℕ}

theorem sized_step {uv v : Receiver} {e : ReadEvent} {effects : List Effect}
    (he : ∀ sg, e = .alloc sg → sg = S) (h : Sized S uv)
    (hs : recvStep (reliable blocks) uv e = some (v, effects)) : Sized S v := by
  obtain ⟨⟨p, hp⟩, hcap⟩ := h
  refine ⟨refines_step hp hs, ?_⟩
  cases recvStep_moved hs with
  | offered sg msg hm => exact hcap
  | fresh sg b hb hm =>
    intro msg hmsg
    obtain rfl := Option.some.inj hmsg
    rw [he sg rfl]
    rfl
  | waited buf ho => exact hcap
  | advanced bytes buf msg ho hlen hne hm hfin =>
    intro msg' hmsg
    obtain rfl := Option.some.inj hmsg
    rw [fillBuf_cap]
    exact hcap msg hm
  | delivered bytes buf msg ho hlen hne hm hfin => exact fun _ h => (nomatch h)
  | stopped nread hneg => exact fun _ h => (nomatch h)

theorem bufAt_inside_iff {msg : ScMsg} {reader : MsgReader} {p : Pending} (h : Held msg reader p)
    (cap : ℕ) :
    Inside (bufAt p (min p.room cap)) cap ↔ ¬ (cap < scMsgGetSize msg ∧ 0 < reader.bodyPos) := by
  rw [h.size, h.bodyPos]
  by_cases hh : p.head.length < 4
  · have hb : p.body.length = 0 := by rw [Pending.body_nil hh]; rfl
    simp only [Inside, bufAt, hh, if_true, Pending.room_head hh]
    omega
  · have h4 : p.head.length = 4 := by have := p.head_le; omega
    have hle := body_le p
    simp only [Inside, bufAt, hh, if_false, Pending.room_body h4]
    omega

theorem inside_step {uv v : Receiver} {e : ReadEvent} {effects : List Effect}
    (he : ∀ sg, e = .alloc sg → sg = S) (h : Sized S uv)
    (hs : recvStep (reliable blocks) uv e = some (v, effects)) :
    (∀ x ∈ effects, ∀ buf cap, x = .offer buf cap → Inside buf cap) ↔ AllocFits uv e := by
  obtain ⟨⟨p, hp⟩, hcap⟩ := h
  cases recvStep_moved hs with
  | offered sg msg hm =>
    obtain rfl := he sg rfl
    have hheld := hp.held msg hm
    simp only [List.forall_mem_singleton, Effect.offer.injEq, hcap msg hm, offerBuf_eq hheld]
    have hiff : Oversized uv ↔ u32 sg < scMsgGetSize msg ∧ 0 < uv.reader.bodyPos := by
      simp only [Oversized, hm, Option.some.injEq, exists_eq_left', hcap msg hm]
    simp only [AllocFits, ReadEvent.alloc.injEq, exists_eq', forall_const, hiff,
      ← bufAt_inside_iff hheld]
    constructor
    · exact fun hall => hall _ _ ⟨rfl, rfl⟩
    · rintro hin _ _ ⟨rfl, rfl⟩
      exact hin
  | fresh sg b hb hm =>
    have hheld := held_fresh b uv.allocs (u32 sg)
    refine iff_of_true ?_ fun _ ⟨msg, hmsg, _⟩ => by simp [hm] at hmsg
    simp only [List.forall_mem_cons, List.not_mem_nil, false_implies, implies_true, reduceCtorEq,
      Effect.offer.injEq, true_and, and_true, offerBuf_eq hheld]
    rintro _ _ ⟨rfl, rfl⟩
    rw [bufAt_inside_iff hheld]
    exact fun h => absurd h.2 (Nat.lt_irrefl 0)
  | waited buf ho => exact iff_of_true (by simp) (allocFits_read uv [])
  | advanced bytes buf msg ho hlen hne hm hfin =>
    exact iff_of_true (by simp) (allocFits_read uv bytes)
  | delivered bytes buf msg ho hlen hne hm hfin =>
    exact iff_of_true (by simp) (allocFits_read uv bytes)
  | stopped nread hneg => exact iff_of_true (by simp) (allocFits_stop uv nread)

theorem offersInside_iff {uv v : Receiver} {es : List ReadEvent} {effects : List Effect}
    (hconst : ∀ sg, .alloc sg ∈ es → sg = S) (hs : Sized S uv)
    (hrun : run (recvStep (reliable blocks)) uv es = some (v, effects)) :
    OffersInside effects ↔ EveryStep (recvStep (reliable blocks)) AllocFits uv es := by
  have hiff := outputs_iff (fun e => ∀ sg, e = .alloc sg → sg = S) (Sized S)
    (fun _ _ _ _ he h hst => sized_step he h hst)
    (fun x => ∀ buf cap, x = .offer buf cap → Inside buf cap) AllocFits
    (fun _ _ _ _ he h hst => inside_step he h hst)
    (fun e he sg heq => hconst sg (heq ▸ he)) hs hrun
  rw [← hiff]
  constructor
  · rintro h x hx buf cap rfl
    exact h buf cap hx
  · exact fun h buf cap hx => h _ hx buf cap rfl

/-- For a run with a constant suggested size, every offered buffer lies inside its message exactly
when no `alloc_wrap` finds an oversized message whose body has begun. -/
theorem offers_inside_iff (blocks : ℕ → Block) (S : ℕ) (es : List ReadEvent) (v : Receiver)
    (effects : List Effect) (hconst : ∀ sg, .alloc sg ∈ es → sg = S)
    (hrun : run (recvStep (reliable blocks)) .init es = some (v, effects)) :
    OffersInside effects ↔ EveryStep (recvStep (reliable blocks)) AllocFits .init es :=
  offersInside_iff hconst (sized_init S) hrun

theorem offers_inside_full_size :
    ∃ v effects, run (recvStep (reliable zeroBlocks)) .init
        [.alloc 65536, .read [0, 1, 0, 0], .alloc 65536, .read [7], .alloc 65536] =
          some (v, effects) ∧
      OffersInside effects ∧
      EveryStep (recvStep (reliable zeroBlocks)) AllocFits .init
        [.alloc 65536, .read [0, 1, 0, 0], .alloc 65536, .read [7], .alloc 65536] := by
  have h := offers_inside_iff zeroBlocks 65536
    [.alloc 65536, .read [0, 1, 0, 0], .alloc 65536, .read [7], .alloc 65536] _ _ (by simp) rfl
  have hin := h.mp (by decide)
  exact ⟨_, _, rfl, h.mpr hin, hin⟩

theorem offers_outside_oversized :
    ∃ v effects, run (recvStep (reliable zeroBlocks)) .init
        [.alloc 65536, .read [0, 1, 0, 1], .alloc 65536, .read [7], .alloc 65536] =
          some (v, effects) ∧
      .offer ⟨.body, 1, 65536⟩ 65536 ∈ effects ∧ ¬ OffersInside effects :=
  ⟨_, _, rfl, by decide, by decide⟩

theorem offerBuf_pos {msg : ScMsg} {reader : MsgReader} {p : Pending} {sz : ℕ}
    (h : Held msg reader p) (hsz : 0 < sz) : 1 ≤ (offerBuf sz msg reader).len := by
  rw [offerBuf_eq h, bufAt_len]
  exact le_min p.room_pos hsz

/-- In every reachable state `alloc_wrap` offers room for at least one byte, unless the message
hook fails. -/
theorem offer_nonempty (heap : Heap) (es : List ReadEvent) (v : Receiver) (effects : List Effect)
    (S : ℕ) (hlow : 1 ≤ S) (hhigh : S < 2 ^ 32)
    (hrun : run (recvStep heap) .init es = some (v, effects))
    (hhook : v.msg = none → heap v.allocs ≠ none) :
    ∃ w out buf cap, recvStep heap v (.alloc S) = some (w, out) ∧ offers out = [(buf, cap)] ∧
      w.offered = some buf ∧ 1 ≤ buf.len := by
  obtain ⟨p, hp⟩ := refines_of_run hrun
  have hsz : 0 < u32 S := by rw [u32_of_lt hhigh]; exact hlow
  cases hm : v.msg with
  | some msg => exact ⟨_, _, _, _, alloc_held heap S hm, rfl, rfl, offerBuf_pos (hp.held msg hm) hsz⟩
  | none =>
    obtain ⟨b, hb⟩ := Option.ne_none_iff_exists'.mp (hhook hm)
    exact ⟨_, _, _, _, alloc_obtained S hm hb, rfl, rfl, offerBuf_pos (held_fresh b _ _) hsz⟩

theorem offer_nonempty_after_empty_message :
    ∃ v effects w out buf cap,
      run (recvStep (reliable zeroBlocks)) .init [.alloc 65536, .read [0, 0, 0, 0]] =
          some (v, effects) ∧
      recvStep (reliable zeroBlocks) v (.alloc 1) = some (w, out) ∧ offers out = [(buf, cap)] ∧
      1 ≤ buf.len := by
  obtain ⟨w, out, buf, cap, hstep, hoffer, _, hlen⟩ := offer_nonempty (reliable zeroBlocks)
    [.alloc 65536, .read [0, 0, 0, 0]] _ _ 1 (by decide) (by decide) rfl (by intro _ h; cases h)
  exact ⟨_, _, w, out, buf, cap, rfl, hstep, hoffer, hlen⟩

end ShortCircuit.ReceiveBounds
