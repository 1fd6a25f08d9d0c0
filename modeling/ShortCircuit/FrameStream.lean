import ShortCircuit.FrameParser

set_option autoImplicit false

/-!
# Where the bytes of a stream go

Whatever the chunks are, the parser neither drops nor repeats a byte: the stream is cut
into one piece for each report and the bytes still pending. A piece is the frame of the
reported body, except that an early test takes one to three zero bytes for an empty
body. Without such pieces the reports are the frames of the stream in order.
-/
namespace ShortCircuit.FrameStream
open WordBytes FrameParser

/-- What the parser can take for a report of `m`. -/
inductive Piece : List UInt8 → List UInt8 → Prop where
  | whole (m : List UInt8) : Piece m (frame m)
  | early (k : ℕ) (hpos : 0 < k) (hshort : k < 4) : Piece [] (List.replicate k 0)

def pendingBytes (p : Pending) : List UInt8 := p.head ++ p.body

@[simp] theorem pendingBytes_empty : pendingBytes .empty = [] := rfl

/-- One to three zero bytes and nothing else, where a header starts. -/
def ShortZeros (p : Pending) (c : List UInt8) : Prop :=
  p.head = [] ∧ c ≠ [] ∧ c.length < 4 ∧ ∀ x ∈ c, x = 0

theorem head_nil_of_early {p : Pending} {c : List UInt8} (h : leading (p.head ++ c) = 0) :
    p.head = [] := by
  by_contra hne
  have hlead := p.unfinished hne
  exact leading_append_ne_zero (by omega) c h

theorem zeros_of_early {p : Pending} {c : List UInt8} (h : leading (p.head ++ c) = 0) :
    ∀ x ∈ c, x = 0 := by
  rw [head_nil_of_early h, List.nil_append, leading_eq_zero_iff, value_eq_zero_iff] at h
  exact h

/-- A complete header and a complete body are a frame. -/
theorem frame_of_done {head body : List UInt8} (h4 : head.length = 4)
    (hd : body.length = leading head) : head ++ body = frame body := by
  rw [frame, hd, leading_full h4, bytes32_value h4]

theorem feed_early_piece {p : Pending} {c : List UInt8} (hne : c ≠ []) (hc : c.length ≤ p.room)
    (hz : leading (p.head ++ c) = 0) :
    Piece [] c ∧ (¬ ShortZeros p c → c = frame []) := by
  have hnil := head_nil_of_early hz
  have hzero := zeros_of_early hz
  have hle : c.length ≤ 4 := by simpa [Pending.room, hnil] using hc
  have hrep : c = List.replicate c.length 0 := List.eq_replicate_of_mem hzero
  by_cases h4 : c.length = 4
  · have hframe : c = frame [] := by rw [hrep, h4, frame_empty]
    exact ⟨hframe ▸ .whole [], fun _ => hframe⟩
  · refine ⟨?_, fun hshort => absurd ⟨hnil, hne, by omega, hzero⟩ hshort⟩
    rw [hrep]
    exact .early c.length (List.length_pos_iff.mpr hne) (by omega)

/-- One chunk: what was pending and the chunk are the pieces of the reports and what is pending
then. -/
theorem feed_pieces (p : Pending) (c : List UInt8) (hc : c.length ≤ p.room) :
    ∃ pieces, List.Forall₂ Piece (p.feed c).2 pieces ∧
      pendingBytes p ++ c = pieces.flatten ++ pendingBytes (p.feed c).1 ∧
      (¬ ShortZeros p c → pieces = (p.feed c).2.map frame) := by
  by_cases hne : c = []
  · subst hne
    exact ⟨[], by simp, by simp, by simp⟩
  · have ht := Pending.feed_taken p c hne hc
    generalize (p.feed c).1 = q at ht ⊢
    generalize (p.feed c).2 = out at ht ⊢
    cases ht with
    | early hh hz =>
      obtain ⟨hpiece, hwhole⟩ := feed_early_piece hne hc hz
      refine ⟨[c], .cons hpiece .nil, ?_, ?_⟩
      · rw [pendingBytes, head_nil_of_early hz, Pending.body_nil hh]
        simp
      · intro hshort
        rw [List.map_singleton, ← hwhole hshort]
    | header hh hz _ hq hb =>
      refine ⟨[], .nil, ?_, fun _ => rfl⟩
      rw [pendingBytes, pendingBytes, hq, hb, Pending.body_nil hh]
      simp
    | done hh hd =>
      have hframe : p.head ++ (p.body ++ c) = frame (p.body ++ c) :=
        frame_of_done hh (by rw [List.length_append, hd])
      refine ⟨[frame (p.body ++ c)], .cons (.whole _) .nil, ?_, fun _ => rfl⟩
      rw [pendingBytes, List.append_assoc, hframe]
      simp
    | partway hh hd _ hq hb =>
      refine ⟨[], .nil, ?_, fun _ => rfl⟩
      rw [pendingBytes, pendingBytes, hq, hb]
      simp

theorem feed_small (p : Pending) (c : List UInt8) (hc : c.length ≤ p.room) :
    ∀ m ∈ (p.feed c).2, m.length < 2 ^ 32 := by
  by_cases hne : c = []
  · simp [hne]
  · have ht := Pending.feed_taken p c hne hc
    generalize (p.feed c).1 = q at ht
    generalize (p.feed c).2 = out at ht ⊢
    cases ht with
    | early hh hz => simp
    | header hh hz _ hq hb => simp
    | done hh hd =>
      rw [List.forall_mem_singleton, List.length_append, hd]
      exact leading_lt p.head_le
    | partway hh hd _ hq hb => simp

theorem frame_inj {m m' t t' : List UInt8} (hm : m.length < 2 ^ 32) (hm' : m'.length < 2 ^ 32)
    (h : frame m ++ t = frame m' ++ t') : m = m' ∧ t = t' := by
  simp only [frame, List.append_assoc] at h
  obtain ⟨hhead, hrest⟩ := List.append_inj h rfl
  have hlen : m.length = m'.length := by
    rw [← value_bytes32 hm, ← value_bytes32 hm', hhead]
  exact List.append_inj hrest hlen

/-- Frames at the front of a stream are its first frames. -/
theorem wire_cancel {ds ms : List (List UInt8)} {t : List UInt8}
    (hd : ∀ m ∈ ds, m.length < 2 ^ 32) (hm : ∀ m ∈ ms, m.length < 2 ^ 32)
    (h : wire ds ++ t = wire ms) : ∃ rest, ms = ds ++ rest ∧ t = wire rest := by
  induction ds generalizing ms with
  | nil => exact ⟨ms, rfl, h⟩
  | cons d ds ih =>
    cases ms with
    | nil =>
      have hlen := congrArg List.length h
      simp only [wire_cons, wire_nil, List.length_append, frame_length, List.length_nil] at hlen
      omega
    | cons m ms =>
      obtain ⟨hd0, hds⟩ := List.forall_mem_cons.mp hd
      obtain ⟨hm0, hms⟩ := List.forall_mem_cons.mp hm
      rw [wire_cons, wire_cons, List.append_assoc] at h
      obtain ⟨rfl, ht⟩ := frame_inj hd0 hm0 h
      obtain ⟨rest, rfl, rfl⟩ := ih hds hms ht
      exact ⟨rest, rfl, rfl⟩

theorem wire_append (xs ys : List (List UInt8)) : wire (xs ++ ys) = wire xs ++ wire ys :=
  List.flatMap_append

end ShortCircuit.FrameStream
