import ShortCircuit.FrameStream

set_option autoImplicit false

/-!
# When the frames of a stream are reported

A parser is timely when after every chunk it has reported exactly the frames that have
arrived as a whole. Between two frames it is timely unless a chunk ends at a zero cut.
With bytes of something else pending it takes the stream for their continuation, so it
is timely only as long as neither that frame nor the first frame of the stream is
complete.
-/
namespace ShortCircuit.FrameTiming
open WordBytes FrameParser FrameStream

/-- The first messages of `ms` whose frames lie within `n` bytes. -/
def whole : List (List UInt8) → ℕ → List (List UInt8)
  | [], _ => []
  | m :: ms, n => if (frame m).length ≤ n then m :: whole ms (n - (frame m).length) else []

theorem whole_append (ds ms : List (List UInt8)) (n : ℕ) :
    whole (ds ++ ms) ((wire ds).length + n) = ds ++ whole ms n := by
  induction ds with
  | nil => simp
  | cons d ds ih =>
    have hle : (frame d).length ≤ (wire (d :: ds)).length + n := by
      rw [wire_cons, List.length_append]
      omega
    have hsub : (wire (d :: ds)).length + n - (frame d).length = (wire ds).length + n := by
      rw [wire_cons, List.length_append]
      omega
    rw [List.cons_append, whole, if_pos hle, hsub, ih, List.cons_append]

/-- The bytes of a frame in progress hold no whole message. -/
theorem whole_pending {p : Pending} {rest : List UInt8} {ms : List (List UInt8)}
    (hsize : ∀ m ∈ ms, m.length < 2 ^ 32) (h : Aligned p rest ms) :
    whole ms (pendingBytes p).length = [] := by
  cases ms with
  | nil => rfl
  | cons m ms =>
    refine if_neg ?_
    rw [pendingBytes, List.length_append, frame_length]
    by_cases h4 : p.head.length = 4
    · obtain ⟨hhead, _⟩ := aligned_body h h4
      have hne : p.head ≠ [] := by
        intro hnil
        simp [hnil] at h4
      have hopen := p.unfinished hne
      rw [hhead, leading_bytes32 (hsize m List.mem_cons_self)] at hopen
      omega
    · have hlt : p.head.length < 4 := by
        have := p.head_le
        omega
      rw [Pending.body_nil hlt, List.length_nil]
      omega

theorem wire_whole_le (ms : List (List UInt8)) (n : ℕ) : (wire (whole ms n)).length ≤ n := by
  induction ms generalizing n with
  | nil => exact Nat.zero_le n
  | cons m ms ih =>
    rw [whole]
    split
    · rename_i hle
      have hrest := ih (n - (frame m).length)
      rw [wire_cons, List.length_append]
      omega
    · exact Nat.zero_le n

theorem whole_nil_of_le {ms : List (List UInt8)} {n k : ℕ} (h : whole ms n = []) (hle : k ≤ n) :
    whole ms k = [] := by
  cases ms with
  | nil => rfl
  | cons m ms =>
    refine if_neg fun hk => ?_
    rw [whole, if_pos (hk.trans hle)] at h
    cases h

theorem whole_short (ms : List (List UInt8)) {n : ℕ} (h : n < 4) : whole ms n = [] := by
  cases ms with
  | nil => rfl
  | cons m ms =>
    refine if_neg ?_
    rw [frame_length]
    omega

theorem zeroCut_wire (ds ms : List (List UInt8)) (pos : ℕ) :
    ZeroCut (ds ++ ms) ((wire ds).length + pos) ↔ ZeroCut ms pos := by
  induction ds with
  | nil => simp
  | cons d ds ih =>
    rw [wire_cons, List.length_append, Nat.add_assoc, List.cons_append, zeroCut_tail]
    exact ih

theorem uncut_wire (ds ms : List (List UInt8)) (off : ℕ) (cs : List (List UInt8)) :
    Uncut (ds ++ ms) ((wire ds).length + off) cs ↔ Uncut ms off cs := by
  simp only [Uncut, cuts_add, List.forall_mem_map, zeroCut_wire]

section Chunk

variable {p : Pending} {c : List UInt8}

/-- A report leaves nothing pending. -/
theorem feed_reports (hc : c.length ≤ p.room) (h : (p.feed c).2 ≠ []) :
    (p.feed c).1 = .empty := by
  have hne : c ≠ [] := by
    rintro rfl
    rw [Pending.feed_nil] at h
    exact h rfl
  have ht := Pending.feed_taken p c hne hc
  generalize (p.feed c).1 = q at ht ⊢
  generalize (p.feed c).2 = out at ht h
  cases ht with
  | early hh hz => rfl
  | header hh hz _ hq hb => exact absurd rfl h
  | done hh hd => rfl
  | partway hh hd _ hq hb => exact absurd rfl h

/-- Where no header is taken too early, the reports are the frames of the bytes so far. -/
theorem feed_wire (hc : c.length ≤ p.room) (hs : ¬ ShortZeros p c) :
    pendingBytes p ++ c = wire (p.feed c).2 ++ pendingBytes (p.feed c).1 := by
  obtain ⟨pieces, _, hbytes, hframes⟩ := feed_pieces p c hc
  rw [hbytes, hframes hs, wire, List.flatMap_def]

theorem feed_short (hs : ShortZeros p c) : p.feed c = (.empty, [[]]) := by
  obtain ⟨hnil, hne, hlen, hzero⟩ := hs
  have hz : leading c = 0 := (leading_eq_zero_iff c).mpr ((value_eq_zero_iff c).mpr hzero)
  have hc : c.length ≤ p.room := by
    rw [Pending.room, hnil, if_pos (by decide), List.length_nil]
    omega
  simp [Pending.feed, hne, hc, hnil, hz]

theorem not_shortZeros (h : p.head ≠ []) (c : List UInt8) : ¬ ShortZeros p c :=
  fun hs => h hs.1

end Chunk

theorem pendingBytes_nil {p : Pending} (h : p.head = []) : pendingBytes p = [] := by
  rw [pendingBytes, h, Pending.body_nil (by rw [h]; decide)]
  rfl

/-- A header that is taken too early ends at a zero cut. -/
theorem shortZeros_cut {p : Pending} {c rest : List UInt8} {ms : List (List UInt8)}
    (hsize : ∀ m ∈ ms, m.length < 2 ^ 32) (hs : ShortZeros p c) (h : Aligned p (c ++ rest) ms) :
    ZeroCut ms c.length := by
  have hal : c ++ rest = wire ms := by
    rw [← h, ← pendingBytes, pendingBytes_nil hs.1, List.nil_append]
  cases ms with
  | nil => simp [hs.2.1] at hal
  | cons m ms =>
    have hz : leading c = 0 := (leading_eq_zero_iff c).mpr ((value_eq_zero_iff c).mpr hs.2.2.2)
    exact zeroCut_early (hsize m List.mem_cons_self) hs.2.1 hs.2.2.1 hz hal

/-- From between two frames, or inside the first one, the parser is timely exactly when no chunk
ends at a zero cut. -/
theorem timely_iff {p : Pending} {cs ms : List (List UInt8)} {rest : List UInt8}
    (hsize : ∀ m ∈ ms, m.length < 2 ^ 32) (hfit : Fits p cs)
    (h : Aligned p (cs.flatten ++ rest) ms) :
    (∀ part, part <+: cs →
        (feedAll p part).2 = whole ms ((pendingBytes p).length + part.flatten.length)) ↔
      Uncut ms (pendingBytes p).length cs := by
  induction cs generalizing p ms with
  | nil =>
    refine iff_of_true ?_ (by simp [Uncut, cuts])
    intro part hpart
    rw [List.prefix_nil.mp hpart]
    exact (whole_pending hsize h).symm
  | cons c cs ih =>
    rw [List.flatten_cons, List.append_assoc] at h
    rw [uncut_cons]
    by_cases hs : ShortZeros p c
    · have hlen : (pendingBytes p).length + c.length = c.length := by
        rw [pendingBytes_nil hs.1, List.length_nil, Nat.zero_add]
      rw [hlen]
      refine iff_of_false ?_ ?_
      · intro htimely
        have hone := htimely [c] ⟨cs, rfl⟩
        rw [feedAll_cons, feed_short hs, List.flatten_singleton, hlen,
          whole_short ms hs.2.2.1] at hone
        cases hone
      · rintro ⟨hcut, _⟩
        exact hcut (shortZeros_cut hsize hs h)
    · have hbytes := feed_wire hfit.1 hs
      have hsmall := feed_small p c hfit.1
      have hfit' := hfit.2
      have hcons : ∀ part, (feedAll p (c :: part)).2 =
          (p.feed c).2 ++ (feedAll (p.feed c).1 part).2 := feedAll_cons p c
      generalize (p.feed c).1 = q at hbytes hfit' hcons
      generalize (p.feed c).2 = out at hbytes hsmall hcons
      have hwire : wire out ++ (pendingBytes q ++ (cs.flatten ++ rest)) = wire ms := by
        rw [← List.append_assoc, ← hbytes, List.append_assoc]
        exact h
      obtain ⟨ms', rfl, hal⟩ := wire_cancel hsmall hsize hwire
      have hsize' : ∀ m ∈ ms', m.length < 2 ^ 32 := fun m hm => hsize m (List.mem_append_right _ hm)
      have hlen : (pendingBytes p).length + c.length = (wire out).length + (pendingBytes q).length := by
        rw [← List.length_append, hbytes, List.length_append]
      have hnow : ¬ ZeroCut ms' (pendingBytes q).length := by
        rw [pendingBytes, List.length_append]
        exact aligned_not_zeroCut hsize' hal
      rw [hlen, zeroCut_wire, uncut_wire, and_iff_right hnow, ← ih hsize' hfit' hal]
      constructor
      · intro htimely part hpart
        have hone := htimely (c :: part) (List.cons_prefix_cons.mpr ⟨rfl, hpart⟩)
        rw [hcons, List.flatten_cons, List.length_append, ← Nat.add_assoc, hlen, Nat.add_assoc,
          whole_append] at hone
        exact List.append_cancel_left hone
      · intro htimely part hpart
        rcases List.prefix_cons_iff.mp hpart with rfl | ⟨later, rfl, hlater⟩
        · exact (whole_pending hsize h).symm
        · rw [hcons, List.flatten_cons, List.length_append, ← Nat.add_assoc, hlen, Nat.add_assoc,
            whole_append, htimely later hlater]

/-- No frame is complete in these bytes. -/
def NoFrame (bytes : List UInt8) : Prop :=
  ¬ ∃ m rest, m.length < 2 ^ 32 ∧ bytes = frame m ++ rest

theorem pending_noFrame (p : Pending) : NoFrame (pendingBytes p) := by
  rintro ⟨m, rest, hm, h⟩
  have hlen := congrArg List.length h
  rw [pendingBytes, List.length_append, List.length_append, frame_length] at hlen
  have h4 : p.head.length = 4 := by
    by_contra hne
    have hlt : p.head.length < 4 := by
      have := p.head_le
      omega
    rw [Pending.body_nil hlt, List.length_nil] at hlen
    omega
  rw [pendingBytes, frame, List.append_assoc] at h
  obtain ⟨hhead, _⟩ := List.append_inj h (by simpa using h4)
  have hne : p.head ≠ [] := by
    intro hnil
    simp [hnil] at h4
  have hopen := p.unfinished hne
  rw [hhead, leading_bytes32 hm] at hopen
  omega

section Stale

variable {p : Pending} {c : List UInt8} {cs : List (List UInt8)}

/-- A chunk without a report is appended to what is pending. -/
theorem feed_quiet (hne : p.head ≠ []) (hc : c.length ≤ p.room) (h : (p.feed c).2 = []) :
    pendingBytes (p.feed c).1 = pendingBytes p ++ c ∧ (p.feed c).1.head ≠ [] := by
  have hbytes := feed_wire hc (not_shortZeros hne c)
  rw [h, wire_nil, List.nil_append] at hbytes
  refine ⟨hbytes.symm, fun hnil => ?_⟩
  rw [pendingBytes_nil hnil, pendingBytes] at hbytes
  simp [hne] at hbytes

/-- A parser inside a frame reports nothing exactly as long as that frame is not complete. -/
theorem feedAll_silent_iff (hne : p.head ≠ []) (hfit : Fits p cs) :
    (feedAll p cs).2 = [] ↔ NoFrame (pendingBytes p ++ cs.flatten) := by
  induction cs generalizing p with
  | nil =>
    rw [List.flatten_nil, List.append_nil]
    exact iff_of_true rfl (pending_noFrame p)
  | cons c cs ih =>
    rw [feedAll_cons, List.append_eq_nil_iff, List.flatten_cons, ← List.append_assoc]
    cases hout : (p.feed c).2 with
    | nil =>
      obtain ⟨hbytes, hhead⟩ := feed_quiet hne hfit.1 hout
      rw [ih hhead hfit.2, hbytes, and_iff_right rfl]
    | cons m out =>
      refine iff_of_false (fun h => (nomatch h.1)) fun hno => hno ?_
      have hbytes := feed_wire hfit.1 (not_shortZeros hne c)
      have hm := feed_small p c hfit.1
      rw [hout] at hbytes hm
      refine ⟨m, wire out ++ pendingBytes (p.feed c).1 ++ cs.flatten, hm m List.mem_cons_self, ?_⟩
      rw [hbytes, wire_cons, List.append_assoc, List.append_assoc, List.append_assoc]

theorem feedAll_part {part : List (List UInt8)} (hpart : part <+: cs) :
    (feedAll p part).2 <+: (feedAll p cs).2 := by
  induction part generalizing p cs with
  | nil => exact List.nil_prefix
  | cons c part ih =>
    obtain ⟨cs', rfl, hrest⟩ := List.cons_prefix_iff.mp hpart
    rw [feedAll_cons, feedAll_cons, List.prefix_append_right_inj]
    exact ih hrest

/-- With more bytes pending than have arrived of the stream, the parser is timely exactly when it
reports nothing and nothing has arrived as a whole. -/
theorem stale_timely_iff (ms : List (List UInt8)) {n : ℕ} (hne : p.head ≠ [])
    (hn : n < (pendingBytes p).length) (hfit : Fits p cs) :
    (∀ part, part <+: cs → (feedAll p part).2 = whole ms (n + part.flatten.length)) ↔
      (feedAll p cs).2 = [] ∧ whole ms (n + cs.flatten.length) = [] := by
  constructor
  · intro h
    induction cs generalizing p n with
    | nil => exact ⟨rfl, (h [] List.prefix_rfl).symm⟩
    | cons c cs ih =>
      have hone := h [c] ⟨cs, rfl⟩
      rw [feedAll_cons, feedAll_nil, List.append_nil, List.flatten_singleton] at hone
      have hbytes := congrArg List.length (feed_wire hfit.1 (not_shortZeros hne c))
      rw [List.length_append, List.length_append] at hbytes
      have hquiet : (p.feed c).2 = [] := by
        by_contra hout
        have hle := wire_whole_le ms (n + c.length)
        rw [← hone] at hle
        rw [feed_reports hfit.1 hout, pendingBytes_empty, List.length_nil] at hbytes
        omega
      obtain ⟨hpend, hhead⟩ := feed_quiet hne hfit.1 hquiet
      rw [feedAll_cons, hquiet, List.nil_append, List.flatten_cons, List.length_append,
        ← Nat.add_assoc]
      refine ih hhead ?_ hfit.2 ?_
      · rw [hpend, List.length_append]
        omega
      · intro part hpart
        have hmore := h (c :: part) (List.cons_prefix_cons.mpr ⟨rfl, hpart⟩)
        rw [feedAll_cons, hquiet, List.nil_append, List.flatten_cons, List.length_append,
          ← Nat.add_assoc] at hmore
        exact hmore
  · rintro ⟨hsilent, hnone⟩ part hpart
    have hpre := feedAll_part (p := p) hpart
    rw [hsilent, List.prefix_nil] at hpre
    have hlen := (hpart.flatten).length_le
    rw [hpre, whole_nil_of_le hnone (by omega)]

end Stale

end ShortCircuit.FrameTiming
