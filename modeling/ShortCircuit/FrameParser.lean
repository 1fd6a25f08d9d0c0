import ShortCircuit.WordBytes

set_option autoImplicit false

/-!
# A length-prefixed frame parser that is fed in chunks

A frame is a four-byte big-endian length and a body. The parser keeps the bytes of
the frame in progress and reports a frame as soon as its body is as long as the
length read so far; header bytes that have not arrived yet count as zero. That test
is early when a chunk ends inside a header whose bytes so far are all zero, and
`feedAll_iff` says that these chunk boundaries are the only ones that matter.
-/
namespace ShortCircuit.FrameParser
open WordBytes

def frame (m : List UInt8) : List UInt8 := bytes32 m.length ++ m

def wire (ms : List (List UInt8)) : List UInt8 := ms.flatMap frame

@[simp] theorem frame_length (m : List UInt8) : (frame m).length = 4 + m.length := by
  simp [frame]

@[simp] theorem wire_nil : wire [] = [] := rfl

@[simp] theorem wire_cons (m : List UInt8) (ms : List (List UInt8)) :
    wire (m :: ms) = frame m ++ wire ms := List.flatMap_cons

theorem frame_empty : frame [] = List.replicate 4 0 := rfl

/-- The bytes received of a frame that is not complete. -/
@[ext] structure Pending where
  head : List UInt8
  body : List UInt8
  head_le : head.length ≤ 4
  unfinished : head ≠ [] → body.length < leading head
  head_full : body ≠ [] → head.length = 4

namespace Pending

def empty : Pending := ⟨[], [], by decide, fun h => absurd rfl h, fun h => absurd rfl h⟩

@[simp] theorem empty_head : empty.head = [] := rfl

/-- How many bytes may be accepted before the parser has to look again. -/
def room (p : Pending) : ℕ :=
  if p.head.length < 4 then 4 - p.head.length else leading p.head - p.body.length

theorem body_nil {p : Pending} (h : p.head.length < 4) : p.body = [] := by
  by_contra hb
  have := p.head_full hb
  omega

theorem room_head {p : Pending} (h : p.head.length < 4) : p.room = 4 - p.head.length := if_pos h

theorem room_body {p : Pending} (h : p.head.length = 4) :
    p.room = leading p.head - p.body.length := if_neg (by omega)

theorem room_pos (p : Pending) : 0 < p.room := by
  by_cases h : p.head.length < 4
  · rw [room_head h]
    omega
  · have h4 : p.head.length = 4 := by have := p.head_le; omega
    have hne : p.head ≠ [] := by intro hn; simp [hn] at h4
    have := p.unfinished hne
    rw [room_body h4]
    omega

def feed (p : Pending) (c : List UInt8) : Pending × List (List UInt8) :=
  if hc : c ≠ [] ∧ c.length ≤ p.room then
    if hh : p.head.length < 4 then
      if hz : leading (p.head ++ c) = 0 then (empty, [[]])
      else
        (⟨p.head ++ c, [], by
            have hr := hc.2
            rw [room_head hh] at hr
            rw [List.length_append]
            omega,
          fun _ => Nat.pos_of_ne_zero hz, fun h => absurd rfl h⟩, [])
    else if hd : p.body.length + c.length = leading p.head then (empty, [p.body ++ c])
    else
      (⟨p.head, p.body ++ c, p.head_le, fun hne => by
          have hr := hc.2
          have := p.unfinished hne
          rw [room_body (by have := p.head_le; omega)] at hr
          rw [List.length_append]
          omega,
        fun _ => by have := p.head_le; omega⟩, [])
  else (p, [])

@[simp] theorem feed_nil (p : Pending) : p.feed [] = (p, []) := by simp [feed]

/-- The four ways in which a chunk that fits is taken. -/
inductive Taken (p : Pending) (c : List UInt8) : Pending → List (List UInt8) → Prop where
  | early (hh : p.head.length < 4) (hz : leading (p.head ++ c) = 0) : Taken p c empty [[]]
  | header (hh : p.head.length < 4) (hz : leading (p.head ++ c) ≠ 0) (q : Pending)
      (hq : q.head = p.head ++ c) (hb : q.body = []) : Taken p c q []
  | done (hh : p.head.length = 4) (hd : p.body.length + c.length = leading p.head) :
      Taken p c empty [p.body ++ c]
  | partway (hh : p.head.length = 4) (hd : p.body.length + c.length < leading p.head) (q : Pending)
      (hq : q.head = p.head) (hb : q.body = p.body ++ c) : Taken p c q []

theorem feed_taken (p : Pending) (c : List UInt8) (hne : c ≠ []) (hc : c.length ≤ p.room) :
    Taken p c (p.feed c).1 (p.feed c).2 := by
  by_cases hh : p.head.length < 4
  · by_cases hz : leading (p.head ++ c) = 0
    · have hf : p.feed c = (empty, [[]]) := by simp [feed, hne, hc, hh, hz]
      rw [hf]
      exact .early hh hz
    · refine (?_ : (p.feed c).2 = []) ▸ .header hh hz _ ?_ ?_ <;> simp [feed, hne, hc, hh, hz]
  · have h4 : p.head.length = 4 := by have := p.head_le; omega
    by_cases hd : p.body.length + c.length = leading p.head
    · have hf : p.feed c = (empty, [p.body ++ c]) := by simp [feed, hne, hc, hh, hd]
      rw [hf]
      exact .done h4 hd
    · have hlt : p.body.length + c.length < leading p.head := by
        rw [room_body h4] at hc
        have hp : p.head ≠ [] := by intro hn; simp [hn] at h4
        have := p.unfinished hp
        omega
      refine (?_ : (p.feed c).2 = []) ▸ .partway h4 hlt _ ?_ ?_ <;> simp [feed, hne, hc, hh, hd]

end Pending

def feedAll : Pending → List (List UInt8) → Pending × List (List UInt8)
  | p, [] => (p, [])
  | p, c :: cs => ((feedAll (p.feed c).1 cs).1, (p.feed c).2 ++ (feedAll (p.feed c).1 cs).2)

/-- Every chunk is at most as long as the room there is for it. -/
def Fits : Pending → List (List UInt8) → Prop
  | _, [] => True
  | p, c :: cs => c.length ≤ p.room ∧ Fits (p.feed c).1 cs

@[simp] theorem feedAll_nil (p : Pending) : feedAll p [] = (p, []) := rfl

theorem feedAll_cons (p : Pending) (c : List UInt8) (cs : List (List UInt8)) :
    (feedAll p (c :: cs)).2 = (p.feed c).2 ++ (feedAll (p.feed c).1 cs).2 := rfl

def cuts (off : ℕ) : List (List UInt8) → List ℕ
  | [] => []
  | c :: cs => (off + c.length) :: cuts (off + c.length) cs

theorem cuts_add (a off : ℕ) (cs : List (List UInt8)) :
    cuts (a + off) cs = (cuts off cs).map (a + ·) := by
  induction cs generalizing off with
  | nil => rfl
  | cons c cs ih =>
    simp only [cuts, List.map_cons, Nat.add_assoc]
    rw [← ih]

/-- A position inside the header of a frame, with only zero bytes of that header before it. -/
def ZeroCut (ms : List (List UInt8)) (pos : ℕ) : Prop :=
  ∃ before m after h, ms = before ++ m :: after ∧ pos = (wire before).length + h ∧
    0 < h ∧ h < 4 ∧ m.length < 256 ^ (4 - h)

theorem zeroCut_tail (m : List UInt8) (ms : List (List UInt8)) (pos : ℕ) :
    ZeroCut (m :: ms) ((frame m).length + pos) ↔ ZeroCut ms pos := by
  constructor
  · rintro ⟨before, m', after, h, heq, hpos, h0, h4, hm⟩
    cases before with
    | nil => simp only [wire_nil, List.length_nil, frame_length] at hpos; omega
    | cons d before =>
      obtain ⟨rfl, rfl⟩ := List.cons.inj heq
      refine ⟨before, m', after, h, rfl, ?_, h0, h4, hm⟩
      simp only [wire_cons, List.length_append] at hpos
      omega
  · rintro ⟨before, m', after, h, rfl, hpos, h0, h4, hm⟩
    refine ⟨m :: before, m', after, h, rfl, ?_, h0, h4, hm⟩
    simp only [wire_cons, List.length_append]
    omega

theorem zeroCut_first (m : List UInt8) (ms : List (List UInt8)) {pos : ℕ}
    (hpos : pos ≤ (frame m).length) :
    ZeroCut (m :: ms) pos ↔ 0 < pos ∧ pos < 4 ∧ m.length < 256 ^ (4 - pos) := by
  constructor
  · rintro ⟨before, m', after, h, heq, rfl, h0, h4, hm⟩
    cases before with
    | nil =>
      obtain ⟨rfl, _⟩ := List.cons.inj heq
      simpa using ⟨h0, h4, hm⟩
    | cons d before =>
      obtain ⟨rfl, _⟩ := List.cons.inj heq
      simp only [wire_cons, List.length_append] at hpos
      omega
  · rintro ⟨h0, h4, hm⟩
    exact ⟨[], m, ms, pos, rfl, by simp, h0, h4, hm⟩

theorem aligned_head {p : Pending} {rest m : List UInt8} {ms : List (List UInt8)}
    (h : p.head ++ p.body ++ rest = wire (m :: ms)) :
    p.head = (bytes32 m.length).take p.head.length := by
  have ht := congrArg (List.take p.head.length) h
  rw [List.append_assoc, List.take_left, wire_cons, frame, List.append_assoc,
    List.take_append_of_le_length (by simpa using p.head_le)] at ht
  exact ht

theorem aligned_body {p : Pending} {rest m : List UInt8} {ms : List (List UInt8)}
    (h : p.head ++ p.body ++ rest = wire (m :: ms)) (h4 : p.head.length = 4) :
    p.head = bytes32 m.length ∧ p.body ++ rest = m ++ wire ms := by
  rw [List.append_assoc, wire_cons, frame, List.append_assoc] at h
  exact List.append_inj h (by simpa using h4)

theorem leading_bytes32 {m : List UInt8} (hm : m.length < 2 ^ 32) :
    leading (bytes32 m.length) = m.length := by
  rw [leading_full (bytes32_length _), value_bytes32 hm]

theorem aligned_nil {p : Pending} {ms : List (List UInt8)} (hsize : ∀ m ∈ ms, m.length < 2 ^ 32)
    (h : p.head ++ p.body = wire ms) : ms = [] := by
  cases ms with
  | nil => rfl
  | cons m ms =>
    exfalso
    have hm := hsize m List.mem_cons_self
    have hlen := congrArg List.length h
    simp only [List.length_append, wire_cons, frame_length] at hlen
    have h4 : p.head.length = 4 := by
      by_contra hne
      have hlt : p.head.length < 4 := by have := p.head_le; omega
      rw [Pending.body_nil hlt] at hlen
      simp only [List.length_nil] at hlen
      omega
    have h' : p.head ++ p.body ++ [] = wire (m :: ms) := by rw [List.append_nil, h]
    obtain ⟨hh, hb⟩ := aligned_body h' h4
    have hne : p.head ≠ [] := by intro hn; simp [hn] at h4
    have hu := p.unfinished hne
    rw [hh, leading_bytes32 hm] at hu
    omega

theorem aligned_not_zeroCut {p : Pending} {rest : List UInt8} {ms : List (List UInt8)}
    (hsize : ∀ m ∈ ms, m.length < 2 ^ 32) (h : p.head ++ p.body ++ rest = wire ms) :
    ¬ ZeroCut ms (p.head.length + p.body.length) := by
  intro hz
  cases ms with
  | nil => obtain ⟨before, m, after, _, heq, _⟩ := hz; simp at heq
  | cons m ms =>
    have hm := hsize m List.mem_cons_self
    have hhead := aligned_head h
    have hpos : p.head.length + p.body.length ≤ (frame m).length := by
      by_cases h4 : p.head.length = 4
      · obtain ⟨hh, _⟩ := aligned_body h h4
        have hne : p.head ≠ [] := by intro hn; simp [hn] at h4
        have hu := p.unfinished hne
        rw [hh, leading_bytes32 hm] at hu
        rw [frame_length]
        omega
      · have hlt : p.head.length < 4 := by have := p.head_le; omega
        rw [Pending.body_nil hlt, frame_length, List.length_nil]
        omega
    obtain ⟨h0, h4, hlt⟩ := (zeroCut_first m ms hpos).mp hz
    have hh : p.head.length < 4 := by omega
    rw [Pending.body_nil hh, List.length_nil, Nat.add_zero] at h0 hlt
    have hne : p.head ≠ [] := by intro hn; simp [hn] at h0
    have hu := p.unfinished hne
    rw [← take_bytes32_zero_iff hm p.head_le, ← hhead, ← leading_eq_zero_iff] at hlt
    omega

theorem first_report {p : Pending} {cs : List (List UInt8)} (hne : p.head ≠ [])
    (hfit : Fits p cs) {d : List UInt8} {ds : List (List UInt8)}
    (h : (feedAll p cs).2 = d :: ds) :
    d.length = leading ((p.head ++ p.body ++ cs.flatten).take 4) := by
  induction cs generalizing p with
  | nil => simp at h
  | cons c cs ih =>
    rw [feedAll_cons] at h
    by_cases hc : c = []
    · subst hc
      rw [Pending.feed_nil] at h
      simpa using ih hne (by simpa [Fits] using hfit) (by simpa using h)
    · have ht := Pending.feed_taken p c hc hfit.1
      have hrest := hfit.2
      generalize (p.feed c).1 = q at h ht hrest
      generalize (p.feed c).2 = out at h ht
      have hlead : leading p.head ≠ 0 := by have := p.unfinished hne; omega
      cases ht with
      | early hh hz => exact absurd hz (leading_append_ne_zero hlead c)
      | header hh hz _ hq hb =>
        have hr := ih (by rw [hq]; simp [hne]) hrest (by simpa using h)
        rw [hq, hb] at hr
        simpa [Pending.body_nil hh] using hr
      | done hh hd =>
        rw [List.singleton_append] at h
        rw [← (List.cons.inj h).1, List.length_append, hd, List.append_assoc, List.take_append,
          hh, List.take_of_length_le (by omega)]
        simp
      | partway hh hd _ hq hb =>
        have hr := ih (by rw [hq]; exact hne) hrest (by simpa using h)
        rw [hq, hb] at hr
        simpa using hr

theorem leading_lagging (lag : ℕ) {m : List UInt8} (hm : m.length < 2 ^ 32)
    (ms : List (List UInt8)) :
    leading ((List.replicate lag 0 ++ wire (m :: ms)).take 4) = m.length / 256 ^ lag := by
  rw [wire_cons, frame, List.append_assoc, ← List.append_assoc,
    List.take_append_of_le_length (by simp), List.take_append, List.length_replicate]
  by_cases hlag : lag ≤ 4
  · rw [List.take_of_length_le (by simpa using hlag), leading_full (by simp; omega),
      value_zeros_append, value_take_bytes32 hm (by omega), Nat.sub_sub_self hlag]
  · rw [Nat.sub_eq_zero_of_le (by omega), List.take_zero, List.append_nil, List.take_replicate,
      (leading_eq_zero_iff _).mpr (value_replicate_zero _), Nat.div_eq_of_lt]
    calc
      m.length < 256 ^ 4 := by simpa using hm
      _ ≤ 256 ^ lag := Nat.pow_le_pow_right (by decide) (by omega)

/-- A parser that is behind by some zero bytes never catches up. -/
theorem feedAll_lagging {cs : List (List UInt8)} {lag : ℕ} {ms : List (List UInt8)}
    (hsize : ∀ m ∈ ms, m.length < 2 ^ 32) (hlag : 0 < lag) (hfit : Fits .empty cs)
    (h : cs.flatten = List.replicate lag 0 ++ wire ms) : (feedAll .empty cs).2 ≠ ms := by
  induction cs generalizing lag ms with
  | nil =>
    have := congrArg List.length h
    simp only [List.flatten_nil, List.length_nil, List.length_append, List.length_replicate] at this
    omega
  | cons c cs ih =>
    by_cases hc : c = []
    · subst hc
      rw [feedAll_cons, Pending.feed_nil]
      exact ih hsize hlag (by simpa [Fits] using hfit.2) (by simpa using h)
    · have ht := Pending.feed_taken .empty c hc hfit.1
      have hrest := hfit.2
      have hroom : c.length ≤ 4 := by simpa [Pending.room] using hfit.1
      rw [feedAll_cons]
      generalize (Pending.empty.feed c).1 = q at ht hrest ⊢
      generalize (Pending.empty.feed c).2 = out at ht ⊢
      rw [List.flatten_cons] at h
      cases ht with
      | early hh hz =>
        intro hms
        cases ms with
        | nil => simp at hms
        | cons m ms =>
          obtain ⟨rfl, hds⟩ := List.cons.inj hms
          have hsz : ∀ m ∈ ms, m.length < 2 ^ 32 := fun m hm => hsize m (List.mem_cons_of_mem _ hm)
          rw [wire_cons, frame_empty, ← List.append_assoc, ← List.replicate_add] at h
          have hd := congrArg (List.drop c.length) h
          rw [List.drop_left, List.drop_append_of_le_length (by simp; omega),
            List.drop_replicate] at hd
          exact ih hsz (by omega) hrest hd hds
      | header hh hz _ hq hb =>
        rw [Pending.empty_head, List.nil_append] at hz hq
        have hfour : leading ((c ++ cs.flatten).take 4) ≠ 0 := by
          rw [List.take_append, List.take_of_length_le hroom]
          exact leading_append_ne_zero hz _
        intro hms
        cases ms with
        | nil =>
          rw [h, wire_nil, List.append_nil, List.take_replicate, ne_eq, leading_eq_zero_iff] at hfour
          exact hfour (value_replicate_zero _)
        | cons m ms =>
          have hm := hsize m List.mem_cons_self
          have hlen := first_report (by rw [hq]; exact hc) hrest hms
          rw [hq, hb, List.append_nil, h, leading_lagging lag hm] at hlen
          rw [h, leading_lagging lag hm] at hfour
          have hdiv : m.length / 256 ^ lag < m.length :=
            Nat.div_lt_self (by omega) (Nat.one_lt_pow (by omega) (by decide))
          omega
      | done hh _ => simp at hh
      | partway hh _ _ _ _ => simp at hh

theorem zeroCut_early {c rest m : List UInt8} {ms : List (List UInt8)} (hm : m.length < 2 ^ 32)
    (hc : c ≠ []) (hlen : c.length < 4) (hz : leading c = 0) (h : c ++ rest = wire (m :: ms)) :
    ZeroCut (m :: ms) c.length := by
  have hpre : c = (bytes32 m.length).take c.length := by
    have ht := congrArg (List.take c.length) h
    rw [List.take_left, wire_cons, frame, List.append_assoc,
      List.take_append_of_le_length (by simp; omega)] at ht
    exact ht
  rw [zeroCut_first m ms (by rw [frame_length]; omega),
    ← take_bytes32_zero_iff hm (by omega), ← hpre, ← leading_eq_zero_iff]
  exact ⟨List.length_pos_iff.mpr hc, hlen, hz⟩

theorem feedAll_early {c m : List UInt8} {cs ms : List (List UInt8)}
    (hsize : ∀ m ∈ ms, m.length < 2 ^ 32) (hc : c ≠ []) (hlen : c.length < 4)
    (hfit : Fits .empty cs) (h : c ++ cs.flatten = wire (m :: ms)) :
    ([] : List UInt8) :: (feedAll .empty cs).2 ≠ m :: ms := by
  have hpos := List.length_pos_iff.mpr hc
  intro heq
  obtain ⟨rfl, hds⟩ := List.cons.inj heq
  rw [wire_cons, frame_empty] at h
  have hd := congrArg (List.drop c.length) h
  rw [List.drop_left, List.drop_append_of_le_length (by simp; omega), List.drop_replicate] at hd
  exact feedAll_lagging hsize (by omega) hfit hd hds

/-- No chunk of `cs`, the first one starting at `off`, ends at a zero cut. -/
def Uncut (ms : List (List UInt8)) (off : ℕ) (cs : List (List UInt8)) : Prop :=
  ∀ pos ∈ cuts off cs, ¬ ZeroCut ms pos

/-- The bytes of `p` and then `rest` are the stream of `ms`. -/
def Aligned (p : Pending) (rest : List UInt8) (ms : List (List UInt8)) : Prop :=
  p.head ++ p.body ++ rest = wire ms

def OnTrack (ms : List (List UInt8)) (off : ℕ) (rest : List UInt8) (q : Pending)
    (out : List (List UInt8)) : Prop :=
  ¬ ZeroCut ms off ∧ ∃ ms', ms = out ++ ms' ∧ Aligned q rest ms' ∧
    ∀ cs, Uncut ms off cs ↔ Uncut ms' (q.head.length + q.body.length) cs

def Derailed (ms : List (List UInt8)) (off : ℕ) (rest : List UInt8) (q : Pending)
    (out : List (List UInt8)) : Prop :=
  ZeroCut ms off ∧ ∀ cs, cs.flatten = rest → Fits q cs → out ++ (feedAll q cs).2 ≠ ms

theorem onTrack_same {q : Pending} {rest : List UInt8} {ms : List (List UInt8)}
    (hsize : ∀ m ∈ ms, m.length < 2 ^ 32) (h : Aligned q rest ms) :
    OnTrack ms (q.head.length + q.body.length) rest q [] :=
  ⟨aligned_not_zeroCut hsize h, ms, rfl, h, fun _ => Iff.rfl⟩

theorem onTrack_frame {m rest : List UInt8} {ms : List (List UInt8)} (h : rest = wire ms) :
    OnTrack (m :: ms) (frame m).length rest .empty [m] := by
  have hend : ¬ ZeroCut (m :: ms) (frame m).length := by
    rw [zeroCut_first m ms (le_refl _), frame_length]
    omega
  refine ⟨hend, ms, rfl, h, ?_⟩
  intro cs
  rw [Uncut, ← Nat.add_zero (frame m).length, cuts_add]
  simp only [List.forall_mem_map, zeroCut_tail]
  rfl

theorem feed_early {p : Pending} {c rest m : List UInt8} {ms : List (List UInt8)}
    (hsize : ∀ x ∈ m :: ms, x.length < 2 ^ 32) (hc : c ≠ []) (hfit : c.length ≤ p.room)
    (h : Aligned p (c ++ rest) (m :: ms)) (hh : p.head.length < 4)
    (hz : leading (p.head ++ c) = 0) :
    OnTrack (m :: ms) (p.head.length + p.body.length + c.length) rest .empty [[]] ∨
      Derailed (m :: ms) (p.head.length + p.body.length + c.length) rest .empty [[]] := by
  obtain ⟨hm, hsz⟩ := List.forall_mem_cons.mp hsize
  have hnil : p.head = [] := by
    by_contra hne
    have := p.unfinished hne
    exact leading_append_ne_zero (by omega) c hz
  have hroom : c.length ≤ 4 := by simpa [Pending.room, hnil] using hfit
  rw [Aligned, hnil, Pending.body_nil hh, List.nil_append, List.nil_append] at h
  rw [hnil, List.nil_append] at hz
  simp only [hnil, Pending.body_nil hh, List.length_nil, Nat.zero_add]
  by_cases h4 : c.length < 4
  · right
    refine ⟨zeroCut_early hm hc h4 hz h, ?_⟩
    rintro cs rfl hrest
    exact feedAll_early hsz hc h4 hrest h
  · left
    have hfull : c.length = 4 := by omega
    rw [wire_cons, frame, List.append_assoc] at h
    obtain ⟨rfl, hr⟩ := List.append_inj h (by simpa using hfull)
    rw [leading_bytes32 hm] at hz
    obtain rfl := List.length_eq_zero_iff.mp hz
    exact onTrack_frame (by simpa using hr)

/-- What one chunk does to an aligned parser. -/
theorem feed_aligned {p : Pending} {c rest : List UInt8} {ms : List (List UInt8)}
    (hsize : ∀ m ∈ ms, m.length < 2 ^ 32) (hfit : c.length ≤ p.room)
    (h : Aligned p (c ++ rest) ms) :
    OnTrack ms (p.head.length + p.body.length + c.length) rest (p.feed c).1 (p.feed c).2 ∨
      Derailed ms (p.head.length + p.body.length + c.length) rest (p.feed c).1 (p.feed c).2 := by
  by_cases hc : c = []
  · subst hc
    rw [Pending.feed_nil]
    exact .inl (onTrack_same hsize h)
  · have ht := Pending.feed_taken p c hc hfit
    generalize (p.feed c).1 = q at ht ⊢
    generalize (p.feed c).2 = out at ht ⊢
    obtain ⟨m, ms, rfl⟩ : ∃ m ms', ms = m :: ms' := by
      cases ms with
      | nil => simp [Aligned, hc] at h
      | cons m ms => exact ⟨m, ms, rfl⟩
    have hm := hsize m List.mem_cons_self
    cases ht with
    | early hh hz => exact feed_early hsize hc hfit h hh hz
    | header hh hz _ hq hb =>
      have hal : Aligned q rest (m :: ms) := by
        rw [Aligned, hq, hb, ← h, Pending.body_nil hh]
        simp only [List.append_assoc, List.nil_append]
      have hoff : q.head.length + q.body.length = p.head.length + p.body.length + c.length := by
        rw [hq, hb, Pending.body_nil hh, List.length_append]
        simp
      rw [← hoff]
      exact .inl (onTrack_same hsize hal)
    | done hh hd =>
      obtain ⟨hhead, hbody⟩ := aligned_body h hh
      rw [hhead, leading_bytes32 hm] at hd
      rw [← List.append_assoc] at hbody
      obtain ⟨hfull, hr⟩ := List.append_inj hbody (by rw [List.length_append, hd])
      have hoff : p.head.length + p.body.length + c.length = (frame m).length := by
        rw [hh, frame_length]
        omega
      rw [hfull, hoff]
      exact .inl (onTrack_frame hr)
    | partway hh hd _ hq hb =>
      have hal : Aligned q rest (m :: ms) := by
        rw [Aligned, hq, hb, ← h]
        simp only [List.append_assoc]
      have hoff : q.head.length + q.body.length = p.head.length + p.body.length + c.length := by
        rw [hq, hb, List.length_append]
        omega
      rw [← hoff]
      exact .inl (onTrack_same hsize hal)

theorem uncut_cons (ms : List (List UInt8)) (off : ℕ) (c : List UInt8) (cs : List (List UInt8)) :
    Uncut ms off (c :: cs) ↔ ¬ ZeroCut ms (off + c.length) ∧ Uncut ms (off + c.length) cs := by
  simp only [Uncut, cuts, List.forall_mem_cons]

/-- From an aligned state the parser reports exactly the frames of the stream, provided that no
chunk ends at a zero cut; one such end is enough to lose them. -/
theorem feedAll_iff {p : Pending} {cs ms : List (List UInt8)}
    (hsize : ∀ m ∈ ms, m.length < 2 ^ 32) (hfit : Fits p cs) (h : Aligned p cs.flatten ms) :
    (feedAll p cs).2 = ms ↔ Uncut ms (p.head.length + p.body.length) cs := by
  induction cs generalizing p ms with
  | nil =>
    have hms := aligned_nil hsize (by simpa [Aligned] using h)
    simp [hms, Uncut, cuts]
  | cons c cs ih =>
    rw [List.flatten_cons] at h
    rw [feedAll_cons, uncut_cons]
    rcases feed_aligned hsize hfit.1 h with ⟨hcut, ms', hms, hal, hiff⟩ | ⟨hcut, hlost⟩
    · rw [and_iff_right hcut, hiff cs]
      rw [hms, List.append_cancel_left_eq]
      exact ih (fun m hm => hsize m (by rw [hms]; exact List.mem_append_right _ hm)) hfit.2 hal
    · exact iff_of_false (hlost cs rfl hfit.2) fun hall => hall.1 hcut

end ShortCircuit.FrameParser
