import ShortCircuit.UriParser

set_option autoImplicit false

/-!
# The languages of `check_ip4` and `check_port`

`check_ip4` accepts four decimal numbers up to 255 between dots, with any number of
leading zeros. `check_port` accepts whatever `strtol` converts to a port number: blanks
and a plus sign in front of the digits, and any text after them.
-/
namespace ShortCircuit.UriAddress
open CStrings UriParser

theorem isDigit_iff (c : UInt8) : isDigit c = true ↔ 48 ≤ c.toNat ∧ c.toNat ≤ 57 := by
  simp only [isDigit, Bool.and_eq_true, decide_eq_true_eq, UInt8.le_iff_toNat_le]
  exact Iff.rfl

theorem not_isSpace_of_isDigit {c : UInt8} (h : isDigit c = true) : isSpace c = false := by
  obtain ⟨hlo, hhi⟩ := (isDigit_iff c).mp h
  have h32 : c ≠ 32 := by
    rintro rfl
    exact absurd hlo (by decide)
  have h13 : ¬ c ≤ 13 := by
    rw [UInt8.le_iff_toNat_le]
    have : (13 : UInt8).toNat = 13 := rfl
    omega
  simp [isSpace, h32, h13]

theorem ne_of_isDigit {c : UInt8} (h : isDigit c = true) {x : UInt8} (hx : isDigit x = false) :
    c ≠ x := by
  rintro rfl
  rw [h] at hx
  cases hx

theorem idxOf_digits (c : UInt8) :
    digits.idxOf? c = if isDigit c then some (c.toNat - 48) else none := by
  have hall : ∀ n : Fin 256, digits.idxOf? (UInt8.ofNat n) =
      if isDigit (UInt8.ofNat n) then some ((UInt8.ofNat n).toNat - 48) else none := by
    decide +kernel
  have hc := hall ⟨c.toNat, UInt8.toNat_lt c⟩
  rwa [UInt8.ofNat_toNat] at hc

/-- The number that the digits `ds` make of the number `v` in front of them. -/
def decimalFrom (v : ℕ) (ds : List UInt8) : ℕ := ds.foldl (fun acc d => 10 * acc + (d.toNat - 48)) v

theorem le_decimalFrom (v : ℕ) (ds : List UInt8) : v ≤ decimalFrom v ds := by
  induction ds generalizing v with
  | nil => exact le_refl v
  | cons d ds ih =>
    have h := ih (10 * v + (d.toNat - 48))
    simp only [decimalFrom, List.foldl_cons] at h ⊢
    omega

def NoDigit (rest : List UInt8) : Prop := ∀ c more, rest = c :: more → isDigit c = false

theorem noDigit_nil : NoDigit [] := fun _ _ h => (nomatch h)

theorem noDigit_cons {c : UInt8} (more : List UInt8) (h : isDigit c = false) :
    NoDigit (c :: more) := by
  intro c' more' heq
  rw [← (List.cons.inj heq).1]
  exact h

theorem takeWhile_noDigit {rest : List UInt8} (h : NoDigit rest) : rest.takeWhile isDigit = [] := by
  cases rest with
  | nil => rfl
  | cons c more => exact List.takeWhile_cons_of_neg (by rw [h c more rfl]; decide)

theorem takeWhile_digits {ds rest : List UInt8} (hd : ∀ d ∈ ds, isDigit d = true)
    (hr : NoDigit rest) : (ds ++ rest).takeWhile isDigit = ds := by
  rw [List.takeWhile_append_of_pos hd, takeWhile_noDigit hr, List.append_nil]

theorem digits_split (s : List UInt8) :
    ∃ ds rest, s = ds ++ rest ∧ (∀ d ∈ ds, isDigit d = true) ∧ NoDigit rest := by
  induction s with
  | nil => exact ⟨[], [], rfl, by simp, noDigit_nil⟩
  | cons c s ih =>
    by_cases hc : isDigit c = true
    · obtain ⟨ds, rest, rfl, hd, hr⟩ := ih
      exact ⟨c :: ds, rest, rfl, List.forall_mem_cons.mpr ⟨hc, hd⟩, hr⟩
    · exact ⟨[], c :: s, rfl, by simp, noDigit_cons s (by simpa using hc)⟩

theorem digits_unique {ds ds' rest rest' : List UInt8} (hd : ∀ d ∈ ds, isDigit d = true)
    (hd' : ∀ d ∈ ds', isDigit d = true) (hr : NoDigit rest) (hr' : NoDigit rest')
    (h : ds ++ rest = ds' ++ rest') : ds = ds' ∧ rest = rest' := by
  have hds : ds = ds' := by
    rw [← takeWhile_digits hd hr, h, takeWhile_digits hd' hr']
  subst hds
  exact ⟨rfl, List.append_cancel_left h⟩

structure Octet (ds : List UInt8) : Prop where
  nonempty : ds ≠ []
  digits : ∀ d ∈ ds, isDigit d = true
  small : decimal ds ≤ 255

/-- A non-empty string of decimal digits whose value is a port number. -/
structure PortText (ds : List UInt8) : Prop where
  nonempty : ds ≠ []
  digits : ∀ d ∈ ds, isDigit d = true
  positive : 1 ≤ decimal ds
  small : decimal ds ≤ 65535

/-- Octets between dots, one more than `n`. -/
def Dotted : ℕ → List UInt8 → Prop
  | 0, s => Octet s
  | n + 1, s => ∃ d rest, Octet d ∧ s = d ++ ch '.' :: rest ∧ Dotted n rest

def DottedQuad (s : List UInt8) : Prop :=
  ∃ a b c d, Octet a ∧ Octet b ∧ Octet c ∧ Octet d ∧
    s = a ++ ch '.' :: (b ++ ch '.' :: (c ++ ch '.' :: d))

theorem dotted_three (s : List UInt8) : Dotted 3 s ↔ DottedQuad s := by
  constructor
  · rintro ⟨a, _, ha, rfl, b, _, hb, rfl, c, d, hc, rfl, hd⟩
    exact ⟨a, b, c, d, ha, hb, hc, hd, rfl⟩
  · rintro ⟨a, b, c, d, ha, hb, hc, hd, rfl⟩
    exact ⟨a, _, ha, rfl, b, _, hb, rfl, c, d, hc, rfl, hd⟩

theorem DottedQuad.bytes {s : List UInt8} (h : DottedQuad s) :
    ∀ x ∈ s, isDigit x = true ∨ x = ch '.' := by
  obtain ⟨a, b, c, d, ha, hb, hc, hd, rfl⟩ := h
  intro x hx
  simp only [List.mem_append, List.mem_cons] at hx
  rcases hx with hx | hx | hx | hx | hx | hx | hx
  · exact .inl (ha.digits x hx)
  · exact .inr hx
  · exact .inl (hb.digits x hx)
  · exact .inr hx
  · exact .inl (hc.digits x hx)
  · exact .inr hx
  · exact .inl (hd.digits x hx)

theorem DottedQuad.ne_nil {s : List UInt8} (h : DottedQuad s) : s ≠ [] := by
  obtain ⟨a, b, c, d, _, _, _, _, rfl⟩ := h
  simp

theorem DottedQuad.no_colon {s : List UInt8} (h : DottedQuad s) : ch ':' ∉ s := by
  intro hx
  rcases h.bytes _ hx with hd | hd
  · exact absurd hd (by decide)
  · exact absurd hd (by decide)

theorem noDigit_dot (rest : List UInt8) : NoDigit (ch '.' :: rest) := noDigit_cons rest (by decide)

theorem Octet.starts {ds : List UInt8} (h : Octet ds) (rest : List UInt8) : ¬ NoDigit (ds ++ rest) := by
  obtain ⟨c, cs, rfl⟩ := List.exists_cons_of_ne_nil h.nonempty
  intro hn
  have hf := hn c (cs ++ rest) rfl
  rw [h.digits c List.mem_cons_self] at hf
  cases hf

theorem Dotted.starts {n : ℕ} {s : List UInt8} (h : Dotted n s) : ¬ NoDigit s := by
  cases n with
  | zero =>
    have hs : ¬ NoDigit (s ++ []) := Octet.starts h []
    rwa [List.append_nil] at hs
  | succ n =>
    obtain ⟨d, rest, hd, rfl, _⟩ := h
    exact hd.starts _

theorem dotted_append {n : ℕ} {ds rest : List UInt8} (hd : ∀ d ∈ ds, isDigit d = true)
    (hr : NoDigit rest) :
    Dotted n (ds ++ rest) ↔ Octet ds ∧
      ((n = 0 ∧ rest = []) ∨ ∃ m more, n = m + 1 ∧ rest = ch '.' :: more ∧ Dotted m more) := by
  cases n with
  | zero =>
    constructor
    · intro h
      have hnil : ds ++ rest = (ds ++ rest) ++ [] := (List.append_nil _).symm
      obtain ⟨heq, hrest⟩ := digits_unique hd (Octet.digits h) hr noDigit_nil hnil
      rw [hrest, List.append_nil] at h
      exact ⟨h, .inl ⟨rfl, hrest⟩⟩
    · rintro ⟨ho, ⟨_, rfl⟩ | ⟨m, _, hm, _⟩⟩
      · rw [List.append_nil]
        exact ho
      · cases hm
  | succ n =>
    constructor
    · rintro ⟨d, rest', ho, heq, hmore⟩
      obtain ⟨rfl, rfl⟩ := digits_unique hd ho.digits hr (noDigit_dot rest') heq
      exact ⟨ho, .inr ⟨n, rest', rfl, rfl, hmore⟩⟩
    · rintro ⟨ho, ⟨hn, _⟩ | ⟨m, more, hm, rfl, hmore⟩⟩
      · cases hn
      · obtain rfl := Nat.succ.inj hm
        exact ⟨ds, more, ho, rfl, hmore⟩

/-- The loop of `check_ip4` has begun `k` octets, `saw` tells whether the current one has a digit,
and `v` is its value. -/
structure Counts (s : Ip4Loop) (k : ℕ) (saw : Bool) (v : ℕ) : Prop where
  tmp : s.tmp.length = 4
  bound : s.tp < 4
  tp : s.tp + (if saw then 1 else 0) = k
  octets : s.octets = k
  sawDigit : s.sawDigit = saw
  value : (s.tmp.getD s.tp 0).toNat = v

theorem counts_start : Counts ip4Start 0 false 0 := ⟨rfl, by decide, rfl, rfl, rfl, rfl⟩

theorem getD_set_self {tmp : List UInt8} {tp : ℕ} (h : tp < tmp.length) (x : UInt8) :
    (tmp.set tp x).getD tp 0 = x := by
  simp [List.getD, h]

theorem toNat_ofNat_small {n : ℕ} (h : n ≤ 255) : (UInt8.ofNat n).toNat = n := by
  rw [UInt8.toNat_ofNat']
  exact Nat.mod_eq_of_lt (by omega)

section Loop

variable {s : Ip4Loop} {k v : ℕ} {saw : Bool} {c : UInt8}

theorem step_overflow (h : Counts s k saw v) (hc : isDigit c = true)
    (hv : 255 < 10 * v + (c.toNat - 48)) : ip4Step s c = none := by
  have hgt : v * 10 + (c.toNat - 48) > 255 := by omega
  simp only [ip4Step, idxOf_digits, hc, if_true, h.value, hgt]

theorem step_digit (h : Counts s k saw v) (hc : isDigit c = true)
    (hv : 10 * v + (c.toNat - 48) ≤ 255) :
    ∃ t, ip4Step s c = some t ∧
      Counts t (if saw then k else k + 1) true (10 * v + (c.toNat - 48)) := by
  have hle : ¬ v * 10 + (c.toNat - 48) > 255 := by omega
  have hlt : s.tp < s.tmp.length := by rw [h.tmp]; exact h.bound
  have hval : ((s.tmp.set s.tp (UInt8.ofNat (v * 10 + (c.toNat - 48)))).getD s.tp 0).toNat =
      10 * v + (c.toNat - 48) := by
    rw [getD_set_self hlt, toNat_ofNat_small (by omega)]
    omega
  have hk := h.tp
  cases saw with
  | true =>
    refine ⟨{ s with tmp := s.tmp.set s.tp (UInt8.ofNat (v * 10 + (c.toNat - 48))) }, ?_, ?_⟩
    · simp only [ip4Step, idxOf_digits, hc, if_true, h.value, hle, if_false, h.sawDigit]
    · exact ⟨by simpa using h.tmp, h.bound, hk, h.octets, h.sawDigit, hval⟩
  | false =>
    have hb := h.bound
    have hfour : ¬ s.octets + 1 > 4 := by
      rw [h.octets, ← hk]
      simp only [Bool.false_eq_true, if_false]
      omega
    refine ⟨⟨s.tmp.set s.tp (UInt8.ofNat (v * 10 + (c.toNat - 48))), s.tp, true, s.octets + 1⟩,
      ?_, ?_⟩
    · simp only [ip4Step, idxOf_digits, hc, if_true, h.value, hle, if_false, h.sawDigit, hfour,
        Bool.false_eq_true]
    · refine ⟨by simpa using h.tmp, h.bound, ?_, by rw [h.octets]; rfl, rfl, hval⟩
      simpa using hk

theorem step_dot (h : Counts s k true v) :
    (k = 4 → ip4Step s (ch '.') = none) ∧
      (k < 4 → ∃ t, ip4Step s (ch '.') = some t ∧ Counts t k false 0) := by
  have hidx : digits.idxOf? (ch '.') = none := by decide
  have htp := h.tp
  simp only [if_true] at htp
  constructor
  · intro hk
    simp only [ip4Step, hidx, h.sawDigit, and_self, if_true, h.octets, hk]
  · intro hk
    have hne : ¬ k = 4 := by omega
    refine ⟨⟨s.tmp.set (s.tp + 1) 0, s.tp + 1, false, s.octets⟩, ?_, ?_⟩
    · simp only [ip4Step, hidx, h.sawDigit, and_self, if_true, h.octets, hne, if_false]
    · have hbound : s.tp + 1 < 4 := by omega
      refine ⟨by simpa using h.tmp, hbound, htp, h.octets, rfl, ?_⟩
      rw [getD_set_self (by rw [h.tmp]; omega)]
      rfl

theorem step_other (h : Counts s k saw v) (hc : isDigit c = false)
    (hbad : saw = false ∨ c ≠ ch '.') : ip4Step s c = none := by
  have hcond : ¬ (c = ch '.' ∧ s.sawDigit = true) := by
    rintro ⟨hdot, hsaw⟩
    rw [h.sawDigit] at hsaw
    rcases hbad with hf | hne
    · rw [hsaw] at hf
      cases hf
    · exact hne hdot
  simp only [ip4Step, idxOf_digits, hc, Bool.false_eq_true, if_false, hcond]

end Loop

theorem loop_digits {s : Ip4Loop} {k v : ℕ} {ds : List UInt8} (h : Counts s k true v)
    (hd : ∀ d ∈ ds, isDigit d = true) :
    (decimalFrom v ds ≤ 255 → ∃ t, Counts t k true (decimalFrom v ds) ∧
      ∀ rest, ip4Loop s (ds ++ rest) = ip4Loop t rest) ∧
    (255 < decimalFrom v ds → v ≤ 255 → ∀ rest, ip4Loop s (ds ++ rest) = none) := by
  induction ds generalizing s v with
  | nil => exact ⟨fun _ => ⟨s, h, fun _ => rfl⟩, fun hgt hle => absurd hgt (Nat.not_lt.mpr hle)⟩
  | cons c ds ih =>
    obtain ⟨hc, hds⟩ := List.forall_mem_cons.mp hd
    have hmono := le_decimalFrom (10 * v + (c.toNat - 48)) ds
    change (decimalFrom (10 * v + (c.toNat - 48)) ds ≤ 255 → _) ∧
      (255 < decimalFrom (10 * v + (c.toNat - 48)) ds → _)
    by_cases hv : 10 * v + (c.toNat - 48) ≤ 255
    · obtain ⟨t, hs, ht⟩ := step_digit h hc hv
      obtain ⟨hok, hbad⟩ := ih ht hds
      have hloop : ∀ rest, ip4Loop s (c :: ds ++ rest) = ip4Loop t (ds ++ rest) := by
        intro rest
        simp only [List.cons_append, ip4Loop, hs]
      constructor
      · intro hle
        obtain ⟨u, hu, hrest⟩ := hok hle
        exact ⟨u, hu, fun rest => by rw [hloop, hrest]⟩
      · intro hgt _ rest
        rw [hloop, hbad hgt hv]
    · constructor
      · intro hle
        omega
      · intro _ _ rest
        simp only [List.cons_append, ip4Loop, step_overflow h hc (by omega)]

theorem loop_octet {s : Ip4Loop} {k : ℕ} {ds : List UInt8} (h : Counts s k false 0)
    (hne : ds ≠ []) (hd : ∀ d ∈ ds, isDigit d = true) :
    (decimal ds ≤ 255 → ∃ t, Counts t (k + 1) true (decimal ds) ∧
      ∀ rest, ip4Loop s (ds ++ rest) = ip4Loop t rest) ∧
    (255 < decimal ds → ∀ rest, ip4Loop s (ds ++ rest) = none) := by
  obtain ⟨c, cs, rfl⟩ := List.exists_cons_of_ne_nil hne
  obtain ⟨hc, hcs⟩ := List.forall_mem_cons.mp hd
  have hdigit := ((isDigit_iff c).mp hc).2
  have hv : 10 * 0 + (c.toNat - 48) ≤ 255 := by omega
  obtain ⟨t, hs, ht⟩ := step_digit h hc hv
  have hloop : ∀ rest, ip4Loop s (c :: cs ++ rest) = ip4Loop t (cs ++ rest) := by
    intro rest
    simp only [List.cons_append, ip4Loop, hs]
  obtain ⟨hok, hbad⟩ := loop_digits ht hcs
  constructor
  · intro hle
    obtain ⟨u, hu, hrest⟩ := hok hle
    exact ⟨u, hu, fun rest => by rw [hloop, hrest]⟩
  · intro hgt rest
    rw [hloop, hbad hgt hv]

def accepts (s : Ip4Loop) (cs : List UInt8) : Bool :=
  match ip4Loop s cs with
  | none => false
  | some t => !(t.octets < 4)

theorem accepts_none {s : Ip4Loop} {cs : List UInt8} (h : ip4Loop s cs = none) :
    accepts s cs = false := by
  rw [accepts, h]

theorem accepts_cons_none {s : Ip4Loop} {c : UInt8} (cs : List UInt8) (h : ip4Step s c = none) :
    accepts s (c :: cs) = false := by
  simp only [accepts, ip4Loop, h]

/-- What may follow an octet: nothing after the fourth, a dot and more octets after the others.
`P` is the language accepted from the start of the next octet. -/
theorem accepts_octet {k : ℕ} {s : Ip4Loop} {ds rest : List UInt8} {P : List UInt8 → Prop}
    (h : Counts s k false 0) (hne : ds ≠ []) (hd : ∀ d ∈ ds, isDigit d = true)
    (hr : NoDigit rest)
    (hP : k < 3 → ∀ t more, Counts t (k + 1) false 0 → (accepts t more = true ↔ P more)) :
    accepts s (ds ++ rest) = true ↔ Octet ds ∧
      ((k = 3 ∧ rest = []) ∨ ∃ more, k < 3 ∧ rest = ch '.' :: more ∧ P more) := by
  obtain ⟨hok, hbad⟩ := loop_octet h hne hd
  have hk : k < 4 := by
    have htp := h.tp
    have hb := h.bound
    simp only [Bool.false_eq_true, if_false] at htp
    omega
  by_cases hv : decimal ds ≤ 255
  · obtain ⟨t, ht, hloop⟩ := hok hv
    obtain ⟨hlast, hnext⟩ := step_dot ht
    have hacc : accepts s (ds ++ rest) = accepts t rest := by rw [accepts, hloop, accepts]
    rw [hacc, and_iff_right (⟨hne, hd, hv⟩ : Octet ds)]
    cases rest with
    | nil =>
      have hfour : accepts t [] = true ↔ k = 3 := by
        simp only [accepts, ip4Loop, ht.octets, Bool.not_eq_true', decide_eq_false_iff_not]
        omega
      simp [hfour]
    | cons c more =>
      by_cases hdot : c = ch '.'
      · subst hdot
        by_cases h3 : k = 3
        · rw [accepts_cons_none more (hlast (by omega))]
          simp [h3]
        · have hlt : k < 3 := by omega
          obtain ⟨u, hu, hcu⟩ := hnext (by omega)
          have hacc' : accepts t (ch '.' :: more) = accepts u more := by
            simp only [accepts, ip4Loop, hu]
          rw [hacc', hP hlt u more hcu]
          simp [h3, hlt]
      · rw [accepts_cons_none more (step_other ht (hr c more rfl) (.inr hdot))]
        simp [hdot]
  · refine iff_of_false ?_ fun ho => hv ho.1.small
    rw [accepts_none (hbad (by omega) rest)]
    decide

theorem accepts_noDigit {k : ℕ} {s : Ip4Loop} {rest : List UInt8} (h : Counts s k false 0)
    (hk : k < 4) (hr : NoDigit rest) : accepts s rest = false := by
  cases rest with
  | nil =>
    simp only [accepts, ip4Loop, h.octets, Bool.not_eq_false', decide_eq_true_eq]
    exact hk
  | cons c more => exact accepts_cons_none more (step_other h (hr c more rfl) (.inl rfl))

/-- From the start of an octet, `check_ip4` accepts exactly the octets that are missing. -/
theorem accepts_iff {n k : ℕ} {s : Ip4Loop} (cs : List UInt8) (h : Counts s k false 0)
    (hk : k + n = 3) : accepts s cs = true ↔ Dotted n cs := by
  induction n generalizing k s cs with
  | zero =>
    obtain ⟨ds, rest, rfl, hd, hr⟩ := digits_split cs
    by_cases hne : ds = []
    · subst hne
      rw [List.nil_append, accepts_noDigit h (by omega) hr]
      exact iff_of_false (by decide) fun hdot => hdot.starts hr
    · rw [accepts_octet (P := fun _ => False) h hne hd hr (by omega), dotted_append hd hr]
      simp [show k = 3 by omega]
  | succ n ih =>
    obtain ⟨ds, rest, rfl, hd, hr⟩ := digits_split cs
    by_cases hne : ds = []
    · subst hne
      rw [List.nil_append, accepts_noDigit h (by omega) hr]
      exact iff_of_false (by decide) fun hdot => hdot.starts hr
    · rw [accepts_octet (P := Dotted n) h hne hd hr
        (fun _ t more ht => ih more ht (by omega)), dotted_append hd hr]
      simp [show ¬ k = 3 by omega, show k < 3 by omega]

/-- `check_ip4` decides the dotted quads. -/
theorem checkIp4Str_iff (s : List UInt8) : checkIp4Str s = true ↔ DottedQuad s := by
  rw [← dotted_three, ← accepts_iff s counts_start (n := 3) rfl]
  rfl

theorem step_counts {s t : Ip4Loop} {k v : ℕ} {saw : Bool} {c : UInt8} (h : Counts s k saw v)
    (hs : ip4Step s c = some t) : ∃ k' saw' v', Counts t k' saw' v' := by
  by_cases hc : isDigit c = true
  · by_cases hv : 10 * v + (c.toNat - 48) ≤ 255
    · obtain ⟨u, hu, hcounts⟩ := step_digit h hc hv
      obtain rfl := Option.some.inj (hs.symm.trans hu)
      exact ⟨_, _, _, hcounts⟩
    · rw [step_overflow h hc (by omega)] at hs
      cases hs
  · have hno : isDigit c = false := by simpa using hc
    by_cases hdot : saw = false ∨ c ≠ ch '.'
    · rw [step_other h hno hdot] at hs
      cases hs
    · simp only [not_or, Bool.not_eq_false, not_not] at hdot
      obtain ⟨rfl, rfl⟩ := hdot
      obtain ⟨hlast, hnext⟩ := step_dot h
      have htp := h.tp
      have hb := h.bound
      simp only [if_true] at htp
      by_cases hk : k = 4
      · rw [hlast hk] at hs
        cases hs
      · obtain ⟨u, hu, hcounts⟩ := hnext (by omega)
        obtain rfl := Option.some.inj (hs.symm.trans hu)
        exact ⟨_, _, _, hcounts⟩

theorem loop_counts {s t : Ip4Loop} {k v : ℕ} {saw : Bool} {cs : List UInt8}
    (h : Counts s k saw v) (hs : ip4Loop s cs = some t) : ∃ k' saw' v', Counts t k' saw' v' := by
  induction cs generalizing s k saw v with
  | nil =>
    obtain rfl := Option.some.inj hs
    exact ⟨k, saw, v, h⟩
  | cons c cs ih =>
    simp only [ip4Loop] at hs
    cases hu : ip4Step s c with
    | none => simp [hu] at hs
    | some u =>
      simp only [hu] at hs
      obtain ⟨k', saw', v', hcounts⟩ := step_counts h hu
      exact ih hcounts hs

theorem stored_digit {s t : Ip4Loop} {k v d : ℕ} {saw : Bool} {c : UInt8} (h : Counts s k saw v)
    (hs : ip4Step s c = some t) (hd : digits.idxOf? c = some d) :
    (s.tmp.getD s.tp 0).toNat * 10 + d ≤ 255 ∧
      (t.tmp.getD t.tp 0).toNat = (s.tmp.getD s.tp 0).toNat * 10 + d := by
  rw [idxOf_digits] at hd
  by_cases hc : isDigit c = true
  · simp only [hc, if_true, Option.some.injEq] at hd
    by_cases hv : 10 * v + (c.toNat - 48) ≤ 255
    · obtain ⟨u, hu, hcounts⟩ := step_digit h hc hv
      obtain rfl := Option.some.inj (hs.symm.trans hu)
      rw [hcounts.value, h.value]
      omega
    · rw [step_overflow h hc (by omega)] at hs
      cases hs
  · simp [hc] at hd

/-- `check_ip4` returns on every string and accepts exactly the dotted quads. Before each iteration
and after the last one its pointer is inside `tmp`, and what a digit stores there is not
truncated. -/
theorem checkIp4_decides (s : CString) :
    (∃ b, checkIp4 (s.bytes ++ [0]) (some 0) = .ok b ∧ (b = true ↔ DottedQuad s.bytes)) ∧
    (∀ pre rest t, s.bytes = pre ++ rest → ip4Loop ip4Start pre = some t →
      t.tmp.length = 4 ∧ t.tp < 4) ∧
    ∀ pre c rest t u d, s.bytes = pre ++ c :: rest → ip4Loop ip4Start pre = some t →
      ip4Step t c = some u → digits.idxOf? c = some d →
      (t.tmp.getD t.tp 0).toNat * 10 + d ≤ 255 ∧
        (u.tmp.getD u.tp 0).toNat = (t.tmp.getD t.tp 0).toNat * 10 + d := by
  refine ⟨⟨checkIp4Str s.bytes, ?_, checkIp4Str_iff s.bytes⟩, ?_, ?_⟩
  · have hstr : cstrAt (s.bytes ++ [0]) (some 0) = .ok s.bytes := cstrAt_ok [] [] s.nul_free
    rw [checkIp4, hstr]
    rfl
  · intro pre rest t _ ht
    obtain ⟨k, saw, v, hcounts⟩ := loop_counts counts_start ht
    exact ⟨hcounts.tmp, hcounts.bound⟩
  · intro pre c rest t u d _ ht hu hd
    obtain ⟨k, saw, v, hcounts⟩ := loop_counts counts_start ht
    exact stored_digit hcounts hu hd

/-- The parts of a text that `strtol` converts to a port number. -/
structure LaxPort (blanks plus ds tail : List UInt8) : Prop where
  blanks : ∀ b ∈ blanks, isSpace b = true
  plus : plus = [] ∨ plus = [ch '+']
  port : PortText ds
  tail : NoDigit tail

theorem LaxPort.exact {blanks plus ds tail : List UInt8} (h : LaxPort blanks plus ds tail)
    (hall : ∀ x ∈ blanks ++ (plus ++ (ds ++ tail)), isDigit x = true) :
    blanks = [] ∧ plus = [] ∧ tail = [] := by
  refine ⟨?_, ?_, ?_⟩
  · rw [List.eq_nil_iff_forall_not_mem]
    intro b hb
    have hsp := h.blanks b hb
    rw [not_isSpace_of_isDigit (hall b (by simp [hb]))] at hsp
    cases hsp
  · rcases h.plus with hp | hp
    · exact hp
    · exact absurd (hall (ch '+') (by simp [hp])) (by decide)
  · cases tail with
    | nil => rfl
    | cons c more =>
      have hc := h.tail c more rfl
      rw [hall c (by simp)] at hc
      cases hc

theorem clampLong_port (n : ℕ) :
    ¬ (clampLong n < 1 ∨ clampLong n > 65535) ↔ 1 ≤ n ∧ n ≤ 65535 := by
  simp only [clampLong, longMin, longMax]
  omega

theorem clampLong_neg (n : ℕ) : clampLong (-(n : Int)) < 1 := by
  simp only [clampLong, longMin, longMax]
  omega

theorem strtol_digits {blanks plus ds tail : List UInt8} (hb : ∀ b ∈ blanks, isSpace b = true)
    (hp : plus = [] ∨ plus = [ch '+']) (hne : ds ≠ []) (hd : ∀ d ∈ ds, isDigit d = true)
    (ht : NoDigit tail) :
    strtol (blanks ++ (plus ++ (ds ++ tail))) =
      (clampLong (decimal ds), blanks.length + plus.length + ds.length) := by
  obtain ⟨c, cs, rfl⟩ := List.exists_cons_of_ne_nil hne
  have hc := hd c List.mem_cons_self
  have htake := takeWhile_digits hd ht
  rcases hp with rfl | rfl
  · have hspace : ¬ isSpace c = true := by rw [not_isSpace_of_isDigit hc]; decide
    have hsign : readSign (c :: cs ++ tail) = (false, 0, c :: cs ++ tail) := by
      simp only [List.cons_append, readSign, ne_of_isDigit hc (x := ch '-') (by decide),
        ne_of_isDigit hc (x := ch '+') (by decide), if_false]
    rw [strtol, List.nil_append, List.takeWhile_append_of_pos hb,
      List.dropWhile_append_of_pos hb]
    simp only [List.cons_append, List.takeWhile_cons_of_neg hspace,
      List.dropWhile_cons_of_neg hspace]
    rw [List.cons_append] at hsign htake
    simp only [hsign, htake, reduceCtorEq, Bool.false_eq_true, if_false, List.append_nil,
      List.length_nil]
  · have hspace : ¬ isSpace (ch '+') = true := by decide
    have hsign : readSign (ch '+' :: (c :: cs ++ tail)) = (false, 1, c :: cs ++ tail) := rfl
    rw [strtol, List.takeWhile_append_of_pos hb, List.dropWhile_append_of_pos hb]
    simp only [List.cons_append, List.nil_append, List.takeWhile_cons_of_neg hspace,
      List.dropWhile_cons_of_neg hspace]
    rw [List.cons_append] at hsign htake
    simp only [hsign, htake, reduceCtorEq, Bool.false_eq_true, if_false, List.append_nil,
      List.length_singleton]

theorem checkPortStr_parts {blanks plus ds tail : List UInt8}
    (hb : ∀ b ∈ blanks, isSpace b = true) (hp : plus = [] ∨ plus = [ch '+'])
    (hd : ∀ d ∈ ds, isDigit d = true) (ht : NoDigit tail) (hne : ds ≠ []) :
    checkPortStr (blanks ++ (plus ++ (ds ++ tail))) = true ↔ PortText ds := by
  have hlen := List.length_pos_iff.mpr hne
  have hstop : ¬ blanks.length + plus.length + ds.length = 0 := by omega
  simp only [checkPortStr, strtol_digits hb hp hne hd ht, hstop, if_false]
  have hiff := clampLong_port (decimal ds)
  split
  · rename_i hout
    exact iff_of_false (by decide) fun h => hiff.mpr ⟨h.positive, h.small⟩ hout
  · rename_i hin
    obtain ⟨hpos, hle⟩ := hiff.mp hin
    exact iff_of_true rfl ⟨hne, hd, hpos, hle⟩

theorem checkPortStr_stop {p : List UInt8} (h : (strtol p).2 = 0) : checkPortStr p = false := by
  simp only [checkPortStr, h, if_true]

theorem checkPortStr_minus {p : List UInt8} (h : (readSign (p.dropWhile isSpace)).1 = true) :
    checkPortStr p = false := by
  simp only [checkPortStr, strtol, h, if_true]
  split
  · rfl
  · simp only [clampLong_neg, true_or, if_true, ite_self]

theorem strtol_none {p rest : List UInt8}
    (hsign : (readSign (p.dropWhile isSpace)).2.2 = rest) (hr : NoDigit rest) :
    (strtol p).2 = 0 := by
  simp only [strtol, hsign, takeWhile_noDigit hr, if_true]

theorem readSign_cases (r : List UInt8) :
    (readSign r).1 = true ∨ ∃ plus rest, (plus = [] ∨ plus = [ch '+']) ∧ r = plus ++ rest ∧
      (readSign r).2.2 = rest := by
  cases r with
  | nil => exact .inr ⟨[], [], .inl rfl, rfl, rfl⟩
  | cons c cs =>
    by_cases hminus : c = ch '-'
    · left
      simp only [readSign, hminus, if_true]
    · right
      by_cases hplus : c = ch '+'
      · subst hplus
        exact ⟨[ch '+'], cs, .inr rfl, rfl, rfl⟩
      · refine ⟨[], c :: cs, .inl rfl, rfl, ?_⟩
        simp only [readSign, hminus, hplus, if_false]

/-- `check_port` accepts a port number with blanks and a plus sign in front and any text behind. -/
theorem checkPortStr_iff (p : List UInt8) :
    checkPortStr p = true ↔ ∃ blanks plus ds tail, p = blanks ++ (plus ++ (ds ++ tail)) ∧
      LaxPort blanks plus ds tail := by
  constructor
  · intro h
    have hb : ∀ b ∈ p.takeWhile isSpace, isSpace b = true := fun b hb => List.mem_takeWhile_imp hb
    have hp : p = p.takeWhile isSpace ++ p.dropWhile isSpace :=
      List.takeWhile_append_dropWhile.symm
    rcases readSign_cases (p.dropWhile isSpace) with hminus | ⟨plus, rest, hplus, hrest, hsign⟩
    · rw [checkPortStr_minus hminus] at h
      cases h
    · obtain ⟨ds, tail, rfl, hd, ht⟩ := digits_split rest
      by_cases hne : ds = []
      · subst hne
        rw [checkPortStr_stop (strtol_none hsign ht)] at h
        cases h
      · rw [hrest] at hp
        rw [hp] at h
        exact ⟨_, plus, ds, tail, hp, hb, hplus, (checkPortStr_parts hb hplus hd ht hne).mp h, ht⟩
  · rintro ⟨blanks, plus, ds, tail, rfl, h⟩
    exact (checkPortStr_parts h.blanks h.plus h.port.digits h.tail h.port.nonempty).mpr h.port

end ShortCircuit.UriAddress
