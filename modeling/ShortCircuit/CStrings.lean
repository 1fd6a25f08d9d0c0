import Mathlib

set_option autoImplicit false

/-!
# C strings in a buffer, and the library functions that read them

A buffer is the list of its bytes, terminators included; a pointer into it is an
offset, and `none` is the null pointer. Every read is checked. `strtokS` is Annex K
`strtok_s` and `strtol` is ISO C in base ten with a 64-bit `long`.
-/
namespace ShortCircuit.CStrings

inductive Fault where
  | nullPointer
  | outOfBounds
  | assertion
  deriving DecidableEq, Repr

theorem bind_ok_iff {α β : Type} (x : Except Fault α) (f : α → Except Fault β) (b : β) :
    (x >>= f) = .ok b ↔ ∃ a, x = .ok a ∧ f a = .ok b := by
  cases x <;> simp [bind, Except.bind]

def ch (c : Char) : UInt8 := UInt8.ofNat c.toNat

structure CString where
  bytes : List UInt8
  nul_free : 0 ∉ bytes

abbrev Ptr := Option ℕ

/-- The string that starts at a pointer. -/
def cstrAt (buf : List UInt8) : Ptr → Except Fault (List UInt8)
  | none => .error .nullPointer
  | some p =>
    if 0 ∈ buf.drop p then .ok ((buf.drop p).takeWhile (· != 0)) else .error .outOfBounds

def charAt (buf : List UInt8) (p : ℕ) : Except Fault UInt8 :=
  match buf[p]? with
  | none => .error .outOfBounds
  | some c => .ok c

def strlen (buf : List UInt8) (p : Ptr) : Except Fault ℕ := (cstrAt buf p).map List.length

def strEq (buf : List UInt8) (p : Ptr) (lit : List UInt8) : Except Fault Bool :=
  (cstrAt buf p).map (· == lit)

structure Token where
  buf : List UInt8
  token : Ptr
  context : Ptr

/-- A function with the arguments of `strtok_s`: buffer, start, delimiter and context. -/
abbrev Tokeniser := List UInt8 → ℕ → UInt8 → Ptr → Except Fault Token

/-- Skip leading delimiters, cut the token at the next one and leave the context behind it. The
context keeps its value when no delimiter follows or there is no token. -/
def strtokS (buf : List UInt8) (start : ℕ) (delim : UInt8) (context : Ptr) :
    Except Fault Token :=
  match cstrAt buf (some start) with
  | .error fault => .error fault
  | .ok s =>
    let skipped := (s.takeWhile (· == delim)).length
    let rest := s.dropWhile (· == delim)
    let tok := rest.takeWhile (· != delim)
    if rest = [] then .ok ⟨buf, none, context⟩
    else if tok.length = rest.length then .ok ⟨buf, some (start + skipped), context⟩
    else
      .ok ⟨buf.set (start + skipped + tok.length) 0, some (start + skipped),
        some (start + skipped + tok.length + 1)⟩

def isSpace (b : UInt8) : Bool := b == 32 || (9 ≤ b && b ≤ 13)

def isDigit (b : UInt8) : Bool := 48 ≤ b && b ≤ 57

def decimal (ds : List UInt8) : ℕ := ds.foldl (fun acc d => 10 * acc + (d.toNat - 48)) 0

def longMax : Int := 2 ^ 63 - 1
def longMin : Int := -2 ^ 63

def clampLong (n : Int) : Int := max longMin (min longMax n)

def readSign : List UInt8 → Bool × ℕ × List UInt8
  | c :: cs => if c = ch '-' then (true, 1, cs) else if c = ch '+' then (false, 1, cs) else (false, 0, c :: cs)
  | [] => (false, 0, [])

/-- The value and the offset at which the conversion stopped; offset zero is no conversion. -/
def strtol (s : List UInt8) : Int × ℕ :=
  let sign := readSign (s.dropWhile isSpace)
  let ds := sign.2.2.takeWhile isDigit
  if ds = [] then (0, 0)
  else
    (clampLong (if sign.1 then -(decimal ds : Int) else decimal ds),
      (s.takeWhile isSpace).length + sign.2.1 + ds.length)

section Reading

theorem cstrAt_ok (before after : List UInt8) {s : List UInt8} (h : 0 ∉ s) :
    cstrAt (before ++ s ++ 0 :: after) (some before.length) = .ok s := by
  have hd : (before ++ s ++ 0 :: after).drop before.length = s ++ 0 :: after := by
    rw [List.append_assoc, List.drop_left]
  have ht : (s ++ 0 :: after).takeWhile (· != 0) = s := by
    rw [List.takeWhile_append_of_pos, List.takeWhile_cons_of_neg (by decide), List.append_nil]
    intro b hb
    have hne : b ≠ 0 := fun h0 => h (h0 ▸ hb)
    simpa using hne
  rw [cstrAt, hd, if_pos (by simp), ht]

theorem charAt_ok (before after : List UInt8) (c : UInt8) :
    charAt (before ++ c :: after) before.length = .ok c := by
  simp [charAt]

variable (before after : List UInt8) {tok rest : List UInt8} {delim : UInt8} (context : Ptr)

theorem strtokS_none (n : ℕ) (hd : delim ≠ 0) :
    strtokS (before ++ List.replicate n delim ++ 0 :: after) before.length delim context =
      .ok ⟨before ++ List.replicate n delim ++ 0 :: after, none, context⟩ := by
  have h0 : 0 ∉ List.replicate n delim := fun h => hd (List.eq_of_mem_replicate h).symm
  have hdrop : (List.replicate n delim).dropWhile (· == delim) = [] := by
    rw [List.dropWhile_eq_nil_iff]
    intro x hx
    simp [List.eq_of_mem_replicate hx]
  rw [strtokS, cstrAt_ok before after h0]
  simp only [hdrop, if_true]

theorem skip_delims (n : ℕ) (htok : tok ≠ []) (hno : delim ∉ tok) (tail : List UInt8) :
    (List.replicate n delim ++ (tok ++ tail)).takeWhile (· == delim) = List.replicate n delim ∧
      (List.replicate n delim ++ (tok ++ tail)).dropWhile (· == delim) = tok ++ tail := by
  have hall : ∀ x ∈ List.replicate n delim, (x == delim) = true := by
    intro x hx
    simp [List.eq_of_mem_replicate hx]
  obtain ⟨c, cs, rfl⟩ := List.exists_cons_of_ne_nil htok
  have hc : (c == delim) = false := by
    simp only [beq_eq_false_iff_ne, ne_eq]
    exact fun h => hno (h ▸ List.mem_cons_self)
  rw [List.takeWhile_append_of_pos hall, List.dropWhile_append_of_pos hall, List.cons_append,
    List.takeWhile_cons_of_neg (by simp [hc]), List.dropWhile_cons_of_neg (by simp [hc]),
    List.append_nil]
  exact ⟨rfl, rfl⟩

theorem take_token (hno : delim ∉ tok) (tail : List UInt8) :
    (tok ++ delim :: tail).takeWhile (· != delim) = tok := by
  rw [List.takeWhile_append_of_pos, List.takeWhile_cons_of_neg (by simp), List.append_nil]
  intro b hb
  have hne : b ≠ delim := fun h0 => hno (h0 ▸ hb)
  simpa using hne

theorem strtokS_last (n : ℕ) (hd : delim ≠ 0) (htok : tok ≠ []) (hno : delim ∉ tok)
    (h0 : 0 ∉ tok) :
    strtokS (before ++ (List.replicate n delim ++ tok) ++ 0 :: after) before.length delim context =
      .ok ⟨before ++ (List.replicate n delim ++ tok) ++ 0 :: after, some (before.length + n),
        context⟩ := by
  have hs0 : 0 ∉ List.replicate n delim ++ tok := by
    rw [List.mem_append]
    rintro (h | h)
    · exact hd (List.eq_of_mem_replicate h).symm
    · exact h0 h
  obtain ⟨htake, hdrop⟩ := skip_delims n htok hno []
  rw [List.append_nil] at htake hdrop
  have hall : tok.takeWhile (· != delim) = tok := by
    rw [List.takeWhile_eq_self_iff]
    intro b hb
    have hne : b ≠ delim := fun h => hno (h ▸ hb)
    simpa using hne
  rw [strtokS, cstrAt_ok before after hs0]
  simp only [htake, hdrop, hall, htok, if_false, if_true, List.length_replicate]

theorem strtokS_cut (n : ℕ) (hd : delim ≠ 0) (htok : tok ≠ []) (hno : delim ∉ tok)
    (h0 : 0 ∉ tok) (hr0 : 0 ∉ rest) :
    strtokS (before ++ (List.replicate n delim ++ (tok ++ delim :: rest)) ++ 0 :: after)
        before.length delim context =
      .ok ⟨before ++ List.replicate n delim ++ tok ++ 0 :: (rest ++ 0 :: after),
        some (before.length + n), some (before.length + n + tok.length + 1)⟩ := by
  have hs0 : 0 ∉ List.replicate n delim ++ (tok ++ delim :: rest) := by
    simp only [List.mem_append, List.mem_cons]
    rintro (h | h | h | h)
    · exact hd (List.eq_of_mem_replicate h).symm
    · exact h0 h
    · exact hd h.symm
    · exact hr0 h
  obtain ⟨htake, hdrop⟩ := skip_delims n htok hno (delim :: rest)
  have hlen : ¬ tok.length = (tok ++ delim :: rest).length := by simp
  have hne : tok ++ delim :: rest ≠ [] := by simp
  have hset : (before ++ (List.replicate n delim ++ (tok ++ delim :: rest)) ++ 0 :: after).set
      (before.length + n + tok.length) 0 =
        before ++ List.replicate n delim ++ tok ++ 0 :: (rest ++ 0 :: after) := by
    have hsplit : before ++ (List.replicate n delim ++ (tok ++ delim :: rest)) ++ 0 :: after =
        (before ++ List.replicate n delim ++ tok) ++ delim :: (rest ++ 0 :: after) := by simp
    have hpos : before.length + n + tok.length =
        (before ++ List.replicate n delim ++ tok).length := by simp [Nat.add_assoc]
    rw [hsplit, hpos, List.set_append_right _ _ (le_refl _), Nat.sub_self, List.set_cons_zero]
  rw [strtokS, cstrAt_ok before after hs0]
  simp only [htake, hdrop, take_token hno, hne, hlen, if_false, List.length_replicate, hset]

end Reading

theorem token_inj {delim : UInt8} {n n' : ℕ} {tok tok' rest rest' : List UInt8} (htok : tok ≠ [])
    (hno : delim ∉ tok) (htok' : tok' ≠ []) (hno' : delim ∉ tok')
    (h : List.replicate n delim ++ (tok ++ delim :: rest) =
      List.replicate n' delim ++ (tok' ++ delim :: rest')) :
    n = n' ∧ tok = tok' ∧ rest = rest' := by
  obtain ⟨htake, hdrop⟩ := skip_delims n htok hno (delim :: rest)
  obtain ⟨htake', hdrop'⟩ := skip_delims n' htok' hno' (delim :: rest')
  rw [h] at htake hdrop
  have hn := congrArg List.length (htake.symm.trans htake')
  rw [List.length_replicate, List.length_replicate] at hn
  have heq := hdrop.symm.trans hdrop'
  have ht : tok = tok' := by rw [← take_token hno rest, heq, take_token hno']
  subst ht
  exact ⟨hn, rfl, (List.cons.inj (List.append_cancel_left heq)).2⟩

/-- Every string is a run of delimiters, then nothing, a token, or a token and a delimiter. -/
theorem split_token (delim : UInt8) (s : List UInt8) :
    ∃ n, s = List.replicate n delim ∨
      (∃ tok, tok ≠ [] ∧ delim ∉ tok ∧ s = List.replicate n delim ++ tok) ∨
      ∃ tok rest, tok ≠ [] ∧ delim ∉ tok ∧ s = List.replicate n delim ++ (tok ++ delim :: rest) := by
  induction s with
  | nil => exact ⟨0, .inl rfl⟩
  | cons c s ih =>
    by_cases hc : c = delim
    · subst hc
      obtain ⟨n, h | ⟨tok, ht, hn, h⟩ | ⟨tok, rest, ht, hn, h⟩⟩ := ih
      · exact ⟨n + 1, .inl (by rw [h, List.replicate_succ])⟩
      · exact ⟨n + 1, .inr (.inl ⟨tok, ht, hn, by rw [h, List.replicate_succ, List.cons_append]⟩)⟩
      · exact ⟨n + 1, .inr (.inr ⟨tok, rest, ht, hn, by rw [h, List.replicate_succ, List.cons_append]⟩)⟩
    · refine ⟨0, ?_⟩
      by_cases hs : delim ∈ s
      · obtain ⟨a, b, rfl, ha⟩ := List.eq_append_cons_of_mem hs
        refine .inr (.inr ⟨c :: a, b, by simp, ?_, by simp⟩)
        simp only [List.mem_cons, not_or]
        exact ⟨fun h => hc h.symm, ha⟩
      · refine .inr (.inl ⟨c :: s, by simp, ?_, by simp⟩)
        simp only [List.mem_cons, not_or]
        exact ⟨fun h => hc h.symm, hs⟩

/-- What Annex K says of a tokeniser: leading delimiters are skipped, the next delimiter is
overwritten and the context set behind it, and the context keeps its value when no delimiter
follows the token or there is no token. -/
structure AnnexK (strtok : Tokeniser) : Prop where
  noToken : ∀ (before after : List UInt8) (delim : UInt8) (context : Ptr) (n : ℕ), delim ≠ 0 →
    strtok (before ++ List.replicate n delim ++ 0 :: after) before.length delim context =
      .ok ⟨before ++ List.replicate n delim ++ 0 :: after, none, context⟩
  lastToken : ∀ (before after tok : List UInt8) (delim : UInt8) (context : Ptr) (n : ℕ),
    delim ≠ 0 → tok ≠ [] → delim ∉ tok → 0 ∉ tok →
    strtok (before ++ (List.replicate n delim ++ tok) ++ 0 :: after) before.length delim context =
      .ok ⟨before ++ (List.replicate n delim ++ tok) ++ 0 :: after, some (before.length + n),
        context⟩
  cutToken : ∀ (before after tok rest : List UInt8) (delim : UInt8) (context : Ptr) (n : ℕ),
    delim ≠ 0 → tok ≠ [] → delim ∉ tok → 0 ∉ tok → 0 ∉ rest →
    strtok (before ++ (List.replicate n delim ++ (tok ++ delim :: rest)) ++ 0 :: after)
        before.length delim context =
      .ok ⟨before ++ List.replicate n delim ++ tok ++ 0 :: (rest ++ 0 :: after),
        some (before.length + n), some (before.length + n + tok.length + 1)⟩

theorem strtokS_annexK : AnnexK strtokS where
  noToken before after _ context n hd := strtokS_none before after context n hd
  lastToken before after _ _ context n hd htok hno h0 :=
    strtokS_last before after context n hd htok hno h0
  cutToken before after _ _ _ context n hd htok hno h0 hr0 :=
    strtokS_cut before after context n hd htok hno h0 hr0

theorem cstrAt_split {buf s : List UInt8} {p : ℕ} (h : cstrAt buf (some p) = .ok s) :
    ∃ before after, buf = before ++ s ++ 0 :: after ∧ before.length = p ∧ 0 ∉ s := by
  simp only [cstrAt] at h
  split at h
  · rename_i hz
    have hs := Except.ok.inj h
    obtain ⟨a, b, hab, ha⟩ := List.eq_append_cons_of_mem hz
    have hlen : p ≤ buf.length := by
      by_contra hlt
      rw [List.drop_eq_nil_of_le (by omega)] at hz
      cases hz
    have htake : (a ++ 0 :: b).takeWhile (· != 0) = a := take_token ha b
    rw [hab, htake] at hs
    subst hs
    refine ⟨buf.take p, b, ?_, by simp [hlen], ha⟩
    rw [List.append_assoc, ← hab, List.take_append_drop]
  · cases h

/-- On a string in a buffer every tokeniser of Annex K does what `strtokS` does. -/
theorem AnnexK.agrees {strtok : Tokeniser} (h : AnnexK strtok) {buf s : List UInt8} {start : ℕ}
    (hs : cstrAt buf (some start) = .ok s) {delim : UInt8} (hd : delim ≠ 0) (context : Ptr) :
    strtok buf start delim context = strtokS buf start delim context := by
  obtain ⟨before, after, rfl, rfl, h0⟩ := cstrAt_split hs
  obtain ⟨n, rfl | ⟨tok, htok, hno, rfl⟩ | ⟨tok, rest, htok, hno, rfl⟩⟩ := split_token delim s
  · rw [h.noToken _ _ _ _ _ hd, strtokS_annexK.noToken _ _ _ _ _ hd]
  · have hz : 0 ∉ tok := fun hz => h0 (by simp [hz])
    rw [h.lastToken _ _ _ _ _ _ hd htok hno hz, strtokS_annexK.lastToken _ _ _ _ _ _ hd htok hno hz]
  · have hz : 0 ∉ tok := fun hz => h0 (by simp [hz])
    have hr : 0 ∉ rest := fun hz => h0 (by simp [hz])
    rw [h.cutToken _ _ _ _ _ _ _ hd htok hno hz hr,
      strtokS_annexK.cutToken _ _ _ _ _ _ _ hd htok hno hz hr]

end ShortCircuit.CStrings
