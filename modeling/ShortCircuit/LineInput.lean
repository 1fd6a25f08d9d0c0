import Mathlib

set_option autoImplicit false

/-!
# Reading a file line by line (`fgets`)

A stream is the bytes still to come and its end-of-file indicator. `fgets` takes bytes up
to and including a newline, at most one less than its buffer holds, and sets the indicator
when it runs out of bytes before that.
-/
namespace ShortCircuit.LineInput

def newline : UInt8 := 10

structure Stream where
  rest : List UInt8
  eof : Bool
  deriving DecidableEq, Repr

/-- The next line, cut after `n` bytes. -/
def takeLine : ℕ → List UInt8 → List UInt8
  | 0, _ => []
  | _ + 1, [] => []
  | n + 1, x :: xs => if x = newline then [x] else x :: takeLine n xs

/-- Whether the bytes end before the line does. -/
def hitsEnd : ℕ → List UInt8 → Bool
  | 0, _ => false
  | _ + 1, [] => true
  | n + 1, x :: xs => if x = newline then false else hitsEnd n xs

def dropLine (n : ℕ) (xs : List UInt8) : List UInt8 := xs.drop (takeLine n xs).length

/-- The line, or `none` for a null pointer, and the stream afterwards. -/
def fgets (size : ℕ) (s : Stream) : Option (List UInt8) × Stream :=
  let line := takeLine (size - 1) s.rest
  let next := ⟨dropLine (size - 1) s.rest, s.eof || hitsEnd (size - 1) s.rest⟩
  if line = [] then (none, next) else (some line, next)

theorem takeLine_dropLine (n : ℕ) (xs : List UInt8) : takeLine n xs ++ dropLine n xs = xs := by
  induction n generalizing xs with
  | zero => rfl
  | succ n ih =>
    cases xs with
    | nil => rfl
    | cons x xs =>
      by_cases hx : x = newline
      · simp [takeLine, dropLine, hx]
      · have htail := ih xs
        rw [dropLine] at htail
        simp [takeLine, dropLine, hx, htail]

theorem takeLine_length (n : ℕ) (xs : List UInt8) : (takeLine n xs).length ≤ n := by
  induction n generalizing xs with
  | zero => simp [takeLine]
  | succ n ih =>
    cases xs with
    | nil => simp [takeLine]
    | cons x xs =>
      by_cases hx : x = newline
      · simp [takeLine, hx]
      · simpa [takeLine, hx] using ih xs

@[simp] theorem takeLine_nil (n : ℕ) : takeLine n [] = [] := by cases n <;> rfl

theorem takeLine_ne_nil (n : ℕ) {xs : List UInt8} (h : xs ≠ []) : takeLine (n + 1) xs ≠ [] := by
  cases xs with
  | nil => exact absurd rfl h
  | cons x xs =>
    by_cases hx : x = newline <;> simp [takeLine, hx]

theorem hitsEnd_iff (n : ℕ) (xs : List UInt8) :
    hitsEnd n xs = true ↔ xs.length < n ∧ newline ∉ xs := by
  induction n generalizing xs with
  | zero => simp [hitsEnd]
  | succ n ih =>
    cases xs with
    | nil => simp [hitsEnd]
    | cons x xs =>
      by_cases hx : x = newline
      · simp [hitsEnd, hx]
      · simp [hitsEnd, hx, ih, Ne.symm hx]

theorem dropLine_of_hitsEnd {n : ℕ} {xs : List UInt8} (h : hitsEnd n xs = true) :
    dropLine n xs = [] := by
  induction n generalizing xs with
  | zero => cases h
  | succ n ih =>
    cases xs with
    | nil => rfl
    | cons x xs =>
      by_cases hx : x = newline
      · simp [hitsEnd, hx] at h
      · have htail : dropLine n xs = [] := ih (by simpa [hitsEnd, hx] using h)
        rw [dropLine] at htail
        simpa [takeLine, dropLine, hx] using htail

/-- `fgets` returns a null pointer only when no byte is left, and sets the indicator then. -/
theorem fgets_none (n : ℕ) {s t : Stream} (h : fgets (n + 2) s = (none, t)) :
    s.rest = [] ∧ t.rest = [] ∧ t.eof = true := by
  simp only [fgets, Nat.add_one_sub_one] at h
  split at h
  · rename_i hnil
    have hrest : s.rest = [] := by_contra fun hne => takeLine_ne_nil n hne hnil
    rw [← (Prod.mk.inj h).2]
    simp [hrest, dropLine, hitsEnd]
  · cases h

theorem fgets_some (n : ℕ) {s t : Stream} {line : List UInt8}
    (h : fgets (n + 2) s = (some line, t)) :
    s.rest ≠ [] ∧ line = takeLine (n + 1) s.rest ∧ t.rest = dropLine (n + 1) s.rest ∧
      t.eof = (s.eof || hitsEnd (n + 1) s.rest) := by
  simp only [fgets, Nat.add_one_sub_one] at h
  split at h
  · cases h
  · rename_i hne
    obtain ⟨hline, rfl⟩ := Prod.mk.inj h
    refine ⟨?_, (Option.some.inj hline).symm, rfl, rfl⟩
    intro hnil
    rw [hnil] at hne
    exact hne (takeLine_nil _)

section Lines

variable (n : ℕ)

/-- The first `k` lines. -/
def readLines : ℕ → List UInt8 → List (List UInt8)
  | 0, _ => []
  | k + 1, xs => takeLine n xs :: readLines k (dropLine n xs)

def afterLines : ℕ → List UInt8 → List UInt8
  | 0, xs => xs
  | k + 1, xs => afterLines k (dropLine n xs)

theorem readLines_afterLines (k : ℕ) (xs : List UInt8) :
    (readLines n k xs).flatten ++ afterLines n k xs = xs := by
  induction k generalizing xs with
  | zero => rfl
  | succ k ih =>
    rw [readLines, afterLines, List.flatten_cons, List.append_assoc, ih, takeLine_dropLine]

theorem readLines_succ (k : ℕ) (xs : List UInt8) :
    readLines n (k + 1) xs = readLines n k xs ++ [takeLine n (afterLines n k xs)] := by
  induction k generalizing xs with
  | zero => rfl
  | succ k ih =>
    rw [readLines, ih, readLines, afterLines]
    rfl

theorem readLines_length (k : ℕ) (xs : List UInt8) : (readLines n k xs).length = k := by
  induction k generalizing xs with
  | zero => rfl
  | succ k ih => rw [readLines, List.length_cons, ih]

theorem readLines_le (k : ℕ) (xs : List UInt8) : ∀ line ∈ readLines n k xs, line.length ≤ n := by
  induction k generalizing xs with
  | zero => simp [readLines]
  | succ k ih =>
    rw [readLines, List.forall_mem_cons]
    exact ⟨takeLine_length n xs, ih _⟩

theorem readLines_take {j k : ℕ} (h : j ≤ k) (xs : List UInt8) :
    (readLines n k xs).take j = readLines n j xs := by
  induction j generalizing k xs with
  | zero => rfl
  | succ j ih =>
    cases k with
    | zero => omega
    | succ k => rw [readLines, readLines, List.take_succ_cons, ih (by omega)]

theorem afterLines_succ (k : ℕ) (xs : List UInt8) :
    afterLines n (k + 1) xs = dropLine n (afterLines n k xs) := by
  induction k generalizing xs with
  | zero => rfl
  | succ k ih => exact ih (dropLine n xs)

end Lines

/-- The bytes after the last newline. -/
def lastLine (xs : List UInt8) : List UInt8 := (xs.reverse.takeWhile (· ≠ newline)).reverse

theorem lastLine_of_not_mem {xs : List UInt8} (h : newline ∉ xs) : lastLine xs = xs := by
  have htake : xs.reverse.takeWhile (· ≠ newline) = xs.reverse := by
    rw [List.takeWhile_eq_self_iff]
    intro x hx
    have hne : x ≠ newline := fun heq => h (heq ▸ List.mem_reverse.mp hx)
    simpa using hne
  rw [lastLine, htake, List.reverse_reverse]

theorem lastLine_append (xs : List UInt8) {ys : List UInt8} (h : newline ∈ ys) :
    lastLine (xs ++ ys) = lastLine ys := by
  rw [lastLine, lastLine, List.reverse_append, List.takeWhile_append, if_neg]
  intro hlen
  have hself := (List.takeWhile_prefix (· ≠ newline)).eq_of_length hlen
  have hall := List.takeWhile_eq_self_iff.mp hself newline (List.mem_reverse.mpr h)
  simp at hall

theorem lastLine_after (xs : List UInt8) {ys : List UInt8} (h : newline ∉ ys) :
    lastLine (xs ++ newline :: ys) = ys := by
  rw [lastLine, List.reverse_append, List.reverse_cons, List.append_assoc,
    List.takeWhile_append_of_pos]
  · simp
  · intro x hx
    have hne : x ≠ newline := fun heq => h (heq ▸ List.mem_reverse.mp hx)
    simpa using hne

/-- A line ends with a newline, or is cut after `n` bytes, or runs into the end. -/
theorem takeLine_cases (n : ℕ) (xs : List UInt8) :
    (∃ line, takeLine n xs = line ++ [newline]) ∨
      newline ∉ takeLine n xs ∧ ((takeLine n xs).length = n ∨ hitsEnd n xs = true) := by
  induction n generalizing xs with
  | zero => exact .inr ⟨by simp [takeLine], .inl rfl⟩
  | succ n ih =>
    cases xs with
    | nil => exact .inr ⟨by simp, .inr rfl⟩
    | cons x xs =>
      by_cases hx : x = newline
      · exact .inl ⟨[], by simp [takeLine, hx]⟩
      · rcases ih xs with ⟨line, hline⟩ | ⟨hno, hend⟩
        · exact .inl ⟨x :: line, by simp [takeLine, hx, hline]⟩
        · exact .inr ⟨by simp [takeLine, hx, hno, Ne.symm hx], by simpa [takeLine, hitsEnd, hx] using hend⟩

/-- The file is cut into whole lines: its last line is a multiple of `n` bytes long. -/
def EndsWhole (n : ℕ) (xs : List UInt8) : Prop := n ∣ (lastLine xs).length

instance (n : ℕ) (xs : List UInt8) : Decidable (EndsWhole n xs) :=
  inferInstanceAs (Decidable (n ∣ (lastLine xs).length))

theorem endsWhole_nil (n : ℕ) : EndsWhole n [] := dvd_zero n

/-- A call that does not run into the end leaves the question to the rest. -/
theorem endsWhole_dropLine {n : ℕ} {xs : List UInt8} (h : hitsEnd n xs = false) :
    EndsWhole n (dropLine n xs) ↔ EndsWhole n xs := by
  have hsplit := takeLine_dropLine n xs
  by_cases hmem : newline ∈ dropLine n xs
  · have hlast := lastLine_append (takeLine n xs) hmem
    rw [hsplit] at hlast
    rw [EndsWhole, EndsWhole, hlast]
  · rcases takeLine_cases n xs with ⟨line, hline⟩ | ⟨hno, hend⟩
    · have hlast := lastLine_after line hmem
      rw [List.append_cons, ← hline, hsplit] at hlast
      rw [EndsWhole, EndsWhole, hlast, lastLine_of_not_mem hmem]
    · have hlen : (takeLine n xs).length = n := hend.resolve_right (by simp [h])
      have hnone : newline ∉ xs := by
        rw [← hsplit]
        exact fun hin => (List.mem_append.mp hin).elim hno hmem
      have htotal : xs.length = n + (dropLine n xs).length := by
        rw [← congrArg List.length hsplit, List.length_append, hlen]
      rw [EndsWhole, EndsWhole, lastLine_of_not_mem hmem, lastLine_of_not_mem hnone, htotal]
      exact (Nat.dvd_add_right (dvd_refl n)).symm

theorem not_endsWhole_of_hitsEnd {n : ℕ} {xs : List UInt8} (hne : xs ≠ [])
    (h : hitsEnd n xs = true) : ¬ EndsWhole n xs := by
  obtain ⟨hlen, hno⟩ := (hitsEnd_iff n xs).mp h
  rw [EndsWhole, lastLine_of_not_mem hno]
  exact Nat.not_dvd_of_pos_of_lt (List.length_pos_iff.mpr hne) hlen

end ShortCircuit.LineInput
