import Mathlib

set_option autoImplicit false

/-!
# Machine words, big-endian numerals and byte areas

Unsigned 32-bit arithmetic is written on `ℕ` with its explicit reductions. A byte
area is memory seen from one base pointer, so offsets play the role of pointers.
-/
namespace ShortCircuit.WordBytes

def u32 (n : ℕ) : ℕ := n % 2 ^ 32

/-- Unsigned 32-bit subtraction, which wraps. -/
def sub32 (a b : ℕ) : ℕ := (a + (2 ^ 32 - b % 2 ^ 32)) % 2 ^ 32

theorem u32_lt (n : ℕ) : u32 n < 2 ^ 32 := Nat.mod_lt _ (by decide)

theorem u32_of_lt {n : ℕ} (h : n < 2 ^ 32) : u32 n = n := Nat.mod_eq_of_lt h

theorem sub32_of_le {a b : ℕ} (h : b ≤ a) (ha : a < 2 ^ 32) : sub32 a b = a - b := by
  unfold sub32
  omega

/-- The number that a big-endian byte string denotes. -/
def value (bs : List UInt8) : ℕ := bs.foldl (fun acc b => 256 * acc + b.toNat) 0

theorem foldl_value (bs : List UInt8) (start : ℕ) :
    bs.foldl (fun acc b => 256 * acc + b.toNat) start = start * 256 ^ bs.length + value bs := by
  unfold value
  induction bs generalizing start with
  | nil => simp
  | cons b bs ih =>
    rw [List.foldl_cons, ih, List.foldl_cons, ih (256 * 0 + b.toNat), List.length_cons, pow_succ]
    ring

theorem value_append (xs ys : List UInt8) :
    value (xs ++ ys) = value xs * 256 ^ ys.length + value ys := by
  rw [value, List.foldl_append, foldl_value]
  rfl

theorem value_eq_zero_iff (bs : List UInt8) : value bs = 0 ↔ ∀ b ∈ bs, b = 0 := by
  induction bs with
  | nil => simp [value]
  | cons b bs ih =>
    rw [← List.singleton_append, value_append]
    simp only [Nat.add_eq_zero_iff, ih, List.mem_append, List.mem_singleton, forall_eq_or_imp]
    have hb : value [b] = b.toNat := by simp [value]
    have hp : 0 < 256 ^ bs.length := Nat.pow_pos (by decide)
    rw [hb, Nat.mul_eq_zero]
    constructor
    · rintro ⟨h | h, hbs⟩
      · exact ⟨UInt8.toNat_inj.mp h, hbs⟩
      · omega
    · rintro ⟨h, hbs⟩
      exact ⟨.inl (by rw [h]; rfl), hbs⟩

theorem value_replicate_zero (n : ℕ) : value (List.replicate n 0) = 0 :=
  (value_eq_zero_iff _).mpr fun _ h => List.eq_of_mem_replicate h

theorem value_zeros_append (n : ℕ) (bs : List UInt8) :
    value (List.replicate n 0 ++ bs) = value bs := by
  rw [value_append, value_replicate_zero]
  omega

def bytes32 (n : ℕ) : List UInt8 :=
  [UInt8.ofNat (n / 2 ^ 24), UInt8.ofNat (n / 2 ^ 16), UInt8.ofNat (n / 2 ^ 8), UInt8.ofNat n]

@[simp] theorem bytes32_length (n : ℕ) : (bytes32 n).length = 4 := rfl

theorem value_take_bytes32 {n : ℕ} (hn : n < 2 ^ 32) {h : ℕ} (hh : h ≤ 4) :
    value ((bytes32 n).take h) = n / 256 ^ (4 - h) := by
  interval_cases h <;>
    simp only [bytes32, value, List.take_zero, List.take_succ_cons, List.foldl_nil,
      List.foldl_cons, UInt8.toNat_ofNat'] <;> omega

theorem value_bytes32 {n : ℕ} (hn : n < 2 ^ 32) : value (bytes32 n) = n := by
  have h := value_take_bytes32 hn (le_refl 4)
  rw [List.take_of_length_le (le_refl 4)] at h
  simpa using h

theorem bytes32_value {bs : List UInt8} (h : bs.length = 4) : bytes32 (value bs) = bs := by
  obtain ⟨a, b, c, d, rfl⟩ : ∃ a b c d, bs = [a, b, c, d] := by
    match bs, h with
    | [a, b, c, d], _ => exact ⟨a, b, c, d, rfl⟩
  have ha := UInt8.toNat_lt a
  have hb := UInt8.toNat_lt b
  have hc := UInt8.toNat_lt c
  have hd := UInt8.toNat_lt d
  have hbyte : ∀ (x : UInt8) (n : ℕ), n % 2 ^ 8 = x.toNat → UInt8.ofNat n = x := by
    intro x n hn
    rw [← UInt8.toNat_inj, UInt8.toNat_ofNat', hn]
  simp only [bytes32, value, List.foldl_cons, List.foldl_nil]
  congr 1
  · exact hbyte a _ (by omega)
  congr 1
  · exact hbyte b _ (by omega)
  congr 1
  · exact hbyte c _ (by omega)
  congr 1
  exact hbyte d _ (by omega)

theorem take_bytes32_zero_iff {n : ℕ} (hn : n < 2 ^ 32) {h : ℕ} (hh : h ≤ 4) :
    value ((bytes32 n).take h) = 0 ↔ n < 256 ^ (4 - h) := by
  rw [value_take_bytes32 hn hh]
  exact Nat.div_eq_zero_iff_lt (Nat.pow_pos (by decide))

/-- The word whose leading bytes are `bs` and whose remaining bytes are zero. -/
def leading (bs : List UInt8) : ℕ := value bs * 256 ^ (4 - bs.length)

theorem leading_eq_zero_iff (bs : List UInt8) : leading bs = 0 ↔ value bs = 0 := by
  have hp : 0 < 256 ^ (4 - bs.length) := Nat.pow_pos (by decide)
  rw [leading, Nat.mul_eq_zero]
  omega

theorem leading_full {bs : List UInt8} (h : bs.length = 4) : leading bs = value bs := by
  simp [leading, h]

theorem leading_append_ne_zero {xs : List UInt8} (h : leading xs ≠ 0) (ys : List UInt8) :
    leading (xs ++ ys) ≠ 0 := by
  rw [ne_eq, leading_eq_zero_iff, value_eq_zero_iff] at *
  intro hz
  exact h fun b hb => hz b (List.mem_append_left _ hb)

theorem value_lt (bs : List UInt8) : value bs < 256 ^ bs.length := by
  induction bs with
  | nil => simp [value]
  | cons b bs ih =>
    rw [← List.singleton_append, value_append]
    have hb : value [b] = b.toNat := by simp [value]
    have hlt : b.toNat < 256 := UInt8.toNat_lt b
    rw [hb, List.singleton_append, List.length_cons, pow_succ]
    nlinarith [Nat.pow_pos (n := bs.length) (show 0 < 256 by decide)]

theorem leading_lt {bs : List UInt8} (h : bs.length ≤ 4) : leading bs < 2 ^ 32 := by
  have hv := value_lt bs
  calc
    leading bs < 256 ^ bs.length * 256 ^ (4 - bs.length) :=
      Nat.mul_lt_mul_of_pos_right hv (Nat.pow_pos (by decide))
    _ = 256 ^ 4 := by rw [← pow_add]; congr 1; omega
    _ = 2 ^ 32 := by norm_num

abbrev Area := ℕ → UInt8

namespace Area

def store (a : Area) (off : ℕ) (bs : List UInt8) : Area :=
  fun i => if off ≤ i ∧ i < off + bs.length then bs.getD (i - off) 0 else a i

def load (a : Area) (n : ℕ) : List UInt8 := (List.range n).map a

/-- The word that four bytes at the base denote in network order. -/
def word (a : Area) : ℕ := value (a.load 4)

@[simp] theorem load_length (a : Area) (n : ℕ) : (a.load n).length = n := by simp [load]

theorem load_eq_iff (a : Area) (bs : List UInt8) :
    a.load bs.length = bs ↔ ∀ i < bs.length, a i = bs.getD i 0 := by
  constructor
  · intro h i hi
    rw [← h]
    simp [load, hi]
  · intro h
    apply List.ext_getElem (by simp)
    intro i hi _
    have hi' : i < bs.length := by simpa using hi
    simpa [load, hi'] using h i hi'

theorem store_before (a : Area) {off i : ℕ} (bs : List UInt8) (h : i < off) :
    a.store off bs i = a i := by
  rw [store, if_neg (by omega)]

theorem store_after (a : Area) {off i : ℕ} (bs : List UInt8) (h : off + bs.length ≤ i) :
    a.store off bs i = a i := by
  rw [store, if_neg (by omega)]

theorem store_inside (a : Area) {off i : ℕ} (bs : List UInt8) (h : off ≤ i)
    (hi : i < off + bs.length) : a.store off bs i = bs.getD (i - off) 0 := by
  rw [store, if_pos ⟨h, hi⟩]

theorem load_store (a : Area) {n : ℕ} {xs : List UInt8} (hx : a.load n = xs) (bs : List UInt8) :
    (a.store n bs).load (n + bs.length) = xs ++ bs := by
  have hn : n = xs.length := by rw [← hx, load_length]
  subst hn
  rw [← List.length_append, load_eq_iff]
  intro i hi
  rw [List.length_append] at hi
  by_cases h : i < xs.length
  · rw [store_before a bs h, List.getD_append _ _ _ _ h]
    exact (load_eq_iff a xs).mp hx i h
  · rw [store_inside a bs (by omega) hi, List.getD_append_right _ _ _ _ (by omega)]

/-- A word area holds the bytes `bs` and zeros after them. -/
def Holds (a : Area) (bs : List UInt8) : Prop := ∀ i < 4, a i = bs.getD i 0

theorem Holds.store {a : Area} {xs : List UInt8} (h : a.Holds xs) (bs : List UInt8) :
    Holds (a.store xs.length bs) (xs ++ bs) := by
  intro i hi
  by_cases hx : i < xs.length
  · rw [store_before a bs hx, List.getD_append _ _ _ _ hx]
    exact h i hi
  · rw [List.getD_append_right _ _ _ _ (by omega)]
    by_cases hb : i < xs.length + bs.length
    · rw [store_inside a bs (by omega) hb]
    · rw [store_after a bs (by omega), h i hi, List.getD_eq_default _ _ (by omega),
        List.getD_eq_default _ _ (by omega)]

theorem Holds.word_eq {a : Area} {bs : List UInt8} (h : a.Holds bs) (hl : bs.length ≤ 4) :
    a.word = leading bs := by
  have hload : a.load 4 = bs ++ List.replicate (4 - bs.length) 0 := by
    have hlen : (bs ++ List.replicate (4 - bs.length) (0 : UInt8)).length = 4 := by
      simp only [List.length_append, List.length_replicate]
      omega
    conv_lhs => rw [← hlen]
    rw [load_eq_iff]
    intro i hi
    rw [hlen] at hi
    rw [h i hi]
    by_cases hb : i < bs.length
    · rw [List.getD_append _ _ _ _ hb]
    · rw [List.getD_append_right _ _ _ _ (by omega), List.getD_eq_default _ _ (by omega),
        List.getD_replicate _ (by omega)]
  rw [word, hload, value_append, value_replicate_zero, List.length_replicate, leading, add_zero]

end Area

end ShortCircuit.WordBytes
