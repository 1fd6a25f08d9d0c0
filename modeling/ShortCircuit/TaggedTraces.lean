import Mathlib

set_option autoImplicit false

/-!
# Traces of several parties

Each entry of a trace carries the index of the party it belongs to. `part` reads off what
concerns one of them.
-/
namespace ShortCircuit.TaggedTraces

variable {ι α : Type} [DecidableEq ι]

def part (i : ι) (xs : List (ι × α)) : List α :=
  xs.filterMap fun x => if x.1 = i then some x.2 else none

@[simp] theorem part_nil (i : ι) : part i ([] : List (ι × α)) = [] := rfl

@[simp] theorem part_append (i : ι) (xs ys : List (ι × α)) :
    part i (xs ++ ys) = part i xs ++ part i ys := List.filterMap_append

@[simp] theorem part_cons_self (i : ι) (x : α) (xs : List (ι × α)) :
    part i ((i, x) :: xs) = x :: part i xs := by simp [part]

theorem part_cons_ne {i j : ι} (h : j ≠ i) (x : α) (xs : List (ι × α)) :
    part i ((j, x) :: xs) = part i xs := by simp [part, h]

@[simp] theorem part_tagged (i : ι) (xs : List α) : part i (xs.map (Prod.mk i)) = xs := by
  induction xs with
  | nil => rfl
  | cons x xs ih => rw [List.map_cons, part_cons_self, ih]

theorem part_tagged_ne {i j : ι} (h : j ≠ i) (xs : List α) : part i (xs.map (Prod.mk j)) = [] := by
  induction xs with
  | nil => rfl
  | cons x xs ih => rw [List.map_cons, part_cons_ne h, ih]

end ShortCircuit.TaggedTraces
