import Mathlib.Data.List.Lex
import Mathlib.Tactic.Linarith

namespace NdnCxx.Comparison

-- Three-way comparison functions: a negative, zero or positive number.
structure TotalOrder {α : Type} (compare : α → α → ℤ) : Prop where
  equal : ∀ a b, compare a b = 0 ↔ a = b
  reversed : ∀ a b, compare a b < 0 ↔ 0 < compare b a
  antisymmetric : ∀ a b, compare a b ≤ 0 → compare b a ≤ 0 → a = b
  transitive : ∀ a b c, compare a b ≤ 0 → compare b c ≤ 0 → compare a c ≤ 0
  total : ∀ a b, compare a b ≤ 0 ∨ compare b a ≤ 0

variable {α : Type} [LinearOrder α]

structure Decides (compare : α → α → ℤ) : Prop where
  negative : ∀ a b, compare a b < 0 ↔ a < b
  zero : ∀ a b, compare a b = 0 ↔ a = b

namespace Decides
variable {compare : α → α → ℤ}

theorem nonpositive (decides : Decides compare) (a b : α) : compare a b ≤ 0 ↔ a ≤ b := by
  rw [le_iff_lt_or_eq,decides.negative,decides.zero,le_iff_lt_or_eq]

theorem positive (decides : Decides compare) (a b : α) : 0 < compare a b ↔ b < a := by
  rw [← not_le,decides.nonpositive,not_le]

theorem totalOrder (decides : Decides compare) : TotalOrder compare where
  equal := decides.zero
  reversed a b := (decides.negative a b).trans (decides.positive b a).symm
  antisymmetric a b below above :=
    le_antisymm ((decides.nonpositive a b).mp below) ((decides.nonpositive b a).mp above)
  transitive a b c first second :=
    (decides.nonpositive a c).mpr
      (((decides.nonpositive a b).mp first).trans ((decides.nonpositive b c).mp second))
  total a b := (le_total a b).imp (decides.nonpositive a b).mpr (decides.nonpositive b a).mpr

end Decides

-- The first pair that differs decides; otherwise the shorter list comes first.
def lexicographic (compare : α → α → ℤ) : List α → List α → ℤ
  | a :: as,b :: bs => if compare a b = 0 then lexicographic compare as bs else compare a b
  | [],[] => 0
  | [],_ => -1
  | _,[] => 1

theorem Decides.lexicographic {compare : α → α → ℤ} (decides : Decides compare) :
    Decides (lexicographic compare) where
  negative left right := by
    induction left generalizing right with
    | nil => cases right <;> simp [Comparison.lexicographic]
    | cons a as ih =>
      cases right with
      | nil => simp [Comparison.lexicographic]
      | cons b bs =>
        unfold Comparison.lexicographic
        split
        · rename_i same
          rw [ih,(decides.zero a b).mp same,List.cons_lt_cons_iff]
          simp
        · rename_i different
          have apart : a ≠ b := fun same => different ((decides.zero a b).mpr same)
          rw [decides.negative,List.cons_lt_cons_iff]
          simp [apart]
  zero left right := by
    induction left generalizing right with
    | nil => cases right <;> simp [Comparison.lexicographic]
    | cons a as ih =>
      cases right with
      | nil => simp [Comparison.lexicographic]
      | cons b bs =>
        unfold Comparison.lexicographic
        split
        · rename_i same
          rw [ih,(decides.zero a b).mp same]
          simp
        · rename_i different
          have apart : a ≠ b := fun same => different ((decides.zero a b).mpr same)
          simp [different,apart]

theorem lt_append_of_ne_nil (shorter : List α) {more : List α} (proper : more ≠ []) : shorter < shorter ++ more := by
  induction shorter with
  | nil =>
    cases more with
    | nil => exact absurd rfl proper
    | cons a as => simp
  | cons a as ih => simpa [List.cons_lt_cons_iff] using ih

end NdnCxx.Comparison
