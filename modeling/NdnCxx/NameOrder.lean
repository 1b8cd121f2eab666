import NdnCxx.Component
import NdnCxx.Lib.Comparison

namespace NdnCxx
open Comparison

namespace Component

-- `operator ==` and `operator !=` are those of the base class, a vector; the
-- other four are the component's own.
def equals (c other : Component) : Bool := c.bytes == other.bytes

def notEquals (c other : Component) : Bool := !c.equals other

def lessOrEqual (c other : Component) : Bool := c.compare other ≤ 0

def less (c other : Component) : Bool := c.compare other < 0

def greaterOrEqual (c other : Component) : Bool := c.compare other ≥ 0

def greater (c other : Component) : Bool := c.compare other > 0

theorem compare_decides : Decides compare := ⟨compare_neg,compare_zero⟩

theorem equals_iff (c other : Component) : c.equals other = true ↔ c.compare other = 0 := by
  rw [compare_zero,equals,beq_iff_eq]
  cases c
  cases other
  simp

theorem compare_extension (bytes : Blob) {more : Blob} (proper : more ≠ []) :
    compare ⟨bytes⟩ ⟨bytes ++ more⟩ < 0 := by
  have longer : 0 < more.length := List.length_pos_iff.mpr proper
  have shorter : size ⟨bytes⟩ < size ⟨bytes ++ more⟩ := by
    simpa [size] using longer
  simp [compare,shorter]

end Component

namespace Name

def equals (name other : Name) : Bool := Name.compare name other = 0

def notEquals (name other : Name) : Bool := Name.compare name other ≠ 0

def lessOrEqual (name other : Name) : Bool := Name.compare name other ≤ 0

def less (name other : Name) : Bool := Name.compare name other < 0

def greaterOrEqual (name other : Name) : Bool := Name.compare name other ≥ 0

def greater (name other : Name) : Bool := Name.compare name other > 0

theorem compare_lexicographic (left right : Name) :
    Name.compare left right = lexicographic Component.compare left right := by
  induction left,right using Name.compare.induct with
  | case1 i is j js same ih => simp [Name.compare,lexicographic,same,ih]
  | case2 i is j js different => simp [Name.compare,lexicographic,different]
  | case3 => simp [Name.compare,lexicographic]
  | case4 right nonempty => cases right <;> simp [Name.compare,lexicographic]
  | case5 left nonempty => cases left <;> simp [Name.compare,lexicographic]

theorem compare_decides : Decides Name.compare where
  negative left right := by rw [compare_lexicographic,Component.compare_decides.lexicographic.negative]
  zero := Name.compare_zero

theorem compare_extension (name : Name) {more : Name} (proper : more ≠ []) : Name.compare name (name ++ more) < 0 :=
  (compare_decides.negative _ _).mpr (lt_append_of_ne_nil name proper)

end Name

-- The six operators answer as the sign of the comparison does.
structure Operators {α : Type} (compare : α → α → ℤ)
    (equals notEquals less lessOrEqual greater greaterOrEqual : α → α → Bool) (a b : α) : Prop where
  equals : equals a b = true ↔ compare a b = 0
  notEquals : notEquals a b = true ↔ compare a b ≠ 0
  less : less a b = true ↔ compare a b < 0
  lessOrEqual : lessOrEqual a b = true ↔ compare a b ≤ 0
  greater : greater a b = true ↔ 0 < compare a b
  greaterOrEqual : greaterOrEqual a b = true ↔ 0 ≤ compare a b

def Component.OperatorsAgree : Component → Component → Prop :=
  Operators compare equals notEquals less lessOrEqual greater greaterOrEqual

def Name.OperatorsAgree : Name → Name → Prop :=
  Operators Name.compare Name.equals notEquals less lessOrEqual greater greaterOrEqual

theorem Component.operators_agree (a b : Component) : OperatorsAgree a b where
  equals := equals_iff a b
  notEquals := by
    rw [notEquals,Bool.not_eq_true',← Bool.not_eq_true,equals_iff]
  less := by simp [less]
  lessOrEqual := by simp [lessOrEqual]
  greater := by simp [greater]
  greaterOrEqual := by simp [greaterOrEqual]

theorem Name.operators_agree (a b : Name) : OperatorsAgree a b where
  equals := by simp [Name.equals]
  notEquals := by simp [Name.notEquals]
  less := by simp [Name.less]
  lessOrEqual := by simp [Name.lessOrEqual]
  greater := by simp [Name.greater]
  greaterOrEqual := by simp [Name.greaterOrEqual]

theorem comparisons_total_orders (a b : Component) (left right : Name) :
    TotalOrder Component.compare ∧ TotalOrder Name.compare ∧
      (∀ bytes more : Blob,more ≠ [] → Component.compare ⟨bytes⟩ ⟨bytes ++ more⟩ < 0) ∧
      (∀ name more : Name,more ≠ [] → Name.compare name (name ++ more) < 0) ∧
      Component.OperatorsAgree a b ∧ Name.OperatorsAgree left right :=
  ⟨Component.compare_decides.totalOrder,Name.compare_decides.totalOrder,
    fun bytes _ proper => Component.compare_extension bytes proper,
    fun name _ proper => Name.compare_extension name proper,
    Component.operators_agree a b,Name.operators_agree left right⟩

-- 0x80 is -128 as a `char`, and a longer component comes after either.
theorem comparisons_at_three_names :
    Name.compare [⟨[0x80]⟩] [⟨[0x01]⟩] < 0 ∧ Name.compare [⟨[0x01]⟩] [⟨[0x01]⟩,⟨[]⟩] < 0 ∧
      Name.compare [⟨[0x80]⟩] [⟨[0x01]⟩,⟨[]⟩] ≤ 0 := by
  have laws := comparisons_total_orders ⟨[0x80]⟩ ⟨[0x01]⟩ [⟨[0x80]⟩] [⟨[0x01]⟩]
  have first : Name.compare [⟨[0x80]⟩] [⟨[0x01]⟩] < 0 := by decide
  have second := laws.2.2.2.1 [⟨[0x01]⟩] [⟨[]⟩] (by simp)
  exact ⟨first,second,laws.2.1.transitive _ _ _ first.le second.le⟩

end NdnCxx
