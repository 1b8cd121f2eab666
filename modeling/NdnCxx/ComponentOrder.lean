import NdnCxx.Component

namespace NdnCxx.Component

-- The loop that `fromNumber` and `fromNumberWithMarker` share: low byte first.
def pushBytes (number : ℕ) : Blob :=
  if 0 < number then UInt8.ofNat (number % 256) :: pushBytes (number / 256) else []
termination_by number
decreasing_by omega

def fromNumber (number : UInt64) : Component := ⟨(pushBytes number.toNat).reverse⟩

def fromNumberWithMarker (number : UInt64) (marker : UInt8) : Component := ⟨marker :: (pushBytes number.toNat).reverse⟩

def unsigned (c : Component) : List ℕ := c.bytes.map UInt8.toNat

-- The canonical order: the shorter first, then by unsigned bytes.
def CanonicalLt (left right : Component) : Prop :=
  left.size < right.size ∨ left.size = right.size ∧ left.unsigned < right.unsigned

def Canonical (left right : Component) : Prop :=
  (left.compare right < 0 ↔ CanonicalLt left right) ∧ (left.compare right = 0 ↔ left = right) ∧
    (0 < left.compare right ↔ CanonicalLt right left)

def firstDifference : List ℕ → List ℕ → Option (ℕ × ℕ)
  | a :: as,b :: bs => if a = b then firstDifference as bs else some (a,b)
  | _,_ => none

-- Either the lengths differ, or the first two bytes that differ are both below
-- 0x80 or both not.
def SameHalf (left right : List ℕ) : Prop :=
  left.length = right.length → ∀ a b, firstDifference left right = some (a,b) → (a < 128 ↔ b < 128)

theorem signedChar_lt {left right : UInt8} (half : left.toNat < 128 ↔ right.toNat < 128) :
    signedChar left < signedChar right ↔ left.toNat < right.toNat := by
  unfold signedChar
  split <;> split <;> omega

theorem signedChar_reversed {left right : UInt8} (halves : ¬(left.toNat < 128 ↔ right.toNat < 128)) :
    signedChar left < signedChar right ↔ right.toNat < left.toNat := by
  have leftBound := left.toNat_lt
  have rightBound := right.toNat_lt
  unfold signedChar
  split <;> split <;> omega

-- The two orders of the bytes, decided at the first difference.
theorem signed_order {left right : Blob} (sizes : left.length = right.length)
    (half : SameHalf (left.map UInt8.toNat) (right.map UInt8.toNat)) :
    left.map signedChar < right.map signedChar ↔ left.map UInt8.toNat < right.map UInt8.toNat := by
  induction left generalizing right with
  | nil =>
    cases right with
    | nil => simp
    | cons b right => simp at sizes
  | cons a left ih =>
    cases right with
    | nil => simp at sizes
    | cons b right =>
      have rest : left.length = right.length := by simpa using sizes
      by_cases same : a = b
      · subst same
        have tails : SameHalf (left.map UInt8.toNat) (right.map UInt8.toNat) := by
          intro lengths x y found
          exact half (by simpa using lengths) x y (by simpa [firstDifference] using found)
        simpa [List.cons_lt_cons_iff] using ih rest tails
      · have bytes : a.toNat ≠ b.toNat := fun equal => same (UInt8.toNat_inj.mp equal)
        have signs : signedChar a ≠ signedChar b := fun equal => same (signedChar_injective equal)
        have heads := half (by simpa using rest) a.toNat b.toNat (by simp [firstDifference,bytes])
        simp [List.cons_lt_cons_iff,bytes,signs,signedChar_lt heads]

theorem signed_reversed {left right : Blob} (half : ¬SameHalf (left.map UInt8.toNat) (right.map UInt8.toNat)) :
    left.length = right.length ∧
      (left.map signedChar < right.map signedChar ↔ right.map UInt8.toNat < left.map UInt8.toNat) ∧ left ≠ right := by
  simp only [SameHalf,List.length_map] at half
  push Not at half
  obtain ⟨sizes,x,y,found,halves⟩ := half
  refine ⟨sizes,?_⟩
  have apart : ¬(x < 128 ↔ y < 128) := by omega
  clear halves
  induction left generalizing right with
  | nil =>
    cases right with
    | nil => cases found
    | cons b right => simp at sizes
  | cons a left ih =>
    cases right with
    | nil => simp at sizes
    | cons b right =>
      by_cases same : a = b
      · subst same
        have tails := ih (by simpa using sizes) (by simpa [firstDifference] using found)
        simpa [List.cons_lt_cons_iff] using tails
      · have bytes : a.toNat ≠ b.toNat := fun equal => same (UInt8.toNat_inj.mp equal)
        have signs : signedChar a ≠ signedChar b := fun equal => same (signedChar_injective equal)
        simp only [List.map_cons,firstDifference,bytes,if_false,Option.some.injEq,Prod.mk.injEq] at found
        rw [← found.1,← found.2] at apart
        simp [List.cons_lt_cons_iff,bytes.symm,signs,same,signedChar_reversed apart]

theorem canonical_irrefl (c : Component) : ¬CanonicalLt c c := by
  simp [CanonicalLt]

theorem canonical_total {left right : Component} (apart : left ≠ right) :
    CanonicalLt left right ↔ ¬CanonicalLt right left := by
  have bytes : left.unsigned ≠ right.unsigned := by
    intro same
    apply apart
    cases left; cases right
    simpa using List.map_injective_iff.mpr (fun _ _ => UInt8.toNat_inj.mp) same
  have order := lt_iff_not_ge (a := left.unsigned) (b := right.unsigned)
  rw [le_iff_lt_or_eq,or_iff_left bytes.symm] at order
  unfold CanonicalLt
  rw [order]
  rcases lt_trichotomy left.size right.size with less | same | more
  · simp [less,less.ne',less.not_gt]
  · simp [same]
  · simp [more,more.ne',more.not_gt]

theorem compare_sameHalf {left right : Component} (half : SameHalf left.unsigned right.unsigned) :
    left < right ↔ CanonicalLt left right := by
  rw [lt_iff]
  apply or_congr_right
  apply and_congr_right
  intro sizes
  exact signed_order sizes half

theorem compare_otherHalf {left right : Component} (half : ¬SameHalf left.unsigned right.unsigned) :
    left ≠ right ∧ (left < right ↔ CanonicalLt right left) := by
  obtain ⟨lengths,reversed,apart⟩ := signed_reversed half
  have sizes : left.size = right.size := lengths
  refine ⟨fun same => apart (congrArg Component.bytes same),?_⟩
  rw [lt_iff,CanonicalLt,sizes,unsigned,unsigned]
  simpa using reversed

-- For two different components one answer decides all three.
theorem canonical_iff (left right : Component) :
    Canonical left right ↔ (left < right ↔ CanonicalLt left right) := by
  unfold Canonical
  rw [compare_neg,compare_zero]
  by_cases same : left = right
  · subst same
    have zero : left.compare left = 0 := (compare_zero left left).mpr rfl
    simp [zero,canonical_irrefl]
  · have positive : 0 < left.compare right ↔ ¬left < right := by
      rw [← compare_neg,not_lt,lt_iff_le_and_ne,and_iff_left_iff_imp]
      exact fun _ zero => same ((compare_zero left right).mp zero.symm)
    have reversed := canonical_total (Ne.symm same)
    rw [positive,reversed,not_iff_not]
    simp

theorem canonical_sameHalf (left right : Component) :
    Canonical left right ↔ SameHalf left.unsigned right.unsigned := by
  rw [canonical_iff]
  by_cases half : SameHalf left.unsigned right.unsigned
  · simp [half,compare_sameHalf half]
  · obtain ⟨apart,reversed⟩ := compare_otherHalf half
    have total := canonical_total apart
    simp only [half,iff_false,reversed]
    tauto

theorem pushBytes_digits (number : ℕ) : (pushBytes number).map UInt8.toNat = Nat.digits 256 number := by
  induction number using pushBytes.induct with
  | case1 number positive ih =>
    rw [pushBytes,if_pos positive,Nat.digits_def' (by decide) positive,List.map_cons,ih]
    simp
  | case2 number zero =>
    rw [pushBytes,if_neg zero,Nat.eq_zero_of_not_pos zero]
    simp

def bigEndian (number : ℕ) : List ℕ := (Nat.digits 256 number).reverse

theorem fromNumber_unsigned (number : UInt64) : (fromNumber number).unsigned = bigEndian number.toNat := by
  rw [unsigned,fromNumber,List.map_reverse,pushBytes_digits,bigEndian]

theorem fromNumberWithMarker_unsigned (number : UInt64) (marker : UInt8) :
    (fromNumberWithMarker number marker).unsigned = marker.toNat :: bigEndian number.toNat := by
  rw [unsigned,fromNumberWithMarker,List.map_cons,List.map_reverse,pushBytes_digits,bigEndian]

theorem digits_order {left right : List ℕ} (sizes : left.length = right.length) (leftDigits : ∀ d ∈ left, d < 256)
    (rightDigits : ∀ d ∈ right, d < 256) :
    left < right ↔ Nat.ofDigits 256 left.reverse < Nat.ofDigits 256 right.reverse := by
  induction left generalizing right with
  | nil =>
    cases right with
    | nil => simp
    | cons b right => simp at sizes
  | cons a left ih =>
    cases right with
    | nil => simp at sizes
    | cons b right =>
      have rest : left.length = right.length := by simpa using sizes
      have tails := ih rest (fun d member => leftDigits d (.tail _ member)) (fun d member => rightDigits d (.tail _ member))
      have leftBound : Nat.ofDigits 256 left.reverse < 256 ^ left.length := by
        simpa using Nat.ofDigits_lt_base_pow_length (b := 256) (l := left.reverse) (by decide)
          (fun d member => leftDigits d (.tail _ (List.mem_reverse.mp member)))
      have rightBound : Nat.ofDigits 256 right.reverse < 256 ^ left.length := by
        rw [rest]
        simpa using Nat.ofDigits_lt_base_pow_length (b := 256) (l := right.reverse) (by decide)
          (fun d member => rightDigits d (.tail _ (List.mem_reverse.mp member)))
      simp only [List.cons_lt_cons_iff,List.reverse_cons,Nat.ofDigits_append,List.length_reverse,Nat.ofDigits_singleton,
        tails,← rest]
      generalize 256 ^ left.length = scale at leftBound rightBound
      rcases lt_trichotomy a b with less | same | more
      · have step : scale * (a + 1) ≤ scale * b := Nat.mul_le_mul_left scale less
        rw [Nat.mul_add,Nat.mul_one] at step
        simp only [less,true_or,true_iff]
        omega
      · simp [same]
      · have step : scale * (b + 1) ≤ scale * a := Nat.mul_le_mul_left scale more
        rw [Nat.mul_add,Nat.mul_one] at step
        simp only [more.not_gt,more.ne',false_or,false_and,false_iff,not_lt]
        omega

theorem bigEndian_order (m n : ℕ) : m < n ↔ (bigEndian m).length < (bigEndian n).length ∨
    (bigEndian m).length = (bigEndian n).length ∧ bigEndian m < bigEndian n := by
  have digit : ∀ (k : ℕ), ∀ d ∈ bigEndian k, d < 256 := fun k d member =>
    Nat.digits_lt_base (by decide) (List.mem_reverse.mp member)
  have value : ∀ k, Nat.ofDigits 256 (bigEndian k).reverse = k := by
    intro k
    rw [bigEndian,List.reverse_reverse,Nat.ofDigits_digits]
  have longer : ∀ {m n : ℕ}, (bigEndian m).length < (bigEndian n).length → m < n := by
    intro m n lengths
    by_contra least
    have mono := Nat.le_length_digits_le 256 n m (not_lt.mp least)
    simp only [bigEndian,List.length_reverse] at lengths
    omega
  rcases lt_trichotomy (bigEndian m).length (bigEndian n).length with less | same | more
  · simp [less,longer less]
  · rw [digits_order same (digit m) (digit n),value,value]
    simp [same]
  · simp [more.not_gt,more.ne',(longer more).le]

theorem fromNumber_canonical (m n : UInt64) : CanonicalLt (fromNumber m) (fromNumber n) ↔ m < n := by
  have sizes : ∀ k : UInt64, (fromNumber k).size = (bigEndian k.toNat).length := by
    intro k
    rw [← fromNumber_unsigned,unsigned,List.length_map,size]
  rw [CanonicalLt,sizes,sizes,fromNumber_unsigned,fromNumber_unsigned,← bigEndian_order,UInt64.lt_iff_toNat_lt]

theorem fromNumberWithMarker_canonical (m n : UInt64) (marker : UInt8) :
    CanonicalLt (fromNumberWithMarker m marker) (fromNumberWithMarker n marker) ↔ m < n := by
  have sizes : ∀ k : UInt64, (fromNumberWithMarker k marker).size = (bigEndian k.toNat).length + 1 := by
    intro k
    rw [← List.length_cons (a := marker.toNat),← fromNumberWithMarker_unsigned,unsigned,List.length_map,size]
  rw [CanonicalLt,sizes,sizes,fromNumberWithMarker_unsigned,fromNumberWithMarker_unsigned,UInt64.lt_iff_toNat_lt,
    bigEndian_order m.toNat]
  simp

-- Where a numeric order is the canonical one, comparing agrees with it exactly for
-- pairs in the same half.
theorem numeric_sameHalf {left right : Component} {less : Prop} (order : CanonicalLt left right ↔ less) :
    (left.compare right < 0 ↔ less) ↔ SameHalf left.unsigned right.unsigned := by
  rw [compare_neg,← order,← canonical_iff,canonical_sameHalf]

theorem sameHalf_marker (marker : ℕ) (left right : List ℕ) :
    SameHalf (marker :: left) (marker :: right) ↔ SameHalf left right := by
  simp [SameHalf,firstDifference]

theorem canonical_exact (left right : Component) (m n : UInt64) (marker : UInt8) :
    (Canonical left right ↔ SameHalf left.unsigned right.unsigned) ∧
    (((fromNumber m).compare (fromNumber n) < 0 ↔ m < n) ↔ SameHalf (bigEndian m.toNat) (bigEndian n.toNat)) ∧
    (((fromNumberWithMarker m marker).compare (fromNumberWithMarker n marker) < 0 ↔ m < n) ↔
      SameHalf (bigEndian m.toNat) (bigEndian n.toNat)) := by
  refine ⟨canonical_sameHalf left right,?_,?_⟩
  · rw [numeric_sameHalf (fromNumber_canonical m n),fromNumber_unsigned,fromNumber_unsigned]
  · rw [numeric_sameHalf (fromNumberWithMarker_canonical m n marker),fromNumberWithMarker_unsigned,
      fromNumberWithMarker_unsigned,sameHalf_marker]

-- 128 is encoded as the byte 0x80, which is negative as a signed character.
theorem high_byte_first : (fromNumber 128).compare (fromNumber 1) < 0 ∧ ¬(128 : UInt64) < 1 ∧
    ¬Canonical (fromNumber 128) (fromNumber 1) := by
  have large : fromNumber 128 = ⟨[0x80]⟩ := by simp [fromNumber,pushBytes]
  have small : fromNumber 1 = ⟨[0x01]⟩ := by simp [fromNumber,pushBytes]
  rw [large,small]
  refine ⟨by decide,by decide,?_⟩
  intro canonical
  rcases canonical.1.mp (by decide) with shorter | ⟨_,less⟩
  · exact absurd shorter (by decide)
  · exact absurd less (by decide)

end NdnCxx.Component
