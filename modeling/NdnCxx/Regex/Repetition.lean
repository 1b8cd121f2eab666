import NdnCxx.Regex.Compile

namespace NdnCxx.Regex
open RegexTopMatcher (isDigit)

-- Decimal numbers of any length, leading zeros included.
abbrev Number := {digits : Blob // isNumber digits = true}

def numberValue (digits : Blob) : ℕ := digits.foldl (fun value digit => 10 * value + (digit.toNat - 0x30)) 0

def Number.value (number : Number) : ℕ := numberValue number.val

-- What is left of a number in 32 bits with a sign, if it had no more than 63 before.
def lowHalf (value : ℕ) : ℤ := Int.bmod (min value (2^63 - 1) : ℕ) (2^32)

theorem lowHalf_range (value : ℕ) : lowHalf value = ((min value (2^63 - 1) + 2^31) % 2^32 : ℕ) - 2^31 := by
  unfold lowHalf
  generalize min value (2^63 - 1) = kept
  rw [Int.bmod_def]
  simp only [Nat.reducePow,Int.reducePow,Nat.cast_ofNat,Int.reduceAdd,Int.reduceDiv]
  split <;> omega

theorem atoi_lowHalf (digits : Blob) : RegexTopMatcher.atoi digits = lowHalf (numberValue digits) := by
  rw [lowHalf_range]
  rfl

theorem lowHalf_small {value : ℕ} (small : value ≤ intMax) : lowHalf value = value := by
  rw [lowHalf_range]
  unfold intMax at small
  omega

theorem lowHalf_le (value : ℕ) : lowHalf value ≤ intMax := by
  rw [lowHalf_range]
  unfold intMax
  omega

-- The four forms `\x7bm,n\x7d`, `\x7b,n\x7d`, `\x7bm,\x7d` and `\x7bm\x7d`.
inductive Suffix where
  | both (m n : Number)
  | atMost (n : Number)
  | atLeast (m : Number)
  | exactly (m : Number)

namespace Suffix

def body : Suffix → Blob
  | both m n => m.val ++ 0x2C :: n.val
  | atMost n => 0x2C :: n.val
  | atLeast m => m.val ++ [0x2C]
  | exactly m => m.val

def text (suffix : Suffix) : Blob := 0x7B :: (suffix.body ++ [0x7D])

def lower : Suffix → ℕ
  | both m _ => m.value
  | atMost _ => 0
  | atLeast m => m.value
  | exactly m => m.value

def upper : Suffix → ℕ
  | both _ n => n.value
  | atMost n => n.value
  | atLeast _ => intMax
  | exactly m => m.value

-- The bounds that a repetition may have.
def Legal (suffix : Suffix) : Prop := suffix.lower ≤ intMax ∧ suffix.upper ≤ intMax ∧ suffix.lower ≤ suffix.upper

instance (suffix : Suffix) : Decidable suffix.Legal := inferInstanceAs (Decidable (_ ∧ _))

end Suffix

section Scanning

theorem number_digits (number : Number) : ∀ c ∈ number.val, isDigit c = true := by
  have digits := number.property
  rw [isNumber,Bool.and_eq_true,List.all_eq_true] at digits
  exact digits.2

theorem digit_range {c : UInt8} (digit : isDigit c = true) : 0x30 ≤ c.toNat ∧ c.toNat ≤ 0x39 := by
  have range := of_decide_eq_true digit
  exact ⟨UInt8.le_iff_toNat_le.mp range.1,UInt8.le_iff_toNat_le.mp range.2⟩

theorem number_before {stop : UInt8} (other : isDigit stop = false) (number : Number) (rest : Blob) :
    (number.val ++ stop :: rest).takeWhile isDigit = number.val := by
  rw [List.takeWhile_append_of_pos (number_digits number),List.takeWhile_cons_of_neg (by simp [other]),List.append_nil]

theorem number_comma (number : Number) (c : UInt8) (member : c ∈ number.val) : (decide (c ≠ 0x2C)) = true := by
  have range := digit_range (number_digits number c member)
  simp only [decide_eq_true_eq]
  rintro rfl
  exact absurd range.1 (by decide)

theorem before_comma (number : Number) (rest : Blob) :
    (number.val ++ 0x2C :: rest).takeWhile (· ≠ 0x2C) = number.val := by
  rw [List.takeWhile_append_of_pos (number_comma number),List.takeWhile_cons_of_neg (by decide),List.append_nil]

theorem from_comma (number : Number) (rest : Blob) :
    (number.val ++ 0x2C :: rest).dropWhile (· ≠ 0x2C) = 0x2C :: rest := by
  rw [List.dropWhile_append_of_pos (number_comma number),List.dropWhile_cons_of_neg (by decide)]

theorem no_comma (number : Number) : number.val.dropWhile (· ≠ 0x2C) = [] :=
  List.dropWhile_eq_nil_iff.mpr (number_comma number)

theorem comma_index (number : Number) (rest : Blob) :
    (0x7B :: (number.val ++ 0x2C :: rest)).idxOf 0x2C = number.val.length + 1 := by
  have absent : (0x2C : UInt8) ∉ number.val := fun member => absurd (number_comma number _ member) (by decide)
  rw [List.idxOf_cons_ne _ (by decide),List.idxOf_append_of_notMem absent,List.idxOf_cons_self]

theorem text_body (suffix : Suffix) : inBraces suffix.text = some suffix.body := by
  simp [inBraces,Suffix.text]

end Scanning

section Forms

theorem leadingAtoi_before {stop : UInt8} (other : isDigit stop = false) (number : Number) (rest : Blob) :
    leadingAtoi (number.val ++ stop :: rest) = lowHalf number.value := by
  rw [leadingAtoi,number_before other,atoi_lowHalf]
  rfl

theorem leadingAtoi_whole (number : Number) : leadingAtoi number.val = lowHalf number.value := by
  rw [leadingAtoi,List.takeWhile_eq_self_iff.mpr (number_digits number),atoi_lowHalf]
  rfl

theorem number_not_empty (number : Number) : number.val ≠ [] := by
  have digits := number.property
  intro empty
  rw [empty] at digits
  cases digits

theorem number_head (number : Number) : number.val.head? ≠ some 0x2C := by
  intro first
  exact absurd (number_comma number _ (List.mem_of_mem_head? first)) (by decide)

theorem both_bounds (m n : Number) :
    repetitionBounds (Suffix.both m n).text = some (lowHalf m.value,lowHalf n.value) := by
  have form : hasBoth (Suffix.both m n).text = true := by
    rw [hasBoth,text_body]
    simp only [Option.any_some,Suffix.body,before_comma,from_comma,List.head?_cons,List.tail_cons,m.property,n.property]
    rfl
  have separator : (Suffix.both m n).text.idxOf 0x2C = m.val.length + 1 := by
    rw [Suffix.text,Suffix.body,List.append_assoc,List.cons_append,comma_index]
  have first : substr (Suffix.both m n).text 1 (m.val.length + 1 - 1) = m.val := by
    simp [substr,Suffix.text,Suffix.body]
  have second : substr (Suffix.both m n).text (m.val.length + 1 + 1)
      ((Suffix.both m n).text.length - (m.val.length + 1) - 2) = n.val := by
    have size : (Suffix.both m n).text.length - (m.val.length + 1) - 2 = n.val.length := by
      simp only [Suffix.text,Suffix.body,List.length_cons,List.length_append,List.length_nil]
      omega
    have parts : (Suffix.both m n).text = (0x7B :: (m.val ++ [0x2C])) ++ (n.val ++ [0x7D]) := by
      simp [Suffix.text,Suffix.body]
    rw [size,substr,parts,List.drop_left' (by simp),List.take_left]
  rw [repetitionBounds,if_pos form,separator,first,second,leadingAtoi_whole,leadingAtoi_whole]

theorem atMost_bounds (n : Number) :
    repetitionBounds (Suffix.atMost n).text = some (0,lowHalf n.value) := by
  have notBoth : hasBoth (Suffix.atMost n).text = false := by
    rw [hasBoth,text_body]
    rfl
  have form : hasUpper (Suffix.atMost n).text = true := by
    rw [hasUpper,text_body]
    simp only [Option.any_some,Suffix.body,List.head?_cons,List.tail_cons,n.property]
    rfl
  have second : substr (Suffix.atMost n).text 2 ((Suffix.atMost n).text.length - 1 - 2) = n.val := by
    simp [substr,Suffix.text,Suffix.body]
  have separator : (Suffix.atMost n).text.idxOf 0x2C = 1 := rfl
  rw [repetitionBounds,if_neg (by simp [notBoth]),if_pos form,separator,second,leadingAtoi_whole]

theorem atLeast_bounds (m : Number) :
    repetitionBounds (Suffix.atLeast m).text = some (lowHalf m.value,(intMax : ℤ)) := by
  have notBoth : hasBoth (Suffix.atLeast m).text = false := by
    rw [hasBoth,text_body]
    simp only [Option.any_some,Suffix.body,before_comma,from_comma,List.tail_cons]
    simp [isNumber]
  have notUpper : hasUpper (Suffix.atLeast m).text = false := by
    rw [hasUpper,text_body]
    simp [Suffix.body,List.head?_append_of_ne_nil _ (number_not_empty m),number_head m]
  have form : hasLower (Suffix.atLeast m).text = true := by
    rw [hasLower,text_body]
    simp only [Option.any_some,Suffix.body,before_comma,from_comma,m.property]
    rfl
  have separator : (Suffix.atLeast m).text.idxOf 0x2C = m.val.length + 1 := by
    rw [Suffix.text,Suffix.body,List.append_assoc,List.cons_append,comma_index]
  have first : substr (Suffix.atLeast m).text 1 (m.val.length + 1) = m.val ++ [0x2C] := by
    have parts : (Suffix.atLeast m).text = 0x7B :: ((m.val ++ [0x2C]) ++ [0x7D]) := rfl
    rw [substr,parts,List.drop_one,List.tail_cons,List.take_left' (by simp)]
  rw [repetitionBounds,if_neg (by simp [notBoth]),if_neg (by simp [notUpper]),if_pos form,separator,first,
    leadingAtoi_before (by decide)]

theorem exactly_bounds (m : Number) :
    repetitionBounds (Suffix.exactly m).text = some (lowHalf m.value,lowHalf m.value) := by
  have notBoth : hasBoth (Suffix.exactly m).text = false := by
    rw [hasBoth,text_body]
    simp only [Option.any_some,Suffix.body,no_comma,List.head?_nil]
    simp
  have notUpper : hasUpper (Suffix.exactly m).text = false := by
    rw [hasUpper,text_body]
    simp [Suffix.body,number_head m]
  have notLower : hasLower (Suffix.exactly m).text = false := by
    rw [hasLower,text_body]
    simp only [Option.any_some,Suffix.body,no_comma]
    simp
  have form : hasExact (Suffix.exactly m).text = true := by
    rw [hasExact,text_body]
    exact m.property
  have first : substr (Suffix.exactly m).text 1 ((Suffix.exactly m).text.length - 1) = m.val ++ [0x7D] := by
    simp [substr,Suffix.text,Suffix.body]
  rw [repetitionBounds,if_neg (by simp [notBoth]),if_neg (by simp [notUpper]),if_neg (by simp [notLower]),if_pos form,first,
    leadingAtoi_before (by decide)]

end Forms

-- The conversions keep the low half of what is written.
theorem suffix_bounds (suffix : Suffix) :
    repetitionBounds suffix.text = some (lowHalf suffix.lower,lowHalf suffix.upper) := by
  cases suffix with
  | both m n => exact both_bounds m n
  | atMost n =>
    have bottom : lowHalf 0 = (0 : ℕ) := lowHalf_small (Nat.zero_le _)
    have bounds : repetitionBounds (Suffix.atMost n).text = some (lowHalf 0,lowHalf n.value) := by
      rw [atMost_bounds,bottom]
      rfl
    exact bounds
  | atLeast m =>
    have top : lowHalf intMax = intMax := lowHalf_small le_rfl
    have bounds : repetitionBounds (Suffix.atLeast m).text = some (lowHalf m.value,lowHalf intMax) := by
      rw [atLeast_bounds,top]
    exact bounds
  | exactly m => exact exactly_bounds m

theorem body_not_empty (suffix : Suffix) : suffix.body ≠ [] := by
  cases suffix with
  | both m n => simp [Suffix.body]
  | atMost n => simp [Suffix.body]
  | atLeast m => simp [Suffix.body]
  | exactly m => exact number_not_empty m

-- No bound is above the largest `int` once it is converted to one.
theorem parseRepetition_suffix (item : Blob) (suffix : Suffix) :
    parseRepetition (item ++ suffix.text) item.length =
      if lowHalf suffix.lower > lowHalf suffix.upper then .error (wrongNumber (item ++ suffix.text))
      else .ok (lowHalf suffix.lower,lowHalf suffix.upper) := by
  have size : (item ++ suffix.text).length ≥ item.length + 2 := by
    have := List.length_pos_of_ne_nil (body_not_empty suffix)
    simp only [Suffix.text,List.length_append,List.length_cons]
    omega
  have low := lowHalf_le suffix.lower
  have high := lowHalf_le suffix.upper
  rw [parseRepetition,if_neg (by omega),if_neg (by omega),List.drop_left,suffix_bounds]
  simp only [not_lt.mpr low,not_lt.mpr high,false_or,gt_iff_lt]

-- A suffix is read as it is written, or refused as it must be, exactly when both numbers
-- fit an `int` or the lower one is greater after the conversion too.
theorem repetition_bounds (item : Blob) (suffix : Suffix) :
    (parseRepetition (item ++ suffix.text) item.length =
        if suffix.Legal then .ok (suffix.lower,suffix.upper) else .error (wrongNumber (item ++ suffix.text))) ↔
      (suffix.lower ≤ intMax ∧ suffix.upper ≤ intMax) ∨ lowHalf suffix.upper < lowHalf suffix.lower := by
  rw [parseRepetition_suffix]
  by_cases fits : suffix.lower ≤ intMax ∧ suffix.upper ≤ intMax
  · simp only [fits,lowHalf_small,true_and,true_or,iff_true,Suffix.Legal,gt_iff_lt,Nat.cast_lt]
    by_cases order : suffix.lower ≤ suffix.upper
    · rw [if_neg (by omega),if_pos order]
    · rw [if_pos (by omega),if_neg order]
  · have refused : ¬suffix.Legal := fun legal => fits ⟨legal.1,legal.2.1⟩
    rw [if_neg refused]
    simp only [fits,false_or]
    split
    · rename_i greater
      simpa using greater
    · rename_i less
      simpa using less

-- `<a>{4294967297}`.
def hugeRepetition : Blob := [0x3C,0x61,0x3E,0x7B,0x34,0x32,0x39,0x34,0x39,0x36,0x37,0x32,0x39,0x37,0x7D]

theorem repetition_wraps :
    parseRepetition hugeRepetition 3 = .ok (1,1) ∧
      ∃ suffix : Suffix, hugeRepetition = [0x3C,0x61,0x3E] ++ suffix.text ∧ ¬suffix.Legal := by
  refine ⟨by decide +kernel,.exactly ⟨[0x34,0x32,0x39,0x34,0x39,0x36,0x37,0x32,0x39,0x37],rfl⟩,rfl,by decide +kernel⟩

end NdnCxx.Regex
