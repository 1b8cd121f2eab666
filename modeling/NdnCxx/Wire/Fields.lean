import NdnCxx.Wire.Visitor

namespace NdnCxx.Wire

theorem digit_facts (digit : Nat) (small : digit < 10) :
    isDigit (UInt8.ofNat digit.digitChar.toNat) = true ∧ (UInt8.ofNat digit.digitChar.toNat).toNat = digit + 48 ∧
      isSpace (UInt8.ofNat digit.digitChar.toNat) = false ∧ UInt8.ofNat digit.digitChar.toNat ≠ 0x2B ∧
      UInt8.ofNat digit.digitChar.toNat ≠ 0x2D := by
  have all : ∀ digit : Fin 10, isDigit (UInt8.ofNat digit.val.digitChar.toNat) = true ∧
      (UInt8.ofNat digit.val.digitChar.toNat).toNat = digit.val + 48 ∧
      isSpace (UInt8.ofNat digit.val.digitChar.toNat) = false ∧ UInt8.ofNat digit.val.digitChar.toNat ≠ 0x2B ∧
      UInt8.ofNat digit.val.digitChar.toNat ≠ 0x2D := by decide
  exact all ⟨digit,small⟩

theorem decimal_small {number : Nat} (small : number < 10) :
    decimal number = [UInt8.ofNat number.digitChar.toNat] := by
  rw [decimal,Nat.toDigits_of_lt_base small]
  rfl

theorem decimal_large {number : Nat} (large : 10 ≤ number) :
    decimal number = decimal (number / 10) ++ [UInt8.ofNat (number % 10).digitChar.toNat] := by
  rw [decimal,Nat.toDigits_of_base_le (by decide) large,List.map_append]
  rfl

-- By strong induction on the number, one digit at a time: what is printed is all
-- digits, starts with neither a blank nor a sign, and counts back to the number.
theorem decimal_digits (number : Nat) :
    (∀ byte ∈ decimal number, isDigit byte = true) ∧ digitsValue (decimal number) = number ∧
      ∃ first others, decimal number = first :: others ∧ isSpace first = false ∧ first ≠ 0x2B ∧ first ≠ 0x2D := by
  induction number using Nat.strong_induction_on with
  | h number ih =>
    rcases Nat.lt_or_ge number 10 with small | large
    · obtain ⟨digit,value,notSpace,notPlus,notMinus⟩ := digit_facts number small
      rw [decimal_small small]
      refine ⟨by simpa using digit,?_,_,[],rfl,notSpace,notPlus,notMinus⟩
      simp [digitsValue,value]
    · obtain ⟨digits,value,first,others,starts,plain⟩ := ih (number / 10) (by omega)
      obtain ⟨digit,last,_⟩ := digit_facts (number % 10) (Nat.mod_lt _ (by decide))
      rw [decimal_large large]
      refine ⟨?_,?_,first,others ++ [UInt8.ofNat (number % 10).digitChar.toNat],by rw [starts]; rfl,plain⟩
      · intro byte member
        rcases List.mem_append.mp member with old | new
        · exact digits byte old
        · rw [List.mem_singleton.mp new]
          exact digit
      · unfold digitsValue at value ⊢
        rw [List.foldl_append,value,List.foldl_cons,List.foldl_nil,last]
        omega

theorem readInt32_decimal (number : Nat) : readInt32 (decimal number) = min (number : Int) (2^31 - 1) := by
  obtain ⟨digits,value,first,others,starts,notSpace,notPlus,notMinus⟩ := decimal_digits number
  have whole : (first :: others).takeWhile isDigit = first :: others :=
    List.takeWhile_eq_self_iff.mpr (by rwa [starts] at digits)
  have trimmed : (first :: others).dropWhile isSpace = first :: others := by
    simp [notSpace]
  rw [starts] at value ⊢
  simp only [readInt32,trimmed,notPlus,notMinus,or_self,if_false,whole,value,List.head?_cons,Option.some.injEq]

theorem number_reads {number : Nat} (small : number < 2^31) :
    nonNegativeIntegerVisitor (.udata (decimal number)) = .ok number := by
  have value : readInt32 (decimal number) = number := by
    rw [readInt32_decimal]
    omega
  have parsed : nonNegativeIntegerOf (decimal number) = .ok number := by
    simp only [nonNegativeIntegerOf,value]
    rw [if_neg (by omega)]
    rfl
  simp only [nonNegativeIntegerVisitor,noArguVisit,parsed,bind,Except.bind]
  rfl

theorem int32_small {value : Int} (nonneg : 0 ≤ value) (small : value < 2^31) : int32 value = value := by
  unfold int32 Int.bmod
  have wraps : value % ((2^32 : Nat) : Int) = value := Int.emod_eq_of_lt nonneg (by omega)
  simp only [wraps]
  rw [if_pos (by omega)]

theorem putChar_nat (value : Nat) : (putChar value).toNat = value % 256 := by
  rw [putChar,UInt8.toNat_ofNat']
  omega

def secondsBytes (count : Nat) (ts : Int) : Blob :=
  (List.range count).map (fun i => putChar (ts >>> (8 * (count - 1 - i))))

theorem shift_byte (value : Nat) : (value : Int) >>> (8 : Nat) = ((value / 256 : Nat) : Int) := by
  rw [Int.shiftRight_eq_div_pow]
  norm_cast

theorem secondsBytes_succ (count value : Nat) :
    secondsBytes (count+1) (value : Int) = secondsBytes count ((value / 256 : Nat) : Int) ++ [putChar value] := by
  unfold secondsBytes
  rw [List.range_succ,List.map_append]
  congr 1
  · apply List.map_congr_left
    intro index member
    have below := List.mem_range.mp member
    have shift : 8 * (count + 1 - 1 - index) = 8 + 8 * (count - 1 - index) := by omega
    rw [shift,Int.shiftRight_add,shift_byte]
  · simp

theorem secondsBytes_reads (count value : Nat) (fits : value < 256^count) (small : value < 2^31) :
    (secondsBytes count value).foldl (fun seconds byte => int32 (seconds * 256 + byte.toNat)) 0 = value := by
  induction count generalizing value with
  | zero =>
    have zero : value = 0 := by simpa using fits
    subst zero
    rfl
  | succ count ih =>
    have above := ih (value / 256) (by rw [pow_succ] at fits; omega) (by omega)
    rw [secondsBytes_succ,List.foldl_append,above,List.foldl_cons,List.foldl_nil,putChar_nat]
    rw [int32_small (by omega) (by omega)]
    omega

theorem turns_fit (turns value : Nat) (fits : value < 256^turns) : value < 256^(timestampTurns turns value) := by
  induction turns generalizing value with
  | zero => exact fits
  | succ turns ih =>
    unfold timestampTurns
    split
    · rename_i zero
      simp at zero
      simp [zero]
    · rw [shift_byte,pow_succ]
      have above := ih (value / 256) (by rw [pow_succ] at fits; omega)
      omega

theorem timestamp_blob {blob : Blob} {time : Int} (parsed : timestampOf blob = .ok time) :
    timestampVisitor (.blob blob) = .ok time := by
  simp only [timestampVisitor,noArguVisit,parsed,bind,Except.bind]
  rfl

theorem timestamp_reads (time : Int) : ∃ read, timestampVisitor (.blob (timestampBytes time)) = .ok read := by
  have long : ¬(timestampBytes time).length < 2 := by
    rw [timestampBytes_length,requiredBytes]
    omega
  exact ⟨_,timestamp_blob (if_neg long)⟩

theorem timestampOf_append (front : Blob) (combo last : UInt8) :
    timestampOf (front ++ [combo,last]) =
      .ok (int32 (front.foldl (fun seconds byte => int32 (seconds * 256 + byte.toNat)) 0 * 16 + (combo >>> 4).toNat) *
          1000000 +
        (((BitVec.ofNat 32 ((combo &&& 0x0F).toNat <<< 8) ||| charBits last).toInt * 1000000).tdiv 4096).tdiv 1000) := by
  have count : (front ++ [combo,last]).length - 2 = front.length := by simp
  have final : (front ++ [combo,last]).length - 1 = front.length + 1 := by simp
  unfold timestampOf
  rw [if_neg (by simp),count,final]
  simp

theorem timestampBytes_seconds (seconds : Nat) :
    timestampBytes (seconds * 1000000 : Nat) =
      secondsBytes (timestampTurns 5 ((seconds / 16 : Nat) : Int)) ((seconds / 16 : Nat) : Int) ++
        [putChar ((seconds % 16 * 16 : Nat) : Int),putChar 0] := by
  have total : totalSeconds (seconds * 1000000 : Nat) = seconds := by
    rw [totalSeconds_nat]
    omega
  have shifted : (seconds : Int) >>> (4 : Nat) = ((seconds / 16 : Nat) : Int) := by
    rw [Int.shiftRight_eq_div_pow]
    norm_cast
  have count : requiredBytes (seconds * 1000000 : Nat) = 2 + timestampTurns 5 ((seconds / 16 : Nat) : Int) := by
    rw [requiredBytes,total,shifted]
  have exactly : (((seconds * 1000000 : Nat) : Int) * 1000).tmod 1000000000 = 0 := by
    rw [Int.tmod_eq_emod_of_nonneg (by omega)]
    omega
  have rounded : ((0 : Int).tdiv 5 * 8 + 195312).tdiv 390625 = 0 := by decide
  simp only [timestampBytes,total,shifted,count,exactly,rounded]
  generalize timestampTurns 5 ((seconds / 16 : Nat) : Int) = turns
  have high : ((seconds : Int) % 16 * 4096 + 0) >>> (8 : Nat) = ((seconds % 16 * 16 : Nat) : Int) := by
    rw [Int.shiftRight_eq_div_pow]
    omega
  have low : putChar ((seconds : Int) % 16 * 4096 + 0) = putChar 0 := by
    have multiple : ((seconds : Int) % 16 * 4096 + 0) % 256 = 0 % 256 := by omega
    rw [putChar,multiple,putChar]
  rw [high,low,secondsBytes,Nat.add_sub_cancel_left]
  have positions : ∀ index, 2 + turns - 3 - index = turns - 1 - index := fun index => by omega
  simp only [positions]

-- A whole number of seconds leaves the fraction empty and is read back exactly.
theorem seconds_read {seconds : Nat} (small : seconds < 2^31) :
    timestampVisitor (.blob (timestampBytes (seconds * 1000000 : Nat))) = .ok (seconds * 1000000 : Nat) := by
  have combo : ∀ digit < 16, (putChar ((digit * 16 : Nat) : Int) >>> 4).toNat = digit ∧
      (putChar ((digit * 16 : Nat) : Int) &&& 0x0F).toNat = 0 := by decide
  obtain ⟨whole,clear⟩ := combo (seconds % 16) (Nat.mod_lt _ (by decide))
  have sign : charBits (putChar 0) = 0#32 := rfl
  have fraction : ((((BitVec.ofNat 32 (0 <<< 8) ||| 0#32).toInt * 1000000).tdiv 4096).tdiv 1000) = 0 := by simp
  have front := secondsBytes_reads _ (seconds / 16) (turns_fit 5 (seconds / 16) (by omega)) (by omega)
  have parsed : timestampOf (timestampBytes (seconds * 1000000 : Nat)) = .ok (seconds * 1000000 : Nat) := by
    rw [timestampBytes_seconds,timestampOf_append,front,whole,clear,sign,fraction,int32_small (by omega) (by omega)]
    refine congrArg Except.ok ?_
    push_cast
    omega
  exact timestamp_blob parsed

end NdnCxx.Wire
