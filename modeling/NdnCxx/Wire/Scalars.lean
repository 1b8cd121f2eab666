import NdnCxx.Interest
import NdnCxx.Wire.Timestamp

namespace NdnCxx.Wire
open Der (bigEndian bigEndian_concat)

-- What the twelve fraction bits are read as, in microseconds: the last byte counts
-- with its sign, and the quotient is divided by a thousand once more.
def fractionRead (ticks : Nat) : Int :=
  if ticks % 256 < 128 then (ticks * 1000000 / 4096 / 1000 : Nat)
  else -((256 - ticks % 256) * 1000000 / 4096 / 1000 : Nat)

theorem charBits_sign (last : UInt8) : charBits last =
    if last.toNat < 128 then BitVec.ofNat 32 last.toNat else BitVec.ofNat 32 (0xFFFFFF <<< 8 ||| last.toNat) := by
  have all : ∀ last : Fin 256, charBits (UInt8.ofFin last) =
      if last.val < 128 then BitVec.ofNat 32 last.val else BitVec.ofNat 32 (0xFFFFFF <<< 8 ||| last.val) := by
    decide +kernel
  exact all last.toFin

theorem nanoseconds_bits (combo last : UInt8) :
    (BitVec.ofNat 32 ((combo &&& 0x0F).toNat <<< 8) ||| charBits last).toInt =
      if last.toNat < 128 then ((combo.toNat % 16 * 256 + last.toNat : Nat) : Int) else (last.toNat : Int) - 256 := by
  have high : (combo &&& 0x0F).toNat = combo.toNat % 16 := by
    rw [UInt8.toNat_and]
    exact Nat.and_two_pow_sub_one_eq_mod combo.toNat 4
  have four : combo.toNat % 16 < 16 := Nat.mod_lt _ (by decide)
  have byte := last.toNat_lt
  rw [high,charBits_sign]
  split
  · have joined : (combo.toNat % 16) <<< 8 ||| last.toNat = combo.toNat % 16 * 256 + last.toNat := by
      rw [← Nat.shiftLeft_add_eq_or_of_lt byte,Nat.shiftLeft_eq]
    rw [← BitVec.ofNat_or,joined,BitVec.toInt_ofNat']
    exact Int.bmod_eq_of_le (by omega) (by omega)
  · -- The bits of the sign are above the four bits as well.
    have covered : ∀ n < 16, n <<< 8 ||| 0xFFFFFF <<< 8 = 0xFFFFFF <<< 8 := by decide
    have joined : (combo.toNat % 16) <<< 8 ||| (0xFFFFFF <<< 8 ||| last.toNat) = 0xFFFFFF * 256 + last.toNat := by
      rw [← Nat.or_assoc,covered _ four,← Nat.shiftLeft_add_eq_or_of_lt byte,Nat.shiftLeft_eq]
    rw [← BitVec.ofNat_or,joined,BitVec.toInt_ofNat']
    simp only [Int.bmod,Nat.reducePow]
    omega

theorem fraction_bits (combo last : UInt8) :
    (((BitVec.ofNat 32 ((combo &&& 0x0F).toNat <<< 8) ||| charBits last).toInt * 1000000).tdiv 4096).tdiv 1000 =
      fractionRead (combo.toNat % 16 * 256 + last.toNat) := by
  have byte := last.toNat_lt
  have low : (combo.toNat % 16 * 256 + last.toNat) % 256 = last.toNat := by omega
  rw [nanoseconds_bits,fractionRead,low]
  split
  · norm_cast
  · have negative : ((last.toNat : Int) - 256) * 1000000 = -(((256 - last.toNat) * 1000000 : Nat) : Int) := by omega
    rw [negative,Int.neg_tdiv,Int.neg_tdiv]
    norm_cast

-- The sum stays below 2^31 at every byte when it does at the last.
theorem seconds_fold (front : Blob) (small : bigEndian front < 2^31) :
    front.foldl (fun seconds byte => int32 (seconds * 256 + byte.toNat)) 0 = (bigEndian front : Int) := by
  induction front using List.reverseRecOn with
  | nil => rfl
  | append_singleton front byte ih =>
    rw [bigEndian_concat] at small ⊢
    rw [List.foldl_append,ih (by omega),List.foldl_cons,List.foldl_nil,int32_small (by omega) (by omega)]
    push_cast
    rfl

theorem split_last {blob : Blob} (long : 2 ≤ blob.length) : ∃ front combo last, blob = front ++ [combo,last] := by
  have two : (blob.drop (blob.length - 2)).length = 2 := by
    rw [List.length_drop]
    omega
  obtain ⟨combo,last,ending⟩ := List.length_eq_two.mp two
  refine ⟨blob.take (blob.length - 2),combo,last,?_⟩
  rw [← ending,List.take_append_drop]

theorem timestamp_read {blob : Blob} (long : 2 ≤ blob.length) (fits : bigEndian blob / 4096 < 2^31) :
    timestampVisitor (.blob blob) =
      .ok (((bigEndian blob / 4096 * 1000000 : Nat) : Int) + fractionRead (bigEndian blob % 4096)) := by
  obtain ⟨front,combo,last,rfl⟩ := split_last long
  have value : bigEndian (front ++ [combo,last]) = bigEndian front * 65536 + (combo.toNat * 256 + last.toNat) := by
    rw [bigEndian_append]
    simp [bigEndian]
  have comboByte := combo.toNat_lt
  have lastByte := last.toNat_lt
  have high : (combo >>> 4).toNat = combo.toNat / 16 := by
    rw [UInt8.toNat_shiftRight,Nat.shiftRight_eq_div_pow]
    rfl
  have seconds : bigEndian (front ++ [combo,last]) / 4096 = bigEndian front * 16 + combo.toNat / 16 := by omega
  have ticks : bigEndian (front ++ [combo,last]) % 4096 = combo.toNat % 16 * 256 + last.toNat := by omega
  rw [seconds] at fits
  apply timestamp_blob
  rw [timestampOf_append,seconds_fold front (by omega),high,fraction_bits,int32_small (by omega) (by omega),seconds,ticks]
  push_cast
  rfl

theorem fraction_floor {ticks : Nat} (digits : ticks < 4096) :
    fractionRead ticks = (ticks * 1000000 / 4096 : Nat) ↔ ticks = 0 := by
  unfold fractionRead
  split <;> omega

-- Two clocks agree when they are at most one tick apart.
def WithinTick (read time : Int) : Prop := (read - time).natAbs * 4096 ≤ 1000000

theorem encoded_read (time : Nat) (short : time / 1000000 < 2^31) :
    timestampVisitor (.blob (timestampBytes (time : Int))) =
      .ok (((bigEndian (timestampBytes (time : Int)) / 4096 * 1000000 : Nat) : Int) +
        fractionRead (bigEndian (timestampBytes (time : Int)) % 4096)) := by
  have value := timestamp_value time short
  have long : 2 ≤ (timestampBytes (time : Int)).length := by
    rw [timestampBytes_length,requiredBytes]
    omega
  exact timestamp_read long (by omega)

-- A fraction is read back within a tick only where it rounds to a whole second or
-- the one tick that is cut off is not more than it.
theorem fraction_within {microseconds : Nat} (early : microseconds < 999878) :
    (fractionRead ((microseconds * 1600 + 195312) / 390625) - microseconds).natAbs * 4096 ≤ 1000000 ↔
      microseconds ≤ 244 := by
  unfold fractionRead
  split
  · omega
  · -- A last byte with its sign set stands for at least half a ticks' byte.
    rename_i signed
    have large := Nat.mod_le ((microseconds * 1600 + 195312) / 390625) 256
    have late : 31000 ≤ microseconds := by omega
    generalize (256 - (microseconds * 1600 + 195312) / 390625 % 256) * 1000000 / 4096 / 1000 = back
    omega

theorem encoded_within (time : Nat) (short : time / 1000000 < 2^31) :
    (∃ read, timestampVisitor (.blob (timestampBytes (time : Int))) = .ok read ∧ WithinTick read time) ↔
      ¬Carries time ∧ (time % 1000000 ≤ 244 ∨ 999878 ≤ time % 1000000) := by
  have value := timestamp_value time short
  have digit := Nat.mod_lt (time / 1000000) (by omega : 0 < 16)
  have start : fractionRead 0 = 0 := rfl
  rw [encoded_read time short,carries_iff]
  simp only [Except.ok.injEq,exists_eq_left',WithinTick]
  generalize bigEndian (timestampBytes (time : Int)) = payload at value ⊢
  rcases fraction_top (Nat.mod_lt time (by omega : 0 < 1000000)) with ⟨whole,late⟩ | ⟨part,early⟩
  · rw [whole] at value
    have ticks : payload % 4096 = 0 := by omega
    rw [ticks,start]
    omega
  · have below : time / 1000000 % 16 * 4096 + (time % 1000000 * 1600 + 195312) / 390625 < 65536 := by omega
    rw [Nat.mod_eq_of_lt below] at value
    have seconds : payload / 4096 = time / 1000000 := by omega
    have ticks : payload % 4096 = (time % 1000000 * 1600 + 195312) / 390625 := by omega
    have within := fraction_within early
    have apart : ((payload / 4096 * 1000000 : Nat) : Int) + fractionRead (payload % 4096) - (time : Int) =
        fractionRead ((time % 1000000 * 1600 + 195312) / 390625) - ((time % 1000000 : Nat) : Int) := by
      simp only [ticks]
      omega
    simp only [apart]
    omega

-- The sign of the last byte and the second division leave only whole seconds right.
theorem timestamp_floor_exact (blob : Blob) (long : 2 ≤ blob.length) (fits : bigEndian blob / 4096 < 2^31) :
    (timestampVisitor (.blob blob) = .ok (bigEndian blob * 1000000 / 4096 : Nat) ↔ bigEndian blob % 4096 = 0) ∧
    ∀ time : Int, 0 ≤ time → totalSeconds time < 2^31 → timestampBytes time = blob →
      ((∃ read, timestampVisitor (.blob blob) = .ok read ∧ WithinTick read time) ↔
        ¬Carries time ∧ (time.tmod 1000000 ≤ 244 ∨ 999878 ≤ time.tmod 1000000)) := by
  constructor
  · have floor : bigEndian blob * 1000000 / 4096 =
        bigEndian blob / 4096 * 1000000 + bigEndian blob % 4096 * 1000000 / 4096 := by omega
    have exactly := fraction_floor (Nat.mod_lt (bigEndian blob) (by omega : 0 < 4096))
    rw [timestamp_read long fits,floor,← exactly,Except.ok.injEq]
    omega
  · intro time past short encoded
    subst encoded
    lift time to Nat using past
    have seconds := totalSeconds_nat time
    have within := encoded_within time (by omega)
    rw [microseconds_nat,within]
    exact and_congr_right (fun _ => by omega)

theorem timestamp_floor_half :
    (timestampVisitor (.blob [0x18,0x00]) = .ok (bigEndian [0x18,0x00] * 1000000 / 4096 : Nat) ↔
      bigEndian [0x18,0x00] % 4096 = 0) ∧
    ((∃ read, timestampVisitor (.blob [0x18,0x00]) = .ok read ∧ WithinTick read 1500000) ↔
      ¬Carries 1500000 ∧ ((1500000 : Int).tmod 1000000 ≤ 244 ∨ 999878 ≤ (1500000 : Int).tmod 1000000)) := by
  have exactly := timestamp_floor_exact [0x18,0x00] (by decide) (by decide)
  exact ⟨exactly.1,exactly.2 1500000 (by decide) (by decide) (by decide)⟩

-- One and a half seconds come back as one second and half a millisecond.
theorem half_second_lost : timestampVisitor (.blob [0x18,0x00]) = .ok 1000500 ∧
    bigEndian [0x18,0x00] * 1000000 / 4096 = 1500000 ∧ timestampBytes 1500000 = [0x18,0x00] ∧
    ¬WithinTick 1000500 1500000 := by
  have apart : ¬(1000500 - 1500000 : Int).natAbs * 4096 ≤ 1000000 := by decide
  have long : 2 ≤ ([0x18,0x00] : Blob).length := by decide
  have read := timestamp_read long (by decide)
  exact ⟨read.trans (congrArg Except.ok (by decide)),by decide,by decide,apart⟩

-- A numeric field as its readers take it: one block, given to the number visitor.
def readNumber (std : Standard) (bytes : Blob) : Except Exception Nat := do
  let (block,_) ← parse std bytes
  nonNegativeIntegerVisitor block

theorem element_number {number : Nat} (small : number < 2^32) :
    Element (.udata (decimal number)) (appendNumber number) := by
  have short := Interest.decimal_length small
  rw [appendNumber,write_all short]
  exact element_udata (Nat.mod_eq_of_lt short).symm

-- The number is read into an `int32_t`, which stops at its greatest value.
theorem number_saturates (number : Nat) :
    nonNegativeIntegerVisitor (.udata (decimal number)) = .ok (min number (2^31 - 1)) := by
  have parsed : nonNegativeIntegerOf (decimal number) = .ok (min number (2^31 - 1)) := by
    simp only [nonNegativeIntegerOf,readInt32_decimal]
    rw [if_neg (by omega)]
    exact congrArg Except.ok (by omega)
  simp only [nonNegativeIntegerVisitor,noArguVisit,parsed,bind,Except.bind]
  rfl

theorem readNumber_appended (std : Standard) (number : UInt32) :
    readNumber std (appendNumber number.toNat) = .ok (min number.toNat (2^31 - 1)) := by
  have parsed := parse_complete std (element_number number.toNat_lt).encodes []
  rw [List.append_nil] at parsed
  rw [readNumber,parsed]
  exact number_saturates number.toNat

theorem number_roundtrip_exact (std : Standard) (number : UInt32) :
    readNumber std (appendNumber number.toNat) = .ok number.toNat ↔ number.toNat < 2^31 := by
  rw [readNumber_appended,Except.ok.injEq]
  omega

theorem number_halved : readNumber .cxx98 (appendNumber 4294967295) = .ok 2147483647 ∧
    readNumber .cxx11 (appendNumber 4294967295) = .ok 2147483647 :=
  ⟨readNumber_appended .cxx98 4294967295,readNumber_appended .cxx11 4294967295⟩

end NdnCxx.Wire
