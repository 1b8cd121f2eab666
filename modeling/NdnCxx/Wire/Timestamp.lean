import Mathlib.Data.Rat.Floor
import Mathlib.Algebra.Order.Round
import Mathlib.Tactic.FieldSimp
import NdnCxx.Der.Header

namespace NdnCxx.Wire
open Der (bigEndian bigEndian_cons bigEndian_concat foldl_bigEndian)

-- The stream encoder of `ndnb.cc` writes the same payload under its own header.
def Ndnb.appendTimestampBlob (time : Int) : Blob :=
  Ndnb.appendBlockHeader (requiredBytes time) .blob ++ timestampBytes time

-- The last second before the sixteen-second split, at a fraction that rounds up to
-- a whole second.
def Carries (time : Int) : Prop := totalSeconds time % 16 = 15 ∧ 999878 ≤ time.tmod 1000000

theorem bigEndian_append (front back : Blob) :
    bigEndian (front ++ back) = bigEndian front * 256^back.length + bigEndian back := by
  rw [bigEndian,List.foldl_append,foldl_bigEndian]
  rfl

-- Bytes of a shifted number, the most significant first.
theorem secondsBytes_value (count ts : Nat) : bigEndian (secondsBytes count (ts : Int)) = ts % 256^count := by
  induction count generalizing ts with
  | zero => simp [secondsBytes,bigEndian,Nat.mod_one]
  | succ count ih =>
    rw [secondsBytes_succ,bigEndian_concat,ih,putChar_nat,pow_succ',Nat.mod_mul]
    ring

-- The fraction is added to the low four bits of the second, and only two bytes of
-- the sum are written.
theorem timestamp_value (time : Nat) (short : time / 1000000 < 2^31) :
    bigEndian (timestampBytes time) = time / 1000000 / 16 * 65536 +
      (time / 1000000 % 16 * 4096 + (time % 1000000 * 1600 + 195312) / 390625) % 65536 := by
  have seconds := totalSeconds_nat time
  have high : ((time / 1000000 : Nat) : Int) >>> (4 : Nat) = ((time / 1000000 / 16 : Nat) : Int) := by
    rw [← Int.natCast_shiftRight,Nat.shiftRight_eq_div_pow]
  have nanoseconds : (((time : Int) * 1000).tmod 1000000000).tdiv 5 * 8 + 195312 =
      ((time % 1000000 * 1600 + 195312 : Nat) : Int) := by
    have whole : ((time : Int) * 1000).tmod 1000000000 = ((time * 1000 % 1000000000 : Nat) : Int) := by
      rw [Int.ofNat_tmod]
      rfl
    have fifth : ((time * 1000 % 1000000000 : Nat) : Int).tdiv 5 = ((time * 1000 % 1000000000 / 5 : Nat) : Int) :=
      (Int.ofNat_tdiv _ 5).symm
    rw [whole,fifth]
    omega
  have fraction : ((time / 1000000 : Nat) : Int) % 16 * 4096 +
        ((((time : Int) * 1000).tmod 1000000000).tdiv 5 * 8 + 195312).tdiv 390625 =
      ((time / 1000000 % 16 * 4096 + (time % 1000000 * 1600 + 195312) / 390625 : Nat) : Int) := by
    have rounded := Int.ofNat_tdiv (time % 1000000 * 1600 + 195312) 390625
    rw [nanoseconds,← Nat.cast_ofNat (R := Int) (n := 390625),← rounded]
    push_cast
    rfl
  have covered := turns_fit 5 (time / 1000000 / 16) (by omega)
  have above := secondsBytes_value (timestampTurns 5 ((time / 1000000 / 16 : Nat) : Int)) (time / 1000000 / 16)
  rw [secondsBytes,Nat.mod_eq_of_lt covered] at above
  have split : ∀ value : Nat, bigEndian [putChar ((value : Int) >>> (8 : Nat)),putChar (value : Int)] = value % 65536 := by
    intro value
    rw [shift_byte,bigEndian_cons,bigEndian_cons,putChar_nat,putChar_nat]
    simp only [bigEndian,List.foldl_nil,List.length_cons,List.length_nil]
    omega
  have offset : ∀ turns i, 2 + turns - 3 - i = turns - 1 - i := by omega
  rw [timestampBytes,requiredBytes,seconds,high,fraction,bigEndian_append,split,Nat.add_sub_cancel_left]
  simp only [offset,above,List.length_cons,List.length_nil,Nat.reduceAdd,Nat.reducePow]

theorem carries_iff (time : Nat) :
    Carries time ↔ time / 1000000 % 16 = 15 ∧ 999878 ≤ time % 1000000 := by
  rw [Carries,totalSeconds_nat,microseconds_nat]
  omega

theorem round_ticks (time : Nat) :
    round ((time : ℚ) * 4096 / 1000000) = ((time * 1600 + 195312) / 390625 : Nat) := by
  have exact : (time : ℚ) * 4096 / 1000000 + 1 / 2 = ((time * 3200 + 390625 : Int) : ℚ) / ((781250 : Nat) : ℚ) := by
    push_cast
    ring
  rw [round_eq,exact,Rat.floor_intCast_div_natCast]
  omega

-- A fraction rounds up to a whole second from 999878 microseconds on.
theorem fraction_top {microseconds : Nat} (less : microseconds < 1000000) :
    (microseconds * 1600 + 195312) / 390625 = 4096 ∧ 999878 ≤ microseconds ∨
      (microseconds * 1600 + 195312) / 390625 < 4096 ∧ microseconds < 999878 := by omega

-- What the two lost bits of the sum take away: a sixteen-second step.
theorem timestamp_ticks (time : Nat) (short : time / 1000000 < 2^31) :
    (time * 1600 + 195312) / 390625 =
      bigEndian (timestampBytes time) +
        if time / 1000000 % 16 = 15 ∧ 999878 ≤ time % 1000000 then 65536 else 0 := by
  have ticks : (time * 1600 + 195312) / 390625 = time / 1000000 * 4096 + (time % 1000000 * 1600 + 195312) / 390625 := by
    have parts : time * 1600 + 195312 = time % 1000000 * 1600 + 195312 + time / 1000000 * 4096 * 390625 := by omega
    rw [parts,Nat.add_mul_div_right _ _ (by omega),Nat.add_comm]
  have top := fraction_top (Nat.mod_lt time (by omega : 0 < 1000000))
  have halves := Nat.div_add_mod (time / 1000000) 16
  have digit := Nat.mod_lt (time / 1000000) (by omega : 0 < 16)
  rw [timestamp_value time short,ticks]
  rcases top with ⟨whole,late⟩ | ⟨part,early⟩
  · rw [whole]
    split <;> omega
  · have below : time / 1000000 % 16 * 4096 + (time % 1000000 * 1600 + 195312) / 390625 < 65536 := by omega
    rw [if_neg (by omega),Nat.mod_eq_of_lt below]
    omega

-- An interval is encoded as its rounding exactly when no carry leaves the low bytes,
-- and exactly then no shorter interval has a greater payload.
theorem timestamp_rounded (time : Int) (past : 0 ≤ time) (short : totalSeconds time < 2^31) :
    Ndnb.appendTimestampBlob time = appendTimestampBlob time ∧
      ((bigEndian (timestampBytes time) : Int) = round ((time : ℚ) * 4096 / 1000000) ↔ ¬ Carries time) ∧
      ((∀ earlier, 0 ≤ earlier → earlier ≤ time →
        bigEndian (timestampBytes earlier) ≤ bigEndian (timestampBytes time)) ↔ ¬ Carries time) := by
  refine ⟨rfl,?_⟩
  lift time to Nat using past
  have seconds : time / 1000000 < 2^31 := by
    have same := totalSeconds_nat time
    omega
  have ticks := timestamp_ticks time seconds
  rw [carries_iff]
  constructor
  · rw [Int.cast_natCast,round_ticks,ticks]
    split <;> rename_i carries <;> simp [carries]
  · constructor
    · intro monotone carries
      -- The start of the same second is encoded in full.
      have earlier := monotone ((time / 1000000 * 1000000 : Nat) : Int) (by omega) (by omega)
      have start := timestamp_ticks (time / 1000000 * 1000000) (by omega)
      rw [if_pos carries] at ticks
      rw [if_neg (by omega)] at start
      omega
    · intro plain earlier past before
      lift earlier to Nat using past
      have before : earlier ≤ time := by omega
      have first := timestamp_ticks earlier (by omega)
      rw [if_neg plain] at ticks
      have order : (earlier * 1600 + 195312) / 390625 ≤ (time * 1600 + 195312) / 390625 :=
        Nat.div_le_div_right (by omega)
      omega

theorem timestamp_rounded_at_carry :
    Ndnb.appendTimestampBlob 1999900 = appendTimestampBlob 1999900 ∧
      ((bigEndian (timestampBytes 1999900) : Int) = round (((1999900 : Int) : ℚ) * 4096 / 1000000) ↔ ¬ Carries 1999900) ∧
      ((∀ earlier, 0 ≤ earlier → earlier ≤ 1999900 →
        bigEndian (timestampBytes earlier) ≤ bigEndian (timestampBytes 1999900)) ↔ ¬ Carries 1999900) :=
  timestamp_rounded 1999900 (by decide) (by decide)

theorem timestamp_loses_carry :
    bigEndian (timestampBytes 15999900) = 0 ∧ round (((15999900 : Int) : ℚ) * 4096 / 1000000) = 65536 ∧
      bigEndian (timestampBytes 15000000) = 61440 := by
  have rounded := round_ticks 15999900
  refine ⟨by decide,?_,by decide⟩
  simpa using rounded

end NdnCxx.Wire
