import NdnCxx.ComponentNumber

namespace NdnCxx.Der
open Component (digits_bigEndian map_toNat_inj bigEndian_lt)

-- The one length field of the distinguished encoding: the short form where it can hold
-- the length, else a count and that many bytes, the first of them not zero.
inductive Distinguished : Blob → Nat → Prop where
  | short (l : UInt8) : l.toNat < 128 → Distinguished [l] l.toNat
  | long (l first : UInt8) (bytes : Blob) : first ≠ 0 → l.toNat = 128 + (first :: bytes).length →
      128 ≤ bigEndian (first :: bytes) → Distinguished (l :: first :: bytes) (bigEndian (first :: bytes))

namespace Distinguished

theorem declares {field : Blob} {n : Nat} (distinguished : Distinguished field n) : LengthField field n := by
  cases distinguished with
  | short l low => exact .short l low
  | long l first bytes nonzero count large =>
    refine .long l (first :: bytes) (by omega) ?_
    rw [List.length_cons] at count ⊢
    omega

-- Bytes without a leading zero are the digits of their value.
theorem unique {field other : Blob} {n : Nat} (distinguished : Distinguished field n) (others : Distinguished other n) :
    field = other := by
  generalize same : n = m at others
  cases distinguished with
  | short l low =>
    cases others with
    | short k _ => rw [UInt8.toNat_inj.mp same]
    | long => omega
  | long l first bytes nonzero count large =>
    cases others with
    | short => omega
    | long k start more positive turns =>
      have digits := congrArg (Nat.digits 256) same
      rw [digits_bigEndian (by simpa using nonzero),digits_bigEndian (by simpa using positive)] at digits
      have bodies : first :: bytes = start :: more := List.reverse_injective (map_toNat_inj digits)
      have counts : l = k := by
        apply UInt8.toNat_inj.mp
        rw [count,turns,bodies]
      rw [counts,bodies]

-- No other field for the length is shorter.
theorem shortest {field other : Blob} {n : Nat} (distinguished : Distinguished field n) (others : LengthField other n) :
    field.length ≤ other.length := by
  generalize same : n = m at others
  cases distinguished with
  | short => exact others.nonempty
  | long l first bytes nonzero count large =>
    cases others with
    | short => omega
    | long k more high turns =>
      have positive : 0 < first.toNat := Nat.pos_of_ne_zero (fun zero => nonzero (UInt8.toNat_inj.mp zero))
      have lower : 256^bytes.length ≤ bigEndian (first :: bytes) := by
        rw [bigEndian_cons]
        exact Nat.le_add_right_of_le (Nat.le_mul_of_pos_left _ positive)
      have upper : bigEndian (first :: bytes) < 256^more.length := by
        rw [same]
        exact bigEndian_lt more
      have fewer : bytes.length < more.length := (Nat.pow_lt_pow_iff_right (by decide)).mp (lower.trans_lt upper)
      simp only [List.length_cons]
      omega

end Distinguished

-- The last byte put in front is the first one of the value that is not zero.
theorem sizeBytes_leading (turns val : Nat) (p : Blob) (positive : 0 < val) (fits : val < 256^turns) :
    ∃ first bytes, sizeBytes turns val p = first :: bytes ∧ first ≠ 0 := by
  induction turns generalizing val p with
  | zero => omega
  | succ turns ih =>
    have shift : val >>> 8 = val / 256 := by simp [Nat.shiftRight_eq_div_pow]
    rw [sizeBytes,if_neg positive.ne',shift]
    rcases Nat.eq_zero_or_pos (val / 256) with last | more
    · have low : val < 256 := by omega
      have mask : val &&& 0xFF = val % 256 := Nat.and_two_pow_sub_one_eq_mod val 8
      have kept : (UInt8.ofNat (val &&& 0xFF)).toNat = val := by
        rw [mask,UInt8.toNat_ofNat']
        omega
      refine ⟨UInt8.ofNat (val &&& 0xFF),p,?_,?_⟩
      · rw [last]
        cases turns <;> rfl
      · intro zero
        rw [zero] at kept
        exact positive.ne kept
    · apply ih _ _ more
      rw [pow_succ] at fits
      omega

theorem sizeField_distinguished {size : Nat} (small : size < 2^31) : Distinguished (sizeField size) size ↔ size ≠ 127 := by
  have declares := sizeField_declares small
  constructor
  · rintro distinguished rfl
    have short := distinguished.unique (.short 127 (by decide))
    exact absurd short (by decide)
  · intro apart
    rcases Nat.lt_or_ge size 127 with low | high
    · have byte : (UInt8.ofNat size).toNat = size := by
        rw [UInt8.toNat_ofNat']
        omega
      have short := Distinguished.short (UInt8.ofNat size) (by omega)
      rw [byte] at short
      rwa [sizeField,if_neg (by omega)]
    · have most : (sizeBytes 4 size []).length ≤ 4 := by simpa using (sizeBytes_length 4 size []).2
      have value : bigEndian (sizeBytes 4 size []) = size := by
        rw [sizeBytes_value 4 size [] (by omega)]
        simp [bigEndian]
      obtain ⟨first,bytes,leading,nonzero⟩ := sizeBytes_leading 4 size [] (by omega) (by omega)
      have count := countByte_value most
      rw [leading] at value count
      have long := Distinguished.long (UInt8.ofNat (0x80 ||| (first :: bytes).length)) first bytes nonzero count (by omega)
      rw [value] at long
      rwa [sizeField,if_pos high,leading]

-- The header of a value of `n` bytes: it can be written, in the one form there is, and
-- whatever follows it, it is read back to its last byte.
def CanonicalHeader (type : UInt8) (n : Nat) : Prop :=
  ∃ field, encodeHeader type n = .ok (type :: field) ∧ Distinguished field n ∧
    (∀ other, Distinguished other n → other = field) ∧
    ∀ past rest, decodeHeader (.cursor past (type :: (field ++ rest))) =
      ((n : Int),type :: field,.cursor ((type :: field).reverse ++ past) rest)

theorem header_read (type : UInt8) {n : Nat} (small : n < 2^31) (past rest : Blob) :
    decodeHeader (.cursor past (type :: (sizeField n ++ rest))) =
      ((n : Int),type :: sizeField n,.cursor ((type :: sizeField n).reverse ++ past) rest) := by
  rw [decodeHeader_field (sizeField_declares small),Wire.int32_small (by omega) (by omega)]

-- 127 takes two bytes where one is enough; all other headers are the one form there is,
-- and every header is read back.
theorem length_header_canonical (type : UInt8) {n : Nat} (small : n < 2^31) :
    (CanonicalHeader type n ↔ n ≠ 127) ∧ ∃ field, encodeHeader type n = .ok (type :: field) ∧
      ∀ past rest, decodeHeader (.cursor past (type :: (field ++ rest))) =
        ((n : Int),type :: field,.cursor ((type :: field).reverse ++ past) rest) := by
  refine ⟨?_,sizeField n,encodeHeader_nat type n,header_read type small⟩
  rw [← sizeField_distinguished small]
  constructor
  · rintro ⟨field,written,distinguished,_,_⟩
    rw [encodeHeader_nat] at written
    cases written
    exact distinguished
  · intro distinguished
    exact ⟨sizeField n,encodeHeader_nat type n,distinguished,fun _ others => others.unique distinguished,header_read type small⟩

theorem length_header_canonical_128 : encodeHeader 4 128 = .ok [4,0x81,0x80] ∧ CanonicalHeader 4 128 :=
  ⟨by decide,(length_header_canonical 4 (by decide)).1.mpr (by decide)⟩

theorem length_127_two_bytes : encodeHeader 4 127 = .ok [4,0x81,0x7F] ∧ Distinguished [0x7F] 127 ∧ ¬CanonicalHeader 4 127 := by
  have short : Distinguished [0x7F] 127 := .short 0x7F (by decide)
  refine ⟨by decide,short,?_⟩
  rintro ⟨field,written,distinguished,_,_⟩
  have form := distinguished.unique short
  subst form
  exact absurd written (by decide)

end NdnCxx.Der
