import NdnCxx.Wire.Fields

namespace NdnCxx.Der
open Wire (int32)

-- What a call can throw, with its text. `outOfFuel` is no behaviour of the program.
inductive Exception where
  | negativeLengthException (text : String)
  | derEncodingException (text : String)
  | derDecodingException (text : String)
  | outOfFuel
  deriving DecidableEq, Repr

-- The types a node without children can have; a node with children is a `DER_SEQUENCE`.
inductive DerType where
  | derBoolean
  | derInteger
  | derBitString
  | derOctetString
  | derNull
  | derObjectIdentifier
  | derPrintableString
  | derGeneralizedTime
  deriving DecidableEq, Repr

def derSequence : UInt8 := 48

namespace DerType

def code : DerType → UInt8
  | .derBoolean => 1
  | .derInteger => 2
  | .derBitString => 3
  | .derOctetString => 4
  | .derNull => 5
  | .derObjectIdentifier => 6
  | .derPrintableString => 19
  | .derGeneralizedTime => 24

-- The cases of the `switch` in `parse`, less the sequence.
def ofCode (code : UInt8) : Option DerType :=
  if code = 1 then some .derBoolean
  else if code = 2 then some .derInteger
  else if code = 3 then some .derBitString
  else if code = 4 then some .derOctetString
  else if code = 5 then some .derNull
  else if code = 6 then some .derObjectIdentifier
  else if code = 19 then some .derPrintableString
  else if code = 24 then some .derGeneralizedTime
  else none

@[simp] theorem ofCode_code (type : DerType) : ofCode type.code = some type := by cases type <;> rfl

@[simp] theorem code_ne_sequence (type : DerType) : type.code ≠ derSequence := by cases type <;> decide

theorem code_of_ofCode {code : UInt8} {type : DerType} (known : ofCode code = some type) : type.code = code := by
  unfold ofCode at known
  grind [code]

end DerType

-- The buffer is filled from its end, and an `int` has four bytes.
def sizeBytes : Nat → Nat → Blob → Blob
  | 0,_,p => p
  | turns+1,val,p => if val = 0 then p else sizeBytes turns (val >>> 8) (UInt8.ofNat (val &&& 0xFF) :: p)

def encodeHeader (type : UInt8) (size : Int) : Except Exception Blob :=
  if size ≥ 127 then
    let p := sizeBytes 4 size.toNat []
    .ok (type :: UInt8.ofNat (0x80 ||| p.length) :: p)
  else if size ≥ 0 then .ok [type,UInt8.ofNat size.toNat]
  else .error (.negativeLengthException "Negative length")

-- Signed overflow is taken to wrap.
def readSize : Nat → Int → InputIterator → Int × Blob × InputIterator
  | 0,size,s => (size,[],s)
  | lenCount+1,size,s =>
    let (byte,s) := s.readU8
    let (size,bytes,s) := readSize lenCount (int32 (size * 256 + byte.toNat)) s
    (size,byte :: bytes,s)

-- The loop tests its count after a turn, so it reads one byte even for a count of zero.
def decodeLength (type sizeLen : UInt8) (s : InputIterator) : Int × Blob × InputIterator :=
  if sizeLen &&& 0x80 = 0 then (sizeLen.toNat,[type,sizeLen],s)
  else
    let lenCount := (sizeLen &&& 0x7F).toNat
    let (size,bytes,s) := readSize (max 1 lenCount) 0 s
    (size,type :: sizeLen :: bytes,s)

def decodeHeader (start : InputIterator) : Int × Blob × InputIterator :=
  let (type,s) := start.readU8
  let (sizeLen,s) := s.readU8
  decodeLength type sizeLen s

-- The reader's side of a length field: one byte below 0x80 that is the length, or
-- a count above 0x80 and that many bytes of it, the most significant first.
def bigEndian (bytes : Blob) : Nat := bytes.foldl (fun value byte => value * 256 + byte.toNat) 0

inductive LengthField : Blob → Nat → Prop where
  | short (l : UInt8) : l.toNat < 128 → LengthField [l] l.toNat
  | long (l : UInt8) (bytes : Blob) :
      128 ≤ l.toNat → bytes.length = max 1 (l.toNat - 128) → LengthField (l :: bytes) (bigEndian bytes)

-- What `encodeHeader` writes after the type.
def sizeField (size : Nat) : Blob :=
  if size ≥ 127 then
    let p := sizeBytes 4 size []
    UInt8.ofNat (0x80 ||| p.length) :: p
  else [UInt8.ofNat size]

theorem foldl_bigEndian (value : Nat) (bytes : Blob) :
    bytes.foldl (fun value byte => value * 256 + byte.toNat) value = value * 256^bytes.length + bigEndian bytes := by
  unfold bigEndian
  induction bytes generalizing value with
  | nil => simp
  | cons byte bytes ih =>
    rw [List.foldl_cons,ih,List.foldl_cons,ih (0 * 256 + byte.toNat),List.length_cons,pow_succ]
    ring

theorem bigEndian_cons (byte : UInt8) (bytes : Blob) :
    bigEndian (byte :: bytes) = byte.toNat * 256^bytes.length + bigEndian bytes := by
  rw [bigEndian,List.foldl_cons,foldl_bigEndian]
  simp

theorem bigEndian_concat (bytes : Blob) (byte : UInt8) : bigEndian (bytes ++ [byte]) = bigEndian bytes * 256 + byte.toNat := by
  rw [bigEndian,List.foldl_append]
  rfl

theorem sizeBytes_value (turns val : Nat) (p : Blob) (fits : val < 256^turns) :
    bigEndian (sizeBytes turns val p) = val * 256^p.length + bigEndian p := by
  induction turns generalizing val p with
  | zero =>
    have zero : val = 0 := by simpa using fits
    simp [sizeBytes,zero]
  | succ turns ih =>
    unfold sizeBytes
    split
    · rename_i zero
      simp [zero]
    · have shift : val >>> 8 = val / 256 := by simp [Nat.shiftRight_eq_div_pow]
      have low : (UInt8.ofNat (val &&& 0xFF)).toNat = val % 256 := by
        have mask : val &&& 0xFF = val % 256 := Nat.and_two_pow_sub_one_eq_mod val 8
        rw [mask,UInt8.toNat_ofNat']
        omega
      rw [ih _ _ (by rw [shift]; rw [pow_succ] at fits; omega),bigEndian_cons,low,shift,List.length_cons,pow_succ]
      have split := Nat.div_add_mod val 256
      calc val / 256 * (256^p.length * 256) + (val % 256 * 256^p.length + bigEndian p)
          = (256 * (val / 256) + val % 256) * 256^p.length + bigEndian p := by ring
        _ = val * 256^p.length + bigEndian p := by rw [split]

theorem sizeBytes_length (turns val : Nat) (p : Blob) :
    p.length ≤ (sizeBytes turns val p).length ∧ (sizeBytes turns val p).length ≤ p.length + turns := by
  induction turns generalizing val p with
  | zero => simp [sizeBytes]
  | succ turns ih =>
    unfold sizeBytes
    split
    · simp
    · have bounds := ih (val >>> 8) (UInt8.ofNat (val &&& 0xFF) :: p)
      rw [List.length_cons] at bounds
      omega

theorem sizeBytes_pos (turns : Nat) {val : Nat} (p : Blob) (positive : 0 < val) :
    p.length < (sizeBytes (turns+1) val p).length := by
  have bounds := sizeBytes_length turns (val >>> 8) (UInt8.ofNat (val &&& 0xFF) :: p)
  rw [sizeBytes,if_neg (by omega)]
  simp only [List.length_cons] at bounds
  omega

theorem countByte_value {n : Nat} (most : n ≤ 4) : (UInt8.ofNat (0x80 ||| n)).toNat = 128 + n := by interval_cases n <;> rfl

theorem sizeField_declares {size : Nat} (small : size < 2^31) : LengthField (sizeField size) size := by
  unfold sizeField
  split
  · rename_i large
    have most : (sizeBytes 4 size []).length ≤ 4 := by simpa using (sizeBytes_length 4 size []).2
    have positive : 0 < (sizeBytes 4 size []).length := sizeBytes_pos 3 [] (by omega : 0 < size)
    have value := sizeBytes_value 4 size [] (by omega)
    have count := countByte_value most
    have field := LengthField.long (UInt8.ofNat (0x80 ||| (sizeBytes 4 size []).length)) (sizeBytes 4 size [])
      (by omega) (by omega)
    rw [value] at field
    simpa [bigEndian] using field
  · have low : (UInt8.ofNat size).toNat = size := by
      rw [UInt8.toNat_ofNat']
      omega
    have field := LengthField.short (UInt8.ofNat size) (by omega)
    rwa [low] at field

@[simp] theorem encodeHeader_nat (type : UInt8) (size : Nat) : encodeHeader type size = .ok (type :: sizeField size) := by
  unfold encodeHeader sizeField
  by_cases large : size ≥ 127
  · rw [if_pos (by omega),if_pos large]
    simp
  · rw [if_neg (by omega),if_pos (by omega),if_neg large]
    simp

namespace LengthField

theorem nonempty {field : Blob} {n : Nat} (declares : LengthField field n) : 0 < field.length := by
  cases declares <;> simp

-- The first byte fixes where the field ends.
theorem unique {field other rest more : Blob} {n m : Nat} (declares : LengthField field n)
    (others : LengthField other m) (same : field ++ rest = other ++ more) :
    field = other ∧ n = m ∧ rest = more := by
  cases declares with
  | short l low =>
    cases others with
    | short k below => simp_all
    | long k bytes high count =>
      simp only [List.cons_append,List.nil_append,List.cons.injEq] at same
      rw [same.1] at low
      omega
  | long l bytes high count =>
    cases others with
    | short k below =>
      simp only [List.cons_append,List.nil_append,List.cons.injEq] at same
      rw [same.1] at high
      omega
    | long k others above turns =>
      simp only [List.cons_append,List.cons.injEq] at same
      obtain ⟨rfl,tails⟩ := same
      obtain ⟨rfl,rfl⟩ := List.append_inj tails (count.trans turns.symm)
      exact ⟨rfl,rfl,rfl⟩

end LengthField

theorem int32_step (size : Int) (byte : Nat) : int32 (int32 size * 256 + byte) = int32 (size * 256 + byte) := by
  unfold int32
  rw [← Int.bmod_add_bmod,Int.bmod_mul_bmod,Int.bmod_add_bmod]

theorem longForm_iff (l : UInt8) : l &&& 0x80 = 0 ↔ l.toNat < 128 := by
  have facts := (Wire.byte_facts l).1
  have below : l < 128 ↔ l.toNat < 128 := UInt8.lt_iff_toNat_lt
  rw [← below,← beq_iff_eq,facts,decide_eq_true_iff]

theorem lenCount_eq (l : UInt8) (long : 128 ≤ l.toNat) : (l &&& 0x7F).toNat = l.toNat - 128 := by
  have bound := l.toNat_lt
  rw [UInt8.toNat_and]
  have mask : l.toNat &&& 0x7F = l.toNat % 128 := Nat.and_two_pow_sub_one_eq_mod l.toNat 7
  simp only [UInt8.reduceToNat,mask]
  omega

-- Whatever the stream does, the header holds a whole length field.
theorem readSize_field (lenCount : Nat) (size : Int) (s : InputIterator) :
    (readSize lenCount size s).2.1.length = lenCount ∧
      (readSize lenCount size s).1 =
        (readSize lenCount size s).2.1.foldl (fun size byte => int32 (size * 256 + byte.toNat)) size := by
  induction lenCount generalizing size s with
  | zero => simp [readSize]
  | succ lenCount ih =>
    have tail := ih (int32 (size * 256 + s.readU8.1.toNat)) s.readU8.2
    simp only [readSize,List.length_cons,List.foldl_cons]
    exact ⟨by rw [tail.1],tail.2⟩

theorem foldl_int32 (size : Int) (value : Nat) (same : size = int32 value) (bytes : Blob) :
    bytes.foldl (fun size byte => int32 (size * 256 + byte.toNat)) size =
      int32 ((bytes.foldl (fun value byte => value * 256 + byte.toNat) value : Nat) : Int) := by
  induction bytes generalizing size value with
  | nil => exact same
  | cons byte bytes ih =>
    rw [List.foldl_cons,List.foldl_cons]
    apply ih
    rw [same,int32_step]
    push_cast
    rfl

theorem readSize_bytes (bytes past rest : Blob) (size : Int) :
    readSize bytes.length size (.cursor past (bytes ++ rest)) =
      (bytes.foldl (fun size byte => int32 (size * 256 + byte.toNat)) size,bytes,.cursor (bytes.reverse ++ past) rest) := by
  induction bytes generalizing past size with
  | nil => simp [readSize]
  | cons byte bytes ih =>
    simp only [List.length_cons,readSize,List.cons_append,InputIterator.readU8_cons,ih]
    simp

theorem decodeHeader_field {field : Blob} {n : Nat} (declares : LengthField field n) (type : UInt8) (past rest : Blob) :
    decodeHeader (.cursor past (type :: (field ++ rest))) =
      (int32 n,type :: field,.cursor ((type :: field).reverse ++ past) rest) := by
  cases declares with
  | short l low =>
    simp only [decodeHeader,InputIterator.readU8_cons,List.cons_append,List.nil_append]
    rw [decodeLength,if_pos ((longForm_iff l).mpr low),Wire.int32_small (by omega) (by omega)]
    simp
  | long l bytes high count =>
    simp only [decodeHeader,InputIterator.readU8_cons,List.cons_append]
    rw [decodeLength,if_neg (fun clear => absurd ((longForm_iff l).mp clear) (by omega)),lenCount_eq l high]
    simp only [← count,readSize_bytes,foldl_int32 0 0 rfl]
    simp [bigEndian]

theorem decodeHeader_parts (s : InputIterator) :
    ∃ field n,LengthField field n ∧ (decodeHeader s).1 = int32 n ∧ (decodeHeader s).2.1 = s.readU8.1 :: field := by
  unfold decodeHeader decodeLength
  by_cases short : s.readU8.2.readU8.1 &&& 0x80 = 0
  · have low := (longForm_iff _).mp short
    refine ⟨_,_,LengthField.short _ low,?_⟩
    simp only [short,if_true]
    exact ⟨(Wire.int32_small (by omega) (by omega)).symm,trivial⟩
  · have high : 128 ≤ s.readU8.2.readU8.1.toNat := by
      rw [longForm_iff] at short
      omega
    have loop := readSize_field (max 1 (s.readU8.2.readU8.1 &&& 0x7F).toNat) 0 s.readU8.2.readU8.2
    refine ⟨_,_,LengthField.long _ _ high (by rw [← lenCount_eq _ high]; exact loop.1),?_⟩
    simp only [short,if_false]
    exact ⟨by rw [loop.2,foldl_int32 0 0 rfl]; rfl,trivial⟩

end NdnCxx.Der
