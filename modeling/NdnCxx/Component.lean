import NdnCxx.Lib.DescMap

namespace NdnCxx

-- `Blob` is a `std::vector<char>`; a name component is one, with an order.
abbrev Blob := List UInt8

structure Component where
  bytes : Blob
  deriving DecidableEq, Repr

abbrev Name := List Component

-- Plain `char` is signed on the platforms this library is built for.
def signedChar (byte : UInt8) : Int :=
  if byte.toNat < 128 then byte.toNat else (byte.toNat : Int) - 256

theorem signedChar_injective : Function.Injective signedChar := by
  intro left right same
  have leftBound := left.toNat_lt
  have rightBound := right.toNat_lt
  apply UInt8.toNat_inj.mp
  unfold signedChar at same
  split at same <;> split at same <;> omega

def mismatch : Blob → Blob → Blob × Blob
  | a :: as,b :: bs => if a = b then mismatch as bs else (a :: as,b :: bs)
  | as,bs => (as,bs)

def lexicographicalCompare : Blob → Blob → Bool
  | _,[] => false
  | [],_ :: _ => true
  | a :: as,b :: bs =>
    if signedChar a < signedChar b then true
    else if signedChar b < signedChar a then false
    else lexicographicalCompare as bs

-- URI escaping. A one marks a byte that `toEscaped` writes as a percent triple.
def escapeCharacter : List Nat := [
  1,1,1,1,1,1,1,1,1,1,1,1,1,1,1,1,1,1,1,1,1,1,1,1,1,1,1,
  1,1,1,1,1,1,0,1,0,0,1,0,0,0,0,0,0,0,0,0,0,0,0,0,0,0,0,
  0,0,0,0,0,0,1,0,1,0,0,0,0,0,0,0,0,0,0,0,0,0,0,0,0,0,0,
  0,0,0,0,0,0,0,0,0,0,0,1,0,1,0,1,0,0,0,0,0,0,0,0,0,0,0,
  0,0,0,0,0,0,0,0,0,0,0,0,0,0,0,1,1,1,0,1,1,1,1,1,1,1,1,
  1,1,1,1,1,1,1,1,1,1,1,1,1,1,1,1,1,1,1,1,1,1,1,1,1,1,1,
  1,1,1,1,1,1,1,1,1,1,1,1,1,1,1,1,1,1,1,1,1,1,1,1,1,1,1,
  1,1,1,1,1,1,1,1,1,1,1,1,1,1,1,1,1,1,1,1,1,1,1,1,1,1,1,
  1,1,1,1,1,1,1,1,1,1,1,1,1,1,1,1,1,1,1,1,1,1,1,1,1,1,1,
  1,1,1,1,1,1,1,1,1,1,1,1,1]

def escapes (byte : UInt8) : Bool := escapeCharacter.getD byte.toNat 0 != 0

def lookupTable (nibble : Nat) : UInt8 :=
  if nibble < 10 then UInt8.ofNat (0x30 + nibble) else UInt8.ofNat (0x41 + (nibble - 10))

def toEscaped : Blob → Blob
  | [] => []
  | byte :: rest =>
    if escapes byte then
      0x25 :: lookupTable (byte.toNat / 16 % 16) :: lookupTable (byte.toNat % 16) :: toEscaped rest
    else byte :: toEscaped rest

namespace Component

def toUri (c : Component) : Blob := toEscaped c.bytes

def size (c : Component) : Nat := c.bytes.length

def compare (c other : Component) : Int :=
  if c.size < other.size then -1
  else if c.size > other.size then 1
  else
    let diff := mismatch c.bytes other.bytes
    if diff.1 = [] then 0
    else if lexicographicalCompare diff.1 diff.2 then -1 else 1

-- The order the comparison decides: first by size, then by signed characters.
def key (c : Component) : ℕ ×ₗ List ℤ := toLex (c.size,c.bytes.map signedChar)

theorem key_injective : Function.Injective key := by
  intro left right same
  have parts := congrArg (fun pair => (ofLex pair).2) same
  have bytes : left.bytes = right.bytes :=
    List.map_injective_iff.mpr signedChar_injective parts
  cases left; cases right; simpa using bytes

instance : LinearOrder Component := LinearOrder.lift' key key_injective

theorem lexicographicalCompare_iff (left right : Blob) :
    lexicographicalCompare left right = true ↔ left.map signedChar < right.map signedChar := by
  induction left,right using lexicographicalCompare.induct with
  | case1 left => simp [lexicographicalCompare]
  | case2 b bs => simp [lexicographicalCompare]
  | case3 a as b bs less => simp [lexicographicalCompare,less,List.cons_lt_cons_iff]
  | case4 a as b bs notLess greater =>
    simp [lexicographicalCompare,notLess,greater,List.cons_lt_cons_iff,ne_of_gt greater]
  | case5 a as b bs notLess notGreater ih =>
    have same : signedChar a = signedChar b := le_antisymm (not_lt.mp notGreater) (not_lt.mp notLess)
    simp [lexicographicalCompare,ih,same]

theorem mismatch_lt (left right : Blob) :
    (mismatch left right).1.map signedChar < (mismatch left right).2.map signedChar ↔
      left.map signedChar < right.map signedChar := by
  induction left,right using mismatch.induct with
  | case1 as b bs ih => simpa [mismatch,List.cons_lt_cons_iff] using ih
  | case2 a as b bs different => simp [mismatch,different]
  | case3 left right other => simp [mismatch]

theorem mismatch_nil {left right : Blob} (sizes : left.length = right.length) :
    (mismatch left right).1 = [] ↔ left = right := by
  induction left,right using mismatch.induct with
  | case1 as b bs ih => simpa [mismatch] using ih (by simpa using sizes)
  | case2 a as b bs different => simp [mismatch,different]
  | case3 left right other =>
    cases left with
    | nil => simp [mismatch,(List.length_eq_zero_iff.mp sizes.symm)]
    | cons a as =>
      cases right with
      | nil => simp at sizes
      | cons b bs => exact absurd rfl (other a as b bs rfl)

theorem lt_iff_key (left right : Component) : left < right ↔ left.key < right.key := Iff.rfl

theorem lt_iff (left right : Component) : left < right ↔ left.size < right.size ∨
    left.size = right.size ∧ left.bytes.map signedChar < right.bytes.map signedChar := by
  rw [lt_iff_key,key,key,Prod.Lex.toLex_lt_toLex]

-- `operator <` and `operator >` of the source are the order of the instance.
theorem compare_neg (left right : Component) : compare left right < 0 ↔ left < right := by
  rw [lt_iff]
  unfold compare
  split
  · rename_i smaller; simp [smaller]
  · rename_i notSmaller
    split
    · rename_i larger
      have apart : left.size ≠ right.size := by omega
      simp [notSmaller,apart]
    · rename_i notLarger
      have sizes : left.size = right.size := by omega
      dsimp only
      split
      · rename_i equal
        have bytes := (mismatch_nil sizes).mp equal
        simp [bytes,sizes]
      · rw [← mismatch_lt,← lexicographicalCompare_iff]
        split <;> simp_all

theorem compare_zero (left right : Component) : compare left right = 0 ↔ left = right := by
  unfold compare
  split
  · rename_i smaller
    have apart : left ≠ right := by rintro rfl; omega
    simp [apart]
  · split
    · rename_i larger
      have apart : left ≠ right := by rintro rfl; omega
      simp [apart]
    · have sizes : left.size = right.size := by omega
      dsimp only
      split
      · rename_i equal
        have bytes := (mismatch_nil sizes).mp equal
        cases left; cases right; simpa using bytes
      · rename_i different
        have apart : left ≠ right := by
          intro given
          subst given
          exact different ((mismatch_nil sizes).mpr rfl)
        split <;> simp [apart]

theorem compare_nonneg (left right : Component) : 0 ≤ compare left right ↔ right ≤ left := by
  rw [← not_lt,compare_neg,not_lt]

end Component

-- `Name::compare`; its result is the first non-zero component comparison.
def Name.compare : Name → Name → Int
  | i :: is,j :: js => if i.compare j = 0 then Name.compare is js else i.compare j
  | [],[] => 0
  | [],_ => -1
  | _,[] => 1

theorem Name.compare_zero (left right : Name) : Name.compare left right = 0 ↔ left = right := by
  induction left generalizing right with
  | nil => cases right <;> simp [Name.compare]
  | cons i left ih =>
    cases right with
    | nil => simp [Name.compare]
    | cons j right =>
      unfold Name.compare
      split
      · rename_i same
        rw [ih,(Component.compare_zero i j).mp same]
        simp
      · rename_i apart
        have different : i ≠ j := fun same => apart ((Component.compare_zero i j).mpr same)
        simp [apart,different]

end NdnCxx
