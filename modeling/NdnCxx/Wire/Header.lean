import Mathlib.Data.Nat.Digits.Lemmas
import NdnCxx.Stream

namespace NdnCxx.Wire

-- `ndn_tt`, declared with the same tokens in the same order by the parser and by
-- the stream encoder.
inductive TokenType where
  | ext
  | tag
  | dtag
  | attr
  | dattr
  | blob
  | udata
  | noToken
  deriving DecidableEq, Repr

namespace TokenType

def code : TokenType → Nat
  | .ext => 0
  | .tag => 1
  | .dtag => 2
  | .attr => 3
  | .dattr => 4
  | .blob => 5
  | .udata => 6
  | .noToken => 7

def ofCode (code : Nat) : TokenType :=
  match code % 8 with
  | 0 => .ext
  | 1 => .tag
  | 2 => .dtag
  | 3 => .attr
  | 4 => .dattr
  | 5 => .blob
  | 6 => .udata
  | _ => .noToken

theorem ofCode_code (tt : TokenType) : ofCode tt.code = tt := by cases tt <;> rfl

theorem code_lt (tt : TokenType) : tt.code < 8 := by cases tt <;> decide

end TokenType

def ndnClose : Nat := 0

def ndnCloseTag : Nat := 0

-- The buffer is filled from its end. A shift strictly lowers a non-zero value,
-- so the value itself bounds the turns of the loop.
def headerBuffer (close : Nat) : Nat → Nat → Blob → Blob
  | 0,_,p => p
  | fuel+1,val,p =>
    if val = 0 then p
    else headerBuffer close fuel (val >>> 7) (UInt8.ofNat ((val % 256 &&& 0x7F) ||| close) :: p)

def blockHeader (close val tt : Nat) : Blob :=
  let last := UInt8.ofNat ((0x80 &&& (0xFF - close)) ||| ((val &&& 15) <<< 3) ||| (7 &&& tt))
  headerBuffer close (val >>> 4) (val >>> 4) [last]

def appendBlockHeader (val tt : Nat) : Blob := blockHeader ndnClose val tt

def appendCloser : Blob := [UInt8.ofNat ndnClose]

def Ndnb.appendBlockHeader (val : Nat) (tt : TokenType) : Blob := blockHeader ndnCloseTag val tt.code

-- The header loop of `Block::ParseBlock`, on 32-bit values.
def headerLoop : Nat → Nat → UInt8 → InputIterator → Option (Nat × UInt8 × InputIterator)
  | 0,_,_,_ => none
  | fuel+1,value,byte,s =>
    if !s.isEnd && byte &&& 0x80 == 0 then
      headerLoop fuel ((value <<< 7 + byte.toNat) % 2^32) s.readU8.1 s.readU8.2
    else some (value,byte,s)

-- The exception object built after the loop is never thrown, so the header of an
-- ended stream goes on to the switch.
def readHeader (s : InputIterator) : Option (Nat × TokenType × InputIterator) :=
  (headerLoop (s.rest.length+2) 0 0 s).map fun (value,byte,after) =>
    ((value <<< 4 + ((byte &&& 0x7F) >>> 3).toNat) % 2^32,.ofCode (byte &&& 7).toNat,after)

def highValue (value : Nat) (high : Blob) : Nat :=
  high.foldl (fun value byte => (value <<< 7 + byte.toNat) % 2^32) value

-- What the reader takes for a header: any number of bytes without the top bit,
-- leading zeros included, then one byte with it.
def Header (value : Nat) (tt : TokenType) (bytes : Blob) : Prop :=
  ∃ (high : Blob) (last : UInt8), bytes = high ++ [last] ∧ (∀ byte ∈ high, byte < 128) ∧ ¬last < 128 ∧
    value = (highValue 0 high <<< 4 + ((last &&& 0x7F) >>> 3).toNat) % 2^32 ∧ tt = .ofCode (last &&& 7).toNat

set_option maxRecDepth 2000 in
theorem byte_facts (byte : UInt8) :
    ((byte &&& 0x80 == 0) = decide (byte < 128)) ∧ ((byte &&& 0x7F) >>> 3).toNat = byte.toNat % 128 / 8 ∧
      (byte &&& 7).toNat = byte.toNat % 8 := by
  have all : ∀ n : Fin 256, ((UInt8.ofFin n &&& 0x80 == 0) = decide (UInt8.ofFin n < 128)) ∧
      ((UInt8.ofFin n &&& 0x7F) >>> 3).toNat = n.val % 128 / 8 ∧ (UInt8.ofFin n &&& 7).toNat = n.val % 8 := by
    decide
  exact all byte.toFin

theorem loop_step {s : InputIterator} {byte : UInt8} (fuel value : Nat) (running : s.isEnd = false)
    (small : byte < 128) :
    headerLoop (fuel+1) value byte s =
      headerLoop fuel ((value <<< 7 + byte.toNat) % 2^32) s.readU8.1 s.readU8.2 := by
  rw [headerLoop,if_pos (by simp [running,(byte_facts byte).1,small])]

theorem loop_stop {s : InputIterator} {byte : UInt8} (fuel value : Nat) (stop : ¬byte < 128) :
    headerLoop (fuel+1) value byte s = some (value,byte,s) := by
  rw [headerLoop,if_neg (by simp [(byte_facts byte).1,stop])]

-- The loop runs through the high bytes and stops at what is read behind them.
theorem loop_stops {last : UInt8} (stop : ¬last < 128) (tail : Blob) (after : Blob → InputIterator)
    (reads : ∀ past, (InputIterator.cursor past tail).readU8 = (last,after past)) (high : Blob)
    (low : ∀ byte ∈ high, byte < 128) :
    ∀ fuel value byte past, high.length + 2 ≤ fuel → byte < 128 →
      headerLoop fuel value byte (.cursor past (high ++ tail)) =
        some (highValue value (byte :: high),last,after (high.reverse ++ past)) := by
  induction high with
  | nil =>
    intro fuel value byte past enough small
    obtain ⟨fuel,rfl⟩ := Nat.exists_eq_add_of_le' enough
    rw [List.nil_append]
    refine (loop_step (fuel+1) value rfl small).trans ?_
    rw [reads]
    exact loop_stop fuel _ stop
  | cons next high ih =>
    intro fuel value byte past enough small
    obtain ⟨fuel,rfl⟩ := Nat.exists_eq_add_of_le' enough
    have following := ih (fun other member => low other (List.mem_cons_of_mem _ member)) (fuel + high.length + 2)
      ((value <<< 7 + byte.toNat) % 2^32) next (next :: past) (by omega) (low next List.mem_cons_self)
    rw [List.reverse_cons,List.append_assoc]
    exact (loop_step (fuel + high.length + 2) value rfl small).trans following

theorem loop_high {last : UInt8} (stop : ¬last < 128) (rest : Blob) (high : Blob) (low : ∀ byte ∈ high, byte < 128)
    (fuel value : Nat) (byte : UInt8) (past : Blob) (enough : high.length + 2 ≤ fuel) (small : byte < 128) :
    headerLoop fuel value byte (.cursor past (high ++ last :: rest)) =
      some (highValue value (byte :: high),last,.cursor (last :: (high.reverse ++ past)) rest) :=
  loop_stops stop (last :: rest) (fun past => .cursor (last :: past) rest) (fun _ => rfl) high low fuel value byte past
    enough small

theorem loop_low (high : Blob) (low : ∀ byte ∈ high, byte < 128) (fuel value : Nat) (byte : UInt8) (past : Blob)
    (enough : high.length + 2 ≤ fuel) (small : byte < 128) :
    headerLoop fuel value byte (.cursor past high) =
      some (highValue value (byte :: high),0xFF,⟨high.reverse ++ past,[],true,true⟩) := by
  have ended := loop_stops (show ¬(0xFF : UInt8) < 128 by decide) [] (fun past => ⟨past,[],true,true⟩) (fun _ => rfl)
    high low fuel value byte past enough small
  rwa [List.append_nil] at ended

theorem readHeader_complete {value : Nat} {tt : TokenType} {bytes : Blob} (header : Header value tt bytes)
    (past rest : Blob) :
    readHeader (.cursor past (bytes ++ rest)) = some (value,tt,.cursor (bytes.reverse ++ past) rest) := by
  obtain ⟨high,last,rfl,low,stop,rfl,rfl⟩ := header
  have loop := loop_high stop rest high low ((high ++ last :: rest).length + 2) 0 0 past (by simp) (by decide)
  simp only [List.append_assoc,List.reverse_append,List.reverse_singleton,List.cons_append]
  exact congrArg (Option.map _) loop

-- Either a whole header stands in front, or the input ran out in its high bytes;
-- the fabricated last byte is then no token.
theorem readHeader_cases (past rest : Blob) :
    (∃ bytes tail value tt, rest = bytes ++ tail ∧ Header value tt bytes ∧
      readHeader (.cursor past rest) = some (value,tt,.cursor (bytes.reverse ++ past) tail)) ∨
    (∃ value after, (∀ byte ∈ rest, byte < 128) ∧
      readHeader (.cursor past rest) = some (value,.noToken,after)) := by
  have split : (∀ byte ∈ rest, byte < 128) ∨
      ∃ high last tail, rest = high ++ last :: tail ∧ (∀ byte ∈ high, byte < 128) ∧ ¬last < 128 := by
    induction rest with
    | nil => exact .inl (by simp)
    | cons byte rest ih =>
      by_cases small : byte < 128
      · rcases ih with low | ⟨high,last,tail,rfl,low,stop⟩
        · exact .inl (List.forall_mem_cons.mpr ⟨small,low⟩)
        · exact .inr ⟨byte :: high,last,tail,rfl,List.forall_mem_cons.mpr ⟨small,low⟩,stop⟩
      · exact .inr ⟨[],byte,rest,rfl,by simp,small⟩
  rcases split with low | ⟨high,last,tail,rfl,low,stop⟩
  · right
    have loop := loop_low rest low (rest.length + 2) 0 0 past le_rfl (by decide)
    exact ⟨_,_,low,congrArg (Option.map _) loop⟩
  · left
    have header : Header _ _ (high ++ [last]) := ⟨high,last,rfl,low,stop,rfl,rfl⟩
    exact ⟨high ++ [last],tail,_,_,by simp,header,by simpa using readHeader_complete header past tail⟩

theorem lowByte (val : Nat) :
    UInt8.ofNat ((val % 256 &&& 0x7F) ||| ndnClose) = UInt8.ofNat (val % 128) ∧
      (UInt8.ofNat (val % 128)).toNat = val % 128 := by
  have masked : val % 256 &&& 0x7F = val % 128 := by
    rw [show 0x7F = 2^7 - 1 from rfl,Nat.and_two_pow_sub_one_eq_mod]
    omega
  constructor
  · rw [masked,ndnClose,Nat.or_zero]
  · rw [UInt8.toNat_ofNat']
    omega

-- The bytes in front of the last one of a header: the base-128 digits of the value.
def sevenBits (val : Nat) : Blob := ((Nat.digits 128 val).map UInt8.ofNat).reverse

theorem sevenBits_step {val : Nat} (nonzero : val ≠ 0) :
    sevenBits val = sevenBits (val / 128) ++ [UInt8.ofNat (val % 128)] := by
  rw [sevenBits,Nat.digits_def' (by decide) (Nat.pos_of_ne_zero nonzero),List.map_cons,List.reverse_cons,sevenBits]

theorem buffer_sevenBits (fuel val : Nat) (p : Blob) (enough : val ≤ fuel) :
    headerBuffer ndnClose fuel val p = sevenBits val ++ p := by
  induction fuel generalizing val p with
  | zero =>
    cases Nat.le_zero.mp enough
    rfl
  | succ fuel ih =>
    unfold headerBuffer
    split
    · rename_i zero
      simp [zero,sevenBits]
    · rename_i nonzero
      have shifted : val >>> 7 = val / 128 := Nat.shiftRight_eq_div_pow val 7
      rw [(lowByte val).1,shifted,ih _ _ (by omega),sevenBits_step nonzero,List.append_assoc,List.singleton_append]

theorem sevenBits_digit {val digit : Nat} (known : digit ∈ Nat.digits 128 val) :
    digit < 128 ∧ (UInt8.ofNat digit).toNat = digit := by
  have small := Nat.digits_lt_base (by decide : 1 < 128) known
  exact ⟨small,UInt8.toNat_ofNat_of_lt (by show digit < 256; omega)⟩

theorem sevenBits_low (val : Nat) : ∀ byte ∈ sevenBits val, byte < 128 := by
  intro byte member
  obtain ⟨digit,known,rfl⟩ := List.mem_map.mp (List.mem_reverse.mp member)
  obtain ⟨small,value⟩ := sevenBits_digit known
  rw [UInt8.lt_iff_toNat_lt,value]
  exact small

theorem sevenBits_value (val : Nat) : highValue 0 (sevenBits val) = val % 2^32 := by
  induction val using Nat.strong_induction_on with
  | h val ih =>
    by_cases zero : val = 0
    · subst zero
      rfl
    · have above := ih (val / 128) (by omega)
      rw [highValue] at above
      rw [sevenBits_step zero,highValue,List.foldl_append,above,List.foldl_cons,List.foldl_nil,(lowByte val).2,
        Nat.shiftLeft_eq]
      omega

theorem sevenBits_first (val : Nat) : (sevenBits val).head? ≠ some 0 := by
  intro starts
  rw [sevenBits,List.head?_reverse,List.getLast?_map] at starts
  obtain ⟨digit,last,byte⟩ := Option.map_eq_some_iff.mp starts
  have known := List.mem_of_getLast? last
  have filled := Nat.digits_ne_nil_iff_ne_zero.mp (List.ne_nil_of_mem known)
  have top : digit = 0 := by
    have value := (sevenBits_digit known).2
    rw [byte] at value
    exact value.symm
  apply Nat.getLast_digit_ne_zero 128 filled
  rw [(List.getLast_eq_iff_getLast?_eq_some _).mpr last,top]

theorem header_sevenBits (val : Nat) (tt : TokenType) : appendBlockHeader val tt.code = sevenBits (val >>> 4) ++
    [UInt8.ofNat ((0x80 &&& (0xFF - ndnClose)) ||| ((val &&& 15) <<< 3) ||| (7 &&& tt.code))] :=
  buffer_sevenBits _ _ _ le_rfl

theorem lastByte (val : Nat) (tt : TokenType) :
    ∃ last : UInt8, last = UInt8.ofNat ((0x80 &&& (0xFF - ndnClose)) ||| ((val &&& 15) <<< 3) ||| (7 &&& tt.code)) ∧
      ¬last < 128 ∧ ((last &&& 0x7F) >>> 3).toNat = val % 16 ∧ TokenType.ofCode (last &&& 7).toNat = tt := by
  have all : ∀ digit : Fin 16, ∀ token : Fin 8,
      ((0x80 &&& (0xFF - ndnClose)) ||| (digit.val <<< 3) ||| (7 &&& token.val)) = 128 + 8 * digit.val + token.val := by
    decide
  have digit : val &&& 15 = val % 16 := Nat.and_two_pow_sub_one_eq_mod val 4
  have packed := all ⟨val % 16,Nat.mod_lt _ (by decide)⟩ ⟨tt.code,tt.code_lt⟩
  have token := tt.code_lt
  rw [digit]
  simp only at packed
  rw [packed]
  have number : (UInt8.ofNat (128 + 8 * (val % 16) + tt.code)).toNat = 128 + 8 * (val % 16) + tt.code := by
    rw [UInt8.toNat_ofNat']
    omega
  refine ⟨_,rfl,?_,?_,?_⟩
  · rw [UInt8.lt_iff_toNat_lt,number]
    exact not_lt.mpr (by show 128 ≤ _; omega)
  · rw [(byte_facts _).2.1,number]
    omega
  · rw [(byte_facts _).2.2,number]
    convert tt.ofCode_code using 2
    omega

-- Longer values are written whole and read back modulo 2^32.
theorem header_wraps (val : Nat) (tt : TokenType) : Header (val % 2^32) tt (appendBlockHeader val tt.code) := by
  obtain ⟨last,same,stop,digit,token⟩ := lastByte val tt
  refine ⟨sevenBits (val >>> 4),last,by rw [header_sevenBits,same],sevenBits_low _,stop,?_,token.symm⟩
  have quotient : val >>> 4 = val / 16 := Nat.shiftRight_eq_div_pow val 4
  rw [digit,sevenBits_value,quotient,Nat.shiftLeft_eq]
  omega

theorem header_encodes {val : Nat} (small : val < 2^32) (tt : TokenType) :
    Header val tt (appendBlockHeader val tt.code) := by
  have wraps := header_wraps val tt
  rwa [Nat.mod_eq_of_lt small] at wraps

theorem header_first (val : Nat) (tt : TokenType) :
    ∃ byte rest, appendBlockHeader val tt.code = byte :: rest ∧ byte ≠ 0 := by
  have first := sevenBits_first (val >>> 4)
  obtain ⟨last,same,stop,_,_⟩ := lastByte val tt
  rw [header_sevenBits,← same]
  cases high : sevenBits (val >>> 4) with
  | nil => exact ⟨last,[],rfl,fun zero => stop (by rw [zero]; decide)⟩
  | cons byte high' =>
    rw [high] at first
    exact ⟨byte,_,rfl,fun zero => first (by rw [zero]; rfl)⟩

end NdnCxx.Wire
