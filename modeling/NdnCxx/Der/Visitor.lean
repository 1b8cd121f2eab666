import NdnCxx.Der.RoundTrip
import NdnCxx.Lib.Throwing

namespace NdnCxx.Der
open Wire (int32 int32_small)
open Throwing

-- What a visit can run into besides a DER exception: an index past the end of a
-- vector, a null pointer, a wrong `any_cast`, a time that boost does not read.
inductive Failure where
  | der (thrown : Exception)
  | outOfRange
  | nullDereference
  | badAnyCast
  | badTime
  deriving DecidableEq, Repr

-- boost's `to_iso_string` and `from_iso_string` on its times.
structure IsoTime (Time : Type) where
  toIsoString : Time → Blob
  fromIsoString : Blob → Except Failure Time
  WholeSecond : Time → Prop

-- A whole second prints as YYYYMMDDTHHMMSS, and parsing is the inverse of printing.
structure IsoTime.Lawful {Time : Type} (iso : IsoTime Time) : Prop where
  prints : ∀ time,iso.WholeSecond time → ∃ date clock : Blob,date.length = 8 ∧ clock.length = 6 ∧ 0x54 ∉ date ∧
    iso.toIsoString time = date ++ 0x54 :: clock
  inverse : ∀ time,iso.WholeSecond time → iso.fromIsoString (iso.toIsoString time) = .ok time

-- The values a `boost::any` of the visitors can hold.
inductive Any (Time : Type) where
  | empty
  | bool (value : Bool)
  | blob (bytes : Blob)
  | string (text : Blob)
  | blobPtr (bytes : Blob)
  | oid (integers : List Int)
  | time (value : Time)

namespace Any
variable {Time : Type}

def toBool : Any Time → Except Failure Bool
  | .bool value => .ok value
  | _ => .error .badAnyCast

def toText : Any Time → Except Failure Blob
  | .string text => .ok text
  | _ => .error .badAnyCast

def toBlobPtr : Any Time → Except Failure Blob
  | .blobPtr bytes => .ok bytes
  | _ => .error .badAnyCast

def toOid : Any Time → Except Failure (List Int)
  | .oid integers => .ok integers
  | _ => .error .badAnyCast

def toTime : Any Time → Except Failure Time
  | .time value => .ok value
  | _ => .error .badAnyCast

end Any

-- The payload from the offset on; the offset is what is left of it.
def decode128 (result : Int) : Blob → Except Failure (Int × Blob)
  | [] => .error .outOfRange
  | byte :: rest =>
    if byte &&& 0x80 ≠ 0 then decode128 (int32 (128 * result + byte.toNat - 128)) rest
    else .ok (int32 (result * 128 + byte.toNat),rest)

def decodeArcs : Nat → Blob → Except Failure (List Int)
  | 0,_ => .ok []
  | turns+1,payload =>
    if payload = [] then .ok []
    else do
      let (arc,rest) ← decode128 0 payload
      let arcs ← decodeArcs turns rest
      return arc :: arcs

-- Every turn of the loop takes a byte, so the size bounds its turns.
def decodeOid (payload : Blob) : Except Failure (List Int) :=
  match payload with
  | [] => .error .outOfRange
  | first :: rest => do
    let arcs ← decodeArcs rest.length rest
    return (signedChar first).tdiv 40 :: (signedChar first).tmod 40 :: arcs

def simpleVisitor {Time : Type} (iso : IsoTime Time) : DerNode → Except Failure (Any Time)
  | .leaf .derBoolean _ payload =>
    match payload with
    | [] => .error .outOfRange
    | first :: _ => .ok (.bool (first ≠ 0))
  | .leaf .derInteger _ payload => .ok (.blob payload)
  | .leaf .derPrintableString _ payload => .ok (.string payload)
  | .leaf .derBitString _ payload => .ok (.blob payload)
  | .leaf .derNull _ _ => .ok .empty
  | .leaf .derOctetString _ payload => .ok (.blobPtr payload)
  | .leaf .derObjectIdentifier _ payload => do return .oid (← decodeOid payload)
  | .leaf .derGeneralizedTime _ payload =>
    if 8 > payload.length then .error .outOfRange
    else do return .time (← iso.fromIsoString (payload.take 8 ++ [0x54] ++ (payload.drop 8).take 6))
  | .complex _ _ _ _ => .ok .empty

def DerNode.child (nodes : List DerNode) (index : Nat) : Except Failure DerNode :=
  match nodes[index]? with
  | some node => .ok node
  | none => .error .outOfRange

structure Publickey where
  algorithm : List Int
  key : Blob
  deriving DecidableEq, Repr

-- Any other node answers `boost::any (0)`, which is no public key.
def publickeyVisitor {Time : Type} (iso : IsoTime Time) : DerNode → Except Failure Publickey
  | .leaf _ _ _ => .error .badAnyCast
  | .complex header childChanged size children => do
    match ← DerNode.child children 0 with
    | .leaf _ _ _ => .error .nullDereference
    | .complex _ _ _ algoSeq =>
      let algorithm ← (← simpleVisitor iso (← DerNode.child algoSeq 0)).toOid
      return ⟨algorithm,DerNode.getRaw (.complex header childChanged size children)⟩

-- Continuation bytes of an arc, as the writer leaves them and as the reader sums them.
def septetValue (highs : Blob) : Nat := highs.foldl (fun value byte => value * 128 + (byte.toNat - 128)) 0

theorem septet_byte (value : Nat) : (UInt8.ofNat ((value &&& 0x7F) ||| 0x80)).toNat = value % 128 + 128 := by
  have mask : value &&& 0x7F = value % 128 := Nat.and_two_pow_sub_one_eq_mod value 7
  have bound : value % 128 < 128 := Nat.mod_lt _ (by decide)
  have joined : value % 128 ||| 0x80 = value % 128 + 128 := by
    have disjoint := Nat.two_pow_add_eq_or_of_lt (i := 7) bound 1
    simp only [Nat.reducePow,mul_one] at disjoint
    rw [Nat.or_comm]
    omega
  rw [mask,joined,UInt8.toNat_ofNat']
  omega

theorem septets_highs (turns value : Nat) (p : Blob) : ∃ highs : Blob,septets turns value p = highs ++ p ∧
    (∀ byte ∈ highs,128 ≤ byte.toNat) ∧ (value < 128^turns → septetValue highs = value) := by
  induction turns generalizing value p with
  | zero => exact ⟨[],rfl,by simp,fun fits => by simp [septetValue] at fits ⊢; omega⟩
  | succ turns ih =>
    unfold septets
    split
    · rename_i zero
      exact ⟨[],rfl,by simp,fun _ => zero.symm⟩
    · obtain ⟨highs,written,high,sum⟩ := ih (value >>> 7) (UInt8.ofNat ((value &&& 0x7F) ||| 0x80) :: p)
      have shift : value >>> 7 = value / 128 := by simp [Nat.shiftRight_eq_div_pow]
      refine ⟨highs ++ [UInt8.ofNat ((value &&& 0x7F) ||| 0x80)],by simpa using written,?_,?_⟩
      · intro byte member
        rcases List.mem_append.mp member with early | last
        · exact high byte early
        · rw [List.mem_singleton.mp last,septet_byte]
          omega
      · intro fits
        have front := sum (by rw [shift]; rw [pow_succ] at fits; omega)
        unfold septetValue at front ⊢
        rw [List.foldl_append,front,List.foldl_cons,List.foldl_nil,septet_byte,shift]
        omega

theorem encode128_shape (value : Int) : ∃ (highs : Blob) (last : UInt8),encode128 value = highs ++ [last] ∧
    (∀ byte ∈ highs,128 ≤ byte.toNat) ∧ last.toNat < 128 ∧
    (0 ≤ value → value < 2^31 → ((septetValue highs * 128 + last.toNat : Nat) : Int) = value) := by
  unfold encode128
  split
  · rename_i small
    refine ⟨[],_,rfl,by simp,?_,?_⟩
    · rw [UInt8.toNat_ofNat']
      omega
    · intro nonneg _
      rw [UInt8.toNat_ofNat']
      simp only [septetValue,List.foldl_nil]
      omega
  · rename_i large
    obtain ⟨highs,written,high,sum⟩ := septets_highs 5 (value.toNat >>> 7) [UInt8.ofNat (value.toNat &&& 0x7F)]
    have shift : value.toNat >>> 7 = value.toNat / 128 := by simp [Nat.shiftRight_eq_div_pow]
    have mask : value.toNat &&& 0x7F = value.toNat % 128 := Nat.and_two_pow_sub_one_eq_mod value.toNat 7
    refine ⟨highs,_,written,high,?_,?_⟩
    · rw [mask,UInt8.toNat_ofNat']
      omega
    · intro nonneg narrow
      rw [sum (by rw [shift]; omega),mask,UInt8.toNat_ofNat',shift]
      omega

theorem decode128_bytes {highs : Blob} (high : ∀ byte ∈ highs,128 ≤ byte.toNat) {last : UInt8} (low : last.toNat < 128)
    (rest : Blob) : ∀ value : Nat,decode128 (int32 value) (highs ++ last :: rest) =
      .ok (int32 ((highs.foldl (fun value byte => value * 128 + (byte.toNat - 128)) value * 128 + last.toNat : Nat) : Int),rest) := by
  induction highs with
  | nil =>
    intro value
    have clear : ¬(last &&& 0x80 ≠ 0) := not_not.mpr ((longForm_iff last).mpr low)
    have sum : int32 (int32 value * 128 + last.toNat) = int32 ((value * 128 + last.toNat : Nat) : Int) := by
      unfold int32
      push_cast
      rw [← Int.bmod_add_bmod,Int.bmod_mul_bmod,Int.bmod_add_bmod]
    rw [List.nil_append,decode128,if_neg clear,List.foldl_nil,sum]
  | cons byte highs ih =>
    intro value
    have large := high byte (by simp)
    have set : byte &&& 0x80 ≠ 0 := fun clear => absurd ((longForm_iff byte).mp clear) (by omega)
    have step : int32 (128 * int32 value + byte.toNat - 128) = int32 ((value * 128 + (byte.toNat - 128) : Nat) : Int) := by
      have cast : ((value * 128 + (byte.toNat - 128) : Nat) : Int) = 128 * value + (byte.toNat - 128) := by
        push_cast [large]
        ring
      unfold int32
      rw [cast,add_sub_assoc,← Int.bmod_add_bmod,Int.mul_bmod_bmod,Int.bmod_add_bmod]
    rw [List.cons_append,decode128,if_pos set,step,List.foldl_cons]
    exact ih (fun other member => high other (by simp [member])) _

theorem decode128_encode128 (value : Int) (rest : Blob) : ∃ arc,decode128 0 (encode128 value ++ rest) = .ok (arc,rest) ∧
    (0 ≤ value → value < 2^31 → arc = value) := by
  obtain ⟨highs,last,written,high,low,sum⟩ := encode128_shape value
  have decoded := decode128_bytes high low rest 0
  refine ⟨_,by rw [written,List.append_assoc]; exact decoded,?_⟩
  intro nonneg narrow
  have value := sum nonneg narrow
  unfold septetValue at value
  rw [value,int32_small nonneg narrow]

theorem encode128_pos (value : Int) : 0 < (encode128 value).length := by
  obtain ⟨highs,last,written,_⟩ := encode128_shape value
  rw [written]
  simp

theorem decodeArcs_encoded (arcs : List Int) : ∀ turns,(arcs.flatMap encode128).length ≤ turns →
    ∃ decoded,decodeArcs turns (arcs.flatMap encode128) = .ok decoded ∧
      ((∀ arc ∈ arcs,0 ≤ arc ∧ arc < 2^31) → decoded = arcs) := by
  induction arcs with
  | nil =>
    intro turns _
    cases turns <;> exact ⟨[],rfl,fun _ => rfl⟩
  | cons arc arcs ih =>
    intro turns enough
    have positive := encode128_pos arc
    simp only [List.flatMap_cons,List.length_append] at enough ⊢
    obtain ⟨turns,rfl⟩ : ∃ smaller,turns = smaller+1 := ⟨turns-1,by omega⟩
    obtain ⟨first,decodedFirst,same⟩ := decode128_encode128 arc (arcs.flatMap encode128)
    obtain ⟨others,decodedOthers,sames⟩ := ih turns (by omega)
    have filled : encode128 arc ++ arcs.flatMap encode128 ≠ [] := by
      intro empty
      rw [(List.append_eq_nil_iff.mp empty).1] at positive
      simp at positive
    refine ⟨first :: others,?_,?_⟩
    · rw [decodeArcs,if_neg filled]
      simp only [decodedFirst,ok_bind,decodedOthers,pure_ok]
    · intro bounds
      obtain ⟨own,below⟩ := List.forall_mem_cons.mp bounds
      rw [same own.1 own.2,sames below]

-- What the constructor checks of the first two arcs, and that the others are not negative.
def InRange (arcs : List Int) : Prop :=
  ∃ first second others,arcs = first :: second :: others ∧ (0 ≤ first ∧ 2 ≥ first) ∧ (0 ≤ second ∧ 39 ≥ second) ∧
    ∀ arc ∈ others,0 ≤ arc ∧ arc < 2^31

theorem encode128_first {value : Int} (nonneg : 0 ≤ value) (small : value < 120) :
    ∃ byte : UInt8,encode128 value = [byte] ∧ signedChar byte = value := by
  refine ⟨UInt8.ofNat (value % 128).toNat,by rw [encode128,if_pos (by omega)],?_⟩
  have low : (UInt8.ofNat (value % 128).toNat).toNat = value.toNat := by
    rw [UInt8.toNat_ofNat']
    omega
  rw [signedChar,low,if_pos (by omega)]
  omega

theorem decodeOid_prepared {arcs : List Int} {payload : Blob} (prepared : prepareEncoding arcs = .ok payload) :
    ∃ decoded,decodeOid payload = .ok decoded ∧ (InRange arcs → decoded = arcs) := by
  rcases arcs with _ | ⟨first,_ | ⟨second,others⟩⟩
  · cases prepared
  · simp only [prepareEncoding] at prepared
    split at prepared
    · rename_i range
      obtain ⟨byte,written,_⟩ := encode128_first (by omega : 0 ≤ first * 40) (by omega)
      cases prepared
      rw [written]
      exact ⟨_,rfl,by rintro ⟨_,_,_,same,_⟩; cases same⟩
    · cases prepared
  · simp only [prepareEncoding] at prepared
    split at prepared
    · rename_i range
      split at prepared
      · rename_i secondRange
        obtain ⟨byte,written,value⟩ := encode128_first (by omega : 0 ≤ first * 40 + second) (by omega)
        cases prepared
        obtain ⟨decoded,decodedArcs,same⟩ := decodeArcs_encoded others _ le_rfl
        rw [written,List.cons_append,List.nil_append]
        refine ⟨_,by rw [decodeOid]; simp only [decodedArcs,ok_bind,pure_ok]; rfl,?_⟩
        rintro ⟨_,_,tail,arcs,_,_,bounds⟩
        cases arcs
        have front : (first * 40 + second).tdiv 40 = first := by
          rw [Int.tdiv_eq_ediv_of_nonneg (by omega)]
          omega
        have back : (first * 40 + second).tmod 40 = second := by
          rw [Int.tmod_eq_emod_of_nonneg (by omega)]
          omega
        rw [value,same bounds,front,back]
      · cases prepared
    · cases prepared

theorem prepareEncoding_inRange {arcs : List Int} (range : InRange arcs) : ∃ payload,prepareEncoding arcs = .ok payload := by
  obtain ⟨first,second,others,rfl,firstRange,secondRange,_⟩ := range
  exact ⟨_,by simp only [prepareEncoding]; rw [if_pos firstRange,if_pos secondRange]⟩

end NdnCxx.Der
