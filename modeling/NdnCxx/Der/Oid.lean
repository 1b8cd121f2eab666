import NdnCxx.Der.Visitor

namespace NdnCxx.Der
open Wire (int32 int32_small decimal decimal_digits readInt32 readInt32_decimal)
open Throwing

-- `operator <<` of an `int`.
def printInt (value : Int) : Blob := if value < 0 then 0x2D :: decimal value.natAbs else decimal value.natAbs

def oidToString : List Int → Blob
  | [] => []
  | first :: others => printInt first ++ others.flatMap (fun arc => 0x2E :: printInt arc)

-- The constructor of `OID` reads a text as the one of `DerOid` does.
def oidOfString (oid : Blob) : List Int := oidIntegers oid

theorem printInt_read {value : Int} (nonneg : 0 ≤ value) (narrow : value < 2^31) : readInt32 (printInt value) = value := by
  rw [printInt,if_neg (by omega),readInt32_decimal]
  omega

theorem printInt_undotted {value : Int} (nonneg : 0 ≤ value) : 0x2E ∉ printInt value := by
  rw [printInt,if_neg (by omega)]
  intro dot
  exact absurd ((decimal_digits value.natAbs).1 _ dot) (by decide)

-- Each dot ends the piece of one arc.
theorem pieces_split {arcs : List Int} (nonneg : ∀ arc ∈ arcs, 0 ≤ arc) :
    ∀ first, 0 ≤ first → (oidToString (first :: arcs)).splitOn 0x2E = (first :: arcs).map printInt := by
  induction arcs with
  | nil =>
    intro first positive
    simp only [oidToString,List.flatMap_nil,List.append_nil]
    exact List.splitOn_eq_singleton (printInt_undotted positive)
  | cons second arcs ih =>
    intro first positive
    obtain ⟨own,others⟩ := List.forall_mem_cons.mp nonneg
    have rest := ih others second own
    simp only [oidToString,List.flatMap_cons,List.cons_append] at rest ⊢
    rw [List.splitOn_append_cons_self_of_not_mem (printInt_undotted positive),rest]
    rfl

theorem oid_text {first : Int} {others : List Int} (bounds : ∀ arc ∈ first :: others, 0 ≤ arc ∧ arc < 2^31) :
    oidOfString (oidToString (first :: others)) = first :: others := by
  obtain ⟨own,rest⟩ := List.forall_mem_cons.mp bounds
  rw [oidOfString,oidIntegers,pieces_split (fun arc member => (rest arc member).1) first own.1,List.map_map]
  calc
    _ = (first :: others).map id :=
      List.map_congr_left (fun arc member => printInt_read (bounds arc member).1 (bounds arc member).2)
    _ = first :: others := List.map_id _

theorem InRange.bounds {arcs : List Int} (range : InRange arcs) :
    ∃ first others, arcs = first :: others ∧ ∀ arc ∈ first :: others, 0 ≤ arc ∧ arc < 2^31 := by
  obtain ⟨first,second,others,rfl,firstRange,secondRange,bounds⟩ := range
  refine ⟨first,second :: others,rfl,?_⟩
  simp only [List.mem_cons,forall_eq_or_imp]
  exact ⟨by omega,by omega,bounds⟩

-- Bytes: what the encoder prepares is decoded to the same arcs, as long as its size fits
-- an `int`. Text: what is printed is read back.
theorem oid_codec {Time : Type} (iso : IsoTime Time) {arcs : List Int} (range : InRange arcs) :
    (∃ payload, prepareEncoding arcs = .ok payload ∧ (payload.length < 2^31 →
      ∃ node, derOid arcs = .ok node ∧ simpleVisitor iso node = .ok (.oid arcs))) ∧
    oidOfString (oidToString arcs) = arcs := by
  obtain ⟨payload,prepared⟩ := prepareEncoding_inRange range
  obtain ⟨decoded,visited,same⟩ := decodeOid_prepared prepared
  rw [same range] at visited
  constructor
  · refine ⟨payload,prepared,?_⟩
    intro short
    refine ⟨.leaf .derObjectIdentifier (DerType.derObjectIdentifier.code :: sizeField payload.length) payload,?_,?_⟩
    · rw [derOid,prepared,ok_bind,DerNode.ofPayload,int32_small (by omega) (by omega),encodeHeader_nat]
      rfl
    · rw [simpleVisitor,visited]
      rfl
  · obtain ⟨first,others,rfl,bounds⟩ := range.bounds
    exact oid_text bounds

-- RSA encryption.
theorem oid_codec_rsa : (∃ node, derOid [1,2,840,113549] = .ok node ∧
      simpleVisitor (⟨fun _ => [],fun _ => .ok (),fun _ => True⟩ : IsoTime Unit) node = .ok (.oid [1,2,840,113549])) ∧
    oidOfString (oidToString [1,2,840,113549]) = [1,2,840,113549] := by
  have range : InRange [1,2,840,113549] := ⟨1,2,[840,113549],rfl,by decide,by decide,by decide⟩
  obtain ⟨⟨payload,prepared,decodes⟩,text⟩ := oid_codec (⟨fun _ => [],fun _ => .ok (),fun _ => True⟩ : IsoTime Unit) range
  have short : payload = [0x2A,0x86,0x48,0x86,0xF7,0x0D] := by
    have written : prepareEncoding [1,2,840,113549] = .ok [0x2A,0x86,0x48,0x86,0xF7,0x0D] := by decide
    exact Except.ok.inj (prepared.symm.trans written)
  exact ⟨decodes (by rw [short]; decide),text⟩

theorem derOid_too_long {arcs : List Int} {payload : Blob} (prepared : prepareEncoding arcs = .ok payload)
    (long : payload.length = 2^31) : derOid arcs = .error (.negativeLengthException "Negative length") := by
  rw [derOid,prepared,ok_bind,DerNode.ofPayload_too_long _ long]

theorem zeros_prepared (count : Nat) : prepareEncoding (0 :: 0 :: List.replicate count 0) = .ok (List.replicate (count + 1) 0) := by
  have zero : encode128 0 = [0] := rfl
  have others : (List.replicate count (0 : Int)).flatMap encode128 = List.replicate count 0 := by
    induction count with
    | zero => rfl
    | succ count ih => rw [List.replicate_succ,List.flatMap_cons,ih,zero,List.replicate_succ,List.singleton_append]
  simp [prepareEncoding,others,zero,List.replicate_succ]

-- With 2^31 bytes of payload the node cannot be built.
theorem long_oid_throws : InRange (0 :: 0 :: List.replicate (2^31 - 1) 0) ∧
    derOid (0 :: 0 :: List.replicate (2^31 - 1) 0) = .error (.negativeLengthException "Negative length") := by
  refine ⟨⟨0,0,List.replicate (2^31 - 1) 0,rfl,by decide,by decide,?_⟩,?_⟩
  · intro arc member
    rw [List.eq_of_mem_replicate member]
    decide
  · exact derOid_too_long (zeros_prepared _) List.length_replicate

end NdnCxx.Der
