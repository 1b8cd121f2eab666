import NdnCxx.Der.Certificate
import NdnCxx.Der.Oid
import NdnCxx.Der.Raw
import NdnCxx.NameUri

namespace NdnCxx.Security
open Der
open Throwing

-- `SecException` with its text, what the DER code throws, what the text of a name throws.
inductive ExtensionFailure where
  | secException (msg : String)
  | der (thrown : Failure)
  | uri (thrown : UriError)
  deriving DecidableEq, Repr

inductive TrustClass where
  | normalProducer
  | introducer
  | metaIntroducer
  deriving DecidableEq, Repr

structure IntroCertificateExtension extends CertificateExtension where
  nameSpace : Name
  trustClass : TrustClass
  trustLevel : Int
  deriving DecidableEq, Repr

def TrustClass.byte : TrustClass → UInt8
  | .normalProducer => 0
  | .introducer => 1
  | .metaIntroducer => 2

-- 1.3.6.1.5.32.1
def introOid : Blob := [0x31,0x2E,0x33,0x2E,0x36,0x2E,0x31,0x2E,0x35,0x2E,0x33,0x32,0x2E,0x31]

def encodeValue (nameSpace : Name) (trustClass : TrustClass) (trustLevel : Int) : Except Der.Exception Blob := do
  let nameSpace ← derOctetString nameSpace.toUri
  let trustClass ← derInteger [trustClass.byte]
  let trustLevel ← derInteger [Wire.putChar trustLevel]
  let (content,_) ← (((DerNode.derSequence.adopt nameSpace).adopt trustClass).adopt trustLevel).encode
  return content

def introExtension (nameSpace : Name) (trustClass : TrustClass) (trustLevel : Int) :
    Except ExtensionFailure IntroCertificateExtension :=
  if trustLevel > 100 ∨ trustLevel < 0 then .error (.secException "trust level is out of range!")
  else do
    let extnValue ← (encodeValue nameSpace trustClass trustLevel).mapError (fun thrown => .der (.der thrown))
    return ⟨⟨oidOfString introOid,true,extnValue⟩,nameSpace,trustClass,trustLevel⟩

-- The cast to `DerSequence` is null for a node without children.
def sequenceChildren : DerNode → Except Failure (List DerNode)
  | .leaf _ _ _ => .error .nullDereference
  | .complex _ _ _ nodeList => .ok nodeList

def anyBlob {Time : Type} : Any Time → Except Failure Blob
  | .blob bytes => .ok bytes
  | _ => .error .badAnyCast

def trustClassOf (trustClassBlob : Blob) : Except ExtensionFailure TrustClass :=
  match trustClassBlob with
  | [value] =>
    if 0 > signedChar value ∨ 2 < signedChar value then .error (.secException "Wrong value of trustClass!")
    else if value = 0 then .ok .normalProducer
    else if value = 1 then .ok .introducer
    else .ok .metaIntroducer
  | _ => .error (.secException "Wrong value of trustClass!")

def trustLevelOf (trustLevelBlob : Blob) : Except ExtensionFailure Int :=
  match trustLevelBlob with
  | [value] =>
    if 0 > signedChar value ∨ 100 < signedChar value then .error (.secException "Wrong value of trustLevel!")
    else .ok (signedChar value)
  | _ => .error (.secException "Wrong value of trustLevel!")

section Decoding
variable {Time : Type} (iso : IsoTime Time) (memory : Nat → UInt8)

def visitChild {α : Type} (children : List DerNode) (index : Nat) (cast : Any Time → Except Failure α) : Except Failure α := do
  cast (← simpleVisitor iso (← DerNode.child children index))

def decodeValue (extnValue : Blob) : Except ExtensionFailure (Name × TrustClass × Int) := do
  let (root,_) ← (DerNode.parse memory (.openOn extnValue)).mapError (fun thrown => .der (.der thrown))
  let children ← (sequenceChildren root).mapError .der
  if children.length ≠ 3 then .error (.secException "IntroCertificateExtension vale is mal-formatted!")
  else do
    let nameSpaceText ← (visitChild iso children 0 Any.toText).mapError .der
    let nameSpace ← (Name.fromUri nameSpaceText).mapError .uri
    let trustClassBlob ← (visitChild iso children 1 anyBlob).mapError .der
    let trustClass ← trustClassOf trustClassBlob
    let trustLevelBlob ← (visitChild iso children 2 anyBlob).mapError .der
    let trustLevel ← trustLevelOf trustLevelBlob
    return (nameSpace,trustClass,trustLevel)

-- The constructor that is given an encoded value.
def introExtensionOfValue (value : Blob) : Except ExtensionFailure IntroCertificateExtension := do
  let (nameSpace,trustClass,trustLevel) ← decodeValue iso memory value
  return ⟨⟨oidOfString introOid,true,value⟩,nameSpace,trustClass,trustLevel⟩

end Decoding

theorem header_shape {type : UInt8} {size : Int} {header : Blob} (small : size < 2^31)
    (encoded : encodeHeader type size = .ok header) : ∃ field n, header = type :: field ∧ LengthField field n := by
  rcases lt_or_ge size 0 with negative | nonneg
  · rw [encodeHeader,if_neg (by omega),if_neg (by omega)] at encoded
    cases encoded
  · obtain ⟨n,rfl⟩ := Int.eq_ofNat_of_zero_le nonneg
    rw [encodeHeader_nat] at encoded
    cases encoded
    exact ⟨sizeField n,n,rfl,sizeField_declares (by omega)⟩

theorem leaf_shape {type : DerType} {payload : Blob} {node : DerNode} (made : DerNode.ofPayload type payload = .ok node) :
    ∃ field, node = .leaf type (type.code :: field) payload := by
  obtain ⟨header,encoded,returned⟩ := bind_ok made
  cases returned
  obtain ⟨field,_,rfl,_⟩ := header_shape (DerNode.int32_lt _) encoded
  exact ⟨field,rfl⟩

-- What is encoded begins with the header of the sequence and the type of an octet string.
theorem encodeValue_front {nameSpace : Name} {trustClass : TrustClass} {trustLevel : Int} {content : Blob}
    (encoded : encodeValue nameSpace trustClass trustLevel = .ok content) :
    ∃ field n rest, content = Der.derSequence :: (field ++ DerType.derOctetString.code :: rest) ∧ LengthField field n := by
  obtain ⟨first,madeFirst,encoded⟩ := bind_ok encoded
  obtain ⟨second,madeSecond,encoded⟩ := bind_ok encoded
  obtain ⟨third,madeThird,encoded⟩ := bind_ok encoded
  obtain ⟨⟨bytes,after⟩,written,encoded⟩ := bind_ok encoded
  cases encoded
  obtain ⟨firstField,rfl⟩ := leaf_shape madeFirst
  obtain ⟨secondField,rfl⟩ := leaf_shape madeSecond
  obtain ⟨thirdField,rfl⟩ := leaf_shape madeThird
  have tree : DerNode.encodeWithin 1 (.complex [] true 0 [.leaf .derOctetString (DerType.derOctetString.code :: firstField)
      nameSpace.toUri,.leaf .derInteger (DerType.derInteger.code :: secondField) [trustClass.byte],
      .leaf .derInteger (DerType.derInteger.code :: thirdField) [Wire.putChar trustLevel]]) = .ok (content,after) := written
  rw [DerNode.encodeWithin] at tree
  obtain ⟨⟨sum,nodes⟩,summed,tree⟩ := bind_ok tree
  simp only [DerNode.updateSize,DerNode.getSize,ok_bind,pure_ok,Except.ok.injEq,Prod.mk.injEq] at summed
  obtain ⟨rfl,rfl⟩ := summed
  obtain ⟨header,framed,tree⟩ := bind_ok tree
  obtain ⟨field,n,rfl,declares⟩ := header_shape (DerNode.int32_lt _) framed
  simp only [DerNode.encodeAll,DerNode.encodeWithin,ok_bind,pure_ok,Except.ok.injEq,Prod.mk.injEq] at tree
  obtain ⟨rfl,_⟩ := tree
  simp only [List.cons_append]
  exact ⟨field,n,_,rfl,declares⟩

theorem code_injective {type other : DerType} (same : type.code = other.code) : type = other := by
  have known := DerType.ofCode_code type
  rw [same,DerType.ofCode_code] at known
  exact (Option.some.inj known).symm

-- Whatever follows, the type byte makes the first child an octet string.
theorem first_octet {memory : Nat → UInt8} {fuel : Nat} {size : Int} {past rest : Blob} {nodes : List DerNode}
    {after : InputIterator}
    (parsed : DerNode.parseChildren memory fuel size 0 (.cursor past (DerType.derOctetString.code :: rest)) = .ok (nodes,after)) :
    nodes = [] ∨ ∃ header payload others, nodes = .leaf .derOctetString header payload :: others := by
  cases fuel with
  | zero => cases parsed
  | succ fuel =>
    rcases DerNode.children_cases parsed with ⟨_,none_read,_⟩ | ⟨_,node,middle,nodeSize,stored,others,first,sized,_,rfl⟩
    · exact .inl none_read
    · cases fuel with
      | zero => cases first
      | succ fuel =>
        rcases DerNode.parse_cases first with ⟨type,code,_,decoded⟩ | ⟨_,code,_,_,_⟩
        · have octet : type = .derOctetString := by
            rw [InputIterator.readU8_cons] at code
            exact (code_injective code).symm
          obtain ⟨header,payload,leaf⟩ := DerNode.decode_leaf memory type (.cursor past (DerType.derOctetString.code :: rest))
          rw [decoded,octet] at leaf
          subst leaf
          rw [DerNode.getSize] at sized
          obtain ⟨_,rfl⟩ := Prod.mk.inj (Except.ok.inj sized)
          exact .inr ⟨header,payload,others,rfl⟩
        · rw [InputIterator.readU8_cons] at code
          exact absurd code (DerType.code_ne_sequence .derOctetString)

theorem parse_front {memory : Nat → UInt8} {field rest : Blob} {n : Nat} (declares : LengthField field n) {root : DerNode}
    {after : InputIterator}
    (parsed : DerNode.parse memory (.openOn (Der.derSequence :: (field ++ DerType.derOctetString.code :: rest))) = .ok (root,after)) :
    ∃ children, sequenceChildren root = .ok children ∧
      (children = [] ∨ ∃ header payload others, children = .leaf .derOctetString header payload :: others) := by
  rcases DerNode.parse_cases parsed with ⟨type,code,_⟩ | ⟨nodeList,_,_,children,rfl⟩
  · rw [InputIterator.openOn,InputIterator.readU8_cons] at code
    exact absurd code.symm (DerType.code_ne_sequence type)
  · have header := decodeHeader_field declares Der.derSequence [] (DerType.derOctetString.code :: rest)
    rw [InputIterator.openOn,header] at children
    exact ⟨nodeList,rfl,first_octet children⟩

-- The visitor answers an octet string with a pointer to its bytes, never with a string.
theorem decodeValue_octet {Time : Type} (iso : IsoTime Time) {memory : Nat → UInt8} {content : Blob}
    {root : DerNode} {after : InputIterator} {children : List DerNode}
    (parsed : DerNode.parse memory (.openOn content) = .ok (root,after)) (sequence : sequenceChildren root = .ok children)
    (first : children = [] ∨ ∃ header payload others, children = .leaf .derOctetString header payload :: others) :
    decodeValue iso memory content = .error (.secException "IntroCertificateExtension vale is mal-formatted!") ∨
      decodeValue iso memory content = .error (.der .badAnyCast) := by
  simp only [decodeValue,parsed,sequence,Except.mapError,ok_bind]
  rcases first with rfl | ⟨header,payload,others,rfl⟩
  · exact .inl rfl
  · split
    · exact .inl rfl
    · exact .inr rfl

theorem decodeValue_fails {Time : Type} (iso : IsoTime Time) (memory : Nat → UInt8) {nameSpace : Name}
    {trustClass : TrustClass} {trustLevel : Int} {content : Blob} (encoded : encodeValue nameSpace trustClass trustLevel = .ok content) :
    ∃ failure, decodeValue iso memory content = .error failure := by
  obtain ⟨field,n,rest,rfl,declares⟩ := encodeValue_front encoded
  cases parsed : DerNode.parse memory (.openOn (Der.derSequence :: (field ++ DerType.derOctetString.code :: rest))) with
  | error thrown =>
    refine ⟨.der (.der thrown),?_⟩
    rw [decodeValue,parsed]
    rfl
  | ok result =>
    obtain ⟨root,after⟩ := result
    obtain ⟨children,sequence,first⟩ := parse_front declares parsed
    rcases decodeValue_octet iso parsed sequence first with malformed | cast
    · exact ⟨_,malformed⟩
    · exact ⟨_,cast⟩

-- Constructing and decoding restores what was given.
def Restored {Time : Type} (iso : IsoTime Time) (memory : Nat → UInt8) (nameSpace : Name) (trustClass : TrustClass)
    (trustLevel : Int) : Prop :=
  ∃ extension decoded, introExtension nameSpace trustClass trustLevel = .ok extension ∧
    introExtensionOfValue iso memory extension.extnValue = .ok decoded ∧
    decoded.nameSpace = nameSpace ∧ decoded.trustClass = trustClass ∧ decoded.trustLevel = trustLevel

-- No constructed extension can be decoded.
theorem extension_never_restored {Time : Type} (iso : IsoTime Time) (memory : Nat → UInt8) (nameSpace : Name)
    (trustClass : TrustClass) (trustLevel : Int) : ¬Restored iso memory nameSpace trustClass trustLevel := by
  rintro ⟨extension,decoded,made,restored,_⟩
  unfold introExtension at made
  split at made
  · cases made
  · obtain ⟨content,encoded,made⟩ := bind_ok made
    cases made
    obtain ⟨failure,fails⟩ := decodeValue_fails iso memory (mapError_ok encoded)
    rw [introExtensionOfValue,fails] at restored
    cases restored

-- `/a`, an introducer, 50.
theorem introducer_not_restored :
    introExtension [⟨[0x61]⟩] .introducer 50 = .ok ⟨⟨[1,3,6,1,5,32,1],true,[0x30,10,4,2,0x2F,0x61,2,1,1,2,1,50]⟩,
      [⟨[0x61]⟩],.introducer,50⟩ ∧
    introExtensionOfValue Instant.iso (fun _ => 0) [0x30,10,4,2,0x2F,0x61,2,1,1,2,1,50] = .error (.der .badAnyCast) ∧
    ¬Restored Instant.iso (fun _ => 0) [⟨[0x61]⟩] .introducer 50 := by
  have made : introExtension [⟨[0x61]⟩] .introducer 50 = .ok ⟨⟨[1,3,6,1,5,32,1],true,
      [0x30,10,4,2,0x2F,0x61,2,1,1,2,1,50]⟩,[⟨[0x61]⟩],.introducer,50⟩ := by decide +kernel
  have cast : decodeValue Instant.iso (fun _ => 0) [0x30,10,4,2,0x2F,0x61,2,1,1,2,1,50] = .error (.der .badAnyCast) := by
    decide +kernel
  have thrown : introExtensionOfValue Instant.iso (fun _ => 0) [0x30,10,4,2,0x2F,0x61,2,1,1,2,1,50] =
      .error (.der .badAnyCast) := by
    rw [introExtensionOfValue,cast]
    rfl
  refine ⟨made,thrown,?_⟩
  rintro ⟨extension,decoded,given,restored,_⟩
  rw [made] at given
  cases given
  rw [thrown] at restored
  cases restored

end NdnCxx.Security
