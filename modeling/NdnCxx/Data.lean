import NdnCxx.Wire.Visitor

namespace NdnCxx
open Wire
open Throwing (bind_ok)

inductive KeyLocator where
  | notset
  | key (bits : Blob)
  | certificate (bits : Blob)
  | keyname (name : Name)
  deriving DecidableEq, Repr

structure Sha256WithRsa where
  signatureBits : Blob
  publisherKeyDigest : Blob
  keyLocator : KeyLocator
  deriving DecidableEq, Repr

inductive Content.Type where
  | data
  | encr
  | gone
  | key
  | link
  | nack
  deriving DecidableEq, Repr

-- A time is counted in microseconds from the Unix epoch, `none` is
-- `not_a_date_time`. The default constructor leaves the type unset.
structure Content where
  timestamp : Option Int
  type : Option Content.Type
  freshness : Int
  content : Blob
  deriving DecidableEq, Repr

def Content.maxFreshness : Int := 2147000000

-- The offset and the size are kept as `setSignedPortion` got them; nothing checks
-- that they lie inside the bytes.
structure SignedBlob where
  bytes : Blob
  signedOffset : Nat
  signedSize : Nat
  deriving DecidableEq, Repr

structure Data where
  name : Name
  signature : Sha256WithRsa
  content : Content
  wire : Option SignedBlob
  deriving DecidableEq, Repr

namespace Data

def magicSignedBlobOffset : Nat := 2 + (2 + (2 + (2 + 256) + 1) + 1)

def lastCloserSize : Nat := 1

-- `Data::SerializeUnsigned`. The key name is only reached for KEYNAME locators,
-- for others its accessor throws. `notADateTime` stands for the tick count that
-- Boost keeps in a time without a value.
def serializeUnsigned (notADateTime : Int) (data : Data) : Option Blob :=
  match data.signature.keyLocator with
  | .keyname keyName =>
    some (appendBlockHeader NdnDtag.name.code TokenType.dtag.code ++ (serializeName data.name ++ appendCloser) ++
      (appendBlockHeader NdnDtag.signedInfo.code TokenType.dtag.code ++
        ((appendTaggedBlob .publisherPublicKeyDigest data.signature.publisherKeyDigest ++
          (appendBlockHeader NdnDtag.timestamp.code TokenType.dtag.code ++
            (appendTimestampBlob (data.content.timestamp.getD notADateTime) ++ appendCloser) ++
          (appendBlockHeader NdnDtag.keyLocator.code TokenType.dtag.code ++
            ((appendBlockHeader NdnDtag.keyName.code TokenType.dtag.code ++
              ((appendBlockHeader NdnDtag.name.code TokenType.dtag.code ++ (serializeName keyName ++ appendCloser)) ++
                appendCloser)) ++ appendCloser)))) ++ appendCloser) ++
      (appendBlockHeader NdnDtag.content.code TokenType.dtag.code ++
        ((if data.content.content.length % 2^32 > 0 then
          appendBlockHeader (data.content.content.length % 2^32) TokenType.blob.code ++
            write data.content.content data.content.content.length
        else []) ++ appendCloser))))
  | _ => none

def serialize (notADateTime : Int) (data : Data) : Option Blob := do
  let signed ← match data.wire with
    | none => serializeUnsigned notADateTime data
    | some wire => some (write ((wire.bytes.drop wire.signedOffset).take wire.signedSize) wire.signedSize)
  return appendBlockHeader NdnDtag.data.code TokenType.dtag.code ++
    ((appendBlockHeader NdnDtag.signature.code TokenType.dtag.code ++
      (appendTaggedBlobWithPadding .signatureBits 16 data.signature.signatureBits ++ appendCloser)) ++
    (signed ++ appendCloser))

def encodeToWire (notADateTime : Int) (data : Data) : Option Blob := serialize notADateTime data

def toType (typeBytes : Nat) : Except Exception Content.Type :=
  match typeBytes with
  | 0x0C04C0 => .ok .data
  | 0x10D091 => .ok .encr
  | 0x18E344 => .ok .gone
  | 0x28463F => .ok .key
  | 0x2C834A => .ok .link
  | 0x34008A => .ok .nack
  | _ => .error .ndnbDecodingException

-- The three fields that hold raw bytes take exactly one nested block. A block of
-- another kind casts to a null pointer, which is then used.
def onlyBlob : List Block → Except Exception Blob
  | [.blob bytes] => .ok bytes
  | [_] => .error .nullDereference
  | _ => .error .ndnbDecodingException

def setSignatureBits (data : Data) (bits : Blob) : Data :=
  {data with signature := {data.signature with signatureBits := bits}}

def setPublisherKeyDigest (data : Data) (digest : Blob) : Data :=
  {data with signature := {data.signature with publisherKeyDigest := digest}}

def setKeyLocator (data : Data) (locator : KeyLocator) : Data :=
  {data with signature := {data.signature with keyLocator := locator}}

def setTimestamp (data : Data) (time : Int) : Data :=
  {data with content := {data.content with timestamp := some time}}

def setType (data : Data) (type : Content.Type) : Data :=
  {data with content := {data.content with type := some type}}

def setFreshness (data : Data) (freshness : Int) : Data :=
  {data with content := {data.content with freshness := freshness}}

def setContent (data : Data) (content : Blob) : Data :=
  {data with content := {data.content with content := content}}

mutual
def dataVisitor (data : Data) : Block → Except Exception Data
  | .tag _ attrs nested => do
    let data ← dataVisitorAll data attrs
    dataVisitorAll data nested
  | .dtag number attrs nested =>
    match NdnDtag.ofCode number with
    | some .data => dataVisitorAll data nested
    | some .signature => dataVisitorAll data nested
    | some .signatureBits => do return setSignatureBits data (← onlyBlob nested)
    | some .name => do return {data with name := ← nameVisitor [] (.dtag number attrs nested)}
    | some .signedInfo => dataVisitorAll data nested
    | some .publisherPublicKeyDigest => do return setPublisherKeyDigest data (← onlyBlob nested)
    | some .timestamp => do return setTimestamp data (← timestampVisitor (← onlyBlock nested))
    | some .type => do return setType data (← toType (← contentTypeVisitor (← onlyBlock nested)))
    | some .freshnessSeconds => .ok (setFreshness data Content.maxFreshness)
    | some .keyLocator => dataVisitorAll data nested
    | some .keyName => do return setKeyLocator data (.keyname (← nameVisitor [] (.dtag number attrs nested)))
    | some .content => do return setContent data (← onlyBlob nested)
    | _ => .ok data
  | .blob _ => .ok data
  | .udata _ => .ok data
  | .attr _ _ => .ok data
  | .dattr _ _ => .ok data
  | .ext _ => .ok data
def dataVisitorAll (data : Data) : List Block → Except Exception Data
  | [] => .ok data
  | block :: others => do
    let data ← dataVisitor data block
    dataVisitorAll data others
end

def fresh (wire : Option SignedBlob) : Data where
  name := []
  signature := ⟨[],[],.notset⟩
  content := ⟨none,none,0,[]⟩
  wire := wire

-- The size is computed in `size_t` and wraps for short buffers.
def signedBlob (buffer : Blob) : SignedBlob :=
  ⟨buffer,magicSignedBlobOffset,(buffer.length + 2^64 - magicSignedBlobOffset - lastCloserSize) % 2^64⟩

def decodeFromWire (std : Standard) (buffer : Blob) : Except Exception Data := do
  let (root,_) ← parse std buffer
  dataVisitor (fresh (some (signedBlob buffer))) root

-- The tags whose nested blocks are visited in their turn.
def Descends (number : Nat) : Prop :=
  NdnDtag.ofCode number ∈ [some .data,some .signature,some .signedInfo,some .keyLocator]

-- The field an element sets, from what is read inside of it.
inductive Sets (data : Data) : Block → Data → Prop where
  | signatureBits {number : Nat} {attrs nested : List Block} {bytes : Blob} :
      NdnDtag.ofCode number = some .signatureBits → onlyBlob nested = .ok bytes →
      Sets data (.dtag number attrs nested) (setSignatureBits data bytes)
  | name {number : Nat} {attrs nested : List Block} {name : Name} : NdnDtag.ofCode number = some .name →
      nameVisitor [] (.dtag number attrs nested) = .ok name → Sets data (.dtag number attrs nested) {data with name := name}
  | publisherPublicKeyDigest {number : Nat} {attrs nested : List Block} {bytes : Blob} :
      NdnDtag.ofCode number = some .publisherPublicKeyDigest → onlyBlob nested = .ok bytes →
      Sets data (.dtag number attrs nested) (setPublisherKeyDigest data bytes)
  | timestamp {number : Nat} {attrs nested : List Block} {time : Int} : NdnDtag.ofCode number = some .timestamp →
      (onlyBlock nested >>= timestampVisitor) = .ok time → Sets data (.dtag number attrs nested) (setTimestamp data time)
  | type {number : Nat} {attrs nested : List Block} {type : Content.Type} : NdnDtag.ofCode number = some .type →
      (onlyBlock nested >>= contentTypeVisitor >>= toType) = .ok type →
      Sets data (.dtag number attrs nested) (setType data type)
  | freshnessSeconds {number : Nat} {attrs nested : List Block} : NdnDtag.ofCode number = some .freshnessSeconds →
      Sets data (.dtag number attrs nested) (setFreshness data Content.maxFreshness)
  | keyName {number : Nat} {attrs nested : List Block} {name : Name} : NdnDtag.ofCode number = some .keyName →
      nameVisitor [] (.dtag number attrs nested) = .ok name →
      Sets data (.dtag number attrs nested) (setKeyLocator data (.keyname name))
  | content {number : Nat} {attrs nested : List Block} {bytes : Blob} : NdnDtag.ofCode number = some .content →
      onlyBlob nested = .ok bytes → Sets data (.dtag number attrs nested) (setContent data bytes)

-- All that a visit of an element can do: descend, set a field, or pass over it.
theorem dtag_cases {data result : Data} {number : Nat} {attrs nested : List Block}
    (visited : dataVisitor data (.dtag number attrs nested) = .ok result) :
    Descends number ∧ dataVisitorAll data nested = .ok result ∨ Sets data (.dtag number attrs nested) result ∨
      result = data := by
  rw [dataVisitor] at visited
  split at visited <;> rename_i found
  · exact .inl ⟨by simp [Descends,found],visited⟩
  · exact .inl ⟨by simp [Descends,found],visited⟩
  · obtain ⟨bytes,read,done⟩ := bind_ok visited
    cases done
    exact .inr (.inl (.signatureBits found read))
  · obtain ⟨name,read,done⟩ := bind_ok visited
    cases done
    exact .inr (.inl (.name found read))
  · exact .inl ⟨by simp [Descends,found],visited⟩
  · obtain ⟨bytes,read,done⟩ := bind_ok visited
    cases done
    exact .inr (.inl (.publisherPublicKeyDigest found read))
  · obtain ⟨inner,one,rest⟩ := bind_ok visited
    obtain ⟨time,read,done⟩ := bind_ok rest
    cases done
    exact .inr (.inl (.timestamp found (by rw [one]; exact read)))
  · obtain ⟨inner,one,rest⟩ := bind_ok visited
    obtain ⟨bytes,read,more⟩ := bind_ok rest
    obtain ⟨type,typed,done⟩ := bind_ok more
    cases done
    refine .inr (.inl (.type found ?_))
    simp only [one,bind,Except.bind,read,typed]
  · cases visited
    exact .inr (.inl (.freshnessSeconds found))
  · exact .inl ⟨by simp [Descends,found],visited⟩
  · obtain ⟨name,read,done⟩ := bind_ok visited
    cases done
    exact .inr (.inl (.keyName found read))
  · obtain ⟨bytes,read,done⟩ := bind_ok visited
    cases done
    exact .inr (.inl (.content found read))
  · cases visited
    exact .inr (.inr rfl)

-- A property of packets that setting a field keeps, in blocks of a kind that holds of
-- all blocks visited inside of them.
structure Invariant (P : Data → Prop) (Q : Block → Prop) : Prop where
  tags : ∀ {name : Blob} {attrs nested : List Block}, Q (.tag name attrs nested) → ∀ block ∈ attrs ++ nested, Q block
  dtags : ∀ {number : Nat} {attrs nested : List Block}, Q (.dtag number attrs nested) → Descends number →
    ∀ block ∈ nested, Q block
  sets : ∀ {data result : Data} {block : Block}, Q block → Sets data block result → P data → P result

mutual
theorem Invariant.visitor {P : Data → Prop} {Q : Block → Prop} (invariant : Invariant P Q) : ∀ (block : Block)
    {data result : Data}, Q block → P data → dataVisitor data block = .ok result → P result
  | .blob _,_,_,_,before,visited => by cases visited; exact before
  | .udata _,_,_,_,before,visited => by cases visited; exact before
  | .attr _ _,_,_,_,before,visited => by cases visited; exact before
  | .dattr _ _,_,_,_,before,visited => by cases visited; exact before
  | .ext _,_,_,_,before,visited => by cases visited; exact before
  | .tag _ attrs nested,_,_,inside,before,visited => by
    obtain ⟨middle,first,second⟩ := bind_ok visited
    obtain ⟨outer,inner⟩ := List.forall_mem_append.mp (invariant.tags inside)
    exact invariant.visitorAll nested inner (invariant.visitorAll attrs outer before first) second
  | .dtag number attrs nested,_,_,inside,before,visited => by
    rcases dtag_cases visited with ⟨descends,inner⟩ | set | same
    · exact invariant.visitorAll nested (invariant.dtags inside descends) before inner
    · exact invariant.sets inside set before
    · exact same ▸ before
theorem Invariant.visitorAll {P : Data → Prop} {Q : Block → Prop} (invariant : Invariant P Q) : ∀ (blocks : List Block)
    {data result : Data}, (∀ block ∈ blocks, Q block) → P data → dataVisitorAll data blocks = .ok result → P result
  | [],_,_,_,before,visited => by cases visited; exact before
  | block :: others,_,_,inside,before,visited => by
    obtain ⟨middle,first,second⟩ := bind_ok visited
    obtain ⟨here,later⟩ := List.forall_mem_cons.mp inside
    exact invariant.visitorAll others later (invariant.visitor block here before first) second
end

-- A visit either leaves the name alone or sets it from the components it read.
theorem name_invariant : Invariant (fun data => NonEmptyComponents data.name) (fun _ => True) where
  tags _ _ _ := trivial
  dtags _ _ _ _ := trivial
  sets := by
    intro data result block _ set before
    cases set with
    | name _ read => exact nonempty_invariant.visitor _ trivial (by simp [NonEmptyComponents]) read
    | _ => exact before

theorem decodeFromWire_name {std : Standard} {buffer : Blob} {data : Data}
    (decoded : decodeFromWire std buffer = .ok data) : NonEmptyComponents data.name := by
  obtain ⟨⟨root,rest⟩,_,visited⟩ := bind_ok decoded
  exact name_invariant.visitor root trivial (by simp [NonEmptyComponents,fresh]) visited

end Data
end NdnCxx
