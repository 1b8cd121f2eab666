import NdnCxx.SignedPortion
import NdnCxx.NameUri

namespace NdnCxx.Data
open Wire
open Throwing (bind_ok)

-- The setters of `Data`. None of them looks at the stored wire.
inductive Mutator where
  | setName (name : Name)
  | setContent (content : Content)
  | setSignature (signature : Sha256WithRsa)
  deriving DecidableEq, Repr

def Mutator.apply (data : Data) : Mutator → Data
  | .setName name => {data with name := name}
  | .setContent content => {data with content := content}
  | .setSignature signature => {data with signature := signature}

-- What the two storages of the identity manager give for a certificate name.
structure Signer where
  certificateName : Name
  publisherKeyDigest : Blob
  sign : Blob → Blob

-- `certName.getPrefix (certName.size () - 1)`, built by appending.
def Signer.keyName (signer : Signer) : Name := signer.certificateName.dropLast.foldl Name.append []

def signByCertificate (notADateTime : ℤ) (signer : Signer) (data : Data) : Option Data := do
  let data := {data with signature := ⟨[],signer.publisherKeyDigest,.keyname signer.keyName⟩}
  let unsigned ← serializeUnsigned notADateTime data
  let data := {data with wire := some ⟨unsigned,0,unsigned.length⟩}
  return setSignatureBits data (signer.sign unsigned)

structure Filled (data : Data) (keyName : Name) : Prop where
  located : data.signature.keyLocator = .keyname keyName
  named : NonEmptyComponents data.name
  keyed : NonEmptyComponents keyName
  digest : data.signature.publisherKeyDigest ≠ []
  bits : data.signature.signatureBits ≠ []
  content : data.content.content ≠ []
  short : ShortFields data keyName

def portion (wire : SignedBlob) : Blob := write ((wire.bytes.drop wire.signedOffset).take wire.signedSize) wire.signedSize

def signatureBlock (bits : Blob) : Block :=
  .dtag NdnDtag.signature.code [] [.dtag NdnDtag.signatureBits.code [] [.blob (padded 16 bits)]]

-- What the encoder writes around the stored elements reads back as the padded
-- signature bits followed by these elements.
theorem portion_decodes (std : Standard) (notADateTime : ℤ) {data : Data} {wire : SignedBlob} {signed : List Block}
    (stored : data.wire = some wire) (encodes : EncodesMany signed (portion wire)) :
    ∃ bytes, encodeToWire notADateTime data = some bytes ∧ decodeFromWire std bytes =
      dataVisitorAll (setSignatureBits (fresh (some (signedBlob bytes))) (padded 16 data.signature.signatureBits)) signed := by
  refine ⟨_,by rw [encodeToWire,serialize,stored]; rfl,?_⟩
  have signature : Element (signatureBlock data.signature.signatureBits) _ := element_signature _
  have inside := many_append signature.one.encodes encodes
  have whole : Encodes (.dtag NdnDtag.data.code [] (signatureBlock data.signature.signatureBits :: signed)) _ :=
    .dtag (header_encodes NdnDtag.data.code_lt .dtag) inside (by simp) (by simp [signatureBlock,Block.isBaseAttr])
  have parsed := parse_complete std whole []
  rw [List.append_nil,List.append_assoc] at parsed
  rw [decodeFromWire]
  refine (congrArg (· >>= _) parsed).trans ?_
  simp only [bind,Except.bind,dataVisitor,NdnDtag.ofCode_code,dataVisitorAll,signatureBlock,visit_signature]

-- The stored elements alone decide name and content; the signature bits are those
-- of the packet.
structure Covers (wire : SignedBlob) (signed : List Block) (origin : Data) : Prop where
  encodes : EncodesMany signed (portion wire)
  named : reachesAny .name signed = true
  filled : reachesAny .content signed = true
  unsigned : reachesAny .signatureBits signed = false
  read : ∃ start result, dataVisitorAll start signed = .ok result ∧ result.name = origin.name ∧
    result.content.content = origin.content.content

def signedBlocks (notADateTime : ℤ) (data : Data) (keyName : Name) : List Block :=
  [nameBlock data.name,
    signedInfoBlock (data.content.timestamp.getD notADateTime) data.signature.publisherKeyDigest keyName,
    .dtag NdnDtag.content.code [] (contentChild data.content.content)]

theorem unsigned_elements (notADateTime : ℤ) {data : Data} {keyName : Name} {bytes : Blob}
    (located : data.signature.keyLocator = .keyname keyName) (written : serializeUnsigned notADateTime data = some bytes) :
    EncodesMany (signedBlocks notADateTime data keyName) bytes := by
  obtain ⟨signed,serialized,elements⟩ := elements_unsigned notADateTime located
  rw [written] at serialized
  cases serialized
  exact elements.encodes

end NdnCxx.Data
