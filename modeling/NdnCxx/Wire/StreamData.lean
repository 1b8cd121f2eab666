import NdnCxx.DataBounds
import NdnCxx.DataRoundTrip
import NdnCxx.Wire.Scalars
import NdnCxx.Wire.StreamEncoder

namespace NdnCxx.Wire.Ndnb

-- What `appendData` hands to `appendSignature` through the double dispatch.
inductive SignaturePart where
  | signatureBlock
  | publisherPublicKeyDigest
  | keyLocator
  deriving DecidableEq, Repr

-- Keys and certificates share one number here, and the key locator itself is opened
-- as a Signature.
def appendKeyLocator : KeyLocator → Blob
  | .notset => []
  | .key bits => appendTaggedBlob .key bits
  | .certificate bits => appendTaggedBlob .key bits
  | .keyname name => appendBlockHeader NdnDtag.keyName.code .dtag ++ (appendName name ++ appendCloser)

def appendSignature (signature : Sha256WithRsa) : SignaturePart → Blob
  | .signatureBlock =>
    appendBlockHeader NdnDtag.signature.code .dtag ++
      (appendTaggedBlob .signatureBits signature.signatureBits ++ appendCloser)
  | .publisherPublicKeyDigest => appendTaggedBlob .publisherPublicKeyDigest signature.publisherKeyDigest
  | .keyLocator =>
    appendBlockHeader NdnDtag.signature.code .dtag ++ (appendKeyLocator signature.keyLocator ++ appendCloser)

def types : Content.Type → Blob
  | .data => [0x0C,0x04,0xC0]
  | .encr => [0x10,0xD0,0x91]
  | .gone => [0x18,0xE3,0x44]
  | .key => [0x28,0x46,0x3F]
  | .link => [0x2C,0x83,0x4A]
  | .nack => [0x34,0x00,0x8A]

def appendFreshness (freshness : Int) : Blob :=
  if freshness ≠ 0 then appendTaggedNumber .freshnessSeconds (UInt32.ofInt (totalSeconds freshness)) else []

def appendFinalBlockId (finalBlockId : Component) : Blob :=
  if finalBlockId.bytes ≠ [] then appendTaggedBlob .finalBlockID finalBlockId.bytes else []

-- The timestamp is written without an element around it. A type that was never set
-- indexes the table with an indeterminate value.
def appendData (notADateTime : Int) (finalBlockId : Component) (data : Data) : Option Blob := do
  let type ← data.content.type
  return appendBlockHeader NdnDtag.contentObject.code .dtag ++
    ((appendSignature data.signature .signatureBlock ++ (appendName data.name ++
      ((appendBlockHeader NdnDtag.signedInfo.code .dtag ++
        ((appendSignature data.signature .publisherPublicKeyDigest ++
          (appendTimestampBlob (data.content.timestamp.getD notADateTime) ++
            (appendTaggedBlob .type (types type) ++ (appendFreshness data.content.freshness ++
              (appendFinalBlockId finalBlockId ++ appendSignature data.signature .keyLocator))))) ++ appendCloser)) ++
        appendTaggedBlob .content data.content.content))) ++ appendCloser)

theorem element_tag (dtag : NdnDtag) {blocks : List Block} {body : Blob} (inside : Elements blocks body) :
    Element (.dtag dtag.code [] blocks) (appendBlockHeader dtag.code .dtag ++ (body ++ appendCloser)) :=
  element_dtag (by cases dtag <;> decide) inside

theorem blobChild_short {data : Blob} (filled : data ≠ []) (short : data.length < 2^32) : blobChild data = [.blob data] := by
  rw [blobChild,if_pos (List.length_pos_iff.mpr filled),write_all short]

theorem element_taggedBlob (dtag : NdnDtag) {data : Blob} (short : data.length < 2^32) :
    Element (.dtag dtag.code [] (blobChild data)) (appendTaggedBlob dtag data) := by
  apply element_tag
  by_cases filled : data = []
  · subst filled
    exact .nil
  · rw [blobChild_short filled short,if_pos (List.length_pos_iff.mpr filled)]
    exact (element_blob (Nat.mod_eq_of_lt short).symm).one

theorem elements_name {name : Name} (short : ShortComponents name) :
    Elements (nameBlocks name) (name.flatMap (fun component => appendTaggedBlob .component component.bytes)) := by
  induction name with
  | nil => exact .nil
  | cons component name ih =>
    obtain ⟨first,others⟩ := List.forall_mem_cons.mp short
    exact (element_taggedBlob .component first).cons (ih others)

theorem element_name {name : Name} (short : ShortComponents name) : Element (nameBlock name) (appendName name) :=
  element_tag .name (elements_name short)

def freshnessBlocks (freshness : Int) : List Block :=
  if freshness ≠ 0 then
    [.dtag Wire.NdnDtag.freshnessSeconds.code [] [.udata (decimal (UInt32.ofInt (totalSeconds freshness)).toNat)]]
  else []

def finalBlocks (finalBlockId : Component) : List Block :=
  if finalBlockId.bytes ≠ [] then [.dtag Wire.NdnDtag.finalBlockID.code [] (blobChild finalBlockId.bytes)] else []

def keyNameBlock (keyName : Name) : Block :=
  .dtag Wire.NdnDtag.signature.code [] [.dtag Wire.NdnDtag.keyName.code [] [nameBlock keyName]]

def signedInfoBlock (time freshness : Int) (type : Content.Type) (finalBlockId : Component) (digest : Blob)
    (keyName : Name) : Block :=
  .dtag Wire.NdnDtag.signedInfo.code []
    ([.dtag Wire.NdnDtag.publisherPublicKeyDigest.code [] (blobChild digest),
      .blob (timestampBytes time),
      .dtag Wire.NdnDtag.type.code [] [.blob (types type)]] ++
      (freshnessBlocks freshness ++ (finalBlocks finalBlockId ++ [keyNameBlock keyName])))

-- The tree behind the bytes, by the numbers the decoder knows them under.
def dataBlock (time : Int) (finalBlockId : Component) (data : Data) (type : Content.Type) (keyName : Name) : Block :=
  .dtag Wire.NdnDtag.data.code []
    [.dtag Wire.NdnDtag.signature.code []
        [.dtag Wire.NdnDtag.signatureBits.code [] [.blob data.signature.signatureBits]],
      nameBlock data.name,
      signedInfoBlock time data.content.freshness type finalBlockId data.signature.publisherKeyDigest keyName,
      .dtag Wire.NdnDtag.content.code [] [.blob data.content.content]]

theorem elements_freshness (freshness : Int) : Elements (freshnessBlocks freshness) (appendFreshness freshness) := by
  unfold freshnessBlocks appendFreshness
  split
  · refine (element_tag .freshnessSeconds (element_udata ?_).one).one
    exact (Nat.mod_eq_of_lt (Interest.decimal_length (UInt32.toNat_lt _))).symm
  · exact .nil

theorem elements_finalBlock {finalBlockId : Component} (short : finalBlockId.bytes.length < 2^32) :
    Elements (finalBlocks finalBlockId) (appendFinalBlockId finalBlockId) := by
  unfold finalBlocks appendFinalBlockId
  split
  · exact (element_taggedBlob .finalBlockID short).one
  · exact .nil

theorem types_short (type : Content.Type) : (types type).length < 2^32 := by cases type <;> decide

theorem element_keyName {keyName : Name} (short : ShortComponents keyName) :
    Element (keyNameBlock keyName)
      (appendBlockHeader NdnDtag.signature.code .dtag ++ (appendKeyLocator (.keyname keyName) ++ appendCloser)) :=
  element_tag .signature (element_tag .keyName (element_name short).one).one

theorem element_signedInfo (time freshness : Int) (type : Content.Type) {finalBlockId : Component} {digest : Blob}
    {keyName : Name} (shortFinal : finalBlockId.bytes.length < 2^32) (shortDigest : digest.length < 2^32)
    (shortKey : ShortComponents keyName) :
    Element (signedInfoBlock time freshness type finalBlockId digest keyName)
      (appendBlockHeader NdnDtag.signedInfo.code .dtag ++
        ((appendTaggedBlob .publisherPublicKeyDigest digest ++ (appendTimestampBlob time ++
          (appendTaggedBlob .type (types type) ++ (appendFreshness freshness ++ (appendFinalBlockId finalBlockId ++
            (appendBlockHeader NdnDtag.signature.code .dtag ++
              (appendKeyLocator (.keyname keyName) ++ appendCloser))))))) ++ appendCloser)) := by
  apply element_tag .signedInfo
  refine (element_taggedBlob .publisherPublicKeyDigest shortDigest).cons ((element_timestamp time).cons ?_)
  refine Element.cons ?_ ((elements_freshness freshness).append ((elements_finalBlock shortFinal).append
    (element_keyName shortKey).one))
  have typed := element_taggedBlob .type (types_short type)
  rwa [blobChild_short (by cases type <;> exact List.cons_ne_nil _ _) (types_short type)] at typed

theorem element_data (notADateTime : Int) {finalBlockId : Component} {data : Data} {type : Content.Type} {keyName : Name}
    (located : data.signature.keyLocator = .keyname keyName) (typed : data.content.type = some type)
    (bits : data.signature.signatureBits ≠ []) (content : data.content.content ≠ [])
    (shortFinal : finalBlockId.bytes.length < 2^32) (short : Data.ShortFields data keyName) :
    ∃ bytes, appendData notADateTime finalBlockId data = some bytes ∧
      Element (dataBlock (data.content.timestamp.getD notADateTime) finalBlockId data type keyName) bytes := by
  obtain ⟨shortName,shortKey,shortBits,shortDigest,shortContent⟩ := short
  refine ⟨_,by rw [appendData,typed]; rfl,?_⟩
  have signature := element_tag .signature (element_taggedBlob .signatureBits shortBits).one
  have payload := element_taggedBlob .content shortContent
  rw [blobChild_short bits shortBits] at signature
  rw [blobChild_short content shortContent] at payload
  apply element_tag .contentObject
  refine signature.cons ((element_name shortName).cons (Element.cons ?_ payload.one))
  have info := element_signedInfo (data.content.timestamp.getD notADateTime) data.content.freshness type shortFinal
    shortDigest shortKey
  simpa only [appendSignature,located] using info

def readFreshness (freshness : Int) (data : Data) : Data :=
  if freshness ≠ 0 then Data.setFreshness data Content.maxFreshness else data

section Visits
open Data
variable (data : Data)

theorem visit_freshness (freshness : Int) (others : List Block) :
    dataVisitorAll data (freshnessBlocks freshness ++ others) = dataVisitorAll (readFreshness freshness data) others := by
  unfold freshnessBlocks readFreshness
  split
  · rw [List.singleton_append,dataVisitorAll,dataVisitor,Wire.NdnDtag.ofCode_code]
    rfl
  · rfl

theorem visit_finalBlock (finalBlockId : Component) (others : List Block) :
    dataVisitorAll data (finalBlocks finalBlockId ++ others) = dataVisitorAll data others := by
  unfold finalBlocks
  split
  · rw [List.singleton_append,dataVisitorAll,dataVisitor,Wire.NdnDtag.ofCode_code]
    rfl
  · rfl

-- Bytes from 0x80 on are widened with their sign and spill over the bytes in front.
theorem visit_type (type : Content.Type) :
    dataVisitor data (.dtag Wire.NdnDtag.type.code [] [.blob (types type)]) =
      if type = .key then .ok (setType data .key) else .error .ndnbDecodingException := by
  rw [dataVisitor,Wire.NdnDtag.ofCode_code]
  cases type <;> rfl

theorem visit_payload (bytes : Blob) :
    dataVisitor data (.dtag Wire.NdnDtag.content.code [] [.blob bytes]) = .ok (setContent data bytes) := by
  rw [dataVisitor,Wire.NdnDtag.ofCode_code]
  rfl

theorem visit_keyNameBlock (keyName : Name) :
    dataVisitor data (keyNameBlock keyName) =
      (nameVisitor [] (nameBlock keyName)).map (fun name => setKeyLocator data (.keyname name)) := by
  rw [keyNameBlock,dataVisitor,Wire.NdnDtag.ofCode_code]
  exact (visit_one data _).trans (visit_keyName data keyName)

theorem visit_signedInfo (time freshness : Int) (type : Content.Type) (finalBlockId : Component) {digest : Blob}
    (keyName : Name) (filled : digest ≠ []) :
    dataVisitor data (signedInfoBlock time freshness type finalBlockId digest keyName) =
      if type = .key then
        (nameVisitor [] (nameBlock keyName)).map (fun name =>
          setKeyLocator (readFreshness freshness (setType (setPublisherKeyDigest data (write digest digest.length)) .key))
            (.keyname name))
      else .error .ndnbDecodingException := by
  have bare : ∀ data bytes, dataVisitor data (.blob bytes) = .ok data := fun _ _ => by rw [dataVisitor]
  rw [signedInfoBlock,dataVisitor,Wire.NdnDtag.ofCode_code]
  simp only [List.cons_append,List.nil_append,dataVisitorAll,visit_digest,if_neg filled,bare,visit_type,bind,Except.bind]
  by_cases key : type = .key
  · simp only [if_pos key,visit_freshness,visit_finalBlock,visit_one,visit_keyNameBlock]
  · simp only [if_neg key]

end Visits

section Packets
open Data
variable (std : Standard) (notADateTime : Int) {finalBlockId : Component} {data : Data} {type : Content.Type}
  {keyName : Name}

-- What the decoder needs to take a packet the stream encoder wrote.
def Readable (data : Data) (type : Content.Type) (keyName : Name) : Prop :=
  type = .key ∧ NonEmptyComponents data.name ∧ NonEmptyComponents keyName

theorem data_reads (time : Int) (wire : Option SignedBlob) (digest : data.signature.publisherKeyDigest ≠ [])
    (readable : Readable data type keyName) :
    dataVisitor (fresh wire) (dataBlock time finalBlockId data type keyName) = .ok
      {name := received data.name
       signature := ⟨data.signature.signatureBits,
         write data.signature.publisherKeyDigest data.signature.publisherKeyDigest.length,.keyname (received keyName)⟩
       content := ⟨none,some .key,if data.content.freshness ≠ 0 then Content.maxFreshness else 0,data.content.content⟩
       wire := wire} := by
  obtain ⟨key,named,keyed⟩ := readable
  rw [dataBlock,dataVisitor,Wire.NdnDtag.ofCode_code]
  simp only [dataVisitorAll,visit_signature,bind,Except.bind,visit_name,nameBlock_reads data.name named,Except.map,
    visit_signedInfo _ _ _ _ _ _ digest,if_pos key,nameBlock_reads keyName keyed,visit_payload,readFreshness]
  split <;> rfl

theorem data_throws (time : Int) (wire : Option SignedBlob) (digest : data.signature.publisherKeyDigest ≠ [])
    (unreadable : ¬Readable data type keyName) :
    dataVisitor (fresh wire) (dataBlock time finalBlockId data type keyName) = .error .ndnbDecodingException := by
  rw [dataBlock,dataVisitor,Wire.NdnDtag.ofCode_code]
  by_cases named : NonEmptyComponents data.name
  · simp only [dataVisitorAll,visit_signature,bind,Except.bind,visit_name,nameBlock_reads data.name named,Except.map,
      visit_signedInfo _ _ _ _ _ _ digest]
    by_cases key : type = .key
    · have empty : ¬NonEmptyComponents keyName := fun keyed => unreadable ⟨key,named,keyed⟩
      simp only [if_pos key,nameBlock_throws keyName empty]
    · simp only [if_neg key]
  · simp only [dataVisitorAll,visit_signature,bind,Except.bind,visit_name,nameBlock_throws data.name named,Except.map]

theorem deserialize_element (data : Data) {block : Block} {bytes : Blob} (element : Element block bytes) :
    deserialize std data bytes = dataVisitor data block := by
  have parsed := parse_complete std element.encodes []
  rw [List.append_nil] at parsed
  rw [deserialize,parsed]
  rfl

-- What the two ends should agree on.
structure Agrees (data decoded : Data) : Prop where
  name : decoded.name = data.name
  signature : decoded.signature = data.signature
  type : decoded.content.type = data.content.type
  content : decoded.content.content = data.content.content
  timestamp : Option.Rel WithinTick decoded.content.timestamp data.content.timestamp

theorem agrees_short {decoded : Data} (located : data.signature.keyLocator = .keyname keyName)
    (agrees : Agrees data decoded) (short : ShortData decoded) : ShortFields data keyName := by
  obtain ⟨name,signature,_,content,_⟩ := agrees
  obtain ⟨shortName,shortBits,shortDigest,shortKey,shortContent⟩ := short
  rw [name] at shortName
  rw [signature] at shortBits shortDigest shortKey
  rw [content] at shortContent
  exact ⟨shortName,shortKey keyName located,shortBits,shortDigest,shortContent⟩

-- The decoder never sees a timestamp, and of the types it only knows the one whose
-- bytes are all below 0x80.
theorem appendData_exact (located : data.signature.keyLocator = .keyname keyName) (typed : data.content.type = some type)
    (bits : data.signature.signatureBits ≠ []) (digest : data.signature.publisherKeyDigest ≠ [])
    (content : data.content.content ≠ []) (shortFinal : finalBlockId.bytes.length < 2^32) :
    (∃ bytes decoded, appendData notADateTime finalBlockId data = some bytes ∧
        deserialize std (fresh none) bytes = .ok decoded ∧ Agrees data decoded) ↔
      type = .key ∧ data.content.timestamp = none ∧ NonEmptyComponents data.name ∧ NonEmptyComponents keyName ∧
        ShortFields data keyName := by
  constructor
  · intro given
    obtain ⟨bytes,decoded,appended,read,agrees⟩ := given
    have short := agrees_short located agrees (deserialize_short (fresh_short none) read)
    obtain ⟨written,encoded,element⟩ := element_data notADateTime located typed bits content shortFinal short
    cases appended.symm.trans encoded
    rw [deserialize_element std _ element] at read
    by_cases readable : Readable data type keyName
    · rw [data_reads _ _ digest readable] at read
      cases read
      have timestamp : data.content.timestamp = none := by
        have related := agrees.timestamp
        cases time : data.content.timestamp with
        | none => rfl
        | some time =>
          rw [time] at related
          cases related
      exact ⟨readable.1,timestamp,readable.2.1,readable.2.2,short⟩
    · rw [data_throws _ _ digest readable] at read
      cases read
  · intro given
    obtain ⟨key,timestamp,named,keyed,short⟩ := given
    obtain ⟨written,encoded,element⟩ := element_data notADateTime located typed bits content shortFinal short
    refine ⟨written,_,encoded,(deserialize_element std _ element).trans (data_reads _ _ digest ⟨key,named,keyed⟩),?_⟩
    obtain ⟨shortName,shortKey,shortBits,shortDigest,shortContent⟩ := short
    refine ⟨received_short named shortName,?_,typed ▸ congrArg some key.symm,rfl,by rw [timestamp]; exact .none⟩
    rw [received_short keyed shortKey,write_all shortDigest,← located]

def packet (type : Content.Type) (timestamp : Option Int) : Data where
  name := [⟨[0x61]⟩]
  signature := ⟨[7],[1],.keyname [⟨[0x62]⟩]⟩
  content := ⟨timestamp,some type,0,[5]⟩
  wire := none

theorem appendData_exact_key :
    (∃ bytes decoded, appendData 0 ⟨[]⟩ (packet .key none) = some bytes ∧
        deserialize .cxx11 (fresh none) bytes = .ok decoded ∧ Agrees (packet .key none) decoded) ↔
      Content.Type.key = .key ∧ (packet .key none).content.timestamp = none ∧ NonEmptyComponents (packet .key none).name ∧
        NonEmptyComponents [⟨[0x62]⟩] ∧ ShortFields (packet .key none) [⟨[0x62]⟩] :=
  appendData_exact .cxx11 0 rfl rfl (List.cons_ne_nil _ _) (List.cons_ne_nil _ _) (List.cons_ne_nil _ _) (Nat.two_pow_pos 32)

-- An ordinary packet is refused for the third byte of its type, and one with a key
-- comes back without its timestamp.
theorem ordinary_refused :
    (∃ bytes, appendData 0 ⟨[]⟩ (packet .data (some 1000000)) = some bytes ∧
      deserialize .cxx98 (fresh none) bytes = .error .ndnbDecodingException ∧
      deserialize .cxx11 (fresh none) bytes = .error .ndnbDecodingException) ∧
    ∃ bytes decoded, appendData 0 ⟨[]⟩ (packet .key (some 1000000)) = some bytes ∧
      deserialize .cxx11 (fresh none) bytes = .ok decoded ∧ decoded.content.timestamp = none :=
  ⟨⟨_,rfl,rfl,rfl⟩,_,_,rfl,rfl,rfl⟩

end Packets

end NdnCxx.Wire.Ndnb
