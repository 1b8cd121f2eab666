import NdnCxx.Data
import NdnCxx.Wire.Fields

namespace NdnCxx.Data
open Wire

def contentChild (content : Blob) : List Block :=
  if content.length % 2^32 > 0 then [.blob (write content content.length)] else []

def signedInfoBlock (time : Int) (digest : Blob) (keyName : Name) : Block :=
  .dtag NdnDtag.signedInfo.code []
    [.dtag NdnDtag.publisherPublicKeyDigest.code [] (blobChild digest),
      .dtag NdnDtag.timestamp.code [] [.blob (timestampBytes time)],
      .dtag NdnDtag.keyLocator.code [] [.dtag NdnDtag.keyName.code [] [nameBlock keyName]]]

-- The tree behind the bytes of a packet without a stored wire.
def dataBlock (notADateTime : Int) (data : Data) (keyName : Name) : Block :=
  .dtag NdnDtag.data.code []
    [.dtag NdnDtag.signature.code []
        [.dtag NdnDtag.signatureBits.code [] [.blob (padded 16 data.signature.signatureBits)]],
      nameBlock data.name,
      signedInfoBlock (data.content.timestamp.getD notADateTime) data.signature.publisherKeyDigest keyName,
      .dtag NdnDtag.content.code [] (contentChild data.content.content)]

theorem element_signedInfo (time : Int) (digest : Blob) (keyName : Name) :
    Element (signedInfoBlock time digest keyName)
      (appendBlockHeader NdnDtag.signedInfo.code TokenType.dtag.code ++
        ((appendTaggedBlob .publisherPublicKeyDigest digest ++
          (appendBlockHeader NdnDtag.timestamp.code TokenType.dtag.code ++
            (appendTimestampBlob time ++ appendCloser) ++
          (appendBlockHeader NdnDtag.keyLocator.code TokenType.dtag.code ++
            ((appendBlockHeader NdnDtag.keyName.code TokenType.dtag.code ++
              ((appendBlockHeader NdnDtag.name.code TokenType.dtag.code ++ (serializeName keyName ++ appendCloser)) ++
                appendCloser)) ++ appendCloser)))) ++ appendCloser)) := by
  refine element_tag .signedInfo ((element_taggedBlob .publisherPublicKeyDigest digest).cons ?_)
  refine (element_tag .timestamp (element_timestamp time).one).cons ?_
  exact (element_tag .keyLocator (element_tag .keyName (element_name keyName).one).one).one

theorem element_content (content : Blob) :
    Element (.dtag NdnDtag.content.code [] (contentChild content))
      (appendBlockHeader NdnDtag.content.code TokenType.dtag.code ++
        ((if content.length % 2^32 > 0 then
          appendBlockHeader (content.length % 2^32) TokenType.blob.code ++ write content content.length
        else []) ++ appendCloser)) := by
  apply element_tag
  unfold contentChild
  split
  · refine (element_blob ?_).one
    rw [write_length,Nat.mod_mod]
  · exact .nil

theorem element_signature (bits : Blob) :
    Element (.dtag NdnDtag.signature.code [] [.dtag NdnDtag.signatureBits.code [] [.blob (padded 16 bits)]])
      (appendBlockHeader NdnDtag.signature.code TokenType.dtag.code ++
        (appendTaggedBlobWithPadding .signatureBits 16 bits ++ appendCloser)) :=
  element_tag .signature (element_padded .signatureBits (by decide) (by decide) bits).one

theorem elements_unsigned (notADateTime : Int) {data : Data} {keyName : Name}
    (located : data.signature.keyLocator = .keyname keyName) :
    ∃ signed, serializeUnsigned notADateTime data = some signed ∧
      Elements [nameBlock data.name,
        signedInfoBlock (data.content.timestamp.getD notADateTime) data.signature.publisherKeyDigest keyName,
        .dtag NdnDtag.content.code [] (contentChild data.content.content)] signed := by
  refine ⟨_,by rw [serializeUnsigned,located],?_⟩
  refine (element_name data.name).cons ((element_signedInfo _ _ keyName).cons ?_)
  exact (element_content data.content.content).one

theorem encode_element (notADateTime : Int) (data : Data) {keyName : Name}
    (located : data.signature.keyLocator = .keyname keyName) (unwired : data.wire = none) :
    ∃ bytes, encodeToWire notADateTime data = some bytes ∧ Element (dataBlock notADateTime data keyName) bytes := by
  obtain ⟨signed,serialized,elements⟩ := elements_unsigned notADateTime located
  refine ⟨_,by rw [encodeToWire,serialize,unwired,serialized]; rfl,?_⟩
  have whole := element_tag .data ((element_signature data.signature.signatureBits).cons elements)
  rw [List.append_assoc] at whole
  exact whole

theorem keyName_visits (name : Name) :
    nameVisitor [] (.dtag NdnDtag.keyName.code [] [nameBlock name]) = nameVisitor [] (nameBlock name) := by
  rw [nameVisitor,NdnDtag.ofCode_code,if_neg (by decide)]
  simp only [nameVisitorAll,bind,Except.bind]
  cases nameVisitor [] (nameBlock name) <;> rfl

section Visits
variable (data : Data)

theorem visit_name (name : Name) :
    dataVisitor data (nameBlock name) = (nameVisitor [] (nameBlock name)).map (fun name => {data with name := name}) := by
  rw [nameBlock,dataVisitor,NdnDtag.ofCode_code]
  cases nameVisitor [] (.dtag NdnDtag.name.code [] (nameBlocks name)) <;> rfl

theorem visit_one (block : Block) : dataVisitorAll data [block] = dataVisitor data block := by
  rw [dataVisitorAll]
  cases dataVisitor data block <;> rfl

theorem visit_keyName (name : Name) :
    dataVisitor data (.dtag NdnDtag.keyName.code [] [nameBlock name]) =
      (nameVisitor [] (nameBlock name)).map (fun name => setKeyLocator data (.keyname name)) := by
  rw [dataVisitor,NdnDtag.ofCode_code,← keyName_visits]
  cases nameVisitor [] (.dtag NdnDtag.keyName.code [] [nameBlock name]) <;> rfl

theorem visit_keyLocator (name : Name) :
    dataVisitor data (.dtag NdnDtag.keyLocator.code [] [.dtag NdnDtag.keyName.code [] [nameBlock name]]) =
      (nameVisitor [] (nameBlock name)).map (fun name => setKeyLocator data (.keyname name)) := by
  rw [dataVisitor,NdnDtag.ofCode_code]
  exact (visit_one data _).trans (visit_keyName data name)

theorem visit_digest (digest : Blob) :
    dataVisitor data (.dtag NdnDtag.publisherPublicKeyDigest.code [] (blobChild digest)) =
      if digest = [] then .error .ndnbDecodingException
      else .ok (setPublisherKeyDigest data (write digest digest.length)) := by
  rw [dataVisitor,NdnDtag.ofCode_code]
  by_cases empty : digest = []
  · rw [if_pos empty,empty]
    rfl
  · rw [if_neg empty,blobChild,if_pos (List.length_pos_iff.mpr empty)]
    rfl

theorem visit_content (content : Blob) :
    dataVisitor data (.dtag NdnDtag.content.code [] (contentChild content)) =
      if content.length % 2^32 = 0 then .error .ndnbDecodingException
      else .ok (setContent data (write content content.length)) := by
  rw [dataVisitor,NdnDtag.ofCode_code]
  by_cases empty : content.length % 2^32 = 0
  · rw [if_pos empty,contentChild,if_neg (by omega)]
    rfl
  · rw [if_neg empty,contentChild,if_pos (Nat.pos_of_ne_zero empty)]
    rfl

theorem visit_signature (bits : Blob) :
    dataVisitor data (.dtag NdnDtag.signature.code [] [.dtag NdnDtag.signatureBits.code [] [.blob bits]]) =
      .ok (setSignatureBits data bits) := by
  simp only [dataVisitor,dataVisitorAll,NdnDtag.ofCode_code]
  rfl

theorem visit_timestamp (time : Int) : ∃ read,
    dataVisitor data (.dtag NdnDtag.timestamp.code [] [.blob (timestampBytes time)]) = .ok (setTimestamp data read) := by
  obtain ⟨read,reads⟩ := timestamp_reads time
  refine ⟨read,?_⟩
  rw [dataVisitor,NdnDtag.ofCode_code]
  simp only [onlyBlock,bind,Except.bind,reads]
  rfl

end Visits

-- What the decoder needs to take a packet the encoder wrote.
def Readable (data : Data) (keyName : Name) : Prop :=
  NonEmptyComponents data.name ∧ data.signature.publisherKeyDigest ≠ [] ∧ NonEmptyComponents keyName ∧
    data.content.content.length % 2^32 ≠ 0

theorem signedInfo_reads (data : Data) (time : Int) {digest : Blob} {keyName : Name} (nonempty : digest ≠ [])
    (named : NonEmptyComponents keyName) :
    ∃ read, dataVisitor data (signedInfoBlock time digest keyName) =
      .ok (setKeyLocator (setTimestamp (setPublisherKeyDigest data (write digest digest.length)) read)
        (.keyname (received keyName))) := by
  obtain ⟨read,timed⟩ := visit_timestamp (setPublisherKeyDigest data (write digest digest.length)) time
  refine ⟨read,?_⟩
  rw [signedInfoBlock,dataVisitor,NdnDtag.ofCode_code]
  simp only [dataVisitorAll,visit_digest,if_neg nonempty,bind,Except.bind,timed,visit_keyLocator,
    nameBlock_reads keyName named]
  rfl

theorem signedInfo_throws (data : Data) (time : Int) {digest : Blob} {keyName : Name}
    (unreadable : ¬(digest ≠ [] ∧ NonEmptyComponents keyName)) :
    dataVisitor data (signedInfoBlock time digest keyName) = .error .ndnbDecodingException := by
  rw [signedInfoBlock,dataVisitor,NdnDtag.ofCode_code]
  by_cases nonempty : digest = []
  · simp only [dataVisitorAll,visit_digest,if_pos nonempty]
    rfl
  · have empty : ¬NonEmptyComponents keyName := fun named => unreadable ⟨nonempty,named⟩
    obtain ⟨read,timed⟩ := visit_timestamp (setPublisherKeyDigest data (write digest digest.length)) time
    simp only [dataVisitorAll,visit_digest,if_neg nonempty,bind,Except.bind,timed,visit_keyLocator,
      nameBlock_throws keyName empty]
    rfl

theorem dataBlock_reads (notADateTime : Int) (data : Data) (keyName : Name) (wire : Option SignedBlob)
    (readable : Readable data keyName) :
    ∃ read, dataVisitor (fresh wire) (dataBlock notADateTime data keyName) = .ok
      {name := received data.name
       signature := ⟨padded 16 data.signature.signatureBits,
         write data.signature.publisherKeyDigest data.signature.publisherKeyDigest.length,.keyname (received keyName)⟩
       content := ⟨some read,none,0,write data.content.content data.content.content.length⟩
       wire := wire} := by
  obtain ⟨named,digest,keyed,content⟩ := readable
  obtain ⟨read,info⟩ := signedInfo_reads
    {setSignatureBits (fresh wire) (padded 16 data.signature.signatureBits) with name := received data.name}
    (data.content.timestamp.getD notADateTime) digest keyed
  refine ⟨read,?_⟩
  rw [dataBlock,dataVisitor,NdnDtag.ofCode_code]
  simp only [dataVisitorAll,visit_signature,bind,Except.bind,visit_name,nameBlock_reads data.name named,Except.map,info,
    visit_content,if_neg content]
  rfl

theorem dataBlock_throws (notADateTime : Int) (data : Data) (keyName : Name) (wire : Option SignedBlob)
    (unreadable : ¬Readable data keyName) :
    dataVisitor (fresh wire) (dataBlock notADateTime data keyName) = .error .ndnbDecodingException := by
  rw [dataBlock,dataVisitor,NdnDtag.ofCode_code]
  by_cases named : NonEmptyComponents data.name
  · by_cases signed : data.signature.publisherKeyDigest ≠ [] ∧ NonEmptyComponents keyName
    · obtain ⟨read,info⟩ := signedInfo_reads
        {setSignatureBits (fresh wire) (padded 16 data.signature.signatureBits) with name := received data.name}
        (data.content.timestamp.getD notADateTime) signed.1 signed.2
      have content : data.content.content.length % 2^32 = 0 := by
        by_contra nonzero
        exact unreadable ⟨named,signed.1,signed.2,nonzero⟩
      simp only [dataVisitorAll,visit_signature,bind,Except.bind,visit_name,nameBlock_reads data.name named,Except.map,
        info,visit_content,if_pos content]
    · simp only [dataVisitorAll,visit_signature,bind,Except.bind,visit_name,nameBlock_reads data.name named,Except.map,
        signedInfo_throws _ _ signed]
  · simp only [dataVisitorAll,visit_signature,bind,Except.bind,visit_name,nameBlock_throws data.name named,Except.map]

theorem decode_element (std : Standard) {block : Block} {bytes : Blob} (element : Element block bytes) :
    decodeFromWire std bytes = dataVisitor (fresh (some (signedBlob bytes))) block := by
  have parsed := parse_complete std element.encodes []
  rw [List.append_nil] at parsed
  rw [decodeFromWire,parsed]
  rfl

def ShortFields (data : Data) (keyName : Name) : Prop :=
  ShortComponents data.name ∧ ShortComponents keyName ∧ data.signature.signatureBits.length < 2^32 ∧
    data.signature.publisherKeyDigest.length < 2^32 ∧ data.content.content.length < 2^32

theorem padded_long {bits : Blob} (long : 16 ≤ bits.length) (short : bits.length < 2^32) : padded 16 bits = bits := by
  unfold padded
  split
  · exact write_all short
  · rename_i fits
    simp only [gt_iff_lt,not_lt] at fits
    simp [le_antisymm fits long]

theorem data_roundtrip (std : Standard) (notADateTime : Int) (data : Data) (keyName : Name)
    (located : data.signature.keyLocator = .keyname keyName) (unwired : data.wire = none)
    (long : 16 ≤ data.signature.signatureBits.length) (named : NonEmptyComponents data.name)
    (keyed : NonEmptyComponents keyName) (digest : data.signature.publisherKeyDigest ≠ [])
    (content : data.content.content ≠ []) (short : ShortFields data keyName) :
    ∃ bytes decoded, encodeToWire notADateTime data = some bytes ∧ decodeFromWire std bytes = .ok decoded ∧
      decoded.name = data.name ∧ decoded.signature = data.signature ∧
      decoded.content.content = data.content.content := by
  obtain ⟨shortName,shortKey,shortBits,shortDigest,shortContent⟩ := short
  obtain ⟨bytes,encoded,element⟩ := encode_element notADateTime data located unwired
  have filled : data.content.content.length % 2^32 ≠ 0 := by
    rw [Nat.mod_eq_of_lt shortContent]
    exact Nat.ne_of_gt (List.length_pos_iff.mpr content)
  obtain ⟨read,reads⟩ := dataBlock_reads notADateTime data keyName (some (signedBlob bytes))
    ⟨named,digest,keyed,filled⟩
  refine ⟨bytes,_,encoded,(decode_element std element).trans reads,received_short named shortName,?_,
    write_all shortContent⟩
  rw [padded_long long shortBits,write_all shortDigest,received_short keyed shortKey,← located]

def sample (content : Blob) : Data where
  name := [⟨[0x61]⟩]
  signature := ⟨List.replicate 16 7,[1],.keyname [⟨[0x62]⟩]⟩
  content := ⟨some 0,none,0,content⟩
  wire := none

theorem data_roundtrip_sample : ∃ bytes decoded, encodeToWire 0 (sample [5]) = some bytes ∧
    decodeFromWire .cxx11 bytes = .ok decoded ∧ decoded.name = [⟨[0x61]⟩] ∧
    decoded.signature = (sample [5]).signature ∧ decoded.content.content = [5] :=
  data_roundtrip .cxx11 0 (sample [5]) [⟨[0x62]⟩] rfl rfl (by decide) (by simp [NonEmptyComponents,sample])
    (by simp [NonEmptyComponents]) (by decide) (by decide)
    (by simp [ShortFields,ShortComponents,sample])

-- 2^32 bytes of content: the payload size wraps to zero and nothing is written.
theorem oversized_content : ∃ bytes, encodeToWire 0 (sample (List.replicate (2^32) 0)) = some bytes ∧
    decodeFromWire .cxx98 bytes = .error .ndnbDecodingException ∧
    decodeFromWire .cxx11 bytes = .error .ndnbDecodingException := by
  obtain ⟨bytes,encoded,element⟩ := encode_element 0 (sample (List.replicate (2^32) 0)) rfl rfl
  have unreadable : ¬Readable (sample (List.replicate (2^32) 0)) [⟨[0x62]⟩] := by
    intro given
    obtain ⟨_,_,_,nonzero⟩ := given
    simp only [sample,List.length_replicate] at nonzero
    exact nonzero (Nat.mod_self _)
  exact ⟨bytes,encoded,
    (decode_element .cxx98 element).trans (dataBlock_throws 0 _ _ _ unreadable),
    (decode_element .cxx11 element).trans (dataBlock_throws 0 _ _ _ unreadable)⟩

theorem write_whole {bytes : Blob} (same : write bytes bytes.length = bytes) : bytes.length < 2^32 := by
  have lengths := write_length bytes
  rw [same] at lengths
  rw [lengths]
  exact Nat.mod_lt _ (by decide)

theorem accepts_exact (std : Standard) (notADateTime : Int) (data : Data) (keyName : Name)
    (located : data.signature.keyLocator = .keyname keyName) (unwired : data.wire = none) :
    ∃ bytes, encodeToWire notADateTime data = some bytes ∧
      ((∃ decoded, decodeFromWire std bytes = .ok decoded ∧ decoded.content.content = data.content.content ∧
          decoded.signature.publisherKeyDigest = data.signature.publisherKeyDigest) ↔
        NonEmptyComponents data.name ∧ NonEmptyComponents keyName ∧
        0 < data.signature.publisherKeyDigest.length ∧ data.signature.publisherKeyDigest.length < 2^32 ∧
        0 < data.content.content.length ∧ data.content.content.length < 2^32) := by
  obtain ⟨bytes,encoded,element⟩ := encode_element notADateTime data located unwired
  refine ⟨bytes,encoded,?_⟩
  rw [decode_element std element]
  by_cases readable : Readable data keyName
  · obtain ⟨read,reads⟩ := dataBlock_reads notADateTime data keyName (some (signedBlob bytes)) readable
    obtain ⟨named,digest,keyed,filled⟩ := readable
    rw [reads]
    constructor
    · intro given
      obtain ⟨decoded,result,sameContent,sameDigest⟩ := given
      cases result
      have shortContent := write_whole sameContent
      rw [Nat.mod_eq_of_lt shortContent] at filled
      exact ⟨named,keyed,List.length_pos_iff.mpr digest,write_whole sameDigest,Nat.pos_of_ne_zero filled,shortContent⟩
    · intro given
      obtain ⟨_,_,_,shortDigest,_,shortContent⟩ := given
      exact ⟨_,rfl,write_all shortContent,write_all shortDigest⟩
  · rw [dataBlock_throws notADateTime data keyName _ readable]
    constructor
    · intro given
      obtain ⟨decoded,result,_⟩ := given
      cases result
    · intro given
      obtain ⟨named,keyed,digest,_,filled,shortContent⟩ := given
      refine absurd ⟨named,List.length_pos_iff.mp digest,keyed,?_⟩ readable
      rw [Nat.mod_eq_of_lt shortContent]
      exact Nat.ne_of_gt filled

theorem accepts_exact_sample : ∃ bytes, encodeToWire 0 (sample [5]) = some bytes ∧
    ((∃ decoded, decodeFromWire .cxx11 bytes = .ok decoded ∧ decoded.content.content = [5] ∧
        decoded.signature.publisherKeyDigest = [1]) ↔
      NonEmptyComponents [⟨[0x61]⟩] ∧ NonEmptyComponents [⟨[0x62]⟩] ∧
      0 < ([1] : Blob).length ∧ ([1] : Blob).length < 2^32 ∧ 0 < ([5] : Blob).length ∧ ([5] : Blob).length < 2^32) :=
  accepts_exact .cxx11 0 (sample [5]) [⟨[0x62]⟩] rfl rfl

-- An empty content is written as a Content element without a block inside, which
-- the decoder refuses.
theorem empty_content : ∃ bytes, encodeToWire 0 (sample []) = some bytes ∧
    decodeFromWire .cxx98 bytes = .error .ndnbDecodingException ∧
    decodeFromWire .cxx11 bytes = .error .ndnbDecodingException :=
  ⟨_,rfl,rfl,rfl⟩

end NdnCxx.Data
