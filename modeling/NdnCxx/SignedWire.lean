import NdnCxx.DataCache
import NdnCxx.Wire.Estimate

namespace NdnCxx.Data
open Wire

-- The bytes between `signed_begin` and `signed_end`.
def signedBytes (wire : SignedBlob) : Blob := (wire.bytes.drop wire.signedOffset).take wire.signedSize

-- `verifyMessage` is the RSA check of a signature over a message, by the bytes of a key.
def verifySignature (verifyMessage : Blob → Blob → Blob → Bool) (data : Data) (keyBlob : Blob) : Except Exception Bool :=
  match data.wire with
  | some wire => .ok (verifyMessage keyBlob (signedBytes wire) data.signature.signatureBits)
  | none => .error .nullDereference

-- All that stands before the signed elements when the signature bits take `size` bytes.
def frontSize (size : Nat) : Nat := 2 + (2 + (2 + (estimateBlockHeader size + size) + 1) + 1)

theorem header_two {size : Nat} (least : 16 ≤ size) (most : size < 2048) : estimateBlockHeader size = 2 := by
  have seconds : size >>> 4 = size / 16 := Nat.shiftRight_eq_div_pow size 4
  obtain ⟨value,same⟩ : ∃ value, size / 16 = value + 1 := ⟨size / 16 - 1,by omega⟩
  have shifted : (value + 1) >>> 7 = 0 := by
    rw [Nat.shiftRight_eq_div_pow]
    omega
  rw [estimateBlockHeader,seconds,same,estimateLoop,if_pos (Nat.succ_pos _),shifted]
  cases value with
  | zero => rfl
  | succ fuel => rw [estimateLoop,if_neg (Nat.lt_irrefl 0)]

theorem header_positive (size : Nat) : 0 < estimateBlockHeader size := by
  have grows : ∀ fuel value n, n ≤ estimateLoop fuel value n := by
    intro fuel
    induction fuel with
    | zero => exact fun value n => Nat.le_refl n
    | succ fuel ih =>
      intro value n
      rw [estimateLoop]
      split
      · exact Nat.le_of_succ_le (ih _ _)
      · exact Nat.le_refl n
  exact grows _ _ 1

theorem header_most (size : Nat) : estimateBlockHeader size ≤ 1 + size := by
  have grows : ∀ fuel value n, estimateLoop fuel value n ≤ n + fuel := by
    intro fuel
    induction fuel with
    | zero => exact fun value n => Nat.le_refl n
    | succ fuel ih =>
      intro value n
      rw [estimateLoop]
      split
      · have later := ih (value >>> 7) (n + 1)
        omega
      · omega
  refine (grows _ _ 1).trans ?_
  rw [Nat.shiftRight_eq_div_pow]
  omega

-- The constant of the decoder is met by a 2048-bit signature alone.
theorem frontSize_exact {size : Nat} (least : 16 ≤ size) : frontSize size = magicSignedBlobOffset ↔ size = 256 := by
  have offset : magicSignedBlobOffset = 266 := rfl
  rw [offset,frontSize]
  constructor
  · intro same
    have positive := header_positive size
    have header := header_two least (by omega)
    omega
  · rintro rfl
    rfl

theorem padded_least (bits : Blob) (short : bits.length < 2^32) : 16 ≤ (padded 16 bits).length := by
  unfold padded
  split
  · rename_i long
    rw [write_all short]
    exact Nat.le_of_lt long
  · rw [List.length_append,List.length_replicate]
    omega

theorem signature_length {bits : Blob} (short : bits.length < 2^32) :
    (appendBlockHeader NdnDtag.signature.code TokenType.dtag.code ++
      (appendTaggedBlobWithPadding .signatureBits 16 bits ++ appendCloser)).length + 2 = frontSize (padded 16 bits).length := by
  have tags : (appendBlockHeader NdnDtag.signature.code TokenType.dtag.code).length = 2 ∧
      (appendBlockHeader NdnDtag.signatureBits.code TokenType.dtag.code).length = 2 ∧ appendCloser.length = 1 := by decide
  unfold appendTaggedBlobWithPadding padded frontSize
  split
  · rename_i long
    have some : bits.length > 0 := by omega
    rw [write_all short,appendTaggedBlob,if_pos some,write_all short]
    simp only [List.length_append,tags,header_length]
    omega
  · rename_i few
    have sixteen : bits.length + (16 - bits.length) = 16 := by omega
    simp only [write_all short,List.length_append,List.length_replicate,tags,header_length,sixteen,gt_iff_lt,Nat.ofNat_pos,
      if_true]
    omega

-- Cut at the constant, the packet gives its signed elements back only where the
-- constant is right.
theorem signedBytes_exact {front signed bytes : Blob} {last : UInt8} (split : bytes = front ++ (signed ++ [last]))
    (filled : signed ≠ []) (fits : bytes.length < 2^64) :
    signedBytes (signedBlob bytes) = signed ↔ front.length = magicSignedBlobOffset := by
  have offset : magicSignedBlobOffset = 266 := rfl
  have lengths : bytes.length = front.length + signed.length + 1 := by
    rw [split]
    simp only [List.length_append,List.length_singleton]
    omega
  have some := List.length_pos_iff.mpr filled
  constructor
  · intro same
    have cut := congrArg List.length same
    simp only [signedBytes,signedBlob,List.length_take,List.length_drop,lastCloserSize] at cut
    omega
  · intro right
    have size : (signedBlob bytes).signedSize = signed.length := by
      simp only [signedBlob,lastCloserSize]
      omega
    rw [signedBytes,size]
    show (bytes.drop magicSignedBlobOffset).take signed.length = signed
    rw [split,← right,List.drop_left,List.take_left]

theorem unsigned_filled {notADateTime : ℤ} {data : Data} {unsigned : Blob} {keyName : Name}
    (located : data.signature.keyLocator = .keyname keyName) (written : serializeUnsigned notADateTime data = some unsigned) :
    unsigned ≠ [] := by
  rw [serializeUnsigned,located] at written
  cases written
  exact List.ne_nil_of_length_pos (by simp [appendCloser])

theorem signedBlocks_fields (notADateTime : ℤ) (start : Data) {data : Data} {keyName : Name} (filled : Filled data keyName) :
    ∃ read, dataVisitorAll start (signedBlocks notADateTime data keyName) = .ok
      {start with
        name := data.name
        signature := ⟨start.signature.signatureBits,data.signature.publisherKeyDigest,.keyname keyName⟩
        content := {start.content with timestamp := some read,content := data.content.content}} := by
  obtain ⟨shortName,shortKey,shortBits,shortDigest,shortContent⟩ := filled.short
  have content : data.content.content.length % 2^32 ≠ 0 := by
    rw [Nat.mod_eq_of_lt shortContent]
    exact Nat.ne_of_gt (List.length_pos_iff.mpr filled.content)
  obtain ⟨read,info⟩ := signedInfo_reads {start with name := data.name}
    (data.content.timestamp.getD notADateTime) filled.digest filled.keyed
  rw [write_all shortDigest,received_short filled.keyed shortKey] at info
  refine ⟨read,?_⟩
  simp only [signedBlocks,dataVisitorAll,bind,Except.bind,visit_name,nameBlock_reads data.name filled.named,Except.map,
    received_short filled.named shortName,info,visit_content,if_neg content,write_all shortContent]
  rfl

theorem signed_fields {notADateTime : ℤ} {signer : Signer} {data result : Data}
    (signed : signByCertificate notADateTime signer data = some result) :
    ∃ unsigned, serializeUnsigned notADateTime result = some unsigned ∧ result.wire = some ⟨unsigned,0,unsigned.length⟩ ∧
      result.name = data.name ∧ result.content = data.content ∧
      result.signature.keyLocator = .keyname signer.keyName ∧
      result.signature.publisherKeyDigest = signer.publisherKeyDigest := by
  rw [signByCertificate] at signed
  obtain ⟨unsigned,written,done⟩ := Option.bind_eq_some_iff.mp signed
  cases done
  exact ⟨unsigned,written,rfl,rfl,rfl,rfl,rfl⟩

theorem sent_split {notADateTime : ℤ} {data : Data} {wire : SignedBlob} {bytes unsigned : Blob}
    (encoded : encodeToWire notADateTime data = some bytes) (stored : data.wire = some wire) (whole : portion wire = unsigned) :
    bytes = (appendBlockHeader NdnDtag.data.code TokenType.dtag.code ++
      (appendBlockHeader NdnDtag.signature.code TokenType.dtag.code ++
        (appendTaggedBlobWithPadding .signatureBits 16 data.signature.signatureBits ++ appendCloser))) ++ (unsigned ++ [0]) := by
  rw [encodeToWire,serialize,stored] at encoded
  cases encoded
  subst whole
  simp only [List.append_assoc]
  rfl

-- A signed packet is received with the fields it was signed with; the receiver checks the
-- signature over the bytes that were signed if and only if it is 256 bytes long.
theorem signed_packet_exact (std : Standard) (notADateTime : ℤ) {signer : Signer} {data result : Data}
    (signed : signByCertificate notADateTime signer data = some result) (filled : Filled result signer.keyName)
    (fits : ∀ wire, result.wire = some wire → wire.bytes.length < 2^32) (long : 16 ≤ result.signature.signatureBits.length)
    (verifyMessage : Blob → Blob → Blob → Bool) (keyBlob : Blob)
    (law : ∀ message, verifyMessage keyBlob message result.signature.signatureBits = true ↔
      serializeUnsigned notADateTime result = some message) :
    ∃ bytes decoded, encodeToWire notADateTime result = some bytes ∧ decodeFromWire std bytes = .ok decoded ∧
      decoded.name = data.name ∧ decoded.content.content = data.content.content ∧
      decoded.signature = ⟨result.signature.signatureBits,signer.publisherKeyDigest,.keyname signer.keyName⟩ ∧
      (verifySignature verifyMessage decoded keyBlob = .ok true ↔ result.signature.signatureBits.length = 256) := by
  obtain ⟨unsigned,serialized,stored,name,content,located,digest⟩ := signed_fields signed
  have short : unsigned.length < 2^32 := fits _ stored
  obtain ⟨_,_,shortBits,_,_⟩ := filled.short
  have padding : padded 16 result.signature.signatureBits = result.signature.signatureBits := padded_long long shortBits
  have whole : portion ⟨unsigned,0,unsigned.length⟩ = unsigned := by
    rw [portion,List.drop_zero,List.take_length,write_all short]
  obtain ⟨bytes,encoded,decodes⟩ := portion_decodes std notADateTime stored
    (whole ▸ unsigned_elements notADateTime located serialized)
  obtain ⟨read,visited⟩ := signedBlocks_fields notADateTime
    (setSignatureBits (fresh (some (signedBlob bytes))) result.signature.signatureBits) filled
  rw [padding,visited] at decodes
  refine ⟨bytes,_,encoded,decodes,name,by rw [content],?_,?_⟩
  · rw [digest]
    rfl
  · have cut := sent_split encoded stored whole
    have front := signature_length shortBits
    rw [padding] at front
    have tag : (appendBlockHeader NdnDtag.data.code TokenType.dtag.code).length = 2 := by decide
    have header := header_most result.signature.signatureBits.length
    have lengths := congrArg List.length cut
    simp only [List.length_append,List.length_singleton] at lengths front
    have same := signedBytes_exact cut (unsigned_filled located serialized) (by
      simp only [frontSize] at front
      omega)
    have starts : ∀ before : Blob, before.length + 2 = frontSize result.signature.signatureBits.length →
        (appendBlockHeader NdnDtag.data.code TokenType.dtag.code ++ before).length =
          frontSize result.signature.signatureBits.length := by
      intro before sized
      rw [List.length_append,tag,← sized,Nat.add_comm]
    rw [starts _ (by simpa only [List.length_append] using front),frontSize_exact long] at same
    simp only [verifySignature,setSignatureBits,fresh,Except.ok.injEq,law,serialized,Option.some.injEq]
    exact eq_comm.trans same

def rsaSigner : Signer := ⟨[⟨[0x62]⟩,⟨[0x63]⟩],[1],fun _ => List.replicate 256 7⟩

def rsaSample : Data :=
  {sample [5] with
    signature := ⟨List.replicate 256 7,[1],.keyname [⟨[0x62]⟩]⟩
    wire := (serializeUnsigned 0 (sample [5])).map (fun unsigned => ⟨unsigned,0,unsigned.length⟩)}

theorem signed_packet_exact_rsa : ∃ bytes decoded, encodeToWire 0 rsaSample = some bytes ∧
    decodeFromWire .cxx11 bytes = .ok decoded ∧
    verifySignature (fun _ message _ => decide (serializeUnsigned 0 rsaSample = some message)) decoded [1] = .ok true := by
  have signed : signByCertificate 0 rsaSigner (sample [5]) = some rsaSample := rfl
  have size : rsaSample.signature.signatureBits.length = 256 := List.length_replicate
  have keyName : rsaSigner.keyName = [⟨[0x62]⟩] := rfl
  have filled : Filled rsaSample rsaSigner.keyName := by
    rw [keyName]
    refine ⟨rfl,?_,?_,by decide,List.ne_nil_of_length_pos (by rw [size]; decide),by decide,?_,?_,?_,by decide,by decide⟩
    · exact List.forall_mem_singleton.mpr (by decide)
    · exact List.forall_mem_singleton.mpr (by decide)
    · exact List.forall_mem_singleton.mpr (by decide)
    · exact List.forall_mem_singleton.mpr (by decide)
    · rw [size]
      decide
  obtain ⟨bytes,decoded,encoded,read,_,_,_,verifies⟩ := signed_packet_exact .cxx11 0 signed filled (by decide)
    (by rw [size]; decide) (fun _ message _ => decide (serializeUnsigned 0 rsaSample = some message)) [1]
    (fun _ => decide_eq_true_iff)
  exact ⟨bytes,decoded,encoded,read,verifies.mpr size⟩

end NdnCxx.Data
