import NdnCxx.Interest

namespace NdnCxx.Wire

-- The count `n` of the loop in `AppendBlockHeader`.
def headerCount : Nat → Nat → Nat → Nat
  | 0,_,n => n
  | fuel+1,val,n => if val = 0 then n else headerCount fuel (val >>> 7) (n + 1)

-- What the writers report, next to the bytes they write. The counters are `size_t`,
-- which no object in memory exceeds.
def blockHeaderWritten (val : Nat) : Nat := headerCount (val >>> 4) (val >>> 4) 1

def numberWritten (number : Nat) : Nat := blockHeaderWritten (decimal number).length + (decimal number).length

def timestampBlobWritten (time : Int) : Nat := blockHeaderWritten (requiredBytes time) + requiredBytes time

def taggedBlobWritten (dtag : UInt32) (size : Nat) : Nat :=
  blockHeaderWritten dtag.toNat + (if size > 0 then blockHeaderWritten size + size else 0) + 1

def stringWritten (dtag : UInt32) (size : Nat) : Nat :=
  blockHeaderWritten dtag.toNat + (blockHeaderWritten size + size) + 1

def nameWritten (name : Name) : Nat :=
  name.foldl (fun written component =>
    written + taggedBlobWritten (UInt32.ofNat NdnDtag.component.code) component.size) 0

-- `AppendTaggedBlob` for any tag, and `AppendString`.
def appendTagged (dtag : UInt32) (data : Blob) : Blob :=
  appendBlockHeader dtag.toNat TokenType.dtag.code ++
    ((if data.length > 0 then
      appendBlockHeader data.length TokenType.blob.code ++ write data data.length
    else []) ++ appendCloser)

def appendString (dtag : UInt32) (string : Blob) : Blob :=
  appendBlockHeader dtag.toNat TokenType.dtag.code ++
    (appendBlockHeader string.length TokenType.udata.code ++ write string string.length ++ appendCloser)

def estimateLoop : Nat → Nat → Nat → Nat
  | 0,_,n => n
  | fuel+1,value,n => if value > 0 then estimateLoop fuel (value >>> 7) (n + 1) else n

def estimateBlockHeader (value : Nat) : Nat := estimateLoop (value >>> 4) (value >>> 4) 1

def estimateNumber (number : Nat) : Nat := estimateBlockHeader (decimal number).length + (decimal number).length

-- The loop over the seconds is the one of the writer.
def estimateTimestampBlob (time : Int) : Nat := estimateBlockHeader (requiredBytes time) + requiredBytes time

def estimateTaggedBlob (dtag : UInt32) (size : Nat) : Nat :=
  if size > 0 then estimateBlockHeader dtag.toNat + estimateBlockHeader size + size + 1
  else estimateBlockHeader dtag.toNat + 1

def estimateString (dtag : UInt32) (size : Nat) : Nat :=
  estimateBlockHeader dtag.toNat + estimateBlockHeader size + size + 1

def serializedSizeName (name : Name) : Nat :=
  name.foldl (fun written component =>
    written + estimateTaggedBlob (UInt32.ofNat NdnDtag.component.code) component.size) 0

theorem appendTagged_code (dtag : NdnDtag) (data : Blob) :
    appendTagged (UInt32.ofNat dtag.code) data = appendTaggedBlob dtag data := by
  have code : (UInt32.ofNat dtag.code).toNat = dtag.code := by
    rw [UInt32.toNat_ofNat']
    exact Nat.mod_eq_of_lt dtag.code_lt
  rw [appendTagged,code,appendTaggedBlob]

theorem estimateLoop_count (fuel val n : Nat) : headerCount fuel val n = estimateLoop fuel val n := by
  induction fuel generalizing val n with
  | zero => rfl
  | succ fuel ih =>
    rw [headerCount,estimateLoop,ih]
    by_cases zero : val = 0
    · rw [if_pos zero,if_neg (by omega)]
    · rw [if_neg zero,if_pos (by omega)]

theorem headerBuffer_length (close fuel val : Nat) (p : Blob) :
    (headerBuffer close fuel val p).length = headerCount fuel val p.length := by
  induction fuel generalizing val p with
  | zero => rfl
  | succ fuel ih =>
    rw [headerBuffer,headerCount]
    split
    · rfl
    · exact ih _ _

theorem header_reported (val : Nat) : blockHeaderWritten val = estimateBlockHeader val := estimateLoop_count _ _ 1

theorem header_length (val tt : Nat) : (appendBlockHeader val tt).length = estimateBlockHeader val :=
  (headerBuffer_length ndnClose _ _ _).trans (header_reported val)

theorem number_length {number : Nat} (short : (decimal number).length < 2^32) :
    (appendNumber number).length = estimateNumber number := by
  rw [appendNumber,List.length_append,header_length,write_all short,estimateNumber]

theorem timestamp_length (time : Int) : (appendTimestampBlob time).length = estimateTimestampBlob time := by
  rw [appendTimestampBlob,List.length_append,header_length,timestampBytes_length,estimateTimestampBlob]

theorem tagged_reported (dtag : UInt32) (size : Nat) : taggedBlobWritten dtag size = estimateTaggedBlob dtag size := by
  rw [taggedBlobWritten,estimateTaggedBlob,header_reported,header_reported]
  split
  · omega
  · rfl

-- The length is cut to 32 bits where the bytes are written, and nowhere else.
def lost (size : Nat) : Nat := size - size % 2^32

theorem lost_zero (size : Nat) : lost size = 0 ↔ size < 2^32 := by
  unfold lost
  omega

theorem written_lost (data : Blob) : (write data data.length).length + lost data.length = data.length := by
  rw [write_length,lost]
  omega

theorem tagged_length (dtag : UInt32) (data : Blob) :
    (appendTagged dtag data).length + lost data.length = estimateTaggedBlob dtag data.length := by
  have written := written_lost data
  rw [appendTagged,estimateTaggedBlob]
  split
  · simp only [List.length_append,header_length,appendCloser,List.length_singleton]
    omega
  · have none : lost data.length = 0 := (lost_zero _).mpr (by omega)
    simp only [List.length_append,header_length,appendCloser,List.length_singleton,List.length_nil]
    omega

theorem string_length (dtag : UInt32) (string : Blob) :
    (appendString dtag string).length + lost string.length = estimateString dtag string.length := by
  have written := written_lost string
  simp only [appendString,estimateString,List.length_append,header_length,appendCloser,List.length_singleton]
  omega

theorem sizes_from (start : Nat) (name : Name) :
    name.foldl (fun written component =>
      written + estimateTaggedBlob (UInt32.ofNat NdnDtag.component.code) component.size) start =
        start + serializedSizeName name := by
  unfold serializedSizeName
  induction name generalizing start with
  | nil => rfl
  | cons component name ih =>
    rw [List.foldl_cons,ih,List.foldl_cons,ih (0 + _)]
    omega

theorem serializedSizeName_cons (component : Component) (name : Name) :
    serializedSizeName (component :: name) =
      estimateTaggedBlob (UInt32.ofNat NdnDtag.component.code) component.size + serializedSizeName name := by
  rw [serializedSizeName,List.foldl_cons,sizes_from,Nat.zero_add]

theorem name_length (name : Name) :
    (serializeName name).length + (name.map (fun component => lost component.size)).sum = serializedSizeName name := by
  induction name with
  | nil => rfl
  | cons component name ih =>
    have first := tagged_length (UInt32.ofNat NdnDtag.component.code) component.bytes
    rw [appendTagged_code] at first
    have joined : serializeName (component :: name) = appendTaggedBlob .component component.bytes ++ serializeName name := rfl
    rw [serializedSizeName_cons,joined,List.length_append,List.map_cons,List.sum_cons,Component.size]
    omega

theorem name_lost (name : Name) :
    (name.map (fun component => lost component.size)).sum = 0 ↔ ShortComponents name := by
  rw [List.sum_eq_zero_iff,ShortComponents]
  simp only [List.forall_mem_map,lost_zero,Component.size]

theorem name_reported (name : Name) : nameWritten name = serializedSizeName name := by
  simp only [nameWritten,serializedSizeName,tagged_reported]

theorem estimates_exact (val tt : Nat) (number dtag : UInt32) (time : Int) (data string : Blob) (name : Name) :
    ((appendBlockHeader val tt).length = estimateBlockHeader val ∧ blockHeaderWritten val = estimateBlockHeader val) ∧
    ((appendNumber number.toNat).length = estimateNumber number.toNat ∧
      numberWritten number.toNat = estimateNumber number.toNat) ∧
    ((appendTimestampBlob time).length = estimateTimestampBlob time ∧
      timestampBlobWritten time = estimateTimestampBlob time) ∧
    ((appendTagged dtag data).length = estimateTaggedBlob dtag data.length ∧
      taggedBlobWritten dtag data.length = estimateTaggedBlob dtag data.length ↔ data.length < 2^32) ∧
    ((appendString dtag string).length = estimateString dtag string.length ∧
      stringWritten dtag string.length = estimateString dtag string.length ↔ string.length < 2^32) ∧
    ((serializeName name).length = serializedSizeName name ∧ nameWritten name = serializedSizeName name ↔
      ShortComponents name) := by
  refine ⟨⟨header_length val tt,header_reported val⟩,?_,⟨timestamp_length time,congrArg (· + _) (header_reported _)⟩,?_,?_,?_⟩
  · have short := Interest.decimal_length number.toNat_lt
    exact ⟨number_length short,congrArg (· + _) (header_reported _)⟩
  · have length := tagged_length dtag data
    rw [and_iff_left (tagged_reported dtag data.length),← lost_zero]
    omega
  · have length := string_length dtag string
    have reported : stringWritten dtag string.length = estimateString dtag string.length := by
      rw [stringWritten,estimateString,header_reported,header_reported]
      omega
    rw [and_iff_left reported,← lost_zero]
    omega
  · have length := name_length name
    rw [and_iff_left (name_reported name),← name_lost]
    omega

theorem zeros_length (dtag : UInt32) (size : Nat) :
    (appendTagged dtag (List.replicate size 0)).length + lost size = estimateTaggedBlob dtag size := by
  have length := tagged_length dtag (List.replicate size 0)
  rwa [List.length_replicate] at length

-- Of 2^32 bytes none is written, but all are counted.
theorem oversized_blob : taggedBlobWritten 15 (2^32) = estimateTaggedBlob 15 (2^32) ∧
    (appendTagged 15 (List.replicate (2^32) 0)).length + 2^32 = estimateTaggedBlob 15 (2^32) ∧
    (appendTagged 15 (List.replicate (2^32) 0)).length ≠ estimateTaggedBlob 15 (2^32) := by
  have length := zeros_length 15 (2^32)
  have all : lost (2^32) = 2^32 := by decide
  rw [all] at length
  exact ⟨tagged_reported 15 (2^32),length,by omega⟩

end NdnCxx.Wire
