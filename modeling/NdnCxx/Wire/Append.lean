import NdnCxx.Wire.Tree

namespace NdnCxx.Wire

-- `ndn_dtag`, as far as the packet encoders and visitors name it.
inductive NdnDtag where
  | name
  | component
  | content
  | signedInfo
  | interest
  | keyLocator
  | keyName
  | signature
  | timestamp
  | type
  | scope
  | answerOriginKind
  | interestLifetime
  | witness
  | signatureBits
  | digestAlgorithm
  | freshnessSeconds
  | finalBlockID
  | publisherPublicKeyDigest
  | data
  | minSuffixComponents
  | maxSuffixComponents
  | childSelector
  deriving DecidableEq, Repr

namespace NdnDtag

def code : NdnDtag → Nat
  | .name => 14
  | .component => 15
  | .content => 19
  | .signedInfo => 20
  | .interest => 26
  | .keyLocator => 28
  | .keyName => 29
  | .signature => 37
  | .timestamp => 39
  | .type => 40
  | .scope => 42
  | .answerOriginKind => 47
  | .interestLifetime => 48
  | .witness => 53
  | .signatureBits => 54
  | .digestAlgorithm => 55
  | .freshnessSeconds => 58
  | .finalBlockID => 59
  | .publisherPublicKeyDigest => 60
  | .data => 64
  | .minSuffixComponents => 83
  | .maxSuffixComponents => 84
  | .childSelector => 85

def all : List NdnDtag :=
  [.name,.component,.content,.signedInfo,.interest,.keyLocator,.keyName,.signature,.timestamp,.type,.scope,
    .answerOriginKind,.interestLifetime,.witness,.signatureBits,.digestAlgorithm,.freshnessSeconds,.finalBlockID,
    .publisherPublicKeyDigest,.data,.minSuffixComponents,.maxSuffixComponents,.childSelector]

-- The label a visitor's switch reaches for a tag number; `none` is its default.
def ofCode (number : Nat) : Option NdnDtag := all.find? (fun dtag => dtag.code == number)

@[simp] theorem ofCode_code (dtag : NdnDtag) : ofCode dtag.code = some dtag := by cases dtag <;> rfl

theorem code_lt (dtag : NdnDtag) : dtag.code < 2^32 := by cases dtag <;> decide

end NdnDtag

def appendTaggedBlob (dtag : NdnDtag) (data : Blob) : Blob :=
  appendBlockHeader dtag.code TokenType.dtag.code ++
    ((if data.length > 0 then
      appendBlockHeader data.length TokenType.blob.code ++ write data data.length
    else []) ++ appendCloser)

def appendTaggedBlobWithPadding (dtag : NdnDtag) (length : Nat) (data : Blob) : Blob :=
  if data.length > length then appendTaggedBlob dtag data
  else
    appendBlockHeader dtag.code TokenType.dtag.code ++
      ((if length > 0 then
        appendBlockHeader length TokenType.blob.code ++
          (write data data.length ++ List.replicate (length - data.length) 0)
      else []) ++ appendCloser)

-- The value `put` keeps of an integer.
def putChar (value : Int) : UInt8 := UInt8.ofNat (value % 256).toNat

-- Turns of the loop that sizes a timestamp: at most five, as `required_bytes`
-- runs from 2 up to 7.
def timestampTurns : Nat → Int → Nat
  | 0,_ => 0
  | turns+1,ts => if ts = 0 then 0 else timestampTurns turns (ts >>> (8 : Nat)) + 1

-- Intervals are counted in microseconds, the resolution of the clock the library
-- reads.
def totalSeconds (time : Int) : Int := time.tdiv 1000000

theorem totalSeconds_nat (time : Nat) : totalSeconds (time : Int) = ((time / 1000000 : Nat) : Int) :=
  (Int.ofNat_tdiv time 1000000).symm

theorem microseconds_nat (time : Nat) : (time : Int).tmod 1000000 = ((time % 1000000 : Nat) : Int) :=
  (Int.ofNat_tmod time 1000000).symm

def requiredBytes (time : Int) : Nat := 2 + timestampTurns 5 (totalSeconds time >>> (4 : Nat))

def timestampBytes (time : Int) : Blob :=
  let ts := totalSeconds time >>> (4 : Nat)
  let fraction := (totalSeconds time % 16) * 4096 +
    ((((time * 1000).tmod 1000000000).tdiv 5 * 8 + 195312).tdiv 390625)
  (List.range (requiredBytes time - 2)).map (fun i => putChar (ts >>> (8 * (requiredBytes time - 3 - i)))) ++
    [putChar (fraction >>> (8 : Nat)),putChar fraction]

def appendTimestampBlob (time : Int) : Blob :=
  appendBlockHeader (requiredBytes time) TokenType.blob.code ++ timestampBytes time

def decimal (number : Nat) : Blob := (Nat.toDigits 10 number).map (fun digit => UInt8.ofNat digit.toNat)

def appendNumber (number : Nat) : Blob :=
  appendBlockHeader (decimal number).length TokenType.udata.code ++ write (decimal number) (decimal number).length

def appendTaggedNumber (dtag : NdnDtag) (number : Nat) : Blob :=
  appendBlockHeader dtag.code TokenType.dtag.code ++ (appendNumber number ++ appendCloser)

def serializeName (name : Name) : Blob :=
  (name.map (fun component => appendTaggedBlob .component component.bytes)).flatten

-- A block an encoder writes: no attribute, and never taken for a closer.
structure Element (block : Block) (bytes : Blob) : Prop where
  encodes : Encodes block bytes
  first : bytes.head? ≠ some 0
  plain : block.isBaseAttr = false

structure Elements (blocks : List Block) (bytes : Blob) : Prop where
  encodes : EncodesMany blocks bytes
  plain : ∀ block ∈ blocks, block.isBaseAttr = false

theorem Elements.nil : Elements [] [] := ⟨.nil,by simp⟩

theorem Element.one {block : Block} {bytes : Blob} (element : Element block bytes) : Elements [block] bytes := by
  refine ⟨?_,by simpa using element.plain⟩
  have single := EncodesMany.cons element.encodes element.first .nil
  rwa [List.append_nil] at single

theorem Elements.append {left right : List Block} {front back : Blob} (first : Elements left front)
    (second : Elements right back) : Elements (left ++ right) (front ++ back) :=
  ⟨many_append first.encodes second.encodes,fun block member =>
    (List.mem_append.mp member).elim (first.plain block) (second.plain block)⟩

theorem Element.cons {block : Block} {blocks : List Block} {front back : Blob} (first : Element block front)
    (others : Elements blocks back) : Elements (block :: blocks) (front ++ back) :=
  first.one.append others

theorem element_dtag {number : Nat} (small : number < 2^32) {blocks : List Block} {body : Blob}
    (inside : Elements blocks body) :
    Element (.dtag number [] blocks) (appendBlockHeader number TokenType.dtag.code ++ (body ++ appendCloser)) where
  encodes := .dtag (header_encodes small .dtag) (by simpa using inside.encodes) (by simp)
    (fun block member => inside.plain block (List.mem_of_mem_head? member))
  first := head_append _ (header_first _ .dtag)
  plain := rfl

theorem element_tag (dtag : NdnDtag) {blocks : List Block} {body : Blob} (inside : Elements blocks body) :
    Element (.dtag dtag.code [] blocks) (appendBlockHeader dtag.code TokenType.dtag.code ++ (body ++ appendCloser)) :=
  element_dtag dtag.code_lt inside

theorem element_blob {bytes : Blob} {length : Nat} (same : bytes.length = length % 2^32) :
    Element (.blob bytes) (appendBlockHeader length TokenType.blob.code ++ bytes) where
  encodes := .blob (by rw [same]; exact header_wraps length .blob)
  first := head_append _ (header_first _ .blob)
  plain := rfl

theorem element_udata {bytes : Blob} {length : Nat} (same : bytes.length = length % 2^32) :
    Element (.udata bytes) (appendBlockHeader length TokenType.udata.code ++ bytes) where
  encodes := .udata (by rw [same]; exact header_wraps length .udata)
  first := head_append _ (header_first _ .udata)
  plain := rfl

theorem write_length (bytes : Blob) : (write bytes bytes.length).length = bytes.length % 2^32 := by
  rw [write,List.length_take]
  exact Nat.min_eq_left (Nat.mod_le _ _)

def blobChild (data : Blob) : List Block :=
  if data.length > 0 then [.blob (write data data.length)] else []

theorem element_taggedBlob (dtag : NdnDtag) (data : Blob) :
    Element (.dtag dtag.code [] (blobChild data)) (appendTaggedBlob dtag data) := by
  apply element_tag
  unfold blobChild
  split
  · exact (element_blob (write_length data)).one
  · exact .nil

-- What the padded encoder leaves for the reader: at least sixteen bytes here.
def padded (length : Nat) (data : Blob) : Blob :=
  if data.length > length then write data data.length
  else data ++ List.replicate (length - data.length) 0

theorem element_padded (dtag : NdnDtag) {length : Nat} (positive : 0 < length) (small : length < 2^32) (data : Blob) :
    Element (.dtag dtag.code [] [.blob (padded length data)]) (appendTaggedBlobWithPadding dtag length data) := by
  unfold appendTaggedBlobWithPadding padded
  split
  · rename_i long
    have tagged := element_taggedBlob dtag data
    rwa [blobChild,if_pos (by omega)] at tagged
  · rename_i fits
    rw [write_all (by omega)]
    refine element_tag dtag (element_blob ?_).one
    rw [Nat.mod_eq_of_lt small]
    simp only [List.length_append,List.length_replicate]
    omega

theorem elements_name (name : Name) :
    Elements (name.map (fun component => .dtag NdnDtag.component.code [] (blobChild component.bytes)))
      (serializeName name) := by
  induction name with
  | nil => exact .nil
  | cons component name ih => exact (element_taggedBlob .component component.bytes).cons ih

theorem turns_le (turns : Nat) (ts : Int) : timestampTurns turns ts ≤ turns := by
  induction turns generalizing ts with
  | zero => exact le_rfl
  | succ turns ih =>
    unfold timestampTurns
    split
    · omega
    · have := ih (ts >>> (8 : Nat))
      omega

theorem timestampBytes_length (time : Int) : (timestampBytes time).length = requiredBytes time := by
  simp only [timestampBytes,List.length_append,List.length_map,List.length_range,List.length_cons,List.length_nil,
    requiredBytes]
  omega

theorem element_timestamp (time : Int) : Element (.blob (timestampBytes time)) (appendTimestampBlob time) := by
  refine element_blob ?_
  rw [timestampBytes_length,Nat.mod_eq_of_lt]
  have := turns_le 5 (totalSeconds time >>> (4 : Nat))
  simp only [requiredBytes]
  omega

end NdnCxx.Wire
