import NdnCxx.DataRoundTrip

namespace NdnCxx.Data
open Wire

-- What a visit writes, independent of the packet it starts from.
structure Patch where
  name : Option Name
  signatureBits : Option Blob
  publisherKeyDigest : Option Blob
  keyLocator : Option KeyLocator
  timestamp : Option Int
  type : Option Content.Type
  freshness : Option Int
  content : Option Blob

namespace Patch

def empty : Patch := ⟨none,none,none,none,none,none,none,none⟩

def apply (patch : Patch) (data : Data) : Data where
  name := patch.name.getD data.name
  signature :=
    ⟨patch.signatureBits.getD data.signature.signatureBits,
      patch.publisherKeyDigest.getD data.signature.publisherKeyDigest,
      patch.keyLocator.getD data.signature.keyLocator⟩
  content :=
    ⟨patch.timestamp.or data.content.timestamp,patch.type.or data.content.type,
      patch.freshness.getD data.content.freshness,patch.content.getD data.content.content⟩
  wire := data.wire

def andThen (first second : Patch) : Patch where
  name := second.name.or first.name
  signatureBits := second.signatureBits.or first.signatureBits
  publisherKeyDigest := second.publisherKeyDigest.or first.publisherKeyDigest
  keyLocator := second.keyLocator.or first.keyLocator
  timestamp := second.timestamp.or first.timestamp
  type := second.type.or first.type
  freshness := second.freshness.or first.freshness
  content := second.content.or first.content

theorem andThen_apply (first second : Patch) (data : Data) :
    (first.andThen second).apply data = second.apply (first.apply data) := by
  simp [apply,andThen,Option.or_assoc]

end Patch

-- Whether a visit gets to an element with the given tag: it descends through the
-- containers of the switch and through plain TAGs only.
mutual
def reaches (target : NdnDtag) : Block → Bool
  | .tag _ attrs nested => reachesAny target attrs || reachesAny target nested
  | .dtag number _ nested =>
    match NdnDtag.ofCode number with
    | some .data => reachesAny target nested
    | some .signature => reachesAny target nested
    | some .signedInfo => reachesAny target nested
    | some .keyLocator => reachesAny target nested
    | some dtag => dtag == target
    | none => false
  | .blob _ => false
  | .udata _ => false
  | .attr _ _ => false
  | .dattr _ _ => false
  | .ext _ => false
def reachesAny (target : NdnDtag) : List Block → Bool
  | [] => false
  | block :: others => reaches target block || reachesAny target others
end

structure Touches (patch : Patch) (reach : NdnDtag → Bool) : Prop where
  name : patch.name.isSome = reach .name
  keyLocator : patch.keyLocator.isSome = reach .keyName
  timestamp : patch.timestamp.isSome = reach .timestamp
  content : patch.content.isSome = reach .content
  located : patch.keyLocator ≠ some .notset

structure Writes (patch : Patch) (visit : Data → Except Exception Data) (reach : NdnDtag → Bool) : Prop where
  applies : ∀ data, visit data = .ok (patch.apply data)
  touches : Touches patch reach

def Uniform (visit : Data → Except Exception Data) (reach : NdnDtag → Bool) : Prop :=
  (∃ thrown, ∀ data, visit data = .error thrown) ∨ ∃ patch, Writes patch visit reach

theorem uniform_nothing : Uniform .ok (fun _ => false) :=
  .inr ⟨.empty,fun _ => rfl,rfl,rfl,rfl,rfl,nofun⟩

theorem touches_andThen {first second : Patch} {left right : NdnDtag → Bool} (before : Touches first left)
    (after : Touches second right) : Touches (first.andThen second) (fun target => left target || right target) where
  name := by simp [Patch.andThen,Option.isSome_or,after.name,before.name,Bool.or_comm]
  keyLocator := by simp [Patch.andThen,Option.isSome_or,after.keyLocator,before.keyLocator,Bool.or_comm]
  timestamp := by simp [Patch.andThen,Option.isSome_or,after.timestamp,before.timestamp,Bool.or_comm]
  content := by simp [Patch.andThen,Option.isSome_or,after.content,before.content,Bool.or_comm]
  located := by
    have earlier := before.located
    have later := after.located
    simp only [Patch.andThen]
    cases set : second.keyLocator with
    | none => exact earlier
    | some locator =>
      rw [set] at later
      exact later

theorem uniform_andThen {first second : Data → Except Exception Data} {left right : NdnDtag → Bool}
    (before : Uniform first left) (after : Uniform second right) :
    Uniform (fun data => first data >>= second) (fun target => left target || right target) := by
  rcases before with ⟨thrown,throws⟩ | ⟨patch,writes⟩
  · exact .inl ⟨thrown,fun data => by simp only [throws]; rfl⟩
  · rcases after with ⟨thrown,throws⟩ | ⟨next,following⟩
    · exact .inl ⟨thrown,fun data => by simp only [writes.applies]; exact throws _⟩
    · refine .inr ⟨patch.andThen next,?_,touches_andThen writes.touches following.touches⟩
      intro data
      simp only [writes.applies,Patch.andThen_apply]
      exact following.applies _

-- A field that is set from a value read off the block alone.
theorem uniform_field {α : Type} {visit : Data → Except Exception Data} {reach : NdnDtag → Bool}
    (value : Except Exception α) (set : α → Patch)
    (same : ∀ data, visit data = (value >>= fun read => pure ((set read).apply data)))
    (fields : ∀ read, Touches (set read) reach) : Uniform visit reach := by
  cases value with
  | error thrown => exact .inl ⟨thrown,same⟩
  | ok read => exact .inr ⟨set read,same,fields read⟩

mutual
theorem visitor_uniform : ∀ block : Block, Uniform (fun data => dataVisitor data block) (fun target => reaches target block)
  | .blob _ => uniform_nothing
  | .udata _ => uniform_nothing
  | .attr _ _ => uniform_nothing
  | .dattr _ _ => uniform_nothing
  | .ext _ => uniform_nothing
  | .tag _ attrs nested => by
    simp only [dataVisitor,reaches]
    exact uniform_andThen (visitorAll_uniform attrs) (visitorAll_uniform nested)
  | .dtag number attrs nested => by
    have inside := visitorAll_uniform nested
    cases found : NdnDtag.ofCode number with
    | none =>
      simp only [dataVisitor,reaches,found]
      exact uniform_nothing
    | some dtag =>
      simp only [dataVisitor,reaches,found]
      cases dtag with
      | data => exact inside
      | signature => exact inside
      | signedInfo => exact inside
      | keyLocator => exact inside
      | signatureBits =>
        exact uniform_field (onlyBlob nested) (fun bits => {Patch.empty with signatureBits := some bits})
          (fun _ => rfl) (fun _ => ⟨rfl,rfl,rfl,rfl,nofun⟩)
      | publisherPublicKeyDigest =>
        exact uniform_field (onlyBlob nested) (fun digest => {Patch.empty with publisherKeyDigest := some digest})
          (fun _ => rfl) (fun _ => ⟨rfl,rfl,rfl,rfl,nofun⟩)
      | content =>
        exact uniform_field (onlyBlob nested) (fun content => {Patch.empty with content := some content})
          (fun _ => rfl) (fun _ => ⟨rfl,rfl,rfl,rfl,nofun⟩)
      | name =>
        exact uniform_field (nameVisitor [] (.dtag number attrs nested)) (fun name => {Patch.empty with name := some name})
          (fun _ => rfl) (fun _ => ⟨rfl,rfl,rfl,rfl,nofun⟩)
      | keyName =>
        exact uniform_field (nameVisitor [] (.dtag number attrs nested))
          (fun name => {Patch.empty with keyLocator := some (.keyname name)})
          (fun _ => rfl) (fun _ => ⟨rfl,rfl,rfl,rfl,nofun⟩)
      | timestamp =>
        exact uniform_field (onlyBlock nested >>= timestampVisitor) (fun time => {Patch.empty with timestamp := some time})
          (fun _ => (bind_assoc _ _ _).symm) (fun _ => ⟨rfl,rfl,rfl,rfl,nofun⟩)
      | type =>
        refine uniform_field (onlyBlock nested >>= fun block => contentTypeVisitor block >>= toType)
          (fun type => {Patch.empty with type := some type}) (fun data => ?_) (fun _ => ⟨rfl,rfl,rfl,rfl,nofun⟩)
        rw [bind_assoc]
        exact congrArg (onlyBlock nested >>= ·) (funext fun _ => (bind_assoc _ _ _).symm)
      | freshnessSeconds =>
        exact uniform_field (.ok ()) (fun _ => {Patch.empty with freshness := some Content.maxFreshness})
          (fun _ => rfl) (fun _ => ⟨rfl,rfl,rfl,rfl,nofun⟩)
      | _ => exact .inr ⟨.empty,fun _ => rfl,rfl,rfl,rfl,rfl,nofun⟩
theorem visitorAll_uniform :
    ∀ blocks : List Block, Uniform (fun data => dataVisitorAll data blocks) (fun target => reachesAny target blocks)
  | [] => uniform_nothing
  | block :: others => by
    simp only [dataVisitorAll,reachesAny]
    exact uniform_andThen (visitor_uniform block) (visitorAll_uniform others)
end

theorem visitorAll_writes {data result : Data} {blocks : List Block} (visited : dataVisitorAll data blocks = .ok result) :
    ∃ patch, Writes patch (fun data => dataVisitorAll data blocks) (fun target => reachesAny target blocks) ∧
      result = patch.apply data := by
  rcases visitorAll_uniform blocks with ⟨thrown,throws⟩ | ⟨patch,writes⟩
  · cases (throws data).symm.trans visited
  · exact ⟨patch,writes,Except.ok.inj (visited.symm.trans (writes.applies data))⟩

theorem visitorAll_append (data : Data) (left right : List Block) :
    dataVisitorAll data (left ++ right) = (dataVisitorAll data left >>= fun data => dataVisitorAll data right) := by
  induction left generalizing data with
  | nil => rfl
  | cons block left ih =>
    simp only [List.cons_append,dataVisitorAll,bind,Except.bind]
    cases dataVisitor data block with
    | error thrown => rfl
    | ok next => exact ih next

def elementTag : Block → Option NdnDtag
  | .dtag number _ _ => NdnDtag.ofCode number
  | _ => none

-- One Name, one SignedInfo and one Content element, in any order.
def SignedGroup (blocks : List Block) : Prop :=
  (blocks.map elementTag).Perm [some .name,some .signedInfo,some .content]

-- A buffer that starts with a Data element, cut at a run of its child elements.
structure Layout (buffer : Blob) where
  header : Blob
  attrs : List Block
  before : List Block
  signed : List Block
  after : List Block
  front : Blob
  covered : Blob
  back : Blob
  tail : Blob
  split : buffer = header ++ (front ++ (covered ++ (back ++ 0 :: tail)))
  declared : Header NdnDtag.data.code .dtag header
  beforeFront : EncodesMany (attrs ++ before) front
  signedCovered : EncodesMany signed covered
  afterBack : EncodesMany after back
  leading : ∀ block ∈ attrs, block.isBaseAttr = true
  stops : ∀ block ∈ (before ++ (signed ++ after)).head?, block.isBaseAttr = false

def SameFields (left right : Data) : Prop :=
  left.name = right.name ∧ left.signature.keyLocator = right.signature.keyLocator ∧
    left.content.timestamp = right.content.timestamp ∧ left.content.content = right.content.content

-- The recorded portion is exactly a run of children that holds the three signed
-- elements, and reading this run alone gives the fields of the packet.
def SignedExact (buffer : Blob) (data : Data) : Prop :=
  ∃ layout : Layout buffer, SignedGroup layout.signed ∧
    (∃ wire, data.wire = some wire ∧ wire.bytes = buffer ∧
      wire.signedOffset = (layout.header ++ layout.front).length ∧ wire.signedSize = layout.covered.length) ∧
    ∃ read, dataVisitorAll (fresh none) layout.signed = .ok read ∧ SameFields read data

-- The bytes alone: the three elements come last in a buffer that is one Data
-- element, exactly 266 bytes stand before them, and whatever timestamp or key name
-- comes earlier comes again in them.
def SignedLayout (buffer : Blob) : Prop :=
  ∃ layout : Layout buffer, SignedGroup layout.signed ∧
    (layout.header ++ layout.front).length = magicSignedBlobOffset ∧ layout.back = [] ∧ layout.tail = [] ∧
    ∀ target ∈ [NdnDtag.timestamp,NdnDtag.keyName],
      reachesAny target layout.before = true → reachesAny target layout.signed = true

theorem layout_encodes {buffer : Blob} (layout : Layout buffer) :
    Encodes (.dtag NdnDtag.data.code layout.attrs (layout.before ++ (layout.signed ++ layout.after)))
      (layout.header ++ ((layout.front ++ (layout.covered ++ layout.back)) ++ [0])) := by
  refine .dtag layout.declared ?_ layout.leading layout.stops
  have inside := many_append layout.beforeFront (many_append layout.signedCovered layout.afterBack)
  rwa [List.append_assoc] at inside

theorem layout_decodes {std : Standard} {buffer : Blob} {data : Data} (layout : Layout buffer)
    (decoded : decodeFromWire std buffer = .ok data) :
    dataVisitorAll (fresh (some (signedBlob buffer))) (layout.before ++ (layout.signed ++ layout.after)) = .ok data := by
  have parsed := parse_complete std (layout_encodes layout) layout.tail
  have same : layout.header ++ ((layout.front ++ (layout.covered ++ layout.back)) ++ [0]) ++ layout.tail = buffer := by
    simp [layout.split]
  rw [same] at parsed
  rw [decodeFromWire,parsed] at decoded
  simp only [bind,Except.bind,dataVisitor,NdnDtag.ofCode_code] at decoded
  exact decoded

theorem many_empty {blocks : List Block} (none : EncodesMany blocks []) : blocks = [] := by
  generalize bytes : ([] : Blob) = empty at none
  cases none with
  | nil => rfl
  | cons head _ _ =>
    have nonempty := head.nonempty
    rw [List.nil_eq,List.append_eq_nil_iff] at bytes
    simp [bytes.1] at nonempty

theorem getD_set {α : Type} {field : Option α} (set : field.isSome = true) (left right : α) :
    (field.getD left = field.getD right) = True := by
  cases field with
  | none => cases set
  | some value => simp

theorem time_kept (first second : Option Int) :
    (second.or none = second.or (first.or none)) = (first.isSome = true → second.isSome = true) := by
  cases first <;> cases second <;> simp

theorem locator_kept {first : Option KeyLocator} (located : first ≠ some .notset) (second : Option KeyLocator) :
    (second.getD .notset = second.getD (first.getD .notset)) = (first.isSome = true → second.isSome = true) := by
  cases first with
  | none => simp
  | some locator =>
    cases second with
    | none =>
      have apart : KeyLocator.notset ≠ locator := fun same => located (congrArg some same.symm)
      simp [apart]
    | some other => simp

-- The run of the signed elements alone against the whole packet, in terms of
-- what the two parts write.
theorem fields_exact {before signed : List Block} {wire : Option SignedBlob} {data : Data}
    (decoded : dataVisitorAll (fresh wire) (before ++ signed) = .ok data)
    (named : reachesAny .name signed = true) (filled : reachesAny .content signed = true) :
    (∃ read, dataVisitorAll (fresh none) signed = .ok read ∧ SameFields read data) ↔
      ∀ target ∈ [NdnDtag.timestamp,NdnDtag.keyName],
        reachesAny target before = true → reachesAny target signed = true := by
  rw [visitorAll_append] at decoded
  cases start : dataVisitorAll (fresh wire) before with
  | error thrown =>
    rw [start] at decoded
    cases decoded
  | ok middle =>
    rw [start] at decoded
    obtain ⟨first,earlier,rfl⟩ := visitorAll_writes start
    obtain ⟨second,writes,rfl⟩ := visitorAll_writes decoded
    have alone : dataVisitorAll (fresh none) signed = .ok (second.apply (fresh none)) := writes.applies _
    have name := (writes.touches.name.trans named)
    have content := (writes.touches.content.trans filled)
    have single : (∃ read, dataVisitorAll (fresh none) signed = .ok read ∧
        SameFields read (second.apply (first.apply (fresh wire)))) ↔
          SameFields (second.apply (fresh none)) (second.apply (first.apply (fresh wire))) := by
      constructor
      · intro given
        obtain ⟨read,visited,same⟩ := given
        cases alone.symm.trans visited
        exact same
      · exact fun same => ⟨_,alone,same⟩
    rw [single]
    simp only [SameFields,Patch.apply,fresh,getD_set name,getD_set content,true_and,and_true,
      time_kept,locator_kept earlier.touches.located,List.forall_mem_cons,List.not_mem_nil,false_implies,implies_true,
      earlier.touches.timestamp,writes.touches.timestamp,earlier.touches.keyLocator,writes.touches.keyLocator]
    exact and_comm

theorem reachesAny_member {target : NdnDtag} {block : Block} {blocks : List Block} (member : block ∈ blocks)
    (reached : reaches target block = true) : reachesAny target blocks = true := by
  induction blocks with
  | nil => cases member
  | cons first others ih =>
    rw [reachesAny,Bool.or_eq_true]
    rcases List.mem_cons.mp member with rfl | old
    · exact .inl reached
    · exact .inr (ih old)

theorem group_reaches {blocks : List Block} (group : SignedGroup blocks) :
    reachesAny .name blocks = true ∧ reachesAny .content blocks = true := by
  have named : some .name ∈ blocks.map elementTag := group.mem_iff.mpr (by decide)
  have filled : some .content ∈ blocks.map elementTag := group.mem_iff.mpr (by decide)
  obtain ⟨name,nameMember,nameTag⟩ := List.mem_map.mp named
  obtain ⟨content,contentMember,contentTag⟩ := List.mem_map.mp filled
  refine ⟨reachesAny_member nameMember ?_,reachesAny_member contentMember ?_⟩
  · cases name with
    | dtag number attrs nested =>
      rw [elementTag] at nameTag
      rw [reaches,nameTag]
      rfl
    | _ => cases nameTag
  · cases content with
    | dtag number attrs nested =>
      rw [elementTag] at contentTag
      rw [reaches,contentTag]
      rfl
    | _ => cases contentTag

theorem layout_length {buffer : Blob} (layout : Layout buffer) :
    buffer.length = (layout.header ++ layout.front).length + layout.covered.length + layout.back.length + 1 +
      layout.tail.length := by
  have lengths := congrArg List.length layout.split
  simp only [List.length_append,List.length_cons] at lengths ⊢
  omega

theorem wire_kept {data result : Data} {blocks : List Block} (visited : dataVisitorAll data blocks = .ok result) :
    result.wire = data.wire := by
  obtain ⟨patch,_,rfl⟩ := visitorAll_writes visited
  rfl

-- With `size_t` arithmetic the recorded size can only match a run that ends right
-- before the last byte of the buffer.
theorem portion_ends {buffer : Blob} (fits : buffer.length < 2^64) (layout : Layout buffer)
    (starts : (layout.header ++ layout.front).length = magicSignedBlobOffset) :
    (signedBlob buffer).signedSize = layout.covered.length ↔ layout.back = [] ∧ layout.tail = [] := by
  have lengths := layout_length layout
  have offset : magicSignedBlobOffset = 266 := rfl
  rw [starts] at lengths
  have size : (signedBlob buffer).signedSize = layout.covered.length + layout.back.length + layout.tail.length := by
    simp only [signedBlob,lastCloserSize]
    omega
  rw [size,← List.length_eq_zero_iff,← List.length_eq_zero_iff]
  omega

theorem signed_exact (std : Standard) (buffer : Blob) (data : Data) (fits : buffer.length < 2^64)
    (decoded : decodeFromWire std buffer = .ok data) : SignedExact buffer data ↔ SignedLayout buffer := by
  have fields : ∀ layout : Layout buffer, SignedGroup layout.signed → layout.back = [] →
      ((∃ read, dataVisitorAll (fresh none) layout.signed = .ok read ∧ SameFields read data) ↔
        ∀ target ∈ [NdnDtag.timestamp,NdnDtag.keyName],
          reachesAny target layout.before = true → reachesAny target layout.signed = true) := by
    intro layout group last
    have visited := layout_decodes layout decoded
    have afterBack := layout.afterBack
    rw [last] at afterBack
    rw [many_empty afterBack,List.append_nil] at visited
    exact fields_exact visited (group_reaches group).1 (group_reaches group).2
  constructor
  · intro given
    obtain ⟨layout,group,⟨wire,stored,_,offset,size⟩,read⟩ := given
    have kept := wire_kept (layout_decodes layout decoded)
    rw [stored] at kept
    cases kept
    obtain ⟨last,whole⟩ := (portion_ends fits layout offset.symm).mp size
    exact ⟨layout,group,offset.symm,last,whole,(fields layout group last).mp read⟩
  · intro given
    obtain ⟨layout,group,offset,last,whole,again⟩ := given
    have kept := wire_kept (layout_decodes layout decoded)
    exact ⟨layout,group,⟨_,kept,rfl,offset.symm,(portion_ends fits layout offset).mpr ⟨last,whole⟩⟩,
      (fields layout group last).mpr again⟩

-- The offset is the one of the encoder's own packets with a 2048-bit signature.
theorem rsa_layout (notADateTime : Int) (data : Data) {keyName : Name}
    (located : data.signature.keyLocator = .keyname keyName) (unwired : data.wire = none)
    (bits : data.signature.signatureBits.length = 256) :
    ∃ bytes, encodeToWire notADateTime data = some bytes ∧ SignedLayout bytes := by
  obtain ⟨signed,serialized,elements⟩ := elements_unsigned notADateTime located
  refine ⟨_,by rw [encodeToWire,serialize,unwired,serialized]; rfl,?_⟩
  have signature := element_signature data.signature.signatureBits
  refine ⟨⟨_,[],_,_,[],_,_,[],[],rfl,header_encodes NdnDtag.data.code_lt .dtag,signature.one.encodes,elements.encodes,
    .nil,by simp,?_⟩,List.Perm.refl _,?_,rfl,rfl,?_⟩
  · intro block member
    cases member
    rfl
  · have tags : (appendBlockHeader NdnDtag.data.code TokenType.dtag.code).length = 2 ∧
        (appendBlockHeader NdnDtag.signature.code TokenType.dtag.code).length = 2 ∧
        (appendBlockHeader NdnDtag.signatureBits.code TokenType.dtag.code).length = 2 ∧
        (appendBlockHeader 256 TokenType.blob.code).length = 2 ∧ appendCloser.length = 1 := by decide
    have stored := write_length data.signature.signatureBits
    rw [bits] at stored
    simp only [appendTaggedBlobWithPadding,appendTaggedBlob,bits,List.length_append,tags,gt_iff_lt]
    simp [List.length_append,tags,stored,magicSignedBlobOffset]
  · intro target member
    simp only [List.mem_cons,List.not_mem_nil,or_false] at member
    rcases member with rfl | rfl
    · exact fun reached => Bool.noConfusion (show false = true from reached)
    · exact fun reached => Bool.noConfusion (show false = true from reached)

theorem exact_inside {buffer : Blob} {data : Data} (covers : SignedExact buffer data) :
    ∃ wire, data.wire = some wire ∧ wire.signedSize ≤ buffer.length := by
  obtain ⟨layout,_,⟨wire,stored,_,_,size⟩,_⟩ := covers
  have lengths := layout_length layout
  exact ⟨wire,stored,by omega⟩

theorem signed_exact_short : ∃ bytes data, encodeToWire 0 (sample [5]) = some bytes ∧
    decodeFromWire .cxx11 bytes = .ok data ∧ (SignedExact bytes data ↔ SignedLayout bytes) :=
  ⟨_,_,rfl,rfl,signed_exact .cxx11 _ _ (by decide) rfl⟩

-- A packet with sixteen signature bytes is shorter than the constant offset, and
-- the recorded size wraps.
theorem signed_portion_outside : ∃ bytes data, encodeToWire 0 (sample [5]) = some bytes ∧
    decodeFromWire .cxx98 bytes = .ok data ∧ decodeFromWire .cxx11 bytes = .ok data ∧ ¬SignedExact bytes data := by
  refine ⟨_,_,rfl,rfl,rfl,?_⟩
  intro covers
  obtain ⟨wire,stored,inside⟩ := exact_inside covers
  cases stored
  exact absurd inside (by decide)

end NdnCxx.Data
