import NdnCxx.Der.Visitor

namespace NdnCxx.Der
open Throwing

structure CertificateSubDescrypt where
  oid : List Int
  value : Blob
  deriving DecidableEq, Repr

structure CertificateExtension where
  extnID : List Int
  critical : Bool
  extnValue : Blob
  deriving DecidableEq, Repr

structure Certificate (Time : Type) where
  notBefore : Time
  notAfter : Time
  subjectList : List CertificateSubDescrypt
  key : Publickey
  extnList : List CertificateExtension

-- The two infinities the default constructor starts from.
def Certificate.fresh {Time : Type} (posInfin negInfin : Time) : Certificate Time := ⟨posInfin,negInfin,[],⟨[],[]⟩,[]⟩

def DerNode.adopt (parent child : DerNode) : DerNode := (DerNode.addChild child parent).1

def CertificateSubDescrypt.toDER (entry : CertificateSubDescrypt) : Except Exception DerNode := do
  let oid ← derOid entry.oid
  let value ← derPrintableString entry.value
  return (DerNode.derSequence.adopt oid).adopt value

-- The size is asked for, and dropped, before the tree is handed over.
def CertificateExtension.toDER (entry : CertificateExtension) : Except Exception DerNode := do
  let extnID ← derOid entry.extnID
  let critical ← derBool entry.critical
  let extnValue ← derOctetString entry.extnValue
  let (_,root) ← (((DerNode.derSequence.adopt extnID).adopt critical).adopt extnValue).getSize
  return root

def Publickey.toDER (memory : Nat → UInt8) (key : Publickey) : Except Exception DerNode := do
  let (node,_) ← DerNode.parse memory (.openOn key.key)
  return node

def addEach {Entry : Type} (toDER : Entry → Except Exception DerNode) (parent : DerNode) :
    List Entry → Except Exception DerNode
  | [] => .ok parent
  | entry :: entries => do
    let child ← toDER entry
    addEach toDER (parent.adopt child) entries

section Codec
variable {Time : Type}

def addExtensions (root : DerNode) (extnList : List CertificateExtension) : Except Exception DerNode :=
  if extnList.isEmpty then .ok root
  else do
    let list ← addEach CertificateExtension.toDER .derSequence extnList
    return root.adopt list

-- What is set as the content of the packet.
def Certificate.encode (iso : IsoTime Time) (memory : Nat → UInt8) (certificate : Certificate Time) :
    Except Exception Blob := do
  let notBefore ← derGtime (iso.toIsoString certificate.notBefore)
  let notAfter ← derGtime (iso.toIsoString certificate.notAfter)
  let validity := (DerNode.derSequence.adopt notBefore).adopt notAfter
  let subjectList ← addEach CertificateSubDescrypt.toDER .derSequence certificate.subjectList
  let key ← certificate.key.toDER memory
  let root := ((DerNode.derSequence.adopt validity).adopt subjectList).adopt key
  let root ← addExtensions root certificate.extnList
  let (content,_) ← root.encode
  return content

-- A visitor that fills in a certificate does nothing on a node without children.
def certValidityVisitor (iso : IsoTime Time) : DerNode → Certificate Time → Except Failure (Certificate Time)
  | .leaf _ _ _,certData => .ok certData
  | .complex _ _ _ children,certData => do
    let notBefore ← (← simpleVisitor iso (← DerNode.child children 0)).toTime
    let notAfter ← (← simpleVisitor iso (← DerNode.child children 1)).toTime
    return {certData with notBefore := notBefore, notAfter := notAfter}

def certSubDescryptVisitor (iso : IsoTime Time) : DerNode → Certificate Time → Except Failure (Certificate Time)
  | .leaf _ _ _,certData => .ok certData
  | .complex _ _ _ children,certData => do
    let oid ← (← simpleVisitor iso (← DerNode.child children 0)).toOid
    let value ← (← simpleVisitor iso (← DerNode.child children 1)).toText
    return {certData with subjectList := certData.subjectList ++ [⟨oid,value⟩]}

def certExtnEntryVisitor (iso : IsoTime Time) : DerNode → Certificate Time → Except Failure (Certificate Time)
  | .leaf _ _ _,certData => .ok certData
  | .complex _ _ _ children,certData => do
    let oid ← (← simpleVisitor iso (← DerNode.child children 0)).toOid
    let critical ← (← simpleVisitor iso (← DerNode.child children 1)).toBool
    let value ← (← simpleVisitor iso (← DerNode.child children 2)).toBlobPtr
    return {certData with extnList := certData.extnList ++ [⟨oid,critical,value⟩]}

def visitEach (visit : DerNode → Certificate Time → Except Failure (Certificate Time)) :
    List DerNode → Certificate Time → Except Failure (Certificate Time)
  | [],certData => .ok certData
  | node :: nodes,certData => do
    let certData ← visit node certData
    visitEach visit nodes certData

def certSubjectVisitor (iso : IsoTime Time) : DerNode → Certificate Time → Except Failure (Certificate Time)
  | .leaf _ _ _,certData => .ok certData
  | .complex _ _ _ children,certData => visitEach (certSubDescryptVisitor iso) children certData

def certExtensionVisitor (iso : IsoTime Time) : DerNode → Certificate Time → Except Failure (Certificate Time)
  | .leaf _ _ _,certData => .ok certData
  | .complex _ _ _ children,certData => visitEach (certExtnEntryVisitor iso) children certData

def certificateDataVisitor (iso : IsoTime Time) : DerNode → Certificate Time → Except Failure (Certificate Time)
  | .leaf _ _ _,certData => .ok certData
  | .complex _ _ _ children,certData => do
    let certData ← certValidityVisitor iso (← DerNode.child children 0) certData
    let certData ← certSubjectVisitor iso (← DerNode.child children 1) certData
    let key ← publickeyVisitor iso (← DerNode.child children 2)
    let certData := {certData with key := key}
    if children.length > 3 then certExtensionVisitor iso (← DerNode.child children 3) certData
    else return certData

def Certificate.decode (iso : IsoTime Time) (memory : Nat → UInt8) (content : Blob) (certificate : Certificate Time) :
    Except Failure (Certificate Time) := do
  let (node,_) ← (DerNode.parse memory (.openOn content)).mapError .der
  certificateDataVisitor iso node certificate

end Codec

-- What each part of a certificate holds as a tree.
def oidContent (arcs : List Int) : Content := .leaf .derObjectIdentifier ((prepareEncoding arcs).toOption.getD [])

def CertificateSubDescrypt.content (entry : CertificateSubDescrypt) : Content :=
  .sequence [oidContent entry.oid,.leaf .derPrintableString entry.value]

def CertificateExtension.content (entry : CertificateExtension) : Content :=
  .sequence [oidContent entry.extnID,.leaf .derBoolean [if entry.critical then 0xFF else 0x00],
    .leaf .derOctetString entry.extnValue]

def timeContent {Time : Type} (iso : IsoTime Time) (time : Time) : Content :=
  .leaf .derGeneralizedTime (gtimePayload (iso.toIsoString time))

def extensionContents (extnList : List CertificateExtension) : List Content :=
  if extnList.isEmpty then [] else [.sequence (extnList.map CertificateExtension.content)]

def Certificate.content {Time : Type} (iso : IsoTime Time) (certificate : Certificate Time) (key : Content) : Content :=
  .sequence ([.sequence [timeContent iso certificate.notBefore,timeContent iso certificate.notAfter],
    .sequence (certificate.subjectList.map CertificateSubDescrypt.content),key] ++ extensionContents certificate.extnList)

-- The blob is what `encode` writes for a sequence whose first child is a sequence
-- that starts with an object identifier.
structure WritesKey (tree : Content) (blob : Blob) : Prop where
  written : ∃ node after,DerNode.Built node ∧ node.content = tree ∧ node.encode = .ok (blob,after)
  algorithm : ∃ arcs payload others children,prepareEncoding arcs = .ok payload ∧
    tree = .sequence (.sequence (.leaf .derObjectIdentifier payload :: others) :: children)

theorem content_leaf {node : DerNode} {type : DerType} {payload : Blob} (same : node.content = .leaf type payload) :
    ∃ header,node = .leaf type header payload := by
  cases node with
  | leaf other header bytes =>
    simp only [DerNode.content,Content.leaf.injEq] at same
    obtain ⟨rfl,rfl⟩ := same
    exact ⟨header,rfl⟩
  | complex header childChanged size nodeList => simp [DerNode.content] at same

theorem content_sequence {node : DerNode} {children : List Content} (same : node.content = .sequence children) :
    ∃ header childChanged size nodeList,node = .complex header childChanged size nodeList ∧
      DerNode.contentAll nodeList = children := by
  cases node with
  | leaf other header bytes => simp [DerNode.content] at same
  | complex header childChanged size nodeList =>
    exact ⟨header,childChanged,size,nodeList,rfl,by simpa [DerNode.content] using same⟩

theorem contentAll_cons {nodes : List DerNode} {child : Content} {children : List Content}
    (same : DerNode.contentAll nodes = child :: children) :
    ∃ node others,nodes = node :: others ∧ node.content = child ∧ DerNode.contentAll others = children := by
  cases nodes with
  | nil => simp [DerNode.contentAll] at same
  | cons node others =>
    simp only [DerNode.contentAll,List.cons.injEq] at same
    exact ⟨node,others,rfl,same.1,same.2⟩

theorem contentAll_nil {nodes : List DerNode} (same : DerNode.contentAll nodes = []) : nodes = [] := by
  cases nodes with
  | nil => rfl
  | cons node others => simp [DerNode.contentAll] at same

-- Writing: every part becomes a settled node that tells what it should.
def Tells (node : DerNode) (content : Content) : Prop := node.Settled ∧ node.content = content

theorem ofPayload_tells (type : DerType) (payload : Blob) (small : (Content.leaf type payload).size < 2^31) :
    ∃ node,DerNode.ofPayload type payload = .ok node ∧ Tells node (.leaf type payload) := by
  have short : payload.length < 2^31 := by
    rw [Content.size] at small
    omega
  have header : encodeHeader type.code (Wire.int32 payload.length) = .ok (type.code :: sizeField payload.length) := by
    rw [Wire.int32_small (by omega) (by omega),encodeHeader_nat]
  have made : DerNode.ofPayload type payload = .ok (.leaf type (type.code :: sizeField payload.length) payload) := by
    simp only [DerNode.ofPayload,header,ok_bind,pure_ok]
  exact ⟨_,made,DerNode.ofPayload_settled made,rfl⟩

theorem derOid_prepared {arcs : List Int} {payload : Blob} (prepared : prepareEncoding arcs = .ok payload) :
    derOid arcs = DerNode.ofPayload .derObjectIdentifier payload ∧ oidContent arcs = .leaf .derObjectIdentifier payload := by
  refine ⟨by rw [derOid,prepared,ok_bind],?_⟩
  rw [oidContent,prepared]
  rfl

theorem derOid_tells {arcs : List Int} (range : InRange arcs) (small : (oidContent arcs).size < 2^31) :
    ∃ node,derOid arcs = .ok node ∧ Tells node (oidContent arcs) := by
  obtain ⟨payload,prepared⟩ := prepareEncoding_inRange range
  obtain ⟨made,same⟩ := derOid_prepared prepared
  rw [made,same]
  rw [same] at small
  exact ofPayload_tells .derObjectIdentifier payload small

theorem derSequence_tells : Tells .derSequence (.sequence []) := ⟨DerNode.built_settled .sequence,rfl⟩

theorem adopt_tells {parent child : DerNode} {children : List Content} {content : Content}
    (above : Tells parent (.sequence children)) (own : Tells child content) :
    Tells (parent.adopt child) (.sequence (children ++ [content])) := by
  obtain ⟨header,childChanged,size,nodeList,rfl,same⟩ := content_sequence above.2
  refine ⟨⟨?_,by simp⟩,?_⟩
  · rw [DerNode.settledAll_append]
    exact ⟨above.1.1,own.1,trivial⟩
  · simp [DerNode.adopt,DerNode.addChild,DerNode.content,DerNode.contentAll,same,own.2]

theorem sizeAll_append (left right : List Content) :
    Content.sizeAll (left ++ right) = Content.sizeAll left + Content.sizeAll right := by
  induction left with
  | nil => simp [Content.sizeAll]
  | cons child children ih => simp only [List.cons_append,Content.sizeAll,ih]; omega

theorem size_sequence (children : List Content) : Content.sizeAll children < (Content.sequence children).size := by
  rw [Content.size]
  omega

theorem addEach_tells {Entry : Type} (toDER : Entry → Except Exception DerNode) (content : Entry → Content)
    {entries : List Entry} {parent : DerNode} {children : List Content}
    (each : ∀ entry ∈ entries,(content entry).size < 2^31 → ∃ node,toDER entry = .ok node ∧ Tells node (content entry))
    (above : Tells parent (.sequence children)) (small : Content.sizeAll (entries.map content) < 2^31) :
    ∃ node,addEach toDER parent entries = .ok node ∧ Tells node (.sequence (children ++ entries.map content)) := by
  induction entries generalizing parent children with
  | nil => exact ⟨parent,rfl,by simpa using above⟩
  | cons entry entries ih =>
    simp only [List.map_cons,Content.sizeAll] at small
    obtain ⟨child,made,tells⟩ := each entry (by simp) (by omega)
    obtain ⟨node,added,whole⟩ := ih (fun other member => each other (by simp [member])) (adopt_tells above tells) (by omega)
    exact ⟨node,by simp only [addEach,made,ok_bind,added],by simpa using whole⟩

theorem subDescrypt_tells {entry : CertificateSubDescrypt} (range : InRange entry.oid) (small : entry.content.size < 2^31) :
    ∃ node,entry.toDER = .ok node ∧ Tells node entry.content := by
  have bound := size_sequence [oidContent entry.oid,.leaf .derPrintableString entry.value]
  simp only [Content.sizeAll] at bound
  rw [CertificateSubDescrypt.content] at small
  obtain ⟨oid,oidMade,oidTells⟩ := derOid_tells range (by omega)
  obtain ⟨value,valueMade,valueTells⟩ := ofPayload_tells .derPrintableString entry.value (by omega)
  refine ⟨_,by rw [CertificateSubDescrypt.toDER,derPrintableString,oidMade,valueMade]; rfl,?_⟩
  exact adopt_tells (adopt_tells derSequence_tells oidTells) valueTells

theorem extension_tells {entry : CertificateExtension} (range : InRange entry.extnID) (small : entry.content.size < 2^31) :
    ∃ node,entry.toDER = .ok node ∧ Tells node entry.content := by
  have bound := size_sequence [oidContent entry.extnID,.leaf .derBoolean [if entry.critical then 0xFF else 0x00],
    .leaf .derOctetString entry.extnValue]
  simp only [Content.sizeAll] at bound
  have whole := small
  rw [CertificateExtension.content] at small
  obtain ⟨extnID,idMade,idTells⟩ := derOid_tells range (by omega)
  obtain ⟨critical,criticalMade,criticalTells⟩ :=
    ofPayload_tells .derBoolean [if entry.critical then 0xFF else 0x00] (by omega)
  obtain ⟨extnValue,valueMade,valueTells⟩ := ofPayload_tells .derOctetString entry.extnValue (by omega)
  have tells := adopt_tells (adopt_tells (adopt_tells derSequence_tells idTells) criticalTells) valueTells
  obtain ⟨size,after,sized⟩ := DerNode.getSize_returns _ tells.1 (by rw [tells.2]; exact small)
  obtain ⟨kept,_⟩ := DerNode.getSize_keeps _ tells.1 _ _ sized
  refine ⟨after,?_,kept.settled,kept.content.trans tells.2⟩
  rw [CertificateExtension.toDER,derBool,derOctetString,idMade,criticalMade,valueMade]
  simp only [ok_bind,sized,pure_ok]

theorem key_tells {tree : Content} {key : Publickey} (writes : WritesKey tree key.key) (small : tree.size < 2^31)
    (memory : Nat → UInt8) : ∃ node,key.toDER memory = .ok node ∧ Tells node tree ∧ key.key = tree.bytes := by
  obtain ⟨node,after,built,rfl,encoded⟩ := writes.written
  have settled := DerNode.built_settled built
  obtain ⟨kept,written⟩ := DerNode.encodeWithin_keeps _ _ settled _ _ encoded
  have written := written small
  have size := written.size
  rw [written.raw] at size
  have parsed := DerNode.exact_parse memory written.exact (by omega) [] []
  rw [List.append_nil,← written.raw] at parsed
  refine ⟨after,?_,⟨kept.settled,kept.content⟩,?_⟩
  · change DerNode.parse memory (.openOn key.key) = _ at parsed
    simp only [Publickey.toDER,parsed,ok_bind,pure_ok]
  · rw [written.raw,DerNode.canonical_raw after written.exact written.canonical,kept.content]

theorem addExtensions_tells {root : DerNode} {children : List Content} {extnList : List CertificateExtension}
    (ranges : ∀ entry ∈ extnList,InRange entry.extnID) (above : Tells root (.sequence children))
    (small : Content.sizeAll (extensionContents extnList) < 2^31) :
    ∃ node,addExtensions root extnList = .ok node ∧ Tells node (.sequence (children ++ extensionContents extnList)) := by
  unfold addExtensions
  unfold extensionContents at small ⊢
  by_cases empty : extnList.isEmpty
  · rw [if_pos empty,if_pos empty]
    exact ⟨root,rfl,by simpa using above⟩
  · rw [if_neg empty] at small
    rw [if_neg empty,if_neg empty]
    have bound := size_sequence (extnList.map CertificateExtension.content)
    simp only [Content.sizeAll] at small
    obtain ⟨list,added,tells⟩ := addEach_tells CertificateExtension.toDER
      CertificateExtension.content (fun entry member => extension_tells (ranges entry member)) derSequence_tells (by omega)
    exact ⟨root.adopt list,by simp only [added,ok_bind,pure_ok],adopt_tells above (by simpa using tells)⟩

section RoundTrip
variable {Time : Type} {iso : IsoTime Time} {certificate : Certificate Time} {key : Content}

theorem part_sizes (iso : IsoTime Time) (certificate : Certificate Time) (key : Content) :
    (timeContent iso certificate.notBefore).size + (timeContent iso certificate.notAfter).size +
      Content.sizeAll (certificate.subjectList.map CertificateSubDescrypt.content) + key.size +
      Content.sizeAll (extensionContents certificate.extnList) < (certificate.content iso key).size := by
  have total := size_sequence ([.sequence [timeContent iso certificate.notBefore,timeContent iso certificate.notAfter],
    .sequence (certificate.subjectList.map CertificateSubDescrypt.content),key] ++ extensionContents certificate.extnList)
  have validity := size_sequence [timeContent iso certificate.notBefore,timeContent iso certificate.notAfter]
  have subjects := size_sequence (certificate.subjectList.map CertificateSubDescrypt.content)
  rw [sizeAll_append] at total
  simp only [Content.sizeAll] at total validity
  rw [Certificate.content]
  omega

theorem certificate_encodes (subjects : ∀ entry ∈ certificate.subjectList,InRange entry.oid)
    (extensions : ∀ entry ∈ certificate.extnList,InRange entry.extnID) (writes : WritesKey key certificate.key.key)
    (small : (certificate.content iso key).size < 2^31) (memory : Nat → UInt8) :
    ∃ content node,certificate.encode iso memory = .ok content ∧
      DerNode.parse memory (.openOn content) = .ok (node,.cursor content.reverse []) ∧ node.Exact ∧ node.Canonical ∧
      node.content = certificate.content iso key := by
  have parts := part_sizes iso certificate key
  obtain ⟨notBefore,beforeMade,beforeTells⟩ := ofPayload_tells .derGeneralizedTime
    (gtimePayload (iso.toIsoString certificate.notBefore)) (by
      change (timeContent iso certificate.notBefore).size < 2^31
      omega)
  obtain ⟨notAfter,afterMade,afterTells⟩ := ofPayload_tells .derGeneralizedTime
    (gtimePayload (iso.toIsoString certificate.notAfter)) (by
      change (timeContent iso certificate.notAfter).size < 2^31
      omega)
  obtain ⟨subjectList,subjectsAdded,subjectsTell⟩ := addEach_tells CertificateSubDescrypt.toDER
    CertificateSubDescrypt.content (fun entry member => subDescrypt_tells (subjects entry member)) derSequence_tells (by omega)
  obtain ⟨keyNode,keyMade,keyTells,_⟩ := key_tells writes (by omega) memory
  have front := adopt_tells (adopt_tells (adopt_tells derSequence_tells
    (adopt_tells (adopt_tells derSequence_tells beforeTells) afterTells)) subjectsTell) keyTells
  obtain ⟨root,extended,rootTells⟩ := addExtensions_tells extensions front (by omega)
  have same : root.content = certificate.content iso key := by
    rw [rootTells.2]
    simp [Certificate.content,timeContent]
  obtain ⟨bytes,after,encoded,written,kept⟩ := DerNode.settled_encodes rootTells.1 (by rw [same]; exact small)
  have size := written.size
  rw [same,written.raw] at size
  have parsed := DerNode.exact_parse memory written.exact (by omega) [] []
  rw [List.append_nil,List.append_nil,← written.raw] at parsed
  refine ⟨bytes,after,?_,parsed,written.exact,written.canonical,kept.trans same⟩
  simp only [Certificate.encode,derGtime,beforeMade,afterMade,ok_bind,subjectsAdded,keyMade,extended,encoded,pure_ok]

-- Reading: a visitor depends on what the nodes tell alone.
theorem gtimePayload_whole {date clock : Blob} (plain : 0x54 ∉ date) :
    gtimePayload (date ++ 0x54 :: clock) = date ++ clock ++ [0x5A] := by
  have other : ∀ byte ∈ date,decide (byte ≠ 0x54) = true := by
    intro byte member
    apply decide_eq_true
    rintro rfl
    exact plain member
  have front : (date ++ 0x54 :: clock).takeWhile (fun byte => decide (byte ≠ 0x54)) = date := by
    rw [List.takeWhile_append_of_pos other]
    simp
  have back : (date ++ 0x54 :: clock).dropWhile (fun byte => decide (byte ≠ 0x54)) = 0x54 :: clock := by
    rw [List.dropWhile_append_of_pos other]
    simp
  rw [gtimePayload,if_pos (by simp),front,back,List.drop_one,List.tail_cons]

theorem visit_time (laws : iso.Lawful) {time : Time} (wholeSecond : iso.WholeSecond time) {node : DerNode}
    (same : node.content = timeContent iso time) : simpleVisitor iso node = .ok (.time time) := by
  obtain ⟨header,rfl⟩ := content_leaf same
  obtain ⟨date,clock,dateLength,clockLength,plain,printed⟩ := laws.prints time wholeSecond
  have text : (date ++ clock ++ [0x5A]).take 8 ++ [0x54] ++ ((date ++ clock ++ [0x5A]).drop 8).take 6 =
      iso.toIsoString time := by
    rw [printed,List.append_assoc date clock,← dateLength,List.take_left,List.drop_left,← clockLength,List.take_left]
    simp
  rw [simpleVisitor,printed,gtimePayload_whole plain,if_neg (by simp only [List.length_append]; omega),text,
    laws.inverse time wholeSecond]
  rfl

theorem visit_oid {arcs : List Int} (range : InRange arcs) {node : DerNode} (same : node.content = oidContent arcs) :
    simpleVisitor iso node = .ok (.oid arcs) := by
  obtain ⟨payload,prepared⟩ := prepareEncoding_inRange range
  obtain ⟨decoded,read,back⟩ := decodeOid_prepared prepared
  rw [(derOid_prepared prepared).2] at same
  obtain ⟨header,rfl⟩ := content_leaf same
  simp only [simpleVisitor,read,ok_bind,pure_ok,back range]

theorem visit_subDescrypt {entry : CertificateSubDescrypt} (range : InRange entry.oid) {node : DerNode}
    (same : node.content = entry.content) (certData : Certificate Time) :
    certSubDescryptVisitor iso node certData = .ok {certData with subjectList := certData.subjectList ++ [entry]} := by
  obtain ⟨header,childChanged,size,nodeList,rfl,parts⟩ := content_sequence same
  obtain ⟨oid,others,rfl,oidSame,parts⟩ := contentAll_cons parts
  obtain ⟨value,others,rfl,valueSame,parts⟩ := contentAll_cons parts
  obtain ⟨valueHeader,rfl⟩ := content_leaf valueSame
  have text : simpleVisitor iso (.leaf .derPrintableString valueHeader entry.value) = .ok (.string entry.value) := rfl
  simp only [certSubDescryptVisitor,DerNode.child,List.getElem?_cons_zero,List.getElem?_cons_succ,ok_bind,
    visit_oid range oidSame,text,Any.toOid,Any.toText,pure_ok]

theorem visit_extension {entry : CertificateExtension} (range : InRange entry.extnID) {node : DerNode}
    (same : node.content = entry.content) (certData : Certificate Time) :
    certExtnEntryVisitor iso node certData = .ok {certData with extnList := certData.extnList ++ [entry]} := by
  obtain ⟨header,childChanged,size,nodeList,rfl,parts⟩ := content_sequence same
  obtain ⟨oid,others,rfl,oidSame,parts⟩ := contentAll_cons parts
  obtain ⟨critical,others,rfl,criticalSame,parts⟩ := contentAll_cons parts
  obtain ⟨value,others,rfl,valueSame,parts⟩ := contentAll_cons parts
  obtain ⟨criticalHeader,rfl⟩ := content_leaf criticalSame
  obtain ⟨valueHeader,rfl⟩ := content_leaf valueSame
  have flag : decide ((if entry.critical then 0xFF else 0x00 : UInt8) ≠ 0) = entry.critical := by
    cases entry.critical <;> rfl
  have truth : simpleVisitor iso (.leaf .derBoolean criticalHeader [if entry.critical then 0xFF else 0x00]) =
      .ok (.bool entry.critical) := by rw [simpleVisitor,flag]
  have bytes : simpleVisitor iso (.leaf .derOctetString valueHeader entry.extnValue) = .ok (.blobPtr entry.extnValue) := rfl
  simp only [certExtnEntryVisitor,DerNode.child,List.getElem?_cons_zero,List.getElem?_cons_succ,ok_bind,
    visit_oid range oidSame,truth,bytes,Any.toOid,Any.toBool,Any.toBlobPtr,pure_ok]

theorem visit_key (iso : IsoTime Time) {node : DerNode} (same : node.content = key) {blob : Blob} (writes : WritesKey key blob) :
    ∃ algorithm,publickeyVisitor iso node = .ok ⟨algorithm,node.getRaw⟩ := by
  obtain ⟨arcs,payload,others,children,prepared,shape⟩ := writes.algorithm
  obtain ⟨decoded,read,_⟩ := decodeOid_prepared prepared
  rw [shape] at same
  obtain ⟨header,childChanged,size,nodeList,rfl,parts⟩ := content_sequence same
  obtain ⟨algoSeq,others,rfl,algoSame,parts⟩ := contentAll_cons parts
  obtain ⟨algoHeader,algoChanged,algoSize,algoList,rfl,algoParts⟩ := content_sequence algoSame
  obtain ⟨oid,others,rfl,oidSame,algoParts⟩ := contentAll_cons algoParts
  obtain ⟨oidHeader,rfl⟩ := content_leaf oidSame
  refine ⟨decoded,?_⟩
  simp only [publickeyVisitor,DerNode.child,List.getElem?_cons_zero,ok_bind,simpleVisitor,read,Any.toOid,pure_ok]

theorem visitEach_adds {Entry : Type} {visit : DerNode → Certificate Time → Except Failure (Certificate Time)}
    (content : Entry → Content) (add : Certificate Time → Entry → Certificate Time) {entries : List Entry}
    (each : ∀ entry ∈ entries,∀ node certData,node.content = content entry → visit node certData = .ok (add certData entry)) :
    ∀ nodes certData,DerNode.contentAll nodes = entries.map content →
      visitEach visit nodes certData = .ok (entries.foldl add certData) := by
  induction entries with
  | nil =>
    intro nodes certData same
    rw [contentAll_nil same]
    rfl
  | cons entry entries ih =>
    intro nodes certData same
    obtain ⟨node,others,rfl,first,rest⟩ := contentAll_cons same
    rw [visitEach,each entry (by simp) node certData first,ok_bind,List.foldl_cons]
    exact ih (fun other member => each other (by simp [member])) others _ rest

theorem fold_subjects (entries : List CertificateSubDescrypt) (certData : Certificate Time) :
    entries.foldl (fun certData entry => {certData with subjectList := certData.subjectList ++ [entry]}) certData =
      {certData with subjectList := certData.subjectList ++ entries} := by
  induction entries generalizing certData with
  | nil => simp
  | cons entry entries ih => rw [List.foldl_cons,ih]; simp

theorem fold_extensions (entries : List CertificateExtension) (certData : Certificate Time) :
    entries.foldl (fun certData entry => {certData with extnList := certData.extnList ++ [entry]}) certData =
      {certData with extnList := certData.extnList ++ entries} := by
  induction entries generalizing certData with
  | nil => simp
  | cons entry entries ih => rw [List.foldl_cons,ih]; simp

theorem visit_subjects (subjects : ∀ entry ∈ certificate.subjectList,InRange entry.oid) {node : DerNode}
    (same : node.content = .sequence (certificate.subjectList.map CertificateSubDescrypt.content)) (certData : Certificate Time) :
    certSubjectVisitor iso node certData =
      .ok {certData with subjectList := certData.subjectList ++ certificate.subjectList} := by
  obtain ⟨header,childChanged,size,nodeList,rfl,parts⟩ := content_sequence same
  rw [certSubjectVisitor,visitEach_adds CertificateSubDescrypt.content _
    (fun entry member node certData same => visit_subDescrypt (subjects entry member) same certData) _ _ parts,fold_subjects]

theorem visit_extensions (extensions : ∀ entry ∈ certificate.extnList,InRange entry.extnID) {node : DerNode}
    (same : node.content = .sequence (certificate.extnList.map CertificateExtension.content)) (certData : Certificate Time) :
    certExtensionVisitor iso node certData =
      .ok {certData with extnList := certData.extnList ++ certificate.extnList} := by
  obtain ⟨header,childChanged,size,nodeList,rfl,parts⟩ := content_sequence same
  rw [certExtensionVisitor,visitEach_adds CertificateExtension.content _
    (fun entry member node certData same => visit_extension (extensions entry member) same certData) _ _ parts,fold_extensions]

theorem visit_validity (laws : iso.Lawful) (early : iso.WholeSecond certificate.notBefore)
    (late : iso.WholeSecond certificate.notAfter) {node : DerNode}
    (same : node.content = .sequence [timeContent iso certificate.notBefore,timeContent iso certificate.notAfter])
    (certData : Certificate Time) :
    certValidityVisitor iso node certData =
      .ok {certData with notBefore := certificate.notBefore, notAfter := certificate.notAfter} := by
  obtain ⟨header,childChanged,size,nodeList,rfl,parts⟩ := content_sequence same
  obtain ⟨first,others,rfl,firstSame,parts⟩ := contentAll_cons parts
  obtain ⟨second,others,rfl,secondSame,parts⟩ := contentAll_cons parts
  simp only [certValidityVisitor,DerNode.child,List.getElem?_cons_zero,List.getElem?_cons_succ,ok_bind,
    visit_time laws early firstSame,visit_time laws late secondSame,Any.toTime,pure_ok]

theorem visit_certificate (laws : iso.Lawful) (early : iso.WholeSecond certificate.notBefore)
    (late : iso.WholeSecond certificate.notAfter) (subjects : ∀ entry ∈ certificate.subjectList,InRange entry.oid)
    (extensions : ∀ entry ∈ certificate.extnList,InRange entry.extnID) (writes : WritesKey key certificate.key.key)
    {node : DerNode} (exact : node.Exact) (canonical : node.Canonical) (same : node.content = certificate.content iso key)
    (posInfin negInfin : Time) :
    ∃ algorithm,certificateDataVisitor iso node (.fresh posInfin negInfin) =
      .ok {certificate with key := ⟨algorithm,key.bytes⟩} := by
  obtain ⟨header,childChanged,size,nodeList,rfl,parts⟩ := content_sequence same
  obtain ⟨validity,others,rfl,validitySame,parts⟩ := contentAll_cons parts
  obtain ⟨subjectList,others,rfl,subjectsSame,parts⟩ := contentAll_cons parts
  obtain ⟨keyNode,others,rfl,keySame,parts⟩ := contentAll_cons parts
  have raw := DerNode.canonical_raw keyNode exact.2.2.2.2.2.1 canonical.2.2.1
  rw [keySame] at raw
  obtain ⟨algorithm,visited⟩ := visit_key iso keySame writes
  rw [raw] at visited
  refine ⟨algorithm,?_⟩
  simp only [certificateDataVisitor,DerNode.child,List.getElem?_cons_zero,List.getElem?_cons_succ,ok_bind,
    visit_validity laws early late validitySame,visit_subjects subjects subjectsSame,visited,Certificate.fresh,List.nil_append]
  unfold extensionContents at parts
  by_cases empty : certificate.extnList.isEmpty
  · rw [if_pos empty] at parts
    rw [contentAll_nil parts,if_neg (by simp)]
    simp [List.isEmpty_iff.mp empty]
  · rw [if_neg empty] at parts
    obtain ⟨extnNode,others,rfl,extnSame,parts⟩ := contentAll_cons parts
    rw [if_pos (by simp)]
    simp only [List.getElem?_cons_zero,ok_bind,visit_extensions extensions extnSame,List.nil_append]

end RoundTrip

theorem certificate_round_trip {Time : Type} (iso : IsoTime Time) (laws : iso.Lawful) (memory : Nat → UInt8)
    (certificate : Certificate Time) (key : Content) (early : iso.WholeSecond certificate.notBefore)
    (late : iso.WholeSecond certificate.notAfter) (subjects : ∀ entry ∈ certificate.subjectList,InRange entry.oid)
    (extensions : ∀ entry ∈ certificate.extnList,InRange entry.extnID) (writes : WritesKey key certificate.key.key)
    (small : (certificate.content iso key).size < 2^31) (posInfin negInfin : Time) :
    ∃ content decoded,certificate.encode iso memory = .ok content ∧
      Certificate.decode iso memory content (.fresh posInfin negInfin) = .ok decoded ∧
      decoded.notBefore = certificate.notBefore ∧ decoded.notAfter = certificate.notAfter ∧
      decoded.subjectList = certificate.subjectList ∧ decoded.key.key = certificate.key.key ∧
      decoded.extnList = certificate.extnList := by
  obtain ⟨content,node,encoded,parsed,exact,canonical,same⟩ := certificate_encodes subjects extensions writes small memory
  obtain ⟨algorithm,visited⟩ :=
    visit_certificate laws early late subjects extensions writes exact canonical same posInfin negInfin
  have parts := part_sizes iso certificate key
  obtain ⟨_,_,_,blob⟩ := key_tells writes (by omega) memory
  refine ⟨content,{certificate with key := ⟨algorithm,key.bytes⟩},encoded,?_,rfl,rfl,rfl,blob.symm,rfl⟩
  simp only [Certificate.decode,parsed,Except.mapError,ok_bind,visited]

-- Times of day as two-digit fields, printed and read the way boost does it.
structure Instant where
  century : Fin 100
  year : Fin 100
  month : Fin 100
  day : Fin 100
  hour : Fin 100
  minute : Fin 100
  second : Fin 100
  deriving DecidableEq, Repr

def twoDigits (n : Fin 100) : Blob := [UInt8.ofNat (48 + n.val / 10),UInt8.ofNat (48 + n.val % 10)]

def ofTwoDigits (tens ones : UInt8) : Except Failure (Fin 100) :=
  if small : (tens.toNat - 48) * 10 + (ones.toNat - 48) < 100 then .ok ⟨_,small⟩ else .error .badTime

def Instant.read : Blob → Except Failure Instant
  | [c,c',y,y',m,m',d,d',t,h,h',n,n',s,s'] => do
    if t ≠ 0x54 then throw .badTime
    return ⟨← ofTwoDigits c c',← ofTwoDigits y y',← ofTwoDigits m m',← ofTwoDigits d d',← ofTwoDigits h h',
      ← ofTwoDigits n n',← ofTwoDigits s s'⟩
  | _ => .error .badTime

def Instant.iso : IsoTime Instant where
  toIsoString time := twoDigits time.century ++ twoDigits time.year ++ twoDigits time.month ++ twoDigits time.day ++
    0x54 :: (twoDigits time.hour ++ twoDigits time.minute ++ twoDigits time.second)
  fromIsoString := Instant.read
  WholeSecond _ := True

theorem twoDigits_back (n : Fin 100) :
    ofTwoDigits (UInt8.ofNat (48 + n.val / 10)) (UInt8.ofNat (48 + n.val % 10)) = .ok n ∧ 0x54 ∉ twoDigits n := by
  revert n
  decide

theorem Instant.lawful : Instant.iso.Lawful where
  prints time _ := by
    refine ⟨_,_,rfl,rfl,?_,rfl⟩
    simp only [List.mem_append,not_or]
    exact ⟨⟨⟨(twoDigits_back _).2,(twoDigits_back _).2⟩,(twoDigits_back _).2⟩,(twoDigits_back _).2⟩
  inverse time _ := by
    simp only [Instant.iso,twoDigits,List.cons_append,List.nil_append,Instant.read,(twoDigits_back _).1]
    rfl

-- SEQUENCE { SEQUENCE { OID 1.2 } }
def sampleKey : Blob := [0x30,0x05,0x30,0x03,0x06,0x01,0x2A]

def sampleKeyTree : Content := .sequence [.sequence [.leaf .derObjectIdentifier [0x2A]]]

theorem sampleKey_written : WritesKey sampleKeyTree sampleKey := by
  refine ⟨⟨.complex [] true 0 [.complex [] true 0 [.leaf .derObjectIdentifier [0x06,0x01] [0x2A]]],_,?_,rfl,rfl⟩,?_⟩
  · exact .addChild (.addChild (.oid [1,2] rfl) .sequence (.here [] false 0 [])) .sequence (.here [] false 0 [])
  · exact ⟨[1,2],[0x2A],[],[],rfl,rfl⟩

def sampleCertificate (subjectList : List CertificateSubDescrypt) : Certificate Instant :=
  ⟨⟨20,13,1,1,0,0,0⟩,⟨20,33,1,1,23,59,59⟩,subjectList,⟨[1,2],sampleKey⟩,[⟨[2,5,29,19],true,[0x01]⟩]⟩

def Instant.zero : Instant := ⟨0,0,0,0,0,0,0⟩

theorem certificate_round_trip_sample :
    ∃ content decoded,(sampleCertificate [⟨[2,5,4,41],[0x41]⟩]).encode Instant.iso (fun _ => 0) = .ok content ∧
      Certificate.decode Instant.iso (fun _ => 0) content (.fresh .zero .zero) = .ok decoded ∧
      decoded.notBefore = ⟨20,13,1,1,0,0,0⟩ ∧ decoded.notAfter = ⟨20,33,1,1,23,59,59⟩ ∧
      decoded.subjectList = [⟨[2,5,4,41],[0x41]⟩] ∧ decoded.key.key = sampleKey ∧
      decoded.extnList = [⟨[2,5,29,19],true,[0x01]⟩] := by
  apply certificate_round_trip Instant.iso Instant.lawful (fun _ => 0) (sampleCertificate [⟨[2,5,4,41],[0x41]⟩])
    sampleKeyTree trivial trivial
  · intro entry member
    rw [List.mem_singleton.mp member]
    exact ⟨2,5,[4,41],rfl,by decide,by decide,by decide⟩
  · intro entry member
    rw [List.mem_singleton.mp member]
    exact ⟨2,5,[29,19],rfl,by decide,by decide,by decide⟩
  · exact sampleKey_written
  · decide

theorem too_long_subject_throws {value : Blob} (long : value.length = 2^31) :
    (sampleCertificate [⟨[2,5,4,41],value⟩]).encode Instant.iso (fun _ => 0) =
      .error (.negativeLengthException "Negative length") := by
  obtain ⟨notBefore,early,_⟩ := ofPayload_tells .derGeneralizedTime
    (gtimePayload (Instant.iso.toIsoString ⟨20,13,1,1,0,0,0⟩)) (by decide)
  obtain ⟨notAfter,late,_⟩ := ofPayload_tells .derGeneralizedTime
    (gtimePayload (Instant.iso.toIsoString ⟨20,33,1,1,23,59,59⟩)) (by decide)
  have range : InRange [2,5,4,41] := ⟨2,5,[4,41],rfl,by decide,by decide,by decide⟩
  obtain ⟨oid,made,_⟩ := derOid_tells range (by decide)
  simp only [Certificate.encode,sampleCertificate,derGtime,early,late,ok_bind,addEach,CertificateSubDescrypt.toDER,made,
    derPrintableString,DerNode.ofPayload_too_long _ long,error_bind]

-- Without a condition on the subjects an identifier of one arc comes back with
-- two, and a value of 2^31 bytes cannot be written at all.
theorem one_arc_subject_changes :
    ((sampleCertificate [⟨[2],[0x41]⟩]).encode Instant.iso (fun _ => 0)).toOption.bind (fun content =>
      (Certificate.decode Instant.iso (fun _ => 0) content (.fresh .zero .zero)).toOption.map Certificate.subjectList) =
        some [⟨[2,0],[0x41]⟩] ∧
    (sampleCertificate [⟨[2,5,4,41],List.replicate (2^31) 0x41⟩]).encode Instant.iso (fun _ => 0) =
      .error (.negativeLengthException "Negative length") :=
  ⟨by decide +kernel,too_long_subject_throws List.length_replicate⟩

end NdnCxx.Der
