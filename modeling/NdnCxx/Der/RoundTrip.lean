import NdnCxx.Der.Build
import NdnCxx.Lib.Throwing

namespace NdnCxx.Der
open Wire (int32 int32_small)
open Throwing

-- What a tree tells, without what its nodes cache.
inductive Content where
  | leaf (type : DerType) (payload : Blob)
  | sequence (children : List Content)

mutual
def Content.size : Content → Nat
  | .leaf _ payload => 1 + (sizeField payload.length).length + payload.length
  | .sequence children => 1 + (sizeField (Content.sizeAll children)).length + Content.sizeAll children
def Content.sizeAll : List Content → Nat
  | [] => 0
  | child :: children => child.size + Content.sizeAll children
end

-- The encoding of a tree, read off what it tells alone.
mutual
def Content.bytes : Content → Blob
  | .leaf type payload => type.code :: (sizeField payload.length ++ payload)
  | .sequence children => derSequence :: (sizeField (Content.bytesAll children).length ++ Content.bytesAll children)
def Content.bytesAll : List Content → Blob
  | [] => []
  | child :: children => child.bytes ++ Content.bytesAll children
end

mutual
def Content.depth : Content → Nat
  | .leaf _ _ => 0
  | .sequence children => Content.depthAll children + 1
def Content.depthAll : List Content → Nat
  | [] => 0
  | child :: children => max child.depth (Content.depthAll children)
end

namespace DerNode

mutual
def content : DerNode → Content
  | .leaf type _ payload => .leaf type payload
  | .complex _ _ _ nodeList => .sequence (contentAll nodeList)
def contentAll : List DerNode → List Content
  | [] => []
  | node :: nodes => node.content :: contentAll nodes
end

-- A node whose bytes are exactly its encoding: each length field of a node
-- without children reads as the payload's length, in any form, and each header of
-- a sequence is the one `encodeHeader` writes for what follows it.
mutual
def Exact : DerNode → Prop
  | .leaf type header payload =>
    ∃ field n,header = type.code :: field ∧ LengthField field n ∧ (int32 n).toNat = payload.length
  | .complex header childChanged size nodeList =>
    header = Der.derSequence :: sizeField (rawAll nodeList).length ∧ childChanged = false ∧
      size = (rawAll nodeList).length ∧ ExactAll nodeList
def ExactAll : List DerNode → Prop
  | [] => True
  | node :: nodes => node.Exact ∧ ExactAll nodes
end

-- The length fields of the nodes without children are the writer's own too.
mutual
def Canonical : DerNode → Prop
  | .leaf type header payload => header = type.code :: sizeField payload.length
  | .complex _ _ _ nodeList => CanonicalAll nodeList
def CanonicalAll : List DerNode → Prop
  | [] => True
  | node :: nodes => node.Canonical ∧ CanonicalAll nodes
end

mutual
theorem canonical_raw : (node : DerNode) → node.Exact → node.Canonical → node.getRaw = node.content.bytes
  | .leaf type header payload,_,canonical => by
    rw [getRaw,content,Content.bytes,canonical,List.cons_append]
  | .complex header childChanged size nodeList,exact,canonical => by
    rw [getRaw,content,Content.bytes,exact.1,canonical_rawAll nodeList exact.2.2.2 canonical,List.cons_append]
theorem canonical_rawAll : (nodes : List DerNode) → ExactAll nodes → CanonicalAll nodes →
    rawAll nodes = Content.bytesAll (contentAll nodes)
  | [],_,_ => rfl
  | node :: nodes,exact,canonical => by
    rw [rawAll,contentAll,Content.bytesAll,canonical_raw node exact.1 canonical.1,
      canonical_rawAll nodes exact.2 canonical.2]
end

theorem exact_raw_pos : (node : DerNode) → node.Exact → 2 ≤ node.getRaw.length
  | .leaf type header payload,exact => by
    obtain ⟨field,n,rfl,declares,_⟩ := exact
    have nonempty := declares.nonempty
    simp only [getRaw,List.length_append,List.length_cons]
    omega
  | .complex header childChanged size nodeList,exact => by
    obtain ⟨rfl,_,_,_⟩ := exact
    have nonempty : 0 < (sizeField (rawAll nodeList).length).length := by
      unfold sizeField
      split <;> simp
    simp only [getRaw,List.length_append,List.length_cons]
    omega

theorem exact_getSize : (node : DerNode) → node.Exact → node.getRaw.length < 2^31 →
    node.getSize = .ok ((node.getRaw.length : Int),node)
  | .leaf type header payload,_,small => by
    simp only [getRaw,List.length_append] at small ⊢
    simp only [getSize]
    rw [int32_small (by omega) (by omega)]
    push_cast
    rfl
  | .complex header childChanged size nodeList,exact,small => by
    obtain ⟨rfl,rfl,rfl,_⟩ := exact
    simp only [getRaw,List.length_append] at small ⊢
    simp only [getSize,Bool.false_eq_true,if_false,pure_ok,ok_bind,encodeHeader_nat]
    rw [int32_small (by omega) (by omega)]
    push_cast
    rw [add_comm]

theorem peek_cons (past rest : Blob) (byte : UInt8) :
    (InputIterator.cursor past (byte :: rest)).peek = (byte,.cursor past (byte :: rest)) := rfl

theorem read_all (past payload rest : Blob) :
    (InputIterator.cursor past (payload ++ rest)).read payload.length =
      (payload,.cursor (payload.reverse ++ past) rest) := by
  simp [InputIterator.read,InputIterator.cursor,InputIterator.good]

theorem decode_empty (memory : Nat → UInt8) (type : DerType) {start s : InputIterator} {size : Int} {header : Blob}
    (read : decodeHeader start = (size,header,s)) (empty : ¬size > 0) :
    decode memory type start = (.leaf type header [],s) := by
  unfold decode
  rw [read]
  dsimp only
  rw [if_neg empty]

theorem decode_filled (memory : Nat → UInt8) (type : DerType) {start s after : InputIterator} {size : Int}
    {header payload : Blob} (read : decodeHeader start = (size,header,s)) (positive : size > 0)
    (filled : s.read size.toNat = (payload,after)) (whole : size.toNat = payload.length) :
    decode memory type start = (.leaf type header payload,after) := by
  unfold decode
  rw [read]
  dsimp only
  rw [if_pos positive,filled]
  simp [whole]

theorem decode_exact (memory : Nat → UInt8) (type : DerType) {field payload : Blob} {n : Nat}
    (declares : LengthField field n) (fits : (int32 n).toNat = payload.length) (past more : Blob) :
    decode memory type (.cursor past (type.code :: (field ++ (payload ++ more)))) =
      (.leaf type (type.code :: field) payload,
        .cursor (payload.reverse ++ ((type.code :: field).reverse ++ past)) more) := by
  have read := decodeHeader_field declares type.code past (payload ++ more)
  by_cases positive : int32 n > 0
  · apply decode_filled memory type read positive _ fits
    rw [fits,read_all]
  · have empty : payload = [] := by
      apply List.length_eq_zero_iff.mp
      omega
    rw [decode_empty memory type read positive,empty]
    rfl

theorem parse_complex {memory : Nat → UInt8} {fuel : Nat} {past bytes header : Blob} {size : Int} {s after : InputIterator}
    {nodes : List DerNode} (read : decodeHeader (.cursor past (Der.derSequence :: bytes)) = (size,header,s))
    (body : parseChildren memory fuel size 0 s = .ok (nodes,after)) :
    parseWithin memory (fuel+1) (.cursor past (Der.derSequence :: bytes)) = .ok (.complex header false size nodes,after) := by
  simp only [parseWithin,peek_cons,if_true,read,body,ok_bind,pure_ok]

theorem parse_sequence (memory : Nat → UInt8) {field rest past : Blob} {n fuel : Nat} {nodes : List DerNode}
    {after : InputIterator} (declares : LengthField field n) (small : n < 2^31)
    (body : parseChildren memory fuel n 0 (.cursor ((Der.derSequence :: field).reverse ++ past) rest) = .ok (nodes,after)) :
    parseWithin memory (fuel+1) (.cursor past (Der.derSequence :: (field ++ rest))) =
      .ok (.complex (Der.derSequence :: field) false n nodes,after) := by
  have read := decodeHeader_field declares Der.derSequence past rest
  rw [int32_small (by omega) (by omega)] at read
  exact parse_complex read body

-- The parser hands back the node itself; its bytes bound the fuel.
mutual
theorem exact_parses (memory : Nat → UInt8) : (node : DerNode) → node.Exact → node.getRaw.length < 2^31 →
    ∀ (fuel : Nat) (past more : Blob),2 * node.getRaw.length + 1 ≤ fuel →
      parseWithin memory fuel (.cursor past (node.getRaw ++ more)) =
        .ok (node,.cursor (node.getRaw.reverse ++ past) more)
  | .leaf type header payload,exact,_ => by
    intro fuel past more enough
    obtain ⟨field,n,rfl,declares,fits⟩ := exact
    obtain ⟨fuel,rfl⟩ : ∃ smaller,fuel = smaller+1 := ⟨fuel-1,by omega⟩
    have read := decode_exact memory type declares fits past more
    simp only [getRaw,List.cons_append,List.append_assoc,parseWithin,peek_cons,type.code_ne_sequence,if_false,
      DerType.ofCode_code,read]
    simp
  | .complex header childChanged size nodeList,exact,small => by
    intro fuel past more enough
    obtain ⟨rfl,rfl,rfl,children⟩ := exact
    obtain ⟨fuel,rfl⟩ : ∃ smaller,fuel = smaller+1 := ⟨fuel-1,by omega⟩
    simp only [getRaw,List.length_append,List.length_cons] at small enough
    have declares : LengthField (sizeField (rawAll nodeList).length) (rawAll nodeList).length :=
      sizeField_declares (by omega)
    have nonempty := declares.nonempty
    have body := exact_parsesAll memory nodeList children fuel
      ((Der.derSequence :: sizeField (rawAll nodeList).length).reverse ++ past) more 0 (by omega) (by omega)
    simp only [Nat.cast_zero,zero_add] at body
    have parsed := parse_sequence memory declares (by omega) body
    simp only [getRaw,List.cons_append,List.append_assoc,parsed]
    simp
theorem exact_parsesAll (memory : Nat → UInt8) : (nodes : List DerNode) → ExactAll nodes →
    ∀ (fuel : Nat) (past more : Blob) (accSize : Nat),2 * (rawAll nodes).length + 2 ≤ fuel →
      accSize + (rawAll nodes).length < 2^31 →
      parseChildren memory fuel ((accSize + (rawAll nodes).length : Nat) : Int) accSize
          (.cursor past (rawAll nodes ++ more)) =
        .ok (nodes,.cursor ((rawAll nodes).reverse ++ past) more)
  | [],_ => by
    intro fuel past more accSize enough small
    obtain ⟨fuel,rfl⟩ : ∃ smaller,fuel = smaller+1 := ⟨fuel-1,by omega⟩
    simp [rawAll,parseChildren]
  | node :: nodes,exact => by
    intro fuel past more accSize enough small
    obtain ⟨first,others⟩ := exact
    have positive := exact_raw_pos node first
    simp only [rawAll,List.length_append] at enough small
    obtain ⟨fuel,rfl⟩ : ∃ smaller,fuel = smaller+1 := ⟨fuel-1,by omega⟩
    have head := exact_parses memory node first (by omega) fuel past (rawAll nodes ++ more) (by omega)
    have size := exact_getSize node first (by omega)
    have tail := exact_parsesAll memory nodes others fuel (node.getRaw.reverse ++ past) more
      (accSize + node.getRaw.length) (by omega) (by omega)
    have sum : int32 ((accSize : Int) + (node.getRaw.length : Int)) = ((accSize + node.getRaw.length : Nat) : Int) := by
      rw [int32_small (by omega) (by omega)]
      push_cast
      rfl
    have total : accSize + (rawAll (node :: nodes)).length = accSize + node.getRaw.length + (rawAll nodes).length := by
      simp only [rawAll,List.length_append]
      omega
    rw [total]
    simp only [rawAll,List.append_assoc,parseChildren]
    rw [if_pos (by omega)]
    simp only [head,ok_bind,size,sum,tail]
    simp
end

-- What holds of the cached fields at every moment between two calls: a size that
-- is not marked as changed is the sum below it, as long as it fits an `int`.
def Unchanged : DerNode → Prop
  | .leaf _ _ _ => True
  | .complex _ childChanged _ _ => childChanged = false

mutual
def Settled : DerNode → Prop
  | .leaf type header payload => payload.length < 2^31 → header = type.code :: sizeField payload.length
  | .complex _ childChanged size nodeList =>
    SettledAll nodeList ∧ (childChanged = false → (∀ node ∈ nodeList,node.Unchanged) ∧
      (Content.sizeAll (contentAll nodeList) < 2^31 → size = Content.sizeAll (contentAll nodeList)))
def SettledAll : List DerNode → Prop
  | [] => True
  | node :: nodes => node.Settled ∧ SettledAll nodes
end

@[simp] theorem settledAll_append (before after : List DerNode) :
    SettledAll (before ++ after) ↔ SettledAll before ∧ SettledAll after := by
  induction before with
  | nil => simp [SettledAll]
  | cons node nodes ih => simp [SettledAll,ih,and_assoc]

@[simp] theorem contentAll_append (before after : List DerNode) :
    contentAll (before ++ after) = contentAll before ++ contentAll after := by
  induction before with
  | nil => rfl
  | cons node nodes ih => simp [contentAll,ih]

-- What a call that only refreshes the caches keeps.
structure Kept (node after : DerNode) : Prop where
  settled : after.Settled
  unchanged : after.Unchanged
  content : after.content = node.content

structure KeptAll (nodes after : List DerNode) : Prop where
  settled : SettledAll after
  unchanged : ∀ node ∈ after,node.Unchanged
  content : contentAll after = contentAll nodes

theorem KeptAll.nil : KeptAll [] [] := ⟨trivial,by simp,rfl⟩

theorem KeptAll.cons {node after : DerNode} {nodes afters : List DerNode} (first : Kept node after)
    (others : KeptAll nodes afters) : KeptAll (node :: nodes) (after :: afters) where
  settled := ⟨first.settled,others.settled⟩
  unchanged := by simpa using ⟨first.unchanged,others.unchanged⟩
  content := by rw [contentAll,contentAll,first.content,others.content]

theorem KeptAll.trans {nodes middle afters : List DerNode} (first : KeptAll nodes middle) (second : KeptAll middle afters) :
    KeptAll nodes afters := ⟨second.settled,second.unchanged,second.content.trans first.content⟩

theorem KeptAll.complex {nodes afters : List DerNode} (kept : KeptAll nodes afters) (header old : Blob)
    (childChanged : Bool) (size sizeBefore : Int)
    (sum : Content.sizeAll (contentAll nodes) < 2^31 → size = Content.sizeAll (contentAll nodes)) :
    Kept (.complex old childChanged sizeBefore nodes) (.complex header false size afters) where
  settled := ⟨kept.settled,fun _ => ⟨kept.unchanged,by rw [kept.content]; exact sum⟩⟩
  unchanged := rfl
  content := by rw [DerNode.content,DerNode.content,kept.content]

mutual
theorem getSize_keeps : (node : DerNode) → node.Settled → ∀ size after,node.getSize = .ok (size,after) →
    Kept node after ∧ (node.content.size < 2^31 → size = node.content.size)
  | .leaf type header payload,settled => by
    intro size after returned
    simp only [getSize,Except.ok.injEq,Prod.mk.injEq] at returned
    obtain ⟨rfl,rfl⟩ := returned
    refine ⟨⟨settled,trivial,rfl⟩,?_⟩
    intro small
    simp only [content,Content.size] at small ⊢
    rw [settled (by omega),int32_small (by omega) (by simp only [List.length_cons]; omega)]
    simp only [List.length_cons]
    push_cast
    omega
  | .complex header childChanged cached nodeList,settled => by
    intro size after returned
    obtain ⟨children,fresh⟩ := settled
    simp only [getSize] at returned
    obtain ⟨⟨sum,nodes⟩,updated,returned⟩ := bind_ok returned
    obtain ⟨encoded,written,returned⟩ := bind_ok returned
    simp only [pure_ok,Except.ok.injEq,Prod.mk.injEq] at returned
    obtain ⟨rfl,rfl⟩ := returned
    have summed : KeptAll nodeList nodes ∧
        (Content.sizeAll (contentAll nodeList) < 2^31 → sum = Content.sizeAll (contentAll nodeList)) := by
      cases childChanged with
      | true =>
        obtain ⟨kept,value⟩ := updateSize_keeps nodeList children 0 sum nodes (by simpa using updated)
        exact ⟨kept,fun small => by simpa using value 0 rfl (by simpa using small)⟩
      | false =>
        obtain ⟨unchanged,value⟩ := fresh rfl
        simp only [Bool.false_eq_true,if_false,Except.ok.injEq,Prod.mk.injEq] at updated
        obtain ⟨rfl,rfl⟩ := updated
        exact ⟨⟨children,unchanged,rfl⟩,value⟩
    refine ⟨summed.1.complex _ _ _ _ _ summed.2,?_⟩
    intro small
    simp only [content,Content.size] at small ⊢
    rw [summed.2 (by omega),encodeHeader_nat] at written
    cases written
    rw [summed.2 (by omega),int32_small (by omega) (by simp only [List.length_cons]; omega)]
    simp only [List.length_cons]
    push_cast
    omega
theorem updateSize_keeps : (nodes : List DerNode) → SettledAll nodes → ∀ newSize size after,
    updateSize newSize nodes = .ok (size,after) → KeptAll nodes after ∧
      ∀ k : Nat,newSize = k → k + Content.sizeAll (contentAll nodes) < 2^31 →
        size = ((k + Content.sizeAll (contentAll nodes) : Nat) : Int)
  | [],_ => by
    intro newSize size after returned
    simp only [updateSize,Except.ok.injEq,Prod.mk.injEq] at returned
    obtain ⟨rfl,rfl⟩ := returned
    exact ⟨.nil,fun k start _ => by simpa [contentAll,Content.sizeAll] using start⟩
  | node :: nodes,settled => by
    intro newSize size after returned
    simp only [updateSize] at returned
    obtain ⟨⟨nodeSize,first⟩,sized,returned⟩ := bind_ok returned
    obtain ⟨⟨total,others⟩,summed,returned⟩ := bind_ok returned
    simp only [pure_ok,Except.ok.injEq,Prod.mk.injEq] at returned
    obtain ⟨rfl,rfl⟩ := returned
    obtain ⟨kept,value⟩ := getSize_keeps node settled.1 nodeSize first sized
    obtain ⟨keptAll,sum⟩ := updateSize_keeps nodes settled.2 _ _ _ summed
    refine ⟨.cons kept keptAll,?_⟩
    intro k start small
    simp only [contentAll,Content.sizeAll] at small ⊢
    have next : int32 (newSize + nodeSize) = ((k + node.content.size : Nat) : Int) := by
      rw [start,value (by omega),int32_small (by omega) (by omega)]
      push_cast
      rfl
    rw [sum _ next (by omega),add_assoc]
end

mutual
theorem getSize_returns : (node : DerNode) → node.Settled → node.content.size < 2^31 →
    ∃ size after,node.getSize = .ok (size,after)
  | .leaf type header payload,_,_ => ⟨_,_,rfl⟩
  | .complex header childChanged cached nodeList,settled,small => by
    obtain ⟨children,fresh⟩ := settled
    simp only [content,Content.size] at small
    cases childChanged with
    | true =>
      obtain ⟨sum,nodes,updated⟩ := updateSize_returns nodeList children 0 (by omega)
      have value := (updateSize_keeps nodeList children 0 sum nodes updated).2 0 rfl (by omega)
      simp only [Nat.cast_zero] at updated
      exact ⟨_,_,by simp only [getSize,if_true,updated,ok_bind,value,encodeHeader_nat,pure_ok]; rfl⟩
    | false =>
      have value := (fresh rfl).2 (by omega)
      exact ⟨_,_,by simp only [getSize,Bool.false_eq_true,if_false,ok_bind,value,encodeHeader_nat,pure_ok]; rfl⟩
theorem updateSize_returns : (nodes : List DerNode) → SettledAll nodes → ∀ k : Nat,
    k + Content.sizeAll (contentAll nodes) < 2^31 → ∃ size after,updateSize k nodes = .ok (size,after)
  | [],_ => fun k _ => ⟨k,[],rfl⟩
  | node :: nodes,settled => by
    intro k small
    simp only [contentAll,Content.sizeAll] at small
    obtain ⟨nodeSize,first,sized⟩ := getSize_returns node settled.1 (by omega)
    have value := (getSize_keeps node settled.1 nodeSize first sized).2 (by omega)
    have next : int32 ((k : Int) + nodeSize) = ((k + node.content.size : Nat) : Int) := by
      rw [value,int32_small (by omega) (by omega)]
      push_cast
      rfl
    obtain ⟨total,others,summed⟩ := updateSize_returns nodes settled.2 (k + node.content.size) (by omega)
    exact ⟨total,first :: others,by simp only [updateSize,sized,ok_bind,next,summed,pure_ok]⟩
end

mutual
theorem depth_content : (node : DerNode) → node.depth = node.content.depth
  | .leaf _ _ _ => rfl
  | .complex _ _ _ nodeList => by rw [depth,content,Content.depth,depthAll_content nodeList]
theorem depthAll_content : (nodes : List DerNode) → depthAll nodes = Content.depthAll (contentAll nodes)
  | [] => rfl
  | node :: nodes => by rw [depthAll,contentAll,Content.depthAll,depth_content node,depthAll_content nodes]
end

-- The node that `encode` leaves behind has exactly the bytes that were written.
structure Written (node after : DerNode) (bytes : Blob) : Prop where
  exact : after.Exact
  canonical : after.Canonical
  raw : bytes = after.getRaw
  size : bytes.length = node.content.size

structure WrittenAll (nodes afters : List DerNode) (bytes : Blob) : Prop where
  exact : ExactAll afters
  canonical : CanonicalAll afters
  raw : bytes = rawAll afters
  size : bytes.length = Content.sizeAll (contentAll nodes)

theorem Written.cons {node after : DerNode} {nodes afters : List DerNode} {first others : Blob}
    (head : Written node after first) (tail : WrittenAll nodes afters others) :
    WrittenAll (node :: nodes) (after :: afters) (first ++ others) where
  exact := ⟨head.exact,tail.exact⟩
  canonical := ⟨head.canonical,tail.canonical⟩
  raw := by rw [rawAll,head.raw,tail.raw]
  size := by rw [List.length_append,head.size,tail.size,contentAll,Content.sizeAll]

theorem encodeAll_keeps {encode : DerNode → Except Exception (Blob × DerNode)} {nodes : List DerNode}
    (each : ∀ node : DerNode,node.Settled → ∀ bytes after,encode node = .ok (bytes,after) →
      Kept node after ∧ (node.content.size < 2^31 → Written node after bytes))
    (settled : SettledAll nodes) : ∀ bytes afters,encodeAll encode nodes = .ok (bytes,afters) →
      KeptAll nodes afters ∧ (Content.sizeAll (contentAll nodes) < 2^31 → WrittenAll nodes afters bytes) := by
  induction nodes with
  | nil =>
    intro bytes afters returned
    cases returned
    exact ⟨.nil,fun _ => ⟨trivial,trivial,rfl,rfl⟩⟩
  | cons node nodes ih =>
    intro bytes afters returned
    simp only [encodeAll] at returned
    obtain ⟨⟨first,after⟩,encoded,returned⟩ := bind_ok returned
    obtain ⟨⟨others,rest⟩,encodedAll,returned⟩ := bind_ok returned
    cases returned
    obtain ⟨kept,written⟩ := each node settled.1 first after encoded
    obtain ⟨keptAll,writtenAll⟩ := ih settled.2 others rest encodedAll
    refine ⟨.cons kept keptAll,?_⟩
    intro small
    simp only [contentAll,Content.sizeAll] at small
    exact (written (by omega)).cons (writtenAll (by omega))

theorem leaf_written {type : DerType} {header payload : Blob} (settled : (leaf type header payload).Settled)
    (small : (leaf type header payload).content.size < 2^31) :
    Written (.leaf type header payload) (.leaf type header payload) (header ++ payload) := by
  simp only [content,Content.size] at small
  have written := settled (by omega)
  refine ⟨⟨sizeField payload.length,payload.length,written,sizeField_declares (by omega),?_⟩,written,rfl,?_⟩
  · rw [int32_small (by omega) (by omega)]
    simp
  · rw [written]
    simp only [content,Content.size,List.length_append,List.length_cons]
    omega

theorem encodeWithin_keeps (fuel : Nat) : ∀ node : DerNode,node.Settled → ∀ bytes after,
    encodeWithin fuel node = .ok (bytes,after) →
      Kept node after ∧ (node.content.size < 2^31 → Written node after bytes) := by
  induction fuel with
  | zero =>
    intro node settled bytes after returned
    cases node with
    | leaf type header payload =>
      cases returned
      exact ⟨⟨settled,trivial,rfl⟩,leaf_written settled⟩
    | complex header childChanged size nodeList => cases returned
  | succ fuel ih =>
    intro node settled bytes after returned
    cases node with
    | leaf type header payload =>
      cases returned
      exact ⟨⟨settled,trivial,rfl⟩,leaf_written settled⟩
    | complex header childChanged size nodeList =>
      simp only [encodeWithin] at returned
      obtain ⟨⟨sum,nodes⟩,updated,returned⟩ := bind_ok returned
      obtain ⟨encoded,header,returned⟩ := bind_ok returned
      obtain ⟨⟨body,nodes⟩,encodedAll,returned⟩ := bind_ok returned
      cases returned
      obtain ⟨kept,value⟩ := updateSize_keeps nodeList settled.1 0 _ _ updated
      obtain ⟨keptAll,written⟩ := encodeAll_keeps ih kept.settled _ _ encodedAll
      have total : Content.sizeAll (contentAll nodeList) < 2^31 → sum = Content.sizeAll (contentAll nodeList) :=
        fun small => by simpa using value 0 rfl (by simpa using small)
      refine ⟨(kept.trans keptAll).complex _ _ _ _ _ total,?_⟩
      intro small
      simp only [content,Content.size] at small
      rw [total (by omega),encodeHeader_nat] at header
      cases header
      have body := written (by rw [kept.content]; omega)
      have length := body.size
      rw [kept.content,body.raw] at length
      refine ⟨⟨by rw [length],rfl,by rw [total (by omega),length],body.exact⟩,body.canonical,by rw [getRaw,body.raw],?_⟩
      rw [List.length_append,body.size,kept.content]
      simp only [content,Content.size,List.length_cons]
      omega

theorem encodeAll_returns {encode : DerNode → Except Exception (Blob × DerNode)} {nodes : List DerNode}
    (each : ∀ node ∈ nodes,∃ bytes after,encode node = .ok (bytes,after)) :
    ∃ bytes afters,encodeAll encode nodes = .ok (bytes,afters) := by
  induction nodes with
  | nil => exact ⟨[],[],rfl⟩
  | cons node nodes ih =>
    obtain ⟨first,after,encoded⟩ := each node (by simp)
    obtain ⟨others,rest,encodedAll⟩ := ih (fun other member => each other (by simp [member]))
    exact ⟨first ++ others,after :: rest,by simp only [encodeAll,encoded,encodedAll,ok_bind,pure_ok]⟩

theorem mem_bounds {nodes : List DerNode} {node : DerNode} (member : node ∈ nodes) (settled : SettledAll nodes) :
    node.Settled ∧ node.content.size ≤ Content.sizeAll (contentAll nodes) ∧ node.depth ≤ depthAll nodes := by
  induction nodes with
  | nil => cases member
  | cons first nodes ih =>
    simp only [contentAll,Content.sizeAll,depthAll]
    rcases List.mem_cons.mp member with rfl | later
    · exact ⟨settled.1,by omega,by omega⟩
    · obtain ⟨own,size,deep⟩ := ih later settled.2
      exact ⟨own,by omega,by omega⟩

theorem encodeWithin_returns (fuel : Nat) : ∀ node : DerNode,node.Settled → node.content.size < 2^31 →
    node.depth ≤ fuel → ∃ bytes after,encodeWithin fuel node = .ok (bytes,after) := by
  induction fuel with
  | zero =>
    intro node settled small shallow
    cases node with
    | leaf type header payload => exact ⟨_,_,rfl⟩
    | complex header childChanged size nodeList => simp [depth] at shallow
  | succ fuel ih =>
    intro node settled small shallow
    cases node with
    | leaf type header payload => exact ⟨_,_,rfl⟩
    | complex header childChanged size nodeList =>
      simp only [content,Content.size] at small
      obtain ⟨sum,nodes,updated⟩ := updateSize_returns nodeList settled.1 0 (by omega)
      simp only [Nat.cast_zero] at updated
      obtain ⟨kept,value⟩ := updateSize_keeps nodeList settled.1 0 _ _ updated
      have total : sum = Content.sizeAll (contentAll nodeList) := by simpa using value 0 rfl (by omega)
      have deep : depthAll nodes ≤ fuel := by
        rw [depthAll_content,kept.content,← depthAll_content]
        simp only [depth] at shallow
        omega
      have each : ∀ node ∈ nodes,∃ bytes after,encodeWithin fuel node = .ok (bytes,after) := by
        intro node member
        obtain ⟨own,bound,within⟩ := mem_bounds member kept.settled
        rw [kept.content] at bound
        exact ih node own (by omega) (by omega)
      obtain ⟨body,afters,encodedAll⟩ := encodeAll_returns each
      exact ⟨_,_,by simp only [encodeWithin,updated,ok_bind,total,encodeHeader_nat,encodedAll,pure_ok]; rfl⟩

theorem added_settles {child parent after : DerNode} {told : Bool} (added : Added child parent after told)
    (own : child.Settled) (settled : parent.Settled) : after.Settled ∧ (parent.Unchanged → told = true) := by
  induction added with
  | here header childChanged size nodeList =>
    refine ⟨⟨?_,by simp⟩,?_⟩
    · simp [SettledAll,settled.1,own]
    · intro unchanged
      simp only [Unchanged] at unchanged
      simp [addChild,unchanged]
  | @inside header childChanged size before rest inner changed told below ih =>
    obtain ⟨children,fresh⟩ := settled
    simp only [settledAll_append,SettledAll] at children
    obtain ⟨innerSettled,innerTold⟩ := ih children.2.1
    have notified : childChanged = false → told = true := fun unchanged =>
      innerTold ((fresh unchanged).1 inner (by simp))
    refine ⟨⟨?_,?_⟩,?_⟩
    · simp [SettledAll,children.1,children.2.2,innerSettled]
    · cases childChanged with
      | true => simp [setChildChanged]
      | false => simp [setChildChanged,notified rfl]
    · intro unchanged
      simp only [Unchanged] at unchanged
      simp [setChildChanged,unchanged,notified unchanged]

theorem queried_settles {node after : DerNode} (queried : Queried node after) (settled : node.Settled) :
    after.Settled ∧ after.content = node.content ∧ (node.Unchanged → after.Unchanged) := by
  induction queried with
  | getSize returned =>
    obtain ⟨kept,_⟩ := getSize_keeps _ settled _ _ returned
    exact ⟨kept.settled,kept.content,fun _ => kept.unchanged⟩
  | encode returned =>
    obtain ⟨kept,_⟩ := encodeWithin_keeps _ _ settled _ _ returned
    exact ⟨kept.settled,kept.content,fun _ => kept.unchanged⟩
  | @inside header childChanged size before rest inner changed below ih =>
    obtain ⟨children,fresh⟩ := settled
    simp only [settledAll_append,SettledAll] at children
    obtain ⟨innerSettled,same,innerUnchanged⟩ := ih children.2.1
    have contents : contentAll (before ++ changed :: rest) = contentAll (before ++ inner :: rest) := by
      simp [contentAll,same]
    refine ⟨⟨?_,?_⟩,by rw [content,content,contents],fun unchanged => unchanged⟩
    · simp [SettledAll,children.1,children.2.2,innerSettled]
    · intro unchanged
      obtain ⟨each,sum⟩ := fresh unchanged
      refine ⟨?_,by rw [contents]; exact sum⟩
      intro node member
      simp only [List.mem_append,List.mem_cons] at member
      rcases member with early | rfl | late
      · exact each node (by simp [early])
      · exact innerUnchanged (each inner (by simp))
      · exact each node (by simp [late])

theorem ofPayload_settled {type : DerType} {payload : Blob} {node : DerNode}
    (made : ofPayload type payload = .ok node) : node.Settled := by
  obtain ⟨header,encoded,returned⟩ := bind_ok made
  cases returned
  intro small
  rw [int32_small (by omega) (by omega),encodeHeader_nat] at encoded
  cases encoded
  rfl

-- 2^31 bytes are a negative size.
theorem ofPayload_too_long (type : DerType) {payload : Blob} (long : payload.length = 2^31) :
    ofPayload type payload = .error (.negativeLengthException "Negative length") := by
  have wraps : int32 ((2^31 : Nat) : Int) = -2^31 := by decide
  rw [ofPayload,long,wraps]
  rfl

theorem built_settled {node : DerNode} (built : Built node) : node.Settled := by
  induction built with
  | bool value made => exact ofPayload_settled made
  | integer blob made => exact ofPayload_settled made
  | bitString blob paddingLen made => exact ofPayload_settled made
  | octetString blob made => exact ofPayload_settled made
  | null made => exact ofPayload_settled made
  | oid value made =>
    obtain ⟨payload,_,made⟩ := bind_ok made
    exact ofPayload_settled made
  | oidOfString oidStr made =>
    obtain ⟨payload,_,made⟩ := bind_ok made
    exact ofPayload_settled made
  | printableString blob made => exact ofPayload_settled made
  | gtime pTimeStr made => exact ofPayload_settled made
  | sequence => exact ⟨trivial,fun _ => ⟨by simp,fun _ => rfl⟩⟩
  | addChild _ _ added own settled => exact (added_settles added own settled).1
  | query _ queried settled => exact (queried_settles queried settled).1

theorem settled_encodes {node : DerNode} (settled : node.Settled) (small : node.content.size < 2^31) :
    ∃ bytes after,node.encode = .ok (bytes,after) ∧ Written node after bytes ∧ after.content = node.content := by
  obtain ⟨bytes,after,encoded⟩ := encodeWithin_returns node.depth node settled small le_rfl
  obtain ⟨kept,written⟩ := encodeWithin_keeps _ _ settled _ _ encoded
  exact ⟨bytes,after,encoded,written small,kept.content⟩

theorem exact_parse (memory : Nat → UInt8) {node : DerNode} (exact : node.Exact) (small : node.getRaw.length < 2^31)
    (past more : Blob) :
    parse memory (.cursor past (node.getRaw ++ more)) = .ok (node,.cursor (node.getRaw.reverse ++ past) more) := by
  apply exact_parses memory node exact small
  simp only [InputIterator.cursor,List.length_append]
  omega

theorem parse_encode (memory : Nat → UInt8) {node : DerNode} (built : Built node) (small : node.content.size < 2^31)
    (more : Blob) :
    ∃ bytes after,node.encode = .ok (bytes,after) ∧ ∃ parsed,
      parse memory (.openOn (bytes ++ more)) = .ok (parsed,.cursor bytes.reverse more) ∧
      parsed.content = node.content := by
  obtain ⟨bytes,after,encoded,written,same⟩ := settled_encodes (built_settled built) small
  refine ⟨bytes,after,encoded,after,?_,same⟩
  have whole := written.size
  rw [written.raw] at whole ⊢
  have parsed := exact_parse memory written.exact (by omega) [] more
  rwa [List.append_nil] at parsed

-- A sequence with a `true` in it, before its first encoding.
theorem parse_encode_bool :
    Built (.complex [] true 0 [.leaf .derBoolean [1,1] [0xFF]]) ∧
      ∃ bytes after,encode (.complex [] true 0 [.leaf .derBoolean [1,1] [0xFF]]) = .ok (bytes,after) ∧ ∃ parsed,
        parse (fun _ => 0) (.openOn (bytes ++ [0x30])) = .ok (parsed,.cursor bytes.reverse [0x30]) ∧
        parsed.content = .sequence [.leaf .derBoolean [0xFF]] := by
  have built : Built (.complex [] true 0 [.leaf .derBoolean [1,1] [0xFF]]) :=
    .addChild (.bool true rfl) .sequence (.here [] false 0 [])
  exact ⟨built,parse_encode (fun _ => 0) built (by decide) [0x30]⟩

end DerNode

end NdnCxx.Der
