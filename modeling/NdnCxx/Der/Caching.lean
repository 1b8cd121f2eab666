import NdnCxx.Der.RoundTrip

namespace NdnCxx.Der
open Wire (int32 int32_small)

namespace DerNode

-- A node and those below it.
inductive Within : DerNode → DerNode → Prop where
  | self (node : DerNode) : Within node node
  | inside {header : Blob} {childChanged : Bool} {size : Int} {nodeList : List DerNode} {inner node : DerNode} :
      node ∈ nodeList → Within inner node → Within inner (.complex header childChanged size nodeList)

-- The size that a node caches for its children is theirs.
def CacheHolds : DerNode → Prop
  | .leaf _ _ _ => True
  | .complex _ _ size nodeList => size = Content.sizeAll (contentAll nodeList)

-- A node whose flag is down has nothing below it whose flag is up.
theorem within_settled {inner node : DerNode} (within : Within inner node) (settled : node.Settled) :
    inner.Settled ∧ inner.content.size ≤ node.content.size ∧ (node.Unchanged → inner.Unchanged) := by
  induction within with
  | self => exact ⟨settled,le_rfl,id⟩
  | @inside header childChanged size nodeList inner node member _ ih =>
    obtain ⟨children,fresh⟩ := settled
    obtain ⟨own,bound,_⟩ := mem_bounds member children
    obtain ⟨innerSettled,smaller,lowered⟩ := ih own
    refine ⟨innerSettled,?_,?_⟩
    · simp only [content,Content.size]
      omega
    · exact fun unchanged => lowered ((fresh unchanged).1 node member)

theorem unchanged_holds {node : DerNode} (settled : node.Settled) (small : node.content.size < 2^31)
    (unchanged : node.Unchanged) : node.CacheHolds := by
  cases node with
  | leaf => trivial
  | complex header childChanged size nodeList =>
    simp only [content,Content.size] at small
    exact (settled.2 unchanged).2 (by omega)

theorem settled_sizes {node : DerNode} (settled : node.Settled) (small : node.content.size < 2^31) :
    ∃ after written, node.getSize = .ok ((node.content.bytes.length : Int),after) ∧
      node.encode = .ok (node.content.bytes,written) ∧ after.content = node.content ∧ written.content = node.content := by
  obtain ⟨size,after,returned⟩ := getSize_returns node settled small
  obtain ⟨kept,value⟩ := getSize_keeps node settled size after returned
  obtain ⟨bytes,written,encoded,faithful,same⟩ := settled_encodes settled small
  have raw : bytes = node.content.bytes := by
    rw [faithful.raw,canonical_raw written faithful.exact faithful.canonical,same]
  have length := faithful.size
  rw [raw] at encoded length
  refine ⟨after,written,?_,encoded,kept.content,same⟩
  rw [length,returned,value small]

-- In every tree that the calls can build, at every node: `getSize` returns the number of
-- bytes that `encode` writes, neither changes what the tree tells, and when the flag of
-- the node is down everything below it is as it was cached.
theorem sizes_agree {root node : DerNode} (built : Built root) (within : Within node root) (small : node.content.size < 2^31) :
    (∃ after written, node.getSize = .ok ((node.content.bytes.length : Int),after) ∧
      node.encode = .ok (node.content.bytes,written) ∧ after.content = node.content ∧ written.content = node.content) ∧
    (node.Unchanged → ∀ inner, Within inner node → inner.Unchanged ∧ inner.CacheHolds) := by
  obtain ⟨settled,_,_⟩ := within_settled within (built_settled built)
  refine ⟨settled_sizes settled small,?_⟩
  intro unchanged inner below
  obtain ⟨innerSettled,smaller,lowered⟩ := within_settled below settled
  exact ⟨lowered unchanged,unchanged_holds innerSettled (by omega) (lowered unchanged)⟩

-- A `true` two sequences down, attached after the inner sequence was.
theorem sizes_agree_late : ∃ after written,
    getSize (.complex [] true 0 [.complex [] true 0 [.leaf .derBoolean [1,1] [0xFF]]]) = .ok (7,after) ∧
      encode (.complex [] true 0 [.complex [] true 0 [.leaf .derBoolean [1,1] [0xFF]]]) =
        .ok ([0x30,0x05,0x30,0x03,0x01,0x01,0xFF],written) := by
  have outer : Built (.complex [] true 0 [derSequence]) := .addChild .sequence .sequence (.here [] false 0 [])
  have built : Built (.complex [] true 0 [.complex [] true 0 [.leaf .derBoolean [1,1] [0xFF]]]) :=
    .addChild (.bool true rfl) outer (.inside [] true 0 [] [] (.here [] false 0 []))
  obtain ⟨⟨after,written,sized,encoded,_⟩,_⟩ := sizes_agree built (.self _) (by decide)
  exact ⟨after,written,sized,encoded⟩

-- Past what an `int` holds, the size comes out negative.
theorem octet_string_wraps {blob : Blob} (long : blob.length = 2^31 - 1) :
    ∃ node, derOctetString blob = .ok node ∧ ∃ size after bytes written, node.getSize = .ok (size,after) ∧
      node.encode = .ok (bytes,written) ∧ size < 0 ∧ size ≠ bytes.length := by
  have header : encodeHeader DerType.derOctetString.code (int32 blob.length) = .ok [4,0x84,0x7F,0xFF,0xFF,0xFF] := by
    rw [long]
    decide +kernel
  refine ⟨.leaf .derOctetString [4,0x84,0x7F,0xFF,0xFF,0xFF] blob,?_,_,_,_,_,rfl,rfl,?_⟩
  · rw [derOctetString,ofPayload,header]
    rfl
  · have wrapped : int32 (([4,0x84,0x7F,0xFF,0xFF,0xFF] : Blob).length + blob.length) = -2147483643 := by
      rw [long]
      decide +kernel
    rw [wrapped]
    omega

-- `addChild` with `notifyParent` false: the flag of the node stays, and no parent is told.
def addUnnotified (child : DerNode) : DerNode → DerNode
  | .complex header childChanged size nodeList => .complex header childChanged size (nodeList ++ [child])
  | .leaf type header payload => .leaf type header payload

-- The size of a sequence that was not told of its child, and the size of an octet string
-- of 2^31 - 1 bytes.
theorem sizes_disagree :
    (∃ child after written, derBool true = .ok child ∧ getSize (addUnnotified child derSequence) = .ok (2,after) ∧
      encode (addUnnotified child derSequence) = .ok ([0x30,0x03,0x01,0x01,0xFF],written)) ∧
    ∃ node, derOctetString (List.replicate (2^31 - 1) 0) = .ok node ∧ ∃ size after bytes written,
      node.getSize = .ok (size,after) ∧ node.encode = .ok (bytes,written) ∧ size < 0 ∧ size ≠ bytes.length := by
  have long : (List.replicate (2^31 - 1) 0 : Blob).length = 2^31 - 1 := List.length_replicate
  exact ⟨⟨.leaf .derBoolean [1,1] [0xFF],_,_,rfl,rfl,rfl⟩,octet_string_wraps long⟩

end DerNode
end NdnCxx.Der
