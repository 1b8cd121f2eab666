import NdnCxx.Wire.Outcome

namespace NdnCxx.Wire

structure Payload where
  bytes : Blob
  short : bytes.length < 2^32

-- The trees the encoders of this library write: only DTAG nodes, with tag numbers
-- and leaf lengths that fit the parser's 32-bit value.
inductive Tree where
  | dtag (number : Fin (2^32)) (children : List Tree)
  | blob (payload : Payload)
  | udata (payload : Payload)

mutual
def Tree.serialize : Tree → Blob
  | .dtag number children =>
    appendBlockHeader number.val TokenType.dtag.code ++ (Tree.serializeAll children ++ appendCloser)
  | .blob payload => appendBlockHeader payload.bytes.length TokenType.blob.code ++ payload.bytes
  | .udata payload => appendBlockHeader payload.bytes.length TokenType.udata.code ++ payload.bytes
def Tree.serializeAll : List Tree → Blob
  | [] => []
  | tree :: others => tree.serialize ++ Tree.serializeAll others
end

mutual
def Tree.block : Tree → Block
  | .dtag number children => .dtag number.val [] (Tree.blocks children)
  | .blob payload => .blob payload.bytes
  | .udata payload => .udata payload.bytes
def Tree.blocks : List Tree → List Block
  | [] => []
  | tree :: others => tree.block :: Tree.blocks others
end

theorem Tree.block_plain (tree : Tree) : tree.block.isBaseAttr = false := by
  cases tree <;> rfl

theorem Tree.blocks_plain (trees : List Tree) : ∀ block ∈ (Tree.blocks trees).head?, block.isBaseAttr = false := by
  cases trees with
  | nil => simp [Tree.blocks]
  | cons tree others => simp [Tree.blocks,tree.block_plain]

theorem head_append {bytes : Blob} (others : Blob) (starts : ∃ byte rest, bytes = byte :: rest ∧ byte ≠ 0) :
    (bytes ++ others).head? ≠ some 0 := by
  obtain ⟨byte,rest,rfl,nonzero⟩ := starts
  exact fun zero => nonzero (Option.some.inj zero)

theorem Tree.serialize_first (tree : Tree) : tree.serialize.head? ≠ some 0 := by
  cases tree with
  | dtag number children => exact head_append _ (header_first _ .dtag)
  | blob payload => exact head_append _ (header_first _ .blob)
  | udata payload => exact head_append _ (header_first _ .udata)

mutual
theorem Tree.encodes : ∀ tree : Tree, Encodes tree.block tree.serialize
  | .dtag number children =>
    .dtag (header_encodes number.isLt .dtag) (by simpa using Tree.encodesAll children) (by simp)
      (Tree.blocks_plain children)
  | .blob payload => .blob (header_encodes payload.short .blob)
  | .udata payload => .udata (header_encodes payload.short .udata)
theorem Tree.encodesAll : ∀ trees : List Tree, EncodesMany (Tree.blocks trees) (Tree.serializeAll trees)
  | [] => .nil
  | tree :: others => .cons tree.encodes tree.serialize_first (Tree.encodesAll others)
end

theorem tree_roundtrip (std : Standard) (tree : Tree) (tail : Blob) :
    parse std (tree.serialize ++ tail) = .ok (tree.block,.cursor tree.serialize.reverse tail) ∧
    (∀ val tt, (appendBlockHeader val (TokenType.code tt)).head? ≠ some (UInt8.ofNat ndnClose)) ∧
    (∀ val tt, Ndnb.appendBlockHeader val tt = appendBlockHeader val tt.code) := by
  refine ⟨parse_complete std tree.encodes tail,?_,fun _ _ => rfl⟩
  intro val tt
  have starts := head_append [] (header_first val tt)
  rwa [List.append_nil] at starts

end NdnCxx.Wire
