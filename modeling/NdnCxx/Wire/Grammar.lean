import NdnCxx.Wire.Block

namespace NdnCxx.Wire

-- The byte strings the parser has to take for a block, stated without the stream.
-- A nested block never starts with the closer byte, and its tag stores as
-- attributes exactly the leading blocks that are attributes.
mutual
inductive Encodes : Block → Blob → Prop where
  | blob {header bytes} : Header bytes.length .blob header → Encodes (.blob bytes) (header ++ bytes)
  | udata {header bytes} : Header bytes.length .udata header → Encodes (.udata bytes) (header ++ bytes)
  | tag {value header name attrs nested body} : Header value .tag header → name.length = (value+1) % 2^32 →
      EncodesMany (attrs ++ nested) body → (∀ block ∈ attrs, block.isBaseAttr = true) →
      (∀ block ∈ nested.head?, block.isBaseAttr = false) →
      Encodes (.tag name attrs nested) (header ++ (name ++ (body ++ [0])))
  | attr {value header name valueHeader bytes} : Header value .attr header → name.length = (value+1) % 2^32 →
      Header bytes.length .udata valueHeader → Encodes (.attr name bytes) (header ++ (name ++ (valueHeader ++ bytes)))
  | dtag {value header attrs nested body} : Header value .dtag header →
      EncodesMany (attrs ++ nested) body → (∀ block ∈ attrs, block.isBaseAttr = true) →
      (∀ block ∈ nested.head?, block.isBaseAttr = false) →
      Encodes (.dtag value attrs nested) (header ++ (body ++ [0]))
  | dattr {value header valueHeader bytes} : Header value .dattr header →
      Header bytes.length .udata valueHeader → Encodes (.dattr value bytes) (header ++ (valueHeader ++ bytes))
  | ext {value header} : Header value .ext header → Encodes (.ext value) header

inductive EncodesMany : List Block → Blob → Prop where
  | nil : EncodesMany [] []
  | cons {block bytes blocks rest} : Encodes block bytes → bytes.head? ≠ some 0 → EncodesMany blocks rest →
      EncodesMany (block :: blocks) (bytes ++ rest)
end

-- The inputs whose last read fabricates a byte that nothing checks afterwards: a
-- BLOB or UDATA that declares one byte more than there is, alone or as the value
-- of an attribute, with the block that is returned for it.
inductive Short : Block → Blob → Prop where
  | blob {header bytes} : Header (bytes.length+1) .blob header → Short (.blob (bytes ++ [0xFF])) (header ++ bytes)
  | udata {header bytes} : Header (bytes.length+1) .udata header → Short (.udata (bytes ++ [0xFF])) (header ++ bytes)
  | attr {value header name valueHeader bytes} : Header value .attr header → name.length = (value+1) % 2^32 →
      Header (bytes.length+1) .udata valueHeader →
      Short (.attr name (bytes ++ [0xFF])) (header ++ (name ++ (valueHeader ++ bytes)))
  | dattr {value header valueHeader bytes} : Header value .dattr header →
      Header (bytes.length+1) .udata valueHeader →
      Short (.dattr value (bytes ++ [0xFF])) (header ++ (valueHeader ++ bytes))

def OneByteShort (bytes : Blob) : Prop := ∃ block, Short block bytes

def ended (past : Blob) : InputIterator := ⟨past,[],true,true⟩

theorem readBytes_fits (bytes past tail : Blob) :
    readBytes bytes.length (.cursor past (bytes ++ tail)) = (bytes,.cursor (bytes.reverse ++ past) tail) := by
  induction bytes generalizing past with
  | nil => rfl
  | cons byte bytes ih => simp [readBytes,ih]

theorem readBytes_ended (length : Nat) {s : InputIterator} (ends : s.isEnd = true) : readBytes length s = ([],s) := by
  cases length with
  | zero => rfl
  | succ length => simp [readBytes,ends]

theorem readBytes_short {length : Nat} {rest : Blob} (short : rest.length < length) (past : Blob) :
    readBytes length (.cursor past rest) = (rest ++ [0xFF],ended (rest.reverse ++ past)) := by
  induction rest generalizing length past with
  | nil =>
    obtain ⟨length,rfl⟩ := Nat.exists_eq_add_of_lt short
    have stops := readBytes_ended length (show (ended past).isEnd = true from rfl)
    simp only [List.length_nil,Nat.zero_add,readBytes,InputIterator.cursor_isEnd,InputIterator.readU8_nil]
    simpa [ended,Prod.ext_iff] using stops
  | cons byte rest ih =>
    obtain ⟨length,rfl⟩ : ∃ less, length = less + 1 := ⟨length - 1,by simp at short; omega⟩
    simp [readBytes,ih (Nat.lt_of_succ_lt_succ short)]

theorem readLength_fits {length : Nat} {bytes : Blob} (same : bytes.length = length) (past tail : Blob) :
    readLength length (.cursor past (bytes ++ tail)) = .ok (bytes,.cursor (bytes.reverse ++ past) tail) := by
  subst same
  simp [readLength,readBytes_fits]

theorem readLength_cases (length : Nat) (past rest : Blob) :
    (∃ bytes tail, rest = bytes ++ tail ∧ bytes.length = length ∧
      readLength length (.cursor past rest) = .ok (bytes,.cursor (bytes.reverse ++ past) tail)) ∨
    (length = rest.length + 1 ∧
      readLength length (.cursor past rest) = .ok (rest ++ [0xFF],ended (rest.reverse ++ past))) ∨
    (rest.length + 1 < length ∧ readLength length (.cursor past rest) = .error .ndnbDecodingException) := by
  rcases Nat.lt_or_ge rest.length length with short | fits
  · right
    simp only [readLength,readBytes_short short]
    rcases Nat.lt_or_ge (rest.length + 1) length with far | near
    · exact .inr ⟨far,by simp [far,ended,InputIterator.isEnd]⟩
    · exact .inl ⟨by omega,by simp [near]⟩
  · have front : (rest.take length).length = length := by simp [fits]
    have reads := readLength_fits front past (rest.drop length)
    rw [List.take_append_drop] at reads
    exact .inl ⟨rest.take length,rest.drop length,(List.take_append_drop _ _).symm,front,reads⟩

theorem Header.nonempty {value : Nat} {tt : TokenType} {bytes : Blob} (header : Header value tt bytes) :
    0 < bytes.length := by
  obtain ⟨high,last,rfl,_⟩ := header
  simp

theorem Encodes.nonempty {block : Block} {bytes : Blob} (encodes : Encodes block bytes) : 0 < bytes.length := by
  cases encodes with
  | blob header => have := header.nonempty; simp; omega
  | udata header => have := header.nonempty; simp; omega
  | tag header => have := header.nonempty; simp
  | attr header => have := header.nonempty; simp; omega
  | dtag header => have := header.nonempty; simp
  | dattr header => have := header.nonempty; simp; omega
  | ext header => exact header.nonempty

theorem peek_block (std : Standard) {bytes : Blob} (nonempty : 0 < bytes.length) (first : bytes.head? ≠ some 0)
    (past tail : Blob) :
    ((InputIterator.cursor past (bytes ++ tail)).peekU8 std).2 = .cursor past (bytes ++ tail) ∧
      ((InputIterator.cursor past (bytes ++ tail)).peekU8 std).1 ≠ UInt8.ofNat ndnClose := by
  cases bytes with
  | nil => simp at nonempty
  | cons byte bytes =>
    rw [List.cons_append,InputIterator.peekU8_cons]
    exact ⟨rfl,fun zero => first (congrArg some zero)⟩

-- Fuel for the blocks written in fewer than `size` bytes; the two loops below need
-- no more than this of the calls they make.
def ReadsBlocks (std : Standard) (size : Nat) : Prop :=
  ∀ block bytes, bytes.length < size → Encodes block bytes → ∀ fuel past tail, 2 * bytes.length ≤ fuel →
    parseBlock std fuel (.cursor past (bytes ++ tail)) = .ok (block,.cursor (bytes.reverse ++ past) tail)

section Loops
variable {std : Standard} {size : Nat} (single : ReadsBlocks std size)
include single

-- In front of the closer stands a block: it is seen, read, and leaves fuel for the rest.
theorem head_complete {block : Block} {blocks : List Block} {bytes : Blob} (fits : bytes.length < size)
    (encodes : EncodesMany (block :: blocks) bytes) {fuel : Nat} (past tail : Blob)
    (enough : 2 * bytes.length + 1 ≤ fuel) :
    ∃ front back less, bytes = front ++ back ∧ fuel = less + 1 ∧ EncodesMany blocks back ∧ back.length < size ∧
      2 * back.length + 1 ≤ less ∧
      ((InputIterator.cursor past (front ++ (back ++ 0 :: tail))).peekU8 std).2 =
        .cursor past (front ++ (back ++ 0 :: tail)) ∧
      ((InputIterator.cursor past (front ++ (back ++ 0 :: tail))).peekU8 std).1 ≠ UInt8.ofNat ndnClose ∧
      parseBlock std less (.cursor past (front ++ (back ++ 0 :: tail))) =
        .ok (block,.cursor (front.reverse ++ past) (back ++ 0 :: tail)) := by
  cases encodes with
  | @cons _ front _ back head first others =>
    have nonempty := head.nonempty
    simp only [List.length_append] at fits enough
    obtain ⟨less,rfl⟩ : ∃ less, fuel = less + 1 := ⟨fuel - 1,by omega⟩
    obtain ⟨same,notCloser⟩ := peek_block std nonempty first past (back ++ 0 :: tail)
    have parsed := single block front (by omega) head less past (back ++ 0 :: tail) (by omega)
    exact ⟨front,back,less,rfl,rfl,others,by omega,by omega,same,notCloser,parsed⟩

theorem nested_complete (blocks : List Block) (bytes : Blob) (fits : bytes.length < size)
    (encodes : EncodesMany blocks bytes) (fuel : Nat) (past tail : Blob) (enough : 2 * bytes.length + 1 ≤ fuel) :
    parseNested std fuel (.cursor past (bytes ++ 0 :: tail)) = .ok (blocks,.cursor (bytes.reverse ++ past) (0 :: tail)) := by
  induction blocks generalizing bytes fuel past with
  | nil =>
    cases encodes
    obtain ⟨fuel,rfl⟩ := Nat.exists_eq_add_of_le' enough
    simp [parseNested,ndnClose]
  | cons block blocks ih =>
    obtain ⟨front,back,less,rfl,rfl,others,smaller,left,same,notCloser,parsed⟩ :=
      head_complete single fits encodes past tail enough
    have following := ih back smaller others less (front.reverse ++ past) left
    rw [List.append_assoc,parseNested,InputIterator.cursor_isEnd,if_neg (by decide),if_neg notCloser,same,parsed]
    simp [bind,Except.bind,pure,Except.pure,following]

theorem attrs_complete (attrs nested : List Block) (bytes : Blob) (fits : bytes.length < size)
    (encodes : EncodesMany (attrs ++ nested) bytes) (leading : ∀ block ∈ attrs, block.isBaseAttr = true)
    (stops : ∀ block ∈ nested.head?, block.isBaseAttr = false) (fuel : Nat) (past tail : Blob)
    (enough : 2 * bytes.length + 1 ≤ fuel) :
    ∃ front back, bytes = front ++ back ∧ EncodesMany nested.tail back ∧
      parseAttrs std fuel (.cursor past (bytes ++ 0 :: tail)) =
        .ok ((attrs,nested.take 1),.cursor (front.reverse ++ past) (back ++ 0 :: tail)) := by
  induction attrs generalizing bytes fuel past with
  | nil =>
    cases nested with
    | nil =>
      cases encodes
      obtain ⟨fuel,rfl⟩ := Nat.exists_eq_add_of_le' enough
      exact ⟨[],[],rfl,.nil,by simp [parseAttrs,ndnClose]⟩
    | cons block nested =>
      obtain ⟨front,back,less,rfl,rfl,others,_,_,same,notCloser,parsed⟩ :=
        head_complete single fits encodes past tail enough
      have plain := stops block rfl
      refine ⟨front,back,rfl,others,?_⟩
      rw [List.append_assoc,parseAttrs,InputIterator.cursor_isEnd,if_neg (by decide),if_neg notCloser,same,parsed]
      simp [bind,Except.bind,pure,Except.pure,plain]
  | cons block attrs ih =>
    obtain ⟨front,back,less,rfl,rfl,others,smaller,left,same,notCloser,parsed⟩ :=
      head_complete single fits encodes past tail enough
    have isAttr := leading block List.mem_cons_self
    obtain ⟨middle,last,rfl,rest,following⟩ := ih back smaller others
      (fun other member => leading other (List.mem_cons_of_mem _ member)) less (front.reverse ++ past) left
    refine ⟨front ++ middle,last,by simp,rest,?_⟩
    rw [List.append_assoc,parseAttrs,InputIterator.cursor_isEnd,if_neg (by decide),if_neg notCloser,same,parsed]
    simp [bind,Except.bind,pure,Except.pure,isAttr] at following ⊢
    simp [following]

theorem body_complete {attrs nested : List Block} {bytes : Blob} (fits : bytes.length < size)
    (encodes : EncodesMany (attrs ++ nested) bytes) (leading : ∀ block ∈ attrs, block.isBaseAttr = true)
    (stops : ∀ block ∈ nested.head?, block.isBaseAttr = false) (fuel : Nat) (past tail : Blob)
    (enough : 2 * bytes.length + 1 ≤ fuel) :
    tagBody (parseAttrs std fuel (.cursor past (bytes ++ 0 :: tail))) (parseNested std fuel) =
      .ok ((attrs,nested),.cursor (0 :: (bytes.reverse ++ past)) tail) := by
  obtain ⟨front,back,rfl,others,parsed⟩ := attrs_complete single attrs nested bytes fits encodes leading stops fuel
    past tail enough
  simp only [List.length_append] at fits enough
  have following := nested_complete single nested.tail back (by omega) others fuel (front.reverse ++ past) tail (by omega)
  have whole : nested.take 1 ++ nested.tail = nested := by cases nested <;> rfl
  rw [tagBody,parsed]
  simp [bind,Except.bind,pure,Except.pure,following,whole]

end Loops

theorem block_complete (std : Standard) (size : Nat) : ReadsBlocks std size := by
  induction size with
  | zero => exact fun _ _ impossible => absurd impossible (Nat.not_lt_zero _)
  | succ size ih =>
    intro block bytes fits encodes fuel past tail enough
    have nonempty := encodes.nonempty
    obtain ⟨fuel,rfl⟩ : ∃ less, fuel = less + 1 := ⟨fuel - 1,by omega⟩
    cases encodes with
    | blob header =>
      simp only [List.append_assoc]
      rw [parseBlock,readHeader_complete header]
      simp [bind,Except.bind,pure,Except.pure,readLength_fits]
    | udata header =>
      simp only [List.append_assoc]
      rw [parseBlock,readHeader_complete header]
      simp [bind,Except.bind,pure,Except.pure,readLength_fits]
    | @tag _ _ _ _ _ body header named many leading stops =>
      have headed := header.nonempty
      simp only [List.length_append,List.length_singleton] at fits enough
      simp only [List.append_assoc,List.singleton_append]
      rw [parseBlock,readHeader_complete header]
      have closed := fun before => body_complete ih (by omega) many leading stops fuel before tail (by omega)
      simp only [bind,Except.bind,pure,Except.pure,readLength_fits named,closed]
      simp
    | attr header named inner =>
      have headed := header.nonempty
      simp only [List.length_append] at fits enough
      simp only [List.append_assoc]
      rw [parseBlock,readHeader_complete header]
      have value := fun before => ih _ _ (by simp only [List.length_append]; omega) (.udata inner) fuel before tail
        (by simp only [List.length_append]; omega)
      simp only [List.append_assoc] at value
      simp only [bind,Except.bind,pure,Except.pure,readLength_fits named,value,attrValue]
      simp
    | @dtag _ _ _ _ body header many leading stops =>
      have headed := header.nonempty
      simp only [List.length_append,List.length_singleton] at fits enough
      simp only [List.append_assoc,List.singleton_append]
      rw [parseBlock,readHeader_complete header]
      have closed := fun before => body_complete ih (by omega) many leading stops fuel before tail (by omega)
      simp [bind,Except.bind,pure,Except.pure,closed]
    | dattr header inner =>
      have headed := header.nonempty
      simp only [List.length_append] at fits enough
      simp only [List.append_assoc]
      rw [parseBlock,readHeader_complete header]
      have value := fun before => ih _ _ (by simp only [List.length_append]; omega) (.udata inner) fuel before tail
        (by simp only [List.length_append]; omega)
      simp only [List.append_assoc] at value
      simp [bind,Except.bind,pure,Except.pure,value,attrValue]
    | ext header =>
      rw [parseBlock,readHeader_complete header]
      rfl

theorem parse_complete (std : Standard) {block : Block} {bytes : Blob} (encodes : Encodes block bytes) (tail : Blob) :
    parse std (bytes ++ tail) = .ok (block,.cursor bytes.reverse tail) := by
  have complete := block_complete std (bytes.length+1) block bytes (Nat.lt_succ_self _) encodes
    (2 * (bytes ++ tail).length + 2) [] tail (by simp only [List.length_append]; omega)
  simpa [parse,InputIterator.openOn] using complete

end NdnCxx.Wire
