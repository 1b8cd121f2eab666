import NdnCxx.Wire.Grammar

namespace NdnCxx.Wire

-- Everything a parse of the bytes left can come to. Only the last case returns a
-- block the input does not hold.
def BlockOutcome (past rest : Blob) (result : Except Exception (Block × InputIterator)) : Prop :=
  result = .error .ndnbDecodingException ∨
  (∃ block bytes tail, rest = bytes ++ tail ∧ Encodes block bytes ∧
    result = .ok (block,.cursor (bytes.reverse ++ past) tail)) ∨
  (∃ block s, Short block rest ∧ s.isEnd = true ∧ result = .ok (block,s))

def NestedOutcome (past rest : Blob) (result : Except Exception (List Block × InputIterator)) : Prop :=
  result = .error .ndnbDecodingException ∨
  (∃ blocks bytes tail, rest = bytes ++ 0 :: tail ∧ EncodesMany blocks bytes ∧
    result = .ok (blocks,.cursor (bytes.reverse ++ past) (0 :: tail))) ∨
  (∃ blocks s, s.isEnd = true ∧ result = .ok (blocks,s))

def AttrsOutcome (past rest : Blob) (result : Except Exception ((List Block × List Block) × InputIterator)) : Prop :=
  result = .error .ndnbDecodingException ∨
  (∃ attrs first bytes tail, rest = bytes ++ tail ∧ EncodesMany (attrs ++ first) bytes ∧
    (∀ block ∈ attrs, block.isBaseAttr = true) ∧
    ((first = [] ∧ ∃ after, tail = 0 :: after) ∨ ∃ block, first = [block] ∧ block.isBaseAttr = false) ∧
    result = .ok ((attrs,first),.cursor (bytes.reverse ++ past) tail)) ∨
  (∃ body s, s.isEnd = true ∧ result = .ok (body,s))

def BodyOutcome (past rest : Blob) (result : Except Exception ((List Block × List Block) × InputIterator)) : Prop :=
  result = .error .ndnbDecodingException ∨
  ∃ attrs nested bytes tail, rest = bytes ++ 0 :: tail ∧ EncodesMany (attrs ++ nested) bytes ∧
    (∀ block ∈ attrs, block.isBaseAttr = true) ∧ (∀ block ∈ nested.head?, block.isBaseAttr = false) ∧
    result = .ok ((attrs,nested),.cursor (0 :: (bytes.reverse ++ past)) tail)

theorem many_append {left right : List Block} {front back : Blob} (first : EncodesMany left front)
    (second : EncodesMany right back) : EncodesMany (left ++ right) (front ++ back) := by
  induction left generalizing front with
  | nil =>
    cases first
    exact second
  | cons block left ih =>
    cases first with
    | @cons _ bytes _ rest head nonzero others =>
      rw [List.append_assoc]
      exact .cons head nonzero (ih others)

-- A failed stream reads nothing more: with `eofbit` the header is taken for an
-- empty EXT, without it the fabricated byte is no token.
theorem parse_failed (std : Standard) (fuel : Nat) {s : InputIterator} (failed : s.failbit = true) :
    parseBlock std (fuel+1) s = if s.isEnd then .ok (.ext 0,s) else .error .ndnbDecodingException := by
  obtain ⟨past,rest,eofbit,failbit⟩ := s
  cases failed
  cases eofbit with
  | false =>
    have loop : headerLoop (rest.length+2) 0 0 ⟨past,rest,false,true⟩ = some (0,0xFF,⟨past,rest,false,true⟩) := by
      rw [loop_step _ _ rfl (by decide)]
      exact loop_stop _ _ (show ¬(0xFF : UInt8) < 128 by decide)
    rw [parseBlock,readHeader,loop]
    rfl
  | true => rfl

theorem nested_ended (std : Standard) (fuel : Nat) {s : InputIterator} (ends : s.isEnd = true) :
    parseNested std (fuel+1) s = .ok ([],s) := by
  simp [parseNested,ends]

theorem attrs_ended (std : Standard) (fuel : Nat) {s : InputIterator} (ends : s.isEnd = true) :
    parseAttrs std (fuel+1) s = .ok (([],[]),s) := by
  simp [parseAttrs,ends]

theorem body_ended (std : Standard) (fuel : Nat) {s : InputIterator} (ends : s.isEnd = true) :
    tagBody (parseAttrs std (fuel+1) s) (parseNested std (fuel+1)) = .error .ndnbDecodingException := by
  rw [tagBody,attrs_ended std fuel ends]
  simp [bind,Except.bind,nested_ended std fuel ends,ends,throw,throwThe,MonadExceptOf.throw]

theorem nested_closer (std : Standard) (fuel : Nat) (past tail : Blob) :
    parseNested std (fuel+1) (.cursor past (0 :: tail)) = .ok ([],.cursor past (0 :: tail)) := by
  simp [parseNested,ndnClose]

theorem head_nonzero {byte : UInt8} {rest bytes tail : Blob} (split : byte :: rest = bytes ++ tail)
    (nonempty : 0 < bytes.length) (nonzero : byte ≠ 0) : bytes.head? ≠ some 0 := by
  cases bytes with
  | nil => simp at nonempty
  | cons front bytes =>
    rw [List.cons_append] at split
    rw [← (List.cons.inj split).1]
    exact fun zero => nonzero (Option.some.inj zero)

def BlockOutcomes (std : Standard) (size : Nat) : Prop :=
  ∀ rest : Blob, rest.length < size → ∀ fuel past, 2 * rest.length + 1 ≤ fuel →
    BlockOutcome past rest (parseBlock std fuel (.cursor past rest))

section Loops
variable {std : Standard} {size : Nat} (single : BlockOutcomes std size)
include single

-- What can come of the call for the next element, where no closer is next.
theorem head_outcome {byte : UInt8} {rest : Blob} (fits : (byte :: rest).length < size) (nonzero : byte ≠ 0)
    (past : Blob) {fuel : Nat} (enough : 2 * (byte :: rest).length + 1 ≤ fuel) :
    parseBlock std fuel (.cursor past (byte :: rest)) = .error .ndnbDecodingException ∨
    (∃ block bytes tail, byte :: rest = bytes ++ tail ∧ tail.length ≤ rest.length ∧ Encodes block bytes ∧
      bytes.head? ≠ some 0 ∧
      parseBlock std fuel (.cursor past (byte :: rest)) = .ok (block,.cursor (bytes.reverse ++ past) tail)) ∨
    ∃ block s, s.isEnd = true ∧ parseBlock std fuel (.cursor past (byte :: rest)) = .ok (block,s) := by
  rcases single (byte :: rest) fits fuel past enough with
    thrown | ⟨block,bytes,tail,split,encodes,parsed⟩ | ⟨block,s,_,ends,parsed⟩
  · exact .inl thrown
  · have nonempty := encodes.nonempty
    have lengths := congrArg List.length split
    rw [List.length_append,List.length_cons] at lengths
    exact .inr (.inl ⟨block,bytes,tail,split,by omega,encodes,head_nonzero split nonempty nonzero,parsed⟩)
  · exact .inr (.inr ⟨block,s,ends,parsed⟩)

theorem nested_outcome (fuel : Nat) (rest : Blob) (fits : rest.length < size) (past : Blob)
    (enough : 2 * rest.length + 2 ≤ fuel) : NestedOutcome past rest (parseNested std fuel (.cursor past rest)) := by
  induction fuel generalizing rest past with
  | zero => omega
  | succ fuel ih =>
    obtain ⟨less,rfl⟩ : ∃ less, fuel = less + 1 := ⟨fuel - 1,by omega⟩
    cases rest with
    | nil =>
      have noCloser : ¬(0xFF : UInt8) = UInt8.ofNat ndnClose := by decide
      rw [parseNested,InputIterator.cursor_isEnd,if_neg (by decide),InputIterator.peekU8_nil]
      simp only [noCloser,if_false]
      rw [parse_failed std less rfl]
      cases std with
      | cxx98 =>
        right; right
        exact ⟨[.ext 0],_,rfl,rfl⟩
      | cxx11 => exact .inl rfl
    | cons byte rest =>
      by_cases closer : byte = 0
      · subst closer
        exact .inr (.inl ⟨[],[],rest,rfl,.nil,nested_closer std (less+1) past rest⟩)
      · have noCloser : ¬byte = UInt8.ofNat ndnClose := closer
        rw [parseNested,InputIterator.cursor_isEnd,if_neg (by decide),InputIterator.peekU8_cons]
        simp only [noCloser,if_false]
        rcases head_outcome single fits closer past (Nat.le_of_succ_le_succ enough) with
          thrown | ⟨block,bytes,tail,split,shorter,encodes,first,parsed⟩ | ⟨block,s,ends,parsed⟩
        · exact .inl (by rw [thrown]; rfl)
        · simp only [List.length_cons] at fits enough
          simp only [parsed,bind,Except.bind]
          rw [split]
          rcases ih tail (by omega) (bytes.reverse ++ past) (by omega) with
            thrown | ⟨blocks,more,after,again,others,following⟩ | ⟨blocks,s,ends,following⟩
          · exact .inl (by rw [thrown])
          · refine .inr (.inl ⟨block :: blocks,bytes ++ more,after,by simp [again],.cons encodes first others,?_⟩)
            rw [following]
            simp [pure,Except.pure]
          · exact .inr (.inr ⟨block :: blocks,s,ends,by rw [following]; rfl⟩)
        · simp only [parsed,bind,Except.bind,nested_ended std less ends]
          exact .inr (.inr ⟨[block],s,ends,rfl⟩)

theorem attrs_outcome (fuel : Nat) (rest : Blob) (fits : rest.length < size) (past : Blob)
    (enough : 2 * rest.length + 2 ≤ fuel) : AttrsOutcome past rest (parseAttrs std fuel (.cursor past rest)) := by
  induction fuel generalizing rest past with
  | zero => omega
  | succ fuel ih =>
    obtain ⟨less,rfl⟩ : ∃ less, fuel = less + 1 := ⟨fuel - 1,by omega⟩
    cases rest with
    | nil =>
      have noCloser : ¬(0xFF : UInt8) = UInt8.ofNat ndnClose := by decide
      rw [parseAttrs,InputIterator.cursor_isEnd,if_neg (by decide),InputIterator.peekU8_nil]
      simp only [noCloser,if_false]
      rw [parse_failed std less rfl]
      cases std with
      | cxx98 =>
        right; right
        exact ⟨([],[.ext 0]),_,rfl,rfl⟩
      | cxx11 => exact .inl rfl
    | cons byte rest =>
      by_cases closer : byte = 0
      · subst closer
        refine .inr (.inl ⟨[],[],[],0 :: rest,rfl,.nil,by simp,.inl ⟨rfl,rest,rfl⟩,?_⟩)
        simp [parseAttrs,ndnClose]
      · have noCloser : ¬byte = UInt8.ofNat ndnClose := closer
        rw [parseAttrs,InputIterator.cursor_isEnd,if_neg (by decide),InputIterator.peekU8_cons]
        simp only [noCloser,if_false]
        rcases head_outcome single fits closer past (Nat.le_of_succ_le_succ enough) with
          thrown | ⟨block,bytes,tail,split,shorter,encodes,first,parsed⟩ | ⟨block,s,ends,parsed⟩
        · exact .inl (by rw [thrown]; rfl)
        · simp only [List.length_cons] at fits enough
          simp only [parsed,bind,Except.bind]
          rw [split]
          cases isAttr : block.isBaseAttr with
          | false =>
            refine .inr (.inl ⟨[],[block],bytes,tail,rfl,?_,by simp,.inr ⟨block,rfl,isAttr⟩,rfl⟩)
            simpa using EncodesMany.cons encodes first .nil
          | true =>
            simp only [if_true]
            rcases ih tail (by omega) (bytes.reverse ++ past) (by omega) with
              thrown | ⟨attrs,found,more,after,again,others,leading,stops,following⟩ | ⟨body,s,ends,following⟩
            · exact .inl (by rw [thrown])
            · refine .inr (.inl ⟨block :: attrs,found,bytes ++ more,after,by simp [again],.cons encodes first others,
                List.forall_mem_cons.mpr ⟨isAttr,leading⟩,stops,?_⟩)
              rw [following]
              simp [pure,Except.pure]
            · exact .inr (.inr ⟨(block :: body.1,body.2),s,ends,by rw [following]; rfl⟩)
        · simp only [parsed,bind,Except.bind]
          cases block.isBaseAttr with
          | false => exact .inr (.inr ⟨([],[block]),s,ends,rfl⟩)
          | true =>
            simp only [if_true,attrs_ended std less ends]
            exact .inr (.inr ⟨([block],[]),s,ends,rfl⟩)

theorem body_outcome (fuel : Nat) (rest : Blob) (fits : rest.length < size) (past : Blob)
    (enough : 2 * rest.length + 2 ≤ fuel) :
    BodyOutcome past rest (tagBody (parseAttrs std fuel (.cursor past rest)) (parseNested std fuel)) := by
  obtain ⟨less,rfl⟩ : ∃ less, fuel = less + 1 := ⟨fuel - 1,by omega⟩
  rcases attrs_outcome single (less+1) rest fits past enough with
    thrown | ⟨attrs,first,bytes,tail,rfl,encodes,leading,stops,parsed⟩ | ⟨body,s,ends,parsed⟩
  · exact .inl (by rw [thrown]; rfl)
  · simp only [List.length_append] at fits enough
    rcases stops with ⟨rfl,after,rfl⟩ | ⟨block,rfl,plain⟩
    · refine .inr ⟨attrs,[],bytes,after,rfl,encodes,leading,by simp,?_⟩
      rw [tagBody,parsed]
      simp [bind,Except.bind,pure,Except.pure,nested_closer]
    · rcases nested_outcome single (less+1) tail (by omega) (bytes.reverse ++ past) (by omega) with
        thrown | ⟨blocks,more,after,rfl,others,following⟩ | ⟨blocks,s,ends,following⟩
      · exact .inl (by rw [tagBody,parsed]; simp only [bind,Except.bind,thrown])
      · refine .inr ⟨attrs,block :: blocks,bytes ++ more,after,by simp,?_,leading,by simpa using plain,?_⟩
        · simpa using many_append encodes others
        · rw [tagBody,parsed]
          simp [bind,Except.bind,pure,Except.pure,following]
      · refine .inl ?_
        rw [tagBody,parsed]
        simp [bind,Except.bind,following,ends,throw,throwThe,MonadExceptOf.throw]
  · refine .inl ?_
    rw [tagBody,parsed]
    simp [bind,Except.bind,nested_ended std less ends,ends,throw,throwThe,MonadExceptOf.throw]

end Loops

theorem value_outcome {past rest : Blob} {result : Except Exception (Block × InputIterator)}
    (outcome : BlockOutcome past rest result) :
    attrValue result = .error .ndnbDecodingException ∨
    (∃ header bytes tail, rest = header ++ (bytes ++ tail) ∧ Header bytes.length .udata header ∧
      attrValue result = .ok (bytes,.cursor (bytes.reverse ++ (header.reverse ++ past)) tail)) ∨
    (∃ header bytes s, rest = header ++ bytes ∧ Header (bytes.length+1) .udata header ∧ s.isEnd = true ∧
      attrValue result = .ok (bytes ++ [0xFF],s)) := by
  rcases outcome with rfl | ⟨block,front,tail,rfl,encodes,rfl⟩ | ⟨block,s,short,ends,rfl⟩
  · exact .inl rfl
  · cases encodes with
    | @udata header bytes declared =>
      exact .inr (.inl ⟨header,bytes,tail,by simp,declared,by simp [attrValue]⟩)
    | _ => exact .inl rfl
  · cases short with
    | @udata header bytes declared => exact .inr (.inr ⟨header,bytes,s,rfl,declared,ends,rfl⟩)
    | _ => exact .inl rfl

theorem value_ended (std : Standard) (fuel : Nat) (past : Blob) :
    attrValue (parseBlock std (fuel+1) (ended past)) = .error .ndnbDecodingException := by
  rw [parse_failed std fuel rfl]
  rfl

-- The last part of each kind of block, after the bytes `front` that are its own: a
-- payload, an attribute value, a body.
theorem leaf_outcome {leaf : Blob → Block} {value : Nat} {header : Blob} (past tail : Blob)
    (encodes : ∀ bytes, bytes.length = value → Encodes (leaf bytes) (header ++ bytes))
    (short : ∀ bytes, bytes.length + 1 = value → Short (leaf (bytes ++ [0xFF])) (header ++ bytes)) :
    BlockOutcome past (header ++ tail) (do
      let (bytes,s) ← readLength value (.cursor (header.reverse ++ past) tail)
      return (leaf bytes,s)) := by
  rcases readLength_cases value (header.reverse ++ past) tail with
    ⟨bytes,others,rfl,length,stored⟩ | ⟨length,stored⟩ | ⟨_,stored⟩
  · refine .inr (.inl ⟨leaf bytes,header ++ bytes,others,by simp,encodes bytes length,?_⟩)
    simp [stored,bind,Except.bind,pure,Except.pure]
  · refine .inr (.inr ⟨leaf (tail ++ [0xFF]),ended (tail.reverse ++ (header.reverse ++ past)),
      short tail length.symm,rfl,?_⟩)
    simp only [stored,bind,Except.bind]
    rfl
  · exact .inl (by simp only [stored,bind,Except.bind])

theorem valued_outcome {make : Blob → Block} {front past rest : Blob} {result : Except Exception (Block × InputIterator)}
    (outcome : BlockOutcome (front.reverse ++ past) rest result)
    (encodes : ∀ inner bytes, Header bytes.length .udata inner → Encodes (make bytes) (front ++ (inner ++ bytes)))
    (short : ∀ inner bytes, Header (bytes.length+1) .udata inner →
      Short (make (bytes ++ [0xFF])) (front ++ (inner ++ bytes))) :
    BlockOutcome past (front ++ rest) (do
      let (bytes,s) ← attrValue result
      return (make bytes,s)) := by
  rcases value_outcome outcome with
    thrown | ⟨inner,bytes,after,rfl,length,parsed⟩ | ⟨inner,bytes,s,rfl,length,ends,parsed⟩
  · exact .inl (by simp only [bind,Except.bind,thrown])
  · refine .inr (.inl ⟨make bytes,front ++ (inner ++ bytes),after,by simp,encodes inner bytes length,?_⟩)
    simp only [bind,Except.bind,parsed,pure,Except.pure]
    simp
  · refine .inr (.inr ⟨make (bytes ++ [0xFF]),s,short inner bytes length,ends,?_⟩)
    simp only [bind,Except.bind,parsed,pure,Except.pure]

theorem bodied_outcome {make : List Block → List Block → Block} {front past rest : Blob}
    {result : Except Exception ((List Block × List Block) × InputIterator)}
    (outcome : BodyOutcome (front.reverse ++ past) rest result)
    (encodes : ∀ attrs nested bytes, EncodesMany (attrs ++ nested) bytes → (∀ block ∈ attrs, block.isBaseAttr = true) →
      (∀ block ∈ nested.head?, block.isBaseAttr = false) → Encodes (make attrs nested) (front ++ (bytes ++ [0]))) :
    BlockOutcome past (front ++ rest) (do
      let (body,s) ← result
      return (make body.1 body.2,s)) := by
  rcases outcome with thrown | ⟨attrs,nested,bytes,after,rfl,many,leading,stops,parsed⟩
  · exact .inl (by simp only [bind,Except.bind,thrown])
  · refine .inr (.inl ⟨make attrs nested,front ++ (bytes ++ [0]),after,by simp,encodes attrs nested bytes many leading
      stops,?_⟩)
    simp only [bind,Except.bind,parsed,pure,Except.pure]
    simp

theorem block_outcome (std : Standard) (size : Nat) : BlockOutcomes std size := by
  induction size with
  | zero => exact fun _ impossible => absurd impossible (Nat.not_lt_zero _)
  | succ size ih =>
    intro rest fits fuel past enough
    obtain ⟨fuel,rfl⟩ : ∃ less, fuel = less + 1 := ⟨fuel - 1,by omega⟩
    rcases readHeader_cases past rest with ⟨header,tail,value,tt,rfl,declared,read⟩ | ⟨value,after,_,read⟩
    · have nonempty := declared.nonempty
      simp only [List.length_append] at fits enough
      obtain ⟨less,rfl⟩ : ∃ less, fuel = less + 1 := ⟨fuel - 1,by omega⟩
      rw [parseBlock,read]
      cases tt with
      | blob =>
        exact leaf_outcome past tail (fun bytes length => .blob (length ▸ declared))
          (fun bytes length => .blob (length ▸ declared))
      | udata =>
        exact leaf_outcome past tail (fun bytes length => .udata (length ▸ declared))
          (fun bytes length => .udata (length ▸ declared))
      | tag =>
        rcases readLength_cases ((value+1) % 2^32) (header.reverse ++ past) tail with
          ⟨name,others,rfl,named,stored⟩ | ⟨_,stored⟩ | ⟨_,stored⟩
        · simp only [List.length_append] at fits enough
          have body := body_outcome ih (less+1) others (by omega) ((header ++ name).reverse ++ past) (by omega)
          rw [← List.append_assoc]
          simp only [stored,bind,Except.bind]
          rw [← List.append_assoc,← List.reverse_append]
          refine bodied_outcome body ?_
          intro attrs nested bytes many leading stops
          rw [List.append_assoc]
          exact .tag declared named many leading stops
        · exact .inl (by simp only [stored,bind,Except.bind,body_ended std less (show (ended _).isEnd = true from rfl)])
        · exact .inl (by simp only [stored,bind,Except.bind])
      | attr =>
        rcases readLength_cases ((value+1) % 2^32) (header.reverse ++ past) tail with
          ⟨name,others,rfl,named,stored⟩ | ⟨_,stored⟩ | ⟨_,stored⟩
        · simp only [List.length_append] at fits enough
          have inside := ih others (by omega) (less+1) ((header ++ name).reverse ++ past) (by omega)
          rw [← List.append_assoc]
          simp only [stored,bind,Except.bind]
          rw [← List.append_assoc,← List.reverse_append]
          refine valued_outcome inside ?_ ?_
          · intro inner bytes length
            rw [List.append_assoc]
            exact .attr declared named length
          · intro inner bytes length
            rw [List.append_assoc]
            exact .attr declared named length
        · exact .inl (by simp only [stored,bind,Except.bind,value_ended std less])
        · exact .inl (by simp only [stored,bind,Except.bind])
      | dtag =>
        exact bodied_outcome (body_outcome ih (less+1) tail (by omega) (header.reverse ++ past) (by omega))
          (fun attrs nested bytes many leading stops => .dtag declared many leading stops)
      | dattr =>
        exact valued_outcome (ih tail (by omega) (less+1) (header.reverse ++ past) (by omega))
          (fun inner bytes length => .dattr declared length) (fun inner bytes length => .dattr declared length)
      | ext => exact .inr (.inl ⟨_,header,tail,rfl,.ext declared,rfl⟩)
      | noToken => exact .inl rfl
    · exact .inl (by rw [parseBlock,read]; rfl)

theorem fuel_outcome (std : Standard) (bytes : Blob) {fuel : Nat} (enough : 2 * bytes.length + 1 ≤ fuel) :
    BlockOutcome [] bytes (parseBlock std fuel (.openOn bytes)) :=
  block_outcome std (bytes.length+1) bytes (Nat.lt_succ_self _) fuel [] enough

theorem parse_outcome (std : Standard) (bytes : Blob) : BlockOutcome [] bytes (parse std bytes) :=
  fuel_outcome std bytes (by omega)

theorem readLength_short {length : Nat} {rest : Blob} (short : length = rest.length + 1) (past : Blob) :
    readLength length (.cursor past rest) = .ok (rest ++ [0xFF],ended (rest.reverse ++ past)) := by
  subst short
  simp [readLength,readBytes_short (Nat.lt_succ_self _)]

theorem leaf_short (std : Standard) (fuel : Nat) {header bytes : Blob} (declared : Header (bytes.length+1) .udata header)
    (past : Blob) :
    parseBlock std (fuel+1) (.cursor past (header ++ bytes)) =
      .ok (.udata (bytes ++ [0xFF]),ended (bytes.reverse ++ (header.reverse ++ past))) := by
  rw [parseBlock,readHeader_complete declared]
  simp [readLength_short,bind,Except.bind,pure,Except.pure]

theorem short_accepted (std : Standard) {block : Block} {bytes : Blob} (short : Short block bytes) :
    parse std bytes = .ok (block,ended bytes.reverse) := by
  rw [parse,InputIterator.openOn]
  cases short with
  | blob declared =>
    rw [parseBlock,readHeader_complete declared]
    simp only [readLength_short,bind,Except.bind,pure,Except.pure]
    simp
  | udata declared => simpa using leaf_short std _ declared []
  | attr declared named length =>
    rw [parseBlock,readHeader_complete declared]
    simp only [bind,Except.bind,readLength_fits named,leaf_short std _ length,attrValue,pure,Except.pure]
    simp
  | dattr declared length =>
    rw [parseBlock,readHeader_complete declared]
    simp only [bind,Except.bind,leaf_short std _ length,attrValue,pure,Except.pure]
    simp

def ReadFromInput (std : Standard) (bytes : Blob) : Prop :=
  parse std bytes = .error .ndnbDecodingException ∨
    ∃ block front tail, bytes = front ++ tail ∧ Encodes block front ∧
      parse std bytes = .ok (block,.cursor front.reverse tail)

theorem reads_exact (std : Standard) (bytes : Blob) : ReadFromInput std bytes ↔ ¬OneByteShort bytes := by
  constructor
  · intro reads given
    obtain ⟨block,short⟩ := given
    have parsed := short_accepted std short
    rcases reads with thrown | ⟨other,front,tail,_,_,result⟩
    · rw [parsed] at thrown
      cases thrown
    · rw [parsed] at result
      simp [ended,InputIterator.cursor] at result
  · intro long
    rcases parse_outcome std bytes with thrown | ⟨block,front,tail,split,encodes,parsed⟩ | ⟨block,s,short,_,_⟩
    · exact .inl thrown
    · exact .inr ⟨block,front,tail,split,encodes,by simpa using parsed⟩
    · exact absurd ⟨block,short⟩ long

-- Two encodings that agree on a common front are the same one.
theorem encodes_truncated {left right : Block} {front whole : Blob} (first : Encodes left front)
    (second : Encodes right whole) (within : front <+: whole) : left = right ∧ front = whole := by
  obtain ⟨tail,rfl⟩ := within
  have short := parse_complete .cxx11 first tail
  have long := parse_complete .cxx11 second []
  rw [List.append_nil,short] at long
  simp only [Except.ok.injEq,Prod.mk.injEq] at long
  refine ⟨long.1,?_⟩
  have rests : tail = [] := congrArg InputIterator.rest long.2
  rw [rests,List.append_nil]

theorem truncated_exact (std : Standard) {block : Block} {whole bytes : Blob} (encodes : Encodes block whole)
    (within : bytes <+: whole) (cut : bytes ≠ whole) :
    parse std bytes = .error .ndnbDecodingException ↔ ¬OneByteShort bytes := by
  refine ⟨fun thrown => (reads_exact std bytes).mp (.inl thrown),fun long => ?_⟩
  rcases (reads_exact std bytes).mpr long with thrown | ⟨other,front,tail,rfl,read,_⟩
  · exact thrown
  · have same := (encodes_truncated read encodes ((List.prefix_append front tail).trans within)).2
    subst same
    exact absurd (List.IsPrefix.eq_of_length_le within (by simp)) cut

theorem parse_exact (std : Standard) (bytes : Blob) :
    (∀ fuel, 2 * bytes.length + 1 ≤ fuel → parseBlock std fuel (.openOn bytes) ≠ .error .outOfFuel) ∧
    (ReadFromInput std bytes ↔ ¬OneByteShort bytes) ∧
    (∀ block whole, Encodes block whole → bytes <+: whole → bytes ≠ whole →
      (parse std bytes = .error .ndnbDecodingException ↔ ¬OneByteShort bytes)) := by
  refine ⟨?_,reads_exact std bytes,fun block whole encodes within cut => truncated_exact std encodes within cut⟩
  intro fuel enough exhausted
  rcases fuel_outcome std bytes enough with thrown | ⟨_,_,_,_,_,parsed⟩ | ⟨_,_,_,_,parsed⟩
  all_goals simp_all

theorem parse_fabricates :
    Encodes (.blob [5]) [0x8D,5] ∧
    parse .cxx98 [0x8D] = .ok (.blob [0xFF],ended [0x8D]) ∧ ¬ReadFromInput .cxx98 [0x8D] ∧
    parse .cxx11 [0x8D] = .ok (.blob [0xFF],ended [0x8D]) ∧ ¬ReadFromInput .cxx11 [0x8D] := by
  have header : Header 1 .blob [0x8D] := ⟨[],0x8D,rfl,by simp,by decide,rfl,rfl⟩
  have short : OneByteShort [0x8D] := ⟨_,@Short.blob [0x8D] [] header⟩
  refine ⟨@Encodes.blob [0x8D] [5] header,rfl,?_,rfl,?_⟩
  · exact fun reads => (reads_exact _ _).mp reads short
  · exact fun reads => (reads_exact _ _).mp reads short

end NdnCxx.Wire
