import NdnCxx.Lib.Throwing
import NdnCxx.Wire.Append

namespace NdnCxx.Wire
open Throwing (bind_ok)

section NoArgu
variable {α : Type} (onBlob onUdata : Blob → Except Exception α)

-- `NoArguDepthFirstVisitor` with its two leaf methods overridden. `none` is an
-- empty `boost::any`, or the 64-bit subtype of an EXT, which no caller casts to.
mutual
def noArguVisit : Block → Except Exception (Option α)
  | .blob bytes => do return some (← onBlob bytes)
  | .udata bytes => do return some (← onUdata bytes)
  | .tag _ attrs nested => do
    noArguVisitAll attrs
    noArguVisitAll nested
    return none
  | .dtag _ attrs nested => do
    noArguVisitAll attrs
    noArguVisitAll nested
    return none
  | .attr _ _ => return none
  | .dattr _ _ => return none
  | .ext _ => return none
def noArguVisitAll : List Block → Except Exception Unit
  | [] => return ()
  | block :: others => do
    let _ ← noArguVisit block
    noArguVisitAll others
end

def anyCast : Option α → Except Exception α
  | some value => .ok value
  | none => .error .badAnyCast

end NoArgu

def onlyBlock : List Block → Except Exception Block
  | [block] => .ok block
  | _ => .error .ndnbDecodingException

def rejectLeaf {α : Type} (_ : Blob) : Except Exception α := .error .ndnbDecodingException

def stringVisitor (block : Block) : Except Exception Blob := do
  anyCast (← noArguVisit .ok .ok block)

-- `int` arithmetic of the visitors, on 32 bits.
def int32 (value : Int) : Int := value.bmod (2^32)

def charBits (byte : UInt8) : BitVec 32 := byte.toBitVec.signExtend 32

-- The last byte is or-ed in as a plain `char`. The double product is exact, so the
-- conversion to an integer cuts the true quotient.
def timestampOf (blob : Blob) : Except Exception Int :=
  if blob.length < 2 then .error .ndnbDecodingException
  else
    let seconds := (blob.take (blob.length - 2)).foldl (fun seconds byte => int32 (seconds * 256 + byte.toNat)) 0
    let combo := blob.getD (blob.length - 2) 0
    let seconds := int32 (seconds * 16 + (combo >>> 4).toNat)
    let nanoseconds := BitVec.ofNat 32 ((combo &&& 0x0F).toNat <<< 8) ||| charBits (blob.getD (blob.length - 1) 0)
    let nanoseconds := (nanoseconds.toInt * 1000000).tdiv 4096
    .ok (seconds * 1000000 + nanoseconds.tdiv 1000)

def timestampVisitor (block : Block) : Except Exception Int := do
  anyCast (← noArguVisit timestampOf rejectLeaf block)

def contentTypeOf (blob : Blob) : Except Exception Nat :=
  match blob with
  | [first,second,third] =>
    .ok ((charBits first <<< 16) ||| (charBits second <<< 8) ||| charBits third).toNat
  | _ => .error .ndnbDecodingException

def contentTypeVisitor (block : Block) : Except Exception Nat := do
  anyCast (← noArguVisit contentTypeOf rejectLeaf block)

def isSpace (byte : UInt8) : Bool := byte == 0x20 || (9 ≤ byte && byte ≤ 13)

def isDigit (byte : UInt8) : Bool := 48 ≤ byte && byte ≤ 57

def digitsValue (digits : Blob) : Nat := digits.foldl (fun value digit => value * 10 + (digit.toNat - 48)) 0

-- Formatted input of an `int32_t`: leading blanks, a sign, digits; zero without
-- digits and the nearest bound out of range.
def readInt32 (text : Blob) : Int :=
  let trimmed := text.dropWhile isSpace
  let unsigned := match trimmed with
    | [] => []
    | first :: others => if first = 0x2B ∨ first = 0x2D then others else first :: others
  let magnitude : Int := digitsValue (unsigned.takeWhile isDigit)
  if trimmed.head? = some 0x2D then max (-magnitude) (-2^31) else min magnitude (2^31 - 1)

def nonNegativeIntegerOf (text : Blob) : Except Exception Nat :=
  let value := readInt32 text
  if value < 0 then .error .ndnbDecodingException else .ok value.toNat

def nonNegativeIntegerVisitor (block : Block) : Except Exception Nat := do
  anyCast (← noArguVisit rejectLeaf nonNegativeIntegerOf block)

def appendBySwap (name : Name) (component : Component) : Name :=
  if component.size ≠ 0 then name ++ [component] else name

def nameComponent (components : Name) : List Block → Except Exception Name
  | [block] => do return appendBySwap components ⟨← stringVisitor block⟩
  | _ => .error .ndnbDecodingException

mutual
def nameVisitor (components : Name) : Block → Except Exception Name
  | .tag _ attrs nested => do
    let components ← nameVisitorAll components attrs
    nameVisitorAll components nested
  | .dtag number attrs nested =>
    if NdnDtag.ofCode number = some .component then nameComponent components nested
    else do
      let components ← nameVisitorAll components attrs
      nameVisitorAll components nested
  | .blob _ => .ok components
  | .udata _ => .ok components
  | .attr _ _ => .ok components
  | .dattr _ _ => .ok components
  | .ext _ => .ok components
def nameVisitorAll (components : Name) : List Block → Except Exception Name
  | [] => .ok components
  | block :: others => do
    let components ← nameVisitor components block
    nameVisitorAll components others
end

def nameBlocks (name : Name) : List Block :=
  name.map (fun component => .dtag NdnDtag.component.code [] (blobChild component.bytes))

-- The name a reader builds: lengths are cut to 32 bits, and what is then empty is
-- not appended.
def received (name : Name) : Name :=
  (name.map (fun component => (⟨write component.bytes component.bytes.length⟩ : Component))).filter
    (fun component => decide (component.size ≠ 0))

def NonEmptyComponents (name : Name) : Prop := ∀ component ∈ name, component.bytes ≠ []

def ShortComponents (name : Name) : Prop := ∀ component ∈ name, component.bytes.length < 2^32

theorem appendBySwap_nonempty {name : Name} (component : Component) (nonempty : NonEmptyComponents name) :
    NonEmptyComponents (appendBySwap name component) := by
  unfold appendBySwap
  split
  · rename_i filled
    intro other member
    rcases List.mem_append.mp member with old | new
    · exact nonempty other old
    · rw [List.mem_singleton.mp new]
      exact fun empty => filled (by simp [Component.size,empty])
  · exact nonempty

theorem nameComponent_nonempty {components result : Name} {nested : List Block} (nonempty : NonEmptyComponents components)
    (visited : nameComponent components nested = .ok result) : NonEmptyComponents result := by
  match nested with
  | [block] =>
    obtain ⟨bytes,_,done⟩ := bind_ok visited
    cases done
    exact appendBySwap_nonempty _ nonempty
  | [] => cases visited
  | _ :: _ :: _ => cases visited

-- A property of names that appending what a Component element holds keeps is kept by
-- the whole visit.
structure NameInvariant (P : Name → Prop) (Q : Block → Prop) : Prop where
  tags : ∀ {name : Blob} {attrs nested : List Block}, Q (.tag name attrs nested) → ∀ block ∈ attrs ++ nested, Q block
  dtags : ∀ {number : Nat} {attrs nested : List Block}, Q (.dtag number attrs nested) → ∀ block ∈ attrs ++ nested, Q block
  component : ∀ {nested : List Block} {components result : Name}, (∀ block ∈ nested, Q block) → P components →
    nameComponent components nested = .ok result → P result

mutual
theorem NameInvariant.visitor {P : Name → Prop} {Q : Block → Prop} (invariant : NameInvariant P Q) : ∀ (block : Block)
    {components result : Name}, Q block → P components → nameVisitor components block = .ok result → P result
  | .blob _,_,_,_,before,visited => by cases visited; exact before
  | .udata _,_,_,_,before,visited => by cases visited; exact before
  | .attr _ _,_,_,_,before,visited => by cases visited; exact before
  | .dattr _ _,_,_,_,before,visited => by cases visited; exact before
  | .ext _,_,_,_,before,visited => by cases visited; exact before
  | .tag _ attrs nested,_,_,inside,before,visited => by
    obtain ⟨middle,first,second⟩ := bind_ok visited
    obtain ⟨outer,inner⟩ := List.forall_mem_append.mp (invariant.tags inside)
    exact invariant.visitorAll nested inner (invariant.visitorAll attrs outer before first) second
  | .dtag number attrs nested,_,_,inside,before,visited => by
    obtain ⟨outer,inner⟩ := List.forall_mem_append.mp (invariant.dtags inside)
    rw [nameVisitor] at visited
    split at visited
    · exact invariant.component inner before visited
    · obtain ⟨middle,first,second⟩ := bind_ok visited
      exact invariant.visitorAll nested inner (invariant.visitorAll attrs outer before first) second
theorem NameInvariant.visitorAll {P : Name → Prop} {Q : Block → Prop} (invariant : NameInvariant P Q) :
    ∀ (blocks : List Block) {components result : Name}, (∀ block ∈ blocks, Q block) → P components →
    nameVisitorAll components blocks = .ok result → P result
  | [],_,_,_,before,visited => by cases visited; exact before
  | block :: others,_,_,inside,before,visited => by
    obtain ⟨middle,first,second⟩ := bind_ok visited
    obtain ⟨here,later⟩ := List.forall_mem_cons.mp inside
    exact invariant.visitorAll others later (invariant.visitor block here before first) second
end

theorem nonempty_invariant : NameInvariant NonEmptyComponents (fun _ => True) where
  tags _ _ _ := trivial
  dtags _ _ _ := trivial
  component _ before visited := nameComponent_nonempty before visited

theorem component_reads (components : Name) (component : Component) :
    nameVisitor components (.dtag NdnDtag.component.code [] (blobChild component.bytes)) =
      if component.bytes = [] then .error .ndnbDecodingException
      else .ok (appendBySwap components ⟨write component.bytes component.bytes.length⟩) := by
  rw [nameVisitor,NdnDtag.ofCode_code,if_pos rfl]
  by_cases empty : component.bytes = []
  · rw [if_pos empty,blobChild,empty]
    rfl
  · rw [if_neg empty,blobChild,if_pos (List.length_pos_iff.mpr empty)]
    rfl

theorem appendBySwap_received (components : Name) (component : Component) (name : Name) :
    appendBySwap components ⟨write component.bytes component.bytes.length⟩ ++ received name =
      components ++ received (component :: name) := by
  simp only [received,List.map_cons,List.filter_cons,appendBySwap]
  split <;> rename_i kept
  · simp [kept]
  · simp [kept]

theorem name_reads (name : Name) (components : Name) (nonempty : NonEmptyComponents name) :
    nameVisitorAll components (nameBlocks name) = .ok (components ++ received name) := by
  induction name generalizing components with
  | nil => simp [nameBlocks,nameVisitorAll,received]
  | cons component name ih =>
    obtain ⟨first,others⟩ := List.forall_mem_cons.mp nonempty
    rw [nameBlocks,List.map_cons,nameVisitorAll,component_reads,if_neg first]
    exact (ih _ others).trans (congrArg Except.ok (appendBySwap_received components component name))

theorem name_throws (name : Name) (components : Name) (empty : ¬NonEmptyComponents name) :
    nameVisitorAll components (nameBlocks name) = .error .ndnbDecodingException := by
  induction name generalizing components with
  | nil => exact absurd (by simp [NonEmptyComponents]) empty
  | cons component name ih =>
    rw [nameBlocks,List.map_cons,nameVisitorAll,component_reads]
    by_cases first : component.bytes = []
    · rw [if_pos first]
      rfl
    · rw [if_neg first]
      refine ih _ (fun others => empty ?_)
      exact List.forall_mem_cons.mpr ⟨first,others⟩

theorem received_short {name : Name} (nonempty : NonEmptyComponents name) (short : ShortComponents name) :
    received name = name := by
  induction name with
  | nil => rfl
  | cons component name ih =>
    obtain ⟨first,others⟩ := List.forall_mem_cons.mp nonempty
    obtain ⟨fits,rest⟩ := List.forall_mem_cons.mp short
    have following := ih others rest
    have positive : component.size ≠ 0 := fun zero => first (List.length_eq_zero_iff.mp zero)
    unfold received at following ⊢
    rw [List.map_cons,List.filter_cons,following,write_all fits,if_pos (by simpa using positive)]

def nameBlock (name : Name) : Block := .dtag NdnDtag.name.code [] (nameBlocks name)

theorem element_name (name : Name) :
    Element (nameBlock name)
      (appendBlockHeader NdnDtag.name.code TokenType.dtag.code ++ (serializeName name ++ appendCloser)) :=
  element_tag .name (elements_name name)

theorem nameBlock_reads (name : Name) (nonempty : NonEmptyComponents name) :
    nameVisitor [] (nameBlock name) = .ok (received name) := by
  have reads := name_reads name [] nonempty
  rw [nameBlock,nameVisitor,NdnDtag.ofCode_code,if_neg (by decide)]
  exact reads

theorem nameBlock_throws (name : Name) (empty : ¬NonEmptyComponents name) :
    nameVisitor [] (nameBlock name) = .error .ndnbDecodingException := by
  have throws := name_throws name [] empty
  rw [nameBlock,nameVisitor,NdnDtag.ofCode_code,if_neg (by decide)]
  exact throws

theorem received_lengths {name : Name} {component : Component} (member : component ∈ received name) :
    component.bytes.length < 2^32 := by
  obtain ⟨original,_,rfl⟩ := List.mem_map.mp (List.mem_filter.mp member).1
  simp only [write_length]
  exact Nat.mod_lt _ (by decide)

theorem received_exact {name : Name} (nonempty : NonEmptyComponents name) :
    received name = name ↔ ShortComponents name := by
  constructor
  · intro same component member
    rw [← same] at member
    exact received_lengths member
  · exact received_short nonempty

end NdnCxx.Wire
