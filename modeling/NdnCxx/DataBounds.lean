import NdnCxx.Data
import NdnCxx.Wire.Outcome

namespace NdnCxx.Wire
open Throwing (bind_ok)

-- Every payload the blocks hold fits the parser's 32-bit length.
mutual
def ShortLeaves : Block → Prop
  | .blob bytes => bytes.length < 2^32
  | .udata bytes => bytes.length < 2^32
  | .tag _ attrs nested => AllShortLeaves attrs ∧ AllShortLeaves nested
  | .dtag _ attrs nested => AllShortLeaves attrs ∧ AllShortLeaves nested
  | .attr _ _ => True
  | .dattr _ _ => True
  | .ext _ => True
def AllShortLeaves : List Block → Prop
  | [] => True
  | block :: others => ShortLeaves block ∧ AllShortLeaves others
end

theorem allShortLeaves_iff {blocks : List Block} : AllShortLeaves blocks ↔ ∀ block ∈ blocks, ShortLeaves block := by
  induction blocks with
  | nil => simp [AllShortLeaves]
  | cons block others ih => rw [AllShortLeaves,ih,List.forall_mem_cons]

theorem allShortLeaves_append (left right : List Block) :
    AllShortLeaves (left ++ right) ↔ AllShortLeaves left ∧ AllShortLeaves right := by
  simp only [allShortLeaves_iff,List.forall_mem_append]

theorem Header.small {value : Nat} {tt : TokenType} {bytes : Blob} (header : Header value tt bytes) : value < 2^32 := by
  obtain ⟨high,last,_,_,_,rfl,_⟩ := header
  exact Nat.mod_lt _ (by decide)

mutual
theorem encodes_short : ∀ {block : Block} {bytes : Blob}, Encodes block bytes → ShortLeaves block
  | _,_,.blob header => header.small
  | _,_,.udata header => header.small
  | _,_,.tag _ _ inside _ _ => (allShortLeaves_append _ _).mp (encodesMany_short inside)
  | _,_,.attr _ _ _ => trivial
  | _,_,.dtag _ inside _ _ => (allShortLeaves_append _ _).mp (encodesMany_short inside)
  | _,_,.dattr _ _ => trivial
  | _,_,.ext _ => trivial
theorem encodesMany_short : ∀ {blocks : List Block} {bytes : Blob}, EncodesMany blocks bytes → AllShortLeaves blocks
  | _,_,.nil => trivial
  | _,_,.cons first _ others => ⟨encodes_short first,encodesMany_short others⟩
end

theorem parse_short {std : Standard} {bytes : Blob} {block : Block} {after : InputIterator}
    (parsed : parse std bytes = .ok (block,after)) : ShortLeaves block := by
  rcases parse_outcome std bytes with thrown | ⟨read,front,tail,_,encodes,result⟩ | ⟨read,s,short,_,result⟩
  · rw [parsed] at thrown
    cases thrown
  · rw [parsed] at result
    cases result
    exact encodes_short encodes
  · rw [parsed] at result
    cases result
    cases short with
    | blob header => simpa [ShortLeaves] using header.small
    | udata header => simpa [ShortLeaves] using header.small
    | attr _ _ _ => trivial
    | dattr _ _ => trivial

theorem stringVisitor_short {block : Block} {bytes : Blob} (short : ShortLeaves block)
    (read : stringVisitor block = .ok bytes) : bytes.length < 2^32 := by
  obtain ⟨cast,visited,done⟩ := bind_ok read
  cases block with
  | blob inner =>
    cases visited
    cases done
    exact short
  | udata inner =>
    cases visited
    cases done
    exact short
  | tag name attrs nested =>
    obtain ⟨_,_,rest⟩ := bind_ok visited
    obtain ⟨_,_,last⟩ := bind_ok rest
    cases last
    cases done
  | dtag number attrs nested =>
    obtain ⟨_,_,rest⟩ := bind_ok visited
    obtain ⟨_,_,last⟩ := bind_ok rest
    cases last
    cases done
  | attr name value =>
    cases visited
    cases done
  | dattr number value =>
    cases visited
    cases done
  | ext subtype =>
    cases visited
    cases done

theorem nameComponent_short {components result : Name} {nested : List Block} (short : ∀ block ∈ nested, ShortLeaves block)
    (before : ShortComponents components) (visited : nameComponent components nested = .ok result) :
    ShortComponents result := by
  match nested with
  | [block] =>
    obtain ⟨bytes,read,done⟩ := bind_ok visited
    cases done
    have fits := stringVisitor_short (short block (.head _)) read
    unfold appendBySwap
    split
    · intro component member
      rcases List.mem_append.mp member with old | new
      · exact before component old
      · rw [List.mem_singleton.mp new]
        exact fits
    · exact before
  | [] => cases visited
  | _ :: _ :: _ => cases visited

theorem shortLeaves_inside {attrs nested : List Block} (short : AllShortLeaves attrs ∧ AllShortLeaves nested) :
    ∀ block ∈ attrs ++ nested, ShortLeaves block :=
  allShortLeaves_iff.mp ((allShortLeaves_append attrs nested).mpr short)

theorem shortName_invariant : NameInvariant ShortComponents ShortLeaves where
  tags := shortLeaves_inside
  dtags := shortLeaves_inside
  component := nameComponent_short

end NdnCxx.Wire

namespace NdnCxx.Data
open Wire

structure ShortData (data : Data) : Prop where
  name : ShortComponents data.name
  bits : data.signature.signatureBits.length < 2^32
  digest : data.signature.publisherKeyDigest.length < 2^32
  locator : ∀ keyName, data.signature.keyLocator = .keyname keyName → ShortComponents keyName
  content : data.content.content.length < 2^32

theorem onlyBlob_short {nested : List Block} {bytes : Blob} (short : AllShortLeaves nested)
    (read : onlyBlob nested = .ok bytes) : bytes.length < 2^32 := by
  unfold onlyBlob at read
  split at read
  · cases read
    exact short.1
  · cases read
  · cases read

theorem short_nil : ShortComponents [] := by simp [ShortComponents]

theorem short_invariant : Invariant ShortData ShortLeaves where
  tags := shortLeaves_inside
  dtags short _ := allShortLeaves_iff.mp short.2
  sets := by
    intro data result block short set before
    cases set with
    | signatureBits _ read => exact {before with bits := onlyBlob_short short.2 read}
    | name _ read => exact {before with name := shortName_invariant.visitor _ short short_nil read}
    | publisherPublicKeyDigest _ read => exact {before with digest := onlyBlob_short short.2 read}
    | timestamp _ _ => exact {before with}
    | type _ _ => exact {before with}
    | freshnessSeconds _ => exact {before with}
    | keyName _ read =>
      refine {before with locator := ?_}
      intro keyName located
      cases located
      exact shortName_invariant.visitor _ short short_nil read
    | content _ read => exact {before with content := onlyBlob_short short.2 read}

theorem fresh_short (wire : Option SignedBlob) : ShortData (fresh wire) :=
  ⟨short_nil,Nat.two_pow_pos 32,Nat.two_pow_pos 32,nofun,Nat.two_pow_pos 32⟩

-- `Data::Deserialize`, on the packet the caller made.
def deserialize (std : Standard) (data : Data) (start : Blob) : Except Exception Data := do
  let (root,_) ← parse std start
  dataVisitor data root

-- What was decoded can be encoded again without a length being cut.
theorem deserialize_short {std : Standard} {data result : Data} {start : Blob} (before : ShortData data)
    (decoded : deserialize std data start = .ok result) : ShortData result := by
  obtain ⟨⟨root,rest⟩,parsed,visited⟩ := Throwing.bind_ok decoded
  exact short_invariant.visitor root (parse_short parsed) before visited

end NdnCxx.Data
