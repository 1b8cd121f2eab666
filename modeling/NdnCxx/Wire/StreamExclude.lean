import NdnCxx.Exclude
import NdnCxx.Wire.StreamEncoder

namespace NdnCxx.Wire.Ndnb
open PrefixCode

def appendAny : Blob := appendBlockHeader NdnDtag.any.code .dtag ++ appendCloser

def appendItem (item : Component × Bool) : Blob :=
  (if item.1.bytes ≠ [] then appendTaggedBlob .component item.1.bytes else []) ++ (if item.2 then appendAny else [])

-- The map is descending, and the reverse iterators go up.
def appendExclude (exclude : Exclude) : Blob :=
  appendBlockHeader NdnDtag.exclude.code .dtag ++ (exclude.entries.reverse.flatMap appendItem ++ appendCloser)

-- What a reader of the filter sees: elements, without marks between the entries.
inductive FilterElement where
  | component (bytes : Blob)
  | any

namespace FilterElement

def tagged : FilterElement → NdnDtag × Blob
  | .component bytes => (.component,bytes)
  | .any => (.any,[])

def code (element : FilterElement) : Blob := appendTaggedBlob element.tagged.1 element.tagged.2

theorem tagged_injective : Function.Injective tagged := by
  intro left right same
  cases left <;> cases right <;> cases same <;> rfl

theorem code_decodable : Decodable code := taggedBlob_decodable.comp tagged_injective

theorem code_nonempty (element : FilterElement) : element.code ≠ [] := by
  intro empty
  obtain ⟨byte,others,starts,_⟩ := header_first element.tagged.1.code .dtag
  have header := (List.append_eq_nil_iff.mp empty).1
  cases starts.symm.trans header

end FilterElement

def elementsOf (item : Component × Bool) : List FilterElement :=
  (if item.1.bytes ≠ [] then [.component item.1.bytes] else []) ++ (if item.2 then [.any] else [])

theorem appendItem_code (item : Component × Bool) : appendItem item = (elementsOf item).flatMap FilterElement.code := by
  unfold appendItem elementsOf
  split <;> split <;> simp [FilterElement.code,FilterElement.tagged] <;> rfl

theorem appendExclude_elements {one two : Exclude} (same : appendExclude one = appendExclude two) :
    one.entries.reverse.flatMap elementsOf = two.entries.reverse.flatMap elementsOf := by
  have items : ∀ exclude : Exclude, exclude.entries.reverse.flatMap appendItem =
      (exclude.entries.reverse.flatMap elementsOf).flatMap FilterElement.code := by
    intro exclude
    rw [List.flatMap_assoc]
    exact List.flatMap_congr (fun item _ => appendItem_code item)
  unfold appendExclude at same
  have bodies := List.append_cancel_right (List.append_cancel_left same)
  rw [items,items] at bodies
  exact FilterElement.code_decodable.sequence FilterElement.code_nonempty bodies

-- Whether a component is excluded, read upwards: the elements below it decide, and
-- the last of them is in force.
def covers (comp : Component) : List FilterElement → Bool → Bool
  | [],covered => covered
  | .any :: rest,_ => covers comp rest true
  | .component bytes :: rest,covered =>
    if ⟨bytes⟩ < comp then covers comp rest false else if ⟨bytes⟩ = comp then true else covered

def scan (comp : Component) : List (Component × Bool) → Bool → Bool
  | [],covered => covered
  | item :: rest,covered =>
    if item.1 < comp then scan comp rest item.2 else if item.1 = comp then true else covered

def Ascending (items : List (Component × Bool)) : Prop := items.Pairwise (fun left right => left.1 < right.1)

theorem scan_find (comp : Component) {items : List (Component × Bool)} (ascending : Ascending items) (covered : Bool) :
    scan comp items covered = match items.reverse.find? (fun entry => decide (entry.1 ≤ comp)) with
      | none => covered
      | some found => if found.2 then true else decide (found.1 = comp) := by
  induction items generalizing covered with
  | nil => rfl
  | cons item rest ih =>
    obtain ⟨above,tail⟩ := List.pairwise_cons.mp ascending
    have following := ih tail item.2
    rw [scan,List.reverse_cons,List.find?_append]
    have later : comp ≤ item.1 → rest.reverse.find? (fun entry => decide (entry.1 ≤ comp)) = none := by
      intro reached
      rw [List.find?_eq_none]
      intro entry member
      have greater := lt_of_le_of_lt reached (above entry (List.mem_reverse.mp member))
      simpa using greater
    rcases lt_trichotomy item.1 comp with less | same | greater
    · rw [if_pos less,following]
      cases rest.reverse.find? (fun entry => decide (entry.1 ≤ comp)) with
      | some found => rfl
      | none => cases flag : item.2 <;> simp [less.le,less.ne,flag]
    · rw [if_neg same.not_lt,if_pos same,later same.ge]
      simp [same]
    · rw [if_neg greater.not_gt,if_neg greater.ne',later greater.le]
      simp [greater]

theorem isExcluded_scan (exclude : Exclude) (comp : Component) :
    Exclude.isExcluded exclude comp = scan comp exclude.entries.reverse false := by
  have ascending : Ascending exclude.entries.reverse := List.pairwise_reverse.mpr exclude.descending
  rw [scan_find comp ascending,List.reverse_reverse]
  rfl

theorem covers_scan (comp : Component) {items : List (Component × Bool)}
    (filled : ∀ item ∈ items, item.1.bytes ≠ []) (covered : Bool) :
    covers comp (items.flatMap elementsOf) covered = scan comp items covered := by
  induction items generalizing covered with
  | nil => rfl
  | cons item rest ih =>
    obtain ⟨first,others⟩ := List.forall_mem_cons.mp filled
    have following := ih others
    have elements : (item :: rest).flatMap elementsOf =
        .component item.1.bytes :: ((if item.2 then [.any] else []) ++ rest.flatMap elementsOf) := by
      rw [List.flatMap_cons,elementsOf,if_pos first]
      rfl
    rw [elements,covers,scan]
    split
    · cases flag : item.2 <;> exact following _
    · rfl

theorem empty_lt {c : Component} (nonempty : c.bytes ≠ []) : ⟨[]⟩ < c :=
  (Component.lt_iff ⟨[]⟩ c).mpr (.inl (List.length_pos_iff.mpr nonempty))

theorem lt_nonempty {c d : Component} (less : c < d) : d.bytes ≠ [] := by
  intro empty
  rcases (Component.lt_iff c d).mp less with shorter | ⟨_,smaller⟩
  · simp [Component.size,empty] at shorter
  · simp [empty] at smaller

-- Only the first entry can have an empty key, and with its flag unset it decides
-- nothing about a component with bytes in it.
theorem covers_excluded (exclude : Exclude) {comp : Component} (nonempty : comp.bytes ≠ []) :
    Exclude.isExcluded exclude comp = covers comp (exclude.entries.reverse.flatMap elementsOf) false := by
  have ascending : Ascending exclude.entries.reverse := List.pairwise_reverse.mpr exclude.descending
  rw [isExcluded_scan]
  cases listed : exclude.entries.reverse with
  | nil => rfl
  | cons item rest =>
    rw [listed] at ascending
    obtain ⟨above,_⟩ := List.pairwise_cons.mp ascending
    have others : ∀ entry ∈ rest, entry.1.bytes ≠ [] := fun entry member => lt_nonempty (above entry member)
    by_cases empty : item.1.bytes = []
    · have below : item.1 < comp := by
        have := empty_lt nonempty
        rwa [← empty] at this
      have elements : (item :: rest).flatMap elementsOf = (if item.2 then [.any] else []) ++ rest.flatMap elementsOf := by
        rw [List.flatMap_cons,elementsOf,if_neg (not_not.mpr empty)]
        rfl
      rw [elements,scan,if_pos below]
      cases flag : item.2 <;> exact (covers_scan comp others _).symm
    · exact (covers_scan comp (List.forall_mem_cons.mpr ⟨empty,others⟩) false).symm

theorem exclude_faithful {one two : Exclude} (same : appendExclude one = appendExclude two) {comp : Component}
    (nonempty : comp.bytes ≠ []) : Exclude.isExcluded one comp = Exclude.isExcluded two comp := by
  rw [covers_excluded one nonempty,covers_excluded two nonempty,appendExclude_elements same]

-- The empty component alone, without a flag, is written like no entry at all.
theorem exclude_faithful_dropped :
    Exclude.isExcluded (DescMap.empty.insert ⟨[]⟩ false).1 ⟨[0x61]⟩ = Exclude.isExcluded DescMap.empty ⟨[0x61]⟩ :=
  exclude_faithful (show appendExclude (DescMap.empty.insert ⟨[]⟩ false).1 = appendExclude DescMap.empty from rfl) (by decide)

end NdnCxx.Wire.Ndnb
