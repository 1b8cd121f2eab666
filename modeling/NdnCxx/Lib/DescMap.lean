import Mathlib

namespace NdnCxx

-- An ordered map kept in descending key order, as `std::map` with
-- `std::greater` iterates it. An iterator is the key it stands at.
structure DescMap (K V : Type) [LinearOrder K] where
  entries : List (K × V)
  descending : entries.Pairwise (fun left right => right.1 < left.1)

namespace DescMap
variable {K V : Type} [LinearOrder K]

def empty : DescMap K V := ⟨[],.nil⟩

-- First entry whose key is not greater than the given one.
def lowerBound (m : DescMap K V) (key : K) : Option (K × V) :=
  m.entries.find? (fun entry => decide (entry.1 ≤ key))

def insertEntry (key : K) (value : V) : List (K × V) → List (K × V)
  | [] => [(key,value)]
  | entry :: rest =>
    if key < entry.1 then entry :: insertEntry key value rest
    else if entry.1 < key then (key,value) :: entry :: rest
    else entry :: rest

theorem mem_insertEntry {entries : List (K × V)}
    (descending : entries.Pairwise (fun left right => right.1 < left.1)) (key : K) (value : V) (item : K × V) :
    item ∈ insertEntry key value entries ↔
      item ∈ entries ∨ (item = (key,value) ∧ ∀ entry ∈ entries, entry.1 ≠ key) := by
  induction entries with
  | nil => simp [insertEntry]
  | cons entry rest ih =>
    obtain ⟨below,tail⟩ := List.pairwise_cons.mp descending
    have inRest := ih tail
    unfold insertEntry
    split
    · rename_i less
      have apart : entry.1 ≠ key := ne_of_gt less
      rw [List.mem_cons,inRest,List.mem_cons,List.forall_mem_cons]
      tauto
    · rename_i notLess
      split
      · rename_i greater
        have apart : entry.1 ≠ key := ne_of_lt greater
        have restApart : ∀ other ∈ rest, other.1 ≠ key := fun other member =>
          ne_of_lt ((below other member).trans greater)
        rw [List.mem_cons,List.forall_mem_cons]
        tauto
      · rename_i notGreater
        have same : entry.1 = key := le_antisymm (not_lt.mp notLess) (not_lt.mp notGreater)
        rw [List.forall_mem_cons]
        tauto

theorem insertEntry_descending {entries : List (K × V)}
    (descending : entries.Pairwise (fun left right => right.1 < left.1)) (key : K) (value : V) :
    (insertEntry key value entries).Pairwise (fun left right => right.1 < left.1) := by
  induction entries with
  | nil => simp [insertEntry]
  | cons entry rest ih =>
    obtain ⟨below,tail⟩ := List.pairwise_cons.mp descending
    unfold insertEntry
    split
    · rename_i less
      refine List.pairwise_cons.mpr ⟨?_,ih tail⟩
      intro other member
      rcases (mem_insertEntry tail key value other).mp member with old | ⟨rfl,_⟩
      · exact below other old
      · exact less
    · split
      · rename_i greater
        refine List.pairwise_cons.mpr ⟨?_,descending⟩
        intro other member
        rcases List.mem_cons.mp member with rfl | old
        · exact greater
        · exact (below other old).trans greater
      · exact descending

-- `insert` leaves an entry that already has the key alone and then answers false.
def insert (m : DescMap K V) (key : K) (value : V) : DescMap K V × Bool :=
  (⟨insertEntry key value m.entries,insertEntry_descending m.descending key value⟩,
    m.entries.all (fun entry => decide (entry.1 ≠ key)))

-- Writes the value of the entry standing at the key.
def assign (m : DescMap K V) (key : K) (value : V) : DescMap K V :=
  ⟨m.entries.map (fun entry => if entry.1 = key then (entry.1,value) else entry),by
    refine List.pairwise_map.mpr (m.descending.imp ?_)
    intro left right less
    split <;> split <;> exact less⟩

-- The iterator after the one standing at the key.
def next (m : DescMap K V) (key : K) : Option K :=
  (m.entries.find? (fun entry => decide (entry.1 < key))).map Prod.fst

-- Range erase from `first` up to but not including `last`; `none` is `end ()`.
def erase (m : DescMap K V) (first last : Option K) : DescMap K V :=
  ⟨m.entries.filter (fun entry => !(first.any (fun key => decide (entry.1 ≤ key)) &&
      last.all (fun key => decide (key < entry.1)))),m.descending.filter _⟩

theorem mem_insert (m : DescMap K V) (key : K) (value : V) (item : K × V) :
    item ∈ (m.insert key value).1.entries ↔
      item ∈ m.entries ∨ (item = (key,value) ∧ ∀ entry ∈ m.entries, entry.1 ≠ key) :=
  mem_insertEntry m.descending key value item

theorem mem_assign (m : DescMap K V) (key : K) (value : V) (item : K × V) :
    item ∈ (m.assign key value).entries ↔
      (item ∈ m.entries ∧ item.1 ≠ key) ∨ (item = (key,value) ∧ ∃ old, (key,old) ∈ m.entries) := by
  simp only [assign,List.mem_map]
  constructor
  · intro given
    obtain ⟨entry,member,written⟩ := given
    split at written
    · rename_i same
      subst same
      exact .inr ⟨written.symm,entry.2,member⟩
    · rename_i apart
      subst written
      exact .inl ⟨member,apart⟩
  · intro given
    rcases given with ⟨member,apart⟩ | ⟨rfl,old,member⟩
    · exact ⟨item,member,by simp [apart]⟩
    · exact ⟨(key,old),member,by simp⟩

theorem mem_erase (m : DescMap K V) (first last : Option K) (item : K × V) :
    item ∈ (m.erase first last).entries ↔ item ∈ m.entries ∧
      ¬((∃ key, first = some key ∧ item.1 ≤ key) ∧ ∀ key, last = some key → key < item.1) := by
  cases first <;> cases last <;>
    simp [erase,List.mem_filter,imp_iff_not_or]

theorem key_unique {m : DescMap K V} {one two : K × V} (left : one ∈ m.entries) (right : two ∈ m.entries)
    (same : one.1 = two.1) : one = two := by
  have sorted := m.descending
  revert left right
  generalize m.entries = entries at sorted
  induction entries with
  | nil => simp
  | cons entry rest ih =>
    obtain ⟨below,tail⟩ := List.pairwise_cons.mp sorted
    intro left right
    rcases List.mem_cons.mp left with rfl | inRest
    · rcases List.mem_cons.mp right with rfl | inRest
      · rfl
      · exact absurd same (ne_of_gt (below two inRest))
    · rcases List.mem_cons.mp right with rfl | alsoInRest
      · exact absurd same (ne_of_lt (below one inRest))
      · exact ih tail inRest alsoInRest

-- In descending order the first match is the greatest one.
theorem find_greatest {entries : List (K × V)}
    (sorted : entries.Pairwise (fun left right => right.1 < left.1)) (fits : K → Prop) [DecidablePred fits]
    {found : K × V} :
    entries.find? (fun entry => decide (fits entry.1)) = some found ↔
      found ∈ entries ∧ fits found.1 ∧ ∀ entry ∈ entries, fits entry.1 → entry.1 ≤ found.1 := by
  induction entries with
  | nil => simp
  | cons entry rest ih =>
    obtain ⟨below,tail⟩ := List.pairwise_cons.mp sorted
    by_cases here : fits entry.1
    · rw [List.find?_cons_of_pos (by simpa using here)]
      constructor
      · intro same
        cases Option.some.inj same
        refine ⟨List.mem_cons_self,here,?_⟩
        intro other member _
        rcases List.mem_cons.mp member with rfl | old
        · exact le_refl _
        · exact le_of_lt (below other old)
      · intro given
        obtain ⟨member,_,greatest⟩ := given
        rcases List.mem_cons.mp member with rfl | old
        · rfl
        · exact absurd (greatest entry List.mem_cons_self here) (not_le.mpr (below found old))
    · rw [List.find?_cons_of_neg (by simpa using here),ih tail]
      constructor
      · intro given
        obtain ⟨member,bound,greatest⟩ := given
        refine ⟨List.mem_cons_of_mem _ member,bound,?_⟩
        intro other present otherFits
        rcases List.mem_cons.mp present with rfl | old
        · exact absurd otherFits here
        · exact greatest other old otherFits
      · intro given
        obtain ⟨member,bound,greatest⟩ := given
        rcases List.mem_cons.mp member with rfl | old
        · exact absurd bound here
        · exact ⟨old,bound,fun other present => greatest other (List.mem_cons_of_mem _ present)⟩

theorem lowerBound_none {m : DescMap K V} {key : K} :
    m.lowerBound key = none ↔ ∀ entry ∈ m.entries, key < entry.1 := by
  simp [lowerBound,List.find?_eq_none]

theorem lowerBound_some {m : DescMap K V} {key : K} {found : K × V} :
    m.lowerBound key = some found ↔
      found ∈ m.entries ∧ found.1 ≤ key ∧ ∀ entry ∈ m.entries, entry.1 ≤ key → entry.1 ≤ found.1 :=
  find_greatest m.descending (· ≤ key)

theorem next_some {m : DescMap K V} {key after : K} :
    m.next key = some after ↔ (∃ value, (after,value) ∈ m.entries) ∧ after < key ∧
      ∀ entry ∈ m.entries, entry.1 < key → entry.1 ≤ after := by
  simp only [next,Option.map_eq_some_iff,find_greatest m.descending (· < key)]
  constructor
  · intro given
    obtain ⟨⟨found,value⟩,⟨member,less,greatest⟩,rfl⟩ := given
    exact ⟨⟨value,member⟩,less,greatest⟩
  · intro given
    obtain ⟨⟨value,member⟩,less,greatest⟩ := given
    exact ⟨(after,value),⟨member,less,greatest⟩,rfl⟩

theorem lowerBound_mem {m : DescMap K V} {key : K} {entry : K × V} (member : entry ∈ m.entries)
    (fits : entry.1 ≤ key) : ∃ found, m.lowerBound key = some found ∧ entry.1 ≤ found.1 := by
  cases bound : m.lowerBound key with
  | none => exact absurd (lowerBound_none.mp bound entry member) (not_lt.mpr fits)
  | some found => exact ⟨found,rfl,(lowerBound_some.mp bound).2.2 entry member fits⟩

-- Maps that agree on the keys up to a point have the same lower bound there.
theorem lowerBound_agree {one two : DescMap K V} {key : K}
    (agree : ∀ item, item.1 ≤ key → (item ∈ one.entries ↔ item ∈ two.entries)) :
    one.lowerBound key = two.lowerBound key := by
  ext found
  rw [lowerBound_some,lowerBound_some]
  constructor
  · intro given
    obtain ⟨member,fits,greatest⟩ := given
    exact ⟨(agree found fits).mp member,fits,fun entry present bound =>
      greatest entry ((agree entry bound).mpr present) bound⟩
  · intro given
    obtain ⟨member,fits,greatest⟩ := given
    exact ⟨(agree found fits).mpr member,fits,fun entry present bound =>
      greatest entry ((agree entry bound).mp present) bound⟩

-- It is enough to agree above a cut that some entry under the point exceeds.
theorem lowerBound_agree_above {one two : DescMap K V} {cut key : K}
    (agree : ∀ item, cut < item.1 → (item ∈ one.entries ↔ item ∈ two.entries))
    {entry : K × V} (member : entry ∈ two.entries) (above : cut < entry.1) (fits : entry.1 ≤ key) :
    one.lowerBound key = two.lowerBound key := by
  obtain ⟨found,bound,larger⟩ := lowerBound_mem member fits
  obtain ⟨present,under,greatest⟩ := lowerBound_some.mp bound
  have foundAbove : cut < found.1 := above.trans_le larger
  rw [bound,lowerBound_some]
  refine ⟨(agree found foundAbove).mpr present,under,?_⟩
  intro other inOne otherFits
  by_cases otherAbove : cut < other.1
  · exact greatest other ((agree other otherAbove).mp inOne) otherFits
  · exact (not_lt.mp otherAbove).trans (le_of_lt foundAbove)

theorem lowerBound_gap {m : DescMap K V} {low high : K} (order : low ≤ high)
    (gap : ∀ entry ∈ m.entries, entry.1 ≤ high → entry.1 ≤ low) :
    m.lowerBound high = m.lowerBound low := by
  ext found
  rw [lowerBound_some,lowerBound_some]
  constructor
  · intro given
    obtain ⟨member,fits,greatest⟩ := given
    exact ⟨member,gap found member fits,fun entry present bound => greatest entry present (bound.trans order)⟩
  · intro given
    obtain ⟨member,fits,greatest⟩ := given
    exact ⟨member,fits.trans order,fun entry present bound => greatest entry present (gap entry present bound)⟩

end DescMap
end NdnCxx
