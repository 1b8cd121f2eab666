import NdnCxx.Lib.Table

namespace NdnCxx.Table

-- A map whose groups have a default each, if any an entry of the group.
structure Register {Key Value Group : Type*} (owner : Key → Value → Group) where
  entry : Key → Option Value
  chosen : Group → Option Key
  named : ∀ g k, chosen g = some k → ∃ v, entry k = some v ∧ owner k v = g

namespace Register
variable {Key Value Group : Type*} {owner : Key → Value → Group}

def empty : Register owner := ⟨fun _ => none,fun _ => none,fun _ _ named => nomatch named⟩

section Operations
variable [DecidableEq Key] (r : Register owner)

-- What is there stays.
def add (k : Key) (v : Value) : Register owner where
  entry := Function.update r.entry k (some ((r.entry k).getD v))
  chosen := r.chosen
  named g other named := by
    obtain ⟨value,there,same⟩ := r.named g other named
    refine ⟨value,?_,same⟩
    by_cases equal : other = k
    · subst equal
      rw [Function.update_self,there]
      rfl
    · rw [Function.update_of_ne equal,there]

def adjust (k : Key) (f : Value → Value) (kept : ∀ v, owner k (f v) = owner k v) : Register owner where
  entry := Function.update r.entry k ((r.entry k).map f)
  chosen := r.chosen
  named g other named := by
    obtain ⟨value,there,same⟩ := r.named g other named
    by_cases equal : other = k
    · subst equal
      refine ⟨f value,?_,(kept value).trans same⟩
      rw [Function.update_self,there]
      rfl
    · refine ⟨value,?_,same⟩
      rw [Function.update_of_ne equal,there]

-- The group gets the entry that is asked for, or none where it has no such entry.
def choose [DecidableEq Group] (g : Group) (k : Key) : Register owner where
  entry := r.entry
  chosen := Function.update r.chosen g (if (r.entry k).any (fun v => decide (owner k v = g)) then some k else none)
  named other key named := by
    by_cases equal : other = g
    · subst equal
      rw [Function.update_self] at named
      split at named
      · rename_i held
        cases named
        obtain ⟨value,there,same⟩ := (Option.any_eq_true _ _).mp held
        exact ⟨value,there,of_decide_eq_true same⟩
      · cases named
    · rw [Function.update_of_ne equal] at named
      exact r.named other key named

variable {r}

@[simp] theorem entry_add (k : Key) (v : Value) : (r.add k v).entry = Function.update r.entry k (some ((r.entry k).getD v)) := rfl
@[simp] theorem chosen_add (k : Key) (v : Value) : (r.add k v).chosen = r.chosen := rfl
@[simp] theorem entry_adjust (k : Key) (f : Value → Value) (kept : ∀ v, owner k (f v) = owner k v) :
    (r.adjust k f kept).entry = Function.update r.entry k ((r.entry k).map f) := rfl
@[simp] theorem chosen_adjust (k : Key) (f : Value → Value) (kept : ∀ v, owner k (f v) = owner k v) :
    (r.adjust k f kept).chosen = r.chosen := rfl
theorem add_present {k : Key} (present : (r.entry k).isSome = true) (v : Value) : r.add k v = r := by
  obtain ⟨entry,chosen,named⟩ := r
  obtain ⟨value,there⟩ := Option.isSome_iff_exists.mp present
  change entry k = some value at there
  have same : Function.update entry k (some ((entry k).getD v)) = entry := by
    rw [there]
    exact Function.update_eq_self_iff.mpr there.symm
  simp only [add,same]

omit [DecidableEq Key] in
@[simp] theorem entry_choose [DecidableEq Group] (g : Group) (k : Key) : (r.choose g k).entry = r.entry := rfl
omit [DecidableEq Key] in
theorem chosen_choose [DecidableEq Group] (g : Group) (k : Key) : (r.choose g k).chosen =
    Function.update r.chosen g (if (r.entry k).any (fun v => decide (owner k v = g)) then some k else none) := rfl

end Operations
end Register

-- A marked table read as a register: the value of a row, its group by key and value, and
-- the test for a row without the mark.
structure Columns (Row Group Key Value : Type*) (owner : Key → Value → Group) extends Marking Row Group Key where
  value : Row → Value
  unmarked : Row → Bool
  owner_row : ∀ row, owner (key row) (value row) = group row
  value_mark : ∀ mark' row, value (mark mark' row) = value row
  unmarked_mark : ∀ mark' row, unmarked (mark mark' row) = !mark'

namespace Columns
variable {Row Group Key Value : Type*} {owner : Key → Value → Group} [DecidableEq Group] [DecidableEq Key]

def lookup (c : Columns Row Group Key Value owner) (rows : List Row) (k : Key) : Option Row :=
  rows.find? (fun row => decide (c.key row = k))

structure Represents (c : Columns Row Group Key Value owner) (rows : List Row) (r : Register owner) : Prop where
  keyed : Keyed c.key rows
  entry : ∀ k, (c.lookup rows k).map c.value = r.entry k
  chosen : ∀ g, c.defaults rows g = (r.chosen g).toList
  flags : ∀ row ∈ rows, c.unmarked row = !c.marked row

variable {c : Columns Row Group Key Value owner} {rows : List Row} {r : Register owner}

omit [DecidableEq Group] in
theorem lookup_member {k : Key} {row : Row} (found : c.lookup rows k = some row) : row ∈ rows ∧ c.key row = k :=
  ⟨List.mem_of_find?_eq_some found,by simpa using List.find?_some found⟩

omit [DecidableEq Group] in
theorem lookup_keyed (keyed : Keyed c.key rows) {row : Row} (member : row ∈ rows) : c.lookup rows (c.key row) = some row := by
  cases found : c.lookup rows (c.key row) with
  | none =>
    have missed := List.find?_eq_none.mp found row member
    simp at missed
  | some other =>
    obtain ⟨present,same⟩ := lookup_member found
    rw [List.inj_on_of_nodup_map keyed present member same]

theorem represents_nil : c.Represents [] Register.empty := ⟨List.nodup_nil,fun _ => rfl,fun _ => rfl,List.forall_mem_nil _⟩

theorem stored_iff (keyed : Keyed c.key rows) (g : Group) (k : Key) :
    c.Stored rows g k ↔ ((c.lookup rows k).map c.value).any (fun v => decide (owner k v = g)) = true := by
  constructor
  · rintro ⟨row,member,rfl,rfl⟩
    rw [lookup_keyed keyed member]
    simp [c.owner_row]
  · intro held
    obtain ⟨value,found,same⟩ := (Option.any_eq_true _ _).mp held
    obtain ⟨row,there,rfl⟩ := Option.map_eq_some_iff.mp found
    obtain ⟨member,rfl⟩ := lookup_member there
    exact ⟨row,member,(c.owner_row row).symm.trans (of_decide_eq_true same),rfl⟩

omit [DecidableEq Group] in
theorem lookup_update {set : Row → Row} (key : ∀ row, c.key (set row) = c.key row) (meets : Row → Bool) (k : Key) :
    c.lookup (update rows meets set) k = (c.lookup rows k).map (fun row => if meets row then set row else row) := by
  rw [lookup,update,List.find?_map]
  congr 2
  funext row
  rw [Function.comp_apply]
  split
  · rw [key]
  · rfl

omit [DecidableEq Group] in
theorem lookup_insert (row : Row) (k : Key) :
    c.lookup (insert c.key rows row) k = if k = c.key row then some ((c.lookup rows k).getD row) else c.lookup rows k := by
  unfold insert
  split
  · rename_i present
    split
    · rename_i same
      subst same
      obtain ⟨other,member,equal⟩ := List.any_eq_true.mp present
      cases found : c.lookup rows (c.key row) with
      | none => exact absurd equal (List.find?_eq_none.mp found other member)
      | some there => rfl
    · rfl
  · rename_i fresh
    rw [lookup,List.find?_append]
    split
    · rename_i same
      subst same
      have missed : rows.find? (fun other => decide (c.key other = c.key row)) = none :=
        List.find?_eq_none.mpr fun other member held => fresh (List.any_eq_true.mpr ⟨other,member,held⟩)
      simp [lookup,missed]
    · rename_i apart
      have passed : List.find? (fun other => decide (c.key other = k)) [row] = none := by simp [Ne.symm apart]
      rw [passed,Option.or_none]
      rfl

omit [DecidableEq Group] [DecidableEq Key] in
theorem update_flags {set : Row → Row} {meets : Row → Bool} (flags : ∀ row ∈ rows, c.unmarked row = !c.marked row)
    (kept : ∀ row, c.unmarked row = (!c.marked row) → c.unmarked (set row) = !c.marked (set row)) :
    ∀ row ∈ update rows meets set, c.unmarked row = !c.marked row := by
  intro row member
  obtain ⟨old,present,rfl⟩ := List.mem_map.mp member
  split
  · exact kept old (flags old present)
  · exact flags old present

omit [DecidableEq Group] [DecidableEq Key] in
theorem mark_flags {rows : List Row} {meets : Row → Bool} (flags : ∀ row ∈ rows, c.unmarked row = !c.marked row)
    (mark : Bool) : ∀ row ∈ update rows meets (c.mark mark), c.unmarked row = !c.marked row :=
  update_flags flags fun row _ => by rw [c.unmarked_mark,c.marked_mark]

theorem Represents.insert (represents : c.Represents rows r) {row : Row} (unmarked : c.marked row = false)
    (clear : c.unmarked row = true) :
    c.Represents (insert c.key rows row) (r.add (c.key row) (c.value row)) where
  keyed := insert_keyed represents.keyed row
  entry k := by
    rw [lookup_insert]
    split
    · rename_i same
      subst same
      rw [Register.entry_add,Function.update_self,← represents.entry]
      cases c.lookup rows (c.key row) <;> rfl
    · rename_i apart
      rw [Register.entry_add,Function.update_of_ne apart,represents.entry]
  chosen g := by
    rw [Marking.defaults_insert unmarked,represents.chosen]
    rfl
  flags other member := by
    unfold Table.insert at member
    split at member
    · exact represents.flags other member
    · rcases List.mem_append.mp member with old | new
      · exact represents.flags other old
      · rw [List.mem_singleton.mp new,unmarked,clear]
        rfl

theorem Represents.choose (represents : c.Represents rows r) (g : Group) (k : Key) :
    c.Represents (c.choose rows g k) (r.choose g k) where
  keyed := update_keyed (c.key_mark true) (update_keyed (c.key_mark false) represents.keyed _) _
  entry other := by
    rw [Marking.choose,Marking.set,Marking.reset,lookup_update (c.key_mark true),lookup_update (c.key_mark false)]
    refine Eq.trans ?_ (represents.entry other)
    cases c.lookup rows other with
    | none => rfl
    | some row =>
      refine congrArg some ?_
      dsimp only
      split_ifs <;> simp only [c.value_mark]
  chosen other := by
    rw [Marking.defaults_choose represents.keyed,Register.chosen_choose]
    by_cases equal : other = g
    · subst equal
      rw [if_pos rfl,Function.update_self]
      by_cases stored : c.Stored rows other k
      · rw [if_pos stored,if_pos (represents.entry k ▸ (stored_iff represents.keyed other k).mp stored)]
        rfl
      · rw [if_neg stored,if_neg (represents.entry k ▸ mt (stored_iff represents.keyed other k).mpr stored)]
        rfl
    · rw [if_neg equal,Function.update_of_ne equal,represents.chosen]
  flags := mark_flags (mark_flags represents.flags false) true

-- A statement that sets other columns of one row.
theorem Represents.adjust (represents : c.Represents rows r) {set : Row → Row} {f : Value → Value} (k : Key)
    (kept : ∀ v, owner k (f v) = owner k v) (key : ∀ row, c.key (set row) = c.key row)
    (group : ∀ row, c.group (set row) = c.group row) (marked : ∀ row, c.marked (set row) = c.marked row)
    (value : ∀ row, c.value (set row) = f (c.value row)) (clear : ∀ row, c.unmarked (set row) = c.unmarked row) :
    c.Represents (update rows (fun row => decide (c.key row = k)) set) (r.adjust k f kept) where
  keyed := update_keyed key represents.keyed _
  entry other := by
    rw [lookup_update key,Register.entry_adjust]
    by_cases equal : other = k
    · subst equal
      rw [Function.update_self,← represents.entry]
      cases found : c.lookup rows other with
      | none => rfl
      | some row =>
        obtain ⟨_,rfl⟩ := lookup_member found
        simp [value]
    · rw [Function.update_of_ne equal,← represents.entry]
      cases found : c.lookup rows other with
      | none => rfl
      | some row =>
        obtain ⟨_,rfl⟩ := lookup_member found
        simp [equal]
  chosen g := by
    rw [Marking.defaults_columns key group marked,represents.chosen]
    rfl
  flags := update_flags represents.flags fun row same => by rw [clear,marked,same]

-- `SELECT` of a row by its key, and whether there is one.
theorem Represents.find (represents : c.Represents rows r) {meets : Row → Bool} {k : Key}
    (same : ∀ row, meets row = decide (c.key row = k)) : (rows.find? meets).map c.value = r.entry k := by
  rw [← represents.entry,funext same]
  rfl

-- The same with a further test on the row.
theorem Represents.find_meeting (represents : c.Represents rows r) {named test : Row → Bool} {k : Key}
    (same : ∀ row, named row = decide (c.key row = k)) :
    rows.find? (fun row => named row && test row) = (c.lookup rows k).filter test := by
  cases found : c.lookup rows k with
  | none =>
    have missed := List.find?_eq_none.mp found
    refine List.find?_eq_none.mpr fun row member met => missed row member ?_
    rw [Bool.and_eq_true,same] at met
    exact met.1
  | some row =>
    obtain ⟨member,rfl⟩ := lookup_member found
    have only : ∀ other ∈ rows, named other = true → other = row := by
      intro other present meant
      rw [same,decide_eq_true_eq] at meant
      exact List.inj_on_of_nodup_map represents.keyed present member meant
    cases passed : test row with
    | true =>
      cases first : rows.find? (fun row => named row && test row) with
      | none =>
        refine absurd ?_ (List.find?_eq_none.mp first row member)
        rw [same,passed,decide_eq_true rfl]
        rfl
      | some other =>
        have met := List.find?_some first
        rw [Bool.and_eq_true] at met
        rw [only other (List.mem_of_find?_eq_some first) met.1,Option.filter_some,if_pos passed]
    | false =>
      rw [Option.filter_some,passed]
      refine List.find?_eq_none.mpr fun other present met => ?_
      rw [Bool.and_eq_true] at met
      rw [only other present met.1,passed] at met
      cases met.2

theorem Represents.any (represents : c.Represents rows r) {meets : Row → Bool} {k : Key}
    (same : ∀ row, meets row = decide (c.key row = k)) : rows.any meets = (r.entry k).isSome := by
  rw [← represents.find same,Option.isSome_map,List.isSome_find?]

theorem Represents.insert_present (represents : c.Represents rows r) {row : Row} (present : (r.entry (c.key row)).isSome) :
    Table.insert c.key rows row = rows :=
  if_pos ((represents.any fun _ => rfl).trans present)

-- `SELECT` of the marked row of a group.
theorem Represents.marked (represents : c.Represents rows r) (g : Group) :
    (rows.find? (fun row => c.marked row && decide (c.group row = g))).map c.key = r.chosen g := by
  have head : (c.defaults rows g).head? = r.chosen g := by
    rw [represents.chosen]
    cases r.chosen g <;> rfl
  rw [← head,Marking.defaults,List.head?_map,List.head?_filter]

theorem Represents.marked_iff (represents : c.Represents rows r) {row : Row} (member : row ∈ rows) :
    c.marked row = true ↔ r.chosen (c.group row) = some (c.key row) := by
  rw [← Option.mem_toList,← represents.chosen,Marking.defaults,List.mem_map]
  constructor
  · intro marked
    exact ⟨row,List.mem_filter.mpr ⟨member,by simp [marked]⟩,rfl⟩
  · rintro ⟨other,found,same⟩
    obtain ⟨present,meets⟩ := List.mem_filter.mp found
    rw [List.inj_on_of_nodup_map represents.keyed present member same,Bool.and_eq_true] at meets
    exact meets.1

-- `SELECT` of the rows with the mark or without it, in the groups that are asked for.
theorem Represents.listed (represents : c.Represents rows r) (marked : Bool) (within : Group → Bool) {meets : Row → Bool}
    (same : ∀ row, meets row = ((if marked then c.marked row else c.unmarked row) && within (c.group row))) :
    ((rows.filter meets).map c.key).Nodup ∧ ∀ k, k ∈ (rows.filter meets).map c.key ↔
      ∃ v, r.entry k = some v ∧ within (owner k v) = true ∧ (r.chosen (owner k v) = some k ↔ marked = true) := by
  refine ⟨represents.keyed.sublist (List.filter_sublist.map c.key),fun k => ?_⟩
  have flag : ∀ row ∈ rows, (if marked then c.marked row else c.unmarked row) = true ↔
      (r.chosen (c.group row) = some (c.key row) ↔ marked = true) := by
    intro row member
    rw [← represents.marked_iff member,represents.flags row member]
    cases marked <;> cases c.marked row <;> decide
  rw [List.mem_map]
  constructor
  · rintro ⟨row,found,rfl⟩
    obtain ⟨member,met⟩ := List.mem_filter.mp found
    rw [same,Bool.and_eq_true] at met
    refine ⟨c.value row,?_,?_⟩
    · rw [← represents.entry,lookup_keyed represents.keyed member]
      rfl
    · rw [c.owner_row]
      exact ⟨met.2,(flag row member).mp met.1⟩
  · rintro ⟨v,there,inside,chosen⟩
    rw [← represents.entry] at there
    obtain ⟨row,found,rfl⟩ := Option.map_eq_some_iff.mp there
    obtain ⟨member,rfl⟩ := lookup_member found
    rw [c.owner_row] at inside chosen
    refine ⟨row,List.mem_filter.mpr ⟨member,?_⟩,rfl⟩
    rw [same,inside,Bool.and_true]
    exact (flag row member).mpr chosen

end Columns
end NdnCxx.Table
