import Mathlib

namespace NdnCxx.Table

section Statements
variable {Row Key : Type*}

-- `UPDATE … SET … WHERE …`.
def update (rows : List Row) (meets : Row → Bool) (set : Row → Row) : List Row :=
  rows.map (fun row => if meets row then set row else row)

-- `INSERT`; a second row with the same primary key is a constraint failure and changes
-- nothing.
def insert [DecidableEq Key] (key : Row → Key) (rows : List Row) (row : Row) : List Row :=
  if rows.any (fun other => decide (key other = key row)) then rows else rows ++ [row]

def Keyed (key : Row → Key) (rows : List Row) : Prop := (rows.map key).Nodup

theorem update_map {α : Type*} {set : Row → Row} (column : Row → α) (kept : ∀ row, column (set row) = column row)
    (rows : List Row) (meets : Row → Bool) : (update rows meets set).map column = rows.map column := by
  rw [update,List.map_map]
  refine List.map_congr_left ?_
  intro row _
  rw [Function.comp_apply]
  split
  · exact kept row
  · rfl

theorem update_keyed {key : Row → Key} {set : Row → Row} (kept : ∀ row, key (set row) = key row) {rows : List Row}
    (keyed : Keyed key rows) (meets : Row → Bool) : Keyed key (update rows meets set) := by
  rwa [Keyed,update_map key kept]

theorem insert_keyed [DecidableEq Key] {key : Row → Key} {rows : List Row} (keyed : Keyed key rows) (row : Row) :
    Keyed key (insert key rows row) := by
  unfold insert
  split
  · exact keyed
  · rename_i fresh
    rw [Keyed,List.map_append,List.map_singleton]
    refine List.nodup_append.mpr ⟨keyed,List.nodup_singleton _,?_⟩
    rintro _ member _ last rfl
    rw [List.mem_singleton] at last
    obtain ⟨other,present,same⟩ := List.mem_map.mp member
    exact fresh (List.any_eq_true.mpr ⟨other,present,decide_eq_true (same.trans last)⟩)

end Statements

-- A table in which one row of each group can be the marked one.
structure Marking (Row Group Key : Type*) where
  key : Row → Key
  group : Row → Group
  marked : Row → Bool
  mark : Bool → Row → Row
  key_mark : ∀ mark' row, key (mark mark' row) = key row
  group_mark : ∀ mark' row, group (mark mark' row) = group row
  marked_mark : ∀ mark' row, marked (mark mark' row) = mark'

namespace Marking
variable {Row Group Key : Type*} [DecidableEq Group] [DecidableEq Key] (m : Marking Row Group Key)

-- The marked rows of a group, by their keys.
def defaults (rows : List Row) (g : Group) : List Key :=
  (rows.filter (fun row => m.marked row && decide (m.group row = g))).map m.key

-- The two statements that move the mark: it is taken off the group and set on the row
-- with the key.
def reset (rows : List Row) (g : Group) : List Row :=
  update rows (fun row => m.marked row && decide (m.group row = g)) (m.mark false)

def set (rows : List Row) (g : Group) (k : Key) : List Row :=
  update rows (fun row => decide (m.group row = g) && decide (m.key row = k)) (m.mark true)

def choose (rows : List Row) (g : Group) (k : Key) : List Row := m.set (m.reset rows g) g k

def Stored (rows : List Row) (g : Group) (k : Key) : Prop := ∃ row ∈ rows, m.group row = g ∧ m.key row = k

instance (rows : List Row) (g : Group) (k : Key) : Decidable (m.Stored rows g k) :=
  inferInstanceAs (Decidable (∃ row ∈ rows, m.group row = g ∧ m.key row = k))

variable {m}

omit [DecidableEq Key] in
theorem defaults_update {rows : List Row} {set : Row → Row} (key : ∀ row, m.key (set row) = m.key row)
    (group : ∀ row, m.group (set row) = m.group row) (g : Group) (meets : Row → Bool) :
    m.defaults (update rows meets set) g = (rows.filter (fun row =>
      m.marked (if meets row then set row else row) && decide (m.group row = g))).map m.key := by
  unfold defaults update
  rw [List.filter_map,List.map_map]
  have keys : m.key ∘ (fun row => if meets row then set row else row) = m.key := by
    funext row
    rw [Function.comp_apply]
    split
    · exact key row
    · rfl
  have groups : ∀ row, m.group (if meets row then set row else row) = m.group row := by
    intro row
    split
    · exact group row
    · rfl
  rw [keys]
  congr 1
  refine List.filter_congr ?_
  intro row _
  simp only [Function.comp_apply,groups]

omit [DecidableEq Key] in
theorem defaults_reset (rows : List Row) (g other : Group) :
    m.defaults (m.reset rows g) other = if other = g then [] else m.defaults rows other := by
  rw [reset,defaults_update (m.key_mark false) (m.group_mark false)]
  split
  · rename_i same
    rw [List.map_eq_nil_iff,List.filter_eq_nil_iff]
    intro row _
    by_cases held : m.marked row = true
    · by_cases here : m.group row = g <;> simp [held,here,same,m.marked_mark]
    · simp [held]
  · rename_i apart
    rw [defaults]
    congr 1
    refine List.filter_congr ?_
    intro row _
    by_cases here : m.group row = g
    · simp [here,Ne.symm apart]
    · simp [here]

-- The rows that the second statement finds.
def chosen (rows : List Row) (g : Group) (k : Key) : List Key :=
  (rows.filter (fun row => decide (m.group row = g) && decide (m.key row = k))).map m.key

theorem defaults_set {rows : List Row} {g : Group} (bare : m.defaults rows g = []) (k : Key) (other : Group) :
    m.defaults (m.set rows g k) other = if other = g then m.chosen rows g k else m.defaults rows other := by
  rw [set,defaults_update (m.key_mark true) (m.group_mark true)]
  split
  · rename_i same
    subst same
    rw [chosen]
    congr 1
    refine List.filter_congr ?_
    intro row member
    have unmarked := List.filter_eq_nil_iff.mp (List.map_eq_nil_iff.mp bare) row member
    by_cases here : m.group row = other
    · by_cases meant : m.key row = k
      · simp [here,meant,m.marked_mark]
      · simpa [here,meant] using unmarked
    · simp [here]
  · rename_i apart
    rw [defaults]
    congr 1
    refine List.filter_congr ?_
    intro row _
    by_cases here : m.group row = g
    · simp [here,Ne.symm apart]
    · simp [here]

theorem chosen_reset (rows : List Row) (g other : Group) (k : Key) :
    m.chosen (m.reset rows g) other k = m.chosen rows other k := by
  have fields := update_map (fun row => (m.group row,m.key row))
    (fun row => Prod.ext (m.group_mark false row) (m.key_mark false row)) rows
    (fun row => m.marked row && decide (m.group row = g))
  have through : ∀ rows : List Row, m.chosen rows other k =
      ((rows.map (fun row => (m.group row,m.key row))).filter (fun pair => decide (pair.1 = other) && decide (pair.2 = k))).map
        Prod.snd := by
    intro rows
    rw [chosen,List.filter_map,List.map_map]
    rfl
  rw [through,through,reset,fields]

-- A primary key picks at most one row.
theorem chosen_keyed {rows : List Row} (keyed : Keyed m.key rows) (g : Group) (k : Key) :
    m.chosen rows g k = if m.Stored rows g k then [k] else [] := by
  have only : ∀ key ∈ m.chosen rows g k, key = k := by
    intro key member
    obtain ⟨row,found,rfl⟩ := List.mem_map.mp member
    have meets := (List.mem_filter.mp found).2
    simp only [Bool.and_eq_true,decide_eq_true_eq] at meets
    exact meets.2
  have unique : (m.chosen rows g k).Nodup := List.Nodup.sublist (List.filter_sublist.map m.key) keyed
  have repeated := List.eq_replicate_of_mem only
  split
  · rename_i stored
    obtain ⟨row,member,here,meant⟩ := stored
    have found : k ∈ m.chosen rows g k :=
      List.mem_map.mpr ⟨row,List.mem_filter.mpr ⟨member,by simp [here,meant]⟩,meant⟩
    rw [repeated,List.nodup_replicate] at unique
    have positive := List.length_pos_of_mem found
    rw [repeated,Nat.le_antisymm unique positive]
    rfl
  · rename_i absent
    rw [chosen,List.map_eq_nil_iff,List.filter_eq_nil_iff]
    intro row member meets
    simp only [Bool.and_eq_true,decide_eq_true_eq] at meets
    exact absent ⟨row,member,meets⟩

-- After the two statements the group has the row with the key for its default, or
-- none where there is no such row; the other groups have theirs.
theorem defaults_choose {rows : List Row} (keyed : Keyed m.key rows) (g : Group) (k : Key) (other : Group) :
    m.defaults (m.choose rows g k) other =
      if other = g then if m.Stored rows g k then [k] else [] else m.defaults rows other := by
  have bare : m.defaults (m.reset rows g) g = [] := by rw [defaults_reset,if_pos rfl]
  rw [choose,defaults_set bare,chosen_reset,chosen_keyed keyed]
  split
  · rfl
  · rename_i apart
    rw [defaults_reset,if_neg apart]

-- Unique keys, and no group with two defaults.
structure Single (m : Marking Row Group Key) (rows : List Row) : Prop where
  keyed : Keyed m.key rows
  single : ∀ g, (m.defaults rows g).length ≤ 1

omit [DecidableEq Key] in
theorem single_nil : m.Single [] := ⟨List.nodup_nil,fun _ => Nat.zero_le _⟩

theorem choose_single {rows : List Row} (single : m.Single rows) (g : Group) (k : Key) : m.Single (m.choose rows g k) where
  keyed := update_keyed (m.key_mark true) (update_keyed (m.key_mark false) single.keyed _) _
  single other := by
    rw [defaults_choose single.keyed]
    split
    · split
      · exact Nat.le_refl 1
      · exact Nat.zero_le 1
    · exact single.single other

theorem defaults_insert {rows : List Row} {row : Row} (unmarked : m.marked row = false) (g : Group) :
    m.defaults (insert m.key rows row) g = m.defaults rows g := by
  unfold insert defaults
  split
  · rfl
  · simp [unmarked]

theorem insert_single {rows : List Row} (single : m.Single rows) {row : Row} (unmarked : m.marked row = false) :
    m.Single (insert m.key rows row) where
  keyed := insert_keyed single.keyed row
  single g := by
    rw [defaults_insert unmarked]
    exact single.single g

omit [DecidableEq Key] in
-- A statement that sets other columns.
theorem defaults_columns {rows : List Row} {set : Row → Row} (key : ∀ row, m.key (set row) = m.key row)
    (group : ∀ row, m.group (set row) = m.group row) (marked : ∀ row, m.marked (set row) = m.marked row)
    (meets : Row → Bool) (g : Group) : m.defaults (update rows meets set) g = m.defaults rows g := by
  rw [defaults_update key group,defaults]
  congr 1
  refine List.filter_congr ?_
  intro row _
  split
  · rw [marked]
  · rfl

omit [DecidableEq Key] in
theorem update_single {rows : List Row} (single : m.Single rows) {set : Row → Row} (key : ∀ row, m.key (set row) = m.key row)
    (group : ∀ row, m.group (set row) = m.group row) (marked : ∀ row, m.marked (set row) = m.marked row)
    (meets : Row → Bool) : m.Single (update rows meets set) where
  keyed := update_keyed key single.keyed meets
  single g := by
    rw [defaults_columns key group marked]
    exact single.single g

end Marking
end NdnCxx.Table
