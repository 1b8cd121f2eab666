import Mathlib.Data.List.Infix

namespace NdnCxx.Prefixes

section Longest
variable {K α : Type*}

-- What is found under the longest prefix of `key` under which there is something.
def longest (lookup : List K → Option α) : List K → Option α
  | [] => lookup []
  | k :: key => (longest (fun rest => lookup (k :: rest)) key).or (lookup [])

theorem longest_congr {lookup other : List K → Option α} {key : List K}
    (same : ∀ name, name <+: key → lookup name = other name) : longest lookup key = longest other key := by
  induction key generalizing lookup other with
  | nil => exact same [] List.prefix_rfl
  | cons k key ih =>
    rw [longest,longest,same [] List.nil_prefix]
    congr 1
    exact ih (fun rest above => same (k :: rest) ((List.prefix_cons_inj k).mpr above))

-- Something at the empty prefix is found only where nothing else is.
theorem longest_or (lookup : List K → Option α) (found : Option α) (key : List K) :
    longest (fun name => if name = [] then (lookup []).or found else lookup name) key = (longest lookup key).or found := by
  cases key with
  | nil => rfl
  | cons k key =>
    rw [longest,longest,Option.or_assoc]
    rfl

theorem longest_none {lookup : List K → Option α} {key : List K} :
    longest lookup key = none ↔ ∀ name, name <+: key → lookup name = none := by
  induction key generalizing lookup with
  | nil =>
    simp only [longest,List.prefix_nil]
    exact ⟨fun absent name same => same ▸ absent,fun absent => absent [] rfl⟩
  | cons k key ih =>
    rw [longest,Option.or_eq_none_iff,ih]
    constructor
    · rintro ⟨longer,here⟩ name above
      cases name with
      | nil => exact here
      | cons j rest =>
        obtain ⟨rfl,inner⟩ := List.cons_prefix_cons.mp above
        exact longer rest inner
    · intro absent
      exact ⟨fun rest above => absent (k :: rest) ((List.prefix_cons_inj k).mpr above),absent [] List.nil_prefix⟩

-- No prefix of `key` longer than `name` leads to anything.
def Longest (lookup : List K → Option α) (key name : List K) : Prop :=
  name <+: key ∧ ∀ other, other <+: key → lookup other ≠ none → other.length ≤ name.length

theorem longest_found {lookup : List K → Option α} {key : List K} {value : α} (found : longest lookup key = some value) :
    ∃ name, Longest lookup key name ∧ lookup name = some value := by
  induction key generalizing lookup with
  | nil =>
    refine ⟨[],⟨List.prefix_rfl,?_⟩,found⟩
    intro other above _
    rw [List.prefix_nil.mp above]
  | cons k key ih =>
    rw [longest,Option.or_eq_some_iff] at found
    rcases found with longer | ⟨none,here⟩
    · obtain ⟨name,⟨above,greatest⟩,value⟩ := ih longer
      refine ⟨k :: name,⟨(List.prefix_cons_inj k).mpr above,?_⟩,value⟩
      intro other inside held
      cases other with
      | nil => exact Nat.zero_le _
      | cons j rest =>
        obtain ⟨rfl,inner⟩ := List.cons_prefix_cons.mp inside
        exact Nat.succ_le_succ (greatest rest inner held)
    · refine ⟨[],⟨List.nil_prefix,?_⟩,here⟩
      intro other inside held
      cases other with
      | nil => exact Nat.le_refl _
      | cons j rest =>
        obtain ⟨rfl,inner⟩ := List.cons_prefix_cons.mp inside
        exact absurd (longest_none.mp none rest inner) held

theorem Longest.unique {lookup : List K → Option α} {key name other : List K} (first : Longest lookup key name)
    (second : Longest lookup key other) (held : lookup name ≠ none) (also : lookup other ≠ none) : name = other := by
  have longer := first.2 other second.1 also
  have shorter := second.2 name first.1 held
  have inside := List.prefix_of_prefix_length_le first.1 second.1 shorter
  exact inside.eq_of_length (Nat.le_antisymm shorter longer)

theorem longest_some {lookup : List K → Option α} {key : List K} {value : α} :
    longest lookup key = some value ↔ ∃ name, Longest lookup key name ∧ lookup name = some value := by
  constructor
  · exact longest_found
  · rintro ⟨name,greatest,held⟩
    cases found : longest lookup key with
    | none =>
      rw [longest_none.mp found name greatest.1] at held
      cases held
    | some other =>
      obtain ⟨reached,also,value⟩ := longest_found found
      have same := greatest.unique also (by simp [held]) (by simp [value])
      subst same
      exact value.symm.trans held

-- Where something is found below, it does not matter what is found at the top.
theorem longest_below {lookup other : List K → Option α} {key : List K}
    (same : ∀ name, name ≠ [] → lookup name = other name)
    (held : ∃ name, name ≠ [] ∧ name <+: key ∧ lookup name ≠ none) : longest lookup key = longest other key := by
  obtain ⟨name,proper,above,found⟩ := held
  cases key with
  | nil => exact absurd (List.prefix_nil.mp above) proper
  | cons k key =>
    have longer : longest (fun rest => lookup (k :: rest)) key = longest (fun rest => other (k :: rest)) key :=
      longest_congr (fun rest _ => same (k :: rest) (List.cons_ne_nil k rest))
    rw [longest,longest,← longer]
    cases result : longest (fun rest => lookup (k :: rest)) key with
    | some value => rfl
    | none =>
      cases name with
      | nil => exact absurd rfl proper
      | cons j rest =>
        obtain ⟨rfl,inner⟩ := List.cons_prefix_cons.mp above
        exact absurd (longest_none.mp result rest inner) found

end Longest
end NdnCxx.Prefixes
