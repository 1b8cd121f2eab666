import Mathlib

namespace NdnCxx

section Traversal
variable {A : Type*} (next : A → Option A)

-- Where a traversal is after some of its steps. No node is the end.
def visited (start : A) : ℕ → Option A
  | 0 => some start
  | n + 1 => (visited start n).bind next

end Traversal

-- A traversal keeps only the node it is at. `ahead a b`: with the node at `a`, `b` is
-- still to come, `a` itself included.
structure Traverses {A : Type*} (next : A → Option A) (present : A → Prop) (ahead : A → A → Prop) : Prop where
  self : ∀ {a}, present a → ahead a a
  stays : ∀ {a d}, present a → next a = some d → present d
  step : ∀ {a}, present a → ∀ b, (ahead a b ∧ b ≠ a) ↔ ∃ d, next a = some d ∧ ahead d b

namespace Traverses
variable {A : Type*} {next : A → Option A} {present : A → Prop} {ahead : A → A → Prop} {start : A}

theorem visited_present (traverses : Traverses next present ahead) (begun : present start) {n : ℕ} {a : A}
    (here : visited next start n = some a) : present a := by
  induction n generalizing a with
  | zero =>
    cases here
    exact begun
  | succ n ih =>
    obtain ⟨before,there,went⟩ := Option.bind_eq_some_iff.mp here
    exact traverses.stays (ih there) went

-- What is still to come is what there was to come at the start, less what has been
-- visited since.
theorem ahead_visited (traverses : Traverses next present ahead) (begun : present start) (n : ℕ) (b : A) :
    (∃ a, visited next start n = some a ∧ ahead a b) ↔ ahead start b ∧ ∀ m < n, visited next start m ≠ some b := by
  induction n with
  | zero => simp [visited]
  | succ n ih =>
    calc
      _ ↔ ∃ a, visited next start n = some a ∧ ∃ d, next a = some d ∧ ahead d b := by
        simp only [visited,Option.bind_eq_some_iff]
        constructor
        · rintro ⟨d,⟨a,there,went⟩,further⟩
          exact ⟨a,there,d,went,further⟩
        · rintro ⟨a,there,d,went,further⟩
          exact ⟨d,⟨a,there,went⟩,further⟩
      _ ↔ ∃ a, visited next start n = some a ∧ ahead a b ∧ b ≠ a := by
        refine exists_congr (fun a => and_congr_right (fun there => ?_))
        exact (traverses.step (traverses.visited_present begun there) b).symm
      _ ↔ (∃ a, visited next start n = some a ∧ ahead a b) ∧ visited next start n ≠ some b := by
        constructor
        · rintro ⟨a,there,further,other⟩
          refine ⟨⟨a,there,further⟩,?_⟩
          rw [there]
          exact fun same => other (Option.some.inj same).symm
        · rintro ⟨⟨a,there,further⟩,other⟩
          refine ⟨a,there,further,?_⟩
          rintro rfl
          exact other there
      _ ↔ _ := by
        rw [ih]
        constructor
        · rintro ⟨⟨first,earlier⟩,other⟩
          refine ⟨first,?_⟩
          intro m bound
          rcases Nat.lt_succ_iff_lt_or_eq.mp bound with lower | rfl
          · exact earlier m lower
          · exact other
        · rintro ⟨first,earlier⟩
          exact ⟨⟨first,fun m bound => earlier m (Nat.lt_succ_of_lt bound)⟩,earlier n (Nat.lt_succ_self n)⟩

-- No node is visited again.
theorem visited_once (traverses : Traverses next present ahead) (begun : present start) {n m : ℕ} {b : A}
    (first : visited next start n = some b) (second : visited next start m = some b) : n = m := by
  have apart : ∀ {n m}, visited next start n = some b → visited next start m = some b → ¬m < n := by
    intro n m later earlier lower
    have self := traverses.self (traverses.visited_present begun later)
    exact ((traverses.ahead_visited begun n b).mp ⟨b,later,self⟩).2 m lower earlier
  have upper := apart first second
  have lower := apart second first
  omega

theorem visited_ahead (traverses : Traverses next present ahead) (begun : present start) {n : ℕ} {b : A}
    (here : visited next start n = some b) : ahead start b :=
  ((traverses.ahead_visited begun n b).mp ⟨b,here,traverses.self (traverses.visited_present begun here)⟩).1

-- With finitely many nodes ahead of the start the traversal comes to its end.
theorem ends (traverses : Traverses next present ahead) (begun : present start) (finite : Set.Finite {b | ahead start b}) :
    ∃ n, visited next start n = none := by
  by_contra endless
  have somewhere : ∀ n, ∃ a, visited next start n = some a := fun n =>
    Option.ne_none_iff_exists'.mp (fun ended => endless ⟨n,ended⟩)
  choose node here using somewhere
  have injective : Function.Injective node := fun n m same =>
    traverses.visited_once begun (here n) (same ▸ here m)
  refine Set.infinite_range_of_injective injective (finite.subset ?_)
  rintro _ ⟨n,rfl⟩
  exact traverses.visited_ahead begun (here n)

-- There is a first end, and every node that was ahead of the start is visited before it.
theorem visits_all (traverses : Traverses next present ahead) (begun : present start) (finite : Set.Finite {b | ahead start b}) :
    ∃ last, visited next start last = none ∧ (∀ n < last, ∃ a, visited next start n = some a) ∧
      ∀ b, ahead start b ↔ ∃ n < last, visited next start n = some b := by
  classical
  have ended := traverses.ends begun finite
  refine ⟨Nat.find ended,Nat.find_spec ended,?_,?_⟩
  · intro n before
    exact Option.ne_none_iff_exists'.mp (Nat.find_min ended before)
  · intro b
    constructor
    · intro awaited
      by_contra missed
      have further := (traverses.ahead_visited begun (Nat.find ended) b).mpr ⟨awaited,fun m lower here => missed ⟨m,lower,here⟩⟩
      obtain ⟨a,here,_⟩ := further
      rw [Nat.find_spec ended] at here
      cases here
    · rintro ⟨n,_,here⟩
      exact traverses.visited_ahead begun here

-- A node that is never ahead of another comes before it.
theorem visited_before (traverses : Traverses next present ahead) (begun : present start) {n : ℕ} {a b : A}
    (here : visited next start n = some b) (awaited : ahead start a) (past : ¬ahead b a) :
    ∃ m < n, visited next start m = some a := by
  by_contra missed
  obtain ⟨c,there,further⟩ :=
    (traverses.ahead_visited begun n a).mpr ⟨awaited,fun m lower earlier => missed ⟨m,lower,earlier⟩⟩
  rw [here] at there
  cases there
  exact past further

end Traverses
end NdnCxx
