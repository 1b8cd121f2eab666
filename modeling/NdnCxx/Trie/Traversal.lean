import NdnCxx.Lib.Traversal
import NdnCxx.Trie.Iterator
import NdnCxx.Trie.Synchrony

namespace NdnCxx.Trie
open PointerTree

variable {K P : Type} {t : Trie K P} {order : Enumeration}

theorem advance_traverses [DecidableEq K] (rooted : Rooted t) (order : Enumeration) :
    Traverses (advance t order) (Live t) (Ahead t order) where
  self live := .inl (under_self live)
  stays _ went := advance_live rooted went
  step live := advance_ahead rooted live

-- All nodes are below the root, which has nothing beside it.
theorem ahead_root (rooted : Rooted t) {b : ℕ} : Ahead t order 0 b ↔ Live t b := by
  have above : Live t b → Under t 0 b := by
    intro live
    refine ⟨live,?_⟩
    rw [path_root rooted]
    exact List.nil_prefix
  constructor
  · rintro (under | later)
    · exact under.1
    · obtain ⟨k,root⟩ := rooted.root
      cases later with
      | sibling linked _ _ | above linked _ =>
        rw [root] at linked
        cases linked
  · exact fun live => .inl (above live)

-- A walk that is at a node is past its parent.
theorem parent_past [DecidableEq K] (rooted : Rooted t) {a p : ℕ} {k : K} (linked : link t a = some (some p,k)) :
    ¬Ahead t order a p := by
  have below : path t p <+: path t a := by
    rw [path_step rooted linked]
    exact List.prefix_append _ _
  rintro (under | later)
  · have longer := under.2.length_le
    rw [path_step rooted linked,List.length_append,List.length_singleton] at longer
    omega
  · exact (later_apart rooted later).2 below

theorem live_finite (rooted : Rooted t) : Set.Finite {b | Live t b} :=
  (Set.finite_lt_nat t.next).subset (fun _ live => rooted.below live)

-- Whatever order the sets keep their elements in: `++` from the root comes to every node
-- once, to none before its parent, and then to the end.
theorem traversal_complete [DecidableEq K] (rooted : Rooted t) (order : Enumeration) :
    ∃ last, visited (advance t order) 0 last = none ∧
      (∀ n < last, ∃ a, visited (advance t order) 0 n = some a ∧ Live t a) ∧
      (∀ a, Live t a → ∃! n, n < last ∧ visited (advance t order) 0 n = some a) ∧
      ∀ n < last, ∀ a p k, visited (advance t order) 0 n = some a → link t a = some (some p,k) →
        ∃ m < n, visited (advance t order) 0 m = some p := by
  have traverses := advance_traverses rooted order
  have all : {b | Ahead t order 0 b} = {b | Live t b} := Set.ext (fun _ => ahead_root rooted)
  obtain ⟨last,ended,somewhere,each⟩ := traverses.visits_all rooted.zero (all ▸ live_finite rooted)
  refine ⟨last,ended,?_,?_,?_⟩
  · intro n before
    obtain ⟨a,here⟩ := somewhere n before
    exact ⟨a,here,traverses.visited_present rooted.zero here⟩
  · intro a live
    obtain ⟨n,before,here⟩ := (each a).mp ((ahead_root rooted).mpr live)
    exact ⟨n,⟨before,here⟩,fun m again => traverses.visited_once rooted.zero again.2 here⟩
  · intro n _ a p k here linked
    exact traverses.visited_before rooted.zero here ((ahead_root rooted).mpr (rooted.parents linked))
      (parent_past rooted linked)

-- `/0` and `/1` below the root.
def forked : Trie ℕ ℕ := (insert (insert (construct 0 0 0) [0] (some 5)).1 [1] (some 6)).1

theorem traversal_complete_forked : ∃ last, visited (advance forked ⟨id,fun _ => .refl _⟩) 0 last = none ∧
    ∀ a < 3, ∃! n, n < last ∧ visited (advance forked ⟨id,fun _ => .refl _⟩) 0 n = some a := by
  have start : Rooted (construct 0 0 0 : Trie ℕ ℕ) := TrieWithPolicy.construct_rooted 0 0 0
  obtain ⟨last,ended,_,each,_⟩ := traversal_complete (insert_rooted (insert_rooted start [0] (some 5)) [1] (some 6))
    ⟨id,fun _ => .refl _⟩
  refine ⟨last,ended,fun a bound => each a ?_⟩
  unfold Live
  interval_cases a <;> rfl

end NdnCxx.Trie
