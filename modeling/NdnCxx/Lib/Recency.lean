import Mathlib

namespace NdnCxx

-- What a client sees of a store with keys.
inductive Event (K P : Type*) where
  | put (key : K) (value : P) (added : Bool)
  | remove (key : K)
  | use (key : K)
  | idle
  | clear

namespace Event
variable {K P : Type*} [DecidableEq K]

def removes (key : K) : Event K P → Bool
  | .remove other => other = key
  | .clear => true
  | .put _ _ _ | .use _ | .idle => false

def putUnder (key : K) : Event K P → Option P
  | .put other value _ => if other = key then some value else none
  | .remove _ | .use _ | .idle | .clear => none

-- The value first put under the key since it was last removed.
def firstSince (key : K) (events : List (Event K P)) : Option P :=
  (events.reverse.takeWhile (fun event => !removes key event)).reverse.findSome? (putUnder key)

theorem firstSince_nil (key : K) : firstSince key ([] : List (Event K P)) = none := rfl

theorem firstSince_snoc (key : K) (events : List (Event K P)) (event : Event K P) :
    firstSince key (events ++ [event]) =
      if removes key event then none else (firstSince key events).or (putUnder key event) := by
  unfold firstSince
  rw [List.reverse_append,List.reverse_singleton,List.singleton_append,List.takeWhile_cons]
  by_cases gone : removes key event = true
  · simp [gone]
  · simp [gone,List.findSome?_append]

end Event

section LastUse
variable {K : Type*} [DecidableEq K]

-- The position, counted from one, of the last entry of the history that uses the key.
def lastUse (key : K) (history : List (Option K)) : ℕ :=
  history.length - history.reverse.findIdx (fun used => used = some key)

theorem lastUse_snoc (key : K) (history : List (Option K)) (used : Option K) :
    lastUse key (history ++ [used]) = if used = some key then history.length + 1 else lastUse key history := by
  unfold lastUse
  rw [List.reverse_append,List.reverse_singleton,List.singleton_append,List.findIdx_cons]
  by_cases same : used = some key
  · simp [same]
  · simp [same]

end LastUse

-- A map that knows when each of its keys was last used.
structure Recency (K P : Type*) where
  clock : ℕ
  value : K → Option P
  time : K → ℕ

namespace Recency
variable {K P : Type*}

def initial : Recency K P := ⟨0,fun _ => none,fun _ => 0⟩

noncomputable def size (a : Recency K P) : ℕ := Set.ncard {k | a.value k ≠ none}

def Oldest (a : Recency K P) (k : K) : Prop := a.value k ≠ none ∧ ∀ other, a.value other ≠ none → a.time k ≤ a.time other

def empty (a : Recency K P) : Recency K P := {a with value := fun _ => none}

section Changes
variable [DecidableEq K]

def stamp (a : Recency K P) (k : K) (p : P) : Recency K P :=
  ⟨a.clock + 1,Function.update a.value k (some p),Function.update a.time k a.clock⟩

def drop (a : Recency K P) (k : K) : Recency K P := {a with value := Function.update a.value k none}

-- A bounded map that makes room by giving up its oldest entry. Where `moves` is not
-- set, using an entry does not make it younger.
inductive Step (moves : Bool) (capacity : ℕ) : Recency K P → Event K P → Recency K P → Prop where
  | again {a : Recency K P} {k : K} {p : P} : a.value k ≠ none → Step moves capacity a (.put k p false) a
  | add {a : Recency K P} {k : K} {p : P} : a.value k = none → a.size < capacity →
      Step moves capacity a (.put k p true) (a.stamp k p)
  | replace {a : Recency K P} {k oldest : K} {p : P} : a.value k = none → capacity ≤ a.size → a.Oldest oldest →
      Step moves capacity a (.put k p true) ((a.drop oldest).stamp k p)
  | remove {a : Recency K P} {k : K} : Step moves capacity a (.remove k) (a.drop k)
  | use {a : Recency K P} {k : K} {p : P} : a.value k = some p →
      Step moves capacity a (.use k) (if moves then a.stamp k p else a)
  | idle {a : Recency K P} : Step moves capacity a .idle a
  | clear {a : Recency K P} : Step moves capacity a .clear a.empty

theorem Step.put_time {moves : Bool} {capacity : ℕ} {a b : Recency K P} {k : K} {p : P}
    (taken : Step moves capacity a (.put k p true) b) :
    b.clock = a.clock + 1 ∧ b.time = Function.update a.time k a.clock := by
  cases taken with
  | add free room => exact ⟨rfl,rfl⟩
  | replace free full oldest => exact ⟨rfl,rfl⟩

end Changes

-- The list holds the entries of the map, from the oldest to the youngest.
structure Ordered (a : Recency K P) (entries : List (K × P)) : Prop where
  holds : ∀ k p, (k,p) ∈ entries ↔ a.value k = some p
  unique : (entries.map Prod.fst).Nodup
  sorted : entries.Pairwise (fun x y => a.time x.1 < a.time y.1)
  past : ∀ x ∈ entries, a.time x.1 < a.clock

namespace Ordered
variable {a : Recency K P} {entries : List (K × P)}

theorem initial : Ordered (Recency.initial : Recency K P) [] where
  holds k p := by simp [Recency.initial]
  unique := List.nodup_nil
  sorted := .nil
  past _ member := by cases member

theorem empty (a : Recency K P) : Ordered a.empty [] where
  holds k p := by simp [Recency.empty]
  unique := List.nodup_nil
  sorted := .nil
  past _ member := by cases member

theorem present (ordered : Ordered a entries) (k : K) : a.value k ≠ none ↔ k ∈ entries.map Prod.fst := by
  rw [← Option.isSome_iff_ne_none,Option.isSome_iff_exists]
  simp [← ordered.holds]

theorem size (ordered : Ordered a entries) : a.size = entries.length := by
  classical
  have keys : {k | a.value k ≠ none} = ((entries.map Prod.fst).toFinset : Set K) := by
    ext k
    simpa using ordered.present k
  rw [Recency.size,keys,Set.ncard_coe_finset,List.toFinset_card_of_nodup ordered.unique,List.length_map]

theorem oldest {x : K × P} {rest : List (K × P)} (ordered : Ordered a (x :: rest)) : a.Oldest x.1 := by
  refine ⟨(ordered.present x.1).mpr (by simp),?_⟩
  intro other held
  obtain ⟨y,member,same⟩ := List.mem_map.mp ((ordered.present other).mp held)
  rw [← same]
  rcases List.mem_cons.mp member with rfl | later
  · exact le_rfl
  · exact (List.rel_of_pairwise_cons ordered.sorted later).le

theorem later (ordered : Ordered a entries) {clock : ℕ} (grown : a.clock ≤ clock) :
    Ordered {a with clock := clock} entries :=
  ⟨ordered.holds,ordered.unique,ordered.sorted,fun x member => (ordered.past x member).trans_le grown⟩

theorem retain (ordered : Ordered a entries) (keeps : K → Bool) :
    Ordered {a with value := fun k => if keeps k then a.value k else none} (entries.filter (fun x => keeps x.1)) where
  holds j p := by
    rw [List.mem_filter,ordered.holds]
    by_cases kept : keeps j = true
    · simp [kept]
    · simp [kept]
  unique := (List.filter_sublist.map Prod.fst).nodup ordered.unique
  sorted := ordered.sorted.filter _
  past x member := ordered.past x (List.mem_of_mem_filter member)

variable [DecidableEq K]

theorem drop (ordered : Ordered a entries) (k : K) : Ordered (a.drop k) (entries.filter (fun x => x.1 ≠ k)) where
  holds j p := by
    rw [List.mem_filter,ordered.holds]
    by_cases same : j = k
    · simp [same,Recency.drop]
    · simp [same,Recency.drop]
  unique := (List.filter_sublist.map Prod.fst).nodup ordered.unique
  sorted := ordered.sorted.filter _
  past x member := ordered.past x (List.mem_of_mem_filter member)

theorem stamp (ordered : Ordered a entries) {k : K} (absent : a.value k = none) (p : P) :
    Ordered (a.stamp k p) (entries ++ [(k,p)]) := by
  have other : ∀ x ∈ entries, x.1 ≠ k := by
    intro x member same
    rw [← same,(ordered.holds x.1 x.2).mp member] at absent
    cases absent
  have times : ∀ x ∈ entries, (a.stamp k p).time x.1 = a.time x.1 := fun x member =>
    Function.update_of_ne (other x member) _ _
  have now : (a.stamp k p).time k = a.clock := Function.update_self _ _ _
  refine ⟨?_,?_,?_,?_⟩
  · intro j q
    by_cases same : j = k
    · subst same
      have gone : (j,q) ∉ entries := fun member => other _ member rfl
      simp [Recency.stamp,gone,eq_comm]
    · simp [Recency.stamp,same,ordered.holds]
  · rw [List.map_append,List.map_singleton,List.nodup_append]
    refine ⟨ordered.unique,List.nodup_singleton k,?_⟩
    intro j first j' second same
    obtain ⟨x,member,rfl⟩ := List.mem_map.mp first
    exact other x member (same.trans (List.mem_singleton.mp second))
  · refine List.pairwise_append.mpr ⟨?_,List.pairwise_singleton _ _,?_⟩
    · refine ordered.sorted.imp_of_mem ?_
      intro x y first second before
      rwa [times x first,times y second]
    · intro x first y second
      rw [List.mem_singleton.mp second,times x first,now]
      exact ordered.past x first
  · intro x member
    show (a.stamp k p).time x.1 < a.clock + 1
    rcases List.mem_append.mp member with old | new
    · rw [times x old]
      exact (ordered.past x old).trans (Nat.lt_succ_self _)
    · rw [List.mem_singleton.mp new,now]
      exact Nat.lt_succ_self _

-- The oldest entry is the first one.
theorem evict {x : K × P} {rest : List (K × P)} (ordered : Ordered a (x :: rest)) : Ordered (a.drop x.1) rest := by
  have apart : ∀ y ∈ rest, y.1 ≠ x.1 := by
    intro y member same
    have unique := ordered.unique
    rw [List.map_cons,List.nodup_cons,← same] at unique
    exact unique.1 (List.mem_map_of_mem member)
  have left : (x :: rest).filter (fun y => y.1 ≠ x.1) = rest := by
    rw [List.filter_cons_of_neg (by simp),List.filter_eq_self.mpr (fun y member => by simp [apart y member])]
  have dropped := ordered.drop x.1
  rwa [left] at dropped

-- A used entry goes behind all others.
theorem touch (ordered : Ordered a entries) (k : K) (p : P) :
    Ordered (a.stamp k p) (entries.filter (fun x => x.1 ≠ k) ++ [(k,p)]) := by
  have moved := (ordered.drop k).stamp (k := k) (by simp [Recency.drop]) p
  have same : (a.drop k).stamp k p = a.stamp k p := by simp [Recency.drop,Recency.stamp]
  rwa [same] at moved

end Ordered
end Recency
end NdnCxx
