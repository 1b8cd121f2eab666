import NdnCxx.Trie.WithPolicy
import NdnCxx.Lib.Recency

namespace NdnCxx.TrieWithPolicy
open PointerTree Trie

variable {K P V : Type}

def used (s : TrieWithPolicy K P V) : Option ℕ → Event (List K) P
  | none => .idle
  | some node => .use (path s.trie node)

-- What an operation does to the map that the trie stands for, as far as its caller
-- can tell.
def event [DecidableEq K] [DecidableEq P] (policy : Policy) (s : TrieWithPolicy K P V) :
    Operation K P V → Event (List K) P
  | .insert key (some payload) draw => .put key payload (insert policy s key (some payload) draw).2.2
  | .insert _ none _ => .idle
  | .erase key => .remove key
  | .eraseAt none => .idle
  | .eraseAt (some node) => .remove (path s.trie node)
  | .modify position mod => if (modify policy s position mod).2 then used s position else .idle
  | .findExact _ => .idle
  | .longestPrefixMatch key => used s (longestPrefixMatch policy s key).2
  | .longestPrefixMatchIf key pred => used s (longestPrefixMatchIf policy s key pred).2
  | .deepestPrefixMatch key order => used s ((deepestPrefixMatch policy s key order).bind Prod.snd)
  | .deepestPrefixMatchIf key pred order => used s (deepestPrefixMatchIf policy s key pred order).2
  | .clear => .clear
  | .setMaxSize _ => .idle

section Finding
variable [DecidableEq K] {s u : TrieWithPolicy K P V}

theorem findExact_iff (rooted : Rooted s.trie) {key : List K} {a : ℕ} :
    findExact s key = some a ↔ payloadAt s.trie a ≠ none ∧ path s.trie a = key := by
  have last := findFrom_last s.trie (fun _ => true) (rootFound s.trie) 0 key
  rw [findExact,find]
  generalize findFrom s.trie (fun _ => true) (rootFound s.trie) 0 key = result at last ⊢
  obtain ⟨found,reachLast,node⟩ := result
  cases reachLast with
  | false =>
    have nowhere : locate s.trie 0 key = none := last.symm
    constructor
    · intro given
      simp at given
    · intro given
      rw [(locate_iff rooted).mpr ⟨payload_live given.1,given.2⟩] at nowhere
      cases nowhere
  | true =>
    have here : locate s.trie 0 key = some node := last.symm
    obtain ⟨live,reached⟩ := (locate_iff rooted).mp here
    constructor
    · intro given
      by_cases free : payloadAt s.trie node = none
      · simp [free] at given
      · have same : node = a := by simpa [free] using given
        subst same
        exact ⟨free,reached⟩
    · intro given
      have same := path_injective rooted (payload_live given.1) live (given.2.trans reached.symm)
      subst same
      simp [given.1]

theorem erase_eq (s : TrieWithPolicy K P V) (key : List K) : erase s key = eraseAt s (findExact s key) := by
  rw [erase,findExact]
  dsimp only
  split
  · rfl
  · rfl

theorem find_held (key : List K) : ∀ b ∈ (find s.trie key).1, payloadAt s.trie b ≠ none :=
  findFrom_held _ rootFound_held 0 key

theorem findIf_held (key : List K) (pred : P → Bool) : ∀ b ∈ (findIf s.trie key pred).1, payloadAt s.trie b ≠ none :=
  findFrom_held pred rootFound_held 0 key

-- The plain deepest match looks up a node with a payload, or nothing.
theorem deepestPrefixMatch_cases {policy : Policy} {key : List K} {order : Enumeration} {found : Option ℕ}
    (taken : deepestPrefixMatch policy s key order = some (u,found)) :
    (u,found) = lookedUp policy s found ∧ ∀ b ∈ found, payloadAt s.trie b ≠ none := by
  have held := find_held (s := s) key
  unfold deepestPrefixMatch at taken
  generalize find s.trie key = result at held taken
  obtain ⟨first,reachLast,last⟩ := result
  dsimp only at held taken
  split at taken
  · split at taken
    · rename_i node given
      cases taken
      refine ⟨rfl,?_⟩
      intro b member
      cases member
      cases first with
      | none => exact findBelow_held _ (by simpa using given)
      | some a =>
        have same : a = node := by simpa using given
        exact same ▸ held a rfl
    · split at taken
      all_goals cases taken
      all_goals exact ⟨rfl,fun b member => by cases member⟩
  · cases taken
    exact ⟨rfl,fun b member => by cases member⟩

theorem deepestPrefixMatchIf_cases (policy : Policy) (s : TrieWithPolicy K P V) (key : List K) (pred : P → V → Bool)
    (order : Enumeration) : ∃ found, deepestPrefixMatchIf policy s key pred order = lookedUp policy s found ∧
      ∀ b ∈ found, payloadAt s.trie b ≠ none := by
  rw [deepestPrefixMatchIf]
  dsimp only
  split
  · exact ⟨_,rfl,fun b member => findBelow_held _ member⟩
  · exact ⟨none,rfl,fun b member => by cases member⟩

end Finding

theorem policyUpdate_eq (s : TrieWithPolicy K P V) (item : ℕ) (policy : Policy) :
    policyUpdate s item policy = policyLookup s item policy := by
  cases policy <;> rfl

section Effects
variable [DecidableEq K] [DecidableEq P] (policy : Policy)

-- All that an operation can do, with what its caller sees of it.
inductive Effect (s : TrieWithPolicy K P V) : Operation K P V → TrieWithPolicy K P V → Prop where
  | inserted (key : List K) (payload : Option P) (draw : UInt32) :
      Effect s (.insert key payload draw) (insert policy s key payload draw).1
  | cleared : Effect s .clear (clear s)
  | resized (maxSize : ℕ) : Effect s (.setMaxSize maxSize) {s with maxSize := maxSize}
  | quiet {operation : Operation K P V} : event policy s operation = .idle → Effect s operation s
  | missed {operation : Operation K P V} {key : List K} : findExact s key = none →
      event policy s operation = .remove key → Effect s operation s
  | removed {operation : Operation K P V} {node : ℕ} : payloadAt s.trie node ≠ none ∨ node ∈ s.container →
      event policy s operation = .remove (path s.trie node) → Effect s operation (eraseNode s node)
  | touched {operation : Operation K P V} {node : ℕ} {memory : P → V} : payloadAt s.trie node ≠ none →
      event policy s operation = .use (path s.trie node) →
      Effect s operation (policyLookup {s with memory := memory} node policy)

variable {policy} {s u : TrieWithPolicy K P V} {operation : Operation K P V}

theorem lookedUp_effect {found : Option ℕ} (held : ∀ b ∈ found, payloadAt s.trie b ≠ none)
    (seen : event policy s operation = used s (lookedUp policy s found).2) :
    Effect policy s operation (lookedUp policy s found).1 := by
  cases found with
  | none => exact .quiet seen
  | some node => exact .touched (held node rfl) seen

theorem modify_effect (position : Option ℕ) (mod : V → V) :
    Effect policy s (.modify position mod) (modify policy s position mod).1 := by
  cases position with
  | none => exact .quiet rfl
  | some node =>
    cases read : payloadAt s.trie node with
    | none =>
      have same : modify policy s (some node) mod = (s,false) := by simp only [modify,read]
      rw [same]
      apply Effect.quiet
      rw [event,same]
      rfl
    | some payload =>
      have same : modify policy s (some node) mod = (policyUpdate
          {s with memory := Function.update s.memory payload (mod (s.memory payload))} node policy,true) := by
        simp only [modify,read]
      rw [same,policyUpdate_eq]
      apply Effect.touched
      · simp [read]
      · rw [event,same]
        rfl

theorem step_effect (rooted : Rooted s.trie) (taken : step policy s operation = some u) : Effect policy s operation u := by
  cases operation with
  | insert key payload draw =>
    cases taken
    exact .inserted key payload draw
  | erase key =>
    cases taken
    rw [erase_eq]
    cases found : findExact s key with
    | none => exact .missed found rfl
    | some node =>
      obtain ⟨held,rfl⟩ := (findExact_iff rooted).mp found
      exact .removed (.inl held) rfl
  | eraseAt position =>
    cases position with
    | none =>
      cases taken
      exact .quiet rfl
    | some node =>
      rw [step] at taken
      split at taken
      · rename_i member
        cases taken
        exact .removed (.inr member) rfl
      · cases taken
  | modify position mod =>
    cases position with
    | none =>
      cases taken
      exact .quiet rfl
    | some node =>
      rw [step] at taken
      split at taken
      · cases taken
        exact modify_effect (some node) mod
      · cases taken
  | findExact key =>
    cases taken
    exact .quiet rfl
  | longestPrefixMatch key =>
    cases taken
    exact lookedUp_effect (find_held key) rfl
  | longestPrefixMatchIf key pred =>
    cases taken
    exact lookedUp_effect (findIf_held key _) rfl
  | deepestPrefixMatch key order =>
    obtain ⟨⟨v,found⟩,matched,rfl⟩ := Option.map_eq_some_iff.mp taken
    obtain ⟨same,held⟩ := deepestPrefixMatch_cases matched
    rw [same]
    apply lookedUp_effect held
    rw [event,matched,← same]
    rfl
  | deepestPrefixMatchIf key pred order =>
    cases taken
    obtain ⟨found,same,held⟩ := deepestPrefixMatchIf_cases policy s key pred order
    rw [same]
    apply lookedUp_effect held
    rw [event,same]
  | clear =>
    cases taken
    exact .cleared
  | setMaxSize maxSize =>
    cases taken
    exact .resized maxSize

end Effects
end NdnCxx.TrieWithPolicy
