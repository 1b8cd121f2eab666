import NdnCxx.Trie.Synchrony

namespace NdnCxx.TrieWithPolicy
open PointerTree Trie

variable {K P V : Type}

-- What no operation breaks, proper or not.
structure Shaped (key : K) (s : TrieWithPolicy K P V) : Prop where
  rooted : Rooted s.trie
  root : link s.trie 0 = some (none,key)

section Operations
variable {key : K} {s u : TrieWithPolicy K P V}

theorem construct_shaped (key : K) (hook next maxSize : ℕ) (memory : P → V) :
    Shaped key (construct key hook next maxSize memory) where
  rooted := construct_rooted key hook next
  root := by
    rw [construct,construct_link,if_pos rfl]

theorem eraseNode_shaped (shaped : Shaped key s) (node : ℕ) : Shaped key (eraseNode s node) := by
  by_cases live : Live s.trie node
  · have erased := erase_spec shaped.rooted live
    exact ⟨erased.rooted,erased.root.trans shaped.root⟩
  · have same := erase_dead live
    refine ⟨?_,?_⟩
    · rw [eraseNode,same]
      exact shaped.rooted
    · rw [eraseNode,same]
      exact shaped.root

theorem setOrder_shaped (shaped : Shaped key s) (a order : ℕ) : Shaped key {s with trie := setOrder s.trie a order} where
  rooted := setOrder_rooted shaped.rooted a order
  root := by
    rw [setOrder,link_assign]
    exact shaped.root

theorem container_shaped (shaped : Shaped key s) (same : u.trie = s.trie) : Shaped key u where
  rooted := same ▸ shaped.rooted
  root := same ▸ shaped.root

theorem room_shaped (shaped : Shaped key s) : Shaped key (room s) := by
  rcases room_cases s with ⟨same,_⟩ | ⟨first,rest,_,_,_,evicted⟩
  · rw [same]
    exact shaped
  · rw [evicted]
    exact eraseNode_shaped shaped first

theorem policyInsert_shaped (shaped : Shaped key s) (item : ℕ) (draw : UInt32) (policy : Policy) :
    Shaped key (policyInsert s item draw policy).1 := by
  have relabelled : ∀ order, Shaped key (evictingInsert {s with trie := setOrder s.trie item order} item multisetInsert).1 :=
    fun order => container_shaped (room_shaped (setOrder_shaped shaped item order)) rfl
  cases policy with
  | lru => exact container_shaped (room_shaped shaped) rfl
  | fifo => exact container_shaped (room_shaped shaped) rfl
  | lfu => exact relabelled 0
  | counting => exact container_shaped shaped rfl
  | persistent =>
    simp only [policyInsert,persistentInsert]
    split
    · exact shaped
    · exact container_shaped shaped rfl
  | random =>
    simp only [policyInsert,randomInsert]
    split
    · exact setOrder_shaped shaped item _
    · exact relabelled _

theorem policyLookup_shaped (shaped : Shaped key s) (item : ℕ) (policy : Policy) :
    Shaped key (policyLookup s item policy) := by
  cases policy with
  | lru => exact container_shaped shaped rfl
  | lfu => exact container_shaped (setOrder_shaped shaped item _) rfl
  | fifo => exact shaped
  | counting => exact shaped
  | persistent => exact shaped
  | random => exact shaped

variable [DecidableEq K]

theorem insert_shaped (shaped : Shaped key s) (policy : Policy) (name : List K) (payload : Option P) (draw : UInt32) :
    Shaped key (insert policy s name payload draw).1 := by
  have rooted := insert_rooted shaped.rooted name payload
  have root := insert_root shaped.rooted name payload
  rw [insert.eq_def]
  generalize Trie.insert s.trie name payload = result at rooted root
  obtain ⟨t,node,added⟩ := result
  have middle : Shaped key {s with trie := t} := ⟨rooted,root.trans shaped.root⟩
  have after := policyInsert_shaped middle node draw policy
  dsimp only
  split
  · split
    · exact after
    · have erased := eraseNode_shaped after node
      exact container_shaped erased rfl
  · exact middle

theorem clear_shaped (shaped : Shaped key s) : Shaped key (clear s) := by
  obtain ⟨rooted,root⟩ := clear_rooted shaped.rooted
  exact ⟨rooted,root.trans shaped.root⟩

theorem step_shaped [DecidableEq P] (policy : Policy) (shaped : Shaped key s) {operation : Operation K P V}
    (taken : step policy s operation = some u) : Shaped key u := by
  cases step_effect shaped.rooted taken with
  | inserted name payload draw => exact insert_shaped shaped policy name payload draw
  | cleared => exact clear_shaped shaped
  | resized maxSize => exact container_shaped shaped rfl
  | quiet seen => exact shaped
  | missed absent seen => exact shaped
  | removed held seen => exact eraseNode_shaped shaped _
  | touched held seen =>
    apply policyLookup_shaped
    exact container_shaped shaped rfl

theorem run_shaped [DecidableEq P] (policy : Policy) {hook next maxSize : ℕ} {memory : P → V}
    {operations : List (Operation K P V)}
    (run : Runs (step policy) (fun _ _ => True) (construct key hook next maxSize memory) operations s) : Shaped key s :=
  run.invariant (Shaped key) (construct_shaped key hook next maxSize memory)
    (fun _ _ _ before _ taken => step_shaped policy before taken)

theorem clear_payload (rooted : Rooted s.trie) : payloadAt (clear s).trie 0 = payloadAt s.trie 0 := by
  rw [clear,payloadAt,valueAt,clear_cells rooted,if_pos rfl,payloadAt,valueAt]
  cases s.trie.cells 0 <;> rfl

-- The root is found under the empty key as long as it holds a payload.
theorem findExact_root (rooted : Rooted s.trie) : findExact s [] = none ↔ payloadAt s.trie 0 = none := by
  constructor
  · intro absent
    by_contra held
    rw [(findExact_iff rooted).mpr ⟨held,path_root rooted⟩] at absent
    cases absent
  · intro free
    cases found : findExact s [] with
    | none => rfl
    | some a =>
      obtain ⟨held,path⟩ := (findExact_iff rooted).mp found
      have same := path_injective rooted (payload_live held) rooted.zero (path.trans (path_root rooted).symm)
      exact absurd (same ▸ free) held

-- `clear` gives back a new trie with the size limit and the objects of the old one,
-- unless there is a payload at the root, which it does not touch.
theorem clear_exact [DecidableEq P] (policy : Policy) {hook next maxSize : ℕ} {memory : P → V}
    {operations : List (Operation K P V)}
    (run : Runs (step policy) (fun _ _ => True) (construct key hook next maxSize memory) operations s) :
    ((∀ name, findExact (clear s) name = none) ∧ (clear s).container = [] ∧ Synced (clear s) ∧
      ∃ hook next, clear s = construct key hook next s.maxSize s.memory) ↔ payloadAt s.trie 0 = none := by
  have shaped := run_shaped policy run
  constructor
  · intro cleared
    rw [← clear_payload shaped.rooted]
    exact (findExact_root (clear_shaped shaped).rooted).mp (cleared.1 [])
  · intro free
    have fresh : clear s = construct key (orderAt s.trie 0) (s.trie.next - 1) s.maxSize s.memory := by
      rw [clear,construct,clear_construct shaped.rooted shaped.root free]
    have synced : Synced (clear s) := by
      rw [fresh]
      exact construct_synced _ _ _ _ _
    refine ⟨?_,rfl,synced,_,_,fresh⟩
    intro name
    cases found : findExact (clear s) name with
    | none => rfl
    | some a =>
      have held := ((findExact_iff synced.rooted).mp found).1
      rw [fresh] at held
      exact absurd (construct_payload _ _ _ a) held

end Operations

theorem clear_exact_below : ∃ s, Runs (step .lru) (fun _ _ => True) (vacant 2) [addition [0,1] 5] s ∧
    payloadAt s.trie 0 = none ∧ ∀ name, findExact (clear s) name = none := by
  have run : Runs (step .lru) (fun _ _ => True) (vacant 2) ([] ++ [addition [0,1] 5]) _ := .snoc (.nil _) trivial rfl
  have free : payloadAt (insert .lru (vacant 2) [0,1] (some 5) 0).1.trie 0 = none := by decide
  exact ⟨_,run,free,((clear_exact .lru run).mpr free).1⟩

theorem root_survives_clear : ∃ s, Runs (step .lru) (fun _ _ => True) (vacant 2) [addition [] 5] s ∧
    findExact (clear s) [] = some 0 ∧ (clear s).container = [] := by
  refine ⟨_,.snoc (.nil _) trivial rfl,?_,rfl⟩
  decide

end NdnCxx.TrieWithPolicy
