import NdnCxx.Trie.Refinement

namespace NdnCxx.TrieWithPolicy
open PointerTree Trie

variable {K P V : Type} [DecidableEq K]

def storedKeys (s : TrieWithPolicy K P V) : Set (List K) := {name | stored s name ≠ none}

-- No more entries than the `max_size` that is set, if one is.
def Within (s : TrieWithPolicy K P V) : Prop := s.maxSize ≠ 0 → (storedKeys s).ncard ≤ s.maxSize

-- As in the runs with a constant `max_size`, but it may be set to anything at any time.
def Resizable (s : TrieWithPolicy K P V) : Operation K P V → Prop
  | .insert _ payload _ => payload ≠ none
  | .clear => payloadAt s.trie 0 = none
  | _ => True

-- An insert that adds an entry leaves no more of them than allowed.
def Keeps (policy : Policy) (s : TrieWithPolicy K P V) : Operation K P V → Prop
  | .insert key payload draw => (insert policy s key payload draw).2.2 = true → Within (insert policy s key payload draw).1
  | _ => True

-- An insert that adds an entry finds no more of them than allowed.
def Ready (policy : Policy) (s : TrieWithPolicy K P V) : Operation K P V → Prop
  | .insert key payload draw => (insert policy s key payload draw).2.2 = true → Within s
  | _ => True

def evicts : Policy → Bool
  | .lru | .fifo | .lfu => true
  | .counting | .persistent | .random => false

section Sizes
variable {policy : Policy} {s u : TrieWithPolicy K P V}

theorem storedKeys_count (synced : Synced s) : (storedKeys s).ncard = s.container.length := by
  have held : ∀ a ∈ s.container, payloadAt s.trie a ≠ none := fun a => (synced.linked a).mp
  have unique : (s.container.map (path s.trie)).Nodup := by
    refine List.Nodup.map_on ?_ synced.unique
    intro a first b second same
    exact path_injective synced.rooted (payload_live (held a first)) (payload_live (held b second)) same
  have keys : storedKeys s = ((s.container.map (path s.trie)).toFinset : Set (List K)) := by
    ext name
    rw [storedKeys,Set.mem_ofPred_eq,ne_eq,stored_none synced.rooted,List.coe_toFinset,Set.mem_ofPred_eq,List.mem_map,
      ← ne_eq,Option.ne_none_iff_exists']
    constructor
    · rintro ⟨a,found⟩
      obtain ⟨present,path⟩ := (findExact_iff synced.rooted).mp found
      exact ⟨a,(synced.linked a).mpr present,path⟩
    · rintro ⟨a,member,path⟩
      exact ⟨a,(findExact_iff synced.rooted).mpr ⟨held a member,path⟩⟩
  rw [keys,Set.ncard_coe_finset,List.toFinset_card_of_nodup unique,List.length_map]

theorem within_iff (synced : Synced s) : Within s ↔ (s.maxSize ≠ 0 → s.container.length ≤ s.maxSize) := by
  rw [Within,storedKeys_count synced]

omit [DecidableEq K] in
-- The branch that makes room takes one entry out, however many there are.
theorem room_length (s : TrieWithPolicy K P V) :
    (room s).maxSize = s.maxSize ∧ (s.maxSize ≠ 0 →
      ((room s).container.length < s.maxSize ↔ s.container.length ≤ s.maxSize)) := by
  rcases room_cases s with ⟨same,fits⟩ | ⟨first,rest,container,_,full,evicted⟩
  · rw [same]
    refine ⟨rfl,?_⟩
    intro limited
    have below := fits limited
    omega
  · rw [evicted]
    refine ⟨rfl,?_⟩
    intro _
    show (s.container.erase first).length < s.maxSize ↔ _
    rw [container,List.erase_cons_head,List.length_cons]
    omega

omit [DecidableEq K] in
theorem room_container (s : TrieWithPolicy K P V) (trie : Trie K P) :
    (room {s with trie := trie}).container = (room s).container := by
  obtain ⟨old,container,maxSize,memory⟩ := s
  unfold room full evict
  dsimp only
  split
  · cases container <;> rfl
  · rfl

omit [DecidableEq K] in
theorem policyInsert_length (kind : evicts policy = true) (s : TrieWithPolicy K P V) (item : ℕ) (draw : UInt32) :
    (policyInsert s item draw policy).1.container.length = (room s).container.length + 1 := by
  cases policy with
  | lru => exact (pushBack_perm (room s) item).length_eq
  | fifo => exact (pushBack_perm (room s) item).length_eq
  | lfu =>
    rw [← room_container s (setOrder s.trie item 0)]
    exact (multisetInsert_perm (room {s with trie := setOrder s.trie item 0}) item).length_eq
  | counting => cases kind
  | persistent => cases kind
  | random => cases kind

theorem insert_within_iff (kind : evicts policy = true) (synced : Synced s) {key : List K} {payload : P} {draw : UInt32}
    (added : (insert policy s key (some payload) draw).2.2 = true) :
    Within (insert policy s key (some payload) draw).1 ↔ Within s := by
  rcases insert_outcome policy synced key payload draw with ⟨u,a,done,_⟩ | ⟨middle,u,a,_,_,done,accepted,same⟩ | ⟨u,done,_⟩
  · rw [done] at added
    cases added
  · rw [done,within_iff accepted.synced,within_iff synced]
    have room := room_length {s with trie := middle}
    have grown := policyInsert_length kind {s with trie := middle} a draw
    rw [← same] at grown
    rw [accepted.untouched.maxSize,grown]
    exact imp_congr_right room.2
  · rw [done] at added
    cases added

end Sizes

section Runs
variable [DecidableEq P] {policy : Policy} {s u : TrieWithPolicy K P V}

theorem resizable_synced (synced : Synced s) {operation : Operation K P V} (resizable : Resizable s operation)
    (taken : step policy s operation = some u) : Synced u := by
  cases step_effect synced.rooted taken with
  | inserted key payload draw =>
    cases payload with
    | none => exact absurd rfl resizable
    | some payload => exact (insert_advanced policy synced key payload draw).synced
  | cleared => exact (clear_advanced policy synced resizable).synced
  | resized maxSize => exact ⟨synced.rooted,synced.pruned,synced.unique,synced.linked⟩
  | quiet seen => exact synced
  | missed absent seen => exact synced
  | removed held seen => exact synced_eraseNode synced (held.elim id (synced.linked _).mp)
  | touched held seen => exact (touched_advanced policy synced _ held).synced

omit [DecidableEq P] in
theorem keeps_iff (kind : evicts policy = true) (synced : Synced s) {operation : Operation K P V}
    (resizable : Resizable s operation) : Keeps policy s operation ↔ Ready policy s operation := by
  cases operation with
  | insert key payload draw =>
    cases payload with
    | none => exact absurd rfl resizable
    | some payload => exact forall_congr' (fun added => insert_within_iff kind synced added)
  | _ => exact Iff.rfl

-- Whatever is inserted, erased, looked up and set: the runs in which every insert leaves
-- at most `max_size` entries are those in which every insert finds at most that many.
theorem resizing_bound (kind : evicts policy = true) (key : K) (hook next maxSize : ℕ) (memory : P → V)
    (operations : List (Operation K P V)) (s : TrieWithPolicy K P V) :
    Runs (step policy) (fun s operation => Resizable s operation ∧ Keeps policy s operation)
        (construct key hook next maxSize memory) operations s ↔
      Runs (step policy) (fun s operation => Resizable s operation ∧ Ready policy s operation)
        (construct key hook next maxSize memory) operations s := by
  have start := construct_synced key hook next maxSize memory
  constructor
  · intro run
    refine run.exchange Synced start ?_ ?_
    · exact fun s operation next synced met taken => resizable_synced synced met.1 taken
    · exact fun s operation synced met => ⟨met.1,(keeps_iff kind synced met.1).mp met.2⟩
  · intro run
    refine run.exchange Synced start ?_ ?_
    · exact fun s operation next synced met taken => resizable_synced synced met.1 taken
    · exact fun s operation synced met => ⟨met.1,(keeps_iff kind synced met.1).mpr met.2⟩

end Runs

-- A bound of one is set on three entries: the next insert evicts one and leaves three.
theorem resized_below_entries : ∃ s, Runs (step .lru) Resizable (vacant 100)
    [addition [0] 5,addition [1] 6,addition [2] 7,.setMaxSize 1] s ∧ ¬Keeps .lru s (addition [3] 8) := by
  have run : Runs (step .lru) Resizable (vacant 100)
      ([] ++ [addition [0] 5] ++ [addition [1] 6] ++ [addition [2] 7] ++ [.setMaxSize 1]) _ :=
    .snoc (.snoc (.snoc (.snoc (.nil _) (by simp [Resizable,addition]) rfl) (by simp [Resizable,addition]) rfl)
      (by simp [Resizable,addition]) rfl) trivial rfl
  refine ⟨_,run,?_⟩
  intro keeps
  have synced := run.invariant Synced (construct_synced 0 0 0 100 _) 
    (fun s operation next synced met taken => resizable_synced synced met taken)
  have within := keeps rfl
  rw [within_iff (insert_advanced .lru synced [3] 8 0).synced] at within
  exact absurd (within (by decide)) (by decide)

-- The bound is set to one before the second insert, which takes the place of the first.
theorem resizing_bound_one : ∃ s, Runs (step .lru) (fun s operation => Resizable s operation ∧ Keeps .lru s operation)
    (vacant 100) [addition [0] 5,.setMaxSize 1,addition [0,1] 6] s ∧ s.container.length = 1 := by
  have start : Synced (vacant 100) := construct_synced 0 0 0 100 _
  have lowered : Runs (step .lru) (fun s operation => Resizable s operation ∧ Ready .lru s operation) (vacant 100)
      ([] ++ [addition [0] 5] ++ [.setMaxSize 1]) _ :=
    .snoc (.snoc (.nil _) ⟨by simp [Resizable,addition],fun _ => (within_iff start).mpr (by decide)⟩ rfl)
      ⟨trivial,trivial⟩ rfl
  have synced := lowered.invariant Synced start
    (fun s operation next synced met taken => resizable_synced synced met.1 taken)
  have ready : Runs (step .lru) (fun s operation => Resizable s operation ∧ Ready .lru s operation) (vacant 100)
      ([] ++ [addition [0] 5] ++ [.setMaxSize 1] ++ [addition [0,1] 6]) _ := .snoc lowered
    ⟨by simp [Resizable,addition],fun _ => (within_iff synced).mpr (by decide)⟩ rfl
  exact ⟨_,(resizing_bound rfl 0 0 0 100 _ _ _).mpr ready,by decide⟩

end NdnCxx.TrieWithPolicy
