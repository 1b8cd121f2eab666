import NdnCxx.Trie.Refinement

namespace NdnCxx.TrieWithPolicy
open PointerTree Trie

variable {K P V : Type}

-- Only the first of the two list policies relocates what is used.
def moves : Policy → Bool
  | .lru => true
  | .fifo | .lfu | .counting | .persistent | .random => false

section Order
variable {policy : Policy} {s : TrieWithPolicy K P V}

theorem policyInsert_list (kind : policy = .lru ∨ policy = .fifo) (s : TrieWithPolicy K P V) (item : ℕ) (draw : UInt32) :
    policyInsert s item draw policy = (pushBack (room s) item,true) := by
  rcases kind with rfl | rfl
  · rfl
  · rfl

-- A new node goes behind all others; in a full container the first one is gone.
theorem pushBack_entries {item : ℕ} {payload : P} (pending : Pending s item) (held : payloadAt s.trie item = some payload) :
    ((s.maxSize ≠ 0 → s.container.length < s.maxSize) ∧
      entries (pushBack (room s) item) = entries s ++ [(path s.trie item,payload)]) ∨
    ∃ oldest rest, entries s = oldest :: rest ∧ s.maxSize ≤ s.container.length ∧
      entries (pushBack (room s) item) = rest ++ [(path s.trie item,payload)] := by
  have untouched := (room_pending pending).2
  have kept : payloadAt (room s).trie item = some payload := untouched.payload.trans held
  have placed : entries (pushBack (room s) item) = entries (room s) ++ [(path s.trie item,payload)] := by
    rw [← untouched.path]
    exact entriesOf_snoc _ _ kept
  rw [placed]
  rcases room_cases s with ⟨same,fits⟩ | ⟨first,rest,container,_,full,evicted⟩
  · rw [same]
    exact .inl ⟨fits,rfl⟩
  · have members : ∀ a ∈ first :: rest, payloadAt s.trie a ≠ none := fun a member =>
      ((pending.linked a).mp (container ▸ member)).2
    have unique := pending.unique
    rw [container,List.nodup_cons] at unique
    have erased := erase_spec pending.rooted (payload_live (members first (.head _)))
    have left : entries (eraseNode s first) = entriesOf s.trie rest := by
      show entriesOf (Trie.erase s.trie first).1 (s.container.erase first) = _
      rw [container,List.erase_cons_head]
      have apart : ∀ a ∈ rest, a ≠ first := fun a member same => unique.1 (same ▸ member)
      apply entriesOf_congr
      · intro a member
        rw [erased.payloads,if_neg (apart a member)]
      · intro a member
        exact erased.paths a (apart a member) (members a (.tail _ member))
    obtain ⟨oldest,read⟩ := Option.ne_none_iff_exists'.mp (members first (.head _))
    refine .inr ⟨(path s.trie first,oldest),entriesOf s.trie rest,?_,full,by rw [evicted,left]⟩
    rw [entries,container]
    simp [entriesOf,read]

variable [DecidableEq K]

theorem insert_entries (kind : policy = .lru ∨ policy = .fifo) (synced : Synced s) (name : List K) (payload : P)
    (draw : UInt32) :
    (∃ u a, insert policy s name (some payload) draw = (u,some a,false) ∧ stored s name ≠ none ∧
      entries u = entries s) ∨
    (∃ u a, insert policy s name (some payload) draw = (u,some a,true) ∧ stored s name = none ∧
      (((s.maxSize ≠ 0 → s.container.length < s.maxSize) ∧ entries u = entries s ++ [(name,payload)]) ∨
      ∃ oldest rest, entries s = oldest :: rest ∧ s.maxSize ≤ s.container.length ∧
        entries u = rest ++ [(name,payload)])) := by
  have members : ∀ a ∈ s.container, payloadAt s.trie a ≠ none := fun a => (synced.linked a).mp
  rcases insert_outcome policy synced name payload draw with ⟨u,a,done,present,after⟩ |
    ⟨middle,u,a,inserted,added,done,accepted,rfl⟩ | ⟨u,done,_,_,_⟩
  · refine .inl ⟨_,a,done,?_,?_⟩
    · rw [ne_eq,stored_none synced.rooted,(findExact_iff synced.rooted).mpr ⟨present.held,present.path⟩]
      simp
    · exact entriesOf_congr (fun b _ => present.kept.payloads b) (fun b member => present.kept.paths b (members b member))
  · have pending := insert_pending synced inserted added
    have rooted : Rooted middle := pending.rooted
    have apart : ∀ b ∈ s.container, b ≠ a := fun b member same => members b member (same ▸ added.free)
    have before : entries {s with trie := middle} = entries s := by
      apply entriesOf_congr
      · intro b member
        rw [added.payloads,if_neg (apart b member)]
      · exact fun b member => added.paths b (members b member)
    have own : payloadAt middle a = some payload := by rw [added.payloads,if_pos rfl]
    have placed := pushBack_entries pending own
    rw [before,added.path] at placed
    refine .inr ⟨_,a,done,added_absent synced.rooted rooted added,?_⟩
    rw [policyInsert_list kind]
    exact placed
  · have refused : (insert policy s name (some payload) draw).2.1 = none := by rw [done]
    exact absurd refused (insert_accepts (fun t item => by rw [policyInsert_list kind]) s name _)

theorem entries_splice (synced : Synced s) {node : ℕ} {payload : P} (held : payloadAt s.trie node = some payload) :
    entries (splice s node) =
      (entries s).filter (fun entry => entry.1 ≠ path s.trie node) ++ [(path s.trie node,payload)] := by
  have present : payloadAt s.trie node ≠ none := by simp [held]
  have erased := entriesOf_erase synced.rooted synced.unique (fun a => (synced.linked a).mp) present
  unfold entries
  rw [← erased]
  exact entriesOf_snoc s.trie _ held

theorem entries_eraseNode (synced : Synced s) {node : ℕ} (held : payloadAt s.trie node ≠ none) :
    entries (eraseNode s node) = (entries s).filter (fun entry => entry.1 ≠ path s.trie node) := by
  have erased := erase_spec synced.rooted (payload_live held)
  unfold entries
  rw [← entriesOf_erase synced.rooted synced.unique (fun a => (synced.linked a).mp) held]
  have apart : ∀ a ∈ s.container.erase node, a ≠ node ∧ payloadAt s.trie a ≠ none := fun a member =>
    ⟨(synced.unique.mem_erase_iff.mp member).1,(synced.linked a).mp (List.mem_of_mem_erase member)⟩
  apply entriesOf_congr
  · intro a member
    show payloadAt (Trie.erase s.trie node).1 a = _
    rw [erased.payloads,if_neg (apart a member).1]
  · intro a member
    exact erased.paths a (apart a member).1 (apart a member).2

end Order

section Simulation
variable {policy : Policy} {s u : TrieWithPolicy K P V} {capacity : ℕ} {a : Recency (List K) P}

-- The container is the list of the abstract map's entries by age.
structure Related (capacity : ℕ) (s : TrieWithPolicy K P V) (a : Recency (List K) P) : Prop where
  synced : Synced s
  maxSize : s.maxSize = capacity
  ordered : a.Ordered (entries s)

theorem construct_related (key : K) (hook next capacity : ℕ) (memory : P → V) :
    Related capacity (construct key hook next capacity memory) Recency.initial :=
  ⟨construct_synced key hook next capacity memory,rfl,Recency.Ordered.initial⟩

theorem Related.congr (related : Related capacity s a) (trie : u.trie = s.trie) (container : u.container = s.container)
    (maxSize : u.maxSize = s.maxSize) : Related capacity u a := by
  obtain ⟨t,c,m,memory⟩ := u
  cases trie
  cases container
  cases maxSize
  exact ⟨⟨related.synced.rooted,related.synced.pruned,related.synced.unique,related.synced.linked⟩,related.maxSize,
    related.ordered⟩

theorem Related.length (related : Related capacity s a) : a.size = s.container.length := by
  rw [related.ordered.size]
  exact entriesOf_length (fun b => (related.synced.linked b).mp)

variable [DecidableEq K]

theorem policyLookup_simulated (kind : policy = .lru ∨ policy = .fifo) (related : Related capacity s a) {node : ℕ}
    (held : payloadAt s.trie node ≠ none) :
    ∃ b, Recency.Step (moves policy) capacity a (.use (path s.trie node)) b ∧
      Related capacity (policyLookup s node policy) b := by
  obtain ⟨payload,read⟩ := Option.ne_none_iff_exists'.mp held
  have value : a.value (path s.trie node) = some payload :=
    (related.ordered.holds _ _).mp ((entries_mem related.synced _ _).mpr ⟨node,read,rfl⟩)
  have rearranged := policyLookup_rearranged policy related.synced held
  refine ⟨_,.use value,rearranged.synced,rearranged.maxSize.trans related.maxSize,?_⟩
  rcases kind with rfl | rfl
  · have spliced := entries_splice related.synced read
    show (a.stamp (path s.trie node) payload).Ordered (entries (splice s node))
    rw [spliced]
    exact related.ordered.touch (path s.trie node) payload
  · exact related.ordered

theorem eraseNode_simulated (related : Related capacity s a) {node : ℕ} (held : payloadAt s.trie node ≠ none) :
    ∃ b, Recency.Step (moves policy) capacity a (.remove (path s.trie node)) b ∧
      Related capacity (eraseNode s node) b := by
  refine ⟨_,.remove,synced_eraseNode related.synced held,related.maxSize,?_⟩
  rw [entries_eraseNode related.synced held]
  exact related.ordered.drop (path s.trie node)

theorem insert_simulated (kind : policy = .lru ∨ policy = .fifo) (limited : capacity ≠ 0) (related : Related capacity s a)
    (name : List K) (payload : P) (draw : UInt32) :
    ∃ b, Recency.Step (moves policy) capacity a
        (.put name payload (insert policy s name (some payload) draw).2.2) b ∧
      Related capacity (insert policy s name (some payload) draw).1 b := by
  have advanced := insert_advanced policy related.synced name payload draw
  have value : ∀ {key : List K} {p : P}, a.value key = some p ↔ stored s key = some p := fun {key p} =>
    ((related.ordered.holds key p).symm).trans (entries_stored related.synced key p)
  have values : ∀ key, a.value key = stored s key := fun key => Option.ext (fun p => value)
  have after : ∀ {b}, b.Ordered (entries (insert policy s name (some payload) draw).1) →
      Related capacity (insert policy s name (some payload) draw).1 b := fun ordered =>
    ⟨advanced.synced,advanced.maxSize.trans related.maxSize,ordered⟩
  rcases insert_entries kind related.synced name payload draw with ⟨u,node,done,present,same⟩ |
    ⟨u,node,done,absent,⟨fits,longer⟩ | ⟨oldest,rest,before,full,shifted⟩⟩
  · rw [done] at after ⊢
    refine ⟨a,.again (by rwa [values]),after ?_⟩
    rw [same]
    exact related.ordered
  · rw [done] at after ⊢
    have free : a.value name = none := (values name).trans absent
    refine ⟨_,.add free ?_,after ?_⟩
    · rw [related.length,← related.maxSize]
      exact fits (by rwa [related.maxSize])
    · rw [longer]
      exact related.ordered.stamp free payload
  · rw [done] at after ⊢
    have free : a.value name = none := (values name).trans absent
    have ordered := related.ordered
    rw [before] at ordered
    refine ⟨_,.replace free ?_ ordered.oldest,after ?_⟩
    · rw [related.length,← related.maxSize]
      exact full
    · rw [shifted]
      refine ordered.evict.stamp ?_ payload
      by_cases same : name = oldest.1
      · simp [Recency.drop,same]
      · simp [Recency.drop,same,free]

theorem missed_simulated (related : Related capacity s a) {name : List K} (absent : findExact s name = none) :
    ∃ b, Recency.Step (moves policy) capacity a (.remove name) b ∧ Related capacity s b := by
  refine ⟨_,.remove,related.synced,related.maxSize,?_⟩
  have others : ∀ entry ∈ entries s, entry.1 ≠ name := by
    intro entry member same
    have read := (entries_stored related.synced entry.1 entry.2).mp member
    rw [same,(stored_none related.synced.rooted).mpr absent] at read
    cases read
  have dropped := related.ordered.drop name
  rwa [List.filter_eq_self.mpr (fun entry member => by simp [others entry member])] at dropped

theorem step_simulated [DecidableEq P] (kind : policy = .lru ∨ policy = .fifo) (limited : capacity ≠ 0)
    (related : Related capacity s a) {operation : Operation K P V} (proper : Proper s operation)
    (taken : step policy s operation = some u) :
    ∃ b, Recency.Step (moves policy) capacity a (event policy s operation) b ∧ Related capacity u b := by
  have synced := related.synced
  cases step_effect synced.rooted taken with
  | inserted name payload draw =>
    cases payload with
    | none => exact absurd rfl proper
    | some payload => exact insert_simulated kind limited related name payload draw
  | cleared =>
    have advanced := clear_advanced policy synced proper
    exact ⟨_,.clear,advanced.synced,advanced.maxSize.trans related.maxSize,Recency.Ordered.empty a⟩
  | resized maxSize => cases proper
  | quiet seen =>
    rw [seen]
    exact ⟨a,.idle,related⟩
  | missed absent seen =>
    rw [seen]
    exact missed_simulated related absent
  | removed held seen =>
    rw [seen]
    exact eraseNode_simulated related (held.elim id (synced.linked _).mp)
  | @touched _ node memory held seen =>
    have written : Related capacity {s with memory := memory} a := related.congr rfl rfl rfl
    rw [seen]
    exact policyLookup_simulated kind written held

theorem replacement_simulation [DecidableEq P] (kind : policy = .lru ∨ policy = .fifo) (limited : capacity ≠ 0)
    (key : K) (hook next : ℕ) (memory : P → V) {events : List (Event (List K) P)}
    (run : Traced (step policy) Proper (event policy) (construct key hook next capacity memory) events s) :
    ∃ a, Follows (Recency.Step (moves policy) capacity) Recency.initial events a ∧
      (∀ name, (findExact s name).bind (payloadAt s.trie) = a.value name) ∧
      ((entries s).map Prod.fst).Pairwise (fun older younger => a.time older < a.time younger) ∧
      (entries s).length = s.container.length ∧
      ∀ name payload draw u node, insert policy s name (some payload) draw = (u,some node,true) →
        s.container.length = capacity → entries u = (entries s).tail ++ [(name,payload)] := by
  have start := construct_related key hook next capacity memory
  obtain ⟨a,followed,related⟩ := run.simulated start
    (fun _ _ _ _ related proper taken => step_simulated kind limited related proper taken)
  refine ⟨a,followed,?_,?_,?_,?_⟩
  · intro name
    apply Option.ext
    intro payload
    exact (entries_stored related.synced name payload).symm.trans (related.ordered.holds name payload)
  · rw [List.pairwise_map]
    exact related.ordered.sorted
  · exact entriesOf_length (fun b => (related.synced.linked b).mp)
  · intro name payload draw u node added full
    rcases insert_entries kind related.synced name payload draw with ⟨v,other,done,_,_⟩ |
      ⟨v,other,done,_,⟨fits,_⟩ | ⟨oldest,rest,before,_,shifted⟩⟩
    · rw [done] at added
      cases added
    · have room := fits (by rwa [related.maxSize])
      rw [related.maxSize] at room
      omega
    · rw [done] at added
      cases added
      rw [before,shifted,List.tail_cons]

end Simulation

theorem replacement_simulation_evicted : ∃ s, Traced (step .lru) Proper (event .lru) (vacant 1)
    [.put [0] 5 true,.put [1] 6 true] s ∧ ∃ a, Follows (Recency.Step true 1) Recency.initial
      [.put [0] 5 true,.put [1] 6 true] a ∧ (findExact s [0]).bind (payloadAt s.trie) = a.value [0] := by
  have start : Traced (step .lru) Proper (event .lru) (vacant 1) [] (vacant 1) := .nil _
  have first := start.snoc (show Proper _ (addition [0] 5) by simp [Proper,addition]) rfl
  have run := first.snoc (show Proper _ (addition [1] 6) by simp [Proper,addition]) rfl
  obtain ⟨a,followed,values,_⟩ := replacement_simulation (.inl rfl) (by decide) 0 0 0 (fun _ => ()) run
  exact ⟨_,run,a,followed,values [0]⟩

def inPlace : Enumeration := ⟨id,fun _ => .refl _⟩

-- The uses without the plain form of the deepest match.
def listedEvent (s : TrieWithPolicy ℕ ℕ Unit) : Operation ℕ ℕ Unit → Event (List ℕ) ℕ
  | .deepestPrefixMatch _ _ => .idle
  | operation => event .lru s operation

-- The plain form relocates too: after it `/0` is younger than `/1`.
theorem plain_deepest_relocates : ∃ events s, Traced (step .lru) Proper listedEvent (vacant 2) events s ∧
    ∀ a, Follows (Recency.Step true 2) Recency.initial events a → ¬a.Ordered (entries s) := by
  have start : Traced (step .lru) Proper listedEvent (vacant 2) [] (vacant 2) := .nil _
  have first := start.snoc (show Proper _ (addition [0] 5) by simp [Proper,addition]) rfl
  have second := first.snoc (show Proper _ (addition [1] 6) by simp [Proper,addition]) rfl
  have run := second.snoc (show Proper _ (.deepestPrefixMatch [0] inPlace) from trivial) rfl
  refine ⟨_,_,run,?_⟩
  intro a followed ordered
  obtain ⟨b,before,quiet⟩ := followed.last
  obtain ⟨c,earlier,later⟩ := before.last
  obtain ⟨d,initial,older⟩ := earlier.last
  rw [initial.start] at older
  obtain ⟨clock,time⟩ := older.put_time
  have younger := later.put_time.2
  cases quiet with
  | idle =>
    have sorted := List.rel_of_pairwise_cons ordered.sorted (List.mem_singleton_self _)
    rw [younger,clock,time] at sorted
    revert sorted
    decide

end NdnCxx.TrieWithPolicy
