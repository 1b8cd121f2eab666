import NdnCxx.Trie.Synchrony

namespace NdnCxx.TrieWithPolicy
open PointerTree Trie

variable {K P V : Type}

def entriesOf (t : Trie K P) (container : List ℕ) : List (List K × P) :=
  container.filterMap (fun a => (payloadAt t a).map (fun payload => (path t a,payload)))

-- The keys and payloads in the order of the container.
def entries (s : TrieWithPolicy K P V) : List (List K × P) := entriesOf s.trie s.container

section Entries
variable {s : TrieWithPolicy K P V} {t u : Trie K P} {container : List ℕ}

theorem entriesOf_congr (payloads : ∀ a ∈ container, payloadAt u a = payloadAt t a)
    (paths : ∀ a ∈ container, path u a = path t a) : entriesOf u container = entriesOf t container := by
  apply List.filterMap_congr
  intro a member
  rw [payloads a member,paths a member]

theorem entriesOf_snoc (t : Trie K P) (container : List ℕ) {a : ℕ} {payload : P} (held : payloadAt t a = some payload) :
    entriesOf t (container ++ [a]) = entriesOf t container ++ [(path t a,payload)] := by
  simp [entriesOf,held]

theorem entriesOf_length (held : ∀ a ∈ container, payloadAt t a ≠ none) :
    (entriesOf t container).length = container.length := by
  induction container with
  | nil => rfl
  | cons a rest ih =>
    obtain ⟨payload,read⟩ := Option.ne_none_iff_exists'.mp (held a (.head _))
    have tail := ih (fun b member => held b (.tail _ member))
    rw [entriesOf,List.filterMap_cons,read]
    simpa [entriesOf] using tail

theorem entries_mem (synced : Synced s) (key : List K) (payload : P) :
    (key,payload) ∈ entries s ↔ ∃ a, payloadAt s.trie a = some payload ∧ path s.trie a = key := by
  unfold entries entriesOf
  rw [List.mem_filterMap]
  constructor
  · intro given
    obtain ⟨a,_,same⟩ := given
    obtain ⟨p,read,equal⟩ := Option.map_eq_some_iff.mp same
    cases equal
    exact ⟨a,read,rfl⟩
  · intro given
    obtain ⟨a,read,rfl⟩ := given
    exact ⟨a,(synced.linked a).mpr (by simp [read]),by simp [read]⟩

variable [DecidableEq K]

-- Keys tell the nodes apart.
theorem entriesOf_erase (rooted : Rooted t) (unique : container.Nodup) (held : ∀ a ∈ container, payloadAt t a ≠ none)
    {node : ℕ} (present : payloadAt t node ≠ none) :
    entriesOf t (container.erase node) = (entriesOf t container).filter (fun entry => entry.1 ≠ path t node) := by
  rw [unique.erase_eq_filter,entriesOf,entriesOf,List.filterMap_filter,List.filter_filterMap]
  apply List.filterMap_congr
  intro a member
  obtain ⟨payload,read⟩ := Option.ne_none_iff_exists'.mp (held a member)
  by_cases same : a = node
  · subst same
    simp [read,Option.filter]
  · have apart : path t a ≠ path t node := fun equal =>
      same (path_injective rooted (payload_live (held a member)) (payload_live present) equal)
    simp [same,read,apart,Option.filter]

end Entries

section Lookup
variable [DecidableEq K] {s : TrieWithPolicy K P V}

-- The payload that `find_exact` leads to.
def stored (s : TrieWithPolicy K P V) (key : List K) : Option P := (findExact s key).bind (payloadAt s.trie)

theorem stored_iff (rooted : Rooted s.trie) {key : List K} {payload : P} :
    stored s key = some payload ↔ ∃ a, payloadAt s.trie a = some payload ∧ path s.trie a = key := by
  rw [stored,Option.bind_eq_some_iff]
  constructor
  · intro given
    obtain ⟨a,found,read⟩ := given
    exact ⟨a,read,((findExact_iff rooted).mp found).2⟩
  · intro given
    obtain ⟨a,read,path⟩ := given
    exact ⟨a,(findExact_iff rooted).mpr ⟨by simp [read],path⟩,read⟩

theorem stored_none (rooted : Rooted s.trie) {key : List K} : stored s key = none ↔ findExact s key = none := by
  rw [stored]
  cases found : findExact s key with
  | none => simp
  | some a => simpa using ((findExact_iff rooted).mp found).1

theorem entries_stored (synced : Synced s) (key : List K) (payload : P) :
    (key,payload) ∈ entries s ↔ stored s key = some payload :=
  (entries_mem synced key payload).trans (stored_iff synced.rooted).symm

theorem stored_eraseNode (rooted : Rooted s.trie) {node : ℕ} (held : payloadAt s.trie node ≠ none) (key : List K) :
    stored (eraseNode s node) key = if key = path s.trie node then none else stored s key := by
  have erased := erase_spec rooted (payload_live held)
  apply Option.ext
  intro payload
  rw [stored_iff erased.rooted]
  show (∃ a, payloadAt (Trie.erase s.trie node).1 a = some payload ∧ path (Trie.erase s.trie node).1 a = key) ↔ _
  constructor
  · intro given
    obtain ⟨a,read,rfl⟩ := given
    rw [erased.payloads] at read
    split at read
    · cases read
    · rename_i apart
      have present : payloadAt s.trie a ≠ none := by simp [read]
      rw [erased.paths a apart present,if_neg,stored_iff rooted]
      · exact ⟨a,read,rfl⟩
      · exact fun same => apart (path_injective rooted (payload_live present) (payload_live held) same)
  · intro given
    split at given
    · cases given
    · rename_i other
      obtain ⟨a,read,rfl⟩ := (stored_iff rooted).mp given
      have apart : a ≠ node := fun same => other (by rw [same])
      exact ⟨a,by rw [erased.payloads,if_neg apart,read],erased.paths a apart (by simp [read])⟩

theorem stored_kept {u : Trie K P} (rooted : Rooted s.trie) (after : Rooted u) (kept : Kept s.trie u) (key : List K) :
    stored {s with trie := u} key = stored s key := by
  apply Option.ext
  intro payload
  rw [stored_iff after,stored_iff rooted]
  constructor
  · intro given
    obtain ⟨a,read,reached⟩ := given
    rw [kept.payloads] at read
    exact ⟨a,read,by rw [← reached,kept.paths a (by simp [read])]⟩
  · intro given
    obtain ⟨a,read,reached⟩ := given
    exact ⟨a,by rw [kept.payloads,read],by rw [kept.paths a (by simp [read]),reached]⟩

theorem stored_added {u : Trie K P} (rooted : Rooted s.trie) (after : Rooted u) {name : List K} {payload : P} {a : ℕ}
    (added : Added s.trie u name payload a) (key : List K) :
    stored {s with trie := u} key = if key = name then some payload else stored s key := by
  have own : payloadAt u a = some payload := by rw [added.payloads,if_pos rfl]
  apply Option.ext
  intro other
  rw [stored_iff after]
  constructor
  · intro given
    obtain ⟨b,read,rfl⟩ := given
    by_cases same : b = a
    · subst same
      rw [if_pos added.path,← own,read]
    · have reached : path u b ≠ name := fun equal =>
        same (path_injective after (payload_live (by simp [read])) added.live (equal.trans added.path.symm))
      rw [added.payloads,if_neg same] at read
      rw [if_neg reached,added.paths b (by simp [read]),stored_iff rooted]
      exact ⟨b,read,rfl⟩
  · intro given
    split at given
    · rename_i same
      cases given
      exact ⟨a,own,added.path.trans same.symm⟩
    · obtain ⟨b,read,rfl⟩ := (stored_iff rooted).mp given
      have apart : b ≠ a := by
        intro same
        rw [same,added.free] at read
        cases read
      exact ⟨b,by rw [added.payloads,if_neg apart,read],added.paths b (by simp [read])⟩

theorem added_absent {u : Trie K P} (rooted : Rooted s.trie) (after : Rooted u) {name : List K} {payload : P} {a : ℕ}
    (added : Added s.trie u name payload a) : stored s name = none := by
  cases found : stored s name with
  | none => rfl
  | some other =>
    obtain ⟨b,read,reached⟩ := (stored_iff rooted).mp found
    have apart : b ≠ a := by
      intro same
      rw [same,added.free] at read
      cases read
    have live : Live u b := by
      apply payload_live
      rw [added.payloads,if_neg apart,read]
      simp
    have same := added.paths b (by simp [read])
    exact absurd (path_injective after live added.live ((same.trans reached).trans added.path.symm)) apart

theorem insert_accepts {policy : Policy} {draw : UInt32}
    (accepts : ∀ s : TrieWithPolicy K P V, ∀ item, (policyInsert s item draw policy).2 = true)
    (s : TrieWithPolicy K P V) (name : List K) (payload : Option P) : (insert policy s name payload draw).2.1 ≠ none := by
  rw [insert.eq_def]
  dsimp only
  split
  · simp [accepts]
  · simp

end Lookup

section Map
variable [DecidableEq K] {s u : TrieWithPolicy K P V}

-- Inserts with a payload and erases.
def Plain (_ : TrieWithPolicy K P V) : Operation K P V → Prop
  | .insert _ payload _ => payload ≠ none
  | .erase _ | .eraseAt _ => True
  | _ => False

theorem insert_counting (synced : Synced s) (name : List K) (payload : P) (draw : UInt32) :
    ∃ u a, insert .counting s name (some payload) draw = (u,some a,(stored s name).isNone) ∧ Synced u ∧
      ∀ key, stored u key = if key = name then some ((stored s name).getD payload) else stored s key := by
  rcases insert_outcome .counting synced name payload draw with ⟨u,a,done,present,after⟩ |
    ⟨middle,u,a,inserted,added,done,accepted,rfl⟩ | ⟨u,done,_,_,_⟩
  · have old : stored s name = payloadAt s.trie a := by
      rw [stored,(findExact_iff synced.rooted).mpr ⟨present.held,present.path⟩,Option.bind_some]
    obtain ⟨payload',read⟩ := Option.ne_none_iff_exists'.mp present.held
    rw [read] at old
    refine ⟨_,a,by rw [done,old]; rfl,after,?_⟩
    intro key
    rw [stored_kept synced.rooted after.rooted present.kept]
    split
    · rename_i same
      rw [same,old]
      rfl
    · rfl
  · have rooted := insert_rooted synced.rooted name (some payload)
    rw [inserted] at rooted
    have absent := added_absent synced.rooted rooted added
    refine ⟨_,a,by rw [done,absent]; rfl,accepted.synced,?_⟩
    rw [absent]
    exact stored_added synced.rooted rooted added
  · have refused : (insert .counting s name (some payload) draw).2.1 = none := by rw [done]
    exact absurd refused (insert_accepts (fun _ _ => rfl) s name _)

-- The map as the events say it is: under each key the payload first inserted since
-- its last erase.
structure Mapped (events : List (Event (List K) P)) (s : TrieWithPolicy K P V) : Prop where
  synced : Synced s
  stored : ∀ key, stored s key = Event.firstSince key events

theorem mapped_remove {events : List (Event (List K) P)} (mapped : Mapped events s) {node : ℕ}
    (held : payloadAt s.trie node ≠ none) : Mapped (events ++ [.remove (path s.trie node)]) (eraseNode s node) where
  synced := synced_eraseNode mapped.synced held
  stored key := by
    rw [stored_eraseNode mapped.synced.rooted held,Event.firstSince_snoc,mapped.stored]
    by_cases same : key = path s.trie node
    · simp [same,Event.removes]
    · simp [same,Ne.symm same,Event.removes,Event.putUnder]

theorem mapped_silent {events : List (Event (List K) P)} (mapped : Mapped events s) {event : Event (List K) P}
    (same : ∀ key, event.putUnder key = none ∧ (event.removes key = true → stored s key = none)) :
    Mapped (events ++ [event]) s where
  synced := mapped.synced
  stored key := by
    obtain ⟨fresh,gone⟩ := same key
    rw [Event.firstSince_snoc,← mapped.stored,fresh,Option.or_none]
    split
    · rename_i removed
      exact gone removed
    · rfl

theorem mapped_insert {events : List (Event (List K) P)} (mapped : Mapped events s) (name : List K) (payload : P)
    (draw : UInt32) : Mapped (events ++ [.put name payload (insert .counting s name (some payload) draw).2.2])
      (insert .counting s name (some payload) draw).1 := by
  obtain ⟨u,a,done,synced,after⟩ := insert_counting mapped.synced name payload draw
  rw [done]
  refine ⟨synced,fun key => ?_⟩
  rw [after,Event.firstSince_snoc,← mapped.stored]
  by_cases same : key = name
  · subst same
    cases stored s key <;> simp [Event.removes,Event.putUnder]
  · simp [same,Ne.symm same,Event.removes,Event.putUnder]

theorem step_mapped [DecidableEq P] {events : List (Event (List K) P)} (mapped : Mapped events s)
    {operation : Operation K P V} (plain : Plain s operation) (taken : step .counting s operation = some u) :
    Mapped (events ++ [event .counting s operation]) u := by
  cases step_effect mapped.synced.rooted taken with
  | inserted name payload draw =>
    cases payload with
    | none => exact absurd rfl plain
    | some payload => exact mapped_insert mapped name payload draw
  | cleared => cases plain
  | resized maxSize => cases plain
  | quiet seen =>
    rw [seen]
    apply mapped_silent mapped
    exact fun key => ⟨rfl,fun removed => by cases removed⟩
  | missed absent seen =>
    rw [seen]
    apply mapped_silent mapped
    intro key
    refine ⟨rfl,fun removed => ?_⟩
    rw [← of_decide_eq_true removed]
    exact (stored_none mapped.synced.rooted).mpr absent
  | removed held seen =>
    rw [seen]
    exact mapped_remove mapped (held.elim id (mapped.synced.linked _).mp)
  | @touched _ node memory held seen =>
    -- The counting policy does not act on a lookup.
    have silent : Mapped (events ++ [.use (path s.trie node)]) s := by
      apply mapped_silent mapped
      exact fun key => ⟨rfl,fun removed => by cases removed⟩
    rw [seen]
    exact ⟨synced_memory silent.synced memory,silent.stored⟩

theorem construct_mapped (key : K) (hook next maxSize : ℕ) (memory : P → V) :
    Mapped [] (construct key hook next maxSize memory) where
  synced := construct_synced key hook next maxSize memory
  stored name := by
    rw [Event.firstSince_nil,stored_none (construct_rooted key hook next)]
    cases found : findExact (construct key hook next maxSize memory) name with
    | none => rfl
    | some a =>
      have held := ((findExact_iff (construct_rooted key hook next)).mp found).1
      exact absurd (construct_payload key hook next a) held

theorem trie_refines_map [DecidableEq P] (key : K) (hook next maxSize : ℕ) (memory : P → V)
    {events : List (Event (List K) P)}
    (run : Traced (step .counting) Plain (event .counting) (construct key hook next maxSize memory) events s) :
    (∀ name, (findExact s name).bind (payloadAt s.trie) = Event.firstSince name events) ∧
    (∀ name payload draw, ∃ u a, insert .counting s name (some payload) draw =
        (u,some a,(Event.firstSince name events).isNone) ∧
      (findExact u name).bind (payloadAt u.trie) = some ((Event.firstSince name events).getD payload)) ∧
    (∀ a, Live s.trie a → a ≠ 0 → payloadAt s.trie a ≠ none ∨ childrenAt s.trie a ≠ []) ∧
    (∀ a, ((childrenAt s.trie a).map (keyAt s.trie)).Nodup) ∧
    (∀ a c, c ∈ childrenAt s.trie a ↔ ∃ k, link s.trie c = some (some a,k)) := by
  have mapped := run.invariant Mapped (construct_mapped key hook next maxSize memory)
    (fun _ _ _ _ before plain taken => step_mapped before plain taken)
  refine ⟨mapped.stored,?_,?_,mapped.synced.rooted.distinct,fun _ _ => mapped.synced.rooted.linked⟩
  · intro name payload draw
    obtain ⟨u,a,done,_,after⟩ := insert_counting mapped.synced name payload draw
    rw [mapped.stored] at done
    refine ⟨u,a,done,?_⟩
    have found := after name
    rw [if_pos rfl,mapped.stored] at found
    exact found
  · intro a live nonroot
    by_contra neither
    rw [not_or,not_not,not_not] at neither
    exact mapped.synced.pruned a live nonroot neither

end Map

-- The root, a node below it and the erase of the root again.
theorem trie_refines_map_erased : ∃ s, Traced (step .counting) Plain (event .counting) (vacant 0)
    [.put [] 5 true,.put [0] 6 true,.remove []] s ∧ (findExact s [0]).bind (payloadAt s.trie) = some 6 ∧
      (findExact s []).bind (payloadAt s.trie) = none := by
  have start : Traced (step .counting) Plain (event .counting) (vacant 0) [] (vacant 0) := .nil _
  have first := start.snoc (show Plain _ (addition [] 5) by simp [Plain,addition]) rfl
  have second := first.snoc (show Plain _ (addition [0] 6) by simp [Plain,addition]) rfl
  have run := second.snoc (show Plain _ (.erase []) from trivial) rfl
  have mapped := (trie_refines_map 0 0 0 0 (fun _ => ()) run).1
  exact ⟨_,run,(mapped [0]).trans rfl,(mapped []).trans rfl⟩

end NdnCxx.TrieWithPolicy
