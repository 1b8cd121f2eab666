import NdnCxx.Trie.Refinement
import NdnCxx.Trie.Pruning

namespace NdnCxx.TrieWithPolicy
open PointerTree Trie

variable {K P V : Type}

-- Each item of the container is linked once and holds a payload. A root may hold one and
-- not be linked, after a clear.
structure Linked (s : TrieWithPolicy K P V) : Prop where
  rooted : Rooted s.trie
  pruned : Pruned s.trie
  unique : s.container.Nodup
  held : ∀ a ∈ s.container, payloadAt s.trie a ≠ none

-- In the middle of an insert.
structure Outside (s : TrieWithPolicy K P V) (item : ℕ) : Prop where
  linked : Linked s
  present : payloadAt s.trie item ≠ none
  absent : item ∉ s.container

-- Every insert brings a payload.
def Paid (_ : TrieWithPolicy K P V) : Operation K P V → Prop
  | .insert _ payload _ => payload ≠ none
  | _ => True

def refuses : Policy → Bool
  | .persistent | .random => true
  | .lru | .fifo | .lfu | .counting => false

section Keeping
variable {s u : TrieWithPolicy K P V} {item : ℕ}

theorem linked_setOrder (linked : Linked s) (a order : ℕ) : Linked {s with trie := setOrder s.trie a order} where
  rooted := setOrder_rooted linked.rooted a order
  pruned := setOrder_pruned linked.pruned a order
  unique := linked.unique
  held b member := by
    rw [payload_setOrder]
    exact linked.held b member

theorem linked_eraseNode (linked : Linked s) {node : ℕ} (held : payloadAt s.trie node ≠ none) : Linked (eraseNode s node) := by
  have live := payload_live held
  have erased := erase_spec linked.rooted live
  refine ⟨erased.rooted,erase_pruned linked.rooted live linked.pruned,linked.unique.erase node,?_⟩
  intro a member
  obtain ⟨apart,among⟩ := linked.unique.mem_erase_iff.mp member
  show payloadAt (Trie.erase s.trie node).1 a ≠ none
  rw [erased.payloads,if_neg apart]
  exact linked.held a among

theorem outside_setOrder (outside : Outside s item) (order : ℕ) :
    Outside {s with trie := setOrder s.trie item order} item where
  linked := linked_setOrder outside.linked item order
  present := by
    rw [payload_setOrder]
    exact outside.present
  absent := outside.absent

theorem outside_room (outside : Outside s item) : Outside (room s) item := by
  rcases room_cases s with ⟨same,_⟩ | ⟨first,rest,container,_,_,evicted⟩
  · rwa [same]
  · have member : first ∈ s.container := by
      rw [container]
      exact List.mem_cons_self
    have held := outside.linked.held first member
    have apart : item ≠ first := fun same => outside.absent (same ▸ member)
    have erased := erase_spec outside.linked.rooted (payload_live held)
    rw [evicted]
    refine ⟨linked_eraseNode outside.linked held,?_,fun among => outside.absent (List.mem_of_mem_erase among)⟩
    show payloadAt (Trie.erase s.trie first).1 item ≠ none
    rw [erased.payloads,if_neg apart]
    exact outside.present

theorem outside_placed (outside : Outside s item) {container : List ℕ} (perm : container.Perm (item :: s.container)) :
    Linked {s with container := container} where
  rooted := outside.linked.rooted
  pruned := outside.linked.pruned
  unique := perm.nodup_iff.mpr (List.nodup_cons.mpr ⟨outside.absent,outside.linked.unique⟩)
  held a member := by
    rcases List.mem_cons.mp (perm.mem_iff.mp member) with rfl | among
    · exact outside.present
    · exact outside.linked.held a among

theorem policyInsert_taken {policy : Policy} (kind : refuses policy = true) (outside : Outside s item) {draw : UInt32}
    (taken : (policyInsert s item draw policy).2 = true) : Linked (policyInsert s item draw policy).1 := by
  cases policy with
  | lru => cases kind
  | fifo => cases kind
  | lfu => cases kind
  | counting => cases kind
  | persistent =>
    simp only [policyInsert,persistentInsert] at taken ⊢
    split at taken
    · cases taken
    · rename_i room
      rw [if_neg room]
      exact outside_placed outside (pushBack_perm s item)
  | random =>
    simp only [policyInsert,randomInsert] at taken ⊢
    split at taken
    · cases taken
    · rename_i room
      rw [if_neg room]
      exact outside_placed (outside_room (outside_setOrder outside draw.toNat)) (multisetInsert_perm _ item)

theorem payload_undone {t : Trie K P} {b : ℕ} (free : payloadAt t b = none) (payload : Option P) (order : ℕ) :
    setPayload (setOrder (setPayload t b payload) b order) b none = setOrder t b order := by
  rw [setPayload,setOrder,setPayload,assign_assign,assign_assign,setOrder]
  apply assign_congr
  intro slot read
  rw [payloadAt,read] at free
  obtain ⟨held,number⟩ := slot
  cases free
  rfl

-- A policy that refuses a node has changed nothing but the number in its hook.
theorem policyInsert_refused {policy : Policy} {draw : UInt32} (refused : (policyInsert s item draw policy).2 = false) :
    ∃ order, (policyInsert s item draw policy).1 = {s with trie := setOrder s.trie item order} := by
  cases policy with
  | lru => cases refused
  | fifo => cases refused
  | lfu => cases refused
  | counting => cases refused
  | persistent =>
    simp only [policyInsert,persistentInsert] at refused ⊢
    split at refused
    · rename_i full
      refine ⟨orderAt s.trie item,?_⟩
      have same : setOrder s.trie item (orderAt s.trie item) = s.trie := by
        refine Eq.trans (assign_congr ?_) (assign_id s.trie item)
        intro slot read
        rw [orderAt,read]
        rfl
      rw [if_pos full,same]
    · cases refused
  | random =>
    simp only [policyInsert,randomInsert] at refused ⊢
    split at refused
    · rename_i least
      exact ⟨_,by rw [if_pos least]⟩
    · cases refused

theorem linked_withdraw (outside : Outside s item) : Linked {s with trie := (Trie.erase s.trie item).1} := by
  have live := payload_live outside.present
  have erased := erase_spec outside.linked.rooted live
  refine ⟨erased.rooted,erase_pruned outside.linked.rooted live outside.linked.pruned,outside.linked.unique,?_⟩
  intro a member
  have apart : a ≠ item := fun same => outside.absent (same ▸ member)
  show payloadAt (Trie.erase s.trie item).1 a ≠ none
  rw [erased.payloads,if_neg apart]
  exact outside.linked.held a member

variable [DecidableEq K]

theorem linked_clear (linked : Linked s) : Linked (clear s) where
  rooted := (clear_rooted linked.rooted).1
  pruned a live nonroot := by
    have free : (Trie.clear s.trie).cells a = none := by rw [clear_cells linked.rooted,if_neg nonroot]
    have present : ((Trie.clear s.trie).cells a).isSome = true := live
    rw [free] at present
    cases present
  unique := List.nodup_nil
  held a member := by cases member

theorem insert_linked {policy : Policy} (kind : refuses policy = true) (linked : Linked s) (key : List K) (payload : P)
    (draw : UInt32) : Linked (insert policy s key (some payload) draw).1 := by
  have rooted := insert_rooted linked.rooted key (some payload)
  have pruned := insert_pruned linked.rooted linked.pruned key payload
  obtain ⟨u,a,⟨done,present⟩ | ⟨done,added⟩⟩ := insert_cases linked.rooted key payload
  · rw [done] at rooted pruned
    simp only [insert,done,Bool.false_eq_true,if_false]
    refine ⟨rooted,pruned,linked.unique,?_⟩
    intro b member
    rw [present.kept.payloads]
    exact linked.held b member
  · rw [done] at rooted pruned
    have free : a ∉ s.container := fun member => linked.held a member added.free
    have outside : Outside {s with trie := u} a := by
      refine ⟨⟨rooted,pruned,linked.unique,?_⟩,?_,free⟩
      · intro b member
        show payloadAt u b ≠ none
        rw [added.payloads,if_neg (fun same : b = a => free (same ▸ member))]
        exact linked.held b member
      · show payloadAt u a ≠ none
        rw [added.payloads,if_pos rfl]
        simp
    simp only [insert,done,if_true]
    split
    · rename_i taken
      exact policyInsert_taken kind outside taken
    · rename_i refused
      obtain ⟨order,same⟩ := policyInsert_refused (Bool.eq_false_iff.mpr refused)
      rw [same]
      exact linked_withdraw (outside_setOrder outside order)

theorem step_linked [DecidableEq P] {policy : Policy} (kind : refuses policy = true) (linked : Linked s)
    {operation : Operation K P V} (paid : Paid s operation) (taken : step policy s operation = some u) : Linked u := by
  cases step_effect linked.rooted taken with
  | inserted key payload draw =>
    cases payload with
    | none => exact absurd rfl paid
    | some payload => exact insert_linked kind linked key payload draw
  | cleared => exact linked_clear linked
  | resized maxSize => exact ⟨linked.rooted,linked.pruned,linked.unique,linked.held⟩
  | quiet seen => exact linked
  | missed absent seen => exact linked
  | removed held seen => exact linked_eraseNode linked (held.elim id (linked.held _))
  | touched held seen =>
    cases policy with
    | persistent => exact ⟨linked.rooted,linked.pruned,linked.unique,linked.held⟩
    | random => exact ⟨linked.rooted,linked.pruned,linked.unique,linked.held⟩
    | _ => cases kind

end Keeping

-- The same entries under the same keys, the same nodes in the same places, and the same
-- container in the same order.
structure Unchanged [DecidableEq K] (s u : TrieWithPolicy K P V) : Prop where
  stored : ∀ name, stored u name = stored s name
  links : ∀ a, link u.trie a = link s.trie a
  children : ∀ a, childrenAt u.trie a = childrenAt s.trie a
  payloads : ∀ a, payloadAt u.trie a = payloadAt s.trie a
  container : u.container = s.container
  orders : ∀ a ∈ s.container, orderAt u.trie a = orderAt s.trie a
  maxSize : u.maxSize = s.maxSize
  memory : u.memory = s.memory

section Refusing
variable [DecidableEq K] {s u : TrieWithPolicy K P V}

-- A refused insert gives back the trie it was called on, but for the number in the hook
-- of a node that is not linked.
theorem refused_cells {policy : Policy} (linked : Linked s) {key : List K} {payload : Option P} {draw : UInt32}
    (refused : insert policy s key payload draw = (u,none,false)) :
    ∃ b order, payloadAt s.trie b = none ∧ u.trie.cells = (setOrder s.trie b order).cells ∧ Rooted u.trie ∧
      u.container = s.container ∧ u.maxSize = s.maxSize ∧ u.memory = s.memory := by
  have extended := extend_spec key linked.rooted linked.rooted.zero (path_root linked.rooted)
  have withdrawn := extend_withdrawn linked.rooted linked.pruned key
  rw [insert.eq_def,Trie.insert] at refused
  generalize extend s.trie 0 key = result at extended withdrawn refused
  obtain ⟨x,b⟩ := result
  dsimp only at extended withdrawn refused
  by_cases free : payloadAt x b = none
  · rw [if_pos (Option.isNone_iff_eq_none.mpr free)] at refused
    simp only [if_true] at refused
    split at refused
    · cases refused
    · rename_i failed
      obtain ⟨order,same⟩ := policyInsert_refused (Bool.eq_false_iff.mpr failed)
      rw [same,Trie.erase,payload_undone free] at refused
      cases refused
      have pruned := pruneFrom_spec (b + 1) (setOrder_rooted extended.rooted b order)
        ((live_congr (link_assign b _ b)).mpr extended.live)
      exact ⟨b,order,(extended.kept.payloads b).symm.trans free,withdrawn free order,pruned.rooted,rfl,rfl,rfl⟩
  · rw [if_neg (fun none => free (Option.isNone_iff_eq_none.mp none))] at refused
    cases refused

theorem refused_unchanged {policy : Policy} (linked : Linked s) {key : List K} {payload : Option P} {draw : UInt32}
    (refused : insert policy s key payload draw = (u,none,false)) : Unchanged s u := by
  obtain ⟨b,order,free,cells,rooted,container,maxSize,memory⟩ := refused_cells linked refused
  have links : ∀ a, link u.trie a = link s.trie a := by
    intro a
    rw [link,cells,← link_assign b (fun slot => {slot with order := order}) a]
    rfl
  have children : ∀ a, childrenAt u.trie a = childrenAt s.trie a := by
    intro a
    rw [childrenAt,cells,← children_assign b (fun slot => {slot with order := order}) a]
    rfl
  have payloads : ∀ a, payloadAt u.trie a = payloadAt s.trie a := by
    intro a
    rw [payload_cells cells,payload_setOrder]
  have orders : ∀ a, payloadAt s.trie a ≠ none → orderAt u.trie a = orderAt s.trie a := by
    intro a held
    have apart : a ≠ b := fun same => held (same ▸ free)
    apply order_congr
    rw [valueAt,cells]
    exact (value_assign b _ a).trans (if_neg apart)
  have paths : ∀ a, payloadAt s.trie a ≠ none → path u.trie a = path s.trie a := fun a held =>
    path_frame linked.rooted rooted (fun c _ => links c) ((live_congr (links a)).mpr (payload_live held))
  have kept : Kept s.trie u.trie := ⟨payloads,orders,paths,links 0⟩
  refine ⟨?_,links,children,payloads,container,fun a member => orders a (linked.held a member),maxSize,memory⟩
  exact stored_kept linked.rooted rooted kept

-- In every state that inserts of payloads and whatever else lead to, a refused insert
-- leaves the entries, the nodes and the container as they were.
theorem refused_insert_unchanged [DecidableEq P] {policy : Policy} (kind : refuses policy = true) (root : K)
    (hook next maxSize : ℕ) (memory : P → V) {operations : List (Operation K P V)}
    (run : Runs (step policy) Paid (construct root hook next maxSize memory) operations s) (key : List K)
    (payload : Option P) (draw : UInt32) (refused : insert policy s key payload draw = (u,none,false)) : Unchanged s u := by
  have start := construct_synced root hook next maxSize memory
  have linked := run.invariant Linked ⟨start.rooted,start.pruned,start.unique,fun a => (start.linked a).mp⟩
    (fun s operation next before paid taken => step_linked kind before paid taken)
  exact refused_unchanged linked refused

end Refusing

-- With room for one entry `/0/1` is refused below `/0`.
theorem refused_insert_unchanged_below : ∃ s u, Runs (step .persistent) Paid (vacant 1) [addition [0] 5] s ∧
    insert .persistent s [0,1] (some 6) 0 = (u,none,false) ∧ Unchanged s u := by
  have run : Runs (step .persistent) Paid (vacant 1) ([] ++ [addition [0] 5]) _ :=
    .snoc (.nil _) (by simp [Paid,addition]) rfl
  exact ⟨_,_,run,rfl,refused_insert_unchanged rfl 0 0 0 1 (fun _ => ()) run [0,1] (some 6) 0 rfl⟩

-- A node that was linked without a payload is freed when an insert below it is refused.
theorem empty_payload_freed : ∃ s u, Runs (step .persistent) (fun _ _ => True) (vacant 1) [.insert [0] none 0] s ∧
    insert .persistent s [0,1] (some 5) 0 = (u,none,false) ∧ link u.trie 1 ≠ link s.trie 1 ∧ 1 ∈ u.container := by
  have run : Runs (step .persistent) (fun _ _ => True) (vacant 1) ([] ++ [.insert [0] none 0]) _ :=
    .snoc (.nil _) trivial rfl
  exact ⟨_,_,run,rfl,by decide,by decide⟩

end NdnCxx.TrieWithPolicy
