import NdnCxx.Trie.Steps
import NdnCxx.Lib.Runs

namespace NdnCxx.TrieWithPolicy
open PointerTree Trie

variable {K P V : Type}

-- The container links exactly the nodes with a payload, each once.
structure Synced (s : TrieWithPolicy K P V) : Prop where
  rooted : Rooted s.trie
  pruned : Pruned s.trie
  unique : s.container.Nodup
  linked : ∀ a, a ∈ s.container ↔ payloadAt s.trie a ≠ none

-- In the middle of an insert the new node is in the trie and not yet in the container.
structure Pending (s : TrieWithPolicy K P V) (item : ℕ) : Prop where
  rooted : Rooted s.trie
  pruned : Pruned s.trie
  unique : s.container.Nodup
  linked : ∀ a, a ∈ s.container ↔ a ≠ item ∧ payloadAt s.trie a ≠ none
  held : payloadAt s.trie item ≠ none

def Bounded (policy : Policy) (s : TrieWithPolicy K P V) : Prop :=
  policy ≠ .counting → s.maxSize ≠ 0 → s.container.length ≤ s.maxSize

theorem construct_link (key : K) (hook next a : ℕ) :
    link (Trie.construct key hook next : Trie K P) a = if a = 0 then some (none,key) else none := by
  by_cases zero : a = 0
  · subst zero
    simp [link,Trie.construct]
  · simp [link,Trie.construct,zero]

theorem construct_rooted (key : K) (hook next : ℕ) : Rooted (Trie.construct key hook next : Trie K P) := by
  refine Rooted.lone (construct_link key hook next) ?_ (Nat.succ_pos next)
  intro p
  by_cases zero : p = 0
  · subst zero
    simp [childrenAt,Trie.construct]
  · simp [childrenAt,Trie.construct,zero]

theorem construct_live {key : K} {hook next a : ℕ} (live : Live (Trie.construct key hook next : Trie K P) a) : a = 0 := by
  by_contra positive
  simp [Live,Trie.construct,Function.update_of_ne positive] at live

theorem construct_payload (key : K) (hook next a : ℕ) : payloadAt (Trie.construct key hook next : Trie K P) a = none := by
  by_cases zero : a = 0
  · subst zero
    simp [payloadAt,valueAt,Trie.construct]
  · simp [payloadAt,valueAt,Trie.construct,Function.update_of_ne zero]

theorem construct_synced (key : K) (hook next maxSize : ℕ) (memory : P → V) :
    Synced (construct key hook next maxSize memory) where
  rooted := construct_rooted key hook next
  pruned _ live nonroot := absurd (construct_live live) nonroot
  unique := List.nodup_nil
  linked a := by simp [construct,construct_payload]

theorem construct_bounded (policy : Policy) (key : K) (hook next maxSize : ℕ) (memory : P → V) :
    Bounded policy (construct key hook next maxSize memory) := fun _ _ => Nat.zero_le _

section Changes
variable {s : TrieWithPolicy K P V} {item : ℕ}

theorem setOrder_pruned {t : Trie K P} (pruned : Pruned t) (a order : ℕ) : Pruned (setOrder t a order) := by
  intro b live nonroot empty
  obtain ⟨free,bare⟩ := empty
  rw [payload_setOrder] at free
  rw [setOrder,children_assign] at bare
  exact pruned b ((live_congr (link_assign a _ b)).mp live) nonroot ⟨free,bare⟩

theorem pending_setOrder (pending : Pending s item) (a order : ℕ) :
    Pending {s with trie := setOrder s.trie a order} item where
  rooted := setOrder_rooted pending.rooted a order
  pruned := setOrder_pruned pending.pruned a order
  unique := pending.unique
  linked b := by simp only [payload_setOrder]; exact pending.linked b
  held := by simp only [payload_setOrder]; exact pending.held

theorem synced_setOrder (synced : Synced s) (a order : ℕ) : Synced {s with trie := setOrder s.trie a order} where
  rooted := setOrder_rooted synced.rooted a order
  pruned := setOrder_pruned synced.pruned a order
  unique := synced.unique
  linked b := by simp only [payload_setOrder]; exact synced.linked b

theorem synced_perm (synced : Synced s) {container : List ℕ} (perm : container.Perm s.container) :
    Synced {s with container := container} where
  rooted := synced.rooted
  pruned := synced.pruned
  unique := perm.nodup_iff.mpr synced.unique
  linked a := perm.mem_iff.trans (synced.linked a)

theorem pending_perm (pending : Pending s item) {container : List ℕ} (perm : container.Perm (item :: s.container)) :
    Synced {s with container := container} where
  rooted := pending.rooted
  pruned := pending.pruned
  unique := by
    refine perm.nodup_iff.mpr (List.nodup_cons.mpr ⟨?_,pending.unique⟩)
    exact fun member => ((pending.linked item).mp member).1 rfl
  linked a := by
    rw [perm.mem_iff,List.mem_cons,pending.linked]
    by_cases same : a = item
    · simp [same,pending.held]
    · simp [same]

theorem splice_perm (member : item ∈ s.container) : (splice s item).container.Perm s.container := by
  refine (List.perm_append_singleton _ _).trans ?_
  exact (List.perm_cons_erase member).symm

theorem multisetInsert_perm (s : TrieWithPolicy K P V) (item : ℕ) :
    (multisetInsert s item).container.Perm (item :: s.container) := by
  refine List.perm_middle.trans ?_
  rw [List.takeWhile_append_dropWhile]

theorem lfuUpdate_perm (member : item ∈ s.container) : (lfuUpdate s item).container.Perm s.container :=
  (multisetInsert_perm _ item).trans (List.perm_cons_erase member).symm

end Changes

section Eviction
variable {s : TrieWithPolicy K P V} {item : ℕ}

theorem synced_eraseNode (synced : Synced s) {node : ℕ} (held : payloadAt s.trie node ≠ none) : Synced (eraseNode s node) := by
  have live := payload_live held
  have erased := erase_spec synced.rooted live
  refine ⟨erased.rooted,erase_pruned synced.rooted live synced.pruned,synced.unique.erase node,?_⟩
  intro a
  show a ∈ s.container.erase node ↔ payloadAt (Trie.erase s.trie node).1 a ≠ none
  rw [synced.unique.mem_erase_iff,synced.linked,erased.payloads]
  by_cases same : a = node
  · simp [same]
  · simp [same]

theorem pending_eraseNode (pending : Pending s item) {node : ℕ} (member : node ∈ s.container) :
    Pending (eraseNode s node) item := by
  obtain ⟨apart,held⟩ := (pending.linked node).mp member
  have live := payload_live held
  have erased := erase_spec pending.rooted live
  refine ⟨erased.rooted,erase_pruned pending.rooted live pending.pruned,pending.unique.erase node,?_,?_⟩
  · intro a
    show a ∈ s.container.erase node ↔ a ≠ item ∧ payloadAt (Trie.erase s.trie node).1 a ≠ none
    rw [pending.unique.mem_erase_iff,pending.linked,erased.payloads]
    by_cases same : a = node
    · simp [same]
    · simp [same]
  · show payloadAt (Trie.erase s.trie node).1 item ≠ none
    rw [erased.payloads,if_neg apart.symm]
    exact pending.held

-- Taking the rejected node out again.
theorem pending_withdraw (pending : Pending s item) : Synced {s with trie := (Trie.erase s.trie item).1} := by
  have live := payload_live pending.held
  have erased := erase_spec pending.rooted live
  refine ⟨erased.rooted,erase_pruned pending.rooted live pending.pruned,pending.unique,?_⟩
  intro a
  show a ∈ s.container ↔ payloadAt (Trie.erase s.trie item).1 a ≠ none
  rw [pending.linked,erased.payloads]
  by_cases same : a = item
  · simp [same]
  · simp [same]

-- What every policy leaves alone while it makes room: the new node itself.
structure Untouched (s u : TrieWithPolicy K P V) (item : ℕ) : Prop where
  payload : payloadAt u.trie item = payloadAt s.trie item
  path : path u.trie item = path s.trie item
  maxSize : u.maxSize = s.maxSize

theorem Untouched.refl (s : TrieWithPolicy K P V) (item : ℕ) : Untouched s s item := ⟨rfl,rfl,rfl⟩

theorem Untouched.trans {s t u : TrieWithPolicy K P V} (first : Untouched s t item) (second : Untouched t u item) :
    Untouched s u item :=
  ⟨second.payload.trans first.payload,second.path.trans first.path,second.maxSize.trans first.maxSize⟩

theorem untouched_setOrder (pending : Pending s item) (order : ℕ) :
    Untouched s {s with trie := setOrder s.trie item order} item :=
  ⟨payload_setOrder item order item,path_setOrder pending.rooted item order (payload_live pending.held),rfl⟩

def room (s : TrieWithPolicy K P V) : TrieWithPolicy K P V := if full s then evict s else s

theorem room_cases (s : TrieWithPolicy K P V) : (room s = s ∧ (s.maxSize ≠ 0 → s.container.length < s.maxSize)) ∨
    ∃ first rest, s.container = first :: rest ∧ s.maxSize ≠ 0 ∧ s.maxSize ≤ s.container.length ∧
      room s = eraseNode s first := by
  unfold room full evict
  by_cases unlimited : s.maxSize = 0
  · simp [unlimited]
  · by_cases fits : s.container.length < s.maxSize
    · exact .inl ⟨by simp [Nat.not_le.mpr fits],fun _ => fits⟩
    · have least := Nat.not_lt.mp fits
      cases held : s.container with
      | nil =>
        rw [held] at least
        exact absurd (Nat.le_zero.mp least) unlimited
      | cons first rest =>
        rw [held] at least
        refine .inr ⟨first,rest,rfl,unlimited,least,?_⟩
        rw [if_pos]
        simpa [unlimited] using least

theorem room_pending (pending : Pending s item) : Pending (room s) item ∧ Untouched s (room s) item := by
  rcases room_cases s with ⟨same,_⟩ | ⟨first,rest,held,_,_,evicted⟩
  · rw [same]
    exact ⟨pending,Untouched.refl s item⟩
  · have member : first ∈ s.container := by simp [held]
    obtain ⟨apart,stored⟩ := (pending.linked first).mp member
    have erased := erase_spec pending.rooted (payload_live stored)
    rw [evicted]
    refine ⟨pending_eraseNode pending member,?_,erased.paths item apart.symm pending.held,rfl⟩
    show payloadAt (Trie.erase s.trie first).1 item = _
    rw [erased.payloads,if_neg apart.symm]

theorem room_bounded (s : TrieWithPolicy K P V) (limited : s.maxSize ≠ 0) (within : s.container.length ≤ s.maxSize) :
    (room s).container.length < s.maxSize := by
  rcases room_cases s with ⟨same,fits⟩ | ⟨first,rest,held,_,_,evicted⟩
  · rw [same]
    exact fits limited
  · rw [evicted]
    show (s.container.erase first).length < s.maxSize
    rw [held] at within ⊢
    simp only [List.erase_cons_head,List.length_cons] at within ⊢
    omega

end Eviction

section Inserting
variable {s : TrieWithPolicy K P V} {item : ℕ}

-- What a policy's insert can do with a new node: take it, perhaps in place of
-- another, or refuse it.
structure Accepted (policy : Policy) (s u : TrieWithPolicy K P V) (item : ℕ) : Prop where
  synced : Synced u
  untouched : Untouched s u item
  bounded : Bounded policy s → Bounded policy u

theorem evicting_accepts (policy : Policy) (pending : Pending s item)
    {place : TrieWithPolicy K P V → ℕ → TrieWithPolicy K P V}
    (same : ∀ s, place s item = {s with container := (place s item).container})
    (perm : ∀ s, (place s item).container.Perm (item :: s.container)) :
    Accepted policy s (evictingInsert s item place).1 item := by
  obtain ⟨middle,untouched⟩ := room_pending pending
  show Accepted policy s (place (room s) item) item
  have synced := pending_perm middle (perm (room s))
  rw [← same] at synced
  refine ⟨synced,?_,?_⟩
  · rw [same]
    exact ⟨untouched.payload,untouched.path,untouched.maxSize⟩
  · intro bounded counted limited
    have sizes : (place (room s) item).maxSize = s.maxSize := by
      rw [same]
      exact untouched.maxSize
    rw [sizes] at limited ⊢
    rw [(perm (room s)).length_eq,List.length_cons]
    exact room_bounded s limited (bounded counted limited)

theorem pushBack_perm (s : TrieWithPolicy K P V) (item : ℕ) : (pushBack s item).container.Perm (item :: s.container) :=
  List.perm_append_singleton item s.container

theorem policyInsert_spec (policy : Policy) (pending : Pending s item) (draw : UInt32) :
    ((policyInsert s item draw policy).2 = true ∧ Accepted policy s (policyInsert s item draw policy).1 item) ∨
    ((policyInsert s item draw policy).2 = false ∧ Pending (policyInsert s item draw policy).1 item ∧
      (policyInsert s item draw policy).1.container = s.container ∧
      (policyInsert s item draw policy).1.maxSize = s.maxSize) := by
  have relabelled : ∀ order, Accepted policy s
      (evictingInsert {s with trie := setOrder s.trie item order} item multisetInsert).1 item := by
    intro order
    have accepted := evicting_accepts policy (pending_setOrder pending item order) (fun _ => rfl)
      (fun s => multisetInsert_perm s item)
    exact ⟨accepted.synced,(untouched_setOrder pending order).trans accepted.untouched,accepted.bounded⟩
  cases policy with
  | lru => exact .inl ⟨rfl,evicting_accepts .lru pending (fun _ => rfl) (fun s => pushBack_perm s item)⟩
  | fifo => exact .inl ⟨rfl,evicting_accepts .fifo pending (fun _ => rfl) (fun s => pushBack_perm s item)⟩
  | lfu => exact .inl ⟨rfl,relabelled 0⟩
  | counting =>
    refine .inl ⟨rfl,pending_perm pending (pushBack_perm s item),⟨rfl,rfl,rfl⟩,?_⟩
    exact fun _ counted => absurd rfl counted
  | persistent =>
    simp only [policyInsert,persistentInsert]
    split
    · exact .inr ⟨rfl,pending,rfl,rfl⟩
    · rename_i fits
      refine .inl ⟨rfl,pending_perm pending (pushBack_perm s item),⟨rfl,rfl,rfl⟩,?_⟩
      intro _ _ limited
      simp only [pushBack,List.length_append,List.length_singleton]
      simp only [full,Bool.and_eq_true,bne_iff_ne,decide_eq_true_eq,not_and] at fits
      exact Nat.lt_of_not_le (fits limited)
  | random =>
    simp only [policyInsert,randomInsert]
    split
    · exact .inr ⟨rfl,pending_setOrder pending item _,rfl,rfl⟩
    · exact .inl ⟨rfl,relabelled _⟩

theorem kept_synced (synced : Synced s) {u : Trie K P} (kept : Kept s.trie u) (rooted : Rooted u) (pruned : Pruned u) :
    Synced {s with trie := u} where
  rooted := rooted
  pruned := pruned
  unique := synced.unique
  linked a := by simp only [kept.payloads]; exact synced.linked a

variable [DecidableEq K]

theorem insert_pending (synced : Synced s) {key : List K} {payload : P} {u : Trie K P} {a : ℕ}
    (added : Trie.insert s.trie key (some payload) = (u,a,true)) (new : Added s.trie u key payload a) :
    Pending {s with trie := u} a := by
  have rooted := insert_rooted synced.rooted key (some payload)
  have pruned := insert_pruned synced.rooted synced.pruned key payload
  rw [added] at rooted pruned
  refine ⟨rooted,pruned,synced.unique,?_,?_⟩
  · intro b
    show b ∈ s.container ↔ b ≠ a ∧ payloadAt u b ≠ none
    rw [synced.linked,new.payloads]
    by_cases same : b = a
    · simp [same,new.free]
    · simp [same]
  · show payloadAt u a ≠ none
    rw [new.payloads,if_pos rfl]
    simp

-- All that an insert of a payload can do.
theorem insert_outcome (policy : Policy) (synced : Synced s) (key : List K) (payload : P) (draw : UInt32) :
    (∃ u a, insert policy s key (some payload) draw = ({s with trie := u},some a,false) ∧ Present s.trie u key a ∧
      Synced {s with trie := u}) ∨
    (∃ middle u a, Trie.insert s.trie key (some payload) = (middle,a,true) ∧ Added s.trie middle key payload a ∧
      insert policy s key (some payload) draw = (u,some a,true) ∧ Accepted policy {s with trie := middle} u a ∧
      u = (policyInsert {s with trie := middle} a draw policy).1) ∨
    (∃ u, insert policy s key (some payload) draw = (u,none,false) ∧ Synced u ∧ u.container = s.container ∧
      u.maxSize = s.maxSize) := by
  obtain ⟨u,a,⟨done,present⟩ | ⟨done,added⟩⟩ := insert_cases synced.rooted key payload
  · have rooted := insert_rooted synced.rooted key (some payload)
    have pruned := insert_pruned synced.rooted synced.pruned key payload
    rw [done] at rooted pruned
    refine .inl ⟨u,a,?_,present,kept_synced synced present.kept rooted pruned⟩
    simp [insert,done]
  · have pending := insert_pending synced done added
    rcases policyInsert_spec policy pending draw with ⟨ok,accepted⟩ | ⟨refused,left,container,maxSize⟩
    · refine .inr (.inl ⟨u,_,a,done,added,?_,accepted,rfl⟩)
      simp [insert,done,ok]
    · refine .inr (.inr ⟨_,?_,pending_withdraw left,container,maxSize⟩)
      simp [insert,done,refused]

end Inserting

section Lookups
variable {s u : TrieWithPolicy K P V}

-- Nothing is in the container that was not there, and nothing is missing.
structure Rearranged (s u : TrieWithPolicy K P V) : Prop where
  synced : Synced u
  perm : u.container.Perm s.container
  maxSize : u.maxSize = s.maxSize

theorem Rearranged.refl (synced : Synced s) : Rearranged s s := ⟨synced,.refl _,rfl⟩

theorem policyLookup_rearranged (policy : Policy) (synced : Synced s) {item : ℕ} (held : payloadAt s.trie item ≠ none) :
    Rearranged s (policyLookup s item policy) := by
  have member := (synced.linked item).mpr held
  cases policy with
  | lru => exact ⟨synced_perm synced (splice_perm member),splice_perm member,rfl⟩
  | lfu =>
    have relabelled := synced_setOrder synced item (increment (orderAt s.trie item))
    exact ⟨synced_perm relabelled (lfuUpdate_perm member),lfuUpdate_perm member,rfl⟩
  | fifo => exact .refl synced
  | counting => exact .refl synced
  | persistent => exact .refl synced
  | random => exact .refl synced

end Lookups

section Steps
variable {s u : TrieWithPolicy K P V}

-- Every insert brings a payload, `max_size` stays what it is, and a trie is cleared
-- only while its root holds nothing.
def Proper (s : TrieWithPolicy K P V) : Operation K P V → Prop
  | .insert _ payload _ => payload ≠ none
  | .clear => payloadAt s.trie 0 = none
  | .setMaxSize _ => False
  | _ => True

structure Advanced (policy : Policy) (s u : TrieWithPolicy K P V) : Prop where
  synced : Synced u
  bounded : Bounded policy s → Bounded policy u
  maxSize : u.maxSize = s.maxSize

theorem Rearranged.advanced {policy : Policy} (rearranged : Rearranged s u) : Advanced policy s u where
  synced := rearranged.synced
  bounded bounded counted limited := by
    rw [rearranged.maxSize] at limited ⊢
    rw [rearranged.perm.length_eq]
    exact bounded counted limited
  maxSize := rearranged.maxSize

theorem Advanced.refl (policy : Policy) (synced : Synced s) : Advanced policy s s := ⟨synced,id,rfl⟩

theorem eraseNode_advanced (policy : Policy) (synced : Synced s) {node : ℕ} (held : payloadAt s.trie node ≠ none) :
    Advanced policy s (eraseNode s node) where
  synced := synced_eraseNode synced held
  bounded bounded counted limited := (List.length_erase_le).trans (bounded counted limited)
  maxSize := rfl

-- What the payload pointers point to does not matter here.
theorem synced_memory (synced : Synced s) (memory : P → V) : Synced {s with memory := memory} :=
  ⟨synced.rooted,synced.pruned,synced.unique,synced.linked⟩

theorem touched_advanced (policy : Policy) (synced : Synced s) (memory : P → V) {node : ℕ}
    (held : payloadAt s.trie node ≠ none) : Advanced policy s (policyLookup {s with memory := memory} node policy) := by
  have rearranged := policyLookup_rearranged policy (synced_memory synced memory) held
  exact Rearranged.advanced ⟨rearranged.synced,rearranged.perm,rearranged.maxSize⟩

variable [DecidableEq K]

theorem insert_advanced (policy : Policy) (synced : Synced s) (key : List K) (payload : P) (draw : UInt32) :
    Advanced policy s (insert policy s key (some payload) draw).1 := by
  rcases insert_outcome policy synced key payload draw with ⟨u,a,done,_,after⟩ | ⟨middle,u,a,_,_,done,accepted,_⟩ |
    ⟨u,done,after,container,maxSize⟩
  · rw [done]
    exact ⟨after,id,rfl⟩
  · rw [done]
    exact ⟨accepted.synced,accepted.bounded,accepted.untouched.maxSize⟩
  · rw [done]
    refine ⟨after,?_,maxSize⟩
    intro bounded counted limited
    rw [maxSize] at limited ⊢
    rw [container]
    exact bounded counted limited

theorem clear_advanced (policy : Policy) (synced : Synced s) (free : payloadAt s.trie 0 = none) :
    Advanced policy s (clear s) := by
  obtain ⟨key,root⟩ := synced.rooted.root
  have fresh : clear s = construct key (orderAt s.trie 0) (s.trie.next - 1) s.maxSize s.memory := by
    rw [clear,construct,clear_construct synced.rooted root free]
  rw [fresh]
  exact ⟨construct_synced _ _ _ _ _,fun _ _ _ => Nat.zero_le _,rfl⟩

theorem step_advanced [DecidableEq P] (policy : Policy) (synced : Synced s) {operation : Operation K P V}
    (proper : Proper s operation) (taken : step policy s operation = some u) : Advanced policy s u := by
  cases step_effect synced.rooted taken with
  | inserted key payload draw =>
    cases payload with
    | none => exact absurd rfl proper
    | some payload => exact insert_advanced policy synced key payload draw
  | cleared => exact clear_advanced policy synced proper
  | resized maxSize => cases proper
  | quiet seen => exact .refl policy synced
  | missed absent seen => exact .refl policy synced
  | removed held seen => exact eraseNode_advanced policy synced (held.elim id (synced.linked _).mp)
  | touched held seen => exact touched_advanced policy synced _ held

theorem run_advanced [DecidableEq P] (policy : Policy) (synced : Synced s) {operations : List (Operation K P V)}
    (run : Runs (step policy) Proper s operations u) : Advanced policy s u := by
  refine run.invariant (Advanced policy s) (.refl policy synced) ?_
  intro t operation next before proper taken
  have after := step_advanced policy before.synced proper taken
  exact ⟨after.synced,fun bounded => after.bounded (before.bounded bounded),after.maxSize.trans before.maxSize⟩

-- A node that is accepted is in the container and found under its key, whatever had
-- to make room for it.
theorem insert_stays (policy : Policy) (synced : Synced s) {key : List K} {payload : P} {draw : UInt32} {a : ℕ}
    (added : insert policy s key (some payload) draw = (u,some a,true)) :
    payloadAt u.trie a = some payload ∧ a ∈ u.container ∧ findExact u key = some a := by
  rcases insert_outcome policy synced key payload draw with ⟨v,b,done,_,_⟩ | ⟨middle,v,b,_,new,done,accepted,_⟩ |
    ⟨v,done,_,_,_⟩
  · rw [done] at added
    cases added
  · rw [done] at added
    cases added
    have stored : payloadAt u.trie a = some payload := by
      rw [accepted.untouched.payload]
      exact (new.payloads a).trans (if_pos rfl)
    have held : payloadAt u.trie a ≠ none := by simp [stored]
    refine ⟨stored,(accepted.synced.linked a).mpr held,(findExact_iff accepted.synced.rooted).mpr ⟨held,?_⟩⟩
    rw [accepted.untouched.path]
    exact new.path
  · rw [done] at added
    cases added

theorem policy_synchrony [DecidableEq P] (policy : Policy) (key : K) (hook next maxSize : ℕ) (memory : P → V)
    {operations : List (Operation K P V)}
    (run : Runs (step policy) Proper (construct key hook next maxSize memory) operations s) :
    (s.container.Nodup ∧ ∀ a, a ∈ s.container ↔ payloadAt s.trie a ≠ none) ∧
    (policy ≠ .counting → maxSize ≠ 0 → s.container.length ≤ maxSize) ∧
    ∀ key payload draw u a, insert policy s key (some payload) draw = (u,some a,true) →
      payloadAt u.trie a = some payload ∧ a ∈ u.container ∧ findExact u key = some a := by
  have reached := run_advanced policy (construct_synced key hook next maxSize memory) run
  refine ⟨⟨reached.synced.unique,reached.synced.linked⟩,?_,?_⟩
  · intro counted limited
    have bounded := reached.bounded (construct_bounded policy key hook next maxSize memory) counted
    rw [reached.maxSize] at bounded
    exact bounded limited
  · intro key payload draw u a added
    exact insert_stays policy reached.synced added

end Steps

def addition (key : List ℕ) (payload : ℕ) : Operation ℕ ℕ Unit := .insert key (some payload) 0

def vacant (maxSize : ℕ) : TrieWithPolicy ℕ ℕ Unit := construct 0 0 0 maxSize (fun _ => ())

-- With room for one, `/0/1` takes the place of its own ancestor.
theorem policy_synchrony_ancestor : ∃ s, Runs (step .lru) Proper (vacant 1) [addition [0] 5,addition [0,1] 6] s ∧
    s.container.length ≤ 1 ∧ (∀ a, a ∈ s.container ↔ payloadAt s.trie a ≠ none) := by
  have run : Runs (step .lru) Proper (vacant 1) ([] ++ [addition [0] 5] ++ [addition [0,1] 6]) _ :=
    .snoc (.snoc (.nil _) (by simp [Proper,addition]) rfl) (by simp [Proper,addition]) rfl
  have held := policy_synchrony .lru 0 0 0 1 (fun _ => ()) run
  exact ⟨_,run,held.2.1 (by decide) (by decide),held.1.2⟩

-- The empty payload is an insert like any other: the container gets a node without
-- a payload.
theorem empty_payload_linked : ∃ s, Runs (step .lru) (fun _ _ => True) (vacant 100) [.insert [0] none 0] s ∧
    ∃ a, a ∈ s.container ∧ payloadAt s.trie a = none := by
  refine ⟨_,.snoc (.nil _) trivial rfl,1,?_,?_⟩
  · decide
  · decide
end NdnCxx.TrieWithPolicy
