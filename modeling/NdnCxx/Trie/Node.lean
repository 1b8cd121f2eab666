import NdnCxx.Lib.PointerTree

namespace NdnCxx
open PointerTree

-- What a trie node holds beside its key, its children and its parent. `order` is the
-- number in the hook of the ordered policies; the other policies do not use it.
structure Trie.Slot (P : Type) where
  payload : Option P
  order : ℕ

abbrev Trie (K P : Type) := Store K (Trie.Slot P)

namespace Trie
variable {K P : Type}

def payloadAt (t : Trie K P) (a : ℕ) : Option P := (valueAt t a).bind Slot.payload

def orderAt (t : Trie K P) (a : ℕ) : ℕ := ((valueAt t a).map Slot.order).getD 0

def setPayload (t : Trie K P) (a : ℕ) (payload : Option P) : Trie K P :=
  assign t a (fun slot => {slot with payload := payload})

def setOrder (t : Trie K P) (a : ℕ) (order : ℕ) : Trie K P := assign t a (fun slot => {slot with order := order})

-- The root that a constructor makes; `next` is the state of the allocator.
def construct (key : K) (hook next : ℕ) : Trie K P where
  cells := Function.update (fun _ => none) 0 (some ⟨key,[],none,⟨none,hook⟩⟩)
  next := next + 1

section Operations
variable [DecidableEq K]

-- The loop of `trie::insert` over the rest of the key.
def extend (t : Trie K P) (a : ℕ) : List K → Trie K P × ℕ
  | [] => (t,a)
  | subkey :: key =>
    match child t a subkey with
    | some c => extend t c key
    | none => extend (grow t a subkey ⟨none,0⟩) t.next key

def insert (t : Trie K P) (key : List K) (payload : Option P) : Trie K P × ℕ × Bool :=
  let (t,a) := extend t 0 key
  if (payloadAt t a).isNone then (setPayload t a payload,a,true) else (t,a,false)

-- The loop of `find` and `find_if` over the rest of the key.
def findFrom (t : Trie K P) (pred : P → Bool) (found : Option ℕ) (a : ℕ) : List K → Option ℕ × Bool × ℕ
  | [] => (found,true,a)
  | subkey :: key =>
    match child t a subkey with
    | none => (found,false,a)
    | some c => findFrom t pred (if (payloadAt t c).any pred then some c else found) c key

def rootFound (t : Trie K P) : Option ℕ := if (payloadAt t 0).isSome then some 0 else none

def find (t : Trie K P) (key : List K) : Option ℕ × Bool × ℕ := findFrom t (fun _ => true) (rootFound t) 0 key

-- The predicate is not asked about the payload of the root.
def findIf (t : Trie K P) (key : List K) (pred : P → Bool) : Option ℕ × Bool × ℕ :=
  findFrom t pred (rootFound t) 0 key

end Operations

-- The order in which an unordered set is enumerated.
structure Enumeration where
  arrange : List ℕ → List ℕ
  perm : ∀ children, (arrange children).Perm children

-- `find_if` without a key, depth first. Children are younger than their parents, so
-- the number of addresses handed out bounds the depth.
def findBelow (t : Trie K P) (order : Enumeration) (pred : P → Bool) : ℕ → ℕ → Option ℕ
  | 0,_ => none
  | fuel + 1,a =>
    if (payloadAt t a).any pred then some a
    else (order.arrange (childrenAt t a)).findSome? (findBelow t order pred fuel)

def pruneFrom : ℕ → Trie K P → ℕ → Trie K P × ℕ
  | 0,t,a => (t,a)
  | fuel + 1,t,a =>
    if (payloadAt t a).isNone ∧ childrenAt t a = [] then
      match link t a with
      | some (some parent,_) => pruneFrom fuel (cut t parent a) parent
      | _ => (t,a)
    else (t,a)

-- Parents are older than their children: no chain is longer than the address.
def prune (t : Trie K P) (a : ℕ) : Trie K P × ℕ := pruneFrom (a + 1) t a

def erase (t : Trie K P) (a : ℕ) : Trie K P × ℕ := prune (setPayload t a none) a

-- The destructor of a node disposes of its children before the node is freed.
def dispose : ℕ → Trie K P → ℕ → Trie K P
  | 0,t,_ => t
  | fuel + 1,t,a => update ((childrenAt t a).foldl (dispose fuel) t) a none

def clear (t : Trie K P) : Trie K P :=
  let t := (childrenAt t 0).foldl (dispose t.next) t
  update t 0 ((t.cells 0).map (fun cell => {cell with children := []}))

def Empty (t : Trie K P) (a : ℕ) : Prop := payloadAt t a = none ∧ childrenAt t a = []

-- Every node but the root and possibly `a` has a payload or a child.
def PrunedBut (t : Trie K P) (a : ℕ) : Prop := ∀ b, Live t b → b ≠ 0 → b ≠ a → ¬Empty t b

def Pruned (t : Trie K P) : Prop := ∀ b, Live t b → b ≠ 0 → ¬Empty t b

-- The same entries in the same places.
structure Kept (t u : Trie K P) : Prop where
  payloads : ∀ b, payloadAt u b = payloadAt t b
  orders : ∀ b, payloadAt t b ≠ none → orderAt u b = orderAt t b
  paths : ∀ b, payloadAt t b ≠ none → path u b = path t b
  root : link u 0 = link t 0

theorem Kept.refl (t : Trie K P) : Kept t t := ⟨fun _ => rfl,fun _ _ => rfl,fun _ _ => rfl,rfl⟩

theorem Kept.trans {t u v : Trie K P} (first : Kept t u) (second : Kept u v) : Kept t v where
  payloads b := (second.payloads b).trans (first.payloads b)
  orders b held := (second.orders b (first.payloads b ▸ held)).trans (first.orders b held)
  paths b held := (second.paths b (first.payloads b ▸ held)).trans (first.paths b held)
  root := second.root.trans first.root

theorem payload_live {t : Trie K P} {a : ℕ} (held : payloadAt t a ≠ none) : Live t a := by
  unfold payloadAt at held
  rw [live_value]
  cases read : valueAt t a with
  | none => simp [read] at held
  | some slot => exact ⟨slot,rfl⟩

theorem order_congr {t u : Trie K P} {a b : ℕ} (same : valueAt u b = valueAt t a) : orderAt u b = orderAt t a := by
  rw [orderAt,orderAt,same]

section Set
variable {t : Trie K P}

theorem payload_setPayload {a : ℕ} (live : Live t a) (payload : Option P) (b : ℕ) :
    payloadAt (setPayload t a payload) b = if b = a then payload else payloadAt t b := by
  obtain ⟨slot,read⟩ := live_value.mp live
  rw [payloadAt,setPayload,value_assign]
  split
  · simp [read]
  · rfl

theorem order_setPayload (a : ℕ) (payload : Option P) (b : ℕ) : orderAt (setPayload t a payload) b = orderAt t b := by
  rw [orderAt,setPayload,value_assign]
  split
  · rename_i same
    rw [same,orderAt]
    cases valueAt t a <;> rfl
  · rfl

theorem payload_setOrder (a order b : ℕ) : payloadAt (setOrder t a order) b = payloadAt t b := by
  rw [payloadAt,setOrder,value_assign]
  split
  · rename_i same
    rw [same,payloadAt]
    cases valueAt t a <;> rfl
  · rfl

theorem setPayload_rooted (rooted : Rooted t) (a : ℕ) (payload : Option P) : Rooted (setPayload t a payload) :=
  rooted.assign a _

theorem setOrder_rooted (rooted : Rooted t) (a order : ℕ) : Rooted (setOrder t a order) := rooted.assign a _

theorem path_setPayload (rooted : Rooted t) (a : ℕ) (payload : Option P) {b : ℕ} (live : Live t b) :
    path (setPayload t a payload) b = path t b := path_assign rooted a _ live

theorem path_setOrder (rooted : Rooted t) (a order : ℕ) {b : ℕ} (live : Live t b) :
    path (setOrder t a order) b = path t b := path_assign rooted a _ live

end Set

section Extend
variable {t : Trie K P}

theorem payload_grow {a : ℕ} (rooted : Rooted t) (k : K) (b : ℕ) :
    payloadAt (grow t a k ⟨none,0⟩) b = payloadAt t b := by
  rw [payloadAt,value_grow]
  split
  · rename_i fresh
    rw [fresh,payloadAt,valueAt,next_free rooted]
    rfl
  · rfl

theorem grow_kept {a : ℕ} {k : K} (rooted : Rooted t) (live : Live t a) (absent : ∀ c, link t c ≠ some (some a,k)) :
    Kept t (grow t a k ⟨none,0⟩) where
  payloads := payload_grow rooted k
  orders b held := by
    apply order_congr
    rw [value_grow,if_neg (rooted.below (payload_live held)).ne]
  paths b held := path_grow rooted live k _ absent (payload_live held)
  root := by rw [link_grow rooted live k,if_neg (rooted.below rooted.zero).ne]

theorem grow_pruned {a : ℕ} (rooted : Rooted t) (live : Live t a) (k : K) (pruned : PrunedBut t a) :
    PrunedBut (grow t a k ⟨none,0⟩) t.next := by
  intro b present nonroot old empty
  obtain ⟨free,bare⟩ := empty
  rw [payload_grow rooted k] at free
  rw [children_grow rooted live k] at bare
  have earlier : Live t b := by
    refine (live_congr ?_).mp present
    rw [link_grow rooted live k,if_neg old]
  split at bare
  · simp at bare
  · rename_i apart
    exact pruned b earlier nonroot apart ⟨free,bare⟩

theorem descend_pruned {a c : ℕ} (pruned : PrunedBut t a) (member : c ∈ childrenAt t a) : PrunedBut t c := by
  intro b live nonroot _ empty
  by_cases same : b = a
  · subst same
    rw [empty.2] at member
    cases member
  · exact pruned b live nonroot same empty

variable [DecidableEq K]

-- The loop ends at the node for the key; what it adds on the way has no payload.
structure Extended (t u : Trie K P) (key : List K) (a : ℕ) : Prop where
  rooted : Rooted u
  live : Live u a
  path : path u a = key
  kept : Kept t u

omit [DecidableEq K] in
theorem grow_live {a : ℕ} (rooted : Rooted t) (live : Live t a) (subkey : K) :
    Live (grow t a subkey ⟨none,0⟩) t.next :=
  live_link.mpr ⟨_,_,by rw [link_grow rooted live subkey,if_pos rfl]⟩

theorem extend_spec {a : ℕ} {start : List K} (key : List K) (rooted : Rooted t) (live : Live t a) (begins : path t a = start) :
    Extended t (extend t a key).1 (start ++ key) (extend t a key).2 := by
  induction key generalizing t a start with
  | nil =>
    rw [List.append_nil]
    exact ⟨rooted,live,begins,Kept.refl t⟩
  | cons subkey key ih =>
    rw [extend]
    cases found : child t a subkey with
    | some c =>
      have linked := (child_iff rooted).mp found
      have below := ih rooted (live_link.mpr ⟨_,_,linked⟩) (path_step rooted linked)
      rwa [begins,List.append_assoc] at below
    | none =>
      have absent := child_none rooted found
      have below := ih (rooted.grow live subkey _ absent) (grow_live rooted live subkey) (path_grow_new rooted live subkey _ absent)
      rw [begins,List.append_assoc] at below
      exact ⟨below.rooted,below.live,below.path,(grow_kept rooted live absent).trans below.kept⟩

theorem extend_pruned {a : ℕ} (key : List K) (rooted : Rooted t) (live : Live t a) (pruned : PrunedBut t a) :
    PrunedBut (extend t a key).1 (extend t a key).2 := by
  induction key generalizing t a with
  | nil => exact pruned
  | cons subkey key ih =>
    rw [extend]
    cases found : child t a subkey with
    | some c =>
      have linked := (child_iff rooted).mp found
      exact ih rooted (live_link.mpr ⟨_,_,linked⟩) (descend_pruned pruned (rooted.linked.mpr ⟨_,linked⟩))
    | none =>
      have absent := child_none rooted found
      exact ih (rooted.grow live subkey _ absent) (grow_live rooted live subkey) (grow_pruned rooted live subkey pruned)

end Extend

section Prune
variable {t : Trie K P}

theorem cut_kept {p a : ℕ} {k : K} (rooted : Rooted t) (linked : link t a = some (some p,k)) (empty : Empty t a) :
    Kept t (cut t p a) where
  payloads b := by
    rw [payloadAt,value_cut]
    split
    · rename_i gone
      rw [gone,empty.1]
      rfl
    · rfl
  orders b held := by
    have kept : b ≠ a := fun gone => held (gone ▸ empty.1)
    apply order_congr
    rw [value_cut,if_neg kept]
  paths b held := by
    have kept : b ≠ a := fun gone => held (gone ▸ empty.1)
    exact path_cut rooted linked empty.2 (payload_live held) kept
  root := by
    have lower := rooted.older linked
    rw [link_cut,if_neg (by omega)]

theorem cut_pruned {p a : ℕ} {k : K} (rooted : Rooted t) (linked : link t a = some (some p,k)) (empty : Empty t a)
    (pruned : PrunedBut t a) : PrunedBut (cut t p a) p := by
  intro b present nonroot apart left
  have kept : b ≠ a := by
    intro gone
    obtain ⟨q,k',given⟩ := live_link.mp present
    rw [link_cut,if_pos gone] at given
    cases given
  have earlier : Live t b := (live_congr (by rw [link_cut,if_neg kept])).mp present
  refine pruned b earlier nonroot kept ⟨?_,?_⟩
  · rw [← (cut_kept rooted linked empty).payloads]
    exact left.1
  · have bare := left.2
    rw [children_cut rooted linked empty.2,if_neg apart] at bare
    exact bare

-- One turn of the loop stays at the root or at a node that is not empty, or cuts the
-- empty node off and goes on at its parent.
theorem pruneFrom_turn (fuel : ℕ) {a : ℕ} (rooted : Rooted t) (live : Live t a) :
    ((pruneFrom (fuel + 1) t a).1 = t ∧ (a = 0 ∨ ¬Empty t a)) ∨
      ∃ p k, link t a = some (some p,k) ∧ Empty t a ∧ Live (cut t p a) p ∧
        (pruneFrom (fuel + 1) t a).1 = (pruneFrom fuel (cut t p a) p).1 := by
  rw [pruneFrom]
  split
  · rename_i condition
    have empty : Empty t a := ⟨Option.isNone_iff_eq_none.mp condition.1,condition.2⟩
    rcases live_cases rooted live with rfl | ⟨p,k,linked⟩
    · obtain ⟨k,linked⟩ := rooted.root
      rw [linked]
      exact .inl ⟨rfl,.inl rfl⟩
    · have apart : p ≠ a := (rooted.older linked).ne
      have above : Live (cut t p a) p := (live_congr (by rw [link_cut,if_neg apart])).mpr (rooted.parents linked)
      exact .inr ⟨p,k,linked,empty,above,by rw [linked]⟩
  · rename_i condition
    exact .inl ⟨rfl,.inr (fun empty => condition ⟨Option.isNone_iff_eq_none.mpr empty.1,empty.2⟩)⟩

structure PruneResult (t u : Trie K P) : Prop where
  rooted : Rooted u
  kept : Kept t u

theorem pruneFrom_spec (fuel : ℕ) {a : ℕ} (rooted : Rooted t) (live : Live t a) :
    PruneResult t (pruneFrom fuel t a).1 := by
  induction fuel generalizing t a with
  | zero => exact ⟨rooted,Kept.refl t⟩
  | succ fuel ih =>
    rcases pruneFrom_turn fuel rooted live with ⟨stays,_⟩ | ⟨p,k,linked,empty,above,goes⟩
    · rw [stays]
      exact ⟨rooted,Kept.refl t⟩
    · have next := ih (rooted.cut linked empty.2) above
      rw [goes]
      exact ⟨next.rooted,(cut_kept rooted linked empty).trans next.kept⟩

-- With fuel for every older address the loop stops only where nothing is left to
-- prune.
theorem pruneFrom_pruned {fuel a : ℕ} (enough : a < fuel) (rooted : Rooted t) (live : Live t a) (pruned : PrunedBut t a) :
    Pruned (pruneFrom fuel t a).1 := by
  induction fuel generalizing t a with
  | zero => omega
  | succ fuel ih =>
    rcases pruneFrom_turn fuel rooted live with ⟨stays,stop⟩ | ⟨p,k,linked,empty,above,goes⟩
    · rw [stays]
      intro b present nonroot empty
      by_cases same : b = a
      · exact stop.elim (fun root => nonroot (same.trans root)) (fun held => held (same ▸ empty))
      · exact pruned b present nonroot same empty
    · have lower := rooted.older linked
      rw [goes]
      exact ih (by omega) (rooted.cut linked empty.2) above (cut_pruned rooted linked empty pruned)

theorem setPayload_pruned {a : ℕ} (live : Live t a) (payload : Option P) (pruned : PrunedBut t a) :
    PrunedBut (setPayload t a payload) a := by
  intro b present nonroot apart empty
  obtain ⟨free,bare⟩ := empty
  rw [payload_setPayload live,if_neg apart] at free
  rw [setPayload,children_assign] at bare
  exact pruned b ((live_congr (link_assign a _ b)).mp present) nonroot apart ⟨free,bare⟩

-- After `erase` the node holds nothing and all other entries are where they were.
structure Erased (t u : Trie K P) (a : ℕ) : Prop where
  rooted : Rooted u
  payloads : ∀ b, payloadAt u b = if b = a then none else payloadAt t b
  orders : ∀ b, b ≠ a → payloadAt t b ≠ none → orderAt u b = orderAt t b
  paths : ∀ b, b ≠ a → payloadAt t b ≠ none → path u b = path t b
  root : link u 0 = link t 0

theorem erase_spec {a : ℕ} (rooted : Rooted t) (live : Live t a) : Erased t (erase t a).1 a := by
  have free := payload_setPayload live none
  have pruned := pruneFrom_spec (a + 1) (setPayload_rooted rooted a none)
    ((live_congr (link_assign a _ a)).mpr live)
  have held : ∀ {b}, b ≠ a → payloadAt t b ≠ none → payloadAt (setPayload t a none) b ≠ none := by
    intro b apart given
    rwa [free,if_neg apart]
  refine ⟨pruned.rooted,?_,?_,?_,?_⟩
  · exact fun b => (pruned.kept.payloads b).trans (free b)
  · exact fun b apart given => (pruned.kept.orders b (held apart given)).trans (order_setPayload a none b)
  · exact fun b apart given =>
      (pruned.kept.paths b (held apart given)).trans (path_setPayload rooted a none (payload_live given))
  · exact pruned.kept.root.trans (link_assign a _ 0)

theorem erase_pruned {a : ℕ} (rooted : Rooted t) (live : Live t a) (pruned : Pruned t) : Pruned (erase t a).1 := by
  refine pruneFrom_pruned (Nat.lt_succ_self a) (setPayload_rooted rooted a none) ((live_congr (link_assign a _ a)).mpr live) ?_
  exact setPayload_pruned live none (fun b present nonroot _ => pruned b present nonroot)

-- A node that is not there is not erased.
theorem erase_dead {a : ℕ} (dead : ¬Live t a) : (erase t a).1 = t := by
  have unread : t.cells a = none := by simpa [Live] using dead
  have unchanged : setPayload t a none = t := by
    rw [setPayload,assign,update,unread,Option.map_none,← unread,Function.update_eq_self]
  simp [erase,prune,pruneFrom,unchanged,link,unread]

end Prune

section Insert
variable [DecidableEq K] {t : Trie K P}

theorem insert_rooted (rooted : Rooted t) (key : List K) (payload : Option P) : Rooted (insert t key payload).1 := by
  have extended := extend_spec key rooted rooted.zero (path_root rooted)
  rw [insert]
  dsimp only
  split
  · exact setPayload_rooted extended.rooted _ payload
  · exact extended.rooted

theorem insert_root (rooted : Rooted t) (key : List K) (payload : Option P) :
    link (insert t key payload).1 0 = link t 0 := by
  have extended := extend_spec key rooted rooted.zero (path_root rooted)
  rw [insert]
  dsimp only
  split
  · rw [setPayload,link_assign]
    exact extended.kept.root
  · exact extended.kept.root

-- A second insert under the key finds the payload of the first and leaves it.
structure Present (t u : Trie K P) (key : List K) (a : ℕ) : Prop where
  kept : Kept t u
  held : payloadAt t a ≠ none
  path : path t a = key

structure Added (t u : Trie K P) (key : List K) (payload : P) (a : ℕ) : Prop where
  free : payloadAt t a = none
  payloads : ∀ b, payloadAt u b = if b = a then some payload else payloadAt t b
  orders : ∀ b, b ≠ a → payloadAt t b ≠ none → orderAt u b = orderAt t b
  paths : ∀ b, payloadAt t b ≠ none → path u b = path t b
  path : path u a = key
  live : Live u a

theorem insert_cases (rooted : Rooted t) (key : List K) (payload : P) :
    ∃ u a, (insert t key (some payload) = (u,a,false) ∧ Present t u key a) ∨
      (insert t key (some payload) = (u,a,true) ∧ Added t u key payload a) := by
  have extended := extend_spec key rooted rooted.zero (path_root rooted)
  rw [List.nil_append] at extended
  rw [insert]
  generalize extend t 0 key = result at extended
  obtain ⟨u,a⟩ := result
  have payloads := extended.kept.payloads
  dsimp only at extended ⊢
  by_cases free : payloadAt u a = none
  · refine ⟨setPayload u a (some payload),a,.inr ⟨by rw [if_pos (by simp [free])],?_⟩⟩
    refine ⟨(payloads a).symm.trans free,?_,?_,?_,?_,?_⟩
    · intro b
      rw [payload_setPayload extended.live,payloads]
    · exact fun b _ held => (order_setPayload a _ b).trans (extended.kept.orders b held)
    · intro b held
      have later : payloadAt u b ≠ none := by rwa [payloads]
      exact (path_setPayload extended.rooted a _ (payload_live later)).trans (extended.kept.paths b held)
    · rw [path_setPayload extended.rooted a _ extended.live,extended.path]
    · exact (live_congr (link_assign a _ a)).mpr extended.live
  · have held : payloadAt t a ≠ none := by rwa [← payloads]
    refine ⟨u,a,.inl ⟨by rw [if_neg (by simp [free])],extended.kept,held,?_⟩⟩
    rw [← extended.kept.paths a held,extended.path]

theorem insert_pruned (rooted : Rooted t) (pruned : Pruned t) (key : List K) (payload : P) :
    Pruned (insert t key (some payload)).1 := by
  have extended := extend_spec key rooted rooted.zero (path_root rooted)
  have partly := extend_pruned key rooted rooted.zero (fun b present nonroot _ => pruned b present nonroot)
  rw [insert]
  dsimp only
  intro b present nonroot empty
  by_cases same : b = (extend t 0 key).2
  · split at empty
    · rw [same] at empty
      have held := empty.1
      rw [payload_setPayload extended.live,if_pos rfl] at held
      cases held
    · rename_i held
      rw [same] at empty
      exact held (Option.isNone_iff_eq_none.mpr empty.1)
  · split at empty
    · rename_i free
      rw [if_pos free] at present
      exact setPayload_pruned extended.live _ partly b present nonroot same empty
    · rename_i held
      rw [if_neg held] at present
      exact partly b present nonroot same empty

end Insert

section Find
variable [DecidableEq K] {t : Trie K P}

theorem findFrom_last (t : Trie K P) (pred : P → Bool) (found : Option ℕ) (a : ℕ) (key : List K) :
    (if (findFrom t pred found a key).2.1 = true then some (findFrom t pred found a key).2.2 else none) =
      locate t a key := by
  induction key generalizing a found with
  | nil => rfl
  | cons subkey key ih =>
    rw [findFrom,locate]
    cases child t a subkey with
    | none => rfl
    | some c => exact ih _ c

-- Whatever the loop returns holds a payload.
theorem findFrom_held (pred : P → Bool) {found : Option ℕ} (start : ∀ b ∈ found, payloadAt t b ≠ none) (a : ℕ)
    (key : List K) : ∀ b ∈ (findFrom t pred found a key).1, payloadAt t b ≠ none := by
  induction key generalizing a found with
  | nil => exact start
  | cons subkey key ih =>
    rw [findFrom]
    cases child t a subkey with
    | none => exact start
    | some c =>
      apply ih
      intro b member
      split at member
      · rename_i held
        cases member
        intro free
        simp [free] at held
      · exact start b member

end Find

theorem rootFound_held {t : Trie K P} : ∀ b ∈ rootFound t, payloadAt t b ≠ none := by
  intro b member
  unfold rootFound at member
  split at member
  · rename_i held
    cases member
    exact Option.isSome_iff_ne_none.mp held
  · cases member

theorem findBelow_held {t : Trie K P} {order : Enumeration} {pred : P → Bool} (fuel : ℕ) {a b : ℕ}
    (found : findBelow t order pred fuel a = some b) : payloadAt t b ≠ none := by
  induction fuel generalizing a with
  | zero => cases found
  | succ fuel ih =>
    rw [findBelow] at found
    split at found
    · rename_i held
      cases found
      intro free
      simp [free] at held
    · obtain ⟨c,_,below⟩ := List.exists_of_findSome?_eq_some found
      exact ih below

section Dispose
variable {t : Trie K P}

-- The nodes of the subtrie at `a`.
def Under (t : Trie K P) (a b : ℕ) : Prop := Live t b ∧ path t a <+: path t b

theorem under_self {a : ℕ} (live : Live t a) : Under t a a := ⟨live,List.prefix_rfl⟩

theorem under_child (rooted : Rooted t) {a c b : ℕ} (member : c ∈ childrenAt t a) (below : Under t c b) :
    Under t a b ∧ b ≠ a := by
  obtain ⟨k,linked⟩ := rooted.linked.mp member
  obtain ⟨live,longer⟩ := below
  rw [path_step rooted linked] at longer
  refine ⟨⟨live,(List.prefix_append _ _).trans longer⟩,?_⟩
  intro same
  subst same
  have lengths := longer.length_le
  simp at lengths

variable [DecidableEq K]

theorem under_cases (rooted : Rooted t) {a b : ℕ} (live : Live t a) (below : Under t a b) :
    b = a ∨ ∃ c ∈ childrenAt t a, Under t c b := by
  obtain ⟨present,tail,longer⟩ := below
  cases tail with
  | nil => exact .inl (path_injective rooted present live (by simpa using longer.symm))
  | cons k rest =>
    have found := (locate_iff rooted).mpr ⟨present,longer.symm⟩
    rw [locate_append,(locate_iff rooted).mpr ⟨live,rfl⟩,Option.bind_some,locate] at found
    obtain ⟨c,first,_⟩ := Option.bind_eq_some_iff.mp found
    have linked := (child_iff rooted).mp first
    refine .inr ⟨c,rooted.linked.mpr ⟨k,linked⟩,present,rest,?_⟩
    rw [path_step rooted linked,← longer]
    simp

theorem under_disjoint (rooted : Rooted t) {a c d b : ℕ} (first : c ∈ childrenAt t a) (second : d ∈ childrenAt t a)
    (left : Under t c b) (right : Under t d b) : c = d := by
  obtain ⟨k,linked⟩ := rooted.linked.mp first
  obtain ⟨k',linked'⟩ := rooted.linked.mp second
  have paths := List.prefix_of_prefix_length_le left.2 right.2
    (by rw [path_step rooted linked,path_step rooted linked']; simp)
  have same := paths.eq_of_length (by rw [path_step rooted linked,path_step rooted linked']; simp)
  exact path_injective rooted (live_link.mpr ⟨_,_,linked⟩) (live_link.mpr ⟨_,_,linked'⟩) same

-- `u` is what is left of `t` when the subtries in `gone` have been freed.
def Freed (t u : Trie K P) (gone : ℕ → Prop) : Prop :=
  u.next = t.next ∧ ∀ b, (gone b → u.cells b = none) ∧ (¬gone b → u.cells b = t.cells b)

theorem disposeAll_freed {dispose : Trie K P → ℕ → Trie K P} (rooted : Rooted t) {a : ℕ} (children : List ℕ)
    (among : ∀ c ∈ children, c ∈ childrenAt t a) (unique : children.Nodup) {u : Trie K P} {gone : ℕ → Prop}
    (freed : Freed t u gone) (untouched : ∀ c ∈ children, ∀ b, Under t c b → ¬gone b)
    (each : ∀ c ∈ children, ∀ {u : Trie K P} {gone : ℕ → Prop}, Freed t u gone → (∀ b, Under t c b → ¬gone b) →
      Freed t (dispose u c) (fun b => gone b ∨ Under t c b)) :
    Freed t (children.foldl dispose u) (fun b => gone b ∨ ∃ c ∈ children, Under t c b) := by
  induction children generalizing u gone with
  | nil => simpa using freed
  | cons c children ih =>
    obtain ⟨absent,unique⟩ := List.nodup_cons.mp unique
    have first := each c (.head _) freed (untouched c (.head _))
    have rest := ih (fun d member => among d (.tail _ member)) unique first ?_
      (fun d member => each d (.tail _ member))
    · simpa [or_assoc] using rest
    · intro d member b below already
      rcases already with old | same
      · exact untouched d (.tail _ member) b below old
      · have equal := under_disjoint rooted (among c (.head _)) (among d (.tail _ member)) same below
        exact absent (equal ▸ member)

theorem dispose_freed (rooted : Rooted t) (fuel : ℕ) {a : ℕ} (live : Live t a) (enough : t.next < fuel + a + 1)
    {u : Trie K P} {gone : ℕ → Prop} (freed : Freed t u gone) (untouched : ∀ b, Under t a b → ¬gone b) :
    Freed t (dispose fuel u a) (fun b => gone b ∨ Under t a b) := by
  induction fuel generalizing a u gone with
  | zero =>
    have bound := rooted.below live
    omega
  | succ fuel ih =>
    have here : u.cells a = t.cells a := (freed.2 a).2 (untouched a (under_self live))
    have children : childrenAt u a = childrenAt t a := by rw [childrenAt,here,childrenAt]
    have unique : (childrenAt t a).Nodup := List.Nodup.of_map _ (rooted.distinct a)
    have below : ∀ c ∈ childrenAt t a, ∀ b, Under t c b → ¬gone b := fun c member b under =>
      untouched b (under_child rooted member under).1
    have inner := disposeAll_freed rooted (childrenAt t a) (fun _ member => member) unique freed below (fun c member => by
      obtain ⟨k,linked⟩ := rooted.linked.mp member
      have older := rooted.older linked
      intro u gone freed untouched
      exact ih (live_link.mpr ⟨_,_,linked⟩) (by omega) freed untouched)
    rw [dispose,children]
    refine ⟨inner.1,fun b => ?_⟩
    have cells := inner.2 b
    by_cases same : b = a
    · subst same
      simp [update,under_self live]
    · have under : Under t a b ↔ ∃ c ∈ childrenAt t a, Under t c b := by
        constructor
        · intro given
          rcases under_cases rooted live given with equal | more
          · exact absurd equal same
          · exact more
        · intro given
          obtain ⟨c,member,more⟩ := given
          exact (under_child rooted member more).1
      simpa [update,same,under] using cells

theorem clear_freed (rooted : Rooted t) :
    Freed t ((childrenAt t 0).foldl (dispose t.next) t) (fun b => ∃ c ∈ childrenAt t 0, Under t c b) := by
  have start : Freed t t (fun _ => False) := ⟨rfl,fun _ => ⟨False.elim,fun _ => rfl⟩⟩
  have unique : (childrenAt t 0).Nodup := List.Nodup.of_map _ (rooted.distinct 0)
  have freed := disposeAll_freed rooted (childrenAt t 0) (fun _ member => member) unique start (fun _ _ _ _ => id)
    (fun c member => by
      obtain ⟨k,linked⟩ := rooted.linked.mp member
      intro u gone freed untouched
      exact dispose_freed rooted t.next (live_link.mpr ⟨_,_,linked⟩) (by omega) freed untouched)
  simpa using freed

theorem clear_next (rooted : Rooted t) : (clear t).next = t.next := (clear_freed rooted).1

-- Nothing but the root is left, and the root keeps its payload.
theorem clear_cells (rooted : Rooted t) (b : ℕ) :
    (clear t).cells b = if b = 0 then (t.cells 0).map (fun cell => {cell with children := []}) else none := by
  have cells := (clear_freed rooted).2 b
  rw [clear]
  by_cases root : b = 0
  · subst root
    have kept : ¬∃ c ∈ childrenAt t 0, Under t c 0 := by
      intro given
      obtain ⟨c,member,under⟩ := given
      exact (under_child rooted member under).2 rfl
    simp [update,cells.2 kept]
  · simp only [update,Function.update_of_ne root,if_neg root]
    by_cases live : Live t b
    · rcases under_cases rooted rooted.zero ⟨live,by rw [path_root rooted]; exact List.nil_prefix⟩ with same | below
      · exact absurd same root
      · exact cells.1 below
    · have dead : t.cells b = none := by simpa [Live] using live
      by_cases below : ∃ c ∈ childrenAt t 0, Under t c b
      · exact cells.1 below
      · rw [cells.2 below,dead]

theorem clear_rooted (rooted : Rooted t) : Rooted (clear t) ∧ link (clear t) 0 = link t 0 := by
  obtain ⟨key,root⟩ := rooted.root
  have links : ∀ a, link (clear t) a = if a = 0 then some (none,key) else none := by
    intro a
    rw [link,clear_cells rooted,← root,link]
    split
    · cases t.cells 0 <;> rfl
    · rfl
  have bare : ∀ a, childrenAt (clear t) a = [] := by
    intro a
    rw [childrenAt,clear_cells rooted]
    split
    · cases t.cells 0 <;> rfl
    · rfl
  refine ⟨Rooted.lone links bare ?_,by rw [links,root,if_pos rfl]⟩
  rw [clear_next rooted]
  exact rooted.below rooted.zero

-- Without a payload at the root the trie is as good as new.
theorem clear_construct (rooted : Rooted t) {key : K} (root : link t 0 = some (none,key)) (free : payloadAt t 0 = none) :
    clear t = construct key (orderAt t 0) (t.next - 1) := by
  have cells := clear_cells rooted
  have next := clear_next rooted
  have positive := rooted.below rooted.zero
  generalize clear t = u at cells next
  obtain ⟨found,count⟩ := u
  obtain ⟨slot,read⟩ := live_value.mp rooted.zero
  simp only [construct,Store.mk.injEq]
  refine ⟨?_,by simp only at next; omega⟩
  funext b
  refine (cells b).trans ?_
  by_cases zero : b = 0
  · subst zero
    simp only [link,valueAt,payloadAt,orderAt] at root read free ⊢
    cases held : t.cells 0 with
    | none => simp [held] at read
    | some cell =>
      simp only [held,Option.map_some,Option.some.injEq,Prod.mk.injEq,Option.bind_some] at root free
      obtain ⟨k,children,parent,payload,order⟩ := cell
      simp only at root free
      simp [root.1,root.2,free]
  · simp [zero]

end Dispose
end Trie
end NdnCxx
