import Mathlib

namespace NdnCxx.PointerTree

structure Cell (K V : Type) where
  key : K
  children : List ℕ
  parent : Option ℕ
  value : V

-- Addresses are handed out in increasing order and never again; the root is at 0.
structure Store (K V : Type) where
  cells : ℕ → Option (Cell K V)
  next : ℕ

variable {K V : Type}

def keyAt (s : Store K V) (a : ℕ) : Option K := (s.cells a).map Cell.key

def link (s : Store K V) (a : ℕ) : Option (Option ℕ × K) := (s.cells a).map (fun cell => (cell.parent,cell.key))

def valueAt (s : Store K V) (a : ℕ) : Option V := (s.cells a).map Cell.value

def childrenAt (s : Store K V) (a : ℕ) : List ℕ := ((s.cells a).map Cell.children).getD []

def Live (s : Store K V) (a : ℕ) : Prop := (s.cells a).isSome = true

def child [DecidableEq K] (s : Store K V) (a : ℕ) (k : K) : Option ℕ :=
  (childrenAt s a).find? (fun c => keyAt s c == some k)

def locate [DecidableEq K] (s : Store K V) (a : ℕ) : List K → Option ℕ
  | [] => some a
  | k :: ks => (child s a k).bind (fun c => locate s c ks)

def update (s : Store K V) (a : ℕ) (cell : Option (Cell K V)) : Store K V := {s with cells := Function.update s.cells a cell}

def assign (s : Store K V) (a : ℕ) (f : V → V) : Store K V :=
  update s a ((s.cells a).map (fun cell => {cell with value := f cell.value}))

-- A new leaf below `a`, at the next address.
def grow (s : Store K V) (a : ℕ) (k : K) (v : V) : Store K V :=
  let linked := update s a ((s.cells a).map (fun cell => {cell with children := cell.children ++ [s.next]}))
  {update linked s.next (some ⟨k,[],some a,v⟩) with next := s.next + 1}

-- Unlinks the leaf `a` from its parent and frees it.
def cut (s : Store K V) (parent a : ℕ) : Store K V :=
  update (update s parent ((s.cells parent).map (fun cell => {cell with children := cell.children.erase a}))) a none

-- Every cell is linked from its parent, older than it, and siblings have
-- different keys.
structure Rooted (s : Store K V) : Prop where
  root : ∃ k, link s 0 = some (none,k)
  only : ∀ {a k}, link s a = some (none,k) → a = 0
  below : ∀ {a}, Live s a → a < s.next
  older : ∀ {a p k}, link s a = some (some p,k) → p < a
  linked : ∀ {p a}, a ∈ childrenAt s p ↔ ∃ k, link s a = some (some p,k)
  parents : ∀ {a p k}, link s a = some (some p,k) → Live s p
  distinct : ∀ p, ((childrenAt s p).map (keyAt s)).Nodup

-- The keys on the way from the root, found by following the parents.
def pathFrom (s : Store K V) : ℕ → ℕ → List K
  | 0,_ => []
  | fuel + 1,a =>
    match link s a with
    | some (some p,k) => pathFrom s fuel p ++ [k]
    | _ => []

def path (s : Store K V) (a : ℕ) : List K := pathFrom s (a + 1) a

theorem live_link {s : Store K V} {a : ℕ} : Live s a ↔ ∃ p k, link s a = some (p,k) := by
  unfold Live link
  cases s.cells a with
  | none => simp
  | some cell => simp

theorem link_keyAt {s : Store K V} {a : ℕ} {p : Option ℕ} {k : K} (linked : link s a = some (p,k)) : keyAt s a = some k := by
  unfold link at linked
  unfold keyAt
  cases read : s.cells a with
  | none => simp [read] at linked
  | some cell =>
    simp only [read,Option.map_some,Option.some.injEq,Prod.mk.injEq] at linked
    simp [linked.2]

theorem Rooted.zero {s : Store K V} (rooted : Rooted s) : Live s 0 := by
  obtain ⟨k,linked⟩ := rooted.root
  exact live_link.mpr ⟨none,k,linked⟩

section Paths
variable {s t : Store K V}

-- Any fuel above the address is enough, since parents are older.
theorem pathFrom_enough (rooted : Rooted s) {fuel a : ℕ} (enough : a < fuel) : pathFrom s fuel a = path s a := by
  induction fuel using Nat.strong_induction_on generalizing a with
  | _ fuel ih =>
    obtain ⟨rest,rfl⟩ : ∃ rest, fuel = rest + 1 := ⟨fuel - 1,by omega⟩
    unfold path pathFrom
    cases found : link s a with
    | none => rfl
    | some pair =>
      obtain ⟨parent,k⟩ := pair
      cases parent with
      | none => rfl
      | some p =>
        have lower := rooted.older found
        dsimp only
        rw [ih rest (by omega) (by omega),ih a (by omega) lower]

theorem path_root (rooted : Rooted s) : path s 0 = [] := by
  obtain ⟨k,linked⟩ := rooted.root
  rw [path,pathFrom,linked]

theorem path_step (rooted : Rooted s) {a p : ℕ} {k : K} (linked : link s a = some (some p,k)) :
    path s a = path s p ++ [k] := by
  rw [path,pathFrom,linked]
  dsimp only
  rw [pathFrom_enough rooted (rooted.older linked)]

theorem live_cases (rooted : Rooted s) {a : ℕ} (live : Live s a) :
    a = 0 ∨ ∃ p k, link s a = some (some p,k) := by
  obtain ⟨parent,k,linked⟩ := live_link.mp live
  cases parent with
  | none => exact .inl (rooted.only linked)
  | some p => exact .inr ⟨p,k,linked⟩

-- Cells that keep their links keep their paths.
theorem path_frame (before : Rooted s) (after : Rooted t) (same : ∀ a, Live t a → link t a = link s a) {a : ℕ}
    (live : Live t a) : path t a = path s a := by
  induction a using Nat.strong_induction_on with
  | _ a ih =>
    rcases live_cases after live with rfl | ⟨p,k,linked⟩
    · rw [path_root before,path_root after]
    · have earlier := (same a live).symm.trans linked
      rw [path_step after linked,path_step before earlier,ih p (after.older linked) (after.parents linked)]

end Paths

section Locate
variable [DecidableEq K] {s : Store K V}

theorem child_iff (rooted : Rooted s) {a c : ℕ} {k : K} : child s a k = some c ↔ link s c = some (some a,k) := by
  have unique : ∀ {c d}, c ∈ childrenAt s a → d ∈ childrenAt s a → keyAt s c = keyAt s d → c = d := by
    intro c d first second same
    exact List.inj_on_of_nodup_map (rooted.distinct a) first second same
  constructor
  · intro found
    have member := List.mem_of_find?_eq_some found
    have matched := List.find?_some found
    obtain ⟨k',linked⟩ := rooted.linked.mp member
    rw [link_keyAt linked] at matched
    simp only [beq_iff_eq,Option.some.injEq] at matched
    rw [linked,matched]
  · intro linked
    have member := rooted.linked.mpr ⟨k,linked⟩
    have present : ((childrenAt s a).find? (fun c => keyAt s c == some k)).isSome = true := by
      rw [List.find?_isSome]
      exact ⟨c,member,by simp [link_keyAt linked]⟩
    obtain ⟨d,found⟩ := Option.isSome_iff_exists.mp present
    have matched := List.find?_some found
    simp only [beq_iff_eq] at matched
    have same := unique (List.mem_of_find?_eq_some found) member (matched.trans (link_keyAt linked).symm)
    rw [← same]
    exact found

theorem locate_append (s : Store K V) (a : ℕ) (first second : List K) :
    locate s a (first ++ second) = (locate s a first).bind (fun b => locate s b second) := by
  induction first generalizing a with
  | nil => rfl
  | cons k first ih =>
    rw [List.cons_append,locate,locate,Option.bind_assoc]
    congr 1
    funext c
    exact ih c

theorem locate_snoc (s : Store K V) (ks : List K) (k : K) :
    locate s 0 (ks ++ [k]) = (locate s 0 ks).bind (fun a => child s a k) := by
  rw [locate_append]
  congr 1
  funext a
  simp [locate]

theorem locate_iff (rooted : Rooted s) {ks : List K} {a : ℕ} : locate s 0 ks = some a ↔ Live s a ∧ path s a = ks := by
  constructor
  · intro found
    induction ks using List.reverseRecOn generalizing a with
    | nil =>
      cases found
      exact ⟨rooted.zero,path_root rooted⟩
    | append_singleton ks k ih =>
      rw [locate_snoc] at found
      obtain ⟨p,upper,last⟩ := Option.bind_eq_some_iff.mp found
      have linked := (child_iff rooted).mp last
      exact ⟨live_link.mpr ⟨_,_,linked⟩,by rw [path_step rooted linked,(ih upper).2]⟩
  · intro given
    obtain ⟨live,rfl⟩ := given
    induction a using Nat.strong_induction_on with
    | _ a ih =>
      rcases live_cases rooted live with rfl | ⟨p,k,linked⟩
      · rw [path_root rooted]
        rfl
      · rw [path_step rooted linked,locate_snoc,ih p (rooted.older linked) (rooted.parents linked)]
        exact (child_iff rooted).mpr linked

theorem path_injective (rooted : Rooted s) {a b : ℕ} (first : Live s a) (second : Live s b)
    (same : path s a = path s b) : a = b := by
  have left := (locate_iff rooted).mpr ⟨first,same⟩
  have right := (locate_iff rooted).mpr ⟨second,rfl⟩
  exact Option.some.inj (left.symm.trans right)

theorem child_none (rooted : Rooted s) {a : ℕ} {k : K} (absent : child s a k = none) (c : ℕ) :
    link s c ≠ some (some a,k) := by
  intro linked
  rw [(child_iff rooted).mpr linked] at absent
  cases absent

end Locate

section Operations
variable {s t : Store K V}

theorem keyAt_link (s : Store K V) (a : ℕ) : keyAt s a = (link s a).map Prod.snd := by
  unfold keyAt link
  cases s.cells a <;> rfl

theorem live_value {a : ℕ} : Live s a ↔ ∃ v, valueAt s a = some v := by
  unfold Live valueAt
  cases s.cells a <;> simp

theorem live_congr {a b : ℕ} (same : link t a = link s b) : Live t a ↔ Live s b := by
  rw [live_link,live_link,same]

-- A root and nothing else.
theorem Rooted.lone {key : K} (links : ∀ a, link s a = if a = 0 then some (none,key) else none)
    (bare : ∀ a, childrenAt s a = []) (positive : 0 < s.next) : Rooted s := by
  have single : ∀ {a p k}, link s a = some (p,k) → a = 0 ∧ p = none := by
    intro a p k linked
    rw [links] at linked
    split at linked
    · rename_i zero
      cases linked
      exact ⟨zero,rfl⟩
    · cases linked
  refine ⟨⟨key,by rw [links,if_pos rfl]⟩,fun linked => (single linked).1,?_,?_,?_,?_,?_⟩
  · intro a live
    obtain ⟨p,k,linked⟩ := live_link.mp live
    rw [(single linked).1]
    exact positive
  · intro a p k linked
    cases (single linked).2
  · intro p a
    rw [bare]
    constructor
    · intro member
      cases member
    · intro given
      obtain ⟨k,linked⟩ := given
      cases (single linked).2
  · intro a p k linked
    cases (single linked).2
  · intro p
    rw [bare]
    exact List.nodup_nil

theorem Rooted.congr (rooted : Rooted s) (links : ∀ a, link t a = link s a)
    (children : ∀ a, childrenAt t a = childrenAt s a) (next : t.next = s.next) : Rooted t where
  root := by simpa only [links] using rooted.root
  only := by
    intro a k linked
    exact rooted.only ((links a).symm.trans linked)
  below := by
    intro a live
    rw [next]
    exact rooted.below ((live_congr (links a)).mp live)
  older := by
    intro a p k linked
    exact rooted.older ((links a).symm.trans linked)
  linked := by
    intro p a
    rw [children,links]
    exact rooted.linked
  parents := by
    intro a p k linked
    exact (live_congr (links p)).mpr (rooted.parents ((links a).symm.trans linked))
  distinct := by
    intro p
    have keys : keyAt t = keyAt s := by
      funext a
      rw [keyAt_link,keyAt_link,links]
    rw [children,keys]
    exact rooted.distinct p

@[simp] theorem link_assign (a : ℕ) (f : V → V) (b : ℕ) : link (assign s a f) b = link s b := by
  by_cases same : b = a
  · subst same
    simp only [link,assign,update,Function.update_self]
    cases s.cells b <;> rfl
  · simp [link,assign,update,Function.update_of_ne same]

@[simp] theorem children_assign (a : ℕ) (f : V → V) (b : ℕ) : childrenAt (assign s a f) b = childrenAt s b := by
  by_cases same : b = a
  · subst same
    simp only [childrenAt,assign,update,Function.update_self]
    cases s.cells b <;> rfl
  · simp [childrenAt,assign,update,Function.update_of_ne same]

theorem value_assign (a : ℕ) (f : V → V) (b : ℕ) :
    valueAt (assign s a f) b = if b = a then (valueAt s a).map f else valueAt s b := by
  by_cases same : b = a
  · subst same
    simp only [valueAt,assign,update,Function.update_self,if_true]
    cases s.cells b <;> rfl
  · simp [valueAt,assign,update,same]

theorem Rooted.assign (rooted : Rooted s) (a : ℕ) (f : V → V) : Rooted (assign s a f) :=
  rooted.congr (link_assign a f) (children_assign a f) rfl

theorem path_assign (rooted : Rooted s) (a : ℕ) (f : V → V) {b : ℕ} (live : Live s b) :
    path (PointerTree.assign s a f) b = path s b :=
  path_frame rooted (rooted.assign a f) (fun c _ => link_assign a f c) ((live_congr (link_assign a f b)).mpr live)

theorem value_grow (a : ℕ) (k : K) (v : V) (b : ℕ) : valueAt (grow s a k v) b = if b = s.next then some v else valueAt s b := by
  by_cases fresh : b = s.next
  · subst fresh
    simp [valueAt,grow,update]
  · by_cases same : b = a
    · subst same
      simp only [valueAt,grow,update,Function.update_of_ne fresh,Function.update_self,if_neg fresh]
      cases s.cells b <;> rfl
    · simp [valueAt,grow,update,Function.update_of_ne same,fresh]

section Grow
variable {a : ℕ} (rooted : Rooted s) (live : Live s a) (k : K) (v : V)
include rooted

theorem next_free : s.cells s.next = none := by
  by_contra present
  exact lt_irrefl _ (rooted.below (a := s.next) (Option.isSome_iff_ne_none.mpr present))

include live

theorem link_grow (b : ℕ) : link (grow s a k v) b = if b = s.next then some (some a,k) else link s b := by
  have apart : a ≠ s.next := (rooted.below live).ne
  by_cases fresh : b = s.next
  · subst fresh
    simp [link,grow,update]
  · by_cases same : b = a
    · subst same
      simp only [link,grow,update,Function.update_of_ne fresh,Function.update_self,if_neg fresh]
      cases s.cells b <;> rfl
    · simp [link,grow,update,Function.update_of_ne same,fresh]

theorem children_grow (b : ℕ) :
    childrenAt (grow s a k v) b = if b = a then childrenAt s a ++ [s.next] else childrenAt s b := by
  have apart : a ≠ s.next := (rooted.below live).ne
  by_cases same : b = a
  · subst same
    simp only [childrenAt,grow,update,Function.update_of_ne apart,Function.update_self,if_true]
    obtain ⟨cell,read⟩ := Option.isSome_iff_exists.mp live
    simp [read]
  · by_cases fresh : b = s.next
    · subst fresh
      simp [childrenAt,grow,update,same,next_free rooted]
    · simp [childrenAt,grow,update,Function.update_of_ne fresh,same]

theorem distinct_grow (absent : ∀ c, link s c ≠ some (some a,k)) (p : ℕ) :
    ((childrenAt (grow s a k v) p).map (keyAt (grow s a k v))).Nodup := by
  have links := link_grow rooted live k v
  have unlinked : link s s.next = none := by simp [link,next_free rooted]
  have keys : ∀ {b}, b ∈ childrenAt s p → keyAt (grow s a k v) b = keyAt s b := by
    intro b member
    obtain ⟨k',linked⟩ := rooted.linked.mp member
    have old : b ≠ s.next := fun fresh => by simp [fresh,unlinked] at linked
    rw [keyAt_link,keyAt_link,links,if_neg old]
  have fresh : keyAt (grow s a k v) s.next = some k := by rw [keyAt_link,links]; simp
  rw [children_grow rooted live k v]
  split
  · rename_i same
    subst same
    rw [List.map_append,List.map_congr_left (fun b member => keys member)]
    simp only [List.map_cons,List.map_nil,fresh]
    refine List.nodup_append.mpr ⟨rooted.distinct p,by simp,?_⟩
    intro x member y last
    obtain ⟨b,among,rfl⟩ := List.mem_map.mp member
    obtain ⟨k',linked⟩ := rooted.linked.mp among
    rw [List.mem_singleton.mp last,link_keyAt linked]
    intro equal
    cases equal
    exact absent b linked
  · rw [List.map_congr_left (fun b member => keys member)]
    exact rooted.distinct p

theorem Rooted.grow (absent : ∀ c, link s c ≠ some (some a,k)) : Rooted (grow s a k v) := by
  have links := link_grow rooted live k v
  have children := children_grow rooted live k v
  have unlinked : link s s.next = none := by simp [link,next_free rooted]
  have zero : 0 ≠ s.next := (rooted.below rooted.zero).ne
  have lives : ∀ {b}, Live s b → Live (PointerTree.grow s a k v) b := by
    intro b old
    refine (live_congr ?_).mpr old
    rw [links,if_neg (rooted.below old).ne]
  refine ⟨?_,?_,?_,?_,?_,?_,?_⟩
  · rw [links,if_neg zero]
    exact rooted.root
  · intro b k' linked
    rw [links] at linked
    split at linked
    · cases linked
    · exact rooted.only linked
  · intro b present
    show b < s.next + 1
    obtain ⟨p,k',linked⟩ := live_link.mp present
    rw [links] at linked
    split at linked
    · omega
    · exact Nat.lt_succ_of_lt (rooted.below (live_link.mpr ⟨p,k',linked⟩))
  · intro b p k' linked
    rw [links] at linked
    split at linked
    · rename_i fresh
      cases linked
      rw [fresh]
      exact rooted.below live
    · exact rooted.older linked
  · intro p b
    rw [children,links]
    by_cases same : p = a
    · subst same
      rw [if_pos rfl,List.mem_append,List.mem_singleton,rooted.linked]
      by_cases fresh : b = s.next
      · simp [fresh]
      · simp [fresh]
    · rw [if_neg same,rooted.linked]
      by_cases fresh : b = s.next
      · have other : a ≠ p := fun equal => same equal.symm
        simp [fresh,unlinked,other]
      · simp [fresh]
  · intro b p k' linked
    rw [links] at linked
    split at linked
    · cases linked
      exact lives live
    · exact lives (rooted.parents linked)
  · exact distinct_grow rooted live k v absent

theorem path_grow (absent : ∀ c, link s c ≠ some (some a,k)) {b : ℕ} (old : Live s b) :
    path (PointerTree.grow s a k v) b = path s b := by
  have after := rooted.grow live k v absent
  refine (path_frame after rooted ?_ old).symm
  intro c present
  rw [link_grow rooted live k v,if_neg (rooted.below present).ne]

theorem path_grow_new (absent : ∀ c, link s c ≠ some (some a,k)) :
    path (PointerTree.grow s a k v) s.next = path s a ++ [k] := by
  rw [path_step (rooted.grow live k v absent) (by rw [link_grow rooted live k v,if_pos rfl]),
    path_grow rooted live k v absent live]

end Grow

theorem link_cut (s : Store K V) (p a b : ℕ) : link (cut s p a) b = if b = a then none else link s b := by
  by_cases gone : b = a
  · subst gone
    simp [link,cut,update]
  · by_cases same : b = p
    · subst same
      simp only [link,cut,update,Function.update_of_ne gone,Function.update_self,if_neg gone]
      cases s.cells b <;> rfl
    · simp [link,cut,update,Function.update_of_ne same,gone]

theorem value_cut (s : Store K V) (p a b : ℕ) : valueAt (cut s p a) b = if b = a then none else valueAt s b := by
  by_cases gone : b = a
  · subst gone
    simp [valueAt,cut,update]
  · by_cases same : b = p
    · subst same
      simp only [valueAt,cut,update,Function.update_of_ne gone,Function.update_self,if_neg gone]
      cases s.cells b <;> rfl
    · simp [valueAt,cut,update,Function.update_of_ne same,gone]

section Cut
variable {p a : ℕ} {k : K} (rooted : Rooted s) (linked : link s a = some (some p,k)) (leaf : childrenAt s a = [])
include rooted linked leaf

theorem children_cut (b : ℕ) : childrenAt (cut s p a) b = if b = p then (childrenAt s p).erase a else childrenAt s b := by
  have apart : p ≠ a := (rooted.older linked).ne
  by_cases same : b = p
  · subst same
    simp only [childrenAt,cut,update,Function.update_of_ne apart,Function.update_self,if_true]
    cases s.cells b <;> rfl
  · by_cases gone : b = a
    · subst gone
      rw [if_neg same,leaf]
      simp [childrenAt,cut,update]
    · simp [childrenAt,cut,update,Function.update_of_ne gone,same]

theorem distinct_cut (q : ℕ) : ((childrenAt (cut s p a) q).map (keyAt (cut s p a))).Nodup := by
  have keys : ∀ {b}, b ≠ a → keyAt (cut s p a) b = keyAt s b := by
    intro b kept
    rw [keyAt_link,keyAt_link,link_cut s p a,if_neg kept]
  have unique : (childrenAt s p).Nodup := List.Nodup.of_map _ (rooted.distinct p)
  rw [children_cut rooted linked leaf]
  split
  · rename_i same
    rw [List.map_congr_left (fun b member => keys (unique.mem_erase_iff.mp member).1)]
    exact (rooted.distinct p).sublist (List.erase_sublist.map _)
  · rename_i apart
    have kept : ∀ b ∈ childrenAt s q, b ≠ a := by
      intro b member gone
      obtain ⟨k',below⟩ := rooted.linked.mp member
      rw [gone,linked] at below
      cases below
      exact apart rfl
    rw [List.map_congr_left (fun b member => keys (kept b member))]
    exact rooted.distinct q

theorem Rooted.cut : Rooted (cut s p a) := by
  have links := link_cut s p a
  have children := children_cut rooted linked leaf
  have positive : a ≠ 0 := fun zero => by
    have lower := rooted.older linked
    omega
  have childless : ∀ b k', link s b ≠ some (some a,k') := by
    intro b k' below
    have member := rooted.linked.mpr ⟨k',below⟩
    rw [leaf] at member
    cases member
  have unique : (childrenAt s p).Nodup := List.Nodup.of_map _ (rooted.distinct p)
  refine ⟨?_,?_,?_,?_,?_,?_,?_⟩
  · rw [links,if_neg positive.symm]
    exact rooted.root
  · intro b k' given
    rw [links] at given
    split at given
    · cases given
    · exact rooted.only given
  · intro b present
    obtain ⟨q,k',given⟩ := live_link.mp present
    rw [links] at given
    split at given
    · cases given
    · exact rooted.below (live_link.mpr ⟨q,k',given⟩)
  · intro b q k' given
    rw [links] at given
    split at given
    · cases given
    · exact rooted.older given
  · intro q b
    rw [children,links]
    by_cases same : q = p
    · subst same
      rw [if_pos rfl,unique.mem_erase_iff,rooted.linked]
      by_cases gone : b = a
      · simp [gone]
      · simp [gone]
    · rw [if_neg same,rooted.linked]
      by_cases gone : b = a
      · have other : p ≠ q := fun equal => same equal.symm
        simp [gone,linked,other]
      · simp [gone]
  · intro b q k' given
    rw [links] at given
    split at given
    · cases given
    · have kept : q ≠ a := fun equal => childless b k' (equal ▸ given)
      refine (live_congr ?_).mpr (rooted.parents given)
      rw [links,if_neg kept]
  · exact distinct_cut rooted linked leaf

theorem path_cut {b : ℕ} (live : Live s b) (kept : b ≠ a) : path (PointerTree.cut s p a) b = path s b := by
  have links := link_cut s p a
  refine path_frame rooted (rooted.cut linked leaf) ?_ ((live_congr (by rw [links,if_neg kept])).mpr live)
  intro c present
  obtain ⟨q,k',given⟩ := live_link.mp present
  rw [links] at given ⊢
  split at given
  · cases given
  · rename_i other
    rw [if_neg other]

end Cut
-- Operations that take back what others have done.
section Undo

theorem assign_assign (s : Store K V) (a : ℕ) (f g : V → V) : assign (assign s a f) a g = assign s a (g ∘ f) := by
  simp only [assign,update,Function.update_self,Function.update_idem,Option.map_map]
  rfl

theorem assign_congr {a : ℕ} {f g : V → V} (same : ∀ v, valueAt s a = some v → f v = g v) : assign s a f = assign s a g := by
  have cell : (s.cells a).map (fun cell => {cell with value := f cell.value}) =
      (s.cells a).map (fun cell => {cell with value := g cell.value}) := by
    cases read : s.cells a with
    | none => rfl
    | some cell => rw [Option.map_some,Option.map_some,same cell.value (by simp [valueAt,read])]
  rw [assign,cell,assign]

theorem assign_id (s : Store K V) (a : ℕ) : assign s a id = s := by
  have cell : (s.cells a).map (fun cell => {cell with value := id cell.value}) = s.cells a := by
    cases s.cells a <;> rfl
  rw [assign,cell,update,Function.update_eq_self]

theorem assign_cells (same : t.cells = s.cells) (a : ℕ) (f : V → V) : (assign t a f).cells = (assign s a f).cells := by
  simp only [assign,update,same]

theorem assign_free {a : ℕ} (free : s.cells a = none) (f : V → V) : assign s a f = s := by
  rw [assign,update,free,Option.map_none,← free,Function.update_eq_self]

theorem cut_cells (same : t.cells = s.cells) (p a : ℕ) : (cut t p a).cells = (cut s p a).cells := by
  simp only [cut,update,same]

theorem cut_assign {p a : ℕ} (apart : p ≠ a) (f : V → V) : (cut (assign s a f) p a).cells = (cut s p a).cells := by
  simp only [cut,assign,update,Function.update_of_ne apart]
  rw [Function.update_comm apart,Function.update_idem]
  exact Function.update_comm apart.symm _ _ _

theorem cut_free {p a b : ℕ} (free : s.cells b = none) : (cut s p a).cells b = none := by
  by_cases gone : b = a
  · simp [cut,update,gone]
  · by_cases same : b = p
    · subst same
      simp [cut,update,gone,free]
    · simp [cut,update,gone,same,free]

theorem cut_grow {a : ℕ} (rooted : Rooted s) (live : Live s a) (k : K) (v : V) :
    (cut (grow s a k v) a s.next).cells = s.cells := by
  have apart : a ≠ s.next := (rooted.below live).ne
  have unlinked : s.next ∉ childrenAt s a := by
    intro member
    obtain ⟨k',linked⟩ := rooted.linked.mp member
    simp [link,next_free rooted] at linked
  obtain ⟨cell,read⟩ := Option.isSome_iff_exists.mp live
  have children : (cell.children ++ [s.next]).erase s.next = cell.children := by
    have absent : s.next ∉ cell.children := by simpa [childrenAt,read] using unlinked
    rw [List.erase_append_right _ absent,List.erase_cons_head,List.append_nil]
  funext b
  by_cases fresh : b = s.next
  · rw [fresh,next_free rooted]
    simp [cut,update]
  · by_cases same : b = a
    · subst same
      simp [cut,grow,update,fresh,read,children]
    · simp [cut,grow,update,fresh,same]

end Undo
end Operations
end NdnCxx.PointerTree
