import NdnCxx.Trie.Pruning

namespace NdnCxx.Trie
open PointerTree

variable {K P : Type}

-- What an iteration of a set comes to after one of its elements.
def after (a : ℕ) : List ℕ → List ℕ
  | [] => []
  | x :: l => if x = a then l else after a l

def siblingsAfter (t : Trie K P) (order : Enumeration) (parent a : ℕ) : List ℕ := after a (order.arrange (childrenAt t parent))

-- `trie_iterator::goUp`; parents are older, so that the address bounds the way up.
def goUp (t : Trie K P) (order : Enumeration) : ℕ → ℕ → Option ℕ
  | 0,_ => none
  | fuel + 1,a =>
    match link t a with
    | some (some parent,_) =>
      match siblingsAfter t order parent a with
      | next :: _ => some next
      | [] => goUp t order fuel parent
    | _ => none

-- `operator ++` of the recursive iterators.
def advance (t : Trie K P) (order : Enumeration) (a : ℕ) : Option ℕ :=
  match order.arrange (childrenAt t a) with
  | first :: _ => some first
  | [] => goUp t order (a + 1) a

section After
variable {a d : ℕ} {l rest : List ℕ}

theorem after_mem (member : d ∈ after a l) : d ∈ l := by
  induction l with
  | nil => cases member
  | cons x l ih =>
    rw [after] at member
    split at member
    · exact .tail _ member
    · exact .tail _ (ih member)

theorem after_self (unique : l.Nodup) : a ∉ after a l := by
  induction l with
  | nil => exact List.not_mem_nil
  | cons x l ih =>
    obtain ⟨absent,unique⟩ := List.nodup_cons.mp unique
    rw [after]
    split
    · rename_i same
      exact same ▸ absent
    · exact ih unique

theorem after_next (unique : l.Nodup) (next : after a l = d :: rest) : after d l = rest := by
  induction l with
  | nil => cases next
  | cons x l ih =>
    obtain ⟨absent,unique⟩ := List.nodup_cons.mp unique
    rw [after] at next
    have later : d ∈ l := by
      split at next
      · rw [next]
        exact List.mem_cons_self
      · exact after_mem (next ▸ List.mem_cons_self)
    rw [after,if_neg (fun same : x = d => absent (same ▸ later))]
    split at next
    · rw [next,after,if_pos rfl]
    · exact ih unique next

end After

-- The nodes that a walk comes to when it is done with the subtrie at a node.
inductive Later (t : Trie K P) (order : Enumeration) : ℕ → ℕ → Prop where
  | sibling {a p d b : ℕ} {k : K} : link t a = some (some p,k) → d ∈ siblingsAfter t order p a → Under t d b →
      Later t order a b
  | above {a p b : ℕ} {k : K} : link t a = some (some p,k) → Later t order p b → Later t order a b

-- What a walk that is at a node has still to come to, the node included.
def Ahead (t : Trie K P) (order : Enumeration) (a b : ℕ) : Prop := Under t a b ∨ Later t order a b

section Walk
variable {t : Trie K P} {order : Enumeration}

theorem arranged_mem (order : Enumeration) {children : List ℕ} {c : ℕ} : c ∈ order.arrange children ↔ c ∈ children :=
  (order.perm children).mem_iff

theorem arranged_nodup (rooted : Rooted t) (order : Enumeration) (p : ℕ) : (order.arrange (childrenAt t p)).Nodup :=
  (order.perm _).nodup_iff.mpr (List.Nodup.of_map _ (rooted.distinct p))

theorem sibling_member {p a d : ℕ} (next : d ∈ siblingsAfter t order p a) : d ∈ childrenAt t p :=
  (arranged_mem order).mp (after_mem next)

theorem sibling_apart (rooted : Rooted t) {p a d : ℕ} (next : d ∈ siblingsAfter t order p a) : d ≠ a :=
  fun same => after_self (arranged_nodup rooted order p) (same ▸ next)

theorem later_step {a p b : ℕ} {k : K} (linked : link t a = some (some p,k)) :
    Later t order a b ↔ (∃ d ∈ siblingsAfter t order p a, Under t d b) ∨ Later t order p b := by
  constructor
  · intro later
    cases later with
    | sibling given next below =>
      rw [linked] at given
      cases given
      exact .inl ⟨_,next,below⟩
    | above given later =>
      rw [linked] at given
      cases given
      exact .inr later
  · rintro (⟨d,next,below⟩ | later)
    · exact .sibling linked next below
    · exact .above linked later

theorem goUp_live (rooted : Rooted t) {fuel a d : ℕ} (went : goUp t order fuel a = some d) : Live t d := by
  induction fuel generalizing a with
  | zero => cases went
  | succ fuel ih =>
    rw [goUp] at went
    split at went
    · rename_i p k linked
      split at went
      · rename_i next rest siblings
        cases went
        have member : d ∈ siblingsAfter t order p a := by
          rw [siblings]
          exact List.mem_cons_self
        obtain ⟨k',below⟩ := rooted.linked.mp (sibling_member member)
        exact live_link.mpr ⟨_,_,below⟩
      · exact ih went
    · cases went

theorem advance_live (rooted : Rooted t) {a d : ℕ} (went : advance t order a = some d) : Live t d := by
  unfold advance at went
  split at went
  · rename_i first rest children
    cases went
    have member : d ∈ order.arrange (childrenAt t a) := by
      rw [children]
      exact List.mem_cons_self
    obtain ⟨k,below⟩ := rooted.linked.mp ((arranged_mem order).mp member)
    exact live_link.mpr ⟨_,_,below⟩
  · exact goUp_live rooted went

-- A subtrie is the same subtrie as long as its links are.
theorem ahead_congr {u : Trie K P} (before : Rooted t) (after : Rooted u) (links : ∀ b, link u b = link t b)
    (children : ∀ b, childrenAt u b = childrenAt t b) {a b : ℕ} (live : Live t a) :
    Ahead u order a b ↔ Ahead t order a b := by
  have paths : ∀ {c}, Live t c → path u c = path t c := fun present =>
    path_frame before after (fun c _ => links c) ((live_congr (links _)).mpr present)
  have unders : ∀ {c d}, Live t c → (Under u c d ↔ Under t c d) := by
    intro c d present
    constructor
    · rintro ⟨there,longer⟩
      have here := (live_congr (links d)).mp there
      rw [paths present,paths here] at longer
      exact ⟨here,longer⟩
    · rintro ⟨here,longer⟩
      rw [← paths present,← paths here] at longer
      exact ⟨(live_congr (links d)).mpr here,longer⟩
  have siblings : ∀ p c, siblingsAfter u order p c = siblingsAfter t order p c := by
    intro p c
    rw [siblingsAfter,children,siblingsAfter]
  have member : ∀ {p c d}, d ∈ siblingsAfter t order p c → Live t d := by
    intro p c d next
    obtain ⟨k,below⟩ := before.linked.mp (sibling_member next)
    exact live_link.mpr ⟨_,_,below⟩
  refine or_congr (unders live) ⟨?_,?_⟩
  · intro later
    induction later with
    | sibling linked next under =>
      rw [links] at linked
      rw [siblings] at next
      exact .sibling linked next ((unders (member next)).mp under)
    | above linked _ ih =>
      rw [links] at linked
      exact .above linked (ih (before.parents linked))
  · intro later
    clear live
    induction later with
    | sibling linked next under =>
      refine .sibling ((links _).trans linked) ?_ ((unders (member next)).mpr under)
      rwa [siblings]
    | above linked _ ih => exact .above ((links _).trans linked) ih

-- Going up ends at the next node that is not below the one it started from.
theorem goUp_later (rooted : Rooted t) {fuel a : ℕ} (enough : a < fuel) (live : Live t a) (b : ℕ) :
    Later t order a b ↔ ∃ d, goUp t order fuel a = some d ∧ Ahead t order d b := by
  induction fuel generalizing a with
  | zero => omega
  | succ fuel ih =>
    rw [goUp]
    rcases live_cases rooted live with rfl | ⟨p,k,linked⟩
    · obtain ⟨k,root⟩ := rooted.root
      rw [root]
      constructor
      · intro later
        cases later with
        | sibling given _ _ =>
          rw [root] at given
          cases given
        | above given _ =>
          rw [root] at given
          cases given
      · rintro ⟨d,went,_⟩
        cases went
    · have lower := rooted.older linked
      rw [linked,later_step linked]
      dsimp only
      cases siblings : siblingsAfter t order p a with
      | nil =>
        rw [← ih (by omega) (rooted.parents linked)]
        simp
      | cons next rest =>
        have member : next ∈ siblingsAfter t order p a := by
          rw [siblings]
          exact List.mem_cons_self
        obtain ⟨k',below⟩ := rooted.linked.mp (sibling_member member)
        have others : siblingsAfter t order p next = rest := after_next (arranged_nodup rooted order p) siblings
        simp only [Option.some.injEq,exists_eq_left',Ahead,later_step below,others,List.mem_cons,exists_eq_or_imp,or_assoc]

variable [DecidableEq K]

-- A later node is neither above nor below.
theorem later_apart (rooted : Rooted t) {a b : ℕ} (later : Later t order a b) :
    ¬path t a <+: path t b ∧ ¬path t b <+: path t a := by
  induction later with
  | @sibling a p d b k linked next below =>
    have apart := sibling_apart rooted next
    have member := rooted.linked.mpr ⟨k,linked⟩
    have self := under_self (live_link.mpr ⟨_,_,linked⟩)
    constructor
    · intro above
      exact apart (under_disjoint rooted (sibling_member next) member below ⟨below.1,above⟩)
    · intro under
      exact apart (under_disjoint rooted (sibling_member next) member ⟨self.1,below.2.trans under⟩ self)
  | @above a p b k linked _ ih =>
    rw [path_step rooted linked]
    constructor
    · intro above
      exact ih.1 ((List.prefix_append _ _).trans above)
    · intro under
      rcases List.prefix_concat_iff.mp under with same | shorter
      · exact ih.1 (same ▸ List.prefix_append _ _)
      · exact ih.2 shorter

theorem later_ne (rooted : Rooted t) {a b : ℕ} (later : Later t order a b) : b ≠ a := by
  rintro rfl
  exact (later_apart rooted later).1 List.prefix_rfl

theorem under_below (rooted : Rooted t) {a b : ℕ} (live : Live t a) :
    Under t a b ∧ b ≠ a ↔ ∃ c ∈ childrenAt t a, Under t c b := by
  constructor
  · rintro ⟨under,apart⟩
    exact (under_cases rooted live under).resolve_left apart
  · rintro ⟨c,member,under⟩
    exact under_child rooted member under

-- One `++` leaves what is ahead but the node itself.
theorem advance_ahead (rooted : Rooted t) {a : ℕ} (live : Live t a) (b : ℕ) :
    (Ahead t order a b ∧ b ≠ a) ↔ ∃ d, advance t order a = some d ∧ Ahead t order d b := by
  have parts : (Ahead t order a b ∧ b ≠ a) ↔ (∃ c ∈ order.arrange (childrenAt t a), Under t c b) ∨ Later t order a b := by
    simp only [arranged_mem,← under_below rooted live,Ahead]
    constructor
    · rintro ⟨under | later,apart⟩
      · exact .inl ⟨under,apart⟩
      · exact .inr later
    · rintro (⟨under,apart⟩ | later)
      · exact ⟨.inl under,apart⟩
      · exact ⟨.inr later,later_ne rooted later⟩
  rw [parts,advance]
  cases children : order.arrange (childrenAt t a) with
  | nil =>
    rw [← goUp_later rooted (Nat.lt_succ_self a) live]
    simp
  | cons first rest =>
    have member : first ∈ childrenAt t a := by
      rw [← arranged_mem order,children]
      exact List.mem_cons_self
    obtain ⟨k,below⟩ := rooted.linked.mp member
    have others : siblingsAfter t order a first = rest := by
      rw [siblingsAfter,children,after,if_pos rfl]
    simp only [Option.some.injEq,exists_eq_left',Ahead,later_step below,others,List.mem_cons,exists_eq_or_imp,or_assoc]

end Walk

section Cutting
variable {t : Trie K P} {order : Enumeration} {p a : ℕ} {k : K} (rooted : Rooted t) (linked : link t a = some (some p,k))
  (leaf : childrenAt t a = [])
include rooted linked leaf

theorem under_cut {c b : ℕ} (top : c ≠ a) (kept : b ≠ a) (live : Live t c) (under : Under t c b) : Under (cut t p a) c b := by
  refine ⟨(live_congr (by rw [link_cut,if_neg kept])).mpr under.1,?_⟩
  rw [path_cut rooted linked leaf live top,path_cut rooted linked leaf under.1 kept]
  exact under.2

-- Above the parent of the node that is cut off nothing changes.
theorem later_cut {x b : ℕ} (later : Later t order x b) (upper : x ≤ p) (kept : b ≠ a) : Later (cut t p a) order x b := by
  have lower := rooted.older linked
  induction later with
  | @sibling x q d b k' given next under =>
    have older := rooted.older given
    have same : link (cut t p a) x = some (some q,k') := by rw [link_cut,if_neg (by omega),given]
    have siblings : siblingsAfter (cut t p a) order q x = siblingsAfter t order q x := by
      rw [siblingsAfter,children_cut rooted linked leaf,if_neg (by omega),siblingsAfter]
    obtain ⟨j,below⟩ := rooted.linked.mp (sibling_member next)
    have apart : d ≠ a := by
      rintro rfl
      rw [linked] at below
      cases below
      omega
    refine .sibling same (by rwa [siblings]) ?_
    exact under_cut rooted linked leaf apart kept (live_link.mpr ⟨_,_,below⟩) under
  | @above x q b k' given _ ih =>
    have older := rooted.older given
    have same : link (cut t p a) x = some (some q,k') := by rw [link_cut,if_neg (by omega),given]
    exact .above same (ih (by omega) kept)

variable [DecidableEq K]

-- What was ahead of a leaf is ahead of its parent once the leaf is cut off: the walk
-- begins anew with the first child of the parent.
theorem ahead_cut {b : ℕ} (ahead : Ahead t order a b) (kept : b ≠ a) : Ahead (cut t p a) order p b ∧ b ≠ p := by
  have live := live_link.mpr ⟨_,_,linked⟩
  have apart : p ≠ a := (rooted.older linked).ne
  have above := rooted.parents linked
  have later : Later t order a b := by
    refine ahead.resolve_left ?_
    intro under
    obtain ⟨c,member,_⟩ := (under_below rooted live).mp ⟨under,kept⟩
    rw [leaf] at member
    cases member
  rcases (later_step linked).mp later with ⟨d,next,under⟩ | later
  · obtain ⟨below,other⟩ := under_child rooted (sibling_member next) under
    exact ⟨.inl (under_cut rooted linked leaf apart kept above below),other⟩
  · exact ⟨.inr (later_cut rooted linked leaf later le_rfl kept),later_ne rooted later⟩

end Cutting
end NdnCxx.Trie
