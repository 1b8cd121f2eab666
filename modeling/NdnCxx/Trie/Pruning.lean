import NdnCxx.Trie.Node

namespace NdnCxx.Trie
open PointerTree

variable {K P : Type}

section Pruning
variable {t u : Trie K P}

theorem payload_cells (same : u.cells = t.cells) : payloadAt u = payloadAt t := by
  funext a
  simp only [payloadAt,valueAt,same]

-- The loop reads nothing but the cells.
theorem pruneFrom_cells (fuel : ℕ) (same : u.cells = t.cells) (a : ℕ) :
    (pruneFrom fuel u a).1.cells = (pruneFrom fuel t a).1.cells := by
  induction fuel generalizing t u a with
  | zero => exact same
  | succ fuel ih =>
    have links : link u a = link t a := by rw [link,same,link]
    have children : childrenAt u a = childrenAt t a := by rw [childrenAt,same,childrenAt]
    simp only [pruneFrom,payload_cells same,children,links]
    split
    · split
      · exact ih (cut_cells same _ a) _
      · exact same
    · exact same

theorem pruneFrom_free (fuel : ℕ) {a b : ℕ} (free : t.cells b = none) : (pruneFrom fuel t a).1.cells b = none := by
  induction fuel generalizing t a with
  | zero => exact free
  | succ fuel ih =>
    rw [pruneFrom]
    split
    · split
      · exact ih (cut_free free)
      · exact free
    · exact free

theorem pruneFrom_stays (fuel : ℕ) {a : ℕ} (held : ¬Empty t a) : pruneFrom fuel t a = (t,a) := by
  cases fuel with
  | zero => rfl
  | succ fuel =>
    rw [pruneFrom,if_neg]
    exact fun empty => held ⟨Option.isNone_iff_eq_none.mp empty.1,empty.2⟩

theorem pruneFrom_root (rooted : Rooted t) (fuel : ℕ) : pruneFrom fuel t 0 = (t,0) := by
  obtain ⟨k,linked⟩ := rooted.root
  cases fuel with
  | zero => rfl
  | succ fuel =>
    rw [pruneFrom,linked]
    split <;> rfl

theorem pruneFrom_goes (fuel : ℕ) {a p : ℕ} {k : K} (linked : link t a = some (some p,k)) (empty : Empty t a) :
    pruneFrom (fuel + 1) t a = pruneFrom fuel (cut t p a) p := by
  rw [pruneFrom,if_pos ⟨Option.isNone_iff_eq_none.mpr empty.1,empty.2⟩,linked]

-- Any fuel above the address is enough, since parents are older.
theorem pruneFrom_enough (rooted : Rooted t) {a first second : ℕ} (live : Live t a) (enough : a < first)
    (more : a < second) : (pruneFrom first t a).1 = (pruneFrom second t a).1 := by
  induction first generalizing t a second with
  | zero => omega
  | succ first ih =>
    obtain ⟨second,rfl⟩ : ∃ rest, second = rest + 1 := ⟨second - 1,by omega⟩
    by_cases empty : Empty t a
    · rcases live_cases rooted live with rfl | ⟨p,k,linked⟩
      · rw [pruneFrom_root rooted,pruneFrom_root rooted]
      · have lower := rooted.older linked
        have above : Live (cut t p a) p :=
          (live_congr (by rw [link_cut,if_neg lower.ne])).mpr (rooted.parents linked)
        rw [pruneFrom_goes first linked empty,pruneFrom_goes second linked empty]
        exact ih (rooted.cut linked empty.2) above (by omega) (by omega)
    · rw [pruneFrom_stays _ empty,pruneFrom_stays _ empty]

theorem grown_empty {a : ℕ} (rooted : Rooted t) (live : Live t a) (k : K) : Empty (grow t a k ⟨none,0⟩) t.next := by
  constructor
  · rw [payloadAt,value_grow,if_pos rfl]
    rfl
  · rw [children_grow rooted live k,if_neg (rooted.below live).ne']
    simp [childrenAt,next_free rooted]

variable [DecidableEq K]

-- Whatever the loop of an insert adds for a key is taken away again if nothing is put
-- there: pruning at its end is like pruning where it began.
theorem extend_pruneFrom {a : ℕ} (key : List K) (rooted : Rooted t) (live : Live t a) (pruned : PrunedBut t a)
    {first second : ℕ} (enough : a < first) (more : (extend t a key).2 < second) :
    (pruneFrom second (extend t a key).1 (extend t a key).2).1.cells = (pruneFrom first t a).1.cells := by
  induction key generalizing t a first second with
  | nil => rw [extend,pruneFrom_enough rooted live more enough]
  | cons subkey key ih =>
    rw [extend] at more ⊢
    cases found : child t a subkey with
    | some c =>
      rw [found] at more
      have linked := (child_iff rooted).mp found
      have member : c ∈ childrenAt t a := rooted.linked.mpr ⟨_,linked⟩
      have present : Live t c := live_link.mpr ⟨_,_,linked⟩
      have older := rooted.older linked
      have here : ¬Empty t a := by
        intro empty
        rw [empty.2] at member
        cases member
      have there : ¬Empty t c := pruned c present (by omega) (by omega)
      have below := ih rooted present (descend_pruned pruned member) (Nat.lt_succ_self c) more
      dsimp only
      rw [below,pruneFrom_stays _ there,pruneFrom_stays _ here]
    | none =>
      rw [found] at more
      have absent := child_none rooted found
      have linked : link (grow t a subkey ⟨none,0⟩) t.next = some (some a,subkey) := by
        rw [link_grow rooted live subkey,if_pos rfl]
      have below := ih (rooted.grow live subkey _ absent) (grow_live rooted live subkey)
        (grow_pruned rooted live subkey pruned) (Nat.lt_succ_self t.next) more
      dsimp only
      rw [below,pruneFrom_goes _ linked (grown_empty rooted live subkey),
        pruneFrom_cells t.next (cut_grow rooted live subkey _),pruneFrom_enough rooted live (rooted.below live) enough]

-- The number in the hook of the new node makes no difference to that.
theorem extend_withdrawn (rooted : Rooted t) (pruned : Pruned t) (key : List K)
    (free : payloadAt (extend t 0 key).1 (extend t 0 key).2 = none) (order : ℕ) :
    (prune (setOrder (extend t 0 key).1 (extend t 0 key).2 order) (extend t 0 key).2).1.cells =
      (setOrder t (extend t 0 key).2 order).cells := by
  have extended := extend_spec key rooted rooted.zero (path_root rooted)
  have whole := extend_pruneFrom key rooted rooted.zero (fun b present nonroot _ => pruned b present nonroot) (Nat.lt_succ_self 0)
    (Nat.lt_succ_self (extend t 0 key).2)
  rw [pruneFrom_root rooted] at whole
  generalize extend t 0 key = result at extended whole free
  obtain ⟨x,b⟩ := result
  dsimp only at extended whole free ⊢
  have links : link (setOrder x b order) b = link x b := link_assign b _ b
  have children : childrenAt (setOrder x b order) b = childrenAt x b := children_assign b _ b
  rcases pruneFrom_turn b extended.rooted extended.live with ⟨stays,stop⟩ | ⟨p,k,linked,empty,_,goes⟩
  · have kept : (prune (setOrder x b order) b).1 = setOrder x b order := by
      rcases stop with rfl | held
      · rw [prune,pruneFrom_root (setOrder_rooted extended.rooted _ _)]
      · rw [prune,pruneFrom_stays]
        rintro ⟨bare,leaf⟩
        rw [payload_setOrder] at bare
        rw [children] at leaf
        exact held ⟨bare,leaf⟩
    rw [stays] at whole
    rw [kept]
    exact assign_cells whole b _
  · have apart : p ≠ b := (extended.rooted.older linked).ne
    have gone : t.cells b = none := by
      rw [← whole,goes]
      exact pruneFrom_free b (by simp [cut,update])
    have same : Empty (setOrder x b order) b := ⟨by rw [payload_setOrder]; exact free,by rw [children]; exact empty.2⟩
    have cells : (cut (setOrder x b order) p b).cells = (cut x p b).cells := cut_assign apart _
    rw [prune,pruneFrom_goes b (links.trans linked) same,pruneFrom_cells b cells,← goes,whole,setOrder,assign_free gone]

end Pruning
end NdnCxx.Trie
