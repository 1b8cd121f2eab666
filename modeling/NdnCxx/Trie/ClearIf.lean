import NdnCxx.Trie.Iterator
import NdnCxx.Trie.Synchrony

namespace NdnCxx.Trie
open PointerTree

variable {K P : Type}

-- The predicate sees the key and the payload of a node.
def holdsAt (cond : K → Option P → Bool) (t : Trie K P) (a : ℕ) : Bool := (keyAt t a).any (fun key => cond key (payloadAt t a))

-- The loop of `clear_if`. No result means that the fuel is used up before the walk is
-- over.
def clearIfFrom (order : Enumeration) (cond : K → Option P → Bool) : ℕ → Trie K P → Option ℕ → Option (Trie K P)
  | _,t,none => some t
  | 0,_,some _ => none
  | fuel + 1,t,some a =>
    let (t,a) := if holdsAt cond t a then erase t a else (t,a)
    clearIfFrom order cond fuel t (advance t order a)

def clearIf (order : Enumeration) (cond : K → Option P → Bool) (fuel : ℕ) (t : Trie K P) : Option (Trie K P) :=
  clearIfFrom order cond fuel t (some 0)

-- An entry that the predicate holds for.
def Doomed (cond : K → Option P → Bool) (t : Trie K P) (a : ℕ) : Prop := payloadAt t a ≠ none ∧ holdsAt cond t a = true

instance (cond : K → Option P → Bool) (t : Trie K P) (a : ℕ) : Decidable (Doomed cond t a) :=
  decidable_of_iff ((payloadAt t a).isSome = true ∧ holdsAt cond t a = true) (and_congr_left' Option.isSome_iff_ne_none)

-- What is left of `t`: some of the doomed entries are gone, the others are where they
-- were.
structure Cleaned (cond : K → Option P → Bool) (t u : Trie K P) : Prop where
  payloads : ∀ b, payloadAt u b = payloadAt t b ∨ (Doomed cond t b ∧ payloadAt u b = none)
  keys : ∀ b, payloadAt u b ≠ none → keyAt u b = keyAt t b
  paths : ∀ b, payloadAt u b ≠ none → path u b = path t b
  root : link u 0 = link t 0

def population (t : Trie K P) : ℕ := ((Finset.range t.next).filter (fun a => (t.cells a).isSome)).card

section Cleaning
variable {cond : K → Option P → Bool} {t u v : Trie K P}

theorem Cleaned.refl (t : Trie K P) : Cleaned cond t t := ⟨fun _ => .inl rfl,fun _ _ => rfl,fun _ _ => rfl,rfl⟩

theorem Cleaned.held (cleaned : Cleaned cond t u) {b : ℕ} (held : payloadAt u b ≠ none) : payloadAt t b = payloadAt u b :=
  ((cleaned.payloads b).resolve_right (fun gone => held gone.2)).symm

theorem Cleaned.doomed (cleaned : Cleaned cond t u) {b : ℕ} (doomed : Doomed cond u b) : Doomed cond t b := by
  obtain ⟨held,holds⟩ := doomed
  have same := cleaned.held held
  rw [holdsAt,cleaned.keys b held,← same] at holds
  exact ⟨by rwa [same],holds⟩

theorem Cleaned.trans (first : Cleaned cond t u) (second : Cleaned cond u v) : Cleaned cond t v where
  payloads b := by
    rcases second.payloads b with same | ⟨doomed,gone⟩
    · rw [same]
      exact first.payloads b
    · exact .inr ⟨first.doomed doomed,gone⟩
  keys b held := (second.keys b held).trans (first.keys b (by rwa [second.held held]))
  paths b held := (second.paths b held).trans (first.paths b (by rwa [second.held held]))
  root := second.root.trans first.root

-- When nothing doomed is left, exactly the doomed entries are gone.
theorem Cleaned.exact (cleaned : Cleaned cond t u) (none_left : ∀ b, ¬Doomed cond u b) (b : ℕ) :
    payloadAt u b = if Doomed cond t b then none else payloadAt t b := by
  split
  · rename_i doomed
    rcases cleaned.payloads b with same | ⟨_,gone⟩
    · by_contra held
      have key := cleaned.keys b held
      refine none_left b ⟨held,?_⟩
      rw [holdsAt,key,same]
      exact doomed.2
    · exact gone
  · rename_i spared
    exact (cleaned.payloads b).resolve_right (fun gone => spared gone.1)

end Cleaning

-- What the way up of `prune` leaves to a walk: what was ahead of the node it began at is
-- ahead of the node it ends at.
structure Receded (order : Enumeration) (t u : Trie K P) (a p : ℕ) : Prop where
  live : Live u p
  next : u.next = t.next
  links : ∀ b, Live u b → link u b = link t b
  ahead : ∀ b, payloadAt t b ≠ none → Ahead t order a b → b ≠ a → Ahead u order p b ∧ b ≠ p
  fewer : (u = t ∧ p = a) ∨ population u < population t

section Receding
variable {t u : Trie K P} {order : Enumeration}

theorem Receded.refl {a : ℕ} (live : Live t a) : Receded order t t a a :=
  ⟨live,rfl,fun _ _ => rfl,fun _ _ ahead kept => ⟨ahead,kept⟩,.inl ⟨rfl,rfl⟩⟩

theorem population_congr (next : u.next = t.next) (links : ∀ b, link u b = link t b) : population u = population t := by
  have lives : ∀ b, (u.cells b).isSome = (t.cells b).isSome := fun b => Bool.eq_iff_iff.mpr (live_congr (links b))
  simp only [population,next,lives]

theorem population_cut {p a : ℕ} (rooted : Rooted t) (live : Live t a) : population (cut t p a) < population t := by
  apply Finset.card_lt_card
  rw [Finset.ssubset_iff_of_subset]
  · refine ⟨a,Finset.mem_filter.mpr ⟨Finset.mem_range.mpr (rooted.below live),live⟩,?_⟩
    intro member
    have left := (Finset.mem_filter.mp member).2
    simp [cut,update] at left
  · intro b member
    obtain ⟨below,present⟩ := Finset.mem_filter.mp member
    refine Finset.mem_filter.mpr ⟨below,?_⟩
    obtain ⟨q,k,linked⟩ := live_link.mp present
    rw [link_cut] at linked
    split at linked
    · cases linked
    · exact live_link.mpr ⟨q,k,linked⟩

variable [DecidableEq K]

theorem pruneFrom_receded (fuel : ℕ) {a : ℕ} (rooted : Rooted t) (live : Live t a) :
    Receded order t (pruneFrom fuel t a).1 a (pruneFrom fuel t a).2 := by
  induction fuel generalizing t a with
  | zero => exact .refl live
  | succ fuel ih =>
    by_cases empty : Empty t a
    · rcases live_cases rooted live with rfl | ⟨p,k,linked⟩
      · rw [pruneFrom_root rooted]
        exact .refl live
      · have lower := rooted.older linked
        have above : Live (cut t p a) p :=
          (live_congr (by rw [link_cut,if_neg lower.ne])).mpr (rooted.parents linked)
        have further := ih (rooted.cut linked empty.2) above
        rw [pruneFrom_goes fuel linked empty]
        refine ⟨further.live,further.next,?_,?_,.inr ?_⟩
        · intro b present
          have same := further.links b present
          obtain ⟨q,k',given⟩ := live_link.mp present
          rw [link_cut] at same
          split at same
          · rw [same] at given
            cases given
          · exact same
        · intro b held ahead kept
          obtain ⟨there,other⟩ := ahead_cut rooted linked empty.2 ahead kept
          refine further.ahead b ?_ there other
          rwa [(cut_kept rooted linked empty).payloads]
        · have first := @population_cut _ _ t p a rooted live
          rcases further.fewer with ⟨same,_⟩ | fewer
          · rwa [same]
          · exact fewer.trans first
    · rw [pruneFrom_stays _ empty]
      exact .refl live

end Receding

section Work
variable {t u : Trie K P} {order : Enumeration}

open Classical in
noncomputable def remaining (t : Trie K P) (order : Enumeration) (a : ℕ) : ℕ :=
  ((Finset.range t.next).filter (Ahead t order a)).card

-- Every turn of the loop frees a node or comes nearer to the end of the walk.
noncomputable def work (t : Trie K P) (order : Enumeration) (a : ℕ) : ℕ := population t * (t.next + 1) + remaining t order a

open Classical in
theorem remaining_le (t : Trie K P) (order : Enumeration) (a : ℕ) : remaining t order a ≤ t.next := by
  refine (Finset.card_filter_le _ _).trans ?_
  rw [Finset.card_range]

theorem population_le (t : Trie K P) : population t ≤ t.next := by
  refine (Finset.card_filter_le _ _).trans ?_
  rw [Finset.card_range]

theorem work_le (t : Trie K P) (order : Enumeration) (a : ℕ) : work t order a ≤ (t.next + 1)^2 := by
  have few := population_le t
  have left := remaining_le t order a
  unfold work
  nlinarith

theorem work_population (next : u.next = t.next) (fewer : population u < population t) (order : Enumeration) (a d : ℕ) :
    work u order d < work t order a := by
  have left := remaining_le u order d
  have product : (population u + 1) * (t.next + 1) ≤ population t * (t.next + 1) := Nat.mul_le_mul_right _ fewer
  unfold work
  rw [next] at left ⊢
  linarith

variable [DecidableEq K]

omit [DecidableEq K] in
open Classical in
theorem work_positive (rooted : Rooted t) {a : ℕ} (live : Live t a) : 0 < work t order a := by
  have member : a ∈ (Finset.range t.next).filter (Ahead t order a) :=
    Finset.mem_filter.mpr ⟨Finset.mem_range.mpr (rooted.below live),.inl (under_self live)⟩
  exact Nat.add_pos_right _ (Finset.card_pos.mpr ⟨a,member⟩)

open Classical in
-- Without pruning, one `++` leaves less work than there was at a node with the same
-- links ahead.
theorem work_advance (rooted : Rooted u) {a d : ℕ} (live : Live u a) (next : u.next = t.next)
    (count : population u = population t) (same : ∀ b, Ahead u order a b ↔ Ahead t order a b)
    (went : advance u order a = some d) : work u order d < work t order a := by
  have fewer : remaining u order d < remaining t order a := by
    apply Finset.card_lt_card
    rw [Finset.ssubset_iff_of_subset]
    · refine ⟨a,?_,?_⟩
      · rw [Finset.mem_filter,Finset.mem_range,← next,← same]
        exact ⟨rooted.below live,.inl (under_self live)⟩
      · intro member
        have back := (advance_ahead rooted live a).mpr ⟨d,went,(Finset.mem_filter.mp member).2⟩
        exact back.2 rfl
    · intro b member
      rw [Finset.mem_filter,Finset.mem_range] at member ⊢
      have front := (advance_ahead rooted live b).mpr ⟨d,went,member.2⟩
      exact ⟨next ▸ member.1,(same b).mp front.1⟩
  unfold work
  rw [next,count]
  omega

end Work

-- What one turn of the loop does before the `++`.
structure Visited (order : Enumeration) (cond : K → Option P → Bool) (t : Trie K P) (a : ℕ) (u : Trie K P) (p : ℕ) : Prop where
  rooted : Rooted u
  pruned : Pruned u
  live : Live u p
  cleaned : Cleaned cond t u
  ahead : ∀ b, Doomed cond u b → Ahead u order p b ∧ b ≠ p
  less : ∀ {d}, advance u order p = some d → work u order d < work t order a

section Turns
variable [DecidableEq K] {t : Trie K P} {order : Enumeration} {cond : K → Option P → Bool} {a : ℕ}

theorem passed_visited (rooted : Rooted t) (pruned : Pruned t) (live : Live t a)
    (doomed : ∀ b, Doomed cond t b → Ahead t order a b) (spared : ¬holdsAt cond t a = true) : Visited order cond t a t a where
  rooted := rooted
  pruned := pruned
  live := live
  cleaned := .refl t
  ahead b gone := ⟨doomed b gone,fun same => spared (same ▸ gone.2)⟩
  less went := work_advance rooted live rfl rfl (fun _ => Iff.rfl) went

theorem erased_visited (rooted : Rooted t) (pruned : Pruned t) (live : Live t a)
    (doomed : ∀ b, Doomed cond t b → Ahead t order a b) (holds : holdsAt cond t a = true) :
    Visited order cond t a (erase t a).1 (erase t a).2 := by
  have links : ∀ b, link (setPayload t a none) b = link t b := link_assign a _
  have children : ∀ b, childrenAt (setPayload t a none) b = childrenAt t b := children_assign a _
  have bare := setPayload_rooted rooted a none
  have present : Live (setPayload t a none) a := (live_congr (links a)).mpr live
  have same : ∀ b, Ahead (setPayload t a none) order a b ↔ Ahead t order a b := fun b =>
    ahead_congr rooted bare links children live
  have erased := erase_spec rooted live
  have receded : Receded order (setPayload t a none) (erase t a).1 a (erase t a).2 := pruneFrom_receded (a + 1) bare present
  have kept : ∀ {b}, payloadAt (erase t a).1 b ≠ none → b ≠ a ∧ payloadAt t b ≠ none := by
    intro b held
    rw [erased.payloads] at held
    split at held
    · exact absurd rfl held
    · rename_i apart
      exact ⟨apart,held⟩
  have cleaned : Cleaned cond t (erase t a).1 := by
    refine ⟨?_,?_,?_,erased.root⟩
    · intro b
      rw [erased.payloads]
      split
      · rename_i here
        subst here
        by_cases free : payloadAt t b = none
        · exact .inl free.symm
        · exact .inr ⟨⟨free,holds⟩,rfl⟩
      · exact .inl rfl
    · intro b held
      rw [keyAt_link,keyAt_link,receded.links b (payload_live held),links]
    · intro b held
      exact erased.paths b (kept held).1 (kept held).2
  refine ⟨erased.rooted,erase_pruned rooted live pruned,receded.live,cleaned,?_,?_⟩
  · intro b gone
    obtain ⟨apart,held⟩ := kept gone.1
    refine receded.ahead b ?_ ((same b).mpr (doomed b (cleaned.doomed gone))) apart
    rwa [payload_setPayload live,if_neg apart]
  · intro d went
    rcases receded.fewer with ⟨equal,stays⟩ | fewer
    · rw [equal,stays] at went
      rw [equal]
      exact work_advance bare present rfl (population_congr rfl links) same went
    · have count : population (setPayload t a none) = population t := population_congr rfl links
      rw [count] at fewer
      have next : (erase t a).1.next = t.next := receded.next
      exact work_population next fewer order a d

-- The loop, with enough fuel for the work that is left: induction on the fuel, and what
-- is doomed stays ahead.
theorem clearIfFrom_cleans {fuel : ℕ} (enough : work t order a ≤ fuel) (rooted : Rooted t) (pruned : Pruned t) (live : Live t a)
    (doomed : ∀ b, Doomed cond t b → Ahead t order a b) :
    ∃ u, clearIfFrom order cond fuel t (some a) = some u ∧ Rooted u ∧ Pruned u ∧ Cleaned cond t u ∧ ∀ b, ¬Doomed cond u b := by
  induction fuel generalizing t a with
  | zero =>
    have positive := @work_positive _ _ t order rooted a live
    omega
  | succ fuel ih =>
    have turn : ∃ u p, (if holdsAt cond t a then erase t a else (t,a)) = (u,p) ∧ Visited order cond t a u p := by
      split
      · rename_i holds
        exact ⟨_,_,rfl,erased_visited rooted pruned live doomed holds⟩
      · rename_i spared
        exact ⟨_,_,rfl,passed_visited rooted pruned live doomed spared⟩
    obtain ⟨u,p,turned,visited⟩ := turn
    rw [clearIfFrom,turned]
    dsimp only
    cases went : advance u order p with
    | none =>
      refine ⟨u,?_,visited.rooted,visited.pruned,visited.cleaned,?_⟩
      · rw [clearIfFrom]
      · intro b gone
        obtain ⟨d,further,_⟩ := (advance_ahead visited.rooted visited.live b).mp (visited.ahead b gone)
        rw [went] at further
        cases further
    | some d =>
      have less := visited.less went
      have further : ∀ b, Doomed cond u b → Ahead u order d b := by
        intro b gone
        obtain ⟨e,there,ahead⟩ := (advance_ahead visited.rooted visited.live b).mp (visited.ahead b gone)
        rw [went] at there
        cases there
        exact ahead
      obtain ⟨v,done,after,left,cleaned,none_left⟩ := ih (by omega) visited.rooted visited.pruned
        (advance_live visited.rooted went) further
      exact ⟨v,done,after,left,visited.cleaned.trans cleaned,none_left⟩

omit [DecidableEq K] in
theorem clearIfFrom_more {fuel more : ℕ} {t u : Trie K P} {node : Option ℕ} (enough : fuel ≤ more)
    (done : clearIfFrom order cond fuel t node = some u) : clearIfFrom order cond more t node = some u := by
  induction fuel generalizing t node more with
  | zero =>
    cases node with
    | none =>
      rw [clearIfFrom] at done ⊢
      exact done
    | some a => cases done
  | succ fuel ih =>
    cases node with
    | none =>
      rw [clearIfFrom] at done ⊢
      exact done
    | some a =>
      obtain ⟨rest,rfl⟩ : ∃ rest, more = rest + 1 := ⟨more - 1,by omega⟩
      rw [clearIfFrom] at done ⊢
      exact ih (by omega) done

end Turns

-- Whatever the predicate and the order of the sets, the walk ends; the entries that the
-- predicate holds for are gone, the others are where they were, and no empty path is left.
theorem clear_if_exact [DecidableEq K] {t : Trie K P} (rooted : Rooted t) (pruned : Pruned t) (order : Enumeration)
    (cond : K → Option P → Bool) :
    ∃ u, (∀ fuel, (t.next + 1)^2 ≤ fuel → clearIf order cond fuel t = some u) ∧ Rooted u ∧ Pruned u ∧
      (∀ a, payloadAt u a = if Doomed cond t a then none else payloadAt t a) ∧
      (∀ a, payloadAt u a ≠ none → path u a = path t a ∧ keyAt u a = keyAt t a) ∧ link u 0 = link t 0 := by
  have doomed : ∀ b, Doomed cond t b → Ahead t order 0 b := by
    intro b gone
    refine .inl ⟨payload_live gone.1,?_⟩
    rw [path_root rooted]
    exact List.nil_prefix
  obtain ⟨u,done,after,left,cleaned,none_left⟩ := clearIfFrom_cleans (work_le t order 0) rooted pruned rooted.zero doomed
  refine ⟨u,?_,after,left,cleaned.exact none_left,?_,cleaned.root⟩
  · intro fuel enough
    exact clearIfFrom_more enough done
  · exact fun a held => ⟨cleaned.paths a held,cleaned.keys a held⟩

-- `/0` with 5 and, below it, `/0/1/2` with 6.
def nested : Trie ℕ ℕ := (insert (insert (construct 0 0 0) [0] (some 5)).1 [0,1,2] (some 6)).1

-- The entry below goes with the empty node above it.
theorem clear_if_exact_below : ∃ u, clearIf ⟨id,fun _ => .refl _⟩ (fun _ payload => payload == some 6) 25 nested = some u ∧
    payloadAt u 1 = some 5 ∧ (∀ a, payloadAt u a ≠ none → path u a = path nested a) ∧ Pruned u := by
  have start := TrieWithPolicy.construct_synced 0 0 0 100 (fun _ : ℕ => ())
  have rooted := insert_rooted start.rooted [0] (some 5)
  have pruned := insert_pruned start.rooted start.pruned [0] 5
  obtain ⟨u,done,_,left,payloads,kept,_⟩ := clear_if_exact (insert_rooted rooted [0,1,2] (some 6))
    (insert_pruned rooted pruned [0,1,2] 6) ⟨id,fun _ => .refl _⟩ (fun _ payload => payload == some 6)
  exact ⟨u,done 25 (by decide),(payloads 1).trans (by decide),fun a held => (kept a held).1,left⟩

end NdnCxx.Trie
