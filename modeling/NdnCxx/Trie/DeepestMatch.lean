import NdnCxx.Trie.PrefixMatch
import NdnCxx.Trie.Replacement

namespace NdnCxx
open PointerTree

namespace Trie
variable {K P : Type} {t : Trie K P} {order : Enumeration} {pred : P → Bool}

theorem findBelow_sound (rooted : Rooted t) (fuel : ℕ) {a b : ℕ} (live : Live t a)
    (found : findBelow t order pred fuel a = some b) : Under t a b ∧ (payloadAt t b).any pred = true := by
  induction fuel generalizing a with
  | zero => cases found
  | succ fuel ih =>
    rw [findBelow] at found
    split at found
    · rename_i held
      cases found
      exact ⟨under_self live,held⟩
    · obtain ⟨c,arranged,below⟩ := List.exists_of_findSome?_eq_some found
      have member := (order.perm _).mem_iff.mp arranged
      obtain ⟨k,linked⟩ := rooted.linked.mp member
      obtain ⟨under,held⟩ := ih (live_link.mpr ⟨_,_,linked⟩) below
      exact ⟨(under_child rooted member under).1,held⟩

-- The fuel is enough for what lies below: a child is younger than its parent.
theorem findBelow_complete [DecidableEq K] (rooted : Rooted t) (fuel : ℕ) {a b : ℕ} (live : Live t a)
    (enough : t.next < fuel + a + 1) (under : Under t a b) (held : (payloadAt t b).any pred = true) :
    findBelow t order pred fuel a ≠ none := by
  induction fuel generalizing a with
  | zero =>
    have bound := rooted.below live
    omega
  | succ fuel ih =>
    rw [findBelow]
    split
    · exact Option.some_ne_none a
    · rename_i fails
      rcases under_cases rooted live under with rfl | ⟨c,member,below⟩
      · exact absurd held fails
      · obtain ⟨k,linked⟩ := rooted.linked.mp member
        have older := rooted.older linked
        have found := ih (live_link.mpr ⟨_,_,linked⟩) (by omega) below
        intro missed
        exact found (List.findSome?_eq_none_iff.mp missed c ((order.perm _).mem_iff.mpr member))

-- In a pruned trie every node but the root leads down to a payload.
theorem payload_below (rooted : Rooted t) (pruned : Pruned t) {a : ℕ} (live : Live t a) (nonroot : a ≠ 0) :
    ∃ b, Under t a b ∧ payloadAt t b ≠ none := by
  induction younger : t.next - a using Nat.strong_induction_on generalizing a with
  | _ count ih =>
    subst younger
    by_cases held : payloadAt t a = none
    · cases children : childrenAt t a with
      | nil => exact absurd ⟨held,children⟩ (pruned a live nonroot)
      | cons c rest =>
        have member : c ∈ childrenAt t a := children ▸ List.mem_cons_self
        obtain ⟨k,linked⟩ := rooted.linked.mp member
        have older := rooted.older linked
        have bound := rooted.below live
        have inner : Live t c := live_link.mpr ⟨_,_,linked⟩
        obtain ⟨b,under,present⟩ := ih (t.next - c) (by omega) inner (by omega) rfl
        exact ⟨b,(under_child rooted member under).1,present⟩
    · exact ⟨a,under_self live,held⟩

theorem find_located [DecidableEq K] (t : Trie K P) (key : List K) :
    (∃ last, find t key = ((find t key).1,true,last) ∧ locate t 0 key = some last) ∨
      ((find t key).2.1 = false ∧ locate t 0 key = none) := by
  have last := findFrom_last t (fun _ => true) (rootFound t) 0 key
  rw [find]
  generalize findFrom t (fun _ => true) (rootFound t) 0 key = result at last ⊢
  obtain ⟨found,reachLast,node⟩ := result
  cases reachLast with
  | true => exact .inl ⟨node,rfl,last.symm⟩
  | false => exact .inr ⟨rfl,last.symm⟩

end Trie

namespace TrieWithPolicy
open Trie Prefixes

variable {K P V : Type} [DecidableEq K] {s : TrieWithPolicy K P V}

-- The result is an entry under one of these keys at or below `key`, and the end
-- iterator where there is none.
def ReturnsUnder (s : TrieWithPolicy K P V) (among : List K → Prop) (key : List K) (result : Option ℕ) : Prop :=
  (∀ a, result = some a → ∃ name, key <+: name ∧ among name ∧ findExact s name = some a) ∧
    (result = none ↔ ∀ name, key <+: name → ¬among name)

theorem satisfies_stored (s : TrieWithPolicy K P V) (name : List K) :
    Satisfies s (fun _ _ => true) name ↔ stored s name ≠ none := by
  simp [Satisfies,Option.ne_none_iff_exists']

section Returns
variable (rooted : Rooted s.trie) (pred : P → V → Bool) {key : List K}
include rooted

theorem satisfies_node {name : List K} (satisfied : Satisfies s pred name) : ∃ a, Live s.trie a ∧ path s.trie a = name ∧
    (payloadAt s.trie a).any (fun payload => pred payload (s.memory payload)) = true := by
  obtain ⟨payload,held,meets⟩ := satisfied
  obtain ⟨a,read,reached⟩ := (stored_iff rooted).mp held
  exact ⟨a,payload_live (by simp [read]),reached,by simp [read,meets]⟩

theorem node_satisfies {a : ℕ} (held : (payloadAt s.trie a).any (fun payload => pred payload (s.memory payload)) = true) :
    Satisfies s pred (path s.trie a) ∧ findExact s (path s.trie a) = some a := by
  obtain ⟨payload,read,meets⟩ := (Option.any_eq_true _ _).mp held
  exact ⟨⟨payload,(stored_iff rooted).mpr ⟨a,read,rfl⟩,meets⟩,(findExact_iff rooted).mpr ⟨by simp [read],rfl⟩⟩

-- Without a node for the key there is none below it either.
theorem nowhere_returned (nowhere : locate s.trie 0 key = none) : ReturnsUnder s (Satisfies s pred) key none := by
  refine ⟨fun a found => (by cases found),iff_of_true rfl ?_⟩
  rintro name ⟨rest,rfl⟩ satisfied
  obtain ⟨a,live,reached,_⟩ := satisfies_node rooted pred satisfied
  have found := (locate_iff rooted).mpr ⟨live,reached⟩
  rw [locate_append,nowhere] at found
  cases found

theorem below_returned (order : Enumeration) {last : ℕ} (located : locate s.trie 0 key = some last) :
    ReturnsUnder s (Satisfies s pred) key
      (findBelow s.trie order (fun payload => pred payload (s.memory payload)) s.trie.next last) := by
  obtain ⟨live,reached⟩ := (locate_iff rooted).mp located
  have sound : ∀ a, findBelow s.trie order (fun payload => pred payload (s.memory payload)) s.trie.next last = some a →
      ∃ name, key <+: name ∧ Satisfies s pred name ∧ findExact s name = some a := by
    intro a found
    obtain ⟨⟨_,below⟩,held⟩ := findBelow_sound rooted _ live found
    rw [reached] at below
    exact ⟨path s.trie a,below,node_satisfies rooted pred held⟩
  refine ⟨sound,?_,?_⟩
  · intro missed name below satisfied
    obtain ⟨a,present,same,held⟩ := satisfies_node rooted pred satisfied
    have under : Under s.trie last a := ⟨present,by rwa [reached,same]⟩
    exact findBelow_complete rooted s.trie.next live (by omega) under held missed
  · intro none
    cases found : findBelow s.trie order (fun payload => pred payload (s.memory payload)) s.trie.next last with
    | none => rfl
    | some a =>
      obtain ⟨name,below,satisfied,_⟩ := sound a found
      exact absurd satisfied (none name below)

-- The walk ends at the entry of the key itself, if there is one.
theorem exact_returned (held : stored s key ≠ none) :
    ∃ a, (find s.trie key).1 = some a ∧ ReturnsUnder s (Satisfies s (fun _ _ => true)) key (some a) := by
  have satisfied := (satisfies_stored s key).mpr held
  obtain ⟨a,found⟩ := Option.ne_none_iff_exists'.mp (fun missed => held ((stored_none rooted).mpr missed))
  refine ⟨a,?_,?_,?_⟩
  · rw [find_longest]
    refine ((longest_returned rooted (fun _ _ => true) key).1 a).mpr ⟨key,⟨satisfied,List.prefix_rfl,?_⟩,found⟩
    exact fun other _ above => above.length_le
  · rintro b same
    cases same
    exact ⟨key,List.prefix_rfl,satisfied,found⟩
  · exact iff_of_false (Option.some_ne_none a) (fun none => none key List.prefix_rfl satisfied)

-- It stops higher up where there is none: what it brings back is not below the key.
theorem ancestor_returned (free : stored s key = none) (above : ∃ name, name <+: key ∧ stored s name ≠ none) :
    ∃ a, (find s.trie key).1 = some a ∧ ¬ReturnsUnder s (Satisfies s (fun _ _ => true)) key (some a) := by
  have returned := longest_returned rooted (fun _ _ => true) key
  obtain ⟨name,inside,held⟩ := above
  rw [find_longest]
  cases found : longest (seek s.trie (fun _ => true)) key with
  | none => exact absurd ((satisfies_stored s name).mpr held) (returned.2.mp found name inside)
  | some a =>
    refine ⟨a,rfl,?_⟩
    rintro ⟨under,_⟩
    obtain ⟨first,longest,exact⟩ := (returned.1 a).mp found
    obtain ⟨second,below,satisfied,also⟩ := under a rfl
    have same := ((findExact_iff rooted).mp exact).2.symm.trans ((findExact_iff rooted).mp also).2
    subst same
    have equal := longest.above.eq_of_length (Nat.le_antisymm longest.above.length_le below.length_le)
    rw [equal] at satisfied
    exact (satisfies_stored s key).mp satisfied free

end Returns

section Deepest
variable [DecidableEq P] {policy : Policy} {root : K} {hook next maxSize : ℕ} {memory : P → V}
  {operations : List (Operation K P V)}

theorem deepest_match_if (run : Runs (step policy) (fun _ _ => True) (construct root hook next maxSize memory) operations s)
    (key : List K) (pred : P → V → Bool) (order : Enumeration) :
    ReturnsUnder s (Satisfies s pred) key (deepestPrefixMatchIf policy s key pred order).2 := by
  have rooted := (run_shaped policy run).rooted
  rw [deepestPrefixMatchIf]
  rcases find_located s.trie key with ⟨last,found,located⟩ | ⟨missed,nowhere⟩
  · rw [found]
    simp only [if_true,lookedUp_result]
    exact below_returned rooted pred order located
  · simp only [missed]
    exact nowhere_returned rooted pred nowhere

-- What `deepest_prefix_match` hands to the policy's lookup, where it calls it.
def deepestLookup (s : TrieWithPolicy K P V) (key : List K) (order : Enumeration) : Option (Option ℕ) :=
  let (found,reachLast,last) := find s.trie key
  if reachLast then some (found.or (findBelow s.trie order (fun _ => true) s.trie.next last)) else none

omit [DecidableEq P] in
theorem deepestPrefixMatch_lookup (policy : Policy) (s : TrieWithPolicy K P V) (key : List K) (order : Enumeration) :
    deepestPrefixMatch policy s key order =
      match deepestLookup s key order with
      | none => some (s,none)
      | some (some node) => some (policyLookup s node policy,some node)
      | some none =>
        match policy with
        | .lru | .lfu => none
        | .fifo | .counting | .persistent | .random => some (s,none) := by
  unfold deepestPrefixMatch deepestLookup
  generalize find s.trie key = result
  obtain ⟨found,reachLast,last⟩ := result
  cases reachLast with
  | false => rfl
  | true =>
    simp only [if_true]
    cases found.or (findBelow s.trie order (fun _ => true) s.trie.next last) with
    | none => rfl
    | some node => rfl

-- No null node goes to the policy, and the result is an entry at or below the key.
def DeepestExact (policy : Policy) (s : TrieWithPolicy K P V) (key : List K) (order : Enumeration) : Prop :=
  deepestLookup s key order ≠ some none ∧
    ∃ u result, deepestPrefixMatch policy s key order = some (u,result) ∧
      ReturnsUnder s (Satisfies s (fun _ _ => true)) key result

omit [DecidableEq P] in
theorem deepest_exact_some (policy : Policy) {key : List K} {order : Enumeration} {node : ℕ}
    (passed : deepestLookup s key order = some (some node)) : DeepestExact policy s key order ↔
      ReturnsUnder s (Satisfies s (fun _ _ => true)) key (some node) := by
  rw [DeepestExact,deepestPrefixMatch_lookup,passed]
  simp

omit [DecidableEq P] in
theorem deepest_exact_none (policy : Policy) {key : List K} {order : Enumeration}
    (passed : deepestLookup s key order = none) : DeepestExact policy s key order ↔
      ReturnsUnder s (Satisfies s (fun _ _ => true)) key none := by
  rw [DeepestExact,deepestPrefixMatch_lookup,passed]
  simp

omit [DecidableEq P] in
theorem lookup_passed {key : List K} {last : ℕ} (order : Enumeration)
    (found : find s.trie key = ((find s.trie key).1,true,last)) : deepestLookup s key order =
      some ((find s.trie key).1.or (findBelow s.trie order (fun _ => true) s.trie.next last)) := by
  rw [deepestLookup,found]
  rfl

omit [DecidableEq P] in
-- The walk brings something back: that is the result, whatever lies below.
theorem deepest_exact_found (policy : Policy) {key : List K} {order : Enumeration} {last a : ℕ}
    (found : find s.trie key = ((find s.trie key).1,true,last)) (first : (find s.trie key).1 = some a) :
    DeepestExact policy s key order ↔ ReturnsUnder s (Satisfies s (fun _ _ => true)) key (some a) := by
  have passed := lookup_passed order found
  rw [first,Option.some_or] at passed
  exact deepest_exact_some policy passed

omit [DecidableEq P] in
-- It brings nothing back: then the subtree decides, and an empty one is the null node.
theorem deepest_exact_alone (policy : Policy) (rooted : Rooted s.trie) {key : List K} {order : Enumeration} {last : ℕ}
    (found : find s.trie key = ((find s.trie key).1,true,last)) (located : locate s.trie 0 key = some last)
    (alone : ∀ name, name <+: key → stored s name = none) :
    DeepestExact policy s key order ↔ ∃ name, key <+: name ∧ stored s name ≠ none := by
  have first : (find s.trie key).1 = none := by
    rw [find_longest]
    refine (longest_returned rooted (fun _ _ => true) key).2.mpr ?_
    exact fun name inside present => (satisfies_stored s name).mp present (alone name inside)
  have passed := lookup_passed order found
  rw [first,Option.none_or] at passed
  have returned := below_returned rooted (fun _ _ => true) order located
  cases below : findBelow s.trie order (fun _ => true) s.trie.next last with
  | some node =>
    rw [below] at passed returned
    rw [deepest_exact_some policy passed]
    obtain ⟨name,under,present,_⟩ := returned.1 node rfl
    exact iff_of_true returned ⟨name,under,(satisfies_stored s name).mp present⟩
  | none =>
    rw [below] at passed returned
    refine iff_of_false (fun right => right.1 passed) ?_
    rintro ⟨name,under,present⟩
    exact returned.2.mp rfl name under ((satisfies_stored s name).mpr present)

omit [DecidableEq P] in
theorem deepest_exact_nowhere (policy : Policy) (rooted : Rooted s.trie) {key : List K} (order : Enumeration)
    (missed : (find s.trie key).2.1 = false) (nowhere : locate s.trie 0 key = none) :
    DeepestExact policy s key order := by
  have passed : deepestLookup s key order = none := by
    rw [deepestLookup]
    simp [missed]
  exact (deepest_exact_none policy passed).mpr (nowhere_returned rooted _ nowhere)

theorem deepest_match_exact
    (run : Runs (step policy) (fun _ _ => True) (construct root hook next maxSize memory) operations s) (key : List K)
    (order : Enumeration) : DeepestExact policy s key order ↔
      ((∃ a, Live s.trie a ∧ path s.trie a = key) → stored s key ≠ none ∨
        (∀ name, name <+: key → stored s name = none) ∧ ∃ name, key <+: name ∧ stored s name ≠ none) := by
  have rooted := (run_shaped policy run).rooted
  rcases find_located s.trie key with ⟨last,found,located⟩ | ⟨missed,nowhere⟩
  · have node : ∃ a, Live s.trie a ∧ path s.trie a = key := ⟨last,(locate_iff rooted).mp located⟩
    rw [forall_prop_of_true node]
    by_cases held : stored s key = none
    · by_cases above : ∃ name, name <+: key ∧ stored s name ≠ none
      · obtain ⟨a,first,wrong⟩ := ancestor_returned rooted held above
        rw [deepest_exact_found policy found first]
        refine iff_of_false wrong ?_
        rintro (exact | ⟨alone,_⟩)
        · exact exact held
        · obtain ⟨name,inside,present⟩ := above
          exact present (alone name inside)
      · simp only [not_exists,not_and,not_not] at above
        rw [deepest_exact_alone policy rooted found located above]
        exact ⟨fun below => .inr ⟨above,below⟩,fun right => (right.resolve_left (not_not.mpr held)).2⟩
    · obtain ⟨a,first,right⟩ := exact_returned rooted held
      rw [deepest_exact_found policy found first]
      exact iff_of_true right (.inl held)
  · refine iff_of_true (deepest_exact_nowhere policy rooted order missed nowhere) ?_
    rintro ⟨a,live,reached⟩
    rw [(locate_iff rooted).mpr ⟨live,reached⟩] at nowhere
    cases nowhere

omit [DecidableEq P] in
-- Where every insert brings a payload the nodes are those on the way to the stored
-- keys, and the condition is one about these keys.
theorem node_iff (synced : Synced s) (key : List K) : (∃ a, Live s.trie a ∧ path s.trie a = key) ↔
    key = [] ∨ ∃ name, key <+: name ∧ stored s name ≠ none := by
  have rooted := synced.rooted
  constructor
  · rintro ⟨a,live,rfl⟩
    by_cases nonroot : a = 0
    · rw [nonroot]
      exact .inl (path_root rooted)
    · obtain ⟨b,⟨_,below⟩,held⟩ := payload_below rooted synced.pruned live nonroot
      obtain ⟨payload,read⟩ := Option.ne_none_iff_exists'.mp held
      have stored := (stored_iff rooted).mpr ⟨b,read,rfl⟩
      exact .inr ⟨path s.trie b,below,by simp [stored]⟩
  · rintro (rfl | ⟨name,⟨rest,rfl⟩,held⟩)
    · exact ⟨0,rooted.zero,path_root rooted⟩
    · obtain ⟨payload,stored⟩ := Option.ne_none_iff_exists'.mp held
      obtain ⟨a,read,reached⟩ := (stored_iff rooted).mp stored
      have found := (locate_iff rooted).mpr ⟨payload_live (t := s.trie) (a := a) (by simp [read]),reached⟩
      rw [locate_append] at found
      obtain ⟨b,located,_⟩ := Option.bind_eq_some_iff.mp found
      exact ⟨b,(locate_iff rooted).mp located⟩

end Deepest

-- Only the subtree of the key is searched, in whatever order: `/0` itself does not
-- meet the predicate.
theorem deepest_match_if_below : ∃ s, Runs (step .lru) (fun _ _ => True) (vacant 4)
      [addition [0] 5,addition [0,1] 6,addition [2] 6] s ∧
    ReturnsUnder s (Satisfies s (fun payload _ => payload == 6)) [0]
      (deepestPrefixMatchIf .lru s [0] (fun payload _ => payload == 6) inPlace).2 ∧
    (deepestPrefixMatchIf .lru s [0] (fun payload _ => payload == 6) inPlace).2 = some 2 := by
  have start : Runs (step .lru) (fun _ _ => True) (vacant 4) [] (vacant 4) := .nil _
  have first := start.snoc trivial (show step .lru _ (addition [0] 5) = some _ from rfl)
  have second := first.snoc trivial (show step .lru _ (addition [0,1] 6) = some _ from rfl)
  have run := second.snoc trivial (show step .lru _ (addition [2] 6) = some _ from rfl)
  exact ⟨_,run,deepest_match_if run [0] _ inPlace,rfl⟩

theorem deepest_match_exact_below : ∃ s, Runs (step .lru) (fun _ _ => True) (vacant 4) [addition [0,1,2] 6] s ∧
    DeepestExact .lru s [0,1] inPlace := by
  have start : Runs (step .lru) (fun _ _ => True) (vacant 4) [] (vacant 4) := .nil _
  have run := start.snoc trivial (show step .lru _ (addition [0,1,2] 6) = some _ from rfl)
  refine ⟨_,run,(deepest_match_exact run [0,1] inPlace).mpr (fun _ => .inr ⟨?_,[0,1,2],by decide,?_⟩)⟩
  · intro name above
    have shorter := (List.mem_inits name [0,1]).mpr above
    simp only [List.inits,List.map_cons,List.map_nil,List.mem_cons,List.not_mem_nil,or_false] at shorter
    rcases shorter with rfl | rfl | rfl
    all_goals rfl
  · exact Option.some_ne_none 6

-- With `/0` and `/0/1/2` stored, a search for `/0/1` reports `/0`; in an empty trie a
-- search for the empty key passes the null iterator on, which the LRU policy
-- dereferences.
theorem deepest_match_ancestor : (∃ s, Runs (step .lru) (fun _ _ => True) (vacant 4) [addition [0] 5,addition [0,1,2] 6] s ∧
      (deepestPrefixMatch .lru s [0,1] inPlace).map Prod.snd = some (some 1) ∧ findExact s [0] = some 1 ∧
      ¬DeepestExact .lru s [0,1] inPlace) ∧
    deepestLookup (vacant 4) [] inPlace = some none ∧ deepestPrefixMatch .lru (vacant 4) [] inPlace = none := by
  have start : Runs (step .lru) (fun _ _ => True) (vacant 4) [] (vacant 4) := .nil _
  have first := start.snoc trivial (show step .lru _ (addition [0] 5) = some _ from rfl)
  have run := first.snoc trivial (show step .lru _ (addition [0,1,2] 6) = some _ from rfl)
  refine ⟨⟨_,run,rfl,rfl,?_⟩,rfl,rfl⟩
  rintro ⟨_,u,result,matched,returned⟩
  cases matched
  obtain ⟨name,below,_,exact⟩ := returned.1 1 rfl
  have here : [0] = name := ((findExact_iff (run_shaped .lru run).rooted).mp exact).2
  have longer := below.length_le
  rw [← here] at longer
  exact absurd longer (by decide)

end TrieWithPolicy
end NdnCxx
