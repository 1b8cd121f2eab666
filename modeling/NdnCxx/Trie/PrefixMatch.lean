import NdnCxx.Trie.Clearing
import NdnCxx.Trie.Refinement
import NdnCxx.Lib.Prefixes

namespace NdnCxx.TrieWithPolicy
open PointerTree Trie Prefixes

variable {K P V : Type} [DecidableEq K] {s : TrieWithPolicy K P V}

-- The node for a key, if its payload is one that is looked for.
def seek (t : Trie K P) (pred : P → Bool) (key : List K) : Option ℕ :=
  (locate t 0 key).filter (fun a => (payloadAt t a).any pred)

-- The walk down the trie is a search among the prefixes of the key.
theorem findFrom_longest (t : Trie K P) (pred : P → Bool) (found : Option ℕ) (a : ℕ) (key : List K) :
    (findFrom t pred found a key).1 = longest (fun name =>
      if name = [] then found else (locate t a name).filter (fun b => (payloadAt t b).any pred)) key := by
  induction key generalizing a found with
  | nil => rfl
  | cons subkey key ih =>
    rw [findFrom,longest]
    cases next : child t a subkey with
    | none =>
      have nowhere : longest (fun rest => if subkey :: rest = [] then found
          else (locate t a (subkey :: rest)).filter (fun b => (payloadAt t b).any pred)) key = none := by
        refine longest_none.mpr ?_
        intro rest _
        simp [locate,next]
      rw [nowhere]
      rfl
    | some c =>
      have later := longest_or (fun name => (locate t c name).filter (fun b => (payloadAt t b).any pred)) found key
      have here : (if (payloadAt t c).any pred = true then some c else found) =
          ((locate t c []).filter (fun b => (payloadAt t b).any pred)).or found := by
        by_cases held : (payloadAt t c).any pred = true
        · simp [locate,Option.filter,held]
        · simp [locate,Option.filter,held]
      rw [← here] at later
      refine (ih _ c).trans (later.trans ?_)
      simp [locate,next]

theorem rootFound_seek (t : Trie K P) : rootFound t = seek t (fun _ => true) [] := by
  rw [rootFound,seek,locate]
  cases held : payloadAt t 0 with
  | none => simp [Option.filter,held]
  | some payload => simp [Option.filter,held]

theorem find_longest (t : Trie K P) (key : List K) : (find t key).1 = longest (seek t (fun _ => true)) key := by
  rw [find,findFrom_longest,rootFound_seek]
  refine longest_congr ?_
  intro name _
  split
  · rename_i root
    rw [root]
  · rfl

theorem findIf_longest (t : Trie K P) (key : List K) (pred : P → Bool) : (findIf t key pred).1 =
    longest (fun name => if name = [] then seek t (fun _ => true) [] else seek t pred name) key := by
  rw [findIf,findFrom_longest,rootFound_seek]
  rfl

theorem seek_iff {t : Trie K P} (rooted : Rooted t) (pred : P → Bool) (key : List K) (a : ℕ) :
    seek t pred key = some a ↔ path t a = key ∧ ∃ payload, payloadAt t a = some payload ∧ pred payload = true := by
  rw [seek,Option.filter_eq_some_iff,locate_iff rooted,Option.any_eq_true]
  constructor
  · rintro ⟨⟨_,reached⟩,payload,read,meets⟩
    exact ⟨reached,payload,read,meets⟩
  · rintro ⟨reached,payload,read,meets⟩
    exact ⟨⟨payload_live (by simp [read]),reached⟩,payload,read,meets⟩

-- Under this key an entry is stored whose payload meets the predicate.
def Satisfies (s : TrieWithPolicy K P V) (pred : P → V → Bool) (name : List K) : Prop :=
  ∃ payload, stored s name = some payload ∧ pred payload (s.memory payload) = true

-- The longest prefix of `key` that is one of these keys.
structure LongestMatch (among : List K → Prop) (key name : List K) : Prop where
  held : among name
  above : name <+: key
  greatest : ∀ other, among other → other <+: key → other.length ≤ name.length

-- The result is the entry under the longest of these keys that is a prefix, and the
-- end iterator where there is none.
def ReturnsLongest (s : TrieWithPolicy K P V) (among : List K → Prop) (key : List K) (result : Option ℕ) : Prop :=
  (∀ a, result = some a ↔ ∃ name, LongestMatch among key name ∧ findExact s name = some a) ∧
    (result = none ↔ ∀ name, name <+: key → ¬among name)

section Returns
variable (rooted : Rooted s.trie)
include rooted

theorem seek_some (pred : P → V → Bool) (name : List K) (a : ℕ) :
    seek s.trie (fun payload => pred payload (s.memory payload)) name = some a ↔
      Satisfies s pred name ∧ findExact s name = some a := by
  rw [seek_iff rooted,findExact_iff rooted]
  constructor
  · rintro ⟨reached,payload,read,meets⟩
    exact ⟨⟨payload,(stored_iff rooted).mpr ⟨a,read,reached⟩,meets⟩,by simp [read],reached⟩
  · rintro ⟨⟨payload,held,meets⟩,present,reached⟩
    obtain ⟨b,read,also⟩ := (stored_iff rooted).mp held
    have live := payload_live (t := s.trie) (a := b) (by simp [read])
    have same := path_injective rooted live (payload_live present) (also.trans reached.symm)
    exact ⟨reached,payload,same ▸ read,meets⟩

theorem seek_held (pred : P → V → Bool) (name : List K) :
    seek s.trie (fun payload => pred payload (s.memory payload)) name ≠ none ↔ Satisfies s pred name := by
  rw [Option.ne_none_iff_exists']
  constructor
  · rintro ⟨a,found⟩
    exact ((seek_some rooted pred name a).mp found).1
  · rintro ⟨payload,held,meets⟩
    obtain ⟨a,found,_⟩ := Option.bind_eq_some_iff.mp held
    exact ⟨a,(seek_some rooted pred name a).mpr ⟨⟨payload,held,meets⟩,found⟩⟩

theorem longest_returned (pred : P → V → Bool) (key : List K) : ReturnsLongest s (Satisfies s pred) key
    (longest (seek s.trie (fun payload => pred payload (s.memory payload))) key) := by
  have held := seek_held rooted pred
  refine ⟨?_,?_⟩
  · intro a
    rw [longest_some]
    constructor
    · rintro ⟨name,⟨above,greatest⟩,found⟩
      obtain ⟨satisfied,exact⟩ := (seek_some rooted pred name a).mp found
      exact ⟨name,⟨satisfied,above,fun other also inside => greatest other inside ((held other).mpr also)⟩,exact⟩
    · rintro ⟨name,⟨satisfied,above,greatest⟩,exact⟩
      exact ⟨name,⟨above,fun other inside also => greatest other ((held other).mp also) inside⟩,
        (seek_some rooted pred name a).mpr ⟨satisfied,exact⟩⟩
  · rw [longest_none]
    refine forall₂_congr ?_
    intro name _
    rw [← held,not_not]

-- The empty key that is not subject to the predicate is found as any other where its
-- payload meets the predicate.
theorem seek_root_admitted (pred : P → V → Bool)
    (admitted : ∀ payload, stored s [] = some payload → pred payload (s.memory payload) = true) :
    seek s.trie (fun _ => true) [] = seek s.trie (fun payload => pred payload (s.memory payload)) [] := by
  apply Option.ext
  intro a
  refine (seek_some rooted (fun _ _ => true) [] a).trans ?_
  rw [seek_some rooted pred]
  refine and_congr_left' ⟨?_,?_⟩
  · exact fun ⟨payload,held,_⟩ => ⟨payload,held,admitted payload held⟩
  · exact fun ⟨payload,held,_⟩ => ⟨payload,held,rfl⟩

-- Where it fails the predicate and nothing longer meets it, no entry does, but the
-- walk still finds the root.
theorem root_returned (pred : P → V → Bool) {key : List K} {payload : P} (held : stored s [] = some payload)
    (fails : pred payload (s.memory payload) ≠ true)
    (alone : ¬∃ name, name ≠ [] ∧ name <+: key ∧ Satisfies s pred name) {lookup : List K → Option ℕ}
    (root : lookup [] = seek s.trie (fun _ => true) []) :
    ¬ReturnsLongest s (Satisfies s pred) key (longest lookup key) := by
  intro returned
  have ended : longest lookup key = none := by
    apply returned.2.mpr
    rintro name above ⟨other,also,meets⟩
    by_cases proper : name = []
    · rw [proper,held] at also
      exact fails (Option.some.inj also ▸ meets)
    · exact alone ⟨name,proper,above,other,also,meets⟩
  have nowhere := longest_none.mp ended [] List.nil_prefix
  rw [root] at nowhere
  exact (seek_held rooted (fun _ _ => true) []).mpr ⟨payload,held,rfl⟩ nowhere

end Returns

omit [DecidableEq K] in
theorem lookedUp_result (policy : Policy) (s : TrieWithPolicy K P V) (found : Option ℕ) :
    (lookedUp policy s found).2 = found := by
  cases found <;> rfl

variable [DecidableEq P] {policy : Policy} {root : K} {hook next maxSize : ℕ} {memory : P → V}
  {operations : List (Operation K P V)}

theorem longest_match (run : Runs (step policy) (fun _ _ => True) (construct root hook next maxSize memory) operations s)
    (key : List K) :
    ReturnsLongest s (Satisfies s (fun _ _ => true)) key (longestPrefixMatch policy s key).2 := by
  have rooted := (run_shaped policy run).rooted
  rw [longestPrefixMatch,lookedUp_result,find_longest]
  exact longest_returned rooted (fun _ _ => true) key

-- The walk passes the node for `/0/1`, which has no payload.
theorem longest_match_passed : ∃ s, Runs (step .lru) (fun _ _ => True) (vacant 4)
      [addition [] 5,addition [0] 6,addition [0,1,2] 7] s ∧ (longestPrefixMatch .lru s [0,1]).2 = some 1 ∧
    ∃ name, LongestMatch (Satisfies s (fun _ _ => true)) [0,1] name ∧ findExact s name = some 1 := by
  have start : Runs (step .lru) (fun _ _ => True) (vacant 4) [] (vacant 4) := .nil _
  have first := start.snoc trivial (show step .lru _ (addition [] 5) = some _ from rfl)
  have second := first.snoc trivial (show step .lru _ (addition [0] 6) = some _ from rfl)
  have run := second.snoc trivial (show step .lru _ (addition [0,1,2] 7) = some _ from rfl)
  exact ⟨_,run,rfl,((longest_match run [0,1]).1 1).mp rfl⟩

-- The payload at the root is taken without a look at the predicate, which shows where
-- it fails there and nothing longer is found.
theorem longest_match_if_exact
    (run : Runs (step policy) (fun _ _ => True) (construct root hook next maxSize memory) operations s) (key : List K)
    (pred : P → V → Bool) :
    ReturnsLongest s (Satisfies s pred) key (longestPrefixMatchIf policy s key pred).2 ↔
      (∀ payload, stored s [] = some payload → pred payload (s.memory payload) = true) ∨
        ∃ name, name ≠ [] ∧ name <+: key ∧ Satisfies s pred name := by
  have rooted := (run_shaped policy run).rooted
  have right := longest_returned rooted pred key
  have below : ∀ name : List K, name ≠ [] → (if name = [] then seek s.trie (fun _ => true) []
      else seek s.trie (fun payload => pred payload (s.memory payload)) name) =
        seek s.trie (fun payload => pred payload (s.memory payload)) name := fun name proper => if_neg proper
  rw [longestPrefixMatchIf,lookedUp_result,findIf_longest]
  constructor
  · intro returned
    by_contra neither
    rw [not_or,not_forall] at neither
    obtain ⟨⟨payload,refused⟩,alone⟩ := neither
    obtain ⟨held,fails⟩ := Classical.not_imp.mp refused
    exact root_returned rooted pred held fails alone (if_pos rfl) returned
  · rintro (admitted | ⟨name,proper,above,satisfied⟩)
    · rw [longest_congr ?_]
      · exact right
      · intro name _
        by_cases proper : name = []
        · rw [if_pos proper,proper,seek_root_admitted rooted pred admitted]
        · exact below name proper
    · rw [longest_below below ⟨name,proper,above,?_⟩]
      · exact right
      · rw [below name proper]
        exact (seek_held rooted pred name).mpr satisfied

-- The entry of the root fails the predicate and is not what is found.
theorem longest_match_if_longer : ∃ s, Runs (step .lru) (fun _ _ => True) (vacant 4) [addition [] 5,addition [0] 6] s ∧
    ReturnsLongest s (Satisfies s (fun payload _ => payload == 6)) [0,1]
      (longestPrefixMatchIf .lru s [0,1] (fun payload _ => payload == 6)).2 := by
  have start : Runs (step .lru) (fun _ _ => True) (vacant 4) [] (vacant 4) := .nil _
  have first := start.snoc trivial (show step .lru _ (addition [] 5) = some _ from rfl)
  have run := first.snoc trivial (show step .lru _ (addition [0] 6) = some _ from rfl)
  exact ⟨_,run,(longest_match_if_exact run [0,1] _).mpr (.inr ⟨[0],by decide,by decide,6,by rfl,rfl⟩)⟩

-- Nothing longer is found: the entry of the root is returned against the predicate.
theorem root_escapes_predicate : ∃ s, Runs (step .lru) (fun _ _ => True) (vacant 4) [addition [] 5] s ∧
    (longestPrefixMatchIf .lru s [0] (fun payload _ => payload == 6)).2 = some 0 ∧
    ¬ReturnsLongest s (Satisfies s (fun payload _ => payload == 6)) [0]
      (longestPrefixMatchIf .lru s [0] (fun payload _ => payload == 6)).2 := by
  have start : Runs (step .lru) (fun _ _ => True) (vacant 4) [] (vacant 4) := .nil _
  have run := start.snoc trivial (show step .lru _ (addition [] 5) = some _ from rfl)
  refine ⟨_,run,rfl,?_⟩
  intro returned
  obtain ⟨name,⟨⟨payload,held,meets⟩,_,_⟩,exact⟩ := (returned.1 0).mp rfl
  have rooted := (run_shaped .lru run).rooted
  have root : name = [] := ((findExact_iff rooted).mp exact).2.symm.trans (path_root rooted)
  rw [root] at held
  cases held
  cases meets

end NdnCxx.TrieWithPolicy
