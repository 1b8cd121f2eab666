import NdnCxx.Regex.Search

namespace NdnCxx.Regex
open Backtrack

-- The runs of components that a syntax tree describes. Where `strict` is set, a
-- repetition with a positive minimum does not cover an empty run.
section Languages
variable (oracle : Oracle) (strict : Bool)

mutual
def Matcher.language : Matcher → Language Component
  | .componentSet components included =>
    {run | ∃ component, run = [component] ∧
      ((∃ expr ∈ components, componentMatch oracle component expr = true) ↔ included = true)}
  | .backRef items => languageAll items
  | .repeated item repeatMin repeatMax =>
    {run | (strict = true → run = [] → repeatMin = 0) ∧
      ∃ n, repeatMin ≤ n ∧ n ≤ repeatMax ∧ run ∈ item.language ^ n}

def languageAll : List Matcher → Language Component
  | [] => 1
  | item :: items => item.language * languageAll items
end

end Languages

-- A run of components of the name, anchored as the expression says.
def Described (top : RegexTopMatcher) (language : Language Component) (name : Name) : Prop :=
  ∃ before run rest, name = before ++ run ++ rest ∧ (top.caret = true → before = []) ∧ (top.dollar = true → rest = []) ∧
    run ∈ language

-- What the padded pattern lists accept.
def Padded (oracle : Oracle) (strict : Bool) (top : RegexTopMatcher) (name : Name) : Prop :=
  name ∈ languageAll oracle strict top.primaryItems ∨
    ∃ items, top.secondaryItems = some items ∧ name ∈ languageAll oracle strict items

section Repetition
variable {search : Finder} {l : Language Component} (each : ∀ run, (search run).isSome = true ↔ run ∈ l)
include each

theorem repeatRecursive_sound {repeatMin left count : ℕ} {run : List Component}
    (found : (repeatRecursiveSearch search repeatMin left count run).isSome = true) :
    ∃ n ≤ left, repeatMin ≤ count + n ∧ run ∈ l ^ n ∧ (run = [] → n = 0) := by
  induction left generalizing count run with
  | zero =>
    rw [repeatRecursiveSearch] at found
    split at found
    · rename_i ended
      rw [Bool.and_eq_true,List.isEmpty_iff,decide_eq_true_eq] at ended
      exact ⟨0,le_rfl,ended.2,ended.1 ▸ rfl,fun _ => rfl⟩
    · cases found
  | succ left ih =>
    rw [repeatRecursiveSearch] at found
    split at found
    · rename_i empty
      rw [List.isEmpty_iff] at empty
      split at found
      · rename_i enough
        exact ⟨0,Nat.zero_le _,enough,empty ▸ rfl,fun _ => rfl⟩
      · cases found
    · rename_i more
      rw [Option.isSome_map,findDown_isSome] at found
      obtain ⟨k,_,first,others⟩ := found
      obtain ⟨n,below,enough,rest,_⟩ := ih others
      refine ⟨n + 1,by omega,by omega,?_,fun empty => absurd (List.isEmpty_iff.mpr empty) more⟩
      rw [pow_succ',Language.mem_mul]
      exact ⟨run.take k,(each _).mp first,run.drop k,rest,List.take_append_drop k run⟩

omit each in
theorem flatten_erase_nil {pieces : List (List Component)} (empty : [] ∈ pieces) :
    (pieces.erase []).flatten = pieces.flatten := by
  induction pieces with
  | nil => cases empty
  | cons piece pieces ih =>
    by_cases same : piece = []
    · subst same
      simp
    · rw [List.erase_cons_tail (by simpa using same),List.flatten_cons,List.flatten_cons,ih]
      rcases List.mem_cons.mp empty with equal | member
      · exact absurd equal.symm same
      · exact member

-- The loop ends with the last component. Iterations over nothing therefore have to
-- come first, and they can.
theorem repeatRecursive_complete {repeatMin left count : ℕ} {pieces : List (List Component)}
    (covered : pieces.flatten ≠ []) (below : pieces.length ≤ left) (enough : repeatMin ≤ count + pieces.length)
    (members : ∀ piece ∈ pieces, piece ∈ l) :
    (repeatRecursiveSearch search repeatMin left count pieces.flatten).isSome = true := by
  induction left generalizing count pieces with
  | zero =>
    rw [List.length_eq_zero_iff.mp (Nat.le_zero.mp below)] at covered
    exact absurd rfl covered
  | succ left ih =>
    rw [repeatRecursiveSearch,if_neg (by simpa using covered),Option.isSome_map]
    by_cases empty : [] ∈ pieces
    · have same := flatten_erase_nil empty
      have shorter := List.length_erase_of_mem empty
      have positive := List.length_pos_of_mem empty
      have rest : (repeatRecursiveSearch search repeatMin left (count + 1) (pieces.erase []).flatten).isSome = true :=
        ih (same ▸ covered) (by omega) (by omega) (fun piece member => members piece (List.mem_of_mem_erase member))
      rw [same] at rest
      have found := findDown_append ((each []).mpr (members [] empty)) rest
      rwa [List.nil_append] at found
    · cases pieces with
      | nil => exact absurd rfl covered
      | cons piece pieces =>
        rw [List.flatten_cons]
        refine findDown_append ((each _).mpr (members piece (.head _))) ?_
        by_cases last : pieces.flatten = []
        · have single : pieces = [] := by
            cases pieces with
            | nil => rfl
            | cons other pieces =>
              rw [List.flatten_cons,List.append_eq_nil_iff] at last
              exact absurd (last.1 ▸ .tail _ (.head _)) empty
          subst single
          have reached : repeatMin ≤ count + 1 := by simpa using enough
          cases left <;> simp [repeatRecursiveSearch,reached]
        · simp only [List.length_cons] at below enough
          exact ih last (by omega) (by omega) (fun other member => members other (.tail _ member))

theorem repeatSearch_iff {repeatMin repeatMax : ℕ} {run : List Component} :
    (repeatSearch search repeatMin repeatMax run).isSome = true ↔
      (run = [] → repeatMin = 0) ∧ ∃ n, repeatMin ≤ n ∧ n ≤ repeatMax ∧ run ∈ l ^ n := by
  rw [repeatSearch]
  constructor
  · intro found
    split at found
    · rename_i skipped
      rw [List.isEmpty_iff] at skipped
      exact ⟨fun _ => skipped.1,0,skipped.1.le,Nat.zero_le _,skipped.2 ▸ rfl⟩
    · obtain ⟨n,below,enough,member,none⟩ := repeatRecursive_sound each found
      rw [Nat.zero_add] at enough
      refine ⟨?_,n,enough,below,member⟩
      intro empty
      rw [none empty] at enough
      exact Nat.le_zero.mp enough
  · intro given
    obtain ⟨guarded,n,enough,below,member⟩ := given
    split
    · rfl
    · rename_i passed
      obtain ⟨pieces,rfl,rfl,members⟩ := Language.mem_pow.mp member
      by_cases empty : pieces.flatten = []
      · exact absurd ⟨guarded empty,by simpa using empty⟩ passed
      · exact repeatRecursive_complete each empty below (by omega) members

end Repetition

section Matchers
variable {oracle : Oracle}

theorem componentSet_iff {components : List Blob} {included : Bool} {run : List Component} :
    (componentSetSearch oracle components included run).isSome = true ↔ ∃ component, run = [component] ∧
      ((∃ expr ∈ components, componentMatch oracle component expr = true) ↔ included = true) := by
  match run with
  | [] => simp [componentSetSearch]
  | [component] =>
    have member : (∃ expr ∈ components, componentMatch oracle component expr = true) ↔
        components.any (componentMatch oracle component) = true := List.any_eq_true.symm
    simp only [componentSetSearch,List.cons.injEq,and_true,exists_eq_left']
    rw [member,← Bool.eq_iff_iff]
    split
    · rename_i same
      simpa using same
    · rename_i other
      simpa using other
  | _ :: _ :: _ => simp [componentSetSearch]

theorem recursive_cons {search : Finder} {searches : List Finder} {first rest : Language Component}
    (head : ∀ run, (search run).isSome = true ↔ run ∈ first)
    (tail : ∀ run, (recursiveSearch searches run).isSome = true ↔ run ∈ rest) (run : List Component) :
    (recursiveSearch (search :: searches) run).isSome = true ↔ run ∈ first * rest := by
  rw [recursiveSearch,Option.isSome_map,Language.mem_mul]
  constructor
  · intro found
    obtain ⟨k,_,left,right⟩ := findDown_isSome.mp found
    exact ⟨run.take k,(head _).mp left,run.drop k,(tail _).mp right,List.take_append_drop k run⟩
  · intro given
    obtain ⟨front,left,back,right,rfl⟩ := given
    exact findDown_append ((head _).mpr left) ((tail _).mpr right)

-- The search finds exactly the strict language.
mutual
theorem search_iff (matcher : Matcher) (index : ℕ) (run : List Component) :
    (matcher.search oracle index run).isSome = true ↔ run ∈ matcher.language oracle true := by
  cases matcher with
  | componentSet components included =>
    rw [Matcher.search,Matcher.language]
    exact componentSet_iff
  | backRef items =>
    rw [Matcher.search,Matcher.language,Option.isSome_map]
    exact searches_iff items (index + 1) run
  | repeated item repeatMin repeatMax =>
    rw [Matcher.search,Matcher.language,Option.isSome_map,repeatSearch_iff (search_iff item index)]
    exact ⟨fun given => ⟨fun _ => given.1,given.2⟩,fun given => ⟨given.1 rfl,given.2⟩⟩

theorem searches_iff (items : List Matcher) (index : ℕ) (run : List Component) :
    (recursiveSearch (searches oracle items index) run).isSome = true ↔ run ∈ languageAll oracle true items := by
  cases items with
  | nil =>
    rw [searches,languageAll,recursiveSearch,Language.mem_one]
    cases run <;> simp
  | cons item items =>
    rw [searches,languageAll]
    exact recursive_cons (search_iff item index) (searches_iff items (index + item.refs)) run
end

mutual
theorem language_relaxed (matcher : Matcher) : matcher.language oracle true ≤ matcher.language oracle false := by
  cases matcher with
  | componentSet components included =>
    rw [Matcher.language,Matcher.language]
    exact fun _ given => given
  | backRef items =>
    rw [Matcher.language,Matcher.language]
    exact languageAll_relaxed items
  | repeated item repeatMin repeatMax =>
    rw [Matcher.language,Matcher.language]
    intro run member
    obtain ⟨_,n,enough,below,power⟩ := member
    refine ⟨fun strict => (by cases strict),n,enough,below,?_⟩
    obtain ⟨pieces,covered,count,members⟩ := Language.mem_pow.mp power
    exact Language.mem_pow.mpr ⟨pieces,covered,count,fun piece given => language_relaxed item (members piece given)⟩

theorem languageAll_relaxed (items : List Matcher) : languageAll oracle true items ≤ languageAll oracle false items := by
  cases items with
  | nil => rw [languageAll,languageAll]
  | cons item items =>
    rw [languageAll,languageAll]
    intro run member
    obtain ⟨front,left,back,right,joined⟩ := Language.mem_mul.mp member
    exact Language.mem_mul.mpr ⟨front,language_relaxed item left,back,languageAll_relaxed items right,joined⟩
end

theorem languageAll_append (strict : Bool) (first second : List Matcher) :
    languageAll oracle strict (first ++ second) = languageAll oracle strict first * languageAll oracle strict second := by
  induction first with
  | nil => rw [List.nil_append,languageAll,one_mul]
  | cons item items ih => rw [List.cons_append,languageAll,languageAll,ih,mul_assoc]

theorem languageAll_single (strict : Bool) (matcher : Matcher) :
    languageAll oracle strict [matcher] = matcher.language oracle strict := by
  rw [languageAll,languageAll,mul_one]

end Matchers

section Top
variable {oracle : Oracle} {top : RegexTopMatcher}

theorem matchName_iff (s : RegexTopMatcher.State) (name : Name) :
    (top.matchName oracle s name).1 = true ↔ Padded oracle true top name := by
  have primary := patternList_agrees oracle top.primaryItems 0 name s.primary
  rw [Padded,← searches_iff top.primaryItems 0,← primary,RegexTopMatcher.matchName]
  generalize recursiveMatch (matchRuns oracle top.primaryItems 0) name s.primary = first
  obtain ⟨matched,captures⟩ := first
  cases matched with
  | true => simp
  | false =>
    cases given : top.secondaryItems with
    | none => simp
    | some items =>
      have secondary := patternList_agrees oracle items 0 name s.secondary
      simp only [Bool.false_eq_true,if_false,false_or,Option.some.injEq,exists_eq_left',← searches_iff items 0,
        ← secondary]
      generalize recursiveMatch (matchRuns oracle items 0) name s.secondary = second
      obtain ⟨matched,captures⟩ := second
      cases matched <;> simp

-- Padding adds runs of other components, if the anchors allow it.
theorem padded_described {strict : Bool} {name : Name} (member : Padded oracle strict top name) :
    Described top (languageAll oracle strict top.core) name := by
  have behind : ∀ {run}, run ∈ languageAll oracle strict top.primaryItems →
      ∃ front rest, run = front ++ rest ∧ (top.dollar = true → rest = []) ∧ front ∈ languageAll oracle strict top.core := by
    intro run given
    rw [RegexTopMatcher.primaryItems,languageAll_append] at given
    obtain ⟨front,left,rest,right,rfl⟩ := Language.mem_mul.mp given
    refine ⟨front,rest,rfl,?_,left⟩
    intro dollar
    rwa [if_pos dollar,languageAll,Language.mem_one] at right
  rcases member with given | ⟨items,shape,given⟩
  · obtain ⟨run,rest,rfl,dollar,left⟩ := behind given
    exact ⟨[],run,rest,by simp,fun _ => rfl,dollar,left⟩
  · rw [RegexTopMatcher.secondaryItems] at shape
    split at shape
    · cases shape
    · rename_i free
      cases shape
      rw [languageAll] at given
      obtain ⟨before,_,after,right,rfl⟩ := Language.mem_mul.mp given
      obtain ⟨run,rest,rfl,dollar,left⟩ := behind right
      exact ⟨before,run,rest,by simp,fun caret => absurd caret free,dollar,left⟩

-- If `.*` matches any component, `<.*>*` covers any run that an `int` can count.
theorem anything_covers (wild : ∀ component : Component, oracle [0x2E,0x2A] component.toUri = true) (strict : Bool) {run : List Component}
    (fits : run.length ≤ intMax) : run ∈ anything.language oracle strict := by
  have single : ∀ component : Component,
      [component] ∈ (Matcher.componentSet [[0x2E,0x2A]] true).language oracle strict := by
    intro component
    rw [Matcher.language]
    exact ⟨component,rfl,by simp [componentMatch,wild]⟩
  rw [anything,Matcher.language]
  refine ⟨fun _ _ => rfl,run.length,Nat.zero_le _,fits,Language.mem_pow.mpr ⟨run.map (fun component => [component]),?_,?_,?_⟩⟩
  · rw [← List.flatMap_def,List.flatMap_singleton']
  · rw [List.length_map]
  · intro piece member
    obtain ⟨component,_,rfl⟩ := List.mem_map.mp member
    exact single component

theorem described_padded (wild : ∀ component : Component, oracle [0x2E,0x2A] component.toUri = true) {strict : Bool} {name : Name}
    (fits : name.length ≤ intMax) (described : Described top (languageAll oracle strict top.core) name) :
    Padded oracle strict top name := by
  obtain ⟨before,run,rest,rfl,caret,dollar,member⟩ := described
  simp only [List.length_append] at fits
  have behind : run ++ rest ∈ languageAll oracle strict top.primaryItems := by
    rw [RegexTopMatcher.primaryItems,languageAll_append]
    refine Language.mem_mul.mpr ⟨run,member,rest,?_,rfl⟩
    split
    · rename_i anchored
      rw [dollar anchored,languageAll]
      exact (Language.mem_one []).mpr rfl
    · rw [languageAll_single]
      exact anything_covers wild strict (by omega)
  by_cases anchored : top.caret = true
  · rw [caret anchored]
    exact .inl behind
  · refine .inr ⟨anything :: top.primaryItems,by rw [RegexTopMatcher.secondaryItems,if_neg anchored],?_⟩
    rw [languageAll,List.append_assoc]
    exact Language.mem_mul.mpr ⟨before,anything_covers wild strict (by omega),run ++ rest,behind,rfl⟩

theorem described_relaxed {name : Name} (described : Described top (languageAll oracle true top.core) name) :
    Described top (languageAll oracle false top.core) name := by
  obtain ⟨before,run,rest,parts,caret,dollar,member⟩ := described
  exact ⟨before,run,rest,parts,caret,dollar,languageAll_relaxed top.core member⟩

theorem regex_sound (oracle : Oracle) (top : RegexTopMatcher) (s : RegexTopMatcher.State) (name : Name)
    (matched : (top.matchName oracle s name).1 = true) : Described top (languageAll oracle false top.core) name :=
  described_relaxed (padded_described ((matchName_iff s name).mp matched))

theorem regex_complete_exact (oracle : Oracle) (wild : ∀ uri, oracle [0x2E,0x2A] uri = true) (top : RegexTopMatcher)
    (s : RegexTopMatcher.State) (name : Name) (fits : name.length ≤ intMax) :
    (Described top (languageAll oracle false top.core) name → (top.matchName oracle s name).1 = true) ↔
      (¬Described top (languageAll oracle false top.core) name ∨
        Described top (languageAll oracle true top.core) name) := by
  have accepted : (top.matchName oracle s name).1 = true ↔ Described top (languageAll oracle true top.core) name := by
    rw [matchName_iff]
    exact ⟨padded_described,described_padded (fun component => wild component.toUri) fits⟩
  rw [accepted]
  exact imp_iff_not_or

end Top

section Samples

-- Expressions without special characters, and `.*`.
def plainText : Oracle := fun expr text => decide (expr = text) || decide (expr = [0x2E,0x2A])

theorem plainText_wild (uri : Blob) : plainText [0x2E,0x2A] uri = true := by simp [plainText]

def letter (c : UInt8) : Matcher := .repeated (.componentSet [[c]] true) 1 1

def letterName (c : UInt8) : Component := ⟨[c]⟩

-- `<a>` in the middle of a name.
def somewhere : RegexTopMatcher := ⟨[letter 0x61],false,false,[]⟩

theorem regex_sound_middle : Described somewhere (languageAll plainText false somewhere.core)
    [letterName 0x62,letterName 0x61,letterName 0x62] :=
  regex_sound plainText somewhere RegexTopMatcher.fresh _ (by decide)

-- `^<b>(<a>*)+$`.
def starred : RegexTopMatcher :=
  ⟨[letter 0x62,.repeated (.backRef [.repeated (.componentSet [[0x61]] true) 0 intMax]) 1 intMax],true,true,[]⟩

theorem regex_complete_starred : ¬Described starred (languageAll plainText false starred.core)
      [letterName 0x62,letterName 0x61] ∨
    Described starred (languageAll plainText true starred.core) [letterName 0x62,letterName 0x61] :=
  (regex_complete_exact plainText plainText_wild starred RegexTopMatcher.fresh _ (by decide)).mp (fun _ => by decide)

-- One iteration of the group over nothing is enough for `/b`, but it is not tried.
theorem empty_iteration_missed : Described starred (languageAll plainText false starred.core) [letterName 0x62] ∧
    (starred.matchName plainText RegexTopMatcher.fresh [letterName 0x62]).1 = false := by
  have first : [letterName 0x62] ∈ (letter 0x62).language plainText false := by
    rw [letter,Matcher.language]
    refine ⟨fun strict => (by cases strict),1,le_rfl,le_rfl,?_⟩
    rw [pow_one,Matcher.language]
    exact ⟨letterName 0x62,rfl,by decide⟩
  have second : [] ∈ (Matcher.repeated (.backRef [.repeated (.componentSet [[0x61]] true) 0 intMax]) 1 intMax).language
      plainText false := by
    rw [Matcher.language]
    refine ⟨fun strict => (by cases strict),1,le_rfl,by decide,?_⟩
    rw [pow_one,Matcher.language,languageAll_single,Matcher.language]
    exact ⟨fun _ _ => rfl,0,le_rfl,Nat.zero_le _,(Language.mem_one []).mpr rfl⟩
  refine ⟨⟨[],[letterName 0x62],[],rfl,fun _ => rfl,fun _ => rfl,?_⟩,by decide⟩
  show [letterName 0x62] ∈ languageAll plainText false [_,_]
  rw [languageAll,languageAll_single]
  exact Language.mem_mul.mpr ⟨_,first,[],second,List.append_nil _⟩

end Samples
end NdnCxx.Regex
