import NdnCxx.Regex.Language

namespace NdnCxx.Regex
open Backtrack

mutual
def Parse.covered : Parse → List Component
  | .component component => [component]
  | .group _ items => coveredAll items
  | .iterations items => coveredAll items

def coveredAll : List Parse → List Component
  | [] => []
  | item :: items => item.covered ++ coveredAll items
end

-- What the group with this number consumed, once for each of its iterations.
mutual
def Parse.occurrences (i : ℕ) : Parse → List (List Component)
  | .component _ => []
  | .group index items => (if index = i then [coveredAll items] else []) ++ occurrencesAll i items
  | .iterations items => occurrencesAll i items

def occurrencesAll (i : ℕ) : List Parse → List (List Component)
  | [] => []
  | item :: items => item.occurrences i ++ occurrencesAll i items
end

def lastOf (pieces : List (List Component)) : List Component := pieces.getLast?.getD []

-- No repetition with a group in it is passed over.
mutual
def Matcher.taken : Matcher → Parse → Bool
  | .componentSet _ _,_ => true
  | .backRef items,.group _ parses => takenAll items parses
  | .repeated item _ _,.iterations parses => (item.refs == 0 || !parses.isEmpty) && parses.all item.taken
  | .backRef _,.component _ | .backRef _,.iterations _ => false
  | .repeated _ _ _,.component _ | .repeated _ _ _,.group _ _ => false

def takenAll : List Matcher → List Parse → Bool
  | [],_ => true
  | item :: items,parse :: parses => item.taken parse && takenAll items parses
  | _ :: _,[] => false
end

theorem lastOf_left {first second : List (List Component)} (gone : second = []) : lastOf (first ++ second) = lastOf first := by
  rw [gone,List.append_nil]

theorem lastOf_right {first second : List (List Component)} (present : second ≠ []) :
    lastOf (first ++ second) = lastOf second := by
  rw [lastOf,List.getLast?_append_of_ne_nil _ present,lastOf]

-- The trial does what the search finds: it writes only to the references from `low`
-- on, and where all groups take part each of these holds the last piece of its group.
structure Faithful {ρ : Type} (trial : Trial) (search : List Component → Option ρ) (covers : ρ → List Component)
    (occurs : ℕ → ρ → List (List Component)) (taken : ρ → Bool) (low size : ℕ) : Prop where
  agrees : Agrees trial search
  covered : ∀ {run d}, search run = some d → covers d = run
  outside : ∀ {run d i}, search run = some d → i < low ∨ low + size ≤ i → occurs i d = []
  inside : ∀ {run d i}, search run = some d → taken d = true → low ≤ i → i < low + size → occurs i d ≠ []
  frame : ∀ {i}, i < low ∨ low + size ≤ i → ∀ run captures, (trial run captures).2 i = captures i
  writes : ∀ {run d i}, search run = some d → taken d = true → low ≤ i → i < low + size →
    ∀ captures, (trial run captures).2 i = lastOf (occurs i d)

section Trials
variable {oracle : Oracle} {low size : ℕ}

theorem componentSet_faithful (components : List Blob) (included : Bool) (low : ℕ) :
    Faithful (componentSetMatch oracle components included) (componentSetSearch oracle components included) Parse.covered
      Parse.occurrences (Matcher.taken (.componentSet components included)) low 0 := by
  have found : ∀ {run d}, componentSetSearch oracle components included run = some d →
      ∃ component, run = [component] ∧ d = .component component := by
    intro run d given
    rcases run with _ | ⟨component,_ | ⟨second,rest⟩⟩
    · cases given
    · rw [componentSetSearch] at given
      split at given
      · cases given
        exact ⟨component,rfl,rfl⟩
      · cases given
    · cases given
  refine ⟨componentSet_agrees components included,?_,?_,?_,?_,?_⟩
  · intro run d given
    obtain ⟨component,rfl,rfl⟩ := found given
    rw [Parse.covered]
  · intro run d i given _
    obtain ⟨component,rfl,rfl⟩ := found given
    rw [Parse.occurrences]
  · intro run d i _ _ lower upper
    omega
  · intro i _ run captures
    rcases run with _ | ⟨component,_ | ⟨second,rest⟩⟩
    · rfl
    · rfl
    · rfl
  · intro run d i _ _ lower upper
    omega

theorem nothing_faithful (low : ℕ) :
    Faithful (recursiveMatch []) (recursiveSearch []) coveredAll occurrencesAll (takenAll []) low 0 := by
  have found : ∀ {run d}, recursiveSearch [] run = some d → run = [] ∧ d = [] := by
    intro run d given
    rw [recursiveSearch] at given
    split at given
    · rename_i empty
      cases given
      exact ⟨List.isEmpty_iff.mp empty,rfl⟩
    · cases given
  refine ⟨recursive_agrees .nil,?_,?_,?_,fun _ _ _ => rfl,?_⟩
  · intro run d given
    obtain ⟨rfl,rfl⟩ := found given
    rw [coveredAll]
  · intro run d i given _
    obtain ⟨rfl,rfl⟩ := found given
    rw [occurrencesAll]
  · intro run d i _ _ lower upper
    omega
  · intro run d i _ _ lower upper
    omega

theorem tryDown_frame {first rest : Trial} {i : ℕ} (left : ∀ run captures, (first run captures).2 i = captures i)
    (right : ∀ run captures, (rest run captures).2 i = captures i) (run : List Component) (tried : ℕ)
    (captures : Captures) : (tryDown first rest run tried captures).2 i = captures i := by
  have chained : ∀ {a b c : Captures}, b i = a i → c i = b i → c i = a i := fun one two => two.trans one
  exact tryDown_preserves (r := fun before after => after i = before i) chained left right run tried captures

theorem recursiveSearch_cons {search : Finder} {searches : List Finder} {run : List Component} {parses : List Parse}
    (given : recursiveSearch (search :: searches) run = some parses) :
    ∃ d ds, findDown search (recursiveSearch searches) run run.length = some (d,ds) ∧ parses = d :: ds := by
  rw [recursiveSearch] at given
  obtain ⟨⟨d,ds⟩,same,rfl⟩ := Option.map_eq_some_iff.mp given
  exact ⟨d,ds,same,rfl⟩

-- The pieces of the items do not meet: each writes to references of its own.
theorem cons_faithful {trial : Trial} {trials : List Trial} {search : Finder} {searches : List Finder} {item : Matcher}
    {items : List Matcher} {more : ℕ}
    (first : Faithful trial search Parse.covered Parse.occurrences item.taken low size)
    (rest : Faithful (recursiveMatch trials) (recursiveSearch searches) coveredAll occurrencesAll (takenAll items)
      (low + size) more) :
    Faithful (recursiveMatch (trial :: trials)) (recursiveSearch (search :: searches)) coveredAll occurrencesAll
      (takenAll (item :: items)) low (size + more) := by
  refine ⟨?_,?_,?_,?_,?_,?_⟩
  · intro run captures
    rw [recursiveMatch,recursiveSearch,Option.isSome_map]
    exact tryDown_agrees first.agrees rest.agrees run run.length captures
  · intro run parses given
    obtain ⟨d,ds,same,rfl⟩ := recursiveSearch_cons given
    obtain ⟨k,_,left,right⟩ := findDown_some same
    rw [coveredAll,first.covered left,rest.covered right,List.take_append_drop]
  · intro run parses i given away
    obtain ⟨d,ds,same,rfl⟩ := recursiveSearch_cons given
    obtain ⟨k,_,left,right⟩ := findDown_some same
    rw [occurrencesAll,first.outside left (by omega),rest.outside right (by omega),List.append_nil]
  · intro run parses i given taken lower upper
    obtain ⟨d,ds,same,rfl⟩ := recursiveSearch_cons given
    obtain ⟨k,_,left,right⟩ := findDown_some same
    rw [takenAll,Bool.and_eq_true] at taken
    rw [occurrencesAll,ne_eq,List.append_eq_nil_iff]
    intro both
    by_cases near : i < low + size
    · exact first.inside left taken.1 lower near both.1
    · exact rest.inside right taken.2 (by omega) (by omega) both.2
  · intro i away run captures
    rw [recursiveMatch]
    exact tryDown_frame (first.frame (by omega)) (rest.frame (by omega)) run run.length captures
  · intro run parses i given taken lower upper captures
    obtain ⟨d,ds,same,rfl⟩ := recursiveSearch_cons given
    rw [takenAll,Bool.and_eq_true] at taken
    obtain ⟨k,_,middle,left,right,reached⟩ := tryDown_reaches first.agrees rest.agrees same captures
    rw [recursiveMatch,reached,occurrencesAll]
    by_cases near : i < low + size
    · rw [rest.frame (.inl near),lastOf_left (rest.outside right (.inl near))]
      exact first.writes left taken.1 lower near middle
    · rw [rest.writes right taken.2 (by omega) (by omega),first.outside left (by omega),List.nil_append]

theorem backRef_faithful {inner : Trial} {search : List Component → Option (List Parse)} {items : List Matcher}
    (index : ℕ) (each : Faithful inner search coveredAll occurrencesAll (takenAll items) (index + 1) size) :
    Faithful (backRefMatch index inner) (fun run => (search run).map (Parse.group index)) Parse.covered Parse.occurrences
      (Matcher.taken (.backRef items)) index (size + 1) := by
  have nothing := nothing_faithful 0
  refine ⟨backRef_agrees each.agrees index,?_,?_,?_,?_,?_⟩
  · intro run d given
    obtain ⟨ds,same,rfl⟩ := Option.map_eq_some_iff.mp given
    rw [Parse.covered,each.covered same]
  · intro run d i given away
    obtain ⟨ds,same,rfl⟩ := Option.map_eq_some_iff.mp given
    rw [Parse.occurrences,if_neg (by omega),each.outside same (by omega),List.append_nil]
  · intro run d i given taken lower upper
    obtain ⟨ds,same,rfl⟩ := Option.map_eq_some_iff.mp given
    rw [Matcher.taken] at taken
    rw [Parse.occurrences,ne_eq,List.append_eq_nil_iff]
    intro both
    by_cases own : index = i
    · rw [if_pos own] at both
      cases both.1
    · exact each.inside same taken (by omega) (by omega) both.2
  · intro i away run captures
    have apart : i ≠ index := by omega
    have kept := tryDown_frame (each.frame (by omega)) (nothing.frame (.inr (Nat.zero_le i))) run run.length
      (Function.update captures index [])
    rw [Function.update_of_ne apart] at kept
    rw [backRefMatch,recursiveMatch]
    dsimp only
    split
    · exact (Function.update_of_ne apart _ _).trans kept
    · exact kept
  · intro run d i given taken lower upper captures
    obtain ⟨ds,same,rfl⟩ := Option.map_eq_some_iff.mp given
    rw [Matcher.taken] at taken
    -- Only the whole run leaves nothing over.
    have whole : findDown search (recursiveSearch []) run run.length = some (ds,[]) := by
      apply findDown_first
      rw [splitFound_iff,List.take_length,List.drop_length]
      exact ⟨same,rfl⟩
    obtain ⟨k,_,middle,left,right,reached⟩ := tryDown_reaches each.agrees nothing.agrees whole
      (Function.update captures index [])
    have entire : run.take k = run := (each.covered left).symm.trans (each.covered same)
    have remainder := nothing.covered right
    rw [coveredAll] at remainder
    have written : (backRefMatch index inner run captures).2 = Function.update (inner run middle).2 index run := by
      rw [backRefMatch,recursiveMatch,reached,← remainder,entire]
      rfl
    rw [written,Parse.occurrences]
    by_cases own : index = i
    · rw [if_pos own,lastOf_left (each.outside same (by omega)),← own,Function.update_self,each.covered same]
      rfl
    · rw [if_neg own,List.nil_append,Function.update_of_ne (Ne.symm own)]
      exact each.writes same taken (by omega) (by omega) middle

-- The loop ends where nothing is left, or it takes another iteration.
theorem repeatRecursive_cases {search : Finder} {repeatMin left count : ℕ} {run : List Component} {parses : List Parse}
    (given : repeatRecursiveSearch search repeatMin left count run = some parses) :
    (run = [] ∧ parses = []) ∨ ∃ fewer d ds, left = fewer + 1 ∧ run ≠ [] ∧ parses = d :: ds ∧
      findDown search (repeatRecursiveSearch search repeatMin fewer (count + 1)) run run.length = some (d,ds) := by
  cases left with
  | zero =>
    rw [repeatRecursiveSearch] at given
    split at given
    · rename_i ended
      rw [Bool.and_eq_true,List.isEmpty_iff] at ended
      cases given
      exact .inl ⟨ended.1,rfl⟩
    · cases given
  | succ left =>
    rw [repeatRecursiveSearch] at given
    split at given
    · rename_i empty
      split at given
      · cases given
        exact .inl ⟨List.isEmpty_iff.mp empty,rfl⟩
      · cases given
    · rename_i more
      obtain ⟨⟨d,ds⟩,same,rfl⟩ := Option.map_eq_some_iff.mp given
      exact .inr ⟨left,d,ds,rfl,fun empty => more (List.isEmpty_iff.mpr empty),rfl,same⟩

theorem repeatRecursive_nil (item : Trial) (repeatMin left count : ℕ) (captures : Captures) :
    (repeatRecursiveMatch item repeatMin left count [] captures).2 = captures := by
  cases left <;> rfl

def iterationsTaken (item : Matcher) (size : ℕ) (parses : List Parse) : Bool :=
  (size == 0 || !parses.isEmpty) && parses.all item.taken

theorem iterationsTaken_nil {item : Matcher} (taken : iterationsTaken item size [] = true) : size = 0 := by
  simpa [iterationsTaken] using taken

theorem iterationsTaken_cons {item : Matcher} {d : Parse} {ds : List Parse}
    (taken : iterationsTaken item size (d :: ds) = true) :
    item.taken d = true ∧ (ds ≠ [] → iterationsTaken item size ds = true) := by
  simp only [iterationsTaken,List.all_cons,Bool.and_eq_true] at taken
  refine ⟨taken.2.1,fun more => ?_⟩
  simp [iterationsTaken,more,taken.2.2]

theorem repeatRecursive_frame {trial : Trial} {i : ℕ} (each : ∀ run captures, (trial run captures).2 i = captures i)
    (repeatMin left count : ℕ) (run : List Component) (captures : Captures) :
    (repeatRecursiveMatch trial repeatMin left count run captures).2 i = captures i := by
  induction left generalizing count run captures with
  | zero => rfl
  | succ left ih =>
    rw [repeatRecursiveMatch]
    split
    · rfl
    · exact tryDown_frame each (ih (count + 1)) run run.length captures

-- A later iteration writes to the same references again, so the last one counts.
theorem repeatRecursive_faithful {trial : Trial} {search : Finder} {item : Matcher}
    (each : Faithful trial search Parse.covered Parse.occurrences item.taken low size) (repeatMin left count : ℕ) :
    Faithful (repeatRecursiveMatch trial repeatMin left count) (repeatRecursiveSearch search repeatMin left count) coveredAll
      occurrencesAll (iterationsTaken item size) low size := by
  induction left using Nat.strong_induction_on generalizing count with
  | _ left ih =>
    have rest : ∀ {fewer}, left = fewer + 1 → Faithful (repeatRecursiveMatch trial repeatMin fewer (count + 1))
        (repeatRecursiveSearch search repeatMin fewer (count + 1)) coveredAll occurrencesAll (iterationsTaken item size)
        low size := fun same => ih _ (by omega) (count + 1)
    refine ⟨repeatRecursive_agrees each.agrees repeatMin left count,?_,?_,?_,?_,?_⟩
    · intro run parses given
      rcases repeatRecursive_cases given with ⟨rfl,rfl⟩ | ⟨fewer,d,ds,count,_,rfl,same⟩
      · rw [coveredAll]
      · obtain ⟨k,_,first,others⟩ := findDown_some same
        rw [coveredAll,each.covered first,(rest count).covered others,List.take_append_drop]
    · intro run parses i given away
      rcases repeatRecursive_cases given with ⟨rfl,rfl⟩ | ⟨fewer,d,ds,count,_,rfl,same⟩
      · rw [occurrencesAll]
      · obtain ⟨k,_,first,others⟩ := findDown_some same
        rw [occurrencesAll,each.outside first away,(rest count).outside others away,List.append_nil]
    · intro run parses i given taken lower upper
      rcases repeatRecursive_cases given with ⟨rfl,rfl⟩ | ⟨fewer,d,ds,count,_,rfl,same⟩
      · have empty := iterationsTaken_nil taken
        omega
      · obtain ⟨k,_,first,others⟩ := findDown_some same
        rw [occurrencesAll,ne_eq,List.append_eq_nil_iff]
        exact fun both => each.inside first (iterationsTaken_cons taken).1 lower upper both.1
    · exact fun away => repeatRecursive_frame (each.frame away) repeatMin left count
    · intro run parses i given taken lower upper captures
      rcases repeatRecursive_cases given with ⟨rfl,rfl⟩ | ⟨fewer,d,ds,rfl,more,rfl,same⟩
      · have empty := iterationsTaken_nil taken
        omega
      · obtain ⟨now,later⟩ := iterationsTaken_cons taken
        obtain ⟨k,_,middle,first,others,reached⟩ := tryDown_reaches each.agrees (rest rfl).agrees same captures
        rw [repeatRecursiveMatch,if_neg (by simpa using more),reached,occurrencesAll]
        by_cases last : ds = []
        · subst last
          have remainder := (rest rfl).covered others
          rw [coveredAll] at remainder
          rw [← remainder,repeatRecursive_nil,lastOf_left (by rw [occurrencesAll])]
          exact each.writes first now lower upper middle
        · rw [lastOf_right ((rest rfl).inside others (later last) lower upper)]
          exact (rest rfl).writes others (later last) lower upper _

theorem repeat_faithful {trial : Trial} {search : Finder} {item : Matcher} (repeatMin repeatMax : ℕ)
    (each : Faithful trial search Parse.covered Parse.occurrences item.taken low item.refs) :
    Faithful (repeatMatch trial repeatMin repeatMax)
      (fun run => (repeatSearch search repeatMin repeatMax run).map Parse.iterations) Parse.covered Parse.occurrences
      (Matcher.taken (.repeated item repeatMin repeatMax)) low item.refs := by
  have loop := repeatRecursive_faithful each repeatMin repeatMax 0
  have found : ∀ {run d}, (repeatSearch search repeatMin repeatMax run).map Parse.iterations = some d →
      ∃ ds, d = .iterations ds ∧ ((repeatMin = 0 ∧ run.isEmpty = true ∧ ds = []) ∨
        ¬(repeatMin = 0 ∧ run.isEmpty = true) ∧ repeatRecursiveSearch search repeatMin repeatMax 0 run = some ds) := by
    intro run d given
    obtain ⟨ds,same,rfl⟩ := Option.map_eq_some_iff.mp given
    rw [repeatSearch] at same
    split at same
    · rename_i skipped
      cases same
      exact ⟨[],rfl,.inl ⟨skipped.1,skipped.2,rfl⟩⟩
    · rename_i passed
      exact ⟨ds,rfl,.inr ⟨passed,same⟩⟩
  refine ⟨repeat_agrees each.agrees repeatMin repeatMax,?_,?_,?_,?_,?_⟩
  · intro run d given
    obtain ⟨ds,rfl,⟨_,empty,rfl⟩ | ⟨_,same⟩⟩ := found given
    · rw [Parse.covered,coveredAll,List.isEmpty_iff.mp empty]
    · rw [Parse.covered]
      exact loop.covered same
  · intro run d i given away
    obtain ⟨ds,rfl,⟨_,_,rfl⟩ | ⟨_,same⟩⟩ := found given
    · rw [Parse.occurrences,occurrencesAll]
    · rw [Parse.occurrences]
      exact loop.outside same away
  · intro run d i given taken lower upper
    obtain ⟨ds,rfl,⟨_,_,rfl⟩ | ⟨_,same⟩⟩ := found given
    · simp [Matcher.taken] at taken
      omega
    · rw [Parse.occurrences]
      rw [Matcher.taken] at taken
      exact loop.inside same taken lower upper
  · intro i away run captures
    rw [repeatMatch]
    split
    · rfl
    · exact loop.frame away run captures
  · intro run d i given taken lower upper captures
    obtain ⟨ds,rfl,⟨_,_,rfl⟩ | ⟨passed,same⟩⟩ := found given
    · simp [Matcher.taken] at taken
      omega
    · rw [Parse.occurrences,repeatMatch,if_neg passed]
      rw [Matcher.taken] at taken
      exact loop.writes same taken lower upper captures

mutual
theorem matchRun_faithful (matcher : Matcher) (index : ℕ) :
    Faithful (matcher.matchRun oracle index) (matcher.search oracle index) Parse.covered Parse.occurrences matcher.taken index
      matcher.refs := by
  cases matcher with
  | componentSet components included =>
    rw [Matcher.matchRun,Matcher.search,Matcher.refs]
    exact componentSet_faithful components included index
  | backRef items =>
    rw [Matcher.matchRun,Matcher.search,Matcher.refs]
    exact backRef_faithful index (matchRuns_faithful items (index + 1))
  | repeated item repeatMin repeatMax =>
    rw [Matcher.matchRun,Matcher.search,Matcher.refs]
    exact repeat_faithful repeatMin repeatMax (matchRun_faithful item index)

theorem matchRuns_faithful (items : List Matcher) (index : ℕ) :
    Faithful (recursiveMatch (matchRuns oracle items index)) (recursiveSearch (searches oracle items index)) coveredAll
      occurrencesAll (takenAll items) index (refsAll items) := by
  cases items with
  | nil =>
    rw [matchRuns,searches,refsAll]
    exact nothing_faithful index
  | cons item items =>
    rw [matchRuns,searches,refsAll]
    exact cons_faithful (matchRun_faithful item index) (matchRuns_faithful items (index + item.refs))
end

end Trials

theorem refsAll_append (first second : List Matcher) : refsAll (first ++ second) = refsAll first + refsAll second := by
  induction first with
  | nil => rw [List.nil_append,refsAll,Nat.zero_add]
  | cons item items ih => rw [List.cons_append,refsAll,refsAll,ih,Nat.add_assoc]

namespace RegexTopMatcher
variable {oracle : Oracle} {top : RegexTopMatcher}

-- The padding has no groups.
theorem primary_refs (top : RegexTopMatcher) : refsAll top.primaryItems = refsAll top.core := by
  rw [primaryItems,refsAll_append]
  split <;> rfl

theorem secondary_refs {items : List Matcher} (secondary : top.secondaryItems = some items) :
    refsAll items = refsAll top.core := by
  rw [secondaryItems] at secondary
  split at secondary
  · cases secondary
  · cases secondary
    rw [refsAll,primary_refs]
    exact Nat.zero_add _

-- The pattern list that accepts a name, and how it takes the name apart.
def accepted (oracle : Oracle) (top : RegexTopMatcher) (name : Name) : Option (List Matcher × List Parse) :=
  match recursiveSearch (searches oracle top.primaryItems 0) name with
  | some parses => some (top.primaryItems,parses)
  | none => top.secondaryItems.bind (fun items =>
    (recursiveSearch (searches oracle items 0) name).map (fun parses => (items,parses)))

-- On the way that is accepted no group is passed over.
def allTaken (oracle : Oracle) (top : RegexTopMatcher) (name : Name) : Bool :=
  (top.accepted oracle name).all (fun (items,parses) => takenAll items parses)

section Pattern
variable {items : List Matcher} {parses : List Parse} {name : Name}
  (found : recursiveSearch (searches oracle items 0) name = some parses) (captures : Captures)
include found

theorem pattern_matched : recursiveMatch (matchRuns oracle items 0) name captures =
    (true,(recursiveMatch (matchRuns oracle items 0) name captures).2) := by
  have agrees := patternList_agrees oracle items 0 name captures
  rw [found,Option.isSome_some] at agrees
  exact Prod.ext agrees rfl

theorem pattern_captures (taken : takenAll items parses = true) {i : ℕ} (within : i < refsAll items) :
    (recursiveMatch (matchRuns oracle items 0) name captures).2 i = lastOf (occurrencesAll i parses) := by
  have bound : i < 0 + refsAll items := by omega
  exact (matchRuns_faithful items 0).writes found taken (Nat.zero_le i) bound captures

end Pattern

theorem pattern_refused {items : List Matcher} {name : Name}
    (refused : recursiveSearch (searches oracle items 0) name = none) (captures : Captures) :
    (recursiveMatch (matchRuns oracle items 0) name captures).1 = false := by
  have agrees := patternList_agrees oracle items 0 name captures
  rwa [refused,Option.isSome_none] at agrees

theorem accepted_cases {name : Name} {items : List Matcher} {parses : List Parse}
    (found : top.accepted oracle name = some (items,parses)) :
    (items = top.primaryItems ∧ recursiveSearch (searches oracle items 0) name = some parses) ∨
    (recursiveSearch (searches oracle top.primaryItems 0) name = none ∧ top.secondaryItems = some items ∧
      recursiveSearch (searches oracle items 0) name = some parses) := by
  rw [accepted] at found
  split at found
  · rename_i first given
    cases found
    exact .inl ⟨rfl,given⟩
  · rename_i given
    obtain ⟨second,secondary,same⟩ := Option.bind_eq_some_iff.mp found
    obtain ⟨others,result,equal⟩ := Option.map_eq_some_iff.mp same
    cases equal
    exact .inr ⟨given,secondary,result⟩

theorem matched_accepted {s : State} {name : Name} (matched : (top.matchName oracle s name).1 = true) :
    ∃ items parses, top.accepted oracle name = some (items,parses) := by
  rw [matchName_iff] at matched
  cases first : recursiveSearch (searches oracle top.primaryItems 0) name with
  | some parses => exact ⟨_,parses,by rw [accepted,first]⟩
  | none =>
    rcases matched with primary | ⟨items,secondary,member⟩
    · rw [← searches_iff top.primaryItems 0,first] at primary
      cases primary
    · rw [← searches_iff items 0,Option.isSome_iff_exists] at member
      obtain ⟨parses,second⟩ := member
      exact ⟨items,parses,by simp [accepted,first,secondary,second]⟩

-- After a match that takes all groups nothing is left of the state before it.
theorem matchName_captures {name : Name} {items : List Matcher} {parses : List Parse}
    (found : top.accepted oracle name = some (items,parses)) (taken : takenAll items parses = true) (s : State) :
    (top.matchName oracle s name).2.matchResult = name ∧
      ∀ i < refsAll top.core, getBackRef (top.matchName oracle s name).2 i = lastOf (occurrencesAll i parses) := by
  rcases accepted_cases found with ⟨rfl,first⟩ | ⟨refused,secondary,second⟩
  · have matched : top.matchName oracle s name =
        (true,⟨(recursiveMatch (matchRuns oracle top.primaryItems 0) name s.primary).2,s.secondary,name,false⟩) := by
      rw [matchName,pattern_matched first]
      rfl
    rw [matched]
    refine ⟨rfl,?_⟩
    intro i within
    exact pattern_captures first s.primary taken (by rwa [primary_refs])
  · have matched : top.matchName oracle s name =
        (true,⟨(recursiveMatch (matchRuns oracle top.primaryItems 0) name s.primary).2,
          (recursiveMatch (matchRuns oracle items 0) name s.secondary).2,name,true⟩) := by
      have failed := pattern_refused refused s.primary
      rw [matchName,secondary]
      dsimp only
      rw [failed,pattern_matched second]
      rfl
    rw [matched]
    refine ⟨rfl,?_⟩
    intro i within
    exact pattern_captures second s.secondary taken (by rwa [secondary_refs secondary])

section Expand
variable {s t : State} (results : s.matchResult = t.matchResult)
  (refs : ∀ i < refsAll top.core, getBackRef s i = getBackRef t i)
include results refs

theorem expandItem_congr (result : Name) (item : Blob) : expandItem top s result item = expandItem top t result item := by
  cases item with
  | nil => rfl
  | cons c rest =>
    simp only [expandItem,results]
    split
    · rfl
    · split
      · rfl
      · split
        · split
          · rfl
          · rename_i nonzero within positive
            rw [refs _ (by omega)]
        · rfl

theorem expandFrom_congr (fuel : ℕ) (result : Name) (template : Blob) :
    expandFrom top s fuel result template = expandFrom top t fuel result template := by
  induction fuel generalizing result template with
  | zero => cases template <;> rfl
  | succ fuel ih =>
    cases template with
    | nil => rfl
    | cons c rest =>
      simp only [expandFrom,expandItem_congr results refs,ih]

theorem expandName_congr (template : Blob) : expandName top s template = expandName top t template :=
  expandFrom_congr results refs _ _ _

end Expand

theorem captures_last (oracle : Oracle) (top : RegexTopMatcher) (names : List Name) (name : Name)
    (matched : (top.matchName oracle (top.after oracle names) name).1 = true) (taken : top.allTaken oracle name = true) :
    ∃ items parses, top.accepted oracle name = some (items,parses) ∧ coveredAll parses = name ∧
      (∀ i < refsAll top.core, getBackRef (top.matchName oracle (top.after oracle names) name).2 i =
        lastOf (occurrencesAll i parses)) ∧
      ∀ others template, expandName top (top.matchName oracle (top.after oracle others) name).2 template =
        expandName top (top.matchName oracle (top.after oracle names) name).2 template := by
  obtain ⟨items,parses,found⟩ := matched_accepted matched
  rw [allTaken,found,Option.all_some] at taken
  have covered : coveredAll parses = name := by
    rcases accepted_cases found with ⟨rfl,first⟩ | ⟨_,_,second⟩
    · exact (matchRuns_faithful top.primaryItems 0).covered first
    · exact (matchRuns_faithful items 0).covered second
  have here := matchName_captures found taken (top.after oracle names)
  refine ⟨items,parses,found,covered,here.2,?_⟩
  intro others template
  have there := matchName_captures found taken (top.after oracle others)
  apply expandName_congr
  · rw [there.1,here.1]
  · intro i within
    rw [there.2 i within,here.2 i within]

-- `(<a>)<b>` in the middle of a name, after another name.
def grouped : RegexTopMatcher := ⟨[.backRef [letter 0x61],letter 0x62],false,false,[]⟩

theorem captures_last_grouped : ∃ items parses, grouped.accepted plainText [letterName 0x62,letterName 0x61,letterName 0x62] =
      some (items,parses) ∧
    getBackRef (grouped.matchName plainText (grouped.after plainText [[letterName 0x61]])
      [letterName 0x62,letterName 0x61,letterName 0x62]).2 0 = lastOf (occurrencesAll 0 parses) := by
  obtain ⟨items,parses,found,_,captures,_⟩ := captures_last plainText grouped [[letterName 0x61]]
    [letterName 0x62,letterName 0x61,letterName 0x62] (by decide) (by decide)
  exact ⟨items,parses,found,captures 0 (by decide)⟩

-- `^(<a>)?<a>$`.
def optional : RegexTopMatcher := ⟨[.repeated (.backRef [letter 0x61]) 0 1,letter 0x61],true,true,[]⟩

-- The group first takes the only component and gives it back; its match result stays.
theorem passed_group_kept : (optional.matchName plainText fresh [letterName 0x61]).1 = true ∧
    (∃ items parses, optional.accepted plainText [letterName 0x61] = some (items,parses) ∧ occurrencesAll 0 parses = []) ∧
    getBackRef (optional.matchName plainText fresh [letterName 0x61]).2 0 = [letterName 0x61] := by
  refine ⟨by decide,⟨_,_,rfl,rfl⟩,by decide⟩

end RegexTopMatcher
end NdnCxx.Regex
