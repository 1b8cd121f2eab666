import NdnCxx.Regex.Matcher

namespace NdnCxx.Regex
open Backtrack

-- How a run of components was taken apart.
inductive Parse where
  | component (component : Component)
  | group (index : ℕ) (items : List Parse)
  | iterations (items : List Parse)

-- The search of the matchers, without what they remember. It returns the
-- decomposition that is accepted.
section Search
variable (oracle : Oracle)

abbrev Finder := List Component → Option Parse

def componentSetSearch (components : List Blob) (included : Bool) : Finder
  | [component] => if components.any (componentMatch oracle component) == included then some (.component component) else none
  | _ => none

def recursiveSearch : List Finder → List Component → Option (List Parse)
  | [],run => if run.isEmpty then some [] else none
  | matcher :: matchers,run =>
    (findDown matcher (recursiveSearch matchers) run run.length).map (fun (item,items) => item :: items)

def repeatRecursiveSearch (item : Finder) (repeatMin : ℕ) : ℕ → ℕ → List Component → Option (List Parse)
  | 0,count,run => if run.isEmpty && decide (repeatMin ≤ count) then some [] else none
  | left + 1,count,run =>
    if run.isEmpty then (if repeatMin ≤ count then some [] else none)
    else (findDown item (repeatRecursiveSearch item repeatMin left (count + 1)) run run.length).map
      (fun (item,items) => item :: items)

def repeatSearch (item : Finder) (repeatMin repeatMax : ℕ) (run : List Component) : Option (List Parse) :=
  if repeatMin = 0 ∧ run.isEmpty then some [] else repeatRecursiveSearch item repeatMin repeatMax 0 run

mutual
def Matcher.search : Matcher → ℕ → Finder
  | .componentSet components included,_ => componentSetSearch oracle components included
  | .backRef items,index => fun run => (recursiveSearch (searches items (index + 1)) run).map (.group index)
  | .repeated item repeatMin repeatMax,index => fun run =>
    (repeatSearch (item.search index) repeatMin repeatMax run).map .iterations

def searches : List Matcher → ℕ → List Finder
  | [],_ => []
  | item :: items,index => item.search index :: searches items (index + item.refs)
end

end Search

section Agreement
variable {oracle : Oracle}

theorem componentSet_agrees (components : List Blob) (included : Bool) :
    Agrees (componentSetMatch oracle components included) (componentSetSearch oracle components included) := by
  intro run captures
  match run with
  | [] => rfl
  | [component] =>
    simp only [componentSetMatch,componentSetSearch]
    cases components.any (componentMatch oracle component) == included <;> rfl
  | _ :: _ :: _ => rfl

theorem recursive_agrees {trials : List Trial} {finders : List Finder} (each : List.Forall₂ Agrees trials finders) :
    Agrees (recursiveMatch trials) (recursiveSearch finders) := by
  induction each with
  | nil =>
    intro run captures
    cases run <;> rfl
  | cons first rest ih =>
    intro run captures
    rw [recursiveMatch,recursiveSearch,Option.isSome_map]
    exact tryDown_agrees first ih run run.length captures

theorem findDown_whole {ρ : Type} (f : List Component → Option ρ) (run : List Component) :
    (findDown f (recursiveSearch []) run run.length).isSome = (f run).isSome := by
  rw [Bool.eq_iff_iff,findDown_isSome]
  constructor
  · intro given
    obtain ⟨k,below,found,last⟩ := given
    have whole : run.drop k = [] := by
      rw [recursiveSearch] at last
      split at last
      · rename_i empty
        exact List.isEmpty_iff.mp empty
      · cases last
    rwa [List.take_of_length_le (List.drop_eq_nil_iff.mp whole)] at found
  · intro found
    exact ⟨run.length,le_rfl,by rwa [List.take_length],by rw [List.drop_length]; rfl⟩

theorem backRef_agrees {inner : Trial} {search : List Component → Option (List Parse)} (each : Agrees inner search)
    (index : ℕ) : Agrees (backRefMatch index inner) (fun run => (search run).map (Parse.group index)) := by
  intro run captures
  have nothing : Agrees (recursiveMatch []) (recursiveSearch []) := recursive_agrees .nil
  have result := tryDown_agrees each nothing run run.length (Function.update captures index [])
  rw [findDown_whole] at result
  rw [Option.isSome_map,← result,backRefMatch,recursiveMatch]
  generalize tryDown inner (recursiveMatch []) run run.length (Function.update captures index []) = reached
  obtain ⟨done,state⟩ := reached
  cases done <;> rfl

theorem repeatRecursive_agrees {item : Trial} {search : Finder} (each : Agrees item search) (repeatMin left count : ℕ) :
    Agrees (repeatRecursiveMatch item repeatMin left count) (repeatRecursiveSearch search repeatMin left count) := by
  induction left generalizing count with
  | zero =>
    intro run captures
    rw [repeatRecursiveMatch,repeatRecursiveSearch]
    cases run.isEmpty && decide (repeatMin ≤ count) <;> rfl
  | succ left ih =>
    intro run captures
    rw [repeatRecursiveMatch,repeatRecursiveSearch]
    split
    · by_cases enough : repeatMin ≤ count
      · simp [enough]
      · simp [enough]
    · rw [Option.isSome_map]
      exact tryDown_agrees each (ih (count + 1)) run run.length captures

theorem repeat_agrees {item : Trial} {search : Finder} (each : Agrees item search) (repeatMin repeatMax : ℕ) :
    Agrees (repeatMatch item repeatMin repeatMax)
      (fun run => (repeatSearch search repeatMin repeatMax run).map Parse.iterations) := by
  intro run captures
  rw [Option.isSome_map,repeatMatch,repeatSearch]
  split
  · rfl
  · exact repeatRecursive_agrees each repeatMin repeatMax 0 run captures

-- Whether a matcher succeeds does not depend on what it remembers.
mutual
theorem matchRun_agrees (matcher : Matcher) (index : ℕ) :
    Agrees (matcher.matchRun oracle index) (matcher.search oracle index) := by
  cases matcher with
  | componentSet components included =>
    rw [Matcher.matchRun,Matcher.search]
    exact componentSet_agrees components included
  | backRef items =>
    rw [Matcher.matchRun,Matcher.search]
    exact backRef_agrees (recursive_agrees (matchRuns_agree items (index + 1))) index
  | repeated item repeatMin repeatMax =>
    rw [Matcher.matchRun,Matcher.search]
    exact repeat_agrees (matchRun_agrees item index) repeatMin repeatMax

theorem matchRuns_agree (items : List Matcher) (index : ℕ) :
    List.Forall₂ Agrees (matchRuns oracle items index) (searches oracle items index) := by
  cases items with
  | nil =>
    rw [matchRuns,searches]
    exact .nil
  | cons item items =>
    rw [matchRuns,searches]
    exact .cons (matchRun_agrees item index) (matchRuns_agree items (index + item.refs))
end

end Agreement

theorem patternList_agrees (oracle : Oracle) (items : List Matcher) (index : ℕ) :
    Agrees (recursiveMatch (matchRuns oracle items index)) (recursiveSearch (searches oracle items index)) :=
  recursive_agrees (matchRuns_agree items index)

end NdnCxx.Regex
