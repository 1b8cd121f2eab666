import NdnCxx.Regex.Captures
import NdnCxx.Regex.Language

namespace NdnCxx.Regex
open Backtrack

section Greedy
variable {α ρ τ : Type} {f : List α → Option ρ} {g : List α → Option τ} {run : List α}

-- The piece that is taken is the longest that can be.
theorem findDown_longest {tried : ℕ} {d : ρ} {e : τ} (found : findDown f g run tried = some (d,e)) :
    ∃ k ≤ tried, f (run.take k) = some d ∧ g (run.drop k) = some e ∧
      ∀ j ≤ tried, (f (run.take j)).isSome = true → (g (run.drop j)).isSome = true → j ≤ k := by
  induction tried with
  | zero => exact ⟨0,le_rfl,(splitFound_iff.mp found).1,(splitFound_iff.mp found).2,fun j below _ _ => below⟩
  | succ tried ih =>
    rw [findDown,Option.or_eq_some_iff] at found
    rcases found with here | ⟨failed,later⟩
    · exact ⟨tried + 1,le_rfl,(splitFound_iff.mp here).1,(splitFound_iff.mp here).2,fun j below _ _ => below⟩
    · obtain ⟨k,below,left,right,longest⟩ := ih later
      refine ⟨k,by omega,left,right,?_⟩
      intro j within first second
      rcases Nat.lt_or_eq_of_le within with fewer | rfl
      · exact longest j (Nat.lt_succ_iff.mp fewer) first second
      · have both : (splitFound f g run (tried + 1)).isSome =
            ((f (run.take (tried + 1))).isSome && (g (run.drop (tried + 1))).isSome) := splitFound_isSome
        rw [failed,first,second] at both
        cases both

end Greedy

section Parts
variable {oracle : Oracle}

-- How the first matcher of a list and the others share a run.
theorem searches_parts {item : Matcher} {items : List Matcher} {index : ℕ} {run : List Component} {parses : List Parse}
    (found : recursiveSearch (searches oracle (item :: items) index) run = some parses) :
    ∃ front back d ds, run = front ++ back ∧ parses = d :: ds ∧ item.search oracle index front = some d ∧
      recursiveSearch (searches oracle items (index + item.refs)) back = some ds ∧
      ∀ front' back', run = front' ++ back' → (item.search oracle index front').isSome = true →
        (recursiveSearch (searches oracle items (index + item.refs)) back').isSome = true → front'.length ≤ front.length := by
  rw [searches] at found
  obtain ⟨d,ds,taken,rfl⟩ := recursiveSearch_cons found
  obtain ⟨k,below,left,right,longest⟩ := findDown_longest taken
  refine ⟨run.take k,run.drop k,d,ds,(List.take_append_drop k run).symm,rfl,left,right,?_⟩
  rintro front' back' rfl first second
  rw [List.length_take_of_le below]
  refine longest front'.length (by simp) ?_ ?_
  · rwa [List.take_left]
  · rwa [List.drop_left]

theorem searches_some {item : Matcher} {items : List Matcher} {index : ℕ} {front back : List Component}
    (first : (item.search oracle index front).isSome = true)
    (others : (recursiveSearch (searches oracle items (index + item.refs)) back).isSome = true) :
    (recursiveSearch (searches oracle (item :: items) index) (front ++ back)).isSome = true := by
  rw [searches,recursiveSearch,Option.isSome_map]
  exact findDown_append first others

theorem searches_nil {index : ℕ} {run : List Component} {parses : List Parse}
    (found : recursiveSearch (searches oracle [] index) run = some parses) : run = [] ∧ parses = [] := by
  rw [searches,recursiveSearch] at found
  split at found
  · rename_i empty
    exact ⟨List.isEmpty_iff.mp empty,(Option.some.inj found).symm⟩
  · cases found

-- The components that a set admits.
def admits (oracle : Oracle) (components : List Blob) (included : Bool) (component : Component) : Bool :=
  components.any (componentMatch oracle component) == included

theorem set_language {components : List Blob} {included strict : Bool} {run : List Component} :
    run ∈ (Matcher.componentSet components included).language oracle strict ↔
      ∃ component, run = [component] ∧ admits oracle components included component = true := by
  rw [Matcher.language]
  refine exists_congr fun component => and_congr_right fun _ => ?_
  rw [admits,beq_iff_eq,← List.any_eq_true]
  exact Bool.eq_iff_iff.symm

theorem set_power {components : List Blob} {included strict : Bool} {n : ℕ} {run : List Component} :
    run ∈ (Matcher.componentSet components included).language oracle strict ^ n ↔
      run.length = n ∧ ∀ component ∈ run, admits oracle components included component = true := by
  induction n generalizing run with
  | zero =>
    rw [pow_zero,Language.mem_one,List.length_eq_zero_iff]
    constructor
    · rintro rfl
      exact ⟨rfl,List.forall_mem_nil _⟩
    · exact fun given => given.1
  | succ n ih =>
    rw [pow_succ',Language.mem_mul]
    constructor
    · rintro ⟨front,first,back,others,rfl⟩
      obtain ⟨component,rfl,admitted⟩ := set_language.mp first
      obtain ⟨counted,all⟩ := ih.mp others
      exact ⟨by simp [counted],List.forall_mem_cons.mpr ⟨admitted,all⟩⟩
    · rintro ⟨counted,all⟩
      cases run with
      | nil => cases counted
      | cons component run =>
        obtain ⟨admitted,others⟩ := List.forall_mem_cons.mp all
        exact ⟨[component],set_language.mpr ⟨component,rfl,admitted⟩,run,ih.mpr ⟨Nat.succ.inj counted,others⟩,rfl⟩

-- A repeated set takes any run of its components that is neither too short nor too long.
theorem many_iff {components : List Blob} {included : Bool} {repeatMin repeatMax index : ℕ} {run : List Component} :
    ((Matcher.repeated (.componentSet components included) repeatMin repeatMax).search oracle index run).isSome = true ↔
      repeatMin ≤ run.length ∧ run.length ≤ repeatMax ∧ ∀ component ∈ run, admits oracle components included component = true := by
  rw [search_iff,Matcher.language]
  constructor
  · rintro ⟨_,n,least,most,member⟩
    obtain ⟨rfl,all⟩ := set_power.mp member
    exact ⟨least,most,all⟩
  · rintro ⟨least,most,all⟩
    refine ⟨?_,run.length,least,most,set_power.mpr ⟨rfl,all⟩⟩
    rintro _ rfl
    exact Nat.le_zero.mp least

theorem one_iff {components : List Blob} {index : ℕ} {run : List Component} :
    ((Matcher.repeated (.componentSet components true) 1 1).search oracle index run).isSome = true ↔
      ∃ component, run = [component] ∧ admits oracle components true component = true := by
  rw [many_iff]
  constructor
  · rintro ⟨least,most,all⟩
    obtain ⟨component,rfl⟩ := List.length_eq_one_iff.mp (Nat.le_antisymm most least)
    exact ⟨component,rfl,all component (.head _)⟩
  · rintro ⟨component,rfl,admitted⟩
    exact ⟨le_rfl,le_rfl,List.forall_mem_singleton.mpr admitted⟩

-- A group around a repeated set keeps what the set takes.
theorem group_iff {item : Matcher} {index : ℕ} {run : List Component} :
    ((Matcher.backRef [item]).search oracle index run).isSome = true ↔ (item.search oracle (index + 1) run).isSome = true := by
  rw [search_iff,search_iff,Matcher.language,languageAll_single]

theorem group_occurrences {item : Matcher} (flat : item.refs = 0) {index : ℕ} {run : List Component} {d : Parse}
    (found : (Matcher.backRef [item]).search oracle index run = some d) (i : ℕ) :
    d.occurrences i = if index = i then [run] else [] := by
  rw [Matcher.search] at found
  obtain ⟨parses,inner,rfl⟩ := Option.map_eq_some_iff.mp found
  have faithful := @matchRuns_faithful oracle [item] (index + 1)
  have none : occurrencesAll i parses = [] := faithful.outside inner (by
    rw [refsAll,flat,refsAll]
    omega)
  rw [Parse.occurrences,faithful.covered inner,none,List.append_nil]

theorem flat_occurrences {item : Matcher} (flat : item.refs = 0) {index : ℕ} {run : List Component} {d : Parse}
    (found : item.search oracle index run = some d) (i : ℕ) : d.occurrences i = [] :=
  (matchRun_faithful item index).outside found (by
    rw [flat]
    omega)

theorem flat_taken {item : Matcher} {components : List Blob} {included : Bool} {repeatMin repeatMax index : ℕ}
    (same : item = .repeated (.componentSet components included) repeatMin repeatMax) {run : List Component} {d : Parse}
    (found : item.search oracle index run = some d) : item.taken d = true := by
  subst same
  rw [Matcher.search] at found
  obtain ⟨parses,_,rfl⟩ := Option.map_eq_some_iff.mp found
  rw [Matcher.taken,Matcher.refs,Bool.and_eq_true,List.all_eq_true]
  refine ⟨by simp,fun parse _ => ?_⟩
  rw [Matcher.taken]

theorem group_taken {components : List Blob} {included : Bool} {repeatMin repeatMax index : ℕ} {run : List Component} {d : Parse}
    (found : (Matcher.backRef [.repeated (.componentSet components included) repeatMin repeatMax]).search oracle index run = some d) :
    (Matcher.backRef [.repeated (.componentSet components included) repeatMin repeatMax]).taken d = true := by
  rw [Matcher.search] at found
  obtain ⟨parses,inner,rfl⟩ := Option.map_eq_some_iff.mp found
  obtain ⟨front,back,d,ds,_,rfl,first,others,_⟩ := searches_parts inner
  obtain ⟨_,rfl⟩ := searches_nil others
  rw [Matcher.taken,takenAll,flat_taken rfl first,takenAll]
  rfl

end Parts
end NdnCxx.Regex
