import NdnCxx.Regex.Anchors

namespace NdnCxx.Regex
open Backtrack

-- One call of `RegexRepeatMatcher::recursiveMatch`: `count` iterations are done and
-- `left` more are allowed. The run is what remains of the name.
structure RepeatCall where
  left : ℕ
  count : ℕ
  run : List Component
  captures : Captures

-- The calls that the loop of one call makes, in their order.
def nestedCalls (item : Trial) (repeatMin : ℕ) (call : RepeatCall) : List RepeatCall :=
  match call.left with
  | 0 => []
  | left + 1 =>
    if call.run.isEmpty then []
    else (handedOn item (repeatRecursiveMatch item repeatMin left (call.count + 1)) call.run call.run.length call.captures).map
      (fun handed => ⟨left,call.count + 1,handed.1,handed.2⟩)

-- The calls below a call, with their depth.
inductive Reaches (item : Trial) (repeatMin : ℕ) (outer : RepeatCall) : ℕ → RepeatCall → Prop where
  | outer : Reaches item repeatMin outer 0 outer
  | nested {depth : ℕ} {call inner : RepeatCall} :
      Reaches item repeatMin outer depth call → inner ∈ nestedCalls item repeatMin call →
        Reaches item repeatMin outer (depth + 1) inner

-- Whether a matcher accepts the empty run, whatever the components are.
mutual
def Matcher.nullable : Matcher → Bool
  | .componentSet _ _ => false
  | .backRef items => nullableAll items
  | .repeated _ repeatMin _ => repeatMin == 0

def nullableAll : List Matcher → Bool
  | [] => true
  | item :: items => item.nullable && nullableAll items
end

section Nullable
variable {oracle : Oracle}

mutual
theorem nullable_iff (matcher : Matcher) : [] ∈ matcher.language oracle true ↔ matcher.nullable = true := by
  cases matcher with
  | componentSet components included =>
    rw [Matcher.language,Matcher.nullable]
    constructor
    · rintro ⟨component,empty,_⟩
      cases empty
    · intro never
      cases never
  | backRef items =>
    rw [Matcher.language,Matcher.nullable]
    exact nullableAll_iff items
  | repeated item repeatMin repeatMax =>
    rw [Matcher.language,Matcher.nullable,beq_iff_eq]
    constructor
    · rintro ⟨guarded,_⟩
      exact guarded rfl rfl
    · intro zero
      exact ⟨fun _ _ => zero,0,zero.le,Nat.zero_le _,(Language.mem_one []).mpr rfl⟩

theorem nullableAll_iff (items : List Matcher) : [] ∈ languageAll oracle true items ↔ nullableAll items = true := by
  cases items with
  | nil =>
    rw [languageAll,nullableAll]
    exact ⟨fun _ => rfl,fun _ => (Language.mem_one []).mpr rfl⟩
  | cons item items =>
    rw [languageAll,nullableAll,Bool.and_eq_true,← nullable_iff item,← nullableAll_iff items,Language.mem_mul]
    constructor
    · rintro ⟨front,here,back,there,joined⟩
      obtain ⟨rfl,rfl⟩ := List.append_eq_nil_iff.mp joined
      exact ⟨here,there⟩
    · rintro ⟨here,there⟩
      exact ⟨[],here,[],there,rfl⟩
end

end Nullable

-- What is left can be taken apart into as many pieces as the bounds allow.
def Finishes (l : Language Component) (repeatMin left count : ℕ) (run : List Component) : Prop :=
  ∃ n ≤ left, repeatMin ≤ count + n ∧ run ∈ l ^ n ∧ (run = [] → n = 0)

theorem finishes_iff {search : Finder} {l : Language Component} (each : ∀ run, (search run).isSome = true ↔ run ∈ l)
    {repeatMin left count : ℕ} {run : List Component} :
    (repeatRecursiveSearch search repeatMin left count run).isSome = true ↔ Finishes l repeatMin left count run := by
  constructor
  · exact repeatRecursive_sound each
  · rintro ⟨n,below,enough,member,none⟩
    by_cases empty : run = []
    · rw [none empty,Nat.add_zero] at enough
      subst empty
      cases left with
      | zero => simp [repeatRecursiveSearch,enough]
      | succ left => simp [repeatRecursiveSearch,enough]
    · obtain ⟨pieces,rfl,rfl,members⟩ := Language.mem_pow.mp member
      exact repeatRecursive_complete each empty below enough members

-- A call that goes on with the run it was given: the item matches nothing at all, and
-- every non-empty first piece has been tried in vain.
structure Stalls (oracle : Oracle) (item : Matcher) (repeatMin : ℕ) (call : RepeatCall) : Prop where
  more : call.run ≠ []
  allowed : 0 < call.left
  nullable : item.nullable = true
  stuck : ¬∃ k, 0 < k ∧ k ≤ call.run.length ∧ call.run.take k ∈ item.language oracle true ∧
    Finishes (item.language oracle true) repeatMin (call.left - 1) (call.count + 1) (call.run.drop k)

section Calls
variable {oracle : Oracle} {item : Node} {repeatMin : ℕ}

theorem item_agrees (item : Node) : Agrees (item.matchRun oracle) (item.matcher.search oracle 0) := node_agrees item 0

theorem nested_suffix {call inner : RepeatCall} (nested : inner ∈ nestedCalls (item.matchRun oracle) repeatMin call) :
    ∃ k ≤ call.run.length, inner.run = call.run.drop k ∧ inner.left + 1 = call.left ∧ inner.count = call.count + 1 := by
  unfold nestedCalls at nested
  split at nested
  · cases nested
  · rename_i left same
    split at nested
    · cases nested
    · obtain ⟨handed,given,rfl⟩ := List.mem_map.mp nested
      obtain ⟨k,below,rest,_⟩ := handedOn_drop (item_agrees item) given
      exact ⟨k,below,rest,same.symm,rfl⟩

-- A nested call on the same run: the loop has come down to the empty piece.
theorem nested_same_iff (call : RepeatCall) :
    (∃ inner ∈ nestedCalls (item.matchRun oracle) repeatMin call, inner.run = call.run) ↔
      Stalls oracle item.matcher repeatMin call := by
  have language := @search_iff oracle item.matcher 0
  have empty : ((item.matcher.search oracle 0) []).isSome = true ↔ item.matcher.nullable = true := by
    rw [language,nullable_iff]
  unfold nestedCalls
  split
  · rename_i none
    constructor
    · rintro ⟨inner,member,_⟩
      cases member
    · intro stalls
      have allowed := stalls.allowed
      omega
  · rename_i left same
    split
    · rename_i nothing
      constructor
      · rintro ⟨inner,member,_⟩
        cases member
      · intro stalls
        exact absurd (List.isEmpty_iff.mp nothing) stalls.more
    · rename_i more
      have rest := repeatRecursive_agrees (@item_agrees oracle item) repeatMin left (call.count + 1)
      have whole := handedOn_whole (@item_agrees oracle item) rest (le_refl call.run.length) call.captures
      simp only [language,finishes_iff language,nullable_iff] at whole
      constructor
      · rintro ⟨inner,member,unchanged⟩
        obtain ⟨handed,given,rfl⟩ := List.mem_map.mp member
        obtain ⟨nullable,stuck⟩ := whole.mp ⟨handed,given,unchanged⟩
        refine ⟨fun none => more (List.isEmpty_iff.mpr none),by omega,nullable,?_⟩
        rwa [same]
      · intro stalls
        have stuck := stalls.stuck
        rw [same] at stuck
        obtain ⟨handed,given,unchanged⟩ := whole.mpr ⟨stalls.nullable,stuck⟩
        exact ⟨_,List.mem_map.mpr ⟨handed,given,rfl⟩,unchanged⟩

theorem nested_shorter_iff (call : RepeatCall) :
    (∀ inner ∈ nestedCalls (item.matchRun oracle) repeatMin call, inner.run.length < call.run.length) ↔
      ¬Stalls oracle item.matcher repeatMin call := by
  rw [← nested_same_iff]
  constructor
  · rintro shorter ⟨inner,member,same⟩
    have less := shorter inner member
    rw [same] at less
    exact absurd less (lt_irrefl _)
  · intro none inner member
    obtain ⟨k,below,rest,_⟩ := nested_suffix member
    have less : 0 < k := by
      refine Nat.pos_of_ne_zero ?_
      rintro rfl
      exact none ⟨inner,member,rest⟩
    have sizes := congrArg List.length rest
    rw [List.length_drop] at sizes
    omega

theorem reaches_shorter {outer call : RepeatCall} {depth : ℕ} (reached : Reaches (item.matchRun oracle) repeatMin outer depth call)
    (moving : ∀ depth call, Reaches (item.matchRun oracle) repeatMin outer depth call →
      ¬Stalls oracle item.matcher repeatMin call) : depth + call.run.length ≤ outer.run.length := by
  induction reached with
  | outer => omega
  | nested before member ih =>
    have less := (nested_shorter_iff _).mpr (moving _ _ before) _ member
    omega

-- Where no piece of the run fits but the empty one, the recursion goes on until no
-- iteration is allowed any more.
theorem reaches_stalled {outer : RepeatCall} (more : outer.run ≠ []) (nullable : item.matcher.nullable = true)
    (stuck : ∀ k, 0 < k → k ≤ outer.run.length → outer.run.take k ∉ item.matcher.language oracle true) (depth : ℕ)
    (allowed : depth ≤ outer.left) :
    ∃ call, Reaches (item.matchRun oracle) repeatMin outer depth call ∧ call.run = outer.run ∧
      call.left + depth = outer.left := by
  induction depth with
  | zero => exact ⟨outer,.outer,rfl,rfl⟩
  | succ depth ih =>
    obtain ⟨call,reached,same,left⟩ := ih (by omega)
    have stalls : Stalls oracle item.matcher repeatMin call := by
      refine ⟨same ▸ more,by omega,nullable,?_⟩
      rintro ⟨k,positive,below,piece,_⟩
      rw [same] at below piece
      exact stuck k positive below piece
    obtain ⟨inner,member,unchanged⟩ := (nested_same_iff call).mpr stalls
    obtain ⟨_,_,_,less,_⟩ := nested_suffix member
    exact ⟨inner,.nested reached member,unchanged.trans same,by omega⟩

end Calls

-- In the recursion of one repetition every nested call has less of the name left exactly
-- if no call stalls, and then the depth is bounded by what is left.
theorem repetition_founded (oracle : Oracle) (item : Node) (repeatMin repeatMax : ℤ) (run : List Component) (captures : Captures) :
    ((∀ depth call, Reaches (item.matchRun oracle) repeatMin.toNat ⟨repeatMax.toNat,0,run,captures⟩ depth call →
        ∀ inner ∈ nestedCalls (item.matchRun oracle) repeatMin.toNat call, inner.run.length < call.run.length) ↔
      ∀ depth call, Reaches (item.matchRun oracle) repeatMin.toNat ⟨repeatMax.toNat,0,run,captures⟩ depth call →
        ¬Stalls oracle item.matcher repeatMin.toNat call) ∧
      ((∀ depth call, Reaches (item.matchRun oracle) repeatMin.toNat ⟨repeatMax.toNat,0,run,captures⟩ depth call →
          ¬Stalls oracle item.matcher repeatMin.toNat call) →
        ∀ depth call, Reaches (item.matchRun oracle) repeatMin.toNat ⟨repeatMax.toNat,0,run,captures⟩ depth call →
          depth + call.run.length ≤ run.length) := by
  constructor
  · exact forall₃_congr (fun _ call _ => nested_shorter_iff call)
  · exact fun moving depth call reached => reaches_shorter reached moving

section Samples

-- `(<a>*)*`.
def starredGroup : Node := .backRef 0 [.repeated (.componentSet [[0x61]] true) 0 intMax]

theorem starredGroup_refuses : [letterName 0x62] ∉ starredGroup.matcher.language plainText true := by
  rw [← search_iff starredGroup.matcher 0]
  decide

-- On `/b` the recursion goes down to the repetition limit and has taken nothing.
theorem recursion_without_progress :
    compile (fun _ => some 0) [0x28,0x3C,0x61,0x3E,0x2A,0x29,0x2A] = .ok ([.repeated starredGroup 0 intMax],1) ∧
      ∃ call, Reaches (starredGroup.matchRun plainText) (0 : ℤ).toNat ⟨(intMax : ℤ).toNat,0,[letterName 0x62],fun _ => []⟩
        intMax call ∧ call.run = [letterName 0x62] := by
  refine ⟨rfl,?_⟩
  have stuck : ∀ k, 0 < k → k ≤ 1 → [letterName 0x62].take k ∉ starredGroup.matcher.language plainText true := by
    intro k positive below
    have one : k = 1 := by omega
    rw [one]
    exact starredGroup_refuses
  have deep : ∃ call, Reaches (starredGroup.matchRun plainText) 0 ⟨intMax,0,[letterName 0x62],fun _ => []⟩ intMax call ∧
      call.run = [letterName 0x62] ∧ call.left + intMax = intMax :=
    @reaches_stalled plainText starredGroup 0 ⟨intMax,0,[letterName 0x62],fun _ => []⟩ (by simp) rfl stuck intMax le_rfl
  obtain ⟨call,reached,same,_⟩ := deep
  exact ⟨call,reached,same⟩

-- `<a>{0,2}` on `/a`: the call below the first one has nothing left.
theorem repetition_founded_letter : 1 + ([] : List Component).length ≤ [letterName 0x61].length := by
  refine (repetition_founded plainText (.componentSet [[0x61]] true) 0 2 [letterName 0x61] (fun _ => [])).2 ?_ 1
    ⟨1,1,[],fun _ => []⟩ (.nested .outer ?_)
  · intro depth call _ stalls
    exact absurd stalls.nullable (by decide)
  · exact .head _

end Samples

end NdnCxx.Regex
