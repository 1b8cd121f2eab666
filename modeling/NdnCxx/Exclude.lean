import NdnCxx.Component

namespace NdnCxx

-- The exclude filter: each key carries the flag that an ANY element follows it,
-- so an entry with the flag excludes everything up to the next larger key.
abbrev Exclude := DescMap Component Bool

namespace Exclude

-- `error::Exclude`. Every `<<` of `error::msg` replaces the message before it,
-- so the one a handler reads is the URI of the upper end.
structure Error where
  msg : Blob
  deriving DecidableEq, Repr

def isExcluded (e : Exclude) (comp : Component) : Bool :=
  match e.lowerBound comp with
  | none => false
  | some lowerBound => if lowerBound.2 then true else decide (lowerBound.1 = comp)

def excludeOne (e : Exclude) (comp : Component) : Exclude :=
  if isExcluded e comp then e else (e.insert comp false).1

-- Makes sure an ANY entry stands at or below `lower` and returns its iterator.
-- Both `excludeRange` and `excludeAfter` open with these statements.
def openFrom (e : Exclude) (lower : Component) : Exclude × Component :=
  match e.lowerBound lower with
  | some (newFrom,true) => (e,newFrom)
  | _ =>
    let fromResult := e.insert lower true
    if fromResult.2 then (fromResult.1,lower)
    else (fromResult.1.assign lower true,lower)

-- The upper end. `none` cannot occur: an entry stands at `newFrom`.
def closeTo (e : Exclude) (newFrom upper : Component) : Exclude :=
  match e.lowerBound upper with
  | none => e
  | some newTo =>
    if newTo.1 = newFrom ∨ newTo.2 = false then
      let toResult := e.insert upper false
      toResult.1.erase (toResult.1.next upper) (some newFrom)
    else e.erase (some newTo.1) (some newFrom)

def excludeRange (e : Exclude) (lower upper : Component) : Except Error Exclude :=
  if 0 ≤ lower.compare upper then .error ⟨upper.toUri⟩
  else
    let opened := openFrom e lower
    .ok (closeTo opened.1 opened.2 upper)

def excludeBefore (e : Exclude) (upper : Component) : Except Error Exclude :=
  excludeRange e ⟨[]⟩ upper

def excludeAfter (e : Exclude) (lower : Component) : Exclude :=
  let opened := openFrom e lower
  let begin := opened.1.entries.head?.map Prod.fst
  if some opened.2 ≠ begin then opened.1.erase begin (some opened.2) else opened.1

theorem isExcluded_iff (e : Exclude) (comp : Component) :
    isExcluded e comp = true ↔
      ∃ found, e.lowerBound comp = some found ∧ (found.2 = true ∨ found.1 = comp) := by
  unfold isExcluded
  cases e.lowerBound comp with
  | none => simp
  | some found => cases found.2 <;> simp

-- What the two functions that open a range rely on: the entry at `newFrom` is
-- the only change, and nothing stands between it and the requested lower end.
structure Opened (e : Exclude) (lower : Component) (m : Exclude) (newFrom : Component) : Prop where
  below : newFrom ≤ lower
  members : ∀ item, item ∈ m.entries ↔ (item ∈ e.entries ∧ item.1 ≠ newFrom) ∨ item = (newFrom,true)
  gap : ∀ item ∈ e.entries, item.1 ≤ lower → item.1 ≤ newFrom
  origin : e.lowerBound lower = some (newFrom,true) ∨
    (newFrom = lower ∧ ∀ found, e.lowerBound lower = some found → found.2 = false)

theorem insert_assign_members (e : Exclude) (lower : Component) (item : Component × Bool) :
    item ∈ (if (e.insert lower true).2 then ((e.insert lower true).1,lower)
      else ((e.insert lower true).1.assign lower true,lower)).1.entries ↔
      (item ∈ e.entries ∧ item.1 ≠ lower) ∨ item = (lower,true) := by
  split
  · rename_i fresh
    have absent : ∀ entry ∈ e.entries, entry.1 ≠ lower := by simpa [DescMap.insert] using fresh
    simp only [DescMap.mem_insert]
    constructor
    · intro given
      rcases given with old | ⟨rfl,_⟩
      · exact .inl ⟨old,absent item old⟩
      · exact .inr rfl
    · intro given
      rcases given with old | rfl
      · exact .inl old.1
      · exact .inr ⟨rfl,absent⟩
  · rename_i stale
    have present : ∃ old, (lower,old) ∈ e.entries := by
      simp only [DescMap.insert,List.all_eq_true,decide_eq_true_eq,not_forall,not_not] at stale
      obtain ⟨entry,member,same⟩ := stale
      exact ⟨entry.2,by rwa [← same]⟩
    obtain ⟨old,member⟩ := present
    rw [DescMap.mem_assign,DescMap.mem_insert]
    constructor
    · intro given
      rcases given with ⟨old | ⟨rfl,_⟩,apart⟩ | ⟨rfl,_⟩
      · exact .inl ⟨old,apart⟩
      · exact absurd rfl apart
      · exact .inr rfl
    · intro given
      rcases given with ⟨old,apart⟩ | rfl
      · exact .inl ⟨.inl old,apart⟩
      · exact .inr ⟨rfl,old,(DescMap.mem_insert ..).mpr (.inl member)⟩

theorem openFrom_opened (e : Exclude) (lower : Component) :
    Opened e lower (openFrom e lower).1 (openFrom e lower).2 := by
  unfold openFrom
  split
  · rename_i newFrom found
    obtain ⟨member,below,greatest⟩ := DescMap.lowerBound_some.mp found
    refine ⟨below,?_,greatest,.inl found⟩
    intro item
    constructor
    · intro present
      by_cases same : item.1 = newFrom
      · exact .inr (DescMap.key_unique present member same)
      · exact .inl ⟨present,same⟩
    · intro given
      rcases given with old | rfl
      · exact old.1
      · exact member
  · rename_i closed
    have second : (if (e.insert lower true).2 then ((e.insert lower true).1,lower)
        else ((e.insert lower true).1.assign lower true,lower)).2 = lower := by split <;> rfl
    rw [second]
    refine ⟨le_refl _,insert_assign_members e lower,fun item _ fits => fits,.inr ⟨rfl,?_⟩⟩
    rintro ⟨key,any⟩ found
    cases any with
    | false => rfl
    | true => exact absurd found (closed key)

theorem Opened.start (opened : Opened e lower m newFrom) : (newFrom,true) ∈ m.entries :=
  (opened.members _).mpr (.inr rfl)

-- The erase of the closing step takes out what stands strictly inside the range;
-- in the branch that finds an ANY entry the upper end itself needs no entry.
theorem closeTo_members {m : Exclude} {newFrom upper : Component} (start : (newFrom,true) ∈ m.entries)
    (less : newFrom < upper) : ∃ newTo, m.lowerBound upper = some newTo ∧
      (newTo.1 = newFrom ∨ newTo.2 = false → ∀ item, item ∈ (closeTo m newFrom upper).entries ↔
        (item ∈ m.entries ∧ ¬(newFrom < item.1 ∧ item.1 < upper)) ∨
          (item = (upper,false) ∧ ∀ entry ∈ m.entries, entry.1 ≠ upper)) ∧
      (¬(newTo.1 = newFrom ∨ newTo.2 = false) → ∀ item, item ∈ (closeTo m newFrom upper).entries ↔
        item ∈ m.entries ∧ ¬(newFrom < item.1 ∧ item.1 ≤ upper)) := by
  obtain ⟨newTo,bound,_⟩ := DescMap.lowerBound_mem start (le_of_lt less)
  obtain ⟨_,toFits,toGreatest⟩ := DescMap.lowerBound_some.mp bound
  refine ⟨newTo,bound,?_,?_⟩
  · intro branch item
    simp only [closeTo,bound,if_pos branch,DescMap.mem_erase]
    -- The iterator after the inserted upper end stands at the largest key below it.
    obtain ⟨after,stands⟩ : ∃ after, (m.insert upper false).1.next upper = some after := by
      cases missing : (m.insert upper false).1.next upper with
      | some after => exact ⟨after,rfl⟩
      | none =>
        simp only [DescMap.next,Option.map_eq_none_iff,List.find?_eq_none,decide_eq_true_eq,not_lt] at missing
        exact absurd (missing _ ((DescMap.mem_insert ..).mpr (.inl start))) (not_le.mpr less)
    obtain ⟨_,afterLess,afterGreatest⟩ := DescMap.next_some.mp stands
    have inRange : ∀ entry ∈ (m.insert upper false).1.entries, entry.1 ≤ after ↔ entry.1 < upper :=
      fun entry member => ⟨fun fits => fits.trans_lt afterLess,afterGreatest entry member⟩
    rw [DescMap.mem_insert]
    simp only [stands,Option.some.injEq,exists_eq_left',forall_eq']
    constructor
    · intro given
      obtain ⟨old | ⟨rfl,absent⟩,outside⟩ := given
      · refine .inl ⟨old,fun between => outside ⟨?_,between.1⟩⟩
        exact (inRange item ((DescMap.mem_insert ..).mpr (.inl old))).mpr between.2
      · exact .inr ⟨rfl,absent⟩
    · intro given
      rcases given with ⟨old,outside⟩ | ⟨rfl,absent⟩
      · refine ⟨.inl old,fun between => outside ⟨between.2,?_⟩⟩
        exact (inRange item ((DescMap.mem_insert ..).mpr (.inl old))).mp between.1
      · exact ⟨.inr ⟨rfl,absent⟩,fun between => absurd (between.1.trans_lt afterLess) (lt_irrefl _)⟩
  · intro branch item
    simp only [closeTo,bound,if_neg branch,DescMap.mem_erase,Option.some.injEq,exists_eq_left',forall_eq']
    constructor
    · intro given
      obtain ⟨member,outside⟩ := given
      exact ⟨member,fun between => outside ⟨toGreatest item member between.2,between.1⟩⟩
    · intro given
      obtain ⟨member,outside⟩ := given
      exact ⟨member,fun between => outside ⟨between.2,between.1.trans toFits⟩⟩

-- The requested range starts inside a stretch that an earlier ANY entry keeps
-- open, ends inside the same stretch, and the stretch goes on after its end.
def SplitsOpenStretch (e : Exclude) (lower upper : Component) : Prop :=
  ∃ any, e.lowerBound lower = some (any,true) ∧ e.lowerBound upper = some (any,true) ∧
    ∃ after, upper < after ∧ e.lowerBound after = some (any,true)

section Range
variable {e m : Exclude} {lower upper newFrom comp : Component}

theorem range_below (opened : Opened e lower m newFrom) (less : lower < upper) (under : comp < newFrom) :
    isExcluded (closeTo m newFrom upper) comp = isExcluded e comp := by
  have fromLess := opened.below.trans_lt less
  obtain ⟨newTo,_,inserting,erasing⟩ := closeTo_members opened.start fromLess
  have same : (closeTo m newFrom upper).lowerBound comp = e.lowerBound comp := by
    apply DescMap.lowerBound_agree
    intro item fits
    have itemUnder : item.1 < newFrom := fits.trans_lt under
    have untouched : item ∈ m.entries ↔ item ∈ e.entries := by
      rw [opened.members]
      constructor
      · intro given
        rcases given with old | rfl
        · exact old.1
        · exact absurd itemUnder (lt_irrefl _)
      · exact fun old => .inl ⟨old,ne_of_lt itemUnder⟩
    by_cases branch : newTo.1 = newFrom ∨ newTo.2 = false
    · rw [inserting branch,untouched]
      constructor
      · intro given
        rcases given with old | ⟨rfl,_⟩
        · exact old.1
        · exact absurd (itemUnder.trans fromLess) (lt_irrefl _)
      · exact fun old => .inl ⟨old,fun between => lt_asymm between.1 itemUnder⟩
    · rw [erasing branch,untouched]
      exact ⟨And.left,fun old => ⟨old,fun between => lt_asymm between.1 itemUnder⟩⟩
  unfold isExcluded
  rw [same]

theorem range_inside (opened : Opened e lower m newFrom) (less : lower < upper)
    (above : newFrom ≤ comp) (under : comp ≤ upper) : isExcluded (closeTo m newFrom upper) comp = true := by
  have fromLess := opened.below.trans_lt less
  obtain ⟨newTo,_,inserting,erasing⟩ := closeTo_members opened.start fromLess
  rw [isExcluded_iff]
  by_cases branch : newTo.1 = newFrom ∨ newTo.2 = false
  · have members := inserting branch
    rcases lt_or_eq_of_le under with inner | rfl
    · refine ⟨(newFrom,true),DescMap.lowerBound_some.mpr ⟨?_,above,?_⟩,.inl rfl⟩
      · exact (members _).mpr (.inl ⟨opened.start,fun between => lt_irrefl _ between.1⟩)
      · intro entry present fits
        rcases (members entry).mp present with ⟨_,outside⟩ | ⟨rfl,_⟩
        · exact not_lt.mp fun larger => outside ⟨larger,fits.trans_lt inner⟩
        · exact absurd (fits.trans_lt inner) (lt_irrefl _)
    · -- At the upper end some entry has that very key: an old one or the new one.
      obtain ⟨any,member⟩ : ∃ any, (comp,any) ∈ (closeTo m newFrom comp).entries := by
        by_cases present : ∀ entry ∈ m.entries, entry.1 ≠ comp
        · exact ⟨false,(members _).mpr (.inr ⟨rfl,present⟩)⟩
        · simp only [not_forall,not_not] at present
          obtain ⟨⟨key,any⟩,old,same⟩ := present
          cases same
          exact ⟨any,(members _).mpr (.inl ⟨old,fun between => lt_irrefl _ between.2⟩)⟩
      exact ⟨(comp,any),DescMap.lowerBound_some.mpr ⟨member,le_refl _,fun _ _ fits => fits⟩,.inr rfl⟩
  · have members := erasing branch
    refine ⟨(newFrom,true),DescMap.lowerBound_some.mpr ⟨?_,above,?_⟩,.inl rfl⟩
    · exact (members _).mpr ⟨opened.start,fun between => lt_irrefl _ between.1⟩
    · intro entry present fits
      have outside := ((members entry).mp present).2
      exact not_lt.mp fun larger => outside ⟨larger,fits.trans under⟩

theorem Opened.untouched (opened : Opened e lower m newFrom) {item : Component × Bool} (larger : newFrom < item.1) :
    item ∈ m.entries ↔ item ∈ e.entries := by
  rw [opened.members]
  constructor
  · intro given
    rcases given with old | rfl
    · exact old.1
    · exact absurd larger (lt_irrefl _)
  · exact fun old => .inl ⟨old,ne_of_gt larger⟩

-- Where the upper end falls in the opened map, read off the map before the call.
theorem Opened.atUpper (opened : Opened e lower m newFrom) (less : lower < upper) {newTo : Component × Bool}
    (bound : m.lowerBound upper = some newTo) :
    (newFrom < newTo.1 ∧ e.lowerBound upper = some newTo) ∨
    (newTo = (newFrom,true) ∧ e.lowerBound upper = e.lowerBound lower) := by
  obtain ⟨toMember,toFits,toGreatest⟩ := DescMap.lowerBound_some.mp bound
  have fromLess := opened.below.trans_lt less
  rcases lt_or_eq_of_le (toGreatest _ opened.start (le_of_lt fromLess)) with larger | same
  · refine .inl ⟨larger,DescMap.lowerBound_some.mpr ⟨(opened.untouched larger).mp toMember,toFits,?_⟩⟩
    intro entry member fits
    by_cases above : newFrom < entry.1
    · exact toGreatest entry ((opened.untouched above).mpr member) fits
    · exact (not_lt.mp above).trans (le_of_lt larger)
  · refine .inr ⟨DescMap.key_unique toMember opened.start same.symm,?_⟩
    apply DescMap.lowerBound_gap (le_of_lt less)
    intro entry member fits
    by_contra beyond
    have above : newFrom < entry.1 := opened.below.trans_lt (not_le.mp beyond)
    have fitsTo := toGreatest entry ((opened.untouched above).mpr member) fits
    exact absurd (above.trans_le fitsTo) (not_lt.mpr (le_of_eq same.symm))

theorem above_agree (opened : Opened e lower m newFrom) (less : lower < upper) {item : Component × Bool}
    (past : upper < item.1) : item ∈ (closeTo m newFrom upper).entries ↔ item ∈ e.entries := by
  have fromLess := opened.below.trans_lt less
  obtain ⟨newTo,_,inserting,erasing⟩ := closeTo_members opened.start fromLess
  by_cases branch : newTo.1 = newFrom ∨ newTo.2 = false
  · rw [inserting branch,opened.untouched (fromLess.trans past)]
    constructor
    · intro given
      rcases given with old | ⟨rfl,_⟩
      · exact old.1
      · exact absurd past (lt_irrefl _)
    · exact fun old => .inl ⟨old,fun between => lt_asymm between.2 past⟩
  · rw [erasing branch,opened.untouched (fromLess.trans past)]
    exact ⟨And.left,fun old => ⟨old,fun between => not_lt.mpr between.2 past⟩⟩

-- With no key between the upper end and the component, the lower bound of the
-- component is the end entry or, where the branch wrote none, the opened one.
theorem above_bound (opened : Opened e lower m newFrom) (less : lower < upper) (past : upper < comp)
    (gap : ∀ entry ∈ e.entries, entry.1 ≤ comp → entry.1 ≤ upper) {newTo : Component × Bool}
    (bound : m.lowerBound upper = some newTo) :
    (closeTo m newFrom upper).lowerBound comp =
      some (if newTo.1 = newFrom ∨ newTo.2 = false then (upper,false) else (newFrom,true)) := by
  have fromLess := opened.below.trans_lt less
  obtain ⟨newTo',bound',inserting,erasing⟩ := closeTo_members opened.start fromLess
  cases Option.some.inj (bound.symm.trans bound')
  have under : ∀ entry ∈ (closeTo m newFrom upper).entries, entry.1 ≤ comp → entry.1 ≤ upper := by
    intro entry member fits
    by_contra beyond
    exact beyond (gap entry ((above_agree opened less (not_le.mp beyond)).mp member) fits)
  rw [DescMap.lowerBound_gap (le_of_lt past) under,DescMap.lowerBound_some]
  split
  · rename_i branch
    refine ⟨(inserting branch _).mpr ?_,le_refl _,fun _ _ fits => fits⟩
    by_cases absent : ∀ entry ∈ m.entries, entry.1 ≠ upper
    · exact .inr ⟨rfl,absent⟩
    · -- An entry already stands at the upper end; it is the lower bound and has no flag.
      simp only [not_forall,not_not] at absent
      obtain ⟨entry,member,same⟩ := absent
      have isTo : m.lowerBound upper = some entry := DescMap.lowerBound_some.mpr
        ⟨member,le_of_eq same,fun _ _ fits => fits.trans (le_of_eq same.symm)⟩
      cases Option.some.inj (bound.symm.trans isTo)
      have noAny : newTo.2 = false := branch.resolve_left fun atFrom =>
        ne_of_gt fromLess (same.symm.trans atFrom)
      have entryIs : newTo = (upper,false) := Prod.ext same noAny
      exact .inl ⟨entryIs ▸ member,fun between => lt_irrefl _ between.2⟩
  · rename_i branch
    refine ⟨(erasing branch _).mpr ⟨opened.start,fun between => lt_irrefl _ between.1⟩,le_of_lt fromLess,?_⟩
    intro entry member fits
    exact not_lt.mp fun larger => ((erasing branch entry).mp member).2 ⟨larger,fits⟩

-- Above the range both filters answer the same, unless the new end entry cuts
-- the open stretch in which the component lies.
theorem range_above (opened : Opened e lower m newFrom) (less : lower < upper) (past : upper < comp) :
    isExcluded (closeTo m newFrom upper) comp = isExcluded e comp ↔
      ¬(e.lowerBound lower = some (newFrom,true) ∧ e.lowerBound upper = some (newFrom,true) ∧
        e.lowerBound comp = some (newFrom,true)) := by
  have fromLess := opened.below.trans_lt less
  by_cases covered : ∃ entry ∈ e.entries, upper < entry.1 ∧ entry.1 ≤ comp
  · obtain ⟨entry,member,larger,fits⟩ := covered
    have same := DescMap.lowerBound_agree_above (fun _ => above_agree opened less) member larger fits
    obtain ⟨found,foundAt,foundLarger⟩ := DescMap.lowerBound_mem member fits
    refine iff_of_true (by unfold isExcluded; rw [same]) ?_
    intro given
    obtain ⟨_,_,atComp⟩ := given
    cases Option.some.inj (foundAt.symm.trans atComp)
    exact absurd (larger.trans_le foundLarger) (lt_asymm fromLess)
  · have gap : ∀ entry ∈ e.entries, entry.1 ≤ comp → entry.1 ≤ upper := fun entry member fits =>
      not_lt.mp fun larger => covered ⟨entry,member,larger,fits⟩
    obtain ⟨newTo,bound,_⟩ := closeTo_members opened.start fromLess
    have atComp := DescMap.lowerBound_gap (le_of_lt past) gap
    have after := above_bound opened less past gap bound
    have apart : upper ≠ comp := ne_of_lt past
    rcases opened.atUpper less bound with ⟨larger,atUpper⟩ | ⟨rfl,atUpper⟩
    · have notFrom : newTo.1 ≠ newFrom := ne_of_gt larger
      have toApart : newTo.1 ≠ comp := ne_of_lt ((DescMap.lowerBound_some.mp bound).2.1.trans_lt past)
      have notSplit : newTo ≠ (newFrom,true) := fun same => notFrom (congrArg Prod.fst same)
      cases any : newTo.2 <;>
        simp [isExcluded,after,atComp,atUpper,notFrom,any,toApart,apart,notSplit]
    · have after' : isExcluded (closeTo m newFrom upper) comp = false := by
        simp [isExcluded,after,apart]
      rw [after',atComp,atUpper]
      rcases opened.origin with covering | ⟨atLower,closed⟩
      · simp [isExcluded,atComp,atUpper,covering]
      · have noAny : isExcluded e comp = false := by
          rw [Bool.eq_false_iff,Ne,isExcluded_iff]
          intro given
          obtain ⟨found,foundAt,excluded⟩ := given
          rw [atComp,atUpper] at foundAt
          have fits := (DescMap.lowerBound_some.mp foundAt).2.1
          rcases excluded with any | same
          · rw [closed found foundAt] at any; cases any
          · exact absurd (same ▸ fits) (not_le.mpr (less.trans past))
        simp only [noAny,true_iff]
        intro given
        obtain ⟨covering,_⟩ := given
        exact absurd (closed _ covering) (by simp)

theorem Opened.covered (opened : Opened e lower m newFrom) (above : newFrom ≤ comp) (under : comp < lower) :
    isExcluded e comp = true := by
  rcases opened.origin with covering | ⟨rfl,_⟩
  · obtain ⟨member,_,greatest⟩ := DescMap.lowerBound_some.mp covering
    refine (isExcluded_iff e comp).mpr ⟨(newFrom,true),DescMap.lowerBound_some.mpr ⟨member,above,?_⟩,.inl rfl⟩
    exact fun entry present fits => greatest entry present (fits.trans (le_of_lt under))
  · exact absurd under (not_lt.mpr above)

end Range

-- The effect a range call is documented to have.
def AddsRange (e after : Exclude) (lower upper : Component) : Prop :=
  ∀ comp, isExcluded after comp = true ↔ isExcluded e comp = true ∨ (lower ≤ comp ∧ comp ≤ upper)

theorem empty_least (c : Component) : (⟨[]⟩ : Component) ≤ c := by
  rw [← not_lt,Component.lt_iff]
  intro given
  rcases given with smaller | ⟨_,less⟩
  · exact Nat.not_lt_zero _ smaller
  · exact List.not_lt_nil _ less

theorem range_adds (e : Exclude) {lower upper : Component} (less : lower < upper) :
    AddsRange e (closeTo (openFrom e lower).1 (openFrom e lower).2 upper) lower upper ↔
      ¬SplitsOpenStretch e lower upper := by
  have opened := openFrom_opened e lower
  generalize (openFrom e lower).1 = m at opened
  generalize (openFrom e lower).2 = newFrom at opened
  constructor
  · intro adds given
    obtain ⟨any,atLower,atUpper,comp,past,atComp⟩ := given
    have isFrom : any = newFrom := by
      rcases opened.origin with covering | ⟨_,closed⟩
      · cases Option.some.inj (atLower.symm.trans covering); rfl
      · exact absurd (closed _ atLower) (by simp)
    subst isFrom
    have before : isExcluded e comp = true := (isExcluded_iff e comp).mpr ⟨_,atComp,.inl rfl⟩
    have after := (adds comp).mpr (.inl before)
    exact (range_above opened less past).mp (after.trans before.symm) ⟨atLower,atUpper,atComp⟩
  · intro unsplit comp
    by_cases under : comp < newFrom
    · have outside : ¬(lower ≤ comp ∧ comp ≤ upper) := fun inside =>
        absurd (inside.1.trans_lt under) (not_lt.mpr opened.below)
      rw [range_below opened less under]
      simp [outside]
    · have above := not_lt.mp under
      by_cases inner : comp ≤ upper
      · rw [range_inside opened less above inner]
        simp only [true_iff]
        by_cases reached : lower ≤ comp
        · exact .inr ⟨reached,inner⟩
        · exact .inl (opened.covered above (not_le.mp reached))
      · have past := not_le.mp inner
        have same := (range_above opened less past).mpr fun ⟨atLower,atUpper,atComp⟩ =>
          unsplit ⟨newFrom,atLower,atUpper,comp,past,atComp⟩
        rw [same]
        simp [inner]

theorem range_ok (e : Exclude) {lower upper : Component} (less : lower < upper) :
    excludeRange e lower upper = .ok (closeTo (openFrom e lower).1 (openFrom e lower).2 upper) := by
  have negative := (Component.compare_neg lower upper).mpr less
  simp [excludeRange,not_le.mpr negative]

theorem excludeRange_exact (e : Exclude) (lower upper : Component) (less : lower < upper) :
    (∃ after, excludeRange e lower upper = .ok after ∧
      (AddsRange e after lower upper ↔ ¬SplitsOpenStretch e lower upper)) ∧
    ∃ after, excludeBefore e upper = .ok after ∧
      (AddsRange e after ⟨[]⟩ upper ↔ ¬SplitsOpenStretch e ⟨[]⟩ upper) :=
  ⟨⟨_,range_ok e less,range_adds e less⟩,
    ⟨_,range_ok e ((empty_least lower).trans_lt less),range_adds e ((empty_least lower).trans_lt less)⟩⟩

theorem excludeRange_exact_fresh : (∃ after, excludeRange .empty ⟨[0x61]⟩ ⟨[0x66]⟩ = .ok after ∧
      (AddsRange .empty after ⟨[0x61]⟩ ⟨[0x66]⟩ ↔ ¬SplitsOpenStretch .empty ⟨[0x61]⟩ ⟨[0x66]⟩)) ∧
    ∃ after, excludeBefore .empty ⟨[0x66]⟩ = .ok after ∧
      (AddsRange .empty after ⟨[]⟩ ⟨[0x66]⟩ ↔ ¬SplitsOpenStretch .empty ⟨[]⟩ ⟨[0x66]⟩) :=
  excludeRange_exact .empty ⟨[0x61]⟩ ⟨[0x66]⟩ (by decide)

-- Excluding a..f and then b..c leaves d open again.
theorem excludeRange_unexcludes : ∃ first second,
    excludeRange .empty ⟨[0x61]⟩ ⟨[0x66]⟩ = .ok first ∧ excludeRange first ⟨[0x62]⟩ ⟨[0x63]⟩ = .ok second ∧
      isExcluded first ⟨[0x64]⟩ = true ∧ isExcluded second ⟨[0x64]⟩ = false ∧
      ¬AddsRange first second ⟨[0x62]⟩ ⟨[0x63]⟩ := by
  refine ⟨_,_,rfl,rfl,by decide,by decide,fun adds => ?_⟩
  have kept := (adds ⟨[0x64]⟩).mpr (.inl (by decide))
  exact absurd kept (by decide)

-- A component that is not excluded yet gets an entry of its own.
section Fresh
variable {e : Exclude} {added : Component} (fresh : ¬isExcluded e added = true)
include fresh

theorem fresh_members (item : Component × Bool) :
    item ∈ (e.insert added false).1.entries ↔ item ∈ e.entries ∨ item = (added,false) := by
  have absent : ∀ entry ∈ e.entries, entry.1 ≠ added := by
    intro entry member same
    apply fresh
    exact (isExcluded_iff e added).mpr ⟨entry,DescMap.lowerBound_some.mpr
      ⟨member,le_of_eq same,fun _ _ fits => fits.trans (le_of_eq same.symm)⟩,.inr same⟩
  rw [DescMap.mem_insert]
  exact or_congr_right (and_iff_left absent)

theorem fresh_below {comp : Component} (under : comp < added) :
    (e.insert added false).1.lowerBound comp = e.lowerBound comp := by
  apply DescMap.lowerBound_agree
  intro item fits
  rw [fresh_members fresh]
  apply or_iff_left
  intro same
  subst same
  exact absurd fits (not_le.mpr under)

theorem fresh_covered {comp : Component} {entry : Component × Bool} (member : entry ∈ e.entries)
    (larger : added < entry.1) (fits : entry.1 ≤ comp) :
    (e.insert added false).1.lowerBound comp = e.lowerBound comp := by
  have agree : ∀ item, added < item.1 → (item ∈ (e.insert added false).1.entries ↔ item ∈ e.entries) := by
    intro item above
    rw [fresh_members fresh]
    apply or_iff_left
    intro same
    subst same
    exact lt_irrefl _ above
  exact DescMap.lowerBound_agree_above agree member larger fits

-- No entry lies between: the new entry is the one found, and it closes nothing that
-- was open, since then the added component would have been excluded before.
theorem fresh_gap {comp : Component} (past : added < comp)
    (gap : ∀ entry ∈ e.entries, entry.1 ≤ comp → entry.1 ≤ added) :
    (e.insert added false).1.lowerBound comp = some (added,false) ∧ isExcluded e comp = false := by
  constructor
  · refine DescMap.lowerBound_some.mpr ⟨(fresh_members fresh _).mpr (.inr rfl),le_of_lt past,?_⟩
    intro entry member fits
    rcases (fresh_members fresh entry).mp member with old | new
    · exact gap entry old fits
    · rw [new]
  · rw [Bool.eq_false_iff,Ne,isExcluded_iff]
    intro covered
    obtain ⟨found,foundAt,excluded⟩ := covered
    rw [DescMap.lowerBound_gap (le_of_lt past) gap] at foundAt
    rcases excluded with any | same
    · exact fresh ((isExcluded_iff e added).mpr ⟨found,foundAt,.inl any⟩)
    · exact absurd (same ▸ (DescMap.lowerBound_some.mp foundAt).2.1) (not_le.mpr past)

end Fresh

theorem one_adds (e : Exclude) (added comp : Component) :
    isExcluded (excludeOne e added) comp = true ↔ isExcluded e comp = true ∨ comp = added := by
  unfold excludeOne
  split
  · rename_i already
    constructor
    · exact .inl
    · intro given
      rcases given with old | rfl
      · exact old
      · exact already
  · rename_i fresh
    rcases lt_trichotomy comp added with under | rfl | past
    · simp [isExcluded,fresh_below fresh under,ne_of_lt under]
    · simp only [or_true,iff_true,isExcluded_iff]
      exact ⟨(comp,false),DescMap.lowerBound_some.mpr ⟨(fresh_members fresh _).mpr (.inr rfl),le_refl _,
        fun _ _ fits => fits⟩,.inr rfl⟩
    · by_cases covered : ∃ entry ∈ e.entries, added < entry.1 ∧ entry.1 ≤ comp
      · obtain ⟨entry,member,larger,fits⟩ := covered
        simp [isExcluded,fresh_covered fresh member larger fits,ne_of_gt past]
      · have gap : ∀ entry ∈ e.entries, entry.1 ≤ comp → entry.1 ≤ added := fun entry member fits =>
          not_lt.mp fun larger => covered ⟨entry,member,larger,fits⟩
        obtain ⟨bound,closed⟩ := fresh_gap fresh past gap
        rw [closed]
        simp [isExcluded,bound,ne_of_lt past,ne_of_gt past]

theorem after_members (e : Exclude) (lower : Component) (item : Component × Bool) :
    item ∈ (excludeAfter e lower).entries ↔
      item ∈ (openFrom e lower).1.entries ∧ item.1 ≤ (openFrom e lower).2 := by
  have start := (openFrom_opened e lower).start
  simp only [excludeAfter]
  generalize (openFrom e lower).1 = m at start ⊢
  generalize (openFrom e lower).2 = newFrom at start ⊢
  have first : ∀ head ∈ m.entries.head?, ∀ entry ∈ m.entries, entry.1 ≤ head.1 := by
    intro head atHead entry member
    have sorted := m.descending
    cases entries : m.entries with
    | nil => simp [entries] at atHead
    | cons top rest =>
      rw [entries] at atHead member sorted
      cases Option.some.inj atHead
      rcases List.mem_cons.mp member with rfl | old
      · exact le_refl _
      · exact le_of_lt ((List.pairwise_cons.mp sorted).1 entry old)
  obtain ⟨head,atHead⟩ : ∃ head, m.entries.head? = some head := by
    cases entries : m.entries with
    | nil => simp [entries] at start
    | cons top rest => exact ⟨top,rfl⟩
  simp only [atHead,Option.map_some]
  split
  · rw [DescMap.mem_erase]
    simp only [Option.some.injEq,exists_eq_left',forall_eq']
    constructor
    · intro given
      obtain ⟨member,outside⟩ := given
      exact ⟨member,not_lt.mp fun larger => outside ⟨first head atHead item member,larger⟩⟩
    · intro given
      obtain ⟨member,fits⟩ := given
      exact ⟨member,fun between => absurd fits (not_le.mpr between.2)⟩
  · rename_i atBegin
    have same : newFrom = head.1 := by simpa using atBegin
    exact ⟨fun member => ⟨member,same ▸ first head atHead item member⟩,And.left⟩

theorem after_adds (e : Exclude) (lower comp : Component) :
    isExcluded (excludeAfter e lower) comp = true ↔ isExcluded e comp = true ∨ lower ≤ comp := by
  have members := after_members e lower
  have opened := openFrom_opened e lower
  generalize (openFrom e lower).1 = m at opened members
  generalize (openFrom e lower).2 = newFrom at opened members
  by_cases under : comp < newFrom
  · have same : (excludeAfter e lower).lowerBound comp = e.lowerBound comp := by
      apply DescMap.lowerBound_agree
      intro item fits
      have itemUnder := fits.trans_lt under
      rw [members,opened.members]
      constructor
      · intro given
        obtain ⟨old | rfl,_⟩ := given
        · exact old.1
        · exact absurd itemUnder (lt_irrefl _)
      · exact fun old => ⟨.inl ⟨old,ne_of_lt itemUnder⟩,le_of_lt itemUnder⟩
    have outside : ¬lower ≤ comp := not_le.mpr (under.trans_le opened.below)
    simp [isExcluded,same,outside]
  · have above := not_lt.mp under
    have excluded : isExcluded (excludeAfter e lower) comp = true := (isExcluded_iff _ comp).mpr
      ⟨(newFrom,true),DescMap.lowerBound_some.mpr ⟨(members _).mpr ⟨opened.start,le_refl _⟩,above,
        fun entry present _ => ((members entry).mp present).2⟩,.inl rfl⟩
    simp only [excluded,true_iff]
    by_cases reached : lower ≤ comp
    · exact .inr reached
    · exact .inl (opened.covered above (not_le.mp reached))

-- `excludeRange` as it acts on `m_exclude`: what is written before a throw stays.
def excludeRangeOn (lower upper : Component) : ExceptT Error (StateM Exclude) Unit := do
  if 0 ≤ lower.compare upper then throw ⟨upper.toUri⟩
  let newFrom ← modifyGet (fun e => ((openFrom e lower).2,(openFrom e lower).1))
  modify (fun e => closeTo e newFrom upper)

theorem excludeRangeOn_run (e : Exclude) (lower upper : Component) : (excludeRangeOn lower upper).run e =
    match excludeRange e lower upper with
    | .ok after => (.ok (),after)
    | .error error => (.error error,e) := by
  unfold excludeRangeOn excludeRange
  by_cases reversed : 0 ≤ lower.compare upper
  · simp only [if_pos reversed]
    rfl
  · simp only [if_neg reversed]
    rfl

theorem exclusions_exact (e : Exclude) (added : Component) :
    (∀ comp, isExcluded (excludeOne e added) comp = true ↔ isExcluded e comp = true ∨ comp = added) ∧
    (∀ comp, isExcluded (excludeAfter e added) comp = true ↔ isExcluded e comp = true ∨ added ≤ comp) ∧
    ∀ lower upper, (excludeRangeOn lower upper).run e = (.error ⟨upper.toUri⟩,e) ↔ upper ≤ lower := by
  refine ⟨one_adds e added,after_adds e added,?_⟩
  intro lower upper
  rw [excludeRangeOn_run,← Component.compare_nonneg,excludeRange]
  by_cases reversed : 0 ≤ lower.compare upper
  · simp [reversed]
  · simp only [reversed,iff_false]
    intro same
    cases congrArg Prod.fst same

inductive Operation where
  | excludeOne (comp : Component)
  | excludeRange (lower upper : Component)
  | excludeBefore (upper : Component)
  | excludeAfter (lower : Component)
  deriving DecidableEq, Repr

-- A call that throws leaves the filter as it was.
def Operation.apply (e : Exclude) : Operation → Exclude
  | .excludeOne comp => Exclude.excludeOne e comp
  | .excludeRange lower upper => match Exclude.excludeRange e lower upper with | .ok after => after | .error _ => e
  | .excludeBefore upper => match Exclude.excludeBefore e upper with | .ok after => after | .error _ => e
  | .excludeAfter lower => Exclude.excludeAfter e lower

def Operation.Covers : Operation → Component → Prop
  | .excludeOne comp,c => c = comp
  | .excludeRange lower upper,c => lower < upper ∧ lower ≤ c ∧ c ≤ upper
  | .excludeBefore upper,c => (⟨[]⟩ : Component) < upper ∧ c ≤ upper
  | .excludeAfter lower,c => lower ≤ c

def Operation.Splits (e : Exclude) : Operation → Prop
  | .excludeRange lower upper => lower < upper ∧ SplitsOpenStretch e lower upper
  | .excludeBefore upper => (⟨[]⟩ : Component) < upper ∧ SplitsOpenStretch e ⟨[]⟩ upper
  | _ => False

theorem range_step (e : Exclude) (lower upper comp : Component)
    (unsplit : ¬(lower < upper ∧ SplitsOpenStretch e lower upper)) :
    isExcluded (match excludeRange e lower upper with | .ok after => after | .error _ => e) comp = true ↔
      isExcluded e comp = true ∨ (lower < upper ∧ lower ≤ comp ∧ comp ≤ upper) := by
  by_cases less : lower < upper
  · rw [range_ok e less]
    have adds := (range_adds e less).mpr (fun splits => unsplit ⟨less,splits⟩)
    simpa [less] using adds comp
  · have throws : 0 ≤ lower.compare upper := (Component.compare_nonneg lower upper).mpr (not_lt.mp less)
    simp [excludeRange,throws,less]

theorem step_adds (e : Exclude) (operation : Operation) (unsplit : ¬operation.Splits e) (comp : Component) :
    isExcluded (operation.apply e) comp = true ↔ isExcluded e comp = true ∨ operation.Covers comp := by
  cases operation with
  | excludeOne added => exact one_adds e added comp
  | excludeRange lower upper => exact range_step e lower upper comp unsplit
  | excludeBefore upper =>
    have step := range_step e ⟨[]⟩ upper comp unsplit
    simpa [Operation.apply,Exclude.excludeBefore,Operation.Covers,empty_least] using step
  | excludeAfter lower => exact after_adds e lower comp

-- Every range call of the run meets a filter it does not split.
def Unsplit (e : Exclude) : List Operation → Prop
  | [] => True
  | operation :: rest => ¬operation.Splits e ∧ Unsplit (operation.apply e) rest

theorem run_adds (operations : List Operation) (e : Exclude) (unsplit : Unsplit e operations) (comp : Component) :
    isExcluded (operations.foldl Operation.apply e) comp = true ↔
      isExcluded e comp = true ∨ ∃ operation ∈ operations, operation.Covers comp := by
  induction operations generalizing e with
  | nil => simp
  | cons operation rest ih =>
    rw [List.foldl_cons,ih _ unsplit.2,step_adds e operation unsplit.1 comp,List.exists_mem_cons_iff]
    exact or_assoc

end Exclude
end NdnCxx
