import NdnCxx.Scheduler.Invoked

namespace NdnCxx.Scheduler
variable {task : TaskPtr → Task} {s : State} {ptr other : TaskPtr}

def Pending (s : State) (ptr : TaskPtr) : Prop := ptr ∈ s.armed ∨ ptr ∈ s.queue

-- The calls with which a callback schedules a task under the tag of its own: it
-- reschedules that task, by itself or by the tag, or it has entered another one in
-- the map (where it had deleted the tag before) and arms its timer.
inductive Schedules (task : TaskPtr → Task) (ptr : TaskPtr) (after : State) : Action → TaskPtr → Prop where
  | rescheduleTask {other : TaskPtr} : find task after (task ptr).tag = some other →
      Schedules task ptr after (.rescheduleTask ptr) other
  | rescheduleTag {other : TaskPtr} : find task after (task ptr).tag = some other →
      Schedules task ptr after (.rescheduleTag (task ptr).tag) other
  | rescheduleTaskAt {other : TaskPtr} : find task after (task ptr).tag = some other →
      Schedules task ptr after (.rescheduleTaskAt ptr) other
  | rescheduleTagAt {other : TaskPtr} : find task after (task ptr).tag = some other →
      Schedules task ptr after (.rescheduleTagAt (task ptr).tag) other
  | added {other : TaskPtr} : find task after (task ptr).tag = some other →
      Schedules task ptr after (.resume other .arm) other

theorem rearm_armed {found : TaskPtr} {tag : String} (known : find task s tag = some found)
    (named : find task (evtimerAdd (reset s found) found) tag = some other) :
    other ∈ (evtimerAdd (reset s found) found).armed := by
  have same : find task s tag = some other := named
  rw [known] at same
  cases same
  exact Finset.mem_insert_self _ _

theorem rescheduleGiven_armed {again : Bool}
    (named : find task (rescheduleGiven task s ptr again) (task ptr).tag = some other) :
    other ∈ (rescheduleGiven task s ptr again).armed := by
  cases known : find task s (task ptr).tag with
  | some found =>
    rw [rescheduleGiven,known] at named ⊢
    exact rearm_armed known named
  | none =>
    rw [rescheduleGiven,known] at named ⊢
    simp only [addTaskLocked_free known] at named ⊢
    have own : find task (evtimerAdd {(if again then reset s ptr else s) with taskMap := ptr :: s.taskMap} ptr)
        (task ptr).tag = some ptr := List.find?_cons_of_pos (by simp)
    rw [own] at named
    cases named
    exact Finset.mem_insert_self _ _

theorem rescheduleTag_armed {tag : String} (named : find task (rescheduleTag task s tag) tag = some other) :
    other ∈ (rescheduleTag task s tag).armed := by
  have same : find task (rescheduleTag task s tag) tag = find task s tag := by
    rw [find,find,rescheduleTag_taskMap]
  have known := same.symm.trans named
  rw [rescheduleTag,known] at named ⊢
  exact rearm_armed known named

theorem schedules_armed {action : Action} {next : State} (taken : step task s action = some next)
    (scheduled : Schedules task ptr next action other) : other ∈ next.armed := by
  cases scheduled with
  | rescheduleTask named =>
    cases taken
    exact rescheduleGiven_armed named
  | rescheduleTag named =>
    cases taken
    exact rescheduleTag_armed named
  | rescheduleTaskAt named =>
    cases taken
    exact rescheduleGiven_armed named
  | rescheduleTagAt named =>
    cases taken
    exact rescheduleTag_armed named
  | added named =>
    obtain ⟨_,moved⟩ := Option.ite_none_right_eq_some.mp taken
    cases moved
    exact Finset.mem_insert_self _ _

-- Nobody deletes the task while the run of the other one lasts.
def Spares (task : TaskPtr → Task) (ptr other : TaskPtr) (s : State) (action : Action) : Prop :=
  InProgress s ptr ∧ action ≠ .deleteTask (task ptr).tag ∧ ∀ matcher, action = .deleteTasks matcher → matcher other = false

structure Scheduled (task : TaskPtr → Task) (ptr other : TaskPtr) (s : State) : Prop where
  registered : other ∈ s.taskMap
  tag : (task other).tag = (task ptr).tag
  pending : Pending s other

namespace Scheduled
variable {next : State}

theorem grow (scheduled : Scheduled task ptr other s) (tasks : s.taskMap ⊆ next.taskMap) (armed : s.armed ⊆ next.armed)
    (queue : s.queue ⊆ next.queue) : Scheduled task ptr other next :=
  ⟨tasks scheduled.registered,scheduled.tag,scheduled.pending.imp (fun set => armed set) (fun member => queue member)⟩

theorem delete (scheduled : Scheduled task ptr other s) {tag : String} (apart : tag ≠ (task ptr).tag) :
    Scheduled task ptr other (deleteTask task s tag) := by
  unfold deleteTask
  split
  · rename_i found known
    have distinct : other ≠ found := by
      rintro rfl
      exact apart ((find_some known).2.symm.trans scheduled.tag)
    refine ⟨List.mem_filter.mpr ⟨scheduled.registered,?_⟩,scheduled.tag,?_⟩
    · rw [scheduled.tag]
      simpa using apart.symm
    · exact scheduled.pending.imp (fun armed => Finset.mem_erase.mpr ⟨distinct,armed⟩) id
  · exact scheduled

theorem deleteAll (scheduled : Scheduled task ptr other s) {matcher : TaskPtr → Bool} (spared : matcher other = false) :
    Scheduled task ptr other (deleteTasks s matcher) := by
  rw [deleteTasks_eq]
  refine ⟨List.mem_filter.mpr ⟨scheduled.registered,by simp [spared]⟩,scheduled.tag,?_⟩
  exact scheduled.pending.imp (fun armed => Finset.mem_sdiff.mpr ⟨armed,by simp [spared]⟩) id

theorem rearm (scheduled : Scheduled task ptr other s) (found : TaskPtr) :
    Scheduled task ptr other (evtimerAdd (reset s found) found) :=
  scheduled.grow (List.Subset.refl _) (Finset.subset_insert _ _) (List.Subset.refl _)

theorem rescheduleGiven (scheduled : Scheduled task ptr other s) (new : TaskPtr) (again : Bool) :
    Scheduled task ptr other (rescheduleGiven task s new again) := by
  unfold Scheduler.rescheduleGiven
  split
  · exact scheduled.rearm _
  · rename_i free
    rw [addTaskLocked_free free]
    cases again with
    | true => exact scheduled.grow (List.subset_cons_self _ _) (Finset.subset_insert _ _) (List.Subset.refl _)
    | false => exact scheduled.grow (List.subset_cons_self _ _) (Finset.subset_insert _ _) (List.Subset.refl _)

theorem rescheduleTag (scheduled : Scheduled task ptr other s) (tag : String) :
    Scheduled task ptr other (rescheduleTag task s tag) := by
  unfold Scheduler.rescheduleTag
  split
  · exact scheduled.rearm _
  · exact scheduled

theorem step (scheduled : Scheduled task ptr other s) {action : Action} (spared : Spares task ptr other s action)
    (quiet : action ≠ .run) (taken : Scheduler.step task s action = some next) : Scheduled task ptr other next := by
  cases action with
  | addTask new reset =>
    cases taken
    by_cases free : find task s (task new).tag = none
    · rw [addTask_free free]
      exact scheduled.grow (List.subset_cons_self _ _) (Finset.Subset.refl _) (List.Subset.refl _)
    · rw [addTask_taken free]
      exact scheduled
  | resume new stage =>
    obtain ⟨_,moved⟩ := Option.ite_none_right_eq_some.mp taken
    cases moved
    cases stage with
    | reset => exact scheduled.grow (List.Subset.refl _) (Finset.Subset.refl _) (List.Subset.refl _)
    | arm => exact scheduled.grow (List.Subset.refl _) (Finset.subset_insert _ _) (List.Subset.refl _)
  | deleteTask tag =>
    cases taken
    exact scheduled.delete (fun same => spared.2.1 (by rw [same]))
  | deleteTasks matcher =>
    cases taken
    exact scheduled.deleteAll (spared.2.2 matcher rfl)
  | rescheduleTask new =>
    cases taken
    exact scheduled.rescheduleGiven new _
  | rescheduleTag tag =>
    cases taken
    exact scheduled.rescheduleTag tag
  | rescheduleTaskAt new =>
    cases taken
    exact scheduled.rescheduleGiven new _
  | rescheduleTagAt tag =>
    cases taken
    exact scheduled.rescheduleTag tag
  | fire new =>
    obtain ⟨_,fired⟩ := Option.ite_none_right_eq_some.mp taken
    cases fired
    refine ⟨scheduled.registered,scheduled.tag,?_⟩
    by_cases same : other = new
    · exact .inr (by simp [same])
    · exact scheduled.pending.imp (fun armed => Finset.mem_erase.mpr ⟨same,armed⟩) (fun member => List.mem_append_left _ member)
  | run => exact absurd rfl quiet

theorem returned (scheduled : Scheduled task ptr other s) (found : TaskPtr) :
    Scheduled task ptr other (returned task s found) := by
  unfold Scheduler.returned
  split
  all_goals exact ⟨scheduled.registered,scheduled.tag,scheduled.pending⟩

-- Of the two kinds only the one-time task deletes its tag at the end.
theorem complete_iff (scheduled : Scheduled task ptr other s) :
    (other ∈ (complete task s ptr).taskMap ∧ Pending (complete task s ptr) other) ↔ (task ptr).kind = .periodic := by
  unfold complete
  split
  · rename_i once
    refine ⟨?_,fun periodic => by rw [once] at periodic; cases periodic⟩
    rintro ⟨registered,_⟩
    exact absurd scheduled.tag (deleted_tag other registered)
  · rename_i periodic
    have kept := scheduled.rescheduleTag (task ptr).tag
    exact ⟨fun _ => periodic,fun _ => ⟨kept.registered,kept.pending⟩⟩

end Scheduled

-- One step of the executor while the task runs.
theorem runStep_running {phase : Phase} {next : State} (running : s.running = some (ptr,phase))
    (taken : step task s .run = some next) :
    (phase = .callback ∧ next = returned task s ptr) ∨ (phase = .last ∧ next = complete task s ptr) := by
  cases phase with
  | callback =>
    simp only [step,runStep,running,Option.some.injEq] at taken
    exact .inl ⟨rfl,taken.symm⟩
  | last =>
    simp only [step,runStep,running,Option.some.injEq] at taken
    exact .inr ⟨rfl,taken.symm⟩

theorem complete_running : (complete task s ptr).running = none := by
  unfold complete
  split <;> rfl

theorem spared_scheduled {after before : State} {actions : List Action} (scheduled : Scheduled task ptr other after)
    (meanwhile : Runs (step task) (Spares task ptr other) after actions before) (still : InProgress before ptr) :
    Scheduled task ptr other before := by
  refine meanwhile.invariant (fun s => InProgress s ptr → Scheduled task ptr other s) (fun _ => scheduled) ?_ still
  intro s action next held spared taken inside
  have now := held spared.1
  by_cases own : action = .run
  · subst own
    obtain ⟨phase,running⟩ := spared.1
    rcases runStep_running running taken with ⟨_,rfl⟩ | ⟨_,rfl⟩
    · exact now.returned ptr
    · obtain ⟨phase',late⟩ := inside
      rw [complete_running] at late
      cases late
  · exact now.step spared own taken

-- A task that is scheduled under the tag of a running one, in its callback or by
-- another thread, is registered and pending when that run completes, for a periodic
-- task only.
theorem reschedule_survives_iff {after before final : State} {action : Action} {actions : List Action}
    (taken : step task s action = some after) (scheduled : Schedules task ptr after action other)
    (meanwhile : Runs (step task) (Spares task ptr other) after actions before) (still : InProgress before ptr)
    (last : step task before .run = some final) (complete : final.running = none) :
    (other ∈ final.taskMap ∧ Pending final other) ↔ (task ptr).kind = .periodic := by
  have named : find task after (task ptr).tag = some other := by
    cases scheduled <;> assumption
  have start : Scheduled task ptr other after :=
    ⟨(find_some named).1,(find_some named).2,.inl (schedules_armed taken scheduled)⟩
  have now := spared_scheduled start meanwhile still
  obtain ⟨phase,running⟩ := still
  rcases runStep_running running last with ⟨_,rfl⟩ | ⟨_,rfl⟩
  · have kept := now.returned ptr
    refine ⟨fun _ => ?_,fun _ => ⟨kept.registered,kept.pending⟩⟩
    unfold returned at complete
    split at complete
    · cases complete
    · assumption
  · exact now.complete_iff

def period : TaskPtr → Task := fun _ => ⟨"period",.periodic⟩

theorem reschedule_survives_period : ∃ final,
    step period ⟨[0],{0},∅,[],[],some (0,.callback)⟩ .run = some final ∧ final.running = none ∧
      0 ∈ final.taskMap ∧ Pending final 0 := by
  have called : step period ⟨[0],∅,{0},[],[],some (0,.callback)⟩ (.rescheduleTask 0) =
      some ⟨[0],{0},∅,[],[],some (0,.callback)⟩ := by decide
  have last : step period ⟨[0],{0},∅,[],[],some (0,.callback)⟩ .run = some ⟨[0],{0},∅,[],[],none⟩ := by decide
  have scheduled : Schedules period 0 ⟨[0],{0},∅,[],[],some (0,.callback)⟩ (.rescheduleTask 0) 0 :=
    .rescheduleTask (by decide)
  exact ⟨_,last,rfl,(reschedule_survives_iff called scheduled (.nil _) ⟨.callback,rfl⟩ last rfl).mpr rfl⟩

def insideHello : State := ⟨[0],∅,∅,[],[],some (0,.callback)⟩

def afterHello : State := ⟨[],∅,{0},[],[],none⟩

-- A one-time task whose callback reschedules it, or puts another task in its place,
-- deletes what it has scheduled when the callback returns.
theorem one_time_reschedule_lost : (∃ actions, Runs (step hello) (fun _ _ => True) initial actions insideHello) ∧
    Runs (step hello) (fun _ _ => True) insideHello [.rescheduleTask 0,.run,.run] afterHello ∧
    Runs (step hello) (fun _ _ => True) insideHello
      [.deleteTask "hello",.addTask 1 true,.resume 1 .reset,.resume 1 .arm,.run,.run] afterHello ∧
    ∀ ptr, ptr ∉ afterHello.taskMap ∧ ¬Pending afterHello ptr := by
  have start : Runs (step hello) (fun _ _ => True) insideHello [] insideHello := .nil _
  refine ⟨?_,?_,?_,by simp [afterHello,Pending]⟩
  · have armed := hello_pending (fun _ _ => True) trivial (fun _ _ => trivial)
    have fired := armed.snoc trivial (show step hello _ (.fire 0) = some _ from rfl)
    exact ⟨_,fired.snoc trivial (show step hello _ .run = some insideHello by decide)⟩
  · have called := start.snoc trivial (show step hello _ (.rescheduleTask 0) = some _ from rfl)
    have back := called.snoc trivial (show step hello _ .run = some _ from rfl)
    exact back.snoc trivial (show step hello _ .run = some afterHello by decide)
  · have gone := start.snoc trivial (show step hello _ (.deleteTask "hello") = some _ from rfl)
    have entered := gone.snoc trivial (show step hello _ (.addTask 1 true) = some _ from rfl)
    have cleared := entered.snoc trivial (show step hello _ (.resume 1 .reset) = some _ from rfl)
    have armed := cleared.snoc trivial (show step hello _ (.resume 1 .arm) = some _ from rfl)
    have back := armed.snoc trivial (show step hello _ .run = some _ from rfl)
    exact back.snoc trivial (show step hello _ .run = some afterHello by decide)

end NdnCxx.Scheduler
