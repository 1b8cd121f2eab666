import NdnCxx.Scheduler.Machine

namespace NdnCxx.Scheduler
variable {task : TaskPtr → Task} {s : State} {ptr found : TaskPtr}

-- A call of `addTask` has still to clear the flag, and nothing will arm the timer before.
def Awaited (s : State) (ptr : TaskPtr) : Prop := (ptr,.reset) ∈ s.adding ∧ ptr ∉ s.armed ∧ (ptr,.arm) ∉ s.adding

def InProgress (s : State) (ptr : TaskPtr) : Prop := ∃ phase, s.running = some (ptr,phase)

-- A task of the map has its flag set only while it runs or is being added.
structure Sound (task : TaskPtr → Task) (s : State) : Prop where
  tags : (s.taskMap.map (fun ptr => (task ptr).tag)).Nodup
  flagged : ∀ ptr ∈ s.taskMap, ptr ∈ s.invoked → InProgress s ptr ∨ Awaited s ptr

namespace Sound

theorem initial : Sound task Scheduler.initial := ⟨List.nodup_nil,fun _ member => by cases member⟩

theorem find_self (sound : Sound task s) (registered : ptr ∈ s.taskMap) : find task s (task ptr).tag = some ptr := by
  cases known : find task s (task ptr).tag with
  | none => exact absurd rfl (find_none.mp known ptr registered)
  | some other =>
    obtain ⟨member,same⟩ := find_some known
    rw [List.inj_on_of_nodup_map sound.tags member registered same]

-- Leaving the map, clearing a flag and stopping a timer are always safe.
theorem shrink (sound : Sound task s) {next : State} (fewer : next.taskMap.Sublist s.taskMap)
    (cleared : next.invoked ⊆ s.invoked) (stopped : next.armed ⊆ s.armed) (adding : next.adding = s.adding)
    (running : next.running = s.running) : Sound task next := by
  refine ⟨(fewer.map _).nodup sound.tags,?_⟩
  intro ptr member set
  rcases sound.flagged ptr (fewer.subset member) (cleared set) with inside | ⟨reset,idle,alone⟩
  · left
    rwa [InProgress,running]
  · right
    rw [Awaited,adding]
    exact ⟨reset,fun armed => idle (stopped armed),alone⟩

theorem reset (sound : Sound task s) (ptr : TaskPtr) : Sound task (reset s ptr) :=
  sound.shrink (List.Sublist.refl _) (Finset.erase_subset _ _) (Finset.Subset.refl _) rfl rfl

theorem stop (sound : Sound task s) (ptr : TaskPtr) : Sound task (evtimerDel s ptr) :=
  sound.shrink (List.Sublist.refl _) (Finset.Subset.refl _) (Finset.erase_subset _ _) rfl rfl

theorem arm (sound : Sound task s) (clear : ptr ∉ s.invoked) : Sound task (evtimerAdd s ptr) := by
  refine ⟨sound.tags,?_⟩
  intro other member set
  have apart : other ≠ ptr := by
    rintro rfl
    exact clear set
  rcases sound.flagged other member set with inside | ⟨reset,idle,alone⟩
  · exact .inl inside
  · exact .inr ⟨reset,by simpa [evtimerAdd,apart] using idle,alone⟩

theorem tags_enter (sound : Sound task s) (free : find task s (task ptr).tag = none) :
    ((ptr :: s.taskMap).map (fun ptr => (task ptr).tag)).Nodup := by
  rw [List.map_cons,List.nodup_cons,List.mem_map]
  refine ⟨?_,sound.tags⟩
  rintro ⟨other,member,same⟩
  exact find_none.mp free other member same

theorem enter (sound : Sound task s) (free : find task s (task ptr).tag = none) (clear : ptr ∉ s.invoked) :
    Sound task {s with taskMap := ptr :: s.taskMap} := by
  refine ⟨sound.tags_enter free,?_⟩
  intro other member set
  rcases List.mem_cons.mp member with rfl | old
  · exact absurd set clear
  · exact sound.flagged other old set

theorem rearm (sound : Sound task s) (found : TaskPtr) : Sound task (evtimerAdd (Scheduler.reset s found) found) :=
  (sound.reset found).arm (Finset.notMem_erase _ _)

theorem addLocked (sound : Sound task s) (free : find task s (task ptr).tag = none) {again : Bool}
    (clear : again = false → ptr ∉ s.invoked) : Sound task (addTaskLocked task s ptr again) := by
  rw [addTaskLocked_free free]
  cases again with
  | true => exact ((sound.reset ptr).enter free (Finset.notMem_erase _ _)).arm (Finset.notMem_erase _ _)
  | false => exact (sound.enter free (clear rfl)).arm (clear rfl)

theorem delete (sound : Sound task s) (tag : String) : Sound task (deleteTask task s tag) := by
  unfold deleteTask
  split
  · exact sound.shrink List.filter_sublist (Finset.Subset.refl _) (Finset.erase_subset _ _) rfl rfl
  · exact sound

theorem rescheduleGiven (sound : Sound task s) {again : Bool}
    (clear : find task s (task ptr).tag = none → again = false → ptr ∉ s.invoked) :
    Sound task (rescheduleGiven task s ptr again) := by
  unfold Scheduler.rescheduleGiven
  split
  · exact sound.rearm _
  · rename_i free
    exact sound.addLocked free (clear free)

theorem rescheduleTag (sound : Sound task s) (tag : String) : Sound task (rescheduleTag task s tag) := by
  unfold Scheduler.rescheduleTag
  split
  · exact sound.rearm _
  · exact sound

theorem deleteAll (sound : Sound task s) (matcher : TaskPtr → Bool) : Sound task (deleteTasks s matcher) := by
  rw [deleteTasks_eq]
  exact sound.shrink List.filter_sublist (Finset.Subset.refl _) Finset.sdiff_subset rfl rfl

-- The call that gives the mutex back: until it goes on, the flag may still be set.
theorem call (sound : Sound task s) {again : Bool} (clear : find task s (task ptr).tag = none →
    ptr ∉ s.invoked ∨ (again = true ∧ ptr ∉ s.armed ∧ ∀ stage, (ptr,stage) ∉ s.adding)) :
    Sound task (addTask task s ptr again) := by
  by_cases free : find task s (task ptr).tag = none
  · rw [addTask_free free]
    refine ⟨sound.tags_enter free,?_⟩
    intro other member set
    rcases List.mem_cons.mp member with rfl | old
    · rcases clear free with unset | ⟨rfl,idle,alone⟩
      · exact absurd set unset
      · refine .inr ⟨by simp,idle,?_⟩
        simpa using alone .arm
    · have apart : other ≠ ptr := by
        rintro rfl
        exact find_none.mp free other old rfl
      rcases sound.flagged other old set with inside | ⟨reset,idle,alone⟩
      · exact .inl inside
      · exact .inr ⟨List.mem_cons_of_mem _ reset,idle,by simpa [apart] using alone⟩
  · rw [addTask_taken free]
    exact sound

theorem goOn (sound : Sound task s) {stage : Stage} (pending : (ptr,stage) ∈ s.adding) :
    Sound task (resume s ptr stage) := by
  refine ⟨by cases stage <;> exact sound.tags,?_⟩
  intro other member set
  cases stage with
  | reset =>
    obtain ⟨apart,before⟩ := Finset.mem_erase.mp set
    rcases sound.flagged other member before with inside | ⟨reset,idle,alone⟩
    · exact .inl inside
    · refine .inr ⟨List.mem_cons_of_mem _ ((List.mem_erase_of_ne (by simp [apart])).mpr reset),idle,?_⟩
      rw [resume,List.mem_cons,not_or]
      exact ⟨by simp [apart],fun still => alone (List.mem_of_mem_erase still)⟩
  | arm =>
    rcases sound.flagged other member set with inside | ⟨reset,idle,alone⟩
    · exact .inl inside
    · have apart : other ≠ ptr := by
        rintro rfl
        exact alone pending
      refine .inr ⟨(List.mem_erase_of_ne (by simp)).mpr reset,by simpa [resume,evtimerAdd,apart] using idle,?_⟩
      exact fun still => alone (List.mem_of_mem_erase still)

-- While one task runs, the flag of another one is waited for.
theorem others (sound : Sound task s) {phase : Phase} (running : s.running = some (ptr,phase)) {other : TaskPtr}
    (apart : other ≠ ptr) (member : other ∈ s.taskMap) (set : other ∈ s.invoked) : Awaited s other := by
  rcases sound.flagged other member set with ⟨phase',inside⟩ | waited
  · rw [running] at inside
    cases inside
    exact absurd rfl apart
  · exact waited

theorem start (sound : Sound task s) (idle : s.running = none) (rest : List TaskPtr) :
    Sound task (begin task s ptr rest) := by
  have waited : ∀ other ∈ s.taskMap, other ∈ s.invoked → Awaited s other := by
    intro other member set
    rcases sound.flagged other member set with ⟨phase,inside⟩ | waited
    · rw [idle] at inside
      cases inside
    · exact waited
  unfold begin
  split
  · exact ⟨sound.tags,fun other member set => .inr (waited other member set)⟩
  · split
    · exact ⟨sound.tags,fun other member set => .inr (waited other member set)⟩
    · refine ⟨sound.tags,?_⟩
      intro other member set
      rcases Finset.mem_insert.mp set with rfl | before
      · exact .inl ⟨.callback,rfl⟩
      · exact .inr (waited other member before)

theorem back (sound : Sound task s) (running : s.running = some (ptr,.callback)) : Sound task (returned task s ptr) := by
  unfold returned
  split
  · refine ⟨sound.tags,?_⟩
    intro other member set
    by_cases same : other = ptr
    · exact .inl ⟨.last,by rw [same]⟩
    · exact .inr (sound.others running same member (Finset.mem_of_mem_insert_of_ne set same))
  · refine ⟨sound.tags,?_⟩
    intro other member set
    by_cases same : other = ptr
    · subst same
      exact .inl ⟨.last,if_pos set⟩
    · exact .inr (sound.others running same member set)

theorem finish (sound : Sound task s) (running : s.running = some (ptr,.last)) : Sound task (complete task s ptr) := by
  unfold complete
  split
  · have kept := sound.delete (task ptr).tag
    have same : (deleteTask task s (task ptr).tag).running = _ := (deleteTask_running _).trans running
    refine ⟨kept.tags,?_⟩
    intro other member set
    have gone : other ≠ ptr := by
      rintro rfl
      exact deleted_tag other member rfl
    exact .inr (kept.others same gone member set)
  · have kept := sound.rescheduleTag (task ptr).tag
    have same : (Scheduler.rescheduleTag task s (task ptr).tag).running = _ := (rescheduleTag_running _).trans running
    refine ⟨kept.tags,?_⟩
    intro other member set
    have gone : other ≠ ptr := by
      rintro rfl
      rw [rescheduleTag_taskMap] at member
      rw [Scheduler.rescheduleTag,sound.find_self member] at set
      exact Finset.notMem_erase _ _ set
    exact .inr (kept.others same gone member set)

theorem runStep (sound : Sound task s) {next : State} (taken : runStep task s = some next) : Sound task next := by
  unfold Scheduler.runStep at taken
  split at taken
  · cases taken
  · rename_i idle _
    cases taken
    exact sound.start idle _
  · rename_i running
    cases taken
    exact sound.back running
  · rename_i running
    cases taken
    exact sound.finish running

end Sound

-- The calls that put a task in the map find its flag clear; a call of `addTask` that
-- clears it may also find it set, where the timer is not armed and no other call is
-- adding the same task.
def Clear (task : TaskPtr → Task) (s : State) : Action → Prop
  | .addTask ptr reset => find task s (task ptr).tag = none →
      ptr ∉ s.invoked ∨ (reset = true ∧ ptr ∉ s.armed ∧ ∀ stage, (ptr,stage) ∉ s.adding)
  | .rescheduleTaskAt ptr => find task s (task ptr).tag = none → ptr ∉ s.invoked
  | _ => True

theorem step_sound (sound : Sound task s) {action : Action} {next : State} (clear : Clear task s action)
    (taken : step task s action = some next) : Sound task next := by
  cases action with
  | addTask ptr reset =>
    cases taken
    exact sound.call clear
  | resume ptr stage =>
    obtain ⟨pending,moved⟩ := Option.ite_none_right_eq_some.mp taken
    cases moved
    exact sound.goOn pending
  | deleteTask tag =>
    cases taken
    exact sound.delete tag
  | deleteTasks matcher =>
    cases taken
    exact sound.deleteAll matcher
  | rescheduleTask ptr =>
    cases taken
    exact sound.rescheduleGiven (fun _ again => by cases again)
  | rescheduleTag tag =>
    cases taken
    exact sound.rescheduleTag tag
  | rescheduleTaskAt ptr =>
    cases taken
    exact sound.rescheduleGiven (fun free _ => clear free)
  | rescheduleTagAt tag =>
    cases taken
    exact sound.rescheduleTag tag
  | fire ptr =>
    obtain ⟨armed,fired⟩ := Option.ite_none_right_eq_some.mp taken
    cases fired
    exact (sound.stop ptr).shrink (List.Sublist.refl _) (Finset.Subset.refl _) (Finset.Subset.refl _) rfl rfl
  | run => exact sound.runStep taken

theorem run_sound {actions : List Action} (run : Runs (step task) (Clear task) initial actions s) : Sound task s :=
  run.invariant (Sound task) Sound.initial (fun _ _ _ sound clear taken => step_sound sound clear taken)

-- The task waits for the executor with its flag clear.
structure Due (s : State) (ptr : TaskPtr) : Prop where
  queued : ptr ∈ s.queue
  clear : ptr ∉ s.invoked
  outside : ¬InProgress s ptr

-- Nothing but the run of a task sets its flag or takes it off the queue.
structure Quiet (s next : State) : Prop where
  queue : s.queue ⊆ next.queue
  invoked : next.invoked ⊆ s.invoked
  running : next.running = s.running

theorem Quiet.due {next : State} (quiet : Quiet s next) (due : Due s ptr) : Due next ptr := by
  refine ⟨quiet.queue due.queued,fun set => due.clear (quiet.invoked set),?_⟩
  rw [InProgress,quiet.running]
  exact due.outside

theorem quiet_rearm (s : State) (found : TaskPtr) : Quiet s (evtimerAdd (reset s found) found) :=
  ⟨List.Subset.refl _,Finset.erase_subset _ _,rfl⟩

theorem quiet_rescheduleGiven (s : State) (ptr : TaskPtr) (again : Bool) : Quiet s (rescheduleGiven task s ptr again) := by
  unfold rescheduleGiven
  split
  · exact quiet_rearm s _
  · rename_i free
    rw [addTaskLocked_free free]
    cases again with
    | true => exact ⟨List.Subset.refl _,Finset.erase_subset _ _,rfl⟩
    | false => exact ⟨List.Subset.refl _,Finset.Subset.refl _,rfl⟩

theorem quiet_rescheduleTag (s : State) (tag : String) : Quiet s (rescheduleTag task s tag) := by
  unfold rescheduleTag
  split
  · exact quiet_rearm s _
  · exact ⟨List.Subset.refl _,Finset.Subset.refl _,rfl⟩

theorem quiet_deleteTask (s : State) (tag : String) : Quiet s (deleteTask task s tag) := by
  unfold deleteTask
  split
  all_goals exact ⟨List.Subset.refl _,Finset.Subset.refl _,rfl⟩

theorem step_quiet {action : Action} {next : State} (other : action ≠ .run) (taken : step task s action = some next) :
    Quiet s next := by
  cases action with
  | addTask ptr reset =>
    cases taken
    by_cases free : find task s (task ptr).tag = none
    · rw [addTask_free free]
      exact ⟨List.Subset.refl _,Finset.Subset.refl _,rfl⟩
    · rw [addTask_taken free]
      exact ⟨List.Subset.refl _,Finset.Subset.refl _,rfl⟩
  | resume ptr stage =>
    obtain ⟨_,moved⟩ := Option.ite_none_right_eq_some.mp taken
    cases moved
    cases stage with
    | reset => exact ⟨List.Subset.refl _,Finset.erase_subset _ _,rfl⟩
    | arm => exact ⟨List.Subset.refl _,Finset.Subset.refl _,rfl⟩
  | deleteTask tag =>
    cases taken
    exact quiet_deleteTask s tag
  | deleteTasks matcher =>
    cases taken
    rw [deleteTasks_eq]
    exact ⟨List.Subset.refl _,Finset.Subset.refl _,rfl⟩
  | rescheduleTask ptr =>
    cases taken
    exact quiet_rescheduleGiven s ptr true
  | rescheduleTag tag =>
    cases taken
    exact quiet_rescheduleTag s tag
  | rescheduleTaskAt ptr =>
    cases taken
    exact quiet_rescheduleGiven s ptr false
  | rescheduleTagAt tag =>
    cases taken
    exact quiet_rescheduleTag s tag
  | fire ptr =>
    obtain ⟨_,fired⟩ := Option.ite_none_right_eq_some.mp taken
    cases fired
    exact ⟨List.subset_append_left _ _,Finset.Subset.refl _,rfl⟩
  | run => exact absurd rfl other

-- How many steps the executor may take before it comes to the task.
def remaining : Option (TaskPtr × Phase) → ℕ
  | none => 0
  | some (_,.callback) => 2
  | some (_,.last) => 1

def wait (s : State) (ptr : TaskPtr) : ℕ := 3 * s.queue.idxOf ptr + remaining s.running

theorem outside_of_other {next : State} {phase : Phase} (running : next.running = some (found,phase)) (apart : found ≠ ptr) :
    ¬InProgress next ptr := by
  rintro ⟨phase',inside⟩
  rw [running] at inside
  cases inside
  exact apart rfl

theorem begin_due {head : TaskPtr} {rest : List TaskPtr} (due : Due s ptr) (idle : s.running = none)
    (queued : s.queue = head :: rest) (apart : head ≠ ptr) :
    Due (begin task s head rest) ptr ∧ wait (begin task s head rest) ptr < wait s ptr := by
  have member : ptr ∈ rest := by
    have inside := due.queued
    rw [queued] at inside
    exact (List.mem_cons.mp inside).resolve_left apart.symm
  have before : wait s ptr = 3 * (rest.idxOf ptr + 1) := by
    rw [wait,idle,queued,List.idxOf_cons_ne _ apart]
    rfl
  rw [before]
  unfold begin
  split
  · refine ⟨⟨member,due.clear,due.outside⟩,?_⟩
    simp only [wait,idle,remaining]
    omega
  · split
    · refine ⟨⟨member,due.clear,outside_of_other rfl apart⟩,?_⟩
      simp only [wait,remaining]
      omega
    · refine ⟨⟨member,by simpa [apart.symm] using due.clear,outside_of_other rfl apart⟩,?_⟩
      simp only [wait,remaining]
      omega

theorem returned_due (due : Due s ptr) (running : s.running = some (found,.callback)) (apart : found ≠ ptr) :
    Due (returned task s found) ptr ∧ wait (returned task s found) ptr < wait s ptr := by
  have before : wait s ptr = 3 * s.queue.idxOf ptr + 2 := by
    rw [wait,running]
    rfl
  rw [before]
  unfold returned
  split
  · refine ⟨⟨due.queued,by simpa [apart.symm] using due.clear,outside_of_other rfl apart⟩,?_⟩
    simp only [wait,remaining]
    omega
  · by_cases set : found ∈ s.invoked
    · rw [if_pos set]
      refine ⟨⟨due.queued,due.clear,outside_of_other rfl apart⟩,?_⟩
      simp only [wait,remaining]
      omega
    · rw [if_neg set]
      refine ⟨⟨due.queued,due.clear,by simp [InProgress]⟩,?_⟩
      simp only [wait,remaining]
      omega

theorem complete_due (due : Due s ptr) (running : s.running = some (found,.last)) :
    Due (complete task s found) ptr ∧ wait (complete task s found) ptr < wait s ptr := by
  have before : wait s ptr = 3 * s.queue.idxOf ptr + 1 := by
    rw [wait,running]
    rfl
  have after : ∀ next : State, next.queue = s.queue → next.invoked ⊆ s.invoked →
      Due {next with running := none} ptr ∧ wait {next with running := none} ptr < wait s ptr := by
    intro next queue invoked
    refine ⟨⟨?_,fun set => due.clear (invoked set),by simp [InProgress]⟩,?_⟩
    · show ptr ∈ next.queue
      rw [queue]
      exact due.queued
    · rw [before]
      simp only [wait,remaining,queue]
      omega
  unfold complete
  split
  · refine after _ ?_ (quiet_deleteTask s _).invoked
    unfold deleteTask
    split <;> rfl
  · refine after _ ?_ (quiet_rescheduleTag s _).invoked
    unfold rescheduleTag
    split <;> rfl

-- The executor comes closer to the task, or enters its callback.
theorem run_due (due : Due s ptr) : ∃ next, step task s .run = some next ∧
    (started s .run = some ptr ∨ (Due next ptr ∧ wait next ptr < wait s ptr)) := by
  cases running : s.running with
  | none =>
    cases queued : s.queue with
    | nil =>
      have member := due.queued
      rw [queued] at member
      cases member
    | cons head rest =>
      have taken : step task s .run = some (begin task s head rest) := by simp [step,runStep,running,queued]
      refine ⟨_,taken,?_⟩
      by_cases same : head = ptr
      · left
        simp [started,running,queued,same,due.clear]
      · exact .inr (begin_due due running queued same)
  | some current =>
    obtain ⟨found,phase⟩ := current
    have apart : found ≠ ptr := by
      rintro rfl
      exact due.outside ⟨phase,running⟩
    cases phase with
    | callback =>
      have taken : step task s .run = some (returned task s found) := by simp [step,runStep,running]
      exact ⟨_,taken,.inr (returned_due due running apart)⟩
    | last =>
      have taken : step task s .run = some (complete task s found) := by simp [step,runStep,running]
      exact ⟨_,taken,.inr (complete_due due running)⟩

-- Whatever is done meanwhile, a due task is not taken off the queue without its callback.
theorem due_until_started {events : List (Option TaskPtr)} {next : State} (due : Due s ptr)
    (run : Traced (step task) (fun _ _ => True) started s events next) : some ptr ∈ events ∨ Due next ptr := by
  refine run.invariant (fun events next => some ptr ∈ events ∨ Due next ptr) (.inr due) ?_
  intro events before action after held _ taken
  rw [List.mem_append,List.mem_singleton]
  rcases held with earlier | waiting
  · exact .inl (.inl earlier)
  by_cases own : action = .run
  · subst own
    obtain ⟨next,moved,outcome⟩ : ∃ next, step task before .run = some next ∧ _ := run_due waiting
    rcases outcome with entered | ⟨later,_⟩
    · exact .inl (.inr entered.symm)
    · rw [taken] at moved
      cases moved
      exact .inr later
  · exact .inr ((step_quiet own taken).due waiting)

theorem due_starts (due : Due s ptr) : ∃ events next,
    Traced (step task) (fun _ action => action = .run) started s events next ∧ some ptr ∈ events := by
  induction left : wait s ptr using Nat.strong_induction_on generalizing s with
  | _ left ih =>
    obtain ⟨next,moved,outcome⟩ : ∃ next, step task s .run = some next ∧ _ := run_due due
    have first : Traced (step task) (fun _ action => action = .run) started s ([] ++ [started s .run]) next :=
      .snoc (.nil s) rfl moved
    rcases outcome with entered | ⟨later,nearer⟩
    · exact ⟨_,next,first,by simp [entered]⟩
    · obtain ⟨events,last,rest,member⟩ := ih _ (left ▸ nearer) later rfl
      exact ⟨_,last,first.trans rest,List.mem_append_right _ member⟩

theorem no_dead_task {actions : List Action} (run : Runs (step task) (Clear task) initial actions s)
    (registered : ptr ∈ s.taskMap) (armed : ptr ∈ s.armed) (outside : ¬InProgress s ptr) :
    ptr ∉ s.invoked ∧ ∃ fired, step task s (.fire ptr) = some fired ∧
      (∀ events next, Traced (step task) (fun _ _ => True) started fired events next →
        some ptr ∈ events ∨ (ptr ∈ next.queue ∧ ptr ∉ next.invoked)) ∧
      ∃ events next, Traced (step task) (fun _ action => action = .run) started fired events next ∧ some ptr ∈ events := by
  have clear : ptr ∉ s.invoked := by
    intro set
    rcases (run_sound run).flagged ptr registered set with inside | ⟨_,idle,_⟩
    · exact outside inside
    · exact idle armed
  have due : Due {evtimerDel s ptr with queue := s.queue ++ [ptr]} ptr := ⟨by simp,clear,outside⟩
  refine ⟨clear,_,if_pos armed,?_,due_starts due⟩
  intro events next after
  rcases due_until_started due after with entered | waiting
  · exact .inl entered
  · exact .inr ⟨waiting.queued,waiting.clear⟩

def hello : TaskPtr → Task := fun _ => ⟨"hello",.oneTime⟩

def pendingHello : State := ⟨[0],{0},∅,[],[],none⟩

theorem hello_pending (ok : State → Action → Prop) (clear : ok initial (.addTask 0 true))
    (free : ∀ s stage, ok s (.resume 0 stage)) :
    Runs (step hello) ok initial [.addTask 0 true,.resume 0 .reset,.resume 0 .arm] pendingHello := by
  have start : Runs (step hello) ok initial [] initial := .nil _
  have entered := start.snoc clear (show step hello _ _ = some _ from rfl)
  have cleared := entered.snoc (free _ .reset) (show step hello _ _ = some _ from rfl)
  exact cleared.snoc (free _ .arm) (show step hello _ _ = some pendingHello by decide)

theorem no_dead_task_hello : 0 ∉ pendingHello.invoked ∧ ∃ fired, step hello pendingHello (.fire 0) = some fired ∧
    (∀ events next, Traced (step hello) (fun _ _ => True) started fired events next →
      some 0 ∈ events ∨ (0 ∈ next.queue ∧ 0 ∉ next.invoked)) ∧
    ∃ events next, Traced (step hello) (fun _ action => action = .run) started fired events next ∧ some 0 ∈ events := by
  have run : Runs (step hello) (Clear hello) initial _ pendingHello :=
    hello_pending _ (fun _ => .inl (by decide)) (fun _ _ => trivial)
  exact no_dead_task run (by decide) (by decide) (by rintro ⟨phase,inside⟩; cases inside)

def deadHello : State := ⟨[0],{0},{0},[],[],none⟩

-- A task that has run is scheduled again by `rescheduleTaskAt`, with its flag still
-- set. The timer fires and the executor drops the task.
theorem rescheduled_task_dead : ∃ actions, Runs (step hello) (fun _ _ => True) initial actions deadHello ∧
    0 ∈ deadHello.taskMap ∧ 0 ∈ deadHello.armed ∧ 0 ∉ deadHello.queue ∧ deadHello.running = none ∧
    0 ∈ deadHello.invoked ∧ ∃ next, Traced (step hello) (fun _ _ => True) started deadHello [none,none] next ∧
      next.queue = [] ∧ next.running = none := by
  have armed := hello_pending (fun _ _ => True) trivial (fun _ _ => trivial)
  have fired := armed.snoc trivial (show step hello _ (.fire 0) = some _ from rfl)
  have inside := fired.snoc trivial (show step hello _ .run = some _ from rfl)
  have back := inside.snoc trivial (show step hello _ .run = some _ from rfl)
  have finished := back.snoc trivial (show step hello _ .run = some _ from rfl)
  have again := finished.snoc trivial (show step hello _ (.rescheduleTaskAt 0) = some deadHello by decide)
  refine ⟨_,again,by decide,by decide,by decide,rfl,by decide,?_⟩
  have start : Traced (step hello) (fun _ _ => True) started deadHello [] deadHello := .nil _
  have lost := start.snoc trivial (show step hello _ (.fire 0) = some _ from rfl)
  have dropped := lost.snoc trivial (show step hello _ .run = some _ from rfl)
  exact ⟨_,dropped,rfl,rfl⟩

end NdnCxx.Scheduler
