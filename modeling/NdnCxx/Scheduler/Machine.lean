import NdnCxx.Lib.Runs

namespace NdnCxx.Scheduler

inductive Kind where
  | oneTime
  | periodic
  deriving DecidableEq, Repr

-- What does not change about a task. Delays have no part here: an armed timer may
-- fire at any time.
structure Task where
  tag : String
  kind : Kind
  deriving DecidableEq, Repr

-- A task object, whoever holds it.
abbrev TaskPtr := Nat

-- What a call of `addTask` has still to do when `addToMap` has given the mutex back.
inductive Stage where
  | reset
  | arm
  deriving DecidableEq, Repr

-- `run` is inside the callback, or past its last look at `m_invoked` and about to call
-- the scheduler.
inductive Phase where
  | callback
  | last
  deriving DecidableEq, Repr

-- `taskMap` lists the tasks of the map, whose keys are their tags, and `invoked` the
-- tasks whose flag is set. The executor of the scheduler has one thread.
structure State where
  taskMap : List TaskPtr
  armed : Finset TaskPtr
  invoked : Finset TaskPtr
  adding : List (TaskPtr × Stage)
  queue : List TaskPtr
  running : Option (TaskPtr × Phase)
  deriving DecidableEq

def initial : State := ⟨[],∅,∅,[],[],none⟩

-- What any thread may do next; the callback of a running task is such a thread.
-- `resume` lets a call of `addTask` go on, `fire` is a timer, `run` the executor.
inductive Action where
  | addTask (task : TaskPtr) (reset : Bool)
  | resume (task : TaskPtr) (stage : Stage)
  | deleteTask (tag : String)
  | deleteTasks (matcher : TaskPtr → Bool)
  | rescheduleTask (task : TaskPtr)
  | rescheduleTag (tag : String)
  | rescheduleTaskAt (task : TaskPtr)
  | rescheduleTagAt (tag : String)
  | fire (task : TaskPtr)
  | run

def reset (s : State) (ptr : TaskPtr) : State := {s with invoked := s.invoked.erase ptr}

def evtimerAdd (s : State) (ptr : TaskPtr) : State := {s with armed := insert ptr s.armed}

def evtimerDel (s : State) (ptr : TaskPtr) : State := {s with armed := s.armed.erase ptr}

section Calls
variable (task : TaskPtr → Task)

def find (s : State) (tag : String) : Option TaskPtr := s.taskMap.find? (fun ptr => decide ((task ptr).tag = tag))

def addToMap (s : State) (ptr : TaskPtr) : Option State :=
  if (find task s (task ptr).tag).isNone then some {s with taskMap := ptr :: s.taskMap} else none

def addTask (s : State) (ptr : TaskPtr) (reset : Bool) : State :=
  match addToMap task s ptr with
  | some added => {added with adding := (ptr,if reset then .reset else .arm) :: added.adding}
  | none => s

-- The same call from inside the scheduler, where the caller keeps the mutex.
def addTaskLocked (s : State) (ptr : TaskPtr) (again : Bool) : State :=
  match addToMap task s ptr with
  | some added => evtimerAdd (if again then reset added ptr else added) ptr
  | none => s

def resume (s : State) (ptr : TaskPtr) : Stage → State
  | .reset => {reset s ptr with adding := (ptr,.arm) :: s.adding.erase (ptr,.reset)}
  | .arm => {evtimerAdd s ptr with adding := s.adding.erase (ptr,.arm)}

def deleteTask (s : State) (tag : String) : State :=
  match find task s tag with
  | some ptr => {evtimerDel s ptr with taskMap := s.taskMap.filter (fun other => decide ((task other).tag ≠ tag))}
  | none => s

def deleteTasks (s : State) (matcher : TaskPtr → Bool) : State :=
  {(s.taskMap.filter matcher).foldl evtimerDel s with taskMap := s.taskMap.filter (fun ptr => !matcher ptr)}

-- The two calls that are given the task. They differ in the delay and in whether a
-- task that is not in the map is reset.
def rescheduleGiven (s : State) (ptr : TaskPtr) (again : Bool) : State :=
  match find task s (task ptr).tag with
  | some found => evtimerAdd (reset s found) found
  | none => addTaskLocked task s ptr again

def rescheduleTask (s : State) (ptr : TaskPtr) : State := rescheduleGiven task s ptr true

def rescheduleTaskAt (s : State) (ptr : TaskPtr) : State := rescheduleGiven task s ptr false

-- Both the call by tag and the call by tag with a delay: the delay is all they differ in.
def rescheduleTag (s : State) (tag : String) : State :=
  match find task s tag with
  | some found => evtimerAdd (reset s found) found
  | none => s

-- The executor takes the next task, and `run` looks at its flag; a periodic task sets
-- it before its callback.
def begin (s : State) (ptr : TaskPtr) (rest : List TaskPtr) : State :=
  if ptr ∈ s.invoked then {s with queue := rest}
  else match (task ptr).kind with
    | .oneTime => {s with queue := rest,running := some (ptr,.callback)}
    | .periodic => {s with queue := rest,running := some (ptr,.callback),invoked := insert ptr s.invoked}

-- The callback has returned.
def returned (s : State) (ptr : TaskPtr) : State :=
  match (task ptr).kind with
  | .oneTime => {s with invoked := insert ptr s.invoked,running := some (ptr,.last)}
  | .periodic => {s with running := if ptr ∈ s.invoked then some (ptr,.last) else none}

def complete (s : State) (ptr : TaskPtr) : State :=
  match (task ptr).kind with
  | .oneTime => {deleteTask task s (task ptr).tag with running := none}
  | .periodic => {rescheduleTag task s (task ptr).tag with running := none}

def runStep (s : State) : Option State :=
  match s.running,s.queue with
  | none,[] => none
  | none,ptr :: rest => some (begin task s ptr rest)
  | some (ptr,.callback),_ => some (returned task s ptr)
  | some (ptr,.last),_ => some (complete task s ptr)

def step (s : State) : Action → Option State
  | .addTask ptr reset => some (addTask task s ptr reset)
  | .resume ptr stage => if (ptr,stage) ∈ s.adding then some (resume s ptr stage) else none
  | .deleteTask tag => some (deleteTask task s tag)
  | .deleteTasks matcher => some (deleteTasks s matcher)
  | .rescheduleTask ptr => some (rescheduleTask task s ptr)
  | .rescheduleTag tag => some (rescheduleTag task s tag)
  | .rescheduleTaskAt ptr => some (rescheduleTaskAt task s ptr)
  | .rescheduleTagAt tag => some (rescheduleTag task s tag)
  | .fire ptr => if ptr ∈ s.armed then some {evtimerDel s ptr with queue := s.queue ++ [ptr]} else none
  | .run => runStep task s

-- The task whose callback an action enters.
def started (s : State) : Action → Option TaskPtr
  | .run => if s.running.isNone then s.queue.head?.filter (fun ptr => decide (ptr ∉ s.invoked)) else none
  | _ => none

end Calls

section Equations
variable {task : TaskPtr → Task} {s : State} {ptr : TaskPtr}

theorem find_some {tag : String} (known : find task s tag = some ptr) : ptr ∈ s.taskMap ∧ (task ptr).tag = tag :=
  ⟨List.mem_of_find?_eq_some known,by simpa using List.find?_some known⟩

theorem find_none {tag : String} : find task s tag = none ↔ ∀ ptr ∈ s.taskMap, (task ptr).tag ≠ tag := by
  rw [find,List.find?_eq_none]
  simp

theorem addTask_free (free : find task s (task ptr).tag = none) (again : Bool) : addTask task s ptr again =
    {s with
      taskMap := ptr :: s.taskMap
      adding := (ptr,if again then .reset else .arm) :: s.adding} := by
  simp [addTask,addToMap,free]

theorem addTask_taken (taken : find task s (task ptr).tag ≠ none) (again : Bool) : addTask task s ptr again = s := by
  simp [addTask,addToMap,taken]

theorem addTaskLocked_free (free : find task s (task ptr).tag = none) (again : Bool) : addTaskLocked task s ptr again =
    evtimerAdd {(if again then reset s ptr else s) with taskMap := ptr :: s.taskMap} ptr := by
  cases again <;> simp [addTaskLocked,addToMap,free,reset]

theorem deleteTasks_eq (matcher : TaskPtr → Bool) : deleteTasks s matcher =
    {s with
      taskMap := s.taskMap.filter (fun ptr => !matcher ptr)
      armed := s.armed \ (s.taskMap.filter matcher).toFinset} := by
  have stopped : ∀ (ptrs : List TaskPtr) (s : State),
      ptrs.foldl evtimerDel s = {s with armed := s.armed \ ptrs.toFinset} := by
    intro ptrs
    induction ptrs with
    | nil => simp
    | cons ptr rest ih =>
      intro s
      rw [List.foldl_cons,ih,evtimerDel,List.toFinset_cons,Finset.erase_sdiff_comm,← Finset.sdiff_insert]
  rw [deleteTasks,stopped]

theorem deleted_tag {tag : String} : ∀ ptr ∈ (deleteTask task s tag).taskMap, (task ptr).tag ≠ tag := by
  unfold deleteTask
  split
  · intro ptr member
    simpa using (List.mem_filter.mp member).2
  · rename_i free
    exact find_none.mp free

@[simp] theorem deleteTask_running (tag : String) : (deleteTask task s tag).running = s.running := by
  unfold deleteTask
  split <;> rfl

@[simp] theorem rescheduleTag_running (tag : String) : (rescheduleTag task s tag).running = s.running := by
  unfold rescheduleTag
  split <;> rfl

@[simp] theorem rescheduleTag_taskMap (tag : String) : (rescheduleTag task s tag).taskMap = s.taskMap := by
  unfold rescheduleTag
  split <;> rfl

end Equations
end NdnCxx.Scheduler
