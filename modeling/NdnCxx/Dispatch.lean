import NdnCxx.Executor
import NdnCxx.Lib.Fifo

namespace NdnCxx.Executor
variable {J : Type*}

-- What the pool and its users see of an action: a job submitted, a job that a thread
-- comes out of `waitForJob` with, a job done.
inductive Event (J : Type*) where
  | submitted (job : J)
  | taken (worker : ℕ) (job : J)
  | finished (worker : ℕ) (job : J)
  | silent
  deriving DecidableEq, Repr

def jobOf : Worker J → Option J
  | .busy job => some job
  | .entering | .waiting | .notified => none

def jobAt (self : Executor J) (worker : ℕ) : Option J := self.workers[worker]?.bind jobOf

def event (self : Executor J) : Action J → Event J
  | .execute job _ => .submitted job
  | .lock worker =>
    match jobAt (self.waitForJob worker) worker with
    | some job => .taken worker job
    | none => .silent
  | .finish worker =>
    match jobAt self worker with
    | some job => .finished worker job
    | none => .silent
  | .spurious _ => .silent

namespace Event

def submission : Event J → Option J
  | .submitted job => some job
  | .taken _ _ | .finished _ _ | .silent => none

def dispatch : Event J → Option J
  | .taken _ job => some job
  | .submitted _ | .finished _ _ | .silent => none

def completion : Event J → Option J
  | .finished _ job => some job
  | .submitted _ | .taken _ _ | .silent => none

end Event

-- The jobs that the threads are in.
def running (self : Executor J) : List J := self.workers.filterMap jobOf

section Steps
variable {self next : Executor J}

theorem jobAt_set {workers : List (Worker J)} {i : ℕ} {old : Worker J} (present : workers[i]? = some old) (new : Worker J) :
    (workers.set i new)[i]?.bind jobOf = jobOf new := by
  obtain ⟨bound,_⟩ := List.getElem?_eq_some_iff.mp present
  rw [List.getElem?_set_self bound]
  rfl

-- One thread goes from one job, or none, to another.
theorem running_set {workers : List (Worker J)} {i : ℕ} {old : Worker J} (present : workers[i]? = some old) (new : Worker J) :
    ((jobOf old).toList ++ (workers.set i new).filterMap jobOf).Perm ((jobOf new).toList ++ workers.filterMap jobOf) := by
  obtain ⟨bound,same⟩ := List.getElem?_eq_some_iff.mp present
  have after := (List.set_perm_cons_eraseIdx bound new).filterMap jobOf
  have before := (List.getElem_cons_eraseIdx_perm bound).filterMap jobOf
  rw [same] at before
  have split : ∀ worker : Worker J, (worker :: workers.eraseIdx i).filterMap jobOf =
      (jobOf worker).toList ++ (workers.eraseIdx i).filterMap jobOf := by
    intro worker
    cases worker <;> rfl
  rw [split] at after before
  calc ((jobOf old).toList ++ (workers.set i new).filterMap jobOf).Perm _ := after.append_left _
    _ = (jobOf old).toList ++ (jobOf new).toList ++ (workers.eraseIdx i).filterMap jobOf := (List.append_assoc _ _ _).symm
    (((jobOf old).toList ++ (jobOf new).toList) ++ _).Perm _ := List.perm_append_comm.append_right _
    _ = (jobOf new).toList ++ ((jobOf old).toList ++ (workers.eraseIdx i).filterMap jobOf) := List.append_assoc _ _ _
    ((jobOf new).toList ++ _).Perm _ := before.append_left _

-- What an action does to the queue and to the jobs that run.
structure Dispatched (state next : Executor J) (event : Event J) : Prop where
  queue : Fifo.Step Event.submission Event.dispatch state.queue event next.queue
  running : (event.completion.toList ++ next.running).Perm (event.dispatch.toList ++ state.running)

theorem jobOf_waiting {worker : Worker J} (holds : isWaiting worker = true) : jobOf worker = none := by
  cases worker <;> simp [isWaiting,jobOf] at holds ⊢

theorem jobOf_awake {worker : Worker J} (holds : isAwake worker = true) : jobOf worker = none := by
  cases worker <;> simp [isAwake,jobOf] at holds ⊢

theorem idle_set {workers : List (Worker J)} {i : ℕ} {old new : Worker J} (present : workers[i]? = some old)
    (before : jobOf old = none) (after : jobOf new = none) :
    ((workers.set i new).filterMap jobOf).Perm (workers.filterMap jobOf) := by
  have moved := running_set present new
  rwa [before,after] at moved

theorem execute_dispatched {job : J} {choice : ℕ} (taken : self.execute job choice = some next) :
    Dispatched self next (.submitted job) := by
  unfold execute at taken
  by_cases vacant : self.queue.isEmpty = true
  · simp only [if_pos vacant,notifyOne] at taken
    split at taken
    · obtain ⟨woken,moved⟩ := Option.ite_none_right_eq_some.mp taken
      obtain ⟨worker,present,waiting⟩ := chosen woken
      cases moved
      exact ⟨rfl,idle_set present (jobOf_waiting waiting) rfl⟩
    · cases taken
      exact ⟨rfl,.refl _⟩
  · simp only [if_neg vacant] at taken
    cases taken
    exact ⟨rfl,.refl _⟩

-- The queue is looked at again under the mutex, however the thread was woken.
theorem lock_dispatched {i : ℕ} {worker : Worker J} (present : self.workers[i]? = some worker)
    (ready : isAwake worker = true) : Dispatched self (self.waitForJob i) (event self (.lock i)) := by
  rw [event,jobAt,waitForJob]
  cases queued : self.queue with
  | nil =>
    simp only [jobAt_set present]
    refine ⟨?_,idle_set present (jobOf_awake ready) rfl⟩
    simp [Fifo.Step,Event.submission,Event.dispatch,jobOf,queued]
  | cons job rest =>
    simp only [jobAt_set present]
    refine ⟨?_,?_⟩
    · simp [Fifo.Step,Event.submission,Event.dispatch,jobOf,queued]
    · have moved := running_set present (.busy job)
      rwa [jobOf_awake ready] at moved

theorem step_dispatched {action : Action J} (taken : step self action = some next) :
    Dispatched self next (event self action) := by
  cases action with
  | execute job choice => exact execute_dispatched taken
  | lock i =>
    obtain ⟨ready,moved⟩ := Option.ite_none_right_eq_some.mp taken
    obtain ⟨worker,present,holds⟩ := chosen ready
    cases moved
    exact lock_dispatched present holds
  | finish i =>
    simp only [step] at taken
    split at taken
    · rename_i job present
      cases taken
      rw [event,jobAt,present]
      refine ⟨?_,running_set present .entering⟩
      simp [Fifo.Step,Event.submission,Event.dispatch,jobOf]
    · cases taken
  | spurious i =>
    obtain ⟨woken,moved⟩ := Option.ite_none_right_eq_some.mp taken
    obtain ⟨worker,present,holds⟩ := chosen woken
    cases moved
    refine ⟨?_,idle_set present (jobOf_waiting holds) rfl⟩
    simp [Fifo.Step,Event.submission,Event.dispatch,event]

end Steps

-- Every job that was taken was done or runs, once.
def Accounted (events : List (Event J)) (self : Executor J) : Prop :=
  (events.filterMap Event.completion ++ self.running).Perm (events.filterMap Event.dispatch)

theorem Accounted.snoc {events : List (Event J)} {self next : Executor J} {event : Event J} (accounted : Accounted events self)
    (dispatched : Dispatched self next event) : Accounted (events ++ [event]) next := by
  unfold Accounted
  rw [Fifo.filterMap_snoc,Fifo.filterMap_snoc,List.append_assoc]
  have later := dispatched.running.append_left (events.filterMap Event.completion)
  refine later.trans ?_
  refine List.perm_append_comm_assoc _ _ _ |>.trans ?_
  exact (accounted.append_left _).trans List.perm_append_comm

theorem start_accounted (poolSize : ℕ) : Accounted [] (start poolSize : Executor J) := by
  have none : (start poolSize : Executor J).running = [] := by
    refine List.filterMap_eq_nil_iff.mpr ?_
    intro worker member
    rw [List.eq_of_mem_replicate member]
    rfl
  rw [Accounted,none]
  exact .refl _

-- The pool, seen from outside, is its queue.
def Queues (state : Executor J) (queue : List J) : Prop := state.queue = queue

theorem step_queues (state : Executor J) (queue : List J) (action : Action J) (next : Executor J) (same : Queues state queue)
    (_ : True) (taken : step state action = some next) :
    ∃ after, Fifo.Step Event.submission Event.dispatch queue (event state action) after ∧ Queues next after := by
  have moved := (step_dispatched taken).queue
  rw [same] at moved
  exact ⟨next.queue,moved,rfl⟩

-- The jobs that the threads take are the jobs submitted up to the queue, in order.
theorem fifo_dispatch {poolSize : ℕ} {events : List (Event J)} {self : Executor J}
    (run : Traced step (fun _ _ => True) event (start poolSize) events self) :
    events.filterMap Event.dispatch <+: events.filterMap Event.submission ∧
    events.filterMap Event.submission = events.filterMap Event.dispatch ++ self.queue ∧
    (events.filterMap Event.completion ++ self.running).Perm (events.filterMap Event.dispatch) ∧
    ∀ worker next job, step self (.lock worker) = some next → jobAt next worker = some job →
      self.queue = job :: next.queue := by
  have start : Queues (start poolSize : Executor J) [] := rfl
  obtain ⟨queue,followed,rfl⟩ := run.simulated start step_queues
  refine ⟨Fifo.taken_prefix followed,Fifo.conserved followed,?_,?_⟩
  · exact run.invariant Accounted (start_accounted poolSize)
      (fun _ _ _ _ accounted _ taken => accounted.snoc (step_dispatched taken))
  · intro worker next job taken given
    have moved := (step_dispatched taken).queue
    obtain ⟨_,same⟩ := Option.ite_none_right_eq_some.mp taken
    cases same
    simpa [Fifo.Step,event,given,Event.submission,Event.dispatch] using moved

-- Both threads are on their way to one job: the second one, woken for no reason, has
-- it before the first one, which goes back to waiting.
theorem fifo_dispatch_race : ∃ self : Executor ℕ,
    Traced step (fun _ _ => True) event (start 2)
      [.silent,.silent,.submitted 7,.silent,.taken 1 7,.silent,.submitted 8] self ∧
    [7,8] = [7] ++ self.queue ∧ self.workers = [.notified,.busy 7] := by
  have begun : Traced step (fun _ _ => True) event (start 2 : Executor ℕ) [] (start 2) := .nil _
  have first := begun.snoc trivial (show step _ (.lock 0) = some _ from rfl)
  have second := first.snoc trivial (show step _ (.lock 1) = some _ from rfl)
  have announced := second.snoc trivial (show step _ (.execute 7 0) = some _ from rfl)
  have woken := announced.snoc trivial (show step _ (.spurious 1) = some _ from rfl)
  have lost := woken.snoc trivial (show step _ (.lock 1) = some _ from rfl)
  have waits := lost.snoc trivial (show step _ (.lock 0) = some _ from rfl)
  have run := waits.snoc trivial (show step _ (.execute 8 0) = some _ from rfl)
  exact ⟨_,run,(fifo_dispatch run).2.1,rfl⟩

end NdnCxx.Executor
