import NdnCxx.Lib.Runs

namespace NdnCxx

-- Where a thread of the pool stands: about to lock the mutex in `waitForJob`, in
-- `m_cond.wait`, woken there and about to lock the mutex again, or in a job.
inductive Worker (J : Type*) where
  | entering
  | waiting
  | notified
  | busy (job : J)
  deriving DecidableEq, Repr

structure Executor (J : Type*) where
  queue : List J
  workers : List (Worker J)
  deriving DecidableEq, Repr

namespace Executor
variable {J : Type*}

def start (poolSize : ℕ) : Executor J := ⟨[],List.replicate poolSize .entering⟩

-- `choice` is the thread that `notify_one` wakes, where it wakes one.
inductive Action (J : Type*) where
  | execute (job : J) (choice : ℕ)
  | lock (worker : ℕ)
  | finish (worker : ℕ)
  | spurious (worker : ℕ)

def isWaiting : Worker J → Bool
  | .waiting => true
  | .entering | .notified | .busy _ => false

def isAwake : Worker J → Bool
  | .entering | .notified => true
  | .waiting | .busy _ => false

def notifyOne (self : Executor J) (choice : ℕ) : Option (Executor J) :=
  if self.workers.any isWaiting then
    if self.workers[choice]?.any isWaiting then some {self with workers := self.workers.set choice .notified} else none
  else some self

def execute (self : Executor J) (job : J) (choice : ℕ) : Option (Executor J) :=
  let queueWasEmpty := self.queue.isEmpty
  let pushed := {self with queue := self.queue ++ [job]}
  if queueWasEmpty then notifyOne pushed choice else some pushed

-- What a thread does between getting the mutex and giving it back.
def waitForJob (self : Executor J) (worker : ℕ) : Executor J :=
  match self.queue with
  | [] => {self with workers := self.workers.set worker .waiting}
  | job :: rest => ⟨rest,self.workers.set worker (.busy job)⟩

def step (self : Executor J) : Action J → Option (Executor J)
  | .execute job choice => self.execute job choice
  | .lock worker => if self.workers[worker]?.any isAwake then some (self.waitForJob worker) else none
  | .finish worker =>
    match self.workers[worker]? with
    | some (.busy _) => some {self with workers := self.workers.set worker .entering}
    | _ => none
  | .spurious worker =>
    if self.workers[worker]?.any isWaiting then some {self with workers := self.workers.set worker .notified} else none

def awake (self : Executor J) : ℕ := self.workers.countP isAwake

-- A job is queued and a thread waits for one that nobody will announce, while all the
-- others are in their jobs.
def Idle (self : Executor J) : Prop :=
  self.queue ≠ [] ∧ self.workers.any isWaiting = true ∧ ∀ worker ∈ self.workers, isWaiting worker = true ∨ ∃ job, worker = .busy job

-- Where a thread waits, each queued job has a thread on its way to the queue.
def Covered (state : Executor J) : Prop := state.workers.any isWaiting = true → state.queue.length ≤ state.awake

-- A job is submitted to an empty queue, or while no thread waits, or where more
-- threads are on their way to the queue than it has jobs.
def Room (self : Executor J) : Action J → Prop
  | .execute _ _ => self.queue = [] ∨ self.workers.any isWaiting = false ∨ self.queue.length < self.awake
  | _ => True

theorem Covered.not_idle {self : Executor J} (covered : Covered self) : ¬self.Idle := by
  rintro ⟨queued,waiting,others⟩
  have none : self.awake = 0 := by
    refine List.countP_eq_zero.mpr ?_
    intro worker member
    rcases others worker member with idle | ⟨job,rfl⟩
    · cases worker <;> simp [isWaiting,isAwake] at idle ⊢
    · simp [isAwake]
  have short := covered waiting
  rw [none] at short
  exact queued (List.length_eq_zero_iff.mp (Nat.le_zero.mp short))

-- One thread changes its state.
theorem countP_set_eq {α : Type*} (p : α → Bool) {l : List α} {i : ℕ} {old : α} (present : l[i]? = some old) (new : α) :
    (l.set i new).countP p + (if p old then 1 else 0) = l.countP p + (if p new then 1 else 0) := by
  obtain ⟨bound,same⟩ := List.getElem?_eq_some_iff.mp present
  have counted := List.countP_set (p := p) (a := new) bound
  have positive : p old = true → 0 < l.countP p := by
    intro holds
    exact List.countP_pos_iff.mpr ⟨old,List.mem_of_getElem? present,holds⟩
  rw [same] at counted
  by_cases holds : p old = true
  · have least := positive holds
    simp only [holds,if_true] at counted ⊢
    omega
  · simp only [holds,Bool.false_eq_true,if_false] at counted ⊢
    omega

theorem waiting_before {workers : List (Worker J)} {i : ℕ} {new : Worker J} (other : isWaiting new = false)
    (after : (workers.set i new).any isWaiting = true) : workers.any isWaiting = true := by
  obtain ⟨worker,member,waiting⟩ := List.any_eq_true.mp after
  rcases List.mem_or_eq_of_mem_set member with old | rfl
  · exact List.any_eq_true.mpr ⟨worker,old,waiting⟩
  · rw [other] at waiting
    cases waiting

theorem waiting_after {workers : List (Worker J)} {i : ℕ} {old : Worker J} (present : workers[i]? = some old)
    (other : isWaiting old = false) (new : Worker J) (before : workers.any isWaiting = true) :
    (workers.set i new).any isWaiting = true := by
  obtain ⟨worker,member,waiting⟩ := List.any_eq_true.mp before
  obtain ⟨j,bound,same⟩ := List.mem_iff_getElem.mp member
  have apart : i ≠ j := by
    rintro rfl
    rw [List.getElem?_eq_getElem bound,same] at present
    cases present
    rw [other] at waiting
    cases waiting
  refine List.any_eq_true.mpr ⟨worker,List.mem_iff_getElem.mpr ⟨j,by simpa using bound,?_⟩,waiting⟩
  rw [List.getElem_set_ne apart,same]

theorem chosen {workers : List (Worker J)} {i : ℕ} {p : Worker J → Bool} (holds : workers[i]?.any p = true) :
    ∃ worker, workers[i]? = some worker ∧ p worker = true := by
  cases present : workers[i]? with
  | none => simp [present] at holds
  | some worker => exact ⟨worker,rfl,by simpa [present] using holds⟩

theorem not_waiting_of_awake {worker : Worker J} (holds : isAwake worker = true) : isWaiting worker = false := by
  cases worker <;> simp [isAwake,isWaiting] at holds ⊢

theorem not_awake_of_waiting {worker : Worker J} (holds : isWaiting worker = true) : isAwake worker = false := by
  cases worker <;> simp [isAwake,isWaiting] at holds ⊢

-- A thread that was not on its way sets out.
theorem awake_set {self : Executor J} {i : ℕ} {old new : Worker J} (present : self.workers[i]? = some old)
    (before : isAwake old = false) (after : isAwake new = true) :
    ({self with workers := self.workers.set i new} : Executor J).awake = self.awake + 1 := by
  have counted := countP_set_eq isAwake present new
  simp only [before,after,Bool.false_eq_true,if_true,if_false] at counted
  exact counted

theorem asleep_set {self : Executor J} {i : ℕ} {old new : Worker J} (present : self.workers[i]? = some old)
    (before : isAwake old = true) (after : isAwake new = false) :
    (self.workers.set i new).countP isAwake + 1 = self.awake := by
  have counted := countP_set_eq isAwake present new
  simp only [before,after,Bool.false_eq_true,if_true,if_false] at counted
  exact counted

theorem execute_covered {self next : Executor J} {job : J} {choice : ℕ} (room : self.Room (.execute job choice))
    (taken : self.execute job choice = some next) : Covered next := by
  unfold execute at taken
  by_cases vacant : self.queue = []
  · simp only [vacant,List.isEmpty_nil,if_true,notifyOne,List.nil_append] at taken
    by_cases idle : self.workers.any isWaiting = true
    · rw [if_pos idle] at taken
      obtain ⟨woken,moved⟩ := Option.ite_none_right_eq_some.mp taken
      obtain ⟨worker,present,waiting⟩ := chosen woken
      cases moved
      intro _
      have more : Executor.awake (⟨[job],self.workers.set choice .notified⟩ : Executor J) = self.awake + 1 :=
        awake_set present (not_awake_of_waiting waiting) rfl
      rw [more]
      exact Nat.le_add_left 1 _
    · rw [if_neg idle] at taken
      cases taken
      exact fun waiting => absurd waiting idle
  · have filled : self.queue.isEmpty = false := by simpa using vacant
    simp only [filled,Bool.false_eq_true,if_false] at taken
    cases taken
    intro waiting
    rcases room with free | asleep | fewer
    · exact absurd free vacant
    · rw [waiting] at asleep
      cases asleep
    · show (self.queue ++ [job]).length ≤ self.awake
      rw [List.length_append]
      exact fewer

theorem lock_covered {self : Executor J} {i : ℕ} {worker : Worker J} (covered : Covered self)
    (present : self.workers[i]? = some worker) (ready : isAwake worker = true) : Covered (self.waitForJob i) := by
  unfold waitForJob
  cases queued : self.queue with
  | nil => exact fun _ => Nat.zero_le _
  | cons job rest =>
    intro waiting
    have before := covered (waiting_before rfl waiting)
    have fewer := asleep_set present ready (show isAwake (.busy job) = false from rfl)
    rw [queued,List.length_cons] at before
    show rest.length ≤ (self.workers.set i (.busy job)).countP isAwake
    omega

theorem step_covered {self next : Executor J} {action : Action J} (covered : Covered self) (room : self.Room action)
    (taken : step self action = some next) : Covered next := by
  cases action with
  | execute job choice => exact execute_covered room taken
  | lock i =>
    obtain ⟨ready,moved⟩ := Option.ite_none_right_eq_some.mp taken
    obtain ⟨worker,present,holds⟩ := chosen ready
    cases moved
    exact lock_covered covered present holds
  | finish i =>
    simp only [step] at taken
    split at taken
    · rename_i present
      cases taken
      intro waiting
      rw [awake_set present rfl rfl]
      exact Nat.le_succ_of_le (covered (waiting_before rfl waiting))
    · cases taken
  | spurious i =>
    obtain ⟨woken,moved⟩ := Option.ite_none_right_eq_some.mp taken
    obtain ⟨worker,present,holds⟩ := chosen woken
    cases moved
    intro waiting
    rw [awake_set present (not_awake_of_waiting holds) rfl]
    exact Nat.le_succ_of_le (covered (waiting_before rfl waiting))

theorem start_covered (poolSize : ℕ) : Covered (start poolSize : Executor J) := by
  intro waiting
  obtain ⟨worker,member,holds⟩ := List.any_eq_true.mp waiting
  rw [List.eq_of_mem_replicate member] at holds
  cases holds

-- With more queued jobs than threads on their way, these threads take a job each and
-- the pool is idle.
theorem overfull_stalls {self : Executor J} (waiting : self.workers.any isWaiting = true)
    (overfull : self.awake < self.queue.length) :
    ∃ actions later, Runs step (fun _ _ => True) self actions later ∧ Idle later := by
  induction ready : self.awake generalizing self with
  | zero =>
    refine ⟨[],self,.nil self,?_,waiting,?_⟩
    · intro vacant
      rw [vacant] at overfull
      exact absurd overfull (Nat.not_lt_zero _)
    · intro worker member
      have asleep := List.countP_eq_zero.mp ready worker member
      cases worker with
      | entering => exact absurd rfl asleep
      | waiting => exact .inl rfl
      | notified => exact absurd rfl asleep
      | busy job => exact .inr ⟨job,rfl⟩
  | succ count ih =>
    have positive : 0 < self.awake := by omega
    obtain ⟨worker,member,holds⟩ := List.countP_pos_iff.mp positive
    obtain ⟨i,bound,same⟩ := List.mem_iff_getElem.mp member
    have present : self.workers[i]? = some worker := by rw [List.getElem?_eq_getElem bound,same]
    cases queued : self.queue with
    | nil =>
      rw [queued] at overfull
      exact absurd overfull (Nat.not_lt_zero _)
    | cons job rest =>
      have taken : step self (.lock i) = some ⟨rest,self.workers.set i (.busy job)⟩ := by
        simp [step,waitForJob,present,holds,queued]
      have fewer := asleep_set present holds (show isAwake (.busy job) = false from rfl)
      have still := waiting_after present (not_waiting_of_awake holds) (.busy job) waiting
      rw [queued,List.length_cons] at overfull
      have first : Runs step (fun _ _ => True) self [.lock i] _ := .snoc (.nil self) trivial taken
      have left : Executor.awake (⟨rest,self.workers.set i (.busy job)⟩ : Executor J) = count := by
        show (self.workers.set i (.busy job)).countP isAwake = count
        omega
      have more : Executor.awake (⟨rest,self.workers.set i (.busy job)⟩ : Executor J) < rest.length := by omega
      have stalls : ∃ actions later,
          Runs step (fun _ _ => True) (⟨rest,self.workers.set i (.busy job)⟩ : Executor J) actions later ∧ Idle later :=
        ih still more left
      obtain ⟨actions,later,run,idle⟩ := stalls
      exact ⟨_,later,first.trans run,idle⟩

-- The condition is exact: where a job is submitted against it, the pool can come to
-- stand idle.
theorem never_idle {poolSize : ℕ} {actions : List (Action J)} {self : Executor J}
    (run : Runs step Room (start poolSize) actions self) :
    ¬self.Idle ∧ ∀ job choice next, ¬self.Room (.execute job choice) → step self (.execute job choice) = some next →
      ∃ more later, Runs step (fun _ _ => True) next more later ∧ Idle later := by
  have covered : Covered self := run.invariant Covered (start_covered poolSize)
    (fun _ _ _ covered room taken => step_covered covered room taken)
  refine ⟨covered.not_idle,?_⟩
  intro job choice next crowded taken
  rw [Room,not_or,not_or,Bool.not_eq_false,Nat.not_lt] at crowded
  obtain ⟨filled,waiting,full⟩ := crowded
  have unannounced : self.queue.isEmpty = false := by simpa using filled
  simp only [step,execute,unannounced,Bool.false_eq_true,if_false,Option.some.injEq] at taken
  subst taken
  refine overfull_stalls waiting ?_
  show self.awake < (self.queue ++ [job]).length
  rw [List.length_append]
  exact Nat.lt_succ_of_le full

theorem step_workers {self next : Executor J} {action : Action J} (taken : step self action = some next) :
    next.workers.length = self.workers.length := by
  cases action with
  | execute job choice =>
    simp only [step,execute,notifyOne] at taken
    split at taken
    · split at taken
      · obtain ⟨_,moved⟩ := Option.ite_none_right_eq_some.mp taken
        cases moved
        exact List.length_set
      · cases taken
        rfl
    · cases taken
      rfl
  | lock i =>
    obtain ⟨_,moved⟩ := Option.ite_none_right_eq_some.mp taken
    cases moved
    unfold waitForJob
    split
    all_goals exact List.length_set
  | finish i =>
    simp only [step] at taken
    split at taken
    · cases taken
      exact List.length_set
    · cases taken
  | spurious i =>
    obtain ⟨_,moved⟩ := Option.ite_none_right_eq_some.mp taken
    cases moved
    exact List.length_set

-- A pool of one thread, as the scheduler has it, meets the condition by itself: while
-- its thread waits the queue is empty.
theorem single_room {self : Executor J} (covered : Covered self) (single : self.workers.length = 1) (action : Action J) :
    self.Room action := by
  cases action with
  | execute job choice =>
    obtain ⟨worker,only⟩ := List.length_eq_one_iff.mp single
    by_cases waiting : self.workers.any isWaiting = true
    · left
      have short := covered waiting
      have holds : isWaiting worker = true := by simpa [only] using waiting
      have none : self.awake = 0 := by
        rw [awake,only,List.countP_singleton,not_awake_of_waiting holds]
        rfl
      rw [none] at short
      exact List.length_eq_zero_iff.mp (Nat.le_zero.mp short)
    · exact .inr (.inl (by simpa using waiting))
  | lock i => exact trivial
  | finish i => exact trivial
  | spurious i => exact trivial

theorem single_thread_never_idle {actions : List (Action J)} {self : Executor J}
    (run : Runs step (fun _ _ => True) (start 1) actions self) : ¬self.Idle := by
  have kept : Covered self ∧ self.workers.length = 1 := by
    refine run.invariant (fun state => Covered state ∧ state.workers.length = 1) ⟨start_covered 1,rfl⟩ ?_
    intro state action next held _ taken
    exact ⟨step_covered held.1 (single_room held.1 held.2 action) taken,(step_workers taken).trans held.2⟩
  exact kept.1.not_idle

-- Two threads wait, one job is submitted and its thread is on the way.
theorem never_idle_two : ∃ self : Executor ℕ, Runs step Room (start 2) [.lock 0,.lock 1,.execute 7 0] self ∧
    self.workers = [.notified,.waiting] ∧ ¬self.Idle := by
  have begun : Runs step Room (start 2 : Executor ℕ) [] (start 2) := .nil _
  have first := begun.snoc (show Room _ (.lock 0) from trivial) rfl
  have second := first.snoc (show Room _ (.lock 1) from trivial) rfl
  have run := second.snoc (show Room _ (.execute 7 0) from .inl rfl) rfl
  exact ⟨_,run,rfl,(never_idle run).1⟩

-- The second job comes before the woken thread has the mutex back, and wakes nobody:
-- it stays queued behind the first one, with a thread waiting.
theorem second_job_unannounced : ∃ self : Executor ℕ,
    Runs step (fun _ _ => True) (start 2) [.lock 0,.lock 1,.execute 7 0,.execute 8 0,.lock 0] self ∧
      self.queue = [8] ∧ self.workers = [.busy 7,.waiting] ∧ self.Idle := by
  have begun : Runs step (fun _ _ => True) (start 2 : Executor ℕ) [] (start 2) := .nil _
  have first := begun.snoc trivial (show step _ (.lock 0) = some _ from rfl)
  have second := first.snoc trivial (show step _ (.lock 1) = some _ from rfl)
  have announced := second.snoc trivial (show step _ (.execute 7 0) = some _ from rfl)
  have silent := announced.snoc trivial (show step _ (.execute 8 0) = some _ from rfl)
  have run := silent.snoc trivial (show step _ (.lock 0) = some ⟨[8],[.busy 7,.waiting]⟩ from rfl)
  refine ⟨_,run,rfl,rfl,by simp,rfl,?_⟩
  intro worker member
  rcases List.mem_cons.mp member with rfl | rest
  · exact .inr ⟨7,rfl⟩
  · rw [List.mem_singleton.mp rest]
    exact .inl rfl

end Executor
end NdnCxx
