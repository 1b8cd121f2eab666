import NdnCxx.Dispatch

namespace NdnCxx.Lifecycle
variable {J : Type*}

-- Where a thread of the group stands: about to test `m_needStop` in `run`, about to lock
-- the mutex in `waitForJob`, in `m_cond.wait`, woken there, in a job, or out of `run`.
inductive Phase (J : Type*) where
  | checking
  | entering
  | waiting
  | notified
  | busy (job : J)
  | ended
  deriving DecidableEq, Repr

-- `interrupted` is the request that the next interruption point takes.
structure Thread (J : Type*) where
  phase : Phase J
  interrupted : Bool
  deriving DecidableEq, Repr

-- Where the thread stands that calls `start` and `shutdown`: outside both, in the loop
-- that creates threads, in `interrupt_all`, in `join_all`.
inductive Owner where
  | idle
  | creating (left : ℕ)
  | interrupting (done : ℕ)
  | joining (done : ℕ)
  deriving DecidableEq, Repr

def Owner.stopping : Owner → Bool
  | .interrupting _ | .joining _ => true
  | .idle | .creating _ => false

def Owner.inJoin : Owner → Bool
  | .joining _ => true
  | .idle | .creating _ | .interrupting _ => false

structure Pool (J : Type*) where
  poolSize : ℕ
  needStop : Bool
  queue : List J
  group : List (Thread J)
  owner : Owner
  deriving DecidableEq, Repr

def create (poolSize : ℕ) : Pool J := ⟨poolSize,true,[],[],.idle⟩

-- `cut` is an interruption point inside the job, `swallow` one whose exception the job
-- catches itself.
inductive Move where
  | check
  | lock
  | finish
  | cut
  | swallow
  | spurious
  deriving DecidableEq, Repr

inductive Action (J : Type*) where
  | execute (job : J) (choice : ℕ)
  | start
  | shutdown
  | proceed
  | thread (worker : ℕ) (move : Move)
  deriving DecidableEq, Repr

-- The loop of `waitForJob` from the test of the queue on: `m_cond.wait` throws where an
-- interruption is already asked for.
def waitForJob (queue : List J) (interrupted : Bool) : Thread J × List J :=
  match queue with
  | [] => (if interrupted then ⟨.ended,false⟩ else ⟨.waiting,false⟩,[])
  | job :: rest => (⟨.busy job,interrupted⟩,rest)

def turn (needStop : Bool) (queue : List J) : Thread J → Move → Option (Thread J × List J)
  | ⟨.checking,interrupted⟩,.check => some (if needStop then ⟨.ended,false⟩ else ⟨.entering,interrupted⟩,queue)
  | ⟨.entering,interrupted⟩,.lock => some (waitForJob queue interrupted)
  | ⟨.notified,interrupted⟩,.lock => some (if interrupted then (⟨.ended,false⟩,queue) else waitForJob queue interrupted)
  | ⟨.busy _,interrupted⟩,.finish => some (⟨.checking,interrupted⟩,queue)
  | ⟨.busy _,true⟩,.cut => some (⟨.ended,false⟩,queue)
  | ⟨.busy job,true⟩,.swallow => some (⟨.busy job,false⟩,queue)
  | ⟨.waiting,interrupted⟩,.spurious => some (⟨.notified,interrupted⟩,queue)
  | _,_ => none

def isWaiting (thread : Thread J) : Bool :=
  match thread.phase with
  | .waiting => true
  | .checking | .entering | .notified | .busy _ | .ended => false

def wake (thread : Thread J) : Thread J := {thread with phase := .notified}

-- `choice` is the thread that `notify_one` wakes, where one waits.
def notifyOne (group : List (Thread J)) (choice : ℕ) : Option (List (Thread J)) :=
  if group.any isWaiting then
    match group[choice]? with
    | some thread => if isWaiting thread then some (group.set choice (wake thread)) else none
    | none => none
  else some group

def execute (self : Pool J) (job : J) (choice : ℕ) : Option (Pool J) :=
  let queueWasEmpty := self.queue.isEmpty
  let pushed := {self with queue := self.queue ++ [job]}
  if queueWasEmpty then (notifyOne self.group choice).map fun group => {pushed with group} else some pushed

def interrupt (thread : Thread J) : Thread J :=
  match thread.phase with
  | .ended => thread
  | .waiting => ⟨.notified,true⟩
  | .checking | .entering | .notified | .busy _ => {thread with interrupted := true}

-- A thread of its own runs `run` from the moment it is created; threads that ended stay
-- in the group.
def proceed (self : Pool J) : Option (Pool J) :=
  match self.owner with
  | .idle => none
  | .creating 0 => some {self with owner := .idle}
  | .creating (left + 1) => some {self with group := self.group ++ [⟨.checking,false⟩],owner := .creating left}
  | .interrupting done =>
    match self.group[done]? with
    | none => some {self with owner := .joining 0}
    | some thread => some {self with group := self.group.set done (interrupt thread),owner := .interrupting (done + 1)}
  | .joining done =>
    match self.group[done]? with
    | none => some {self with owner := .idle}
    | some thread => if thread.phase matches .ended then some {self with owner := .joining (done + 1)} else none

def step (self : Pool J) : Action J → Option (Pool J)
  | .execute job choice => execute self job choice
  | .start =>
    if self.owner = .idle then
      some (if self.needStop then {self with needStop := false,owner := .creating self.poolSize} else self)
    else none
  | .shutdown =>
    if self.owner = .idle then some (if self.needStop then self else {self with needStop := true,owner := .interrupting 0})
    else none
  | .proceed => proceed self
  | .thread worker move =>
    match self.group[worker]? with
    | none => none
    | some thread => (turn self.needStop self.queue thread move).map fun (next,queue) =>
      {self with group := self.group.set worker next,queue}

inductive Event (J : Type*) where
  | submitted (job : J)
  | taken (worker : ℕ) (job : J)
  | finished (worker : ℕ) (job : J)
  | cut (worker : ℕ) (job : J)
  | silent
  deriving DecidableEq, Repr

def jobOf (thread : Thread J) : Option J :=
  match thread.phase with
  | .busy job => some job
  | .checking | .entering | .waiting | .notified | .ended => none

def moved (worker : ℕ) (queue : List J) (thread : Thread J) : Move → Event J
  | .lock =>
    match turn false queue thread .lock with
    | some (next,_) => (jobOf next).elim .silent (.taken worker)
    | none => .silent
  | .finish => (jobOf thread).elim .silent (.finished worker)
  | .cut => (jobOf thread).elim .silent (.cut worker)
  | .check | .swallow | .spurious => .silent

def event (self : Pool J) : Action J → Event J
  | .execute job _ => .submitted job
  | .start | .shutdown | .proceed => .silent
  | .thread worker move => (self.group[worker]?).elim .silent (moved worker self.queue · move)

namespace Event

def submission : Event J → Option J
  | .submitted job => some job
  | .taken _ _ | .finished _ _ | .cut _ _ | .silent => none

def dispatch : Event J → Option J
  | .taken _ job => some job
  | .submitted _ | .finished _ _ | .cut _ _ | .silent => none

-- A job left, done or cut short.
def ending : Event J → Option J
  | .finished _ job | .cut _ job => some job
  | .submitted _ | .taken _ _ | .silent => none

end Event

def Pool.running (self : Pool J) : List J := self.group.filterMap jobOf

-- What a thread can do by itself.
inductive Turned (worker : ℕ) (needStop : Bool) : List J → Thread J → Event J → Thread J → List J → Prop where
  | stops {queue interrupted} : needStop = true →
      Turned worker needStop queue ⟨.checking,interrupted⟩ .silent ⟨.ended,false⟩ queue
  | enters {queue interrupted} : needStop = false →
      Turned worker needStop queue ⟨.checking,interrupted⟩ .silent ⟨.entering,interrupted⟩ queue
  | quits {queue phase} : phase = .entering ∨ phase = .notified →
      Turned worker needStop queue ⟨phase,true⟩ .silent ⟨.ended,false⟩ queue
  | waits {phase} : phase = .entering ∨ phase = .notified →
      Turned worker needStop [] ⟨phase,false⟩ .silent ⟨.waiting,false⟩ []
  | takes {job rest phase interrupted} : phase = .entering ∨ phase = .notified →
      Turned worker needStop (job :: rest) ⟨phase,interrupted⟩ (.taken worker job) ⟨.busy job,interrupted⟩ rest
  | finishes {queue job interrupted} :
      Turned worker needStop queue ⟨.busy job,interrupted⟩ (.finished worker job) ⟨.checking,interrupted⟩ queue
  | cut {queue job} : Turned worker needStop queue ⟨.busy job,true⟩ (.cut worker job) ⟨.ended,false⟩ queue
  | swallows {queue job} : Turned worker needStop queue ⟨.busy job,true⟩ .silent ⟨.busy job,false⟩ queue
  | woken {queue interrupted} : Turned worker needStop queue ⟨.waiting,interrupted⟩ .silent ⟨.notified,interrupted⟩ queue

theorem lock_turned {worker : ℕ} {needStop : Bool} {queue : List J} {phase : Phase J} {interrupted : Bool}
    (awake : phase = .entering ∨ phase = .notified) :
    Turned worker needStop queue ⟨phase,interrupted⟩ ((jobOf (waitForJob queue interrupted).1).elim .silent (.taken worker))
      (waitForJob queue interrupted).1 (waitForJob queue interrupted).2 := by
  cases queue with
  | nil =>
    cases interrupted with
    | true => exact .quits awake
    | false => exact .waits awake
  | cons job rest => exact .takes awake

theorem turn_turned {worker : ℕ} {needStop : Bool} {queue after : List J} {thread next : Thread J} {move : Move}
    (taken : turn needStop queue thread move = some (next,after)) :
    Turned worker needStop queue thread (moved worker queue thread move) next after := by
  obtain ⟨phase,interrupted⟩ := thread
  cases phase with
  | checking =>
    cases move <;> simp only [turn,reduceCtorEq,Option.some.injEq,Prod.mk.injEq] at taken
    obtain ⟨rfl,rfl⟩ := taken
    cases needStop with
    | true => exact .stops rfl
    | false => exact .enters rfl
  | entering =>
    cases move <;> simp only [turn,reduceCtorEq,Option.some.injEq] at taken
    have turned : Turned worker needStop queue ⟨.entering,interrupted⟩ _ _ _ := lock_turned (.inl rfl)
    rw [taken] at turned
    simpa [moved,turn,taken] using turned
  | waiting =>
    cases move <;> simp only [turn,reduceCtorEq,Option.some.injEq,Prod.mk.injEq] at taken
    obtain ⟨rfl,rfl⟩ := taken
    exact .woken
  | notified =>
    cases move <;> simp only [turn,reduceCtorEq,Option.some.injEq] at taken
    cases interrupted with
    | true =>
      cases taken
      exact .quits (.inr rfl)
    | false =>
      have turned : Turned worker needStop queue ⟨.notified,false⟩ _ _ _ := lock_turned (.inr rfl)
      rw [if_neg (by simp)] at taken
      rw [taken] at turned
      simpa [moved,turn,taken] using turned
  | busy job =>
    cases move with
    | finish =>
      cases taken
      exact .finishes
    | cut =>
      cases interrupted with
      | true =>
        cases taken
        exact .cut
      | false => cases taken
    | swallow =>
      cases interrupted with
      | true =>
        cases taken
        exact .swallows
      | false => cases taken
    | check | lock | spurious => cases taken
  | ended => cases move <;> cases taken

-- What an action of the pool amounts to: a job is queued and perhaps a thread woken, the
-- owner goes on, or one thread has its turn.
inductive Did (self : Pool J) : Action J → Event J → Pool J → Prop where
  | queued {job choice} : Did self (.execute job choice) (.submitted job) {self with queue := self.queue ++ [job]}
  | announced {job choice thread} : self.group[choice]? = some thread → isWaiting thread = true →
      Did self (.execute job choice) (.submitted job)
        {self with queue := self.queue ++ [job],group := self.group.set choice (wake thread)}
  | started : self.owner = .idle → self.needStop = true →
      Did self .start .silent {self with needStop := false,owner := .creating self.poolSize}
  | stopped : self.owner = .idle → self.needStop = false →
      Did self .shutdown .silent {self with needStop := true,owner := .interrupting 0}
  | kept {action} : self.owner = .idle → action = .start ∨ action = .shutdown → Did self action .silent self
  | owned {next} : proceed self = some next → Did self .proceed .silent next
  | turned {worker move thread event next queue} : self.group[worker]? = some thread →
      Turned worker self.needStop self.queue thread event next queue →
      Did self (.thread worker move) event {self with group := self.group.set worker next,queue}

theorem execute_did {self next : Pool J} {job : J} {choice : ℕ} (taken : execute self job choice = some next) :
    Did self (.execute job choice) (.submitted job) next := by
  unfold execute at taken
  by_cases vacant : self.queue.isEmpty = true
  · simp only [if_pos vacant,notifyOne,Option.map_eq_some_iff] at taken
    obtain ⟨group,woken,rfl⟩ := taken
    split at woken
    · split at woken
      · rename_i thread present
        obtain ⟨waiting,same⟩ := Option.ite_none_right_eq_some.mp woken
        cases same
        exact .announced present waiting
      · cases woken
    · cases woken
      exact .queued
  · simp only [if_neg vacant] at taken
    cases taken
    exact .queued

theorem step_did {self next : Pool J} {action : Action J} (taken : step self action = some next) :
    Did self action (event self action) next := by
  cases action with
  | execute job choice => exact execute_did taken
  | start =>
    obtain ⟨idle,same⟩ := Option.ite_none_right_eq_some.mp taken
    cases same
    by_cases stop : self.needStop = true
    · rw [if_pos stop]
      exact .started idle stop
    · rw [if_neg stop]
      exact .kept idle (.inl rfl)
  | shutdown =>
    obtain ⟨idle,same⟩ := Option.ite_none_right_eq_some.mp taken
    cases same
    by_cases stop : self.needStop = true
    · rw [if_pos stop]
      exact .kept idle (.inr rfl)
    · rw [if_neg stop]
      exact .stopped idle (by simpa using stop)
  | proceed => exact .owned taken
  | thread worker move =>
    simp only [step] at taken
    split at taken
    · cases taken
    · rename_i thread present
      obtain ⟨⟨after,queue⟩,turned,rfl⟩ := Option.map_eq_some_iff.mp taken
      simp only [event,present]
      exact .turned present (turn_turned turned)

end NdnCxx.Lifecycle
