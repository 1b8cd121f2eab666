import NdnCxx.Lifecycle

namespace NdnCxx.Lifecycle
variable {J : Type*} {self next : Pool J}

section Queue

-- What an action does to the queue and to the jobs that run.
structure Dispatched (state next : Pool J) (event : Event J) : Prop where
  queue : Fifo.Step Event.submission Event.dispatch state.queue event next.queue
  running : (event.ending.toList ++ next.running).Perm (event.dispatch.toList ++ state.running)

theorem Dispatched.same (queue : next.queue = self.queue) (running : next.running.Perm self.running) :
    Dispatched self next .silent := by
  refine ⟨?_,running⟩
  simp [Fifo.Step,Event.submission,Event.dispatch,queue]

theorem jobOf_interrupt (thread : Thread J) : jobOf (interrupt thread) = jobOf thread := by
  obtain ⟨phase,interrupted⟩ := thread
  cases phase <;> rfl

theorem proceed_dispatched (taken : proceed self = some next) : Dispatched self next .silent := by
  unfold proceed at taken
  split at taken
  · cases taken
  · cases taken
    exact .same rfl (.refl _)
  · cases taken
    refine .same rfl ?_
    rw [Pool.running,List.filterMap_append]
    exact .of_eq (List.append_nil _)
  · split at taken
    · cases taken
      exact .same rfl (.refl _)
    · rename_i done _ thread present
      cases taken
      have moved := Fifo.filterMap_set jobOf present (interrupt thread)
      rw [jobOf_interrupt] at moved
      exact .same rfl ((List.perm_append_left_iff _).mp moved)
  · split at taken
    · cases taken
      exact .same rfl (.refl _)
    · obtain ⟨_,same⟩ := Option.ite_none_right_eq_some.mp taken
      cases same
      exact .same rfl (.refl _)

theorem jobOf_awake {phase : Phase J} (awake : phase = .entering ∨ phase = .notified) (interrupted : Bool) :
    jobOf ⟨phase,interrupted⟩ = none := by
  rcases awake with rfl | rfl
  · rfl
  · rfl

theorem Turned.queue {worker : ℕ} {needStop : Bool} {queue after : List J} {thread new : Thread J} {event : Event J}
    (turned : Turned worker needStop queue thread event new after) :
    Fifo.Step Event.submission Event.dispatch queue event after := by
  cases turned <;> simp [Fifo.Step,Event.submission,Event.dispatch]

theorem turned_running {worker i : ℕ} {needStop : Bool} {queue after : List J} {thread new : Thread J} {event : Event J}
    {group : List (Thread J)} (present : group[i]? = some thread) (turned : Turned worker needStop queue thread event new after) :
    (event.ending.toList ++ (group.set i new).filterMap jobOf).Perm (event.dispatch.toList ++ group.filterMap jobOf) := by
  have moved := Fifo.filterMap_set jobOf present new
  cases turned with
  | takes awake =>
    rw [jobOf_awake awake] at moved
    exact moved
  | quits awake | waits awake =>
    rw [jobOf_awake awake] at moved
    exact moved
  | finishes | cut => exact moved
  | swallows => exact (List.perm_append_left_iff _).mp moved
  | stops | enters | woken => exact moved

theorem step_dispatched {action : Action J} (taken : step self action = some next) :
    Dispatched self next (event self action) := by
  have did := step_did taken
  generalize event self action = seen at did
  cases did with
  | queued => exact ⟨rfl,.refl _⟩
  | @announced _ choice thread present waiting =>
    obtain ⟨phase,interrupted⟩ := thread
    cases phase <;> simp only [isWaiting,Bool.false_eq_true] at waiting
    exact ⟨rfl,Fifo.filterMap_set jobOf present (wake ⟨.waiting,interrupted⟩)⟩
  | started idle stop => exact .same rfl (.refl _)
  | stopped idle going => exact .same rfl (.refl _)
  | kept idle call => exact .same rfl (.refl _)
  | owned taken => exact proceed_dispatched taken
  | turned present turned => exact ⟨turned.queue,turned_running present turned⟩

end Queue

section Stopping

-- A thread that ends without being announced anything more, once `m_needStop` is set.
def doomed (thread : Thread J) : Bool :=
  match thread.phase with
  | .checking | .busy _ | .ended => true
  | .entering | .notified => thread.interrupted
  | .waiting => false

-- How far `interrupt_all` and `join_all` have come; after `shutdown`, as before the first
-- `start`, both are through.
def asked (self : Pool J) : ℕ :=
  match self.owner with
  | .idle => if self.needStop then self.group.length else 0
  | .creating _ => 0
  | .interrupting done => done
  | .joining _ => self.group.length

def joined (self : Pool J) : ℕ :=
  match self.owner with
  | .idle => if self.needStop then self.group.length else 0
  | .creating _ | .interrupting _ => 0
  | .joining done => done

structure Sound (state : Pool J) : Prop where
  stops : state.owner.stopping = true → state.needStop = true
  creates : ∀ left, state.owner = .creating left → state.needStop = false
  dooms : ∀ i thread, i < asked state → state.group[i]? = some thread → doomed thread = true
  ends : ∀ i thread, i < joined state → state.group[i]? = some thread → thread.phase = .ended

theorem Sound.asked_stop (sound : Sound self) {i : ℕ} (before : i < asked self) : self.needStop = true := by
  unfold asked at before
  split at before
  · by_contra going
    rw [if_neg going] at before
    exact absurd before (Nat.not_lt_zero _)
  · exact absurd before (Nat.not_lt_zero _)
  · rename_i owner
    exact sound.stops (by rw [owner]; rfl)
  · rename_i owner
    exact sound.stops (by rw [owner]; rfl)

theorem create_sound (poolSize : ℕ) : Sound (create poolSize : Pool J) := by
  refine ⟨nofun,nofun,?_,?_⟩
  · intro i thread _ present
    cases present
  · intro i thread _ present
    cases present

theorem doomed_interrupt (thread : Thread J) : doomed (interrupt thread) = true := by
  obtain ⟨phase,interrupted⟩ := thread
  cases phase <;> rfl

theorem Turned.keeps_doomed {worker : ℕ} {queue after : List J} {thread new : Thread J} {event : Event J}
    (turned : Turned worker true queue thread event new after) (before : doomed thread = true) : doomed new = true := by
  cases turned with
  | stops | takes | finishes | cut | swallows | quits => rfl
  | enters going => cases going
  | waits awake => rcases awake with rfl | rfl <;> cases before
  | woken => cases before

theorem Turned.alive {worker : ℕ} {needStop : Bool} {queue after : List J} {thread new : Thread J} {event : Event J}
    (turned : Turned worker needStop queue thread event new after) : thread.phase ≠ .ended := by
  cases turned with
  | quits awake | waits awake | takes awake =>
    rcases awake with rfl | rfl
    · exact nofun
    · exact nofun
  | stops | enters | finishes | cut | swallows | woken => exact nofun

theorem proceed_sound (sound : Sound self) (taken : proceed self = some next) : Sound next := by
  unfold proceed at taken
  split at taken
  · cases taken
  · rename_i owner
    cases taken
    have going := sound.creates 0 owner
    have none : ∀ {i}, ¬i < (if self.needStop = true then self.group.length else 0) := by simp [going]
    exact ⟨nofun,nofun,fun i thread before _ => absurd before none,fun i thread before _ => absurd before none⟩
  · rename_i left owner
    cases taken
    exact ⟨nofun,fun _ _ => sound.creates _ owner,fun i thread before _ => absurd before (Nat.not_lt_zero _),
      fun i thread before _ => absurd before (Nat.not_lt_zero _)⟩
  · rename_i done owner
    have stop := sound.stops (by rw [owner]; rfl)
    have reached : ∀ i thread, i < done → self.group[i]? = some thread → doomed thread = true := by
      have all := sound.dooms
      rwa [asked,owner] at all
    split at taken
    · rename_i absent
      cases taken
      refine ⟨fun _ => stop,nofun,?_,fun i thread before _ => absurd before (Nat.not_lt_zero _)⟩
      intro i thread before present
      have through := List.getElem?_eq_none_iff.mp absent
      exact reached i thread (Nat.lt_of_lt_of_le before through) present
    · rename_i thread found
      cases taken
      refine ⟨fun _ => stop,nofun,?_,fun i thread before _ => absurd before (Nat.not_lt_zero _)⟩
      intro i other before present
      by_cases same : done = i
      · subst same
        obtain ⟨bound,_⟩ := List.getElem?_eq_some_iff.mp found
        simp only [List.getElem?_set_self bound,Option.some.injEq] at present
        subst present
        exact doomed_interrupt thread
      · simp only [List.getElem?_set_ne same] at present
        have earlier : i < done := by
          have least : i < done + 1 := before
          omega
        exact reached i other earlier present
  · rename_i done owner
    have stop := sound.stops (by rw [owner]; rfl)
    have reached : ∀ i thread, i < done → self.group[i]? = some thread → thread.phase = .ended := by
      have all := sound.ends
      rwa [joined,owner] at all
    have all : ∀ (i : ℕ) thread, self.group[i]? = some thread → doomed thread = true := by
      intro i thread present
      obtain ⟨bound,_⟩ := List.getElem?_eq_some_iff.mp present
      exact sound.dooms i thread (by rw [asked,owner]; exact bound) present
    split at taken
    · rename_i absent
      cases taken
      have through := List.getElem?_eq_none_iff.mp absent
      refine ⟨nofun,nofun,fun i thread _ present => all i thread present,?_⟩
      intro i thread _ present
      obtain ⟨bound,_⟩ := List.getElem?_eq_some_iff.mp present
      exact reached i thread (Nat.lt_of_lt_of_le bound through) present
    · rename_i thread found
      obtain ⟨gone,moved⟩ := Option.ite_none_right_eq_some.mp taken
      cases moved
      refine ⟨fun _ => stop,nofun,fun i thread _ present => all i thread present,?_⟩
      intro i other before present
      by_cases same : i = done
      · subst same
        rw [found] at present
        cases present
        cases phase : thread.phase <;> simp [phase] at gone ⊢
      · have least : i < done + 1 := before
        exact reached i other (by omega) present

-- A thread that is not doomed yet may change in any way.
theorem Sound.frame (sound : Sound self) {i : ℕ} {old new : Thread J} {queue : List J} (present : self.group[i]? = some old)
    (doom : self.needStop = true → doomed old = true → doomed new = true) (alive : old.phase ≠ .ended) :
    Sound {self with group := self.group.set i new,queue} := by
  have lengths : asked {self with group := self.group.set i new,queue} = asked self := by
    unfold asked
    simp only [List.length_set]
  have joins : joined {self with group := self.group.set i new,queue} = joined self := by
    unfold joined
    simp only [List.length_set]
  refine ⟨sound.stops,sound.creates,?_,?_⟩
  · intro j thread before found
    rw [lengths] at before
    by_cases same : i = j
    · subst same
      obtain ⟨bound,_⟩ := List.getElem?_eq_some_iff.mp present
      simp only [List.getElem?_set_self bound,Option.some.injEq] at found
      subst found
      exact doom (sound.asked_stop before) (sound.dooms i old before present)
    · simp only [List.getElem?_set_ne same] at found
      exact sound.dooms j thread before found
  · intro j thread before found
    rw [joins] at before
    by_cases same : i = j
    · subst same
      exact absurd (sound.ends i old before present) alive
    · simp only [List.getElem?_set_ne same] at found
      exact sound.ends j thread before found

theorem step_sound {action : Action J} (sound : Sound self) (taken : step self action = some next) : Sound next := by
  have did := step_did taken
  generalize event self action = seen at did
  cases did with
  | queued => exact ⟨sound.stops,sound.creates,sound.dooms,sound.ends⟩
  | @announced _ choice thread present waiting =>
    obtain ⟨phase,interrupted⟩ := thread
    cases phase <;> simp only [isWaiting,Bool.false_eq_true] at waiting
    exact sound.frame present nofun nofun
  | started idle stop =>
    exact ⟨nofun,fun _ _ => rfl,fun i thread before _ => absurd before (Nat.not_lt_zero _),
      fun i thread before _ => absurd before (Nat.not_lt_zero _)⟩
  | stopped idle going =>
    exact ⟨fun _ => rfl,nofun,fun i thread before _ => absurd before (Nat.not_lt_zero _),
      fun i thread before _ => absurd before (Nat.not_lt_zero _)⟩
  | kept idle call => exact sound
  | owned taken => exact proceed_sound sound taken
  | turned present turned =>
    refine sound.frame present ?_ turned.alive
    intro stop before
    rw [stop] at turned
    exact turned.keeps_doomed before

-- Outside `start` and `shutdown` with `m_needStop` set, no thread is left.
theorem Sound.quiet (sound : Sound self) (idle : self.owner = .idle) (stop : self.needStop = true) :
    ∀ thread ∈ self.group, thread.phase = .ended := by
  intro thread member
  obtain ⟨i,bound,same⟩ := List.mem_iff_getElem.mp member
  refine sound.ends i thread ?_ (List.getElem?_eq_some_iff.mpr ⟨bound,same⟩)
  rw [joined,idle,stop]
  exact bound

end Stopping

def Pool.Holds (state : Pool J) (queue : List J) : Prop :=
  state.queue = queue

-- Over any number of cycles of `start` and `shutdown`, what the threads take is what was
-- submitted up to the queue, in order; each job taken is left or still runs; and once
-- `shutdown` is through nothing runs and no thread can go on.
theorem dispatch_across_restarts {poolSize : ℕ} {events : List (Event J)}
    (run : Traced step (fun _ _ => True) event (create poolSize) events self) :
    events.filterMap Event.submission = events.filterMap Event.dispatch ++ self.queue ∧
    (events.filterMap Event.ending ++ self.running).Perm (events.filterMap Event.dispatch) ∧
    (self.owner = .idle → self.needStop = true →
      self.running = [] ∧ ∀ worker move, step self (.thread worker move) = none) := by
  have sound : Sound self := run.invariant (fun _ => Sound) (create_sound poolSize)
    (fun _ _ _ _ sound _ taken => step_sound sound taken)
  have begun : (create poolSize : Pool J).Holds [] := rfl
  obtain ⟨queue,followed,same⟩ := run.simulated begun
    (fun state queue action next same _ taken => ⟨next.queue,same ▸ (step_dispatched taken).queue,rfl⟩)
  subst same
  refine ⟨Fifo.conserved followed,?_,?_⟩
  · refine run.invariant (fun events state => (events.filterMap Event.ending ++ state.running).Perm
      (events.filterMap Event.dispatch)) (.refl _) ?_
    intro events state action next accounted _ taken
    rw [Fifo.filterMap_snoc,Fifo.filterMap_snoc,List.append_assoc]
    refine ((step_dispatched taken).running.append_left _).trans ?_
    refine (List.perm_append_comm_assoc _ _ _).trans ?_
    exact (accounted.append_left _).trans List.perm_append_comm
  · intro idle stop
    have quiet := sound.quiet idle stop
    refine ⟨List.filterMap_eq_nil_iff.mpr ?_,?_⟩
    · intro thread member
      rw [jobOf,quiet thread member]
    · intro worker move
      cases taken : step self (.thread worker move) with
      | none => rfl
      | some next =>
        have did := step_did taken
        generalize event self (.thread worker move) = seen at did
        cases did with
        | kept _ call => rcases call with call | call <;> cases call
        | turned present turned => exact absurd (quiet _ (List.mem_of_getElem? present)) turned.alive

-- A job waits for the first `start`; the thread that runs it is interrupted in it, and the
-- second job is still queued when `shutdown` is through.
theorem dispatch_across_shutdown : ∃ self : Pool ℕ,
    Traced step (fun _ _ => True) event (create 1) [.submitted 7,.silent,.silent,.silent,.silent,.taken 0 7,.submitted 8,
      .silent,.silent,.silent,.cut 0 7,.silent,.silent] self ∧ [7,8] = [7] ++ self.queue ∧ self.running = [] := by
  have begun : Traced step (fun _ _ => True) event (create 1 : Pool ℕ) [] (create 1) := .nil _
  have early := begun.snoc trivial (show step _ (.execute 7 0) = some _ from rfl)
  have started := early.snoc trivial (show step _ .start = some _ from rfl)
  have created := started.snoc trivial (show step _ .proceed = some _ from rfl)
  have running := created.snoc trivial (show step _ .proceed = some _ from rfl)
  have checked := running.snoc trivial (show step _ (.thread 0 .check) = some _ from rfl)
  have busy := checked.snoc trivial (show step _ (.thread 0 .lock) = some _ from rfl)
  have queued := busy.snoc trivial (show step _ (.execute 8 0) = some _ from rfl)
  have stopped := queued.snoc trivial (show step _ .shutdown = some _ from rfl)
  have interrupted := stopped.snoc trivial (show step _ .proceed = some _ from rfl)
  have joins := interrupted.snoc trivial (show step _ .proceed = some _ from rfl)
  have ended := joins.snoc trivial (show step _ (.thread 0 .cut) = some _ from rfl)
  have joined := ended.snoc trivial (show step _ .proceed = some _ from rfl)
  have run := joined.snoc trivial (show step _ .proceed = some _ from rfl)
  exact ⟨_,run,(dispatch_across_restarts run).1,((dispatch_across_restarts run).2.2 rfl rfl).1⟩

section Termination

-- The turns that a doomed thread has left.
def turns (thread : Thread J) : ℕ :=
  match thread.phase with
  | .ended => 0
  | .checking => 1
  | .busy _ => 2 + thread.interrupted.toNat
  | .entering | .waiting | .notified => 4

-- The calls that `shutdown` has still to make.
def calls (self : Pool J) : ℕ :=
  match self.owner with
  | .interrupting done => (self.group.length - done + 1) + (self.group.length + 1)
  | .joining done => self.group.length - done + 1
  | .idle | .creating _ => 0

def mayTake (thread : Thread J) : ℕ :=
  match thread.phase with
  | .entering | .waiting | .notified => 1
  | .checking | .busy _ | .ended => 0

def takenBy (worker : ℕ) : Event J → ℕ
  | .taken taker _ => if taker = worker then 1 else 0
  | .submitted _ | .finished _ _ | .cut _ _ | .silent => 0

-- A job submitted is work of its caller, not of the pool.
def effort : Action J → ℕ
  | .execute _ _ => 0
  | .start | .shutdown | .proceed | .thread _ _ => 1

def callsMade : Action J → ℕ
  | .proceed => 1
  | .execute _ _ | .start | .shutdown | .thread _ _ => 0

theorem turns_le (thread : Thread J) : turns thread ≤ 4 := by
  have flag := Bool.toNat_le thread.interrupted
  unfold turns
  split <;> omega

theorem turns_spent {worker : ℕ} {queue after : List J} {thread new : Thread J} {event : Event J}
    (turned : Turned worker true queue thread event new after) (doom : doomed thread = true) : turns new + 1 ≤ turns thread := by
  cases turned with
  | stops => simp [turns]
  | enters going => cases going
  | quits awake => rcases awake with rfl | rfl <;> simp [turns]
  | waits awake => rcases awake with rfl | rfl <;> cases doom
  | @takes _ _ _ interrupted awake =>
    have flag := Bool.toNat_le interrupted
    rcases awake with rfl | rfl
    all_goals
      simp only [turns]
      omega
  | finishes => exact Nat.le_add_right 2 _
  | cut | swallows => simp [turns]
  | woken => cases doom

theorem mayTake_spent {worker : ℕ} {queue after : List J} {thread new : Thread J} {event : Event J}
    (turned : Turned worker true queue thread event new after) : takenBy worker event + mayTake new ≤ mayTake thread := by
  cases turned with
  | enters going => cases going
  | quits awake | waits awake | takes awake => rcases awake with rfl | rfl <;> simp [takenBy,mayTake]
  | stops | finishes | cut | swallows | woken => simp [takenBy,mayTake]

theorem Turned.other {worker other : ℕ} {needStop : Bool} {queue after : List J} {thread new : Thread J} {event : Event J}
    (turned : Turned worker needStop queue thread event new after) (apart : worker ≠ other) : takenBy other event = 0 := by
  cases turned <;> simp [takenBy,apart]

theorem mayTake_interrupt (thread : Thread J) : mayTake (interrupt thread) = mayTake thread := by
  obtain ⟨phase,interrupted⟩ := thread
  cases phase <;> rfl

-- The group in `shutdown`, seen through a measure that an interruption leaves as it is.
theorem proceed_group (stopping : self.owner.stopping = true) (taken : proceed self = some next) :
    next.group.length = self.group.length ∧ next.needStop = self.needStop ∧ calls next + 1 ≤ calls self ∧
      ∀ worker : ℕ, (next.group[worker]?).elim 0 mayTake = (self.group[worker]?).elim 0 mayTake := by
  unfold proceed at taken
  split at taken
  · cases taken
  · rename_i owner
    simp [owner,Owner.stopping] at stopping
  · rename_i owner
    simp [owner,Owner.stopping] at stopping
  · rename_i done owner
    split at taken
    · cases taken
      simp only [calls,owner]
      exact ⟨trivial,trivial,by omega,fun _ => trivial⟩
    · rename_i thread present
      obtain ⟨bound,_⟩ := List.getElem?_eq_some_iff.mp present
      cases taken
      simp only [calls,owner,List.length_set]
      refine ⟨trivial,trivial,by omega,?_⟩
      intro worker
      by_cases same : done = worker
      · subst same
        simp only [List.getElem?_set_self bound,present]
        exact mayTake_interrupt thread
      · rw [List.getElem?_set_ne same]
  · rename_i done owner
    split at taken
    · cases taken
      simp only [calls,owner]
      exact ⟨trivial,trivial,by omega,fun _ => trivial⟩
    · rename_i thread present
      obtain ⟨bound,_⟩ := List.getElem?_eq_some_iff.mp present
      obtain ⟨_,same⟩ := Option.ite_none_right_eq_some.mp taken
      cases same
      simp only [calls,owner]
      exact ⟨trivial,trivial,by omega,fun _ => trivial⟩

-- While `shutdown` runs, a thread takes a job at most where it was on its way to the queue.
theorem taken_spent {action : Action J} (sound : Sound self) (stopping : self.owner.stopping = true)
    (taken : step self action = some next) (worker : ℕ) :
    takenBy worker (event self action) + (next.group[worker]?).elim 0 mayTake ≤ (self.group[worker]?).elim 0 mayTake := by
  have did := step_did taken
  generalize event self action = seen at did
  cases did with
  | queued => exact Nat.le_of_eq (Nat.zero_add _)
  | @announced _ choice thread present waiting =>
    obtain ⟨bound,_⟩ := List.getElem?_eq_some_iff.mp present
    by_cases same : choice = worker
    · subst same
      obtain ⟨phase,interrupted⟩ := thread
      cases phase <;> simp only [isWaiting,Bool.false_eq_true] at waiting
      simp only [List.getElem?_set_self bound,present]
      exact Nat.le_refl _
    · simp only [List.getElem?_set_ne same]
      exact Nat.le_of_eq (Nat.zero_add _)
  | started idle | stopped idle | kept idle =>
    rw [idle] at stopping
    cases stopping
  | owned taken =>
    rw [(proceed_group stopping taken).2.2.2]
    exact Nat.le_of_eq (Nat.zero_add _)
  | @turned turner _ thread _ new _ present turned =>
    obtain ⟨bound,_⟩ := List.getElem?_eq_some_iff.mp present
    rw [sound.stops stopping] at turned
    by_cases same : turner = worker
    · subst same
      simp only [List.getElem?_set_self bound,present]
      exact mayTake_spent turned
    · simp only [List.getElem?_set_ne same]
      rw [turned.other same]
      exact Nat.le_of_eq (Nat.zero_add _)

theorem calls_spent {action : Action J} (stopping : self.owner.stopping = true) (taken : step self action = some next) :
    next.group.length = self.group.length ∧ callsMade action + calls next ≤ calls self := by
  have did := step_did taken
  generalize event self action = seen at did
  cases did with
  | queued => exact ⟨rfl,Nat.le_of_eq (Nat.zero_add _)⟩
  | announced | turned =>
    refine ⟨List.length_set,?_⟩
    simp only [calls,List.length_set]
    exact Nat.le_of_eq (Nat.zero_add _)
  | started idle | stopped idle | kept idle =>
    rw [idle] at stopping
    cases stopping
  | owned taken =>
    obtain ⟨lengths,_,spent,_⟩ := proceed_group stopping taken
    exact ⟨lengths,by rw [callsMade,Nat.add_comm]; exact spent⟩

theorem proceed_joining (inJoin : self.owner.inJoin = true) (taken : proceed self = some next) : next.group = self.group := by
  unfold proceed at taken
  split at taken
  · cases taken
  · rename_i owner
    simp [owner,Owner.inJoin] at inJoin
  · rename_i owner
    simp [owner,Owner.inJoin] at inJoin
  · rename_i owner
    simp [owner,Owner.inJoin] at inJoin
  · split at taken
    · cases taken
      rfl
    · obtain ⟨_,same⟩ := Option.ite_none_right_eq_some.mp taken
      cases same
      rfl

def weight (self : Pool J) : ℕ := (self.group.map turns).sum + calls self

theorem weight_spent {action : Action J} (sound : Sound self) (inJoin : self.owner.inJoin = true)
    (taken : step self action = some next) : effort action + weight next ≤ weight self := by
  have stopping : self.owner.stopping = true := by
    cases owner : self.owner <;> simp [owner,Owner.inJoin,Owner.stopping] at inJoin ⊢
  have through : asked self = self.group.length := by
    cases owner : self.owner <;> simp [owner,Owner.inJoin,asked] at inJoin ⊢
  have all : ∀ (i : ℕ) thread, self.group[i]? = some thread → doomed thread = true := by
    intro i thread present
    obtain ⟨bound,_⟩ := List.getElem?_eq_some_iff.mp present
    exact sound.dooms i thread (by rw [through]; exact bound) present
  have did := step_did taken
  generalize event self action = seen at did
  cases did with
  | queued => exact Nat.le_of_eq (Nat.zero_add _)
  | @announced _ choice thread present waiting =>
    have doom := all choice thread present
    obtain ⟨phase,interrupted⟩ := thread
    cases phase <;> simp [isWaiting,doomed] at waiting doom
  | started idle | stopped idle | kept idle =>
    rw [idle] at stopping
    cases stopping
  | owned taken =>
    rw [weight,weight,proceed_joining inJoin taken,effort]
    have spent := (proceed_group stopping taken).2.2.1
    omega
  | @turned turner move thread _ new queue present turned =>
    rw [sound.stops stopping] at turned
    have spent := turns_spent turned (all _ _ present)
    have summed := Fifo.sum_set turns present new
    have lengths : calls {self with group := self.group.set turner new,queue} = calls self := by
      simp only [calls,List.length_set]
    rw [weight,weight,lengths,effort]
    show 1 + (((self.group.set turner new).map turns).sum + calls self) ≤ _
    omega

-- `join_all` waits only for a thread that has a turn.
theorem joining_moves (sound : Sound self) {done : ℕ} (owner : self.owner = .joining done) :
    (∃ next, step self .proceed = some next) ∨ ∃ move next, step self (.thread done move) = some next := by
  cases present : self.group[done]? with
  | none =>
    left
    exact ⟨_,by simp only [step,proceed,owner,present]; rfl⟩
  | some thread =>
    obtain ⟨bound,_⟩ := List.getElem?_eq_some_iff.mp present
    have doom : doomed thread = true := sound.dooms done thread (by rw [asked,owner]; exact bound) present
    have enabled : ∀ move after, turn self.needStop self.queue thread move = some after →
        ∃ move next, step self (.thread done move) = some next := by
      intro move after turned
      exact ⟨move,_,by simp only [step,present,turned,Option.map_some]; rfl⟩
    obtain ⟨phase,interrupted⟩ := thread
    cases phase with
    | ended =>
      left
      exact ⟨_,by simp only [step,proceed,owner,present]; rfl⟩
    | checking => exact .inr (enabled .check _ rfl)
    | entering | notified => exact .inr (enabled .lock _ rfl)
    | busy job => exact .inr (enabled .finish _ rfl)
    | waiting => cases doom

end Termination

-- From the moment `m_needStop` is set: each thread takes one more job at most, and none
-- where it was not on its way to the queue; there is always a step towards the return of
-- `shutdown`, which no submission and no woken thread undoes; and only so many are left.
theorem shutdown_returns {poolSize : ℕ} {actions : List (Action J)}
    (run : Runs step (fun _ _ => True) (create poolSize) actions self) (stopping : self.owner.stopping = true) :
    (∀ events later, Traced step (fun state _ => state.owner.stopping = true) event self events later →
      ∀ worker, (events.map (takenBy worker)).sum ≤ (self.group[worker]?).elim 0 mayTake) ∧
    ((∃ next, step self .proceed = some next) ∨
      ∃ done move next, self.owner = .joining done ∧ step self (.thread done move) = some next) ∧
    (∀ more later, Runs step (fun state _ => state.owner.stopping = true) self more later →
      (more.map callsMade).sum ≤ 2 * (self.group.length + 1)) ∧
    (self.owner.inJoin = true → ∀ more later, Runs step (fun state _ => state.owner.inJoin = true) self more later →
      (more.map effort).sum ≤ 5 * self.group.length + 1) := by
  have sound : Sound self := run.invariant Sound (create_sound poolSize) (fun _ _ _ sound _ taken => step_sound sound taken)
  refine ⟨?_,?_,?_,?_⟩
  · intro events later went worker
    have paid := went.charged Sound (takenBy worker) (fun state => (state.group[worker]?).elim 0 mayTake)
      (fun _ => (self.group[worker]?).elim 0 mayTake) sound (Nat.le_refl _)
      (fun _ _ _ sound _ taken => step_sound sound taken)
      (fun _ _ _ sound stopping taken => Nat.add_le_add_right (taken_spent sound stopping taken worker) _)
    exact Nat.le_trans (Nat.le_add_right _ _) paid.2
  · cases owner : self.owner with
    | idle | creating left => simp [owner,Owner.stopping] at stopping
    | interrupting done =>
      left
      simp only [step,proceed,owner]
      split
      · exact ⟨_,rfl⟩
      · exact ⟨_,rfl⟩
    | joining done =>
      rcases joining_moves sound owner with goes | ⟨move,next,taken⟩
      · exact .inl goes
      · exact .inr ⟨done,move,next,rfl,taken⟩
  · intro more later went
    have paid := went.counted (fun state => state.group.length = self.group.length) callsMade calls
      (fun _ => calls self) rfl (Nat.le_refl _)
      (fun _ _ _ same stopping taken => (calls_spent stopping taken).1.trans same)
      (fun _ _ _ _ stopping taken => Nat.add_le_add_right (calls_spent stopping taken).2 _)
    have most : calls self ≤ 2 * (self.group.length + 1) := by
      unfold calls
      split <;> omega
    exact Nat.le_trans (Nat.le_trans (Nat.le_add_right _ _) paid) most
  · intro inJoin more later went
    have paid := went.counted Sound effort weight (fun _ => weight self) sound (Nat.le_refl _)
      (fun _ _ _ sound _ taken => step_sound sound taken)
      (fun _ _ _ sound inJoin taken => Nat.add_le_add_right (weight_spent sound inJoin taken) _)
    have summed : (self.group.map turns).sum ≤ self.group.length * 4 := by
      have each := List.sum_le_card_nsmul (self.group.map turns) 4 (by
        intro least member
        obtain ⟨thread,_,rfl⟩ := List.mem_map.mp member
        exact turns_le thread)
      rwa [List.length_map,smul_eq_mul] at each
    have most : calls self ≤ self.group.length + 1 := by
      cases owner : self.owner <;> simp [owner,Owner.inJoin,calls] at inJoin ⊢
    have weighed : weight self ≤ 5 * self.group.length + 1 := by
      unfold weight
      omega
    exact Nat.le_trans (Nat.le_trans (Nat.le_add_right _ _) paid) weighed

-- The only thread waits for a job when it is interrupted.
theorem shutdown_returns_waiting : ∃ self : Pool ℕ,
    Runs step (fun _ _ => True) (create 1) [.start,.proceed,.proceed,.thread 0 .check,.thread 0 .lock,.shutdown,.proceed,.proceed]
      self ∧ self.group = [⟨.notified,true⟩] ∧
    ∀ more later, Runs step (fun state _ => state.owner.inJoin = true) self more later → (more.map effort).sum ≤ 5 * 1 + 1 := by
  have begun : Runs step (fun _ _ => True) (create 1 : Pool ℕ) [] (create 1) := .nil _
  have started := begun.snoc trivial (show step _ .start = some _ from rfl)
  have created := started.snoc trivial (show step _ .proceed = some _ from rfl)
  have running := created.snoc trivial (show step _ .proceed = some _ from rfl)
  have checked := running.snoc trivial (show step _ (.thread 0 .check) = some _ from rfl)
  have waits := checked.snoc trivial (show step _ (.thread 0 .lock) = some _ from rfl)
  have stopped := waits.snoc trivial (show step _ .shutdown = some _ from rfl)
  have interrupted := stopped.snoc trivial (show step _ .proceed = some _ from rfl)
  have run := interrupted.snoc trivial (show step _ .proceed = some _ from rfl)
  exact ⟨_,run,rfl,(shutdown_returns run rfl).2.2.2 rfl⟩

end NdnCxx.Lifecycle
