import NdnCxx.Security.Settlement

namespace NdnCxx.Security

-- What an observer can tell about a step: the request whose interest or job it takes
-- up, and the interests it expresses, each with its request and the step count of
-- its closure, the certificate level.
structure Effort where
  serves : Option Nat
  interests : List (Nat × Nat)
  deriving DecidableEq, Repr

def Closure.place (closure : Closure) : Nat × Nat := (closure.timeoutUnverifiedCallback.request,closure.stepCount)

-- The interests that are still out once the action has taken up its own.
def State.kept (s : State) : Action → List (Interest × Closure)
  | .content index _ _ => s.pending.eraseIdx index
  | .timedOut index => s.pending.eraseIdx index
  | _ => s.pending

def State.serves (s : State) : Action → Option Nat
  | .content index _ _ => s.pending[index]?.map (fun item => item.2.timeoutUnverifiedCallback.request)
  | .timedOut index => s.pending[index]?.map (fun item => item.2.timeoutUnverifiedCallback.request)
  | .execute index _ => s.jobs[index]?.map Job.request
  | _ => none

def expressed (pm : SimplePolicyManager) (s : State) (action : Action) : List (Interest × Closure) :=
  match step pm s action with
  | some next => next.pending.drop (s.kept action).length
  | none => []

def effort (pm : SimplePolicyManager) (s : State) (action : Action) : Effort :=
  ⟨s.serves action,(expressed pm s action).map (fun item => item.2.place)⟩

def interestsSent (efforts : List Effort) (request level : Nat) : Nat :=
  (efforts.flatMap Effort.interests).count (request,level)

def stepsTaken (efforts : List Effort) (request : Nat) : Nat := (efforts.filterMap Effort.serves).count request

-- Prices for an interest of a level and for a step, and what has to be on deposit for
-- everything the code may have in its hands: a packet to verify at a step count, an
-- interest that is out and its expired closure, each with the retries left, and a
-- continuation on the way back.
structure Prices where
  interest : Nat → Nat
  step : Nat
  verifying : Nat → Nat
  waiting : Nat → Nat → Nat
  expired : Nat → Nat → Nat
  returning : Nat → Nat

-- The deposit of each pays for all that can become of it.
structure Prices.Lawful (stepLimit : Nat) (prices : Prices) : Prop where
  asked : ∀ stepCount < stepLimit,
    prices.interest (stepCount + 1) + prices.waiting (stepCount + 1) 3 ≤ prices.verifying stepCount
  returned : ∀ stepCount ≤ stepLimit, prices.returning stepCount ≤ prices.verifying stepCount
  answered : ∀ stepCount retry, prices.step + prices.verifying stepCount ≤ prices.waiting stepCount retry
  timedOut : ∀ stepCount retry, prices.step + prices.expired stepCount retry ≤ prices.waiting stepCount retry
  retried : ∀ stepCount retry,
    prices.step + (prices.interest stepCount + prices.waiting stepCount retry) ≤ prices.expired stepCount (retry + 1)
  givenUp : ∀ stepCount < stepLimit, prices.step + prices.returning stepCount ≤ prices.expired (stepCount + 1) 0
  handed : ∀ depth, prices.step + prices.returning depth ≤ prices.returning (depth + 1)

structure Tariff (stepLimit : Nat) extends Prices where
  lawful : toPrices.Lawful stepLimit

-- For the interests of a level: four for each packet above it, and the retries left on
-- the level itself.
def levelPrices (stepLimit level : Nat) : Prices where
  interest stepCount := if stepCount = level then 1 else 0
  step := 0
  verifying stepCount := if stepCount < level ∧ level ≤ stepLimit then 4 else 0
  waiting stepCount retry :=
    (if stepCount = level then retry else 0) + if stepCount < level ∧ level ≤ stepLimit then 4 else 0
  expired stepCount retry :=
    (if stepCount = level then retry else 0) + if stepCount < level ∧ level ≤ stepLimit then 4 else 0
  returning _ := 0

theorem levelPrices_lawful (stepLimit level : Nat) : (levelPrices stepLimit level).Lawful stepLimit where
  asked stepCount below := by
    simp only [levelPrices]
    grind
  returned stepCount within := Nat.zero_le _
  answered stepCount retry := by
    simp only [levelPrices]
    omega
  timedOut stepCount retry := (Nat.zero_add _).le
  retried stepCount retry := by
    simp only [levelPrices]
    split <;> omega
  givenUp stepCount below := by
    simp only [levelPrices]
    omega
  handed depth := Nat.le_refl _

def levelTariff (stepLimit level : Nat) : Tariff stepLimit :=
  ⟨levelPrices stepLimit level,levelPrices_lawful stepLimit level⟩

-- For the steps: an interest takes two with its timeout, a continuation one for each
-- level above it.
def stepPrices (pm : SimplePolicyManager) : Prices where
  interest _ := 0
  step := 1
  verifying := remaining pm
  waiting stepCount retry := remaining pm stepCount + 2 * retry + 1
  expired stepCount retry := remaining pm stepCount + 2 * retry
  returning depth := depth

theorem stepPrices_lawful (pm : SimplePolicyManager) : (stepPrices pm).Lawful pm.stepLimit where
  asked stepCount below := by
    simp only [stepPrices,remaining]
    omega
  returned stepCount within := depth_le_remaining within stepCount
  answered stepCount retry := by
    simp only [stepPrices]
    omega
  timedOut stepCount retry := by
    simp only [stepPrices]
    omega
  retried stepCount retry := by
    simp only [stepPrices]
    omega
  givenUp stepCount below := by
    have positive : stepCount + 1 ≤ remaining pm (stepCount + 1) := depth_le_remaining below _
    simp only [stepPrices]
    omega
  handed depth := (Nat.add_comm 1 depth).le

def stepTariff (pm : SimplePolicyManager) : Tariff pm.stepLimit := ⟨stepPrices pm,stepPrices_lawful pm⟩

def owned (request owner price : Nat) : Nat := if owner = request then price else 0

section Account
variable {pm : SimplePolicyManager} (tariff : Tariff pm.stepLimit)

def Tariff.owed : Job → Nat
  | .call callback _ => tariff.returning callback.depth
  | .timeout closure _ => tariff.expired closure.stepCount closure.retry

def Tariff.pledge (request : Nat) (item : Interest × Closure) : Nat :=
  owned request item.2.timeoutUnverifiedCallback.request (tariff.waiting item.2.stepCount item.2.retry)

def Tariff.debt (request : Nat) (job : Job) : Nat := owned request job.request (tariff.owed job)

def Tariff.deposit (request : Nat) (s : State) : Nat :=
  (s.pending.map (tariff.pledge request)).sum + (s.jobs.map (tariff.debt request)).sum

def Tariff.granted (request : Nat) (s : State) : Nat := if request < s.requests.length then tariff.verifying 0 else 0

def Tariff.fee (request : Nat) (place : Nat × Nat) : Nat := owned request place.1 (tariff.interest place.2)

def Tariff.charge (request : Nat) (effort : Effort) : Nat :=
  (effort.serves.toList.map (fun owner => owned request owner tariff.step)).sum +
    (effort.interests.map (tariff.fee request)).sum

-- All that is put up for a request at one time: nothing, where its verdict falls or
-- the code throws or forgets to call back, or one job, or one interest.
inductive Puts (request budget : Nat) : List (Interest × Closure) → List Job → Prop where
  | nothing : Puts request budget [] []
  | job {job : Job} : job.request = request → tariff.owed job ≤ budget → Puts request budget [] [job]
  | interest {interest : Interest} {closure : Closure} : closure.timeoutUnverifiedCallback.request = request →
      tariff.interest closure.stepCount + tariff.waiting closure.stepCount closure.retry ≤ budget →
      Puts request budget [(interest,closure)] []

structure Covered (request budget : Nat) (s next : State) : Prop where
  requests : next.requests = s.requests
  puts : ∃ sent queued, next.pending = s.pending ++ sent ∧ next.jobs = s.jobs ++ queued ∧
    Puts tariff request budget sent queued

end Account

section Covering
variable {pm : SimplePolicyManager} {tariff : Tariff pm.stepLimit} {answers : Data → Data → Prop} {now : Int}
  {s next : State} {data : Data} {verifiedCallback unverifiedCallback : Callback} {request depth budget : Nat}
  {requests : List Data} {trace : List Event}

theorem Covered.mono {more : Nat} (covered : Covered tariff request budget s next) (le : budget ≤ more) :
    Covered tariff request more s next := by
  obtain ⟨requests,sent,queued,pending,jobs,puts⟩ := covered
  refine ⟨requests,sent,queued,pending,jobs,?_⟩
  cases puts with
  | nothing => exact .nothing
  | job owner paid => exact .job owner (paid.trans le)
  | interest owner paid => exact .interest owner (paid.trans le)

theorem Covered.after {middle : State} (extended : Extends s middle)
    (covered : Covered tariff request budget middle next) : Covered tariff request budget s next := by
  obtain ⟨requests,sent,queued,pending,jobs,puts⟩ := covered
  rw [extended.requests] at requests
  rw [extended.pending] at pending
  rw [extended.jobs] at jobs
  exact ⟨requests,sent,queued,pending,jobs,puts⟩

theorem covered_nothing (requests : next.requests = s.requests) (pending : next.pending = s.pending)
    (jobs : next.jobs = s.jobs) : Covered tariff request budget s next :=
  ⟨requests,[],[],by simpa using pending,by simpa using jobs,.nothing⟩

theorem covered_execute {job : Job} (owner : job.request = request) (paid : tariff.owed job ≤ budget) :
    Covered tariff request budget s (s.execute job) :=
  ⟨rfl,[],[job],by simp [State.execute],rfl,.job owner paid⟩

theorem covered_sendInterest {interest : Interest} {closure : Closure}
    (owner : closure.timeoutUnverifiedCallback.request = request)
    (paid : tariff.interest closure.stepCount + tariff.waiting closure.stepCount closure.retry ≤ budget) :
    Covered tariff request budget s (s.sendInterest interest closure) :=
  ⟨rfl,[(interest,closure)],[],rfl,by simp [State.sendInterest],.interest owner paid⟩

theorem covered_verified
    (awaits : Awaits pm answers requests trace request data verifiedCallback unverifiedCallback depth) :
    Covered tariff request (tariff.returning depth) s (invoke pm now verifiedCallback data s) := by
  cases awaits with
  | request => exact covered_nothing rfl rfl rfl
  | certificate waiting =>
    obtain ⟨owner,_,below,_⟩ := waiting.leads
    refine covered_execute owner ?_
    simp only [Tariff.owed,Callback.depth,below]
    exact Nat.le_refl _

theorem covered_unverified
    (awaits : Awaits pm answers requests trace request data verifiedCallback unverifiedCallback depth) :
    Covered tariff request (tariff.returning depth) s (invoke pm now unverifiedCallback data s) := by
  cases awaits with
  | request => exact covered_nothing rfl rfl rfl
  | certificate waiting =>
    obtain ⟨_,owner,_,below⟩ := waiting.leads
    refine covered_execute owner ?_
    simp only [Tariff.owed,Callback.depth,below]
    exact Nat.le_refl _

theorem covered_verifyData (s : State) (now : Int)
    (awaits : Awaits pm answers requests trace request data verifiedCallback unverifiedCallback depth) :
    Covered tariff request (tariff.verifying depth) s
      (verifyData pm now data verifiedCallback unverifiedCallback depth s) := by
  have consulted : Consulted pm now data verifiedCallback unverifiedCallback depth s
      (verifyData pm now data verifiedCallback unverifiedCallback depth s) := verifyData_consulted
  have enough : tariff.returning depth ≤ tariff.verifying depth := tariff.lawful.returned depth awaits.depth_le
  generalize verifyData pm now data verifiedCallback unverifiedCallback depth s = next at consulted ⊢
  cases consulted with
  | threw extended _ => exact .after extended (covered_nothing rfl rfl rfl)
  | refused extended => exact .after extended ((covered_unverified awaits).mono enough)
  | exempt free => exact (covered_verified awaits).mono enough
  | @accepted s' name certificate extended cleared located verifies source =>
    have verified : Covered tariff request (tariff.returning depth) (s'.record (.accepted data certificate))
        (invoke pm now verifiedCallback data (s'.record (.accepted data certificate))) := covered_verified awaits
    obtain ⟨same,puts⟩ := verified.mono enough
    exact .after extended ⟨same,puts⟩
  | asked extended cleared below located =>
    obtain ⟨_,owner,_,_⟩ := awaits.leads
    -- The one guard of the code: below the limit, by the depth of what is awaited.
    have within : depth < pm.stepLimit := lt_of_le_of_ne awaits.depth_le (Ne.symm below)
    exact .after extended (covered_sendInterest owner (tariff.lawful.asked depth within))

theorem covered_certificate {signCertificate : Data}
    (awaits : Awaits pm answers requests trace request data verifiedCallback unverifiedCallback depth) :
    Covered tariff request (tariff.returning depth) s
      (invoke pm now (.onCertificateVerified data verifiedCallback unverifiedCallback) signCertificate s) := by
  rw [invoke]
  cases made : identityCertificate pm.decode signCertificate with
  | error e => exact covered_nothing rfl rfl rfl
  | ok certificate =>
    simp only
    split
    · split
      · have verified : Covered tariff request (tariff.returning depth)
            ((s.insertCertificate now certificate signCertificate).record (.accepted data certificate))
            (invoke pm now verifiedCallback data
              ((s.insertCertificate now certificate signCertificate).record (.accepted data certificate))) :=
          covered_verified awaits
        exact ⟨verified.requests,verified.puts⟩
      · exact covered_nothing rfl rfl rfl
    · exact covered_unverified awaits

-- What a job costs is paid for by its deposit, after the step itself.
theorem covered_job (tariff : Tariff pm.stepLimit) (s : State) (now : Int) {job : Job}
    (queued : Queued pm answers requests trace job) :
    ∃ budget, tariff.step + budget ≤ tariff.owed job ∧
      Covered tariff job.request budget s (runJob pm now job s) := by
  cases queued with
  | @verified request depth _ signCertificate _ _ awaits cleared answered trusted =>
    obtain ⟨owner,_,below,_⟩ := awaits.leads
    have covered : Covered tariff request (tariff.returning depth) s
        (invoke pm now (.onCertificateVerified _ _ _) signCertificate s) := covered_certificate awaits
    simp only [Job.request,Tariff.owed,Callback.request,Callback.depth,owner,below]
    exact ⟨_,tariff.lawful.handed depth,covered⟩
  | @unverified request depth data _ _ unverifiedCallback awaits =>
    obtain ⟨_,owner,_,below⟩ := awaits.leads
    have covered : Covered tariff request (tariff.returning depth) s (invoke pm now unverifiedCallback data s) :=
      covered_unverified awaits
    simp only [Job.request,Tariff.owed,Callback.request,Callback.depth,owner,below]
    exact ⟨_,tariff.lawful.handed depth,covered⟩
  | @timeout interest closure outstanding =>
    cases outstanding with
    | @sent request depth retry data _ unverifiedCallback _ awaits cleared within located =>
      obtain ⟨_,owner,_,_⟩ := awaits.leads
      simp only [Job.request,Tariff.owed,owner]
      cases retry with
      | zero =>
        have covered : Covered tariff request (tariff.returning depth) s (invoke pm now unverifiedCallback data s) :=
          covered_unverified awaits
        exact ⟨_,tariff.lawful.givenUp depth within,covered⟩
      | succ retry => exact ⟨_,tariff.lawful.retried (depth + 1) retry,covered_sendInterest owner (Nat.le_refl _)⟩

end Covering

section Balance
variable {pm : SimplePolicyManager} (tariff : Tariff pm.stepLimit) {s next : State}

theorem owned_mono {request owner small large : Nat} (le : small ≤ large) :
    owned request owner small ≤ owned request owner large := by
  unfold owned
  split
  · exact le
  · exact Nat.le_refl _

theorem owned_add (request owner first second : Nat) :
    owned request owner (first + second) = owned request owner first + owned request owner second := by
  unfold owned
  split <;> rfl

theorem sum_eraseIdx {α : Type} {items : List α} {index : Nat} {item : α} (price : α → Nat)
    (there : items[index]? = some item) :
    (items.map price).sum = price item + ((items.eraseIdx index).map price).sum := by
  obtain ⟨inside,rfl⟩ := List.getElem?_eq_some_iff.mp there
  exact ((List.getElem_cons_eraseIdx_perm inside).map price).sum_eq.symm

theorem deposit_pending {index : Nat} {item : Interest × Closure} (there : s.pending[index]? = some item)
    (request : Nat) :
    tariff.deposit request s =
      tariff.pledge request item + tariff.deposit request {s with pending := s.pending.eraseIdx index} := by
  simp only [Tariff.deposit,sum_eraseIdx (tariff.pledge request) there,Nat.add_assoc]

theorem deposit_jobs {index : Nat} {job : Job} (there : s.jobs[index]? = some job) (request : Nat) :
    tariff.deposit request s =
      tariff.debt request job + tariff.deposit request {s with jobs := s.jobs.eraseIdx index} := by
  simp only [Tariff.deposit,sum_eraseIdx (tariff.debt request) there]
  omega

variable {tariff}

-- The budget pays the fees of what is sent and the deposit of what is put up.
theorem Covered.spent {base : State} {owner budget : Nat} (covered : Covered tariff owner budget base next) :
    ∃ sent, next.pending = base.pending ++ sent ∧ ∀ request,
      ((sent.map (fun item => item.2.place)).map (tariff.fee request)).sum + tariff.deposit request next ≤
        tariff.deposit request base + owned request owner budget := by
  obtain ⟨_,sent,queued,pending,jobs,puts⟩ := covered
  refine ⟨sent,pending,?_⟩
  intro request
  simp only [Tariff.deposit,pending,jobs,List.map_append,List.sum_append]
  cases puts with
  | nothing => simp
  | @job job mine paid =>
    have enough : tariff.debt request job ≤ owned request owner budget := mine ▸ owned_mono paid
    simp only [List.map_nil,List.map_cons,List.sum_nil,List.sum_cons]
    omega
  | @interest interest closure mine paid =>
    have enough : tariff.fee request closure.place + tariff.pledge request (interest,closure) ≤
        owned request owner budget := by
      simp only [Tariff.fee,Tariff.pledge,Closure.place,← owned_add,mine]
      exact owned_mono paid
    simp only [List.map_nil,List.map_cons,List.sum_nil,List.sum_cons]
    omega

theorem paid_out (owner : Nat) {budget price : Nat} (paid : tariff.step + budget ≤ price) (request : Nat) :
    owned request owner tariff.step + owned request owner budget ≤ owned request owner price := by
  rw [← owned_add]
  exact owned_mono paid

-- A step takes up what it serves and works on from the base: its fee is paid and a
-- budget left over for one owner, out of the deposits and new grants.
def Balanced (tariff : Tariff pm.stepLimit) (s base : State) (serves : Option Nat) (owner budget : Nat) : Prop :=
  ∀ request, (serves.toList.map (fun owner => owned request owner tariff.step)).sum + owned request owner budget +
      tariff.deposit request base + tariff.granted request s ≤ tariff.deposit request s + tariff.granted request base

theorem balanced_pending {index budget : Nat} {item : Interest × Closure} (there : s.pending[index]? = some item)
    (paid : tariff.step + budget ≤ tariff.waiting item.2.stepCount item.2.retry) :
    Balanced tariff s {s with pending := s.pending.eraseIdx index}
      (s.pending[index]?.map (fun item => item.2.timeoutUnverifiedCallback.request))
      item.2.timeoutUnverifiedCallback.request budget := by
  intro request
  have mine := paid_out item.2.timeoutUnverifiedCallback.request paid request
  simp only [there,Option.map_some,Option.toList_some,List.map_cons,List.map_nil,List.sum_cons,List.sum_nil,
    deposit_pending tariff there,Tariff.pledge,Tariff.granted]
  omega

theorem balanced_job {index budget : Nat} {job : Job} (there : s.jobs[index]? = some job)
    (paid : tariff.step + budget ≤ tariff.owed job) :
    Balanced tariff s {s with jobs := s.jobs.eraseIdx index} (s.jobs[index]?.map Job.request) job.request budget := by
  intro request
  have mine := paid_out job.request paid request
  simp only [there,Option.map_some,Option.toList_some,List.map_cons,List.map_nil,List.sum_cons,List.sum_nil,
    deposit_jobs tariff there,Tariff.debt,Tariff.granted]
  omega

-- A new request brings its own budget.
theorem balanced_request (data : Data) :
    Balanced tariff s {s with requests := s.requests ++ [data]} none s.requests.length (tariff.verifying 0) := by
  intro request
  simp only [Tariff.granted,Tariff.deposit,owned,Option.toList_none,List.map_nil,List.sum_nil,List.length_append,
    List.length_singleton]
  split <;> split <;> split <;> omega

theorem step_covered (tariff : Tariff pm.stepLimit) {action : Action} (chained : Chained pm (fun _ _ => True) s)
    (taken : step pm s action = some next) : ∃ base owner budget, base.pending = s.kept action ∧
      Covered tariff owner budget base next ∧ Balanced tariff s base (s.serves action) owner budget := by
  cases step_stepped taken with
  | verifyData data now =>
    have awaits : Awaits pm (fun _ _ => True) (s.requests ++ [data]) s.trace s.requests.length data
        (.verified s.requests.length) (.unverified s.requests.length) 0 := .request (by simp)
    exact ⟨{s with requests := s.requests ++ [data]},_,_,rfl,covered_verifyData _ now awaits,balanced_request data⟩
  | @content index blob now interest closure data there decoded =>
    cases chained.pending (interest,closure) (List.mem_of_getElem? there) with
    | @sent request depth retry _ _ _ _ awaits cleared within located =>
      obtain ⟨_,owner,_,_⟩ := awaits.leads
      refine ⟨_,_,_,rfl,covered_verifyData _ now (.certificate awaits cleared within trivial),?_⟩
      exact owner ▸ balanced_pending there (tariff.lawful.answered (depth + 1) retry)
  | @timedOut index interest closure there =>
    refine ⟨_,_,_,rfl,covered_execute rfl (Nat.le_refl _),?_⟩
    exact balanced_pending there (tariff.lawful.timedOut closure.stepCount closure.retry)
  | @execute index now job there =>
    obtain ⟨budget,paid,covered⟩ := covered_job tariff {s with jobs := s.jobs.eraseIdx index} now
      (chained.jobs job (List.mem_of_getElem? there))
    exact ⟨{s with jobs := s.jobs.eraseIdx index},_,_,rfl,covered,balanced_job there paid⟩
  | clean now =>
    refine ⟨s,0,0,rfl,covered_nothing rfl rfl rfl,?_⟩
    intro request
    simp [State.serves,owned]

-- No interest goes out unseen.
theorem step_expressed {action : Action} (chained : Chained pm (fun _ _ => True) s)
    (taken : step pm s action = some next) : next.pending = s.kept action ++ expressed pm s action := by
  obtain ⟨base,_,_,kept,covered,_⟩ := step_covered (stepTariff pm) chained taken
  obtain ⟨sent,pending,_⟩ := covered.spent
  rw [kept] at pending
  simp only [expressed,taken,pending,List.drop_left]

theorem step_charged {action : Action} (chained : Chained pm (fun _ _ => True) s)
    (taken : step pm s action = some next) (request : Nat) :
    tariff.charge request (effort pm s action) + tariff.deposit request next + tariff.granted request s ≤
      tariff.deposit request s + tariff.granted request next := by
  obtain ⟨base,owner,budget,kept,covered,balance⟩ := step_covered tariff chained taken
  obtain ⟨sent,pending,spent⟩ := covered.spent
  have sends : expressed pm s action = sent := by
    rw [step_expressed chained taken,kept] at pending
    exact List.append_cancel_left pending
  have granted : tariff.granted request next = tariff.granted request base := by
    rw [Tariff.granted,Tariff.granted,covered.requests]
  have fees := spent request
  have steps := balance request
  simp only [Tariff.charge,effort,sends,granted]
  omega

theorem run_charged {efforts : List Effort} (tariff : Tariff pm.stepLimit)
    (run : Traced (step pm) (fun _ _ => True) (effort pm) (initial pm) efforts s) (request : Nat) :
    Chained pm (fun _ _ => True) s ∧ (efforts.map (tariff.charge request)).sum ≤ tariff.granted request s := by
  have account := run.charged (Chained pm (fun _ _ => True)) (tariff.charge request) (tariff.deposit request)
    (tariff.granted request) (initial_chained pm _) (Nat.zero_le _)
    (fun _ _ _ chained _ taken => chained.step (by intros; trivial) taken)
    (fun _ _ _ chained _ taken => step_charged chained taken request)
  exact ⟨account.1,(Nat.le_add_right _ _).trans account.2⟩

end Balance

theorem level_charge (pm : SimplePolicyManager) (request level : Nat) (efforts : List Effort) :
    (efforts.map ((levelTariff pm.stepLimit level).charge request)).sum = interestsSent efforts request level := by
  have fees : ∀ places : List (Nat × Nat),
      (places.map ((levelTariff pm.stepLimit level).fee request)).sum = places.count (request,level) := by
    intro places
    induction places with
    | nil => rfl
    | cons place rest ih =>
      have fee : (levelTariff pm.stepLimit level).fee request place = if place = (request,level) then 1 else 0 := by
        simp only [Tariff.fee,owned,levelTariff,levelPrices,Prod.ext_iff]
        split <;> simp [*]
      rw [List.map_cons,List.sum_cons,ih,fee,List.count_cons]
      simp only [beq_iff_eq]
      exact Nat.add_comm _ _
  induction efforts with
  | nil => rfl
  | cons effort rest ih =>
    have served : (effort.serves.toList.map
        (fun owner => owned request owner (levelTariff pm.stepLimit level).step)).sum = 0 := by
      cases effort.serves <;> simp [levelTariff,levelPrices,owned]
    rw [List.map_cons,List.sum_cons,ih,Tariff.charge,served,fees,Nat.zero_add]
    simp [interestsSent]

theorem step_charge (pm : SimplePolicyManager) (request : Nat) (efforts : List Effort) :
    (efforts.map ((stepTariff pm).charge request)).sum = stepsTaken efforts request := by
  induction efforts with
  | nil => rfl
  | cons effort rest ih =>
    have free : ∀ place, (stepTariff pm).fee request place = 0 := by
      intro place
      simp only [Tariff.fee,owned,stepTariff,stepPrices,ite_self]
    have fees : (effort.interests.map ((stepTariff pm).fee request)).sum = 0 := by
      refine List.sum_eq_zero ?_
      intro fee member
      obtain ⟨place,_,rfl⟩ := List.mem_map.mp member
      exact free place
    rw [List.map_cons,List.sum_cons,ih,Tariff.charge,fees]
    cases served : effort.serves with
    | none => simp [stepsTaken,served]
    | some owner =>
      simp [stepsTaken,served,List.count_cons,owned,stepTariff,stepPrices]
      omega

theorem length_le_of_counts {owners : List Nat} {most bound : Nat}
    (counts : ∀ owner, owners.count owner ≤ if owner < bound then most else 0) :
    owners.length ≤ most * bound := by
  have inside : owners.toFinset ⊆ Finset.range bound := by
    intro owner member
    rw [Finset.mem_range]
    by_contra outside
    have none := counts owner
    rw [if_neg outside,Nat.le_zero,List.count_eq_zero] at none
    exact none (List.mem_toFinset.mp member)
  calc owners.length = ∑ owner ∈ owners.toFinset, owners.count owner :=
        (List.sum_toFinset_count_eq_length owners).symm
    _ ≤ ∑ owner ∈ Finset.range bound, owners.count owner := Finset.sum_le_sum_of_subset inside
    _ ≤ ∑ _owner ∈ Finset.range bound, most := by
      refine Finset.sum_le_sum ?_
      intro owner member
      have count := counts owner
      rwa [if_pos (Finset.mem_range.mp member)] at count
    _ = most * bound := by rw [Finset.sum_const,Finset.card_range,smul_eq_mul,Nat.mul_comm]

-- While an interest or a job is out for a request, a step for it is possible.
theorem owner_served (pm : SimplePolicyManager) {s : State} {request : Nat}
    (out : request ∈ s.owners) :
    ∃ action, s.serves action = some request ∧ (step pm s action).isSome = true := by
  rcases List.mem_append.mp out with waiting | queued
  · obtain ⟨item,member,owner⟩ := List.mem_map.mp waiting
    obtain ⟨index,there⟩ := List.mem_iff_getElem?.mp member
    exact ⟨.timedOut index,by simp [State.serves,there,owner],by simp [step,there]⟩
  · obtain ⟨job,member,owner⟩ := List.mem_map.mp queued
    obtain ⟨index,there⟩ := List.mem_iff_getElem?.mp member
    exact ⟨.execute index 0,by simp [State.serves,there,owner],by simp [step,there]⟩

-- Whatever the network answers: a request has at most four interests on a level, none
-- but on the levels up to the limit, and only so many steps; while something is out for
-- it a step is possible. Each step puts out what its label says.
theorem verification_bounded (pm : SimplePolicyManager) {efforts : List Effort} {s : State}
    (run : Traced (step pm) (fun _ _ => True) (effort pm) (initial pm) efforts s) :
    (∀ request level, interestsSent efforts request level ≤ 4) ∧
    (∀ request level, 0 < interestsSent efforts request level →
      request < s.requests.length ∧ 0 < level ∧ level ≤ pm.stepLimit) ∧
    (∀ request, stepsTaken efforts request ≤ 8 * pm.stepLimit) ∧
    (efforts.filterMap Effort.serves).length ≤ 8 * pm.stepLimit * s.requests.length ∧
    (∀ request ∈ s.owners, ∃ action, s.serves action = some request ∧ (step pm s action).isSome = true) ∧
    (∀ action next, step pm s action = some next → next.pending = s.kept action ++ expressed pm s action) := by
  have interests : ∀ request level, interestsSent efforts request level ≤
      if request < s.requests.length then if 0 < level ∧ level ≤ pm.stepLimit then 4 else 0 else 0 := by
    intro request level
    rw [← level_charge pm]
    exact (run_charged (levelTariff pm.stepLimit level) run request).2
  have budget : remaining pm 0 = 8 * pm.stepLimit := by
    simp only [remaining]
    omega
  have steps : ∀ request,
      stepsTaken efforts request ≤ if request < s.requests.length then 8 * pm.stepLimit else 0 := by
    intro request
    rw [← budget,← step_charge pm]
    exact (run_charged (stepTariff pm) run request).2
  refine ⟨?_,?_,?_,length_le_of_counts steps,fun request out => owner_served pm out,?_⟩
  · intro request level
    have sent := interests request level
    split at sent
    · split at sent <;> omega
    · omega
  · intro request level some
    have sent := interests request level
    split at sent
    · rename_i known
      split at sent
      · rename_i inside
        exact ⟨known,inside⟩
      · omega
    · omega
  · intro request
    have taken := steps request
    split at taken <;> omega
  · exact fun action next taken => step_expressed (run_charged (stepTariff pm) run 0).1 taken

-- A certificate that never comes: its interest and the three retries time out, and the
-- packet is refused.
theorem verification_bounded_timeouts : ∃ efforts s, Traced (step samplePolicy) (fun _ _ => True)
      (effort samplePolicy) (initial samplePolicy) efforts s ∧
    s.verdicts = [⟨0,false,sampleData⟩] ∧ interestsSent efforts 0 1 = 4 ∧ stepsTaken efforts 0 ≤ 24 := by
  have start : Traced (step samplePolicy) (fun _ _ => True) (effort samplePolicy) (initial samplePolicy) []
      (initial samplePolicy) := .nil _
  have refused := ((((((((start.snoc
    trivial (show step samplePolicy _ (.verifyData sampleData 10) = some _ from rfl)).snoc
    trivial (show step samplePolicy _ (.timedOut 0) = some _ from rfl)).snoc
    trivial (show step samplePolicy _ (.execute 0 10) = some _ from rfl)).snoc
    trivial (show step samplePolicy _ (.timedOut 0) = some _ from rfl)).snoc
    trivial (show step samplePolicy _ (.execute 0 10) = some _ from rfl)).snoc
    trivial (show step samplePolicy _ (.timedOut 0) = some _ from rfl)).snoc
    trivial (show step samplePolicy _ (.execute 0 10) = some _ from rfl)).snoc
    trivial (show step samplePolicy _ (.timedOut 0) = some _ from rfl)).snoc
    trivial (show step samplePolicy _ (.execute 0 10) = some _ from rfl)
  obtain ⟨_,_,steps,_⟩ := verification_bounded samplePolicy refused
  exact ⟨_,_,refused,rfl,rfl,steps 0⟩

end NdnCxx.Security
