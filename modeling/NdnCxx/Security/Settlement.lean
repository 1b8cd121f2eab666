import NdnCxx.Security.Soundness

namespace NdnCxx.Security

-- The request a continuation leads to, and how many jobs lie between.
def Callback.request : Callback → Nat
  | .verified request => request
  | .unverified request => request
  | .onCertificateVerified _ verifiedCallback _ => verifiedCallback.request
  | .onCertificateUnverified _ unverifiedCallback => unverifiedCallback.request
  | .onVerify dataCallback => dataCallback.request
  | .onVerifyError unverifiedCallback => unverifiedCallback.request

def Callback.depth : Callback → Nat
  | .verified _ => 0
  | .unverified _ => 0
  | .onCertificateVerified _ verifiedCallback _ => verifiedCallback.depth + 1
  | .onCertificateUnverified _ unverifiedCallback => unverifiedCallback.depth + 1
  | .onVerify dataCallback => dataCallback.depth
  | .onVerifyError unverifiedCallback => unverifiedCallback.depth

-- The work a packet verified at this step can still cause: on each level up to the
-- limit one interest with three retries, a timeout being an upcall and a job, then
-- one job a level on the way back.
def remaining (pm : SimplePolicyManager) (stepCount : Nat) : Nat := pm.stepLimit + 7 * (pm.stepLimit - stepCount)

def Closure.cost (pm : SimplePolicyManager) (closure : Closure) : Nat :=
  remaining pm closure.stepCount + 2 * closure.retry

def pendingToken (pm : SimplePolicyManager) (item : Interest × Closure) : Nat × Nat :=
  (item.2.timeoutUnverifiedCallback.request,item.2.cost pm + 1)

def Job.request : Job → Nat
  | .call callback _ => callback.request
  | .timeout closure _ => closure.timeoutUnverifiedCallback.request

def Job.cost (pm : SimplePolicyManager) : Job → Nat
  | .call callback _ => callback.depth
  | .timeout closure _ => closure.cost pm

def jobToken (pm : SimplePolicyManager) (job : Job) : Nat × Nat := (job.request,job.cost pm)

def ledger (pm : SimplePolicyManager) (s : State) : Ledger Nat where
  tokens := ↑(s.pending.map (pendingToken pm)) + ↑(s.jobs.map (jobToken pm))
  settled := ↑(s.verdicts.map Verdict.request)

theorem coe_append_singleton {α : Type} (items : List α) (item : α) :
    (↑(items ++ [item]) : Multiset α) = item ::ₘ ↑items :=
  Multiset.coe_eq_coe.mpr (List.perm_append_singleton item items)

theorem coe_eraseIdx {α : Type} {items : List α} {index : Nat} {item : α} (there : items[index]? = some item) :
    (↑items : Multiset α) = item ::ₘ ↑(items.eraseIdx index) := by
  obtain ⟨inside,rfl⟩ := List.getElem?_eq_some_iff.mp there
  exact Multiset.coe_eq_coe.mpr (List.getElem_cons_eraseIdx_perm inside).symm

section Moves
variable (pm : SimplePolicyManager) (s : State)

theorem ledger_execute (job : Job) : ledger pm (s.execute job) = (ledger pm s).put (jobToken pm job) := by
  simp only [ledger,State.execute,Ledger.put,List.map_append,List.map_cons,List.map_nil,coe_append_singleton,
    Multiset.add_cons]

theorem ledger_sendInterest (interest : Interest) (closure : Closure) :
    ledger pm (s.sendInterest interest closure) = (ledger pm s).put (pendingToken pm (interest,closure)) := by
  simp only [ledger,State.sendInterest,Ledger.put,List.map_append,List.map_cons,List.map_nil,coe_append_singleton,
    Multiset.cons_add]

theorem ledger_verdict (verdict : Verdict) :
    ledger pm {s with verdicts := s.verdicts ++ [verdict]} = (ledger pm s).settle verdict.request := by
  simp only [ledger,Ledger.settle,List.map_append,List.map_cons,List.map_nil,coe_append_singleton]

variable {pm s}

theorem ledger_pending {index : Nat} {item : Interest × Closure} (there : s.pending[index]? = some item) :
    ledger pm s = (ledger pm {s with pending := s.pending.eraseIdx index}).put (pendingToken pm item) := by
  have mapped : (s.pending.map (pendingToken pm))[index]? = some (pendingToken pm item) := by
    rw [List.getElem?_map,there]
    rfl
  simp only [ledger,Ledger.put,coe_eraseIdx mapped,List.eraseIdx_map,Multiset.cons_add]

theorem ledger_jobs {index : Nat} {job : Job} (there : s.jobs[index]? = some job) :
    ledger pm s = (ledger pm {s with jobs := s.jobs.eraseIdx index}).put (jobToken pm job) := by
  have mapped : (s.jobs.map (jobToken pm))[index]? = some (jobToken pm job) := by
    rw [List.getElem?_map,there]
    rfl
  simp only [ledger,Ledger.put,coe_eraseIdx mapped,List.eraseIdx_map,Multiset.add_cons]

theorem ledger_extends {next : State} (extended : Extends s next) : ledger pm next = ledger pm s := by
  simp only [ledger,extended.pending,extended.jobs,extended.verdicts]

end Moves

-- One obligation of the request was taken up within a budget and nothing was thrown.
structure Handled (pm : SimplePolicyManager) (request budget : Nat) (s next : State) : Prop where
  requests : next.requests = s.requests
  exceptions : next.exceptions = s.exceptions
  continues : Ledger.Continues request budget (ledger pm s) (ledger pm next)

section Handling
variable {pm : SimplePolicyManager} {answers : Data → Data → Prop} {now : Int} {s next : State} {data : Data}
  {verifiedCallback unverifiedCallback : Callback} {request depth budget : Nat}

theorem Handled.mono {more : Nat} (handled : Handled pm request budget s next) (le : budget ≤ more) :
    Handled pm request more s next :=
  ⟨handled.requests,handled.exceptions,Ledger.continues_mono le handled.continues⟩

theorem Handled.after {middle : State} (extended : Extends s middle) (handled : Handled pm request budget middle next) :
    Handled pm request budget s next where
  requests := handled.requests.trans extended.requests
  exceptions := handled.exceptions.trans extended.exceptions
  continues := ledger_extends extended ▸ handled.continues

-- Both continuations of an awaited packet lead to its request, over as many jobs.
theorem Awaits.leads {requests : List Data} {trace : List Event}
    (awaits : Awaits pm answers requests trace request data verifiedCallback unverifiedCallback depth) :
    verifiedCallback.request = request ∧ unverifiedCallback.request = request ∧
      verifiedCallback.depth = depth ∧ unverifiedCallback.depth = depth := by
  induction awaits with
  | request => exact ⟨rfl,rfl,rfl,rfl⟩
  | certificate _ _ _ _ ih =>
    obtain ⟨first,second,third,fourth⟩ := ih
    exact ⟨first,second,congrArg (· + 1) third,congrArg (· + 1) fourth⟩

theorem handled_execute {job : Job} (owner : job.request = request) (cost : job.cost pm < budget) :
    Handled pm request budget s (s.execute job) := by
  refine ⟨rfl,rfl,.inl ⟨job.cost pm,cost,?_⟩⟩
  rw [ledger_execute,← owner]
  rfl

theorem handled_verdict {verified : Bool} :
    Handled pm request budget s {s with verdicts := s.verdicts ++ [⟨request,verified,data⟩]} :=
  ⟨rfl,rfl,.inr (ledger_verdict pm s _)⟩

theorem handled_verified {requests : List Data} {trace : List Event}
    (awaits : Awaits pm answers requests trace request data verifiedCallback unverifiedCallback depth) :
    Handled pm request (depth + 1) s (invoke pm now verifiedCallback data s) := by
  cases awaits with
  | request => exact handled_verdict
  | certificate waiting =>
    obtain ⟨owner,_,below,_⟩ := waiting.leads
    exact handled_execute owner (by simp only [Job.cost,Callback.depth]; omega)

theorem handled_unverified {requests : List Data} {trace : List Event}
    (awaits : Awaits pm answers requests trace request data verifiedCallback unverifiedCallback depth) :
    Handled pm request (depth + 1) s (invoke pm now unverifiedCallback data s) := by
  cases awaits with
  | request => exact handled_verdict
  | certificate waiting =>
    obtain ⟨_,owner,_,below⟩ := waiting.leads
    exact handled_execute owner (by simp only [Job.cost,Callback.depth]; omega)

theorem depth_le_remaining (within : depth ≤ pm.stepLimit) (stepCount : Nat) : depth ≤ remaining pm stepCount :=
  within.trans (Nat.le_add_right _ _)

theorem handled_sendInterest {interest : Interest} {closure : Closure}
    (owner : closure.timeoutUnverifiedCallback.request = request) (cost : closure.cost pm + 1 < budget) :
    Handled pm request budget s (s.sendInterest interest closure) := by
  refine ⟨rfl,rfl,.inl ⟨closure.cost pm + 1,cost,?_⟩⟩
  rw [ledger_sendInterest,← owner]
  rfl

theorem handled_verifyData (s : State) (now : Int) {requests : List Data} {trace : List Event}
    (awaits : Awaits pm answers requests trace request data verifiedCallback unverifiedCallback depth)
    (evaluable : Evaluable pm (s.moment + 1) data depth) :
    Handled pm request (remaining pm depth + 1) s
      (verifyData pm now data verifiedCallback unverifiedCallback depth s) := by
  have consulted : Consulted pm now data verifiedCallback unverifiedCallback depth s
      (verifyData pm now data verifiedCallback unverifiedCallback depth s) := verifyData_consulted
  have enough : depth + 1 ≤ remaining pm depth + 1 := Nat.succ_le_succ (depth_le_remaining awaits.depth_le depth)
  generalize verifyData pm now data verifiedCallback unverifiedCallback depth s = next at consulted ⊢
  cases consulted with
  | threw _ failed => exact absurd evaluable failed
  | refused extended => exact .after extended ((handled_unverified awaits).mono enough)
  | exempt free => exact (handled_verified awaits).mono enough
  | @accepted s' name certificate extended cleared located verifies source =>
    have verified : Handled pm request (depth + 1) (s'.record (.accepted data certificate))
        (invoke pm now verifiedCallback data (s'.record (.accepted data certificate))) := handled_verified awaits
    exact .after extended ⟨verified.requests,verified.exceptions,(verified.mono enough).continues⟩
  | asked extended cleared below located =>
    obtain ⟨_,owner,_,_⟩ := awaits.leads
    have within := awaits.depth_le
    refine .after extended (handled_sendInterest owner ?_)
    -- One level down, and the one interest with its three retries.
    simp only [Closure.cost,remaining]
    omega

end Handling

-- No regex throws on the packet, and where the rules are reached its locator is a key
-- name.
def keyed (pm : SimplePolicyManager) (moment : Nat) (data : Data) (stepCount : Nat) : Bool :=
  pm.evaluates moment data &&
    match pm.requireVerify data,data.signature.keyLocator with
    | .ok true,.keyname _ => true
    | .ok true,_ => pm.stepLimit == stepCount
    | _,_ => true

-- A verified certificate can be read as one and, if it is valid, its key verifies the
-- packet that waits for it.
def fits (pm : SimplePolicyManager) (now : Int) (data signCertificate : Data) : Bool :=
  match identityCertificate pm.decode signCertificate with
  | .ok certificate => certificate.isTooLate now || certificate.isTooEarly now ||
      pm.verifySignature data certificate.publicKeyInfo
  | .error _ => false

def admissible (pm : SimplePolicyManager) (s : State) : Action → Bool
  | .verifyData data _ => keyed pm (s.moment + 1) data 0
  | .content index blob _ =>
    match s.pending[index]?,Data.decodeFromWire pm.std blob with
    | some (_,closure),.ok data => keyed pm (s.moment + 1) data closure.stepCount
    | _,_ => true
  | .execute index now =>
    match s.jobs[index]? with
    | some (.call (.onCertificateVerified data _ _) signCertificate) => fits pm now data signCertificate
    | _ => true
  | .timedOut _ => true
  | .clean _ => true

def Action.opens (s : State) : Action → Option Nat
  | .verifyData _ _ => some s.requests.length
  | _ => none

-- The steps of the network and of the executor.
def Action.work : Action → Nat
  | .content _ _ _ => 1
  | .timedOut _ => 1
  | .execute _ _ => 1
  | .verifyData _ _ => 0
  | .clean _ => 0

theorem evaluable_of_keyed {pm : SimplePolicyManager} {moment : Nat} {data : Data} {stepCount : Nat}
    (key : keyed pm moment data stepCount = true) : Evaluable pm moment data stepCount := by
  obtain ⟨evaluates,locator⟩ := Bool.and_eq_true_iff.mp key
  refine ⟨evaluates,?_⟩
  intro required below
  rw [required] at locator
  cases located : data.signature.keyLocator with
  | keyname name => exact ⟨name,rfl⟩
  | notset => exact absurd (by simpa [located] using locator) below
  | key bits => exact absurd (by simpa [located] using locator) below
  | certificate bits => exact absurd (by simpa [located] using locator) below

section Steps
variable {pm : SimplePolicyManager} {answers : Data → Data → Prop} {now : Int} {s next : State}

theorem handled_certificate {request depth : Nat} {data signCertificate : Data}
    {verifiedCallback unverifiedCallback : Callback} {requests : List Data} {trace : List Event}
    (awaits : Awaits pm answers requests trace request data verifiedCallback unverifiedCallback depth)
    (fitting : fits pm now data signCertificate = true) :
    Handled pm request (depth + 1) s
      (invoke pm now (.onCertificateVerified data verifiedCallback unverifiedCallback) signCertificate s) := by
  rw [invoke]
  unfold fits at fitting
  cases made : identityCertificate pm.decode signCertificate with
  | error e => simp [made] at fitting
  | ok certificate =>
    simp only [made] at fitting ⊢
    by_cases valid : certificate.Valid now
    · have verifies : pm.verifySignature data certificate.publicKeyInfo = true := by
        simpa [valid.1,valid.2] using fitting
      rw [if_pos (by simp [valid.1,valid.2]),if_pos verifies]
      -- Neither the cache nor the trace is part of the ledger.
      have verified : Handled pm request (depth + 1)
          ((s.insertCertificate now certificate signCertificate).record (.accepted data certificate))
          (invoke pm now verifiedCallback data
            ((s.insertCertificate now certificate signCertificate).record (.accepted data certificate))) :=
        handled_verified awaits
      exact ⟨verified.requests,verified.exceptions,verified.continues⟩
    · rw [if_neg (by simpa [IdentityCertificate.Valid] using valid)]
      exact handled_unverified awaits

theorem handled_timeout {interest : Interest} {closure : Closure} {requests : List Data} {trace : List Event}
    (outstanding : Outstanding pm answers requests trace interest closure) :
    Handled pm closure.timeoutUnverifiedCallback.request (closure.cost pm) s
      (onCertificateInterestTimeout pm now closure interest s) := by
  unfold onCertificateInterestTimeout
  cases outstanding with
  | @sent request depth retry _ _ unverifiedCallback _ awaits cleared within located =>
    obtain ⟨_,owner,_,_⟩ := awaits.leads
    split
    · rename_i more
      refine handled_sendInterest rfl ?_
      simp only [Closure.cost] at more ⊢
      omega
    · have refused : Handled pm request (depth + 1) s (invoke pm now unverifiedCallback _ s) :=
        handled_unverified awaits
      rw [owner]
      refine refused.mono ?_
      exact (depth_le_remaining within _).trans (Nat.le_add_right _ _)

theorem handled_job {job : Job} {requests : List Data} {trace : List Event}
    (queued : Queued pm answers requests trace job)
    (fitting : ∀ data verifiedCallback unverifiedCallback signCertificate,
      job = .call (.onCertificateVerified data verifiedCallback unverifiedCallback) signCertificate →
        fits pm now data signCertificate = true) :
    0 < job.cost pm ∧ Handled pm job.request (job.cost pm) s (runJob pm now job s) := by
  cases queued with
  | verified awaits cleared answered trusted =>
    obtain ⟨owner,_,below,_⟩ := awaits.leads
    have handled := handled_certificate (s := s) awaits (fitting _ _ _ _ rfl)
    simp only [Job.request,Job.cost,Callback.request,Callback.depth,owner,below]
    exact ⟨Nat.succ_pos _,handled⟩
  | @unverified request depth data _ _ unverifiedCallback awaits =>
    obtain ⟨_,owner,_,below⟩ := awaits.leads
    have handled : Handled pm request (depth + 1) s (invoke pm now unverifiedCallback data s) := handled_unverified awaits
    simp only [Job.request,Job.cost,Callback.request,Callback.depth,owner,below]
    exact ⟨Nat.succ_pos _,handled⟩
  | @timeout interest closure outstanding =>
    refine ⟨?_,handled_timeout outstanding⟩
    cases outstanding with
    | sent awaits cleared within located =>
      have positive := depth_le_remaining within
      simp only [Job.cost,Closure.cost]
      exact Nat.lt_of_lt_of_le (Nat.succ_pos _) ((positive _).trans (Nat.le_add_right _ _))

theorem job_fits {index : Nat} {job : Job} (there : s.jobs[index]? = some job)
    (met : admissible pm s (.execute index now) = true) (data : Data) (verifiedCallback unverifiedCallback : Callback)
    (signCertificate : Data)
    (shape : job = .call (.onCertificateVerified data verifiedCallback unverifiedCallback) signCertificate) :
    fits pm now data signCertificate = true := by
  subst shape
  simpa [admissible,there] using met

-- Every step of the code is a step of the ledger.
theorem step_ledger {action : Action} (chained : Chained pm (fun _ _ => True) s)
    (met : admissible pm s action = true) (taken : step pm s action = some next) :
    next.exceptions = s.exceptions ∧ next.requests.length = s.requests.length + (action.opens s).toList.length ∧
      Ledger.Step (remaining pm 0) (ledger pm s) (action.opens s) action.work (ledger pm next) := by
  cases step_stepped taken with
  | verifyData data now =>
    have awaits : Awaits pm (fun _ _ => True) (s.requests ++ [data]) s.trace s.requests.length data
        (.verified s.requests.length) (.unverified s.requests.length) 0 := .request (by simp)
    have handled := handled_verifyData {s with requests := s.requests ++ [data]} now awaits
      (evaluable_of_keyed met)
    refine ⟨handled.exceptions,?_,.request handled.continues⟩
    rw [handled.requests]
    simp [Action.opens]
  | @content index blob now interest closure data there decoded =>
    have key : keyed pm (s.moment + 1) data closure.stepCount = true := by simpa [admissible,there,decoded] using met
    cases chained.pending (interest,closure) (List.mem_of_getElem? there) with
    | sent awaits cleared within located =>
      obtain ⟨_,owner,_,_⟩ := awaits.leads
      have handled := handled_verifyData {s with pending := s.pending.eraseIdx index} now
        (.certificate awaits cleared within trivial) (evaluable_of_keyed key)
      refine ⟨handled.exceptions,congrArg List.length handled.requests,?_⟩
      rw [ledger_pending there,pendingToken,owner]
      refine .work (Nat.succ_pos _) (handled.mono ?_).continues
      exact Nat.succ_le_succ (Nat.le_add_right _ _)
  | @timedOut index interest closure there =>
    have handled : Handled pm closure.timeoutUnverifiedCallback.request (closure.cost pm + 1)
        {s with pending := s.pending.eraseIdx index}
        ({s with pending := s.pending.eraseIdx index}.execute (.timeout closure interest)) :=
      handled_execute rfl (Nat.lt_succ_self _)
    refine ⟨rfl,rfl,?_⟩
    rw [ledger_pending there]
    exact .work (Nat.succ_pos _) handled.continues
  | @execute index now job there =>
    obtain ⟨positive,handled⟩ := handled_job (s := {s with jobs := s.jobs.eraseIdx index})
      (chained.jobs job (List.mem_of_getElem? there)) (job_fits there met)
    refine ⟨handled.exceptions,congrArg List.length handled.requests,?_⟩
    rw [ledger_jobs there]
    exact .work positive handled.continues
  | clean now => exact ⟨rfl,rfl,.idle _⟩

end Steps

-- The requests that interests and jobs are still out for.
def State.owners (s : State) : List Nat :=
  s.pending.map (fun item => item.2.timeoutUnverifiedCallback.request) ++ s.jobs.map Job.request

def State.verdictCount (s : State) (request : Nat) : Nat := (s.verdicts.map Verdict.request).count request

theorem ledger_count (pm : SimplePolicyManager) (s : State) (request : Nat) :
    (ledger pm s).count request = s.owners.count request + s.verdictCount request := by
  simp only [ledger,Ledger.count,State.owners,State.verdictCount,Multiset.coe_add,Multiset.map_coe,Multiset.coe_count,
    List.map_append,List.map_map]
  rfl

structure Settling (pm : SimplePolicyManager) (s : State) : Prop where
  chained : Chained pm (fun _ _ => True) s
  quiet : s.exceptions = []
  balanced : ∀ request, (ledger pm s).count request = if request < s.requests.length then 1 else 0

theorem Settling.step {pm : SimplePolicyManager} {s next : State} {action : Action}
    (settling : Settling pm s) (met : admissible pm s action = true) (taken : step pm s action = some next) :
    Settling pm next := by
  obtain ⟨exceptions,requests,moved⟩ := step_ledger settling.chained met taken
  refine ⟨settling.chained.step (by intros; trivial) taken,exceptions.trans settling.quiet,?_⟩
  intro request
  rw [Ledger.step_count moved,settling.balanced]
  cases action with
  | verifyData data now =>
    have longer : next.requests.length = s.requests.length + 1 := requests
    simp only [Action.opens,Option.some.injEq,longer]
    rcases Nat.lt_trichotomy request s.requests.length with old | new | unknown
    · rw [if_pos old,if_neg (by omega),if_pos (by omega)]
    · rw [if_neg (by omega),if_pos new.symm,if_pos (by omega)]
    · rw [if_neg (by omega),if_neg (by omega),if_neg (by omega)]
  | content index blob now => simp [Action.opens,requests]
  | timedOut index => simp [Action.opens,requests]
  | execute index now => simp [Action.opens,requests]
  | clean now => simp [Action.opens,requests]

theorem enabled_of_owners (pm : SimplePolicyManager) {s : State} (owed : s.owners ≠ []) :
    ∃ action, action.work = 1 ∧ (step pm s action).isSome = true := by
  cases pending : s.pending with
  | cons item rest => exact ⟨.timedOut 0,rfl,by simp [step,pending]⟩
  | nil =>
    cases jobs : s.jobs with
    | cons job rest => exact ⟨.execute 0 0,rfl,by simp [step,jobs]⟩
    | nil => exact absurd (by simp [State.owners,pending,jobs]) owed

section Run
variable {pm : SimplePolicyManager} {actions : List Action} {s : State}

end Run

end NdnCxx.Security
