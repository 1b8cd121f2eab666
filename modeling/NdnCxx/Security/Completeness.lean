import NdnCxx.Security.Settlement

namespace NdnCxx.Security

section Honest
variable (pm : SimplePolicyManager) (serves : Name → Data → Bool)

-- The rules let the packet through whenever they are asked, and no regex throws on it.
def Admitted (data : Data) : Prop := ∀ moment, pm.evaluates moment data = true ∧ pm.Allowed moment data

-- The packets that the policy should accept where the network answers an interest for a
-- name with nothing but what it serves under it: `levels` certificates lie between the
-- packet and an anchor, or a packet that needs none, whichever answers come.
inductive Certified : ℕ → Data → Prop where
  | exempt {levels : ℕ} {data : Data} : pm.Exempt data → (∀ moment, pm.evaluates moment data = true) →
      Certified levels data
  | anchored {levels : ℕ} {data : Data} {name : Name} {certificate : IdentityCertificate} : Admitted pm data →
      data.signature.keyLocator = .keyname name → pm.findAnchor name = some certificate →
      pm.verifySignature data certificate.publicKeyInfo = true → Certified levels data
  | fetched {levels : ℕ} {data : Data} {name : Name} : Admitted pm data →
      data.signature.keyLocator = .keyname name → pm.findAnchor name = none →
      (∀ signCertificate, serves name signCertificate = true → Certified levels signCertificate) →
      (∀ signCertificate, serves name signCertificate = true → ∃ certificate,
        identityCertificate pm.decode signCertificate = .ok certificate ∧
          pm.verifySignature data certificate.publicKeyInfo = true) →
      Certified (levels + 1) data

-- The network answers with what it serves, within the retries, and a verified certificate
-- is tried inside its validity period.
def live (s : State) : Action → Bool
  | .content index blob _ =>
    match s.pending[index]?,Data.decodeFromWire pm.std blob with
    | some (interest,_),.ok data => serves interest.name data
    | _,_ => true
  | .timedOut index =>
    match s.pending[index]? with
    | some (_,closure) => decide (0 < closure.retry)
    | none => true
  | .execute index now =>
    match s.jobs[index]? with
    | some (.call (.onCertificateVerified _ _ _) signCertificate) =>
      match identityCertificate pm.decode signCertificate with
      | .ok certificate => !certificate.isTooLate now && !certificate.isTooEarly now
      | .error _ => true
    | _ => true
  | .verifyData _ _ => true
  | .clean _ => true

-- A certificate goes by the name that it was asked for under.
def Named : Prop := ∀ name signCertificate certificate, serves name signCertificate = true →
  identityCertificate pm.decode signCertificate = .ok certificate → withoutVersion certificate.name = name

-- What an interest was sent for: a packet whose locator names no anchor.
def Unanchored (data : Data) : Prop :=
  ∀ name, data.signature.keyLocator = .keyname name → pm.findAnchor name = none

def Answers (data signCertificate : Data) : Prop :=
  ∃ name, data.signature.keyLocator = .keyname name ∧ pm.findAnchor name = none ∧ serves name signCertificate = true

-- Certificates that the cache holds were served under the name it has them by.
def CacheServed (s : State) : Prop := ∀ name certificate, s.certificateCache.Holds name certificate →
  ∃ signCertificate, serves name signCertificate = true ∧ identityCertificate pm.decode signCertificate = .ok certificate

end Honest

section Rules
variable {pm : SimplePolicyManager} {serves : Name → Data → Bool} {data : Data} {moment : ℕ}

theorem anyM_of_false {α : Type} {test : α → Except Exception Bool} {items : List α} (missed : ∀ item ∈ items, test item = .ok false) :
    items.anyM test = .ok false := by
  obtain ⟨found,total⟩ := anyM_total (fun item member => ⟨false,missed item member⟩)
  cases found with
  | false => exact total
  | true =>
    obtain ⟨item,member,hit⟩ := anyM_true total
    rw [missed item member] at hit
    cases hit

theorem anyM_of_true {α : Type} {test : α → Except Exception Bool} {items : List α}
    (fine : ∀ item ∈ items, ∃ found, test item = .ok found) {item : α} (member : item ∈ items) (hit : test item = .ok true) :
    items.anyM test = .ok true := by
  obtain ⟨found,total⟩ := anyM_total fine
  cases found with
  | true => exact total
  | false =>
    rw [anyM_false total item member] at hit
    cases hit

theorem match_of_satisfy {rule : IdentityPolicyRule} (satisfied : rule.satisfy moment data = .ok true) :
    rule.matchDataName data = .ok true := by
  obtain ⟨name,located⟩ := IdentityPolicyRule.satisfy_keyname satisfied
  simp only [IdentityPolicyRule.satisfy,located,IdentityPolicyRule.satisfyNames] at satisfied
  unfold IdentityPolicyRule.matchDataName
  cases matched : rule.dataNameRegex.matchName data.name with
  | error e => simp [matched,bind,Except.bind] at satisfied
  | ok found =>
    cases found with
    | true => rfl
    | false => simp [matched,bind,Except.bind,pure,Except.pure] at satisfied

theorem allowed_not_exempt (allowed : pm.Allowed moment data) : ¬pm.Exempt data := by
  rintro ⟨apart,_⟩
  obtain ⟨_,rule,member,satisfied⟩ := allowed
  have matched := match_of_satisfy satisfied
  rw [apart rule (List.mem_append_left _ member)] at matched
  cases matched

theorem allowed_required (evaluates : pm.evaluates moment data = true) (allowed : pm.Allowed moment data) :
    pm.requireVerify data = .ok true := by
  obtain ⟨_,rule,member,satisfied⟩ := allowed
  have positive : pm.verifyPolicies.anyM (fun rule => rule.matchDataName data) = .ok true := by
    refine anyM_of_true ?_ member (match_of_satisfy satisfied)
    intro rule member
    exact IdentityPolicyRule.match_total (SimplePolicyManager.rule_evaluates evaluates (List.mem_append_left _ member))
  simp [SimplePolicyManager.requireVerify,positive,bind,Except.bind,pure,Except.pure]

theorem exempt_required (free : pm.Exempt data) : pm.requireVerify data = .ok false := by
  have positive : pm.verifyPolicies.anyM (fun rule => rule.matchDataName data) = .ok false :=
    anyM_of_false (fun rule member => free.1 rule (List.mem_append_left _ member))
  have negative : pm.mustFailVerify.anyM (fun rule => rule.matchDataName data) = .ok false :=
    anyM_of_false (fun rule member => free.1 rule (List.mem_append_right _ member))
  simp [SimplePolicyManager.requireVerify,positive,negative,bind,Except.bind,pure,Except.pure]

theorem exempt_skipped (free : pm.Exempt data) (evaluates : pm.evaluates moment data = true) :
    pm.skipVerifyAndTrust data = .ok true := by
  obtain ⟨_,regex,member,matched⟩ := free
  refine anyM_of_true ?_ member matched
  intro regex member
  exact ok_of_isOk (List.all_eq_true.mp (Bool.and_eq_true_iff.mp evaluates).2 regex member)

-- What becomes of a packet that the rules let through, by what is at hand for its key.
theorem verifyData_allowed {now : Int} {verifiedCallback unverifiedCallback : Callback} {stepCount : ℕ} {s : State} {name : Name}
    (evaluates : pm.evaluates (s.moment + 1) data = true) (allowed : pm.Allowed (s.moment + 1) data)
    (located : data.signature.keyLocator = .keyname name) (below : pm.stepLimit ≠ stepCount) :
    verifyData pm now data verifiedCallback unverifiedCallback stepCount s =
      match (s.consult data).lookup pm name data with
      | (some certificate,s') =>
        if pm.verifySignature data certificate.publicKeyInfo then
          invoke pm now verifiedCallback data (s'.record (.accepted data certificate))
        else invoke pm now unverifiedCallback data s'
      | (none,s') => s'.sendInterest (certificateInterest name) ⟨.onCertificateVerified data verifiedCallback unverifiedCallback,
          3,unverifiedCallback,data,.onCertificateUnverified data unverifiedCallback,stepCount + 1⟩ := by
  have negative : pm.mustFailVerify.anyM (fun rule => rule.satisfy (s.consult data).moment data) = .ok false :=
    anyM_of_false allowed.1
  have positive : pm.verifyPolicies.anyM (fun rule => rule.satisfy (s.consult data).moment data) = .ok true := by
    obtain ⟨_,rule,member,satisfied⟩ := allowed
    refine anyM_of_true ?_ member satisfied
    intro rule member
    exact IdentityPolicyRule.satisfy_total
      (SimplePolicyManager.rule_evaluates evaluates (List.mem_append_left _ member)) located
  rw [verifyData,allowed_required evaluates allowed]
  simp only [checkVerificationPolicy,if_neg below,negative,positive,located,bind,Except.bind,pure,Except.pure,
    Bool.false_eq_true,if_false,if_true]
  cases looked : (s.consult data).lookup pm name data with
  | mk result s' =>
    cases result with
    | none => rfl
    | some certificate =>
      simp only
      split
      · rename_i thrown
        split at thrown <;> cases thrown
      · rename_i same
        split at same
        · rename_i verifies
          cases same
          rw [if_pos verifies]
        · rename_i verifies
          cases same
          rw [if_neg verifies]
      · rename_i same
        split at same <;> cases same

theorem lookup_unanchored {s s' : State} {name : Name} (missed : s.lookup pm name data = (none,s')) :
    pm.findAnchor name = none ∧ s'.pending = s.pending := by
  unfold State.lookup at missed
  cases anchored : pm.findAnchor name with
  | some anchor => simp [anchored] at missed
  | none =>
    cases looked : s.certificateCache.getCertificate name with
    | mk result cache =>
      cases result with
      | some hit => simp [anchored,looked] at missed
      | none =>
        simp only [anchored,looked,Prod.mk.injEq,true_and] at missed
        subst missed
        exact ⟨rfl,rfl⟩

theorem lookup_pending (s : State) (name : Name) : (s.lookup pm name data).2.pending = s.pending :=
  (lookup_extends pm s name data).1.pending

theorem invoke_pending (now : Int) (callback : Callback) (data : Data) (s : State) :
    (invoke pm now callback data s).pending = s.pending := by
  induction callback generalizing data s with
  | verified | unverified | onVerify | onVerifyError => rfl
  | onCertificateVerified held verifiedCallback unverifiedCallback accepts refuses =>
    rw [invoke]
    split
    · rfl
    · split
      · split
        · exact accepts _ _
        · rfl
      · exact refuses _ _
  | onCertificateUnverified held unverifiedCallback refuses => exact refuses _ _

-- An interest goes out only for a certificate that is no anchor.
theorem check_unanchored {now : Int} {stepCount : ℕ} {verifiedCallback unverifiedCallback : Callback} {s s' : State}
    {nextStep : Option ValidationRequest}
    (checked : checkVerificationPolicy pm now data stepCount verifiedCallback unverifiedCallback s = .ok (nextStep,s')) :
    s'.pending = s.pending ∧ (nextStep.isSome = true → Unanchored pm data) := by
  unfold checkVerificationPolicy at checked
  by_cases limit : pm.stepLimit = stepCount
  · rw [if_pos limit] at checked
    cases checked
    exact ⟨invoke_pending now _ data s,nofun⟩
  rw [if_neg limit] at checked
  cases negative : pm.mustFailVerify.anyM (fun rule => rule.satisfy s.moment data) with
  | error e => simp [negative,bind,Except.bind] at checked
  | ok failed =>
    cases failed with
    | true =>
      simp only [negative,bind,Except.bind,pure,Except.pure,if_true] at checked
      cases checked
      exact ⟨invoke_pending now _ data s,nofun⟩
    | false =>
      cases positive : pm.verifyPolicies.anyM (fun rule => rule.satisfy s.moment data) with
      | error e => simp [negative,positive,bind,Except.bind] at checked
      | ok satisfied =>
        simp only [negative,positive,bind,Except.bind,pure,Except.pure,Bool.false_eq_true,if_false] at checked
        cases satisfied with
        | false =>
          cases checked
          exact ⟨invoke_pending now _ data s,nofun⟩
        | true =>
          simp only [if_true] at checked
          cases located : data.signature.keyLocator with
          | keyname name =>
            cases looked : s.lookup pm name data with
            | mk result s'' =>
              have kept : s''.pending = s.pending := by
                rw [← @lookup_pending pm data s name,looked]
              simp only [located,looked] at checked
              cases result with
              | none =>
                cases checked
                refine ⟨kept,fun _ => ?_⟩
                intro other same
                rw [located] at same
                cases same
                exact (lookup_unanchored looked).1
              | some certificate =>
                simp only at checked
                split at checked
                · cases checked
                  exact ⟨(invoke_pending now _ data _).trans kept,nofun⟩
                · cases checked
                  exact ⟨(invoke_pending now _ data _).trans kept,nofun⟩
          | notset | key | certificate =>
            simp only [located] at checked
            cases checked
            exact ⟨invoke_pending now _ data s,nofun⟩

theorem verifyData_unanchored {now : Int} {stepCount : ℕ} {verifiedCallback unverifiedCallback : Callback} {s : State} :
    ∀ item ∈ (verifyData pm now data verifiedCallback unverifiedCallback stepCount s).pending,
      item ∈ s.pending ∨ Unanchored pm item.2.timeoutData := by
  intro item member
  unfold verifyData at member
  split at member
  · exact .inl member
  · split at member
    · exact .inl member
    · rename_i s' checked
      exact .inl ((check_unanchored checked).1 ▸ member)
    · rename_i nextStep s' checked
      obtain ⟨kept,unanchored⟩ := check_unanchored checked
      rcases List.mem_append.mp member with old | new
      · exact .inl (kept ▸ old)
      · rw [List.mem_singleton.mp new]
        exact .inr (unanchored rfl)
  · split at member
    · exact .inl member
    · rw [invoke_pending] at member
      exact .inl member
    · rw [invoke_pending] at member
      exact .inl member

end Rules

-- The job that carries a refusal back.
def Job.refuses : Job → Bool
  | .call (.onCertificateUnverified _ _) _ => true
  | .call _ _ => false
  | .timeout _ _ => false

def Job.fine (pm : SimplePolicyManager) : Job → Prop
  | .timeout closure _ => Unanchored pm closure.timeoutData ∧ 0 < closure.retry
  | .call _ _ => True

-- All that a step puts up belongs to one request; where its packet is one to accept, that
-- is exactly one interest, one job that refuses nothing, or the positive verdict.
structure Answered (pm : SimplePolicyManager) (request : ℕ) (good : Prop) (s next : State) : Prop where
  requests : next.requests = s.requests
  puts : ∃ sent queued given, next.pending = s.pending ++ sent ∧ next.jobs = s.jobs ++ queued ∧
    next.verdicts = s.verdicts ++ given ∧ (∀ item ∈ sent, item.2.timeoutUnverifiedCallback.request = request) ∧
    (∀ job ∈ queued, job.request = request ∧ job.fine pm) ∧ (∀ verdict ∈ given, verdict.request = request) ∧
    (good → sent.length + queued.length + given.length = 1 ∧ (∀ job ∈ queued, job.refuses = false) ∧
      ∀ verdict ∈ given, verdict.verified = true)

section Answering
variable {pm : SimplePolicyManager} {serves : Name → Data → Bool} {request depth : ℕ} {good : Prop} {s next : State}
  {now : Int} {data : Data} {verifiedCallback unverifiedCallback : Callback} {requests : List Data} {trace : List Event}

theorem Answered.after {middle : State} (extended : Extends s middle) (answered : Answered pm request good middle next) :
    Answered pm request good s next := by
  obtain ⟨same,puts⟩ := answered
  rw [extended.requests] at same
  rw [extended.pending,extended.jobs,extended.verdicts] at puts
  exact ⟨same,puts⟩

theorem answered_nothing (bad : ¬good) (same : next.requests = s.requests) (pending : next.pending = s.pending)
    (jobs : next.jobs = s.jobs) (verdicts : next.verdicts = s.verdicts) : Answered pm request good s next :=
  ⟨same,[],[],[],by simpa using pending,by simpa using jobs,by simpa using verdicts,List.forall_mem_nil _,List.forall_mem_nil _,List.forall_mem_nil _,fun holds => absurd holds bad⟩

theorem answered_sendInterest {interest : Interest} {closure : Closure}
    (owner : closure.timeoutUnverifiedCallback.request = request) :
    Answered pm request good s (s.sendInterest interest closure) := by
  refine ⟨rfl,[(interest,closure)],[],[],rfl,by simp [State.sendInterest],by simp [State.sendInterest],?_,List.forall_mem_nil _,List.forall_mem_nil _,
    fun _ => ⟨by simp,List.forall_mem_nil _,List.forall_mem_nil _⟩⟩
  intro item member
  rw [List.mem_singleton.mp member]
  exact owner

theorem answered_execute {job : Job} (owner : job.request = request) (fine : job.fine pm)
    (accepts : good → job.refuses = false) : Answered pm request good s (s.execute job) := by
  refine ⟨rfl,[],[job],[],by simp [State.execute],rfl,by simp [State.execute],List.forall_mem_nil _,?_,List.forall_mem_nil _,
    fun holds => ⟨by simp,?_,List.forall_mem_nil _⟩⟩
  · intro other member
    rw [List.mem_singleton.mp member]
    exact ⟨owner,fine⟩
  · intro other member
    rw [List.mem_singleton.mp member]
    exact accepts holds

theorem answered_verified
    (awaits : Awaits pm (Answers pm serves) requests trace request data verifiedCallback unverifiedCallback depth) :
    Answered pm request good s (invoke pm now verifiedCallback data s) := by
  cases awaits with
  | request =>
    refine ⟨rfl,[],[],[⟨request,true,data⟩],by simp [invoke],by simp [invoke],rfl,List.forall_mem_nil _,List.forall_mem_nil _,?_,fun _ => ⟨by simp,List.forall_mem_nil _,?_⟩⟩
    · intro verdict member
      rw [List.mem_singleton.mp member]
    · intro verdict member
      rw [List.mem_singleton.mp member]
  | certificate waiting =>
    obtain ⟨owner,_,_,_⟩ := waiting.leads
    exact answered_execute owner trivial (fun _ => rfl)

theorem answered_unverified (bad : ¬good)
    (awaits : Awaits pm (Answers pm serves) requests trace request data verifiedCallback unverifiedCallback depth) :
    Answered pm request good s (invoke pm now unverifiedCallback data s) := by
  cases awaits with
  | request =>
    refine ⟨rfl,[],[],[⟨request,false,data⟩],by simp [invoke],by simp [invoke],rfl,List.forall_mem_nil _,List.forall_mem_nil _,?_,fun holds => absurd holds bad⟩
    intro verdict member
    rw [List.mem_singleton.mp member]
  | certificate waiting =>
    obtain ⟨_,owner,_,_⟩ := waiting.leads
    exact answered_execute owner trivial (fun holds => absurd holds bad)

-- A packet to accept, with room for its certificates below the step limit.
def Reaches (pm : SimplePolicyManager) (serves : Name → Data → Bool) (depth : ℕ) (data : Data) : Prop :=
  ∃ levels, Certified pm serves levels data ∧ depth + levels < pm.stepLimit

theorem answered_accepted {certificate : IdentityCertificate}
    (awaits : Awaits pm (Answers pm serves) requests trace request data verifiedCallback unverifiedCallback depth) :
    Answered pm request good s (invoke pm now verifiedCallback data (s.record (.accepted data certificate))) := by
  have verified : Answered pm request good (s.record (.accepted data certificate))
      (invoke pm now verifiedCallback data (s.record (.accepted data certificate))) := answered_verified awaits
  exact ⟨verified.requests,verified.puts⟩

theorem answered_verifyData_good (reaches : Reaches pm serves depth data) (served : CacheServed pm serves s)
    (awaits : Awaits pm (Answers pm serves) requests trace request data verifiedCallback unverifiedCallback depth) :
    Answered pm request good s (verifyData pm now data verifiedCallback unverifiedCallback depth s) := by
  obtain ⟨levels,certified,room⟩ := reaches
  have below : pm.stepLimit ≠ depth := by omega
  cases certified with
  | exempt free evaluates =>
    rw [verifyData,exempt_required free]
    simp only [exempt_skipped free (evaluates 0)]
    exact answered_verified awaits
  | @anchored _ _ name certificate admitted located anchored verifies =>
    obtain ⟨evaluates,allowed⟩ := admitted (s.moment + 1)
    rw [verifyData_allowed evaluates allowed located below]
    simp only [State.lookup,anchored,if_pos verifies]
    exact .after (consult_extends s data) (answered_accepted awaits)
  | @fetched _ _ name admitted located unanchored certifies fits =>
    obtain ⟨evaluates,allowed⟩ := admitted (s.moment + 1)
    rw [verifyData_allowed evaluates allowed located below]
    obtain ⟨extended,source⟩ := lookup_extends pm (s.consult data) name data
    have through := (consult_extends s data).trans extended
    cases looked : (s.consult data).lookup pm name data with
    | mk result s' =>
      rw [looked] at source through
      cases result with
      | none =>
        obtain ⟨_,owner,_,_⟩ := awaits.leads
        exact .after through (answered_sendInterest owner)
      | some certificate =>
        have verifies : pm.verifySignature data certificate.publicKeyInfo = true := by
          rcases source certificate rfl with anchored | ⟨_,held⟩
          · rw [unanchored] at anchored
            cases anchored
          · obtain ⟨signCertificate,given,made⟩ := served name certificate ((consult_extends s data).holds held)
            obtain ⟨other,same,verifies⟩ := fits signCertificate given
            rw [made] at same
            cases same
            exact verifies
        simp only [if_pos verifies]
        exact .after through (answered_accepted awaits)

theorem answered_verifyData (served : CacheServed pm serves s)
    (awaits : Awaits pm (Answers pm serves) requests trace request data verifiedCallback unverifiedCallback depth) :
    Answered pm request (Reaches pm serves depth data) s
      (verifyData pm now data verifiedCallback unverifiedCallback depth s) := by
  by_cases reaches : Reaches pm serves depth data
  · exact answered_verifyData_good reaches served awaits
  · have consulted : Consulted pm now data verifiedCallback unverifiedCallback depth s
        (verifyData pm now data verifiedCallback unverifiedCallback depth s) := verifyData_consulted
    generalize verifyData pm now data verifiedCallback unverifiedCallback depth s = next at consulted ⊢
    cases consulted with
    | threw extended _ => exact .after extended (answered_nothing reaches rfl rfl rfl rfl)
    | refused extended => exact .after extended (answered_unverified reaches awaits)
    | exempt free => exact answered_verified awaits
    | accepted extended => exact .after extended (answered_accepted awaits)
    | asked extended =>
      obtain ⟨_,owner,_,_⟩ := awaits.leads
      exact .after extended (answered_sendInterest owner)

-- Along the chain of what is awaited each certificate has room for its own certificates.
theorem Awaits.reaches {levels : ℕ} {packet : Data}
    (awaits : Awaits pm (Answers pm serves) requests trace request data verifiedCallback unverifiedCallback depth)
    (asked : requests[request]? = some packet) (certified : Certified pm serves levels packet) (room : levels < pm.stepLimit) :
    Reaches pm serves depth data := by
  induction awaits with
  | request there =>
    rw [asked] at there
    cases there
    exact ⟨levels,certified,by omega⟩
  | certificate waiting cleared within answered ih =>
    obtain ⟨left,below,space⟩ := ih
    obtain ⟨name,located,unanchored,given⟩ := answered
    obtain ⟨moment,_,allowed⟩ := cleared
    cases below with
    | exempt free => exact absurd free (allowed_not_exempt allowed)
    | anchored _ same anchored =>
      rw [located] at same
      cases same
      rw [unanchored] at anchored
      cases anchored
    | @fetched fewer _ _ _ same _ certifies fits =>
      rw [located] at same
      cases same
      exact ⟨fewer,certifies _ given,by omega⟩

-- The certificate that was asked for is there and verified: its key fits.
theorem answered_certificate {signCertificate : Data} (cleared : Cleared pm trace data)
    (given : Answers pm serves data signCertificate)
    (valid : ∀ certificate, identityCertificate pm.decode signCertificate = .ok certificate → certificate.Valid now)
    (awaits : Awaits pm (Answers pm serves) requests trace request data verifiedCallback unverifiedCallback depth) :
    Answered pm request (Reaches pm serves depth data) s
      (invoke pm now (.onCertificateVerified data verifiedCallback unverifiedCallback) signCertificate s) := by
  have fits : Reaches pm serves depth data → ∃ certificate, identityCertificate pm.decode signCertificate = .ok certificate ∧
      pm.verifySignature data certificate.publicKeyInfo = true := by
    rintro ⟨levels,certified,_⟩
    obtain ⟨name,located,unanchored,served⟩ := given
    obtain ⟨moment,_,allowed⟩ := cleared
    cases certified with
    | exempt free => exact absurd free (allowed_not_exempt allowed)
    | anchored _ same anchored =>
      rw [located] at same
      cases same
      rw [unanchored] at anchored
      cases anchored
    | fetched _ same _ _ fits =>
      rw [located] at same
      cases same
      exact fits signCertificate served
  rw [invoke]
  cases made : identityCertificate pm.decode signCertificate with
  | error e =>
    refine answered_nothing ?_ rfl rfl rfl rfl
    intro reaches
    obtain ⟨certificate,same,_⟩ := fits reaches
    rw [made] at same
    cases same
  | ok certificate =>
    obtain ⟨early,late⟩ := valid certificate made
    simp only
    rw [if_pos (by simp [early,late])]
    split
    · have accepted : Answered pm request (Reaches pm serves depth data) (s.insertCertificate now certificate signCertificate)
          (invoke pm now verifiedCallback data
            ((s.insertCertificate now certificate signCertificate).record (.accepted data certificate))) :=
        answered_accepted awaits
      exact ⟨accepted.requests,accepted.puts⟩
    · rename_i differs
      refine answered_nothing ?_ rfl rfl rfl rfl
      intro reaches
      obtain ⟨other,same,verifies⟩ := fits reaches
      rw [made] at same
      cases same
      exact differs verifies

end Answering

-- A request on the way to its positive verdict.
structure Tended (s : State) (request : ℕ) : Prop where
  once : s.owners.count request + s.verdictCount request = 1
  jobs : ∀ job ∈ s.jobs, job.request = request → job.refuses = false
  verdicts : ∀ verdict ∈ s.verdicts, verdict.request = request → verdict.verified = true

structure Tending (pm : SimplePolicyManager) (serves : Name → Data → Bool) (s : State) : Prop where
  chained : Chained pm (Answers pm serves) s
  pending : ∀ item ∈ s.pending, Unanchored pm item.2.timeoutData
  jobs : ∀ job ∈ s.jobs, job.fine pm
  tended : ∀ request data levels, s.requests[request]? = some data → Certified pm serves levels data →
    levels < pm.stepLimit → Tended s request

section Tending
variable {pm : SimplePolicyManager} {serves : Name → Data → Bool} {s next base : State} {request owner : ℕ}

theorem count_owned {α : Type} {items : List α} {place : α → ℕ} (owned : ∀ item ∈ items, place item = owner) :
    (items.map place).count request = if request = owner then items.length else 0 := by
  have same : items.map place = List.replicate items.length owner :=
    List.map_eq_replicate_iff.mpr owned
  rw [same,List.count_replicate]
  by_cases equal : request = owner
  · simp [equal]
  · rw [if_neg equal,if_neg (by simpa using Ne.symm equal)]

-- What a step does for one request, seen by a request that is tended.
theorem Answered.tended {good : Prop} (answered : Answered pm owner good base next)
    (before : base.owners.count request + base.verdictCount request + (if request = owner then 1 else 0) = 1)
    (jobs : ∀ job ∈ base.jobs, job.request = request → job.refuses = false)
    (verdicts : ∀ verdict ∈ base.verdicts, verdict.request = request → verdict.verified = true)
    (accepts : request = owner → good) : Tended next request := by
  obtain ⟨_,sent,queued,given,pendingSame,jobsSame,verdictsSame,sentOwned,queuedOwned,givenOwned,one⟩ := answered
  refine ⟨?_,?_,?_⟩
  · have first := @count_owned request owner _ _ _ sentOwned
    have second := @count_owned request owner _ _ _ (fun job member => (queuedOwned job member).1)
    have third := @count_owned request owner _ _ _ givenOwned
    have total : request = owner → sent.length + queued.length + given.length = 1 := fun same => (one (accepts same)).1
    simp only [State.owners,State.verdictCount,pendingSame,jobsSame,verdictsSame,List.map_append,List.count_append] at before ⊢
    split_ifs at before first second third with same
    · have exactly := total same
      omega
    · omega
  · intro job member mine
    rw [jobsSame] at member
    rcases List.mem_append.mp member with old | new
    · exact jobs job old mine
    · exact (one (accepts (mine.symm.trans (queuedOwned job new).1))).2.1 job new
  · intro verdict member mine
    rw [verdictsSame] at member
    rcases List.mem_append.mp member with old | new
    · exact verdicts verdict old mine
    · exact (one (accepts (mine.symm.trans (givenOwned verdict new)))).2.2 verdict new

theorem erased_pending (pm : SimplePolicyManager) {index : ℕ} {item : Interest × Closure} (there : s.pending[index]? = some item) :
    s.owners.count request + s.verdictCount request =
      ({s with pending := s.pending.eraseIdx index} : State).owners.count request +
        ({s with pending := s.pending.eraseIdx index} : State).verdictCount request +
          (if request = item.2.timeoutUnverifiedCallback.request then 1 else 0) := by
  rw [← ledger_count pm,← ledger_count pm,ledger_pending there,Ledger.put_count]
  rfl

theorem erased_job (pm : SimplePolicyManager) {index : ℕ} {job : Job} (there : s.jobs[index]? = some job) :
    s.owners.count request + s.verdictCount request =
      ({s with jobs := s.jobs.eraseIdx index} : State).owners.count request +
        ({s with jobs := s.jobs.eraseIdx index} : State).verdictCount request +
          (if request = job.request then 1 else 0) := by
  rw [← ledger_count pm,← ledger_count pm,ledger_jobs there,Ledger.put_count]
  rfl

theorem Awaits.known {answers : Data → Data → Prop} {requests : List Data} {trace : List Event} {data : Data}
    {verifiedCallback unverifiedCallback : Callback} {depth : ℕ}
    (awaits : Awaits pm answers requests trace request data verifiedCallback unverifiedCallback depth) :
    request < requests.length := by
  induction awaits with
  | request there => exact (List.getElem?_eq_some_iff.mp there).1
  | certificate _ _ _ _ ih => exact ih

-- Nothing is out for a request that was not made.
theorem Chained.unknown {answers : Data → Data → Prop} (chained : Chained pm answers s) :
    s.owners.count s.requests.length + s.verdictCount s.requests.length = 0 := by
  have pending : ∀ item ∈ s.pending, item.2.timeoutUnverifiedCallback.request < s.requests.length := by
    intro item member
    obtain ⟨interest,closure⟩ := item
    have outstanding := chained.pending (interest,closure) member
    cases outstanding with
    | sent awaits =>
      obtain ⟨_,same,_,_⟩ := awaits.leads
      exact lt_of_eq_of_lt same awaits.known
  have jobs : ∀ job ∈ s.jobs, job.request < s.requests.length := by
    intro job member
    cases chained.jobs job member with
    | verified awaits =>
      obtain ⟨same,_,_,_⟩ := awaits.leads
      exact lt_of_eq_of_lt same awaits.known
    | unverified awaits =>
      obtain ⟨_,same,_,_⟩ := awaits.leads
      exact lt_of_eq_of_lt same awaits.known
    | timeout outstanding =>
      cases outstanding with
      | sent awaits =>
        obtain ⟨_,same,_,_⟩ := awaits.leads
        exact lt_of_eq_of_lt same awaits.known
  have verdicts : ∀ verdict ∈ s.verdicts, verdict.request < s.requests.length := by
    intro verdict member
    exact (List.getElem?_eq_some_iff.mp (chained.verdicts verdict member).1).1
  have absent : ∀ {α : Type} {items : List α} {place : α → ℕ}, (∀ item ∈ items, place item < s.requests.length) →
      (items.map place).count s.requests.length = 0 := by
    intro α items place below
    refine List.count_eq_zero.mpr ?_
    intro member
    obtain ⟨item,there,same⟩ := List.mem_map.mp member
    have less := below item there
    omega
  simp only [State.owners,State.verdictCount,List.count_append,absent pending,absent jobs,absent verdicts]

theorem Chained.cacheServed (chained : Chained pm (Answers pm serves) s) (named : Named pm serves) : CacheServed pm serves s := by
  intro name certificate held
  obtain ⟨key,waiting,signCertificate,_,_,_,answered,made,_⟩ := chained.cache name certificate held
  obtain ⟨other,_,_,given⟩ := answered
  have same := named other signCertificate certificate given made
  exact ⟨signCertificate,key ▸ same ▸ given,made⟩

-- A step that takes one thing away for a request and puts up what it answers.
theorem Tending.advance {good : Prop} (tending : Tending pm serves s) (chained : Chained pm (Answers pm serves) next)
    (pending : ∀ item ∈ next.pending, Unanchored pm item.2.timeoutData) (answered : Answered pm owner good base next)
    (jobs : ∀ job ∈ base.jobs, job ∈ s.jobs) (verdicts : base.verdicts = s.verdicts)
    (ready : ∀ request data levels, base.requests[request]? = some data → Certified pm serves levels data →
      levels < pm.stepLimit → (request = owner → good) ∧
        (base.owners.count request + base.verdictCount request + (if request = owner then 1 else 0) = 1) ∧
        (s.requests[request]? = some data ∨ s.owners.count request + s.verdictCount request = 0)) : Tending pm serves next := by
  refine ⟨chained,pending,?_,?_⟩
  · intro job member
    obtain ⟨_,sent,queued,given,_,same,_,_,owned,_⟩ := answered
    rw [same] at member
    rcases List.mem_append.mp member with old | new
    · exact tending.jobs job (jobs job old)
    · exact (owned job new).2
  · intro request data levels asked certified room
    rw [answered.requests] at asked
    obtain ⟨accepts,before,known⟩ := ready request data levels asked certified room
    rcases known with old | unknown
    · have kept := tending.tended request data levels old certified room
      refine answered.tended before ?_ ?_ accepts
      · exact fun job member mine => kept.jobs job (jobs job member) mine
      · exact fun verdict member mine => kept.verdicts verdict (verdicts ▸ member) mine
    · have nothing := Nat.add_eq_zero_iff.mp unknown
      refine answered.tended before ?_ ?_ accepts
      · intro job member mine
        refine absurd ?_ (List.count_eq_zero.mp nothing.1)
        exact List.mem_append_right _ (List.mem_map.mpr ⟨job,jobs job member,mine⟩)
      · intro verdict member mine
        refine absurd ?_ (List.count_eq_zero.mp nothing.2)
        exact List.mem_map.mpr ⟨verdict,verdicts ▸ member,mine⟩

theorem mem_of_erased {α : Type} {items : List α} {index : ℕ} : ∀ item ∈ items.eraseIdx index, item ∈ items :=
  fun _ member => List.mem_of_mem_eraseIdx member

theorem Tending.verifies (tending : Tending pm serves s) (served : CacheServed pm serves s) (data : Data) (now : Int)
    (chained : Chained pm (Answers pm serves) (verifyData pm now data (.verified s.requests.length)
      (.unverified s.requests.length) 0 {s with requests := s.requests ++ [data]})) :
    Tending pm serves (verifyData pm now data (.verified s.requests.length) (.unverified s.requests.length) 0
      {s with requests := s.requests ++ [data]}) := by
  have awaits : Awaits pm (Answers pm serves) (s.requests ++ [data]) s.trace s.requests.length data
      (.verified s.requests.length) (.unverified s.requests.length) 0 := .request (by simp)
  have answered : Answered pm s.requests.length (Reaches pm serves 0 data) {s with requests := s.requests ++ [data]}
      (verifyData pm now data (.verified s.requests.length) (.unverified s.requests.length) 0
        {s with requests := s.requests ++ [data]}) :=
    answered_verifyData (s := {s with requests := s.requests ++ [data]}) served
      awaits
  refine tending.advance chained ?_ answered (fun _ member => member) rfl ?_
  · intro item member
    rcases verifyData_unanchored item member with old | new
    · exact tending.pending item old
    · exact new
  · intro request other levels asked certified room
    have unknown := tending.chained.unknown
    rcases Nat.lt_trichotomy request s.requests.length with old | same | later
    · rw [List.getElem?_append_left old] at asked
      have kept := tending.tended request other levels asked certified room
      refine ⟨fun same => absurd same (Nat.ne_of_lt old),?_,.inl asked⟩
      rw [if_neg (Nat.ne_of_lt old)]
      exact kept.once
    · subst same
      simp only [List.getElem?_append_right (Nat.le_refl _),Nat.sub_self,List.getElem?_cons_zero,Option.some.injEq] at asked
      subst asked
      refine ⟨fun _ => ⟨levels,certified,by omega⟩,?_,.inr unknown⟩
      rw [if_pos rfl]
      exact congrArg (· + 1) unknown
    · rw [List.getElem?_eq_none (by simp; omega)] at asked
      cases asked

-- What was out for a request is taken away and followed up.
theorem Tending.erased {good : Prop} (tending : Tending pm serves s) {request : ℕ} {data : Data} {levels : ℕ}
    (asked : s.requests[request]? = some data) (certified : Certified pm serves levels data) (room : levels < pm.stepLimit)
    (base : State) (accepts : request = owner → good)
    (erased : s.owners.count request + s.verdictCount request =
      base.owners.count request + base.verdictCount request + (if request = owner then 1 else 0)) :
    (request = owner → good) ∧
      (base.owners.count request + base.verdictCount request + (if request = owner then 1 else 0) = 1) ∧
      (s.requests[request]? = some data ∨ s.owners.count request + s.verdictCount request = 0) := by
  refine ⟨accepts,?_,.inl asked⟩
  rw [← erased]
  exact (tending.tended request data levels asked certified room).once

theorem Tending.receives (tending : Tending pm serves s) (served : CacheServed pm serves s) {index : ℕ} {interest : Interest}
    {closure : Closure} {data : Data} {now : Int} (there : s.pending[index]? = some (interest,closure))
    (given : serves interest.name data = true)
    (chained : Chained pm (Answers pm serves)
      (incomingData pm now closure data {s with pending := s.pending.eraseIdx index})) :
    Tending pm serves (incomingData pm now closure data {s with pending := s.pending.eraseIdx index}) := by
  have unanchored := tending.pending (interest,closure) (List.mem_of_getElem? there)
  cases tending.chained.pending (interest,closure) (List.mem_of_getElem? there) with
  | @sent request depth retry waiting verifiedCallback unverifiedCallback name awaits cleared within located =>
    have answers : Answers pm serves waiting data := ⟨name,located,unanchored name located,given⟩
    obtain ⟨_,own,_,_⟩ := awaits.leads
    have next := Awaits.certificate awaits cleared within answers
    have answered : Answered pm request (Reaches pm serves (depth + 1) data) {s with pending := s.pending.eraseIdx index}
        (verifyData pm now data _ _ (depth + 1) {s with pending := s.pending.eraseIdx index}) :=
      answered_verifyData (s := {s with pending := s.pending.eraseIdx index}) served next
    refine tending.advance chained ?_ answered (fun _ member => member) rfl ?_
    · intro item member
      rcases verifyData_unanchored item member with old | new
      · exact tending.pending item (mem_of_erased item old)
      · exact new
    · intro other packet levels asked certified room
      refine tending.erased asked certified room _ ?_ (own ▸ erased_pending pm there)
      intro same
      subst same
      exact next.reaches asked certified room

theorem Tending.runs (tending : Tending pm serves s) {index : ℕ} {now : Int} {job : Job} (there : s.jobs[index]? = some job)
    (met : live pm serves s (.execute index now) = true)
    (chained : Chained pm (Answers pm serves) (runJob pm now job {s with jobs := s.jobs.eraseIdx index})) :
    Tending pm serves (runJob pm now job {s with jobs := s.jobs.eraseIdx index}) := by
  have fine := tending.jobs job (List.mem_of_getElem? there)
  cases tending.chained.jobs job (List.mem_of_getElem? there) with
  | @verified request depth data signCertificate verifiedCallback unverifiedCallback awaits cleared answers trusted =>
    obtain ⟨own,_,_,_⟩ := awaits.leads
    have valid : ∀ certificate, identityCertificate pm.decode signCertificate = .ok certificate → certificate.Valid now := by
      intro certificate made
      simpa [live,there,made,IdentityCertificate.Valid] using met
    have answered : Answered pm request (Reaches pm serves depth data) {s with jobs := s.jobs.eraseIdx index}
        (invoke pm now (.onCertificateVerified data verifiedCallback unverifiedCallback) signCertificate
          {s with jobs := s.jobs.eraseIdx index}) := answered_certificate cleared answers valid awaits
    refine tending.advance chained ?_ answered mem_of_erased rfl ?_
    · intro item member
      rw [runJob,invoke_pending] at member
      exact tending.pending item member
    · intro other packet levels asked certified room
      refine tending.erased asked certified room _ ?_ (own ▸ erased_job pm there)
      intro same
      subst same
      exact awaits.reaches asked certified room
  | @unverified request depth data signCertificate _ unverifiedCallback awaits =>
    obtain ⟨_,own,_,_⟩ := awaits.leads
    have answered : Answered pm request False {s with jobs := s.jobs.eraseIdx index}
        (invoke pm now unverifiedCallback data {s with jobs := s.jobs.eraseIdx index}) := answered_unverified id awaits
    refine tending.advance chained ?_ answered mem_of_erased rfl ?_
    · intro item member
      rw [runJob,invoke_pending] at member
      exact tending.pending item member
    · intro other packet levels asked certified room
      refine tending.erased asked certified room _ ?_ (own ▸ erased_job pm there)
      intro same
      have refused := (tending.tended other packet levels asked certified room).jobs _ (List.mem_of_getElem? there)
        (own.trans same.symm)
      cases refused
  | @timeout interest closure outstanding =>
    obtain ⟨unanchored,retry⟩ := fine
    have resent : runJob pm now (.timeout closure interest) {s with jobs := s.jobs.eraseIdx index} =
        State.sendInterest {s with jobs := s.jobs.eraseIdx index} interest {closure with retry := closure.retry - 1} :=
      if_pos retry
    rw [resent] at chained ⊢
    have answered : Answered pm closure.timeoutUnverifiedCallback.request True {s with jobs := s.jobs.eraseIdx index}
        (State.sendInterest {s with jobs := s.jobs.eraseIdx index} interest {closure with retry := closure.retry - 1}) :=
      answered_sendInterest rfl
    refine tending.advance chained ?_ answered mem_of_erased rfl ?_
    · intro item member
      rcases List.mem_append.mp member with old | new
      · exact tending.pending item old
      · rw [List.mem_singleton.mp new]
        exact unanchored
    · intro other packet levels asked certified room
      exact tending.erased asked certified room _ (fun _ => trivial) (erased_job pm there)

theorem Tending.step {action : Action} (named : Named pm serves) (tending : Tending pm serves s)
    (met : live pm serves s action = true) (taken : step pm s action = some next) : Tending pm serves next := by
  have served := tending.chained.cacheServed named
  have chained : Chained pm (Answers pm serves) next := by
    refine tending.chained.step ?_ taken
    rintro index blob now interest closure data rfl there decoded located
    have given : serves interest.name data = true := by simpa [live,there,decoded] using met
    exact ⟨interest.name,located,tending.pending _ (List.mem_of_getElem? there) _ located,given⟩
  cases step_stepped taken with
  | verifyData data now => exact tending.verifies served data now chained
  | @content index blob now interest closure data there decoded =>
    exact tending.receives served there (by simpa [live,there,decoded] using met) chained
  | @timedOut index interest closure there =>
    have retry : 0 < closure.retry := by simpa [live,there] using met
    have unanchored := tending.pending (interest,closure) (List.mem_of_getElem? there)
    have answered : Answered pm closure.timeoutUnverifiedCallback.request True {s with pending := s.pending.eraseIdx index}
        (State.execute {s with pending := s.pending.eraseIdx index} (.timeout closure interest)) :=
      answered_execute rfl ⟨unanchored,retry⟩ (fun _ => rfl)
    refine tending.advance chained ?_ answered (fun _ member => member) rfl ?_
    · exact fun item member => tending.pending item (mem_of_erased item member)
    · intro other packet levels asked certified room
      exact tending.erased asked certified room _ (fun _ => trivial) (erased_pending pm there)
  | execute there => exact tending.runs there met chained
  | clean now =>
    refine ⟨chained,tending.pending,tending.jobs,?_⟩
    intro request data levels asked certified room
    have kept := tending.tended request data levels asked certified room
    exact ⟨kept.once,kept.jobs,kept.verdicts⟩

end Tending

-- Completeness: whatever else is verified at the same time, a packet that an honest chain
-- of fewer certificates than the step limit leads to an anchor is never refused, and it has
-- its positive verdict or exactly one interest or job out for it.
theorem certified_verified (pm : SimplePolicyManager) (serves : Name → Data → Bool) (named : Named pm serves)
    {actions : List Action} {s : State}
    (run : Runs (step pm) (fun s action => live pm serves s action = true) (initial pm) actions s) :
    ∀ request data levels, s.requests[request]? = some data → Certified pm serves levels data → levels < pm.stepLimit →
      (∀ verdict ∈ s.verdicts, verdict.request = request → verdict.verified = true ∧ verdict.data = data) ∧
      s.owners.count request + s.verdictCount request = 1 ∧
      (s.verdictCount request = 0 → ∃ action, action.work = 1 ∧ (step pm s action).isSome = true) := by
  have tending : Tending pm serves s := by
    refine run.invariant (Tending pm serves) ?_ (fun _ _ _ tending met taken => tending.step named met taken)
    exact ⟨initial_chained pm _,nofun,nofun,nofun⟩
  intro request data levels asked certified room
  have tended := tending.tended request data levels asked certified room
  refine ⟨?_,tended.once,?_⟩
  · intro verdict member mine
    have same := (tending.chained.verdicts verdict member).1
    rw [mine,asked] at same
    cases same
    exact ⟨tended.verdicts verdict member mine,rfl⟩
  · intro undecided
    refine enabled_of_owners pm ?_
    intro nothing
    have owed := tended.once
    rw [nothing,undecided] at owed
    cases owed

-- The certificate of the key 9, signed by the anchor, under the one name asked for.
def sampleServes (name : Name) (signCertificate : Data) : Bool :=
  decide (name = ownerName) && decide (signCertificate.name = ownerName ++ [⟨[1]⟩]) &&
    decide (signCertificate.content.content = [9]) && decide (signCertificate.signature.keyLocator = .keyname rootName) &&
    decide (signCertificate.signature.signatureBits.head? = some 7)

theorem sample_admitted {data : Data} {name : Name} {c : Component} {rest : Name} (named : data.name = c :: rest)
    (located : data.signature.keyLocator = .keyname name) : Admitted samplePolicy data := by
  intro moment
  refine ⟨?_,nofun,sampleRule,List.mem_singleton.mpr rfl,?_⟩
  · simp [SimplePolicyManager.evaluates,samplePolicy,sampleRule,IdentityPolicyRule.evaluates,located,Regex.evaluates,Except.isOk,
      Except.toBool]
  · simp only [IdentityPolicyRule.satisfy,located,IdentityPolicyRule.satisfyNames,sampleRule,named]
    rfl

theorem sample_certified : Certified samplePolicy sampleServes 1 sampleData := by
  refine .fetched (sample_admitted rfl rfl) rfl rfl ?_ ?_
  · intro signCertificate served
    simp only [sampleServes,Bool.and_eq_true,decide_eq_true_eq] at served
    obtain ⟨⟨⟨⟨_,named⟩,_⟩,located⟩,key⟩ := served
    have anchor : samplePolicy.findAnchor rootName = some ⟨rootName ++ [⟨[1]⟩],0,0,100,[7]⟩ := rfl
    refine .anchored (sample_admitted named located) located anchor ?_
    simp only [samplePolicy,key]
    rfl
  · intro signCertificate served
    simp only [sampleServes,Bool.and_eq_true,decide_eq_true_eq] at served
    obtain ⟨⟨⟨⟨_,named⟩,content⟩,_⟩,_⟩ := served
    refine ⟨⟨ownerName ++ [⟨[1]⟩],signCertificate.content.freshness,0,100,[9]⟩,?_,rfl⟩
    simp only [identityCertificate,samplePolicy,named,content]
    rfl

theorem certified_verified_sample : ∃ s, Runs (step samplePolicy) (fun s action => live samplePolicy sampleServes s action = true)
      (initial samplePolicy) (sampleRun (sampleCertificate [⟨[1]⟩] 9)) s ∧
    s.requests = [sampleData] ∧ s.owners.count 0 + s.verdictCount 0 = 1 := by
  have evaluated : (exec (step samplePolicy) (live samplePolicy sampleServes) (initial samplePolicy)
      (sampleRun (sampleCertificate [⟨[1]⟩] 9))).map State.requests = some [sampleData] := rfl
  obtain ⟨s,executed,requests⟩ := Option.map_eq_some_iff.mp evaluated
  have run := exec_runs executed
  have named : Named samplePolicy sampleServes := by
    intro name signCertificate certificate served made
    simp only [sampleServes,Bool.and_eq_true,decide_eq_true_eq] at served
    obtain ⟨⟨⟨⟨same,packet⟩,_⟩,_⟩,_⟩ := served
    rw [(identityCertificate_name made).1,packet,same]
    rfl
  have verified := certified_verified samplePolicy sampleServes named run 0 sampleData 1 (by rw [requests]; rfl) sample_certified
    (by decide)
  exact ⟨s,run,requests,verified.2.1⟩

end NdnCxx.Security
