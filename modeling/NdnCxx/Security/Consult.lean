import NdnCxx.Security.Chain

namespace NdnCxx.Security

-- Asking the policy and looking into the cache: nothing that a continuation, the
-- network or the application could see has changed.
structure Extends (s next : State) : Prop where
  requests : next.requests = s.requests
  pending : next.pending = s.pending
  jobs : next.jobs = s.jobs
  verdicts : next.verdicts = s.verdicts
  exceptions : next.exceptions = s.exceptions
  cache : next.certificateCache.cache = s.certificateCache.cache
  trace : s.trace <+: next.trace
  accepted : ∀ data certificate, Event.accepted data certificate ∈ next.trace → Event.accepted data certificate ∈ s.trace
  found : ∀ data certificate, Event.found data certificate ∈ next.trace →
    Event.found data certificate ∈ s.trace ∨ ∃ name, s.certificateCache.Holds name certificate

theorem Extends.refl (s : State) : Extends s s :=
  ⟨rfl,rfl,rfl,rfl,rfl,rfl,List.prefix_refl _,fun _ _ old => old,fun _ _ old => .inl old⟩

theorem consult_extends (s : State) (data : Data) : Extends s (s.consult data) := by
  refine ⟨rfl,rfl,rfl,rfl,rfl,rfl,List.prefix_append _ _,?_,?_⟩
  · intro other certificate member
    simpa [State.consult] using member
  · intro other certificate member
    exact .inl (by simpa [State.consult] using member)

theorem Extends.holds {s next : State} (extended : Extends s next) {name : Name} {certificate : IdentityCertificate}
    (held : next.certificateCache.Holds name certificate) : s.certificateCache.Holds name certificate := by
  obtain ⟨entry,member,same⟩ := held
  exact ⟨entry,extended.cache ▸ member,same⟩

theorem Extends.trans {s middle next : State} (first : Extends s middle) (second : Extends middle next) :
    Extends s next where
  requests := second.requests.trans first.requests
  pending := second.pending.trans first.pending
  jobs := second.jobs.trans first.jobs
  verdicts := second.verdicts.trans first.verdicts
  exceptions := second.exceptions.trans first.exceptions
  cache := second.cache.trans first.cache
  trace := first.trace.trans second.trace
  accepted data certificate member := first.accepted data certificate (second.accepted data certificate member)
  found := by
    intro data certificate member
    rcases second.found data certificate member with old | ⟨name,held⟩
    · exact first.found data certificate old
    · exact .inr ⟨name,first.holds held⟩

-- A certificate that is found is an anchor, or the cache holds it under the very
-- name that was looked up.
theorem lookup_extends (pm : SimplePolicyManager) (s : State) (name : Name) (data : Data) :
    Extends s (s.lookup pm name data).2 ∧
      ∀ certificate, (s.lookup pm name data).1 = some certificate → pm.findAnchor name = some certificate ∨
        (Event.found data certificate ∈ (s.lookup pm name data).2.trace ∧
          s.certificateCache.Holds name certificate) := by
  unfold State.lookup
  cases anchored : pm.findAnchor name with
  | some anchor => exact ⟨.refl s,fun certificate same => .inl same⟩
  | none =>
    have kept := TTLCertificateCache.get_keeps s.certificateCache name
    cases looked : s.certificateCache.getCertificate name with
    | mk result cache =>
      rw [looked] at kept
      cases result with
      | none =>
        refine ⟨⟨rfl,rfl,rfl,rfl,rfl,kept,List.prefix_refl _,fun _ _ old => old,fun _ _ old => .inl old⟩,?_⟩
        intro certificate same
        cases same
      | some hit =>
        have held : s.certificateCache.Holds name hit := TTLCertificateCache.get_holds (congrArg Prod.fst looked)
        refine ⟨⟨rfl,rfl,rfl,rfl,rfl,kept,List.prefix_append _ _,?_,?_⟩,?_⟩
        · intro other certificate member
          simpa using member
        · intro other certificate member
          rcases List.mem_append.mp member with old | new
          · exact .inl old
          · cases List.mem_singleton.mp new
            exact .inr ⟨name,held⟩
        · intro certificate same
          cases same
          exact .inr ⟨List.mem_append_right _ (List.mem_singleton.mpr rfl),held⟩

-- The packets on which the policy can be asked at all: no regex of it throws, and
-- where the rules are reached the locator is a key name.
def Evaluable (pm : SimplePolicyManager) (moment : Nat) (data : Data) (stepCount : Nat) : Prop :=
  pm.evaluates moment data = true ∧ (pm.requireVerify data = .ok true → pm.stepLimit ≠ stepCount →
    ∃ name, data.signature.keyLocator = .keyname name)

section
variable (pm : SimplePolicyManager) (now : Int) (data : Data) (verifiedCallback unverifiedCallback : Callback)
  (stepCount : Nat) (s : State)

-- Where a certificate that decides without an interest comes from: it is an anchor, or
-- the cache held it under the name of the locator.
def AtHand (s' : State) (name : Name) (certificate : IdentityCertificate) : Prop :=
  pm.findAnchor name = some certificate ∨
    (Event.found data certificate ∈ s'.trace ∧ s.certificateCache.Holds name certificate)

-- All that `checkVerificationPolicy` can do.
inductive Checked : Except Exception (Option ValidationRequest × State) → Prop where
  | threw {e : Exception} : ¬Evaluable pm s.moment data stepCount → Checked (.error e)
  | refused {s' : State} : Extends s s' → Checked (.ok (none,invoke pm now unverifiedCallback data s'))
  | accepted {s' : State} {name : Name} {certificate : IdentityCertificate} : Extends s s' → Cleared pm s'.trace data →
      data.signature.keyLocator = .keyname name → pm.verifySignature data certificate.publicKeyInfo = true →
      AtHand pm data s s' name certificate →
      Checked (.ok (none,invoke pm now verifiedCallback data (s'.record (.accepted data certificate))))
  | asked {s' : State} {name : Name} : Extends s s' → Cleared pm s'.trace data → pm.stepLimit ≠ stepCount →
      data.signature.keyLocator = .keyname name →
      Checked (.ok (some ⟨certificateInterest name,.onCertificateVerified data verifiedCallback unverifiedCallback,
        .onCertificateUnverified data unverifiedCallback,3,stepCount + 1⟩,s'))

-- All that `verifyData` can do.
inductive Consulted : State → Prop where
  | threw {s' : State} {e : Exception} : Extends s s' → ¬Evaluable pm (s.moment + 1) data stepCount →
      Consulted (s'.throwing e)
  | refused {s' : State} : Extends s s' → Consulted (invoke pm now unverifiedCallback data s')
  | exempt : pm.Exempt data → Consulted (invoke pm now verifiedCallback data s)
  | accepted {s' : State} {name : Name} {certificate : IdentityCertificate} : Extends s s' → Cleared pm s'.trace data →
      data.signature.keyLocator = .keyname name → pm.verifySignature data certificate.publicKeyInfo = true →
      AtHand pm data s s' name certificate →
      Consulted (invoke pm now verifiedCallback data (s'.record (.accepted data certificate)))
  | asked {s' : State} {name : Name} : Extends s s' → Cleared pm s'.trace data → pm.stepLimit ≠ stepCount →
      data.signature.keyLocator = .keyname name →
      Consulted (s'.sendInterest (certificateInterest name) ⟨.onCertificateVerified data verifiedCallback
        unverifiedCallback,3,unverifiedCallback,data,.onCertificateUnverified data unverifiedCallback,stepCount + 1⟩)

end

section
variable {pm : SimplePolicyManager} {now : Int} {data : Data} {verifiedCallback unverifiedCallback : Callback}
  {stepCount : Nat} {s : State}

theorem rules_throw {rules : List IdentityPolicyRule} {e : Exception} {moment : Nat}
    (inside : ∀ rule ∈ rules, rule ∈ pm.verifyPolicies ++ pm.mustFailVerify)
    (required : pm.requireVerify data = .ok true) (below : pm.stepLimit ≠ stepCount)
    (threw : rules.anyM (fun rule => rule.satisfy moment data) = .error e) : ¬Evaluable pm moment data stepCount := by
  intro evaluable
  obtain ⟨name,keyed⟩ := evaluable.2 required below
  obtain ⟨answer,total⟩ : ∃ answer, rules.anyM (fun rule => rule.satisfy moment data) = .ok answer :=
    anyM_total (fun rule member => IdentityPolicyRule.satisfy_total
      (SimplePolicyManager.rule_evaluates evaluable.1 (inside rule member)) keyed)
  rw [total] at threw
  cases threw

theorem check_checked (required : pm.requireVerify data = .ok true)
    (moment : Event.checked data s.moment ∈ s.trace) :
    Checked pm now data verifiedCallback unverifiedCallback stepCount s
      (checkVerificationPolicy pm now data stepCount verifiedCallback unverifiedCallback s) := by
  unfold checkVerificationPolicy
  by_cases limit : pm.stepLimit = stepCount
  · rw [if_pos limit]
    exact .refused (.refl s)
  rw [if_neg limit]
  cases negative : pm.mustFailVerify.anyM (fun rule => rule.satisfy s.moment data) with
  | error e => exact .threw (rules_throw (fun _ => List.mem_append_right _) required limit negative)
  | ok failed =>
    cases failed with
    | true => exact .refused (.refl s)
    | false =>
      simp only [bind,Except.bind]
      cases positive : pm.verifyPolicies.anyM (fun rule => rule.satisfy s.moment data) with
      | error e => exact .threw (rules_throw (fun _ => List.mem_append_left _) required limit positive)
      | ok satisfied =>
        cases satisfied with
        | false => exact .refused (.refl s)
        | true =>
          have cleared : Cleared pm s.trace data := ⟨s.moment,moment,anyM_false negative,anyM_true positive⟩
          obtain ⟨name,located⟩ := cleared.located
          obtain ⟨extended,source⟩ := lookup_extends pm s name data
          simp only [located]
          cases looked : s.lookup pm name data with
          | mk result s' =>
            rw [looked] at extended source
            have still := cleared.mono extended.trace.subset
            cases result with
            | none => exact .asked extended still limit located
            | some certificate =>
              by_cases verifies : pm.verifySignature data certificate.publicKeyInfo = true
              · simp only [verifies]
                exact .accepted extended still located verifies (source certificate rfl)
              · simp only [verifies]
                exact .refused extended

theorem verifyData_consulted : Consulted pm now data verifiedCallback unverifiedCallback stepCount s
    (verifyData pm now data verifiedCallback unverifiedCallback stepCount s) := by
  unfold verifyData
  cases required : pm.requireVerify data with
  | error e =>
    refine .threw (.refl s) ?_
    intro evaluable
    obtain ⟨answer,total⟩ := SimplePolicyManager.requireVerify_total evaluable.1
    rw [total] at required
    cases required
  | ok asked =>
    cases asked with
    | false =>
      cases skipped : pm.skipVerifyAndTrust data with
      | error e =>
        refine .threw (.refl s) ?_
        intro evaluable
        obtain ⟨answer,total⟩ := SimplePolicyManager.skip_total evaluable.1
        rw [total] at skipped
        cases skipped
      | ok answer =>
        cases answer with
        | true => exact .exempt (SimplePolicyManager.exempt_of required skipped)
        | false => exact .refused (.refl s)
    | true =>
      have consulted := consult_extends s data
      have checked : Checked pm now data verifiedCallback unverifiedCallback stepCount (s.consult data)
          (checkVerificationPolicy pm now data stepCount verifiedCallback unverifiedCallback (s.consult data)) :=
        check_checked required (by simp [State.consult])
      generalize checkVerificationPolicy pm now data stepCount verifiedCallback unverifiedCallback
        (s.consult data) = result at checked
      cases checked with
      | threw failed => exact .threw consulted failed
      | refused extended => exact .refused (consulted.trans extended)
      | accepted extended cleared located verifies source =>
        refine .accepted (consulted.trans extended) cleared located verifies ?_
        rcases source with anchored | ⟨found,held⟩
        · exact .inl anchored
        · exact .inr ⟨found,consulted.holds held⟩
      | asked extended cleared below located => exact .asked (consulted.trans extended) cleared below located

end

-- Every action that is taken, with what it found in the state.
inductive Stepped (pm : SimplePolicyManager) (s : State) : Action → State → Prop where
  | verifyData (data : Data) (now : Int) : Stepped pm s (.verifyData data now)
      (verifyData pm now data (.verified s.requests.length) (.unverified s.requests.length) 0
        {s with requests := s.requests ++ [data]})
  | content {index : Nat} {blob : Blob} {now : Int} {interest : Interest} {closure : Closure} {data : Data} :
      s.pending[index]? = some (interest,closure) → Data.decodeFromWire pm.std blob = .ok data →
      Stepped pm s (.content index blob now)
        (incomingData pm now closure data {s with pending := s.pending.eraseIdx index})
  | timedOut {index : Nat} {interest : Interest} {closure : Closure} : s.pending[index]? = some (interest,closure) →
      Stepped pm s (.timedOut index)
        ({s with pending := s.pending.eraseIdx index}.execute (.timeout closure interest))
  | execute {index : Nat} {now : Int} {job : Job} : s.jobs[index]? = some job →
      Stepped pm s (.execute index now) (runJob pm now job {s with jobs := s.jobs.eraseIdx index})
  | clean (now : Int) : Stepped pm s (.clean now) {s with certificateCache := s.certificateCache.clean now}

theorem step_stepped {pm : SimplePolicyManager} {s next : State} {action : Action}
    (taken : step pm s action = some next) : Stepped pm s action next := by
  cases action with
  | verifyData data now =>
    cases taken
    exact .verifyData data now
  | content index blob now =>
    simp only [step] at taken
    split at taken
    · rename_i interest closure data there decoded
      cases taken
      exact .content there decoded
    · cases taken
  | timedOut index =>
    simp only [step] at taken
    split at taken
    · rename_i interest closure there
      cases taken
      exact .timedOut there
    · cases taken
  | execute index now =>
    simp only [step] at taken
    split at taken
    · rename_i job there
      cases taken
      exact .execute there
    · cases taken
  | clean now =>
    cases taken
    exact .clean now

end NdnCxx.Security
