import NdnCxx.Security.Consult

namespace NdnCxx.Security

section
variable {pm : SimplePolicyManager} {answers : Data → Data → Prop} {s next : State}

theorem Chained.grow (chained : Chained pm answers s) (longer : s.requests <+: next.requests)
    (grown : s.trace <+: next.trace)
    (pending : ∀ item ∈ next.pending, item ∈ s.pending ∨ Outstanding pm answers next.requests next.trace item.1 item.2)
    (jobs : ∀ job ∈ next.jobs, job ∈ s.jobs ∨ Queued pm answers next.requests next.trace job)
    (verdicts : ∀ verdict ∈ next.verdicts, verdict ∈ s.verdicts ∨ (next.requests[verdict.request]? = some verdict.data ∧
      (verdict.verified = true → Decided pm next.trace verdict.data)))
    (cache : ∀ name certificate, next.certificateCache.Holds name certificate →
      s.certificateCache.Holds name certificate ∨
        (name = withoutVersion certificate.name ∧ Vouched pm answers next.trace certificate))
    (found : ∀ data certificate, Event.found data certificate ∈ next.trace →
      Event.found data certificate ∈ s.trace ∨ Vouched pm answers next.trace certificate)
    (accepted : ∀ data certificate, Event.accepted data certificate ∈ next.trace →
      Event.accepted data certificate ∈ s.trace ∨
        (Supplied pm answers data certificate ∧ pm.verifySignature data certificate.publicKeyInfo = true)) :
    Chained pm answers next where
  pending item member := (pending item member).elim (fun old => (chained.pending item old).mono longer grown.subset) id
  jobs job member := (jobs job member).elim (fun old => (chained.jobs job old).mono longer grown.subset) id
  verdicts verdict member := by
    rcases verdicts verdict member with old | new
    · obtain ⟨asked,decided⟩ := chained.verdicts verdict old
      exact ⟨prefix_getElem? longer asked,fun verified => (decided verified).mono grown.subset⟩
    · exact new
  cache name certificate held := by
    rcases cache name certificate held with old | new
    · obtain ⟨key,vouched⟩ := chained.cache name certificate old
      exact ⟨key,vouched.mono grown⟩
    · exact new
  found data certificate member :=
    (found data certificate member).elim (fun old => (chained.found data certificate old).mono grown) id
  accepted data certificate member :=
    (accepted data certificate member).elim (chained.accepted data certificate) id

theorem Chained.extend (chained : Chained pm answers s) (extended : Extends s next) : Chained pm answers next := by
  refine chained.grow (extended.requests ▸ List.prefix_refl _) extended.trace ?_ ?_ ?_ ?_ ?_ ?_
  · exact fun item member => .inl (extended.pending ▸ member)
  · exact fun job member => .inl (extended.jobs ▸ member)
  · exact fun verdict member => .inl (extended.verdicts ▸ member)
  · exact fun name certificate held => .inl (extended.holds held)
  · intro data certificate member
    rcases extended.found data certificate member with old | ⟨name,held⟩
    · exact .inl old
    · exact .inr ((chained.cache name certificate held).2.mono extended.trace)
  · exact fun data certificate member => .inl (extended.accepted data certificate member)

theorem Chained.execute (chained : Chained pm answers s) {job : Job}
    (queued : Queued pm answers s.requests s.trace job) : Chained pm answers (s.execute job) := by
  refine chained.grow (List.prefix_refl _) (List.prefix_refl _) (fun _ old => .inl old) ?_ (fun _ old => .inl old)
    (fun _ _ old => .inl old) (fun _ _ old => .inl old) (fun _ _ old => .inl old)
  intro other member
  rcases List.mem_append.mp member with old | new
  · exact .inl old
  · exact .inr (List.mem_singleton.mp new ▸ queued)

theorem Chained.sendInterest (chained : Chained pm answers s) {interest : Interest} {closure : Closure}
    (outstanding : Outstanding pm answers s.requests s.trace interest closure) :
    Chained pm answers (s.sendInterest interest closure) := by
  refine chained.grow (List.prefix_refl _) (List.prefix_refl _) ?_ (fun _ old => .inl old) (fun _ old => .inl old)
    (fun _ _ old => .inl old) (fun _ _ old => .inl old) (fun _ _ old => .inl old)
  intro other member
  rcases List.mem_append.mp member with old | new
  · exact .inl old
  · exact .inr (List.mem_singleton.mp new ▸ outstanding)

theorem Chained.decide (chained : Chained pm answers s) {verdict : Verdict}
    (asked : s.requests[verdict.request]? = some verdict.data)
    (decided : verdict.verified = true → Decided pm s.trace verdict.data) :
    Chained pm answers {s with verdicts := s.verdicts ++ [verdict]} := by
  refine chained.grow (List.prefix_refl _) (List.prefix_refl _) (fun _ old => .inl old) (fun _ old => .inl old) ?_
    (fun _ _ old => .inl old) (fun _ _ old => .inl old) (fun _ _ old => .inl old)
  intro other member
  rcases List.mem_append.mp member with old | new
  · exact .inl old
  · cases List.mem_singleton.mp new
    exact .inr ⟨asked,decided⟩

theorem Chained.throwing (chained : Chained pm answers s) (e : Exception) : Chained pm answers (s.throwing e) :=
  chained.grow (List.prefix_refl _) (List.prefix_refl _) (fun _ old => .inl old) (fun _ old => .inl old)
    (fun _ old => .inl old) (fun _ _ old => .inl old) (fun _ _ old => .inl old) (fun _ _ old => .inl old)

theorem Chained.accept (chained : Chained pm answers s) {data : Data} {certificate : IdentityCertificate}
    (supplied : Supplied pm answers data certificate)
    (verifies : pm.verifySignature data certificate.publicKeyInfo = true) :
    Chained pm answers (s.record (.accepted data certificate)) := by
  refine chained.grow (List.prefix_refl _) (List.prefix_append _ _) (fun _ old => .inl old)
    (fun _ old => .inl old) (fun _ old => .inl old) (fun _ _ old => .inl old) ?_ ?_
  · intro other found member
    exact .inl (by simpa [State.record] using member)
  · intro other found member
    rcases List.mem_append.mp member with old | new
    · exact .inl old
    · cases List.mem_singleton.mp new
      exact .inr ⟨supplied,verifies⟩

theorem Chained.insertCertificate (chained : Chained pm answers s) {now : Int} {certificate : IdentityCertificate}
    {waiting signCertificate : Data} (answered : answers waiting signCertificate)
    (trusted : Trusted pm s.trace signCertificate)
    (made : identityCertificate pm.decode signCertificate = .ok certificate) (valid : certificate.Valid now) :
    Chained pm answers (s.insertCertificate now certificate signCertificate) ∧
      Issued pm (s.insertCertificate now certificate signCertificate).trace signCertificate certificate := by
  have grown : s.trace <+: (s.insertCertificate now certificate signCertificate).trace := List.prefix_append _ _
  have issued : Issued pm (s.insertCertificate now certificate signCertificate).trace signCertificate certificate :=
    ⟨made,now,List.mem_append_right _ (List.mem_singleton.mpr rfl),valid⟩
  refine ⟨chained.grow (List.prefix_refl _) grown (fun _ old => .inl old) (fun _ old => .inl old)
    (fun _ old => .inl old) ?_ ?_ ?_,issued⟩
  · intro name found held
    rcases TTLCertificateCache.insert_holds held with old | ⟨key,rfl⟩
    · exact .inl old
    · exact .inr ⟨key,waiting,signCertificate,now,s.trace,[],answered,made,valid,trusted,rfl⟩
  · intro other found member
    exact .inl (by simpa [State.insertCertificate] using member)
  · intro other found member
    exact .inl (by simpa [State.insertCertificate] using member)

section Awaiting
variable {now : Int} {data : Data} {verifiedCallback unverifiedCallback : Callback} {request depth : Nat}

theorem Chained.verified (chained : Chained pm answers s)
    (awaits : Awaits pm answers s.requests s.trace request data verifiedCallback unverifiedCallback depth)
    (decided : Decided pm s.trace data) : Chained pm answers (invoke pm now verifiedCallback data s) := by
  cases awaits with
  | request asked => exact chained.decide asked (fun _ => decided)
  | certificate waiting cleared within answered => exact chained.execute (.verified waiting cleared answered decided.1)

theorem Chained.unverified (chained : Chained pm answers s)
    (awaits : Awaits pm answers s.requests s.trace request data verifiedCallback unverifiedCallback depth) :
    Chained pm answers (invoke pm now unverifiedCallback data s) := by
  cases awaits with
  | request asked => exact chained.decide asked (fun impossible => by cases impossible)
  | certificate waiting cleared within answered => exact chained.execute (.unverified waiting)

theorem Chained.consulted (chained : Chained pm answers s)
    (awaits : Awaits pm answers s.requests s.trace request data verifiedCallback unverifiedCallback depth)
    (consulted : Consulted pm now data verifiedCallback unverifiedCallback depth s next) : Chained pm answers next := by
  cases consulted with
  | threw extended => exact (chained.extend extended).throwing _
  | refused extended =>
    exact (chained.extend extended).unverified (awaits.mono (extended.requests ▸ List.prefix_refl _) extended.trace.subset)
  | exempt free => exact chained.verified awaits ⟨.exempt free,.inl free⟩
  | @accepted s' name certificate extended cleared located verifies source =>
    have later := awaits.mono (extended.requests ▸ List.prefix_refl _ : s.requests <+: s'.requests) extended.trace.subset
    have recorded : s'.trace ⊆ (s'.record (.accepted data certificate)).trace := List.subset_append_left _ _
    have kept := later.mono (List.prefix_refl _) recorded
    have noted : Event.accepted data certificate ∈ (s'.record (.accepted data certificate)).trace :=
      List.mem_append_right _ (List.mem_singleton.mpr rfl)
    rcases source with anchored | ⟨found,held⟩
    · exact ((chained.extend extended).accept (.anchor located anchored) verifies).verified kept
        ⟨(Trusted.anchor cleared located anchored verifies).mono recorded,.inr ⟨certificate,noted⟩⟩
    · obtain ⟨key,_,_,_,_,_,answered,made,_⟩ := chained.cache name certificate held
      exact ((chained.extend extended).accept (.cached (key ▸ located) answered made) verifies).verified kept
        ⟨(Trusted.cached cleared found verifies).mono recorded,.inr ⟨certificate,noted⟩⟩
  | @asked s' name extended cleared below located =>
    have within : depth < pm.stepLimit := lt_of_le_of_ne awaits.depth_le (Ne.symm below)
    have later := awaits.mono (extended.requests ▸ List.prefix_refl _ : s.requests <+: s'.requests) extended.trace.subset
    exact (chained.extend extended).sendInterest (.sent later cleared within located)

-- The certificate of an awaited packet has been verified. It goes into the cache
-- before its key is tried on the packet, so it must be vouched for on its own.
theorem Chained.certificateVerified (chained : Chained pm answers s) {signCertificate : Data}
    (awaits : Awaits pm answers s.requests s.trace request data verifiedCallback unverifiedCallback depth)
    (cleared : Cleared pm s.trace data) (answered : answers data signCertificate)
    (trusted : Trusted pm s.trace signCertificate) :
    Chained pm answers
      (invoke pm now (.onCertificateVerified data verifiedCallback unverifiedCallback) signCertificate s) := by
  rw [invoke]
  cases made : identityCertificate pm.decode signCertificate with
  | error e => exact chained.throwing e
  | ok certificate =>
    simp only
    by_cases valid : certificate.Valid now
    · obtain ⟨kept,issued⟩ := chained.insertCertificate answered trusted made valid
      have grown : s.trace ⊆ (s.insertCertificate now certificate signCertificate).trace :=
        List.subset_append_left _ _
      rw [if_pos (by simp [valid.1,valid.2])]
      by_cases verifies : pm.verifySignature data certificate.publicKeyInfo = true
      · rw [if_pos verifies]
        obtain ⟨name,located⟩ := cleared.located
        have recorded : (s.insertCertificate now certificate signCertificate).trace ⊆
            ((s.insertCertificate now certificate signCertificate).record (.accepted data certificate)).trace :=
          List.subset_append_left _ _
        have accepted := kept.accept (Supplied.fetched located answered made) verifies
        have fetched := Trusted.fetched (cleared.mono grown) (trusted.mono grown) issued verifies
        exact accepted.verified (awaits.mono (List.prefix_refl _) (List.Subset.trans grown recorded))
          ⟨fetched.mono recorded,.inr ⟨certificate,List.mem_append_right _ (List.mem_singleton.mpr rfl)⟩⟩
      · rw [if_neg verifies]
        exact kept
    · rw [if_neg (by simpa [IdentityCertificate.Valid] using valid)]
      exact chained.unverified awaits

end Awaiting

theorem Chained.timeout (chained : Chained pm answers s) {now : Int} {interest : Interest} {closure : Closure}
    (outstanding : Outstanding pm answers s.requests s.trace interest closure) :
    Chained pm answers (onCertificateInterestTimeout pm now closure interest s) := by
  unfold onCertificateInterestTimeout
  cases outstanding with
  | sent awaits cleared within located =>
    split
    · exact chained.sendInterest (.sent awaits cleared within located)
    · exact chained.unverified awaits

theorem Chained.erasePending (chained : Chained pm answers s) (index : Nat) :
    Chained pm answers {s with pending := s.pending.eraseIdx index} :=
  chained.grow (List.prefix_refl _) (List.prefix_refl _) (fun _ member => .inl (List.mem_of_mem_eraseIdx member))
    (fun _ old => .inl old) (fun _ old => .inl old) (fun _ _ old => .inl old) (fun _ _ old => .inl old)
    (fun _ _ old => .inl old)

theorem Chained.eraseJob (chained : Chained pm answers s) (index : Nat) :
    Chained pm answers {s with jobs := s.jobs.eraseIdx index} :=
  chained.grow (List.prefix_refl _) (List.prefix_refl _) (fun _ old => .inl old)
    (fun _ member => .inl (List.mem_of_mem_eraseIdx member)) (fun _ old => .inl old) (fun _ _ old => .inl old)
    (fun _ _ old => .inl old) (fun _ _ old => .inl old)

theorem Chained.runJob (chained : Chained pm answers s) {now : Int} {job : Job}
    (queued : Queued pm answers s.requests s.trace job) : Chained pm answers (runJob pm now job s) := by
  cases queued with
  | verified awaits cleared answered trusted => exact chained.certificateVerified awaits cleared answered trusted
  | @unverified request depth data _ _ unverifiedCallback awaits =>
    have refused : Chained pm answers (invoke pm now unverifiedCallback data s) := chained.unverified awaits
    exact refused
  | timeout outstanding => exact chained.timeout outstanding

-- What is known of an answer to a certificate interest has to follow from what the
-- run admits; the rest is the code's.
theorem Chained.step {action : Action} (chained : Chained pm answers s)
    (known : ∀ index blob now interest closure data, action = .content index blob now →
      s.pending[index]? = some (interest,closure) → Data.decodeFromWire pm.std blob = .ok data →
      closure.timeoutData.signature.keyLocator = .keyname interest.name → answers closure.timeoutData data)
    (taken : step pm s action = some next) : Chained pm answers next := by
  cases step_stepped taken with
  | verifyData data now =>
    have opened : Chained pm answers {s with requests := s.requests ++ [data]} :=
      chained.grow (List.prefix_append _ _) (List.prefix_refl _) (fun _ old => .inl old) (fun _ old => .inl old)
        (fun _ old => .inl old) (fun _ _ old => .inl old) (fun _ _ old => .inl old) (fun _ _ old => .inl old)
    exact opened.consulted (.request (by simp)) verifyData_consulted
  | @content index blob now interest closure data there decoded =>
    cases chained.pending (interest,closure) (List.mem_of_getElem? there) with
    | sent awaits cleared within located =>
      have answered := known index blob now _ _ data rfl there decoded located
      exact (chained.erasePending index).consulted (.certificate awaits cleared within answered) verifyData_consulted
  | @timedOut index interest closure there =>
    exact (chained.erasePending index).execute
      (.timeout (chained.pending (interest,closure) (List.mem_of_getElem? there)))
  | @execute index now job there =>
    exact (chained.eraseJob index).runJob (chained.jobs job (List.mem_of_getElem? there))
  | clean now =>
    exact chained.grow (List.prefix_refl _) (List.prefix_refl _) (fun _ old => .inl old) (fun _ old => .inl old)
      (fun _ old => .inl old) (fun _ _ held => .inl (TTLCertificateCache.clean_holds held))
      (fun _ _ old => .inl old) (fun _ _ old => .inl old)

theorem initial_chained (pm : SimplePolicyManager) (answers : Data → Data → Prop) : Chained pm answers (initial pm) where
  pending item member := by cases member
  jobs job member := by cases member
  verdicts verdict member := by cases member
  cache name certificate held := by
    obtain ⟨entry,member,_⟩ := held
    cases member
  found data certificate member := by cases member
  accepted data certificate member := by cases member

theorem run_chained {ok : State → Action → Prop} {actions : List Action}
    (known : ∀ s index blob now interest closure data, ok s (.content index blob now) →
      s.pending[index]? = some (interest,closure) → Data.decodeFromWire pm.std blob = .ok data →
      closure.timeoutData.signature.keyLocator = .keyname interest.name → answers closure.timeoutData data)
    (run : Runs (step pm) ok (initial pm) actions s) : Chained pm answers s := by
  refine run.invariant (Chained pm answers) (initial_chained pm answers) ?_
  intro s action next chained met taken
  refine chained.step ?_ taken
  rintro index blob now interest closure data rfl there decoded located
  exact known s index blob now interest closure data met there decoded located

end

-- Trust-chain soundness against any answers. The verdicts and the queued
-- continuations are where a verified callback is called; what the cache supplies
-- is itself vouched for, at the time it went in.
theorem verified_trusted (pm : SimplePolicyManager) {actions : List Action} {s : State}
    (run : Runs (step pm) (fun _ _ => True) (initial pm) actions s) :
    (∀ verdict ∈ s.verdicts, verdict.verified = true → Trusted pm s.trace verdict.data) ∧
    (∀ data verifiedCallback unverifiedCallback signCertificate,
      Job.call (.onCertificateVerified data verifiedCallback unverifiedCallback) signCertificate ∈ s.jobs →
      Trusted pm s.trace signCertificate) ∧
    (∀ name certificate, (s.certificateCache.Holds name certificate ∨ ∃ data, Event.found data certificate ∈ s.trace) →
      ∃ signCertificate now before after, identityCertificate pm.decode signCertificate = .ok certificate ∧
        certificate.Valid now ∧ Trusted pm before signCertificate ∧
        s.trace = before ++ Event.inserted certificate signCertificate now :: after) := by
  have chained : Chained pm (fun _ _ => True) s := run_chained (by intros; trivial) run
  have source : ∀ certificate, Vouched pm (fun _ _ => True) s.trace certificate →
      ∃ signCertificate now before after, identityCertificate pm.decode signCertificate = .ok certificate ∧
        certificate.Valid now ∧ Trusted pm before signCertificate ∧
        s.trace = before ++ Event.inserted certificate signCertificate now :: after := by
    intro certificate given
    obtain ⟨_,signCertificate,now,before,after,_,made,valid,trusted,split⟩ := given
    exact ⟨signCertificate,now,before,after,made,valid,trusted,split⟩
  refine ⟨?_,?_,?_⟩
  · intro verdict member verified
    exact ((chained.verdicts verdict member).2 verified).1
  · intro data verifiedCallback unverifiedCallback signCertificate member
    cases chained.jobs _ member with
    | verified _ _ _ trusted => exact trusted
  · intro name certificate given
    rcases given with held | ⟨data,found⟩
    · exact source certificate (chained.cache name certificate held).2
    · exact source certificate (chained.found data certificate found)

-- A policy with one anchor, /KEY/ID-CERT with key 7, whose only rule lets every
-- name sign every longer one. The oracle compares first bytes.
def sampleRule : IdentityPolicyRule :=
  ⟨⟨fun _ => .ok true,fun _ name => .ok name⟩,⟨fun _ => .ok true,fun _ _ => .ok []⟩,.greater⟩

def rootName : Name := [⟨keyString⟩,⟨idString⟩]

def ownerName : Name := [⟨[0x61]⟩,⟨keyString⟩,⟨idString⟩]

def samplePolicy : SimplePolicyManager where
  std := .cxx11
  stepLimit := 3
  cacheSize := 10
  mustFailVerify := []
  verifyPolicies := [sampleRule]
  verifyExempt := []
  anchors := [⟨rootName ++ [⟨[1]⟩],0,0,100,[7]⟩]
  decode content := .ok ⟨0,100,content⟩
  verifySignature data key := decide (data.signature.signatureBits.head? = key.head?)

def samplePacket (name : Name) (locator : KeyLocator) (key content : UInt8) : Data :=
  ⟨name,⟨List.replicate 16 key,[1],locator⟩,⟨some 0,none,0,[content]⟩,none⟩

def sampleData : Data := samplePacket [⟨[0x61]⟩,⟨[0x62]⟩] (.keyname ownerName) 9 5

def sampleCertificate (version : Name) (content : UInt8) : Data :=
  samplePacket (ownerName ++ version) (.keyname rootName) 7 content

def wireOf (data : Data) : Blob := (Data.encodeToWire 0 data).getD []

-- The certificate is asked for, arrives signed by the anchor, and its key is tried.
def sampleRun (signCertificate : Data) : List Action :=
  [.verifyData sampleData 10,.content 0 (wireOf signCertificate) 10,.execute 0 10]

theorem verified_trusted_sample : ∃ s, Runs (step samplePolicy) (fun _ _ => True) (initial samplePolicy)
      (sampleRun (sampleCertificate [⟨[1]⟩] 9)) s ∧
    s.verdicts = [⟨0,true,sampleData⟩] ∧ Trusted samplePolicy s.trace sampleData := by
  have evaluated : (exec (step samplePolicy) (fun _ _ => true) (initial samplePolicy)
      (sampleRun (sampleCertificate [⟨[1]⟩] 9))).map State.verdicts = some [⟨0,true,sampleData⟩] := rfl
  obtain ⟨s,executed,verdicts⟩ := Option.map_eq_some_iff.mp evaluated
  have run := (exec_runs executed).weaken (fun _ _ _ => trivial)
  have trusted := (verified_trusted samplePolicy run).1 ⟨0,true,sampleData⟩ (by simp [verdicts]) rfl
  exact ⟨s,run,verdicts,trusted⟩

end NdnCxx.Security
