import NdnCxx.Security.Soundness

namespace NdnCxx.Security

-- What is assumed of the network: an answer lies under the interest it answers.
def prefixAnswers (pm : SimplePolicyManager) (s : State) : Action → Bool
  | .content index blob _ =>
    match s.pending[index]?,Data.decodeFromWire pm.std blob with
    | some (interest,_),.ok data => interest.name.isPrefixOf data.name
    | _,_ => true
  | _ => true

-- An answer that could be used as a certificate for the waiting packet is exactly one
-- component longer than the interest. Nothing in the code tests this.
def versionedAnswers (pm : SimplePolicyManager) (s : State) : Action → Bool
  | .content index blob _ =>
    match s.pending[index]?,Data.decodeFromWire pm.std blob with
    | some (interest,closure),.ok data =>
      match identityCertificate pm.decode data with
      | .ok certificate =>
        !pm.verifySignature closure.timeoutData certificate.publicKeyInfo ||
          data.name.length == interest.name.length + 1
      | .error _ => true
    | _,_ => true
  | _ => true

-- The packet's locator name followed by one component.
def Bound (data : Data) (name : Name) : Prop :=
  ∃ keyLocatorName version, data.signature.keyLocator = .keyname keyLocatorName ∧ name = keyLocatorName ++ [version]

-- What these two say of an answer, for as long as its certificate may be used.
def Versioned (pm : SimplePolicyManager) (data signCertificate : Data) : Prop :=
  Wire.NonEmptyComponents signCertificate.name ∧
    ∀ certificate, identityCertificate pm.decode signCertificate = .ok certificate →
      pm.verifySignature data certificate.publicKeyInfo = true → Bound data signCertificate.name

theorem prefix_one_more {short long : Name} (inside : short <+: long) (length : long.length = short.length + 1) :
    ∃ version, long = short ++ [version] := by
  obtain ⟨rest,rfl⟩ := inside
  have single : rest.length = 1 := by
    rw [List.length_append] at length
    omega
  obtain ⟨version,rfl⟩ := List.length_eq_one_iff.mp single
  exact ⟨version,rfl⟩

theorem answers_versioned {pm : SimplePolicyManager} {s : State} {index : Nat} {blob : Blob} {now : Int}
    {interest : Interest} {closure : Closure} {data : Data}
    (under : prefixAnswers pm s (.content index blob now) = true)
    (versioned : versionedAnswers pm s (.content index blob now) = true)
    (there : s.pending[index]? = some (interest,closure)) (decoded : Data.decodeFromWire pm.std blob = .ok data)
    (located : closure.timeoutData.signature.keyLocator = .keyname interest.name) :
    Versioned pm closure.timeoutData data := by
  refine ⟨Data.decodeFromWire_name decoded,?_⟩
  intro certificate made verifies
  simp only [prefixAnswers,there,decoded] at under
  simp only [versionedAnswers,there,decoded,made,verifies,Bool.not_true,Bool.false_or,beq_iff_eq] at versioned
  obtain ⟨version,same⟩ := prefix_one_more (List.isPrefixOf_iff_prefix.mp under) versioned
  exact ⟨interest.name,version,located,same⟩

-- Anchors and the cache are keyed by the name without its last component, so there
-- the binding is built in. A fetched certificate owes it to the answer.
theorem supplied_bound {pm : SimplePolicyManager} {data : Data} {certificate : IdentityCertificate}
    (named : ∀ anchor ∈ pm.anchors, anchor.name ≠ [] ∧ Wire.NonEmptyComponents anchor.name)
    (supplied : Supplied pm (Versioned pm) data certificate)
    (verifies : pm.verifySignature data certificate.publicKeyInfo = true) : Bound data certificate.name := by
  cases supplied with
  | anchor located anchored =>
    obtain ⟨member,rfl⟩ := SimplePolicyManager.findAnchor_mem anchored
    obtain ⟨nonempty,components⟩ := named certificate member
    obtain ⟨version,same⟩ := withoutVersion_last components nonempty
    exact ⟨_,version,located,same⟩
  | cached located versioned made =>
    obtain ⟨same,correct⟩ := identityCertificate_name made
    have components : Wire.NonEmptyComponents certificate.name := same ▸ versioned.1
    obtain ⟨version,whole⟩ := withoutVersion_last components (same ▸ correctName_ne_nil correct)
    exact ⟨_,version,located,whole⟩
  | fetched located versioned made =>
    obtain ⟨same,_⟩ := identityCertificate_name made
    rw [same]
    exact versioned.2 certificate made verifies

theorem key_bound (pm : SimplePolicyManager)
    (named : ∀ anchor ∈ pm.anchors, anchor.name ≠ [] ∧ Wire.NonEmptyComponents anchor.name)
    {actions : List Action} {s : State}
    (run : Runs (step pm) (fun s action => prefixAnswers pm s action = true ∧ versionedAnswers pm s action = true)
      (initial pm) actions s) :
    (∀ data certificate, Event.accepted data certificate ∈ s.trace →
      pm.verifySignature data certificate.publicKeyInfo = true ∧
        ∃ keyLocatorName version, data.signature.keyLocator = .keyname keyLocatorName ∧
          certificate.name = keyLocatorName ++ [version]) ∧
    (∀ verdict ∈ s.verdicts, verdict.verified = true → pm.Exempt verdict.data ∨
      ∃ certificate, Event.accepted verdict.data certificate ∈ s.trace) := by
  have chained : Chained pm (Versioned pm) s :=
    run_chained (fun s index blob now interest closure data met there decoded located =>
      answers_versioned met.1 met.2 there decoded located) run
  refine ⟨?_,?_⟩
  · intro data certificate accepted
    obtain ⟨supplied,verifies⟩ := chained.accepted data certificate accepted
    exact ⟨verifies,supplied_bound named supplied verifies⟩
  · intro verdict member verified
    exact ((chained.verdicts verdict member).2 verified).2

theorem key_bound_sample : ∃ s, Runs (step samplePolicy)
      (fun s action => prefixAnswers samplePolicy s action = true ∧ versionedAnswers samplePolicy s action = true)
      (initial samplePolicy) (sampleRun (sampleCertificate [⟨[1]⟩] 9)) s ∧
    ∃ certificate, Event.accepted sampleData certificate ∈ s.trace ∧
      ∃ keyLocatorName version, sampleData.signature.keyLocator = .keyname keyLocatorName ∧
        certificate.name = keyLocatorName ++ [version] := by
  have evaluated : (exec (step samplePolicy)
      (fun s action => prefixAnswers samplePolicy s action && versionedAnswers samplePolicy s action)
      (initial samplePolicy) (sampleRun (sampleCertificate [⟨[1]⟩] 9))).map (fun s => s.trace.getLast?) =
        some (some (.accepted sampleData ⟨ownerName ++ [⟨[1]⟩],0,0,100,[9]⟩)) := rfl
  obtain ⟨s,executed,last⟩ := Option.map_eq_some_iff.mp evaluated
  have run := (exec_runs executed).weaken (fun _ _ met => Bool.and_eq_true_iff.mp met)
  have accepted := List.mem_of_getLast? last
  exact ⟨s,run,_,accepted,((key_bound samplePolicy (by simp [samplePolicy,rootName,Wire.NonEmptyComponents,
    keyString,idString]) run).1 sampleData _ accepted).2⟩

-- The answer to the interest for /a/KEY/ID-CERT carries two components more. Its key
-- verifies the packet, which is accepted.
theorem unversioned_accepted : ∃ s, Runs (step samplePolicy)
      (fun s action => prefixAnswers samplePolicy s action = true) (initial samplePolicy)
      (sampleRun (sampleCertificate [⟨[1]⟩,⟨[2]⟩] 9)) s ∧
    s.verdicts = [⟨0,true,sampleData⟩] ∧
    Event.accepted sampleData ⟨ownerName ++ [⟨[1]⟩,⟨[2]⟩],0,0,100,[9]⟩ ∈ s.trace ∧
    ¬∃ keyLocatorName version, sampleData.signature.keyLocator = .keyname keyLocatorName ∧
      ownerName ++ [⟨[1]⟩,⟨[2]⟩] = keyLocatorName ++ [version] := by
  have evaluated : (exec (step samplePolicy) (prefixAnswers samplePolicy) (initial samplePolicy)
      (sampleRun (sampleCertificate [⟨[1]⟩,⟨[2]⟩] 9))).map (fun s => (s.verdicts,s.trace.getLast?)) =
        some ([⟨0,true,sampleData⟩],some (.accepted sampleData ⟨ownerName ++ [⟨[1]⟩,⟨[2]⟩],0,0,100,[9]⟩)) := rfl
  obtain ⟨s,executed,seen⟩ := Option.map_eq_some_iff.mp evaluated
  refine ⟨s,exec_runs executed,congrArg Prod.fst seen,List.mem_of_getLast? (congrArg Prod.snd seen),?_⟩
  intro given
  obtain ⟨keyLocatorName,version,located,same⟩ := given
  have key : ownerName = keyLocatorName := KeyLocator.keyname.inj located
  have lengths := congrArg List.length same
  rw [← key] at lengths
  simp at lengths

end NdnCxx.Security
