import NdnCxx.Security.Verification

namespace NdnCxx.Security

section Predicates
variable (pm : SimplePolicyManager)

-- The rules let the packet through when the run asked them.
def Cleared (trace : List Event) (data : Data) : Prop :=
  ∃ moment, Event.checked data moment ∈ trace ∧ pm.Allowed moment data

-- The certificate was made of the packet and inside its validity period at the time
-- the packet's own verification completed.
def Issued (trace : List Event) (signCertificate : Data) (certificate : IdentityCertificate) : Prop :=
  identityCertificate pm.decode signCertificate = .ok certificate ∧
    ∃ now, Event.inserted certificate signCertificate now ∈ trace ∧ certificate.Valid now

-- The packets the policy is meant to accept, by what the run has seen so far.
inductive Trusted (trace : List Event) : Data → Prop where
  | exempt {data : Data} : pm.Exempt data → Trusted trace data
  | anchor {data : Data} {name : Name} {certificate : IdentityCertificate} : Cleared pm trace data →
      data.signature.keyLocator = .keyname name → pm.findAnchor name = some certificate →
      pm.verifySignature data certificate.publicKeyInfo = true → Trusted trace data
  | cached {data : Data} {certificate : IdentityCertificate} : Cleared pm trace data →
      Event.found data certificate ∈ trace → pm.verifySignature data certificate.publicKeyInfo = true →
      Trusted trace data
  | fetched {data signCertificate : Data} {certificate : IdentityCertificate} : Cleared pm trace data →
      Trusted trace signCertificate → Issued pm trace signCertificate certificate →
      pm.verifySignature data certificate.publicKeyInfo = true → Trusted trace data

variable (answers : Data → Data → Prop)

-- A packet in the hands of the code, with the two continuations its verdict goes to
-- and their depth: it is the packet of a request, or it came in as a certificate
-- for a packet that is itself awaited. `answers` is what is known of such an answer.
inductive Awaits (requests : List Data) (trace : List Event) (request : Nat) : Data → Callback → Callback → Nat → Prop
    where
  | request {data : Data} : requests[request]? = some data →
      Awaits requests trace request data (.verified request) (.unverified request) 0
  | certificate {data signCertificate : Data} {verifiedCallback unverifiedCallback : Callback} {depth : Nat} :
      Awaits requests trace request data verifiedCallback unverifiedCallback depth → Cleared pm trace data →
      depth < pm.stepLimit → answers data signCertificate →
      Awaits requests trace request signCertificate
        (.onVerify (.onCertificateVerified data verifiedCallback unverifiedCallback))
        (.onVerifyError (.onCertificateUnverified data unverifiedCallback)) (depth + 1)

inductive Outstanding (requests : List Data) (trace : List Event) : Interest → Closure → Prop where
  | sent {request depth retry : Nat} {data : Data} {verifiedCallback unverifiedCallback : Callback} {name : Name} :
      Awaits pm answers requests trace request data verifiedCallback unverifiedCallback depth →
      Cleared pm trace data → depth < pm.stepLimit → data.signature.keyLocator = .keyname name →
      Outstanding requests trace (certificateInterest name)
        ⟨.onCertificateVerified data verifiedCallback unverifiedCallback,retry,unverifiedCallback,data,
          .onCertificateUnverified data unverifiedCallback,depth + 1⟩

inductive Queued (requests : List Data) (trace : List Event) : Job → Prop where
  | verified {request depth : Nat} {data signCertificate : Data} {verifiedCallback unverifiedCallback : Callback} :
      Awaits pm answers requests trace request data verifiedCallback unverifiedCallback depth →
      Cleared pm trace data → answers data signCertificate → Trusted pm trace signCertificate →
      Queued requests trace (.call (.onCertificateVerified data verifiedCallback unverifiedCallback) signCertificate)
  | unverified {request depth : Nat} {data signCertificate : Data} {verifiedCallback unverifiedCallback : Callback} :
      Awaits pm answers requests trace request data verifiedCallback unverifiedCallback depth →
      Queued requests trace (.call (.onCertificateUnverified data unverifiedCallback) signCertificate)
  | timeout {interest : Interest} {closure : Closure} : Outstanding pm answers requests trace interest closure →
      Queued requests trace (.timeout closure interest)

-- Where the key that verified an accepted packet came from.
inductive Supplied : Data → IdentityCertificate → Prop where
  | anchor {data : Data} {name : Name} {certificate : IdentityCertificate} :
      data.signature.keyLocator = .keyname name → pm.findAnchor name = some certificate → Supplied data certificate
  | cached {data waiting signCertificate : Data} {certificate : IdentityCertificate} :
      data.signature.keyLocator = .keyname (withoutVersion certificate.name) → answers waiting signCertificate →
      identityCertificate pm.decode signCertificate = .ok certificate → Supplied data certificate
  | fetched {data signCertificate : Data} {certificate : IdentityCertificate} {name : Name} :
      data.signature.keyLocator = .keyname name → answers data signCertificate →
      identityCertificate pm.decode signCertificate = .ok certificate → Supplied data certificate

-- The certificate was put into the cache out of a packet that was trusted by then,
-- inside its validity period.
def Vouched (trace : List Event) (certificate : IdentityCertificate) : Prop :=
  ∃ waiting signCertificate now before after,answers waiting signCertificate ∧
    identityCertificate pm.decode signCertificate = .ok certificate ∧ certificate.Valid now ∧
    Trusted pm before signCertificate ∧ trace = before ++ Event.inserted certificate signCertificate now :: after

-- A packet whose verdict is positive: either an exemption let it pass, or the key of
-- some certificate did.
def Decided (trace : List Event) (data : Data) : Prop :=
  Trusted pm trace data ∧ (pm.Exempt data ∨ ∃ certificate, Event.accepted data certificate ∈ trace)

-- What holds between any two steps of any run.
structure Chained (s : State) : Prop where
  pending : ∀ item ∈ s.pending, Outstanding pm answers s.requests s.trace item.1 item.2
  jobs : ∀ job ∈ s.jobs, Queued pm answers s.requests s.trace job
  verdicts : ∀ verdict ∈ s.verdicts, s.requests[verdict.request]? = some verdict.data ∧
    (verdict.verified = true → Decided pm s.trace verdict.data)
  cache : ∀ name certificate, s.certificateCache.Holds name certificate →
    name = withoutVersion certificate.name ∧ Vouched pm answers s.trace certificate
  found : ∀ data certificate, Event.found data certificate ∈ s.trace → Vouched pm answers s.trace certificate
  accepted : ∀ data certificate, Event.accepted data certificate ∈ s.trace →
    Supplied pm answers data certificate ∧ pm.verifySignature data certificate.publicKeyInfo = true

end Predicates

section Growth
variable {pm : SimplePolicyManager} {answers : Data → Data → Prop} {requests requests' : List Data}
  {trace trace' : List Event}

theorem Cleared.mono {data : Data} (grown : trace ⊆ trace') (cleared : Cleared pm trace data) :
    Cleared pm trace' data := by
  obtain ⟨moment,checked,allowed⟩ := cleared
  exact ⟨moment,grown checked,allowed⟩

theorem Cleared.located {data : Data} (cleared : Cleared pm trace data) :
    ∃ name, data.signature.keyLocator = .keyname name := by
  obtain ⟨moment,_,_,rule,_,satisfied⟩ := cleared
  exact IdentityPolicyRule.satisfy_keyname satisfied

theorem Issued.mono {signCertificate : Data} {certificate : IdentityCertificate} (grown : trace ⊆ trace')
    (issued : Issued pm trace signCertificate certificate) : Issued pm trace' signCertificate certificate := by
  obtain ⟨made,now,inserted,valid⟩ := issued
  exact ⟨made,now,grown inserted,valid⟩

theorem Trusted.mono {data : Data} (grown : trace ⊆ trace') (trusted : Trusted pm trace data) :
    Trusted pm trace' data := by
  induction trusted with
  | exempt free => exact .exempt free
  | anchor cleared located anchored verifies => exact .anchor (cleared.mono grown) located anchored verifies
  | cached cleared found verifies => exact .cached (cleared.mono grown) (grown found) verifies
  | fetched cleared _ issued verifies ih => exact .fetched (cleared.mono grown) ih (issued.mono grown) verifies

theorem Decided.mono {data : Data} (grown : trace ⊆ trace') (decided : Decided pm trace data) :
    Decided pm trace' data := by
  obtain ⟨trusted,free | ⟨certificate,accepted⟩⟩ := decided
  · exact ⟨trusted.mono grown,.inl free⟩
  · exact ⟨trusted.mono grown,.inr ⟨certificate,grown accepted⟩⟩

theorem Vouched.mono {certificate : IdentityCertificate} (grown : trace <+: trace')
    (vouched : Vouched pm answers trace certificate) : Vouched pm answers trace' certificate := by
  obtain ⟨waiting,signCertificate,now,before,after,answered,made,valid,trusted,rfl⟩ := vouched
  obtain ⟨rest,rfl⟩ := grown
  exact ⟨waiting,signCertificate,now,before,after ++ rest,answered,made,valid,trusted,by simp⟩

theorem prefix_getElem? {id : Nat} {data : Data} (longer : requests <+: requests') (there : requests[id]? = some data) :
    requests'[id]? = some data := by
  obtain ⟨rest,rfl⟩ := longer
  obtain ⟨inside,_⟩ := List.getElem?_eq_some_iff.mp there
  rw [List.getElem?_append_left inside]
  exact there

theorem Awaits.mono {request depth : Nat} {data : Data} {verifiedCallback unverifiedCallback : Callback}
    (longer : requests <+: requests') (grown : trace ⊆ trace')
    (awaits : Awaits pm answers requests trace request data verifiedCallback unverifiedCallback depth) :
    Awaits pm answers requests' trace' request data verifiedCallback unverifiedCallback depth := by
  induction awaits with
  | request there => exact .request (prefix_getElem? longer there)
  | certificate _ cleared within answered ih => exact .certificate ih (cleared.mono grown) within answered

theorem Awaits.depth_le {request depth : Nat} {data : Data} {verifiedCallback unverifiedCallback : Callback}
    (awaits : Awaits pm answers requests trace request data verifiedCallback unverifiedCallback depth) :
    depth ≤ pm.stepLimit := by
  cases awaits with
  | request => exact Nat.zero_le _
  | certificate _ _ within _ => exact within

theorem Outstanding.mono {interest : Interest} {closure : Closure} (longer : requests <+: requests')
    (grown : trace ⊆ trace') (outstanding : Outstanding pm answers requests trace interest closure) :
    Outstanding pm answers requests' trace' interest closure := by
  cases outstanding with
  | sent awaits cleared within located => exact .sent (awaits.mono longer grown) (cleared.mono grown) within located

theorem Queued.mono {job : Job} (longer : requests <+: requests') (grown : trace ⊆ trace')
    (queued : Queued pm answers requests trace job) : Queued pm answers requests' trace' job := by
  cases queued with
  | verified awaits cleared answered trusted =>
    exact .verified (awaits.mono longer grown) (cleared.mono grown) answered (trusted.mono grown)
  | unverified awaits => exact .unverified (awaits.mono longer grown)
  | timeout outstanding => exact .timeout (outstanding.mono longer grown)

end Growth
end NdnCxx.Security
