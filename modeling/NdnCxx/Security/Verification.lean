import NdnCxx.Security.Policy

namespace NdnCxx.Security

-- The continuations `boost::bind` builds, with their bound arguments. The first two
-- are those of the application, told apart by the request they belong to.
inductive Callback where
  | verified (request : Nat)
  | unverified (request : Nat)
  | onCertificateVerified (data : Data) (verifiedCallback unverifiedCallback : Callback)
  | onCertificateUnverified (data : Data) (unverifiedCallback : Callback)
  | onVerify (dataCallback : Callback)
  | onVerifyError (unverifiedCallback : Callback)
  deriving DecidableEq, Repr

-- The timeout callback is always `onCertificateInterestTimeout`; its three bound
-- arguments stand in the closure.
structure Closure where
  dataCallback : Callback
  retry : Nat
  timeoutUnverifiedCallback : Callback
  timeoutData : Data
  unverifiedCallback : Callback
  stepCount : Nat
  deriving DecidableEq, Repr

structure ValidationRequest where
  interest : Interest
  verifiedCallback : Callback
  unverifiedCallback : Callback
  retry : Nat
  stepCount : Nat
  deriving DecidableEq, Repr

inductive Job where
  | call (callback : Callback) (data : Data)
  | timeout (closure : Closure) (interest : Interest)
  deriving DecidableEq, Repr

-- What a run leaves behind for the reader: nothing in the code looks at it.
inductive Event where
  | checked (data : Data) (moment : Nat)
  | found (data : Data) (certificate : IdentityCertificate)
  | inserted (certificate : IdentityCertificate) (signCertificate : Data) (now : Int)
  | accepted (data : Data) (certificate : IdentityCertificate)
  deriving DecidableEq, Repr

structure Verdict where
  request : Nat
  verified : Bool
  data : Data
  deriving DecidableEq, Repr

structure State where
  requests : List Data
  moment : Nat
  certificateCache : TTLCertificateCache
  pending : List (Interest × Closure)
  jobs : List Job
  verdicts : List Verdict
  exceptions : List Exception
  trace : List Event
  deriving DecidableEq, Repr

namespace State

def record (s : State) (event : Event) : State := {s with trace := s.trace ++ [event]}

def throwing (s : State) (exception : Exception) : State := {s with exceptions := s.exceptions ++ [exception]}

def execute (s : State) (job : Job) : State := {s with jobs := s.jobs ++ [job]}

def sendInterest (s : State) (interest : Interest) (closure : Closure) : State :=
  {s with pending := s.pending ++ [(interest,closure)]}

-- The policy is asked once more: captures of its regexes move on.
def consult (s : State) (data : Data) : State :=
  {s with moment := s.moment + 1,trace := s.trace ++ [.checked data (s.moment + 1)]}

def insertCertificate (s : State) (now : Int) (certificate : IdentityCertificate) (signCertificate : Data) : State :=
  {s with
    certificateCache := s.certificateCache.insertCertificate now certificate
    trace := s.trace ++ [.inserted certificate signCertificate now]}

-- Trust anchors go before the cache, and only a look into the cache moves it.
def lookup (pm : SimplePolicyManager) (keyLocatorName : Name) (data : Data) (s : State) :
    Option IdentityCertificate × State :=
  match pm.findAnchor keyLocatorName with
  | some certificate => (some certificate,s)
  | none =>
    match s.certificateCache.getCertificate keyLocatorName with
    | (some certificate,cache) =>
      (some certificate,{s with certificateCache := cache,trace := s.trace ++ [.found data certificate]})
    | (none,cache) => (none,{s with certificateCache := cache})

end State

section
variable (pm : SimplePolicyManager) (now : Int)

-- Calling a continuation. The clock stands still during one call; the source reads
-- it again for every test.
def invoke : Callback → Data → State → State
  | .verified request,data,s => {s with verdicts := s.verdicts ++ [⟨request,true,data⟩]}
  | .unverified request,data,s => {s with verdicts := s.verdicts ++ [⟨request,false,data⟩]}
  | .onCertificateVerified data verifiedCallback unverifiedCallback,signCertificate,s =>
    match identityCertificate pm.decode signCertificate with
    | .error e => s.throwing e
    | .ok certificate =>
      if !certificate.isTooLate now && !certificate.isTooEarly now then
        let s := s.insertCertificate now certificate signCertificate
        if pm.verifySignature data certificate.publicKeyInfo then
          invoke verifiedCallback data (s.record (.accepted data certificate))
        -- No branch for a key that does not fit: neither callback is called.
        else s
      else invoke unverifiedCallback data s
  | .onCertificateUnverified data unverifiedCallback,_,s => invoke unverifiedCallback data s
  | .onVerify dataCallback,data,s => s.execute (.call dataCallback data)
  | .onVerifyError unverifiedCallback,data,s => s.execute (.call unverifiedCallback data)

def certificateInterest (keyLocatorName : Name) : Interest :=
  {Interest.fresh with name := keyLocatorName,childSelector := 1}

def checkVerificationPolicy (data : Data) (stepCount : Nat) (verifiedCallback unverifiedCallback : Callback)
    (s : State) : Except Exception (Option ValidationRequest × State) :=
  if pm.stepLimit = stepCount then .ok (none,invoke pm now unverifiedCallback data s)
  else do
    if ← pm.mustFailVerify.anyM (fun rule => rule.satisfy s.moment data) then
      return (none,invoke pm now unverifiedCallback data s)
    -- The first rule that is satisfied decides: its branch always returns.
    if ← pm.verifyPolicies.anyM (fun rule => rule.satisfy s.moment data) then
      match data.signature.keyLocator with
      | .keyname keyLocatorName =>
        match s.lookup pm keyLocatorName data with
        | (some trustedCert,s) =>
          if pm.verifySignature data trustedCert.publicKeyInfo then
            return (none,invoke pm now verifiedCallback data (s.record (.accepted data trustedCert)))
          else return (none,invoke pm now unverifiedCallback data s)
        | (none,s) =>
          return (some ⟨certificateInterest keyLocatorName,
            .onCertificateVerified data verifiedCallback unverifiedCallback,
            .onCertificateUnverified data unverifiedCallback,3,stepCount + 1⟩,s)
      | _ => return (none,invoke pm now unverifiedCallback data s)
    return (none,invoke pm now unverifiedCallback data s)

def verifyData (data : Data) (verifiedCallback unverifiedCallback : Callback) (stepCount : Nat) (s : State) : State :=
  match pm.requireVerify data with
  | .error e => s.throwing e
  | .ok true =>
    match checkVerificationPolicy pm now data stepCount verifiedCallback unverifiedCallback (s.consult data) with
    | .error e => (s.consult data).throwing e
    | .ok (none,s) => s
    | .ok (some nextStep,s) =>
      s.sendInterest nextStep.interest ⟨nextStep.verifiedCallback,nextStep.retry,unverifiedCallback,data,
        nextStep.unverifiedCallback,nextStep.stepCount⟩
  | .ok false =>
    match pm.skipVerifyAndTrust data with
    | .error e => s.throwing e
    | .ok true => invoke pm now verifiedCallback data s
    | .ok false => invoke pm now unverifiedCallback data s

def onCertificateInterestTimeout (closure : Closure) (interest : Interest) (s : State) : State :=
  if closure.retry > 0 then s.sendInterest interest {closure with retry := closure.retry - 1}
  else invoke pm now closure.timeoutUnverifiedCallback closure.timeoutData s

-- The content upcall of `incomingData`.
def incomingData (closure : Closure) (data : Data) (s : State) : State :=
  verifyData pm now data (.onVerify closure.dataCallback) (.onVerifyError closure.unverifiedCallback)
    closure.stepCount s

def runJob : Job → State → State
  | .call callback data,s => invoke pm now callback data s
  | .timeout closure interest,s => onCertificateInterestTimeout pm now closure interest s

end

-- What can happen next: the application asks, an expressed interest is answered by
-- a packet or times out, a worker takes up a queued job, the cache is cleaned. An
-- answer that does not decode is outside the model.
inductive Action where
  | verifyData (data : Data) (now : Int)
  | content (index : Nat) (blob : Blob) (now : Int)
  | timedOut (index : Nat)
  | execute (index : Nat) (now : Int)
  | clean (now : Int)
  deriving DecidableEq, Repr

def step (pm : SimplePolicyManager) (s : State) : Action → Option State
  | .verifyData data now =>
    some (verifyData pm now data (.verified s.requests.length) (.unverified s.requests.length) 0
      {s with requests := s.requests ++ [data]})
  | .content index blob now =>
    match s.pending[index]?,Data.decodeFromWire pm.std blob with
    | some (_,closure),.ok data => some (incomingData pm now closure data {s with pending := s.pending.eraseIdx index})
    | _,_ => none
  | .timedOut index =>
    match s.pending[index]? with
    | some (interest,closure) =>
      some ({s with pending := s.pending.eraseIdx index}.execute (.timeout closure interest))
    | none => none
  | .execute index now =>
    match s.jobs[index]? with
    | some job => some (runJob pm now job {s with jobs := s.jobs.eraseIdx index})
    | none => none
  | .clean now => some {s with certificateCache := s.certificateCache.clean now}

def initial (pm : SimplePolicyManager) : State := ⟨[],0,.empty pm.cacheSize,[],[],[],[],[]⟩

end NdnCxx.Security
