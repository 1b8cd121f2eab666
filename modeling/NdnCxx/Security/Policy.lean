import NdnCxx.Security.Certificate

namespace NdnCxx.Security

section AnyM
variable {α ε : Type} {test : α → Except ε Bool} {items : List α}

theorem anyM_cons (test : α → Except ε Bool) (item : α) (items : List α) :
    (item :: items).anyM test = (test item).bind (fun found => if found then .ok true else items.anyM test) := by
  rw [List.anyM]
  cases test item with
  | error e => rfl
  | ok found => cases found <;> rfl

theorem anyM_true (found : items.anyM test = .ok true) : ∃ item ∈ items, test item = .ok true := by
  induction items with
  | nil => cases found
  | cons item items ih =>
    rw [anyM_cons] at found
    cases tested : test item with
    | error e => simp [tested,Except.bind] at found
    | ok hit =>
      cases hit with
      | true => exact ⟨item,List.mem_cons_self,tested⟩
      | false =>
        obtain ⟨other,member,same⟩ := ih (by simpa [tested,Except.bind] using found)
        exact ⟨other,List.mem_cons_of_mem _ member,same⟩

theorem anyM_false (missed : items.anyM test = .ok false) : ∀ item ∈ items, test item = .ok false := by
  induction items with
  | nil => simp
  | cons item items ih =>
    rw [anyM_cons] at missed
    cases tested : test item with
    | error e => simp [tested,Except.bind] at missed
    | ok hit =>
      cases hit with
      | true => simp [tested,Except.bind] at missed
      | false => exact List.forall_mem_cons.mpr ⟨tested,ih (by simpa [tested,Except.bind] using missed)⟩

theorem anyM_total (total : ∀ item ∈ items, ∃ found, test item = .ok found) : ∃ found, items.anyM test = .ok found := by
  induction items with
  | nil => exact ⟨false,rfl⟩
  | cons item items ih =>
    obtain ⟨⟨hit,tested⟩,others⟩ := List.forall_mem_cons.mp total
    rw [anyM_cons,tested]
    cases hit with
    | true => exact ⟨true,rfl⟩
    | false => exact ih others

end AnyM

theorem ok_of_isOk {α : Type} {result : Except Exception α} (fine : result.isOk = true) : ∃ value, result = .ok value := by
  cases result with
  | error e => cases fine
  | ok value => exact ⟨value,rfl⟩

-- A compiled name regex with its template. Matching looks at nothing but the name.
-- An expansion follows a match and may also show captures that an earlier match
-- left behind, so it depends on the moment of the run it is made at.
structure Regex where
  matchName : Name → Except Exception Bool
  expand : Nat → Name → Except Exception Name

inductive Operator where
  | equal
  | greater
  | greaterEqual
  deriving DecidableEq, Repr

structure IdentityPolicyRule where
  dataNameRegex : Regex
  signerNameRegex : Regex
  op : Operator

namespace IdentityPolicyRule

-- The loop of `compare`, with the test that follows it.
def comparePrefix : Name → Name → Bool
  | [],_ => false
  | _ :: _,[] => true
  | i :: dataName,j :: signerName => if i.compare j = 0 then comparePrefix dataName signerName else false

def compare (op : Operator) (dataName signerName : Name) : Bool :=
  if Name.compare dataName signerName = 0 ∧ (op = .equal ∨ op = .greaterEqual) then true
  else comparePrefix dataName signerName

def satisfyNames (rule : IdentityPolicyRule) (moment : Nat) (dataName signerName : Name) : Except Exception Bool := do
  if !(← rule.dataNameRegex.matchName dataName) then return false
  let expandDataName ← rule.dataNameRegex.expand moment dataName
  if !(← rule.signerNameRegex.matchName signerName) then return false
  let expandSignerName ← rule.signerNameRegex.expand moment signerName
  return compare rule.op expandDataName expandSignerName

-- `getKeyName` throws on a locator of another type, before any test of it is made.
def satisfy (rule : IdentityPolicyRule) (moment : Nat) (data : Data) : Except Exception Bool :=
  match data.signature.keyLocator with
  | .keyname signerName => rule.satisfyNames moment data.name signerName
  | _ => .error .keyLocator

def matchDataName (rule : IdentityPolicyRule) (data : Data) : Except Exception Bool :=
  rule.dataNameRegex.matchName data.name

theorem satisfy_keyname {rule : IdentityPolicyRule} {moment : Nat} {data : Data} {answer : Bool}
    (satisfied : rule.satisfy moment data = .ok answer) : ∃ name, data.signature.keyLocator = .keyname name := by
  unfold satisfy at satisfied
  cases located : data.signature.keyLocator with
  | keyname name => exact ⟨name,rfl⟩
  | notset => simp [located] at satisfied
  | key bits => simp [located] at satisfied
  | certificate bits => simp [located] at satisfied

end IdentityPolicyRule

-- Matching the name and, on a match, expanding it throw nothing.
def Regex.evaluates (regex : Regex) (moment : Nat) (name : Name) : Bool :=
  match regex.matchName name with
  | .ok true => (regex.expand moment name).isOk
  | .ok false => true
  | .error _ => false

-- The same for the two regexes of a rule, as far as a packet gets into them.
def IdentityPolicyRule.evaluates (rule : IdentityPolicyRule) (moment : Nat) (data : Data) : Bool :=
  match rule.dataNameRegex.matchName data.name,data.signature.keyLocator with
  | .ok true,.keyname signerName =>
    (rule.dataNameRegex.expand moment data.name).isOk && rule.signerNameRegex.evaluates moment signerName
  | .ok _,_ => true
  | .error _,_ => false

namespace IdentityPolicyRule
variable {rule : IdentityPolicyRule} {moment : Nat} {data : Data}

theorem match_total (evaluates : rule.evaluates moment data = true) :
    ∃ matched, rule.matchDataName data = .ok matched := by
  unfold IdentityPolicyRule.evaluates at evaluates
  cases result : rule.dataNameRegex.matchName data.name with
  | error e => simp [result] at evaluates
  | ok matched => exact ⟨matched,result⟩

theorem satisfy_total {name : Name} (evaluates : rule.evaluates moment data = true)
    (located : data.signature.keyLocator = .keyname name) : ∃ satisfied, rule.satisfy moment data = .ok satisfied := by
  unfold IdentityPolicyRule.evaluates at evaluates
  simp only [satisfy,located,satisfyNames]
  cases dataMatch : rule.dataNameRegex.matchName data.name with
  | error e => simp [dataMatch] at evaluates
  | ok dataMatched =>
    cases dataMatched with
    | false => exact ⟨false,rfl⟩
    | true =>
      simp only [dataMatch,located,Bool.and_eq_true] at evaluates
      obtain ⟨dataName,dataExpand⟩ := ok_of_isOk evaluates.1
      have signer := evaluates.2
      unfold Regex.evaluates at signer
      cases signerMatch : rule.signerNameRegex.matchName name with
      | error e => simp [signerMatch] at signer
      | ok signerMatched =>
        cases signerMatched with
        | false => exact ⟨false,by simp [dataExpand,bind,Except.bind,pure,Except.pure]⟩
        | true =>
          obtain ⟨signerName,signerExpand⟩ := ok_of_isOk (by simpa [signerMatch] using signer)
          exact ⟨_,by simp only [dataExpand,signerExpand,bind,Except.bind,pure,Except.pure]; rfl⟩

end IdentityPolicyRule

-- The policy manager as it is configured, with what it takes from outside: the DER
-- decoder of certificate contents and the RSA check. The lists hold what was added,
-- in that order.
structure SimplePolicyManager where
  std : Standard
  stepLimit : Nat
  cacheSize : Nat
  mustFailVerify : List IdentityPolicyRule
  verifyPolicies : List IdentityPolicyRule
  verifyExempt : List Regex
  anchors : List IdentityCertificate
  decode : Blob → Except Exception CertificateContent
  verifySignature : Data → Blob → Bool

-- `std::map::insert` leaves an entry that is there alone.
def addTrustAnchor (trustAnchors : List (Name × IdentityCertificate)) (certificate : IdentityCertificate) :
    List (Name × IdentityCertificate) :=
  let name := withoutVersion certificate.name
  if trustAnchors.any (fun item => decide (item.1 = name)) then trustAnchors
  else trustAnchors ++ [(name,certificate)]

namespace SimplePolicyManager
variable (pm : SimplePolicyManager)

def trustAnchors : List (Name × IdentityCertificate) := pm.anchors.foldl addTrustAnchor []

def findAnchor (name : Name) : Option IdentityCertificate :=
  (pm.trustAnchors.find? (fun item => decide (item.1 = name))).map Prod.snd

def requireVerify (data : Data) : Except Exception Bool := do
  if ← pm.verifyPolicies.anyM (fun rule => rule.matchDataName data) then return true
  if ← pm.mustFailVerify.anyM (fun rule => rule.matchDataName data) then return true
  return false

def skipVerifyAndTrust (data : Data) : Except Exception Bool :=
  pm.verifyExempt.anyM (fun regex => regex.matchName data.name)

-- The packet has no part in the policy at all and an exemption names it.
def Exempt (data : Data) : Prop :=
  (∀ rule ∈ pm.verifyPolicies ++ pm.mustFailVerify, rule.matchDataName data = .ok false) ∧
    ∃ regex ∈ pm.verifyExempt, regex.matchName data.name = .ok true

-- What the rules say of the packet when they are asked at a moment.
def Allowed (moment : Nat) (data : Data) : Prop :=
  (∀ rule ∈ pm.mustFailVerify, rule.satisfy moment data = .ok false) ∧
    ∃ rule ∈ pm.verifyPolicies, rule.satisfy moment data = .ok true

-- No regex of the policy throws on the packet.
def evaluates (moment : Nat) (data : Data) : Bool :=
  (pm.verifyPolicies ++ pm.mustFailVerify).all (fun rule => rule.evaluates moment data) &&
    pm.verifyExempt.all (fun regex => (regex.matchName data.name).isOk)

variable {pm}

theorem addTrustAnchor_key {trustAnchors : List (Name × IdentityCertificate)} {certificate : IdentityCertificate}
    {item : Name × IdentityCertificate} (member : item ∈ addTrustAnchor trustAnchors certificate) :
    item ∈ trustAnchors ∨ item = (withoutVersion certificate.name,certificate) := by
  unfold addTrustAnchor at member
  simp only at member
  split at member
  · exact .inl member
  · rcases List.mem_append.mp member with old | new
    · exact .inl old
    · exact .inr (List.mem_singleton.mp new)

theorem trustAnchors_key {item : Name × IdentityCertificate} (member : item ∈ pm.trustAnchors) :
    item.2 ∈ pm.anchors ∧ item.1 = withoutVersion item.2.name := by
  have folded : ∀ (added : List IdentityCertificate) (start : List (Name × IdentityCertificate)),
      item ∈ added.foldl addTrustAnchor start →
        item ∈ start ∨ (item.2 ∈ added ∧ item.1 = withoutVersion item.2.name) := by
    intro added
    induction added with
    | nil => exact fun start present => .inl present
    | cons certificate added ih =>
      intro start present
      rcases ih _ present with earlier | ⟨inside,key⟩
      · rcases addTrustAnchor_key earlier with old | rfl
        · exact .inl old
        · exact .inr ⟨List.mem_cons_self,rfl⟩
      · exact .inr ⟨List.mem_cons_of_mem _ inside,key⟩
  rcases folded pm.anchors [] member with none | found
  · cases none
  · exact found

theorem findAnchor_mem {name : Name} {certificate : IdentityCertificate}
    (found : pm.findAnchor name = some certificate) :
    certificate ∈ pm.anchors ∧ name = withoutVersion certificate.name := by
  obtain ⟨item,located,rfl⟩ := Option.map_eq_some_iff.mp found
  have key := trustAnchors_key (List.mem_of_find?_eq_some located)
  have named := List.find?_some located
  have same : item.1 = name := of_decide_eq_true named
  exact ⟨key.1,same ▸ key.2⟩

theorem requireVerify_false {data : Data} (free : pm.requireVerify data = .ok false) :
    ∀ rule ∈ pm.verifyPolicies ++ pm.mustFailVerify, rule.matchDataName data = .ok false := by
  unfold requireVerify at free
  cases positive : pm.verifyPolicies.anyM (fun rule => rule.matchDataName data) with
  | error e => simp [positive,bind,Except.bind] at free
  | ok first =>
    cases first with
    | true => simp [positive,bind,Except.bind,pure,Except.pure] at free
    | false =>
      cases negative : pm.mustFailVerify.anyM (fun rule => rule.matchDataName data) with
      | error e => simp [positive,negative,bind,Except.bind] at free
      | ok second =>
        cases second with
        | true => simp [positive,negative,bind,Except.bind,pure,Except.pure] at free
        | false =>
          intro rule member
          rcases List.mem_append.mp member with first | second
          · exact anyM_false positive rule first
          · exact anyM_false negative rule second

theorem exempt_of {data : Data} (free : pm.requireVerify data = .ok false)
    (skipped : pm.skipVerifyAndTrust data = .ok true) : pm.Exempt data :=
  ⟨requireVerify_false free,anyM_true skipped⟩

theorem rule_evaluates {moment : Nat} {data : Data} (evaluates : pm.evaluates moment data = true)
    {rule : IdentityPolicyRule} (member : rule ∈ pm.verifyPolicies ++ pm.mustFailVerify) :
    rule.evaluates moment data = true :=
  List.all_eq_true.mp (Bool.and_eq_true_iff.mp evaluates).1 rule member

theorem requireVerify_total {moment : Nat} {data : Data} (evaluates : pm.evaluates moment data = true) :
    ∃ required, pm.requireVerify data = .ok required := by
  obtain ⟨first,positive⟩ : ∃ found, pm.verifyPolicies.anyM (fun rule => rule.matchDataName data) = .ok found :=
    anyM_total (fun rule member => IdentityPolicyRule.match_total (rule_evaluates evaluates (List.mem_append_left _ member)))
  obtain ⟨second,negative⟩ : ∃ found, pm.mustFailVerify.anyM (fun rule => rule.matchDataName data) = .ok found :=
    anyM_total (fun rule member => IdentityPolicyRule.match_total (rule_evaluates evaluates (List.mem_append_right _ member)))
  unfold requireVerify
  cases first <;> cases second <;> simp [positive,negative,bind,Except.bind,pure,Except.pure]

theorem skip_total {moment : Nat} {data : Data} (evaluates : pm.evaluates moment data = true) :
    ∃ skipped, pm.skipVerifyAndTrust data = .ok skipped := by
  apply anyM_total
  intro regex member
  exact ok_of_isOk (List.all_eq_true.mp (Bool.and_eq_true_iff.mp evaluates).2 regex member)

end SimplePolicyManager
end NdnCxx.Security
