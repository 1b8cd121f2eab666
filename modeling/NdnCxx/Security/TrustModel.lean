import NdnCxx.Security.DefaultRules
import NdnCxx.Security.Soundness

namespace NdnCxx.Security
open NdnCxx.Regex

-- The policy manager of `Keychain ()`, and its lists for signing.
def defaultManager (std : Standard) (decode : Blob → Except Exception CertificateContent) (verifySignature : Data → Blob → Bool)
    (rules : DefaultRules) : SimplePolicyManager where
  std := std
  stepLimit := 10
  cacheSize := 1000
  mustFailVerify := []
  verifyPolicies := rules.verifyPolicies
  verifyExempt := []
  anchors := []
  decode := decode
  verifySignature := verifySignature

def defaultSigning (rules : DefaultRules) : SigningPolicies := ⟨[],rules.signPolicies,[]⟩

-- The signer is a data signing key of a namespace above the name.
def DataSigner (oracle : Oracle) (dataName signerName : Name) : Prop :=
  ∃ above, dskNamespace oracle signerName = some above ∧ ProperPrefix above (filled dataName)

-- Whom the default rules let sign what. A key signing key may stand anywhere above the
-- data signing key, since `==` takes prefixes too.
inductive Endorsed (oracle : Oracle) (dataName signerName : Name) : Prop where
  | ksk {below above : Name} : kskNamespace oracle dataName = some below → dskNamespace oracle signerName = some above →
      ProperPrefix above below → Endorsed oracle dataName signerName
  | dsk {below above : Name} : dskNamespace oracle dataName = some below → kskNamespace oracle signerName = some above →
      above <+: below → Endorsed oracle dataName signerName
  | data : DataSigner oracle dataName signerName → Endorsed oracle dataName signerName

section Default
variable {engine : Engine} {oracle : Oracle}

structure Meant (rule : IdentityPolicyRule) (dataReading signerReading : Name → Option Name)
    (op : Operator) : Prop where
  data : Says rule.dataNameRegex dataReading
  signer : Says rule.signerNameRegex signerReading
  op : rule.op = op

structure RulesMeant (oracle : Oracle) (rules : DefaultRules) : Prop where
  rule1 : Meant rules.rule1 (kskNamespace oracle) (dskNamespace oracle) .greater
  rule2 : Meant rules.rule2 (dskNamespace oracle) (kskNamespace oracle) .equal
  rule3 : Meant rules.rule3 (fun name => some (filled name)) (dskNamespace oracle) .greater

theorem defaultRules_made (known : KnownTexts engine oracle) (earlier : ℕ → Bool → ℕ → List Name) :
    ∃ rules, defaultRules engine oracle earlier = .ok rules ∧ RulesMeant oracle rules := by
  obtain ⟨kskData,kskDataMade,kskDataSays⟩ := ksk_read known (earlier 1 false)
  obtain ⟨dskSigner,dskSignerMade,dskSignerSays⟩ := dsk_read known (earlier 1 true)
  obtain ⟨dskData,dskDataMade,dskDataSays⟩ := dsk_read known (earlier 2 false)
  obtain ⟨kskSigner,kskSignerMade,kskSignerSays⟩ := ksk_read known (earlier 2 true)
  obtain ⟨anyData,anyDataMade,anyDataSays⟩ := any_read known (earlier 3 false)
  obtain ⟨lastSigner,lastSignerMade,lastSignerSays⟩ := dsk_read known (earlier 3 true)
  refine ⟨⟨⟨kskData,dskSigner,.greater⟩,⟨dskData,kskSigner,.equal⟩,⟨anyData,lastSigner,.greater⟩⟩,?_,
    ⟨kskDataSays,dskSignerSays,rfl⟩,⟨dskDataSays,kskSignerSays,rfl⟩,⟨anyDataSays,lastSignerSays,rfl⟩⟩
  unfold defaultRules newRule
  rw [kskDataMade,dskSignerMade,dskDataMade,kskSignerMade,anyDataMade,lastSignerMade]
  rfl

variable {rules : DefaultRules} {dataName signerName : Name}

theorem Meant.satisfied {rule : IdentityPolicyRule} {dataReading signerReading : Name → Option Name} {op : Operator}
    (meant : Meant rule dataReading signerReading op) (moment : ℕ) (dataShort : dataName.length ≤ intMax)
    (signerShort : signerName.length ≤ intMax) :
    ∃ answer, rule.satisfyNames moment dataName signerName = .ok answer ∧ (answer = true ↔
      ∃ below above, dataReading dataName = some below ∧ signerReading signerName = some above ∧
        IdentityPolicyRule.compare op below above = true) := by
  refine ⟨_,satisfyNames_read meant.data meant.signer moment dataShort signerShort,?_⟩
  rw [meant.op]
  cases dataReading dataName <;> cases signerReading signerName <;> simp

-- The three rules, read.
section Rules
variable (meant : RulesMeant oracle rules) (moment : ℕ) (dataShort : dataName.length ≤ intMax)
  (signerShort : signerName.length ≤ intMax)
include meant dataShort signerShort

theorem rule1_satisfied : ∃ answer, rules.rule1.satisfyNames moment dataName signerName = .ok answer ∧ (answer = true ↔
    ∃ below above, kskNamespace oracle dataName = some below ∧ dskNamespace oracle signerName = some above ∧
      ProperPrefix above below) := by
  obtain ⟨answer,satisfied,same⟩ := meant.rule1.satisfied moment dataShort signerShort
  refine ⟨answer,satisfied,same.trans ?_⟩
  simp only [IdentityPolicyRule.compare_iff,ne_eq,not_true_eq_false,and_false,false_or]

theorem rule2_satisfied : ∃ answer, rules.rule2.satisfyNames moment dataName signerName = .ok answer ∧ (answer = true ↔
    ∃ below above, dskNamespace oracle dataName = some below ∧ kskNamespace oracle signerName = some above ∧
      above <+: below) := by
  obtain ⟨answer,satisfied,same⟩ := meant.rule2.satisfied moment dataShort signerShort
  refine ⟨answer,satisfied,same.trans ?_⟩
  simp only [IdentityPolicyRule.compare_iff,IdentityPolicyRule.prefix_iff,ne_eq,reduceCtorEq,not_false_eq_true,and_true]

theorem rule3_satisfied : ∃ answer, rules.rule3.satisfyNames moment dataName signerName = .ok answer ∧
    (answer = true ↔ DataSigner oracle dataName signerName) := by
  obtain ⟨answer,satisfied,same⟩ := meant.rule3.satisfied moment dataShort signerShort
  refine ⟨answer,satisfied,same.trans ?_⟩
  constructor
  · rintro ⟨_,above,⟨⟩,signer,compared⟩
    rw [IdentityPolicyRule.compare_iff] at compared
    exact ⟨above,signer,compared.resolve_left fun equal => equal.2 rfl⟩
  · rintro ⟨above,signer,proper⟩
    exact ⟨_,above,rfl,signer,(IdentityPolicyRule.compare_iff _ _ _).mpr (.inr proper)⟩

theorem rules_satisfied : (∃ rule ∈ rules.verifyPolicies, rule.satisfyNames moment dataName signerName = .ok true) ↔
    Endorsed oracle dataName signerName := by
  obtain ⟨first,firstSaid,firstSame⟩ := rule1_satisfied meant moment dataShort signerShort
  obtain ⟨second,secondSaid,secondSame⟩ := rule2_satisfied meant moment dataShort signerShort
  obtain ⟨third,thirdSaid,thirdSame⟩ := rule3_satisfied meant moment dataShort signerShort
  simp only [DefaultRules.verifyPolicies,List.mem_cons,List.not_mem_nil,or_false,exists_eq_or_imp,exists_eq_left,firstSaid,
    secondSaid,thirdSaid,Except.ok.injEq,firstSame,secondSame,thirdSame]
  constructor
  · rintro (⟨below,above,read,signer,proper⟩ | ⟨below,above,read,signer,ahead⟩ | data)
    · exact .ksk read signer proper
    · exact .dsk read signer ahead
    · exact .data data
  · intro endorsed
    cases endorsed with
    | ksk read signer proper => exact .inl ⟨_,_,read,signer,proper⟩
    | dsk read signer ahead => exact .inr (.inl ⟨_,_,read,signer,ahead⟩)
    | data data => exact .inr (.inr data)

theorem signing_checked : ∃ answer, (defaultSigning rules).checkSigningPolicy moment dataName signerName = .ok answer ∧
    (answer = true ↔ DataSigner oracle dataName signerName) := by
  obtain ⟨answer,satisfied,same⟩ := rule3_satisfied meant moment dataShort signerShort
  refine ⟨answer,?_,same⟩
  show [rules.rule3].anyM (fun rule => rule.satisfyNames moment dataName signerName) = _
  rw [anyM_cons,satisfied]
  cases answer <;> rfl

end Rules

-- Whatever stands behind it, a certificate's name is for the same namespace.
theorem dskNamespace_append {name : Name} {above : Name} (read : dskNamespace oracle name = some above) (more : Name) :
    dskNamespace oracle (name ++ more) = some above := by
  rw [dskNamespace] at read
  split at read
  · rename_i dsk idCert rest behind
    obtain ⟨key,same,keyed,free⟩ := key_found (behind ▸ List.cons_ne_nil _ _)
    rw [behind] at same
    have longer : name ++ more = beforeKey oracle name ++ key :: (dsk :: idCert :: (rest ++ more)) := by
      conv_lhs => rw [same]
      simp
    obtain ⟨front,after⟩ := key_cut free keyed (dsk :: idCert :: (rest ++ more))
    rw [longer,dskNamespace,after,front]
    exact read
  · cases read

-- What the signing policy lets pass has a key locator that the third rule accepts, unless
-- the name of the certificate ends with `ID-CERT`.
theorem signer_verified {certName : Name} (signer : DataSigner oracle dataName certName) :
    DataSigner oracle dataName certName.dropLast ↔ (dskNamespace oracle certName.dropLast).isSome = true := by
  constructor
  · rintro ⟨above,read,_⟩
    rw [read]
    rfl
  · intro read
    obtain ⟨above,same,proper⟩ := signer
    obtain ⟨other,there⟩ := Option.isSome_iff_exists.mp read
    have whole := dskNamespace_append there (certName.drop (certName.length - 1))
    rw [List.dropLast_eq_take,List.take_append_drop,same] at whole
    cases whole
    exact ⟨above,there,proper⟩

theorem all_required (meant : RulesMeant oracle rules) {data : Data} (short : data.name.length ≤ intMax)
    {pm : SimplePolicyManager} (policies : pm.verifyPolicies = rules.verifyPolicies) : pm.requireVerify data = .ok true := by
  have last : rules.rule3.matchDataName data = .ok true := (meant.rule3.data data.name short).1
  have total : ∀ rule ∈ rules.verifyPolicies, ∃ found, rule.matchDataName data = .ok found := by
    have said : ∀ {rule : IdentityPolicyRule} {reading signer : Name → Option Name} {op : Operator}, Meant rule reading signer op →
        ∃ found, rule.matchDataName data = .ok found := by
      intro rule reading signer op meant
      have meaning := meant.data data.name short
      cases read : reading data.name with
      | none =>
        rw [read] at meaning
        exact ⟨false,meaning⟩
      | some expanded =>
        rw [read] at meaning
        exact ⟨true,meaning.1⟩
    intro rule member
    rcases List.mem_cons.mp member with rfl | member
    · exact said meant.rule1
    · rcases List.mem_pair.mp member with rfl | rfl
      · exact said meant.rule2
      · exact said meant.rule3
  obtain ⟨found,same⟩ := anyM_total total
  have hit : found = true := by
    cases found with
    | true => rfl
    | false =>
      have missed := anyM_false same rules.rule3 (by simp [DefaultRules.verifyPolicies])
      rw [last] at missed
      cases missed
  rw [SimplePolicyManager.requireVerify,policies,same,hit]
  rfl

theorem allowed_iff (meant : RulesMeant oracle rules) {data : Data} (located : data.signature.keyLocator = .keyname signerName)
    (short : data.name.length ≤ intMax) (signerShort : signerName.length ≤ intMax) (moment : ℕ) {pm : SimplePolicyManager}
    (policies : pm.verifyPolicies = rules.verifyPolicies) (none : pm.mustFailVerify = []) :
    pm.Allowed moment data ↔ Endorsed oracle data.name signerName := by
  rw [← rules_satisfied meant moment short signerShort,SimplePolicyManager.Allowed,policies,none]
  simp only [List.not_mem_nil,false_implies,implies_true,true_and,IdentityPolicyRule.satisfy,located]

-- The policies of a `Keychain ()`: its rules compile and never throw, every packet has to
-- be verified, and who may sign what is read off the names. A data signing key that may
-- sign a name passes the verification of that name under its key locator, as long as a
-- component follows `ID-CERT` in the name of its certificate.
theorem default_trust_model (known : KnownTexts engine oracle) (earlier : ℕ → Bool → ℕ → List Name) :
    ∃ rules, defaultRules engine oracle earlier = .ok rules ∧
    ∀ std decode verifySignature moment (data : Data) signerName, data.signature.keyLocator = .keyname signerName →
      data.name.length ≤ intMax → signerName.length ≤ intMax →
      (defaultManager std decode verifySignature rules).requireVerify data = .ok true ∧
      ((defaultManager std decode verifySignature rules).Allowed moment data ↔ Endorsed oracle data.name signerName) ∧
      ∀ certName : Name, certName.length ≤ intMax →
        (∃ answer, (defaultSigning rules).checkSigningPolicy moment data.name certName = .ok answer ∧
          (answer = true ↔ DataSigner oracle data.name certName)) ∧
        ((defaultSigning rules).checkSigningPolicy moment data.name certName = .ok true → filled certName = certName →
          signerName = appendAll [] certName.dropLast →
          (rules.rule3.satisfy moment data = .ok true ↔ (dskNamespace oracle certName.dropLast).isSome = true)) := by
  obtain ⟨rules,made,meant⟩ := defaultRules_made known earlier
  refine ⟨rules,made,?_⟩
  intro std decode verifySignature moment data signerName located short signerShort
  refine ⟨all_required meant short rfl,allowed_iff meant located short signerShort moment rfl rfl,?_⟩
  intro certName certShort
  have checked := signing_checked meant moment short certShort
  refine ⟨checked,?_⟩
  intro passed whole same
  obtain ⟨answer,answered,signs⟩ := checked
  rw [passed] at answered
  cases answered
  have locator : signerName = certName.dropLast := by
    rw [same,appendAll_filled,List.nil_append,filled_self]
    exact fun component member => filled_self.mp whole component (List.dropLast_subset certName member)
  obtain ⟨third,satisfied,accepts⟩ := @rule3_satisfied oracle rules data.name signerName meant moment short signerShort
  have satisfies : rules.rule3.satisfy moment data = .ok third := by
    rw [IdentityPolicyRule.satisfy,located]
    exact satisfied
  rw [satisfies,Except.ok.injEq,accepts,locator]
  exact signer_verified (signs.mp rfl)

end Default

section Samples

-- `.*` at the end of an expression takes the rest of the text.
def starText : Oracle := fun expr text =>
  if [0x2E,0x2A].isSuffixOf expr then expr.dropLast.dropLast.isPrefixOf text else decide (expr = text)

def sampleCert : Name := [⟨[0x61]⟩,⟨keyString⟩,⟨[0x64,0x73,0x6B,0x2D,0x31]⟩,⟨idString⟩,⟨[1]⟩]

theorem starText_known : KnownTexts (fun _ => some 0) starText where
  known _ _ := rfl
  wild _ := rfl

def certifiedPacket : Data := samplePacket [⟨[0x61]⟩,⟨[0x62]⟩] (.keyname sampleCert.dropLast) 9 5

-- `/a/KEY/dsk-1/ID-CERT/%01` may sign `/a/b`, and the third rule lets the packet pass.
theorem default_trust_model_sample : ∃ rules, defaultRules (fun _ => some 0) starText (fun _ _ _ => []) = .ok rules ∧
    (defaultSigning rules).checkSigningPolicy 0 [⟨[0x61]⟩,⟨[0x62]⟩] sampleCert = .ok true ∧
    rules.rule3.satisfy 0 certifiedPacket = .ok true := by
  obtain ⟨rules,made,model⟩ := default_trust_model starText_known (fun _ _ _ => [])
  obtain ⟨_,_,signing⟩ := model samplePolicy.std samplePolicy.decode samplePolicy.verifySignature 0 certifiedPacket
    sampleCert.dropLast rfl (by decide) (by decide)
  obtain ⟨⟨answer,checked,same⟩,verified⟩ := signing sampleCert (by decide)
  have signer : DataSigner starText [⟨[0x61]⟩,⟨[0x62]⟩] sampleCert := by
    refine ⟨[⟨[0x61]⟩],by decide,⟨[⟨[0x62]⟩],rfl⟩,by decide⟩
  have passed : (defaultSigning rules).checkSigningPolicy 0 [⟨[0x61]⟩,⟨[0x62]⟩] sampleCert = .ok true :=
    checked.trans (congrArg Except.ok (same.mpr signer))
  exact ⟨rules,made,passed,(verified passed (by decide) (by decide)).mpr (by decide)⟩

end Samples
end NdnCxx.Security
