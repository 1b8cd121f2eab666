import NdnCxx.Security.CertificateName
import NdnCxx.Security.DefaultRules
import NdnCxx.Security.StorageRefinement
import NdnCxx.SignedWire

namespace NdnCxx.Security
open Stateful Throwing
open BasicIdentityStorage (ReadFailure nameOf appendColumn orEmpty defaultCertificate Represents performed Operation)

-- What signing ends with when it throws, by the part that throws: the policies, the
-- columns of the public storage, the stored certificate, its name, the private storage.
inductive SignFailure where
  | secException (msg : String)
  | policy (thrown : Exception)
  | reading (thrown : ReadFailure)
  | decoding (thrown : Wire.Exception)
  | certificate (thrown : Exception)
  | slice (thrown : Name.SliceError)
  | privateStorage (msg : Blob)
  | keyLocator
  | nullDereference
  deriving DecidableEq, Repr

-- `PolicyManager`, as far as packets are signed.
structure SigningManager where
  checkSigningPolicy : Name → Name → Except Exception Bool
  inferSigningIdentity : Name → Except Exception Name

-- `SimplePolicyManager`, asked for an identity first and for its consent then.
def SigningPolicies.manager (policies : SigningPolicies) (moment : ℕ) : SigningManager where
  checkSigningPolicy := policies.checkSigningPolicy (moment + 1)
  inferSigningIdentity := policies.inferSigningIdentity moment

-- `NoVerifyPolicyManager`.
def noVerifyManager : SigningManager := ⟨fun _ _ => .ok true,fun _ => .ok []⟩

-- `PrivatekeyStorage`, as far as it signs; a null pointer is `none`.
structure SigningStorage where
  getPublickey : Name → Except Blob (Option Blob)
  sign : Blob → Name → Except Blob (Option Blob)

-- A keychain during one call: `now` is the clock in seconds, `digest` that of a key.
structure Keychain where
  privateStorage : SigningStorage
  policyManager : SigningManager
  std : Standard
  decode : Blob → Except Exception CertificateContent
  digest : Blob → Blob
  now : Int
  notADateTime : Int

namespace Keychain
variable (k : Keychain) (s : BasicIdentityStorage)

-- `getCertificate (certName)->getPublicKeyName ()`; the certificate is made from the
-- packet even where the storage gives none.
def getCertificateKeyName (certName : Name) : Except SignFailure Name :=
  match s.getCertificate k.now certName false with
  | none => .error .nullDereference
  | some wire => do
    let data ← (Data.decodeFromWire k.std wire).mapError .decoding
    let certificate ← (identityCertificate k.decode data).mapError .certificate
    (setPublicKeyName certificate.name).mapError .slice

def getPublickey (keyName : Name) : Except SignFailure (Option Blob) :=
  (k.privateStorage.getPublickey keyName).mapError .privateStorage

def sign (blob : Blob) (keyName : Name) : Except SignFailure (Option Blob) :=
  (k.privateStorage.sign blob keyName).mapError .privateStorage

def locatorOf (certName : Name) : KeyLocator := .keyname (appendAll [] certName.dropLast)

-- The packet keeps what is written to it before a throw.
def signByCertificate (certName : Name) : Call Data SignFailure Unit := do
  let keyName ← lift (k.getCertificateKeyName s certName)
  let publickey ← lift (k.getPublickey keyName)
  let key ← lift (orThrow .nullDereference publickey)
  modify (fun data => {data with signature := ⟨[],k.digest key,locatorOf certName⟩})
  let data ← get
  let unsigned ← lift (orThrow .keyLocator (Data.serializeUnsigned k.notADateTime data))
  modify (fun data => {data with wire := some ⟨unsigned,0,unsigned.length⟩})
  let sigBits ← lift (k.sign unsigned keyName)
  let bits ← lift (orThrow .nullDereference sigBits)
  modify (fun data => Data.setSignatureBits data bits)

-- The overload for blobs.
def signBlobByCertificate (certName : Name) (blob : Blob) : Except SignFailure Sha256WithRsa := do
  let keyName ← k.getCertificateKeyName s certName
  let publickey ← k.getPublickey keyName
  let sigBits ← k.sign blob keyName
  let key ← orThrow .nullDereference publickey
  let bits ← orThrow .nullDereference sigBits
  return ⟨bits,k.digest key,locatorOf certName⟩

def getDefaultCertificateNameByIdentity (identity : Name) : Except SignFailure Name :=
  (s.getDefaultCertificateNameForIdentity identity).mapError .reading

def getDefaultCertificateName : Except SignFailure Name := do
  let identity ← s.getDefaultIdentity.mapError .reading
  getDefaultCertificateNameByIdentity s identity

-- The first half of `signByIdentity`.
def signingCertificateName (dataName identity : Name) : Except SignFailure Name :=
  if identity = [] then do
    let inferredIdentity ← (k.policyManager.inferSigningIdentity dataName).mapError .policy
    if inferredIdentity = [] then getDefaultCertificateName s
    else getDefaultCertificateNameByIdentity s inferredIdentity
  else getDefaultCertificateNameByIdentity s identity

def signByIdentity (identity : Name) : Call Data SignFailure Unit := do
  let data ← get
  let certName ← lift (k.signingCertificateName s data.name identity)
  throwIf (decide (certName = [])) (.secException "No qualified certificate name found!")
  let admitted ← lift ((k.policyManager.checkSigningPolicy data.name certName).mapError .policy)
  throwIf (!admitted) (.secException "Signing Cert name does not comply with signing policy")
  k.signByCertificate s certName

-- The overload for blobs neither infers an identity nor asks the policy.
def signBlobByIdentity (identity : Name) (blob : Blob) : Except SignFailure Sha256WithRsa := do
  let certName ← getDefaultCertificateNameByIdentity s identity
  if certName = [] then throw (.secException "No qualified certificate name found!")
  k.signBlobByCertificate s certName blob

end Keychain

-- The certificate that a registry has for an identity: the default one of its default key.
def Registry.certificateOf (r : Registry) (identity : Name) : Except ReadFailure Name := do
  let keyName ← orEmpty (r.keys.chosen (Name.toUri identity)) (fun key => appendColumn identity key.2)
  defaultCertificate r keyName

namespace Keychain
variable (k : Keychain) (r : Registry)

-- Who signs a packet: the identity that is asked for, else the one its name suggests,
-- else the default one.
inductive Signs (dataName : Name) : Name → Name → Prop where
  | asked {identity : Name} : identity ≠ [] → Signs dataName identity identity
  | inferred {identity : Name} : k.policyManager.inferSigningIdentity dataName = .ok identity → identity ≠ [] →
      Signs dataName [] identity
  | byDefault {identity : Name} : k.policyManager.inferSigningIdentity dataName = .ok [] →
      orEmpty (r.identities.chosen ()) nameOf = .ok identity → Signs dataName [] identity

structure Chosen (dataName identity certName : Name) : Prop where
  signs : ∃ signer, k.Signs r dataName identity signer ∧ r.certificateOf signer = .ok certName
  named : certName ≠ []
  admitted : k.policyManager.checkSigningPolicy dataName certName = .ok true

-- The certificate is installed and valid now, and is for this key.
structure Usable (certName keyName : Name) : Prop where
  stored : ∃ entry, r.certificates.entry (Name.toUri certName) = some entry ∧ entry.notBefore < k.now ∧
    k.now < entry.notAfter ∧ entry.validFlag = 1 ∧ ∃ packet certificate,
      Data.decodeFromWire k.std entry.certificateData = .ok packet ∧
      identityCertificate k.decode packet = .ok certificate ∧ setPublicKeyName certificate.name = .ok keyName

-- The packet as it is signed with a certificate: the bits are those of the private
-- storage for exactly the bytes of the unsigned packet.
structure SignedWith (certName keyName : Name) (data signed : Data) : Prop where
  bits : ∃ key bits unsigned, k.privateStorage.getPublickey keyName = .ok (some key) ∧
    Data.signByCertificate k.notADateTime ⟨certName,k.digest key,fun _ => bits⟩ data = some signed ∧
    Data.serializeUnsigned k.notADateTime signed = some unsigned ∧
    k.privateStorage.sign unsigned keyName = .ok (some bits)

section Spec
variable {k : Keychain} {r : Registry} {s : BasicIdentityStorage}

theorem getCertificateKeyName_iff (represents : Represents s r) {certName keyName : Name} :
    k.getCertificateKeyName s certName = .ok keyName ↔ k.Usable r certName keyName := by
  have installed := (BasicIdentityStorage.represents_answers represents).installed k.now certName false
  unfold getCertificateKeyName
  constructor
  · intro read
    cases found : s.getCertificate k.now certName false with
    | none =>
      rw [found] at read
      cases read
    | some wire =>
      simp only [found] at read
      obtain ⟨packet,decoded,afterPacket⟩ := bind_ok read
      obtain ⟨certificate,made,named⟩ := bind_ok afterPacket
      rw [found] at installed
      obtain ⟨entry,kept,rfl⟩ := Option.map_eq_some_iff.mp installed.symm
      obtain ⟨stored,valid⟩ := Option.filter_eq_some_iff.mp kept
      simp only [Bool.false_or,Bool.and_eq_true,decide_eq_true_eq,beq_iff_eq] at valid
      obtain ⟨⟨early,late⟩,flag⟩ := valid
      exact ⟨entry,stored,early,late,flag,packet,certificate,mapError_ok decoded,mapError_ok made,mapError_ok named⟩
  · rintro ⟨entry,stored,early,late,flag,packet,certificate,decoded,made,named⟩
    rw [installed,stored]
    have valid : (false || (decide (entry.notBefore < k.now) && decide (k.now < entry.notAfter) && entry.validFlag == 1)) =
        true := by simp [early,late,flag]
    simp only [Option.filter_some,valid,if_true,Option.map_some]
    rw [mapError_iff.mpr decoded,ok_bind,mapError_iff.mpr made,ok_bind]
    exact mapError_iff.mpr named

theorem returns_signByCertificate {certName : Name} {data signed : Data} :
    Returns (k.signByCertificate s certName) data () signed ↔
      ∃ keyName, k.getCertificateKeyName s certName = .ok keyName ∧ k.SignedWith certName keyName data signed := by
  unfold signByCertificate
  simp only [returns_bind,returns_lift,returns_modify,returns_get,orThrow_iff]
  constructor
  · rintro ⟨keyName,_,⟨read,rfl⟩,_,_,⟨asked,rfl⟩,key,_,⟨rfl,rfl⟩,_,_,rfl,_,_,⟨rfl,rfl⟩,unsigned,_,⟨written,rfl⟩,_,_,rfl,_,_,
      ⟨signs,rfl⟩,bits,_,⟨rfl,rfl⟩,rfl⟩
    refine ⟨keyName,read,key,bits,unsigned,mapError_ok asked,?_,written,mapError_ok signs⟩
    rw [Data.signByCertificate]
    exact Option.bind_eq_some_iff.mpr ⟨unsigned,written,rfl⟩
  · rintro ⟨keyName,read,key,bits,unsigned,asked,made,serialized,signs⟩
    rw [Data.signByCertificate] at made
    obtain ⟨whole,written,done⟩ := Option.bind_eq_some_iff.mp made
    cases done
    have same : whole = unsigned := Option.some.inj (written.symm.trans serialized)
    subst same
    exact ⟨keyName,_,⟨read,rfl⟩,_,_,⟨mapError_iff.mpr asked,rfl⟩,key,_,⟨rfl,rfl⟩,⟨⟩,_,rfl,_,_,⟨rfl,rfl⟩,whole,_,⟨written,rfl⟩,
      ⟨⟩,_,rfl,_,_,⟨mapError_iff.mpr signs,rfl⟩,bits,_,⟨rfl,rfl⟩,rfl⟩

-- A packet whose signing fails has its locator and no signature, or is as it was.
theorem throws_signByCertificate {certName : Name} {data left : Data} {thrown : SignFailure}
    (threw : Throws (k.signByCertificate s certName) data thrown left) :
    left = data ∨ (∃ keyName, k.getCertificateKeyName s certName = .ok keyName) ∧ left.name = data.name ∧
      left.content = data.content ∧ left.signature.signatureBits = [] ∧ left.signature.keyLocator = locatorOf certName := by
  unfold signByCertificate at threw
  simp only [throws_bind,throws_lift,returns_lift,throws_modify,returns_modify,throws_get,returns_get,orThrow_iff,false_or,
    and_false,exists_false,or_false] at threw
  rcases threw with ⟨_,rfl⟩ | ⟨keyName,_,⟨read,rfl⟩,⟨_,rfl⟩ | ⟨_,_,⟨_,rfl⟩,⟨_,rfl⟩ | ⟨key,_,⟨rfl,rfl⟩,⟨⟩,_,rfl,_,_,⟨rfl,rfl⟩,later⟩⟩⟩
  · exact .inl rfl
  · exact .inl rfl
  · exact .inl rfl
  refine .inr ⟨⟨keyName,read⟩,?_⟩
  rcases later with ⟨_,rfl⟩ | ⟨unsigned,_,⟨_,rfl⟩,⟨⟩,_,rfl,⟨_,rfl⟩ | ⟨_,_,⟨_,rfl⟩,_,rfl⟩⟩
  · exact ⟨rfl,rfl,rfl,rfl⟩
  · exact ⟨rfl,rfl,rfl,rfl⟩
  · exact ⟨rfl,rfl,rfl,rfl⟩

end Spec
end Keychain
end NdnCxx.Security
