import NdnCxx.Lib.Register
import NdnCxx.Security.DefaultEntries

namespace NdnCxx.Security
open Table

-- The storage as its users see it: three maps, in which there is a default among the
-- identities, one for each identity among the keys and one for each key among the
-- certificates.
structure KeyEntry where
  keyType : Int
  publicKey : Blob
  active : Int
  deriving DecidableEq, Repr

structure CertificateEntry where
  certIssuer : Blob
  identityName : Blob
  keyIdentifier : Blob
  notBefore : Int
  notAfter : Int
  certificateData : Blob
  validFlag : Int
  deriving DecidableEq, Repr

structure Registry where
  identities : Register (fun (_ : Blob) (_ : Unit) => ())
  keys : Register (fun (key : Blob × Blob) (_ : KeyEntry) => key.1)
  certificates : Register (fun (_ : Blob) (entry : CertificateEntry) => (entry.identityName,entry.keyIdentifier))

namespace Registry
open BasicIdentityStorage (Operation Setter identityOf)

def empty : Registry := ⟨.empty,.empty,.empty⟩

-- A key goes by the text of its identity and that of its last component.
def keyOf (keyName : Name) : Option (Blob × Blob) :=
  keyName.getLast?.map (fun keyId => (Name.toUri (identityOf keyName),keyId.toUri))

def signerUri (certificate : InstalledCertificate) : Option Blob :=
  match certificate.keyLocator with
  | .keyname signerName => some (Name.toUri signerName)
  | .notset | .key _ | .certificate _ => none

def certificateEntry (certificate : InstalledCertificate) (key : Blob × Blob) (signer : Blob) : CertificateEntry :=
  ⟨signer,key.1,key.2,certificate.notBefore,certificate.notAfter,certificate.wire,1⟩

def install (r : Registry) (certificate : InstalledCertificate) : Registry :=
  match keyOf certificate.publicKeyName,signerUri certificate with
  | some key,some signer =>
    {r with certificates := r.certificates.add (Name.toUri certificate.name) (certificateEntry certificate key signer)}
  | _,_ => r

def setActive (r : Registry) (keyName : Name) (active : Int) : Registry :=
  match keyOf keyName with
  | some key => {r with keys := r.keys.adjust key (fun entry => {entry with active := active}) (fun _ => rfl)}
  | none => r

def holds (r : Registry) (certificate : InstalledCertificate) : Bool :=
  ((keyOf certificate.publicKeyName).bind r.keys.entry).any
    (fun entry => decide (entry.publicKey = certificate.publicKeyInfo))

def next (r : Registry) : Operation → Registry
  | .addIdentity identity => {r with identities := r.identities.add (Name.toUri identity) ()}
  | .addKey keyName keyType pubKeyBlob =>
    match keyOf keyName with
    | some key => {r with identities := r.identities.add key.1 (),keys := r.keys.add key ⟨keyType,pubKeyBlob,0⟩}
    | none => r
  | .activateKey keyName => r.setActive keyName 1
  | .deactivateKey keyName => r.setActive keyName 0
  | .addAnyCertificate certificate => r.install certificate
  | .addCertificate certificate => if r.holds certificate then r.install certificate else r
  | .set (.setDefaultIdentity identity) => {r with identities := r.identities.choose () (Name.toUri identity)}
  | .set (.setDefaultKeyNameForIdentity keyName identityName) =>
    match keyOf keyName with
    | some key =>
      if identityName = [] ∨ identityName = identityOf keyName then {r with keys := r.keys.choose key.1 key} else r
    | none => r
  | .set (.setDefaultCertificateNameForKey keyName certName) =>
    match keyOf keyName with
    | some key => {r with certificates := r.certificates.choose key (Name.toUri certName)}
    | none => r

def refuseIf (condition : Bool) (msg : String) (names : Blob) : Except StorageException Unit :=
  if condition then .error (.secException msg names) else .ok ()

-- What a call throws, if it throws.
def installing (certificate : InstalledCertificate) : Except StorageException Unit :=
  match keyOf certificate.publicKeyName,signerUri certificate with
  | none,_ => .error (.indexOutOfRange (-1))
  | some _,none => .error .keyLocator
  | some _,some _ => .ok ()

def needsKey (keyName : Name) (outcome : Blob × Blob → Except StorageException Unit) : Except StorageException Unit :=
  match keyOf keyName with
  | some key => outcome key
  | none => .error (.indexOutOfRange (-1))

def outcome (r : Registry) : Operation → Except StorageException Unit
  | .addIdentity identity => refuseIf (r.identities.entry (Name.toUri identity)).isSome "Identity has already existed" []
  | .addKey keyName _ _ => needsKey keyName (fun key =>
      refuseIf (r.keys.entry key).isSome "key with the same name has already existed!" [])
  | .activateKey keyName | .deactivateKey keyName => needsKey keyName (fun _ => .ok ())
  | .addAnyCertificate certificate => installing certificate
  | .addCertificate certificate => needsKey certificate.publicKeyName (fun key => do
      refuseIf (!(r.keys.entry key).isSome) "No corresponding Key record for certificaite!"
        (Name.toUri certificate.publicKeyName ++ 0x20 :: Name.toUri certificate.name)
      refuseIf (r.certificates.entry (Name.toUri certificate.name)).isSome "Certificate has already been installed!" []
      refuseIf (!r.holds certificate) "Certificate does not match public key!" []
      installing certificate)
  | .set (.setDefaultIdentity _) => .ok ()
  | .set (.setDefaultKeyNameForIdentity keyName identityName) => needsKey keyName (fun _ =>
      refuseIf (!decide (identityName = [] ∨ identityName = identityOf keyName))
        "Specified identity name does not match the key name" [])
  | .set (.setDefaultCertificateNameForKey keyName _) => needsKey keyName (fun _ => .ok ())

end Registry
end NdnCxx.Security
