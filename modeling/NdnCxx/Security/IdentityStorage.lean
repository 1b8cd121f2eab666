import NdnCxx.Security.Certificate
import NdnCxx.NameUri
import NdnCxx.Lib.Stateful
import NdnCxx.Lib.Table

namespace NdnCxx.Security
open Stateful

-- `SecException` with its text and what is appended to it, `error::Name` out of `get`,
-- and `error::KeyLocator` out of `getKeyName`.
inductive StorageException where
  | secException (msg : String) (names : Blob)
  | indexOutOfRange (pos : Int)
  | keyLocator
  deriving DecidableEq, Repr

structure IdentityRow where
  identityName : Blob
  defaultIdentity : Int
  deriving DecidableEq, Repr

structure KeyRow where
  identityName : Blob
  keyIdentifier : Blob
  keyType : Int
  publicKey : Blob
  defaultKey : Int
  active : Int
  deriving DecidableEq, Repr

structure CertificateRow where
  certName : Blob
  certIssuer : Blob
  identityName : Blob
  keyIdentifier : Blob
  notBefore : Int
  notAfter : Int
  certificateData : Blob
  validFlag : Int
  defaultCert : Int
  deriving DecidableEq, Repr

-- The three tables.
structure BasicIdentityStorage where
  identity : List IdentityRow
  key : List KeyRow
  certificate : List CertificateRow
  deriving DecidableEq, Repr

-- A certificate as it is installed, with its public key name, the locator of its
-- signature and its wire encoding.
structure InstalledCertificate extends IdentityCertificate where
  publicKeyName : Name
  keyLocator : KeyLocator
  wire : Blob
  deriving DecidableEq, Repr

namespace BasicIdentityStorage

abbrev Storage (α : Type) := Call BasicIdentityStorage StorageException α

def empty : BasicIdentityStorage := ⟨[],[],[]⟩

-- `keyName.get (-1).toUri ()`.
def keyIdOf (keyName : Name) : Storage Blob :=
  match keyName.getLast? with
  | some keyId => pure keyId.toUri
  | none => throw (.indexOutOfRange (-1))

-- `keyName.getSubName (0, keyName.size () - 1)`, as text.
def identityOf (keyName : Name) : Name := withoutVersion keyName

def doesIdentityExist (identity : Name) : Storage Bool := do
  let s ← get
  return s.identity.any (fun row => row.identityName == Name.toUri identity)

def addIdentity (identity : Name) : Storage Unit := do
  let existed ← doesIdentityExist identity
  throwIf existed (.secException "Identity has already existed" [])
  modify (fun s => {s with identity := Table.insert (fun row => row.identityName) s.identity ⟨Name.toUri identity,0⟩})

def doesKeyExist (keyName : Name) : Storage Bool := do
  let keyId ← keyIdOf keyName
  let s ← get
  return s.key.any (fun row => row.identityName == Name.toUri (identityOf keyName) && row.keyIdentifier == keyId)

def keyColumns (row : KeyRow) : Blob × Blob := (row.identityName,row.keyIdentifier)

-- The first statement of `addKey`.
def ensureIdentity (identity : Name) : Storage Unit := do
  let known ← doesIdentityExist identity
  if known then pure () else addIdentity identity

def addKey (keyName : Name) (keyType : Int) (pubKeyBlob : Blob) : Storage Unit := do
  let keyId ← keyIdOf keyName
  ensureIdentity (identityOf keyName)
  let existed ← doesKeyExist keyName
  throwIf existed (.secException "key with the same name has already existed!" [])
  modify (fun s => {s with
    key := Table.insert keyColumns s.key ⟨Name.toUri (identityOf keyName),keyId,keyType,pubKeyBlob,0,0⟩})

def getKey (keyName : Name) : Storage (Option Blob) := do
  let existed ← doesKeyExist keyName
  let keyId ← keyIdOf keyName
  let s ← get
  return if existed then (s.key.find? (fun row =>
    row.identityName == Name.toUri (identityOf keyName) && row.keyIdentifier == keyId)).map KeyRow.publicKey else none

def updateKeyStatus (keyName : Name) (active : Bool) : Storage Unit := do
  let keyId ← keyIdOf keyName
  modify (fun s => {s with
    key := Table.update s.key
      (fun row => row.identityName == Name.toUri (identityOf keyName) && row.keyIdentifier == keyId)
      (fun row => {row with active := if active then 1 else 0})})

def activateKey (keyName : Name) : Storage Unit := updateKeyStatus keyName true

def deactivateKey (keyName : Name) : Storage Unit := updateKeyStatus keyName false

def doesCertificateExist (certName : Name) : Storage Bool := do
  let s ← get
  return s.certificate.any (fun row => row.certName == Name.toUri certName)

def signerOf (certificate : InstalledCertificate) : Storage Name :=
  match certificate.keyLocator with
  | .keyname signerName => pure signerName
  | .notset | .key _ | .certificate _ => throw .keyLocator

-- The values of the `INSERT`; the last two columns have their defaults.
def certificateRow (certificate : InstalledCertificate) (keyId : Blob) (signerName : Name) : CertificateRow where
  certName := Name.toUri certificate.name
  certIssuer := Name.toUri signerName
  identityName := Name.toUri (identityOf certificate.publicKeyName)
  keyIdentifier := keyId
  notBefore := certificate.notBefore
  notAfter := certificate.notAfter
  certificateData := certificate.wire
  validFlag := 1
  defaultCert := 0

-- `addCertificate` ends with the same statements.
def addAnyCertificate (certificate : InstalledCertificate) : Storage Unit := do
  let keyId ← keyIdOf certificate.publicKeyName
  let signerName ← signerOf certificate
  modify (fun s => {s with
    certificate := Table.insert (fun row => row.certName) s.certificate (certificateRow certificate keyId signerName)})

def addCertificate (certificate : InstalledCertificate) : Storage Unit := do
  let keyName := certificate.publicKeyName
  let keyExists ← doesKeyExist keyName
  throwIf (!keyExists) (.secException "No corresponding Key record for certificaite!"
    (Name.toUri keyName ++ 0x20 :: Name.toUri certificate.name))
  let installed ← doesCertificateExist certificate.name
  throwIf installed (.secException "Certificate has already been installed!" [])
  let keyBlob ← getKey keyName
  throwIf (keyBlob != some certificate.publicKeyInfo) (.secException "Certificate does not match public key!" [])
  addAnyCertificate certificate

def setDefaultIdentity (identity : Name) : Storage Unit := do
  modify (fun s => {s with
    identity := Table.update s.identity (fun row => row.defaultIdentity == 1) (fun row => {row with defaultIdentity := 0})})
  modify (fun s => {s with
    identity := Table.update s.identity (fun row => row.identityName == Name.toUri identity)
      (fun row => {row with defaultIdentity := 1})})

def setDefaultKeyNameForIdentity (keyName identityName : Name) : Storage Unit := do
  let keyId ← keyIdOf keyName
  let identity := identityOf keyName
  throwIf (decide (Name.compare identityName [] ≠ 0) && decide (Name.compare identityName identity ≠ 0))
    (.secException "Specified identity name does not match the key name" [])
  modify (fun s => {s with
    key := Table.update s.key (fun row => row.defaultKey == 1 && row.identityName == Name.toUri identity)
      (fun row => {row with defaultKey := 0})})
  modify (fun s => {s with
    key := Table.update s.key (fun row => row.identityName == Name.toUri identity && row.keyIdentifier == keyId)
      (fun row => {row with defaultKey := 1})})

def setDefaultCertificateNameForKey (keyName certName : Name) : Storage Unit := do
  let keyId ← keyIdOf keyName
  let identity := identityOf keyName
  modify (fun s => {s with
    certificate := Table.update s.certificate
      (fun row => row.defaultCert == 1 && row.identityName == Name.toUri identity && row.keyIdentifier == keyId)
      (fun row => {row with defaultCert := 0})})
  modify (fun s => {s with
    certificate := Table.update s.certificate
      (fun row => row.identityName == Name.toUri identity && row.keyIdentifier == keyId && row.certName == Name.toUri certName)
      (fun row => {row with defaultCert := 1})})

inductive Setter where
  | setDefaultIdentity (identity : Name)
  | setDefaultKeyNameForIdentity (keyName identityName : Name)
  | setDefaultCertificateNameForKey (keyName certName : Name)
  deriving DecidableEq, Repr

inductive Operation where
  | addIdentity (identity : Name)
  | addKey (keyName : Name) (keyType : Int) (pubKeyBlob : Blob)
  | activateKey (keyName : Name)
  | deactivateKey (keyName : Name)
  | addAnyCertificate (certificate : InstalledCertificate)
  | addCertificate (certificate : InstalledCertificate)
  | set (setter : Setter)
  deriving DecidableEq, Repr

def Setter.perform : Setter → Storage Unit
  | .setDefaultIdentity identity => BasicIdentityStorage.setDefaultIdentity identity
  | .setDefaultKeyNameForIdentity keyName identityName =>
    BasicIdentityStorage.setDefaultKeyNameForIdentity keyName identityName
  | .setDefaultCertificateNameForKey keyName certName =>
    BasicIdentityStorage.setDefaultCertificateNameForKey keyName certName

def Operation.perform : Operation → Storage Unit
  | .addIdentity identity => BasicIdentityStorage.addIdentity identity
  | .addKey keyName keyType pubKeyBlob => BasicIdentityStorage.addKey keyName keyType pubKeyBlob
  | .activateKey keyName => BasicIdentityStorage.activateKey keyName
  | .deactivateKey keyName => BasicIdentityStorage.deactivateKey keyName
  | .addAnyCertificate certificate => BasicIdentityStorage.addAnyCertificate certificate
  | .addCertificate certificate => BasicIdentityStorage.addCertificate certificate
  | .set setter => setter.perform

-- The store after calls that may have thrown.
def performed (s : BasicIdentityStorage) (operation : Operation) : BasicIdentityStorage := after operation.perform s

-- What a getter throws: `error::Name` out of `get`, or the error of a name that is read
-- from a column.
inductive ReadFailure where
  | storage (thrown : StorageException)
  | uri (thrown : UriError)
  deriving DecidableEq, Repr

section Getters
variable (s : BasicIdentityStorage)

-- `Name (string)` and `append (string)` of a column.
def nameOf (column : Blob) : Except ReadFailure Name := (Name.fromUri column).mapError .uri

def appendColumn (name : Name) (column : Blob) : Except ReadFailure Name :=
  ((Component.fromUri column).mapError .uri).map (Name.append name)

def keyNameOf (columns : Blob × Blob) : Except ReadFailure Name := do
  let keyName ← nameOf columns.1
  appendColumn keyName columns.2

-- `getCertificate` up to the decoding of the stored packet. The two columns of times
-- are compared as times.
def getCertificate (now : Int) (certName : Name) (any : Bool) : Option Blob :=
  if s.certificate.any (fun row => row.certName == Name.toUri certName) then
    (s.certificate.find? (fun row => row.certName == Name.toUri certName && (any ||
      (decide (row.notBefore < now) && decide (now < row.notAfter) && row.validFlag == 1)))).map CertificateRow.certificateData
  else none

def getDefaultIdentity : Except ReadFailure Name :=
  match s.identity.find? (fun row => row.defaultIdentity == 1) with
  | some row => nameOf row.identityName
  | none => .ok []

def getDefaultKeyNameForIdentity (identity : Name) : Except ReadFailure Name :=
  match s.key.find? (fun row => row.identityName == Name.toUri identity && row.defaultKey == 1) with
  | some row => appendColumn identity row.keyIdentifier
  | none => .ok []

def getDefaultCertificateNameForKey (keyName : Name) : Except ReadFailure Name := do
  let keyId ← (result (keyIdOf keyName) s).mapError .storage
  match s.certificate.find? (fun row =>
    row.identityName == Name.toUri (identityOf keyName) && row.keyIdentifier == keyId && row.defaultCert == 1) with
  | some row => nameOf row.certName
  | none => .ok []

def getDefaultCertificateNameForIdentity (identity : Name) : Except ReadFailure Name := do
  let keyName ← s.getDefaultKeyNameForIdentity identity
  s.getDefaultCertificateNameForKey keyName

-- The flag that the listings ask for.
def flagOf (isDefault : Bool) : Int := if isDefault then 1 else 0

def getAllIdentities (isDefault : Bool) : Except ReadFailure (List Name) :=
  ((s.identity.filter (fun row => row.defaultIdentity == flagOf isDefault)).map IdentityRow.identityName).mapM nameOf

def getAllKeyNames (isDefault : Bool) : Except ReadFailure (List Name) :=
  ((s.key.filter (fun row => row.defaultKey == flagOf isDefault)).map keyColumns).mapM keyNameOf

def getAllKeyNamesOfIdentity (identity : Name) (isDefault : Bool) : Except ReadFailure (List Name) :=
  ((s.key.filter (fun row => row.defaultKey == flagOf isDefault && row.identityName == Name.toUri identity)).map
    KeyRow.keyIdentifier).mapM (appendColumn identity)

def getAllCertificateNames (isDefault : Bool) : Except ReadFailure (List Name) :=
  ((s.certificate.filter (fun row => row.defaultCert == flagOf isDefault)).map CertificateRow.certName).mapM nameOf

def getAllCertificateNamesOfKey (keyName : Name) (isDefault : Bool) : Except ReadFailure (List Name) := do
  let keyId ← (result (keyIdOf keyName) s).mapError .storage
  ((s.certificate.filter (fun row => row.defaultCert == flagOf isDefault &&
    row.identityName == Name.toUri (identityOf keyName) && row.keyIdentifier == keyId)).map
      CertificateRow.certName).mapM nameOf

end Getters
end BasicIdentityStorage
end NdnCxx.Security
