import NdnCxx.Der.Oid
import NdnCxx.Security.DefaultEntries

namespace NdnCxx.Security
open Stateful Throwing
open BasicIdentityStorage (Storage doesIdentityExist addIdentity doesKeyExist addKey setDefaultKeyNameForIdentity)

-- What the public storage throws, what reading a name from its text throws, what the
-- private storage throws; a private storage that answers with a null pointer.
inductive ManagerFailure where
  | publicStorage (thrown : StorageException)
  | uri (thrown : UriError)
  | privateStorage (msg : Blob)
  | nullKey
  deriving DecidableEq, Repr

-- `PrivatekeyStorage`, as far as keys are generated: its own state, and calls that may
-- fail at any time.
structure PrivatekeyStorage (P : Type) where
  generateKeyPair : Name → Int → Int → Call P ManagerFailure Unit
  getPublickey : Name → Call P ManagerFailure (Option Blob)

structure IdentityManager (P : Type) where
  publicStorage : BasicIdentityStorage
  privateStorage : P
  deriving DecidableEq, Repr

namespace IdentityManager
variable {P : Type}

abbrev Managed (P α : Type) := Call (IdentityManager P) ManagerFailure α

def onPublic {α : Type} (call : Storage α) : Managed P α := ExceptT.mk (fun m =>
  ((result call m.publicStorage).mapError .publicStorage,{m with publicStorage := after call m.publicStorage}))

def onPrivate {α : Type} (call : Call P ManagerFailure α) : Managed P α := ExceptT.mk (fun m =>
  (result call m.privateStorage,{m with privateStorage := after call m.privateStorage}))

-- The private storage is given a name made from the text of the key name.
def fromText (text : Blob) : Managed P Name := ExceptT.mk (fun m => ((Name.fromUri text).mapError .uri,m))

-- `ksk-` and `dsk-`.
def keyPrefix (ksk : Bool) : Blob := (if ksk then 0x6B else 0x64) :: [0x73,0x6B,0x2D]

def getNewKeyName (now : Int) (identity : Name) (ksk : Bool) : Storage Name := do
  let keyName := Name.append identity ⟨keyPrefix ksk ++ Der.printInt (Wire.totalSeconds now)⟩
  let existed ← doesKeyExist keyName
  throwIf existed (.secException "Key name has already existed" [])
  return keyName

def keyTypeRSA : Int := 0

def generateKeyPair (storage : PrivatekeyStorage P) (now : Int) (identity : Name) (ksk : Bool) (keyType keySize : Int) :
    Managed P Name := do
  let keyName ← onPublic (getNewKeyName now identity ksk)
  let name ← fromText (Name.toUri keyName)
  onPrivate (storage.generateKeyPair name keyType keySize)
  let name ← fromText (Name.toUri keyName)
  let pubKey ← onPrivate (storage.getPublickey name)
  match pubKey with
  | none => throw .nullKey
  | some keyBlob =>
    onPublic (addKey keyName keyType keyBlob)
    return keyName

def generateRSAKeyPairAsDefault (storage : PrivatekeyStorage P) (now : Int) (identity : Name) (ksk : Bool) (keySize : Int) :
    Managed P Name := do
  let keyName ← generateKeyPair storage now identity ksk keyTypeRSA keySize
  onPublic (setDefaultKeyNameForIdentity keyName identity)
  return keyName

-- The steps after the identity is found to be new.
def createNew (storage : PrivatekeyStorage P) (now : Int) (identity : Name) : Managed P Name := do
  onPublic (addIdentity identity)
  generateRSAKeyPairAsDefault storage now identity true 2048

def createIdentity (storage : PrivatekeyStorage P) (now : Int) (identity : Name) : Managed P Name := do
  let existed ← onPublic (doesIdentityExist identity)
  if existed then throw (.publicStorage (.secException "Identity has already been created!" []))
  else createNew storage now identity

def identityExists (s : BasicIdentityStorage) (identity : Name) : Bool :=
  s.identity.any (fun row => row.identityName == Name.toUri identity)

-- The public storage with a row for the identity and nothing else.
def withIdentity (s : BasicIdentityStorage) (identity : Name) : BasicIdentityStorage :=
  {s with identity := s.identity ++ [⟨Name.toUri identity,0⟩]}

section Parts
variable {α : Type} (m : IdentityManager P)

@[simp] theorem result_onPublic (call : Storage α) :
    result (onPublic (P := P) call) m = (result call m.publicStorage).mapError .publicStorage := rfl

@[simp] theorem after_onPublic (call : Storage α) :
    after (onPublic (P := P) call) m = {m with publicStorage := after call m.publicStorage} := rfl

end Parts

section Storage
variable {s t : BasicIdentityStorage}

theorem keyIdOf_last {keyName : Name} {last : Component} (named : keyName.getLast? = some last) (s : BasicIdentityStorage) :
    result (BasicIdentityStorage.keyIdOf keyName) s = .ok last.toUri := by
  rw [BasicIdentityStorage.keyIdOf,named]
  rfl

-- Whether a key exists is a question to the key table alone.
theorem doesKeyExist_last {keyName : Name} {last : Component} (named : keyName.getLast? = some last)
    (s : BasicIdentityStorage) :
    result (doesKeyExist keyName) s = .ok (s.key.any (fun row =>
      row.identityName == Name.toUri (BasicIdentityStorage.identityOf keyName) && row.keyIdentifier == last.toUri)) := by
  rw [doesKeyExist,(bind_returned (keyIdOf_last named s) _).1,BasicIdentityStorage.keyIdOf_reads]
  rfl

theorem addIdentity_new {identity : Name} (absent : identityExists s identity = false) :
    result (addIdentity identity) s = .ok () ∧ after (addIdentity identity) s = withIdentity s identity := by
  have existed : result (doesIdentityExist identity) s = .ok false := by rw [← absent]; rfl
  have fresh : ¬s.identity.any (fun other => decide (other.identityName = Name.toUri identity)) = true := by
    simpa [identityExists] using absent
  obtain ⟨returned,left⟩ := bind_returned existed (fun existed => do
    throwIf existed (.secException "Identity has already existed" [])
    modify (fun s => {s with
      identity := Table.insert (fun row => row.identityName) s.identity ⟨Name.toUri identity,0⟩}))
  have stored : Table.insert (fun row : IdentityRow => row.identityName) s.identity ⟨Name.toUri identity,0⟩ =
      s.identity ++ [⟨Name.toUri identity,0⟩] := if_neg fresh
  refine ⟨returned,left.trans ?_⟩
  rw [withIdentity,← stored]
  rfl

-- The identity of a key is added where it is missing; that never throws and leaves the
-- keys alone.
theorem ensureIdentity_returns (identity : Name) (s : BasicIdentityStorage) :
    result (BasicIdentityStorage.ensureIdentity identity) s = .ok () ∧
      (after (BasicIdentityStorage.ensureIdentity identity) s).key = s.key := by
  have asked : result (doesIdentityExist identity) s = .ok (identityExists s identity) := rfl
  obtain ⟨returned,left⟩ := bind_returned asked (fun known => if known then pure () else addIdentity identity)
  cases known : identityExists s identity with
  | true =>
    rw [known] at returned left
    exact ⟨returned,congrArg BasicIdentityStorage.key left⟩
  | false =>
    rw [known] at returned left
    obtain ⟨added,stored⟩ := addIdentity_new known
    have through : after (BasicIdentityStorage.ensureIdentity identity) s = after (addIdentity identity) s := left
    refine ⟨returned.trans added,?_⟩
    rw [through,stored,withIdentity]

theorem addKey_returns {keyName : Name} {last : Component} (named : keyName.getLast? = some last)
    (fresh : result (doesKeyExist keyName) s = .ok false) (keyType : Int) (keyBlob : Blob) :
    result (addKey keyName keyType keyBlob) s = .ok () := by
  obtain ⟨ensured,keys⟩ := ensureIdentity_returns (BasicIdentityStorage.identityOf keyName) s
  have still : result (doesKeyExist keyName) (after (BasicIdentityStorage.ensureIdentity
      (BasicIdentityStorage.identityOf keyName)) s) = .ok false := by
    rw [doesKeyExist_last named] at fresh ⊢
    rw [keys]
    exact fresh
  rw [addKey,(bind_returned (keyIdOf_last named s) _).1,BasicIdentityStorage.keyIdOf_reads,(bind_returned ensured _).1,
    (bind_returned still _).1,BasicIdentityStorage.doesKeyExist_reads]
  rfl

theorem getNewKeyName_reads (now : Int) (identity : Name) (ksk : Bool) (s : BasicIdentityStorage) :
    after (getNewKeyName now identity ksk) s = s := by
  rw [getNewKeyName,after_bind,BasicIdentityStorage.doesKeyExist_reads]
  cases result (doesKeyExist (Name.append identity ⟨keyPrefix ksk ++ Der.printInt (Wire.totalSeconds now)⟩)) s with
  | error thrown => rfl
  | ok existed => cases existed <;> rfl

theorem getNewKeyName_fresh {now : Int} {identity keyName : Name} {ksk : Bool}
    (returned : result (getNewKeyName now identity ksk) s = .ok keyName) :
    result (doesKeyExist keyName) s = .ok false ∧ ∃ last, keyName.getLast? = some last := by
  have filled : (⟨keyPrefix ksk ++ Der.printInt (Wire.totalSeconds now)⟩ : Component).size ≠ 0 := by
    simp [Component.size,keyPrefix]
  have named : (Name.append identity ⟨keyPrefix ksk ++ Der.printInt (Wire.totalSeconds now)⟩).getLast? =
      some ⟨keyPrefix ksk ++ Der.printInt (Wire.totalSeconds now)⟩ := by
    rw [Name.append,if_pos filled,List.getLast?_concat]
  have asked := doesKeyExist_last named s
  generalize s.key.any _ = existed at asked
  rw [getNewKeyName,(bind_returned asked _).1,BasicIdentityStorage.doesKeyExist_reads] at returned
  cases existed with
  | true => cases returned
  | false =>
    cases returned
    exact ⟨asked,_,named⟩

end Storage

-- A call that, begun with this public storage, leaves it as it is when it throws.
def Harmless {α : Type} (s : BasicIdentityStorage) (call : Managed P α) : Prop :=
  ∀ m, m.publicStorage = s → ∀ thrown, result call m = .error thrown → (after call m).publicStorage = s

section Harmless
variable {α β : Type} {s : BasicIdentityStorage}

theorem Harmless.bind {call : Managed P α} {next : α → Managed P β}
    (silent : ∀ m, m.publicStorage = s → (after call m).publicStorage = s)
    (later : ∀ a, (∃ m, m.publicStorage = s ∧ result call m = .ok a) → Harmless s (next a)) :
    Harmless s (call >>= next) := by
  intro m same thrown threw
  cases returned : result call m with
  | error early =>
    rw [(bind_threw returned next).2]
    exact silent m same
  | ok a =>
    rw [(bind_returned returned next).1] at threw
    rw [(bind_returned returned next).2]
    exact later a ⟨m,same,returned⟩ _ (silent m same) thrown threw

-- A call that does not throw here.
theorem harmless_returns {call : Managed P α} {a : α} (returns : ∀ m, m.publicStorage = s → result call m = .ok a) :
    Harmless s call := by
  intro m same thrown threw
  rw [returns m same] at threw
  cases threw

end Harmless

-- Neither the way to a key name nor the private storage touches the public one, and the
-- key that is added at the end is new.
theorem generateKeyPair_harmless (storage : PrivatekeyStorage P) (now : Int) (identity : Name) (ksk : Bool)
    (keyType keySize : Int) (s : BasicIdentityStorage) :
    Harmless s (generateKeyPair storage now identity ksk keyType keySize) := by
  refine .bind ?_ ?_
  · rintro m rfl
    exact getNewKeyName_reads now identity ksk _
  rintro keyName ⟨m,rfl,returned⟩
  obtain ⟨fresh,last,named⟩ := getNewKeyName_fresh (mapError_ok returned)
  refine .bind (fun _ same => same) fun name _ => .bind (fun _ same => same) fun _ _ => ?_
  refine .bind (fun _ same => same) fun name _ => .bind (fun _ same => same) fun pubKey _ => ?_
  cases pubKey with
  | none => exact fun _ same _ _ => same
  | some keyBlob =>
    refine harmless_returns (a := keyName) ?_
    intro m' same
    have added : result (onPublic (P := P) (addKey keyName keyType keyBlob)) m' = .ok () := by
      rw [result_onPublic,same,addKey_returns named fresh]
      rfl
    rw [(bind_returned added _).1]
    rfl

-- The public storage is asked, and what is done next starts where it is.
theorem createIdentity_asks (storage : PrivatekeyStorage P) (now : Int) {identity : Name} {m : IdentityManager P}
    {existed : Bool} (asked : identityExists m.publicStorage identity = existed) :
    let next : Managed P Name := if existed then
      throw (.publicStorage (.secException "Identity has already been created!" [])) else createNew storage now identity
    result (createIdentity storage now identity) m = result next m ∧
      after (createIdentity storage now identity) m = after next m := by
  have answer : result (onPublic (P := P) (doesIdentityExist identity)) m = .ok existed := by
    rw [← asked]
    rfl
  exact bind_returned answer _

theorem createIdentity_existing (storage : PrivatekeyStorage P) (now : Int) {identity : Name} {m : IdentityManager P}
    (existing : identityExists m.publicStorage identity = true) :
    result (createIdentity storage now identity) m =
        .error (.publicStorage (.secException "Identity has already been created!" [])) ∧
      after (createIdentity storage now identity) m = m := createIdentity_asks storage now existing

theorem createIdentity_new (storage : PrivatekeyStorage P) (now : Int) {identity : Name} {m : IdentityManager P}
    (absent : identityExists m.publicStorage identity = false) :
    result (createIdentity storage now identity) m = result (generateRSAKeyPairAsDefault storage now identity true 2048)
        {m with publicStorage := withIdentity m.publicStorage identity} ∧
      after (createIdentity storage now identity) m = after (generateRSAKeyPairAsDefault storage now identity true 2048)
        {m with publicStorage := withIdentity m.publicStorage identity} := by
  obtain ⟨returned,left⟩ := createIdentity_asks storage now absent
  obtain ⟨added,stored⟩ := addIdentity_new absent
  have step : result (onPublic (P := P) (addIdentity identity)) m = .ok () := by
    rw [result_onPublic,added]
    rfl
  have moved : after (onPublic (P := P) (addIdentity identity)) m =
      {m with publicStorage := withIdentity m.publicStorage identity} := by
    rw [after_onPublic,stored]
  obtain ⟨begun,following⟩ := bind_returned step (fun _ => generateRSAKeyPairAsDefault storage now identity true 2048)
  rw [moved] at begun following
  exact ⟨returned.trans begun,left.trans following⟩

theorem withIdentity_exists (s : BasicIdentityStorage) (identity : Name) :
    identityExists (withIdentity s identity) identity = true := by
  simp [identityExists,withIdentity]

-- What a throw on the way to the key leaves: the row of the identity, without a key, and
-- for as long as it is there the identity cannot be created.
theorem create_identity_leaves (storage : PrivatekeyStorage P) (now : Int) {identity : Name} {m : IdentityManager P}
    (absent : identityExists m.publicStorage identity = false) {thrown : ManagerFailure}
    (failed : result (generateKeyPair storage now identity true keyTypeRSA 2048)
      {m with publicStorage := withIdentity m.publicStorage identity} = .error thrown) :
    result (createIdentity storage now identity) m = .error thrown ∧
      (after (createIdentity storage now identity) m).publicStorage = withIdentity m.publicStorage identity ∧
      ∀ (again : PrivatekeyStorage P) (later : Int) (left : IdentityManager P),
        left.publicStorage = (after (createIdentity storage now identity) m).publicStorage →
        result (createIdentity again later identity) left =
            .error (.publicStorage (.secException "Identity has already been created!" [])) ∧
          after (createIdentity again later identity) left = left := by
  obtain ⟨created,reached⟩ := createIdentity_new storage now absent
  obtain ⟨threw,stopped⟩ := bind_threw failed (fun keyName => do
    onPublic (setDefaultKeyNameForIdentity keyName identity)
    return keyName)
  have stored : (after (createIdentity storage now identity) m).publicStorage = withIdentity m.publicStorage identity := by
    rw [reached]
    exact (congrArg publicStorage stopped).trans (generateKeyPair_harmless storage now identity true _ _ _ _ rfl _ failed)
  refine ⟨created.trans threw,stored,?_⟩
  intro again later left same
  apply createIdentity_existing
  rw [same,stored]
  exact withIdentity_exists _ _

-- A private storage in which no key can be made.
def unavailable : PrivatekeyStorage Unit :=
  ⟨fun _ _ _ => throw (.privateStorage []),fun _ => throw (.privateStorage [])⟩

-- `/alice`
def alice : Name := [⟨[0x61,0x6C,0x69,0x63,0x65]⟩]

theorem create_identity_leaves_alice :
    result (createIdentity unavailable 0 alice) ⟨.empty,()⟩ = .error (.privateStorage []) ∧
      (after (createIdentity unavailable 0 alice) ⟨.empty,()⟩).publicStorage = withIdentity .empty alice ∧
      ∀ (again : PrivatekeyStorage Unit) (later : Int) (left : IdentityManager Unit),
        left.publicStorage = (after (createIdentity unavailable 0 alice) ⟨.empty,()⟩).publicStorage →
        result (createIdentity again later alice) left =
            .error (.publicStorage (.secException "Identity has already been created!" [])) ∧
          after (createIdentity again later alice) left = left :=
  create_identity_leaves unavailable 0 (by decide) (by decide +kernel)

-- The storage is not what it was, and no later call can create the identity, whatever
-- the private storage does then.
theorem alice_stays :
    result (createIdentity unavailable 0 alice) ⟨.empty,()⟩ = .error (.privateStorage []) ∧
      (after (createIdentity unavailable 0 alice) ⟨.empty,()⟩).publicStorage ≠ .empty ∧
      ∀ (again : PrivatekeyStorage Unit) (later : Int),
        result (createIdentity again later alice) (after (createIdentity unavailable 0 alice) ⟨.empty,()⟩) =
          .error (.publicStorage (.secException "Identity has already been created!" [])) := by
  refine ⟨by decide +kernel,by decide +kernel,?_⟩
  intro again later
  exact (createIdentity_existing again later (by decide +kernel)).1

end IdentityManager
end NdnCxx.Security
