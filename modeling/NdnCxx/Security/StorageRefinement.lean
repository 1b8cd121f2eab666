import NdnCxx.Security.Registry

namespace NdnCxx.Security.BasicIdentityStorage
open Stateful Table Registry Throwing

-- The tables as registers.
def identityTable : Columns IdentityRow Unit Blob Unit (fun _ _ => ()) where
  toMarking := identityMarking
  value _ := ()
  unmarked row := row.defaultIdentity == 0
  owner_row _ := rfl
  value_mark _ _ := rfl
  unmarked_mark chosen _ := by cases chosen <;> rfl

def keyTable : Columns KeyRow Blob (Blob × Blob) KeyEntry (fun key _ => key.1) where
  toMarking := keyMarking
  value row := ⟨row.keyType,row.publicKey,row.active⟩
  unmarked row := row.defaultKey == 0
  owner_row _ := rfl
  value_mark _ _ := rfl
  unmarked_mark chosen _ := by cases chosen <;> rfl

def certificateTable : Columns CertificateRow (Blob × Blob) Blob CertificateEntry
    (fun _ entry => (entry.identityName,entry.keyIdentifier)) where
  toMarking := certificateMarking
  value row := ⟨row.certIssuer,row.identityName,row.keyIdentifier,row.notBefore,row.notAfter,row.certificateData,row.validFlag⟩
  unmarked row := row.defaultCert == 0
  owner_row _ := rfl
  value_mark _ _ := rfl
  unmarked_mark chosen _ := by cases chosen <;> rfl

structure Represents (s : BasicIdentityStorage) (r : Registry) : Prop where
  identities : identityTable.Represents s.identity r.identities
  keys : keyTable.Represents s.key r.keys
  certificates : certificateTable.Represents s.certificate r.certificates

theorem empty_represents : Represents empty Registry.empty :=
  ⟨Columns.represents_nil,Columns.represents_nil,Columns.represents_nil⟩

theorem refused_or_ok (refused : Bool) (msg : String) (names : Blob) :
    (refuseIf refused msg names >>= fun _ => .ok ()) = refuseIf refused msg names := by
  cases refused <;> rfl

-- A call that returns or throws this, and leaves tables that stand for that.
def Agrees (call : Storage Unit) (expected : Except StorageException Unit) (s : BasicIdentityStorage) (r : Registry) : Prop :=
  result call s = expected ∧ Represents (after call s) r

section Calls
variable {s : BasicIdentityStorage} {r next : Registry} {expected : Except StorageException Unit}

theorem agrees_modify {change : BasicIdentityStorage → BasicIdentityStorage} (changed : Represents (change s) r) :
    Agrees (modify change) (.ok ()) s r :=
  ⟨rfl,changed⟩

theorem agrees_read {α : Type} {read : Storage α} {later : α → Storage Unit} {a : α} (returned : result read s = .ok a)
    (same : after read s = s) (agrees : Agrees (later a) expected s r) : Agrees (read >>= later) expected s r := by
  obtain ⟨returns,leaves⟩ := bind_returned returned later
  rw [same] at returns leaves
  exact ⟨returns.trans agrees.1,leaves ▸ agrees.2⟩

theorem agrees_thrown {α : Type} {read : Storage α} {thrown : StorageException} (threw : result read s = .error thrown)
    (same : after read s = s) (represents : Represents s r) (later : α → Storage Unit) :
    Agrees (read >>= later) (.error thrown) s r := by
  obtain ⟨throws,leaves⟩ := bind_threw threw later
  rw [same] at leaves
  exact ⟨throws,leaves.symm ▸ represents⟩

theorem agrees_refused {refused : Bool} {msg : String} {names : Blob} {later : Unit → Storage Unit}
    (unchanged : refused = true → Represents s r) (agrees : refused = false → Agrees (later ()) expected s r) :
    Agrees (throwIf refused (.secException msg names) >>= later) (refuseIf refused msg names >>= fun _ => expected) s r := by
  cases refused with
  | true => exact ⟨rfl,unchanged rfl⟩
  | false => exact agrees rfl

theorem agrees_then {call : Storage Unit} {later : Unit → Storage Unit} {middle : Registry}
    (first : Agrees call (.ok ()) s middle) (agrees : ∀ s, Represents s middle → Agrees (later ()) expected s r) :
    Agrees (call >>= later) expected s r := by
  obtain ⟨returns,leaves⟩ := bind_returned first.1 later
  obtain ⟨same,represents⟩ := agrees _ first.2
  exact ⟨returns.trans same,leaves ▸ represents⟩

theorem keyOf_identity {keyName : Name} {key : Blob × Blob} (known : keyOf keyName = some key) :
    Name.toUri (identityOf keyName) = key.1 := by
  obtain ⟨_,_,rfl⟩ := Option.map_eq_some_iff.mp known
  rfl

theorem keyIdOf_some {keyName : Name} {key : Blob × Blob} (known : keyOf keyName = some key) :
    result (keyIdOf keyName) s = .ok key.2 := by
  obtain ⟨keyId,last,rfl⟩ := Option.map_eq_some_iff.mp known
  unfold keyIdOf
  rw [last]
  rfl

theorem keyIdOf_none {keyName : Name} (unknown : keyOf keyName = none) :
    result (keyIdOf keyName) s = .error (.indexOutOfRange (-1)) := by
  unfold keyIdOf
  rw [Option.map_eq_none_iff.mp unknown]
  rfl

-- Every call that reads the key identifier first.
theorem agrees_key {keyName : Name} {later : Blob → Storage Unit} {outcome : Blob × Blob → Except StorageException Unit}
    (unnamed : keyOf keyName = none → Represents s r)
    (agrees : ∀ key, keyOf keyName = some key → Agrees (later key.2) (outcome key) s r) :
    Agrees (keyIdOf keyName >>= later) (needsKey keyName outcome) s r := by
  unfold needsKey
  cases known : keyOf keyName with
  | none => exact agrees_thrown (keyIdOf_none known) (keyIdOf_reads _ _) (unnamed known) _
  | some key => exact agrees_read (keyIdOf_some known) (keyIdOf_reads _ _) (agrees key known)

theorem identity_added (represents : Represents s r) (uri : Blob) :
    Represents {s with identity := Table.insert (fun row => row.identityName) s.identity ⟨uri,0⟩}
      {r with identities := r.identities.add uri ()} := by
  have unmarked : identityTable.marked ⟨uri,0⟩ = false := rfl
  exact ⟨represents.identities.insert unmarked rfl,represents.keys,represents.certificates⟩

theorem identity_present (represents : Represents s r) {uri : Blob} (present : (r.identities.entry uri).isSome = true) :
    Represents s {r with identities := r.identities.add uri ()} := by
  have same : Table.insert (fun row : IdentityRow => row.identityName) s.identity ⟨uri,0⟩ = s.identity :=
    represents.identities.insert_present present
  have added := identity_added represents uri
  rwa [same] at added

theorem doesIdentityExist_reads (represents : Represents s r) (identity : Name) :
    result (doesIdentityExist identity) s = .ok (r.identities.entry (Name.toUri identity)).isSome :=
  congrArg Except.ok (represents.identities.any fun _ => beq_eq_decide _ _)

theorem addIdentity_refines (represents : Represents s r) (identity : Name) :
    Agrees (addIdentity identity) (r.outcome (.addIdentity identity)) s (r.next (.addIdentity identity)) := by
  rw [Registry.outcome,← refused_or_ok]
  exact agrees_read (doesIdentityExist_reads represents identity) rfl
    (agrees_refused (identity_present represents) fun _ => agrees_modify (identity_added represents _))

theorem ensureIdentity_refines (represents : Represents s r) (identity : Name) :
    Agrees (ensureIdentity identity) (.ok ()) s (r.next (.addIdentity identity)) := by
  refine agrees_read (doesIdentityExist_reads represents identity) rfl ?_
  cases known : (r.identities.entry (Name.toUri identity)).isSome with
  | true => exact ⟨rfl,identity_present represents known⟩
  | false =>
    have agrees := addIdentity_refines represents identity
    rwa [Registry.outcome,known] at agrees

theorem keyRow_iff {keyName : Name} {key : Blob × Blob} (known : keyOf keyName = some key) (row : KeyRow) :
    (row.identityName == Name.toUri (identityOf keyName) && row.keyIdentifier == key.2) = decide (keyTable.key row = key) := by
  rw [keyOf_identity known]
  cases key
  simp [keyTable,keyMarking,keyColumns,beq_eq_decide]

theorem doesKeyExist_result (represents : Represents s r) {keyName : Name} {key : Blob × Blob}
    (known : keyOf keyName = some key) : result (doesKeyExist keyName) s = .ok (r.keys.entry key).isSome := by
  obtain ⟨returns,_⟩ := bind_returned (s := s) (keyIdOf_some known) (fun keyId => do
    let s ← get
    return s.key.any (fun row => row.identityName == Name.toUri (identityOf keyName) && row.keyIdentifier == keyId))
  refine returns.trans ?_
  rw [keyIdOf_reads]
  exact congrArg Except.ok (represents.keys.any (keyRow_iff known))

theorem key_added (represents : Represents s r) (key : Blob × Blob) (keyType : Int) (pubKeyBlob : Blob) :
    Represents {s with key := Table.insert keyColumns s.key ⟨key.1,key.2,keyType,pubKeyBlob,0,0⟩}
      {r with keys := r.keys.add key ⟨keyType,pubKeyBlob,0⟩} := by
  have unmarked : keyTable.marked ⟨key.1,key.2,keyType,pubKeyBlob,0,0⟩ = false := rfl
  exact ⟨represents.identities,represents.keys.insert unmarked rfl,represents.certificates⟩

theorem key_present (represents : Represents s r) {key : Blob × Blob} (present : (r.keys.entry key).isSome = true)
    (entry : KeyEntry) : Represents s {r with keys := r.keys.add key entry} := by
  refine ⟨represents.identities,?_,represents.certificates⟩
  rw [Register.add_present present]
  exact represents.keys

theorem addKey_refines (represents : Represents s r) (keyName : Name) (keyType : Int) (pubKeyBlob : Blob) :
    Agrees (addKey keyName keyType pubKeyBlob) (r.outcome (.addKey keyName keyType pubKeyBlob)) s
      (r.next (.addKey keyName keyType pubKeyBlob)) := by
  refine agrees_key ?_ ?_
  · intro unnamed
    simpa only [Registry.next,unnamed] using represents
  · intro key known
    rw [← refused_or_ok]
    simp only [Registry.next,known]
    have ensured := ensureIdentity_refines represents (identityOf keyName)
    rw [Registry.next,keyOf_identity known] at ensured
    refine agrees_then ensured ?_
    intro s represents
    refine agrees_read (doesKeyExist_result represents known) (doesKeyExist_reads _ _) ?_
    refine agrees_refused (fun present => key_present represents present _) fun _ => agrees_modify ?_
    rw [keyOf_identity known]
    exact key_added represents key keyType pubKeyBlob

theorem updateKeyStatus_refines (represents : Represents s r) (keyName : Name) (active : Bool) :
    Agrees (updateKeyStatus keyName active) (needsKey keyName fun _ => .ok ()) s
      (r.setActive keyName (if active then 1 else 0)) := by
  refine agrees_key ?_ ?_
  · intro unnamed
    simpa only [Registry.setActive,unnamed] using represents
  · intro key known
    refine agrees_modify ?_
    rw [funext (keyRow_iff known),Registry.setActive,known]
    refine ⟨represents.identities,represents.keys.adjust key (fun _ => rfl) ?_ ?_ ?_ ?_ ?_,represents.certificates⟩
    all_goals exact fun _ => rfl

theorem doesCertificateExist_result (represents : Represents s r) (certName : Name) :
    result (doesCertificateExist certName) s = .ok (r.certificates.entry (Name.toUri certName)).isSome :=
  congrArg Except.ok (represents.certificates.any fun _ => beq_eq_decide _ _)

theorem certificate_added (represents : Represents s r) (certificate : InstalledCertificate) {key : Blob × Blob}
    (known : keyOf certificate.publicKeyName = some key) (signerName : Name) :
    Represents
      ⟨s.identity,s.key,Table.insert (fun row => row.certName) s.certificate (certificateRow certificate key.2 signerName)⟩
      ⟨r.identities,r.keys,
        r.certificates.add (Name.toUri certificate.name) (certificateEntry certificate key (Name.toUri signerName))⟩ := by
  have unmarked : certificateTable.marked (certificateRow certificate key.2 signerName) = false := rfl
  have entry : certificateTable.value (certificateRow certificate key.2 signerName) =
      certificateEntry certificate key (Name.toUri signerName) := by
    simp only [certificateTable,certificateRow,certificateEntry,keyOf_identity known]
  exact ⟨represents.identities,represents.keys,entry ▸ represents.certificates.insert unmarked rfl⟩

theorem addAnyCertificate_refines (represents : Represents s r) (certificate : InstalledCertificate) :
    Agrees (addAnyCertificate certificate) (installing certificate) s (r.install certificate) := by
  have same : installing certificate = needsKey certificate.publicKeyName (fun _ =>
      (signerUri certificate).elim (.error .keyLocator) (fun _ => .ok ())) := by
    unfold installing needsKey
    cases keyOf certificate.publicKeyName <;> cases signerUri certificate <;> rfl
  rw [same]
  refine agrees_key ?_ ?_
  · intro unnamed
    simpa only [Registry.install,unnamed] using represents
  · intro key known
    simp only [Registry.install,known]
    cases located : certificate.keyLocator with
    | keyname signerName =>
      have signer : result (signerOf certificate) s = .ok signerName := by
        rw [signerOf,located]
        rfl
      simp only [signerUri,located]
      exact agrees_read signer (signerOf_reads _ _) (agrees_modify (certificate_added represents certificate known signerName))
    | notset | key | certificate =>
      have signer : result (signerOf certificate) s = .error .keyLocator := by
        rw [signerOf,located]
        rfl
      simp only [signerUri,located]
      exact agrees_thrown signer (signerOf_reads _ _) represents _

theorem doesKeyExist_unnamed {keyName : Name} (unknown : keyOf keyName = none) :
    result (doesKeyExist keyName) s = .error (.indexOutOfRange (-1)) :=
  (bind_threw (keyIdOf_none unknown) _).1

theorem getKey_result (represents : Represents s r) {keyName : Name} {key : Blob × Blob}
    (known : keyOf keyName = some key) : result (getKey keyName) s = .ok ((r.keys.entry key).map KeyEntry.publicKey) := by
  have found : (s.key.find? (fun row => row.identityName == Name.toUri (identityOf keyName) && row.keyIdentifier == key.2)).map
      KeyRow.publicKey = (r.keys.entry key).map KeyEntry.publicKey := by
    rw [← represents.keys.find (keyRow_iff known),Option.map_map]
    rfl
  unfold getKey
  rw [result_bind,doesKeyExist_result represents known]
  dsimp only
  rw [doesKeyExist_reads,result_bind,keyIdOf_some known]
  dsimp only
  rw [keyIdOf_reads]
  cases there : r.keys.entry key with
  | none => rfl
  | some entry =>
    rw [there] at found
    exact congrArg Except.ok found

theorem holds_iff {certificate : InstalledCertificate} {key : Blob × Blob}
    (known : keyOf certificate.publicKeyName = some key) :
    ((r.keys.entry key).map KeyEntry.publicKey != some certificate.publicKeyInfo) = !r.holds certificate := by
  unfold holds
  rw [known,Option.bind_some]
  cases r.keys.entry key with
  | none => rfl
  | some entry => simp [bne,beq_eq_decide]

theorem certificate_present (represents : Represents s r) {certificate : InstalledCertificate}
    (present : (r.certificates.entry (Name.toUri certificate.name)).isSome = true) :
    Represents s (r.install certificate) := by
  unfold install
  split
  · refine ⟨represents.identities,represents.keys,?_⟩
    rw [Register.add_present present]
    exact represents.certificates
  · exact represents

theorem addCertificate_refines (represents : Represents s r) (certificate : InstalledCertificate) :
    Agrees (addCertificate certificate) (r.outcome (.addCertificate certificate)) s (r.next (.addCertificate certificate)) := by
  simp only [Registry.outcome,Registry.next,needsKey]
  cases known : keyOf certificate.publicKeyName with
  | none =>
    have missing : r.holds certificate = false := by
      unfold holds
      rw [known]
      rfl
    rw [missing]
    exact agrees_thrown (doesKeyExist_unnamed known) (doesKeyExist_reads _ _) represents _
  | some key =>
    refine agrees_read (doesKeyExist_result represents known) (doesKeyExist_reads _ _) ?_
    refine agrees_refused ?_ fun stored => ?_
    · intro absent
      have missing : r.holds certificate = false := by
        unfold holds
        rw [known,Option.bind_some]
        cases there : r.keys.entry key with
        | none => rfl
        | some entry =>
          rw [there] at absent
          cases absent
      rw [missing]
      exact represents
    · refine agrees_read (doesCertificateExist_result represents certificate.name) rfl (agrees_refused ?_ fun fresh => ?_)
      · intro present
        split
        · exact certificate_present represents present
        · exact represents
      · refine agrees_read (getKey_result represents known) (getKey_reads _ _) ?_
        rw [holds_iff known]
        refine agrees_refused ?_ fun matches' => ?_
        · intro apart
          rw [if_neg (by simpa using apart)]
          exact represents
        · rw [if_pos (by simpa using matches')]
          exact addAnyCertificate_refines represents certificate

theorem agrees_twice {first second : BasicIdentityStorage → BasicIdentityStorage} (changed : Represents (second (first s)) r) :
    Agrees (modify first >>= fun _ => modify second) (.ok ()) s r :=
  ⟨rfl,changed⟩

theorem setDefaultIdentity_refines (represents : Represents s r) (identity : Name) :
    Agrees (setDefaultIdentity identity) (.ok ()) s (r.next (.set (.setDefaultIdentity identity))) := by
  refine agrees_twice ⟨?_,represents.keys,represents.certificates⟩
  dsimp only
  rw [identity_statements]
  exact represents.identities.choose _ _

theorem setDefaultKey_refines (represents : Represents s r) (keyName identityName : Name) :
    Agrees (setDefaultKeyNameForIdentity keyName identityName)
      (r.outcome (.set (.setDefaultKeyNameForIdentity keyName identityName))) s
      (r.next (.set (.setDefaultKeyNameForIdentity keyName identityName))) := by
  refine agrees_key ?_ ?_
  · intro unnamed
    simpa only [Registry.next,unnamed] using represents
  · intro key known
    have mismatch : (decide (Name.compare identityName [] ≠ 0) && decide (Name.compare identityName (identityOf keyName) ≠ 0)) =
        !decide (identityName = [] ∨ identityName = identityOf keyName) := by
      simp [Name.compare_zero]
    dsimp only
    rw [← refused_or_ok,mismatch]
    simp only [Registry.next,known]
    refine agrees_refused ?_ fun accepted => agrees_twice ?_
    · intro refused
      rw [if_neg (by simpa using refused)]
      exact represents
    · rw [if_pos (of_decide_eq_true (by simpa only [Bool.not_eq_false'] using accepted))]
      refine ⟨represents.identities,?_,represents.certificates⟩
      dsimp only
      rw [key_statements,keyOf_identity known]
      exact represents.keys.choose _ _

theorem setDefaultCertificate_refines (represents : Represents s r) (keyName certName : Name) :
    Agrees (setDefaultCertificateNameForKey keyName certName)
      (r.outcome (.set (.setDefaultCertificateNameForKey keyName certName))) s
      (r.next (.set (.setDefaultCertificateNameForKey keyName certName))) := by
  refine agrees_key ?_ ?_
  · intro unnamed
    simpa only [Registry.next,unnamed] using represents
  · intro key known
    simp only [Registry.next,known]
    refine agrees_twice ⟨represents.identities,represents.keys,?_⟩
    dsimp only
    rw [certificate_statements,keyOf_identity known]
    exact represents.certificates.choose _ _

theorem perform_refines (represents : Represents s r) (operation : Operation) :
    Agrees operation.perform (r.outcome operation) s (r.next operation) := by
  cases operation with
  | addIdentity identity => exact addIdentity_refines represents identity
  | addKey keyName keyType pubKeyBlob => exact addKey_refines represents keyName keyType pubKeyBlob
  | activateKey keyName => exact updateKeyStatus_refines represents keyName true
  | deactivateKey keyName => exact updateKeyStatus_refines represents keyName false
  | addAnyCertificate certificate => exact addAnyCertificate_refines represents certificate
  | addCertificate certificate => exact addCertificate_refines represents certificate
  | set setter =>
    cases setter with
    | setDefaultIdentity identity => exact setDefaultIdentity_refines represents identity
    | setDefaultKeyNameForIdentity keyName identityName => exact setDefaultKey_refines represents keyName identityName
    | setDefaultCertificateNameForKey keyName certName => exact setDefaultCertificate_refines represents keyName certName

theorem run_represents (operations : List Operation) (represents : Represents s r) :
    Represents (operations.foldl performed s) (operations.foldl Registry.next r) := by
  induction operations generalizing s r with
  | nil => exact represents
  | cons operation rest ih => exact ih (perform_refines represents operation).2

end Calls

-- What a listing shows: each of the entries once, by its name.
def Lists {Key : Type} (read : Except ReadFailure (List Name)) (name : Key → Except ReadFailure Name) (shown : Key → Prop) :
    Prop :=
  ∃ keys : List Key, keys.Nodup ∧ (∀ key, key ∈ keys ↔ shown key) ∧ read = keys.mapM name

def orEmpty {Key : Type} (chosen : Option Key) (name : Key → Except ReadFailure Name) : Except ReadFailure Name :=
  chosen.elim (.ok []) name

def defaultCertificate (r : Registry) (keyName : Name) : Except ReadFailure Name :=
  match keyOf keyName with
  | some key => orEmpty (r.certificates.chosen key) nameOf
  | none => .error (.storage (.indexOutOfRange (-1)))

structure Answers (s : BasicIdentityStorage) (r : Registry) : Prop where
  identity : ∀ identity, result (doesIdentityExist identity) s = .ok (r.identities.entry (Name.toUri identity)).isSome
  key : ∀ keyName, result (doesKeyExist keyName) s = match keyOf keyName with
    | some key => .ok (r.keys.entry key).isSome
    | none => .error (.indexOutOfRange (-1))
  publicKey : ∀ keyName, result (getKey keyName) s = match keyOf keyName with
    | some key => .ok ((r.keys.entry key).map KeyEntry.publicKey)
    | none => .error (.indexOutOfRange (-1))
  certificate : ∀ certName,
    result (doesCertificateExist certName) s = .ok (r.certificates.entry (Name.toUri certName)).isSome
  installed : ∀ now certName any, s.getCertificate now certName any = ((r.certificates.entry (Name.toUri certName)).filter
    (fun entry => any ||
      (decide (entry.notBefore < now) && decide (now < entry.notAfter) && entry.validFlag == 1))).map CertificateEntry.certificateData
  defaultIdentity : s.getDefaultIdentity = orEmpty (r.identities.chosen ()) nameOf
  defaultKey : ∀ identity, s.getDefaultKeyNameForIdentity identity =
    orEmpty (r.keys.chosen (Name.toUri identity)) (fun key => appendColumn identity key.2)
  defaultCertificate : ∀ keyName, s.getDefaultCertificateNameForKey keyName = defaultCertificate r keyName
  defaultCertificateOf : ∀ identity, s.getDefaultCertificateNameForIdentity identity =
    orEmpty (r.keys.chosen (Name.toUri identity)) (fun key => appendColumn identity key.2) >>=
      BasicIdentityStorage.defaultCertificate r
  identities : ∀ isDefault, Lists (s.getAllIdentities isDefault) nameOf (fun uri =>
    ∃ entry, r.identities.entry uri = some entry ∧ (r.identities.chosen () = some uri ↔ isDefault = true))
  keys : ∀ isDefault, Lists (s.getAllKeyNames isDefault) keyNameOf (fun key =>
    ∃ entry, r.keys.entry key = some entry ∧ (r.keys.chosen key.1 = some key ↔ isDefault = true))
  keysOf : ∀ identity isDefault, Lists (s.getAllKeyNamesOfIdentity identity isDefault)
    (fun key : Blob × Blob => appendColumn identity key.2) (fun key => ∃ entry, r.keys.entry key = some entry ∧
      key.1 = Name.toUri identity ∧ (r.keys.chosen key.1 = some key ↔ isDefault = true))
  certificates : ∀ isDefault, Lists (s.getAllCertificateNames isDefault) nameOf (fun uri =>
    ∃ entry, r.certificates.entry uri = some entry ∧
      (r.certificates.chosen (entry.identityName,entry.keyIdentifier) = some uri ↔ isDefault = true))
  certificatesOf : ∀ keyName key isDefault, keyOf keyName = some key →
    Lists (s.getAllCertificateNamesOfKey keyName isDefault) nameOf (fun uri =>
      ∃ entry, r.certificates.entry uri = some entry ∧ (entry.identityName,entry.keyIdentifier) = key ∧
        (r.certificates.chosen key = some uri ↔ isDefault = true))

section Reads
variable {s : BasicIdentityStorage} {r : Registry}

theorem getDefaultIdentity_answers (represents : Represents s r) :
    s.getDefaultIdentity = orEmpty (r.identities.chosen ()) nameOf := by
  have same : (fun row : IdentityRow => row.defaultIdentity == 1) =
      fun row => identityTable.marked row && decide (identityTable.group row = ()) := by
    funext row
    simp [identityTable,identityMarking]
  unfold getDefaultIdentity
  rw [← represents.identities.marked (),← same]
  cases s.identity.find? (fun row => row.defaultIdentity == 1) <;> rfl

theorem getDefaultKeyName_answers (represents : Represents s r) (identity : Name) :
    s.getDefaultKeyNameForIdentity identity =
      orEmpty (r.keys.chosen (Name.toUri identity)) (fun key => appendColumn identity key.2) := by
  have same : (fun row : KeyRow => row.identityName == Name.toUri identity && row.defaultKey == 1) =
      fun row => keyTable.marked row && decide (keyTable.group row = Name.toUri identity) := by
    funext row
    simp [keyTable,keyMarking,beq_eq_decide,Bool.and_comm]
  unfold getDefaultKeyNameForIdentity
  rw [← represents.keys.marked (Name.toUri identity),← same]
  cases s.key.find? (fun row => row.identityName == Name.toUri identity && row.defaultKey == 1) <;> rfl

theorem getDefaultCertificateName_answers (represents : Represents s r) (keyName : Name) :
    s.getDefaultCertificateNameForKey keyName = defaultCertificate r keyName := by
  unfold getDefaultCertificateNameForKey defaultCertificate
  cases known : keyOf keyName with
  | none =>
    rw [keyIdOf_none known]
    rfl
  | some key =>
    rw [keyIdOf_some known]
    have same : (fun row : CertificateRow => row.identityName == Name.toUri (identityOf keyName) &&
        row.keyIdentifier == key.2 && row.defaultCert == 1) =
        fun row => certificateTable.marked row && decide (certificateTable.group row = key) := by
      funext row
      rw [keyOf_identity known]
      cases key
      simp [certificateTable,certificateMarking,beq_eq_decide,Bool.and_comm]
    have read : (Except.ok key.2 : Except StorageException Blob).mapError ReadFailure.storage = .ok key.2 := rfl
    refine Eq.trans (?_ : _ = orEmpty (r.certificates.chosen key) nameOf) rfl
    rw [read,ok_bind,← represents.certificates.marked key,← same]
    cases s.certificate.find? (fun row => row.identityName == Name.toUri (identityOf keyName) &&
      row.keyIdentifier == key.2 && row.defaultCert == 1) <;> rfl

theorem getCertificate_answers (represents : Represents s r) (now : Int) (certName : Name) (any : Bool) :
    s.getCertificate now certName any = ((r.certificates.entry (Name.toUri certName)).filter (fun entry => any ||
      (decide (entry.notBefore < now) && decide (now < entry.notAfter) && entry.validFlag == 1))).map
        CertificateEntry.certificateData := by
  have named : ∀ row : CertificateRow, (row.certName == Name.toUri certName) =
      decide (certificateTable.key row = Name.toUri certName) := fun row => beq_eq_decide _ _
  unfold getCertificate
  rw [represents.certificates.any named,represents.certificates.find_meeting named,← represents.certificates.entry]
  cases certificateTable.lookup s.certificate (Name.toUri certName) with
  | none => rfl
  | some row =>
    simp only [Option.map_some,Option.isSome_some,if_true,Option.filter_some]
    unfold certificateTable
    split_ifs <;> rfl

theorem flag_iff (flag : Int) (isDefault : Bool) :
    (flag == flagOf isDefault) = if isDefault then flag == 1 else flag == 0 := by
  cases isDefault <;> rfl

theorem getAllIdentities_answers (represents : Represents s r) (isDefault : Bool) :
    Lists (s.getAllIdentities isDefault) nameOf (fun uri =>
      ∃ entry, r.identities.entry uri = some entry ∧ (r.identities.chosen () = some uri ↔ isDefault = true)) := by
  have flag : ∀ row : IdentityRow, (row.defaultIdentity == flagOf isDefault) =
      ((if isDefault then identityTable.marked row else identityTable.unmarked row) && true) := by
    intro row
    rw [flag_iff,Bool.and_true]
    rfl
  obtain ⟨once,shown⟩ := represents.identities.listed isDefault (fun _ => true) flag
  exact ⟨_,once,by simpa only [true_and] using shown,rfl⟩

theorem getAllKeyNames_answers (represents : Represents s r) (isDefault : Bool) :
    Lists (s.getAllKeyNames isDefault) keyNameOf (fun key =>
      ∃ entry, r.keys.entry key = some entry ∧ (r.keys.chosen key.1 = some key ↔ isDefault = true)) := by
  have flag : ∀ row : KeyRow, (row.defaultKey == flagOf isDefault) =
      ((if isDefault then keyTable.marked row else keyTable.unmarked row) && true) := by
    intro row
    rw [flag_iff,Bool.and_true]
    rfl
  obtain ⟨once,shown⟩ := represents.keys.listed isDefault (fun _ => true) flag
  exact ⟨_,once,by simpa only [true_and] using shown,rfl⟩

theorem getAllKeyNamesOfIdentity_answers (represents : Represents s r) (identity : Name) (isDefault : Bool) :
    Lists (s.getAllKeyNamesOfIdentity identity isDefault) (fun key : Blob × Blob => appendColumn identity key.2)
      (fun key => ∃ entry, r.keys.entry key = some entry ∧ key.1 = Name.toUri identity ∧
        (r.keys.chosen key.1 = some key ↔ isDefault = true)) := by
  have flag : ∀ row : KeyRow, (row.defaultKey == flagOf isDefault && row.identityName == Name.toUri identity) =
      ((if isDefault then keyTable.marked row else keyTable.unmarked row) &&
        decide (keyTable.group row = Name.toUri identity)) := by
    intro row
    rw [flag_iff,beq_eq_decide row.identityName]
    rfl
  obtain ⟨once,shown⟩ := represents.keys.listed isDefault (fun group => decide (group = Name.toUri identity)) flag
  refine ⟨_,once,by simpa only [decide_eq_true_eq] using shown,?_⟩
  rw [List.mapM_map]
  unfold getAllKeyNamesOfIdentity
  rw [List.mapM_map]
  rfl

theorem getAllCertificateNames_answers (represents : Represents s r) (isDefault : Bool) :
    Lists (s.getAllCertificateNames isDefault) nameOf (fun uri => ∃ entry, r.certificates.entry uri = some entry ∧
      (r.certificates.chosen (entry.identityName,entry.keyIdentifier) = some uri ↔ isDefault = true)) := by
  have flag : ∀ row : CertificateRow, (row.defaultCert == flagOf isDefault) =
      ((if isDefault then certificateTable.marked row else certificateTable.unmarked row) && true) := by
    intro row
    rw [flag_iff,Bool.and_true]
    rfl
  obtain ⟨once,shown⟩ := represents.certificates.listed isDefault (fun _ => true) flag
  exact ⟨_,once,by simpa only [true_and] using shown,rfl⟩

theorem getAllCertificateNamesOfKey_answers (represents : Represents s r) {keyName : Name} {key : Blob × Blob}
    (known : keyOf keyName = some key) (isDefault : Bool) :
    Lists (s.getAllCertificateNamesOfKey keyName isDefault) nameOf (fun uri =>
      ∃ entry, r.certificates.entry uri = some entry ∧ (entry.identityName,entry.keyIdentifier) = key ∧
        (r.certificates.chosen key = some uri ↔ isDefault = true)) := by
  have flag : ∀ row : CertificateRow, (row.defaultCert == flagOf isDefault &&
      row.identityName == Name.toUri (identityOf keyName) && row.keyIdentifier == key.2) =
      ((if isDefault then certificateTable.marked row else certificateTable.unmarked row) &&
        decide (certificateTable.group row = key)) := by
    intro row
    rw [flag_iff,keyOf_identity known,Bool.and_assoc]
    cases key
    simp [certificateTable,certificateMarking,beq_eq_decide]
  obtain ⟨once,shown⟩ := represents.certificates.listed isDefault (fun group => decide (group = key)) flag
  refine ⟨_,once,fun uri => (shown uri).trans ?_,?_⟩
  · refine exists_congr fun entry => and_congr_right fun _ => ?_
    rw [decide_eq_true_eq]
    exact and_congr_right fun same => by rw [same]
  · unfold getAllCertificateNamesOfKey
    rw [keyIdOf_some known]
    rfl

-- Whatever stands for a registry answers as it does.
theorem represents_answers (represents : Represents s r) : Answers s r where
  identity := doesIdentityExist_reads represents
  key keyName := by
    cases known : keyOf keyName with
    | none => exact doesKeyExist_unnamed known
    | some key => exact doesKeyExist_result represents known
  publicKey keyName := by
    cases known : keyOf keyName with
    | none => exact (bind_threw (doesKeyExist_unnamed known) _).1
    | some key => exact getKey_result represents known
  certificate := doesCertificateExist_result represents
  installed := getCertificate_answers represents
  defaultIdentity := getDefaultIdentity_answers represents
  defaultKey := getDefaultKeyName_answers represents
  defaultCertificate := getDefaultCertificateName_answers represents
  defaultCertificateOf identity := by
    unfold getDefaultCertificateNameForIdentity
    rw [getDefaultKeyName_answers represents,funext (getDefaultCertificateName_answers represents)]
  identities := getAllIdentities_answers represents
  keys := getAllKeyNames_answers represents
  keysOf := getAllKeyNamesOfIdentity_answers represents
  certificates := getAllCertificateNames_answers represents
  certificatesOf _ _ isDefault known := getAllCertificateNamesOfKey_answers represents known isDefault

end Reads

-- The tables behave as the registry does over every run: each call returns or throws
-- what it says, and so does every question asked in between.
theorem storage_refines (operations : List Operation) :
    let s := operations.foldl performed empty
    let r := operations.foldl Registry.next Registry.empty
    (∀ operation : Operation, result operation.perform s = r.outcome operation) ∧ Answers s r := by
  have represents := run_represents operations empty_represents
  exact ⟨fun operation => (perform_refines represents operation).1,represents_answers represents⟩

end NdnCxx.Security.BasicIdentityStorage
