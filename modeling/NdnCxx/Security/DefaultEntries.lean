import NdnCxx.Security.IdentityStorage

namespace NdnCxx.Security.BasicIdentityStorage
open Stateful Table Marking

-- The three tables have one default in all, one for each identity and one for each
-- key.
def identityMarking : Marking IdentityRow Unit Blob where
  key := IdentityRow.identityName
  group _ := ()
  marked row := row.defaultIdentity == 1
  mark chosen row := {row with defaultIdentity := if chosen then 1 else 0}
  key_mark _ _ := rfl
  group_mark _ _ := rfl
  marked_mark chosen _ := by cases chosen <;> rfl

def keyMarking : Marking KeyRow Blob (Blob × Blob) where
  key := keyColumns
  group := KeyRow.identityName
  marked row := row.defaultKey == 1
  mark chosen row := {row with defaultKey := if chosen then 1 else 0}
  key_mark _ _ := rfl
  group_mark _ _ := rfl
  marked_mark chosen _ := by cases chosen <;> rfl

def certificateMarking : Marking CertificateRow (Blob × Blob) Blob where
  key := CertificateRow.certName
  group row := (row.identityName,row.keyIdentifier)
  marked row := row.defaultCert == 1
  mark chosen row := {row with defaultCert := if chosen then 1 else 0}
  key_mark _ _ := rfl
  group_mark _ _ := rfl
  marked_mark chosen _ := by cases chosen <;> rfl

structure Consistent (s : BasicIdentityStorage) : Prop where
  identity : identityMarking.Single s.identity
  key : keyMarking.Single s.key
  certificate : certificateMarking.Single s.certificate

theorem empty_consistent : Consistent empty := ⟨single_nil,single_nil,single_nil⟩

-- The entry that a setter names, if it gets as far as its statements.
def requestedIdentity : Setter → Option (Unit × Blob)
  | .setDefaultIdentity identity => some ((),Name.toUri identity)
  | .setDefaultKeyNameForIdentity _ _ | .setDefaultCertificateNameForKey _ _ => none

def requestedKey : Setter → Option (Blob × Blob × Blob)
  | .setDefaultKeyNameForIdentity keyName identityName =>
    if identityName = [] ∨ identityName = identityOf keyName then
      keyName.getLast?.map (fun keyId => let identity := Name.toUri (identityOf keyName); (identity,identity,keyId.toUri))
    else none
  | .setDefaultIdentity _ | .setDefaultCertificateNameForKey _ _ => none

def requestedCertificate : Setter → Option ((Blob × Blob) × Blob)
  | .setDefaultCertificateNameForKey keyName certName =>
    keyName.getLast?.map (fun keyId => ((Name.toUri (identityOf keyName),keyId.toUri),Name.toUri certName))
  | .setDefaultIdentity _ | .setDefaultKeyNameForIdentity _ _ => none

-- A table after a call that asks for this entry, or for none in this table.
def moved {Row Group Key : Type} [DecidableEq Group] [DecidableEq Key] (m : Marking Row Group Key)
    (request : Option (Group × Key)) (rows : List Row) : List Row :=
  match request with
  | some (g,k) => m.choose rows g k
  | none => rows

-- The statements of the three setters, as the statements that move a mark.
section Statements
variable {Row : Type}

theorem update_congr {rows : List Row} {meets other : Row → Bool} (same : ∀ row, meets row = other row) (set : Row → Row) :
    update rows meets set = update rows other set := by
  rw [funext same]

theorem identity_statements (rows : List IdentityRow) (uri : Blob) :
    update (update rows (fun row => row.defaultIdentity == 1) (fun row => {row with defaultIdentity := 0}))
      (fun row => row.identityName == uri) (fun row => {row with defaultIdentity := 1}) =
    identityMarking.choose rows () uri := by
  refine (update_congr ?_ _).trans (congrArg (identityMarking.set · () uri) (update_congr ?_ _))
  · intro row
    simp [identityMarking,beq_eq_decide]
  · intro row
    simp [identityMarking]

theorem key_statements (rows : List KeyRow) (identity keyId : Blob) :
    update (update rows (fun row => row.defaultKey == 1 && row.identityName == identity) (fun row => {row with defaultKey := 0}))
      (fun row => row.identityName == identity && row.keyIdentifier == keyId) (fun row => {row with defaultKey := 1}) =
    keyMarking.choose rows identity (identity,keyId) := by
  refine (update_congr ?_ _).trans (congrArg (keyMarking.set · identity (identity,keyId)) (update_congr ?_ _))
  · intro row
    by_cases same : row.identityName = identity <;> simp [keyMarking,keyColumns,same,beq_eq_decide]
  · intro row
    simp [keyMarking,beq_eq_decide]

theorem certificate_statements (rows : List CertificateRow) (identity keyId uri : Blob) :
    update (update rows (fun row => row.defaultCert == 1 && row.identityName == identity && row.keyIdentifier == keyId)
        (fun row => {row with defaultCert := 0}))
      (fun row => row.identityName == identity && row.keyIdentifier == keyId && row.certName == uri)
      (fun row => {row with defaultCert := 1}) =
    certificateMarking.choose rows (identity,keyId) uri := by
  refine (update_congr ?_ _).trans (congrArg (certificateMarking.set · (identity,keyId) uri) (update_congr ?_ _))
  · intro row
    simp [certificateMarking,beq_eq_decide]
  · intro row
    simp [certificateMarking,beq_eq_decide,Bool.and_assoc]

end Statements

theorem perform_moved (s : BasicIdentityStorage) (setter : Setter) : after setter.perform s =
    ⟨moved identityMarking (requestedIdentity setter) s.identity,moved keyMarking (requestedKey setter) s.key,
      moved certificateMarking (requestedCertificate setter) s.certificate⟩ := by
  cases setter with
  | setDefaultIdentity identity =>
    exact congrArg (fun rows => (⟨rows,s.key,s.certificate⟩ : BasicIdentityStorage)) (identity_statements _ _)
  | setDefaultKeyNameForIdentity keyName identityName =>
    have mismatch : (decide (Name.compare identityName [] ≠ 0) && decide (Name.compare identityName (identityOf keyName) ≠ 0)) =
        !decide (identityName = [] ∨ identityName = identityOf keyName) := by
      simp [Name.compare_zero]
    cases last : keyName.getLast? with
    | none =>
      simp only [Setter.perform,setDefaultKeyNameForIdentity,keyIdOf,requestedKey,last,Option.map_none,ite_self]
      rfl
    | some keyId =>
      simp only [Setter.perform,setDefaultKeyNameForIdentity,keyIdOf,requestedKey,last,Option.map_some,mismatch]
      by_cases accepted : identityName = [] ∨ identityName = identityOf keyName
      · simp only [accepted,decide_true,Bool.not_true,if_true]
        exact congrArg (fun rows => (⟨s.identity,rows,s.certificate⟩ : BasicIdentityStorage)) (key_statements _ _ _)
      · simp only [accepted,decide_false,Bool.not_false,if_false]
        rfl
  | setDefaultCertificateNameForKey keyName certName =>
    cases last : keyName.getLast? with
    | none =>
      simp only [Setter.perform,setDefaultCertificateNameForKey,keyIdOf,requestedCertificate,last]
      rfl
    | some keyId =>
      simp only [Setter.perform,setDefaultCertificateNameForKey,keyIdOf,requestedCertificate,last]
      exact congrArg (fun rows => (⟨s.identity,s.key,rows⟩ : BasicIdentityStorage)) (certificate_statements _ _ _ _)

section Operations
variable {s : BasicIdentityStorage}

theorem moved_single {Row Group Key : Type} [DecidableEq Group] [DecidableEq Key] {m : Marking Row Group Key} {rows : List Row}
    (single : m.Single rows) (request : Option (Group × Key)) : m.Single (moved m request rows) := by
  cases request with
  | none => exact single
  | some entry => exact choose_single single entry.1 entry.2

theorem set_consistent (setter : Setter) : Keeps Consistent setter.perform := by
  intro s consistent
  rw [perform_moved]
  exact ⟨moved_single consistent.identity _,moved_single consistent.key _,moved_single consistent.certificate _⟩

theorem keyIdOf_reads (keyName : Name) (s : BasicIdentityStorage) : after (keyIdOf keyName) s = s := by
  unfold keyIdOf
  cases keyName.getLast? <;> rfl

theorem doesKeyExist_reads (keyName : Name) (s : BasicIdentityStorage) : after (doesKeyExist keyName) s = s := by
  unfold doesKeyExist
  rw [after_bind,keyIdOf_reads]
  cases result (keyIdOf keyName) s <;> rfl

theorem addIdentity_consistent (identity : Name) : Keeps Consistent (addIdentity identity) := by
  refine (keeps_of_same fun _ => rfl).bind fun existed => (keeps_of_same (after_throwIf _ _)).bind fun _ => ?_
  refine keeps_modify ?_
  intro s consistent
  have unmarked : identityMarking.marked ⟨Name.toUri identity,0⟩ = false := rfl
  exact ⟨insert_single consistent.identity unmarked,consistent.key,consistent.certificate⟩

theorem ensureIdentity_consistent (identity : Name) : Keeps Consistent (ensureIdentity identity) := by
  refine (keeps_of_same fun _ => rfl).bind fun known => ?_
  cases known with
  | true => exact keeps_of_same fun _ => rfl
  | false => exact addIdentity_consistent identity

theorem addKey_consistent (keyName : Name) (keyType : Int) (pubKeyBlob : Blob) :
    Keeps Consistent (addKey keyName keyType pubKeyBlob) := by
  refine (keeps_of_same (keyIdOf_reads keyName)).bind fun keyId => (ensureIdentity_consistent _).bind fun _ => ?_
  refine (keeps_of_same (doesKeyExist_reads keyName)).bind fun existed => (keeps_of_same (after_throwIf _ _)).bind fun _ => ?_
  refine keeps_modify ?_
  intro s consistent
  refine ⟨consistent.identity,?_,consistent.certificate⟩
  refine insert_single consistent.key ?_
  rfl

theorem updateKeyStatus_consistent (keyName : Name) (active : Bool) : Keeps Consistent (updateKeyStatus keyName active) := by
  refine (keeps_of_same (keyIdOf_reads keyName)).bind fun keyId => keeps_modify ?_
  intro s consistent
  refine ⟨consistent.identity,?_,consistent.certificate⟩
  refine update_single consistent.key ?_ ?_ ?_ _
  all_goals exact fun _ => rfl

theorem signerOf_reads (certificate : InstalledCertificate) (s : BasicIdentityStorage) :
    after (signerOf certificate) s = s := by
  unfold signerOf
  cases certificate.keyLocator <;> rfl

theorem addAnyCertificate_consistent (certificate : InstalledCertificate) :
    Keeps Consistent (addAnyCertificate certificate) := by
  refine (keeps_of_same (keyIdOf_reads _)).bind fun keyId => (keeps_of_same (signerOf_reads certificate)).bind fun signer => ?_
  refine keeps_modify ?_
  intro s consistent
  have unmarked : certificateMarking.marked (certificateRow certificate keyId signer) = false := rfl
  exact ⟨consistent.identity,consistent.key,insert_single consistent.certificate unmarked⟩

theorem getKey_reads (keyName : Name) (s : BasicIdentityStorage) : after (getKey keyName) s = s := by
  unfold getKey
  rw [after_bind,doesKeyExist_reads]
  cases result (doesKeyExist keyName) s with
  | error thrown => rfl
  | ok existed =>
    simp only [after_bind,keyIdOf_reads]
    cases result (keyIdOf keyName) s <;> rfl

theorem addCertificate_consistent (certificate : InstalledCertificate) : Keeps Consistent (addCertificate certificate) := by
  refine (keeps_of_same (doesKeyExist_reads _)).bind fun keyExists => (keeps_of_same (after_throwIf _ _)).bind fun _ => ?_
  refine (keeps_of_same fun _ => rfl).bind fun installed => (keeps_of_same (after_throwIf _ _)).bind fun _ => ?_
  refine (keeps_of_same (getKey_reads _)).bind fun keyBlob => (keeps_of_same (after_throwIf _ _)).bind fun _ => ?_
  exact addAnyCertificate_consistent certificate

theorem perform_consistent (operation : Operation) : Keeps Consistent operation.perform := by
  cases operation with
  | addIdentity identity => exact addIdentity_consistent identity
  | addKey keyName keyType pubKeyBlob => exact addKey_consistent keyName keyType pubKeyBlob
  | activateKey keyName => exact updateKeyStatus_consistent keyName true
  | deactivateKey keyName => exact updateKeyStatus_consistent keyName false
  | addAnyCertificate certificate => exact addAnyCertificate_consistent certificate
  | addCertificate certificate => exact addCertificate_consistent certificate
  | set setter => exact set_consistent setter

theorem run_consistent (operations : List Operation) : Consistent (operations.foldl performed empty) := by
  suffices from_any : ∀ s, Consistent s → Consistent (operations.foldl performed s) from from_any empty empty_consistent
  induction operations with
  | nil => exact fun _ consistent => consistent
  | cons operation rest ih => exact fun s consistent => ih _ (perform_consistent operation s consistent)

end Operations

-- `SELECT` of the marked rows, counted.
theorem defaults_length {Row Group Key : Type} [DecidableEq Group] (m : Marking Row Group Key) (rows : List Row) (g : Group)
    {meets : Row → Bool} (same : ∀ row, meets row = (m.marked row && decide (m.group row = g))) :
    (rows.filter meets).length = (m.defaults rows g).length := by
  rw [defaults,List.length_map,funext same]

theorem at_most_one_default (operations : List Operation) :
    let s := operations.foldl performed empty
    (s.identity.filter (fun row => row.defaultIdentity == 1)).length ≤ 1 ∧
    (∀ identity, (s.key.filter (fun row => row.defaultKey == 1 && row.identityName == identity)).length ≤ 1) ∧
    ∀ identity keyId, (s.certificate.filter (fun row =>
      row.defaultCert == 1 && row.identityName == identity && row.keyIdentifier == keyId)).length ≤ 1 := by
  intro s
  have consistent := run_consistent operations
  refine ⟨?_,?_,?_⟩
  · rw [defaults_length identityMarking s.identity () (by simp [identityMarking])]
    exact consistent.identity.single ()
  · intro identity
    rw [defaults_length keyMarking s.key identity (by simp [keyMarking,beq_eq_decide])]
    exact consistent.key.single identity
  · intro identity keyId
    rw [defaults_length certificateMarking s.certificate (identity,keyId) (by
      simp [certificateMarking,beq_eq_decide,Bool.and_assoc])]
    exact consistent.certificate.single (identity,keyId)

section Kept
variable {Row Group Key : Type} [DecidableEq Group] [DecidableEq Key] (m : Marking Row Group Key)
  (request : Option (Group × Key))

-- The default that a group is to have after the call: the requested entry, if it is
-- stored, and else the old one.
def expected (rows : List Row) (g : Group) (old : Key) : Key :=
  match request with
  | some (group,k) => if g = group ∧ m.Stored rows group k then k else old
  | none => old

def Kept (rows next : List Row) : Prop :=
  ∀ g old, old ∈ m.defaults rows g → expected m request rows g old ∈ m.defaults next g

-- What is requested is stored, or there is no default to lose.
def Names (rows : List Row) : Prop := ∀ g k, request = some (g,k) → m.Stored rows g k ∨ m.defaults rows g = []

variable {m request}

theorem moved_kept_iff {rows : List Row} (keyed : Keyed m.key rows) :
    Kept m request rows (moved m request rows) ↔ Names m request rows := by
  cases request with
  | none => exact iff_of_true (fun _ _ held => held) (fun _ _ none => by cases none)
  | some entry =>
    obtain ⟨group,k⟩ := entry
    have after := defaults_choose keyed group k
    constructor
    · rintro kept _ _ ⟨⟩
      by_cases stored : m.Stored rows group k
      · exact .inl stored
      · right
        by_contra present
        obtain ⟨old,held⟩ := List.exists_mem_of_ne_nil _ present
        have lost := kept group old held
        rw [moved,after,if_pos rfl,if_neg stored] at lost
        cases lost
    · intro names g old held
      rw [moved,after,expected]
      by_cases same : g = group
      · subst same
        rcases names g k rfl with stored | none
        · simp [stored]
        · rw [none] at held
          cases held
      · simpa [same] using held

end Kept

structure DefaultsKept (s next : BasicIdentityStorage) (setter : Setter) : Prop where
  identity : Kept identityMarking (requestedIdentity setter) s.identity next.identity
  key : Kept keyMarking (requestedKey setter) s.key next.key
  certificate : Kept certificateMarking (requestedCertificate setter) s.certificate next.certificate

structure NamesStored (s : BasicIdentityStorage) (setter : Setter) : Prop where
  identity : Names identityMarking (requestedIdentity setter) s.identity
  key : Names keyMarking (requestedKey setter) s.key
  certificate : Names certificateMarking (requestedCertificate setter) s.certificate

theorem defaults_kept_exact (operations : List Operation) (setter : Setter) :
    let s := operations.foldl performed empty
    DefaultsKept s (after setter.perform s) setter ↔ NamesStored s setter := by
  intro s
  have consistent := run_consistent operations
  rw [perform_moved]
  constructor
  · rintro ⟨identity,key,certificate⟩
    exact ⟨(moved_kept_iff consistent.identity.keyed).mp identity,(moved_kept_iff consistent.key.keyed).mp key,
      (moved_kept_iff consistent.certificate.keyed).mp certificate⟩
  · rintro ⟨identity,key,certificate⟩
    exact ⟨(moved_kept_iff consistent.identity.keyed).mpr identity,(moved_kept_iff consistent.key.keyed).mpr key,
      (moved_kept_iff consistent.certificate.keyed).mpr certificate⟩

-- `/a` is the default until a default is asked for that is not stored.
theorem default_identity_lost :
    let s := [Operation.addIdentity [⟨[0x61]⟩],.set (.setDefaultIdentity [⟨[0x61]⟩])].foldl performed empty
    s.identity = [⟨[0x2F,0x61],1⟩] ∧
    (after (Setter.setDefaultIdentity [⟨[0x62]⟩]).perform s).identity = [⟨[0x2F,0x61],0⟩] ∧
    ¬DefaultsKept s (after (Setter.setDefaultIdentity [⟨[0x62]⟩]).perform s) (.setDefaultIdentity [⟨[0x62]⟩]) := by
  refine ⟨by decide,by decide,?_⟩
  rintro ⟨kept,_,_⟩
  have lost := kept () [0x2F,0x61] (by decide)
  exact absurd lost (by decide)

end NdnCxx.Security.BasicIdentityStorage
