import NdnCxx.Data
import NdnCxx.Interest
import NdnCxx.Lib.Ledger

namespace NdnCxx.Security
open Wire

-- What the verification code can throw: a locator read as a key name that is none,
-- a certificate with a wrong name or undecodable content, a bad regex or template.
inductive Exception where
  | keyLocator
  | secException
  | derDecodingException
  | regexException
  deriving DecidableEq, Repr

-- What `Certificate::decode` reads out of the content; subject and extension lists
-- have no part in verification.
structure CertificateContent where
  notBefore : Int
  notAfter : Int
  key : Blob
  deriving DecidableEq, Repr

structure IdentityCertificate where
  name : Name
  freshness : Int
  notBefore : Int
  notAfter : Int
  publicKeyInfo : Blob
  deriving DecidableEq, Repr

def idString : Blob := [0x49,0x44,0x2D,0x43,0x45,0x52,0x54]

def keyString : Blob := [0x4B,0x45,0x59]

def isCorrectName (name : Name) : Bool :=
  name.any (fun component => component.toUri == idString) && name.any (fun component => component.toUri == keyString)

-- The constructor from a packet. `setPublicKeyName` comes last and never throws:
-- where the name before ID-CERT has no KEY its lengths wrap around to an empty range.
def identityCertificate (decode : Blob → Except Exception CertificateContent) (data : Data) :
    Except Exception IdentityCertificate := do
  let content ← decode data.content.content
  if isCorrectName data.name then
    return ⟨data.name,data.content.freshness,content.notBefore,content.notAfter,content.key⟩
  else throw .secException

theorem identityCertificate_name {decode : Blob → Except Exception CertificateContent} {data : Data}
    {certificate : IdentityCertificate} (made : identityCertificate decode data = .ok certificate) :
    certificate.name = data.name ∧ isCorrectName data.name = true := by
  unfold identityCertificate at made
  cases decoded : decode data.content.content with
  | error e => simp [decoded,bind,Except.bind] at made
  | ok content =>
    by_cases named : isCorrectName data.name = true
    · simp only [decoded,bind,Except.bind,if_pos named,pure,Except.pure,Except.ok.injEq] at made
      subst made
      exact ⟨rfl,named⟩
    · simp [decoded,bind,Except.bind,named,throw,throwThe,MonadExceptOf.throw] at made

namespace IdentityCertificate

def isTooEarly (certificate : IdentityCertificate) (now : Int) : Bool := decide (now < certificate.notBefore)

def isTooLate (certificate : IdentityCertificate) (now : Int) : Bool := decide (now > certificate.notAfter)

def Valid (certificate : IdentityCertificate) (now : Int) : Prop :=
  certificate.isTooLate now = false ∧ certificate.isTooEarly now = false

instance (certificate : IdentityCertificate) (now : Int) : Decidable (certificate.Valid now) :=
  inferInstanceAs (Decidable (_ ∧ _))

end IdentityCertificate

-- `getPrefix(size() - 1)`, the key of both certificate maps. The components are
-- appended one by one, which drops empty ones; on the empty name the length wraps
-- to `npos` and the prefix is the whole of it.
def withoutVersion (name : Name) : Name := name.dropLast.filter (fun component => decide (component.size ≠ 0))

theorem withoutVersion_nonempty {name : Name} (nonempty : NonEmptyComponents name) :
    withoutVersion name = name.dropLast := by
  refine List.filter_eq_self.mpr ?_
  intro component member
  have filled := nonempty component (List.dropLast_subset name member)
  simpa [Component.size] using filled

theorem withoutVersion_last {name : Name} (nonempty : NonEmptyComponents name) (named : name ≠ []) :
    ∃ version, name = withoutVersion name ++ [version] := by
  refine ⟨name.getLast named,?_⟩
  rw [withoutVersion_nonempty nonempty]
  exact (List.dropLast_append_getLast named).symm

theorem correctName_ne_nil {name : Name} (named : isCorrectName name = true) : name ≠ [] := by
  intro given
  subst given
  simp [isCorrectName] at named

structure TTLCacheEntry where
  timestamp : Int
  certificate : IdentityCertificate
  node : Nat
  deriving DecidableEq, Repr

-- The list of names in order of use; an iterator into it is the number of its node.
structure TTLCertificateCache where
  maxSize : Nat
  cache : List (Name × TTLCacheEntry)
  lruList : List (Nat × Name)
  nextNode : Nat
  deriving DecidableEq, Repr

namespace TTLCertificateCache

def empty (maxSize : Nat) : TTLCertificateCache := ⟨maxSize,[],[],0⟩

def find (self : TTLCertificateCache) (name : Name) : Option TTLCacheEntry :=
  (self.cache.find? (fun item => decide (item.1 = name))).map Prod.snd

def splice (node : Nat) (list : List (Nat × Name)) : List (Nat × Name) :=
  list.filter (fun item => decide (item.1 ≠ node)) ++ list.filter (fun item => decide (item.1 = node))

-- The eviction loop. With a maximal size of zero the source goes on popping the
-- empty list; the model stops there.
def evict (maxSize : Nat) (cache : List (Name × TTLCacheEntry)) :
    List (Nat × Name) → List (Name × TTLCacheEntry) × List (Nat × Name)
  | [] => (cache,[])
  | front :: rest =>
    if (front :: rest).length ≥ maxSize then
      evict maxSize (cache.filter (fun item => decide (item.1 ≠ front.2))) rest
    else (cache,front :: rest)

def insertCertificate (self : TTLCertificateCache) (now : Int) (certificate : IdentityCertificate) :
    TTLCertificateCache :=
  let name := withoutVersion certificate.name
  let expire := now + certificate.freshness
  match self.find name with
  | some entry =>
    {self with
      lruList := splice entry.node self.lruList
      cache := self.cache.map (fun item => if item.1 = name then (name,⟨expire,certificate,item.2.node⟩) else item)}
  | none =>
    let (cache,lruList) := evict self.maxSize self.cache self.lruList
    {self with
      lruList := lruList ++ [(self.nextNode,name)]
      cache := cache ++ [(name,⟨expire,certificate,self.nextNode⟩)]
      nextNode := self.nextNode + 1}

def getCertificate (self : TTLCertificateCache) (name : Name) : Option IdentityCertificate × TTLCertificateCache :=
  match self.find name with
  | some entry => (some entry.certificate,{self with lruList := splice entry.node self.lruList})
  | none => (none,self)

-- One pass of `cleanLoop`.
def clean (self : TTLCertificateCache) (now : Int) : TTLCertificateCache :=
  let expired := self.cache.filter (fun item => decide (now > item.2.timestamp))
  {self with
    lruList := self.lruList.filter (fun item => !expired.any (fun entry => entry.2.node == item.1))
    cache := self.cache.filter (fun item => decide (¬now > item.2.timestamp))}

def Holds (self : TTLCertificateCache) (name : Name) (certificate : IdentityCertificate) : Prop :=
  ∃ entry, (name,entry) ∈ self.cache ∧ entry.certificate = certificate

theorem evict_subset {maxSize : Nat} {cache : List (Name × TTLCacheEntry)} {lruList : List (Nat × Name)}
    {item : Name × TTLCacheEntry} (member : item ∈ (evict maxSize cache lruList).1) : item ∈ cache := by
  induction lruList generalizing cache with
  | nil => exact member
  | cons front rest ih =>
    rw [evict] at member
    split at member
    · exact (List.mem_filter.mp (ih member)).1
    · exact member

theorem insert_holds {self : TTLCertificateCache} {now : Int} {certificate found : IdentityCertificate} {name : Name}
    (held : (self.insertCertificate now certificate).Holds name found) :
    self.Holds name found ∨ (name = withoutVersion certificate.name ∧ found = certificate) := by
  obtain ⟨entry,member,rfl⟩ := held
  unfold insertCertificate at member
  cases known : self.find (withoutVersion certificate.name) with
  | some old =>
    simp only [known,List.mem_map] at member
    obtain ⟨item,present,changed⟩ := member
    split at changed
    · cases changed
      exact .inr ⟨rfl,rfl⟩
    · subst changed
      exact .inl ⟨entry,present,rfl⟩
  | none =>
    simp only [known,List.mem_append,List.mem_singleton] at member
    rcases member with kept | added
    · exact .inl ⟨entry,evict_subset kept,rfl⟩
    · cases added
      exact .inr ⟨rfl,rfl⟩

theorem get_holds {self : TTLCertificateCache} {name : Name} {certificate : IdentityCertificate}
    (found : (self.getCertificate name).1 = some certificate) : self.Holds name certificate := by
  unfold getCertificate find at found
  cases item : self.cache.find? (fun item => decide (item.1 = name)) with
  | none => simp [item] at found
  | some entry =>
    have named := List.find?_some item
    have present := List.mem_of_find?_eq_some item
    simp only [item,Option.map_some,Option.some.injEq] at found
    obtain ⟨key,value⟩ := entry
    have same : key = name := of_decide_eq_true named
    subst same
    exact ⟨value,present,found⟩

theorem get_keeps (self : TTLCertificateCache) (name : Name) : (self.getCertificate name).2.cache = self.cache := by
  unfold getCertificate
  split <;> rfl

theorem clean_holds {self : TTLCertificateCache} {now : Int} {name : Name} {certificate : IdentityCertificate}
    (held : (self.clean now).Holds name certificate) : self.Holds name certificate := by
  obtain ⟨entry,member,same⟩ := held
  exact ⟨entry,(List.mem_filter.mp member).1,same⟩

end TTLCertificateCache
end NdnCxx.Security
