import NdnCxx.Security.TTLCache

namespace NdnCxx.Security.TTLCertificateCache

-- The entry is what the last insertion under the name has recorded, and no pass that
-- came after it has read a clock past the recorded expiry.
def Recorded (calls : List Call) (name : Name) (entry : TTLCacheEntry) : Prop :=
  ∃ earlier now later, calls = earlier ++ .insertCertificate now entry.certificate :: later ∧
    withoutVersion entry.certificate.name = name ∧ entry.timestamp = now + entry.certificate.freshness ∧
    (∀ again certificate, .insertCertificate again certificate ∈ later → withoutVersion certificate.name ≠ name) ∧
    ∀ swept, .clean swept ∈ later → swept ≤ entry.timestamp

theorem Recorded.extend {calls : List Call} {name : Name} {entry : TTLCacheEntry} (recorded : Recorded calls name entry)
    {call : Call}
    (other : ∀ again certificate, call = .insertCertificate again certificate → withoutVersion certificate.name ≠ name)
    (unswept : ∀ swept, call = .clean swept → swept ≤ entry.timestamp) : Recorded (calls ++ [call]) name entry := by
  obtain ⟨earlier,now,later,rfl,named,expiry,others,young⟩ := recorded
  refine ⟨earlier,now,later ++ [call],by simp,named,expiry,?_,?_⟩
  · intro again certificate member
    rcases List.mem_append.mp member with old | new
    · exact others again certificate old
    · exact other again certificate (List.mem_singleton.mp new).symm
  · intro swept member
    rcases List.mem_append.mp member with old | new
    · exact young swept old
    · exact unswept swept (List.mem_singleton.mp new).symm

theorem insert_entries {self : TTLCertificateCache} {now : Int} {certificate : IdentityCertificate} {name : Name}
    {entry : TTLCacheEntry} (member : (name,entry) ∈ (self.insertCertificate now certificate).cache) :
    ((name,entry) ∈ self.cache ∧ withoutVersion certificate.name ≠ name) ∨
      (withoutVersion certificate.name = name ∧ entry.certificate = certificate ∧
        entry.timestamp = now + certificate.freshness) := by
  unfold insertCertificate at member
  cases found : self.find (withoutVersion certificate.name) with
  | some old =>
    simp only [found,List.mem_map] at member
    obtain ⟨item,present,changed⟩ := member
    split at changed
    · cases changed
      exact .inr ⟨rfl,rfl,rfl⟩
    · rename_i apart
      subst changed
      exact .inl ⟨present,Ne.symm apart⟩
  | none =>
    simp only [found,List.mem_append,List.mem_singleton] at member
    rcases member with kept | added
    · have present := evict_subset kept
      refine .inl ⟨present,?_⟩
      rintro rfl
      exact find_none.mp found (List.mem_map.mpr ⟨_,present,rfl⟩)
    · cases added
      exact .inr ⟨rfl,rfl,rfl⟩

theorem scan_kept {now : Int} {rest : List (Name × TTLCacheEntry)} {self next : TTLCertificateCache}
    (scanned : scan now rest self = some next) {item : Name × TTLCacheEntry} (kept : item ∈ next.cache) :
    item ∈ self.cache ∧ (item ∈ rest → now ≤ item.2.timestamp) := by
  induction rest generalizing self with
  | nil =>
    cases scanned
    exact ⟨kept,fun member => by cases member⟩
  | cons first rest ih =>
    obtain ⟨name,entry⟩ := first
    rw [scan] at scanned
    split at scanned
    · split at scanned
      · obtain ⟨left,young⟩ := ih scanned
        obtain ⟨present,apart⟩ := List.mem_filter.mp left
        refine ⟨present,?_⟩
        intro member
        rcases List.mem_cons.mp member with rfl | later
        · exact absurd rfl (of_decide_eq_true apart)
        · exact young later
      · cases scanned
    · rename_i fresh
      obtain ⟨present,young⟩ := ih scanned
      refine ⟨present,?_⟩
      intro member
      rcases List.mem_cons.mp member with rfl | later
      · exact Int.not_lt.mp fresh
      · exact young later

theorem step_recorded {calls : List Call} {self next : TTLCertificateCache} {call : Call}
    (recorded : ∀ name entry, (name,entry) ∈ self.cache → Recorded calls name entry) (taken : step self call = some next)
    {name : Name} {entry : TTLCacheEntry} (member : (name,entry) ∈ next.cache) : Recorded (calls ++ [call]) name entry := by
  cases call with
  | insertCertificate now certificate =>
    rw [step] at taken
    split at taken
    · cases taken
      rcases insert_entries member with ⟨old,apart⟩ | ⟨named,same,expiry⟩
      · refine (recorded name entry old).extend ?_ (fun swept given => by cases given)
        intro again other given
        cases given
        exact apart
      · subst same
        exact ⟨calls,now,[],rfl,named,expiry,by simp,by simp⟩
    · cases taken
  | getCertificate now certName hasVersion =>
    rw [step] at taken
    split at taken
    · cases taken
      rw [get_keeps] at member
      exact (recorded name entry member).extend (fun again other given => by cases given) (fun swept given => by cases given)
    · cases taken
  | clean now =>
    obtain ⟨present,young⟩ := scan_kept taken member
    refine (recorded name entry present).extend (fun again other given => by cases given) ?_
    intro swept given
    cases given
    exact young present

theorem run_recorded {maxSize : ℕ} {calls : List Call} {cache : TTLCertificateCache}
    (run : Runs step (fun _ _ => True) (empty maxSize) calls cache) :
    ∀ name entry, (name,entry) ∈ cache.cache → Recorded calls name entry := by
  induction run with
  | nil =>
    intro name entry member
    cases member
  | snoc prior _ taken ih => exact fun name entry member => step_recorded ih taken member

theorem lookups_unswept {maxSize : ℕ} {calls : List Call} {cache : TTLCertificateCache}
    (run : Runs step (fun _ _ => True) (empty maxSize) calls cache) {certName : Name} {hasVersion : Bool}
    {certificate : IdentityCertificate}
    (returned : (cache.getCertificate (certificateName certName hasVersion)).1 = some certificate) :
    ∃ entry, cache.find (certificateName certName hasVersion) = some entry ∧ entry.certificate = certificate ∧
      Recorded calls (certificateName certName hasVersion) entry := by
  unfold getCertificate at returned
  cases found : cache.find (certificateName certName hasVersion) with
  | none => simp [found] at returned
  | some entry =>
    simp only [found,Option.some.injEq] at returned
    exact ⟨entry,rfl,returned,run_recorded run _ _ (find_mem found)⟩

-- Inserted at 1, to expire at 11; the last pass read 5, and a lookup at 20 still
-- returns the certificate.
def lateLookup : List Call := [.clean 0,.insertCertificate 1 (keyCertificate 1),.clean 5]

def lateCache : TTLCertificateCache := ⟨4,[([⟨[1]⟩],⟨11,keyCertificate 1,0⟩)],[(0,[⟨[1]⟩])],1⟩

theorem lateLookup_runs : Runs step (fun _ _ => True) (empty 4) lateLookup lateCache := by
  have start : Runs step (fun _ _ => True) (empty 4) [] (empty 4) := .nil _
  have swept := start.snoc trivial (show step _ (.clean 0) = some _ from rfl)
  have stored := swept.snoc trivial (show step _ (.insertCertificate 1 (keyCertificate 1)) = some _ from rfl)
  exact stored.snoc trivial (show step _ (.clean 5) = some lateCache by decide)

theorem expired_certificate_returned :
    Runs step (fun _ _ => True) (empty 4) lateLookup lateCache ∧ (lateLookup.map Call.now ++ [20]).Pairwise (· ≤ ·) ∧
      ∃ entry, (lateCache.getCertificate (certificateName [⟨[1]⟩,⟨[0]⟩] true)).1 = some entry.certificate ∧
        lateCache.find (certificateName [⟨[1]⟩,⟨[0]⟩] true) = some entry ∧ entry.timestamp < 20 :=
  ⟨lateLookup_runs,by decide,⟨11,keyCertificate 1,0⟩,by decide,by decide,by decide⟩

theorem lookups_unswept_late : ∃ entry, lateCache.find (certificateName [⟨[1]⟩] false) = some entry ∧
    entry.certificate = keyCertificate 1 ∧ Recorded lateLookup (certificateName [⟨[1]⟩] false) entry :=
  lookups_unswept lateLookup_runs (by decide)

end NdnCxx.Security.TTLCertificateCache
