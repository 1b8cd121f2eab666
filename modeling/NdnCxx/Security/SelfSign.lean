import NdnCxx.Security.KeyNames

namespace NdnCxx.Security
open Wire (int32 int32_small)
open Name (getSubName getPrefix append appendVersion nversion versionAt)
open Throwing

-- The last component of a self-signed certificate's name.
def versionMark (now : Int) : Component := Component.fromNumberWithMarker (versionAt now) 0xFD

theorem appendVersion_mark (now : Int) (name : Name) : appendVersion now name nversion = name ++ [versionMark now] := by
  have full : (versionMark now).size ≠ 0 := by simp [versionMark,Component.fromNumberWithMarker,Component.size]
  rw [appendVersion,if_neg (by simp),Name.appendNumberWithMarker,Wire.appendBySwap,← versionMark,if_pos full]

theorem versionMark_apart (now : Int) : versionMark now ≠ idMark := by
  intro same
  have bytes := congrArg Component.bytes same
  simp [versionMark,Component.fromNumberWithMarker,idMark,idString] at bytes

-- What a certificate name tells about the key it was built from, and what comes back.
def Inverse (now : Int) (keyName : Name) : Prop :=
  ∃ certificateName, selfSignName now keyName = .ok certificateName ∧ correctName certificateName = .ok true ∧
    setName certificateName = .ok keyName

def certificateNameOf (now : Int) (front : Name) (last : Component) : Name :=
  (filled front ++ keyMark :: filled [last]) ++ idMark :: [versionMark now]

theorem selfSign_spec (now : Int) {front : Name} {last : Component} (small : (front ++ [last]).length ≤ 2^31) :
    selfSignName now (front ++ [last]) = .ok (certificateNameOf now front last) := by
  have start := Name.getPrefix_withoutVersion small
  rw [getPrefix] at start
  have index : ((front ++ [last]).size - 1).toNat = front.length := by
    rw [Name.size_pred (by omega) (by simp)]
    simp
  have found : (front ++ [last])[front.length]? = some last := by simp
  have got := Name.get_small found (by simp only [List.length_append,List.length_singleton] at small; omega) (by omega)
  rw [selfSignName,start]
  simp only [ok_bind,index,got,pure_ok]
  rw [appendVersion_mark,append_filled,append_filled,append_filled]
  simp [certificateNameOf,withoutVersion,filled,Component.size,keyMark,keyString,idMark,idString]

theorem selfSign_far (now : Int) {keyName : Name} (long : 2^31 < keyName.length) (sized : keyName.length < 2^64) :
    ∃ thrown, selfSignName now keyName = .error thrown := by
  rw [selfSignName]
  have nonempty : keyName ≠ [] := List.ne_nil_of_length_pos (by omega)
  by_cases next : keyName.length = 2^31 + 1
  · have index : (keyName.size - 1).toNat = 2^31 := by
      rw [Name.size_pred sized nonempty]
      omega
    cases getSubName keyName 0 (keyName.size - 1) with
    | error thrown => exact ⟨thrown,rfl⟩
    | ok certificateName =>
      rw [ok_bind,index,get_far]
      exact ⟨_,rfl⟩
  · obtain ⟨thrown,threw⟩ := prefix_far (by omega) sized
    rw [threw]
    exact ⟨thrown,rfl⟩

theorem rotated {list : Name} {component : Component} :
    list ++ [component] = component :: list ↔ ∀ other ∈ list, other = component := by
  induction list with
  | nil => simp
  | cons first list ih =>
    rw [List.cons_append,List.cons.injEq,List.forall_mem_cons]
    refine and_congr_right (fun same => ?_)
    rw [same]
    exact ih

-- The first KEY is the one put in, or one that only KEYs follow up to it.
theorem erase_inserted (front : Name) (last : Component) : (front ++ keyMark :: [last]).erase keyMark = front ++ [last] ↔
    ∀ component ∈ front.dropWhile (fun component => decide (component ≠ keyMark)), component = keyMark := by
  by_cases key : keyMark ∈ front
  · obtain ⟨before,rest,rfl,absent⟩ := List.eq_append_cons_of_mem key
    have kept : (before ++ keyMark :: rest).dropWhile (fun component => decide (component ≠ keyMark)) = keyMark :: rest := by
      rw [List.dropWhile_append_of_pos]
      · simp
      · intro component member
        exact decide_eq_true (fun same => absent (same ▸ member))
    have tails : rest ++ keyMark :: [last] = keyMark :: (rest ++ [last]) ↔ rest ++ [keyMark] = keyMark :: rest := by
      rw [← List.append_cancel_right_eq (rest ++ [keyMark]) [last] (keyMark :: rest)]
      simp
    rw [kept,List.append_assoc,List.cons_append,erase_split absent,List.append_assoc,List.cons_append,
      List.append_cancel_left_eq,tails,rotated]
    simp
  · have passed : front.dropWhile (fun component => decide (component ≠ keyMark)) = [] := by
      rw [List.dropWhile_eq_nil_iff]
      intro component member
      exact decide_eq_true (fun same => key (same ▸ member))
    rw [passed,erase_split key]
    simp

theorem certificateName_split (now : Int) (front : Name) (last : Component) : ∃ after,
    certificateNameOf now front last = (filled front ++ keyMark :: filled [last]) ++ idMark :: after ∧ idMark ∉ after := by
  refine ⟨[versionMark now],rfl,?_⟩
  simpa using (versionMark_apart now).symm

theorem certificateName_length (now : Int) (front : Name) (last : Component) :
    (certificateNameOf now front last).length ≤ front.length + 4 := by
  have fewer := filled_length front
  have one := filled_length [last]
  simp only [certificateNameOf,List.length_append,List.length_cons,List.length_nil] at one ⊢
  omega

theorem certificateName_accepted (now : Int) {front : Name} {last : Component}
    (short : (certificateNameOf now front last).length ≤ 2^31) :
    correctName (certificateNameOf now front last) = .ok true ∧
      setName (certificateNameOf now front last) = .ok ((filled front ++ keyMark :: filled [last]).erase keyMark) := by
  obtain ⟨after,split,absent⟩ := certificateName_split now front last
  have key : keyMark ∈ certificateNameOf now front last := by simp [certificateNameOf]
  have id : idMark ∈ certificateNameOf now front last := by simp [certificateNameOf]
  refine ⟨by rw [correctName_spec short]; simp [id,key],?_⟩
  rw [setName_spec short split absent key,filled_append,filled_filled]
  rw [filled_key,filled_filled]

theorem filled_concat {front : Name} {last : Component} :
    filled (front ++ [last]) = front ++ [last] ↔ filled front = front ∧ filled [last] = [last] := by
  simp only [filled_self,List.forall_mem_append]

-- What is read back has no empty component.
theorem erased_filled {front : Name} {last : Component} :
    filled ((filled front ++ keyMark :: filled [last]).erase keyMark) = (filled front ++ keyMark :: filled [last]).erase keyMark := by
  rw [filled_self]
  intro component member
  have whole : filled (filled front ++ keyMark :: filled [last]) = filled front ++ keyMark :: filled [last] := by
    rw [filled_append,filled_key,filled_filled,filled_filled]
  exact filled_self.mp whole component (List.mem_of_mem_erase member)

-- Too long a certificate name is not accepted.
theorem accepted_short (now : Int) {front : Name} {last : Component} (few : front.length + 1 ≤ 2^31)
    (accepted : correctName (certificateNameOf now front last) = .ok true) :
    (certificateNameOf now front last).length ≤ 2^31 := by
  have length := certificateName_length now front last
  by_contra long
  rw [correctName_long (by omega) (by omega)] at accepted
  cases accepted

-- The name of a certificate of every key is accepted, as long as an `int` counts its
-- components; it leads back to the key exactly when no component of that is empty and,
-- from the first KEY up to the component before the last, all are KEY.
theorem names_inverse_exact (now : Int) {keyName : Name} (nonempty : keyName ≠ []) (sized : keyName.length < 2^64) :
    (Inverse now keyName ↔ keyName.length + 3 ≤ 2^31 ∧ (∀ component ∈ keyName, component.size ≠ 0) ∧
      ∀ component ∈ keyName.dropLast.dropWhile (fun component => decide (component ≠ keyMark)), component = keyMark) ∧
    (keyName.length + 3 ≤ 2^31 → ∃ certificateName, selfSignName now keyName = .ok certificateName ∧
      correctName certificateName = .ok true) := by
  obtain ⟨front,last,rfl⟩ : ∃ front last, keyName = front ++ [last] :=
    ⟨keyName.dropLast,keyName.getLast nonempty,(List.dropLast_append_getLast nonempty).symm⟩
  have length : (front ++ [last]).length = front.length + 1 := by simp
  rw [← filled_self,List.dropLast_concat]
  refine ⟨⟨?_,?_⟩,?_⟩
  · rintro ⟨certificateName,signed,accepted,recorded⟩
    by_cases small : (front ++ [last]).length ≤ 2^31
    · rw [selfSign_spec now small] at signed
      cases signed
      have short := accepted_short now (by omega) accepted
      rw [(certificateName_accepted now short).2] at recorded
      have back := Except.ok.inj recorded
      have whole : filled (front ++ [last]) = front ++ [last] := by rw [← back,erased_filled]
      obtain ⟨first,final⟩ := filled_concat.mp whole
      have count : (certificateNameOf now front last).length = front.length + 4 := by
        simp [certificateNameOf,first,final]
      rw [first,final] at back
      exact ⟨by omega,whole,(erase_inserted front last).mp back⟩
    · obtain ⟨thrown,threw⟩ := selfSign_far now (by omega) sized
      rw [threw] at signed
      cases signed
  · rintro ⟨short,whole,marked⟩
    have bound := certificateName_length now front last
    have small : (certificateNameOf now front last).length ≤ 2^31 := by omega
    obtain ⟨accepted,recorded⟩ := certificateName_accepted now small
    obtain ⟨first,final⟩ := filled_concat.mp whole
    refine ⟨_,selfSign_spec now (by omega),accepted,?_⟩
    rw [recorded,first,final,(erase_inserted front last).mpr marked]
  · intro short
    have bound := certificateName_length now front last
    exact ⟨_,selfSign_spec now (by omega),(certificateName_accepted now (by omega)).1⟩

-- `/alice/ksk`, at the epoch.
theorem names_inverse_alice : Inverse 0 [⟨[0x61,0x6C,0x69,0x63,0x65]⟩,⟨[0x6B,0x73,0x6B]⟩] :=
  ((names_inverse_exact 0 (by decide) (by decide)).1).mpr ⟨by decide,by decide,by decide⟩

-- `/KEY/a/x`: the KEY of the key name goes instead of the one put in.
theorem key_in_front_lost : ∃ certificateName, selfSignName 0 [keyMark,⟨[0x61]⟩,⟨[0x78]⟩] = .ok certificateName ∧
    setName certificateName = .ok [⟨[0x61]⟩,keyMark,⟨[0x78]⟩] ∧ ¬Inverse 0 [keyMark,⟨[0x61]⟩,⟨[0x78]⟩] := by
  have short : ([keyMark,⟨[0x61]⟩] ++ [⟨[0x78]⟩] : Name).length ≤ 2^31 := by decide
  have small : (certificateNameOf 0 [keyMark,⟨[0x61]⟩] ⟨[0x78]⟩).length ≤ 2^31 := by decide
  have signed := selfSign_spec 0 short
  have recorded := (certificateName_accepted 0 small).2
  refine ⟨_,signed,recorded,?_⟩
  rintro ⟨certificateName,given,_,kept⟩
  cases signed.symm.trans given
  rw [recorded] at kept
  exact absurd kept (by decide)

end NdnCxx.Security
