import NdnCxx.Security.CertificateName

namespace NdnCxx.Security
open Wire (int32 int32_small)
open Name (getSubName getPrefix append npos)
open Throwing

-- What the parser with fixed positions makes of a name without its version.
def positional (baseName : Name) : Name :=
  if keyMark ∈ baseName then
    baseName.take (baseName.idxOf keyMark) ++ (baseName.drop (baseName.idxOf keyMark + 1)).dropLast
  else []

theorem ofInt_natCast (n : ℕ) : UInt64.ofInt (n : Int) = UInt64.ofNat n := by
  apply UInt64.toNat_inj.mp
  simp only [UInt64.ofInt,UInt64.toNat_ofNat',Nat.reducePow]
  omega

-- Past the end of the name the length wraps around to `npos`, and nothing is left.
theorem subName_behind {tmpName : Name} (small : tmpName.length ≤ 2^31) {i : ℕ} (bound : i ≤ tmpName.length) :
    getSubName tmpName (UInt64.ofNat (i + 1)) (tmpName.size - UInt64.ofNat i - 1) = .ok (filled (tmpName.drop (i + 1))) := by
  have size := Name.size_toNat (show tmpName.length < 2^64 by omega)
  have index : (UInt64.ofNat i).toNat = i := UInt64.toNat_ofNat_of_lt (show i < 2^64 by omega)
  have count : (tmpName.size - UInt64.ofNat i - 1).toNat = (tmpName.length + (2^64 - i) % 2^64 + (2^64 - 1)) % 2^64 := by
    rw [UInt64.toNat_sub,UInt64.toNat_sub,size,index,UInt64.toNat_one]
    omega
  rcases Nat.lt_or_ge i tmpName.length with inside | past
  · have same : tmpName.size - UInt64.ofNat i - 1 = UInt64.ofNat (tmpName.length - i - 1) := by
      apply UInt64.toNat_inj.mp
      rw [count,UInt64.toNat_ofNat']
      omega
    rw [same,subName_window small (by omega),List.take_of_length_le]
    rw [List.length_drop]
    omega
  · have same : tmpName.size - UInt64.ofNat i - 1 = npos := by
      apply UInt64.toNat_inj.mp
      have top : npos.toNat = 2^64 - 1 := rfl
      rw [count,top]
      omega
    have position : (UInt64.ofNat (i + 1)).toNat = i + 1 := UInt64.toNat_ofNat_of_lt (show i + 1 < 2^64 by omega)
    rw [same,Name.subName_past (by omega) (by omega),List.drop_eq_nil_of_le (by omega)]
    rfl

-- The same for the component after KEY, up to the one before the last; with KEY itself
-- the last, that is `npos` again.
theorem subName_between {baseName : Name} (small : baseName.length ≤ 2^31) {i : ℕ} (inside : i < baseName.length) :
    getSubName baseName (UInt64.ofNat (i + 1)) (baseName.size - 2 - UInt64.ofNat i) =
      .ok (filled (baseName.drop (i + 1)).dropLast) := by
  have size := Name.size_toNat (show baseName.length < 2^64 by omega)
  have index : (UInt64.ofNat i).toNat = i := UInt64.toNat_ofNat_of_lt (show i < 2^64 by omega)
  have two : (2 : UInt64).toNat = 2 := rfl
  have count : (baseName.size - 2 - UInt64.ofNat i).toNat = (baseName.length + (2^64 - 2) + (2^64 - i)) % 2^64 := by
    rw [UInt64.toNat_sub,UInt64.toNat_sub,size,index,two]
    omega
  have position : (UInt64.ofNat (i + 1)).toNat = i + 1 := UInt64.toNat_ofNat_of_lt (show i + 1 < 2^64 by omega)
  rcases Nat.lt_or_ge (i + 1) baseName.length with more | final
  · have same : baseName.size - 2 - UInt64.ofNat i = UInt64.ofNat (baseName.length - 2 - i) := by
      apply UInt64.toNat_inj.mp
      rw [count,UInt64.toNat_ofNat']
      omega
    have shorter : baseName.length - (i + 1) - 1 = baseName.length - 2 - i := by omega
    rw [same,subName_window small (by omega),List.dropLast_eq_take,List.length_drop,shorter]
  · have same : baseName.size - 2 - UInt64.ofNat i = npos := by
      apply UInt64.toNat_inj.mp
      have top : npos.toNat = 2^64 - 1 := rfl
      rw [count,top]
      omega
    rw [same,Name.subName_rest small (by omega),position,List.drop_eq_nil_of_le final]
    rfl

section Small
variable {name : Name} (small : name.length ≤ 2^31)
include small

-- The first KEY in front of the last ID-CERT goes; without one nothing does.
theorem setPublicKeyName_spec {before after : Name} (split : name = before ++ idMark :: after) (last : idMark ∉ after) :
    setPublicKeyName name = .ok ((filled before).erase keyMark) := by
  have length : name.length = before.length + (after.length + 1) := by rw [split,List.length_append,List.length_cons]
  have front : getSubName name 0 (UInt64.ofInt (before.length : Int)) = .ok (filled before) := by
    rw [ofInt_natCast]
    have window := subName_window small (show 0 + before.length ≤ name.length by omega)
    rw [split] at window ⊢
    simpa using window
  have few : (filled before).length ≤ 2^31 := by
    have := filled_length before
    omega
  have bound : (filled before).idxOf keyMark ≤ (filled before).length := List.idxOf_le_length
  have whole : filled (filled before) = filled before := filled_filled before
  have head : getSubName (filled before) 0 (UInt64.ofNat ((filled before).idxOf keyMark)) =
      .ok ((filled before).take ((filled before).idxOf keyMark)) := by
    have window := subName_window few (show 0 + (filled before).idxOf keyMark ≤ (filled before).length by omega)
    rw [filled_window whole,List.drop_zero] at window
    exact window
  have tail := subName_behind few bound
  rw [setPublicKeyName,idIndex_spec small split last]
  simp only [ok_bind,front,keyIndex_spec few,head,tail,pure_ok]
  rw [appendAll_filled,filled_filled]
  have rest : filled ((filled before).drop ((filled before).idxOf keyMark + 1)) =
      (filled before).drop ((filled before).idxOf keyMark + 1) := by
    have window := filled_window whole ((filled before).idxOf keyMark + 1) (filled before).length
    rwa [List.take_of_length_le (by rw [List.length_drop]; omega)] at window
  rw [rest,List.erase_eq_eraseIdx_of_idxOf rfl,List.eraseIdx_eq_take_drop_succ]

theorem setName_spec {before after : Name} (split : name = before ++ idMark :: after) (last : idMark ∉ after)
    (key : keyMark ∈ name) : setName name = .ok ((filled before).erase keyMark) := by
  have id : idMark ∈ name := by rw [split]; simp
  rw [setName,correctName_spec small,setPublicKeyName_spec small split last]
  simp [id,key,Except.mapError]

theorem positional_spec : certificateNameToPublicKeyName name true = .ok (positional (filled name.dropLast)) := by
  have base : getPrefix name (name.size - 1) 0 = .ok (filled name.dropLast) := Name.getPrefix_withoutVersion small
  generalize shown : filled name.dropLast = baseName at base
  have whole : filled baseName = baseName := by rw [← shown,filled_filled]
  have few : baseName.length ≤ 2^31 := by
    have short := filled_length name.dropLast
    rw [shown,List.length_dropLast] at short
    omega
  rw [certificateNameToPublicKeyName,if_pos rfl,base]
  simp only [ok_bind,keyIndex_spec few]
  by_cases key : keyMark ∈ baseName
  · have inside := List.idxOf_lt_length_iff.mpr key
    have head := subName_window few (show 0 + baseName.idxOf keyMark ≤ baseName.length by omega)
    rw [filled_window whole,List.drop_zero] at head
    have front : getSubName baseName 0 (UInt64.ofNat (baseName.idxOf keyMark)) = .ok (baseName.take (baseName.idxOf keyMark)) :=
      head
    rw [if_neg (by omega)]
    simp only [front,subName_between few inside,ok_bind,pure_ok]
    rw [appendAll_filled,filled_filled,List.dropLast_eq_take,filled_window whole,← List.dropLast_eq_take,positional,if_pos key]
  · have absent := List.idxOf_eq_length key
    rw [positional,if_neg key,if_pos (by omega)]
    rfl

end Small

-- When the two parsers agree on `before`, ID-CERT, `after`, with no ID-CERT in `after`.
-- Empty components count as absent, except for the last of the name.
inductive Agreeing : Name → Name → Prop where
  | versioned {before after : Name} : keyMark ∈ before → after ≠ [] → filled after.dropLast = [] → Agreeing before after
  | unversioned {before front : Name} : filled before = front ++ [keyMark] → keyMark ∉ front → Agreeing before []
  | bare {before after : Name} : filled before = [] → keyMark ∉ after.dropLast → Agreeing before after

section First
variable {front : Name} (absent : keyMark ∉ front)
include absent

theorem first_place (rest : Name) : (front ++ keyMark :: rest).idxOf keyMark = front.length := by
  rw [List.idxOf_append_of_notMem absent,List.idxOf_cons_self,Nat.add_zero]

theorem positional_split (rest : Name) : positional (front ++ keyMark :: rest) = front ++ rest.dropLast := by
  have behind : (front ++ keyMark :: rest).drop (front.length + 1) = rest := by simp
  rw [positional,if_pos (by simp),first_place absent,List.take_left,behind]

theorem erase_split (rest : Name) : (front ++ keyMark :: rest).erase keyMark = front ++ rest := by
  rw [List.erase_append_right _ absent,List.erase_cons_head]

end First

-- In front of ID-CERT there is a KEY: both take out the first one.
section Keyed
variable {before front rest : Name} (shape : filled before = front ++ keyMark :: rest) (absent : keyMark ∉ front)
include shape absent

theorem keyed_ends : positional (filled (before ++ [idMark]).dropLast) = (filled before).erase keyMark ↔ Agreeing before [] := by
  rw [List.dropLast_concat,shape,positional_split absent,erase_split absent,List.append_cancel_left_eq]
  constructor
  · intro same
    have lengths := congrArg List.length same
    rw [List.length_dropLast] at lengths
    have ended : rest = [] := List.length_eq_zero_iff.mp (by omega)
    exact .unversioned (by rw [shape,ended]) absent
  · intro agreeing
    cases agreeing with
    | versioned _ present _ => exact absurd rfl present
    | unversioned last alone =>
      have place := first_place absent rest
      have length := congrArg List.length shape
      rw [← shape,last,first_place alone] at place
      simp only [last,List.length_append,List.length_cons,List.length_nil] at length
      have ended : rest = [] := List.length_eq_zero_iff.mp (by omega)
      rw [ended]
      rfl
    | bare none_left _ =>
      rw [shape] at none_left
      simp at none_left

theorem keyed_followed {after : Name} (present : after ≠ []) :
    positional (filled (before ++ idMark :: after).dropLast) = (filled before).erase keyMark ↔ Agreeing before after := by
  have key : keyMark ∈ before := (mem_filled_key before).mp (by simp [shape])
  rw [List.dropLast_append_cons,List.dropLast_cons_of_ne_nil present,filled_append,filled_id,shape,List.append_assoc,
    List.cons_append,positional_split absent,erase_split absent,List.append_cancel_left_eq,List.dropLast_append_cons]
  constructor
  · intro same
    have dropped : (idMark :: filled after.dropLast).dropLast = [] := List.append_right_eq_self.mp same
    refine .versioned key present ?_
    by_contra more
    rw [List.dropLast_cons_of_ne_nil more] at dropped
    cases dropped
  · intro agreeing
    cases agreeing with
    | versioned _ _ nothing =>
      rw [nothing]
      simp
    | unversioned => exact absurd rfl present
    | bare none_left _ =>
      rw [shape] at none_left
      simp at none_left

end Keyed

-- There is none: what the other parser finds, if anything, it finds behind ID-CERT.
theorem unkeyed_agrees {before after : Name} (unkeyed : keyMark ∉ before) (present : after ≠ []) :
    positional (filled (before ++ idMark :: after).dropLast) = (filled before).erase keyMark ↔ Agreeing before after := by
  have absent : keyMark ∉ filled before := fun key => unkeyed ((mem_filled_key before).mp key)
  rw [List.dropLast_append_cons,List.dropLast_cons_of_ne_nil present,filled_append,filled_id,List.erase_of_not_mem absent]
  by_cases later : keyMark ∈ after.dropLast
  · refine iff_of_false ?_ ?_
    · obtain ⟨front,rest,shape,first⟩ := List.eq_append_cons_of_mem ((mem_filled_key _).mpr later)
      have apart : keyMark ∉ filled before ++ idMark :: front := by simp [absent,first,marks_apart]
      have whole : filled before ++ idMark :: filled after.dropLast =
          (filled before ++ idMark :: front) ++ keyMark :: rest := by
        rw [shape,List.append_assoc,List.cons_append]
      rw [whole,positional_split apart]
      intro same
      have lengths := congrArg List.length same
      simp only [List.length_append,List.length_cons] at lengths
      omega
    · intro agreeing
      cases agreeing with
      | versioned key _ _ => exact unkeyed key
      | unversioned => exact present rfl
      | bare _ elsewhere => exact elsewhere later
  · have behind : keyMark ∉ filled after.dropLast := fun key => later ((mem_filled_key _).mp key)
    have nowhere : keyMark ∉ filled before ++ idMark :: filled after.dropLast := by simp [absent,behind,marks_apart]
    rw [positional,if_neg nowhere]
    constructor
    · intro same
      exact .bare same.symm later
    · intro agreeing
      cases agreeing with
      | versioned key _ _ => exact absurd key unkeyed
      | unversioned => exact absurd rfl present
      | bare none_left _ => exact none_left.symm

theorem positional_agrees {before after : Name} (key : keyMark ∈ before ++ idMark :: after) :
    positional (filled (before ++ idMark :: after).dropLast) = (filled before).erase keyMark ↔ Agreeing before after := by
  by_cases keyed : keyMark ∈ before
  · obtain ⟨front,rest,shape,absent⟩ := List.eq_append_cons_of_mem ((mem_filled_key before).mpr keyed)
    by_cases present : after = []
    · subst present
      exact keyed_ends shape absent
    · exact keyed_followed shape absent present
  · refine unkeyed_agrees keyed ?_
    rintro rfl
    simp [keyed,marks_apart] at key

-- The index 2^31 is the least `int`, and a run that comes to it ends there.
theorem get_far (name : Name) : Name.get name (int32 ((2^31 : ℕ) : Int)) = .error .undefined := by
  have wraps : int32 ((2^31 : ℕ) : Int) = -2^31 := by decide
  rw [wraps,Name.get,if_pos rfl]

theorem appendRun_far {name : Name} {turns i : ℕ} (retval : Name) (start : i ≤ 2^31) (far : 2^31 < i + turns) :
    ∃ thrown, Name.appendRun name turns i retval = .error thrown := by
  induction turns generalizing i retval with
  | zero => omega
  | succ turns ih =>
    rw [Name.appendRun]
    rcases Nat.eq_or_lt_of_le start with rfl | before
    · rw [get_far]
      exact ⟨_,rfl⟩
    · cases got : Name.get name (int32 i) with
      | error thrown => exact ⟨thrown,rfl⟩
      | ok component => exact ih _ before (by omega)

-- The names that the two parsers read alike.
def ParsersAgree (name : Name) : Prop :=
  name.length ≤ 2^31 ∧ ∃ before after, name = before ++ idMark :: after ∧ idMark ∉ after ∧ Agreeing before after

theorem int32_negative {n : ℕ} (large : 2^31 ≤ n) (below : n < 2^32) : int32 (n : Int) < 0 := by
  have wraps : (n : Int) % ((2^32 : ℕ) : Int) = n := Int.emod_eq_of_lt (by omega) (by omega)
  rw [int32,Int.bmod,wraps,if_neg (by omega)]
  omega

-- The first loop begins below zero.
theorem correctName_long {name : Name} (long : 2^31 < name.length) (below : name.length ≤ 2^32) :
    correctName name = .ok false := by
  have nonempty : name ≠ [] := List.ne_nil_of_length_pos (by omega)
  have start := Name.size_pred (show name.length < 2^64 by omega) nonempty
  have negative := int32_negative (show 2^31 ≤ name.length - 1 by omega) (by omega)
  have index : idIndex name = .ok (int32 ((name.length - 1 : ℕ) : Int)) := by
    rw [idIndex,start]
    exact if_pos negative
  rw [correctName,index,ok_bind,if_pos negative]
  rfl

theorem prefix_far {name : Name} (long : 2^31 + 1 < name.length) (sized : name.length < 2^64) :
    ∃ thrown, getSubName name 0 (name.size - 1) = .error thrown := by
  have nonempty : name ≠ [] := List.ne_nil_of_length_pos (by omega)
  rw [Name.prefix_run sized nonempty]
  exact appendRun_far [] (Nat.zero_le _) (by omega)

-- The two parsers on the names that `setName` accepts.
theorem parsers_agree_exact {name : Name} (sized : name.length < 2^64) (accepted : correctName name = .ok true) :
    (∃ keyName, setName name = .ok keyName ∧ certificateNameToPublicKeyName name true = .ok keyName) ↔ ParsersAgree name := by
  by_cases small : name.length ≤ 2^31
  · rw [correctName_spec small,Except.ok.injEq,decide_eq_true_iff] at accepted
    obtain ⟨id,key⟩ := accepted
    constructor
    · rintro ⟨keyName,recorded,found⟩
      obtain ⟨before,after,split,last⟩ := split_last id
      refine ⟨small,before,after,split,last,?_⟩
      rw [setName_spec small split last key] at recorded
      rw [positional_spec small] at found
      cases recorded
      rw [split] at key found
      exact (positional_agrees key).mp (Except.ok.inj found)
    · rintro ⟨_,before,after,split,last,agreeing⟩
      refine ⟨_,setName_spec small split last key,?_⟩
      rw [positional_spec small]
      rw [split] at key ⊢
      rw [(positional_agrees key).mpr agreeing]
  · refine iff_of_false ?_ (fun agree => small agree.1)
    rintro ⟨keyName,_,found⟩
    by_cases next : name.length = 2^31 + 1
    · rw [correctName_long (by omega) (by omega)] at accepted
      cases accepted
    · obtain ⟨thrown,threw⟩ := prefix_far (by omega) sized
      rw [certificateNameToPublicKeyName,if_pos rfl,getPrefix,threw] at found
      cases found

-- `/a/KEY/b/ID-CERT/v`.
theorem parsers_agree_versioned : ∃ keyName, setName [⟨[0x61]⟩,keyMark,⟨[0x62]⟩,idMark,⟨[0x76]⟩] = .ok keyName ∧
    certificateNameToPublicKeyName [⟨[0x61]⟩,keyMark,⟨[0x62]⟩,idMark,⟨[0x76]⟩] true = .ok keyName := by
  have accepted : correctName [⟨[0x61]⟩,keyMark,⟨[0x62]⟩,idMark,⟨[0x76]⟩] = .ok true := by
    rw [correctName_spec (by simp)]
    rfl
  have agreeing : Agreeing [⟨[0x61]⟩,keyMark,⟨[0x62]⟩] [⟨[0x76]⟩] := .versioned (by decide) (by decide) rfl
  have agree : ParsersAgree [⟨[0x61]⟩,keyMark,⟨[0x62]⟩,idMark,⟨[0x76]⟩] :=
    ⟨by simp,[⟨[0x61]⟩,keyMark,⟨[0x62]⟩],[⟨[0x76]⟩],rfl,by decide,agreeing⟩
  exact (parsers_agree_exact (by simp) accepted).mpr agree

-- `/a/KEY/b/ID-CERT/v/s`, with a segment behind the version, and `/a/KEY/b/ID-CERT`.
theorem parsers_disagree : (correctName [⟨[0x61]⟩,keyMark,⟨[0x62]⟩,idMark,⟨[0x76]⟩,⟨[0x73]⟩] = .ok true ∧
      setName [⟨[0x61]⟩,keyMark,⟨[0x62]⟩,idMark,⟨[0x76]⟩,⟨[0x73]⟩] = .ok [⟨[0x61]⟩,⟨[0x62]⟩] ∧
      certificateNameToPublicKeyName [⟨[0x61]⟩,keyMark,⟨[0x62]⟩,idMark,⟨[0x76]⟩,⟨[0x73]⟩] true =
        .ok [⟨[0x61]⟩,⟨[0x62]⟩,idMark]) ∧
    correctName [⟨[0x61]⟩,keyMark,⟨[0x62]⟩,idMark] = .ok true ∧
    setName [⟨[0x61]⟩,keyMark,⟨[0x62]⟩,idMark] = .ok [⟨[0x61]⟩,⟨[0x62]⟩] ∧
    certificateNameToPublicKeyName [⟨[0x61]⟩,keyMark,⟨[0x62]⟩,idMark] true = .ok [⟨[0x61]⟩] := by decide +kernel

end NdnCxx.Security
