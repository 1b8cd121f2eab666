import NdnCxx.Lib.Throwing
import NdnCxx.NameNumber
import NdnCxx.Security.Certificate

namespace NdnCxx
open Wire (int32)

namespace Name

-- `error::Name`, or what the language leaves undefined: the negation of the least
-- `int`, or an index in front of the vector.
inductive SliceError where
  | name (msg : String) (pos : Int)
  | undefined
  deriving DecidableEq, Repr

def npos : UInt64 := 0xFFFFFFFFFFFFFFFF

def size (name : Name) : UInt64 := UInt64.ofNat name.length

-- The index is an `int`; a negative one is brought back from the end in `size_t`.
def get (name : Name) (index : Int) : Except SliceError Component :=
  if index = -2^31 then .error .undefined
  else
    let index := if index < 0 then int32 ((name.size - UInt64.ofInt (-index)).toNat : Int) else index
    if name.size.toNat ≤ (index % 2^32).toNat then .error (.name "Index out of range" index)
    else if index < 0 then .error .undefined
    else match name[index.toNat]? with
      | some component => .ok component
      | none => .error .undefined

-- The loop appends what stands at `i` as an `int`.
def appendRun (name : Name) : Nat → Nat → Name → Except SliceError Name
  | 0,_,retval => .ok retval
  | turns+1,i,retval => do
    let component ← get name (int32 i)
    appendRun name turns (i+1) (append retval component)

def getSubName (name : Name) (pos len : UInt64) : Except SliceError Name :=
  let len := if len = npos then name.size - pos else len
  if pos + len > name.size then .error (.name "getSubName parameter out of range" (int32 len.toNat))
  else appendRun name ((pos + len).toNat - pos.toNat) pos.toNat []

def getPrefix (name : Name) (len skip : UInt64) : Except SliceError Name := getSubName name skip len

def getPostfix (name : Name) (len skip : UInt64) : Except SliceError Name :=
  getSubName name (name.size - len - skip) len

-- What a call asks for, over unbounded integers: the first component of a run and
-- how many there are. `none` is a request that does not fit, a length of `none` is
-- `npos`.
def lengthOf (len : UInt64) : Option ℕ := if len = npos then none else some len.toNat

def subNameRequest (size pos : ℕ) : Option ℕ → Option (ℕ × ℕ)
  | none => if pos ≤ size then some (pos,size - pos) else none
  | some len => if pos + len ≤ size then some (pos,len) else none

def postfixRequest (size skip : ℕ) : Option ℕ → Option (ℕ × ℕ)
  | none => if skip ≤ size then some (0,size - skip) else none
  | some len => if len + skip ≤ size then some (size - len - skip,len) else none

def Answers (name : Name) (request : Option (ℕ × ℕ)) (result : Except SliceError Name) : Prop :=
  match request with
  | some window => result = .ok ((name.drop window.1).take window.2)
  | none => ∃ msg pos, result = .error (.name msg pos)

-- The component is found by its index as an `int`, and `append` keeps it.
def Reads (name : Name) (i : ℕ) : Prop :=
  ∃ component, name[i]? = some component ∧ get name (int32 i) = .ok component ∧ component.size ≠ 0

def Readable (name : Name) (window : ℕ × ℕ) : Prop := ∀ i, window.1 ≤ i → i < window.1 + window.2 → Reads name i

theorem append_cases (name : Name) (component : Component) :
    component.size = 0 ∧ append name component = name ∨ component.size ≠ 0 ∧ append name component = name ++ [component] := by
  unfold append
  split
  · rename_i filled
    exact .inr ⟨filled,rfl⟩
  · rename_i empty
    exact .inl ⟨not_not.mp empty,rfl⟩

-- What is appended of a component: itself or nothing.
theorem append_filter (name : Name) (component : Component) :
    append name component = name ++ [component].filter (fun component => decide (component.size ≠ 0)) := by
  rcases append_cases name component with ⟨empty,same⟩ | ⟨filled,longer⟩
  · simp [same,empty]
  · simp [longer,filled]

theorem lengthOf_below {len : UInt64} (below : len.toNat < 2^64 - 1) : lengthOf len = some len.toNat := by
  refine if_neg ?_
  rintro rfl
  exact absurd below (by decide)

theorem appendRun_extends {name retval result : Name} {turns i : ℕ} (done : appendRun name turns i retval = .ok result) :
    ∃ more, result = retval ++ more ∧ more.length ≤ turns := by
  induction turns generalizing i retval with
  | zero =>
    cases done
    exact ⟨[],by simp,le_rfl⟩
  | succ turns ih =>
    obtain ⟨component,_,rest⟩ := Throwing.bind_ok done
    obtain ⟨more,extended,short⟩ := ih rest
    rcases append_cases retval component with ⟨_,same⟩ | ⟨_,longer⟩
    · exact ⟨more,by rw [extended,same],by omega⟩
    · exact ⟨component :: more,by rw [extended,longer]; simp,by simpa using short⟩

theorem window_succ {name : Name} {i : ℕ} {component : Component} (found : name[i]? = some component) (turns : ℕ) :
    (name.drop i).take (turns + 1) = component :: (name.drop (i + 1)).take turns := by
  obtain ⟨inside,value⟩ := List.getElem?_eq_some_iff.mp found
  rw [List.drop_eq_getElem_cons inside,value,List.take_succ_cons]

theorem readable_succ (name : Name) (i turns : ℕ) :
    Readable name (i,turns + 1) ↔ Reads name i ∧ Readable name (i + 1,turns) := by
  unfold Readable
  simp only
  constructor
  · intro readable
    refine ⟨readable i le_rfl (by omega),?_⟩
    intro j first last
    exact readable j (by omega) (by omega)
  · intro given j first last
    obtain ⟨here,later⟩ := given
    rcases Nat.eq_or_lt_of_le first with same | after
    · rw [← same]
      exact here
    · exact later j after (by omega)

-- A turn appends at most one component, so a run of the right length must read the
-- right one at each.
theorem appendRun_exact (name : Name) {turns i : ℕ} (retval : Name) (inside : i + turns ≤ name.length) :
    appendRun name turns i retval = .ok (retval ++ (name.drop i).take turns) ↔ Readable name (i,turns) := by
  induction turns generalizing i retval with
  | zero =>
    refine iff_of_true (by simp [appendRun]) ?_
    intro j first last
    simp only at first last
    omega
  | succ turns ih =>
    obtain ⟨component,found⟩ : ∃ component, name[i]? = some component :=
      ⟨name[i],List.getElem?_eq_getElem (by omega)⟩
    have following := fun retval => ih (i := i + 1) retval (by omega)
    rw [readable_succ,window_succ found,appendRun]
    constructor
    · intro done
      obtain ⟨read,got,rest⟩ := Throwing.bind_ok done
      obtain ⟨more,extended,short⟩ := appendRun_extends rest
      rcases append_cases retval read with ⟨_,same⟩ | ⟨filled,longer⟩
      · have lengths := congrArg List.length extended
        rw [same] at lengths
        simp at lengths
        omega
      · rw [longer,List.append_assoc] at extended
        have heads := List.append_cancel_left extended
        have equal : component = read := (List.cons.inj heads).1
        subst equal
        refine ⟨⟨component,found,got,filled⟩,(following (retval ++ [component])).mp ?_⟩
        rw [← longer,rest]
        simp [longer]
    · intro given
      obtain ⟨⟨read,here,got,filled⟩,later⟩ := given
      cases here.symm.trans found
      have rest := (following (retval ++ [component])).mpr later
      rw [got]
      simp only [Throwing.ok_bind]
      rw [append,if_pos filled,rest]
      simp

-- How many components the code takes a length for.
def counted (name : Name) (pos len : UInt64) : ℕ :=
  if len = npos then (name.length + (2^64 - pos.toNat)) % 2^64 else len.toNat

section Sized
variable {name : Name} (sized : name.length < 2^64)
include sized

theorem size_toNat : name.size.toNat = name.length := by
  rw [size,UInt64.toNat_ofNat']
  exact Nat.mod_eq_of_lt sized

theorem size_pred (nonempty : name ≠ []) : (name.size - 1).toNat = name.length - 1 := by
  have positive := List.length_pos_iff.mpr nonempty
  rw [UInt64.toNat_sub,size_toNat sized,UInt64.toNat_one]
  omega

theorem getSubName_wraps (pos len : UInt64) : getSubName name pos len =
    if name.length < (pos.toNat + counted name pos len) % 2^64 then
      .error (.name "getSubName parameter out of range" (int32 (counted name pos len)))
    else appendRun name ((pos.toNat + counted name pos len) % 2^64 - pos.toNat) pos.toNat [] := by
  have length : (if len = npos then name.size - pos else len).toNat = counted name pos len := by
    unfold counted
    split
    · rw [UInt64.toNat_sub,size_toNat sized,Nat.add_comm]
    · rfl
  simp only [getSubName,gt_iff_lt,UInt64.lt_iff_toNat_lt,UInt64.toNat_add,length,size_toNat sized]

theorem subName_fits {pos len : UInt64} {window : ℕ × ℕ}
    (fits : subNameRequest name.length pos.toNat (lengthOf len) = some window) :
    getSubName name pos len = appendRun name window.2 window.1 [] ∧ window.1 + window.2 ≤ name.length := by
  have small := pos.toNat_lt
  rw [getSubName_wraps sized]
  unfold lengthOf at fits
  unfold counted
  split at fits <;> simp only [subNameRequest] at fits <;> split at fits <;> cases fits
  · rename_i whole inside
    have wrapped : (pos.toNat + (name.length + (2^64 - pos.toNat)) % 2^64) % 2^64 = name.length := by omega
    rw [if_pos whole,wrapped,if_neg (by omega)]
    exact ⟨rfl,by simp only; omega⟩
  · rename_i bounded inside
    have wrapped : (pos.toNat + len.toNat) % 2^64 = pos.toNat + len.toNat := by omega
    rw [if_neg bounded,wrapped,if_neg (by omega),Nat.add_sub_cancel_left]
    exact ⟨rfl,inside⟩

-- A position past the end wraps with `npos` to the size itself, and a sum past 2^64
-- to a small one: the loop does not turn.
theorem subName_outside {pos len : UInt64} (outside : subNameRequest name.length pos.toNat (lengthOf len) = none) :
    (∃ msg at', getSubName name pos len = .error (.name msg at')) ↔
      len ≠ npos ∧ (pos.toNat + len.toNat < 2^64 ∨ 2^64 + name.length < pos.toNat + len.toNat) := by
  have small := pos.toNat_lt
  have short := len.toNat_lt
  rw [getSubName_wraps sized]
  unfold lengthOf at outside
  unfold counted
  split at outside <;> simp only [subNameRequest] at outside <;> split at outside <;> try cases outside
  · rename_i whole past
    have wrapped : (pos.toNat + (name.length + (2^64 - pos.toNat)) % 2^64) % 2^64 = name.length := by omega
    have still : name.length - pos.toNat = 0 := by omega
    rw [if_pos whole,wrapped,if_neg (by omega),still]
    simp [appendRun,whole]
  · rename_i bounded past
    rw [if_neg bounded]
    by_cases thrown : name.length < (pos.toNat + len.toNat) % 2^64
    · rw [if_pos thrown]
      refine iff_of_true ⟨_,_,rfl⟩ ⟨bounded,?_⟩
      omega
    · have still : (pos.toNat + len.toNat) % 2^64 - pos.toNat = 0 := by omega
      rw [if_neg thrown,still]
      refine iff_of_false (by simp [appendRun]) ?_
      omega

theorem subName_past {pos : UInt64} (past : name.length < pos.toNat) : getSubName name pos npos = .ok [] := by
  have small := pos.toNat_lt
  have counts : counted name pos npos = (name.length + (2^64 - pos.toNat)) % 2^64 := if_pos rfl
  have wrapped : (pos.toNat + (name.length + (2^64 - pos.toNat)) % 2^64) % 2^64 = name.length := by omega
  have still : name.length - pos.toNat = 0 := by omega
  rw [getSubName_wraps sized,counts,wrapped,if_neg (by omega),still]
  rfl

theorem postfix_position (len skip : UInt64) :
    (name.size - len - skip).toNat = (name.length + (2^64 - len.toNat) + (2^64 - skip.toNat)) % 2^64 := by
  rw [UInt64.toNat_sub,UInt64.toNat_sub,size_toNat sized]
  omega

-- The run over all but the last component.
theorem prefix_run (nonempty : name ≠ []) : getSubName name 0 (name.size - 1) = appendRun name (name.length - 1) 0 [] := by
  have shorter := size_pred sized nonempty
  have request : subNameRequest name.length (0 : UInt64).toNat (lengthOf (name.size - 1)) = some (0,name.length - 1) := by
    rw [lengthOf_below (by omega),shorter]
    exact if_pos (by simp)
  exact (subName_fits sized request).1

end Sized

-- When a sub-name is what was asked for: either the run can be read, or the sum of
-- the two arguments is seen to be too large.
def SubNameSound (name : Name) (pos len : UInt64) : Prop :=
  match subNameRequest name.length pos.toNat (lengthOf len) with
  | some window => Readable name window
  | none => len ≠ npos ∧ (pos.toNat + len.toNat < 2^64 ∨ 2^64 + name.length < pos.toNat + len.toNat)

def PostfixSound (name : Name) (len skip : UInt64) : Prop :=
  if len = npos then
    skip.toNat ≤ name.length ∧ name.take (name.length - skip.toNat) =
      (name.drop (name.length + 1 - skip.toNat)).filter (fun component => decide (component.size ≠ 0))
  else match postfixRequest name.length skip.toNat (some len.toNat) with
    | some window => Readable name window
    | none => name.length < skip.toNat

theorem subName_exact {name : Name} (sized : name.length < 2^64) (pos len : UInt64) :
    Answers name (subNameRequest name.length pos.toNat (lengthOf len)) (getSubName name pos len) ↔
      SubNameSound name pos len := by
  unfold Answers SubNameSound
  cases request : subNameRequest name.length pos.toNat (lengthOf len) with
  | none => exact subName_outside sized request
  | some window =>
    obtain ⟨same,inside⟩ := subName_fits sized request
    rw [same]
    exact appendRun_exact name [] inside

theorem postfix_exact {name : Name} (sized : name.length < 2^64) {len : UInt64} (bounded : len ≠ npos) (skip : UInt64) :
    Answers name (postfixRequest name.length skip.toNat (lengthOf len)) (getPostfix name len skip) ↔
      PostfixSound name len skip := by
  have counts : lengthOf len = some len.toNat := if_neg bounded
  have position := postfix_position sized len skip
  have short := len.toNat_lt
  have small := skip.toNat_lt
  rw [PostfixSound,if_neg bounded,counts,getPostfix]
  by_cases fits : len.toNat + skip.toNat ≤ name.length
  · have same : (name.size - len - skip).toNat = name.length - len.toNat - skip.toNat := by omega
    have moved : name.length - skip.toNat - len.toNat = name.length - len.toNat - skip.toNat := by omega
    have request : subNameRequest name.length (name.size - len - skip).toNat (lengthOf len) =
        some (name.length - len.toNat - skip.toNat,len.toNat) := by
      rw [counts,same,subNameRequest,if_pos (by omega)]
    have exactly := subName_exact sized (name.size - len - skip) len
    rw [SubNameSound,request] at exactly
    simp only [postfixRequest,if_pos fits]
    exact exactly
  · have request : subNameRequest name.length (name.size - len - skip).toNat (lengthOf len) = none := by
      rw [counts,subNameRequest,if_neg]
      omega
    simp only [postfixRequest,if_neg fits,Answers]
    rw [subName_outside sized request]
    constructor
    · intro given
      obtain ⟨_,seen⟩ := given
      omega
    · intro past
      refine ⟨bounded,?_⟩
      omega

theorem get_small {name : Name} {i : ℕ} {component : Component} (found : name[i]? = some component) (small : i < 2^31)
    (sized : name.length < 2^64) : get name (int32 i) = .ok component := by
  obtain ⟨inside,_⟩ := List.getElem?_eq_some_iff.mp found
  have index : (i : Int) % 2^32 = i := by omega
  rw [Wire.int32_small (by omega) (by omega),get,if_neg (by omega)]
  simp only [if_neg (show ¬(i : Int) < 0 by omega),size_toNat sized,index,Int.toNat_natCast,if_neg (not_le.mpr inside)]
  rw [found]

-- Below 2^31 components only the empty ones are lost.
theorem readable_small {name : Name} (sized : name.length ≤ 2^31) {window : ℕ × ℕ}
    (inside : window.1 + window.2 ≤ name.length) :
    Readable name window ↔ ∀ component ∈ (name.drop window.1).take window.2, component.size ≠ 0 := by
  have place : ∀ j, j < window.2 → ((name.drop window.1).take window.2)[j]? = name[window.1 + j]? := by
    intro j below
    rw [List.getElem?_take_of_lt below,List.getElem?_drop]
  constructor
  · intro readable component member
    obtain ⟨j,found⟩ := List.mem_iff_getElem?.mp member
    have below : j < window.2 := by
      have := (List.getElem?_eq_some_iff.mp found).1
      rw [List.length_take] at this
      omega
    obtain ⟨read,here,_,filled⟩ := readable (window.1 + j) (by omega) (by omega)
    rw [place j below,here] at found
    cases found
    exact filled
  · intro filled i first last
    have found : name[i]? = some name[i] := List.getElem?_eq_getElem (by omega)
    refine ⟨name[i],found,get_small found (by omega) (by omega),filled _ ?_⟩
    have at' := place (i - window.1) (by omega)
    rw [Nat.add_sub_cancel' first,found] at at'
    exact List.mem_of_getElem? at'

theorem appendRun_small {name : Name} (sized : name.length ≤ 2^31) {turns i : ℕ} (retval : Name)
    (inside : i + turns ≤ name.length) : appendRun name turns i retval =
      .ok (retval ++ ((name.drop i).take turns).filter (fun component => decide (component.size ≠ 0))) := by
  induction turns generalizing i retval with
  | zero => simp [appendRun]
  | succ turns ih =>
    obtain ⟨component,found⟩ : ∃ component, name[i]? = some component :=
      ⟨name[i],List.getElem?_eq_getElem (by omega)⟩
    rw [window_succ found,appendRun,get_small found (by omega) (by omega),Throwing.ok_bind,ih _ (by omega),append_filter,
      List.append_assoc,← List.filter_append,List.singleton_append]

-- The prefix that the certificate caches and the identity storage key their rows by.
theorem getPrefix_withoutVersion {name : Name} (sized : name.length ≤ 2^31) :
    getPrefix name (name.size - 1) 0 = .ok (Security.withoutVersion name) := by
  by_cases empty : name = []
  · subst empty
    rfl
  · rw [getPrefix,prefix_run (by omega) empty,appendRun_small sized [] (by omega),List.drop_zero,← List.dropLast_eq_take]
    rfl

theorem subName_rest {name : Name} (sized : name.length ≤ 2^31) {pos : UInt64} (before : pos.toNat ≤ name.length) :
    getSubName name pos npos =
      .ok ((name.drop pos.toNat).filter (fun component => decide (component.size ≠ 0))) := by
  have request : subNameRequest name.length pos.toNat (lengthOf npos) = some (pos.toNat,name.length - pos.toNat) :=
    if_pos before
  rw [(subName_fits (show name.length < 2^64 by omega) request).1,appendRun_small sized [] (by simp only; omega)]
  simp [List.take_of_length_le]

theorem postfix_npos {name : Name} (sized : name.length ≤ 2^31) (skip : UInt64) :
    Answers name (postfixRequest name.length skip.toNat (lengthOf npos)) (getPostfix name npos skip) ↔
      PostfixSound name npos skip := by
  have position := postfix_position (show name.length < 2^64 by omega) npos skip
  have small := skip.toNat_lt
  have top : npos.toNat = 2^64 - 1 := rfl
  have whole : (name.length + (2^64 - npos.toNat) + (2^64 - skip.toNat)) % 2^64 =
      (name.length + 1 + (2^64 - skip.toNat)) % 2^64 := by omega
  rw [whole] at position
  rw [PostfixSound,if_pos rfl,getPostfix]
  by_cases fits : skip.toNat ≤ name.length
  · have request : postfixRequest name.length skip.toNat (lengthOf npos) = some (0,name.length - skip.toNat) := if_pos fits
    rw [request,Answers,List.drop_zero]
    have taken : getSubName name (name.size - npos - skip) npos =
        .ok ((name.drop (name.length + 1 - skip.toNat)).filter (fun component => decide (component.size ≠ 0))) := by
      rcases Nat.eq_zero_or_pos skip.toNat with none | some
      · rw [subName_past (by omega) (by omega),List.drop_eq_nil_of_le (by omega)]
        rfl
      · rw [subName_rest sized (by omega),position]
        congr 3
        omega
    rw [taken,Except.ok.injEq]
    exact ⟨fun same => ⟨fits,same.symm⟩,fun given => given.2.symm⟩
  · have request : postfixRequest name.length skip.toNat (lengthOf npos) = none := if_neg fits
    rw [request,Answers]
    refine iff_of_false ?_ (fun given => fits given.1)
    rcases Nat.lt_or_ge name.length (name.size - npos - skip).toNat with past | before
    · rw [subName_past (by omega) past]
      simp
    · rw [subName_rest sized before]
      simp

theorem slicing_exact (name : Name) (sized : name.length < 2^64) :
    (∀ pos len, Answers name (subNameRequest name.length pos.toNat (lengthOf len)) (getSubName name pos len) ↔
      SubNameSound name pos len) ∧
    (∀ len skip, Answers name (subNameRequest name.length skip.toNat (lengthOf len)) (getPrefix name len skip) ↔
      SubNameSound name skip len) ∧
    (∀ len skip, len ≠ npos ∨ name.length ≤ 2^31 →
      (Answers name (postfixRequest name.length skip.toNat (lengthOf len)) (getPostfix name len skip) ↔
        PostfixSound name len skip)) := by
  refine ⟨subName_exact sized,fun len skip => subName_exact sized skip len,?_⟩
  intro len skip given
  by_cases whole : len = npos
  · subst whole
    exact postfix_npos (given.resolve_left (fun apart => apart rfl)) skip
  · exact postfix_exact sized whole skip

theorem slicing_exact_pair : Answers [⟨[0x61]⟩,⟨[0x62]⟩] (postfixRequest 2 1 (lengthOf 1))
      (getPostfix [⟨[0x61]⟩,⟨[0x62]⟩] 1 1) ↔ PostfixSound [⟨[0x61]⟩,⟨[0x62]⟩] 1 1 :=
  (slicing_exact [⟨[0x61]⟩,⟨[0x62]⟩] (by decide)).2.2 1 1 (.inl (by decide))

-- Two components are asked of a name that has one, and a run from behind the end:
-- neither throws.
theorem outside_unnoticed : getPostfix [⟨[0x61]⟩] 2 0 = .ok [] ∧ postfixRequest 1 0 (lengthOf 2) = none ∧
    getSubName [⟨[0x61]⟩] 5 npos = .ok [] ∧ subNameRequest 1 5 (lengthOf npos) = none ∧
    ¬Answers [⟨[0x61]⟩] (postfixRequest 1 0 (lengthOf 2)) (getPostfix [⟨[0x61]⟩] 2 0) := by
  have taken : getPostfix [⟨[0x61]⟩] 2 0 = .ok [] := by decide
  refine ⟨taken,by decide,by decide,by decide,?_⟩
  rw [taken]
  intro answers
  obtain ⟨msg,pos,thrown⟩ := answers
  cases thrown

end Name
end NdnCxx
