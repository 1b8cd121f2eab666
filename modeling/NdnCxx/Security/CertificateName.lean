import NdnCxx.NameSlicing

namespace NdnCxx.Security
open Wire (int32 int32_small)
open Name (SliceError getSubName getPrefix append appendRun appendVersion nversion npos)
open Throwing

-- `SecException` with its text, or what the functions of a name throw.
inductive NameFailure where
  | secException (msg : String)
  | slice (thrown : SliceError)
  deriving DecidableEq, Repr

def appendAll (name comp : Name) : Name := comp.foldl append name

-- The loop for ID-CERT, from the end; its index is an `int` and ends at -1.
def idIndexFrom (name : Name) : ℕ → Except SliceError Int
  | 0 => .ok (-1)
  | i+1 => do
    let component ← Name.get name i
    if component.toUri = idString then return i else idIndexFrom name i

def idIndex (name : Name) : Except SliceError Int :=
  let i := int32 ((name.size - 1).toNat : Int)
  if i < 0 then .ok i else idIndexFrom name (i.toNat + 1)

-- The loop for KEY, from the front.
def keyIndexFrom (name : Name) : ℕ → ℕ → Except SliceError ℕ
  | 0,keyIdx => .ok keyIdx
  | turns+1,keyIdx => do
    let component ← Name.get name (int32 keyIdx)
    if component.toUri = keyString then return keyIdx else keyIndexFrom name turns (keyIdx + 1)

def keyIndex (name : Name) : Except SliceError ℕ := keyIndexFrom name name.length 0

-- `isCorrectName` with the integers of its loops.
def correctName (name : Name) : Except SliceError Bool := do
  let i ← idIndex name
  if i < 0 then return false
  else
    let keyIdx ← keyIndex name
    return decide (keyIdx < name.length)

-- What is stored as the public key name.
def setPublicKeyName (certificateName : Name) : Except SliceError Name := do
  let i ← idIndex certificateName
  let tmpName ← getSubName certificateName 0 (UInt64.ofInt i)
  let i ← keyIndex tmpName
  let front ← getSubName tmpName 0 (UInt64.ofNat i)
  let rest ← getSubName tmpName (UInt64.ofNat (i + 1)) (tmpName.size - UInt64.ofNat i - 1)
  return appendAll front rest

def setName (name : Name) : Except NameFailure Name := do
  let correct ← (correctName name).mapError .slice
  if correct then (setPublicKeyName name).mapError .slice
  else .error (.secException "Wrong Identity Certificate Name!")

def certificateNameToPublicKeyName (certName : Name) (hasVersion : Bool) : Except SliceError Name := do
  let baseName ← if hasVersion then getPrefix certName (certName.size - 1) 0 else .ok certName
  let keyId ← keyIndex baseName
  if keyId ≥ baseName.length then return []
  else
    let keyName ← getSubName baseName 0 (UInt64.ofNat keyId)
    let rest ← getSubName baseName (UInt64.ofNat (keyId + 1)) (baseName.size - 2 - UInt64.ofNat keyId)
    return appendAll keyName rest

-- The name that `selfSign` gives the certificate of a key.
def selfSignName (now : Int) (keyName : Name) : Except SliceError Name := do
  let certificateName ← getSubName keyName 0 (keyName.size - 1)
  let last ← Name.get keyName (int32 ((keyName.size - 1).toNat : Int))
  return appendVersion now (append (append (append certificateName ⟨keyString⟩) last) ⟨idString⟩) nversion

def idMark : Component := ⟨idString⟩

def keyMark : Component := ⟨keyString⟩

theorem marks_apart : keyMark ≠ idMark := by decide

-- The components that are not empty, which is all that the name functions append.
def filled (name : Name) : Name := name.filter (fun component => decide (component.size ≠ 0))

theorem idMark_uri {component : Component} : component.toUri = idString ↔ component = idMark := by
  have mark : idMark.toUri = idString := by decide
  rw [← mark]
  exact ⟨Component.toUri_injective,fun same => by rw [same]⟩

theorem keyMark_uri {component : Component} : component.toUri = keyString ↔ component = keyMark := by
  have mark : keyMark.toUri = keyString := by decide
  rw [← mark]
  exact ⟨Component.toUri_injective,fun same => by rw [same]⟩

section Filled
variable {name comp : Name}

theorem filled_append (front back : Name) : filled (front ++ back) = filled front ++ filled back := List.filter_append ..

theorem filled_filled (name : Name) : filled (filled name) = filled name := by simp [filled]

theorem filled_self : filled name = name ↔ ∀ component ∈ name, component.size ≠ 0 := by
  rw [filled,List.filter_eq_self]
  exact forall₂_congr (fun _ _ => decide_eq_true_iff)

theorem filled_window (whole : filled name = name) (pos len : ℕ) : filled ((name.drop pos).take len) = (name.drop pos).take len :=
  filled_self.mpr (fun component member => filled_self.mp whole component (List.mem_of_mem_drop (List.mem_of_mem_take member)))

theorem append_filled (name : Name) (component : Component) : append name component = name ++ filled [component] :=
  Name.append_filter name component

theorem appendAll_filled (name comp : Name) : appendAll name comp = name ++ filled comp := by
  unfold appendAll
  induction comp generalizing name with
  | nil => simp [filled]
  | cons component comp ih =>
    rw [List.foldl_cons,ih,append_filled,List.append_assoc,← filled_append,List.singleton_append]

theorem filled_length (name : Name) : (filled name).length ≤ name.length := List.length_filter_le ..

theorem filled_id (name : Name) : filled (idMark :: name) = idMark :: filled name := List.filter_cons_of_pos (by decide)

theorem filled_key (name : Name) : filled (keyMark :: name) = keyMark :: filled name := List.filter_cons_of_pos (by decide)

theorem mem_filled_key (name : Name) : keyMark ∈ filled name ↔ keyMark ∈ name := by
  simp [filled,Component.size,keyMark,keyString]

end Filled

section Small
variable {name : Name} (small : name.length ≤ 2^31)
include small

theorem get_within {i : ℕ} {component : Component} (found : name[i]? = some component) : Name.get name i = .ok component := by
  have inside := (List.getElem?_eq_some_iff.mp found).1
  have got := Name.get_small found (by omega) (by omega)
  rwa [int32_small (by omega) (by omega)] at got

theorem subName_window {pos len : ℕ} (inside : pos + len ≤ name.length) :
    getSubName name (UInt64.ofNat pos) (UInt64.ofNat len) = .ok (filled ((name.drop pos).take len)) := by
  have position : (UInt64.ofNat pos).toNat = pos := UInt64.toNat_ofNat_of_lt (show pos < 2^64 by omega)
  have length : (UInt64.ofNat len).toNat = len := UInt64.toNat_ofNat_of_lt (show len < 2^64 by omega)
  have request : Name.subNameRequest name.length (UInt64.ofNat pos).toNat (Name.lengthOf (UInt64.ofNat len)) = some (pos,len) := by
    rw [Name.lengthOf_below (by omega),position,length]
    exact if_pos inside
  rw [(Name.subName_fits (show name.length < 2^64 by omega) request).1,Name.appendRun_small small [] inside]
  rfl

theorem keyIndexFrom_spec : ∀ turns keyIdx, keyIdx + turns = name.length →
    keyIndexFrom name turns keyIdx = .ok (keyIdx + (name.drop keyIdx).idxOf keyMark) := by
  intro turns
  induction turns with
  | zero =>
    intro keyIdx done
    rw [List.drop_eq_nil_of_le (by omega)]
    rfl
  | succ turns ih =>
    intro keyIdx more
    have found : name[keyIdx]? = some name[keyIdx] := List.getElem?_eq_getElem (by omega)
    rw [keyIndexFrom,Name.get_small found (by omega) (by omega),ok_bind,List.drop_eq_getElem_cons (by omega),List.idxOf_cons]
    by_cases marked : name[keyIdx] = keyMark
    · rw [if_pos (keyMark_uri.mpr marked)]
      simp [marked]
    · rw [if_neg (fun uri => marked (keyMark_uri.mp uri)),ih (keyIdx + 1) (by omega)]
      have apart : (name[keyIdx] == keyMark) = false := beq_eq_false_iff_ne.mpr marked
      rw [apart]
      simp only [cond_false]
      congr 1
      omega

theorem keyIndex_spec : keyIndex name = .ok (name.idxOf keyMark) := by
  rw [keyIndex,keyIndexFrom_spec small name.length 0 (by omega)]
  simp

-- Going back over what is behind the last ID-CERT.
theorem idIndexFrom_spec {before after : Name} (split : name = before ++ idMark :: after) (last : idMark ∉ after) :
    ∀ back, back ≤ after.length → idIndexFrom name (before.length + 1 + back) = .ok (before.length : Int) := by
  intro back
  have length : name.length = before.length + (after.length + 1) := by rw [split,List.length_append,List.length_cons]
  induction back with
  | zero =>
    intro _
    have found : name[before.length]? = some idMark := by simp [split]
    rw [Nat.add_zero,idIndexFrom,get_within small found,ok_bind,if_pos (idMark_uri.mpr rfl)]
    rfl
  | succ back ih =>
    intro inside
    have found : name[before.length + 1 + back]? = some after[back] := by
      rw [split,List.getElem?_append_right (by omega)]
      have shift : before.length + 1 + back - before.length = back + 1 := by omega
      rw [shift,List.getElem?_cons_succ]
      exact List.getElem?_eq_getElem (by omega)
    have apart : after[back] ≠ idMark := by
      intro same
      exact last (same ▸ List.getElem_mem _)
    rw [← Nat.add_assoc,idIndexFrom,get_within small found,ok_bind,if_neg (fun uri => apart (idMark_uri.mp uri))]
    exact ih (by omega)

theorem idIndexFrom_absent (absent : idMark ∉ name) : ∀ i, i ≤ name.length → idIndexFrom name i = .ok (-1) := by
  intro i
  induction i with
  | zero => exact fun _ => rfl
  | succ i ih =>
    intro inside
    have found : name[i]? = some name[i] := List.getElem?_eq_getElem (by omega)
    have apart : name[i] ≠ idMark := by
      intro same
      exact absent (same ▸ List.getElem_mem _)
    rw [idIndexFrom,get_within small found,ok_bind,if_neg (fun uri => apart (idMark_uri.mp uri))]
    exact ih (by omega)

-- The first index is that of the last component, or -1.
theorem idIndex_start (nonempty : name ≠ []) : idIndex name = idIndexFrom name name.length := by
  have positive := List.length_pos_iff.mpr nonempty
  have start := Name.size_pred (show name.length < 2^64 by omega) nonempty
  have index : int32 ((name.length - 1 : ℕ) : Int) = ((name.length - 1 : ℕ) : Int) := int32_small (by omega) (by omega)
  rw [idIndex,start,index]
  simp only [Int.toNat_natCast,if_neg (show ¬((name.length - 1 : ℕ) : Int) < 0 by omega)]
  rw [Nat.sub_add_cancel positive]

theorem idIndex_spec {before after : Name} (split : name = before ++ idMark :: after) (last : idMark ∉ after) :
    idIndex name = .ok (before.length : Int) := by
  have length : name.length = before.length + 1 + after.length := by
    rw [split,List.length_append,List.length_cons]
    omega
  have nonempty : name ≠ [] := by
    rintro rfl
    simp at length
    omega
  rw [idIndex_start small nonempty,length]
  exact idIndexFrom_spec small split last after.length le_rfl

theorem idIndex_absent (absent : idMark ∉ name) : idIndex name = .ok (-1) := by
  by_cases empty : name = []
  · subst empty
    decide +kernel
  · rw [idIndex_start small empty]
    exact idIndexFrom_absent small absent name.length le_rfl

end Small

theorem split_last {name : Name} (member : idMark ∈ name) : ∃ before after, name = before ++ idMark :: after ∧ idMark ∉ after := by
  induction name with
  | nil => cases member
  | cons component name ih =>
    by_cases later : idMark ∈ name
    · obtain ⟨before,after,rest,last⟩ := ih later
      exact ⟨component :: before,after,by rw [rest,List.cons_append],last⟩
    · have same := (List.mem_cons.mp member).resolve_right later
      exact ⟨[],name,by rw [same,List.nil_append],later⟩

-- Both markers in any order, anywhere: the existing reading of `isCorrectName`.
theorem correctName_spec {name : Name} (small : name.length ≤ 2^31) :
    correctName name = .ok (decide (idMark ∈ name ∧ keyMark ∈ name)) := by
  by_cases id : idMark ∈ name
  · obtain ⟨before,after,split,last⟩ := split_last id
    rw [correctName,idIndex_spec small split last]
    simp only [ok_bind,if_neg (show ¬((before.length : ℕ) : Int) < 0 by omega),keyIndex_spec small,pure_ok,
      List.idxOf_lt_length_iff,id,true_and]
  · rw [correctName,idIndex_absent small id]
    simp [id]

theorem correctName_any {name : Name} (small : name.length ≤ 2^31) : correctName name = .ok (isCorrectName name) := by
  rw [correctName_spec small]
  congr 1
  rw [Bool.eq_iff_iff]
  simp [isCorrectName,idMark_uri,keyMark_uri]

end NdnCxx.Security
