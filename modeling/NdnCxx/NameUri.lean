import NdnCxx.Wire.Visitor

namespace NdnCxx
open Wire (NonEmptyComponents)

-- The text a `boost::exception` carries: a literal of the source or a part of the input.
inductive Message where
  | text (literal : String)
  | bytes (input : Blob)
  deriving DecidableEq, Repr

inductive UriError where
  | uri (pos : ℤ)
  | component (msg : Blob) (pos : ℤ)
  | name (msg : Message)
  deriving DecidableEq, Repr

def slash : UInt8 := 0x2F

def percent : UInt8 := 0x25

def hexTable : List ℤ := [
  -1,-1,-1,-1,-1,-1,-1,-1,-1,-1,-1,-1,-1,-1,-1,-1,
  -1,-1,-1,-1,-1,-1,-1,-1,-1,-1,-1,-1,-1,-1,-1,-1,
  -1,-1,-1,-1,-1,-1,-1,-1,-1,-1,-1,-1,-1,-1,-1,-1,
  0,1,2,3,4,5,6,7,8,9,-1,-1,-1,-1,-1,-1,
  -1,10,11,12,13,14,15,-1,-1,-1,-1,-1,-1,-1,-1,-1,
  -1,-1,-1,-1,-1,-1,-1,-1,-1,-1,-1,-1,-1,-1,-1,-1,
  -1,10,11,12,13,14,15,-1,-1,-1,-1,-1,-1,-1,-1,-1,
  -1,-1,-1,-1,-1,-1,-1,-1,-1,-1,-1,-1,-1,-1,-1,-1]

-- `hex_to_4_bit`; a negative character is large as an unsigned one. `none` is the
-- `StringTransform` exception.
def hexTo4Bit (ch : UInt8) : Option ℕ :=
  if ch.toNat < 128 then
    let value := hexTable.getD ch.toNat (-1)
    if value = -1 then none else some value.toNat
  else none

-- `Uri::fromEscaped`, from `offset` bytes after its begin. After a percent sign the
-- iterator has moved by three when the exception is caught. Past the end of a
-- component stands a slash or the closing zero of the string, and neither is a digit.
def fromEscapedAt (offset : ℕ) : Blob → Except UriError Blob
  | [] => .ok []
  | byte :: rest =>
    if byte = percent then
      match rest with
      | high :: low :: rest =>
        match hexTo4Bit high,hexTo4Bit low with
        | some highBits,some lowBits => do
          let others ← fromEscapedAt (offset + 3) rest
          return UInt8.ofNat (highBits * 16 + lowBits) :: others
        | _,_ => .error (.uri (-(offset + 3)))
      | _ => .error (.uri (-(offset + 3)))
    else if escapes byte then .error (.uri (-offset))
    else do
      let others ← fromEscapedAt (offset + 1) rest
      return byte :: others

def fromEscaped (uri : Blob) : Except UriError Blob := fromEscapedAt 0 uri

def Component.fromUri (uri : Blob) : Except UriError Component :=
  match fromEscaped uri with
  | .ok bytes => .ok ⟨bytes⟩
  | .error (.uri pos) => .error (.component uri pos)
  | .error other => .error other

namespace Name

def append (name : Name) (component : Component) : Name :=
  if component.size ≠ 0 then name ++ [component] else name

def toUri (name : Name) : Blob :=
  name.flatMap (fun component => slash :: component.toUri) ++ (if name.length = 0 then [slash] else [])

theorem skipped_slashes {i rest : Blob} {first : UInt8} (skipped : i.dropWhile (· == slash) = first :: rest) :
    (first != slash) = true := by
  have head := List.head_dropWhile_not (· == slash) (l := i) (by simp [skipped])
  simpa [skipped] using head

theorem component_shorter {i rest : Blob} {first : UInt8} (skipped : i.dropWhile (· == slash) = first :: rest) :
    ((first :: rest).dropWhile (· != slash)).length < i.length := by
  have shorter := (List.dropWhile_sublist (· == slash) (l := i)).length_le
  have more := (List.dropWhile_sublist (· != slash) (l := rest)).length_le
  rw [skipped,List.length_cons] at shorter
  rw [List.dropWhile_cons,if_pos (skipped_slashes skipped)]
  omega

-- The loop over the components, at the iterator `i`.
def readComponents (name : Name) (i : Blob) : Except UriError Name :=
  match skipped : i.dropWhile (· == slash) with
  | [] => .ok name
  | first :: rest =>
    have := component_shorter skipped
    do
      let component ← Component.fromUri ((first :: rest).takeWhile (· != slash))
      readComponents (append name component) ((first :: rest).dropWhile (· != slash))
termination_by i.length
decreasing_by exact this

def toLower (ch : UInt8) : UInt8 := if 0x41 ≤ ch ∧ ch ≤ 0x5A then ch + 0x20 else ch

def iequals (left right : Blob) : Bool := left.map toLower == right.map toLower

-- What precedes the first slash is the schema.
def checkSchema (schema : Blob) : Except UriError Unit :=
  if schema = [] then .ok ()
  else if schema.getLast? ≠ some 0x3A then
    .error (.name (.text "First component of the name does not start with a slash (did you forget to specify initial /?)"))
  else if iequals schema [0x6E,0x64,0x6E,0x3A] then .ok ()
  else .error (.name (.bytes schema))

-- An authority after two slashes is skipped up to the next slash.
def skipAuthority : Blob → Blob
  | first :: second :: rest => if second = slash then rest.dropWhile (· != slash) else first :: second :: rest
  | i => i

def fromUri (uri : Blob) : Except UriError Name :=
  let firstSlash := uri.dropWhile (· != slash)
  if firstSlash = [] then
    .error (.name (.text "Name should include at least one slash (did you forget to specify initial /?)"))
  else do
    checkSchema (uri.takeWhile (· != slash))
    let i := skipAuthority firstSlash
    if i = [] then .error (.name (.bytes uri)) else readComponents [] i

end Name

theorem hexTo4Bit_lookup {nibble : ℕ} (small : nibble < 16) : hexTo4Bit (lookupTable nibble) = some nibble := by
  interval_cases nibble <;> rfl

theorem lookup_not_slash {nibble : ℕ} (small : nibble < 16) : lookupTable nibble ≠ slash := by
  interval_cases nibble <;> decide

theorem percent_escapes : escapes percent = true := rfl

theorem slash_plain : escapes slash = false := rfl

theorem fromEscapedAt_plain (offset : ℕ) {byte : UInt8} (rest : Blob) (plain : ¬escapes byte = true) :
    fromEscapedAt offset (byte :: rest) = (fromEscapedAt (offset + 1) rest).map (byte :: ·) := by
  have other : byte ≠ percent := fun same => plain (same ▸ percent_escapes)
  rcases rest with _ | ⟨high,_ | ⟨low,rest⟩⟩
  · simp [fromEscapedAt,other,plain,bind,Except.bind,pure,Except.pure,Except.map]
  · simp only [fromEscapedAt,if_neg other,if_neg plain]
    rfl
  · rw [fromEscapedAt,if_neg other,if_neg plain]
    rfl

theorem fromEscapedAt_toEscaped (offset : ℕ) (bytes : Blob) : fromEscapedAt offset (toEscaped bytes) = .ok bytes := by
  induction bytes generalizing offset with
  | nil => rfl
  | cons byte rest ih =>
    have bound := byte.toNat_lt
    rw [toEscaped]
    split
    · have nibbles : byte.toNat / 16 % 16 * 16 + byte.toNat % 16 = byte.toNat := by omega
      have high := hexTo4Bit_lookup (Nat.mod_lt (byte.toNat / 16) (show 0 < 16 by decide))
      have low := hexTo4Bit_lookup (Nat.mod_lt byte.toNat (show 0 < 16 by decide))
      simp only [fromEscapedAt,percent,if_true,high,low,ih,nibbles,UInt8.ofNat_toNat]
      rfl
    · rename_i plain
      rw [fromEscapedAt_plain offset _ plain,ih]
      rfl

theorem component_roundtrip (bytes : Blob) : Component.fromUri (toEscaped bytes) = .ok ⟨bytes⟩ := by
  rw [Component.fromUri,fromEscaped,fromEscapedAt_toEscaped]

theorem Component.toUri_injective {first second : Component} (same : first.toUri = second.toUri) : first = second := by
  have left := component_roundtrip first.bytes
  have right := component_roundtrip second.bytes
  rw [← Component.toUri] at left right
  rw [same,right] at left
  exact (Except.ok.inj left).symm

theorem toEscaped_append (left right : Blob) : toEscaped (left ++ right) = toEscaped left ++ toEscaped right := by
  induction left with
  | nil => rfl
  | cons byte left ih =>
    simp only [List.cons_append,toEscaped,ih]
    split <;> simp

-- Escaping keeps the slashes where they are: it neither writes nor removes one.
theorem toEscaped_slash (bytes : Blob) :
    (toEscaped bytes).takeWhile (· != slash) = toEscaped (bytes.takeWhile (· != slash)) ∧
      (toEscaped bytes).dropWhile (· != slash) = toEscaped (bytes.dropWhile (· != slash)) := by
  induction bytes with
  | nil => exact ⟨rfl,rfl⟩
  | cons byte rest ih =>
    by_cases same : byte = slash
    · subst same
      simp [toEscaped,slash_plain]
    · have high := lookup_not_slash (Nat.mod_lt (byte.toNat / 16) (show 0 < 16 by decide))
      have low := lookup_not_slash (Nat.mod_lt byte.toNat (show 0 < 16 by decide))
      have sign : (0x25 : UInt8) ≠ slash := by decide
      by_cases escaped : escapes byte = true
      · simp [toEscaped,escaped,same,high,low,sign,ih]
      · simp [toEscaped,escaped,same,ih]

theorem toEscaped_skip (bytes : Blob) :
    (toEscaped bytes).dropWhile (· == slash) = toEscaped (bytes.dropWhile (· == slash)) := by
  induction bytes with
  | nil => rfl
  | cons byte rest ih =>
    by_cases same : byte = slash
    · subst same
      simp [toEscaped,slash_plain,ih]
    · have sign : (0x25 : UInt8) ≠ slash := by decide
      by_cases escaped : escapes byte = true
      · simp [toEscaped,escaped,same,sign]
      · simp [toEscaped,escaped,same]

theorem toEscaped_nil {bytes : Blob} : toEscaped bytes = [] ↔ bytes = [] := by
  cases bytes with
  | nil => simp [toEscaped]
  | cons byte rest =>
    simp only [toEscaped,reduceCtorEq,iff_false]
    split <;> simp

namespace Name

-- The name with its slashes, before escaping.
def plain (name : Name) : Blob := name.flatMap (fun component => slash :: component.bytes)

theorem toUri_escaped (name : Name) : toUri name = toEscaped (plain name ++ if name.length = 0 then [slash] else []) := by
  have joined : ∀ name : Name, name.flatMap (fun component => slash :: component.toUri) = toEscaped (plain name) := by
    intro name
    induction name with
    | nil => rfl
    | cons component name ih =>
      rw [plain,List.flatMap_cons,List.flatMap_cons,ih,List.cons_append,List.cons_append,toEscaped,slash_plain]
      rw [toEscaped_append]
      rfl
  rw [toUri,joined,toEscaped_append]
  split <;> rfl

theorem readComponents_done (name : Name) {raw : Blob} (skipped : raw.dropWhile (· == slash) = []) :
    readComponents name (toEscaped raw) = .ok name := by
  have empty : (toEscaped raw).dropWhile (· == slash) = [] := by rw [toEscaped_skip,skipped,toEscaped]
  rw [readComponents]
  split
  · rfl
  · rename_i found
    rw [empty] at found
    cases found

theorem readComponents_next (name : Name) {raw : Blob} (more : raw.dropWhile (· == slash) ≠ []) :
    readComponents name (toEscaped raw) =
      readComponents (append name ⟨(raw.dropWhile (· == slash)).takeWhile (· != slash)⟩)
        (toEscaped ((raw.dropWhile (· == slash)).dropWhile (· != slash))) := by
  have skipped := toEscaped_skip raw
  rw [readComponents]
  split
  · rename_i found
    exact absurd (toEscaped_nil.mp (skipped.symm.trans found)) more
  · rename_i first rest found
    dsimp only
    rw [← found,skipped,(toEscaped_slash _).1,(toEscaped_slash _).2,component_roundtrip]
    rfl

def SlashFree (name : Name) : Prop := ∀ component ∈ name, slash ∉ component.bytes

theorem append_slashFree {name : Name} {component : Component} (free : SlashFree name) (bytes : slash ∉ component.bytes) :
    SlashFree (append name component) := by
  unfold append
  split
  · intro other member
    rcases List.mem_append.mp member with old | new
    · exact free other old
    · rw [List.mem_singleton.mp new]
      exact bytes
  · exact free

-- Whatever is read back was cut at every slash.
theorem readComponents_slashFree {name result : Name} (raw : Blob) (free : SlashFree name)
    (read : readComponents name (toEscaped raw) = .ok result) : SlashFree result := by
  induction length : raw.length using Nat.strong_induction_on generalizing name raw with
  | _ n ih =>
    by_cases more : raw.dropWhile (· == slash) = []
    · rw [readComponents_done name more] at read
      cases read
      exact free
    · rw [readComponents_next name more] at read
      obtain ⟨first,rest,found⟩ := List.exists_cons_of_ne_nil more
      have shorter := component_shorter found
      rw [← found,length] at shorter
      refine ih _ shorter _ (append_slashFree free ?_) read rfl
      intro member
      simpa using List.mem_takeWhile_imp member

theorem takeWhile_component {bytes : Blob} (tail : Blob) (free : slash ∉ bytes) :
    (bytes ++ slash :: tail).takeWhile (· != slash) = bytes ∧
      (bytes ++ slash :: tail).dropWhile (· != slash) = slash :: tail := by
  have all : ∀ byte ∈ bytes, (byte != slash) = true := by
    intro byte member
    simp only [bne_iff_ne,ne_eq]
    exact fun same => free (same ▸ member)
  rw [List.takeWhile_append_of_pos all,List.dropWhile_append_of_pos all]
  simp

-- The iterator stands at the slash before a component; `tail` is empty or starts
-- at the next slash.
theorem readComponents_component (name : Name) {component : Component} (tail : Name) (free : slash ∉ component.bytes)
    (filled : component.bytes ≠ []) :
    readComponents name (toEscaped (plain (component :: tail))) =
      readComponents (name ++ [component]) (toEscaped (plain tail)) := by
  obtain ⟨byte,others,bytes⟩ := List.exists_cons_of_ne_nil filled
  have head : byte ≠ slash := fun same => free (by simp [bytes,same])
  have skipped : (plain (component :: tail)).dropWhile (· == slash) = component.bytes ++ plain tail := by
    simp [plain,bytes,head]
  have cut : (component.bytes ++ plain tail).takeWhile (· != slash) = component.bytes ∧
      (component.bytes ++ plain tail).dropWhile (· != slash) = plain tail := by
    cases tail with
    | nil =>
      have all : ∀ byte ∈ component.bytes, (byte != slash) = true := by
        intro byte member
        simp only [bne_iff_ne,ne_eq]
        exact fun same => free (same ▸ member)
      simp only [plain,List.flatMap_nil,List.append_nil]
      exact ⟨List.takeWhile_eq_self_iff.mpr all,List.dropWhile_eq_nil_iff.mpr all⟩
    | cons next tail => exact takeWhile_component _ free
  rw [readComponents_next name (by simp [skipped,filled]),skipped,cut.1,cut.2,append,if_pos]
  simpa [Component.size] using filled

theorem readComponents_name (name tail : Name) (free : SlashFree tail) (filled : NonEmptyComponents tail) :
    readComponents name (toEscaped (plain tail)) = .ok (name ++ tail) := by
  induction tail generalizing name with
  | nil =>
    rw [readComponents_done name rfl,List.append_nil]
  | cons component tail ih =>
    rw [readComponents_component name tail (free component (.head _)) (filled component (.head _)),
      ih _ (fun other member => free other (.tail _ member)) (fun other member => filled other (.tail _ member)),
      List.append_assoc]
    rfl

-- Everything up to the component loop, on a text that starts with a slash.
theorem fromUri_slash (raw : Blob) : fromUri (toEscaped (slash :: raw)) =
    if (skipAuthority (slash :: raw)) = [] then .error (.name (.bytes (toEscaped (slash :: raw))))
    else readComponents [] (toEscaped (skipAuthority (slash :: raw))) := by
  have first : toEscaped (slash :: raw) = slash :: toEscaped raw := by rw [toEscaped,slash_plain]; rfl
  have skipped : skipAuthority (slash :: toEscaped raw) = toEscaped (skipAuthority (slash :: raw)) := by
    cases raw with
    | nil => rfl
    | cons byte rest =>
      by_cases same : byte = slash
      · subst same
        simpa [toEscaped,slash_plain,skipAuthority] using (toEscaped_slash rest).2
      · have sign : (0x25 : UInt8) ≠ slash := by decide
        by_cases escaped : escapes byte = true
        · simp [toEscaped,slash_plain,escaped,skipAuthority,same,sign]
        · simp [toEscaped,slash_plain,escaped,skipAuthority,same]
  rw [first,fromUri]
  simp only [List.dropWhile_cons,List.takeWhile_cons,bne_self_eq_false,Bool.false_eq_true,if_false,reduceCtorEq,
    checkSchema,if_true,skipped,toEscaped_nil]
  rfl

theorem fromUri_slashFree {raw : Blob} {result : Name} (read : fromUri (toEscaped (slash :: raw)) = .ok result) :
    SlashFree result := by
  rw [fromUri_slash] at read
  split at read
  · cases read
  · exact readComponents_slashFree _ (fun _ member => by cases member) read

theorem fromUri_toUri {name : Name} (nonempty : NonEmptyComponents name) (free : SlashFree name) :
    fromUri (toUri name) = .ok name := by
  rw [toUri_escaped]
  cases name with
  | nil =>
    have root : fromUri (toEscaped (slash :: [])) = .ok [] := by
      rw [fromUri_slash,if_neg (by simp [skipAuthority])]
      exact readComponents_done [] rfl
    simpa [plain] using root
  | cons component tail =>
    have start : plain (component :: tail) = slash :: (component.bytes ++ plain tail) := by simp [plain]
    obtain ⟨byte,others,bytes⟩ := List.exists_cons_of_ne_nil (nonempty component (.head _))
    have head : byte ≠ slash := fun same => free component (.head _) (by simp [bytes,same])
    have unskipped : skipAuthority (slash :: (component.bytes ++ plain tail)) = plain (component :: tail) := by
      simp [bytes,skipAuthority,head,plain]
    simp only [List.length_cons,Nat.add_one_ne_zero,if_false,List.append_nil]
    rw [start,fromUri_slash,unskipped,if_neg (by simp [plain]),readComponents_name [] _ free nonempty,List.nil_append]

theorem uri_roundtrip_exact (name : Name) (nonempty : NonEmptyComponents name) :
    fromUri (toUri name) = .ok name ↔ ∀ component ∈ name, slash ∉ component.bytes := by
  constructor
  · intro read
    cases name with
    | nil => simp
    | cons component tail =>
      have start : plain (component :: tail) = slash :: (component.bytes ++ plain tail) := by simp [plain]
      rw [toUri_escaped,if_neg (by simp),List.append_nil,start] at read
      exact fromUri_slashFree read
  · exact fun free => fromUri_toUri nonempty free

theorem uri_roundtrip_exact_sample : fromUri (toUri [⟨[0x61,0x25,0x00,0xFF]⟩,⟨[0x3A]⟩]) =
    .ok [⟨[0x61,0x25,0x00,0xFF]⟩,⟨[0x3A]⟩] :=
  (uri_roundtrip_exact [⟨[0x61,0x25,0x00,0xFF]⟩,⟨[0x3A]⟩] (by simp [NonEmptyComponents])).mpr (by decide)

-- The escape table leaves the slash alone: `a/b` comes back as two components.
theorem slash_component_splits : NonEmptyComponents [⟨[0x61,0x2F,0x62]⟩] ∧
    fromUri (toUri [⟨[0x61,0x2F,0x62]⟩]) = .ok [⟨[0x61]⟩,⟨[0x62]⟩] := by
  have nonempty : NonEmptyComponents [⟨[0x61]⟩,⟨[0x62]⟩] := by simp [NonEmptyComponents]
  have free : SlashFree [⟨[0x61]⟩,⟨[0x62]⟩] := by simp [SlashFree,slash]
  exact ⟨by simp [NonEmptyComponents],fromUri_toUri nonempty free⟩

end Name
end NdnCxx
