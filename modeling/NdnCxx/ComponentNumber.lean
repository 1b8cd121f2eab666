import NdnCxx.ComponentOrder
import NdnCxx.Der.Header
import NdnCxx.NameUri

namespace NdnCxx.Component

-- The loop that `toNumber` and `toNumberWithMarker` share.
def readBytes (bytes : Blob) : UInt64 := bytes.foldl (fun ret i => ret <<< 8 ||| i.toUInt64) 0

def toNumber (c : Component) : UInt64 := readBytes c.bytes

-- `error::name::Component` with a message alone, the parts of one string.
structure MarkerError where
  msg : List Message
  deriving DecidableEq, Repr

def toNumberWithMarker (marker : UInt8) (c : Component) : Except MarkerError UInt64 :=
  match c.bytes with
  | [] => .error ⟨[.text "Name component does not have required marker [",.bytes c.toUri,.text "]"]⟩
  | first :: bytes =>
    if first ≠ marker then
      .error ⟨[.text "Name component does not have required marker [",.bytes c.toUri,.text "]"]⟩
    else .ok (readBytes bytes)

theorem bigEndian_digits (bytes : Blob) : Der.bigEndian bytes = Nat.ofDigits 256 (bytes.reverse.map UInt8.toNat) := by
  induction bytes using List.reverseRecOn with
  | nil => rfl
  | append_singleton bytes byte ih =>
    rw [Der.bigEndian_concat,ih,List.reverse_append,List.reverse_singleton,List.singleton_append,List.map_cons,
      Nat.ofDigits_cons]
    ring

theorem bigEndian_lt (bytes : Blob) : Der.bigEndian bytes < 256^bytes.length := by
  have bounded := Nat.ofDigits_lt_base_pow_length (b := 256) (l := bytes.reverse.map UInt8.toNat) (by decide) (by
    intro digit member
    obtain ⟨byte,_,rfl⟩ := List.mem_map.mp member
    exact byte.toNat_lt)
  simpa [bigEndian_digits] using bounded

theorem readBytes_value (bytes : Blob) : (readBytes bytes).toNat = Der.bigEndian bytes % 2^64 := by
  induction bytes using List.reverseRecOn with
  | nil => rfl
  | append_singleton bytes byte ih =>
    have digit := byte.toNat_lt
    have shifted : ((readBytes bytes).toNat <<< 8) % 2^64 = 2^8 * ((readBytes bytes).toNat % 2^56) := by
      rw [Nat.shiftLeft_eq]
      omega
    have step : readBytes (bytes ++ [byte]) = readBytes bytes <<< 8 ||| byte.toUInt64 := by
      rw [readBytes,List.foldl_append]
      rfl
    have combined : 2^8 * ((readBytes bytes).toNat % 2^56) ||| byte.toNat =
        2^8 * ((readBytes bytes).toNat % 2^56) + byte.toNat :=
      (Nat.two_pow_add_eq_or_of_lt digit _).symm
    rw [step,Der.bigEndian_concat,UInt64.toNat_or,UInt64.toNat_shiftLeft,UInt8.toNat_toUInt64]
    rw [show (8 : UInt64).toNat % 64 = 8 from rfl,shifted,combined,ih]
    omega

theorem pushBytes_read (number : UInt64) : readBytes (pushBytes number.toNat).reverse = number := by
  apply UInt64.toNat_inj.mp
  rw [readBytes_value,bigEndian_digits,List.reverse_reverse,pushBytes_digits,Nat.ofDigits_digits]
  exact Nat.mod_eq_of_lt number.toNat_lt

-- Without a leading zero the digits of the value are the bytes again.
theorem digits_bigEndian {bytes : Blob} (leading : bytes.head? ≠ some 0) :
    Nat.digits 256 (Der.bigEndian bytes) = bytes.reverse.map UInt8.toNat := by
  rw [bigEndian_digits]
  apply Nat.digits_ofDigits 256 (by decide)
  · intro digit member
    obtain ⟨byte,_,rfl⟩ := List.mem_map.mp member
    exact byte.toNat_lt
  · intro nonempty zero
    cases bytes with
    | nil => exact nonempty rfl
    | cons first bytes =>
      have last : first.toNat = 0 := by simpa using zero
      exact leading (congrArg some (UInt8.toNat_inj.mp last))

theorem map_toNat_inj {bytes other : Blob} (same : bytes.map UInt8.toNat = other.map UInt8.toNat) : bytes = other :=
  List.map_injective_iff.mpr (fun _ _ => UInt8.toNat_inj.mp) same

theorem read_pushBytes {bytes : Blob} (short : bytes.length ≤ 8) (leading : bytes.head? ≠ some 0) :
    (pushBytes (readBytes bytes).toNat).reverse = bytes := by
  have small : Der.bigEndian bytes < 2^64 := lt_of_lt_of_le (bigEndian_lt bytes) (Nat.pow_le_pow_right (by decide) short)
  have same : (pushBytes (readBytes bytes).toNat).map UInt8.toNat = bytes.reverse.map UInt8.toNat := by
    rw [readBytes_value,Nat.mod_eq_of_lt small,pushBytes_digits,digits_bigEndian leading]
  rw [map_toNat_inj same,List.reverse_reverse]

theorem marker_read (number : UInt64) (marker : UInt8) :
    toNumberWithMarker marker (fromNumberWithMarker number marker) = .ok number := by
  simp only [toNumberWithMarker,fromNumberWithMarker,ne_eq,not_true_eq_false,if_false,pushBytes_read]

theorem toNumberWithMarker_throws (c : Component) (marker : UInt8) :
    (∃ thrown, toNumberWithMarker marker c = .error thrown) ↔
      c.bytes = [] ∨ ∃ first rest, c.bytes = first :: rest ∧ first ≠ marker := by
  unfold toNumberWithMarker
  cases c.bytes with
  | nil => simp
  | cons first rest =>
    by_cases same : first = marker
    · simp [same]
    · simp [same]

theorem number_codec :
    (∀ number, toNumber (fromNumber number) = number) ∧
    (∀ number marker, toNumberWithMarker marker (fromNumberWithMarker number marker) = .ok number) ∧
    (∀ c : Component, c.size ≤ 8 → c.bytes.head? ≠ some 0 → fromNumber c.toNumber = c) ∧
    ∀ (c : Component) (marker : UInt8), (∃ thrown, toNumberWithMarker marker c = .error thrown) ↔
      c.bytes = [] ∨ ∃ first rest, c.bytes = first :: rest ∧ first ≠ marker := by
  refine ⟨pushBytes_read,marker_read,?_,toNumberWithMarker_throws⟩
  intro c short leading
  exact congrArg Component.mk (read_pushBytes short leading)

theorem number_codec_ff : fromNumber (toNumber ⟨[0x80,0x00,0xFF]⟩) = ⟨[0x80,0x00,0xFF]⟩ :=
  number_codec.2.2.1 ⟨[0x80,0x00,0xFF]⟩ (by decide) (by decide)

end NdnCxx.Component
