import NdnCxx.ComponentNumber
import NdnCxx.Wire.Append

namespace NdnCxx
open Wire (appendBySwap totalSeconds totalSeconds_nat microseconds_nat)

namespace Name

def appendNumber (name : Name) (number : UInt64) : Name := appendBySwap name (Component.fromNumber number)

def appendNumberWithMarker (name : Name) (number : UInt64) (marker : UInt8) : Name :=
  appendBySwap name (Component.fromNumberWithMarker number marker)

def appendSeqNum (name : Name) (seqno : UInt64) : Name := appendNumberWithMarker name seqno 0x00

def appendControlNum (name : Name) (control : UInt64) : Name := appendNumberWithMarker name control 0xC1

def appendBlkId (name : Name) (blkid : UInt64) : Name := appendNumberWithMarker name blkid 0xFB

def nversion : UInt64 := 0xFFFFFFFFFFFFFFFF

-- `NowUnixTimestamp ()` in microseconds: seconds above twelve bits for the fraction.
def versionAt (now : Int) : UInt64 :=
  ⟨(BitVec.ofInt 64 (totalSeconds now) <<< 12) ||| (0xFFF &&& BitVec.ofInt 64 ((now.tmod 1000000).tdiv 244))⟩

def appendVersion (now : Int) (name : Name) (version : UInt64) : Name :=
  if version ≠ nversion then appendNumberWithMarker name version 0xFD
  else appendNumberWithMarker name (versionAt now) 0xFD

-- One more component, behind the ones that were there.
structure Grown (name result : Name) (decodes : Component → Prop) : Prop where
  size : result.length = name.length + 1
  earlier : result.take name.length = name
  last : ∃ component, result.getLast? = some component ∧ decodes component

theorem grown_append (name : Name) {component : Component} {decodes : Component → Prop} (decoded : decodes component) :
    Grown name (name ++ [component]) decodes :=
  ⟨by simp,by simp,component,by simp,decoded⟩

theorem appendBySwap_grown (name : Name) {component : Component} {decodes : Component → Prop}
    (decoded : decodes component) : Grown name (appendBySwap name component) decodes ↔ component.size ≠ 0 := by
  unfold appendBySwap
  split
  · rename_i filled
    exact iff_of_true (grown_append name decoded) filled
  · rename_i empty
    refine iff_of_false ?_ empty
    intro grown
    have size := grown.size
    omega

theorem appendNumberWithMarker_grown (name : Name) (number : UInt64) (marker : UInt8) :
    Grown name (appendNumberWithMarker name number marker)
      (fun component => component.toNumberWithMarker marker = .ok number) :=
  (appendBySwap_grown name (Component.marker_read number marker)).mpr
    (by simp [Component.size,Component.fromNumberWithMarker])

theorem fromNumber_size (number : UInt64) : (Component.fromNumber number).size ≠ 0 ↔ number ≠ 0 := by
  rw [not_iff_not]
  constructor
  · intro empty
    have bytes : (Component.pushBytes number.toNat).reverse = [] := List.length_eq_zero_iff.mp empty
    rw [← Component.pushBytes_read number,bytes]
    rfl
  · intro zero
    simp [zero,Component.fromNumber,Component.pushBytes,Component.size]

-- Only `appendNumber (0)` has nothing to append.
theorem append_numbers_exact (name : Name) (number : UInt64) (now : Int) :
    (Grown name (appendNumber name number) (fun component => component.toNumber = number) ↔ number ≠ 0) ∧
    Grown name (appendSeqNum name number) (fun component => component.toNumberWithMarker 0x00 = .ok number) ∧
    Grown name (appendControlNum name number) (fun component => component.toNumberWithMarker 0xC1 = .ok number) ∧
    Grown name (appendBlkId name number) (fun component => component.toNumberWithMarker 0xFB = .ok number) ∧
    (number ≠ nversion → Grown name (appendVersion now name number)
      (fun component => component.toNumberWithMarker 0xFD = .ok number)) := by
  refine ⟨?_,appendNumberWithMarker_grown name number 0x00,appendNumberWithMarker_grown name number 0xC1,
    appendNumberWithMarker_grown name number 0xFB,?_⟩
  · rw [← fromNumber_size]
    exact appendBySwap_grown name (Component.pushBytes_read number)
  · intro given
    rw [appendVersion,if_pos given]
    exact appendNumberWithMarker_grown name number 0xFD

theorem appendVersion_now (name : Name) (now : Int) : Grown name (appendVersion now name nversion)
    (fun component => component.toNumberWithMarker 0xFD = .ok (versionAt now)) := by
  rw [appendVersion,if_neg (by simp)]
  exact appendNumberWithMarker_grown name (versionAt now) 0xFD

theorem append_version_five : Grown [⟨[0x61]⟩] (appendVersion 0 [⟨[0x61]⟩] 5)
    (fun component => component.toNumberWithMarker 0xFD = .ok 5) :=
  (append_numbers_exact [⟨[0x61]⟩] 5 0).2.2.2.2 (by decide)

theorem zero_not_appended : appendNumber [⟨[0x61]⟩] 0 = [⟨[0x61]⟩] ∧
    ¬Grown [⟨[0x61]⟩] (appendNumber [⟨[0x61]⟩] 0) (fun component => component.toNumber = 0) := by
  have empty : Component.fromNumber 0 = ⟨[]⟩ := by simp [Component.fromNumber,Component.pushBytes]
  have same : appendNumber [⟨[0x61]⟩] 0 = [⟨[0x61]⟩] := by rw [appendNumber,empty]; rfl
  refine ⟨same,?_⟩
  rw [same]
  intro grown
  exact absurd grown.size (by decide)

theorem versionAt_value (now : Nat) (early : now / 1000000 < 2^40) :
    (versionAt (now : Int)).toNat = now / 1000000 * 4096 + now % 1000000 / 244 % 4096 := by
  have fraction : ((now : Int).tmod 1000000).tdiv 244 = ((now % 1000000 / 244 : Nat) : Int) := by
    rw [microseconds_nat]
    exact (Int.ofNat_tdiv _ 244).symm
  have low : now % 1000000 / 244 % 4096 < 2^12 := Nat.mod_lt _ (by decide)
  have packed : 2^12 * (now / 1000000) ||| now % 1000000 / 244 % 4096 =
      2^12 * (now / 1000000) + now % 1000000 / 244 % 4096 := (Nat.two_pow_add_eq_or_of_lt low _).symm
  have masked : 0xFFF &&& now % 1000000 / 244 = now % 1000000 / 244 % 4096 := by
    rw [Nat.and_comm]
    exact Nat.and_two_pow_sub_one_eq_mod _ 12
  have bits : (versionAt (now : Int)).toNat =
      ((BitVec.ofNat 64 (now / 1000000) <<< 12) ||| (0xFFF &&& BitVec.ofNat 64 (now % 1000000 / 244))).toNat := by
    rw [versionAt,totalSeconds_nat,fraction,BitVec.ofInt_natCast,BitVec.ofInt_natCast]
    rfl
  have shifted : (now / 1000000 % 2^64) <<< 12 % 2^64 = 2^12 * (now / 1000000) := by
    rw [Nat.shiftLeft_eq]
    omega
  have short : now % 1000000 / 244 % 2^64 = now % 1000000 / 244 := by omega
  have mask : (0xFFF : BitVec 64).toNat = 0xFFF := rfl
  rw [bits,BitVec.toNat_or,BitVec.toNat_and,BitVec.toNat_shiftLeft,BitVec.toNat_ofNat,BitVec.toNat_ofNat,shifted,short,
    mask,masked,packed]
  omega

-- Twelve bits hold the quotient up to 999423 microseconds; the last 576 of a second
-- count from zero again.
theorem versions_order {s₁ s₂ f₁ f₂ : Nat} (first : f₁ < 1000000) (second : f₂ < 1000000)
    (order : s₁ * 1000000 + f₁ ≤ s₂ * 1000000 + f₂) :
    s₁ * 4096 + f₁ / 244 % 4096 ≤ s₂ * 4096 + f₂ / 244 % 4096 ↔
      s₁ < s₂ ∨ f₂ < 999424 ∨ 999424 ≤ f₁ ∨ f₁ / 244 ≤ (f₂ - 999424) / 244 := by
  have quotient₁ : f₁ / 244 % 4096 = if f₁ < 999424 then f₁ / 244 else (f₁ - 999424) / 244 := by
    split <;> omega
  have quotient₂ : f₂ / 244 % 4096 = if f₂ < 999424 then f₂ / 244 else (f₂ - 999424) / 244 := by
    split <;> omega
  rw [quotient₁,quotient₂]
  split <;> split <;> omega

theorem versions_monotone_exact (t₁ t₂ : Int) (epoch : 0 ≤ t₁) (order : t₁ ≤ t₂) (early : totalSeconds t₂ < 2^40) :
    versionAt t₁ ≤ versionAt t₂ ↔ totalSeconds t₁ < totalSeconds t₂ ∨ t₂.tmod 1000000 < 999424 ∨
      999424 ≤ t₁.tmod 1000000 ∨ t₁.tmod 1000000 / 244 ≤ (t₂.tmod 1000000 - 999424) / 244 := by
  lift t₁ to Nat using epoch
  lift t₂ to Nat using by omega
  rw [totalSeconds_nat] at early
  have order : t₁ / 1000000 * 1000000 + t₁ % 1000000 ≤ t₂ / 1000000 * 1000000 + t₂ % 1000000 := by omega
  have versions := versions_order (Nat.mod_lt t₁ (by decide)) (Nat.mod_lt t₂ (by decide)) order
  rw [UInt64.le_iff_toNat_le,versionAt_value t₁ (by omega),versionAt_value t₂ (by omega),versions,totalSeconds_nat,
    totalSeconds_nat,microseconds_nat,microseconds_nat]
  omega

theorem versions_monotone_late : versionAt 1000000 ≤ versionAt 1999423 ↔
    totalSeconds 1000000 < totalSeconds 1999423 ∨ (1999423 : Int).tmod 1000000 < 999424 ∨
      999424 ≤ (1000000 : Int).tmod 1000000 ∨
      (1000000 : Int).tmod 1000000 / 244 ≤ ((1999423 : Int).tmod 1000000 - 999424) / 244 :=
  versions_monotone_exact 1000000 1999423 (by decide) (by decide) (by decide)

-- One microsecond later the fraction is 4096 and nothing of it is kept.
theorem version_drops : versionAt 1999423 = 8191 ∧ versionAt 1999424 = 4096 ∧
    ¬versionAt 1999423 ≤ versionAt 1999424 := by decide

end Name
end NdnCxx
