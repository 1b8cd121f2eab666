import NdnCxx.NameUri

namespace NdnCxx

def HexDigit (ch : UInt8) (value : ℕ) : Prop :=
  (0x30 ≤ ch.toNat ∧ ch.toNat ≤ 0x39 ∧ value = ch.toNat - 0x30) ∨
    (0x41 ≤ ch.toNat ∧ ch.toNat ≤ 0x46 ∧ value = ch.toNat - 0x41 + 10) ∨
    (0x61 ≤ ch.toNat ∧ ch.toNat ≤ 0x66 ∧ value = ch.toNat - 0x61 + 10)

-- Printable ASCII less the blank, the percent sign and nine more.
def Unescaped (ch : UInt8) : Prop :=
  0x21 ≤ ch.toNat ∧ ch.toNat ≤ 0x7E ∧ ch.toNat ∉ [0x22,0x25,0x3C,0x3E,0x5C,0x5E,0x60,0x7B,0x7C,0x7D]

-- The bytes an escaped text stands for; a text that stands for none is malformed.
inductive Denotes : Blob → Blob → Prop where
  | nil : Denotes [] []
  | plain {ch : UInt8} {uri bytes : Blob} : Unescaped ch → Denotes uri bytes → Denotes (ch :: uri) (ch :: bytes)
  | triple {high low : UInt8} {highBits lowBits : ℕ} {uri bytes : Blob} : HexDigit high highBits → HexDigit low lowBits →
      Denotes uri bytes → Denotes (percent :: high :: low :: uri) (UInt8.ofNat (highBits * 16 + lowBits) :: bytes)

-- The table entry by entry.
theorem escapeCharacter_entries : escapeCharacter.map (fun entry => entry != 0) =
    (List.range 256).map (fun n => decide (¬(0x21 ≤ n ∧ n ≤ 0x7E ∧
      n ∉ [0x22,0x25,0x3C,0x3E,0x5C,0x5E,0x60,0x7B,0x7C,0x7D]))) := by decide +kernel

theorem escapes_iff (ch : UInt8) : escapes ch = false ↔ Unescaped ch := by
  have bound : ch.toNat < (List.range 256).length := by
    rw [List.length_range]
    exact ch.toNat_lt
  have entry : (escapeCharacter.map (fun entry => entry != 0)).getD ch.toNat ((fun entry : ℕ => entry != 0) 0) = escapes ch :=
    List.getD_map ..
  rw [← entry,escapeCharacter_entries,List.getD_eq_getElem _ _ (by rwa [List.length_map]),List.getElem_map,
    List.getElem_range,decide_eq_false_iff_not,not_not,Unescaped]

theorem hexTo4Bit_ranges (ch : UInt8) : hexTo4Bit ch =
    if 0x30 ≤ ch.toNat ∧ ch.toNat ≤ 0x39 then some (ch.toNat - 0x30)
    else if 0x41 ≤ ch.toNat ∧ ch.toNat ≤ 0x46 then some (ch.toNat - 0x41 + 10)
    else if 0x61 ≤ ch.toNat ∧ ch.toNat ≤ 0x66 then some (ch.toNat - 0x61 + 10)
    else none := by
  have all : ∀ n : Fin 256, hexTo4Bit (UInt8.ofFin n) =
      if 0x30 ≤ n.val ∧ n.val ≤ 0x39 then some (n.val - 0x30)
      else if 0x41 ≤ n.val ∧ n.val ≤ 0x46 then some (n.val - 0x41 + 10)
      else if 0x61 ≤ n.val ∧ n.val ≤ 0x66 then some (n.val - 0x61 + 10)
      else none := by decide +kernel
  exact all ch.toFin

theorem hexTo4Bit_iff (ch : UInt8) (value : ℕ) : hexTo4Bit ch = some value ↔ HexDigit ch value := by
  rw [hexTo4Bit_ranges,HexDigit]
  split
  · rw [Option.some.injEq]
    omega
  · split
    · rw [Option.some.injEq]
      omega
    · split
      · rw [Option.some.injEq]
        omega
      · simp only [reduceCtorEq,false_iff]
        omega

theorem fromEscapedAt_triple (offset : ℕ) {high low : UInt8} {highBits lowBits : ℕ} (rest : Blob)
    (highDigit : hexTo4Bit high = some highBits) (lowDigit : hexTo4Bit low = some lowBits) :
    fromEscapedAt offset (percent :: high :: low :: rest) =
      (fromEscapedAt (offset + 3) rest).map (UInt8.ofNat (highBits * 16 + lowBits) :: ·) := by
  simp only [fromEscapedAt,if_true,highDigit,lowDigit]
  rfl

theorem map_ok {read : Except UriError Blob} {byte : UInt8} {bytes : Blob} (done : read.map (byte :: ·) = .ok bytes) :
    ∃ others, read = .ok others ∧ bytes = byte :: others := by
  cases read with
  | error thrown => cases done
  | ok others =>
    cases done
    exact ⟨others,rfl,rfl⟩

theorem fromEscapedAt_denotes {offset : ℕ} {uri bytes : Blob} (read : fromEscapedAt offset uri = .ok bytes) :
    Denotes uri bytes := by
  induction offset,uri using fromEscapedAt.induct generalizing bytes with
  | case1 offset =>
    cases read
    exact .nil
  | case2 offset high low rest highBits lowBits lowDigit highDigit ih =>
    rw [fromEscapedAt_triple offset rest highDigit lowDigit] at read
    obtain ⟨others,inner,rfl⟩ := map_ok read
    exact .triple ((hexTo4Bit_iff _ _).mp highDigit) ((hexTo4Bit_iff _ _).mp lowDigit) (ih inner)
  | case3 offset high low rest bad =>
    have thrown : fromEscapedAt offset (percent :: high :: low :: rest) = .error (.uri (-(offset + 3))) := by
      rw [fromEscapedAt,if_pos rfl]
      cases highDigit : hexTo4Bit high with
      | none => rfl
      | some highBits =>
        cases lowDigit : hexTo4Bit low with
        | none => rfl
        | some lowBits => exact (bad highBits lowBits highDigit lowDigit).elim
    rw [thrown] at read
    cases read
  | case4 offset rest short =>
    -- A tail of fewer than two characters: the closing zero is no digit.
    cases rest with
    | nil => cases read
    | cons high rest =>
      cases rest with
      | nil => cases read
      | cons low rest => exact (short high low rest rfl).elim
  | case5 offset byte rest other escaped =>
    rw [fromEscapedAt.eq_def] at read
    simp only [if_neg other,if_pos escaped] at read
    cases read
  | case6 offset byte rest other plain ih =>
    rw [fromEscapedAt_plain offset rest plain] at read
    obtain ⟨others,inner,rfl⟩ := map_ok read
    exact .plain ((escapes_iff byte).mp (Bool.not_eq_true _ ▸ plain)) (ih inner)

theorem denotes_fromEscapedAt {uri bytes : Blob} (denotes : Denotes uri bytes) :
    ∀ offset, fromEscapedAt offset uri = .ok bytes := by
  induction denotes with
  | nil => exact fun _ => rfl
  | plain unescaped _ ih =>
    intro offset
    rw [fromEscapedAt_plain offset _ (Bool.eq_false_iff.mp ((escapes_iff _).mpr unescaped)),ih]
    rfl
  | triple highDigit lowDigit _ ih =>
    intro offset
    rw [fromEscapedAt_triple offset _ ((hexTo4Bit_iff _ _).mpr highDigit) ((hexTo4Bit_iff _ _).mpr lowDigit),ih]
    rfl

theorem Component.fromUri_iff (uri : Blob) (c : Component) : Component.fromUri uri = .ok c ↔ Denotes uri c.bytes := by
  constructor
  · intro read
    unfold Component.fromUri at read
    split at read
    · rename_i bytes inner
      cases read
      exact fromEscapedAt_denotes inner
    · cases read
    · cases read
  · intro denotes
    rw [Component.fromUri,fromEscaped,denotes_fromEscapedAt denotes]

theorem component_uri_codec :
    (∀ uri, (∃ c, Component.fromUri uri = .ok c) ↔ ∃ bytes, Denotes uri bytes) ∧
    (∀ uri c, Component.fromUri uri = .ok c ↔ Denotes uri c.bytes) ∧
    ∀ c : Component, Component.fromUri c.toUri = .ok c := by
  refine ⟨?_,Component.fromUri_iff,fun c => component_roundtrip c.bytes⟩
  intro uri
  constructor
  · intro given
    obtain ⟨c,read⟩ := given
    exact ⟨c.bytes,(Component.fromUri_iff uri c).mp read⟩
  · intro given
    obtain ⟨bytes,denotes⟩ := given
    exact ⟨⟨bytes⟩,(Component.fromUri_iff uri ⟨bytes⟩).mpr denotes⟩

end NdnCxx
