import NdnCxx.Lib.PrefixCode
import NdnCxx.Wire.Append

namespace NdnCxx.Wire.Ndnb
open PrefixCode

-- `Ndnb::ndn_dtag`, as far as the stream encoder names it.
inductive NdnDtag where
  | any
  | name
  | component
  | content
  | signedInfo
  | key
  | keyName
  | signature
  | type
  | exclude
  | signatureBits
  | freshnessSeconds
  | finalBlockID
  | publisherPublicKeyDigest
  | contentObject
  deriving DecidableEq, Repr

def NdnDtag.code : NdnDtag → Nat
  | .any => 13
  | .name => 14
  | .component => 15
  | .content => 19
  | .signedInfo => 20
  | .key => 27
  | .keyName => 29
  | .signature => 37
  | .type => 40
  | .exclude => 43
  | .signatureBits => 54
  | .freshnessSeconds => 58
  | .finalBlockID => 59
  | .publisherPublicKeyDigest => 60
  | .contentObject => 64

def appendCloser : Blob := [UInt8.ofNat ndnCloseTag]

-- The size is handed to `ostream::write` whole.
def appendTaggedBlob (dtag : NdnDtag) (data : Blob) : Blob :=
  appendBlockHeader dtag.code .dtag ++
    ((if data.length > 0 then appendBlockHeader data.length .blob ++ data else []) ++ appendCloser)

def appendNumber (number : UInt32) : Blob :=
  appendBlockHeader (decimal number.toNat).length .udata ++ decimal number.toNat

def appendTaggedNumber (dtag : NdnDtag) (number : UInt32) : Blob :=
  appendBlockHeader dtag.code .dtag ++ (appendNumber number ++ appendCloser)

def appendName (name : Name) : Blob :=
  appendBlockHeader NdnDtag.name.code .dtag ++
    (name.flatMap (fun component => appendTaggedBlob .component component.bytes) ++ appendCloser)

theorem sevenBits_injective : Function.Injective sevenBits := by
  intro left right same
  have digits := List.reverse_injective same
  have values := congrArg (List.map UInt8.toNat) digits
  have back : ∀ val, ((Nat.digits 128 val).map UInt8.ofNat).map UInt8.toNat = Nat.digits 128 val := by
    intro val
    rw [List.map_map]
    refine (List.map_congr_left ?_).trans (List.map_id _)
    exact fun digit known => (sevenBits_digit known).2
  rw [back,back] at values
  exact Nat.digits_inj_iff.mp values

theorem header_decodable : Decodable (fun header : Nat × TokenType => appendBlockHeader header.1 header.2) := by
  intro left right rest other same
  obtain ⟨last,lastByte,stop,digit,token⟩ := Wire.lastByte left.1 left.2
  obtain ⟨final,finalByte,halt,digit',token'⟩ := Wire.lastByte right.1 right.2
  have word : ∀ val tt, appendBlockHeader val tt = sevenBits (val >>> 4) ++
      [UInt8.ofNat ((0x80 &&& (0xFF - ndnClose)) ||| ((val &&& 15) <<< 3) ||| (7 &&& tt.code))] := header_sevenBits
  simp only [word,List.append_assoc,List.singleton_append,← lastByte,← finalByte] at same
  obtain ⟨highs,ends,rests⟩ := terminated (sevenBits_low _) (sevenBits_low _) stop halt same
  have high := sevenBits_injective highs
  rw [Nat.shiftRight_eq_div_pow,Nat.shiftRight_eq_div_pow] at high
  rw [ends,digit'] at digit
  rw [ends,token'] at token
  refine ⟨Prod.ext ?_ token.symm,rests⟩
  omega

theorem header_start (val : Nat) (tt : TokenType) (rest : Blob) :
    ∃ byte others, appendBlockHeader val tt ++ rest = byte :: others ∧ byte ≠ 0 := by
  obtain ⟨byte,others,starts,nonzero⟩ := header_first val tt
  exact ⟨byte,others ++ rest,congrArg (· ++ rest) starts,nonzero⟩

-- The content of an element: the length and the bytes, or nothing before the closer.
theorem payload_decodable : Decodable (fun data : Blob =>
    (if data.length > 0 then appendBlockHeader data.length .blob ++ data else []) ++ appendCloser) := by
  intro left right rest other same
  have nothing : ∀ {data rest other : Blob}, ¬appendCloser ++ rest = appendBlockHeader data.length .blob ++ data ++
      appendCloser ++ other := by
    intro data rest other given
    rw [List.append_assoc,List.append_assoc] at given
    obtain ⟨byte,others,starts,nonzero⟩ := header_start data.length .blob (data ++ (appendCloser ++ other))
    rw [starts] at given
    exact nonzero (List.cons.inj given).1.symm
  simp only at same
  split at same
  · split at same
    · simp only [List.append_assoc] at same
      obtain ⟨headers,tails⟩ := header_decodable (left.length,.blob) (right.length,.blob) _ _ same
      have lengths : left.length = right.length := congrArg Prod.fst headers
      obtain ⟨equal,closers⟩ := List.append_inj tails lengths
      exact ⟨equal,List.append_cancel_left closers⟩
    · exact absurd same.symm nothing
  · rename_i leftEmpty
    split at same
    · exact absurd same nothing
    · rename_i rightEmpty
      refine ⟨?_,by simpa using same⟩
      rw [List.length_eq_zero_iff.mp (by omega : left.length = 0),List.length_eq_zero_iff.mp (by omega : right.length = 0)]

theorem code_injective : Function.Injective NdnDtag.code := by
  intro left right same
  cases left <;> cases right <;> first | rfl | cases same

theorem tag_decodable : Decodable (fun dtag : NdnDtag => appendBlockHeader dtag.code .dtag) :=
  header_decodable.comp (f := fun dtag => (dtag.code,.dtag)) (fun _ _ same => code_injective (congrArg Prod.fst same))

theorem taggedBlob_decodable : Decodable (fun element : NdnDtag × Blob => appendTaggedBlob element.1 element.2) := by
  unfold appendTaggedBlob
  refine tag_decodable.append ?_
  intro left right rest other tags same
  obtain ⟨payloads,rests⟩ := payload_decodable left.2 right.2 rest other same
  exact ⟨Prod.ext tags payloads,rests⟩

end NdnCxx.Wire.Ndnb
