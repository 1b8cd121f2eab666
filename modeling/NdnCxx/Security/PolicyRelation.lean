import NdnCxx.Security.Policy
import NdnCxx.Lib.Throwing

namespace NdnCxx.Security
open Throwing

-- `signerName` names a namespace above that of `dataName`.
def ProperPrefix (signerName dataName : Name) : Prop := signerName <+: dataName ∧ signerName ≠ dataName

-- The relation that an operator of a rule names.
def Operator.Relates : Operator → Name → Name → Prop
  | .equal,dataName,signerName => dataName = signerName
  | .greater,dataName,signerName => ProperPrefix signerName dataName
  | .greaterEqual,dataName,signerName => signerName <+: dataName

theorem properPrefix_cons (i j : Component) (dataName signerName : Name) :
    ProperPrefix (j :: signerName) (i :: dataName) ↔ j = i ∧ ProperPrefix signerName dataName := by
  unfold ProperPrefix
  rw [List.cons_prefix_cons,and_assoc]
  refine and_congr_right ?_
  rintro rfl
  simp

namespace IdentityPolicyRule

theorem comparePrefix_iff (dataName signerName : Name) :
    comparePrefix dataName signerName = true ↔ ProperPrefix signerName dataName := by
  induction dataName generalizing signerName with
  | nil =>
    unfold ProperPrefix
    rw [List.prefix_nil]
    simp [comparePrefix]
  | cons i dataName ih =>
    cases signerName with
    | nil => simp [comparePrefix,ProperPrefix]
    | cons j signerName =>
      rw [properPrefix_cons,← ih,comparePrefix]
      by_cases same : i = j
      · simp [same,(Component.compare_zero j j).mpr rfl]
      · simp [Component.compare_zero,same,Ne.symm same]

-- What the early exit does not answer falls through to the loop, whatever the
-- operator.
theorem compare_iff (op : Operator) (dataName signerName : Name) : compare op dataName signerName = true ↔
    (dataName = signerName ∧ op ≠ .greater) ∨ ProperPrefix signerName dataName := by
  unfold compare
  simp only [Name.compare_zero]
  split
  · rename_i early
    obtain ⟨same,reflexive⟩ := early
    have other : op ≠ .greater := by
      rcases reflexive with rfl | rfl <;> decide
    simp [same,other]
  · rename_i late
    rw [comparePrefix_iff]
    refine (or_iff_right ?_).symm
    rintro ⟨same,other⟩
    refine late ⟨same,?_⟩
    cases op with
    | equal => exact .inl rfl
    | greater => exact absurd rfl other
    | greaterEqual => exact .inr rfl

theorem prefix_iff (dataName signerName : Name) :
    signerName <+: dataName ↔ dataName = signerName ∨ ProperPrefix signerName dataName := by
  constructor
  · intro above
    by_cases same : dataName = signerName
    · exact .inl same
    · exact .inr ⟨above,Ne.symm same⟩
  · intro given
    rcases given with rfl | proper
    · exact List.prefix_rfl
    · exact proper.1

theorem compare_related (op : Operator) (dataName signerName : Name) :
    (compare op dataName signerName = true ↔ op.Relates dataName signerName) ↔
      ¬(op = .equal ∧ ProperPrefix signerName dataName) := by
  rw [compare_iff]
  cases op with
  | equal =>
    have apart : ProperPrefix signerName dataName → dataName ≠ signerName := fun proper => Ne.symm proper.2
    simp only [Operator.Relates,ne_eq,reduceCtorEq,not_false_eq_true,and_true,true_and]
    tauto
  | greater => simp [Operator.Relates]
  | greaterEqual => simp [Operator.Relates,prefix_iff]

-- Both regexes match, and the expansions are these.
structure Expands (rule : IdentityPolicyRule) (moment : Nat) (dataName signerName expandDataName expandSignerName : Name) :
    Prop where
  dataMatch : rule.dataNameRegex.matchName dataName = .ok true
  dataExpand : rule.dataNameRegex.expand moment dataName = .ok expandDataName
  signerMatch : rule.signerNameRegex.matchName signerName = .ok true
  signerExpand : rule.signerNameRegex.expand moment signerName = .ok expandSignerName

variable {rule : IdentityPolicyRule} {moment : Nat} {dataName signerName expandDataName expandSignerName : Name}

theorem Expands.unique {otherData otherSigner : Name}
    (first : rule.Expands moment dataName signerName expandDataName expandSignerName)
    (second : rule.Expands moment dataName signerName otherData otherSigner) :
    otherData = expandDataName ∧ otherSigner = expandSignerName := by
  have sameData := second.dataExpand.symm.trans first.dataExpand
  have sameSigner := second.signerExpand.symm.trans first.signerExpand
  exact ⟨Except.ok.inj sameData,Except.ok.inj sameSigner⟩

theorem satisfyNames_iff : rule.satisfyNames moment dataName signerName = .ok true ↔
    ∃ expandDataName expandSignerName, rule.Expands moment dataName signerName expandDataName expandSignerName ∧
      compare rule.op expandDataName expandSignerName = true := by
  constructor
  · intro satisfied
    obtain ⟨dataMatched,dataMatch,afterData⟩ := bind_ok satisfied
    cases dataMatched with
    | false => cases afterData
    | true =>
      obtain ⟨expandDataName,dataExpand,beforeSigner⟩ := bind_ok afterData
      obtain ⟨signerMatched,signerMatch,afterSigner⟩ := bind_ok beforeSigner
      cases signerMatched with
      | false => cases afterSigner
      | true =>
        obtain ⟨expandSignerName,signerExpand,compared⟩ := bind_ok afterSigner
        exact ⟨expandDataName,expandSignerName,⟨dataMatch,dataExpand,signerMatch,signerExpand⟩,Except.ok.inj compared⟩
  · rintro ⟨expandDataName,expandSignerName,expands,compared⟩
    simp [satisfyNames,expands.dataMatch,expands.dataExpand,expands.signerMatch,expands.signerExpand,compared]

-- `compare` on any two expansions, and `satisfy` on any two names, are right as long as
-- an `==` rule does not meet a signer properly above the data.
theorem relation_exact (rule : IdentityPolicyRule) (moment : Nat) (dataName signerName left right : Name) :
    ((compare rule.op left right = true ↔ rule.op.Relates left right) ↔
      ¬(rule.op = .equal ∧ ProperPrefix right left)) ∧
    ((rule.satisfyNames moment dataName signerName = .ok true ↔
        ∃ expandDataName expandSignerName, rule.Expands moment dataName signerName expandDataName expandSignerName ∧
          rule.op.Relates expandDataName expandSignerName) ↔
      ¬(rule.op = .equal ∧ ∃ expandDataName expandSignerName,
        rule.Expands moment dataName signerName expandDataName expandSignerName ∧
          ProperPrefix expandSignerName expandDataName)) := by
  refine ⟨compare_related rule.op left right,?_⟩
  rw [satisfyNames_iff]
  by_cases expanded : ∃ expandDataName expandSignerName,
      rule.Expands moment dataName signerName expandDataName expandSignerName
  · obtain ⟨expandDataName,expandSignerName,expands⟩ := expanded
    have only : ∀ holds : Name → Name → Prop, (∃ otherData otherSigner,
        rule.Expands moment dataName signerName otherData otherSigner ∧ holds otherData otherSigner) ↔
          holds expandDataName expandSignerName := by
      intro holds
      constructor
      · rintro ⟨otherData,otherSigner,others,given⟩
        obtain ⟨rfl,rfl⟩ := expands.unique others
        exact given
      · exact fun given => ⟨_,_,expands,given⟩
    rw [only (fun left right => compare rule.op left right = true),only rule.op.Relates,only (fun left right =>
      ProperPrefix right left)]
    exact compare_related rule.op expandDataName expandSignerName
  · have never : ∀ holds : Name → Name → Prop, ¬∃ otherData otherSigner,
        rule.Expands moment dataName signerName otherData otherSigner ∧ holds otherData otherSigner := by
      rintro holds ⟨otherData,otherSigner,others,_⟩
      exact expanded ⟨_,_,others⟩
    simp [never]

-- The rule with `^(<>*)$` and `\1` on both sides.
def identical : IdentityPolicyRule :=
  let whole : Regex := ⟨fun _ => .ok true,fun _ name => .ok name⟩
  ⟨whole,whole,.equal⟩

-- A signer one level above the data passes for the same name.
theorem equal_accepts_ancestor : compare .equal [⟨[0x61]⟩,⟨[0x62]⟩] [⟨[0x61]⟩] = true ∧
    identical.satisfyNames 0 [⟨[0x61]⟩,⟨[0x62]⟩] [⟨[0x61]⟩] = .ok true ∧
    ¬Operator.equal.Relates [⟨[0x61]⟩,⟨[0x62]⟩] [⟨[0x61]⟩] := by
  refine ⟨by decide,rfl,?_⟩
  intro same
  cases same

end IdentityPolicyRule
end NdnCxx.Security
