import Mathlib.Tactic.Common

namespace NdnCxx.Throwing
variable {ε α β : Type}

-- How computations that may throw compose.
@[simp] theorem ok_bind (a : α) (next : α → Except ε β) : (Except.ok a >>= next) = next a := rfl

@[simp] theorem error_bind (thrown : ε) (next : α → Except ε β) : (Except.error thrown >>= next) = .error thrown := rfl

@[simp] theorem pure_ok (a : α) : (pure a : Except ε α) = .ok a := rfl

theorem bind_ok {first : Except ε α} {next : α → Except ε β} {result : β} (returned : (first >>= next) = .ok result) :
    ∃ a,first = .ok a ∧ next a = .ok result := by
  cases first with
  | error thrown => cases returned
  | ok a => exact ⟨a,rfl,returned⟩

theorem bind_error {first : Except ε α} {next : α → Except ε β} {thrown : ε} (threw : (first >>= next) = .error thrown) :
    first = .error thrown ∨ ∃ a,first = .ok a ∧ next a = .error thrown := by
  cases first with
  | error other =>
    cases threw
    exact .inl rfl
  | ok a => exact .inr ⟨a,rfl,threw⟩

theorem mapError_ok {ε' : Type} {f : ε → ε'} {x : Except ε α} {a : α} (returned : x.mapError f = .ok a) : x = .ok a := by
  cases x with
  | error e => cases returned
  | ok b =>
    cases returned
    rfl

theorem mapError_iff {ε' : Type} {f : ε → ε'} {x : Except ε α} {a : α} : x.mapError f = .ok a ↔ x = .ok a := by
  constructor
  · exact mapError_ok
  · rintro rfl
    rfl

-- What is there, or a throw.
def orThrow (thrown : ε) (found : Option α) : Except ε α := found.elim (.error thrown) .ok

theorem orThrow_iff {thrown : ε} {found : Option α} {a : α} : orThrow thrown found = .ok a ↔ found = some a := by
  cases found with
  | none => exact iff_of_false nofun nofun
  | some b => exact ⟨fun returned => congrArg some (Except.ok.inj returned),fun same => congrArg Except.ok (Option.some.inj same)⟩

end NdnCxx.Throwing
