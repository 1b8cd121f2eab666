import Mathlib.Tactic.Common

namespace NdnCxx.Stateful
variable {S ε α β : Type}

-- Calls that change a state and may throw; what is written before a throw stays.
abbrev Call (S ε α : Type) := ExceptT ε (StateM S) α

def result (call : Call S ε α) (s : S) : Except ε α := (call.run s).1

def after (call : Call S ε α) (s : S) : S := (call.run s).2

def throwIf (condition : Bool) (thrown : ε) : Call S ε Unit := if condition then throw thrown else pure ()

@[simp] theorem after_throwIf (condition : Bool) (thrown : ε) (s : S) : after (throwIf condition thrown) s = s := by
  cases condition <;> rfl

theorem run_bind (call : Call S ε α) (next : α → Call S ε β) (s : S) : (call >>= next).run s =
    match result call s with
    | .ok a => (next a).run (after call s)
    | .error thrown => (.error thrown,after call s) := by
  show (call.run >>= ExceptT.bindCont next) s = _
  unfold result after
  show ExceptT.bindCont next (call.run s).1 (call.run s).2 = _
  cases (call.run s).1 with
  | ok a => rfl
  | error thrown => rfl

theorem after_bind (call : Call S ε α) (next : α → Call S ε β) (s : S) : after (call >>= next) s =
    match result call s with
    | .ok a => after (next a) (after call s)
    | .error _ => after call s := by
  rw [after,run_bind]
  cases result call s <;> rfl

theorem result_bind (call : Call S ε α) (next : α → Call S ε β) (s : S) : result (call >>= next) s =
    match result call s with
    | .ok a => result (next a) (after call s)
    | .error thrown => .error thrown := by
  rw [result,run_bind]
  cases result call s <;> rfl

-- A call that returns is followed by the next one where it has left the state; one that
-- throws is the last.
theorem bind_returned {call : Call S ε α} {s : S} {a : α} (returned : result call s = .ok a) (next : α → Call S ε β) :
    result (call >>= next) s = result (next a) (after call s) ∧ after (call >>= next) s = after (next a) (after call s) := by
  rw [result_bind,after_bind,returned]
  exact ⟨rfl,rfl⟩

theorem bind_threw {call : Call S ε α} {s : S} {thrown : ε} (threw : result call s = .error thrown)
    (next : α → Call S ε β) : result (call >>= next) s = .error thrown ∧ after (call >>= next) s = after call s := by
  rw [result_bind,after_bind,threw]
  exact ⟨rfl,rfl⟩

-- What holds before the call holds after it, whether it returns or throws.
def Keeps (inv : S → Prop) (call : Call S ε α) : Prop := ∀ s, inv s → inv (after call s)

section Keeps
variable {inv : S → Prop}

theorem keeps_of_same {call : Call S ε α} (same : ∀ s, after call s = s) : Keeps inv call := by
  intro s held
  rwa [same]

theorem keeps_modify {f : S → S} (kept : ∀ s, inv s → inv (f s)) : Keeps inv (modify f : Call S ε PUnit) := kept

theorem Keeps.bind {call : Call S ε α} {next : α → Call S ε β} (first : Keeps inv call) (later : ∀ a, Keeps inv (next a)) :
    Keeps inv (call >>= next) := by
  intro s held
  rw [after_bind]
  cases result call s with
  | ok a => exact later a _ (first s held)
  | error thrown => exact first s held

end Keeps

-- A computation that may throw and knows no state.
def lift (read : Except ε α) : Call S ε α := ExceptT.mk (fun s => (read,s))

-- How a call ends: what it returns or throws, and the state it leaves.
def Returns (call : Call S ε α) (s : S) (a : α) (left : S) : Prop := result call s = .ok a ∧ after call s = left

def Throws (call : Call S ε α) (s : S) (thrown : ε) (left : S) : Prop := result call s = .error thrown ∧ after call s = left

section Ends
variable {s left : S} {a b : α} {thrown other : ε}

theorem returns_pure : Returns (pure a : Call S ε α) s b left ↔ a = b ∧ s = left := by
  show Except.ok a = .ok b ∧ s = left ↔ _
  rw [Except.ok.injEq]

theorem throws_pure : ¬Throws (pure a : Call S ε α) s thrown left := fun threw => nomatch threw.1

theorem returns_throw : ¬Returns (throw thrown : Call S ε α) s a left := fun returned => nomatch returned.1

theorem throws_throw : Throws (throw thrown : Call S ε α) s other left ↔ thrown = other ∧ s = left := by
  show Except.error thrown = .error other ∧ s = left ↔ _
  rw [Except.error.injEq]

theorem returns_lift {read : Except ε α} : Returns (lift read) s a left ↔ read = .ok a ∧ s = left := Iff.rfl

theorem throws_lift {read : Except ε α} : Throws (lift read) s thrown left ↔ read = .error thrown ∧ s = left := Iff.rfl

theorem returns_get {read : S} : Returns (get : Call S ε S) s read left ↔ s = read ∧ s = left := by
  show Except.ok s = .ok read ∧ s = left ↔ _
  rw [Except.ok.injEq]

theorem throws_get : ¬Throws (get : Call S ε S) s thrown left := fun threw => nomatch threw.1

theorem returns_modify {f : S → S} {done : PUnit} : Returns (modify f : Call S ε PUnit) s done left ↔ f s = left :=
  and_iff_right rfl

theorem throws_modify {f : S → S} : ¬Throws (modify f : Call S ε PUnit) s thrown left := fun threw => nomatch threw.1

theorem returns_throwIf {condition : Bool} {done : Unit} :
    Returns (throwIf condition thrown : Call S ε Unit) s done left ↔ condition = false ∧ s = left := by
  cases condition with
  | false => exact returns_pure.trans (and_congr_left fun _ => iff_of_true rfl rfl)
  | true => exact iff_of_false returns_throw (fun held => nomatch held.1)

theorem throws_throwIf {condition : Bool} :
    Throws (throwIf condition thrown : Call S ε Unit) s other left ↔ condition = true ∧ thrown = other ∧ s = left := by
  cases condition with
  | false => exact iff_of_false throws_pure (fun held => nomatch held.1)
  | true => exact throws_throw.trans (and_iff_right rfl).symm

theorem returns_bind {call : Call S ε α} {next : α → Call S ε β} {b : β} :
    Returns (call >>= next) s b left ↔ ∃ a middle, Returns call s a middle ∧ Returns (next a) middle b left := by
  unfold Returns
  rw [result_bind,after_bind]
  cases result call s with
  | ok a => simp
  | error thrown => simp

theorem throws_bind {call : Call S ε α} {next : α → Call S ε β} :
    Throws (call >>= next) s thrown left ↔ Throws call s thrown left ∨
      ∃ a middle, Returns call s a middle ∧ Throws (next a) middle thrown left := by
  unfold Throws Returns
  rw [result_bind,after_bind]
  cases result call s with
  | ok a => simp
  | error thrown => simp

end Ends
end NdnCxx.Stateful
