import Mathlib

namespace NdnCxx

section Runs
variable {S A : Type*} (step : S → A → Option S) (ok : S → A → Prop)

-- The runs whose every action is enabled and meets `ok` in the state it is taken in.
inductive Runs : S → List A → S → Prop where
  | nil (s : S) : Runs s [] s
  | snoc {s t next : S} {actions : List A} {action : A} : Runs s actions t → ok t action →
      step t action = some next → Runs s (actions ++ [action]) next

end Runs

namespace Runs
variable {S A : Type*} {step : S → A → Option S} {ok : S → A → Prop}

theorem invariant {s t : S} {actions : List A} (run : Runs step ok s actions t) (inv : S → Prop) (start : inv s)
    (preserved : ∀ s action next, inv s → ok s action → step s action = some next → inv next) : inv t := by
  induction run with
  | nil => exact start
  | snoc prior met taken ih => exact preserved _ _ _ ih met taken

theorem weaken {ok' : S → A → Prop} {s t : S} {actions : List A} (run : Runs step ok s actions t)
    (weaker : ∀ s action, ok s action → ok' s action) : Runs step ok' s actions t := by
  induction run with
  | nil => exact .nil _
  | snoc prior met taken ih => exact .snoc ih (weaker _ _ met) taken

-- Conditions that agree wherever an invariant holds allow the same runs.
theorem exchange {ok' : S → A → Prop} {s t : S} {actions : List A} (run : Runs step ok s actions t) (inv : S → Prop)
    (start : inv s) (preserved : ∀ s action next, inv s → ok s action → step s action = some next → inv next)
    (other : ∀ s action, inv s → ok s action → ok' s action) : Runs step ok' s actions t := by
  induction run with
  | nil => exact .nil _
  | snoc prior met taken ih => exact .snoc ih (other _ _ (prior.invariant inv start preserved) met) taken

theorem trans {s t next : S} {first second : List A} (before : Runs step ok s first t) (after : Runs step ok t second next) :
    Runs step ok s (first ++ second) next := by
  induction after with
  | nil => simpa using before
  | snoc prior met taken ih =>
    rw [← List.append_assoc]
    exact .snoc ih met taken

end Runs

section Traced
variable {S A E T : Type*} (step : S → A → Option S) (ok : S → A → Prop) (label : S → A → E)

-- The same runs, seen through what an observer can tell about each action.
inductive Traced : S → List E → S → Prop where
  | nil (s : S) : Traced s [] s
  | snoc {s t next : S} {events : List E} {action : A} : Traced s events t → ok t action →
      step t action = some next → Traced s (events ++ [label t action]) next

inductive Follows (Step : T → E → T → Prop) : T → List E → T → Prop where
  | nil (t : T) : Follows Step t [] t
  | snoc {t u next : T} {events : List E} {event : E} : Follows Step t events u → Step u event next →
      Follows Step t (events ++ [event]) next

variable {step ok label}

theorem Follows.last {Step : T → E → T → Prop} {t next : T} {events : List E} {event : E}
    (followed : Follows Step t (events ++ [event]) next) : ∃ u, Follows Step t events u ∧ Step u event next := by
  generalize whole : events ++ [event] = all at followed
  cases followed with
  | nil => simp at whole
  | snoc before moved =>
    obtain ⟨same,equal⟩ := List.append_inj' whole rfl
    cases same
    cases equal
    exact ⟨_,before,moved⟩

theorem Follows.start {Step : T → E → T → Prop} {t next : T} (followed : Follows Step t [] next) : next = t := by
  generalize whole : ([] : List E) = all at followed
  cases followed with
  | nil => rfl
  | snoc before moved => simp at whole

namespace Traced

-- What the events are charged comes out of what the state has on deposit, and that
-- out of what it was granted.
theorem charged {s t : S} {events : List E} (run : Traced step ok label s events t) (inv : S → Prop) (charge : E → ℕ)
    (deposit granted : S → ℕ) (start : inv s) (base : deposit s ≤ granted s)
    (preserved : ∀ s action next, inv s → ok s action → step s action = some next → inv next)
    (spent : ∀ s action next, inv s → ok s action → step s action = some next →
      charge (label s action) + deposit next + granted s ≤ deposit s + granted next) :
    inv t ∧ (events.map charge).sum + deposit t ≤ granted t := by
  induction run with
  | nil => exact ⟨start,by simpa using base⟩
  | snoc prior met taken ih =>
    obtain ⟨kept,paid⟩ := ih
    have last := spent _ _ _ kept met taken
    refine ⟨preserved _ _ _ kept met taken,?_⟩
    simp only [List.map_append,List.sum_append,List.map_cons,List.map_nil,List.sum_cons,List.sum_nil]
    omega

theorem invariant {s t : S} {events : List E} (run : Traced step ok label s events t) (inv : List E → S → Prop)
    (start : inv [] s) (preserved : ∀ events s action next, inv events s → ok s action → step s action = some next →
      inv (events ++ [label s action]) next) : inv events t := by
  induction run with
  | nil => exact start
  | snoc prior met taken ih => exact preserved _ _ _ _ ih met taken

theorem trans {s t next : S} {first second : List E} (before : Traced step ok label s first t)
    (after : Traced step ok label t second next) : Traced step ok label s (first ++ second) next := by
  induction after with
  | nil => simpa using before
  | snoc prior met taken ih =>
    rw [← List.append_assoc]
    exact .snoc ih met taken

theorem simulated {Step : T → E → T → Prop} {related : S → T → Prop} {s s' : S} {t : T} {events : List E}
    (run : Traced step ok label s events s') (start : related s t)
    (forward : ∀ s t action next, related s t → ok s action → step s action = some next →
      ∃ t', Step t (label s action) t' ∧ related next t') : ∃ t', Follows Step t events t' ∧ related s' t' := by
  induction run with
  | nil => exact ⟨t,.nil t,start⟩
  | snoc prior met taken ih =>
    obtain ⟨middle,before,now⟩ := ih
    obtain ⟨after,moved,later⟩ := forward _ _ _ _ now met taken
    exact ⟨after,.snoc before moved,later⟩

end Traced

theorem Runs.traced {s t : S} {actions : List A} (run : Runs step ok s actions t) :
    Traced step ok (fun _ action => action) s actions t := by
  induction run with
  | nil => exact .nil _
  | snoc prior met taken ih => exact .snoc ih met taken

-- The same account for runs whose actions are counted.
theorem Runs.counted {s t : S} {actions : List A} (run : Runs step ok s actions t) (inv : S → Prop) (count : A → ℕ)
    (used granted : S → ℕ) (start : inv s) (base : used s ≤ granted s)
    (preserved : ∀ s action next, inv s → ok s action → step s action = some next → inv next)
    (spent : ∀ s action next, inv s → ok s action → step s action = some next →
      count action + used next + granted s ≤ used s + granted next) :
    (actions.map count).sum + used t ≤ granted t :=
  (run.traced.charged inv count used granted start base preserved spent).2

end Traced

section Exec
variable {S A : Type*} (step : S → A → Option S) (ok : S → A → Bool)

def exec : S → List A → Option S
  | s,[] => some s
  | s,action :: rest => if ok s action then (step s action).bind (exec · rest) else none

variable {step ok}

theorem exec_runs {s t : S} {actions : List A} (executed : exec step ok s actions = some t) :
    Runs step (fun s action => ok s action = true) s actions t := by
  induction actions generalizing s with
  | nil =>
    cases executed
    exact .nil _
  | cons action rest ih =>
    rw [exec] at executed
    split at executed
    · rename_i met
      obtain ⟨middle,taken,remaining⟩ := Option.bind_eq_some_iff.mp executed
      have first : Runs step (fun s action => ok s action = true) s [action] middle := .snoc (.nil s) met taken
      exact first.trans (ih remaining)
    · cases executed

end Exec
end NdnCxx
