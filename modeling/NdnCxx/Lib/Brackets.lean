import Mathlib.Data.List.Basic
import Mathlib.Tactic.Common

namespace NdnCxx.Brackets
variable {α : Type*} [DecidableEq α] (left right : α)

-- How many brackets are open behind a text, if none closes that was not opened.
def depthAfter : ℕ → List α → Option ℕ
  | depth,[] => some depth
  | depth,c :: text =>
    if c = left then depthAfter (depth + 1) text
    else if c = right then
      match depth with
      | 0 => none
      | depth + 1 => depthAfter depth text
    else depthAfter depth text

def Balanced (text : List α) : Prop := depthAfter left right 0 text = some 0

instance (text : List α) : Decidable (Balanced left right text) := inferInstanceAs (Decidable (_ = _))

-- A text up to the bracket that closes the one in front of it, and what follows. Inside
-- of it `depth` brackets are open.
def closing : ℕ → List α → Option (List α × List α)
  | _,[] => none
  | depth,c :: text =>
    if c = left then (closing (depth + 1) text).map (fun (inner,rest) => (c :: inner,rest))
    else if c = right then
      match depth with
      | 0 => some ([c],text)
      | depth + 1 => (closing depth text).map (fun (inner,rest) => (c :: inner,rest))
    else (closing depth text).map (fun (inner,rest) => (c :: inner,rest))

section Depth
variable {left right}

theorem depthAfter_append (depth : ℕ) (front back : List α) :
    depthAfter left right depth (front ++ back) = (depthAfter left right depth front).bind (depthAfter left right · back) := by
  induction front generalizing depth with
  | nil => rfl
  | cons c front ih =>
    simp only [List.cons_append,depthAfter]
    split
    · exact ih _
    · split
      · cases depth with
        | zero => rfl
        | succ depth => exact ih depth
      · exact ih depth

-- More brackets around a text change nothing in it.
theorem depthAfter_lift {depth after : ℕ} {text : List α} (given : depthAfter left right depth text = some after) (more : ℕ) :
    depthAfter left right (depth + more) text = some (after + more) := by
  induction text generalizing depth with
  | nil =>
    cases given
    rfl
  | cons c text ih =>
    simp only [depthAfter] at given ⊢
    split at given
    · rename_i opens
      have inside := ih given
      rw [if_pos opens]
      rwa [Nat.add_right_comm]
    · rename_i other
      rw [if_neg other]
      split at given
      · rename_i closes
        rw [if_pos closes]
        cases depth with
        | zero => cases given
        | succ depth =>
          have inside := ih given
          rwa [Nat.add_right_comm]
      · rename_i neither
        rw [if_neg neither]
        exact ih given

theorem Balanced.lift {text : List α} (balanced : Balanced left right text) (depth : ℕ) :
    depthAfter left right depth text = some depth := by
  have lifted := depthAfter_lift balanced depth
  rwa [Nat.zero_add] at lifted

theorem Balanced.nil : Balanced left right ([] : List α) := rfl

theorem Balanced.append {front back : List α} (first : Balanced left right front) (second : Balanced left right back) :
    Balanced left right (front ++ back) := by
  rw [Balanced,depthAfter_append,first]
  exact second

theorem Balanced.flatten {texts : List (List α)} (each : ∀ text ∈ texts, Balanced left right text) :
    Balanced left right texts.flatten := by
  induction texts with
  | nil => exact .nil
  | cons text texts ih =>
    rw [List.flatten_cons]
    exact (each text (.head _)).append (ih (fun other member => each other (.tail _ member)))

theorem Balanced.wrap {text : List α} (different : left ≠ right) (balanced : Balanced left right text) :
    Balanced left right (left :: (text ++ [right])) := by
  rw [Balanced,depthAfter,if_pos rfl,depthAfter_append,balanced.lift]
  simp [depthAfter,different.symm]

theorem balanced_plain {text : List α} (none : ∀ c ∈ text, c ≠ left ∧ c ≠ right) : Balanced left right text := by
  induction text with
  | nil => exact .nil
  | cons c text ih =>
    obtain ⟨notLeft,notRight⟩ := none c (.head _)
    rw [Balanced,depthAfter,if_neg notLeft,if_neg notRight]
    exact ih (fun other member => none other (.tail _ member))

end Depth

section Closing
variable {left right}

-- A character either closes the bracket or is passed at the depth behind it, whatever
-- follows.
theorem closing_cons {depth : ℕ} {c : α} {text inner rest : List α}
    (found : closing left right depth (c :: text) = some (inner,rest)) :
    (c ≠ left ∧ c = right ∧ depth = 0 ∧ inner = [c] ∧ rest = text) ∨
      ∃ next shorter, inner = c :: shorter ∧ closing left right next text = some (shorter,rest) ∧
        ∀ others, depthAfter left right depth (c :: others) = depthAfter left right next others ∧
          closing left right depth (c :: others) =
            (closing left right next others).map (fun (inner,rest) => (c :: inner,rest)) := by
  have passed : ∀ {next}, (closing left right next text).map (fun (inner,rest) => (c :: inner,rest)) = some (inner,rest) →
      ∃ shorter, inner = c :: shorter ∧ closing left right next text = some (shorter,rest) := by
    intro next mapped
    obtain ⟨⟨shorter,behind⟩,here,same⟩ := Option.map_eq_some_iff.mp mapped
    cases same
    exact ⟨shorter,rfl,here⟩
  simp only [closing,depthAfter] at found ⊢
  split at found
  · rename_i opens
    obtain ⟨shorter,longer,here⟩ := passed found
    exact .inr ⟨depth + 1,shorter,longer,here,fun _ => by simp only [if_pos opens,and_self]⟩
  · rename_i other
    split at found
    · rename_i closes
      cases depth with
      | zero =>
        cases found
        exact .inl ⟨other,closes,rfl,rfl,rfl⟩
      | succ depth =>
        obtain ⟨shorter,longer,here⟩ := passed found
        exact .inr ⟨depth,shorter,longer,here,fun _ => by simp only [if_neg other,if_pos closes,and_self]⟩
    · rename_i neither
      obtain ⟨shorter,longer,here⟩ := passed found
      exact .inr ⟨depth,shorter,longer,here,fun _ => by simp only [if_neg other,if_neg neither,and_self]⟩

theorem closing_parts {depth : ℕ} {text inner rest : List α} (found : closing left right depth text = some (inner,rest)) :
    text = inner ++ rest ∧ ∃ body, inner = body ++ [right] := by
  induction text generalizing depth inner with
  | nil => cases found
  | cons c text ih =>
    rcases closing_cons found with ⟨_,closes,_,rfl,rfl⟩ | ⟨next,shorter,rfl,here,_⟩
    · exact ⟨rfl,[],by rw [closes]; rfl⟩
    · obtain ⟨parts,body,ends⟩ := ih here
      exact ⟨by rw [parts,List.cons_append],c :: body,by rw [ends,List.cons_append]⟩

-- Inside of the bracket that was closed every other one is closed too.
theorem closing_depth {depth : ℕ} {text inner rest : List α} (found : closing left right depth text = some (inner,rest)) :
    depthAfter left right depth inner.dropLast = some 0 := by
  induction text generalizing depth inner with
  | nil => cases found
  | cons c text ih =>
    rcases closing_cons found with ⟨_,_,rfl,rfl,rfl⟩ | ⟨next,shorter,rfl,here,passes⟩
    · rfl
    · obtain ⟨_,body,ends⟩ := closing_parts here
      have inside := ih here
      rw [ends,List.dropLast_concat] at inside
      rw [ends,← List.cons_append,List.dropLast_concat,(passes body).1]
      exact inside

theorem closing_balanced {text inner rest : List α} (found : closing left right 0 text = some (inner,rest)) :
    Balanced left right inner.dropLast := closing_depth found

theorem closing_append {depth : ℕ} {text inner rest : List α} (found : closing left right depth text = some (inner,rest))
    (more : List α) : closing left right depth (text ++ more) = some (inner,rest ++ more) := by
  induction text generalizing depth inner with
  | nil => cases found
  | cons c text ih =>
    rcases closing_cons found with ⟨other,closes,rfl,rfl,rfl⟩ | ⟨next,shorter,rfl,here,passes⟩
    · rw [List.cons_append,closing,if_neg other,if_pos closes]
    · rw [List.cons_append,(passes _).2,ih here]
      rfl

theorem closing_inner (different : left ≠ right) {depth : ℕ} {inner : List α} (closed : depthAfter left right depth inner = some 0)
    (rest : List α) : closing left right depth (inner ++ right :: rest) = some (inner ++ [right],rest) := by
  induction inner generalizing depth with
  | nil =>
    cases closed
    simp [closing,different.symm]
  | cons c inner ih =>
    simp only [List.cons_append,depthAfter,closing] at closed ⊢
    split at closed
    · rename_i opens
      rw [if_pos opens,ih closed]
      rfl
    · rename_i other
      rw [if_neg other]
      split at closed
      · rename_i closes
        rw [if_pos closes]
        cases depth with
        | zero => cases closed
        | succ depth =>
          simp only at closed ⊢
          rw [ih closed]
          rfl
      · rename_i neither
        rw [if_neg neither,ih closed]
        rfl

theorem Balanced.closing (different : left ≠ right) {inner : List α} (balanced : Balanced left right inner) (rest : List α) :
    closing left right 0 (inner ++ right :: rest) = some (inner ++ [right],rest) :=
  closing_inner different balanced rest

-- Nothing closes the bracket exactly where every other one is closed in its turn.
theorem closing_none {depth : ℕ} {text : List α} :
    closing left right depth text = none ↔ ∃ after, depthAfter left right depth text = some after := by
  induction text generalizing depth with
  | nil => simp [closing,depthAfter]
  | cons c text ih =>
    simp only [closing,depthAfter]
    split
    · rw [Option.map_eq_none_iff,ih]
    · split
      · cases depth with
        | zero => simp
        | succ depth =>
          simp only
          rw [Option.map_eq_none_iff,ih]
      · rw [Option.map_eq_none_iff,ih]

theorem closing_stays_open {depth : ℕ} {text : List α} (unclosed : closing left right depth text = none) {more : List α}
    (balanced : Balanced left right more) : closing left right depth (text ++ more) = none := by
  obtain ⟨after,reached⟩ := closing_none.mp unclosed
  exact closing_none.mpr ⟨after,by rw [depthAfter_append,reached]; exact balanced.lift after⟩

end Closing
end NdnCxx.Brackets
