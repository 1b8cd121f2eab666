import Mathlib.Data.List.Basic

namespace NdnCxx.PrefixCode
variable {α β γ : Type}

-- A code word is told from what follows it: no other word starts the same text.
def Decodable (code : α → List β) : Prop :=
  ∀ a b rest other, code a ++ rest = code b ++ other → a = b ∧ rest = other

-- A word in two parts, the second of which may depend on what the first one says.
theorem Decodable.append {head : γ → List β} {project : α → γ} {tail : α → List β} (first : Decodable head)
    (second : ∀ a b rest other, project a = project b → tail a ++ rest = tail b ++ other → a = b ∧ rest = other) :
    Decodable (fun a => head (project a) ++ tail a) := by
  intro a b rest other same
  simp only [List.append_assoc] at same
  obtain ⟨projected,tails⟩ := first _ _ _ _ same
  exact second a b rest other projected tails

theorem Decodable.comp {code : α → List β} (decodable : Decodable code) {f : γ → α} (injective : Function.Injective f) :
    Decodable (fun c => code (f c)) := by
  intro a b rest other same
  obtain ⟨equal,tails⟩ := decodable _ _ _ _ same
  exact ⟨injective equal,tails⟩

-- A text of words is cut into words in one way.
theorem Decodable.sequence {code : α → List β} (decodable : Decodable code) (nonempty : ∀ a, code a ≠ []) :
    Function.Injective (fun words : List α => words.flatMap code) := by
  intro left
  induction left with
  | nil =>
    intro right same
    cases right with
    | nil => rfl
    | cons b right =>
      have empty : code b ++ right.flatMap code = [] := same.symm
      exact absurd (List.append_eq_nil_iff.mp empty).1 (nonempty b)
  | cons a left ih =>
    intro right same
    cases right with
    | nil =>
      have empty : code a ++ left.flatMap code = [] := same
      exact absurd (List.append_eq_nil_iff.mp empty).1 (nonempty a)
    | cons b right =>
      obtain ⟨equal,tails⟩ := decodable a b _ _ same
      rw [equal,ih tails]

-- Words of letters of one kind, ended by a letter of the other.
theorem terminated {p : β → Prop} {left right : List β} {last final : β} {rest other : List β}
    (leftAll : ∀ letter ∈ left, p letter) (rightAll : ∀ letter ∈ right, p letter) (leftEnd : ¬p last)
    (rightEnd : ¬p final) (same : left ++ last :: rest = right ++ final :: other) :
    left = right ∧ last = final ∧ rest = other := by
  induction left generalizing right with
  | nil =>
    cases right with
    | nil => exact ⟨rfl,List.cons.inj same⟩
    | cons letter right => exact absurd ((List.cons.inj same).1 ▸ rightAll letter List.mem_cons_self) leftEnd
  | cons letter left ih =>
    cases right with
    | nil => exact absurd ((List.cons.inj same).1 ▸ leftAll letter List.mem_cons_self) rightEnd
    | cons another right =>
      obtain ⟨heads,tails⟩ := List.cons.inj same
      obtain ⟨words,ends⟩ := ih (fun other member => leftAll other (List.mem_cons_of_mem _ member))
        (fun other member => rightAll other (List.mem_cons_of_mem _ member)) tails
      exact ⟨by rw [heads,words],ends⟩

end NdnCxx.PrefixCode
