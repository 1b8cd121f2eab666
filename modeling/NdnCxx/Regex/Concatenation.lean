import NdnCxx.Regex.Printing

namespace NdnCxx.Regex
open Brackets

section Fuel
variable (engine : Engine) {first second : ℕ → Blob → Except CompileError (Compiled (List Node))}

theorem pushBackRef_congr {c : UInt8} {inner : Blob} (same : ∀ refs, first refs inner.dropLast = second refs inner.dropLast)
    (refs : ℕ) : pushBackRef first refs (c :: inner) = pushBackRef second refs (c :: inner) := by
  rw [pushBackRef,pushBackRef,backRefCompile,backRefCompile,List.tail_cons,same]

theorem repeatCompile_congr {c : UInt8} {inner suffix : Blob}
    (same : ∀ refs, first refs inner.dropLast = second refs inner.dropLast) (refs : ℕ) :
    repeatCompile engine first refs (c :: inner ++ suffix) (inner.length + 1) =
      repeatCompile engine second refs (c :: inner ++ suffix) (inner.length + 1) := by
  have whole : (c :: inner ++ suffix).take (inner.length + 1) = c :: inner :=
    List.take_left' rfl
  rw [repeatCompile,repeatCompile,whole,pushBackRef_congr same]

-- Only texts shorter than its own are compiled inside a pattern.
theorem extractPattern_congr (refs : ℕ) (c : UInt8) (rest : Blob)
    (same : ∀ refs text, text.length ≤ rest.length → first refs text = second refs text) :
    extractPattern engine first refs c rest = extractPattern engine second refs c rest := by
  rw [extractPattern,extractPattern]
  split
  · rfl
  · rename_i right _
    cases read : extractSubPattern c right 1 0 rest with
    | error error => rfl
    | ok found =>
      obtain ⟨inner,others⟩ := found
      have parts := congrArg List.length (extractSubPattern_parts read)
      have inside : ∀ refs, first refs inner.dropLast = second refs inner.dropLast := by
        intro refs
        refine same refs _ ?_
        rw [List.length_append] at parts
        rw [List.length_dropLast]
        omega
      simp only [Throwing.ok_bind,pushBackRef_congr inside,repeatCompile_congr engine inside]

theorem patternListCompile_fuel (fuel more refs : ℕ) (text : Blob) (fits : text.length ≤ fuel)
    (enough : text.length ≤ more) : patternListCompile engine fuel refs text = patternListCompile engine more refs text := by
  induction fuel generalizing more refs text with
  | zero =>
    rw [List.length_eq_zero_iff.mp (Nat.le_zero.mp fits),patternListCompile,patternListCompile]
  | succ fuel ih =>
    cases text with
    | nil => rw [patternListCompile,patternListCompile]
    | cons c rest =>
      cases more with
      | zero => cases enough
      | succ more =>
        rw [List.length_cons] at fits enough
        have inside := extractPattern_congr engine refs c rest
          (fun refs text shorter => ih more refs text (by omega) (by omega))
        rw [patternListCompile,patternListCompile,inside]
        cases extracted : extractPattern engine (patternListCompile engine more) refs c rest with
        | error error => rfl
        | ok found =>
          obtain ⟨node,after,others⟩ := found
          have shorter := extractPattern_shorter engine extracted
          simp only [Throwing.ok_bind,ih more after others (by omega) (by omega)]

-- The compiler without fuel.
def compileFrom (refs : ℕ) (text : Blob) : Except CompileError (Compiled (List Node)) :=
  patternListCompile engine text.length refs text

theorem compileFrom_nil (refs : ℕ) : compileFrom engine refs [] = .ok ([],refs) := rfl

theorem compileFrom_cons (refs : ℕ) (c : UInt8) (rest : Blob) :
    compileFrom engine refs (c :: rest) =
      (extractPattern engine (compileFrom engine) refs c rest >>= fun (node,after,others) =>
        compileFrom engine after others >>= fun (nodes,last) => .ok (node :: nodes,last)) := by
  have inside := extractPattern_congr engine refs c rest (fun refs text shorter =>
    patternListCompile_fuel engine rest.length text.length refs text shorter le_rfl)
  rw [compileFrom,List.length_cons,patternListCompile,inside]
  change (extractPattern engine (compileFrom engine) refs c rest >>= _) = _
  cases extracted : extractPattern engine (compileFrom engine) refs c rest with
  | error error => rfl
  | ok found =>
    obtain ⟨node,after,others⟩ := found
    have shorter := extractPattern_shorter engine extracted
    have fuel := patternListCompile_fuel engine rest.length others.length after others shorter le_rfl
    simp only [Throwing.ok_bind,fuel]
    rfl

end Fuel

-- A text that no scanner reads into from the text in front of it.
structure Separate (text : Blob) : Prop where
  ends : PatternEnd text
  parentheses : Balanced 0x28 0x29 text
  angle : Balanced 0x3C 0x3E text
  square : Balanced 0x5B 0x5D text
  braces : (0x7D : UInt8) ∉ text

section Append
variable {engine : Engine} {behind : Blob}

theorem extractSubPattern_append {left right : UInt8} (different : left ≠ right) (balanced : Balanced left right behind)
    (text : Blob) :
    extractSubPattern left right 1 0 (text ++ behind) =
      (extractSubPattern left right 1 0 text).map (fun (inner,rest) => (inner,rest ++ behind)) := by
  have whole := extractSubPattern_closing different 0 0 (text ++ behind)
  have part := extractSubPattern_closing different 0 0 text
  rw [Nat.zero_add] at whole part
  rw [whole,part]
  cases found : closing left right 0 text with
  | none =>
    rw [closing_stays_open found balanced]
    rfl
  | some parts =>
    obtain ⟨inner,rest⟩ := parts
    rw [closing_append found]
    rfl

theorem extractRepetition_append (separate : Separate behind) (text : Blob) :
    extractRepetition (text ++ behind) =
      (extractRepetition text).map (fun (suffix,rest) => (suffix,rest ++ behind)) := by
  cases text with
  | nil => exact extractRepetition_text .once separate.ends
  | cons c rest =>
    by_cases closed : c = 0x7B ∧ (0x7D : UInt8) ∈ rest
    · obtain ⟨rfl,member⟩ := closed
      obtain ⟨body,back,rfl,first⟩ := List.eq_append_cons_of_mem member
      have plain : ∀ c ∈ body, c ≠ 0x7D := fun c inside brace => first (brace ▸ inside)
      have whole : 0x7B :: (body ++ 0x7D :: back) ++ behind = 0x7B :: (body ++ [0x7D]) ++ (back ++ behind) := by simp
      have part : 0x7B :: (body ++ 0x7D :: back) = 0x7B :: (body ++ [0x7D]) ++ back := by simp
      rw [whole,suffix_closes plain,part,suffix_closes plain]
      rfl
    · rw [List.cons_append,extractRepetition,extractRepetition]
      split
      · rfl
      · split
        · rename_i brace
          have unclosed : ∀ c ∈ rest, decide (c ≠ 0x7D) = true := fun c member =>
            decide_eq_true (fun same => closed ⟨brace,same ▸ member⟩)
          have later : ∀ c ∈ behind, decide (c ≠ 0x7D) = true := fun c member =>
            decide_eq_true (fun same => separate.braces (same ▸ member))
          rw [List.dropWhile_append_of_pos unclosed,List.dropWhile_eq_nil_iff.mpr unclosed,
            List.dropWhile_eq_nil_iff.mpr later]
          rfl
        · rfl

theorem closingOf_cases {c right : UInt8} (known : closingOf c = some right) :
    c = 0x28 ∧ right = 0x29 ∨ c = 0x3C ∧ right = 0x3E ∨ c = 0x5B ∧ right = 0x5D := by
  unfold closingOf at known
  split at known
  · rename_i same
    exact .inl ⟨same,(Option.some.inj known).symm⟩
  · split at known
    · rename_i same
      exact .inr (.inl ⟨same,(Option.some.inj known).symm⟩)
    · split at known
      · rename_i same
        exact .inr (.inr ⟨same,(Option.some.inj known).symm⟩)
      · cases known

theorem closingOf_different {c right : UInt8} (known : closingOf c = some right) : c ≠ right := by
  rcases closingOf_cases known with ⟨rfl,rfl⟩ | ⟨rfl,rfl⟩ | ⟨rfl,rfl⟩
  all_goals decide

theorem Separate.balanced (separate : Separate behind) {c right : UInt8} (known : closingOf c = some right) :
    Balanced c right behind := by
  rcases closingOf_cases known with ⟨rfl,rfl⟩ | ⟨rfl,rfl⟩ | ⟨rfl,rfl⟩
  · exact separate.parentheses
  · exact separate.angle
  · exact separate.square

theorem extractPattern_append (separate : Separate behind) (refs : ℕ) (c : UInt8) (rest : Blob)
    (patternList : ℕ → Blob → Except CompileError (Compiled (List Node))) :
    extractPattern engine patternList refs c (rest ++ behind) =
      (extractPattern engine patternList refs c rest).map (fun (node,after,others) => (node,after,others ++ behind)) := by
  rw [extractPattern,extractPattern]
  split
  · rfl
  · rename_i right known
    rw [extractSubPattern_append (closingOf_different known) (separate.balanced known)]
    cases extractSubPattern c right 1 0 rest with
    | error error => rfl
    | ok found =>
      obtain ⟨inner,others⟩ := found
      simp only [Except.map,Throwing.ok_bind]
      rw [extractRepetition_append separate]
      cases extractRepetition others with
      | error error => rfl
      | ok found =>
        obtain ⟨suffix,others⟩ := found
        simp only [Except.map,Throwing.ok_bind]
        generalize (if c = 0x28 ∧ suffix = [] then pushBackRef patternList refs (c :: inner)
          else repeatCompile engine patternList refs (c :: inner ++ suffix) (inner.length + 1)) = compiled
        cases compiled with
        | error error => rfl
        | ok found => rfl

-- By strong induction on the length of the text in front.
theorem compileFrom_append (separate : Separate behind) (refs : ℕ) (text : Blob) :
    compileFrom engine refs (text ++ behind) =
      (compileFrom engine refs text >>= fun (nodes,after) =>
        compileFrom engine after behind >>= fun (others,last) => .ok (nodes ++ others,last)) := by
  induction size : text.length using Nat.strong_induction_on generalizing refs text with
  | h n ih =>
    subst size
    cases text with
    | nil =>
      rw [List.nil_append,compileFrom_nil,Throwing.ok_bind]
      dsimp only
      cases compileFrom engine refs behind with
      | error error => rfl
      | ok found => rfl
    | cons c rest =>
      rw [List.cons_append,compileFrom_cons,compileFrom_cons,extractPattern_append separate]
      cases extracted : extractPattern engine (compileFrom engine) refs c rest with
      | error error => rfl
      | ok found =>
        obtain ⟨node,after,others⟩ := found
        have shorter := extractPattern_shorter engine extracted
        have later := ih others.length (by rw [List.length_cons]; omega) after others rfl
        simp only [Except.map,Throwing.ok_bind,later]
        cases compileFrom engine after others with
        | error error => rfl
        | ok found =>
          obtain ⟨nodes,last⟩ := found
          simp only [Throwing.ok_bind]
          cases compileFrom engine last behind with
          | error error => rfl
          | ok found => rfl

end Append
end NdnCxx.Regex
