import Mathlib

namespace NdnCxx.Backtrack

variable {α σ ρ τ : Type*}

-- An attempt to cover a run of elements. It may change the state, also where it fails.
abbrev Attempt (α σ : Type*) := List α → σ → Bool × σ

-- `first` on the first `tried` elements, then `rest` on what is left.
def split (first rest : Attempt α σ) (run : List α) (tried : ℕ) (s : σ) : Bool × σ :=
  let (matched,s) := first (run.take tried) s
  if matched then rest (run.drop tried) s else (false,s)

-- From the longest piece for `first` down to the empty one.
def tryDown (first rest : Attempt α σ) (run : List α) : ℕ → σ → Bool × σ
  | 0,s => split first rest run 0 s
  | tried + 1,s =>
    let (done,s) := split first rest run (tried + 1) s
    if done then (true,s) else tryDown first rest run tried s

-- What `tryDown` hands on to `rest`: the elements left over, and the state.
def handedOn (first rest : Attempt α σ) (run : List α) : ℕ → σ → List (List α × σ)
  | 0,s =>
    let (matched,s) := first (run.take 0) s
    if matched then [(run.drop 0,s)] else []
  | tried + 1,s =>
    let (matched,s) := first (run.take (tried + 1)) s
    if matched then
      let (done,after) := rest (run.drop (tried + 1)) s
      (run.drop (tried + 1),s) :: (if done then [] else handedOn first rest run tried after)
    else handedOn first rest run tried s

section Pure
variable (f : List α → Option ρ) (g : List α → Option τ) (run : List α)

def splitFound (tried : ℕ) : Option (ρ × τ) :=
  (f (run.take tried)).bind (fun d => (g (run.drop tried)).map (fun e => (d,e)))

-- The same search where nothing is kept of what was given up.
def findDown : ℕ → Option (ρ × τ)
  | 0 => splitFound f g run 0
  | tried + 1 => (splitFound f g run (tried + 1)).or (findDown tried)

end Pure

section Found
variable {f : List α → Option ρ} {g : List α → Option τ} {run : List α}

theorem splitFound_iff {tried : ℕ} {d : ρ} {e : τ} :
    splitFound f g run tried = some (d,e) ↔ f (run.take tried) = some d ∧ g (run.drop tried) = some e := by
  unfold splitFound
  cases f (run.take tried) with
  | none => simp
  | some d' =>
    cases g (run.drop tried) with
    | none => simp
    | some e' => simp

theorem splitFound_isSome {tried : ℕ} :
    (splitFound f g run tried).isSome = ((f (run.take tried)).isSome && (g (run.drop tried)).isSome) := by
  unfold splitFound
  cases f (run.take tried) with
  | none => rfl
  | some d => simp

theorem findDown_some {tried : ℕ} {d : ρ} {e : τ} (found : findDown f g run tried = some (d,e)) :
    ∃ k ≤ tried, f (run.take k) = some d ∧ g (run.drop k) = some e := by
  induction tried with
  | zero => exact ⟨0,le_rfl,splitFound_iff.mp found⟩
  | succ tried ih =>
    rw [findDown,Option.or_eq_some_iff] at found
    rcases found with here | ⟨_,later⟩
    · exact ⟨tried + 1,le_rfl,splitFound_iff.mp here⟩
    · obtain ⟨k,below,both⟩ := ih later
      exact ⟨k,by omega,both⟩

theorem findDown_first {tried : ℕ} {found : ρ × τ} (first : splitFound f g run tried = some found) :
    findDown f g run tried = some found := by
  cases tried with
  | zero => exact first
  | succ tried => rw [findDown,first,Option.some_or]

-- Every way to split the run is tried.
theorem findDown_isSome {tried : ℕ} :
    (findDown f g run tried).isSome = true ↔
      ∃ k ≤ tried, (f (run.take k)).isSome = true ∧ (g (run.drop k)).isSome = true := by
  constructor
  · intro found
    obtain ⟨⟨d,e⟩,same⟩ := Option.isSome_iff_exists.mp found
    obtain ⟨k,below,left,right⟩ := findDown_some same
    exact ⟨k,below,by simp [left],by simp [right]⟩
  · intro given
    obtain ⟨k,below,left,right⟩ := given
    induction tried with
    | zero =>
      have zero : k = 0 := Nat.le_zero.mp below
      subst zero
      rw [findDown,splitFound_isSome,left,right]
      rfl
    | succ tried ih =>
      rw [findDown,Option.isSome_or]
      by_cases here : k = tried + 1
      · subst here
        rw [splitFound_isSome,left,right]
        rfl
      · rw [ih (by omega),Bool.or_true]

theorem findDown_append {first rest : List α} (left : (f first).isSome = true) (right : (g rest).isSome = true) :
    (findDown f g (first ++ rest) (first ++ rest).length).isSome = true := by
  refine findDown_isSome.mpr ⟨first.length,by simp,?_,?_⟩
  · rwa [List.take_left]
  · rwa [List.drop_left]

end Found

-- The attempt succeeds where the search finds something, whatever the state.
def Agrees (a : Attempt α σ) (f : List α → Option ρ) : Prop := ∀ run s, (a run s).1 = (f run).isSome

section Attempts
variable {first rest : Attempt α σ} {f : List α → Option ρ} {g : List α → Option τ}

theorem split_agrees (left : Agrees first f) (right : Agrees rest g) (run : List α) (tried : ℕ) (s : σ) :
    (split first rest run tried s).1 = (splitFound f g run tried).isSome := by
  have matched := left (run.take tried) s
  rw [split,splitFound_isSome,← matched]
  obtain ⟨done,state⟩ := first (run.take tried) s
  cases done with
  | false => rfl
  | true => simpa using right (run.drop tried) state

theorem tryDown_agrees (left : Agrees first f) (right : Agrees rest g) (run : List α) (tried : ℕ) (s : σ) :
    (tryDown first rest run tried s).1 = (findDown f g run tried).isSome := by
  induction tried generalizing s with
  | zero => exact split_agrees left right run 0 s
  | succ tried ih =>
    have here := split_agrees left right run (tried + 1) s
    rw [tryDown,findDown,Option.isSome_or,← here]
    obtain ⟨done,state⟩ := split first rest run (tried + 1) s
    cases done with
    | false => simpa using ih state
    | true => simp

theorem split_reaches (left : Agrees first f) {run : List α} {tried : ℕ} {d : ρ} {e : τ}
    (found : splitFound f g run tried = some (d,e)) (s : σ) :
    split first rest run tried s = rest (run.drop tried) (first (run.take tried) s).2 := by
  have matched := left (run.take tried) s
  rw [(splitFound_iff.mp found).1,Option.isSome_some] at matched
  rw [split]
  simp [matched]

-- In the end the state is the one that the accepted pieces leave behind, from whatever
-- state the attempts before them had left.
theorem tryDown_reaches (left : Agrees first f) (right : Agrees rest g) {run : List α} {tried : ℕ} {d : ρ} {e : τ}
    (found : findDown f g run tried = some (d,e)) (s : σ) :
    ∃ k ≤ tried, ∃ middle, f (run.take k) = some d ∧ g (run.drop k) = some e ∧
      tryDown first rest run tried s = rest (run.drop k) (first (run.take k) middle).2 := by
  induction tried generalizing s with
  | zero =>
    obtain ⟨here,there⟩ := splitFound_iff.mp found
    exact ⟨0,le_rfl,s,here,there,split_reaches left found s⟩
  | succ tried ih =>
    have agrees := split_agrees left right run (tried + 1) s
    rw [findDown,Option.or_eq_some_iff] at found
    rcases found with now | ⟨failed,later⟩
    · obtain ⟨here,there⟩ := splitFound_iff.mp now
      rw [now,Option.isSome_some] at agrees
      refine ⟨tried + 1,le_rfl,s,here,there,?_⟩
      rw [tryDown]
      refine Eq.trans ?_ (split_reaches left now s)
      generalize split first rest run (tried + 1) s = result at agrees
      obtain ⟨done,state⟩ := result
      cases agrees
      rfl
    · rw [failed,Option.isSome_none] at agrees
      obtain ⟨k,below,middle,here,there,same⟩ := ih later (split first rest run (tried + 1) s).2
      refine ⟨k,by omega,middle,here,there,?_⟩
      rw [← same,tryDown]
      simp [agrees]

theorem tryDown_preserves {r : σ → σ → Prop} (chained : ∀ {a b c}, r a b → r b c → r a c)
    (left : ∀ run s, r s (first run s).2) (right : ∀ run s, r s (rest run s).2) (run : List α) (tried : ℕ) (s : σ) :
    r s (tryDown first rest run tried s).2 := by
  have each : ∀ tried s, r s (split first rest run tried s).2 := by
    intro tried s
    rw [split]
    dsimp only
    split
    · exact chained (left _ _) (right _ _)
    · exact left _ _
  induction tried generalizing s with
  | zero => exact each 0 s
  | succ tried ih =>
    rw [tryDown]
    dsimp only
    split
    · exact each _ _
    · exact chained (each _ _) (ih _)

theorem handedOn_drop (left : Agrees first f) {run : List α} {tried : ℕ} {s : σ} {call : List α × σ}
    (handed : call ∈ handedOn first rest run tried s) :
    ∃ k ≤ tried, call.1 = run.drop k ∧ (f (run.take k)).isSome = true := by
  induction tried generalizing s with
  | zero =>
    have matched := left (run.take 0) s
    rw [handedOn] at handed
    dsimp only at handed
    split at handed
    · rename_i accepted
      rw [List.mem_singleton.mp handed]
      exact ⟨0,le_rfl,rfl,by rw [← matched,accepted]⟩
    · cases handed
  | succ tried ih =>
    have matched := left (run.take (tried + 1)) s
    have later : ∀ {s}, call ∈ handedOn first rest run tried s →
        ∃ k ≤ tried + 1, call.1 = run.drop k ∧ (f (run.take k)).isSome = true := by
      intro s member
      obtain ⟨k,below,both⟩ := ih member
      exact ⟨k,by omega,both⟩
    rw [handedOn] at handed
    dsimp only at handed
    split at handed
    · rename_i accepted
      rcases List.mem_cons.mp handed with here | there
      · rw [here]
        exact ⟨tried + 1,le_rfl,rfl,by rw [← matched,accepted]⟩
      · split at there
        · cases there
        · exact later there
    · exact later handed

theorem exists_upTo {P : ℕ → Prop} {top : ℕ} :
    (∃ k, 0 < k ∧ k ≤ top + 1 ∧ P k) ↔ P (top + 1) ∨ ∃ k, 0 < k ∧ k ≤ top ∧ P k := by
  constructor
  · intro given
    obtain ⟨k,positive,below,holds⟩ := given
    rcases Nat.le_succ_iff.mp below with lower | rfl
    · exact .inr ⟨k,positive,lower,holds⟩
    · exact .inl holds
  · intro given
    rcases given with last | ⟨k,positive,below,holds⟩
    · exact ⟨top + 1,Nat.succ_pos _,le_rfl,last⟩
    · exact ⟨k,positive,Nat.le_succ_of_le below,holds⟩

-- The whole run is handed on exactly if the empty piece is accepted and no longer one
-- leads to the end.
theorem handedOn_whole (left : Agrees first f) (right : Agrees rest g) {run : List α} {tried : ℕ}
    (fits : tried ≤ run.length) (s : σ) :
    (∃ call ∈ handedOn first rest run tried s, call.1 = run) ↔ (f []).isSome = true ∧
      ¬∃ k, 0 < k ∧ k ≤ tried ∧ (f (run.take k)).isSome = true ∧ (g (run.drop k)).isSome = true := by
  induction tried generalizing s with
  | zero =>
    have matched := left (run.take 0) s
    rw [List.take_zero] at matched
    rw [handedOn,← matched]
    dsimp only
    rw [List.take_zero]
    split
    · rename_i accepted
      simp [accepted]
    · rename_i refused
      simp [refused]
  | succ tried ih =>
    have matched := left (run.take (tried + 1)) s
    have shorter : run.drop (tried + 1) ≠ run := by
      intro same
      have sizes := congrArg List.length same
      rw [List.length_drop] at sizes
      omega
    rw [handedOn,exists_upTo]
    dsimp only
    split
    · rename_i accepted
      have done := right (run.drop (tried + 1)) (first (run.take (tried + 1)) s).2
      rw [accepted] at matched
      rw [← matched,← done,List.exists_mem_cons_iff]
      dsimp only
      simp only [shorter,false_or,true_and]
      split
      · rename_i finished
        simp [finished]
      · rename_i stuck
        rw [ih (by omega)]
        simp [stuck]
    · rename_i refused
      rw [Bool.not_eq_true] at refused
      rw [ih (by omega),← matched,refused]
      simp

end Attempts
end NdnCxx.Backtrack
