import NdnCxx.Regex.Compile

namespace NdnCxx.Regex

-- The errors that the source throws itself or lets through.
def CompileError.Thrown : CompileError → Prop
  | .regexException _ _ => True
  | .regexError => True
  | .unset => False
  | .outOfFuel => False

-- A result or an exception of the program.
def Settles {α : Type} (result : Except CompileError α) : Prop := ∀ error, result = .error error → error.Thrown

section Results
variable {α β : Type}

theorem settles_ok (a : α) : Settles (.ok a : Except CompileError α) := by
  intro error same
  cases same

theorem settles_thrown {error : CompileError} (thrown : error.Thrown) : Settles (.error error : Except CompileError α) := by
  intro other same
  cases same
  exact thrown

theorem Settles.bind {first : Except CompileError α} {next : α → Except CompileError β} (settles : Settles first)
    (later : ∀ a, first = .ok a → Settles (next a)) : Settles (first >>= next) := by
  intro error same
  rcases Throwing.bind_error same with here | ⟨a,ok,there⟩
  · exact settles error here
  · exact later a ok error there

theorem Settles.map {first : Except CompileError α} (f : α → β) (settles : Settles first) : Settles (first.map f) := by
  intro error same
  cases first with
  | error thrown =>
    cases same
    exact settles _ rfl
  | ok a => cases same

theorem map_ok {first : Except CompileError α} {f : α → β} {b : β} (same : first.map f = .ok b) :
    ∃ a, first = .ok a ∧ f a = b := by
  cases first with
  | error thrown => cases same
  | ok a =>
    cases same
    exact ⟨a,rfl,rfl⟩

end Results

section Scanners

theorem extractSubPattern_settles (left right : UInt8) (lcount rcount : ℕ) (text : Blob) :
    Settles (extractSubPattern left right lcount rcount text) := by
  induction text generalizing lcount rcount with
  | nil => exact settles_thrown trivial
  | cons c text ih =>
    rw [extractSubPattern]
    dsimp only
    generalize (if left = c then lcount + 1 else lcount) = lcount
    generalize (if right = c then rcount + 1 else rcount) = rcount
    split
    · exact (ih _ _).map _
    · exact settles_ok _

theorem extractSubPattern_parts {left right : UInt8} {lcount rcount : ℕ} {text inner rest : Blob}
    (read : extractSubPattern left right lcount rcount text = .ok (inner,rest)) : text = inner ++ rest := by
  induction text generalizing lcount rcount inner with
  | nil => cases read
  | cons c text ih =>
    rw [extractSubPattern] at read
    dsimp only at read
    generalize (if left = c then lcount + 1 else lcount) = lcount at read
    generalize (if right = c then rcount + 1 else rcount) = rcount at read
    split at read
    · obtain ⟨⟨shorter,rest'⟩,here,same⟩ := map_ok read
      cases same
      rw [ih here,List.cons_append]
    · cases read
      rfl

theorem extractComponent_settles (lcount rcount : ℕ) (text : Blob) : Settles (extractComponent lcount rcount text) := by
  induction text generalizing lcount rcount with
  | nil => exact settles_thrown trivial
  | cons c text ih =>
    rw [extractComponent]
    split
    · exact settles_thrown trivial
    · dsimp only
      generalize (if c = 0x3C then lcount + 1 else lcount) = lcount
      generalize (if c = 0x3E then rcount + 1 else rcount) = rcount
      split
      · exact (ih _ _).map _
      · exact settles_ok _

theorem extractComponent_parts {lcount rcount : ℕ} {text inner rest : Blob}
    (read : extractComponent lcount rcount text = .ok (inner,rest)) : text = inner ++ rest := by
  induction text generalizing lcount rcount inner with
  | nil => cases read
  | cons c text ih =>
    rw [extractComponent] at read
    split at read
    · cases read
    · dsimp only at read
      generalize (if c = 0x3C then lcount + 1 else lcount) = lcount at read
      generalize (if c = 0x3E then rcount + 1 else rcount) = rcount at read
      split at read
      · obtain ⟨⟨shorter,rest'⟩,here,same⟩ := map_ok read
        cases same
        rw [ih here,List.cons_append]
      · cases read
        rfl

theorem extractRepetition_settles (text : Blob) : Settles (extractRepetition text) := by
  cases text with
  | nil => exact settles_ok _
  | cons c rest =>
    rw [extractRepetition]
    split
    · exact settles_ok _
    · split
      · split
        · exact settles_thrown trivial
        · exact settles_ok _
      · exact settles_ok _

-- A repetition of one character is one of the three that stand for themselves.
theorem extractRepetition_parts {text suffix rest : Blob} (read : extractRepetition text = .ok (suffix,rest)) :
    text = suffix ++ rest ∧ (suffix.length = 1 → suffix = [0x3F] ∨ suffix = [0x2B] ∨ suffix = [0x2A]) := by
  cases text with
  | nil =>
    cases read
    exact ⟨rfl,fun one => absurd one (by decide)⟩
  | cons c others =>
    rw [extractRepetition] at read
    split at read
    · rename_i single
      cases read
      refine ⟨rfl,fun _ => ?_⟩
      rcases single with rfl | rfl | rfl
      · exact .inr (.inl rfl)
      · exact .inl rfl
      · exact .inr (.inr rfl)
    · split at read
      · split at read
        · cases read
        · rename_i brace tail after
          cases read
          have joined : others.takeWhile (· ≠ 0x7D) ++ brace :: rest = others := by
            rw [← after,List.takeWhile_append_dropWhile]
          refine ⟨?_,fun one => absurd one (by simp)⟩
          rw [List.cons_append,List.append_assoc,List.singleton_append,joined]
      · cases read
        exact ⟨rfl,fun one => absurd one (by decide)⟩

end Scanners

section Compilers
variable (engine : Engine)

theorem componentCompile_settles (refs : ℕ) (expr : Blob) : Settles (componentCompile engine refs expr) := by
  rw [componentCompile]
  split
  · exact settles_thrown trivial
  · exact settles_ok _

theorem compileMultipleComponents_settles (expr : Blob) {fuel : ℕ} (refs : ℕ) {text : Blob} (fits : text.length < fuel) :
    Settles (compileMultipleComponents engine expr fuel refs text) := by
  induction fuel generalizing refs text with
  | zero => cases fits
  | succ fuel ih =>
    match text with
    | [] => exact settles_thrown trivial
    | [_] => exact settles_ok _
    | c :: next :: rest =>
      rw [compileMultipleComponents]
      split
      · exact settles_thrown trivial
      · refine (extractComponent_settles _ _ _).bind (fun (item,others) read => ?_)
        refine (componentCompile_settles engine refs _).bind (fun (component,refs) _ => ?_)
        have parts := congrArg List.length (extractComponent_parts read)
        simp only [List.length_cons,List.length_append] at parts fits
        exact (ih refs (by omega)).bind (fun _ _ => settles_ok _)

theorem componentSetCompile_settles (refs : ℕ) (expr : Blob) : Settles (componentSetCompile engine refs expr) := by
  rw [componentSetCompile]
  split
  · refine (extractComponent_settles _ _ _).bind (fun (item,others) _ => ?_)
    dsimp only
    split
    · exact settles_thrown trivial
    · exact (componentCompile_settles engine refs _).bind (fun _ _ => settles_ok _)
  · split
    · split
      · exact settles_thrown trivial
      · rename_i bracket _
        have positive : 0 < expr.length := by
          cases expr with
          | nil => cases bracket
          | cons c rest => exact Nat.succ_pos _
        refine Settles.map _ (compileMultipleComponents_settles engine expr refs ?_)
        rw [List.length_drop]
        split <;> omega
    · exact settles_thrown trivial

theorem parseRepetition_settles {expr : Blob} {indicator : ℕ}
    (single : expr.length = indicator + 1 →
      expr[indicator]? = some 0x3F ∨ expr[indicator]? = some 0x2B ∨ expr[indicator]? = some 0x2A) :
    Settles (parseRepetition expr indicator) := by
  rw [parseRepetition]
  split
  · exact settles_ok _
  · split
    · rename_i one
      rcases single one with question | plus | star
      · rw [if_pos question]
        exact settles_ok _
      · rw [plus,if_neg (by decide),if_pos rfl]
        exact settles_ok _
      · rw [star,if_neg (by decide),if_neg (by decide),if_pos rfl]
        exact settles_ok _
    · split
      · exact settles_thrown trivial
      · split
        · exact settles_thrown trivial
        · exact settles_ok _

variable {patternList : ℕ → Blob → Except CompileError (Compiled (List Node))}

theorem pushBackRef_settles (refs : ℕ) (c : UInt8) (inner : Blob) (inside : Settles (patternList (refs + 1) inner.dropLast)) :
    Settles (pushBackRef patternList refs (c :: inner)) := by
  refine Settles.map _ ?_
  rw [backRefCompile]
  split
  · exact inside
  · exact settles_thrown trivial

theorem repeatCompile_settles (refs : ℕ) (c : UInt8) (inner : Blob) {suffix : Blob}
    (single : suffix.length = 1 → suffix = [0x3F] ∨ suffix = [0x2B] ∨ suffix = [0x2A])
    (inside : Settles (patternList (refs + 1) inner.dropLast)) :
    Settles (repeatCompile engine patternList refs (c :: inner ++ suffix) (inner.length + 1)) := by
  have whole : (c :: inner ++ suffix).take (inner.length + 1) = c :: inner :=
    List.take_left' rfl
  have item : Settles (if (c :: inner ++ suffix).head? = some 0x28 then pushBackRef patternList refs (c :: inner)
      else componentSetCompile engine refs (c :: inner)) := by
    split
    · exact pushBackRef_settles refs c inner inside
    · exact componentSetCompile_settles engine refs _
  rw [repeatCompile,whole]
  refine item.bind (fun (item,refs) _ => Settles.bind (parseRepetition_settles ?_) (fun _ _ => settles_ok _))
  intro one
  have size : suffix.length = 1 := by
    simp only [List.length_cons,List.length_append] at one
    omega
  have last : (c :: inner ++ suffix)[inner.length + 1]? = suffix[0]? := by
    rw [List.getElem?_append_right (by simp)]
    simp
  rw [last]
  rcases single size with rfl | rfl | rfl
  · exact .inl rfl
  · exact .inr (.inl rfl)
  · exact .inr (.inr rfl)

-- One pattern settles if the groups inside it do, and it leaves less text than it took.
theorem extractPattern_settles (refs : ℕ) (c : UInt8) (rest : Blob)
    (inside : ∀ refs text, text.length ≤ rest.length → Settles (patternList refs text)) :
    Settles (extractPattern engine patternList refs c rest) := by
  rw [extractPattern]
  split
  · exact settles_thrown trivial
  · rename_i right _
    refine (extractSubPattern_settles c right 1 0 rest).bind (fun (inner,others) read => ?_)
    refine (extractRepetition_settles others).bind (fun (suffix,others') repetition => ?_)
    have parts := congrArg List.length (extractSubPattern_parts read)
    have group : ∀ refs, Settles (patternList refs inner.dropLast) := by
      intro refs
      refine inside refs inner.dropLast ?_
      simp only [List.length_append] at parts
      rw [List.length_dropLast]
      omega
    refine Settles.bind ?_ (fun _ _ => settles_ok _)
    split
    · exact pushBackRef_settles refs c inner (group _)
    · exact repeatCompile_settles engine refs c inner (extractRepetition_parts repetition).2 (group _)

theorem extractPattern_shorter {refs after : ℕ} {c : UInt8} {rest others : Blob} {node : Node}
    (extracted : extractPattern engine patternList refs c rest = .ok (node,after,others)) : others.length ≤ rest.length := by
  rw [extractPattern] at extracted
  split at extracted
  · cases extracted
  · obtain ⟨⟨inner,behind⟩,read,later⟩ := Throwing.bind_ok extracted
    obtain ⟨⟨suffix,last⟩,repetition,later⟩ := Throwing.bind_ok later
    obtain ⟨⟨node',refs'⟩,_,same⟩ := Throwing.bind_ok later
    cases same
    have first := congrArg List.length (extractSubPattern_parts read)
    have second := congrArg List.length (extractRepetition_parts repetition).1
    simp only [List.length_append] at first second
    omega

theorem patternListCompile_settles {fuel : ℕ} (refs : ℕ) {text : Blob} (fits : text.length ≤ fuel) :
    Settles (patternListCompile engine fuel refs text) := by
  induction fuel generalizing refs text with
  | zero =>
    rw [List.length_eq_zero_iff.mp (Nat.le_zero.mp fits),patternListCompile]
    exact settles_ok _
  | succ fuel ih =>
    cases text with
    | nil =>
      rw [patternListCompile]
      exact settles_ok _
    | cons c rest =>
      rw [List.length_cons] at fits
      rw [patternListCompile]
      refine (extractPattern_settles engine refs c rest (fun refs text shorter => ih refs (by omega))).bind
        (fun (node,refs,others) extracted => ?_)
      have shorter := extractPattern_shorter engine extracted
      exact (ih refs (by omega)).bind (fun _ _ => settles_ok _)

end Compilers

end NdnCxx.Regex
