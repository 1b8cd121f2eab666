import NdnCxx.Regex.Anchors

namespace NdnCxx.Regex
open Brackets Backtrack RegexTopMatcher

def convertSpecialChar (str : Blob) : Blob :=
  str.flatMap (fun c =>
    if c ∈ [0x2E,0x5B,0x7B,0x7D,0x28,0x29,0x5C,0x2A,0x2B,0x3F,0x7C,0x5E,0x24] then [0x5C,c] else [c])

def fromNameText (name : Name) (hasAnchor : Bool) : Blob :=
  0x5E :: ((name.map (fun component => bracketed (convertSpecialChar component.toUri))).flatten ++
    if hasAnchor then [0x24] else [])

def fromName (engine : Engine) (name : Name) (hasAnchor : Bool) : Except CompileError CompiledTop :=
  topCompile engine (fromNameText name hasAnchor)

-- The special characters of an expression: `.[\x7b\x7d()\*+?|^$`.
def metacharacters : List UInt8 := [0x2E,0x5B,0x7B,0x7D,0x28,0x29,0x5C,0x2A,0x2B,0x3F,0x7C,0x5E,0x24]

-- An expression in which a backslash stands before every special character, and the
-- text it spells.
inductive Escaped : Blob → Blob → Prop where
  | nil : Escaped [] []
  | plain {c : UInt8} {expr text : Blob} : c ∉ metacharacters → Escaped expr text → Escaped (c :: expr) (c :: text)
  | escaped {c : UInt8} {expr text : Blob} :
      c ∈ metacharacters → Escaped expr text → Escaped (0x5C :: c :: expr) (c :: text)

-- What `boost::regex` does with `.*` and with escaped expressions.
structure Boost (engine : Engine) (oracle : Oracle) : Prop where
  known : engine [0x2E,0x2A] = some 0
  wild : ∀ target, oracle [0x2E,0x2A] target = true
  literal : ∀ expr text, Escaped expr text → engine expr = some 0 ∧ ∀ target, oracle expr target = true ↔ target = text

section Texts

theorem convertSpecialChar_escaped (str : Blob) : Escaped (convertSpecialChar str) str := by
  induction str with
  | nil => exact .nil
  | cons c str ih =>
    rw [convertSpecialChar,List.flatMap_cons]
    split
    · rename_i special
      exact .escaped special ih
    · rename_i ordinary
      exact .plain ordinary ih

theorem lookupTable_range {nibble : ℕ} (small : nibble < 16) :
    lookupTable nibble ≠ 0 ∧ lookupTable nibble ≠ 0x3C ∧ lookupTable nibble ≠ 0x3E := by
  interval_cases nibble <;> decide

-- Escaping leaves no zero byte and no angle bracket in a component's text.
theorem toEscaped_plain (bytes : Blob) : ∀ c ∈ toEscaped bytes, c ≠ 0 ∧ c ≠ 0x3C ∧ c ≠ 0x3E := by
  induction bytes with
  | nil => simp [toEscaped]
  | cons byte bytes ih =>
    intro c member
    rw [toEscaped] at member
    split at member
    · rcases List.mem_cons.mp member with rfl | member
      · decide
      · rcases List.mem_cons.mp member with rfl | member
        · exact lookupTable_range (Nat.mod_lt _ (by decide))
        · rcases List.mem_cons.mp member with rfl | member
          · exact lookupTable_range (Nat.mod_lt _ (by decide))
          · exact ih c member
    · rename_i kept
      rcases List.mem_cons.mp member with rfl | member
      · refine ⟨?_,?_,?_⟩
        all_goals
          rintro rfl
          exact kept rfl
      · exact ih c member

theorem convertSpecialChar_plain (bytes : Blob) : ∀ c ∈ convertSpecialChar (toEscaped bytes), c ≠ 0 ∧ c ≠ 0x3C ∧ c ≠ 0x3E := by
  intro c member
  rw [convertSpecialChar,List.mem_flatMap] at member
  obtain ⟨other,given,here⟩ := member
  split at here
  · rcases List.mem_cons.mp here with rfl | last
    · decide
    · rw [List.mem_singleton.mp last]
      exact toEscaped_plain bytes other given
  · rw [List.mem_singleton.mp here]
    exact toEscaped_plain bytes other given

end Texts

section Compiled
variable {engine : Engine} {oracle : Oracle} (boost : Boost engine oracle)

def literalNode (component : Component) : Node :=
  .repeated (.componentSet [convertSpecialChar component.toUri] true) 1 1

include boost in
theorem literal_readable (component : Component) : ReadableText engine (convertSpecialChar component.toUri) := by
  have plain := convertSpecialChar_plain component.bytes
  exact ⟨balanced_plain (fun c member => (plain c member).2),fun zero => (plain 0 zero).1 rfl,
    (boost.literal _ _ (convertSpecialChar_escaped component.toUri)).1⟩

theorem bracketed_ends (texts : List Blob) : PatternEnd (texts.map bracketed).flatten := by
  intro c first
  cases texts with
  | nil => cases first
  | cons text texts =>
    cases first
    exact .inr (.inl rfl)

include boost in
theorem name_compiles (name : Name) (refs : ℕ) :
    compileFrom engine refs (name.map (fun component => bracketed (convertSpecialChar component.toUri))).flatten =
      .ok (name.map literalNode,refs) := by
  induction name with
  | nil => rfl
  | cons component name ih =>
    have parts : ((component :: name).map (fun component => bracketed (convertSpecialChar component.toUri))).flatten =
        0x3C :: (convertSpecialChar component.toUri ++ 0x3E ::
          (name.map (fun component => bracketed (convertSpecialChar component.toUri))).flatten) := by simp [bracketed]
    have ends : PatternEnd (name.map (fun component => bracketed (convertSpecialChar component.toUri))).flatten := by
      have brackets := bracketed_ends (name.map (fun component => convertSpecialChar component.toUri))
      rwa [List.map_map] at brackets
    have extracted : extractPattern engine (compileFrom engine) refs 0x3C (convertSpecialChar component.toUri ++ 0x3E ::
        (name.map (fun component => bracketed (convertSpecialChar component.toUri))).flatten) =
        .ok (literalNode component,refs,
          (name.map (fun component => bracketed (convertSpecialChar component.toUri))).flatten) :=
      component_extracts (q := .once) (literal_readable boost component) (by decide) (by decide) refs
        (extractRepetition_text .once ends)
    rw [parts,compileFrom_cons,extracted]
    simp only [Throwing.ok_bind,ih]
    rfl

-- An escaped component matches itself only.
include boost in
theorem literal_language {component : Component} (filled : component.bytes ≠ []) (strict : Bool) (run : List Component) :
    run ∈ (literalNode component).matcher.language oracle strict ↔ run = [component] := by
  have uri : component.toUri ≠ [] := fun empty => filled (toEscaped_nil.mp empty)
  have text : convertSpecialChar component.toUri ≠ [] := by
    have escaped := convertSpecialChar_escaped component.toUri
    intro empty
    rw [empty] at escaped
    generalize component.toUri = spelled at uri escaped
    cases escaped
    exact uri rfl
  have matched : ∀ other : Component, componentMatch oracle other (convertSpecialChar component.toUri) = true ↔
      other = component := by
    intro other
    have literal := (boost.literal _ _ (convertSpecialChar_escaped component.toUri)).2 other.toUri
    rw [componentMatch,decide_eq_false text,Bool.false_or,literal]
    exact ⟨Component.toUri_injective,fun same => by rw [same]⟩
  have single : ∀ run, run ∈ (Matcher.componentSet [convertSpecialChar component.toUri] true).language oracle strict ↔
      run = [component] := by
    intro run
    rw [Matcher.language]
    constructor
    · rintro ⟨other,rfl,accepted⟩
      obtain ⟨expr,member,here⟩ := accepted.mpr rfl
      rw [List.mem_singleton.mp member] at here
      rw [(matched other).mp here]
    · rintro rfl
      exact ⟨component,rfl,fun _ => rfl,fun _ => ⟨_,.head _,(matched component).mpr rfl⟩⟩
  rw [literalNode,Node.matcher,Node.matcher,Matcher.language]
  constructor
  · rintro ⟨_,n,enough,below,power⟩
    have one : n = 1 := le_antisymm below enough
    rw [one,pow_one] at power
    exact (single run).mp power
  · rintro rfl
    refine ⟨fun _ empty => (by cases empty),1,le_rfl,le_rfl,?_⟩
    rw [pow_one]
    exact (single _).mpr rfl

include boost in
theorem name_language {name : Name} (filled : Wire.NonEmptyComponents name) (strict : Bool) (run : List Component) :
    run ∈ languageAll oracle strict (matchersOf (name.map literalNode)) ↔ run = name := by
  induction name generalizing run with
  | nil =>
    rw [List.map_nil,matchersOf,languageAll]
    exact Language.mem_one run
  | cons component name ih =>
    have later := fun run => ih (fun other member => filled other (.tail _ member)) run
    have first := fun run => literal_language boost (filled component (.head _)) strict run
    rw [List.map_cons,matchersOf,languageAll,Language.mem_mul]
    constructor
    · rintro ⟨front,here,back,there,rfl⟩
      rw [(first front).mp here,(later back).mp there]
      rfl
    · rintro rfl
      exact ⟨[component],(first _).mpr rfl,name,(later _).mpr rfl,rfl⟩

end Compiled

section Text
variable (name : Name) (hasAnchor : Bool)

-- Without an anchor the text ends with a bracket or with the `^` itself.
theorem fromNameText_dollar : hasDollar (fromNameText name hasAnchor) = hasAnchor := by
  rw [hasDollar,fromNameText]
  cases hasAnchor with
  | true => simp [List.getLast?_cons]
  | false =>
    rcases List.eq_nil_or_concat name with rfl | ⟨front,last,rfl⟩
    · rfl
    · simp [bracketed,List.getLast?_cons,List.getLast?_append]

theorem fromNameText_core : coreText (fromNameText name hasAnchor) =
    (name.map (fun component => bracketed (convertSpecialChar component.toUri))).flatten := by
  have dollar := fromNameText_dollar name hasAnchor
  have body : unterminated (fromNameText name hasAnchor) =
      0x5E :: (name.map (fun component => bracketed (convertSpecialChar component.toUri))).flatten := by
    rw [unterminated]
    cases hasAnchor with
    | true =>
      rw [if_pos (of_decide_eq_true dollar),fromNameText,if_pos rfl,← List.cons_append,List.dropLast_concat]
    | false =>
      rw [if_neg (of_decide_eq_false dollar),fromNameText]
      simp
  rw [coreText,body,List.head?_cons,if_pos rfl,List.tail_cons]

end Text

-- A name's expression accepts the names below it, or with the anchor the name alone.
theorem fromName_exact (engine : Engine) (oracle : Oracle) (boost : Boost engine oracle) (n : Name) (hasAnchor : Bool)
    (filled : Wire.NonEmptyComponents n) :
    ∃ top, fromName engine n hasAnchor = .ok top ∧ ∀ (s : State) (m : Name), m.length ≤ intMax →
      ((top.matchName oracle s m).1 = true ↔ if hasAnchor then m = n else n <+: m) := by
  have nonempty : fromNameText n hasAnchor ≠ [] := by simp [fromNameText]
  have compiled := name_compiles boost n 0
  refine ⟨padNodes (fromNameText n hasAnchor) (n.map literalNode),?_,?_⟩
  · rw [fromName,topCompile_core boost.known nonempty,fromNameText_core,compile_from,compiled]
    rfl
  · intro s m fits
    have caret : (topOf (fromNameText n hasAnchor) (n.map literalNode)).caret = true := rfl
    have dollar : (topOf (fromNameText n hasAnchor) (n.map literalNode)).dollar = hasAnchor := fromNameText_dollar n hasAnchor
    rw [padNodes_described (fun component => boost.wild component.toUri) _ _ s fits,Described,caret,dollar]
    simp only [name_language boost filled]
    constructor
    · rintro ⟨before,run,rest,rfl,front,behind,rfl⟩
      rw [front trivial,List.nil_append]
      split
      · rename_i anchored
        rw [behind anchored,List.append_nil]
      · exact List.prefix_append _ _
    · intro given
      split at given
      · exact ⟨[],n,[],by rw [given]; simp,fun _ => rfl,fun _ => rfl,rfl⟩
      · rename_i free
        obtain ⟨rest,rfl⟩ := given
        exact ⟨[],n,rest,by simp,fun _ => rfl,fun anchored => absurd anchored free,rfl⟩

section Samples

-- The text that is left, behind a backslash or not.
def unescape : Bool → Blob → Option Blob
  | behind,[] => if behind then none else some []
  | true,c :: rest => if c ∈ metacharacters then (unescape false rest).map (c :: ·) else none
  | false,c :: rest =>
    if c = 0x5C then unescape true rest
    else if c ∈ metacharacters then none
    else (unescape false rest).map (c :: ·)

-- Expressions that spell a text, and `.*`.
def spelledText : Oracle := fun expr target => decide (expr = [0x2E,0x2A]) || decide (unescape false expr = some target)

theorem escaped_unescape {expr text : Blob} (escaped : Escaped expr text) : unescape false expr = some text := by
  induction escaped with
  | nil => rfl
  | plain ordinary _ ih =>
    rw [unescape,if_neg ?other,if_neg ordinary,ih]
    case other =>
      rintro rfl
      exact ordinary (by decide)
    rfl
  | escaped special _ ih =>
    rw [unescape,if_pos rfl,unescape,if_pos special,ih]
    rfl

theorem spelledText_boost : Boost (fun _ => some 0) spelledText where
  known := rfl
  wild := by
    intro target
    rw [spelledText,decide_eq_true rfl,Bool.true_or]
  literal := by
    intro expr text escaped
    refine ⟨rfl,fun target => ?_⟩
    have spelled := escaped_unescape escaped
    have other : expr ≠ [0x2E,0x2A] := by
      intro wild
      rw [wild] at spelled
      cases spelled
    rw [spelledText,decide_eq_false other,Bool.false_or,spelled,decide_eq_true_eq,Option.some.injEq,eq_comm]

-- `/a.b` with its dot.
theorem fromName_exact_dot : ∃ top, fromName (fun _ => some 0) [⟨[0x61,0x2E,0x62]⟩] false = .ok top ∧
    ∀ (s : State) (m : Name), m.length ≤ intMax →
      ((top.matchName spelledText s m).1 = true ↔ if false = true then m = [⟨[0x61,0x2E,0x62]⟩] else [⟨[0x61,0x2E,0x62]⟩] <+: m) :=
  fromName_exact _ _ spelledText_boost [⟨[0x61,0x2E,0x62]⟩] false (by simp [Wire.NonEmptyComponents])

end Samples

end NdnCxx.Regex
