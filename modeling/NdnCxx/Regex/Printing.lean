import NdnCxx.Regex.Repetition
import NdnCxx.Regex.Totality
import NdnCxx.Wire.Fields

namespace NdnCxx.Regex
open Brackets
open RegexTopMatcher (isDigit)

theorem isNumber_decimal (n : ℕ) : isNumber (Wire.decimal n) = true := by
  obtain ⟨digits,_,first,others,starts,_⟩ := Wire.decimal_digits n
  rw [isNumber,Bool.and_eq_true,List.all_eq_true]
  refine ⟨by simp [starts],?_⟩
  intro c member
  have digit := digits c member
  simpa [Wire.isDigit,isDigit] using digit

def number (n : ℕ) : Number := ⟨Wire.decimal n,isNumber_decimal n⟩

theorem number_value (n : ℕ) : (number n).value = n := by
  obtain ⟨_,value,_⟩ := Wire.decimal_digits n
  refine Eq.trans ?_ value
  rw [Number.value,numberValue,Wire.digitsValue]
  simp only [Nat.mul_comm]
  rfl

-- How often an item of a pattern may repeat.
inductive Quantifier where
  | once
  | optional
  | plus
  | star
  | exactly (n : ℕ)
  | atLeast (n : ℕ)
  | atMost (m : ℕ)
  | between (n m : ℕ)
  deriving DecidableEq

namespace Quantifier

def text : Quantifier → Blob
  | once => []
  | optional => [0x3F]
  | plus => [0x2B]
  | star => [0x2A]
  | exactly n => (Suffix.exactly (number n)).text
  | atLeast n => (Suffix.atLeast (number n)).text
  | atMost m => (Suffix.atMost (number m)).text
  | between n m => (Suffix.both (number n) (number m)).text

def lower : Quantifier → ℕ
  | once => 1
  | optional => 0
  | plus => 1
  | star => 0
  | exactly n => n
  | atLeast n => n
  | atMost _ => 0
  | between n _ => n

def upper : Quantifier → ℕ
  | once => 1
  | optional => 1
  | plus => intMax
  | star => intMax
  | exactly n => n
  | atLeast _ => intMax
  | atMost m => m
  | between _ m => m

-- The numbers below 2^31.
def Small (q : Quantifier) : Prop := q.lower ≤ intMax ∧ q.upper ≤ intMax

def Ordered (q : Quantifier) : Prop := q.lower ≤ q.upper

instance (q : Quantifier) : Decidable q.Small := inferInstanceAs (Decidable (_ ∧ _))

instance (q : Quantifier) : Decidable q.Ordered := inferInstanceAs (Decidable (_ ≤ _))

end Quantifier

-- A pattern as it is meant. The texts between angle brackets are those of boost.
inductive Pattern where
  | component (text : Blob) (q : Quantifier)
  | set (included : Bool) (texts : List Blob) (q : Quantifier)
  | group (items : List Pattern) (q : Quantifier)

def bracketed (text : Blob) : Blob := 0x3C :: (text ++ [0x3E])

def setBody (included : Bool) (texts : List Blob) : Blob :=
  (if included then [] else [0x5E]) ++ (texts.map bracketed).flatten

mutual
def Pattern.print : Pattern → Blob
  | .component text q => bracketed text ++ q.text
  | .set included texts q => 0x5B :: (setBody included texts ++ [0x5D]) ++ q.text
  | .group items q => 0x28 :: (printAll items ++ [0x29]) ++ q.text

def printAll : List Pattern → Blob
  | [] => []
  | item :: items => item.print ++ printAll items
end

mutual
def Pattern.groups : Pattern → ℕ
  | .component _ _ => 0
  | .set _ _ _ => 0
  | .group items _ => groupsAll items + 1

def groupsAll : List Pattern → ℕ
  | [] => 0
  | item :: items => item.groups + groupsAll items
end

-- The matchers of a pattern where `refs` groups have opened before it. A group that is
-- not repeated stands for itself.
mutual
def Pattern.node : Pattern → ℕ → Node
  | .component text q,_ => .repeated (.componentSet [text] true) q.lower q.upper
  | .set included texts q,_ => .repeated (.componentSet texts included) q.lower q.upper
  | .group items q,refs =>
    let group := Node.backRef refs (nodeAll items (refs + 1))
    if q = .once then group else .repeated group q.lower q.upper

def nodeAll : List Pattern → ℕ → List Node
  | [],_ => []
  | item :: items,refs => item.node refs :: nodeAll items (refs + item.groups)
end

mutual
def Pattern.texts : Pattern → List Blob
  | .component text _ => [text]
  | .set _ texts _ => texts
  | .group items _ => textsAll items

def textsAll : List Pattern → List Blob
  | [] => []
  | item :: items => item.texts ++ textsAll items
end

mutual
def Pattern.quantifiers : Pattern → List Quantifier
  | .component _ q => [q]
  | .set _ _ q => [q]
  | .group items q => q :: quantifiersAll items

def quantifiersAll : List Pattern → List Quantifier
  | [] => []
  | item :: items => item.quantifiers ++ quantifiersAll items
end

-- A component text without parentheses in which the other brackets are balanced.
structure Bracketless (text : Blob) : Prop where
  parentheses : ∀ c ∈ text, c ≠ 0x28 ∧ c ≠ 0x29
  square : Balanced 0x5B 0x5D text
  angle : Balanced 0x3C 0x3E text

section Scanners

-- The scanners with two counters find the bracket that closes the first one.
theorem extractSubPattern_closing {left right : UInt8} (different : left ≠ right) (depth rcount : ℕ) (text : Blob) :
    extractSubPattern left right (rcount + depth + 1) rcount text =
      match closing left right depth text with
      | some found => .ok found
      | none => .error (.regexException "Error: parenthesis mismatch" []) := by
  induction text generalizing depth rcount with
  | nil => rfl
  | cons c text ih =>
    rw [extractSubPattern]
    simp only [closing]
    by_cases opens : c = left
    · subst opens
      have more := ih (depth + 1) rcount
      rw [← Nat.add_assoc] at more
      rw [if_pos rfl,if_neg different.symm,if_pos rfl,if_pos (by omega),more]
      cases closing c right (depth + 1) text <;> rfl
    · rw [if_neg (Ne.symm opens),if_neg opens]
      by_cases closes : c = right
      · subst closes
        rw [if_pos rfl,if_pos rfl]
        cases depth with
        | zero => rw [if_neg (by omega)]
        | succ depth =>
          have less := ih depth (rcount + 1)
          have same : rcount + 1 + depth + 1 = rcount + (depth + 1) + 1 := by omega
          rw [same] at less
          rw [if_pos (by omega),less]
          dsimp only
          cases closing left c depth text <;> rfl
      · rw [if_neg (Ne.symm closes),if_neg closes,if_pos (by omega),ih depth rcount]
        cases closing left right depth text <;> rfl

-- The other scanner stops with an error at a zero byte.
theorem extractComponent_inner {depth : ℕ} {inner : Blob} (closed : depthAfter 0x3C 0x3E depth inner = some 0)
    (plain : (0 : UInt8) ∉ inner) (rcount : ℕ) (rest : Blob) :
    extractComponent (rcount + depth + 1) rcount (inner ++ 0x3E :: rest) = .ok (inner ++ [0x3E],rest) := by
  induction inner generalizing depth rcount with
  | nil =>
    cases closed
    simp [extractComponent]
  | cons c inner ih =>
    have notZero : c ≠ 0 := fun zero => plain (zero ▸ .head _)
    have others : (0 : UInt8) ∉ inner := fun member => plain (.tail _ member)
    rw [List.cons_append,extractComponent,if_neg notZero]
    simp only [depthAfter] at closed
    by_cases opens : c = 0x3C
    · subst opens
      rw [if_pos rfl] at closed
      have more := ih closed others rcount
      have other : (0x3C : UInt8) ≠ 0x3E := by decide
      rw [← Nat.add_assoc] at more
      rw [if_pos rfl,if_neg other,if_pos (by omega),more]
      rfl
    · rw [if_neg opens] at closed ⊢
      by_cases closes : c = 0x3E
      · subst closes
        rw [if_pos rfl] at closed ⊢
        cases depth with
        | zero => cases closed
        | succ depth =>
          have less := ih closed others (rcount + 1)
          have same : rcount + 1 + depth + 1 = rcount + (depth + 1) + 1 := by omega
          rw [same] at less
          rw [if_pos (by omega),less]
          rfl
      · rw [if_neg closes] at closed ⊢
        rw [if_pos (by omega),ih closed others rcount]
        rfl

theorem extractComponent_text {text : Blob} (balanced : Balanced 0x3C 0x3E text) (plain : (0 : UInt8) ∉ text) (rest : Blob) :
    extractComponent 1 0 (text ++ 0x3E :: rest) = .ok (text ++ [0x3E],rest) := extractComponent_inner balanced plain 0 rest

theorem extractSubPattern_text {left right : UInt8} (different : left ≠ right) {inner : Blob}
    (balanced : Balanced left right inner) (rest : Blob) :
    extractSubPattern left right 1 0 (inner ++ right :: rest) = .ok (inner ++ [right],rest) := by
  have found := extractSubPattern_closing different 0 0 (inner ++ right :: rest)
  rwa [balanced.closing different] at found

-- What follows a pattern starts the next one or closes the group.
def PatternEnd (rest : Blob) : Prop := ∀ c ∈ rest.head?, c = 0x28 ∨ c = 0x3C ∨ c = 0x5B

theorem suffix_closes {body : Blob} (plain : ∀ c ∈ body, c ≠ 0x7D) (rest : Blob) :
    extractRepetition (0x7B :: (body ++ [0x7D]) ++ rest) = .ok (0x7B :: (body ++ [0x7D]),rest) := by
  have inside : ∀ c ∈ body, decide (c ≠ 0x7D) = true := fun c member => decide_eq_true (plain c member)
  have upTo : (body ++ 0x7D :: rest).takeWhile (· ≠ 0x7D) = body := by
    rw [List.takeWhile_append_of_pos inside,List.takeWhile_cons_of_neg (by decide),List.append_nil]
  have fromThere : (body ++ 0x7D :: rest).dropWhile (· ≠ 0x7D) = 0x7D :: rest := by
    rw [List.dropWhile_append_of_pos inside,List.dropWhile_cons_of_neg (by decide)]
  have parts : 0x7B :: (body ++ [0x7D]) ++ rest = 0x7B :: (body ++ 0x7D :: rest) := by simp
  rw [parts,extractRepetition,if_neg (by decide),if_pos rfl,fromThere,upTo]

theorem suffix_chars (suffix : Suffix) : ∀ c ∈ suffix.body, isDigit c = true ∨ c = 0x2C := by
  intro c member
  cases suffix with
  | both m n =>
    rcases List.mem_append.mp member with first | second
    · exact .inl (number_digits m c first)
    · exact (List.mem_cons.mp second).elim .inr (fun later => .inl (number_digits n c later))
  | atMost n => exact (List.mem_cons.mp member).elim .inr (fun later => .inl (number_digits n c later))
  | atLeast m =>
    rcases List.mem_append.mp member with first | second
    · exact .inl (number_digits m c first)
    · exact .inr (List.mem_singleton.mp second)
  | exactly m => exact .inl (number_digits m c member)

theorem suffix_without {stop : UInt8} (notDigit : isDigit stop = false) (notComma : stop ≠ 0x2C) (suffix : Suffix) :
    ∀ c ∈ suffix.body, c ≠ stop := by
  intro c member same
  rcases suffix_chars suffix c member with digit | comma
  · rw [same,notDigit] at digit
    cases digit
  · exact notComma (same ▸ comma)

theorem suffix_plain (suffix : Suffix) : ∀ c ∈ suffix.body, c ≠ 0x7D := suffix_without rfl (by decide) suffix

theorem extractRepetition_text (q : Quantifier) {rest : Blob} (ends : PatternEnd rest) :
    extractRepetition (q.text ++ rest) = .ok (q.text,rest) := by
  cases q with
  | once =>
    cases rest with
    | nil => rfl
    | cons c rest =>
      rcases ends c rfl with rfl | rfl | rfl
      all_goals rfl
  | optional => rfl
  | plus => rfl
  | star => rfl
  | exactly n => exact suffix_closes (suffix_plain (.exactly (number n))) rest
  | atLeast n => exact suffix_closes (suffix_plain (.atLeast (number n))) rest
  | atMost m => exact suffix_closes (suffix_plain (.atMost (number m))) rest
  | between n m => exact suffix_closes (suffix_plain (.both (number n) (number m))) rest

-- The bounds come back as they were printed.
theorem parseRepetition_legal (item : Blob) {suffix : Suffix} (legal : suffix.Legal) :
    parseRepetition (item ++ suffix.text) item.length = .ok (suffix.lower,suffix.upper) := by
  have order := legal.2.2
  rw [parseRepetition_suffix,lowHalf_small legal.1,lowHalf_small legal.2.1,if_neg (by omega)]

theorem parseRepetition_text (item : Blob) {q : Quantifier} (small : q.Small) (ordered : q.Ordered) :
    parseRepetition (item ++ q.text) item.length = .ok (q.lower,q.upper) := by
  have single : ∀ c : UInt8, (item ++ [c])[item.length]? = some c := fun c => by simp
  have longer : ∀ c : UInt8, (item ++ [c]).length = item.length + 1 := fun c => by simp
  have legal : ∀ {suffix : Suffix}, suffix.lower = q.lower → suffix.upper = q.upper → suffix.Legal := by
    intro suffix lower upper
    rw [Suffix.Legal,lower,upper]
    exact ⟨small.1,small.2,ordered⟩
  have same : ∀ {suffix : Suffix}, suffix.lower = q.lower → suffix.upper = q.upper →
      parseRepetition (item ++ suffix.text) item.length = .ok (q.lower,q.upper) := by
    intro suffix lower upper
    rw [parseRepetition_legal item (legal lower upper),lower,upper]
  cases q with
  | once => simp [parseRepetition,Quantifier.text,Quantifier.lower,Quantifier.upper]
  | optional =>
    rw [Quantifier.text,parseRepetition,if_neg (by rw [longer]; omega),if_pos (longer _),if_pos (single _)]
    rfl
  | plus =>
    rw [Quantifier.text,parseRepetition,if_neg (by rw [longer]; omega),if_pos (longer _),single,if_neg (by decide),if_pos rfl]
    rfl
  | star =>
    rw [Quantifier.text,parseRepetition,if_neg (by rw [longer]; omega),if_pos (longer _),single,if_neg (by decide),
      if_neg (by decide),if_pos rfl]
    rfl
  | exactly n => exact same (number_value n) (number_value n)
  | atLeast n => exact same (number_value n) rfl
  | atMost m => exact same rfl (number_value m)
  | between n m => exact same (number_value n) (number_value m)

theorem quantifier_without {stop : UInt8} (notDigit : isDigit stop = false)
    (others : stop ∉ [0x2C,0x3F,0x2B,0x2A,0x7B,0x7D]) (q : Quantifier) : ∀ c ∈ q.text, c ≠ stop := by
  simp only [List.mem_cons,List.not_mem_nil,or_false,not_or] at others
  obtain ⟨comma,question,plus,star,opens,closes⟩ := others
  have suffix : ∀ (suffix : Suffix), ∀ c ∈ suffix.text, c ≠ stop := by
    intro suffix c member
    rcases List.mem_cons.mp member with rfl | inside
    · exact Ne.symm opens
    · rcases List.mem_append.mp inside with body | last
      · exact suffix_without notDigit comma suffix c body
      · rw [List.mem_singleton.mp last]
        exact Ne.symm closes
  intro c member
  cases q with
  | once => cases member
  | optional =>
    rw [List.mem_singleton.mp member]
    exact Ne.symm question
  | plus =>
    rw [List.mem_singleton.mp member]
    exact Ne.symm plus
  | star =>
    rw [List.mem_singleton.mp member]
    exact Ne.symm star
  | exactly n => exact suffix _ c member
  | atLeast n => exact suffix _ c member
  | atMost m => exact suffix _ c member
  | between n m => exact suffix _ c member

end Scanners

section Balance

theorem bracketed_square {text : Blob} (plain : Bracketless text) : Balanced 0x5B 0x5D (bracketed text) := by
  have first : Balanced (0x5B : UInt8) 0x5D [0x3C] := by decide
  have last : Balanced (0x5B : UInt8) 0x5D [0x3E] := by decide
  exact first.append (plain.square.append last)

theorem setBody_square {texts : List Blob} (plain : ∀ text ∈ texts, Bracketless text) (included : Bool) :
    Balanced 0x5B 0x5D (setBody included texts) := by
  have mark : Balanced 0x5B 0x5D (if included then [] else [0x5E] : Blob) := by
    cases included <;> decide
  refine mark.append (Balanced.flatten ?_)
  intro part member
  obtain ⟨text,given,rfl⟩ := List.mem_map.mp member
  exact bracketed_square (plain text given)

theorem bracketed_parentheses {text : Blob} (plain : Bracketless text) :
    ∀ c ∈ bracketed text, c ≠ 0x28 ∧ c ≠ 0x29 := by
  intro c member
  rcases List.mem_cons.mp member with rfl | inside
  · decide
  · rcases List.mem_append.mp inside with body | last
    · exact plain.parentheses c body
    · rw [List.mem_singleton.mp last]
      decide

theorem set_parentheses {texts : List Blob} (plain : ∀ text ∈ texts, Bracketless text) (included : Bool) :
    ∀ c ∈ 0x5B :: (setBody included texts ++ [0x5D]), c ≠ 0x28 ∧ c ≠ 0x29 := by
  intro c member
  rcases List.mem_cons.mp member with rfl | inside
  · decide
  · rcases List.mem_append.mp inside with body | last
    · rcases List.mem_append.mp body with mark | parts
      · cases included with
        | true => cases mark
        | false =>
          rw [List.mem_singleton.mp mark]
          decide
      · obtain ⟨part,given,within⟩ := List.mem_flatten.mp parts
        obtain ⟨text,known,rfl⟩ := List.mem_map.mp given
        exact bracketed_parentheses (plain text known) c within
    · rw [List.mem_singleton.mp last]
      decide

theorem quantifier_parentheses (q : Quantifier) : Balanced 0x28 0x29 q.text :=
  balanced_plain (fun c member => ⟨quantifier_without rfl (by decide) q c member,quantifier_without rfl (by decide) q c member⟩)

-- What a group's scanner counts is balanced in every printed pattern.
mutual
theorem print_balanced (item : Pattern) (plain : ∀ text ∈ item.texts, Bracketless text) : Balanced 0x28 0x29 item.print := by
  cases item with
  | component text q =>
    rw [Pattern.texts] at plain
    rw [Pattern.print]
    exact (balanced_plain (bracketed_parentheses (plain text (.head _)))).append (quantifier_parentheses q)
  | set included texts q =>
    rw [Pattern.texts] at plain
    rw [Pattern.print]
    exact (balanced_plain (set_parentheses plain included)).append (quantifier_parentheses q)
  | group items q =>
    rw [Pattern.texts] at plain
    rw [Pattern.print]
    exact ((printAll_balanced items plain).wrap (by decide)).append (quantifier_parentheses q)

theorem printAll_balanced (items : List Pattern) (plain : ∀ text ∈ textsAll items, Bracketless text) :
    Balanced 0x28 0x29 (printAll items) := by
  cases items with
  | nil =>
    rw [printAll]
    exact .nil
  | cons item items =>
    rw [textsAll] at plain
    rw [printAll]
    exact (print_balanced item (fun text member => plain text (List.mem_append_left _ member))).append
      (printAll_balanced items (fun text member => plain text (List.mem_append_right _ member)))
end

theorem printAll_end (items : List Pattern) : PatternEnd (printAll items) := by
  intro c first
  cases items with
  | nil => cases first
  | cons item items =>
    cases item with
    | component text q =>
      cases first
      exact .inr (.inl rfl)
    | set included texts q =>
      cases first
      exact .inr (.inr rfl)
    | group inner q =>
      cases first
      exact .inl rfl

end Balance

-- A component text that the scanners read to its end and that `boost::regex` takes
-- without a group.
structure ReadableText (engine : Engine) (text : Blob) : Prop where
  angle : Balanced 0x3C 0x3E text
  nonzero : (0 : UInt8) ∉ text
  known : engine text = some 0

structure PlainText (engine : Engine) (text : Blob) : Prop where
  bracketless : Bracketless text
  nonzero : (0 : UInt8) ∉ text
  known : engine text = some 0

theorem PlainText.readable {engine : Engine} {text : Blob} (plain : PlainText engine text) :
    ReadableText engine text := ⟨plain.bracketless.angle,plain.nonzero,plain.known⟩

section Compilers
variable {engine : Engine}

theorem component_compiles {text : Blob} (readable : ReadableText engine text) (refs : ℕ) :
    componentCompile engine refs text = .ok (text,refs) := by
  rw [componentCompile,readable.known]
  rfl

theorem extractComponent_readable {text : Blob} (readable : ReadableText engine text) (rest : Blob) :
    extractComponent 1 0 (text ++ 0x3E :: rest) = .ok (text ++ [0x3E],rest) :=
  extractComponent_text readable.angle readable.nonzero rest

theorem single_compiles {text : Blob} (readable : ReadableText engine text) (refs : ℕ) :
    componentSetCompile engine refs (bracketed text) = .ok (.componentSet [text] true,refs) := by
  have read := extractComponent_readable readable []
  rw [bracketed,componentSetCompile,List.head?_cons,if_pos rfl,compileSingleComponent,List.tail_cons,read]
  simp [component_compiles readable]

theorem multiple_compiles (expr : Blob) {texts : List Blob} (plain : ∀ text ∈ texts, PlainText engine text)
    (fuel refs : ℕ) (fits : (texts.map bracketed).flatten.length < fuel) :
    compileMultipleComponents engine expr fuel refs ((texts.map bracketed).flatten ++ [0x5D]) = .ok (texts,refs) := by
  induction texts generalizing fuel with
  | nil =>
    cases fuel with
    | zero => cases fits
    | succ fuel => rfl
  | cons text texts ih =>
    cases fuel with
    | zero => cases fits
    | succ fuel =>
      have here := (plain text (.head _)).readable
      have read := extractComponent_readable here ((texts.map bracketed).flatten ++ [0x5D])
      have parts : ((text :: texts).map bracketed).flatten ++ [0x5D] =
          0x3C :: (text ++ 0x3E :: ((texts.map bracketed).flatten ++ [0x5D])) := by simp [bracketed]
      have less : (texts.map bracketed).flatten.length < fuel := by
        simp only [List.map_cons,List.flatten_cons,List.length_append,bracketed,List.length_cons] at fits
        omega
      have later := ih (fun other member => plain other (.tail _ member)) fuel less
      rw [parts]
      generalize text ++ 0x3E :: ((texts.map bracketed).flatten ++ [0x5D]) = inside at read
      cases inside with
      | nil => cases read
      | cons next rest =>
        rw [compileMultipleComponents,if_neg (by decide),read]
        simp [component_compiles here,later]

theorem set_compiles {texts : List Blob} (plain : ∀ text ∈ texts, PlainText engine text) (included : Bool) (refs : ℕ) :
    componentSetCompile engine refs (0x5B :: (setBody included texts ++ [0x5D])) = .ok (.componentSet texts included,refs) := by
  have last : (0x5B :: (setBody included texts ++ [0x5D])).getLast? = some 0x5D := by simp [List.getLast?_cons]
  have second : decide ((0x5B :: (setBody included texts ++ [0x5D]))[1]? ≠ some 0x5E) = included := by
    cases included with
    | false => rfl
    | true =>
      cases texts with
      | nil => rfl
      | cons text texts => rfl
  have start : (0x5B :: (setBody included texts ++ [0x5D])).drop (if included then 1 else 2) =
      (texts.map bracketed).flatten ++ [0x5D] := by
    cases included <;> simp [setBody]
  have fits : (texts.map bracketed).flatten.length < (0x5B :: (setBody included texts ++ [0x5D])).length := by
    simp only [setBody,List.length_cons,List.length_append]
    omega
  have compiled := multiple_compiles (0x5B :: (setBody included texts ++ [0x5D])) plain _ refs fits
  rw [componentSetCompile,List.head?_cons,if_neg (by decide),if_pos rfl,if_neg (by simp [last])]
  simp only [second,start,compiled]
  rfl

variable {patternList : ℕ → Blob → Except CompileError (Compiled (List Node))}

theorem repeat_compiles {c : UInt8} {body : Blob} {q : Quantifier} (small : q.Small) (ordered : q.Ordered)
    {refs after : ℕ} {item : Node}
    (compiled : (if c = 0x28 then pushBackRef patternList refs (c :: body) else componentSetCompile engine refs (c :: body)) =
      .ok (item,after)) :
    repeatCompile engine patternList refs (c :: body ++ q.text) (body.length + 1) =
      .ok (.repeated item q.lower q.upper,after) := by
  have whole : (c :: body ++ q.text).take (body.length + 1) = c :: body :=
    List.take_left' rfl
  have parsed := parseRepetition_text (c :: body) small ordered
  have first : (c :: body ++ q.text).head? = some 0x28 ↔ c = 0x28 := by
    rw [List.cons_append,List.head?_cons,Option.some.injEq]
  rw [List.length_cons] at parsed
  rw [repeatCompile,whole]
  simp only [first,compiled,parsed,Throwing.ok_bind]

-- A bracket, a balanced text, the bracket that closes it, and a repetition.
theorem pattern_extracts {c right : UInt8} (known : closingOf c = some right) (different : c ≠ right) {inner : Blob}
    (balanced : Balanced c right inner) {behind suffix rest : Blob} (repetition : extractRepetition behind = .ok (suffix,rest))
    {refs after : ℕ} {node : Node}
    (compiled : (if c = 0x28 ∧ suffix = [] then pushBackRef patternList refs (c :: (inner ++ [right]))
        else repeatCompile engine patternList refs (c :: (inner ++ [right]) ++ suffix) ((inner ++ [right]).length + 1)) =
      .ok (node,after)) :
    extractPattern engine patternList refs c (inner ++ right :: behind) = .ok (node,after,rest) := by
  rw [extractPattern,known]
  simp only [extractSubPattern_text different balanced,repetition,Throwing.ok_bind,compiled]

theorem text_empty {q : Quantifier} : q.text = [] ↔ q = .once := by
  cases q <;> simp [Quantifier.text,Suffix.text]

theorem group_compiles {items : List Pattern} {refs : ℕ}
    (inside : patternList (refs + 1) (printAll items) = .ok (nodeAll items (refs + 1),refs + 1 + groupsAll items)) :
    pushBackRef patternList refs (0x28 :: (printAll items ++ [0x29])) =
      .ok (.backRef refs (nodeAll items (refs + 1)),refs + 1 + groupsAll items) := by
  have last : (0x28 :: (printAll items ++ [0x29])).getLast? = some 0x29 := by simp [List.getLast?_cons]
  rw [pushBackRef,backRefCompile,if_pos ⟨rfl,last⟩,List.tail_cons,List.dropLast_concat,inside]
  rfl

theorem component_extracts {text : Blob} (readable : ReadableText engine text) {q : Quantifier} (small : q.Small)
    (ordered : q.Ordered) (refs : ℕ) {behind rest : Blob} (repetition : extractRepetition behind = .ok (q.text,rest)) :
    extractPattern engine patternList refs 0x3C (text ++ 0x3E :: behind) =
      .ok (.repeated (.componentSet [text] true) q.lower q.upper,refs,rest) := by
  refine pattern_extracts rfl (by decide) readable.angle repetition ?_
  rw [if_neg (fun both => absurd both.1 (by decide))]
  exact repeat_compiles small ordered (single_compiles readable refs)

-- What a printed pattern is compiled to, if the group in it is.
theorem pattern_compiles (item : Pattern) (plain : ∀ text ∈ item.texts, PlainText engine text)
    (legal : ∀ q ∈ item.quantifiers, q.Small ∧ q.Ordered) (refs : ℕ)
    (inside : ∀ items q, item = .group items q →
      patternList (refs + 1) (printAll items) = .ok (nodeAll items (refs + 1),refs + 1 + groupsAll items))
    {rest : Blob} (ends : PatternEnd rest) :
    ∃ c text, item.print ++ rest = c :: text ∧
      extractPattern engine patternList refs c text = .ok (item.node refs,refs + item.groups,rest) := by
  cases item with
  | component text q =>
    have here := plain text (by rw [Pattern.texts]; exact .head _)
    obtain ⟨small,ordered⟩ := legal q (by rw [Pattern.quantifiers]; exact .head _)
    refine ⟨0x3C,text ++ 0x3E :: (q.text ++ rest),by simp [Pattern.print,bracketed],?_⟩
    rw [Pattern.node,Pattern.groups]
    exact component_extracts here.readable small ordered refs (extractRepetition_text q ends)
  | set included texts q =>
    rw [Pattern.texts] at plain
    obtain ⟨small,ordered⟩ := legal q (by rw [Pattern.quantifiers]; exact .head _)
    refine ⟨0x5B,setBody included texts ++ 0x5D :: (q.text ++ rest),by simp [Pattern.print],?_⟩
    rw [Pattern.node,Pattern.groups]
    refine pattern_extracts rfl (by decide) (setBody_square (fun text member => (plain text member).bracketless) included)
      (extractRepetition_text q ends) ?_
    rw [if_neg (fun both => absurd both.1 (by decide))]
    exact repeat_compiles small ordered (set_compiles plain included refs)
  | group items q =>
    rw [Pattern.texts] at plain
    obtain ⟨small,ordered⟩ := legal q (by rw [Pattern.quantifiers]; exact .head _)
    have group := group_compiles (inside items q rfl)
    refine ⟨0x28,printAll items ++ 0x29 :: (q.text ++ rest),by simp [Pattern.print],?_⟩
    rw [Pattern.node,Pattern.groups,← Nat.add_assoc,Nat.add_right_comm refs]
    refine pattern_extracts rfl (by decide) (printAll_balanced items (fun text member => (plain text member).bracketless))
      (extractRepetition_text q ends) ?_
    simp only [text_empty,true_and]
    split
    · exact group
    · exact repeat_compiles small ordered group

theorem print_starts (item : Pattern) : ∃ c text, item.print = c :: text := by
  cases item with
  | component text q => exact ⟨_,_,by rw [Pattern.print]; rfl⟩
  | set included texts q => exact ⟨_,_,by rw [Pattern.print]; rfl⟩
  | group items q => exact ⟨_,_,by rw [Pattern.print]; rfl⟩

-- By induction on the fuel, which bounds the text that is left.
theorem printed_compiles (fuel refs : ℕ) (items : List Pattern) (fits : (printAll items).length ≤ fuel)
    (plain : ∀ text ∈ textsAll items, PlainText engine text)
    (legal : ∀ q ∈ quantifiersAll items, q.Small ∧ q.Ordered) :
    patternListCompile engine fuel refs (printAll items) = .ok (nodeAll items refs,refs + groupsAll items) := by
  induction fuel generalizing refs items with
  | zero =>
    have empty := List.length_eq_zero_iff.mp (Nat.le_zero.mp fits)
    cases items with
    | nil =>
      rw [printAll,patternListCompile,nodeAll,groupsAll]
      rfl
    | cons item items =>
      obtain ⟨c,text,starts⟩ := print_starts item
      rw [printAll,starts] at empty
      cases empty
  | succ fuel ih =>
    cases items with
    | nil =>
      rw [printAll,patternListCompile,nodeAll,groupsAll]
      rfl
    | cons item items =>
      rw [printAll,List.length_append] at fits
      rw [textsAll] at plain
      rw [quantifiersAll] at legal
      have inside : ∀ inner q, item = .group inner q → patternListCompile engine fuel (refs + 1) (printAll inner) =
          .ok (nodeAll inner (refs + 1),refs + 1 + groupsAll inner) := by
        intro inner q same
        subst same
        rw [Pattern.print] at fits
        simp only [List.length_cons,List.length_append] at fits
        refine ih (refs + 1) inner (by omega) ?_ ?_
        · exact fun text member => plain text (List.mem_append_left _ (by rwa [Pattern.texts]))
        · exact fun q member => legal q (List.mem_append_left _ (by rw [Pattern.quantifiers]; exact .tail _ member))
      obtain ⟨c,text,starts,extracted⟩ := pattern_compiles item
        (fun text member => plain text (List.mem_append_left _ member))
        (fun q member => legal q (List.mem_append_left _ member)) refs inside (printAll_end items)
      have positive : 0 < item.print.length := by
        obtain ⟨c,text,starts⟩ := print_starts item
        simp [starts]
      have others := ih (refs + item.groups) items (by omega)
        (fun text member => plain text (List.mem_append_right _ member))
        (fun q member => legal q (List.mem_append_right _ member))
      rw [printAll,starts,patternListCompile,extracted]
      simp only [Throwing.ok_bind,others]
      rw [nodeAll,groupsAll,Nat.add_assoc]

end Compilers

section Numbering

-- The places of the back references, a group before what is in it.
mutual
def Node.indexes : Node → List ℕ
  | .componentSet _ _ => []
  | .backRef index items => index :: indexesAll items
  | .repeated item _ _ => item.indexes

def indexesAll : List Node → List ℕ
  | [] => []
  | item :: items => item.indexes ++ indexesAll items
end

mutual
theorem node_indexes (item : Pattern) (refs : ℕ) : (item.node refs).indexes = List.range' refs item.groups := by
  cases item with
  | component text q =>
    rw [Pattern.node,Node.indexes,Node.indexes]
    rfl
  | set included texts q =>
    rw [Pattern.node,Node.indexes,Node.indexes]
    rfl
  | group items q =>
    have group : (Node.backRef refs (nodeAll items (refs + 1))).indexes = List.range' refs (groupsAll items + 1) := by
      rw [Node.indexes,nodeAll_indexes items (refs + 1)]
      rfl
    rw [Pattern.node,Pattern.groups]
    split
    · exact group
    · rwa [Node.indexes]

theorem nodeAll_indexes (items : List Pattern) (refs : ℕ) :
    indexesAll (nodeAll items refs) = List.range' refs (groupsAll items) := by
  cases items with
  | nil =>
    rw [nodeAll,indexesAll]
    rfl
  | cons item items =>
    rw [nodeAll,indexesAll,groupsAll,node_indexes item refs,nodeAll_indexes items (refs + item.groups)]
    exact List.range'_append_1
end

end Numbering

theorem compile_settles (engine : Engine) (text : Blob) :
    (∃ nodes refs, compile engine text = .ok (nodes,refs)) ∨
      ∃ error : CompileError, compile engine text = .error error ∧ error.Thrown := by
  have settles := patternListCompile_settles engine 0 (le_refl text.length)
  rw [compile]
  cases reached : patternListCompile engine text.length 0 text with
  | ok result => exact .inl ⟨result.1,result.2,rfl⟩
  | error error => exact .inr ⟨error,rfl,settles error reached⟩

-- Every text is compiled or refused, and what a tree of patterns is printed to is
-- compiled to the matchers of that tree.
theorem pattern_compilation (engine : Engine) :
    (∀ text, (∃ nodes refs, compile engine text = .ok (nodes,refs)) ∨
        ∃ error : CompileError, compile engine text = .error error ∧ error.Thrown) ∧
      ∀ items : List Pattern, (∀ text ∈ textsAll items, PlainText engine text) →
        (∀ q ∈ quantifiersAll items, q.Small ∧ q.Ordered) →
        compile engine (printAll items) = .ok (nodeAll items 0,groupsAll items) ∧
          indexesAll (nodeAll items 0) = List.range (groupsAll items) := by
  refine ⟨compile_settles engine,?_⟩
  intro items plain legal
  constructor
  · have compiled := printed_compiles (printAll items).length 0 items le_rfl plain legal
    rwa [Nat.zero_add] at compiled
  · rw [nodeAll_indexes,List.range_eq_range']

section Samples

-- `(<a>(<b>*)\x7b2,3\x7d[^<c><d>]?)+(<e>)`.
def nestedPatterns : List Pattern :=
  [.group [.component [0x61] .once,.group [.component [0x62] .star] (.between 2 3),.set false [[0x63],[0x64]] .optional] .plus,
    .group [.component [0x65] .once] .once]

theorem plain_letter {c : UInt8} (letter : c ∈ [0x61,0x62,0x63,0x64,0x65]) : PlainText (fun _ => some 0) [c] := by
  simp only [List.mem_cons,List.not_mem_nil,or_false] at letter
  rcases letter with rfl | rfl | rfl | rfl | rfl
  all_goals exact ⟨⟨by simp,by decide,by decide⟩,by simp,rfl⟩

theorem pattern_compilation_nested :
    compile (fun _ => some 0) (printAll nestedPatterns) = .ok (nodeAll nestedPatterns 0,3) := by
  refine ((pattern_compilation (fun _ => some 0)).2 nestedPatterns ?_ (by decide)).1
  intro text member
  simp only [nestedPatterns,textsAll,Pattern.texts,List.append_nil,List.cons_append,List.nil_append,List.mem_cons,
    List.not_mem_nil,or_false] at member
  rcases member with rfl | rfl | rfl | rfl | rfl
  all_goals exact plain_letter (by decide)

-- Bounds the other way round, and a zero byte in a component.
def reversedBounds : List Pattern := [.component [0x61] (.between 3 2)]

def zeroByte : List Pattern := [.component [0x61,0] .once]

theorem pattern_refused :
    ((∀ text ∈ textsAll reversedBounds, Bracketless text) ∧ (∀ q ∈ quantifiersAll reversedBounds, q.Small) ∧
        ∃ error, compile (fun _ => some 0) (printAll reversedBounds) = .error error) ∧
      (∀ text ∈ textsAll zeroByte, Bracketless text) ∧ (∀ q ∈ quantifiersAll zeroByte, q.Small) ∧
        ∃ error, compile (fun _ => some 0) (printAll zeroByte) = .error error := by
  refine ⟨⟨?_,by decide,_,rfl⟩,?_,by decide,_,rfl⟩
  · intro text member
    rw [List.mem_singleton.mp member]
    exact ⟨by simp,by decide,by decide⟩
  · intro text member
    rw [List.mem_singleton.mp member]
    exact ⟨by simp,by decide,by decide⟩

end Samples

end NdnCxx.Regex
