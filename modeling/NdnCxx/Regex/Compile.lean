import NdnCxx.Regex.Matcher
import NdnCxx.Lib.Brackets
import NdnCxx.Lib.Throwing

namespace NdnCxx.Regex
open RegexTopMatcher (isDigit)

-- What a constructor throws: a `RegexException` with its text and the expression behind
-- it, or the error of `boost::regex`. `unset` stands for bounds that stay uninitialised,
-- `outOfFuel` is no behaviour of the program.
inductive CompileError where
  | regexException (msg : String) (expr : Blob)
  | regexError
  | unset
  | outOfFuel
  deriving DecidableEq, Repr

-- `boost::regex (text)`: how many groups the text marks, or nothing where it is malformed.
abbrev Engine := Blob → Option ℕ

-- The matcher objects. A back reference has its place in the manager.
inductive Node where
  | componentSet (components : List Blob) (included : Bool)
  | backRef (index : ℕ) (items : List Node)
  | repeated (item : Node) (repeatMin repeatMax : ℤ)

-- What a compiler returns, and how many references the manager holds then.
abbrev Compiled (α : Type) := α × ℕ

-- In place of an index the scanners take the text from there on. They return what they
-- have read and the rest.
def extractSubPattern (left right : UInt8) : ℕ → ℕ → Blob → Except CompileError (Blob × Blob)
  | _,_,[] => .error (.regexException "Error: parenthesis mismatch" [])
  | lcount,rcount,c :: rest =>
    let lcount := if left = c then lcount + 1 else lcount
    let rcount := if right = c then rcount + 1 else rcount
    if rcount < lcount then (extractSubPattern left right lcount rcount rest).map (fun (inner,rest) => (c :: inner,rest))
    else .ok ([c],rest)

def extractRepetition : Blob → Except CompileError (Blob × Blob)
  | [] => .ok ([],[])
  | c :: rest =>
    if c = 0x2B ∨ c = 0x3F ∨ c = 0x2A then .ok ([c],rest)
    else if c = 0x7B then
      match rest.dropWhile (· ≠ 0x7D) with
      | [] => .error (.regexException "Error: RegexPatternListMatcher.ExtractRepetition(): Missing right brace bracket" [])
      | brace :: others => .ok (c :: (rest.takeWhile (· ≠ 0x7D) ++ [brace]),others)
    else .ok ([],c :: rest)

def squareMismatch : CompileError := .regexException "Error: square brackets mismatch" []

-- The end of the expression reads as a zero.
def extractComponent : ℕ → ℕ → Blob → Except CompileError (Blob × Blob)
  | _,_,[] => .error squareMismatch
  | lcount,rcount,c :: rest =>
    if c = 0 then .error squareMismatch
    else
      let lcount := if c = 0x3C then lcount + 1 else lcount
      let rcount := if c = 0x3E then rcount + 1 else rcount
      if rcount < lcount then (extractComponent lcount rcount rest).map (fun (inner,rest) => (c :: inner,rest))
      else .ok ([c],rest)

section Components
variable (engine : Engine)

-- Every group of the component's text becomes a pseudo matcher of its own.
def componentCompile (refs : ℕ) (expr : Blob) : Except CompileError (Compiled Blob) :=
  match engine expr with
  | none => .error .regexError
  | some marks => .ok (expr,refs + marks)

def compileSingleComponent (refs : ℕ) (expr : Blob) : Except CompileError (Compiled Node) := do
  let (item,others) ← extractComponent 1 0 expr.tail
  if others ≠ [] then .error (.regexException "Error: RegexComponentSetMatcher.compileSingleComponent: " expr)
  else
    let (component,refs) ← componentCompile engine refs item.dropLast
    .ok (.componentSet [component] true,refs)

-- The loop stands at the last index when one character is left.
def compileMultipleComponents (expr : Blob) : ℕ → ℕ → Blob → Except CompileError (Compiled (List Blob))
  | 0,_,_ => .error .outOfFuel
  | _ + 1,_,[] => .error (.regexException
      "Error: RegexComponentSetMatcher.compileMultipleComponents: Not sufficient expr to parse " expr)
  | _ + 1,refs,[_] => .ok ([],refs)
  | fuel + 1,refs,c :: next :: rest =>
    if c ≠ 0x3C then .error (.regexException
      "Error: RegexComponentSetMatcher.compileMultipleComponents: Component expr error " expr)
    else do
      let (item,others) ← extractComponent 1 0 (next :: rest)
      let (component,refs) ← componentCompile engine refs item.dropLast
      let (components,refs) ← compileMultipleComponents expr fuel refs others
      .ok (component :: components,refs)

def componentSetCompile (refs : ℕ) (expr : Blob) : Except CompileError (Compiled Node) :=
  if expr.head? = some 0x3C then compileSingleComponent engine refs expr
  else if expr.head? = some 0x5B then
    if expr.getLast? ≠ some 0x5D then
      .error (.regexException "Error: RegexComponentSetMatcher.compile():  No matched ']' " expr)
    else
      let included := decide (expr[1]? ≠ some 0x5E)
      let start := if included then 1 else 2
      (compileMultipleComponents engine expr expr.length refs (expr.drop start)).map
        (fun (components,refs) => (.componentSet components included,refs))
  else .error (.regexException "Error: RegexComponentSetMatcher.compile(): Parsing error in expr " expr)

end Components

-- `[0-9]+`.
def isNumber (text : Blob) : Bool := !text.isEmpty && text.all isDigit

-- What stands between the braces of a repetition.
def inBraces (repeatStruct : Blob) : Option Blob :=
  if repeatStruct.head? = some 0x7B ∧ repeatStruct.tail.getLast? = some 0x7D then some repeatStruct.tail.dropLast else none

-- `\x7b[0-9]+,[0-9]+\x7d`, `\x7b,[0-9]+\x7d`, `\x7b[0-9]+,\x7d` and `\x7b[0-9]+\x7d`.
def hasBoth (repeatStruct : Blob) : Bool :=
  (inBraces repeatStruct).any (fun body => isNumber (body.takeWhile (· ≠ 0x2C)) &&
    (body.dropWhile (· ≠ 0x2C)).head? == some 0x2C && isNumber (body.dropWhile (· ≠ 0x2C)).tail)

def hasUpper (repeatStruct : Blob) : Bool :=
  (inBraces repeatStruct).any (fun body => body.head? == some 0x2C && isNumber body.tail)

def hasLower (repeatStruct : Blob) : Bool :=
  (inBraces repeatStruct).any (fun body => isNumber (body.takeWhile (· ≠ 0x2C)) && body.dropWhile (· ≠ 0x2C) == [0x2C])

def hasExact (repeatStruct : Blob) : Bool := (inBraces repeatStruct).any isNumber

def substr (text : Blob) (pos len : ℕ) : Blob := (text.drop pos).take len

-- `atoi` of a text that starts with a digit: it stops at the first other character.
def leadingAtoi (text : Blob) : ℤ := RegexTopMatcher.atoi (text.takeWhile isDigit)

def repetitionBounds (repeatStruct : Blob) : Option (ℤ × ℤ) :=
  let rsSize := repeatStruct.length
  let separator := repeatStruct.idxOf 0x2C
  if hasBoth repeatStruct then
    some (leadingAtoi (substr repeatStruct 1 (separator - 1)),
      leadingAtoi (substr repeatStruct (separator + 1) (rsSize - separator - 2)))
  else if hasUpper repeatStruct then
    some (0,leadingAtoi (substr repeatStruct (separator + 1) (rsSize - separator - 2)))
  else if hasLower repeatStruct then some (leadingAtoi (substr repeatStruct 1 separator),intMax)
  else if hasExact repeatStruct then
    let min := leadingAtoi (substr repeatStruct 1 (rsSize - 1))
    some (min,min)
  else none

def wrongNumber (expr : Blob) : CompileError :=
  .regexException "Error: RegexRepeatMatcher.ParseRepetition(): Wrong number " expr

def parseRepetition (expr : Blob) (indicator : ℕ) : Except CompileError (ℤ × ℤ) :=
  if expr.length = indicator then .ok (1,1)
  else if expr.length = indicator + 1 then
    if expr[indicator]? = some 0x3F then .ok (0,1)
    else if expr[indicator]? = some 0x2B then .ok (1,intMax)
    else if expr[indicator]? = some 0x2A then .ok (0,intMax)
    else .error .unset
  else
    match repetitionBounds (expr.drop indicator) with
    | none => .error (.regexException "Error: RegexRepeatMatcher.ParseRepetition(): Unrecognized format " expr)
    | some (min,max) => if min > intMax ∨ max > intMax ∨ min > max then .error (wrongNumber expr) else .ok (min,max)

section Patterns
variable (engine : Engine) (patternList : ℕ → Blob → Except CompileError (Compiled (List Node)))

def backRefCompile (refs : ℕ) (expr : Blob) : Except CompileError (Compiled (List Node)) :=
  if expr.head? = some 0x28 ∧ expr.getLast? = some 0x29 then patternList refs expr.tail.dropLast
  else .error (.regexException "Error: RegexBackRefMatcher.Compile():  Unrecognoized format " expr)

-- The reference is pushed before what is in the group is compiled.
def pushBackRef (refs : ℕ) (expr : Blob) : Except CompileError (Compiled Node) :=
  (backRefCompile patternList (refs + 1) expr).map (fun (items,after) => (.backRef refs items,after))

def repeatCompile (refs : ℕ) (expr : Blob) (indicator : ℕ) : Except CompileError (Compiled Node) := do
  let (item,refs) ← (if expr.head? = some 0x28 then pushBackRef patternList refs (expr.take indicator)
    else componentSetCompile engine refs (expr.take indicator))
  let (repeatMin,repeatMax) ← parseRepetition expr indicator
  .ok (.repeated item repeatMin repeatMax,refs)

def closingOf (c : UInt8) : Option UInt8 :=
  if c = 0x28 then some 0x29 else if c = 0x3C then some 0x3E else if c = 0x5B then some 0x5D else none

-- The next pattern, the references after it and the text behind it.
def extractPattern (refs : ℕ) (c : UInt8) (rest : Blob) : Except CompileError (Node × ℕ × Blob) :=
  match closingOf c with
  | none => .error (.regexException "Error: unexpected syntax" [])
  | some right => do
    let (inner,others) ← extractSubPattern c right 1 0 rest
    let (suffix,others) ← extractRepetition others
    let (node,refs) ← (if c = 0x28 ∧ suffix = [] then pushBackRef patternList refs (c :: inner)
      else repeatCompile engine patternList refs (c :: inner ++ suffix) (inner.length + 1))
    .ok (node,refs,others)

end Patterns

-- Every pattern takes at least one character, and what is in a group is shorter than the
-- text around it.
def patternListCompile (engine : Engine) : ℕ → ℕ → Blob → Except CompileError (Compiled (List Node))
  | _,refs,[] => .ok ([],refs)
  | 0,_,_ :: _ => .error .outOfFuel
  | fuel + 1,refs,c :: rest => do
    let (node,refs,others) ← extractPattern engine (patternListCompile engine fuel) refs c rest
    let (nodes,refs) ← patternListCompile engine fuel refs others
    .ok (node :: nodes,refs)

def compile (engine : Engine) (expr : Blob) : Except CompileError (Compiled (List Node)) := patternListCompile engine expr.length 0 expr

end NdnCxx.Regex
