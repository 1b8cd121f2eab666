import NdnCxx.NameUri
import NdnCxx.Lib.Backtrack

namespace NdnCxx.Regex
open Backtrack

-- `boost::regex_match`: does the expression match the whole text?
abbrev Oracle := Blob → Blob → Bool

-- The matchers that a name regex is compiled to. A pattern list is a list of them, and
-- the item of a repetition is a component set or a back reference.
inductive Matcher where
  | componentSet (components : List Blob) (included : Bool)
  | backRef (items : List Matcher)
  | repeated (item : Matcher) (repeatMin repeatMax : ℕ)

-- How many references a matcher pushes to the back reference manager.
mutual
def Matcher.refs : Matcher → ℕ
  | .componentSet _ _ => 0
  | .backRef items => refsAll items + 1
  | .repeated item _ _ => item.refs

def refsAll : List Matcher → ℕ
  | [] => 0
  | item :: items => item.refs + refsAll items
end

-- The match results of the back references, by their place in the manager.
abbrev Captures := ℕ → List Component

-- In place of a name, an offset and a length the functions below get the run of
-- components itself.
abbrev Trial := Attempt Component Captures

def componentMatch (oracle : Oracle) (component : Component) (expr : Blob) : Bool :=
  decide (expr = []) || oracle expr component.toUri

def componentSetMatch (oracle : Oracle) (components : List Blob) (included : Bool) : Trial
  | [component],captures => (components.any (componentMatch oracle component) == included,captures)
  | _,captures => (false,captures)

-- `RegexMatcher::recursiveMatch` over the matchers that are left.
def recursiveMatch : List Trial → Trial
  | [],run,captures => (run.isEmpty,captures)
  | matcher :: matchers,run,captures => tryDown matcher (recursiveMatch matchers) run run.length captures

-- `RegexMatcher::match` of a back reference.
def backRefMatch (index : ℕ) (inner : Trial) (run : List Component) (captures : Captures) : Bool × Captures :=
  let (result,captures) := recursiveMatch [inner] run (Function.update captures index [])
  if result then (true,Function.update captures index run) else (false,captures)

-- `RegexRepeatMatcher::recursiveMatch`; `left` is what `count` lacks to `m_repeatMax`.
def repeatRecursiveMatch (item : Trial) (repeatMin : ℕ) : ℕ → ℕ → Trial
  | 0,count,run,captures => (run.isEmpty && decide (repeatMin ≤ count),captures)
  | left + 1,count,run,captures =>
    if run.isEmpty then (decide (repeatMin ≤ count),captures)
    else tryDown item (repeatRecursiveMatch item repeatMin left (count + 1)) run run.length captures

def repeatMatch (item : Trial) (repeatMin repeatMax : ℕ) (run : List Component) (captures : Captures) : Bool × Captures :=
  if repeatMin = 0 ∧ run.isEmpty then (true,captures)
  else repeatRecursiveMatch item repeatMin repeatMax 0 run captures

-- Back references are numbered in the order in which their groups open: `index` have
-- been pushed before.
mutual
def Matcher.matchRun (oracle : Oracle) : Matcher → ℕ → Trial
  | .componentSet components included,_ => componentSetMatch oracle components included
  | .backRef items,index => backRefMatch index (recursiveMatch (matchRuns oracle items (index + 1)))
  | .repeated item repeatMin repeatMax,index => repeatMatch (item.matchRun oracle index) repeatMin repeatMax

def matchRuns (oracle : Oracle) : List Matcher → ℕ → List Trial
  | [],_ => []
  | item :: items,index => item.matchRun oracle index :: matchRuns oracle items (index + item.refs)
end

def intMax : ℕ := 2^31 - 1

-- `<.*>*`.
def anything : Matcher := .repeated (.componentSet [[0x2E,0x2A]] true) 0 intMax

-- A compiled expression: the pattern list between the anchors, which anchors there
-- are, and the default of `expand`.
structure RegexTopMatcher where
  core : List Matcher
  caret : Bool
  dollar : Bool
  expand : Blob

namespace RegexTopMatcher

def primaryItems (top : RegexTopMatcher) : List Matcher := top.core ++ (if top.dollar then [] else [anything])

def secondaryItems (top : RegexTopMatcher) : Option (List Matcher) :=
  if top.caret then none else some (anything :: top.primaryItems)

-- What the matcher objects remember between calls.
structure State where
  primary : Captures
  secondary : Captures
  matchResult : List Component
  secondaryUsed : Bool

def fresh : State := ⟨fun _ => [],fun _ => [],[],false⟩

def matchName (oracle : Oracle) (top : RegexTopMatcher) (s : State) (name : Name) : Bool × State :=
  let (matched,primary) := recursiveMatch (matchRuns oracle top.primaryItems 0) name s.primary
  if matched then (true,⟨primary,s.secondary,name,false⟩)
  else
    match top.secondaryItems with
    | none => (false,⟨primary,s.secondary,[],false⟩)
    | some items =>
      let (matched,secondary) := recursiveMatch (matchRuns oracle items 0) name s.secondary
      if matched then (true,⟨primary,secondary,name,true⟩) else (false,⟨primary,secondary,[],false⟩)

-- The state after earlier calls with these names.
def after (oracle : Oracle) (top : RegexTopMatcher) (names : List Name) : State :=
  names.foldl (fun s name => (top.matchName oracle s name).2) fresh

-- `undefined` is an access in front of the vector of back references.
inductive ExpandError where
  | regex (msg : String)
  | uri (error : UriError)
  | undefined
  deriving DecidableEq, Repr

def wrongFormat : ExpandError := .regex "wrong format of expand string!"

def exceedRange : ExpandError := .regex "Exceed the range of back reference!"

def isDigit (c : UInt8) : Bool := decide (0x30 ≤ c ∧ c ≤ 0x39)

-- The loop over a literal. It stops with an error as soon as the template ends, even
-- behind the last bracket.
def balanced (left right : ℕ) : Blob → Except ExpandError (Blob × Blob)
  | [] => .error wrongFormat
  | c :: rest =>
    let left := if c = 0x3C then left + 1 else left
    let right := if c = 0x3E then right + 1 else right
    if rest = [] then .error wrongFormat
    else if right < left then (balanced left right rest).map (fun (item,rest) => (c :: item,rest))
    else .ok ([c],rest)

-- The next item of the template and what follows it.
def getItemFromExpand : Blob → Except ExpandError (Blob × Blob)
  | [] => .error wrongFormat
  | c :: rest =>
    if c = 0x5C then
      let digits := rest.takeWhile isDigit
      if digits = [] then .error wrongFormat else .ok (c :: digits,rest.dropWhile isDigit)
    else if c = 0x3C then (balanced 1 0 rest).map (fun (item,rest) => (c :: item,rest))
    else .error wrongFormat

-- `atoi` is `(int) strtol`: the number stops at the largest `long` and loses its high half.
def atoi (digits : Blob) : ℤ :=
  let value := min (digits.foldl (fun value digit => 10 * value + (digit.toNat - 0x30)) 0) (2^63 - 1)
  ((value + 2^31) % 2^32 : ℕ) - 2^31

def getBackRef (s : State) (index : ℕ) : List Component := if s.secondaryUsed then s.secondary index else s.primary index

def expandItem (top : RegexTopMatcher) (s : State) (result : Name) : Blob → Except ExpandError Name
  | [] => .ok result
  | c :: rest =>
    if c = 0x3C then
      match Component.fromUri rest.dropLast with
      | .ok component => .ok (Name.append result component)
      | .error error => .error (.uri error)
    else
      let index := atoi rest
      if index = 0 then .ok (s.matchResult.foldl Name.append result)
      else if index ≤ refsAll top.core then
        if index < 0 then .error .undefined
        else .ok ((getBackRef s (index.toNat - 1)).foldl Name.append result)
      else .error exceedRange

-- Every item takes at least one character, so the length of the template is enough fuel.
def expandFrom (top : RegexTopMatcher) (s : State) : ℕ → Name → Blob → Except ExpandError Name
  | _,result,[] => .ok result
  | 0,result,_ :: _ => .ok result
  | fuel + 1,result,c :: rest =>
    match getItemFromExpand (c :: rest) with
    | .error error => .error error
    | .ok (item,others) =>
      match expandItem top s result item with
      | .error error => .error error
      | .ok result => expandFrom top s fuel result others

def expandName (top : RegexTopMatcher) (s : State) (expandStr : Blob) : Except ExpandError Name :=
  let expand := if expandStr = [] then top.expand else expandStr
  expandFrom top s expand.length [] expand

end RegexTopMatcher
end NdnCxx.Regex
