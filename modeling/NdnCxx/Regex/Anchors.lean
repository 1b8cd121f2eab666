import NdnCxx.Regex.Concatenation
import NdnCxx.Regex.Language

namespace NdnCxx.Regex
open Brackets Backtrack RegexTopMatcher

section Matching
variable (oracle : Oracle)

-- The matcher objects at work. A bound below zero does what zero does.
mutual
def Node.matchRun : Node → Trial
  | .componentSet components included => componentSetMatch oracle components included
  | .backRef index items => backRefMatch index (recursiveMatch (nodeRuns items))
  | .repeated item repeatMin repeatMax => repeatMatch item.matchRun repeatMin.toNat repeatMax.toNat

def nodeRuns : List Node → List Trial
  | [] => []
  | item :: items => item.matchRun :: nodeRuns items
end

end Matching

-- The syntax tree of the objects, which numbers the groups by their place in it.
mutual
def Node.matcher : Node → Matcher
  | .componentSet components included => .componentSet components included
  | .backRef _ items => .backRef (matchersOf items)
  | .repeated item repeatMin repeatMax => .repeated item.matcher repeatMin.toNat repeatMax.toNat

def matchersOf : List Node → List Matcher
  | [] => []
  | item :: items => item.matcher :: matchersOf items
end

section Agreement
variable {oracle : Oracle}

mutual
theorem node_agrees (node : Node) (index : ℕ) : Agrees (node.matchRun oracle) (node.matcher.search oracle index) := by
  cases node with
  | componentSet components included =>
    rw [Node.matchRun,Node.matcher,Matcher.search]
    exact componentSet_agrees components included
  | backRef place items =>
    rw [Node.matchRun,Node.matcher,Matcher.search]
    intro run captures
    have inside := backRef_agrees (recursive_agrees (nodes_agree items (index + 1))) place run captures
    rwa [Option.isSome_map] at inside ⊢
  | repeated item repeatMin repeatMax =>
    rw [Node.matchRun,Node.matcher,Matcher.search]
    exact repeat_agrees (node_agrees item index) repeatMin.toNat repeatMax.toNat

theorem nodes_agree (items : List Node) (index : ℕ) :
    List.Forall₂ Agrees (nodeRuns oracle items) (searches oracle (matchersOf items) index) := by
  cases items with
  | nil =>
    rw [nodeRuns,matchersOf,searches]
    exact .nil
  | cons item items =>
    rw [nodeRuns,matchersOf,searches]
    exact .cons (node_agrees item index) (nodes_agree items (index + item.matcher.refs))
end

theorem nodes_iff (items : List Node) (run : List Component) (captures : Captures) :
    (recursiveMatch (nodeRuns oracle items) run captures).1 = true ↔ run ∈ languageAll oracle true (matchersOf items) := by
  rw [recursive_agrees (nodes_agree items 0) run captures]
  exact searches_iff (matchersOf items) 0 run

-- What a printed pattern is compiled to keeps its captures where the tree has them.
mutual
theorem numbered_matchRun (item : Pattern) (refs : ℕ) :
    (item.node refs).matchRun oracle = (item.node refs).matcher.matchRun oracle refs ∧
      (item.node refs).matcher.refs = item.groups := by
  cases item with
  | component text q => simp only [Pattern.node,Node.matchRun,Node.matcher,Matcher.matchRun,Matcher.refs,Pattern.groups,and_self]
  | set included texts q =>
    simp only [Pattern.node,Node.matchRun,Node.matcher,Matcher.matchRun,Matcher.refs,Pattern.groups,and_self]
  | group items q =>
    obtain ⟨runs,count⟩ := numbered_nodeRuns items (refs + 1)
    rw [Pattern.node,Pattern.groups]
    split
    all_goals simp only [Node.matchRun,Node.matcher,Matcher.matchRun,Matcher.refs,runs,count,and_self]

theorem numbered_nodeRuns (items : List Pattern) (refs : ℕ) :
    nodeRuns oracle (nodeAll items refs) = matchRuns oracle (matchersOf (nodeAll items refs)) refs ∧
      refsAll (matchersOf (nodeAll items refs)) = groupsAll items := by
  cases items with
  | nil => simp only [nodeAll,nodeRuns,matchersOf,matchRuns,refsAll,groupsAll,and_self]
  | cons item items =>
    obtain ⟨run,count⟩ := numbered_matchRun item refs
    obtain ⟨runs,counts⟩ := numbered_nodeRuns items (refs + item.groups)
    simp only [nodeAll,nodeRuns,matchersOf,matchRuns,refsAll,groupsAll,run,count,runs,counts,and_self]
end

end Agreement

-- The two pattern lists of a `RegexTopMatcher`.
structure CompiledTop where
  primary : List Node
  secondary : Option (List Node)

-- `<.*>*`.
def anythingText : Blob := [0x3C,0x2E,0x2A,0x3E,0x2A]

def anythingNode : Node := .repeated (.componentSet [[0x2E,0x2A]] true) 0 intMax

-- For an expression that is not empty: the source reads its last character.
def topCompile (engine : Engine) (m_expr : Blob) : Except CompileError CompiledTop :=
  let expr := if m_expr.getLast? ≠ some 0x24 then m_expr ++ anythingText else m_expr.dropLast
  if expr.head? ≠ some 0x5E then do
    let (secondary,_) ← compile engine (anythingText ++ expr)
    let (primary,_) ← compile engine expr
    .ok ⟨primary,some secondary⟩
  else do
    let (primary,_) ← compile engine expr.tail
    .ok ⟨primary,none⟩

namespace CompiledTop

def matchName (oracle : Oracle) (top : CompiledTop) (s : State) (name : Name) : Bool × State :=
  let (matched,primary) := recursiveMatch (nodeRuns oracle top.primary) name s.primary
  if matched then (true,⟨primary,s.secondary,name,false⟩)
  else
    match top.secondary with
    | none => (false,⟨primary,s.secondary,[],false⟩)
    | some items =>
      let (matched,secondary) := recursiveMatch (nodeRuns oracle items) name s.secondary
      if matched then (true,⟨primary,secondary,name,true⟩) else (false,⟨primary,secondary,[],false⟩)

theorem matchName_primary {oracle : Oracle} {top : CompiledTop} (s : State) (name : Name) :
    (top.matchName oracle s name).1 = true ↔ name ∈ languageAll oracle true (matchersOf top.primary) ∨
      ∃ items, top.secondary = some items ∧ name ∈ languageAll oracle true (matchersOf items) := by
  rw [matchName,← nodes_iff top.primary name s.primary]
  generalize recursiveMatch (nodeRuns oracle top.primary) name s.primary = first
  obtain ⟨matched,captures⟩ := first
  cases matched with
  | true => simp
  | false =>
    cases given : top.secondary with
    | none => simp
    | some items =>
      simp only [Bool.false_eq_true,if_false,false_or,Option.some.injEq,exists_eq_left',← nodes_iff items name s.secondary]
      generalize recursiveMatch (nodeRuns oracle items) name s.secondary = second
      obtain ⟨matched,captures⟩ := second
      cases matched <;> simp

end CompiledTop

section Padding
variable {engine : Engine} (known : engine [0x2E,0x2A] = some 0)

theorem separate_anything : Separate anythingText := by
  refine ⟨?_,by decide,by decide,by decide,by decide⟩
  intro c first
  cases first
  exact .inr (.inl rfl)

theorem anything_plain (known : engine [0x2E,0x2A] = some 0) : PlainText engine [0x2E,0x2A] :=
  ⟨⟨by simp,by decide,by decide⟩,by simp,known⟩

include known in
theorem compile_padded (refs : ℕ) (text : Blob) :
    compileFrom engine refs (text ++ anythingText) =
      (compileFrom engine refs text >>= fun (nodes,after) => .ok (nodes ++ [anythingNode],after)) := by
  have single : ∀ refs, compileFrom engine refs anythingText = .ok ([anythingNode],refs) := by
    intro refs
    have plain : ∀ text ∈ textsAll [.component [0x2E,0x2A] .star], PlainText engine text := by
      intro text member
      rw [List.mem_singleton.mp member]
      exact anything_plain known
    exact printed_compiles anythingText.length refs [.component [0x2E,0x2A] .star] le_rfl plain (by decide)
  rw [compileFrom_append separate_anything]
  simp only [single,Throwing.ok_bind]

include known in
theorem compile_prefixed (refs : ℕ) (text : Blob) :
    compileFrom engine refs (anythingText ++ text) =
      (compileFrom engine refs text >>= fun (nodes,after) => .ok (anythingNode :: nodes,after)) := by
  have parts : anythingText ++ text = 0x3C :: ([0x2E,0x2A] ++ 0x3E :: (0x2A :: text)) := rfl
  have star : extractRepetition (0x2A :: text) = .ok ([0x2A],text) := rfl
  have extracted : extractPattern engine (compileFrom engine) refs 0x3C ([0x2E,0x2A] ++ 0x3E :: (0x2A :: text)) =
      .ok (anythingNode,refs,text) :=
    component_extracts (q := .star) (anything_plain known).readable (by decide) (by decide) refs star
  rw [parts,compileFrom_cons,extracted]
  simp only [Throwing.ok_bind]

end Padding

-- The text without a leading `^` and a trailing `$`.
def unterminated (text : Blob) : Blob := if text.getLast? = some 0x24 then text.dropLast else text

def coreText (text : Blob) : Blob :=
  if (unterminated text).head? = some 0x5E then (unterminated text).tail else unterminated text

def hasCaret (text : Blob) : Bool := decide (text.head? = some 0x5E)

def hasDollar (text : Blob) : Bool := decide (text.getLast? = some 0x24)

-- The matchers of a text whose core is compiled to `nodes`.
def padNodes (text : Blob) (nodes : List Node) : CompiledTop :=
  let primary := nodes ++ (if hasDollar text then [] else [anythingNode])
  ⟨primary,if hasCaret text then none else some (anythingNode :: primary)⟩

theorem unterminated_head {text : Blob} (nonempty : text ≠ []) (behind : Blob)
    (ended : hasDollar text = true → behind = []) :
    (unterminated text ++ behind).head? = some 0x5E ↔ hasCaret text = true := by
  rw [hasCaret,decide_eq_true_eq,unterminated]
  split
  · rename_i dollar
    rw [ended (decide_eq_true dollar),List.append_nil]
    obtain ⟨front,rfl⟩ := List.getLast?_eq_some_iff.mp dollar
    rw [List.dropLast_concat]
    cases front with
    | nil => decide
    | cons c front => rfl
  · cases text with
    | nil => exact absurd rfl nonempty
    | cons c rest => rfl

theorem compile_behind {engine : Engine} (known : engine [0x2E,0x2A] = some 0) (dollar : Bool) (core : Blob) :
    compileFrom engine 0 (core ++ if dollar then [] else anythingText) =
      (compileFrom engine 0 core >>= fun (nodes,after) => .ok (nodes ++ (if dollar then [] else [anythingNode]),after)) := by
  cases dollar with
  | false => exact compile_padded known 0 core
  | true =>
    simp only [if_true,List.append_nil]
    cases compileFrom engine 0 core with
    | error error => rfl
    | ok found => rfl

theorem compile_from (engine : Engine) (text : Blob) : compile engine text = compileFrom engine 0 text := rfl

-- The four combinations of anchors compile the core once for each matcher.
theorem topCompile_core {engine : Engine} (known : engine [0x2E,0x2A] = some 0) {text : Blob} (nonempty : text ≠ []) :
    topCompile engine text = (compile engine (coreText text) >>= fun (nodes,_) => .ok (padNodes text nodes)) := by
  have whole : (if text.getLast? ≠ some 0x24 then text ++ anythingText else text.dropLast) =
      unterminated text ++ if hasDollar text then [] else anythingText := by
    rw [unterminated,hasDollar]
    by_cases dollar : text.getLast? = some 0x24
    · simp [dollar]
    · simp [dollar]
  have ended : hasDollar text = true → (if hasDollar text then [] else anythingText) = [] := fun dollar => by rw [if_pos dollar]
  have first := unterminated_head nonempty _ ended
  have core := unterminated_head nonempty [] (fun _ => rfl)
  rw [List.append_nil] at core
  rw [topCompile,whole]
  simp only [ne_eq,first,coreText,core,padNodes,compile_from]
  cases caret : hasCaret text with
  | true =>
    have tail : (unterminated text ++ if hasDollar text then [] else anythingText).tail =
        (unterminated text).tail ++ if hasDollar text then [] else anythingText := by
      refine List.tail_append_of_ne_nil ?_
      intro empty
      rw [empty] at core
      exact absurd (core.mpr caret) (by simp)
    simp only [not_true_eq_false,if_false,if_true,tail]
    rw [compile_behind known]
    cases compileFrom engine 0 (unterminated text).tail with
    | error error => rfl
    | ok found => rfl
  | false =>
    simp only [Bool.false_eq_true,not_false_eq_true,if_true,if_false]
    rw [compile_prefixed known,compile_behind known]
    cases compileFrom engine 0 (unterminated text) with
    | error error => rfl
    | ok found => rfl

theorem matchersOf_append (front back : List Node) : matchersOf (front ++ back) = matchersOf front ++ matchersOf back := by
  induction front with
  | nil => rw [matchersOf,List.nil_append,List.nil_append]
  | cons item front ih => rw [List.cons_append,matchersOf,matchersOf,ih,List.cons_append]

theorem anything_matcher : matchersOf [anythingNode] = [anything] := by
  rw [matchersOf,anythingNode,Node.matcher,Node.matcher,matchersOf]
  rfl

-- The expression as the earlier model has it.
def topOf (text : Blob) (nodes : List Node) : RegexTopMatcher := ⟨matchersOf nodes,hasCaret text,hasDollar text,[]⟩

theorem padNodes_primary (text : Blob) (nodes : List Node) :
    matchersOf (padNodes text nodes).primary = (topOf text nodes).primaryItems := by
  rw [padNodes,primaryItems,topOf,matchersOf_append]
  dsimp only
  split
  · rw [matchersOf]
  · rw [anything_matcher]

theorem padNodes_secondary (text : Blob) (nodes : List Node) :
    (padNodes text nodes).secondary.map matchersOf = (topOf text nodes).secondaryItems := by
  have primary := padNodes_primary text nodes
  rw [secondaryItems,← primary,padNodes,topOf]
  dsimp only
  split
  · rfl
  · have parts : matchersOf (anythingNode :: (nodes ++ if hasDollar text then [] else [anythingNode])) =
        anything :: matchersOf (nodes ++ if hasDollar text then [] else [anythingNode]) := by
      rw [← List.singleton_append,matchersOf_append,anything_matcher,List.singleton_append]
    rw [Option.map_some,parts]

theorem padNodes_padded {oracle : Oracle} (text : Blob) (nodes : List Node) (s : State) (name : Name) :
    ((padNodes text nodes).matchName oracle s name).1 = true ↔ Padded oracle true (topOf text nodes) name := by
  rw [CompiledTop.matchName_primary,padNodes_primary,Padded,← padNodes_secondary]
  cases (padNodes text nodes).secondary with
  | none => simp
  | some items => simp

theorem padNodes_described {oracle : Oracle} (wild : ∀ component : Component, oracle [0x2E,0x2A] component.toUri = true)
    (text : Blob) (nodes : List Node) (s : State) {name : Name} (fits : name.length ≤ intMax) :
    ((padNodes text nodes).matchName oracle s name).1 = true ↔
      Described (topOf text nodes) (languageAll oracle true (matchersOf nodes)) name := by
  rw [padNodes_padded]
  exact ⟨padded_described,described_padded wild fits⟩

-- A text compiles exactly if its core does, and then a name is matched exactly if the
-- core's matchers accept a run of it between the anchors.
theorem anchoring (engine : Engine) (oracle : Oracle) (known : engine [0x2E,0x2A] = some 0)
    (wild : ∀ component : Component, oracle [0x2E,0x2A] component.toUri = true) (text : Blob) (nonempty : text ≠ []) :
    ((∃ top, topCompile engine text = .ok top) ↔ ∃ nodes refs, compile engine (coreText text) = .ok (nodes,refs)) ∧
      ∀ top nodes refs, topCompile engine text = .ok top → compile engine (coreText text) = .ok (nodes,refs) →
        ∀ (s : State) (captures : Captures) (name : Name), name.length ≤ intMax →
          ((top.matchName oracle s name).1 = true ↔
            ∃ before run behind, name = before ++ run ++ behind ∧ (text.head? = some 0x5E → before = []) ∧
              (text.getLast? = some 0x24 → behind = []) ∧ (recursiveMatch (nodeRuns oracle nodes) run captures).1 = true) := by
  rw [topCompile_core known nonempty]
  constructor
  · constructor
    · rintro ⟨top,compiled⟩
      obtain ⟨⟨nodes,refs⟩,core,_⟩ := Throwing.bind_ok compiled
      exact ⟨nodes,refs,core⟩
    · rintro ⟨nodes,refs,core⟩
      exact ⟨padNodes text nodes,by rw [core]; rfl⟩
  · intro top nodes refs compiled core s captures name fits
    rw [core] at compiled
    cases compiled
    rw [padNodes_described wild text nodes s fits]
    simp only [Described,topOf,hasCaret,hasDollar,decide_eq_true_eq,nodes_iff]

section Samples

-- `<a>$`, on a name with another component in front.
def endText : Blob := [0x3C,0x61,0x3E,0x24]

theorem anchoring_end :
    ∃ before run behind, [letterName 0x62,letterName 0x61] = before ++ run ++ behind ∧
      (endText.head? = some 0x5E → before = []) ∧ (endText.getLast? = some 0x24 → behind = []) ∧
      (recursiveMatch (nodeRuns plainText [.repeated (.componentSet [[0x61]] true) 1 1]) run (fun _ => [])).1 = true :=
  ((anchoring (fun _ => some 0) plainText rfl (fun component => plainText_wild component.toUri) endText
    (by simp [endText])).2 ⟨[.repeated (.componentSet [[0x61]] true) 1 1],
      some [anythingNode,.repeated (.componentSet [[0x61]] true) 1 1]⟩ [.repeated (.componentSet [[0x61]] true) 1 1] 0
    rfl rfl fresh (fun _ => [])
    [letterName 0x62,letterName 0x61] (by decide)).mp (by decide)

end Samples

end NdnCxx.Regex
