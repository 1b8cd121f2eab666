import NdnCxx.Regex.Anchors
import NdnCxx.Regex.Expand
import NdnCxx.Regex.Parts
import NdnCxx.Security.CertificateName
import NdnCxx.Security.PolicyRelation

namespace NdnCxx.Security
open NdnCxx.Regex Regex.RegexTopMatcher Brackets
open NdnCxx.Regex (compile)

-- `Regex (expr, expand)`: the expression between its padding, with the default of `expand`.
def ofCompiled (expand : Blob) (compiled : CompiledTop) : RegexTopMatcher where
  core := matchersOf compiled.primary
  caret := compiled.secondary.isNone
  dollar := true
  expand := expand

-- The object at work. At each moment of a run it has been asked about the names of
-- `earlier` before.
def regexOf (oracle : Oracle) (earlier : ℕ → List Name) (top : RegexTopMatcher) : Security.Regex where
  matchName name := .ok (top.matchName oracle fresh name).1
  expand moment name :=
    (top.expandName (top.matchName oracle (top.after oracle (earlier moment)) name).2 []).mapError (fun _ => .regexException)

section Rules
variable (engine : Engine) (oracle : Oracle)

def newRegex (earlier : ℕ → List Name) (expr expand : Blob) : Except CompileError Security.Regex :=
  (topCompile engine expr).map (fun compiled => regexOf oracle earlier (ofCompiled expand compiled))

-- The constructor, with one of the operators that it takes. `earlier` is for its two
-- expressions.
def newRule (earlier : Bool → ℕ → List Name) (dataRegex signerRegex : Blob) (op : Operator) (dataExpand signerExpand : Blob) :
    Except CompileError IdentityPolicyRule := do
  let dataNameRegex ← newRegex engine oracle (earlier false) dataRegex dataExpand
  let signerNameRegex ← newRegex engine oracle (earlier true) signerRegex signerExpand
  return ⟨dataNameRegex,signerNameRegex,op⟩

-- `^([^<KEY>]*)<KEY>(<>*)<ksk-.*><ID-CERT>`.
def kskCertificates : Blob := [0x5E,0x28,0x5B,0x5E,0x3C,0x4B,0x45,0x59,0x3E,0x5D,0x2A,0x29,0x3C,0x4B,0x45,0x59,0x3E,
  0x28,0x3C,0x3E,0x2A,0x29,0x3C,0x6B,0x73,0x6B,0x2D,0x2E,0x2A,0x3E,0x3C,0x49,0x44,0x2D,0x43,0x45,0x52,0x54,0x3E]

-- `^([^<KEY>]*)<KEY><dsk-.*><ID-CERT>`.
def dskCertificates : Blob := [0x5E,0x28,0x5B,0x5E,0x3C,0x4B,0x45,0x59,0x3E,0x5D,0x2A,0x29,0x3C,0x4B,0x45,0x59,0x3E,
  0x3C,0x64,0x73,0x6B,0x2D,0x2E,0x2A,0x3E,0x3C,0x49,0x44,0x2D,0x43,0x45,0x52,0x54,0x3E]

-- `^(<>*)$`.
def anyName : Blob := [0x5E,0x28,0x3C,0x3E,0x2A,0x29,0x24]

-- `\1` and `\1\2`.
def firstGroup : Blob := [0x5C,0x31]

def bothGroups : Blob := [0x5C,0x31,0x5C,0x32]

structure DefaultRules where
  rule1 : IdentityPolicyRule
  rule2 : IdentityPolicyRule
  rule3 : IdentityPolicyRule

-- The rules of `Keychain ()`: a key signing key for each data signing key, data signing
-- keys below it, and data signing keys for everything else.
def defaultRules (earlier : ℕ → Bool → ℕ → List Name) : Except CompileError DefaultRules := do
  let rule1 ← newRule engine oracle (earlier 1) kskCertificates dskCertificates .greater bothGroups firstGroup
  let rule2 ← newRule engine oracle (earlier 2) dskCertificates kskCertificates .equal firstGroup bothGroups
  let rule3 ← newRule engine oracle (earlier 3) anyName dskCertificates .greater firstGroup firstGroup
  return ⟨rule1,rule2,rule3⟩

def DefaultRules.verifyPolicies (rules : DefaultRules) : List IdentityPolicyRule := [rules.rule1,rules.rule2,rules.rule3]

def DefaultRules.signPolicies (rules : DefaultRules) : List IdentityPolicyRule := [rules.rule3]

end Rules

-- The lists of a `SimplePolicyManager` that signing looks at.
structure SigningPolicies where
  mustFailSign : List IdentityPolicyRule
  signPolicies : List IdentityPolicyRule
  signInference : List Security.Regex

namespace SigningPolicies

def checkSigningPolicy (self : SigningPolicies) (moment : ℕ) (dataName certName : Name) : Except Exception Bool := do
  if ← self.mustFailSign.anyM (fun rule => rule.satisfyNames moment dataName certName) then return false
  self.signPolicies.anyM (fun rule => rule.satisfyNames moment dataName certName)

def inferFrom (moment : ℕ) (dataName : Name) : List Security.Regex → Except Exception Name
  | [] => .ok []
  | regex :: others => do
    if ← regex.matchName dataName then regex.expand moment dataName else inferFrom moment dataName others

def inferSigningIdentity (self : SigningPolicies) (moment : ℕ) (dataName : Name) : Except Exception Name :=
  inferFrom moment dataName self.signInference

end SigningPolicies

-- Which namespace the name of a certificate vouches for, read off the name. An
-- expansion leaves out empty components.
section Namespaces
variable (oracle : Oracle)

def isKey (component : Component) : Bool := componentMatch oracle component keyString

def isIdCert (component : Component) : Bool := componentMatch oracle component idString

def isDsk (component : Component) : Bool := componentMatch oracle component [0x64,0x73,0x6B,0x2D,0x2E,0x2A]

def isKsk (component : Component) : Bool := componentMatch oracle component [0x6B,0x73,0x6B,0x2D,0x2E,0x2A]

-- What stands before the marker and behind it.
def beforeKey (name : Name) : Name := name.takeWhile (fun component => !isKey oracle component)

def behindKey (name : Name) : Name := (name.dropWhile (fun component => !isKey oracle component)).tail

def dskNamespace (name : Name) : Option Name :=
  match behindKey oracle name with
  | dsk :: idCert :: _ => if isDsk oracle dsk && isIdCert oracle idCert then some (filled (beforeKey oracle name)) else none
  | _ => none

-- What stands before the last pair of a key signing key and `ID-CERT`.
def beforeKsk : Name → Option Name
  | ksk :: idCert :: rest =>
    match beforeKsk (idCert :: rest) with
    | some below => some (ksk :: below)
    | none => if isKsk oracle ksk && isIdCert oracle idCert then some [] else none
  | _ => none

def kskNamespace (name : Name) : Option Name :=
  (beforeKsk oracle (behindKey oracle name)).map (fun below => filled (beforeKey oracle name) ++ filled below)

end Namespaces

section Expansion
variable {top : RegexTopMatcher} {s : State}

def references (numbers : List Number) : List Item := numbers.map .index

-- A template of references only.
theorem expand_references (few : refsAll top.core ≤ intMax) {numbers : List Number}
    (template : top.expand = printItems (references numbers)) (within : ∀ number ∈ numbers, number.value ≤ refsAll top.core)
    {components : List Component} (found : denotedAll s.matchResult (getBackRef s) (references numbers) = some components) :
    top.expandName s [] = .ok (filled components) := by
  have inside : ∀ item ∈ references numbers, item.InRange (refsAll top.core) := by
    intro item member
    obtain ⟨number,there,rfl⟩ := List.mem_map.mp member
    exact within number there
  have noLiteral : ¬EndsInLiteral (references numbers) := by
    rintro ⟨front,inner,same⟩
    have last : Item.literal inner ∈ references numbers := same ▸ List.mem_append_right _ (.head _)
    obtain ⟨_,_,other⟩ := List.mem_map.mp last
    cases other
  rw [expandName,if_pos rfl,template,expandFrom_items top s _ [] _ le_rfl,readItems_printed,
    expandItems_denoted few inside noLiteral found []]
  exact congrArg Except.ok (appendAll_filled [] components)

theorem one_number : isNumber [0x31] = true := rfl

def one : Number := ⟨[0x31],one_number⟩

theorem two_number : isNumber [0x32] = true := rfl

def two : Number := ⟨[0x32],two_number⟩

theorem expand_first (few : refsAll top.core ≤ intMax) (template : top.expand = firstGroup) (groups : 1 ≤ refsAll top.core) :
    top.expandName s [] = .ok (filled (getBackRef s 0)) := by
  have found : denotedAll s.matchResult (getBackRef s) (references [one]) = some (getBackRef s 0) := by
    simp [denotedAll,references,Item.denoted,show one.value = 1 from rfl]
  have written : top.expand = printItems (references [one]) := template
  exact expand_references few written (List.forall_mem_singleton.mpr groups) found

theorem expand_both (few : refsAll top.core ≤ intMax) (template : top.expand = bothGroups) (groups : 2 ≤ refsAll top.core) :
    top.expandName s [] = .ok (filled (getBackRef s 0) ++ filled (getBackRef s 1)) := by
  have found : denotedAll s.matchResult (getBackRef s) (references [one,two]) = some (getBackRef s 0 ++ getBackRef s 1) := by
    simp [denotedAll,references,Item.denoted,show one.value = 1 from rfl,show two.value = 2 from rfl]
  have within : ∀ number ∈ [one,two], number.value ≤ refsAll top.core :=
    List.forall_mem_cons.mpr ⟨le_trans one_le_two groups,List.forall_mem_singleton.mpr groups⟩
  have written : top.expand = printItems (references [one,two]) := template
  rw [expand_references few written within found]
  exact congrArg Except.ok (List.filter_append _ _)

end Expansion

-- What an expression says of a name, whatever names it has been asked about before: the
-- expansion, where it matches.
def Says (regex : Security.Regex) (reading : Name → Option Name) : Prop :=
  ∀ name : Name, name.length ≤ intMax → match reading name with
    | some expanded => regex.matchName name = .ok true ∧ ∀ moment, regex.expand moment name = .ok expanded
    | none => regex.matchName name = .ok false

-- The captures of an accepted name are those of its parse, and these give the expansion.
structure Captured (top : RegexTopMatcher) (parses : List Parse) (expanded : Name) : Prop where
  taken : takenAll top.primaryItems parses = true
  expand : ∀ s : State, (∀ i < refsAll top.core, getBackRef s i = lastOf (occurrencesAll i parses)) →
    top.expandName s [] = .ok expanded

theorem anchored_read {oracle : Oracle} {top : RegexTopMatcher} (caret : top.caret = true) {reading : Name → Option Name}
    (earlier : ℕ → List Name)
    (accepts : ∀ (name : Name) parses, name.length ≤ intMax → recursiveSearch (searches oracle top.primaryItems 0) name = some parses →
      ∃ expanded, reading name = some expanded ∧ Captured top parses expanded)
    (refuses : ∀ name : Name, name.length ≤ intMax → (reading name).isSome = true →
      (recursiveSearch (searches oracle top.primaryItems 0) name).isSome = true) :
    Says (regexOf oracle earlier top) reading := by
  have none' : top.secondaryItems = none := by rw [secondaryItems,if_pos caret]
  have matched : ∀ s name, (top.matchName oracle s name).1 =
      (recursiveSearch (searches oracle top.primaryItems 0) name).isSome := by
    intro s name
    rw [Bool.eq_iff_iff,matchName_iff,Padded,none',searches_iff]
    simp
  intro name short
  cases found : recursiveSearch (searches oracle top.primaryItems 0) name with
  | none =>
    have unread : reading name = none := by
      rw [← Option.not_isSome_iff_eq_none]
      intro read
      have accepted := refuses name short read
      rw [found] at accepted
      cases accepted
    rw [unread]
    exact congrArg Except.ok ((matched fresh name).trans (by rw [found]; rfl))
  | some parses =>
    obtain ⟨expanded,read,captured⟩ := accepts name parses short found
    rw [read]
    refine ⟨congrArg Except.ok ((matched fresh name).trans (by rw [found]; rfl)),fun moment => ?_⟩
    have accepted : top.accepted oracle name = some (top.primaryItems,parses) := by rw [RegexTopMatcher.accepted,found]
    obtain ⟨_,refs⟩ := matchName_captures accepted captured.taken (top.after oracle (earlier moment))
    show (top.expandName _ []).mapError _ = _
    rw [captured.expand _ refs]
    rfl

section Cuts
variable {oracle : Oracle}

def untilKey : Matcher := .backRef [.repeated (.componentSet [keyString] false) 0 intMax]

def single (text : Blob) : Matcher := .repeated (.componentSet [text] true) 1 1

def dskItems : List Matcher := [untilKey,single keyString,single [0x64,0x73,0x6B,0x2D,0x2E,0x2A],single idString,anything]

theorem single_admits (text : Blob) (component : Component) :
    admits oracle [text] true component = componentMatch oracle component text := by
  simp [admits]

theorem other_admits (component : Component) : admits oracle [keyString] false component = !isKey oracle component := by
  simp only [admits,List.any_cons,List.any_nil,Bool.or_false,isKey]
  cases componentMatch oracle component keyString <;> rfl

-- A name cut at the first `KEY`.
theorem key_cut {before : List Component} {key : Component} (free : ∀ component ∈ before, isKey oracle component = false)
    (keyed : isKey oracle key = true) (rest : List Component) :
    beforeKey oracle (before ++ key :: rest) = before ∧ behindKey oracle (before ++ key :: rest) = rest := by
  have passed : ∀ component ∈ before, (!isKey oracle component) = true := fun component member => by rw [free component member]; rfl
  unfold beforeKey behindKey
  rw [List.takeWhile_append_of_pos passed,List.dropWhile_append_of_pos passed]
  simp [keyed]

theorem key_found {name : Name} (more : behindKey oracle name ≠ []) :
    ∃ key, name = beforeKey oracle name ++ key :: behindKey oracle name ∧ isKey oracle key = true ∧
      ∀ component ∈ beforeKey oracle name, isKey oracle component = false := by
  cases dropped : name.dropWhile (fun component => !isKey oracle component) with
  | nil =>
    rw [behindKey,dropped] at more
    exact absurd rfl more
  | cons key others =>
    have head := List.head_dropWhile_not (fun component => !isKey oracle component) (l := name) (by simp [dropped])
    simp only [dropped,List.head_cons,Bool.not_eq_false'] at head
    refine ⟨key,?_,head,?_⟩
    · rw [behindKey,dropped,List.tail_cons,← dropped]
      exact List.takeWhile_append_dropWhile.symm
    · intro component member
      simpa using List.mem_takeWhile_imp member

theorem single_found {text : Blob} {index : ℕ} {run : List Component} {d : Parse}
    (found : (single text).search oracle index run = some d) :
    ∃ component, run = [component] ∧ componentMatch oracle component text = true := by
  obtain ⟨component,same,admitted⟩ := one_iff.mp (Option.isSome_of_eq_some found)
  exact ⟨component,same,(single_admits text component).symm.trans admitted⟩

theorem single_search {text : Blob} {component : Component} (matched : componentMatch oracle component text = true) (index : ℕ) :
    ((single text).search oracle index [component]).isSome = true :=
  one_iff.mpr ⟨component,rfl,(single_admits text component).trans matched⟩

theorem searches_single {text : Blob} {component : Component} (matched : componentMatch oracle component text = true)
    {items : List Matcher} {index : ℕ} {rest : List Component}
    (others : (recursiveSearch (searches oracle items (index + (single text).refs)) rest).isSome = true) :
    (recursiveSearch (searches oracle (single text :: items) index) (component :: rest)).isSome = true := by
  rw [← List.singleton_append]
  exact searches_some (single_search matched index) others

theorem untilKey_found {index : ℕ} {run : List Component} {d : Parse} (found : untilKey.search oracle index run = some d) :
    ∀ component ∈ run, isKey oracle component = false := by
  intro component member
  have admitted := (many_iff.mp (group_iff.mp (Option.isSome_of_eq_some found))).2.2 component member
  rwa [other_admits,Bool.not_eq_true'] at admitted

theorem untilKey_search {run : List Component} (short : run.length ≤ intMax)
    (free : ∀ component ∈ run, isKey oracle component = false) (index : ℕ) :
    (untilKey.search oracle index run).isSome = true := by
  refine group_iff.mpr (many_iff.mpr ⟨Nat.zero_le _,short,fun component member => ?_⟩)
  rw [other_admits,free component member]
  rfl

variable (wild : ∀ component : Component, oracle [0x2E,0x2A] component.toUri = true)

include wild in
theorem rest_search {rest : List Component} (short : rest.length ≤ intMax) (index : ℕ) :
    (recursiveSearch (searches oracle [anything] index) rest).isSome = true := by
  rw [searches_iff,languageAll_single]
  exact anything_covers wild true short

theorem dsk_found {name : Name} {parses : List Parse} (found : recursiveSearch (searches oracle dskItems 0) name = some parses) :
    ∃ before key dsk idCert rest, name = before ++ key :: dsk :: idCert :: rest ∧
      (∀ component ∈ before, isKey oracle component = false) ∧ isKey oracle key = true ∧ isDsk oracle dsk = true ∧
      isIdCert oracle idCert = true ∧ takenAll dskItems parses = true ∧ occurrencesAll 0 parses = [before] := by
  obtain ⟨before,back,d0,ds,rfl,rfl,first,afterKey,_⟩ := searches_parts found
  obtain ⟨_,back,d1,ds,rfl,rfl,second,afterDsk,_⟩ := searches_parts afterKey
  obtain ⟨key,rfl,keyed⟩ := single_found second
  obtain ⟨_,back,d2,ds,rfl,rfl,third,afterIdCert,_⟩ := searches_parts afterDsk
  obtain ⟨dsk,rfl,dskMatched⟩ := single_found third
  obtain ⟨_,back,d3,ds,rfl,rfl,fourth,last,_⟩ := searches_parts afterIdCert
  obtain ⟨idCert,rfl,idCertMatched⟩ := single_found fourth
  obtain ⟨rest,back,d4,ds,rfl,rfl,fifth,nothing,_⟩ := searches_parts last
  obtain ⟨rfl,rfl⟩ := searches_nil nothing
  refine ⟨before,key,dsk,idCert,rest,by simp,untilKey_found first,keyed,dskMatched,idCertMatched,?_,?_⟩
  · simp only [dskItems,takenAll,Bool.and_true,Bool.and_eq_true]
    exact ⟨group_taken first,flat_taken rfl second,flat_taken rfl third,flat_taken rfl fourth,flat_taken rfl fifth⟩
  · simp only [occurrencesAll,List.append_nil]
    rw [group_occurrences rfl first,flat_occurrences rfl second,flat_occurrences rfl third,flat_occurrences rfl fourth,
      flat_occurrences rfl fifth]
    rfl

include wild in
theorem dsk_search {before rest : List Component} {key dsk idCert : Component}
    (short : (before ++ key :: dsk :: idCert :: rest).length ≤ intMax)
    (free : ∀ component ∈ before, isKey oracle component = false) (keyed : isKey oracle key = true)
    (dskMatched : isDsk oracle dsk = true) (idCertMatched : isIdCert oracle idCert = true) :
    (recursiveSearch (searches oracle dskItems 0) (before ++ key :: dsk :: idCert :: rest)).isSome = true := by
  simp only [List.length_append,List.length_cons] at short
  refine searches_some (untilKey_search (by omega) free 0) ?_
  refine searches_single keyed (searches_single dskMatched (searches_single idCertMatched ?_))
  exact rest_search wild (by omega) _

-- The group for anything, and the pair that follows it.
def below : Matcher := .backRef [.repeated (.componentSet [[]] true) 0 intMax]

def kskItems : List Matcher :=
  [untilKey,single keyString,below,single [0x6B,0x73,0x6B,0x2D,0x2E,0x2A],single idString,anything]

theorem below_search {run : List Component} (short : run.length ≤ intMax) (index : ℕ) :
    (below.search oracle index run).isSome = true := by
  refine group_iff.mpr (many_iff.mpr ⟨Nat.zero_le _,short,fun component _ => ?_⟩)
  rw [single_admits,componentMatch,decide_eq_true rfl,Bool.true_or]

-- A pair of a key signing key and `ID-CERT` behind some components.
def PairAfter (oracle : Oracle) (name front : List Component) : Prop :=
  ∃ ksk idCert rest, name = front ++ ksk :: idCert :: rest ∧ isKsk oracle ksk = true ∧ isIdCert oracle idCert = true

theorem pairAfter_cons {c first : Component} {name front : List Component} :
    PairAfter oracle (c :: name) (first :: front) ↔ c = first ∧ PairAfter oracle name front := by
  simp only [PairAfter,List.cons_append,List.cons.injEq,and_assoc,exists_and_left]

theorem pairAfter_here {c next : Component} {rest : List Component} (found : PairAfter oracle (c :: next :: rest) []) :
    isKsk oracle c = true ∧ isIdCert oracle next = true := by
  obtain ⟨_,_,_,equal,ksk,idCert⟩ := found
  cases equal
  exact ⟨ksk,idCert⟩

theorem pairAfter_short {c : Component} {front : List Component} : ¬PairAfter oracle [c] front := by
  rintro ⟨ksk,idCert,rest,same,_,_⟩
  have counted := congrArg List.length same
  simp only [List.length_append,List.length_cons,List.length_nil] at counted
  omega

theorem pairAfter_nil {front : List Component} : ¬PairAfter oracle [] front := by
  rintro ⟨ksk,idCert,rest,same,_,_⟩
  cases List.append_eq_nil_iff.mp same.symm with
  | intro _ other => cases other

-- It is the last one.
theorem beforeKsk_last (name : List Component) :
    (∀ front, beforeKsk oracle name = some front →
      PairAfter oracle name front ∧ ∀ other, PairAfter oracle name other → other.length ≤ front.length) ∧
    (beforeKsk oracle name = none → ∀ front, ¬PairAfter oracle name front) := by
  induction name with
  | nil => exact ⟨nofun,fun _ _ => pairAfter_nil⟩
  | cons c name ih =>
    cases name with
    | nil => exact ⟨nofun,fun _ _ => pairAfter_short⟩
    | cons next rest =>
      rw [beforeKsk]
      cases later : beforeKsk oracle (next :: rest) with
      | some deeper =>
        obtain ⟨there,last⟩ := ih.1 deeper later
        refine ⟨?_,nofun⟩
        rintro _ ⟨⟩
        refine ⟨pairAfter_cons.mpr ⟨rfl,there⟩,?_⟩
        intro other found
        cases other with
        | nil => exact Nat.zero_le _
        | cons first other => exact Nat.succ_le_succ (last other (pairAfter_cons.mp found).2)
      | none =>
        have absent := ih.2 later
        have only : ∀ other, PairAfter oracle (c :: next :: rest) other → other = [] ∧ isKsk oracle c = true ∧
            isIdCert oracle next = true := by
          intro other found
          cases other with
          | nil => exact ⟨rfl,pairAfter_here found⟩
          | cons first other => exact absurd (pairAfter_cons.mp found).2 (absent other)
        cases here : isKsk oracle c && isIdCert oracle next with
        | true =>
          rw [Bool.and_eq_true] at here
          refine ⟨?_,nofun⟩
          rintro _ ⟨⟩
          refine ⟨⟨c,next,rest,rfl,here.1,here.2⟩,?_⟩
          intro other found
          rw [(only other found).1]
        | false =>
          refine ⟨nofun,fun _ front found => ?_⟩
          obtain ⟨_,ksk,idCert⟩ := only front found
          rw [ksk,idCert] at here
          cases here

theorem beforeKsk_unique {name front : List Component} (found : PairAfter oracle name front)
    (last : ∀ other, PairAfter oracle name other → other.length ≤ front.length) : beforeKsk oracle name = some front := by
  cases read : beforeKsk oracle name with
  | none => exact absurd found ((beforeKsk_last name).2 read front)
  | some other =>
    obtain ⟨there,longest⟩ := (beforeKsk_last name).1 other read
    have counted := Nat.le_antisymm (last other there) (longest front found)
    obtain ⟨_,_,_,first,_⟩ := found
    obtain ⟨_,_,_,second,_⟩ := there
    exact congrArg some (List.append_inj_left (second.symm.trans first) counted)

include wild in
theorem ksk_found {name : Name} (short : name.length ≤ intMax) {parses : List Parse}
    (found : recursiveSearch (searches oracle kskItems 0) name = some parses) :
    ∃ before key front rest, name = before ++ key :: rest ∧ (∀ component ∈ before, isKey oracle component = false) ∧
      isKey oracle key = true ∧ beforeKsk oracle rest = some front ∧ takenAll kskItems parses = true ∧
      occurrencesAll 0 parses = [before] ∧ occurrencesAll 1 parses = [front] := by
  obtain ⟨before,back,d0,ds,rfl,rfl,first,afterKey,_⟩ := searches_parts found
  obtain ⟨_,back,d1,ds,rfl,rfl,second,afterBelow,_⟩ := searches_parts afterKey
  obtain ⟨key,rfl,keyed⟩ := single_found second
  obtain ⟨front,back,d2,ds,rfl,rfl,third,afterKsk,longest⟩ := searches_parts afterBelow
  obtain ⟨_,back,d3,ds,rfl,rfl,fourth,afterIdCert,_⟩ := searches_parts afterKsk
  obtain ⟨ksk,rfl,kskMatched⟩ := single_found fourth
  obtain ⟨_,back,d4,ds,rfl,rfl,fifth,last,_⟩ := searches_parts afterIdCert
  obtain ⟨idCert,rfl,idCertMatched⟩ := single_found fifth
  obtain ⟨rest,back,d5,ds,rfl,rfl,sixth,nothing,_⟩ := searches_parts last
  obtain ⟨rfl,rfl⟩ := searches_nil nothing
  simp only [List.length_append,List.length_cons,List.length_nil] at short
  refine ⟨before,key,front,front ++ ksk :: idCert :: rest,by simp,untilKey_found first,keyed,?_,?_,?_,?_⟩
  · refine beforeKsk_unique ⟨ksk,idCert,rest,rfl,kskMatched,idCertMatched⟩ ?_
    rintro other ⟨ksk',idCert',rest',same,kskMatched',idCertMatched'⟩
    have counted := congrArg List.length same
    simp only [List.length_append,List.length_cons] at counted
    refine longest other (ksk' :: idCert' :: rest') (by simpa using same) (below_search (by omega) _) ?_
    exact searches_single kskMatched' (searches_single idCertMatched' (rest_search wild (by omega) _))
  · simp only [kskItems,takenAll,Bool.and_true,Bool.and_eq_true]
    exact ⟨group_taken first,flat_taken rfl second,group_taken third,flat_taken rfl fourth,flat_taken rfl fifth,
      flat_taken rfl sixth⟩
  · simp only [occurrencesAll,List.append_nil]
    rw [group_occurrences rfl first,flat_occurrences rfl second,group_occurrences rfl third,flat_occurrences rfl fourth,
      flat_occurrences rfl fifth,flat_occurrences rfl sixth]
    rfl
  · simp only [occurrencesAll,List.append_nil]
    rw [group_occurrences rfl first,flat_occurrences rfl second,group_occurrences rfl third,flat_occurrences rfl fourth,
      flat_occurrences rfl fifth,flat_occurrences rfl sixth]
    rfl

include wild in
theorem ksk_search {before front rest : List Component} {key ksk idCert : Component}
    (short : (before ++ key :: (front ++ ksk :: idCert :: rest)).length ≤ intMax)
    (free : ∀ component ∈ before, isKey oracle component = false) (keyed : isKey oracle key = true)
    (kskMatched : isKsk oracle ksk = true) (idCertMatched : isIdCert oracle idCert = true) :
    (recursiveSearch (searches oracle kskItems 0) (before ++ key :: (front ++ ksk :: idCert :: rest))).isSome = true := by
  simp only [List.length_append,List.length_cons] at short
  refine searches_some (untilKey_search (by omega) free 0) (searches_single keyed ?_)
  refine searches_some (below_search (by omega) _) (searches_single kskMatched (searches_single idCertMatched ?_))
  exact rest_search wild (by omega) _

end Cuts

section Expressions
variable {engine : Engine} {oracle : Oracle}

-- What `boost::regex` has to make of the texts between the angle brackets.
structure KnownTexts (engine : Engine) (oracle : Oracle) : Prop where
  known : ∀ text ∈ [[],keyString,idString,[0x64,0x73,0x6B,0x2D,0x2E,0x2A],[0x6B,0x73,0x6B,0x2D,0x2E,0x2A],[0x2E,0x2A]],
    engine text = some 0
  wild : ∀ component : Component, oracle [0x2E,0x2A] component.toUri = true

theorem plain_text (known : KnownTexts engine oracle) {text : Blob}
    (member : text ∈ [[],keyString,idString,[0x64,0x73,0x6B,0x2D,0x2E,0x2A],[0x6B,0x73,0x6B,0x2D,0x2E,0x2A]]) :
    PlainText engine text := by
  have listed := known.known text (List.mem_append_left [[0x2E,0x2A]] member)
  have bytes : ∀ text ∈ [[],keyString,idString,[0x64,0x73,0x6B,0x2D,0x2E,0x2A],[0x6B,0x73,0x6B,0x2D,0x2E,0x2A]],
      ∀ c ∈ text, c ≠ 0 ∧ (c ≠ 0x28 ∧ c ≠ 0x29) ∧ (c ≠ 0x5B ∧ c ≠ 0x5D) ∧ c ≠ 0x3C ∧ c ≠ 0x3E := by decide +kernel
  have plain := bytes text member
  exact ⟨⟨fun c here => (plain c here).2.1,balanced_plain fun c here => (plain c here).2.2.1,
    balanced_plain fun c here => (plain c here).2.2.2⟩,fun zero => (plain 0 zero).1 rfl,listed⟩

-- A caret in front of printed patterns, compiled.
theorem printed_top (known : KnownTexts engine oracle) {text : Blob} {items : List Pattern} (nonempty : text ≠ [])
    (core : coreText text = printAll items) (plain : ∀ text ∈ textsAll items, PlainText engine text)
    (legal : ∀ q ∈ quantifiersAll items, q.Small ∧ q.Ordered) : topCompile engine text = .ok (padNodes text (nodeAll items 0)) := by
  have compiled := printed_compiles (printAll items).length 0 items le_rfl plain legal
  rw [topCompile_core (known.known _ (by simp)) nonempty,core,compile,compiled]
  rfl

def dskPatterns : List Pattern := [.group [.set false [keyString] .star] .once,.component keyString .once,
  .component [0x64,0x73,0x6B,0x2D,0x2E,0x2A] .once,.component idString .once]

def kskPatterns : List Pattern := [.group [.set false [keyString] .star] .once,.component keyString .once,
  .group [.component [] .star] .once,.component [0x6B,0x73,0x6B,0x2D,0x2E,0x2A] .once,.component idString .once]

def anyPatterns : List Pattern := [.group [.component [] .star] .once]

theorem dsk_compiles (known : KnownTexts engine oracle) :
    topCompile engine dskCertificates = .ok (padNodes dskCertificates (nodeAll dskPatterns 0)) :=
  printed_top known (by decide) (by decide) (fun text member => plain_text known (by revert text; decide)) (by decide)

theorem ksk_compiles (known : KnownTexts engine oracle) :
    topCompile engine kskCertificates = .ok (padNodes kskCertificates (nodeAll kskPatterns 0)) :=
  printed_top known (by decide) (by decide) (fun text member => plain_text known (by revert text; decide)) (by decide)

theorem any_compiles (known : KnownTexts engine oracle) :
    topCompile engine anyName = .ok (padNodes anyName (nodeAll anyPatterns 0)) :=
  printed_top known (by decide) (by decide) (fun text member => plain_text known (by revert text; decide)) (by decide)

-- The object that comes of printed patterns, with its matchers and its first captures.
theorem dsk_read (known : KnownTexts engine oracle) (earlier : ℕ → List Name) :
    ∃ regex, newRegex engine oracle earlier dskCertificates firstGroup = .ok regex ∧ Says regex (dskNamespace oracle) := by
  refine ⟨_,by rw [newRegex,dsk_compiles known]; rfl,?_⟩
  have items : (ofCompiled firstGroup (padNodes dskCertificates (nodeAll dskPatterns 0))).primaryItems = dskItems := rfl
  refine anchored_read rfl earlier ?_ ?_
  · intro name parses _ found
    rw [items] at found
    obtain ⟨before,key,dsk,idCert,rest,rfl,free,keyed,dskMatched,idCertMatched,taken,first⟩ := dsk_found found
    obtain ⟨front,behind⟩ := key_cut free keyed (dsk :: idCert :: rest)
    refine ⟨filled before,?_,items ▸ taken,?_⟩
    · rw [dskNamespace,behind]
      dsimp only
      rw [dskMatched,idCertMatched,front]
      rfl
    · intro s refs
      rw [expand_first (by decide) rfl (by decide),refs 0 (by decide),first]
      rfl
  · intro name short read
    rw [items]
    rw [dskNamespace] at read
    split at read
    · rename_i dsk idCert rest behind
      obtain ⟨key,same,keyed,free⟩ := key_found (behind ▸ List.cons_ne_nil _ _)
      rw [behind] at same
      split at read
      · rename_i matched
        rw [Bool.and_eq_true] at matched
        rw [same] at short ⊢
        exact dsk_search known.wild short free keyed matched.1 matched.2
      · cases read
    · cases read

theorem ksk_read (known : KnownTexts engine oracle) (earlier : ℕ → List Name) :
    ∃ regex, newRegex engine oracle earlier kskCertificates bothGroups = .ok regex ∧ Says regex (kskNamespace oracle) := by
  refine ⟨_,by rw [newRegex,ksk_compiles known]; rfl,?_⟩
  have items : (ofCompiled bothGroups (padNodes kskCertificates (nodeAll kskPatterns 0))).primaryItems = kskItems := rfl
  refine anchored_read rfl earlier ?_ ?_
  · intro name parses short found
    rw [items] at found
    obtain ⟨before,key,front,rest,rfl,free,keyed,last,taken,first,second⟩ := ksk_found known.wild short found
    obtain ⟨upTo,behind⟩ := key_cut free keyed rest
    refine ⟨filled before ++ filled front,?_,items ▸ taken,?_⟩
    · rw [kskNamespace,behind,last,upTo]
      rfl
    · intro s refs
      rw [expand_both (by decide) rfl (by decide),refs 0 (by decide),refs 1 (by decide),first,second]
      rfl
  · intro name short read
    rw [items]
    rw [kskNamespace,Option.isSome_map] at read
    obtain ⟨front,last⟩ := Option.isSome_iff_exists.mp read
    obtain ⟨⟨ksk,idCert,rest,behind,kskMatched,idCertMatched⟩,_⟩ := (beforeKsk_last _).1 front last
    obtain ⟨key,same,keyed,free⟩ := key_found (behind ▸ List.append_ne_nil_of_right_ne_nil front (List.cons_ne_nil _ _))
    rw [behind] at same
    rw [same] at short ⊢
    exact ksk_search known.wild short free keyed kskMatched idCertMatched

theorem any_read (known : KnownTexts engine oracle) (earlier : ℕ → List Name) :
    ∃ regex, newRegex engine oracle earlier anyName firstGroup = .ok regex ∧ Says regex (fun name => some (filled name)) := by
  refine ⟨_,by rw [newRegex,any_compiles known]; rfl,?_⟩
  have items : (ofCompiled firstGroup (padNodes anyName (nodeAll anyPatterns 0))).primaryItems = [below] := rfl
  refine anchored_read rfl earlier ?_ ?_
  · intro name parses _ found
    rw [items] at found
    obtain ⟨front,back,d,ds,rfl,rfl,first,nothing,_⟩ := searches_parts found
    obtain ⟨rfl,rfl⟩ := searches_nil nothing
    refine ⟨_,rfl,?_,?_⟩
    · rw [items,takenAll,takenAll,Bool.and_true]
      exact group_taken first
    · intro s refs
      rw [expand_first (by decide) rfl (by decide),refs 0 (by decide)]
      simp only [occurrencesAll,List.append_nil]
      rw [group_occurrences rfl first]
      rfl
  · intro name short _
    rw [items,← List.append_nil name]
    exact searches_some (below_search short 0) rfl

-- A rule made of two such expressions.
theorem satisfyNames_read {rule : IdentityPolicyRule} {dataReading signerReading : Name → Option Name}
    (data : Says rule.dataNameRegex dataReading) (signer : Says rule.signerNameRegex signerReading) (moment : ℕ)
    {dataName signerName : Name} (dataShort : dataName.length ≤ intMax) (signerShort : signerName.length ≤ intMax) :
    rule.satisfyNames moment dataName signerName = .ok (match dataReading dataName,signerReading signerName with
      | some expandDataName,some expandSignerName => IdentityPolicyRule.compare rule.op expandDataName expandSignerName
      | _,_ => false) := by
  have dataSaid := data dataName dataShort
  have signerSaid := signer signerName signerShort
  unfold IdentityPolicyRule.satisfyNames
  cases readData : dataReading dataName with
  | none =>
    rw [readData] at dataSaid
    rw [dataSaid]
    rfl
  | some expandDataName =>
    rw [readData] at dataSaid
    rw [dataSaid.1]
    simp only [Throwing.ok_bind,dataSaid.2]
    cases readSigner : signerReading signerName with
    | none =>
      rw [readSigner] at signerSaid
      rw [signerSaid]
      rfl
    | some expandSignerName =>
      rw [readSigner] at signerSaid
      rw [signerSaid.1]
      simp only [Throwing.ok_bind,signerSaid.2]
      rfl

end Expressions

end NdnCxx.Security
