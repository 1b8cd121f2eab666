import NdnCxx.Regex.Repetition
import NdnCxx.Regex.Captures

namespace NdnCxx.Regex
open RegexTopMatcher
open Brackets (Balanced closing closing_parts closing_balanced)

-- The items of a template: a reference or a literal between brackets.
inductive Item where
  | index (number : Number)
  | literal (inner : {inner : Blob // Balanced 0x3C 0x3E inner})

namespace Item

def text : Item → Blob
  | index number => 0x5C :: number.val
  | literal inner => 0x3C :: (inner.val ++ [0x3E])

def isLiteral : Item → Bool
  | index _ => false
  | literal _ => true

-- The components an item stands for; none for a literal whose escapes cannot be undone.
def denoted (whole : List Component) (backRef : ℕ → List Component) : Item → Option (List Component)
  | index number => some (if number.value = 0 then whole else backRef (number.value - 1))
  | literal inner => (Component.fromUri inner.val).toOption.map ([·])

def InRange (refs : ℕ) : Item → Prop
  | index number => number.value ≤ refs
  | literal _ => True

-- What the code does with an item without throwing what it should: a negative index, or
-- a literal with a bad escape.
def Broken : Item → Prop
  | index number => lowHalf number.value < 0
  | literal inner => (Component.fromUri inner.val).toOption = none

instance (refs : ℕ) (item : Item) : Decidable (item.InRange refs) := by
  cases item <;> unfold InRange <;> infer_instance

end Item

def printItems (items : List Item) : Blob := items.flatMap Item.text

def denotedAll (whole : List Component) (backRef : ℕ → List Component) : List Item → Option (List Component)
  | [] => some []
  | item :: items => do return (← item.denoted whole backRef) ++ (← denotedAll whole backRef items)

-- The first item of a text and what follows.
def readItem : Blob → Option (Item × Blob)
  | [] => none
  | c :: rest =>
    if c = 0x5C then
      if number : isNumber (rest.takeWhile isDigit) = true then some (.index ⟨_,number⟩,rest.dropWhile isDigit) else none
    else if c = 0x3C then
      match closed : closing 0x3C 0x3E 0 rest with
      | some (inner,rest) => some (.literal ⟨inner.dropLast,closing_balanced closed⟩,rest)
      | none => none
    else none

section Reading

theorem readItem_parts {template rest : Blob} {item : Item} (found : readItem template = some (item,rest)) :
    template = item.text ++ rest := by
  cases template with
  | nil => cases found
  | cons c others =>
    simp only [readItem] at found
    split at found
    · rename_i slash
      split at found
      · cases found
        rw [slash,Item.text,List.cons_append,List.takeWhile_append_dropWhile]
      · cases found
    · split at found
      · rename_i bracket
        split at found
        · rename_i inner after closed
          cases found
          obtain ⟨parts,body,ends⟩ := closing_parts closed
          have whole : others = inner.dropLast ++ [0x3E] ++ rest := by rw [parts,ends,List.dropLast_concat]
          rw [bracket]
          exact congrArg (0x3C :: ·) whole
        · cases found
      · cases found

theorem text_positive (item : Item) : 0 < item.text.length := by
  cases item <;> simp [Item.text]

theorem readItem_shorter {template rest : Blob} {item : Item} (found : readItem template = some (item,rest)) :
    rest.length < template.length := by
  have positive := text_positive item
  rw [readItem_parts found,List.length_append]
  omega

end Reading

-- A text as items, and what is left when no further item can be read.
def readItems (template : Blob) : List Item × Blob :=
  match found : readItem template with
  | none => ([],template)
  | some (item,rest) =>
    have := readItem_shorter found
    (item :: (readItems rest).1,(readItems rest).2)
termination_by template.length
decreasing_by all_goals exact this

section Printing

-- A reference ends where no further digit follows.
theorem readItem_index (number : Number) {rest : Blob} (ends : ∀ c ∈ rest.head?, isDigit c = false) :
    readItem ((Item.index number).text ++ rest) = some (.index number,rest) := by
  have digits : (number.val ++ rest).takeWhile isDigit = number.val := by
    rw [List.takeWhile_append_of_pos (number_digits number)]
    cases rest with
    | nil => rw [List.takeWhile_nil,List.append_nil]
    | cons c rest => rw [List.takeWhile_cons_of_neg (by simp [ends c rfl]),List.append_nil]
  have others : (number.val ++ rest).dropWhile isDigit = rest := by
    rw [List.dropWhile_append_of_pos (number_digits number)]
    cases rest with
    | nil => rfl
    | cons c rest => exact List.dropWhile_cons_of_neg (by simp [ends c rfl])
  simp only [Item.text,List.cons_append,readItem,if_true,digits,others,number.property,dite_true]

theorem readItem_literal (inner : {inner : Blob // Balanced 0x3C 0x3E inner}) (rest : Blob) :
    readItem ((Item.literal inner).text ++ rest) = some (.literal inner,rest) := by
  have closed := inner.property.closing (by decide) rest
  have other : ¬(0x3C : UInt8) = 0x5C := by decide
  simp only [Item.text,List.cons_append,List.append_assoc,List.nil_append,readItem,if_neg other,if_true]
  split
  · rename_i body after found
    rw [closed] at found
    cases found
    simp only [List.dropLast_concat]
  · rename_i found
    rw [closed] at found
    cases found

theorem readItem_unclosed {rest : Blob} (unclosed : closing 0x3C 0x3E 0 rest = none) : readItem (0x3C :: rest) = none := by
  have other : ¬(0x3C : UInt8) = 0x5C := by decide
  simp only [readItem,if_neg other,if_true]
  split
  · rename_i found
    rw [unclosed] at found
    cases found
  · rfl

theorem readItem_closed {rest inner after : Blob} (closed : closing 0x3C 0x3E 0 rest = some (inner,after)) :
    readItem (0x3C :: rest) = some (.literal ⟨inner.dropLast,closing_balanced closed⟩,after) := by
  obtain ⟨rfl,body,rfl⟩ := closing_parts closed
  have found := readItem_literal ⟨(body ++ [0x3E]).dropLast,closing_balanced closed⟩ after
  simpa only [Item.text,List.cons_append,List.dropLast_concat] using found

-- No item starts with a digit, so that a reference ends where the next item starts.
theorem printed_head (items : List Item) : ∀ c ∈ (printItems items).head?, isDigit c = false := by
  intro c first
  cases items with
  | nil => cases first
  | cons item items =>
    cases item <;> (cases first; rfl)

theorem readItems_none {template : Blob} (found : readItem template = none) : readItems template = ([],template) := by
  rw [readItems]
  split
  · rfl
  · rename_i other
    rw [found] at other
    cases other

theorem readItems_some {template rest : Blob} {item : Item} (found : readItem template = some (item,rest)) :
    readItems template = (item :: (readItems rest).1,(readItems rest).2) := by
  rw [readItems]
  split
  · rename_i other
    rw [found] at other
    cases other
  · rename_i other
    rw [found] at other
    cases other
    rfl

theorem readItems_printed (items : List Item) : readItems (printItems items) = (items,[]) := by
  induction items with
  | nil => exact readItems_none rfl
  | cons item items ih =>
    have found : readItem (printItems (item :: items)) = some (item,printItems items) := by
      rw [printItems,List.flatMap_cons]
      cases item with
      | index number => exact readItem_index number (printed_head items)
      | literal inner => exact readItem_literal inner _
    rw [readItems_some found,ih]

theorem readItems_parts (template : Blob) : template = printItems (readItems template).1 ++ (readItems template).2 := by
  induction template using readItems.induct with
  | case1 template found => rw [readItems_none found,printItems,List.flatMap_nil,List.nil_append]
  | case2 template item rest found _ ih =>
    rw [readItems_some found,printItems,List.flatMap_cons,List.append_assoc]
    rw [← printItems,← ih]
    exact readItem_parts found

-- The grammar reads back exactly what is written in it.
theorem printed_iff (template : Blob) (items : List Item) :
    template = printItems items ↔ readItems template = (items,[]) := by
  constructor
  · rintro rfl
    exact readItems_printed items
  · intro same
    have parts := readItems_parts template
    rwa [same,List.append_nil] at parts

end Printing

section Scanning

theorem balanced_closing (depth right : ℕ) (text : Blob) :
    balanced (right + depth + 1) right text =
      match closing 0x3C 0x3E depth text with
      | none => .error wrongFormat
      | some (inner,rest) => if rest = [] then .error wrongFormat else .ok (inner,rest) := by
  induction text generalizing depth right with
  | nil => rfl
  | cons c text ih =>
    have different : ¬(0x3E : UInt8) = 0x3C := by decide
    -- One character more in front of what is found later.
    have longer : ∀ depth right, (if text = [] then .error wrongFormat
          else (balanced (right + depth + 1) right text).map (fun parts => (c :: parts.1,parts.2))) =
        match (closing 0x3C 0x3E depth text).map (fun parts => (c :: parts.1,parts.2)) with
        | none => .error wrongFormat
        | some (inner,rest) => if rest = [] then .error wrongFormat else .ok (inner,rest) := by
      intro depth right
      rw [ih]
      cases found : closing 0x3C 0x3E depth text with
      | none =>
        simp only [Option.map_none,Except.map]
        split <;> rfl
      | some parts =>
        obtain ⟨inner,rest⟩ := parts
        have further : text ≠ [] := by
          rintro rfl
          cases found
        simp only [Option.map_some,if_neg further]
        split <;> rfl
    simp only [balanced,closing]
    by_cases opens : c = 0x3C
    · have other : ¬c = 0x3E := by
        rw [opens]
        exact different ∘ Eq.symm
      have below : right < right + depth + 1 + 1 := by omega
      simp only [if_pos opens,if_neg other,if_pos below]
      exact longer (depth + 1) right
    · by_cases closes : c = 0x3E
      · simp only [if_neg opens,if_pos closes]
        cases depth with
        | zero => simp [closes]
        | succ depth =>
          have shifted : right + (depth + 1) + 1 = right + 1 + depth + 1 := by omega
          have below : right + 1 < right + 1 + depth + 1 := by omega
          rw [shifted]
          simp only [if_pos below]
          exact longer depth (right + 1)
      · have below : right < right + depth + 1 := by omega
        simp only [if_neg opens,if_neg closes,if_pos below]
        exact longer depth right

-- The scanner reads the items of the grammar, except for a literal that ends the template.
theorem getItem_reads (template : Blob) :
    getItemFromExpand template =
      match readItem template with
      | none => .error wrongFormat
      | some (item,rest) => if item.isLiteral = true ∧ rest = [] then .error wrongFormat else .ok (item.text,rest) := by
  cases template with
  | nil => rfl
  | cons c rest =>
    by_cases slash : c = 0x5C
    · subst slash
      simp only [getItemFromExpand,readItem,if_true]
      by_cases none : rest.takeWhile isDigit = []
      · have number : ¬isNumber (rest.takeWhile isDigit) = true := by simp [none,isNumber]
        rw [if_pos none,dif_neg number]
      · have number : isNumber (rest.takeWhile isDigit) = true := by simp [isNumber,none]
        rw [if_neg none,dif_pos number]
        rfl
    · by_cases bracket : c = 0x3C
      · subst bracket
        have scanned := balanced_closing 0 0 rest
        rw [Nat.zero_add] at scanned
        simp only [getItemFromExpand,if_neg slash,if_true,scanned]
        cases closed : closing 0x3C 0x3E 0 rest with
        | none =>
          rw [readItem_unclosed closed]
          rfl
        | some parts =>
          obtain ⟨inner,after⟩ := parts
          obtain ⟨_,body,ends⟩ := closing_parts closed
          rw [readItem_closed closed]
          by_cases last : after = []
          · simp [last,Item.isLiteral,Except.map]
          · simp [last,Item.text,ends,Except.map]
      · simp only [getItemFromExpand,readItem,if_neg slash,if_neg bracket]

end Scanning

-- The loop of `expand` over items that have been read already.
def expandItems (top : RegexTopMatcher) (s : State) : Name → List Item → Blob → Except ExpandError Name
  | result,[],rest => if rest = [] then .ok result else .error wrongFormat
  | result,item :: items,rest =>
    if item.isLiteral = true ∧ items = [] ∧ rest = [] then .error wrongFormat
    else (expandItem top s result item.text).bind (fun result => expandItems top s result items rest)

theorem nothing_read {template : Blob} : (readItems template).1 = [] ∧ (readItems template).2 = [] ↔ template = [] := by
  constructor
  · rintro ⟨items,rest⟩
    have parts := readItems_parts template
    rwa [items,rest] at parts
  · rintro rfl
    rw [readItems_none rfl]
    exact ⟨rfl,rfl⟩

theorem expandFrom_items (top : RegexTopMatcher) (s : State) (fuel : ℕ) (result : Name) (template : Blob)
    (enough : template.length ≤ fuel) :
    expandFrom top s fuel result template = expandItems top s result (readItems template).1 (readItems template).2 := by
  induction fuel generalizing result template with
  | zero =>
    obtain rfl := List.length_eq_zero_iff.mp (Nat.le_zero.mp enough)
    rw [readItems_none rfl]
    rfl
  | succ fuel ih =>
    cases template with
    | nil =>
      rw [readItems_none rfl]
      rfl
    | cons c others =>
      simp only [expandFrom,getItem_reads]
      cases found : readItem (c :: others) with
      | none =>
        rw [readItems_none found]
        rfl
      | some parts =>
        obtain ⟨item,rest⟩ := parts
        have shorter := readItem_shorter found
        rw [readItems_some found]
        simp only [expandItems,nothing_read]
        by_cases last : item.isLiteral = true ∧ rest = []
        · rw [if_pos last,if_pos last]
        · rw [if_neg last,if_neg last]
          simp only
          cases expandItem top s result item.text with
          | error error => rfl
          | ok result => exact ih result rest (by omega)

-- Where the code stops with an error that it should throw: at what no item starts with,
-- at an index above the references, and at a literal that ends the template.
def Halts (refs : ℕ) : List Item → Blob → Prop
  | [],rest => rest ≠ []
  | .index number :: _,_ => refs < lowHalf number.value
  | .literal _ :: items,rest => items = [] ∧ rest = []

-- It gets there if no item before is a broken one.
def Stops (refs : ℕ) (items : List Item) (rest : Blob) : Prop :=
  ∃ front back, items = front ++ back ∧ (∀ item ∈ front, ¬item.Broken) ∧ Halts refs back rest

theorem stops_cons {refs : ℕ} {item : Item} {items : List Item} {rest : Blob} :
    Stops refs (item :: items) rest ↔ Halts refs (item :: items) rest ∨ (¬item.Broken ∧ Stops refs items rest) := by
  constructor
  · rintro ⟨front,back,parts,sound,halts⟩
    cases front with
    | nil =>
      left
      rwa [parts]
    | cons first front =>
      obtain ⟨rfl,rfl⟩ := List.cons.inj parts
      right
      exact ⟨sound _ (.head _),front,back,rfl,fun other member => sound other (.tail _ member),halts⟩
  · rintro (halts | ⟨sound,front,back,rfl,others,halts⟩)
    · exact ⟨[],_,rfl,List.forall_mem_nil _,halts⟩
    · exact ⟨item :: front,back,rfl,List.forall_mem_cons.mpr ⟨sound,others⟩,halts⟩

section Outcome
variable {top : RegexTopMatcher} {s : State}

theorem expand_index (result : Name) (number : Number) :
    expandItem top s result (Item.index number).text =
      if lowHalf number.value = 0 then .ok (s.matchResult.foldl Name.append result)
      else if lowHalf number.value ≤ refsAll top.core then
        if lowHalf number.value < 0 then .error .undefined
        else .ok ((getBackRef s ((lowHalf number.value).toNat - 1)).foldl Name.append result)
      else .error exceedRange := by
  have other : ¬(0x5C : UInt8) = 0x3C := by decide
  simp only [Item.text,expandItem,if_neg other,atoi_lowHalf]
  rfl

theorem expand_literal {inner : {inner : Blob // Balanced 0x3C 0x3E inner}} {component : Component}
    (unescaped : Component.fromUri inner.val = .ok component) (result : Name) :
    expandItem top s result (Item.literal inner).text = .ok (result.append component) := by
  simp only [Item.text,expandItem,if_true,List.dropLast_concat,unescaped]

theorem expand_escape {inner : {inner : Blob // Balanced 0x3C 0x3E inner}} {error : UriError}
    (bad : Component.fromUri inner.val = .error error) (result : Name) :
    expandItem top s result (Item.literal inner).text = .error (.uri error) := by
  simp only [Item.text,expandItem,if_true,List.dropLast_concat,bad]

theorem expand_halts {result : Name} {items : List Item} {rest : Blob} (halts : Halts (refsAll top.core) items rest) :
    ∃ msg, expandItems top s result items rest = .error (.regex msg) := by
  cases items with
  | nil => exact ⟨_,if_neg halts⟩
  | cons item items =>
    cases item with
    | index number =>
      have above : (refsAll top.core : ℤ) < lowHalf number.value := halts
      refine ⟨"Exceed the range of back reference!",?_⟩
      rw [expandItems,if_neg (fun last => Bool.noConfusion last.1),expand_index,if_neg (by omega),if_neg (by omega)]
      rfl
    | literal inner => exact ⟨_,if_pos ⟨rfl,halts⟩⟩

theorem expand_broken {result : Name} {item : Item} {items : List Item} {rest : Blob}
    (goes : ¬Halts (refsAll top.core) (item :: items) rest) (broken : item.Broken) (msg : String) :
    expandItems top s result (item :: items) rest ≠ .error (.regex msg) := by
  cases item with
  | index number =>
    have negative : lowHalf number.value < 0 := broken
    rw [expandItems,if_neg (fun last => Bool.noConfusion last.1),expand_index,if_neg (by omega),if_pos (by omega),
      if_pos negative]
    simp [Except.bind]
  | literal inner =>
    have bad : (Component.fromUri inner.val).toOption = none := broken
    rw [expandItems,if_neg (fun last => goes last.2)]
    cases unescaped : Component.fromUri inner.val with
    | ok component =>
      rw [unescaped] at bad
      cases bad
    | error error =>
      rw [expand_escape unescaped]
      simp [Except.bind]

theorem expand_goes {item : Item} {items : List Item} {rest : Blob}
    (goes : ¬Halts (refsAll top.core) (item :: items) rest) (sound : ¬item.Broken) (result : Name) :
    ∃ further, expandItems top s result (item :: items) rest = expandItems top s further items rest := by
  cases item with
  | index number =>
    have positive : ¬lowHalf number.value < 0 := sound
    have below : ¬(refsAll top.core : ℤ) < lowHalf number.value := goes
    rw [expandItems,if_neg (fun last => Bool.noConfusion last.1),expand_index]
    by_cases zero : lowHalf number.value = 0
    · rw [if_pos zero]
      exact ⟨_,rfl⟩
    · rw [if_neg zero,if_pos (by omega),if_neg positive]
      exact ⟨_,rfl⟩
  | literal inner =>
    rw [expandItems,if_neg (fun last => goes last.2)]
    cases unescaped : Component.fromUri inner.val with
    | ok component =>
      rw [expand_literal unescaped]
      exact ⟨_,rfl⟩
    | error error =>
      refine absurd ?_ sound
      rw [Item.Broken,unescaped]
      rfl

theorem expand_throws_iff (result : Name) (items : List Item) (rest : Blob) :
    (∃ msg, expandItems top s result items rest = .error (.regex msg)) ↔ Stops (refsAll top.core) items rest := by
  induction items generalizing result with
  | nil =>
    constructor
    · rintro ⟨msg,thrown⟩
      refine ⟨[],[],rfl,List.forall_mem_nil _,?_⟩
      rintro rfl
      cases thrown
    · rintro ⟨front,back,parts,_,halts⟩
      obtain ⟨rfl,rfl⟩ := List.append_eq_nil_iff.mp parts.symm
      exact expand_halts halts
  | cons item items ih =>
    rw [stops_cons]
    by_cases halts : Halts (refsAll top.core) (item :: items) rest
    · exact iff_of_true (expand_halts halts) (.inl halts)
    · by_cases broken : item.Broken
      · refine iff_of_false ?_ ?_
        · rintro ⟨msg,thrown⟩
          exact expand_broken halts broken msg thrown
        · rintro (stops | ⟨sound,_⟩)
          · exact halts stops
          · exact sound broken
      · obtain ⟨further,same⟩ := @expand_goes top s _ _ _ halts broken result
        rw [same,ih]
        simp only [halts,broken,false_or,not_false_eq_true,true_and]

end Outcome

def EndsInLiteral (items : List Item) : Prop := ∃ front inner, items = front ++ [.literal inner]

section Denoted
variable {top : RegexTopMatcher} {s : State}

theorem ends_cons {item : Item} {items : List Item} (ends : ¬EndsInLiteral (item :: items)) :
    ¬(item.isLiteral = true ∧ items = []) ∧ ¬EndsInLiteral items := by
  constructor
  · rintro ⟨literal,rfl⟩
    cases item with
    | index number => cases literal
    | literal inner => exact ends ⟨[],inner,rfl⟩
  · rintro ⟨front,inner,rfl⟩
    exact ends ⟨item :: front,inner,rfl⟩

theorem index_small {number : Number} (few : refsAll top.core ≤ intMax) (within : (Item.index number).InRange (refsAll top.core)) :
    lowHalf number.value = number.value := lowHalf_small (le_trans within few)

theorem denoted_iff (few : refsAll top.core ≤ intMax) {item : Item} (within : item.InRange (refsAll top.core))
    {whole : List Component} {backRef : ℕ → List Component} :
    (∃ components, item.denoted whole backRef = some components) ↔ ¬item.Broken := by
  cases item with
  | index number =>
    rw [Item.Broken,index_small few within]
    exact iff_of_true ⟨_,rfl⟩ (by omega)
  | literal inner =>
    rw [Item.Broken,Item.denoted]
    cases (Component.fromUri inner.val).toOption <;> simp

theorem denotedAll_iff (few : refsAll top.core ≤ intMax) {items : List Item}
    (within : ∀ item ∈ items, item.InRange (refsAll top.core)) {whole : List Component} {backRef : ℕ → List Component} :
    (∃ components, denotedAll whole backRef items = some components) ↔ ∀ item ∈ items, ¬item.Broken := by
  induction items with
  | nil => exact iff_of_true ⟨[],rfl⟩ (List.forall_mem_nil _)
  | cons item items ih =>
    have here := @denoted_iff top few item (within item (.head _)) whole backRef
    have there := ih (fun other member => within other (.tail _ member))
    rw [List.forall_mem_cons,← here,← there,denotedAll]
    cases item.denoted whole backRef with
    | none => simp
    | some components => cases denotedAll whole backRef items <;> simp

theorem expand_denoted (few : refsAll top.core ≤ intMax) {item : Item} (within : item.InRange (refsAll top.core))
    {components : List Component} (found : item.denoted s.matchResult (getBackRef s) = some components) (result : Name) :
    expandItem top s result item.text = .ok (components.foldl Name.append result) := by
  cases item with
  | index number =>
    have small := index_small few within
    have below : number.value ≤ refsAll top.core := within
    rw [expand_index,small]
    cases found
    by_cases zero : number.value = 0
    · rw [if_pos (by omega),if_pos zero]
    · rw [if_neg (by omega),if_pos (by omega),if_neg (by omega),if_neg zero,Int.toNat_natCast]
  | literal inner =>
    rw [Item.denoted] at found
    cases unescaped : Component.fromUri inner.val with
    | error error =>
      rw [unescaped] at found
      cases found
    | ok component =>
      rw [unescaped] at found
      cases found
      exact expand_literal unescaped result

theorem expandItems_denoted (few : refsAll top.core ≤ intMax) {items : List Item}
    (within : ∀ item ∈ items, item.InRange (refsAll top.core)) (ends : ¬EndsInLiteral items) {components : List Component}
    (found : denotedAll s.matchResult (getBackRef s) items = some components) (result : Name) :
    expandItems top s result items [] = .ok (components.foldl Name.append result) := by
  induction items generalizing components result with
  | nil =>
    cases found
    rfl
  | cons item items ih =>
    obtain ⟨notLast,others⟩ := ends_cons ends
    rw [denotedAll] at found
    obtain ⟨first,here,found⟩ := Option.bind_eq_some_iff.mp found
    obtain ⟨rest,there,joined⟩ := Option.bind_eq_some_iff.mp found
    cases joined
    rw [expandItems,if_neg (fun last => notLast ⟨last.1,last.2.1⟩),expand_denoted few (within item (.head _)) here,
      List.foldl_append]
    exact ih (fun other member => within other (.tail _ member)) others there _

end Denoted

-- The template that is expanded.
def RegexTopMatcher.template (top : RegexTopMatcher) (expandStr : Blob) : Blob :=
  if expandStr = [] then top.expand else expandStr

-- What the expansion of a template should be, for so many references.
structure Expands (refs : ℕ) (whole : List Component) (backRef : ℕ → List Component) (template : Blob)
    (result : Except ExpandError Name) : Prop where
  inside : ∀ items, template = printItems items → (∀ item ∈ items, item.InRange refs) →
    ∃ components, denotedAll whole backRef items = some components ∧ result = .ok (components.foldl Name.append [])
  outside : (¬∃ items, template = printItems items ∧ ∀ item ∈ items, item.InRange refs) →
    ∃ msg, result = .error (.regex msg)

-- What the items of a template and the rest behind them must be like for that.
def Expandable (refs : ℕ) (items : List Item) (rest : Blob) : Prop :=
  if rest = [] ∧ ∀ item ∈ items, item.InRange refs then (∀ item ∈ items, ¬item.Broken) ∧ ¬EndsInLiteral items
  else Stops refs items rest

theorem matched_result {oracle : Oracle} {top : RegexTopMatcher} {s : State} {name : Name}
    (matched : (top.matchName oracle s name).1 = true) : (top.matchName oracle s name).2.matchResult = name := by
  unfold matchName at matched ⊢
  cases first : (recursiveMatch (matchRuns oracle top.primaryItems 0) name s.primary).1 with
  | true => simp only [first,if_true]
  | false =>
    simp only [first,Bool.false_eq_true,if_false] at matched ⊢
    cases secondary : top.secondaryItems with
    | none =>
      rw [secondary] at matched
      cases matched
    | some items =>
      rw [secondary] at matched
      simp only at matched ⊢
      split at matched
      · rename_i second
        rw [if_pos second]
      · cases matched

theorem literal_stops {refs : ℕ} {items : List Item} (sound : ∀ item ∈ items, ¬item.Broken) (ends : EndsInLiteral items) :
    Stops refs items [] := by
  obtain ⟨front,inner,rfl⟩ := ends
  exact ⟨front,[.literal inner],rfl,fun item member => sound item (List.mem_append_left _ member),rfl,rfl⟩

theorem expansion_within {top : RegexTopMatcher} {s : State} (few : refsAll top.core ≤ intMax) {items : List Item}
    (within : ∀ item ∈ items, item.InRange (refsAll top.core)) :
    (∃ components, denotedAll s.matchResult (getBackRef s) items = some components ∧
        expandItems top s [] items [] = .ok (components.foldl Name.append [])) ↔
      (∀ item ∈ items, ¬item.Broken) ∧ ¬EndsInLiteral items := by
  constructor
  · rintro ⟨components,found,expanded⟩
    have sound := (denotedAll_iff few within).mp ⟨components,found⟩
    refine ⟨sound,?_⟩
    intro ends
    obtain ⟨msg,thrown⟩ := (@expand_throws_iff top s [] items []).mpr (literal_stops sound ends)
    rw [expanded] at thrown
    cases thrown
  · rintro ⟨sound,ends⟩
    obtain ⟨components,found⟩ := (denotedAll_iff few within).mpr sound
    exact ⟨components,found,expandItems_denoted few within ends found []⟩

-- A template is expanded or refused as it should be exactly when, read from the left,
-- the code comes to no broken item before it is done or throws; a template that should be
-- expanded must not end in a literal, and one that should not must give it a cause to throw.
theorem template_expansion {oracle : Oracle} {top : RegexTopMatcher} {earlier : List Name} {name : Name}
    (matched : (top.matchName oracle (top.after oracle earlier) name).1 = true) (few : refsAll top.core ≤ intMax)
    (expandStr : Blob) :
    Expands (refsAll top.core) name (getBackRef (top.matchName oracle (top.after oracle earlier) name).2)
        (top.template expandStr) (expandName top (top.matchName oracle (top.after oracle earlier) name).2 expandStr) ↔
      Expandable (refsAll top.core) (readItems (top.template expandStr)).1 (readItems (top.template expandStr)).2 := by
  have result := matched_result matched
  generalize (top.matchName oracle (top.after oracle earlier) name).2 = s at result
  have loop : expandName top s expandStr =
      expandItems top s [] (readItems (top.template expandStr)).1 (readItems (top.template expandStr)).2 :=
    expandFrom_items top s _ [] _ le_rfl
  have written : ∀ items, top.template expandStr = printItems items ↔ readItems (top.template expandStr) = (items,[]) :=
    printed_iff _
  rw [loop,← result]
  generalize readItems (top.template expandStr) = read at written
  obtain ⟨items,rest⟩ := read
  simp only [Expandable]
  split
  · rename_i inside
    obtain ⟨rfl,within⟩ := inside
    rw [← @expansion_within top s few items within]
    constructor
    · intro expands
      exact expands.inside items ((written items).mpr rfl) within
    · intro found
      refine ⟨?_,fun outside => absurd ⟨items,(written items).mpr rfl,within⟩ outside⟩
      intro others same _
      cases (written others).mp same
      exact found
  · rename_i outside
    rw [← @expand_throws_iff top s []]
    have refused : ¬∃ items, top.template expandStr = printItems items ∧ ∀ item ∈ items, item.InRange (refsAll top.core) := by
      rintro ⟨others,same,within⟩
      cases (written others).mp same
      exact outside ⟨rfl,within⟩
    constructor
    · intro expands
      exact expands.outside refused
    · intro thrown
      exact ⟨fun others same within => absurd ⟨others,same,within⟩ refused,fun _ => thrown⟩

def firstReference : Item := .index ⟨[0x31],rfl⟩

def literalA : Item := .literal ⟨[0x61],rfl⟩

-- `<a>\1` for the name `/a/b`.
theorem template_expansion_reference_last :
    (grouped.matchName plainText (grouped.after plainText []) [letterName 0x61,letterName 0x62]).1 = true ∧
      Expands 1 [letterName 0x61,letterName 0x62]
        (getBackRef (grouped.matchName plainText (grouped.after plainText []) [letterName 0x61,letterName 0x62]).2)
        [0x3C,0x61,0x3E,0x5C,0x31]
        (expandName grouped (grouped.matchName plainText (grouped.after plainText []) [letterName 0x61,letterName 0x62]).2
          [0x3C,0x61,0x3E,0x5C,0x31]) := by
  have expands := @template_expansion plainText grouped [] [letterName 0x61,letterName 0x62] (by decide) (by decide)
    [0x3C,0x61,0x3E,0x5C,0x31]
  refine ⟨by decide,expands.mpr ?_⟩
  have read : readItems (grouped.template [0x3C,0x61,0x3E,0x5C,0x31]) = ([literalA,firstReference],[]) :=
    readItems_printed [literalA,firstReference]
  rw [read,Expandable,if_pos ⟨rfl,by decide⟩]
  constructor
  · intro item member
    rcases List.mem_pair.mp member with rfl | rfl
    · intro bad
      cases bad
    · have positive : ¬lowHalf 1 < 0 := by decide
      exact positive
  · rintro ⟨front,inner,same⟩
    have last := congrArg List.getLast? same
    rw [List.getLast?_concat] at last
    cases last

def hugeReference : Item := .index ⟨[0x34,0x32,0x39,0x34,0x39,0x36,0x37,0x32,0x39,0x37],rfl⟩

-- `\1<a>` is refused, and `\4294967297` is taken for the first reference.
theorem template_misread :
    (grouped.matchName plainText fresh [letterName 0x61,letterName 0x62]).1 = true ∧
      ¬Expands (refsAll grouped.core) [letterName 0x61,letterName 0x62]
        (getBackRef (grouped.matchName plainText fresh [letterName 0x61,letterName 0x62]).2)
        (printItems [firstReference,literalA])
        (expandName grouped (grouped.matchName plainText fresh [letterName 0x61,letterName 0x62]).2
          (printItems [firstReference,literalA])) ∧
      ¬Expands (refsAll grouped.core) [letterName 0x61,letterName 0x62]
        (getBackRef (grouped.matchName plainText fresh [letterName 0x61,letterName 0x62]).2)
        (printItems [hugeReference])
        (expandName grouped (grouped.matchName plainText fresh [letterName 0x61,letterName 0x62]).2
          (printItems [hugeReference])) := by
  refine ⟨by decide,?_,?_⟩
  · intro expands
    have refused : expandName grouped (grouped.matchName plainText fresh [letterName 0x61,letterName 0x62]).2
        (printItems [firstReference,literalA]) = .error wrongFormat := by decide
    obtain ⟨components,_,same⟩ := expands.inside [firstReference,literalA] rfl (by decide)
    rw [refused] at same
    cases same
  · intro expands
    have wrapped : expandName grouped (grouped.matchName plainText fresh [letterName 0x61,letterName 0x62]).2
        (printItems [hugeReference]) = .ok [letterName 0x61] := by decide +kernel
    have above : ¬∃ items, printItems [hugeReference] = printItems items ∧
        ∀ item ∈ items, item.InRange (refsAll grouped.core) := by
      rintro ⟨items,same,within⟩
      rw [printed_iff,readItems_printed] at same
      cases same
      have below : numberValue [0x34,0x32,0x39,0x34,0x39,0x36,0x37,0x32,0x39,0x37] ≤ 1 := within hugeReference (.head _)
      exact absurd below (by decide +kernel)
    obtain ⟨msg,same⟩ := expands.outside above
    rw [wrapped] at same
    cases same

end NdnCxx.Regex
