import NdnCxx.Trie.Node

namespace NdnCxx
open PointerTree Trie

inductive Policy where
  | lru
  | fifo
  | lfu
  | counting
  | persistent
  | random
  deriving DecidableEq, Repr

-- The trie, the policy container (the addresses it links, from `begin` to `end`), the
-- `max_size_` of the policy, and the objects the payload pointers point to.
structure TrieWithPolicy (K P V : Type) where
  trie : Trie K P
  container : List ℕ
  maxSize : ℕ
  memory : P → V

namespace TrieWithPolicy
variable {K P V : Type}

def construct (key : K) (hook next maxSize : ℕ) (memory : P → V) : TrieWithPolicy K P V :=
  ⟨Trie.construct key hook next,[],maxSize,memory⟩

-- `erase (iterator)`: out of the container first, then out of the trie.
def eraseNode (s : TrieWithPolicy K P V) (node : ℕ) : TrieWithPolicy K P V :=
  {s with trie := (Trie.erase s.trie node).1,container := s.container.erase node}

def eraseAt (s : TrieWithPolicy K P V) : Option ℕ → TrieWithPolicy K P V
  | none => s
  | some node => eraseNode s node

def clear (s : TrieWithPolicy K P V) : TrieWithPolicy K P V := {s with trie := Trie.clear s.trie,container := []}

section Policies
variable (s : TrieWithPolicy K P V) (item : ℕ)

def full : Bool := s.maxSize != 0 && decide (s.maxSize ≤ s.container.length)

-- `base_.erase (&(*begin ()))`.
def evict : TrieWithPolicy K P V :=
  match s.container with
  | [] => s
  | first :: _ => eraseNode s first

def pushBack : TrieWithPolicy K P V := {s with container := s.container ++ [item]}

def splice : TrieWithPolicy K P V := {s with container := s.container.erase item ++ [item]}

-- A multiset takes an item behind all that do not compare greater.
def notGreater (other : ℕ) : Bool := !decide (orderAt s.trie item < orderAt s.trie other)

def multisetInsert : TrieWithPolicy K P V :=
  {s with container := s.container.takeWhile (notGreater s item) ++ item :: s.container.dropWhile (notGreater s item)}

def evictingInsert (place : TrieWithPolicy K P V → ℕ → TrieWithPolicy K P V) : TrieWithPolicy K P V × Bool :=
  (place (if full s then evict s else s) item,true)

def lruUpdate : TrieWithPolicy K P V := splice s item

def lruLookup : TrieWithPolicy K P V := splice s item

def lruInsert : TrieWithPolicy K P V × Bool := evictingInsert s item pushBack

def fifoInsert : TrieWithPolicy K P V × Bool := evictingInsert s item pushBack

-- The frequency is a `double`, which stops counting at 2^53.
def increment (frequency : ℕ) : ℕ := if frequency < 2^53 then frequency + 1 else frequency

def lfuUpdate : TrieWithPolicy K P V :=
  let s := {s with container := s.container.erase item}
  let s := {s with trie := setOrder s.trie item (increment (orderAt s.trie item))}
  multisetInsert s item

def lfuLookup : TrieWithPolicy K P V := lfuUpdate s item

def lfuInsert : TrieWithPolicy K P V × Bool := evictingInsert {s with trie := setOrder s.trie item 0} item multisetInsert

def countingInsert : TrieWithPolicy K P V × Bool := (pushBack s item,true)

def persistentInsert : TrieWithPolicy K P V × Bool := if full s then (s,false) else (pushBack s item,true)

-- `draw` is what the generator returns for this insert.
def randomInsert (draw : UInt32) : TrieWithPolicy K P V × Bool :=
  let s := {s with trie := setOrder s.trie item draw.toNat}
  if full s ∧ s.container.head?.any (fun first => decide (orderAt s.trie item < orderAt s.trie first)) then (s,false)
  else evictingInsert s item multisetInsert

end Policies

def policyUpdate (s : TrieWithPolicy K P V) (item : ℕ) : Policy → TrieWithPolicy K P V
  | .lru => lruUpdate s item
  | .lfu => lfuUpdate s item
  | .fifo | .counting | .persistent | .random => s

def policyLookup (s : TrieWithPolicy K P V) (item : ℕ) : Policy → TrieWithPolicy K P V
  | .lru => lruLookup s item
  | .lfu => lfuLookup s item
  | .fifo | .counting | .persistent | .random => s

def policyInsert (s : TrieWithPolicy K P V) (item : ℕ) (draw : UInt32) : Policy → TrieWithPolicy K P V × Bool
  | .lru => lruInsert s item
  | .fifo => fifoInsert s item
  | .lfu => lfuInsert s item
  | .counting => countingInsert s item
  | .persistent => persistentInsert s item
  | .random => randomInsert s item draw

section Operations
variable [DecidableEq K] (policy : Policy) (s : TrieWithPolicy K P V)

def insert (key : List K) (payload : Option P) (draw : UInt32) : TrieWithPolicy K P V × Option ℕ × Bool :=
  let (trie,node,added) := Trie.insert s.trie key payload
  let s := {s with trie := trie}
  if added then
    let (s,ok) := policyInsert s node draw policy
    if ok then (s,some node,true) else ({s with trie := (Trie.erase s.trie node).1},none,false)
  else (s,some node,false)

def findExact (key : List K) : Option ℕ :=
  let (_,reachLast,last) := find s.trie key
  if !reachLast || (payloadAt s.trie last).isNone then none else some last

def erase (key : List K) : TrieWithPolicy K P V :=
  let (_,reachLast,last) := find s.trie key
  if !reachLast || (payloadAt s.trie last).isNone then s else eraseNode s last

def modify [DecidableEq P] (position : Option ℕ) (mod : V → V) : TrieWithPolicy K P V × Bool :=
  match position with
  | none => (s,false)
  | some node =>
    match payloadAt s.trie node with
    | none => (s,false)
    | some payload =>
      (policyUpdate {s with memory := Function.update s.memory payload (mod (s.memory payload))} node policy,true)

def lookedUp (found : Option ℕ) : TrieWithPolicy K P V × Option ℕ :=
  match found with
  | none => (s,none)
  | some node => (policyLookup s node policy,some node)

def longestPrefixMatch (key : List K) : TrieWithPolicy K P V × Option ℕ := lookedUp policy s (find s.trie key).1

-- A predicate sees the payload pointer and what it points to.
def longestPrefixMatchIf (key : List K) (pred : P → V → Bool) : TrieWithPolicy K P V × Option ℕ :=
  lookedUp policy s (findIf s.trie key (fun payload => pred payload (s.memory payload))).1

-- Without a payload on the way the found node is the first one below. If there is
-- none, the null iterator goes to the policy: two of them dereference it, which is
-- the outer `none`.
def deepestPrefixMatch (key : List K) (order : Enumeration) : Option (TrieWithPolicy K P V × Option ℕ) :=
  let (found,reachLast,last) := find s.trie key
  if reachLast then
    match found.or (findBelow s.trie order (fun _ => true) s.trie.next last) with
    | some node => some (policyLookup s node policy,some node)
    | none =>
      match policy with
      | .lru | .lfu => none
      | .fifo | .counting | .persistent | .random => some (s,none)
  else some (s,none)

def deepestPrefixMatchIf (key : List K) (pred : P → V → Bool) (order : Enumeration) : TrieWithPolicy K P V × Option ℕ :=
  let (_,reachLast,last) := find s.trie key
  if reachLast then
    lookedUp policy s (findBelow s.trie order (fun payload => pred payload (s.memory payload)) s.trie.next last)
  else (s,none)

end Operations

-- What a caller can do with a trie. `draw` and `order` are the choices of the random
-- generator and of the unordered sets.
inductive Operation (K P V : Type) where
  | insert (key : List K) (payload : Option P) (draw : UInt32)
  | erase (key : List K)
  | eraseAt (position : Option ℕ)
  | modify (position : Option ℕ) (mod : V → V)
  | findExact (key : List K)
  | longestPrefixMatch (key : List K)
  | longestPrefixMatchIf (key : List K) (pred : P → V → Bool)
  | deepestPrefixMatch (key : List K) (order : Enumeration)
  | deepestPrefixMatchIf (key : List K) (pred : P → V → Bool) (order : Enumeration)
  | clear
  | setMaxSize (maxSize : ℕ)

-- No result stands for undefined behaviour: a null or dangling iterator is used, or
-- a node is unlinked from a container that does not link it.
def step [DecidableEq K] [DecidableEq P] (policy : Policy) (s : TrieWithPolicy K P V) :
    Operation K P V → Option (TrieWithPolicy K P V)
  | .insert key payload draw => some (insert policy s key payload draw).1
  | .erase key => some (erase s key)
  | .eraseAt none => some s
  | .eraseAt (some node) => if node ∈ s.container then some (eraseAt s (some node)) else none
  | .modify none _ => some s
  | .modify (some node) mod => if (s.trie.cells node).isSome then some (modify policy s (some node) mod).1 else none
  | .findExact _ => some s
  | .longestPrefixMatch key => some (longestPrefixMatch policy s key).1
  | .longestPrefixMatchIf key pred => some (longestPrefixMatchIf policy s key pred).1
  | .deepestPrefixMatch key order => (deepestPrefixMatch policy s key order).map Prod.fst
  | .deepestPrefixMatchIf key pred order => some (deepestPrefixMatchIf policy s key pred order).1
  | .clear => some (clear s)
  | .setMaxSize maxSize => some {s with maxSize := maxSize}

end TrieWithPolicy
end NdnCxx
