import NdnCxx.Wire.Header

namespace NdnCxx.Wire

-- What a decoding call can throw. A null `Ptr` that is dereferenced is undefined
-- behaviour and counts as a failure of its own; `outOfFuel` is no behaviour of
-- the program.
inductive Exception where
  | ndnbDecodingException
  | badAnyCast
  | nullDereference
  | outOfFuel
  deriving DecidableEq, Repr

inductive Block where
  | blob (bytes : Blob)
  | udata (bytes : Blob)
  | tag (name : Blob) (attrs nested : List Block)
  | attr (name value : Blob)
  | dtag (number : Nat) (attrs nested : List Block)
  | dattr (number : Nat) (value : Blob)
  | ext (subtype : Nat)

def Block.isBaseAttr : Block → Bool
  | .attr _ _ => true
  | .dattr _ _ => true
  | _ => false

-- The reading loop of every constructor that stores bytes.
def readBytes : Nat → InputIterator → Blob × InputIterator
  | 0,s => ([],s)
  | length+1,s =>
    if s.isEnd then ([],s)
    else
      let tail := readBytes length s.readU8.2
      (s.readU8.1 :: tail.1,tail.2)

def readLength (length : Nat) (s : InputIterator) : Except Exception (Blob × InputIterator) :=
  let read := readBytes length s
  if read.1.length < length ∧ read.2.isEnd then .error .ndnbDecodingException else .ok read

-- `Tag` and `Dtag` share everything after their own field: the attribute loop,
-- the loop over the remaining blocks, the end test and the closer.
def tagBody (attributes : Except Exception ((List Block × List Block) × InputIterator))
    (nested : InputIterator → Except Exception (List Block × InputIterator)) :
    Except Exception ((List Block × List Block) × InputIterator) := do
  let ((attrs,first),s) ← attributes
  let (others,s) ← nested s
  if s.isEnd then throw .ndnbDecodingException
  return ((attrs,first ++ others),s.readU8.2)

def attrValue : Except Exception (Block × InputIterator) → Except Exception (Blob × InputIterator)
  | .ok (.udata bytes,s) => .ok (bytes,s)
  | .ok _ => .error .ndnbDecodingException
  | .error thrown => .error thrown

mutual
def parseBlock (std : Standard) : Nat → InputIterator → Except Exception (Block × InputIterator)
  | 0,_ => .error .outOfFuel
  | fuel+1,start =>
    match readHeader start with
    | none => .error .outOfFuel
    | some (value,tt,s) =>
      match tt with
      | .blob => do
        let (bytes,s) ← readLength value s
        return (.blob bytes,s)
      | .udata => do
        let (bytes,s) ← readLength value s
        return (.udata bytes,s)
      | .tag => do
        let (name,s) ← readLength ((value+1) % 2^32) s
        let (body,s) ← tagBody (parseAttrs std fuel s) (parseNested std fuel)
        return (.tag name body.1 body.2,s)
      | .attr => do
        let (name,s) ← readLength ((value+1) % 2^32) s
        let (bytes,s) ← attrValue (parseBlock std fuel s)
        return (.attr name bytes,s)
      | .dtag => do
        let (body,s) ← tagBody (parseAttrs std fuel s) (parseNested std fuel)
        return (.dtag value body.1 body.2,s)
      | .dattr => do
        let (bytes,s) ← attrValue (parseBlock std fuel s)
        return (.dattr value bytes,s)
      | .ext => return (.ext value,s)
      | .noToken => throw .ndnbDecodingException

-- The first block that is no attribute ends the loop and is already nested.
def parseAttrs (std : Standard) : Nat → InputIterator → Except Exception ((List Block × List Block) × InputIterator)
  | 0,_ => .error .outOfFuel
  | fuel+1,s =>
    if s.isEnd then .ok (([],[]),s)
    else if (s.peekU8 std).1 = UInt8.ofNat ndnClose then .ok (([],[]),(s.peekU8 std).2)
    else do
      let (block,s) ← parseBlock std fuel (s.peekU8 std).2
      if block.isBaseAttr then
        let ((attrs,first),s) ← parseAttrs std fuel s
        return ((block :: attrs,first),s)
      else return (([],[block]),s)

def parseNested (std : Standard) : Nat → InputIterator → Except Exception (List Block × InputIterator)
  | 0,_ => .error .outOfFuel
  | fuel+1,s =>
    if s.isEnd then .ok ([],s)
    else if (s.peekU8 std).1 = UInt8.ofNat ndnClose then .ok ([],(s.peekU8 std).2)
    else do
      let (block,s) ← parseBlock std fuel (s.peekU8 std).2
      let (others,s) ← parseNested std fuel s
      return (block :: others,s)
end

-- Every turn consumes a byte or ends, so the input bounds the calls.
def parse (std : Standard) (bytes : Blob) : Except Exception (Block × InputIterator) :=
  parseBlock std (2 * bytes.length + 2) (.openOn bytes)

end NdnCxx.Wire
