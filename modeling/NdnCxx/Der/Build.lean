import NdnCxx.Der.Node

namespace NdnCxx.Der
open Wire (int32)

-- Every constructor of a node without children stores its payload and encodes its size.
def DerNode.ofPayload (type : DerType) (payload : Blob) : Except Exception DerNode := do
  let header ← encodeHeader type.code (int32 payload.length)
  return .leaf type header payload

def derBool (value : Bool) : Except Exception DerNode := DerNode.ofPayload .derBoolean [if value then 0xFF else 0x00]

def derInteger (blob : Blob) : Except Exception DerNode := DerNode.ofPayload .derInteger blob

def derBitString (blob : Blob) (paddingLen : UInt8) : Except Exception DerNode :=
  DerNode.ofPayload .derBitString (paddingLen :: blob)

def derOctetString (blob : Blob) : Except Exception DerNode := DerNode.ofPayload .derOctetString blob

def derNull : Except Exception DerNode := DerNode.ofPayload .derNull []

def derPrintableString (blob : Blob) : Except Exception DerNode := DerNode.ofPayload .derPrintableString blob

-- Seven bits a byte, the most significant first; a shift lowers a non-zero value.
def septets : Nat → Nat → Blob → Blob
  | 0,_,p => p
  | turns+1,value,p =>
    if value = 0 then p else septets turns (value >>> 7) (UInt8.ofNat ((value &&& 0x7F) ||| 0x80) :: p)

def encode128 (value : Int) : Blob :=
  if 128 > value then [UInt8.ofNat (value % 128).toNat]
  else septets 5 (value.toNat >>> 7) [UInt8.ofNat (value.toNat &&& 0x7F)]

def prepareEncoding : List Int → Except Exception Blob
  | [] => .error (.derEncodingException "no integer in oid")
  | first :: others =>
    if 0 ≤ first ∧ 2 ≥ first then
      match others with
      | [] => .ok (encode128 (first * 40))
      | second :: others =>
        if 0 ≤ second ∧ 39 ≥ second then .ok (encode128 (first * 40 + second) ++ others.flatMap encode128)
        else .error (.derEncodingException "second integer of oid is out of range")
    else .error (.derEncodingException "first integer of oid is out of range")

def derOid (value : List Int) : Except Exception DerNode := do
  let payload ← prepareEncoding value
  DerNode.ofPayload .derObjectIdentifier payload

-- What stands between the dots, each piece read as `atoi` reads it.
def oidIntegers (oidStr : Blob) : List Int := (oidStr.splitOn 0x2E).map Wire.readInt32

def derOidOfString (oidStr : Blob) : Except Exception DerNode := derOid (oidIntegers oidStr)

-- `find_first_of` hands -1 to both `substr` calls when there is no `T`.
def gtimePayload (pTimeStr : Blob) : Blob :=
  if 0x54 ∈ pTimeStr then
    pTimeStr.takeWhile (· ≠ 0x54) ++ (pTimeStr.dropWhile (· ≠ 0x54)).drop 1 ++ [0x5A]
  else pTimeStr ++ pTimeStr ++ [0x5A]

-- `pTimeStr` is what boost's `to_iso_string` prints for the time.
def derGtime (pTimeStr : Blob) : Except Exception DerNode := DerNode.ofPayload .derGeneralizedTime (gtimePayload pTimeStr)

namespace DerNode

def derSequence : DerNode := .complex [] false 0 []

-- The flag says whether the parent is told that a child has changed.
def addChild (node : DerNode) : DerNode → DerNode × Bool
  | .complex header childChanged size nodeList => (.complex header true size (nodeList ++ [node]),!childChanged)
  | .leaf type header payload => (.leaf type header payload,false)

def setChildChanged (childChanged told : Bool) : Bool × Bool := (childChanged || told,told && !childChanged)

-- `addChild` on a node anywhere below, with what it tells the nodes above.
inductive Added (node : DerNode) : DerNode → DerNode → Bool → Prop where
  | here (header : Blob) (childChanged : Bool) (size : Int) (nodeList : List DerNode) :
      Added node (.complex header childChanged size nodeList)
        (addChild node (.complex header childChanged size nodeList)).1
        (addChild node (.complex header childChanged size nodeList)).2
  | inside (header : Blob) (childChanged : Bool) (size : Int) (before after : List DerNode) {inner changed : DerNode}
      {told : Bool} :
      Added node inner changed told →
      Added node (.complex header childChanged size (before ++ inner :: after))
        (.complex header (setChildChanged childChanged told).1 size (before ++ changed :: after))
        (setChildChanged childChanged told).2

-- `getSize` and `encode` change what a node caches, also when they are called on a node below.
inductive Queried : DerNode → DerNode → Prop where
  | getSize {node after : DerNode} {size : Int} : node.getSize = .ok (size,after) → Queried node after
  | encode {node after : DerNode} {bytes : Blob} : node.encode = .ok (bytes,after) → Queried node after
  | inside (header : Blob) (childChanged : Bool) (size : Int) (before after : List DerNode) {inner changed : DerNode} :
      Queried inner changed →
      Queried (.complex header childChanged size (before ++ inner :: after))
        (.complex header childChanged size (before ++ changed :: after))

inductive Built : DerNode → Prop where
  | bool (value : Bool) {node : DerNode} : derBool value = .ok node → Built node
  | integer (blob : Blob) {node : DerNode} : derInteger blob = .ok node → Built node
  | bitString (blob : Blob) (paddingLen : UInt8) {node : DerNode} : derBitString blob paddingLen = .ok node → Built node
  | octetString (blob : Blob) {node : DerNode} : derOctetString blob = .ok node → Built node
  | null {node : DerNode} : derNull = .ok node → Built node
  | oid (value : List Int) {node : DerNode} : derOid value = .ok node → Built node
  | oidOfString (oidStr : Blob) {node : DerNode} : derOidOfString oidStr = .ok node → Built node
  | printableString (blob : Blob) {node : DerNode} : derPrintableString blob = .ok node → Built node
  | gtime (pTimeStr : Blob) {node : DerNode} : derGtime pTimeStr = .ok node → Built node
  | sequence : Built derSequence
  | addChild {child parent after : DerNode} {told : Bool} :
      Built child → Built parent → Added child parent after told → Built after
  | query {node after : DerNode} : Built node → Queried node after → Built after

end DerNode

end NdnCxx.Der
