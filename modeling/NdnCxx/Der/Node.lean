import NdnCxx.Der.Header

namespace NdnCxx.Der
open Wire (int32)

inductive DerNode where
  | leaf (type : DerType) (header payload : Blob)
  | complex (header : Blob) (childChanged : Bool) (size : Int) (nodeList : List DerNode)

namespace DerNode

-- A call to `getSize` stores the header it encodes and the size it sums, so it
-- returns the node it leaves behind as well.
mutual
def getSize : DerNode → Except Exception (Int × DerNode)
  | .leaf type header payload => .ok (int32 (header.length + payload.length),.leaf type header payload)
  | .complex _ childChanged size nodeList => do
    let (size,nodeList) ← (if childChanged then updateSize 0 nodeList else .ok (size,nodeList))
    let header ← encodeHeader derSequence size
    return (int32 (size + header.length),.complex header false size nodeList)
def updateSize (newSize : Int) : List DerNode → Except Exception (Int × List DerNode)
  | [] => .ok (newSize,[])
  | node :: nodes => do
    let (nodeSize,node) ← node.getSize
    let (newSize,nodes) ← updateSize (int32 (newSize + nodeSize)) nodes
    return (newSize,node :: nodes)
end

mutual
def getRaw : DerNode → Blob
  | .leaf _ header payload => header ++ payload
  | .complex header _ _ nodeList => header ++ rawAll nodeList
def rawAll : List DerNode → Blob
  | [] => []
  | node :: nodes => node.getRaw ++ rawAll nodes
end

def encodeAll (encode : DerNode → Except Exception (Blob × DerNode)) :
    List DerNode → Except Exception (Blob × List DerNode)
  | [] => .ok ([],[])
  | node :: nodes => do
    let (first,node) ← encode node
    let (others,nodes) ← encodeAll encode nodes
    return (first ++ others,node :: nodes)

mutual
def depth : DerNode → Nat
  | .leaf _ _ _ => 0
  | .complex _ _ _ nodeList => depthAll nodeList + 1
def depthAll : List DerNode → Nat
  | [] => 0
  | node :: nodes => max node.depth (depthAll nodes)
end

-- The children are encoded as `updateSize` leaves them, hence the bound on the depth.
def encodeWithin : Nat → DerNode → Except Exception (Blob × DerNode)
  | _,.leaf type header payload => .ok (header ++ payload,.leaf type header payload)
  | 0,.complex _ _ _ _ => .error .outOfFuel
  | fuel+1,.complex _ _ _ nodeList => do
    let (size,nodeList) ← updateSize 0 nodeList
    let header ← encodeHeader derSequence size
    let (body,nodeList) ← encodeAll (encodeWithin fuel) nodeList
    return (header ++ body,.complex header false size nodeList)

def encode (node : DerNode) : Except Exception (Blob × DerNode) := encodeWithin node.depth node

-- The whole buffer is inserted, with what a short read left in its tail.
def decode (memory : Nat → UInt8) (type : DerType) (start : InputIterator) : DerNode × InputIterator :=
  let (payloadSize,header,s) := decodeHeader start
  if payloadSize > 0 then
    let (filled,s) := s.read payloadSize.toNat
    let unfilled := (List.range' filled.length (payloadSize.toNat - filled.length)).map memory
    (.leaf type header (filled ++ unfilled),s)
  else (.leaf type header [],s)

mutual
def parseWithin (memory : Nat → UInt8) : Nat → InputIterator → Except Exception (DerNode × InputIterator)
  | 0,_ => .error .outOfFuel
  | fuel+1,start =>
    let (type,s) := start.peek
    if type = derSequence then do
      let (size,header,s) := decodeHeader s
      let (nodeList,s) ← parseChildren memory fuel size 0 s
      return (.complex header false size nodeList,s)
    else
      match DerType.ofCode type with
      | some type => .ok (decode memory type s)
      | none => .error (.derDecodingException "Unimplemented DER types")
def parseChildren (memory : Nat → UInt8) :
    Nat → Int → Int → InputIterator → Except Exception (List DerNode × InputIterator)
  | 0,_,_,_ => .error .outOfFuel
  | fuel+1,size,accSize,s =>
    if accSize < size then do
      let (node,s) ← parseWithin memory fuel s
      let (nodeSize,node) ← node.getSize
      let (nodes,s) ← parseChildren memory fuel size (int32 (accSize + nodeSize)) s
      return (node :: nodes,s)
    else .ok ([],s)
end

-- Every node takes a byte and every turn of the loop a node.
def parse (memory : Nat → UInt8) (start : InputIterator) : Except Exception (DerNode × InputIterator) :=
  parseWithin memory (2 * start.rest.length + 1) start

end DerNode

end NdnCxx.Der
