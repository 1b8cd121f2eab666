import NdnCxx.Der.RoundTrip

namespace NdnCxx.Der
open Wire (int32 int32_small)
open Throwing

namespace DerNode

-- The children of every sequence fill the size it has: not a byte more or less.
mutual
def Partitions : DerNode → Prop
  | .leaf _ _ _ => True
  | .complex _ _ size nodeList => size = (rawAll nodeList).length ∧ PartitionsAll nodeList
def PartitionsAll : List DerNode → Prop
  | [] => True
  | node :: nodes => node.Partitions ∧ PartitionsAll nodes
end

-- Three ways to ask a node for its bytes, and where its children lie in them.
structure Faithful (node : DerNode) (consumed : Blob) : Prop where
  sized : ∃ after,node.getSize = .ok ((consumed.length : Int),after) ∧ after.getRaw = consumed
  raw : node.getRaw = consumed
  encoded : ∃ after,node.encode = .ok (consumed,after)
  partitions : node.Partitions

-- What `parse` leaves in a child: the fields as read, or the header of its own making.
mutual
def Stored : DerNode → Prop
  | .leaf type header payload =>
    ∃ field n,header = type.code :: field ∧ LengthField field n ∧ (int32 n).toNat = payload.length
  | .complex header childChanged size nodeList =>
    encodeHeader Der.derSequence size = .ok header ∧ childChanged = false ∧ StoredAll nodeList
def StoredAll : List DerNode → Prop
  | [] => True
  | node :: nodes => node.Stored ∧ StoredAll nodes
end

mutual
theorem stored_exact : (node : DerNode) → node.Stored → node.Partitions → node.Exact
  | .leaf _ _ _,stored,_ => stored
  | .complex header childChanged size nodeList,stored,partitions => by
    obtain ⟨encoded,rfl,children⟩ := stored
    obtain ⟨rfl,below⟩ := partitions
    rw [encodeHeader_nat] at encoded
    cases encoded
    exact ⟨rfl,rfl,rfl,storedAll_exact nodeList children below⟩
theorem storedAll_exact : (nodes : List DerNode) → StoredAll nodes → PartitionsAll nodes → ExactAll nodes
  | [],_,_ => trivial
  | node :: nodes,stored,partitions =>
    ⟨stored_exact node stored.1 partitions.1,storedAll_exact nodes stored.2 partitions.2⟩
end

mutual
theorem exact_partitions : (node : DerNode) → node.Exact → node.Partitions
  | .leaf _ _ _,_ => trivial
  | .complex _ _ _ nodeList,exact => ⟨exact.2.2.1,exactAll_partitions nodeList exact.2.2.2⟩
theorem exactAll_partitions : (nodes : List DerNode) → ExactAll nodes → PartitionsAll nodes
  | [],_ => trivial
  | node :: nodes,exact => ⟨exact_partitions node exact.1,exactAll_partitions nodes exact.2⟩
end

theorem decode_result (memory : Nat → UInt8) (type : DerType) {start s : InputIterator} {size : Int} {header : Blob}
    (read : decodeHeader start = (size,header,s)) : ∃ payload,
      decode memory type start = (.leaf type header payload,if size > 0 then (s.read size.toNat).2 else s) ∧
      payload.length = size.toNat := by
  by_cases positive : size > 0
  · refine ⟨_,by rw [decode,read]; dsimp only; rw [if_pos positive,if_pos positive],?_⟩
    have short : (s.read size.toNat).1.length ≤ size.toNat := by
      unfold InputIterator.read
      split
      · split
        · simp
        · dsimp only
          omega
      · simp
    simp only [List.length_append,List.length_map,List.length_range']
    omega
  · refine ⟨[],by rw [decode_empty memory type read positive,if_neg positive],?_⟩
    simp only [List.length_nil]
    omega

theorem decode_stored (memory : Nat → UInt8) (type : DerType) (s : InputIterator) (same : s.readU8.1 = type.code) :
    (decode memory type s).1.Stored := by
  obtain ⟨field,n,declares,size,header⟩ := decodeHeader_parts s
  rw [same] at header
  rcases read : decodeHeader s with ⟨payloadSize,bytes,rest⟩
  rw [read] at size header
  dsimp only at size header
  obtain ⟨payload,decoded,length⟩ := decode_result memory type read
  rw [decoded]
  refine ⟨field,n,header,declares,?_⟩
  rw [← size]
  exact length.symm

theorem peek_read {s : InputIterator} (seen : s.peek.1 ≠ 0xFF) : s.peek.2 = s ∧ s.readU8.1 = s.peek.1 := by
  unfold InputIterator.peek InputIterator.readU8 at *
  split at seen
  · rename_i good
    split at seen
    · exact absurd rfl seen
    · rename_i byte rest bytes
      simp [good]
  · exact absurd rfl seen

-- All that a call to the parser can do, and one turn of its loop.
theorem parse_cases {memory : Nat → UInt8} {fuel : Nat} {s after : InputIterator} {node : DerNode}
    (returned : parseWithin memory (fuel+1) s = .ok (node,after)) :
    (∃ type : DerType,s.readU8.1 = type.code ∧ s.peek.1 = type.code ∧ decode memory type s = (node,after)) ∨
      ∃ nodeList,s.readU8.1 = Der.derSequence ∧ s.peek.1 = Der.derSequence ∧
        parseChildren memory fuel (decodeHeader s).1 0 (decodeHeader s).2.2 = .ok (nodeList,after) ∧
        node = .complex (decodeHeader s).2.1 false (decodeHeader s).1 nodeList := by
  simp only [parseWithin] at returned
  split at returned
  · rename_i sequence
    obtain ⟨still,same⟩ := peek_read (s := s) (by rw [sequence]; decide)
    rw [still] at returned
    obtain ⟨⟨nodeList,rest⟩,children,returned⟩ := bind_ok returned
    cases returned
    exact .inr ⟨nodeList,same.trans sequence,sequence,children,rfl⟩
  · split at returned
    · rename_i type known
      have code := DerType.code_of_ofCode known
      obtain ⟨still,same⟩ := peek_read (s := s) (by rw [← code]; cases type <;> decide)
      rw [still] at returned
      exact .inl ⟨type,by rw [same,code],code.symm,Except.ok.inj returned⟩
    · cases returned

theorem children_cases {memory : Nat → UInt8} {fuel : Nat} {size accSize : Int} {s after : InputIterator}
    {nodes : List DerNode} (returned : parseChildren memory (fuel+1) size accSize s = .ok (nodes,after)) :
    (¬accSize < size ∧ nodes = [] ∧ after = s) ∨
      accSize < size ∧ ∃ node middle nodeSize stored others,parseWithin memory fuel s = .ok (node,middle) ∧
        node.getSize = .ok (nodeSize,stored) ∧
        parseChildren memory fuel size (int32 (accSize + nodeSize)) middle = .ok (others,after) ∧
        nodes = stored :: others := by
  simp only [parseChildren] at returned
  split at returned
  · rename_i more
    obtain ⟨⟨node,middle⟩,parsed,returned⟩ := bind_ok returned
    obtain ⟨⟨nodeSize,stored⟩,sized,returned⟩ := bind_ok returned
    obtain ⟨⟨others,rest⟩,children,returned⟩ := bind_ok returned
    cases returned
    exact .inr ⟨more,node,middle,nodeSize,stored,others,parsed,sized,children,rfl⟩
  · rename_i done
    cases returned
    exact .inl ⟨done,rfl,rfl⟩

-- What each way of parsing gives for one node and for a run of children holds of whatever
-- is parsed.
theorem parse_induction {memory : Nat → UInt8} {single : InputIterator → DerNode → InputIterator → Prop}
    {many : Int → Int → InputIterator → List DerNode → InputIterator → Prop}
    (leaf : ∀ {type : DerType} {s after : InputIterator} {node : DerNode},s.readU8.1 = type.code → s.peek.1 = type.code →
      decode memory type s = (node,after) → single s node after)
    (sequence : ∀ {fuel : Nat} {s after : InputIterator} {nodeList : List DerNode},s.peek.1 = Der.derSequence →
      parseChildren memory fuel (decodeHeader s).1 0 (decodeHeader s).2.2 = .ok (nodeList,after) →
      many (decodeHeader s).1 0 (decodeHeader s).2.2 nodeList after →
      single s (.complex (decodeHeader s).2.1 false (decodeHeader s).1 nodeList) after)
    (done : ∀ {size accSize : Int} {s : InputIterator},¬accSize < size → many size accSize s [] s)
    (more : ∀ {size accSize nodeSize : Int} {s middle after : InputIterator} {node stored : DerNode} {others : List DerNode},
      accSize < size → single s node middle → node.getSize = .ok (nodeSize,stored) →
      many size (int32 (accSize + nodeSize)) middle others after → many size accSize s (stored :: others) after)
    (fuel : Nat) :
    (∀ s node after,parseWithin memory fuel s = .ok (node,after) → single s node after) ∧
      ∀ size accSize s nodes after,parseChildren memory fuel size accSize s = .ok (nodes,after) →
        many size accSize s nodes after := by
  induction fuel with
  | zero =>
    refine ⟨?_,?_⟩
    · intro s node after returned
      cases returned
    · intro size accSize s nodes after returned
      cases returned
  | succ fuel ih =>
    obtain ⟨one,children⟩ := ih
    refine ⟨?_,?_⟩
    · intro s node after returned
      rcases parse_cases returned with ⟨type,first,seen,decoded⟩ | ⟨nodeList,_,seen,parsed,rfl⟩
      · exact leaf first seen decoded
      · exact sequence seen parsed (children _ _ _ _ _ parsed)
    · intro size accSize s nodes after returned
      rcases children_cases returned with ⟨stop,rfl,rfl⟩ | ⟨running,node,middle,nodeSize,stored,others,parsed,sized,rest,rfl⟩
      · exact done stop
      · exact more running (one _ _ _ parsed) sized (children _ _ _ _ _ rest)

-- A node as `parse` returns it, before anyone has asked for its size.
def Returned (node : DerNode) : Prop :=
  node.Unchanged ∧ ∀ size after,node.getSize = .ok (size,after) → after.Stored

theorem returned_complex (header : Blob) (size : Int) {nodeList : List DerNode} (children : StoredAll nodeList) :
    Returned (.complex header false size nodeList) := by
  refine ⟨rfl,?_⟩
  intro total after sized
  simp only [getSize,Bool.false_eq_true,if_false,ok_bind] at sized
  obtain ⟨encoded,written,returned⟩ := bind_ok sized
  cases returned
  exact ⟨written,rfl,children⟩

theorem returned_leaf {node : DerNode} {type : DerType} {header payload : Blob} (same : node = .leaf type header payload)
    (stored : node.Stored) : Returned node := by
  subst same
  refine ⟨trivial,?_⟩
  intro size after sized
  simp only [getSize,Except.ok.injEq,Prod.mk.injEq] at sized
  rw [← sized.2]
  exact stored

theorem decode_leaf (memory : Nat → UInt8) (type : DerType) (s : InputIterator) :
    ∃ header payload,(decode memory type s).1 = .leaf type header payload := by
  rcases read : decodeHeader s with ⟨size,header,rest⟩
  obtain ⟨payload,decoded,_⟩ := decode_result memory type read
  exact ⟨header,payload,by rw [decoded]⟩

theorem parse_returned (memory : Nat → UInt8) (fuel : Nat) :
    (∀ s node after,parseWithin memory fuel s = .ok (node,after) → Returned node) ∧
      ∀ size accSize s nodes after,parseChildren memory fuel size accSize s = .ok (nodes,after) → StoredAll nodes := by
  apply parse_induction
  case leaf =>
    intro type s after node first _ decoded
    obtain ⟨header,payload,leaf⟩ := decode_leaf memory type s
    have stored := decode_stored memory type s first
    rw [decoded] at leaf stored
    exact returned_leaf leaf stored
  case sequence => exact fun _ _ children => returned_complex _ _ children
  case done => exact fun _ => trivial
  case more => exact fun _ node sized others => ⟨node.2 _ _ sized,others⟩

end DerNode

-- No operation of the stream loses a byte of its input.
def whole (s : InputIterator) : Blob := s.past.reverse ++ s.rest

theorem readU8_whole (s : InputIterator) : whole s.readU8.2 = whole s := by
  unfold InputIterator.readU8 whole
  split
  · split
    · rfl
    · rename_i byte rest bytes
      simp [bytes]
  · rfl

theorem read_whole (s : InputIterator) (n : Nat) : whole (s.read n).2 = whole s := by
  unfold InputIterator.read whole
  split
  · split
    · simp
    · simp
  · rfl

theorem readSize_whole (lenCount : Nat) (size : Int) (s : InputIterator) :
    whole (readSize lenCount size s).2.2 = whole s := by
  induction lenCount generalizing size s with
  | zero => rfl
  | succ lenCount ih =>
    simp only [readSize]
    rw [ih,readU8_whole]

theorem decodeHeader_whole (s : InputIterator) : whole (decodeHeader s).2.2 = whole s := by
  unfold decodeHeader decodeLength
  dsimp only
  split
  · rw [readU8_whole,readU8_whole]
  · rw [readSize_whole,readU8_whole,readU8_whole]

namespace DerNode

theorem decode_whole (memory : Nat → UInt8) (type : DerType) (s : InputIterator) :
    whole (decode memory type s).2 = whole s := by
  unfold decode
  dsimp only
  split
  · rw [read_whole,decodeHeader_whole]
  · rw [decodeHeader_whole]

theorem parse_whole (memory : Nat → UInt8) (fuel : Nat) :
    (∀ s node after,parseWithin memory fuel s = .ok (node,after) → whole after = whole s) ∧
      ∀ size accSize s nodes after,parseChildren memory fuel size accSize s = .ok (nodes,after) →
        whole after = whole s := by
  apply parse_induction
  case leaf =>
    intro type s after node _ _ decoded
    rw [← decode_whole memory type s,decoded]
  case sequence =>
    intro fuel s after nodeList _ _ children
    rw [children,decodeHeader_whole]
  case done => exact fun _ => rfl
  case more => exact fun _ first _ others => others.trans first

theorem exact_updateSize {nodes : List DerNode} (exact : ExactAll nodes) : ∀ k : Nat,k + (rawAll nodes).length < 2^31 →
    updateSize k nodes = .ok (((k + (rawAll nodes).length : Nat) : Int),nodes) := by
  induction nodes with
  | nil =>
    intro k _
    simp [updateSize,rawAll]
  | cons node nodes ih =>
    intro k small
    simp only [rawAll,List.length_append] at small
    have sized := exact_getSize node exact.1 (by omega)
    have sum : int32 ((k : Int) + (node.getRaw.length : Int)) = ((k + node.getRaw.length : Nat) : Int) := by
      rw [int32_small (by omega) (by omega)]
      push_cast
      rfl
    have others := ih exact.2 (k + node.getRaw.length) (by omega)
    simp only [updateSize,sized,ok_bind,sum,others,pure_ok,rawAll,List.length_append,add_assoc]

theorem exactAll_encode {encode : DerNode → Except Exception (Blob × DerNode)} {nodes : List DerNode}
    (each : ∀ node ∈ nodes,encode node = .ok (node.getRaw,node)) : encodeAll encode nodes = .ok (rawAll nodes,nodes) := by
  induction nodes with
  | nil => rfl
  | cons node nodes ih =>
    have others := ih (fun other member => each other (by simp [member]))
    simp only [encodeAll,each node (by simp),others,ok_bind,pure_ok,rawAll]

theorem exact_mem {nodes : List DerNode} {node : DerNode} (member : node ∈ nodes) (exact : ExactAll nodes) :
    node.Exact ∧ node.getRaw.length ≤ (rawAll nodes).length ∧ node.depth ≤ depthAll nodes := by
  induction nodes with
  | nil => cases member
  | cons first nodes ih =>
    simp only [rawAll,depthAll,List.length_append]
    rcases List.mem_cons.mp member with rfl | later
    · exact ⟨exact.1,by omega,by omega⟩
    · obtain ⟨own,size,deep⟩ := ih later exact.2
      exact ⟨own,by omega,by omega⟩

theorem exact_encodeWithin (fuel : Nat) : ∀ node : DerNode,node.Exact → node.getRaw.length < 2^31 → node.depth ≤ fuel →
    encodeWithin fuel node = .ok (node.getRaw,node) := by
  induction fuel with
  | zero =>
    intro node exact small shallow
    cases node with
    | leaf type header payload => rfl
    | complex header childChanged size nodeList => simp [depth] at shallow
  | succ fuel ih =>
    intro node exact small shallow
    cases node with
    | leaf type header payload => rfl
    | complex header childChanged size nodeList =>
      obtain ⟨rfl,rfl,rfl,children⟩ := exact
      simp only [getRaw,List.length_append,depth] at small shallow
      have sum := exact_updateSize children 0 (by omega)
      simp only [Nat.cast_zero,zero_add] at sum
      have each : ∀ node ∈ nodeList,encodeWithin fuel node = .ok (node.getRaw,node) := by
        intro node member
        obtain ⟨own,size,deep⟩ := exact_mem member children
        exact ih node own (by omega) (by omega)
      simp only [encodeWithin,sum,ok_bind,encodeHeader_nat,exactAll_encode each,pure_ok,getRaw]

theorem exact_faithful {node : DerNode} (exact : node.Exact) (small : node.getRaw.length < 2^31) :
    Faithful node node.getRaw where
  sized := ⟨node,exact_getSize node exact small,rfl⟩
  raw := rfl
  encoded := ⟨node,exact_encodeWithin node.depth node exact small le_rfl⟩
  partitions := exact_partitions node exact

theorem int32_lt (value : Int) : int32 value < 2^31 := by
  have bound := Int.bmod_lt (x := value) (m := 2^32) (by decide)
  unfold int32
  omega

theorem getSize_lt (node : DerNode) : ∀ size after,node.getSize = .ok (size,after) → size < 2^31 := by
  intro size after sized
  cases node with
  | leaf type header payload =>
    simp only [getSize,Except.ok.injEq,Prod.mk.injEq] at sized
    rw [← sized.1]
    exact int32_lt _
  | complex header childChanged cached nodeList =>
    simp only [getSize] at sized
    obtain ⟨_,_,sized⟩ := bind_ok sized
    obtain ⟨_,_,sized⟩ := bind_ok sized
    simp only [pure_ok,Except.ok.injEq,Prod.mk.injEq] at sized
    rw [← sized.1]
    exact int32_lt _

theorem unchanged_partitions {node after : DerNode} {size : Int} (unchanged : node.Unchanged)
    (sized : node.getSize = .ok (size,after)) (partitions : node.Partitions) : after.Partitions := by
  cases node with
  | leaf type header payload =>
    simp only [getSize,Except.ok.injEq,Prod.mk.injEq] at sized
    rw [← sized.2]
    trivial
  | complex header childChanged cached nodeList =>
    cases unchanged
    simp only [getSize,Bool.false_eq_true,if_false,ok_bind] at sized
    obtain ⟨encoded,_,sized⟩ := bind_ok sized
    cases sized
    exact partitions

-- The condition on the input: it begins with an exact tree. What the parser took
-- for the tree, and where it stopped, then follow.
theorem faithful_iff_exact (memory : Nat → UInt8) (input : Blob) {node : DerNode} {s : InputIterator}
    (accepted : parse memory (.openOn input) = .ok (node,s)) :
    Faithful node s.past.reverse ↔
      ∃ (tree : DerNode) (rest : Blob),tree.Exact ∧ tree.getRaw.length < 2^31 ∧ input = tree.getRaw ++ rest := by
  constructor
  · intro faithful
    obtain ⟨after,sized,raw⟩ := faithful.sized
    obtain ⟨unchanged,stored⟩ := (parse_returned memory _).1 _ _ _ accepted
    have exact := stored_exact after (stored _ _ sized) (unchanged_partitions unchanged sized faithful.partitions)
    have bound := getSize_lt node _ _ sized
    have bytes := (parse_whole memory _).1 _ _ _ accepted
    refine ⟨after,s.rest,exact,by rw [raw]; omega,?_⟩
    rw [raw]
    simpa [whole,InputIterator.openOn,InputIterator.cursor] using bytes.symm
  · rintro ⟨tree,rest,exact,small,rfl⟩
    have parsed := exact_parse memory exact small [] rest
    rw [List.append_nil] at parsed
    have same := accepted.symm.trans parsed
    simp only [Except.ok.injEq,Prod.mk.injEq] at same
    obtain ⟨rfl,rfl⟩ := same
    simpa [InputIterator.cursor] using exact_faithful exact small

theorem faithful_empty_sequence :
    parse (fun _ => 0) (.openOn [0x30,0x00,0x01]) = .ok (.complex [0x30,0x00] false 0 [],.cursor [0x00,0x30] [0x01]) ∧
      Faithful (.complex [0x30,0x00] false 0 []) [0x30,0x00] := by
  have accepted : parse (fun _ => 0) (.openOn [0x30,0x00,0x01]) =
      .ok (.complex [0x30,0x00] false 0 [],.cursor [0x00,0x30] [0x01]) := rfl
  refine ⟨accepted,(faithful_iff_exact (fun _ => 0) _ accepted).mpr ?_⟩
  exact ⟨.complex [0x30,0x00] false 0 [],[0x01],⟨rfl,rfl,rfl,trivial⟩,by decide,rfl⟩

-- A sequence of 127 bytes, its length in the one byte that DER asks for.
def sequenceOf127 : Blob := [0x30,0x7F,0x04,0x7D] ++ List.replicate 125 0x00

theorem sequenceOf127_unfaithful : ∃ node s,parse (fun _ => 0) (.openOn sequenceOf127) = .ok (node,s) ∧
    s.rest = [] ∧ ¬Faithful node s.past.reverse := by
  have leaf : ExactAll [.leaf .derOctetString [0x04,0x7D] (List.replicate 125 0x00)] :=
    ⟨⟨[0x7D],125,rfl,.short 0x7D (by decide),by simp [int32_small]⟩,trivial⟩
  have length : (rawAll [.leaf .derOctetString [0x04,0x7D] (List.replicate 125 0x00)]).length = 127 := by
    simp [rawAll,getRaw]
  have bytes : sequenceOf127 = Der.derSequence ::
      ([0x7F] ++ (rawAll [.leaf .derOctetString [0x04,0x7D] (List.replicate 125 0x00)] ++ [])) := by
    simp [sequenceOf127,rawAll,getRaw,Der.derSequence]
  rw [bytes]
  generalize [DerNode.leaf .derOctetString [0x04,0x7D] (List.replicate 125 0x00)] = nodes at leaf length ⊢
  have body := exact_parsesAll (fun _ => 0) nodes leaf 258 [0x7F,0x30] [] 0 (by omega) (by omega)
  rw [length] at body
  have parsed := parse_sequence (fun _ => 0) (LengthField.short 0x7F (by decide)) (by decide) body
  have whole : 2 * (InputIterator.openOn (Der.derSequence :: ([0x7F] ++ (rawAll nodes ++ [])))).rest.length + 1 = 258 + 1 := by
    simp [InputIterator.openOn,InputIterator.cursor,length]
  refine ⟨_,_,by rw [parse,whole]; exact parsed,rfl,?_⟩
  intro faithful
  obtain ⟨after,sized,_⟩ := faithful.sized
  have written : getSize (.complex [0x30,0x7F] false 127 nodes) = .ok (130,.complex [0x30,0x81,0x7F] false 127 nodes) := rfl
  have sizes := congrArg Prod.fst (Except.ok.inj (written.symm.trans sized))
  simp [InputIterator.cursor,length] at sizes

end DerNode

end NdnCxx.Der
