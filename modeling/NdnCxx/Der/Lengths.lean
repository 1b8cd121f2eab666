import NdnCxx.Der.Raw

namespace NdnCxx.Der
open Wire (int32 int32_small)
open Throwing

-- A stream past its end: nothing is left and nothing is read any more.
def Spent (s : InputIterator) : Prop := s.rest = [] ∧ s.good = false

theorem spent_readU8 {s : InputIterator} (spent : Spent s) : s.readU8.1 = 0xFF ∧ Spent s.readU8.2 := by
  obtain ⟨empty,dead⟩ := spent
  have read : s.readU8 = (0xFF,{s with failbit := true}) := by simp [InputIterator.readU8,dead]
  rw [read]
  simp [Spent,empty,InputIterator.good]

theorem spent_read {s : InputIterator} (spent : Spent s) (n : Nat) : (s.read n).1 = [] ∧ Spent (s.read n).2 := by
  obtain ⟨empty,dead⟩ := spent
  have read : s.read n = ([],{s with failbit := true}) := by simp [InputIterator.read,dead]
  rw [read]
  simp [Spent,empty,InputIterator.good]

theorem spent_peek {s : InputIterator} (spent : Spent s) : s.peek.1 = 0xFF := by
  simp [InputIterator.peek,spent.2]

theorem read_short {rest : Blob} {n : Nat} (past : Blob) (short : rest.length < n) :
    ((InputIterator.cursor past rest).read n).1 = rest ∧ Spent ((InputIterator.cursor past rest).read n).2 := by
  have stops : ¬n ≤ rest.length := by omega
  simp [InputIterator.read,InputIterator.cursor,InputIterator.good,stops,Spent]

theorem readU8_end (past : Blob) : (InputIterator.cursor past []).readU8.1 = 0xFF ∧
    Spent (InputIterator.cursor past []).readU8.2 := by
  simp [Spent,InputIterator.good]

theorem readSize_spent (lenCount : Nat) (size : Int) {s : InputIterator} (spent : Spent s) :
    (readSize lenCount size s).2.1 = List.replicate lenCount 0xFF ∧ Spent (readSize lenCount size s).2.2 := by
  induction lenCount generalizing size s with
  | zero => exact ⟨rfl,spent⟩
  | succ lenCount ih =>
    obtain ⟨byte,next⟩ := spent_readU8 spent
    obtain ⟨bytes,last⟩ := ih (int32 (size * 256 + s.readU8.1.toNat)) next
    simp only [readSize]
    exact ⟨by rw [bytes,byte,List.replicate_succ],last⟩

-- The bytes that are missing read as 0xFF.
theorem readSize_short (lenCount : Nat) (size : Int) (past bytes : Blob) (short : bytes.length < lenCount) :
    (readSize lenCount size (.cursor past bytes)).2.1 = bytes ++ List.replicate (lenCount - bytes.length) 0xFF ∧
      Spent (readSize lenCount size (.cursor past bytes)).2.2 := by
  induction bytes generalizing lenCount size past with
  | nil =>
    obtain ⟨lenCount,rfl⟩ : ∃ smaller,lenCount = smaller+1 := ⟨lenCount-1,by simp at short; omega⟩
    obtain ⟨byte,spent⟩ := readU8_end past
    obtain ⟨bytes,last⟩ := readSize_spent lenCount
      (int32 (size * 256 + (InputIterator.cursor past []).readU8.1.toNat)) spent
    simp only [readSize]
    exact ⟨by rw [bytes,byte]; simp [List.replicate_succ],last⟩
  | cons first bytes ih =>
    simp only [List.length_cons] at short
    obtain ⟨lenCount,rfl⟩ : ∃ smaller,lenCount = smaller+1 := ⟨lenCount-1,by omega⟩
    obtain ⟨others,last⟩ := ih lenCount (int32 (size * 256 + first.toNat)) (first :: past) (by omega)
    simp only [readSize,InputIterator.readU8_cons]
    exact ⟨by rw [others]; simp,last⟩

-- A length field that the input cuts off, completed by the bytes read past its end.
structure CutOff (bytes field : Blob) (n : Nat) : Prop where
  missing : ∃ k,0 < k ∧ field = bytes ++ List.replicate k 0xFF
  declares : LengthField field n

theorem field_or_cutOff (bytes : Blob) :
    (∃ field n rest,LengthField field n ∧ bytes = field ++ rest) ∨ ∃ field n,CutOff bytes field n := by
  cases bytes with
  | nil =>
    refine .inr ⟨0xFF :: List.replicate 127 0xFF,_,⟨128,by omega,List.replicate_succ.symm⟩,
      .long 0xFF _ (by decide) ?_⟩
    rw [List.length_replicate]
    decide
  | cons l bytes =>
    by_cases low : l.toNat < 128
    · exact .inl ⟨[l],_,bytes,.short l low,rfl⟩
    · by_cases enough : max 1 (l.toNat - 128) ≤ bytes.length
      · refine .inl ⟨l :: bytes.take (max 1 (l.toNat - 128)),_,bytes.drop (max 1 (l.toNat - 128)),
          .long l _ (by omega) ?_,?_⟩
        · rw [List.length_take]
          omega
        · rw [List.cons_append,List.take_append_drop]
      · refine .inr ⟨l :: (bytes ++ List.replicate (max 1 (l.toNat - 128) - bytes.length) 0xFF),_,
          ⟨max 1 (l.toNat - 128) - bytes.length,by omega,rfl⟩,.long l _ (by omega) ?_⟩
        simp only [List.length_append,List.length_replicate]
        omega

theorem decodeHeader_cutOff {bytes field : Blob} {n : Nat} (cut : CutOff bytes field n) (type : UInt8) (past : Blob) :
    (decodeHeader (.cursor past (type :: bytes))).2.1 = type :: field ∧
      Spent (decodeHeader (.cursor past (type :: bytes))).2.2 := by
  obtain ⟨⟨k,positive,same⟩,declares⟩ := cut
  cases declares with
  | short l low =>
    have nothing : bytes = [] := by
      apply List.length_eq_zero_iff.mp
      have lengths := congrArg List.length same
      simp only [List.length_cons,List.length_nil,List.length_append,List.length_replicate] at lengths
      omega
    obtain ⟨k,rfl⟩ : ∃ smaller,k = smaller+1 := ⟨k-1,by omega⟩
    rw [nothing,List.nil_append,List.replicate_succ,List.cons.injEq] at same
    rw [same.1] at low
    exact absurd low (by decide)
  | long l others high count =>
    have long : ¬(l &&& 0x80 = 0) := fun clear => absurd ((longForm_iff l).mp clear) (by omega)
    cases bytes with
    | nil =>
      obtain ⟨k,rfl⟩ : ∃ smaller,k = smaller+1 := ⟨k-1,by omega⟩
      rw [List.nil_append,List.replicate_succ,List.cons.injEq] at same
      obtain ⟨top,rfl⟩ := same
      rw [List.length_replicate] at count
      obtain ⟨byte,spent⟩ := readU8_end (type :: past)
      obtain ⟨read,last⟩ := readSize_spent (max 1 (l &&& 0x7F).toNat) 0 spent
      simp only [decodeHeader,InputIterator.readU8_cons]
      rw [byte,← top,decodeLength,if_neg long]
      dsimp only
      exact ⟨by rw [read,lenCount_eq l high,← count,top],last⟩
    | cons first bytes =>
      rw [List.cons_append,List.cons.injEq] at same
      obtain ⟨rfl,rfl⟩ := same
      rw [List.length_append,List.length_replicate] at count
      obtain ⟨read,last⟩ := readSize_short (max 1 (l &&& 0x7F).toNat) 0 (l :: type :: past) bytes
        (by rw [lenCount_eq l high]; omega)
      simp only [decodeHeader,InputIterator.readU8_cons]
      rw [decodeLength,if_neg long]
      dsimp only
      refine ⟨?_,last⟩
      rw [read,lenCount_eq l high]
      have left : max 1 (l.toNat - 128) - bytes.length = k := by omega
      rw [left]

theorem cutOff_size {bytes field : Blob} {n : Nat} (cut : CutOff bytes field n) (type : UInt8) (past : Blob) :
    (decodeHeader (.cursor past (type :: bytes))).1 = int32 n := by
  obtain ⟨other,m,declares,size,header⟩ := decodeHeader_parts (.cursor past (type :: bytes))
  rw [(decodeHeader_cutOff cut type past).1,InputIterator.readU8_cons,List.cons.injEq] at header
  obtain ⟨_,value,_⟩ := cut.declares.unique declares (congrArg (· ++ []) header.2)
  rw [size,value]

namespace DerNode

-- A tree lies in the bytes: every declared length is the length of what follows,
-- the children of a sequence end where it ends, and every payload is there.
mutual
def Fits : DerNode → Blob → Prop
  | .leaf type header payload,bytes =>
    ∃ field,header = type.code :: field ∧ LengthField field payload.length ∧ bytes = header ++ payload
  | .complex _ _ _ nodeList,bytes =>
    ∃ field body,bytes = Der.derSequence :: (field ++ body) ∧ LengthField field body.length ∧ FitsAll nodeList body
def FitsAll : List DerNode → Blob → Prop
  | [],bytes => bytes = []
  | node :: nodes,bytes => ∃ first others,bytes = first ++ others ∧ node.Fits first ∧ FitsAll nodes others
end

theorem fits_shape {node : DerNode} {bytes : Blob} (fits : node.Fits bytes) :
    ∃ type field body,bytes = type :: (field ++ body) ∧ LengthField field body.length := by
  cases node with
  | leaf type header payload =>
    obtain ⟨field,rfl,declares,rfl⟩ := fits
    exact ⟨type.code,field,payload,rfl,declares⟩
  | complex header childChanged size nodeList =>
    obtain ⟨field,body,rfl,declares,_⟩ := fits
    exact ⟨_,field,body,rfl,declares⟩

-- The length field at the front says where a tree ends.
theorem fits_unique {node other : DerNode} {first second rest more : Blob} (fits : node.Fits first)
    (otherFits : other.Fits second) (same : first ++ rest = second ++ more) : first = second ∧ rest = more := by
  obtain ⟨type,field,body,rfl,declares⟩ := fits_shape fits
  obtain ⟨otherType,otherField,otherBody,rfl,otherDeclares⟩ := fits_shape otherFits
  simp only [List.cons_append,List.append_assoc,List.cons.injEq] at same
  obtain ⟨rfl,tails⟩ := same
  obtain ⟨rfl,lengths,tails⟩ := declares.unique otherDeclares tails
  obtain ⟨rfl,rfl⟩ := List.append_inj tails lengths
  exact ⟨rfl,rfl⟩

theorem fitsAll_unique {nodes : List DerNode} : ∀ {body other rest more : Blob},FitsAll nodes body → FitsAll nodes other →
    body ++ rest = other ++ more → body = other := by
  induction nodes with
  | nil =>
    rintro body other rest more rfl rfl _
    rfl
  | cons node nodes ih =>
    rintro body other rest more ⟨first,others,rfl,fits,below⟩ ⟨second,remaining,rfl,otherFits,otherBelow⟩ same
    rw [List.append_assoc,List.append_assoc] at same
    obtain ⟨rfl,tails⟩ := fits_unique fits otherFits same
    rw [ih below otherBelow tails]

-- What one call takes for a node, or what remains of a sequence with its declared
-- size and the size accumulated so far.
inductive Part where
  | element
  | children (size accSize : Int)

def counted (size : Int) : Option Int :=
  match encodeHeader Der.derSequence size with
  | .ok header => some (int32 (size + header.length))
  | .error _ => none

-- The ways to read a byte string, from its front. The flag is lost on the branches
-- that go wrong: `wideLeaf` (a length of 2^31 or more is kept in an `int`),
-- `shortLeaf` (the payload is not all there), `shortHeader` and `shortSequence`
-- (the length field is not all there), `straySequence` (the sizes counted for the
-- children end the sequence elsewhere than at its declared end). The number is what an
-- enclosing sequence counts for the element; the last bytes are what is left.
inductive Reading : Part → Blob → Bool → Option Int → Blob → Prop where
  | leaf (type : DerType) {field : Blob} {n : Nat} (payload rest : Blob) :
      LengthField field n → n < 2^31 → payload.length = n →
      Reading .element (type.code :: (field ++ (payload ++ rest))) true (some (int32 (1 + field.length + n))) rest
  | wideLeaf (type : DerType) {field : Blob} {n : Nat} (payload rest : Blob) :
      LengthField field n → 2^31 ≤ n → payload.length = (int32 n).toNat →
      Reading .element (type.code :: (field ++ (payload ++ rest))) false
        (some (int32 (1 + field.length + (int32 n).toNat))) rest
  | shortLeaf (type : DerType) {field : Blob} {n : Nat} (payload : Blob) :
      LengthField field n → payload.length < (int32 n).toNat →
      Reading .element (type.code :: (field ++ payload)) false (some (int32 (1 + field.length + (int32 n).toNat))) []
  | shortHeader (type : DerType) {bytes field : Blob} {n : Nat} :
      CutOff bytes field n →
      Reading .element (type.code :: bytes) false (some (int32 (1 + field.length + (int32 n).toNat))) []
  | sequence {field : Blob} {n : Nat} {body rest : Blob} {sound : Bool} :
      LengthField field n → Reading (.children (int32 n) 0) (body ++ rest) sound none rest → body.length = n →
      Reading .element (Der.derSequence :: (field ++ (body ++ rest))) sound (counted (int32 n)) rest
  | straySequence {field : Blob} {n : Nat} {body rest : Blob} {sound : Bool} :
      LengthField field n → Reading (.children (int32 n) 0) (body ++ rest) sound none rest → body.length ≠ n →
      Reading .element (Der.derSequence :: (field ++ (body ++ rest))) false (counted (int32 n)) rest
  | shortSequence {bytes field : Blob} {n : Nat} :
      CutOff bytes field n → ¬0 < int32 n → Reading .element (Der.derSequence :: bytes) false (counted (int32 n)) []
  | done {size accSize : Int} (bytes : Blob) : ¬accSize < size → Reading (.children size accSize) bytes true none bytes
  | more {size accSize nodeSize : Int} {bytes middle rest : Blob} {first others : Bool} :
      accSize < size → Reading .element bytes first (some nodeSize) middle →
      Reading (.children size (int32 (accSize + nodeSize))) middle others none rest →
      Reading (.children size accSize) bytes (first && others) none rest

theorem decode_short (memory : Nat → UInt8) (type : DerType) {field rest : Blob} {n : Nat} (past : Blob)
    (declares : LengthField field n) (short : rest.length < (int32 n).toNat) :
    ∃ payload after,decode memory type (.cursor past (type.code :: (field ++ rest))) =
      (.leaf type (type.code :: field) payload,after) ∧ payload.length = (int32 n).toNat ∧ Spent after := by
  obtain ⟨payload,decoded,length⟩ := decode_result memory type (decodeHeader_field declares type.code past rest)
  rw [if_pos (by omega)] at decoded
  exact ⟨payload,_,decoded,length,(read_short _ short).2⟩

theorem decode_cutOff (memory : Nat → UInt8) (type : DerType) {bytes field : Blob} {n : Nat} (past : Blob)
    (cut : CutOff bytes field n) :
    ∃ payload after,decode memory type (.cursor past (type.code :: bytes)) =
      (.leaf type (type.code :: field) payload,after) ∧ payload.length = (int32 n).toNat ∧ Spent after := by
  have sizes := cutOff_size cut type.code past
  obtain ⟨headers,spent⟩ := decodeHeader_cutOff cut type.code past
  rcases read : decodeHeader (.cursor past (type.code :: bytes)) with ⟨size,header,s⟩
  rw [read] at sizes headers spent
  dsimp only at sizes headers spent
  obtain ⟨payload,decoded,length⟩ := decode_result memory type read
  rw [headers] at decoded
  refine ⟨payload,_,decoded,by rw [length,sizes],?_⟩
  split
  · exact (spent_read spent _).2
  · exact spent

theorem reading_suffix {part : Part} {bytes rest : Blob} {sound : Bool} {count : Option Int}
    (reading : Reading part bytes sound count rest) : ∃ body,bytes = body ++ rest := by
  induction reading with
  | @leaf type field n payload rest _ _ _ => exact ⟨type.code :: (field ++ payload),by simp⟩
  | @wideLeaf type field n payload rest _ _ _ => exact ⟨type.code :: (field ++ payload),by simp⟩
  | shortLeaf type payload _ _ => exact ⟨_,(List.append_nil _).symm⟩
  | shortHeader type _ => exact ⟨_,(List.append_nil _).symm⟩
  | @sequence field n body rest sound _ _ _ _ => exact ⟨Der.derSequence :: (field ++ body),by simp⟩
  | @straySequence field n body rest sound _ _ _ _ => exact ⟨Der.derSequence :: (field ++ body),by simp⟩
  | shortSequence _ _ => exact ⟨_,(List.append_nil _).symm⟩
  | done bytes _ => exact ⟨[],rfl⟩
  | more _ _ _ first others =>
    obtain ⟨front,rfl⟩ := first
    obtain ⟨back,rfl⟩ := others
    exact ⟨front ++ back,by simp⟩

theorem reading_shrinks {bytes rest : Blob} {sound : Bool} {count : Option Int}
    (reading : Reading .element bytes sound count rest) : rest.length < bytes.length := by
  cases reading <;> simp <;> omega

-- The stream has these bytes left; at its end it may have been read past.
def Usable (s : InputIterator) (bytes : Blob) : Prop := s.rest = bytes ∧ (s.good = true ∨ Spent s)

theorem usable_cursor_self (past bytes : Blob) : Usable (.cursor past bytes) bytes := ⟨rfl,.inl rfl⟩

theorem usable_spent {s : InputIterator} (spent : Spent s) : Usable s [] := ⟨spent.1,.inr spent⟩

theorem usable_cons {s : InputIterator} {byte : UInt8} {bytes : Blob} (usable : Usable s (byte :: bytes)) :
    ∃ past,s = .cursor past (byte :: bytes) := by
  obtain ⟨rest,good | spent⟩ := usable
  · obtain ⟨past,left,eofbit,failbit⟩ := s
    simp only [InputIterator.good,Bool.and_eq_true,Bool.not_eq_true'] at good
    obtain ⟨rfl,rfl⟩ := good
    exact ⟨past,by rw [InputIterator.cursor,← rest]⟩
  · exact absurd (spent.1.symm.trans rest) (by simp)

theorem usable_nil {s : InputIterator} (usable : Usable s []) : s.peek.1 = 0xFF := by
  obtain ⟨rest,good | spent⟩ := usable
  · simp [InputIterator.peek,good,rest]
  · exact spent_peek spent

theorem counted_getSize (header : Blob) (size : Int) (nodeList : List DerNode) {n : Int} :
    (∃ stored,getSize (.complex header false size nodeList) = .ok (n,stored)) ↔ counted size = some n := by
  unfold counted
  simp only [getSize,Bool.false_eq_true,if_false,ok_bind]
  cases encoded : encodeHeader Der.derSequence size with
  | error thrown => simp
  | ok written => simp

theorem getSize_fits {header : Blob} {size n : Int} {nodeList : List DerNode} {stored : DerNode}
    (sized : getSize (.complex header false size nodeList) = .ok (n,stored)) :
    ∃ written,stored = .complex written false size nodeList := by
  simp only [getSize,Bool.false_eq_true,if_false,ok_bind] at sized
  obtain ⟨written,_,sized⟩ := bind_ok sized
  cases sized
  exact ⟨written,rfl⟩

theorem usable_peek {s : InputIterator} {byte : UInt8} (usable : Usable s s.rest) (seen : s.peek.1 = byte)
    (real : byte ≠ 0xFF) : ∃ past bytes,s = .cursor past (byte :: bytes) := by
  cases left : s.rest with
  | nil =>
    rw [left] at usable
    exact absurd (seen.symm.trans (usable_nil usable)) real
  | cons first bytes =>
    rw [left] at usable
    obtain ⟨past,rfl⟩ := usable_cons usable
    rw [peek_cons] at seen
    exact ⟨past,bytes,by rw [← seen]⟩

theorem leaf_counts {type : DerType} {header payload field : Blob} {size : Nat} (written : header = type.code :: field)
    (length : payload.length = size) {n : Int} {stored : DerNode}
    (sized : getSize (.leaf type header payload) = .ok (n,stored)) : n = int32 (1 + field.length + size) := by
  simp only [getSize,Except.ok.injEq,Prod.mk.injEq] at sized
  rw [← sized.1,written,length,List.length_cons]
  congr 1
  push_cast
  ring

theorem leaf_reading (memory : Nat → UInt8) (type : DerType) (past bytes : Blob) {node : DerNode} {after : InputIterator}
    (decoded : decode memory type (.cursor past (type.code :: bytes)) = (node,after)) :
    Usable after after.rest ∧ ∃ sound count,Reading .element (type.code :: bytes) sound count after.rest ∧
      ∀ n stored,node.getSize = .ok (n,stored) → count = some n := by
  rcases field_or_cutOff bytes with ⟨field,size,rest,declares,rfl⟩ | ⟨field,size,cut⟩
  · by_cases enough : (int32 size).toNat ≤ rest.length
    · obtain ⟨payload,rest,rfl,length⟩ : ∃ payload others,rest = payload ++ others ∧ payload.length = (int32 size).toNat :=
        ⟨rest.take (int32 size).toNat,rest.drop (int32 size).toNat,(List.take_append_drop _ _).symm,by
          rw [List.length_take]
          omega⟩
      rw [decode_exact memory type declares length.symm] at decoded
      cases decoded
      refine ⟨usable_cursor_self _ _,?_⟩
      by_cases narrow : size < 2^31
      · have same : payload.length = size := by
          rw [length,int32_small (by omega) (by omega)]
          simp
        exact ⟨true,_,.leaf type payload rest declares narrow same,fun n stored sized => by
          rw [leaf_counts rfl same sized]⟩
      · exact ⟨false,_,.wideLeaf type payload rest declares (by omega) length,fun n stored sized => by
          rw [leaf_counts rfl length sized]⟩
    · obtain ⟨payload,other,short,length,spent⟩ := decode_short memory type past declares (by omega : rest.length < _)
      rw [short] at decoded
      cases decoded
      rw [spent.1]
      exact ⟨usable_spent spent,false,_,.shortLeaf type rest declares (by omega),fun n stored sized => by
        rw [leaf_counts rfl length sized]⟩
  · obtain ⟨payload,other,short,length,spent⟩ := decode_cutOff memory type past cut
    rw [short] at decoded
    cases decoded
    rw [spent.1]
    exact ⟨usable_spent spent,false,_,.shortHeader type cut,fun n stored sized => by
      rw [leaf_counts rfl length sized]⟩

theorem children_spent {memory : Nat → UInt8} {fuel : Nat} {size accSize : Int} {s after : InputIterator}
    {nodes : List DerNode} (spent : Spent s) (returned : parseChildren memory fuel size accSize s = .ok (nodes,after)) :
    ¬accSize < size ∧ nodes = [] ∧ after = s := by
  cases fuel with
  | zero => cases returned
  | succ fuel =>
    rcases children_cases returned with stopped | ⟨_,node,middle,_,_,_,parsed,_⟩
    · exact stopped
    · cases fuel with
      | zero => cases parsed
      | succ fuel =>
        have seen := spent_peek spent
        rcases parse_cases parsed with ⟨type,_,code,_⟩ | ⟨_,_,code,_⟩
        · exact absurd (code.symm.trans seen) (by cases type <;> decide)
        · exact absurd (code.symm.trans seen) (by decide)

-- A sequence that was parsed, by what its header was read from.
theorem sequence_reading {memory : Nat → UInt8} {fuel : Nat} {s after : InputIterator} {nodeList : List DerNode}
    (seen : s.peek.1 = Der.derSequence)
    (parsed : parseChildren memory fuel (decodeHeader s).1 0 (decodeHeader s).2.2 = .ok (nodeList,after))
    (children : Usable (decodeHeader s).2.2 (decodeHeader s).2.2.rest → Usable after after.rest ∧
      ∃ sound,Reading (.children (decodeHeader s).1 0) (decodeHeader s).2.2.rest sound none after.rest)
    (usable : Usable s s.rest) : Usable after after.rest ∧ ∃ sound count,Reading .element s.rest sound count after.rest ∧
      ∀ n stored,getSize (.complex (decodeHeader s).2.1 false (decodeHeader s).1 nodeList) = .ok (n,stored) →
        count = some n := by
  obtain ⟨past,bytes,rfl⟩ := usable_peek usable seen (by decide)
  rcases field_or_cutOff bytes with ⟨field,size,rest,declares,rfl⟩ | ⟨field,size,cut⟩
  · rw [decodeHeader_field declares] at children ⊢
    obtain ⟨usableAfter,sound,reading⟩ := children (usable_cursor_self _ _)
    obtain ⟨body,split⟩ := reading_suffix reading
    have count : ∀ n stored,getSize (.complex (Der.derSequence :: field) false (int32 size) nodeList) =
        .ok (n,stored) → counted (int32 size) = some n :=
      fun n stored sized => (counted_getSize _ _ _).mp ⟨stored,sized⟩
    simp only [InputIterator.cursor] at split reading ⊢
    subst split
    by_cases ends : body.length = size
    · exact ⟨usableAfter,sound,_,.sequence declares reading ends,count⟩
    · exact ⟨usableAfter,false,_,.straySequence declares reading ends,count⟩
  · have sizes := cutOff_size cut Der.derSequence past
    obtain ⟨_,spent⟩ := decodeHeader_cutOff cut Der.derSequence past
    rw [sizes] at parsed ⊢
    obtain ⟨stop,rfl,rfl⟩ := children_spent spent parsed
    rw [spent.1]
    exact ⟨usable_spent spent,false,_,.shortSequence cut stop,fun n stored sized =>
      (counted_getSize _ _ _).mp ⟨stored,sized⟩⟩

-- Whatever the parser accepts is a reading.
theorem accepted_reading (memory : Nat → UInt8) (fuel : Nat) :
    (∀ s node after,Usable s s.rest → parseWithin memory fuel s = .ok (node,after) →
      Usable after after.rest ∧ ∃ sound count,Reading .element s.rest sound count after.rest ∧
        ∀ n stored,node.getSize = .ok (n,stored) → count = some n) ∧
    ∀ size accSize s nodes after,Usable s s.rest → parseChildren memory fuel size accSize s = .ok (nodes,after) →
      Usable after after.rest ∧ ∃ sound,Reading (.children size accSize) s.rest sound none after.rest := by
  have readings : (∀ s node after,parseWithin memory fuel s = .ok (node,after) → Usable s s.rest →
      Usable after after.rest ∧ ∃ sound count,Reading .element s.rest sound count after.rest ∧
        ∀ n stored,node.getSize = .ok (n,stored) → count = some n) ∧
      ∀ size accSize s nodes after,parseChildren memory fuel size accSize s = .ok (nodes,after) → Usable s s.rest →
        Usable after after.rest ∧ ∃ sound,Reading (.children size accSize) s.rest sound none after.rest := by
    apply parse_induction
    case leaf =>
      intro type s after node _ seen decoded usable
      obtain ⟨past,bytes,rfl⟩ := usable_peek usable seen (by cases type <;> decide)
      exact leaf_reading memory type past bytes decoded
    case sequence => exact fun seen parsed children usable => sequence_reading seen parsed children usable
    case done => exact fun stop usable => ⟨usable,true,.done _ stop⟩
    case more =>
      intro size accSize nodeSize s middle after node stored others running single sized many usable
      obtain ⟨usableMiddle,first,count,reading,counts⟩ := single usable
      obtain ⟨usableAfter,rest,behind⟩ := many usableMiddle
      rw [counts _ _ sized] at reading
      exact ⟨usableAfter,_,.more running reading behind⟩
  exact ⟨fun s node after usable parsed => readings.1 s node after parsed usable,
    fun size accSize s nodes after usable parsed => readings.2 size accSize s nodes after parsed usable⟩

-- What the flag of a reading says about the tree that was built on the way.
structure Verdict (fits : Blob → Prop) (bytes : Blob) (sound : Bool) (rest : Blob) : Prop where
  fitting : sound = true → ∃ first,bytes = first ++ rest ∧ fits first
  misfitting : sound = false → ∀ first tail,bytes = first ++ tail → ¬fits first

def Accepts (memory : Nat → UInt8) : Part → Blob → Bool → Option Int → Blob → Prop
  | .element,bytes,sound,count,rest => ∀ past fuel,2 * bytes.length + 1 ≤ fuel →
    ∃ node after,parseWithin memory fuel (.cursor past bytes) = .ok (node,after) ∧ Usable after rest ∧
      (∀ n,count = some n → ∃ stored,node.getSize = .ok (n,stored) ∧ stored.Fits = node.Fits) ∧
      Verdict node.Fits bytes sound rest
  | .children size accSize,bytes,sound,_,rest => ∀ s fuel,Usable s bytes → 2 * bytes.length + 2 ≤ fuel →
    ∃ nodes after,parseChildren memory fuel size accSize s = .ok (nodes,after) ∧ Usable after rest ∧
      Verdict (FitsAll nodes) bytes sound rest

theorem parse_leaf {memory : Nat → UInt8} {type : DerType} {past bytes : Blob} {node : DerNode} {after : InputIterator}
    (fuel : Nat) (decoded : decode memory type (.cursor past (type.code :: bytes)) = (node,after)) :
    parseWithin memory (fuel+1) (.cursor past (type.code :: bytes)) = .ok (node,after) := by
  simp only [parseWithin,peek_cons,type.code_ne_sequence,if_false,DerType.ofCode_code,decoded]

theorem leaf_accepts {memory : Nat → UInt8} {type : DerType} {bytes field rest : Blob} {sound : Bool} {size : Nat}
    (decodes : ∀ past,∃ payload after,decode memory type (.cursor past (type.code :: bytes)) =
      (.leaf type (type.code :: field) payload,after) ∧ payload.length = size ∧ Usable after rest ∧
        Verdict (leaf type (type.code :: field) payload).Fits (type.code :: bytes) sound rest) :
    Accepts memory .element (type.code :: bytes) sound (some (int32 (1 + field.length + size))) rest := by
  intro past fuel enough
  obtain ⟨payload,after,decoded,length,usable,verdict⟩ := decodes past
  obtain ⟨fuel,rfl⟩ : ∃ smaller,fuel = smaller+1 := ⟨fuel-1,by omega⟩
  refine ⟨_,after,parse_leaf fuel decoded,usable,?_,verdict⟩
  intro n count
  refine ⟨.leaf type (type.code :: field) payload,?_,rfl⟩
  have sum : (((type.code :: field).length : Nat) : Int) + payload.length = 1 + field.length + size := by
    rw [length,List.length_cons]
    push_cast
    ring
  rw [← Option.some.inj count,getSize,sum]

theorem leaf_too_long {type : DerType} {bytes field payload : Blob} (longer : bytes.length < field.length + payload.length) :
    ∀ first tail,type.code :: bytes = first ++ tail → ¬(leaf type (type.code :: field) payload).Fits first := by
  rintro first tail split ⟨_,_,_,rfl⟩
  have lengths := congrArg List.length split
  simp only [List.length_cons,List.length_append] at lengths
  omega

theorem complex_accepts {memory : Nat → UInt8} {bytes rest : Blob} {sound : Bool} {size : Int}
    (parses : ∀ past fuel,2 * bytes.length + 1 ≤ fuel → ∃ header nodeList after,
      parseWithin memory fuel (.cursor past bytes) = .ok (.complex header false size nodeList,after) ∧ Usable after rest ∧
        Verdict (complex header false size nodeList).Fits bytes sound rest) :
    Accepts memory .element bytes sound (counted size) rest := by
  intro past fuel enough
  obtain ⟨header,nodeList,after,parsed,usable,verdict⟩ := parses past fuel enough
  refine ⟨_,after,parsed,usable,?_,verdict⟩
  intro n count
  obtain ⟨stored,sized⟩ := (counted_getSize header size nodeList).mpr count
  obtain ⟨written,rfl⟩ := getSize_fits sized
  exact ⟨_,sized,rfl⟩

theorem sequence_fits {header : Blob} {size : Int} {nodes : List DerNode} {field rest first tail : Blob} {n : Nat}
    (declares : LengthField field n) (split : Der.derSequence :: (field ++ rest) = first ++ tail)
    (fits : (complex header false size nodes).Fits first) :
    ∃ body,body.length = n ∧ rest = body ++ tail ∧ FitsAll nodes body := by
  obtain ⟨other,body,rfl,otherDeclares,below⟩ := fits
  simp only [List.cons_append,List.append_assoc,List.cons.injEq,true_and] at split
  obtain ⟨_,value,rest⟩ := declares.unique otherDeclares split
  exact ⟨body,value.symm,rest,below⟩

theorem sequence_verdict {header : Blob} {size : Int} {nodes : List DerNode} {field body rest : Blob} {n : Nat} {sound : Bool}
    (declares : LengthField field n) (verdict : Verdict (FitsAll nodes) (body ++ rest) sound rest)
    (ends : body.length = n) :
    Verdict (complex header false size nodes).Fits (Der.derSequence :: (field ++ (body ++ rest))) sound rest where
  fitting kept := by
    obtain ⟨inside,split,below⟩ := verdict.fitting kept
    obtain rfl := List.append_cancel_right split
    exact ⟨Der.derSequence :: (field ++ body),by simp,field,body,rfl,by rw [ends]; exact declares,below⟩
  misfitting lost first tail split fits := by
    obtain ⟨inside,_,split,below⟩ := sequence_fits declares split fits
    exact verdict.misfitting lost inside tail split below

theorem stray_verdict {header : Blob} {size : Int} {nodes : List DerNode} {field body rest : Blob} {n : Nat} {sound : Bool}
    (declares : LengthField field n) (verdict : Verdict (FitsAll nodes) (body ++ rest) sound rest)
    (strays : body.length ≠ n) :
    Verdict (complex header false size nodes).Fits (Der.derSequence :: (field ++ (body ++ rest))) false rest where
  fitting kept := by cases kept
  misfitting _ first tail split fits := by
    obtain ⟨inside,length,split,below⟩ := sequence_fits declares split fits
    cases sound with
    | true =>
      obtain ⟨own,ownSplit,ownBelow⟩ := verdict.fitting rfl
      obtain rfl := List.append_cancel_right ownSplit
      rw [fitsAll_unique ownBelow below split] at strays
      exact strays length
    | false => exact verdict.misfitting rfl inside tail split below

theorem sequence_parses {memory : Nat → UInt8} {field rest after : Blob} {n : Nat} {sound : Bool}
    (declares : LengthField field n) (children : Accepts memory (.children (int32 n) 0) rest sound none after) :
    ∀ past fuel,2 * (Der.derSequence :: (field ++ rest)).length + 1 ≤ fuel → ∃ nodes s,
      parseWithin memory fuel (.cursor past (Der.derSequence :: (field ++ rest))) =
        .ok (.complex (Der.derSequence :: field) false (int32 n) nodes,s) ∧ Usable s after ∧
      Verdict (FitsAll nodes) rest sound after := by
  intro past fuel enough
  obtain ⟨fuel,rfl⟩ : ∃ smaller,fuel = smaller+1 := ⟨fuel-1,by omega⟩
  simp only [List.length_cons,List.length_append] at enough
  have nonempty := declares.nonempty
  obtain ⟨nodes,s,parsed,usable,verdict⟩ := children _ fuel
    (usable_cursor_self ((Der.derSequence :: field).reverse ++ past) rest) (by omega)
  exact ⟨nodes,s,parse_complex (decodeHeader_field declares _ past rest) parsed,usable,verdict⟩

-- Nothing is read for the children where the length field is not all there.
theorem cutOff_accepts {memory : Nat → UInt8} {bytes field : Blob} {n : Nat} (cut : CutOff bytes field n)
    (stop : ¬0 < int32 n) : Accepts memory .element (Der.derSequence :: bytes) false (counted (int32 n)) [] := by
  apply complex_accepts
  intro past fuel enough
  obtain ⟨fuel,rfl⟩ : ∃ smaller,fuel = smaller+2 := ⟨fuel-2,by simp only [List.length_cons] at enough; omega⟩
  have sizes := cutOff_size cut Der.derSequence past
  obtain ⟨headers,spent⟩ := decodeHeader_cutOff cut Der.derSequence past
  rcases read : decodeHeader (.cursor past (Der.derSequence :: bytes)) with ⟨size,header,s⟩
  rw [read] at sizes headers spent
  dsimp only at sizes headers spent
  rw [sizes] at read
  refine ⟨header,[],s,parse_complex read (by rw [parseChildren,if_neg stop]),usable_spent spent,by simp,
    fun _ first tail split => ?_⟩
  rintro ⟨other,body,rfl,declares,_⟩
  obtain ⟨k,positive,whole⟩ := cut.missing
  simp only [List.cons_append,List.append_assoc,List.cons.injEq,true_and] at split
  have same : field ++ [] = other ++ (body ++ (tail ++ List.replicate k 0xFF)) := by
    rw [List.append_nil,whole,split]
    simp
  have nothing := (cut.declares.unique declares same).2.2
  simp at nothing
  omega

-- The first node and the others fit where both do.
theorem more_verdict {node stored : DerNode} {nodes : List DerNode} {bytes middle rest : Blob} {first others : Bool}
    (same : stored.Fits = node.Fits) (verdict : Verdict node.Fits bytes first middle)
    (verdictAll : Verdict (FitsAll nodes) middle others rest) :
    Verdict (FitsAll (stored :: nodes)) bytes (first && others) rest where
  fitting kept := by
    rw [Bool.and_eq_true] at kept
    obtain ⟨front,split,fits⟩ := verdict.fitting kept.1
    obtain ⟨back,splitAll,fitsAll⟩ := verdictAll.fitting kept.2
    exact ⟨front ++ back,by rw [split,splitAll,List.append_assoc],front,back,rfl,by rw [same]; exact fits,fitsAll⟩
  misfitting := by
    rintro lost body tail split ⟨front,back,rfl,fits,fitsAll⟩
    rw [same] at fits
    rw [List.append_assoc] at split
    cases first with
    | false => exact verdict.misfitting rfl front _ split fits
    | true =>
      obtain ⟨own,ownSplit,ownFits⟩ := verdict.fitting rfl
      obtain ⟨_,tails⟩ := fits_unique ownFits fits (ownSplit.symm.trans split)
      exact verdictAll.misfitting (by simpa using lost) back tail tails fitsAll

-- Every reading is what the parser does, and its flag tells whether the tree fits.
theorem reading_accepts (memory : Nat → UInt8) {part : Part} {bytes rest : Blob} {sound : Bool} {count : Option Int}
    (reading : Reading part bytes sound count rest) : Accepts memory part bytes sound count rest := by
  induction reading with
  | @leaf type field n payload rest declares narrow length =>
    apply leaf_accepts
    intro past
    have fits : (int32 n).toNat = payload.length := by
      rw [int32_small (by omega) (by omega),length]
      simp
    refine ⟨payload,_,decode_exact memory type declares fits past rest,length,usable_cursor_self _ _,fun _ => ?_,by simp⟩
    refine ⟨type.code :: (field ++ payload),by simp,field,rfl,?_,by simp⟩
    rw [length]
    exact declares
  | @wideLeaf type field n payload rest declares wide length =>
    apply leaf_accepts
    intro past
    refine ⟨payload,_,decode_exact memory type declares length.symm past rest,length,usable_cursor_self _ _,by simp,
      fun _ first tail _ => ?_⟩
    rintro ⟨other,same,otherDeclares,_⟩
    rw [List.cons.injEq] at same
    obtain ⟨_,value,_⟩ := declares.unique otherDeclares (congrArg (· ++ []) same.2)
    have narrow := int32_lt n
    omega
  | @shortLeaf type field n payload declares short =>
    apply leaf_accepts
    intro past
    obtain ⟨filled,after,decoded,length,spent⟩ := decode_short memory type past declares short
    refine ⟨filled,after,decoded,length,usable_spent spent,by simp,fun _ => leaf_too_long ?_⟩
    rw [List.length_append]
    omega
  | @shortHeader type bytes field n cut =>
    apply leaf_accepts
    intro past
    obtain ⟨filled,after,decoded,length,spent⟩ := decode_cutOff memory type past cut
    refine ⟨filled,after,decoded,length,usable_spent spent,by simp,fun _ => leaf_too_long ?_⟩
    obtain ⟨k,positive,whole⟩ := cut.missing
    rw [whole,List.length_append,List.length_replicate]
    omega
  | @sequence field n body rest sound declares children ends ih =>
    apply complex_accepts
    intro past fuel enough
    obtain ⟨nodes,s,parsed,usable,verdict⟩ := sequence_parses declares ih past fuel enough
    exact ⟨_,nodes,s,parsed,usable,sequence_verdict declares verdict ends⟩
  | @straySequence field n body rest sound declares children strays ih =>
    apply complex_accepts
    intro past fuel enough
    obtain ⟨nodes,s,parsed,usable,verdict⟩ := sequence_parses declares ih past fuel enough
    exact ⟨_,nodes,s,parsed,usable,stray_verdict declares verdict strays⟩
  | @shortSequence bytes field n cut stop => exact cutOff_accepts cut stop
  | @done size accSize bytes stop =>
    intro s fuel usable enough
    obtain ⟨fuel,rfl⟩ : ∃ smaller,fuel = smaller+1 := ⟨fuel-1,by omega⟩
    exact ⟨[],s,by rw [parseChildren,if_neg stop],usable,fun _ => ⟨[],rfl,rfl⟩,by simp⟩
  | @more size accSize nodeSize bytes middle rest first others running element children single many =>
    intro s fuel usable enough
    have shrinks := reading_shrinks element
    obtain ⟨fuel,rfl⟩ : ∃ smaller,fuel = smaller+1 := ⟨fuel-1,by omega⟩
    obtain ⟨byte,left,rfl⟩ : ∃ byte left,bytes = byte :: left := by
      cases bytes with
      | nil => simp at shrinks
      | cons byte left => exact ⟨byte,left,rfl⟩
    obtain ⟨past,rfl⟩ := usable_cons usable
    obtain ⟨node,after,parsed,usableMiddle,sizes,verdict⟩ := single past fuel (by omega)
    obtain ⟨stored,sized,same⟩ := sizes nodeSize rfl
    obtain ⟨nodes,last,parsedAll,usableLast,verdictAll⟩ := many after fuel usableMiddle (by omega)
    refine ⟨stored :: nodes,last,?_,usableLast,more_verdict same verdict verdictAll⟩
    rw [parseChildren,if_pos running]
    simp only [parsed,ok_bind,sized,parsedAll,pure_ok]

theorem decodeHeader_takes (byte : UInt8) (past bytes : Blob) :
    Usable (decodeHeader (.cursor past (byte :: bytes))).2.2 (decodeHeader (.cursor past (byte :: bytes))).2.2.rest ∧
      (decodeHeader (.cursor past (byte :: bytes))).2.2.rest.length ≤ bytes.length := by
  rcases field_or_cutOff bytes with ⟨field,n,rest,declares,rfl⟩ | ⟨field,n,cut⟩
  · rw [decodeHeader_field declares]
    exact ⟨usable_cursor_self _ _,by simp [InputIterator.cursor]⟩
  · obtain ⟨_,spent⟩ := decodeHeader_cutOff cut byte past
    rw [spent.1]
    exact ⟨usable_spent spent,by simp⟩

theorem getSize_throws {node : DerNode} (unchanged : node.Unchanged) : node.getSize ≠ .error .outOfFuel := by
  intro thrown
  cases node with
  | leaf type header payload => cases thrown
  | complex header childChanged size nodeList =>
    cases unchanged
    simp only [getSize,Bool.false_eq_true,if_false,ok_bind] at thrown
    rcases bind_error thrown with thrown | ⟨_,_,thrown⟩
    · unfold encodeHeader at thrown
      split at thrown
      · cases thrown
      · split at thrown <;> cases thrown
    · cases thrown

-- Every node that is taken takes a byte, so the fuel never runs out.
theorem parse_terminates (memory : Nat → UInt8) (fuel : Nat) :
    (∀ s,Usable s s.rest → 2 * s.rest.length + 1 ≤ fuel → parseWithin memory fuel s ≠ .error .outOfFuel) ∧
      ∀ size accSize s,Usable s s.rest → 2 * s.rest.length + 2 ≤ fuel →
        parseChildren memory fuel size accSize s ≠ .error .outOfFuel := by
  induction fuel with
  | zero => exact ⟨by intros; omega,by intros; omega⟩
  | succ fuel ih =>
    obtain ⟨single,many⟩ := ih
    refine ⟨?_,?_⟩
    · intro s usable enough thrown
      simp only [parseWithin] at thrown
      split at thrown
      · rename_i sequence
        obtain ⟨past,bytes,rfl⟩ := usable_peek usable sequence (by decide)
        rw [peek_cons] at thrown
        obtain ⟨next,shorter⟩ := decodeHeader_takes Der.derSequence past bytes
        simp only [InputIterator.cursor,List.length_cons] at enough
        rcases bind_error thrown with thrown | ⟨_,_,thrown⟩
        · exact many _ _ _ next (by omega) thrown
        · cases thrown
      · split at thrown <;> cases thrown
    · intro size accSize s usable enough thrown
      simp only [parseChildren] at thrown
      split at thrown
      · rcases bind_error thrown with thrown | ⟨⟨node,middle⟩,parsed,thrown⟩
        · exact single s usable (by omega) thrown
        obtain ⟨next,sound,count,reading,_⟩ := (accepted_reading memory fuel).1 s node middle usable parsed
        have shorter := reading_shrinks reading
        rcases bind_error thrown with thrown | ⟨⟨nodeSize,stored⟩,_,thrown⟩
        · exact getSize_throws ((parse_returned memory fuel).1 s node middle parsed).1 thrown
        rcases bind_error thrown with thrown | ⟨_,_,thrown⟩
        · exact many _ _ middle next (by omega) thrown
        · cases thrown
      · cases thrown

-- A byte string is a whole encoding when some tree lies in it.
def Encoding (bytes : Blob) : Prop := ∃ node : DerNode,node.Fits bytes

structure LengthsChecked (memory : Nat → UInt8) (input : Blob) : Prop where
  terminates : parse memory (.openOn input) ≠ .error .outOfFuel
  fits : (∃ thrown,parse memory (.openOn input) = .error thrown) ∨
    ∃ node s,parse memory (.openOn input) = .ok (node,s) ∧ node.Fits s.past.reverse
  truncated : ∀ missing,missing ≠ [] → Encoding (input ++ missing) → ∃ thrown,parse memory (.openOn input) = .error thrown

theorem checked_iff_no_stray_reading (memory : Nat → UInt8) (input : Blob) :
    LengthsChecked memory input ↔ ¬∃ count rest,Reading .element input false count rest := by
  have start : Usable (.openOn input) (InputIterator.openOn input).rest := usable_cursor_self [] input
  constructor
  · rintro checked ⟨count,rest,reading⟩
    obtain ⟨node,s,parsed,usable,_,verdict⟩ := reading_accepts memory reading [] (2 * input.length + 1) le_rfl
    change parse memory (.openOn input) = .ok (node,s) at parsed
    have bytes := (parse_whole memory _).1 _ _ _ parsed
    simp only [whole,InputIterator.openOn,InputIterator.cursor,List.reverse_nil,List.nil_append] at bytes
    rcases checked.fits with ⟨thrown,threw⟩ | ⟨other,after,returned,fits⟩
    · rw [parsed] at threw
      cases threw
    · rw [parsed] at returned
      cases returned
      exact verdict.misfitting rfl _ _ bytes.symm fits
  · intro clean
    have accepted : ∀ node s,parse memory (.openOn input) = .ok (node,s) →
        ∃ first,input = first ++ s.rest ∧ first = s.past.reverse ∧ node.Fits first := by
      intro node s parsed
      obtain ⟨_,sound,count,reading,_⟩ := (accepted_reading memory _).1 _ _ _ start parsed
      cases sound with
      | false => exact absurd ⟨count,_,reading⟩ clean
      | true =>
        obtain ⟨other,after,again,_,_,verdict⟩ := reading_accepts memory reading [] (2 * input.length + 1) le_rfl
        change parse memory (.openOn input) = .ok (other,after) at again
        rw [parsed] at again
        cases again
        obtain ⟨first,split,fits⟩ := verdict.fitting rfl
        have bytes := (parse_whole memory _).1 _ _ _ parsed
        simp only [whole,InputIterator.openOn,InputIterator.cursor,List.reverse_nil,List.nil_append] at bytes
        change input = first ++ s.rest at split
        exact ⟨first,split,(List.append_cancel_right (bytes.trans split)).symm,fits⟩
    refine ⟨(parse_terminates memory _).1 _ start le_rfl,?_,?_⟩
    · cases returned : parse memory (.openOn input) with
      | error thrown => exact .inl ⟨thrown,rfl⟩
      | ok result =>
        obtain ⟨node,s⟩ := result
        obtain ⟨first,_,rfl,fits⟩ := accepted node s returned
        exact .inr ⟨node,s,rfl,fits⟩
    · rintro missing some ⟨tree,whole⟩
      cases returned : parse memory (.openOn input) with
      | error thrown => exact ⟨thrown,rfl⟩
      | ok result =>
        obtain ⟨node,s⟩ := result
        obtain ⟨first,split,_,fits⟩ := accepted node s returned
        have both : first ++ (s.rest ++ missing) = (input ++ missing) ++ [] := by
          rw [List.append_nil,← List.append_assoc,← split]
        obtain ⟨_,nothing⟩ := fits_unique fits whole both
        exact absurd (List.append_eq_nil_iff.mp nothing).2 some

-- An octet string that promises five bytes and brings none.
theorem promised_bytes_accepted : ¬LengthsChecked (fun _ => 0x00) [0x04,0x05] := by
  intro checked
  have parsed : parse (fun _ => 0x00) (.openOn [0x04,0x05]) =
      .ok (.leaf .derOctetString [0x04,0x05] [0x00,0x00,0x00,0x00,0x00],⟨[0x05,0x04],[],true,true⟩) := rfl
  rcases checked.fits with ⟨thrown,threw⟩ | ⟨node,s,returned,fits⟩
  · rw [parsed] at threw
    cases threw
  · rw [parsed] at returned
    cases returned
    obtain ⟨_,_,_,bytes⟩ := fits
    cases bytes

end DerNode

end NdnCxx.Der
