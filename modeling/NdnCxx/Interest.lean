import NdnCxx.Wire.Fields

namespace NdnCxx
open Wire

-- The fields that the wire format or the equality operator uses. The lifetime is
-- counted in microseconds.
structure Interest where
  name : Name
  maxSuffixComponents : UInt32
  minSuffixComponents : UInt32
  answerOriginKind : UInt32
  interestLifetime : Int
  scope : UInt8
  childSelector : UInt8
  deriving DecidableEq, Repr

namespace Interest

def ncomps : UInt32 := 0xFFFFFFFF

def aokDefault : UInt32 := 3

def noScope : UInt8 := 255

def childDefault : UInt8 := 2

def unsetLifetime : Int := -1000000

def fresh : Interest := ⟨[],ncomps,ncomps,aokDefault,unsetLifetime,noScope,childDefault⟩

def equals (interest other : Interest) : Bool :=
  decide (Name.compare interest.name other.name = 0) &&
    interest.maxSuffixComponents == other.maxSuffixComponents &&
    interest.minSuffixComponents == other.minSuffixComponents &&
    interest.answerOriginKind == other.answerOriginKind &&
    interest.interestLifetime == other.interestLifetime &&
    interest.scope == other.scope &&
    interest.childSelector == other.childSelector

theorem equals_iff (interest other : Interest) : interest.equals other = true ↔ interest = other := by
  cases interest
  cases other
  simp only [equals,Bool.and_eq_true,decide_eq_true_eq,beq_iff_eq,Name.compare_zero,Interest.mk.injEq]
  tauto

-- A selector is written only when it differs from its default.
def appendUnless (dtag : NdnDtag) (default value : Nat) : Blob :=
  if value ≠ default then appendTaggedNumber dtag value else []

def appendLifetime (lifetime : Int) : Blob :=
  if ¬lifetime < 0 then
    appendBlockHeader NdnDtag.interestLifetime.code TokenType.dtag.code ++ (appendTimestampBlob lifetime ++ appendCloser)
  else []

def serialize (interest : Interest) : Blob :=
  appendBlockHeader NdnDtag.interest.code TokenType.dtag.code ++
    ((appendBlockHeader NdnDtag.name.code TokenType.dtag.code ++ (serializeName interest.name ++ appendCloser) ++
      (appendUnless .minSuffixComponents ncomps.toNat interest.minSuffixComponents.toNat ++
      (appendUnless .maxSuffixComponents ncomps.toNat interest.maxSuffixComponents.toNat ++
      (appendUnless .childSelector childDefault.toNat interest.childSelector.toNat ++
      (appendUnless .answerOriginKind aokDefault.toNat interest.answerOriginKind.toNat ++
      (appendUnless .scope noScope.toNat interest.scope.toNat ++
      appendLifetime interest.interestLifetime)))))) ++ appendCloser)

def encodeToWire (interest : Interest) : Blob := serialize interest

-- The cases for the other selectors are commented out in the source: their
-- elements fall through to the end of the switch.
mutual
def interestVisitor (interest : Interest) : Block → Except Exception Interest
  | .tag _ attrs nested => do
    let interest ← interestVisitorAll interest attrs
    interestVisitorAll interest nested
  | .dtag number attrs nested =>
    match NdnDtag.ofCode number with
    | some .interest => interestVisitorAll interest nested
    | some .name => do return {interest with name := ← nameVisitor [] (.dtag number attrs nested)}
    | some .scope => do
      return {interest with scope := UInt8.ofNat (← nonNegativeIntegerVisitor (← onlyBlock nested))}
    | some .interestLifetime => do
      return {interest with interestLifetime := ← timestampVisitor (← onlyBlock nested)}
    | _ => .ok interest
  | .blob _ => .ok interest
  | .udata _ => .ok interest
  | .attr _ _ => .ok interest
  | .dattr _ _ => .ok interest
  | .ext _ => .ok interest
def interestVisitorAll (interest : Interest) : List Block → Except Exception Interest
  | [] => .ok interest
  | block :: others => do
    let interest ← interestVisitor interest block
    interestVisitorAll interest others
end

def decodeFromWire (std : Standard) (buffer : Blob) : Except Exception Interest := do
  let (root,_) ← parse std buffer
  interestVisitor fresh root

def numberBlocks (dtag : NdnDtag) (default value : Nat) : List Block :=
  if value ≠ default then [.dtag dtag.code [] [.udata (decimal value)]] else []

def lifetimeBlocks (lifetime : Int) : List Block :=
  if ¬lifetime < 0 then [.dtag NdnDtag.interestLifetime.code [] [.blob (timestampBytes lifetime)]] else []

def interestBlock (interest : Interest) : Block :=
  .dtag NdnDtag.interest.code []
    ([nameBlock interest.name] ++
      (numberBlocks .minSuffixComponents ncomps.toNat interest.minSuffixComponents.toNat ++
      (numberBlocks .maxSuffixComponents ncomps.toNat interest.maxSuffixComponents.toNat ++
      (numberBlocks .childSelector childDefault.toNat interest.childSelector.toNat ++
      (numberBlocks .answerOriginKind aokDefault.toNat interest.answerOriginKind.toNat ++
      (numberBlocks .scope noScope.toNat interest.scope.toNat ++ lifetimeBlocks interest.interestLifetime))))))

theorem decimal_length {number : Nat} (small : number < 2^32) : (decimal number).length < 2^32 := by
  have digits := Nat.toDigits_length 10 number 10 (by decide) (by omega)
  rw [decimal,List.length_map]
  omega

theorem elements_number (dtag : NdnDtag) (default : Nat) {value : Nat} (small : value < 2^32) :
    Elements (numberBlocks dtag default value) (appendUnless dtag default value) := by
  unfold numberBlocks appendUnless
  split
  · have short := decimal_length small
    refine (element_tag dtag (Element.one ?_)).one
    rw [appendNumber,write_all short]
    exact element_udata (Nat.mod_eq_of_lt short).symm
  · exact .nil

theorem elements_lifetime (lifetime : Int) : Elements (lifetimeBlocks lifetime) (appendLifetime lifetime) := by
  unfold lifetimeBlocks appendLifetime
  split
  · exact (element_tag .interestLifetime (element_timestamp lifetime).one).one
  · exact .nil

theorem encode_element (interest : Interest) : Element (interestBlock interest) (encodeToWire interest) := by
  refine element_tag .interest ((element_name interest.name).one.append ?_)
  have scopeSmall := interest.scope.toNat_lt
  have childSmall := interest.childSelector.toNat_lt
  refine (elements_number _ _ interest.minSuffixComponents.toNat_lt).append ?_
  refine (elements_number _ _ interest.maxSuffixComponents.toNat_lt).append ?_
  refine (elements_number _ _ (by omega)).append ?_
  refine (elements_number _ _ interest.answerOriginKind.toNat_lt).append ?_
  exact (elements_number _ _ (by omega)).append (elements_lifetime _)

theorem visitorAll_step {interest next : Interest} {left : List Block}
    (visited : interestVisitorAll interest left = .ok next) (right : List Block) :
    interestVisitorAll interest (left ++ right) = interestVisitorAll next right := by
  induction left generalizing interest with
  | nil =>
    cases visited
    rfl
  | cons block left ih =>
    simp only [List.cons_append,interestVisitorAll,bind,Except.bind] at visited ⊢
    cases first : interestVisitor interest block with
    | error thrown =>
      rw [first] at visited
      cases visited
    | ok middle =>
      rw [first] at visited
      exact ih visited

theorem visit_ignored (interest : Interest) {dtag : NdnDtag} (default value : Nat)
    (ignored : dtag ∈ [NdnDtag.minSuffixComponents,.maxSuffixComponents,.childSelector,.answerOriginKind]) :
    interestVisitorAll interest (numberBlocks dtag default value) = .ok interest := by
  unfold numberBlocks
  split
  · simp only [List.mem_cons,List.not_mem_nil,or_false] at ignored
    rcases ignored with rfl | rfl | rfl | rfl <;> rfl
  · rfl

theorem visit_scope {interest : Interest} (unset : interest.scope = noScope) (scope : UInt8) :
    interestVisitorAll interest (numberBlocks .scope noScope.toNat scope.toNat) = .ok {interest with scope := scope} := by
  unfold numberBlocks
  split
  · have small := scope.toNat_lt
    have parsed := number_reads (show scope.toNat < 2^31 by omega)
    simp only [interestVisitorAll,interestVisitor,NdnDtag.ofCode_code,onlyBlock,bind,Except.bind,parsed,pure,Except.pure,
      UInt8.ofNat_toNat]
  · rename_i same
    have none : scope = interest.scope := by
      rw [unset]
      exact UInt8.toNat_inj.mp (not_not.mp same)
    subst none
    rfl

theorem visit_lifetime (interest : Interest) (lifetime : Int) : ∃ read,
    timestampVisitor (.blob (timestampBytes lifetime)) = .ok read ∧
    interestVisitorAll interest (lifetimeBlocks lifetime) =
      .ok {interest with interestLifetime := if lifetime < 0 then interest.interestLifetime else read} := by
  obtain ⟨read,parsed⟩ := timestamp_reads lifetime
  refine ⟨read,parsed,?_⟩
  unfold lifetimeBlocks
  by_cases negative : lifetime < 0
  · simp only [negative,not_true_eq_false,if_false,if_true]
    rfl
  · simp only [negative,not_false_eq_true,if_true,if_false,interestVisitorAll,interestVisitor,NdnDtag.ofCode_code,onlyBlock,
      bind,Except.bind,parsed,pure,Except.pure]

theorem visit_name (interest : Interest) {name : Name} (nonempty : NonEmptyComponents name) :
    interestVisitorAll interest [nameBlock name] = .ok {interest with name := received name} := by
  have reads := nameBlock_reads name nonempty
  rw [nameBlock] at reads ⊢
  simp only [interestVisitorAll,interestVisitor,NdnDtag.ofCode_code,reads,bind,Except.bind,pure,Except.pure]

-- What comes back: the name, the scope and the lifetime; every other selector is
-- the default again.
theorem decode_encode (std : Standard) (interest : Interest) (nonempty : NonEmptyComponents interest.name) :
    ∃ read, timestampVisitor (.blob (timestampBytes interest.interestLifetime)) = .ok read ∧
      decodeFromWire std (encodeToWire interest) = .ok {fresh with
        name := received interest.name, scope := interest.scope,
        interestLifetime := if interest.interestLifetime < 0 then unsetLifetime else read} := by
  have parsed := parse_complete std (encode_element interest).encodes []
  rw [List.append_nil] at parsed
  obtain ⟨read,times,lifetime⟩ := visit_lifetime
    {fresh with name := received interest.name, scope := interest.scope} interest.interestLifetime
  have scope := visit_scope (show ({fresh with name := received interest.name} : Interest).scope = noScope from rfl)
    interest.scope
  refine ⟨read,times,?_⟩
  rw [decodeFromWire,parsed]
  simp only [bind,Except.bind,interestBlock,interestVisitor,NdnDtag.ofCode_code]
  rw [visitorAll_step (visit_name fresh nonempty),visitorAll_step (visit_ignored _ _ _ (by decide)),
    visitorAll_step (visit_ignored _ _ _ (by decide)),visitorAll_step (visit_ignored _ _ _ (by decide)),
    visitorAll_step (visit_ignored _ _ _ (by decide)),visitorAll_step scope]
  exact lifetime

-- A lifetime the interface allows here: unset, or whole seconds of a positive `int`.
def WholeLifetime (lifetime : Int) : Prop :=
  lifetime < 0 ∨ ∃ seconds : Nat, seconds < 2^31 ∧ lifetime = (seconds * 1000000 : Nat)

theorem lifetime_kept {lifetime read : Int} (whole : WholeLifetime lifetime)
    (parsed : timestampVisitor (.blob (timestampBytes lifetime)) = .ok read) :
    (if lifetime < 0 then unsetLifetime else read) = lifetime ↔ 0 ≤ lifetime ∨ lifetime = unsetLifetime := by
  rcases whole with negative | ⟨seconds,small,rfl⟩
  · rw [if_pos negative]
    constructor
    · exact fun same => .inr same.symm
    · intro given
      rcases given with nonneg | same
      · omega
      · exact same.symm
  · have exactly := seconds_read small
    rw [parsed] at exactly
    cases exactly
    rw [if_neg (by omega)]
    exact ⟨fun _ => .inl (by omega),fun _ => rfl⟩

def DefaultSelectors (interest : Interest) : Prop :=
  interest.minSuffixComponents = ncomps ∧ interest.maxSuffixComponents = ncomps ∧
    interest.childSelector = childDefault ∧ interest.answerOriginKind = aokDefault

theorem roundtrip_exact (std : Standard) (interest : Interest) (nonempty : NonEmptyComponents interest.name)
    (whole : WholeLifetime interest.interestLifetime) :
    (∃ decoded, decodeFromWire std (encodeToWire interest) = .ok decoded ∧ decoded.equals interest = true) ↔
      DefaultSelectors interest ∧ (0 ≤ interest.interestLifetime ∨ interest.interestLifetime = unsetLifetime) ∧
      ShortComponents interest.name := by
  obtain ⟨read,parsed,decoded⟩ := decode_encode std interest nonempty
  rw [decoded,← lifetime_kept whole parsed,← received_exact nonempty]
  simp only [Except.ok.injEq,exists_eq_left',equals_iff]
  cases interest
  simp only [fresh,Interest.mk.injEq,DefaultSelectors]
  constructor
  · intro given
    obtain ⟨name,most,least,kind,lifetime,_,child⟩ := given
    exact ⟨⟨least.symm,most.symm,child.symm,kind.symm⟩,lifetime,name⟩
  · intro given
    obtain ⟨⟨least,most,child,kind⟩,lifetime,name⟩ := given
    exact ⟨name,most.symm,least.symm,kind.symm,lifetime,trivial,child.symm⟩

theorem roundtrip_exact_plain :
    (∃ decoded, decodeFromWire .cxx11 (encodeToWire {fresh with name := [⟨[0x61]⟩]}) = .ok decoded ∧
      decoded.equals {fresh with name := [⟨[0x61]⟩]} = true) ↔
      DefaultSelectors {fresh with name := [⟨[0x61]⟩]} ∧ ((0 : Int) ≤ unsetLifetime ∨ unsetLifetime = unsetLifetime) ∧
      ShortComponents [⟨[0x61]⟩] :=
  roundtrip_exact .cxx11 {fresh with name := [⟨[0x61]⟩]} (by simp [NonEmptyComponents]) (.inl (by decide))

-- The encoder writes MinSuffixComponents, the decoder drops it.
theorem suffix_dropped : ∃ decoded,
    decodeFromWire .cxx98 (encodeToWire {fresh with name := [⟨[0x61]⟩], minSuffixComponents := 1}) = .ok decoded ∧
    decodeFromWire .cxx11 (encodeToWire {fresh with name := [⟨[0x61]⟩], minSuffixComponents := 1}) = .ok decoded ∧
    decoded.equals {fresh with name := [⟨[0x61]⟩], minSuffixComponents := 1} = false :=
  ⟨_,rfl,rfl,by decide⟩

end Interest
end NdnCxx
