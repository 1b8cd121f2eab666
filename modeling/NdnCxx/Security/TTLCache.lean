import NdnCxx.Security.Certificate
import NdnCxx.Lib.Recency
import NdnCxx.Lib.Runs

namespace NdnCxx.Security.TTLCertificateCache

-- The entry points and the passes of the cleaning thread, each one holding the mutex.
-- `now` is the clock of the call; a lookup is given one although it never reads it.
inductive Call where
  | insertCertificate (now : Int) (certificate : IdentityCertificate)
  | getCertificate (now : Int) (certName : Name) (hasVersion : Bool)
  | clean (now : Int)
  deriving DecidableEq, Repr

def Call.now : Call → Int
  | .insertCertificate now _ => now
  | .getCertificate now _ _ => now
  | .clean now => now

def certificateName (certName : Name) (hasVersion : Bool) : Name :=
  if hasVersion then withoutVersion certName else certName

def keys (self : TTLCertificateCache) : List Name := self.cache.map Prod.fst

-- The stored iterator points at a node of the list.
def live (self : TTLCertificateCache) (node : Nat) : Bool := self.lruList.any (fun item => item.1 == node)

def erase (self : TTLCertificateCache) (name : Name) (node : Nat) : TTLCertificateCache :=
  {self with
    lruList := self.lruList.filter (fun item => decide (item.1 ≠ node))
    cache := self.cache.filter (fun item => decide (item.1 ≠ name))}

-- The scan of `cleanLoop`, over what its iterator has not yet visited. It has no
-- outcome where the list is asked to erase through an iterator that dangles.
def scan (now : Int) : List (Name × TTLCacheEntry) → TTLCertificateCache → Option TTLCertificateCache
  | [],self => some self
  | (name,entry) :: rest,self =>
    if now > entry.timestamp then
      if self.live entry.node then scan now rest (self.erase name entry.node) else none
    else scan now rest self

-- The three ways in which an insertion changes the two structures.
def refreshed (self : TTLCertificateCache) (name : Name) (timestamp : Int) (certificate : IdentityCertificate) :
    TTLCertificateCache :=
  {self with cache := self.cache.map (fun item =>
    if item.1 = name then (name,⟨timestamp,certificate,item.2.node⟩) else item)}

def popped (self : TTLCertificateCache) (front : Name) (rest : List (Nat × Name)) : TTLCertificateCache :=
  {self with
    lruList := rest
    cache := self.cache.filter (fun item => decide (item.1 ≠ front))}

def pushed (self : TTLCertificateCache) (name : Name) (timestamp : Int) (certificate : IdentityCertificate) :
    TTLCertificateCache :=
  {self with
    lruList := self.lruList ++ [(self.nextNode,name)]
    cache := self.cache ++ [(name,⟨timestamp,certificate,self.nextNode⟩)]
    nextNode := self.nextNode + 1}

def splices (self : TTLCertificateCache) (name : Name) : Bool := (self.find name).all (fun entry => self.live entry.node)

def step (self : TTLCertificateCache) : Call → Option TTLCertificateCache
  | .insertCertificate now certificate =>
    if self.splices (withoutVersion certificate.name) then some (self.insertCertificate now certificate) else none
  | .getCertificate _ certName hasVersion =>
    if self.splices (certificateName certName hasVersion) then
      some (self.getCertificate (certificateName certName hasVersion)).2
    else none
  | .clean now => scan now self.cache self

-- The certificate that a call inserts or hits.
def touched (self : TTLCertificateCache) : Call → Option Name
  | .insertCertificate _ certificate => some (withoutVersion certificate.name)
  | .getCertificate _ certName hasVersion =>
    if (self.find (certificateName certName hasVersion)).isSome then some (certificateName certName hasVersion) else none
  | .clean _ => none

def recency (history : List (Option Name)) (self : TTLCertificateCache) : Recency Name Nat :=
  ⟨history.length + 1,fun name => (self.find name).map TTLCacheEntry.node,fun name => lastUse name history⟩

-- The map and the list, seen as one map that knows when its names were used.
structure Consistent (history : List (Option Name)) (state : TTLCertificateCache) : Prop where
  unique : state.keys.Nodup
  nodes : (state.lruList.map Prod.fst).Nodup
  allocated : ∀ item ∈ state.lruList, item.1 < state.nextNode
  ordered : (state.recency history).Ordered (state.lruList.map Prod.swap)
  bounded : state.lruList.length ≤ state.maxSize

theorem find_mem {self : TTLCertificateCache} {name : Name} {entry : TTLCacheEntry} (found : self.find name = some entry) :
    (name,entry) ∈ self.cache := by
  obtain ⟨item,chosen,rfl⟩ := Option.map_eq_some_iff.mp found
  have named : item.1 = name := by simpa using List.find?_some chosen
  rw [← named]
  exact List.mem_of_find?_eq_some chosen

theorem mem_find {self : TTLCertificateCache} (unique : self.keys.Nodup) {name : Name} {entry : TTLCacheEntry}
    (member : (name,entry) ∈ self.cache) : self.find name = some entry := by
  have some : (self.find name).isSome := by
    rw [find,Option.isSome_map,List.find?_isSome]
    exact ⟨(name,entry),member,by simp⟩
  obtain ⟨other,found⟩ := Option.isSome_iff_exists.mp some
  have same := List.inj_on_of_nodup_map unique (find_mem found) member rfl
  rw [found,(Prod.mk.inj same).2]

theorem find_none {self : TTLCertificateCache} {name : Name} : self.find name = none ↔ name ∉ self.keys := by
  rw [find,Option.map_eq_none_iff,List.find?_eq_none,keys,List.mem_map]
  constructor
  · rintro absent ⟨item,member,same⟩
    exact absent item member (by simpa using same)
  · intro absent item member same
    exact absent ⟨item,member,by simpa using same⟩

theorem recency_stamp (history : List (Option Name)) (self next : TTLCertificateCache) {name : Name} {node : Nat}
    (used : (next.find name).map TTLCacheEntry.node = some node)
    (others : ∀ other, other ≠ name → (next.find other).map TTLCacheEntry.node = (self.find other).map TTLCacheEntry.node) :
    next.recency (history ++ [some name]) = (self.recency history).stamp name node := by
  have values : (next.recency (history ++ [some name])).value =
      Function.update (self.recency history).value name (some node) := by
    rw [Function.eq_update_iff]
    exact ⟨used,others⟩
  have times : (next.recency (history ++ [some name])).time =
      Function.update (self.recency history).time name (history.length + 1) := by
    rw [Function.eq_update_iff]
    refine ⟨by simp [recency,lastUse_snoc],?_⟩
    intro other apart
    simp [recency,lastUse_snoc,apart.symm]
  have clock : (next.recency (history ++ [some name])).clock = history.length + 1 + 1 := by simp [recency]
  calc next.recency (history ++ [some name])
      = ⟨(next.recency (history ++ [some name])).clock,(next.recency (history ++ [some name])).value,
          (next.recency (history ++ [some name])).time⟩ := rfl
    _ = (self.recency history).stamp name node := by
      rw [clock,values,times]
      rfl

section Refreshed
variable (self : TTLCertificateCache) (name : Name) (timestamp : Int) (certificate : IdentityCertificate)

theorem refreshed_name (item : Name × TTLCacheEntry) :
    (if item.1 = name then (name,⟨timestamp,certificate,item.2.node⟩) else item).1 = item.1 := by
  split
  · rename_i same
    exact same.symm
  · rfl

theorem refreshed_node (item : Name × TTLCacheEntry) :
    (if item.1 = name then (name,⟨timestamp,certificate,item.2.node⟩) else item).2.node = item.2.node := by
  split <;> rfl

theorem refreshed_keys : (self.refreshed name timestamp certificate).keys = self.keys := by
  rw [keys,keys,refreshed,List.map_map]
  exact List.map_congr_left (fun item _ => refreshed_name name timestamp certificate item)

theorem refreshed_recency (history : List (Option Name)) :
    (self.refreshed name timestamp certificate).recency history = self.recency history := by
  unfold recency
  congr 1
  funext other
  have selected : (fun item : Name × TTLCacheEntry => decide (item.1 = other)) ∘ (fun item =>
      if item.1 = name then (name,⟨timestamp,certificate,item.2.node⟩) else item) =
      fun item => decide (item.1 = other) := by
    funext item
    rw [Function.comp_apply,refreshed_name]
  rw [find,find,refreshed,List.find?_map,selected,Option.map_map,Option.map_map,Option.map_map]
  congr 1
  funext item
  exact refreshed_node name timestamp certificate item

end Refreshed

namespace Consistent
variable {history : List (Option Name)} {self : TTLCertificateCache}

theorem held (consistent : Consistent history self) {node : Nat} {name : Name} :
    (node,name) ∈ self.lruList ↔ ∃ entry, self.find name = some entry ∧ entry.node = node := by
  have both := consistent.ordered.holds name node
  rw [List.mem_map] at both
  have swapped : (∃ item ∈ self.lruList, item.swap = (name,node)) ↔ (node,name) ∈ self.lruList := by
    constructor
    · rintro ⟨item,member,same⟩
      have turned := congrArg Prod.swap same
      rw [Prod.swap_swap] at turned
      rwa [turned] at member
    · exact fun member => ⟨(node,name),member,rfl⟩
  rw [swapped] at both
  rw [both]
  exact Option.map_eq_some_iff

theorem linked (consistent : Consistent history self) {name : Name} {entry : TTLCacheEntry}
    (member : (name,entry) ∈ self.cache) : (entry.node,name) ∈ self.lruList :=
  consistent.held.mpr ⟨entry,mem_find consistent.unique member,rfl⟩

theorem names (consistent : Consistent history self) : (self.lruList.map Prod.snd).Nodup := by
  have unique := consistent.ordered.unique
  rwa [List.map_map] at unique

-- One node for one name.
theorem same_item (consistent : Consistent history self) {node : Nat} {name : Name} (member : (node,name) ∈ self.lruList)
    {item : Nat × Name} (other : item ∈ self.lruList) : item.1 = node ↔ item.2 = name := by
  constructor
  · intro same
    have equal := List.inj_on_of_nodup_map consistent.nodes other member same
    rw [equal]
  · intro same
    have equal := List.inj_on_of_nodup_map consistent.names other member same
    rw [equal]

theorem live_node (consistent : Consistent history self) {name : Name} {entry : TTLCacheEntry}
    (member : (name,entry) ∈ self.cache) : self.live entry.node = true :=
  List.any_eq_true.mpr ⟨(entry.node,name),consistent.linked member,by simp⟩

theorem splices (consistent : Consistent history self) (name : Name) : self.splices name = true := by
  unfold TTLCertificateCache.splices
  cases found : self.find name with
  | none => rfl
  | some entry => exact consistent.live_node (find_mem found)

theorem idle (consistent : Consistent history self) : Consistent (history ++ [none]) self := by
  have same : self.recency (history ++ [none]) = {self.recency history with clock := history.length + 2} := by
    simp [recency,lastUse_snoc]
  refine ⟨consistent.unique,consistent.nodes,consistent.allocated,?_,consistent.bounded⟩
  rw [same]
  exact consistent.ordered.later (Nat.le_succ _)

theorem splice_swap (consistent : Consistent history self) {node : Nat} {name : Name}
    (member : (node,name) ∈ self.lruList) :
    (splice node self.lruList).map Prod.swap =
      (self.lruList.map Prod.swap).filter (fun x => decide (x.1 ≠ name)) ++ [(name,node)] := by
  have one : self.lruList.filter (fun item => decide (item.1 = node)) = [(node,name)] := by
    have single : (self.lruList.filter (fun item => decide (item.1 = node))).Perm [(node,name)] := by
      refine (List.perm_ext_iff_of_nodup (consistent.nodes.of_map.filter _) (List.nodup_singleton _)).mpr ?_
      intro item
      rw [List.mem_filter,List.mem_singleton,decide_eq_true_eq]
      constructor
      · rintro ⟨present,same⟩
        exact List.inj_on_of_nodup_map consistent.nodes present member same
      · rintro rfl
        exact ⟨member,rfl⟩
    exact List.perm_singleton.mp single
  have others : self.lruList.filter (fun item => decide (item.1 ≠ node)) =
      self.lruList.filter (fun item => decide (item.2 ≠ name)) := by
    refine List.filter_congr ?_
    intro item present
    have both := consistent.same_item member present
    simp [both]
  rw [splice,one,others,List.map_append,List.filter_map]
  rfl

-- A hit, or the first half of a refresh.
theorem touch (consistent : Consistent history self) {name : Name} {entry : TTLCacheEntry}
    (found : self.find name = some entry) :
    Consistent (history ++ [some name]) {self with lruList := splice entry.node self.lruList} := by
  have member : (entry.node,name) ∈ self.lruList := consistent.held.mpr ⟨entry,found,rfl⟩
  have moved : (splice entry.node self.lruList).Perm self.lruList := by
    have parts := List.filter_append_perm (fun item : Nat × Name => decide (item.1 ≠ entry.node)) self.lruList
    simpa [splice] using parts
  refine ⟨consistent.unique,(moved.map Prod.fst).nodup_iff.mpr consistent.nodes,?_,?_,?_⟩
  · exact fun item present => consistent.allocated item (moved.mem_iff.mp present)
  · have same := recency_stamp history self {self with lruList := splice entry.node self.lruList}
      (congrArg (Option.map TTLCacheEntry.node) found) (fun other apart => rfl)
    rw [same,consistent.splice_swap member]
    exact consistent.ordered.touch name entry.node
  · exact moved.length_eq.trans_le consistent.bounded

-- The second half of a refresh writes into the entry and leaves its iterator.
theorem refresh (consistent : Consistent history self) (name : Name) (timestamp : Int)
    (certificate : IdentityCertificate) : Consistent history (self.refreshed name timestamp certificate) := by
  refine ⟨?_,consistent.nodes,consistent.allocated,?_,consistent.bounded⟩
  · rw [refreshed_keys]
    exact consistent.unique
  · rw [refreshed_recency]
    exact consistent.ordered

-- The front of the list and its entry leave together.
theorem pop (consistent : Consistent history self) {front : Nat × Name} {rest : List (Nat × Name)}
    (listed : self.lruList = front :: rest) : Consistent history (self.popped front.2 rest) := by
  have part : rest.Sublist self.lruList := by
    rw [listed]
    exact List.sublist_cons_self _ _
  have viewed : (self.popped front.2 rest).recency history = (self.recency history).drop front.2 := by
    unfold recency Recency.drop
    congr 1
    rw [Function.eq_update_iff]
    refine ⟨?_,?_⟩
    · rw [Option.map_eq_none_iff,find_none]
      simp [keys,popped]
    · intro other apart
      congr 1
      rw [find,find,popped,List.find?_filter]
      congr 2
      funext item
      by_cases same : item.1 = other
      · simp [same,apart]
      · simp [same]
  refine ⟨(List.filter_sublist.map Prod.fst).nodup consistent.unique,(part.map Prod.fst).nodup consistent.nodes,?_,?_,?_⟩
  · exact fun item member => consistent.allocated item (part.subset member)
  · have ordered := consistent.ordered
    rw [listed,List.map_cons] at ordered
    rw [viewed]
    exact ordered.evict
  · exact part.length_le.trans consistent.bounded

theorem push (consistent : Consistent history self) {name : Name} (absent : self.find name = none)
    (room : self.lruList.length < self.maxSize) (timestamp : Int) (certificate : IdentityCertificate) :
    Consistent (history ++ [some name]) (self.pushed name timestamp certificate) := by
  have added : ∀ other, (self.pushed name timestamp certificate).find other =
      (self.find other).or (if name = other then some ⟨timestamp,certificate,self.nextNode⟩ else none) := by
    intro other
    unfold find pushed
    rw [List.find?_append,Option.map_or]
    congr 1
    by_cases same : name = other
    · simp [same]
    · simp [same]
  have used : ((self.pushed name timestamp certificate).find name).map TTLCacheEntry.node = some self.nextNode := by
    rw [added,absent]
    simp
  have others : ∀ other, other ≠ name → ((self.pushed name timestamp certificate).find other).map TTLCacheEntry.node =
      (self.find other).map TTLCacheEntry.node := by
    intro other apart
    rw [added]
    simp [apart.symm]
  refine ⟨?_,?_,?_,?_,?_⟩
  · rw [keys,pushed,List.map_append,List.map_singleton]
    refine List.Nodup.append consistent.unique (List.nodup_singleton _) ?_
    exact List.disjoint_singleton.mpr (find_none.mp absent)
  · rw [pushed,List.map_append,List.map_singleton]
    refine List.Nodup.append consistent.nodes (List.nodup_singleton _) ?_
    rw [List.disjoint_singleton,List.mem_map]
    rintro ⟨item,member,same⟩
    exact Nat.ne_of_lt (consistent.allocated item member) same
  · intro item member
    rcases List.mem_append.mp member with old | new
    · exact Nat.lt_succ_of_lt (consistent.allocated item old)
    · rw [List.mem_singleton.mp new]
      exact Nat.lt_succ_self _
  · rw [recency_stamp history self _ used others,pushed,List.map_append]
    exact consistent.ordered.stamp (congrArg (Option.map TTLCacheEntry.node) absent) self.nextNode
  · rw [pushed,List.length_append]
    exact room

-- A cache that is not over its size gives up at most one entry for a new one.
theorem evict_cases (consistent : Consistent history self) (positive : 1 ≤ self.maxSize) :
    (evict self.maxSize self.cache self.lruList = (self.cache,self.lruList) ∧ self.lruList.length < self.maxSize) ∨
    ∃ front rest, self.lruList = front :: rest ∧ rest.length < self.maxSize ∧
      evict self.maxSize self.cache self.lruList = ((self.popped front.2 rest).cache,rest) := by
  have bounded := consistent.bounded
  cases listed : self.lruList with
  | nil => exact .inl ⟨rfl,positive⟩
  | cons front rest =>
    rw [listed] at bounded
    rw [evict]
    by_cases full : (front :: rest).length ≥ self.maxSize
    · have room : rest.length < self.maxSize := bounded
      refine .inr ⟨front,rest,rfl,room,?_⟩
      rw [if_pos full]
      cases rest with
      | nil => rfl
      | cons second others => rw [evict,if_neg (Nat.not_le.mpr room)]; rfl
    · exact .inl ⟨if_neg full,Nat.not_le.mp full⟩

theorem insert_cases (consistent : Consistent history self) (positive : 1 ≤ self.maxSize) (now : Int)
    (certificate : IdentityCertificate) :
    (∃ entry, self.find (withoutVersion certificate.name) = some entry ∧ self.insertCertificate now certificate =
      refreshed {self with lruList := splice entry.node self.lruList} (withoutVersion certificate.name)
        (now + certificate.freshness) certificate) ∨
    (self.find (withoutVersion certificate.name) = none ∧ self.lruList.length < self.maxSize ∧
      self.insertCertificate now certificate =
        self.pushed (withoutVersion certificate.name) (now + certificate.freshness) certificate) ∨
    (self.find (withoutVersion certificate.name) = none ∧ ∃ front rest, self.lruList = front :: rest ∧
      rest.length < self.maxSize ∧ self.insertCertificate now certificate =
        (self.popped front.2 rest).pushed (withoutVersion certificate.name) (now + certificate.freshness) certificate) := by
  unfold insertCertificate
  cases found : self.find (withoutVersion certificate.name) with
  | some entry =>
    refine .inl ⟨entry,rfl,?_⟩
    simp only [found]
    rfl
  | none =>
    rcases consistent.evict_cases positive with ⟨kept,room⟩ | ⟨front,rest,listed,room,left⟩
    · refine .inr (.inl ⟨rfl,room,?_⟩)
      simp only [found,kept]
      rfl
    · refine .inr (.inr ⟨rfl,front,rest,listed,room,?_⟩)
      simp only [found,left]
      rfl

theorem insert (consistent : Consistent history self) (positive : 1 ≤ self.maxSize) (now : Int)
    (certificate : IdentityCertificate) :
    Consistent (history ++ [some (withoutVersion certificate.name)]) (self.insertCertificate now certificate) := by
  rcases consistent.insert_cases positive now certificate with ⟨entry,found,made⟩ | ⟨absent,room,made⟩ |
    ⟨absent,front,rest,listed,room,made⟩
  · rw [made]
    exact (consistent.touch found).refresh _ _ _
  · rw [made]
    exact consistent.push absent room _ _
  · have gone : (self.popped front.2 rest).find (withoutVersion certificate.name) = none := by
      rw [find_none] at absent ⊢
      exact fun member => absent ((List.filter_sublist.map Prod.fst).subset member)
    rw [made]
    exact (consistent.pop listed).push gone room _ _

theorem get (consistent : Consistent history self) (now : Int) (certName : Name) (hasVersion : Bool) :
    Consistent (history ++ [self.touched (.getCertificate now certName hasVersion)])
      (self.getCertificate (certificateName certName hasVersion)).2 := by
  unfold getCertificate
  cases found : self.find (certificateName certName hasVersion) with
  | some entry =>
    have hit : self.touched (.getCertificate now certName hasVersion) = some (certificateName certName hasVersion) := by
      simp [touched,found]
    rw [hit]
    exact consistent.touch found
  | none =>
    have missed : self.touched (.getCertificate now certName hasVersion) = none := by simp [touched,found]
    rw [missed]
    exact consistent.idle

theorem find_clean (consistent : Consistent history self) (now : Int) (name : Name) :
    (self.clean now).find name = (self.find name).filter (fun entry => decide (¬now > entry.timestamp)) := by
  have unique : (self.clean now).keys.Nodup := (List.filter_sublist.map Prod.fst).nodup consistent.unique
  cases found : self.find name with
  | none =>
    rw [find_none] at found
    rw [Option.filter_none,find_none]
    exact fun member => found ((List.filter_sublist.map Prod.fst).subset member)
  | some entry =>
    have member := find_mem found
    by_cases expired : now > entry.timestamp
    · rw [Option.filter_some,if_neg (by simpa using expired),find_none]
      intro left
      obtain ⟨item,kept,same⟩ := List.mem_map.mp left
      obtain ⟨present,young⟩ := List.mem_filter.mp kept
      rw [List.inj_on_of_nodup_map consistent.unique present member same] at young
      exact of_decide_eq_true young expired
    · rw [Option.filter_some,if_pos (by simpa using expired)]
      exact mem_find unique (List.mem_filter.mpr ⟨member,by simpa using expired⟩)

-- The pass drops a node exactly where it drops the entry of its name.
theorem swept_iff (consistent : Consistent history self) (now : Int) {item : Nat × Name} (member : item ∈ self.lruList) :
    (self.cache.filter (fun item => decide (now > item.2.timestamp))).any (fun entry => entry.2.node == item.1) = true ↔
      (self.find item.2).all (fun entry => decide (¬now > entry.timestamp)) = false := by
  obtain ⟨entry,found,node⟩ := consistent.held.mp member
  rw [found,Option.all_some,decide_eq_false_iff_not,not_not,List.any_eq_true]
  constructor
  · rintro ⟨other,chosen,same⟩
    obtain ⟨present,expired⟩ := List.mem_filter.mp chosen
    have named : other.1 = item.2 := by
      refine (consistent.same_item member (consistent.linked present)).mp ?_
      simpa using same
    have equal := mem_find consistent.unique present
    rw [named,found] at equal
    rw [Option.some.inj equal]
    exact of_decide_eq_true expired
  · intro expired
    exact ⟨(item.2,entry),List.mem_filter.mpr ⟨find_mem found,by simpa using expired⟩,by simp [node]⟩

theorem cleaned (consistent : Consistent history self) (now : Int) : Consistent history (self.clean now) := by
  have viewed : (self.clean now).recency history = {self.recency history with
      value := fun name => if (self.find name).all (fun entry => decide (¬now > entry.timestamp)) then
        (self.recency history).value name else none} := by
    unfold recency
    congr 1
    funext name
    rw [consistent.find_clean now name]
    cases found : self.find name with
    | none => simp [found]
    | some entry => simp [Option.filter_some,found,apply_ite]
  have listed : (self.clean now).lruList.map Prod.swap = (self.lruList.map Prod.swap).filter
      (fun item => (self.find item.1).all (fun entry => decide (¬now > entry.timestamp))) := by
    rw [List.filter_map,clean]
    refine congrArg (List.map Prod.swap) (List.filter_congr ?_)
    intro item member
    have same := consistent.swept_iff now member
    rw [Function.comp_apply,Bool.eq_iff_iff,Bool.not_eq_true',← Bool.not_eq_true,same]
    simp
  refine ⟨(List.filter_sublist.map Prod.fst).nodup consistent.unique,
    (List.filter_sublist.map Prod.fst).nodup consistent.nodes,?_,?_,?_⟩
  · exact fun item member => consistent.allocated item (List.mem_of_mem_filter member)
  · rw [viewed,listed]
    exact consistent.ordered.retain _
  · exact (List.length_filter_le _ _).trans consistent.bounded

end Consistent

-- What a scan does when every iterator it follows is live and none comes twice.
theorem scan_erases (now : Int) (rest : List (Name × TTLCacheEntry)) (self : TTLCertificateCache)
    (live : ∀ item ∈ rest, self.live item.2.node = true) (apart : (rest.map (fun item => item.2.node)).Nodup) :
    scan now rest self = some {self with
      lruList := self.lruList.filter (fun item =>
        !(rest.filter (fun item => decide (now > item.2.timestamp))).any (fun entry => entry.2.node == item.1))
      cache := self.cache.filter (fun item =>
        !(rest.filter (fun item => decide (now > item.2.timestamp))).any (fun entry => entry.1 == item.1))} := by
  induction rest generalizing self with
  | nil => simp [scan]
  | cons first rest ih =>
    obtain ⟨name,entry⟩ := first
    rw [List.map_cons,List.nodup_cons] at apart
    rw [scan]
    by_cases expired : now > entry.timestamp
    · have still : ∀ item ∈ rest, (self.erase name entry.node).live item.2.node = true := by
        intro item member
        obtain ⟨node,present,same⟩ := List.any_eq_true.mp (live item (List.mem_cons_of_mem _ member))
        refine List.any_eq_true.mpr ⟨node,List.mem_filter.mpr ⟨present,?_⟩,same⟩
        have other : entry.node ≠ item.2.node := fun equal =>
          apart.1 (List.mem_map.mpr ⟨item,member,equal.symm⟩)
        have here : node.1 = item.2.node := by simpa using same
        rw [here]
        simpa using other.symm
      rw [if_pos expired,if_pos (live (name,entry) List.mem_cons_self),ih _ still apart.2,
        List.filter_cons_of_pos (by simpa using expired)]
      simp only [erase,List.filter_filter,List.any_cons]
      congr 2
      · refine List.filter_congr ?_
        intro item member
        by_cases same : name = item.1
        · simp [same]
        · simp [same,Ne.symm same]
      · refine List.filter_congr ?_
        intro item member
        by_cases same : entry.node = item.1
        · simp [same]
        · simp [same,Ne.symm same]
    · rw [if_neg expired,ih _ (fun item member => live item (List.mem_cons_of_mem _ member)) apart.2,
        List.filter_cons_of_neg (by simpa using expired)]

namespace Consistent
variable {history : List (Option Name)} {self : TTLCertificateCache}

theorem scan_clean (consistent : Consistent history self) (now : Int) :
    scan now self.cache self = some (self.clean now) := by
  have apart : (self.cache.map (fun item => item.2.node)).Nodup := by
    refine List.Nodup.map_on ?_ consistent.unique.of_map
    intro first present second member same
    refine List.inj_on_of_nodup_map consistent.unique present member ?_
    exact (consistent.same_item (consistent.linked member) (consistent.linked present)).mp same
  rw [scan_erases now self.cache self (fun item member => consistent.live_node member) apart,clean]
  congr 2
  refine List.filter_congr ?_
  intro item member
  rw [Bool.eq_iff_iff,Bool.not_eq_true',decide_eq_true_eq,← Bool.not_eq_true,List.any_eq_true]
  refine not_congr ?_
  constructor
  · rintro ⟨other,chosen,same⟩
    obtain ⟨present,expired⟩ := List.mem_filter.mp chosen
    rw [List.inj_on_of_nodup_map consistent.unique present member (by simpa using same)] at expired
    exact of_decide_eq_true expired
  · intro expired
    exact ⟨item,List.mem_filter.mpr ⟨member,by simpa using expired⟩,by simp⟩

-- No call follows a dangling iterator, and every call keeps the two in step.
theorem advance (consistent : Consistent history self) (positive : 1 ≤ self.maxSize) (call : Call) :
    ∃ next, step self call = some next ∧ Consistent (history ++ [self.touched call]) next ∧
      next.maxSize = self.maxSize := by
  cases call with
  | insertCertificate now certificate =>
    refine ⟨_,if_pos (consistent.splices _),consistent.insert positive now certificate,?_⟩
    rcases consistent.insert_cases positive now certificate with ⟨entry,_,made⟩ | ⟨_,_,made⟩ | ⟨_,front,rest,_,_,made⟩
    all_goals rw [made]; rfl
  | getCertificate now certName hasVersion =>
    refine ⟨_,if_pos (consistent.splices _),consistent.get now certName hasVersion,?_⟩
    unfold TTLCertificateCache.getCertificate
    split <;> rfl
  | clean now => exact ⟨_,consistent.scan_clean now,(consistent.cleaned now).idle,rfl⟩

theorem keys_iff (consistent : Consistent history self) (name : Name) :
    name ∈ self.keys ↔ name ∈ self.lruList.map Prod.snd := by
  constructor
  · intro member
    obtain ⟨item,present,rfl⟩ := List.mem_map.mp member
    exact List.mem_map.mpr ⟨_,consistent.linked present,rfl⟩
  · intro member
    obtain ⟨item,present,rfl⟩ := List.mem_map.mp member
    obtain ⟨entry,found,_⟩ := consistent.held.mp present
    exact List.mem_map.mpr ⟨_,find_mem found,rfl⟩

theorem sorted (consistent : Consistent history self) :
    self.lruList.Pairwise (fun x y => lastUse x.2 history < lastUse y.2 history) := by
  have sorted := consistent.ordered.sorted
  rw [List.pairwise_map] at sorted
  exact sorted

-- What an insertion gives up was at the front of the list.
theorem evicted_oldest (consistent : Consistent history self) (positive : 1 ≤ self.maxSize) {now : Int}
    {certificate : IdentityCertificate} {name : Name} (before : name ∈ self.keys)
    (after : name ∉ (self.insertCertificate now certificate).keys) {other : Name} (held : other ∈ self.keys) :
    lastUse name history ≤ lastUse other history := by
  rcases consistent.insert_cases positive now certificate with ⟨entry,found,made⟩ | ⟨absent,room,made⟩ |
    ⟨absent,front,rest,listed,room,made⟩
  · refine absurd ?_ after
    rw [made,refreshed_keys]
    exact before
  · refine absurd ?_ after
    rw [made]
    exact (List.sublist_append_left _ _).map Prod.fst |>.subset before
  · have gone : name = front.2 := by
      by_contra apart
      refine after ?_
      obtain ⟨item,member,rfl⟩ := List.mem_map.mp before
      rw [made]
      refine List.mem_map.mpr ⟨item,List.mem_append_left _ (List.mem_filter.mpr ⟨member,?_⟩),rfl⟩
      simpa using apart
    obtain ⟨item,member,rfl⟩ := List.mem_map.mp ((consistent.keys_iff other).mp held)
    have sorted := consistent.sorted
    rw [listed] at sorted member
    rw [gone]
    rcases List.mem_cons.mp member with rfl | later
    · exact le_rfl
    · exact (List.rel_of_pairwise_cons sorted later).le

end Consistent

structure InStep (maxSize : ℕ) (history : List (Option Name)) (state : TTLCertificateCache) : Prop where
  keys : state.keys.Nodup
  names : (state.lruList.map Prod.snd).Nodup
  same : ∀ name, name ∈ state.keys ↔ name ∈ state.lruList.map Prod.snd
  nodes : (state.lruList.map Prod.fst).Nodup
  own : ∀ name entry, (name,entry) ∈ state.cache → (entry.node,name) ∈ state.lruList
  size : state.cache.length ≤ maxSize
  order : state.lruList.Pairwise (fun x y => lastUse x.2 history < lastUse y.2 history)

theorem empty_consistent (maxSize : ℕ) : Consistent [] (empty maxSize) where
  unique := List.nodup_nil
  nodes := List.nodup_nil
  allocated _ member := by cases member
  ordered := ⟨fun name node => by simp [recency,empty,find],List.nodup_nil,.nil,fun _ member => by cases member⟩
  bounded := Nat.zero_le _

theorem run_consistent {maxSize : ℕ} (positive : 1 ≤ maxSize) {history : List (Option Name)} {cache : TTLCertificateCache}
    (run : Traced step (fun _ _ => True) touched (empty maxSize) history cache) :
    Consistent history cache ∧ cache.maxSize = maxSize := by
  refine run.invariant (fun history cache => Consistent history cache ∧ cache.maxSize = maxSize)
    ⟨empty_consistent maxSize,rfl⟩ ?_
  intro history cache call next consistent _ taken
  obtain ⟨result,made,kept,sized⟩ := consistent.1.advance (consistent.2 ▸ positive) call
  rw [taken] at made
  cases made
  exact ⟨kept,sized.trans consistent.2⟩

theorem runs_in_step {maxSize : ℕ} (positive : 1 ≤ maxSize) {history : List (Option Name)} {cache : TTLCertificateCache}
    (run : Traced step (fun _ _ => True) touched (empty maxSize) history cache) :
    InStep maxSize history cache ∧ (∀ call, ∃ next, step cache call = some next) ∧
      ∀ now certificate next name, step cache (.insertCertificate now certificate) = some next →
        name ∈ cache.keys → name ∉ next.keys → ∀ other ∈ cache.keys, lastUse name history ≤ lastUse other history := by
  obtain ⟨consistent,sized⟩ := run_consistent positive run
  have room : 1 ≤ cache.maxSize := sized ▸ positive
  refine ⟨⟨consistent.unique,consistent.names,consistent.keys_iff,consistent.nodes,?_,?_,consistent.sorted⟩,?_,?_⟩
  · exact fun name entry member => consistent.linked member
  · have same : cache.keys.Perm (cache.lruList.map Prod.snd) :=
      (List.perm_ext_iff_of_nodup consistent.unique consistent.names).mpr consistent.keys_iff
    have sizes := same.length_eq
    rw [keys,List.length_map,List.length_map] at sizes
    rw [sizes,← sized]
    exact consistent.bounded
  · intro call
    obtain ⟨next,made,_⟩ := consistent.advance room call
    exact ⟨next,made⟩
  · intro now certificate next name taken before after other held
    rw [step,if_pos (consistent.splices _)] at taken
    cases taken
    exact consistent.evicted_oldest room before after held

-- A certificate for the key of one byte, kept for ten units of time.
def keyCertificate (byte : UInt8) : IdentityCertificate := ⟨[⟨[byte]⟩,⟨[0]⟩],10,0,0,[]⟩

-- The second of two certificates goes when a third one comes, since the first was hit.
theorem runs_in_step_hit_kept : ∃ history cache,
    Traced step (fun _ _ => True) touched (empty 2) history cache ∧ InStep 2 history cache ∧
      cache.keys = [[⟨[1]⟩],[⟨[3]⟩]] := by
  have start : Traced step (fun _ _ => True) touched (empty 2) [] (empty 2) := .nil _
  have first := start.snoc trivial (show step _ (.insertCertificate 0 (keyCertificate 1)) = some _ from rfl)
  have second := first.snoc trivial (show step _ (.insertCertificate 1 (keyCertificate 2)) = some _ from rfl)
  have hit := second.snoc trivial (show step _ (.getCertificate 2 [⟨[1]⟩,⟨[0]⟩] true) = some _ from rfl)
  have run := hit.snoc trivial (show step _ (.insertCertificate 3 (keyCertificate 3)) = some _ from rfl)
  exact ⟨_,_,run,(runs_in_step (by decide) run).1,by decide⟩

end NdnCxx.Security.TTLCertificateCache
