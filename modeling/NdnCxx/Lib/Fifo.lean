import NdnCxx.Lib.Runs

namespace NdnCxx.Fifo

section Queue
variable {E J : Type*} (put take : E → Option J)

-- A queue gives its jobs out in order: an event adds at the end what it puts and
-- removes at the front what it takes.
def Step (queue : List J) (event : E) (next : List J) : Prop :=
  queue ++ (put event).toList = (take event).toList ++ next

variable {put take}

theorem filterMap_snoc (f : E → Option J) (events : List E) (event : E) :
    (events ++ [event]).filterMap f = events.filterMap f ++ (f event).toList := by
  rw [List.filterMap_append]
  cases read : f event with
  | none => simp [read]
  | some job => simp [read]

theorem conserved {queue next : List J} {events : List E} (followed : Follows (Step put take) queue events next) :
    queue ++ events.filterMap put = events.filterMap take ++ next := by
  induction followed with
  | nil => simp
  | snoc before moved ih =>
    rw [filterMap_snoc,filterMap_snoc,← List.append_assoc,ih,List.append_assoc,List.append_assoc]
    exact congrArg _ moved

theorem taken_prefix {next : List J} {events : List E} (followed : Follows (Step put take) [] events next) :
    events.filterMap take <+: events.filterMap put := ⟨next,(conserved followed).symm⟩

end Queue

-- What the members of a list hold, where one member is replaced.
theorem filterMap_set {W J : Type*} (f : W → Option J) {l : List W} {i : ℕ} {old : W} (present : l[i]? = some old) (new : W) :
    ((f old).toList ++ (l.set i new).filterMap f).Perm ((f new).toList ++ l.filterMap f) := by
  obtain ⟨bound,same⟩ := List.getElem?_eq_some_iff.mp present
  have after := (List.set_perm_cons_eraseIdx bound new).filterMap f
  have before := (List.getElem_cons_eraseIdx_perm bound).filterMap f
  have split : ∀ member : W, (member :: l.eraseIdx i).filterMap f = (f member).toList ++ (l.eraseIdx i).filterMap f := by
    intro member
    cases read : f member with
    | none => simp [read]
    | some job => simp [read]
  rw [same,split] at before
  rw [split] at after
  calc ((f old).toList ++ (l.set i new).filterMap f).Perm _ := after.append_left _
    ((f old).toList ++ _).Perm _ := List.perm_append_comm_assoc _ _ _
    ((f new).toList ++ _).Perm _ := before.append_left _

theorem sum_set {W : Type*} (f : W → ℕ) {l : List W} {i : ℕ} {old : W} (present : l[i]? = some old) (new : W) :
    ((l.set i new).map f).sum + f old = (l.map f).sum + f new := by
  obtain ⟨bound,same⟩ := List.getElem?_eq_some_iff.mp present
  have after := ((List.set_perm_cons_eraseIdx bound new).map f).sum_eq
  have before := ((List.getElem_cons_eraseIdx_perm bound).map f).sum_eq
  rw [same,List.map_cons,List.sum_cons] at before
  rw [List.map_cons,List.sum_cons] at after
  omega

end NdnCxx.Fifo
