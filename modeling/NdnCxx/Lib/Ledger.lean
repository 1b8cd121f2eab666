import NdnCxx.Lib.Runs

namespace NdnCxx

-- Obligations that are handed on. An open one has an owner and a bound on the work
-- still to be done for it, and it leaves the ledger only by being settled.
structure Ledger (ι : Type*) where
  tokens : Multiset (ι × ℕ)
  settled : Multiset ι

namespace Ledger
variable {ι : Type*} [DecidableEq ι]

def count (ledger : Ledger ι) (owner : ι) : ℕ :=
  (ledger.tokens.map Prod.fst).count owner + ledger.settled.count owner

def weight (ledger : Ledger ι) : ℕ := (ledger.tokens.map Prod.snd).sum

def put (ledger : Ledger ι) (token : ι × ℕ) : Ledger ι := ⟨token ::ₘ ledger.tokens,ledger.settled⟩

def settle (ledger : Ledger ι) (owner : ι) : Ledger ι := ⟨ledger.tokens,owner ::ₘ ledger.settled⟩

@[simp]
theorem put_count (ledger : Ledger ι) (token : ι × ℕ) (owner : ι) :
    (ledger.put token).count owner = ledger.count owner + if owner = token.1 then 1 else 0 := by
  simp only [count,put,Multiset.map_cons,Multiset.count_cons]
  omega

@[simp]
theorem settle_count (ledger : Ledger ι) (who owner : ι) :
    (ledger.settle who).count owner = ledger.count owner + if owner = who then 1 else 0 := by
  simp only [count,settle,Multiset.count_cons]
  omega

-- One obligation is taken up with a budget: it is settled, or it stays open at a
-- cost below the budget. Nothing else in the ledger moves.
def Continues (owner : ι) (budget : ℕ) (ledger next : Ledger ι) : Prop :=
  (∃ cost < budget,next = ledger.put (owner,cost)) ∨ next = ledger.settle owner

theorem continues_count {owner : ι} {budget : ℕ} {ledger next : Ledger ι} (taken : Continues owner budget ledger next)
    (other : ι) : next.count other = ledger.count other + if other = owner then 1 else 0 := by
  rcases taken with ⟨cost,_,rfl⟩ | rfl
  · exact put_count ledger (owner,cost) other
  · exact settle_count ledger owner other

omit [DecidableEq ι] in
theorem continues_mono {owner : ι} {small large : ℕ} {ledger next : Ledger ι} (le : small ≤ large)
    (taken : Continues owner small ledger next) : Continues owner large ledger next := by
  rcases taken with ⟨cost,below,result⟩ | result
  · exact .inl ⟨cost,below.trans_le le,result⟩
  · exact .inr result

-- What a system that keeps a ledger does in one step: nothing to it, a new
-- obligation taken up, or work on an open one.
inductive Step (budget : ℕ) : Ledger ι → Option ι → ℕ → Ledger ι → Prop where
  | idle (ledger : Ledger ι) : Step budget ledger none 0 ledger
  | request {owner : ι} {ledger next : Ledger ι} : Continues owner (budget + 1) ledger next →
      Step budget ledger (some owner) 0 next
  | work {owner : ι} {cost : ℕ} {base next : Ledger ι} : 0 < cost → Continues owner cost base next →
      Step budget (base.put (owner,cost)) none 1 next

theorem step_count {budget worked : ℕ} {opened : Option ι} {ledger next : Ledger ι}
    (taken : Step budget ledger opened worked next) (owner : ι) :
    next.count owner = ledger.count owner + if opened = some owner then 1 else 0 := by
  cases taken with
  | idle => simp
  | request continues =>
    rw [continues_count continues]
    simp only [Option.some.injEq,eq_comm]
  | work positive continues =>
    rw [continues_count continues,put_count]
    simp

end Ledger
end NdnCxx
