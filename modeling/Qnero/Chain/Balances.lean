import Qnero.Digest
import Qnero.Dispatch
import Qnero.Machine
import Mathlib.Algebra.BigOperators.Group.Finset.Basic
import Mathlib.Algebra.Order.BigOperators.Group.Finset

/-!
# Transparent balances

The slice of the balances pallet that value passes on its way into the pool: burning from an
account and withdrawing a fee. Both lower one account, and both may leave it below the existential
deposit; an account with nothing on hold is then reaped, and what it still held is destroyed. So
what leaves issuance is the amount asked for **plus the dust**.

`Balances` carries its accounting invariant: no set of accounts holds more than was issued.
-/

namespace Qnero

open Machine

/-- A 32-byte account id. -/
abbrev AccountId : Type := Hash256

/-- An account: its balances, and the references that keep it alive. -/
structure AccountInfo where
  free : ℕ
  reserved : ℕ
  frozen : ℕ
  providers : ℕ
  consumers : ℕ
  sufficients : ℕ
deriving DecidableEq, Inhabited

namespace AccountInfo

/-- An account that does not exist. -/
def dead : AccountInfo := ⟨0, 0, 0, 0, 0, 0⟩

def total (a : AccountInfo) : ℕ := a.free + a.reserved

def canDecProvider (a : AccountInfo) : Bool := a.consumers = 0 ∨ a.providers > 1

end AccountInfo

variable {amount dust : ℕ} {who : AccountId} {preservation : Preservation} {a a' : AccountInfo}

inductive Preservation where
  | expendable
  | protect
  | preserve
deriving DecidableEq

inductive Fortitude where
  | polite
  | force
deriving DecidableEq

inductive BalancesError where
  | fundsUnavailable
  | insufficientBalance
  | overflow
  | noProviders
  | consumerRemaining
deriving DecidableEq

/-! ## One account -/

section

variable (ed : ℕ)

/-- Does the existential deposit have to stay, so that the account keeps its provider? -/
def keepsDeposit (a : AccountInfo) : Preservation → Bool
  | .preserve => true
  | .protect => a.free ≠ 0 ∧ a.providers = 1
  | .expendable => a.free ≠ 0 ∧ !a.canDecProvider

/-- What can be taken out of the free balance. -/
def reducibleBalance (a : AccountInfo) (preservation : Preservation) (fortitude : Fortitude) : ℕ :=
  let untouchable := if fortitude = .polite then a.frozen - a.reserved else 0
  let untouchable := if keepsDeposit a preservation then max untouchable ed else untouchable
  a.free - untouchable

/-- Drop one provider reference; the last one only goes with the last consumer. -/
def decProviders (a : AccountInfo) : Except BalancesError AccountInfo :=
  let providers := if a.providers = 0 then 1 else a.providers
  if providers = 1 ∧ a.consumers = 0 ∧ a.sufficients = 0 then .ok .dead
  else if providers = 1 ∧ a.consumers > 0 then .error .consumerRemaining
  else .ok { a with providers := providers - 1 }

def incProviders (a : AccountInfo) : AccountInfo :=
  { a with providers := if a.providers = 0 ∧ a.sufficients = 0 then 1 else satAdd u32Max a.providers 1 }

/-- A balance on hold or frozen needs a consumer reference. -/
def bumpConsumer (a : AccountInfo) : Except BalancesError AccountInfo :=
  if (a.reserved ≠ 0 ∨ a.frozen ≠ 0) ∧ a.consumers = 0 then
    if a.providers > 0 then .ok { a with consumers := 1 } else .error .noProviders
  else .ok a

/-- The references of an account whose free balance goes from `a.free` to `amount`. -/
def updateReferences (a : AccountInfo) (amount : ℕ) : Except BalancesError AccountInfo := do
  let refs ← bumpConsumer (if a.free < ed ∧ ed ≤ amount then incProviders a else a)
  if ed ≤ a.free ∧ amount < ed then decProviders refs else .ok refs

/-- What the system stores: an account nothing keeps alive is removed. -/
def storeAccount (a : AccountInfo) : AccountInfo :=
  if a.providers = 0 ∧ a.sufficients = 0 then .dead else a

/-- `write_balance`: set the free balance, and the dust reaped if that is too little. -/
def writeBalance (a : AccountInfo) (amount : ℕ) : Except BalancesError (AccountInfo × ℕ) := do
  ensure (a.free - amount ≤ reducibleBalance ed a .expendable .force) .insufficientBalance
  let refs ← updateReferences ed a amount
  if amount < ed ∧ a.reserved = 0 then
    .ok (storeAccount { refs with free := 0, reserved := 0, frozen := 0 }, amount)
  else
    .ok (storeAccount { refs with free := amount, reserved := a.reserved, frozen := a.frozen }, 0)

/-- `decrease_balance`, at most `amount`. -/
def decreaseBalance (a : AccountInfo) (amount : ℕ) (preservation : Preservation)
    (fortitude : Fortitude) : Except BalancesError (AccountInfo × ℕ) :=
  writeBalance ed a (a.free - min amount (reducibleBalance ed a preservation fortitude))

theorem reducibleBalance_le (a : AccountInfo) (preservation : Preservation)
    (fortitude : Fortitude) : reducibleBalance ed a preservation fortitude ≤ a.free :=
  Nat.sub_le ..

theorem total_storeAccount_le (a : AccountInfo) : (storeAccount a).total ≤ a.total := by
  unfold storeAccount
  split
  · exact Nat.zero_le _
  · exact le_rfl

/-- What an account holds afterwards and the dust are at most the balance written and the hold. -/
theorem writeBalance_total (h : writeBalance ed a amount = .ok (a', dust)) : a'.total + dust ≤ amount + a.reserved := by
  simp only [writeBalance, bind_ok_iff] at h
  obtain ⟨_, -, refs, -, h⟩ := h
  split at h
  · next reaped =>
    obtain ⟨rfl, rfl⟩ := Prod.mk.inj (Except.ok.inj h)
    have := total_storeAccount_le { refs with free := 0, reserved := 0, frozen := 0 }
    simp only [AccountInfo.total] at this ⊢
    omega
  · obtain ⟨rfl, rfl⟩ := Prod.mk.inj (Except.ok.inj h)
    exact total_storeAccount_le _

/-- Dust is a positive remainder below the deposit, of an account with nothing on hold. -/
theorem writeBalance_dust (h : writeBalance ed a amount = .ok (a', dust)) :
    dust = if amount < ed ∧ a.reserved = 0 then amount else 0 := by
  simp only [writeBalance, bind_ok_iff] at h
  obtain ⟨_, -, refs, -, h⟩ := h
  split at h <;> simp_all

end

/-! ## The books -/

/-- Every account, and the issuance that covers them. -/
structure Balances where
  account : AccountId → AccountInfo
  totalIssuance : ℕ
  covered : ∀ s : Finset AccountId, ∑ who ∈ s, (account who).total ≤ totalIssuance

namespace Balances

theorem total_le (b : Balances) (who : AccountId) : (b.account who).total ≤ b.totalIssuance := by
  simpa using b.covered {who}

/-- Replace an account by one that holds less, and destroy the difference. -/
def burn (b : Balances) (who : AccountId) (a' : AccountInfo) (burned : ℕ)
    (h : a'.total + burned ≤ (b.account who).total) : Balances where
  account := Function.update b.account who a'
  totalIssuance := b.totalIssuance - burned
  covered s := by
    -- Count `who` in whether or not `s` has it: the other accounts did not change.
    have mem := Finset.mem_insert_self who s
    have before := b.covered (insert who s)
    rw [← Finset.add_sum_erase _ _ mem] at before
    have others : ∑ x ∈ (insert who s).erase who, (Function.update b.account who a' x).total =
        ∑ x ∈ (insert who s).erase who, (b.account x).total :=
      Finset.sum_congr rfl fun x hx => by rw [Function.update_of_ne (Finset.ne_of_mem_erase hx)]
    calc ∑ x ∈ s, (Function.update b.account who a' x).total
        ≤ ∑ x ∈ insert who s, (Function.update b.account who a' x).total :=
          Finset.sum_le_sum_of_subset (Finset.subset_insert ..)
      _ = a'.total + ∑ x ∈ (insert who s).erase who, (b.account x).total := by
          rw [← Finset.add_sum_erase _ _ mem, Function.update_self, others]
      _ ≤ b.totalIssuance - burned := by omega

variable (ed : ℕ)

theorem decrease_total {b : Balances} {fortitude : Fortitude}
    (hle : amount ≤ reducibleBalance ed (b.account who) preservation fortitude)
    (h : decreaseBalance ed (b.account who) amount preservation fortitude = .ok (a', dust)) :
    a'.total + (amount + dust) ≤ (b.account who).total := by
  have free := reducibleBalance_le ed (b.account who) preservation fortitude
  have total := writeBalance_total ed h
  rw [Nat.min_eq_left hle] at total
  simp only [AccountInfo.total] at total ⊢
  omega

/-- Take exactly `amount` from an account and destroy it together with the dust. -/
def takeExact (b : Balances) (who : AccountId) (amount : ℕ) (preservation : Preservation) :
    Except BalancesError Balances :=
  if hle : amount ≤ reducibleBalance ed (b.account who) preservation .polite then
    match h : decreaseBalance ed (b.account who) amount preservation .polite with
    | .error e => .error e
    | .ok (a', dust) => .ok (b.burn who a' (amount + dust) (decrease_total ed hle h))
  else .error .fundsUnavailable

/-- `burn_from`, exact and polite. -/
def burnFrom (b : Balances) (who : AccountId) (amount : ℕ) (preservation : Preservation) :
    Except BalancesError Balances :=
  if ¬ amount ≤ reducibleBalance ed (b.account who) preservation .polite then
    .error .fundsUnavailable
  else if b.totalIssuance < amount then .error .overflow
  else b.takeExact ed who amount preservation

/-- What is reaped when `amount` leaves an account: a remainder below the deposit. -/
def reapedDust (a : AccountInfo) (amount : ℕ) : ℕ :=
  if a.free - amount < ed ∧ a.reserved = 0 then a.free - amount else 0

/-- **Issuance falls by the amount and the dust**, exactly. -/
theorem takeExact_issuance {b b' : Balances} (h : b.takeExact ed who amount preservation = .ok b') :
    b'.totalIssuance + (amount + reapedDust ed (b.account who) amount) = b.totalIssuance := by
  unfold takeExact at h
  split at h
  · next hle =>
    split at h
    · cases h
    · next a' dust hdec =>
      obtain rfl := Except.ok.inj h
      have held := decrease_total ed hle hdec
      have covered := b.total_le who
      have hdust := writeBalance_dust ed hdec
      rw [Nat.min_eq_left hle] at hdust
      rw [reapedDust, ← hdust]
      show b.totalIssuance - (amount + dust) + (amount + dust) = b.totalIssuance
      omega
  · cases h

/-- An account that keeps its deposit leaves no dust. -/
theorem reapedDust_of_preserve (hpos : 0 < amount)
    (h : amount ≤ reducibleBalance ed a .preserve .polite) : reapedDust ed a amount = 0 := by
  have room : amount + ed ≤ a.free := by
    simp only [reducibleBalance, keepsDeposit, if_true] at h
    omega
  exact if_neg (by omega)

theorem le_reducible_of_takeExact {b b' : Balances} (h : b.takeExact ed who amount preservation = .ok b') :
    amount ≤ reducibleBalance ed (b.account who) preservation .polite := by
  unfold takeExact at h
  split at h
  · assumption
  · cases h

theorem takeExact_of_burnFrom {b b' : Balances} (h : b.burnFrom ed who amount preservation = .ok b') :
    b.takeExact ed who amount preservation = .ok b' := by
  unfold burnFrom at h
  split at h
  · cases h
  · split at h
    · cases h
    · exact h

end Balances

end Qnero
