import Qnero.Shielded.Entry

/-!
# Block rewards

At the end of a block the mining-rewards pallet takes the collected fees, adds the emission of the
block and hands the whole quanta to the pool, which turns them into the author's coinbase note.
What it cannot hand over waits in the collected fees. No account is credited.
-/

namespace Qnero

open Machine

/-! ## Fees -/

/-- `collect_transaction_fees`: a fee waits for the next block reward. -/
def Chain.collectTransactionFees (c : Chain) (fees : ℕ) : Chain :=
  { c with collectedFees := satAdd u128Max c.collectedFees fees }

/-- `retain_unminted`: so does a reward that was not minted. -/
def Chain.retainUnminted (c : Chain) (reward : ℕ) : Chain := c.collectTransactionFees reward

/-- A transaction fee: withdrawn from an account that has to stay alive, and the credit dropped,
which takes it out of issuance. -/
def collectFee (cfg : Config) (who : AccountId) (fee : ℕ) : Runtime Unit :=
  if fee = 0 then pure ()
  else do
    let c ← Call.read
    let balances ← Call.lift
      (orBalances (c.balances.takeExact cfg.existentialDeposit who fee .preserve))
    Call.write fun c => { c with balances := balances }
    Call.write fun c => c.collectTransactionFees fee

/-! ## The end of a block -/

/-- `ShieldedSupply`: what the pool holds, and the author's share on its way back into it. -/
def shieldedSupply (c : Chain) : ℕ := satAdd u128Max c.poolValue c.pendingCoinbaseFee

/-- The emission of a block: a fixed share of what is left of the supply. Nothing for a zero
divisor, as the checked division of the source answers. -/
def blockReward (cfg : Config) (c : Chain) (txFees : ℕ) : ℕ :=
  let currentSupply :=
    satAdd u128Max (satAdd u128Max c.balances.totalIssuance txFees) (shieldedSupply c)
  (cfg.maxSupply - currentSupply) / cfg.emissionDivisor

def leafQuantum : ℕ := amountScaleDownFactor

/-- Whole quanta, and the remainder. -/
def quantize (amount : ℕ) : ℕ × ℕ := (amount - amount % leafQuantum, amount % leafQuantum)

section

variable (H : Poseidon2) (cfg : Config)

/-- Hand a credit to the pool and keep what comes back. -/
def Chain.payCoinbase (c : Chain) (amount : ℕ) : Chain :=
  match mintCoinbase H c amount with
  | (.ok (), c') => c'
  | (.error returned, c') => if returned = 0 then c' else c'.retainUnminted returned

/-- `CollectedFees::take`. -/
def Chain.takeFees (c : Chain) : Chain := { c with collectedFees := 0 }

/-- Whole quanta go to the pool, the rest waits; without an author everything does. -/
def Chain.payMiner (c : Chain) (minerGross : ℕ) : Chain :=
  if c.hasAuthor then
    (c.payCoinbase H (quantize minerGross).1).retainUnminted (quantize minerGross).2
  else c.retainUnminted minerGross

/-- `on_finalize` of the mining rewards. -/
def Chain.payRewards (c : Chain) : Chain :=
  c.takeFees.payMiner H
    (satAdd u128Max c.collectedFees (blockReward cfg c.takeFees c.collectedFees))

end

/-! ## What the end of a block does

Below the cap nothing saturates, and the credit is the collected fees and the emission: retained
whole, or minted up to the dust.
-/

variable {H : Poseidon2} {cfg : Config} {c : Chain}

/-- The emission of a block, by the whole supply. -/
def emission (cfg : Config) (supply : ℕ) : ℕ := (cfg.maxSupply - supply) / cfg.emissionDivisor

theorem emission_le (cfg : Config) (supply : ℕ) : emission cfg supply ≤ cfg.maxSupply - supply :=
  Nat.div_le_self ..

/-- The state of a block whose credit waits for the next one. -/
def Chain.deferred (c : Chain) (fees : ℕ) (payload : Option CoinbasePayload) : Chain :=
  { c with
    collectedFees := fees
    pendingCoinbase := payload }

theorem blockReward_eq (h : c.supply ≤ u128Max) :
    blockReward cfg c.takeFees c.collectedFees = emission cfg c.supply := by
  have sum : c.supply = c.balances.totalIssuance + c.collectedFees +
      (c.poolValue + c.pendingCoinbaseFee) := Nat.add_assoc ..
  have pool : satAdd u128Max c.poolValue c.pendingCoinbaseFee = c.poolValue + c.pendingCoinbaseFee :=
    satAdd_eq (by omega)
  have issued : satAdd u128Max c.balances.totalIssuance c.collectedFees =
      c.balances.totalIssuance + c.collectedFees := satAdd_eq (by omega)
  simp only [blockReward, shieldedSupply, Chain.takeFees]
  rw [pool, issued, satAdd_eq (by omega), ← sum, emission]

theorem retainUnminted_eq {fees : ℕ} (h : c.collectedFees + fees ≤ u128Max) :
    c.retainUnminted fees = c.deferred (c.collectedFees + fees) c.pendingCoinbase := by
  rw [Chain.retainUnminted, Chain.collectTransactionFees, satAdd_eq h]
  rfl

theorem quantize_sum (amount : ℕ) : (quantize amount).1 + (quantize amount).2 = amount :=
  Nat.sub_add_cancel (Nat.mod_le ..)

/-- A credit that comes back is kept whole. -/
theorem payCoinbase_cases (H : Poseidon2) (c : Chain) (amount : ℕ)
    (h : c.collectedFees + amount ≤ u128Max) :
    c.payCoinbase H amount = c.deferred (c.collectedFees + amount) none ∨
      ∃ inner commitment, MintChecked H c amount inner commitment ∧
        c.payCoinbase H amount = c.minted amount commitment := by
  rcases mintCoinbase_cases H c amount with hmint | ⟨inner, commitment, hcheck, hmint⟩
  · left
    rw [Chain.payCoinbase, hmint]
    by_cases hzero : amount = 0
    · subst hzero
      rfl
    · simp only [if_neg hzero]
      exact retainUnminted_eq h
  · right
    refine ⟨inner, commitment, hcheck, ?_⟩
    rw [Chain.payCoinbase, hmint]

/-- A field that neither a deferred nor a minted credit changes. -/
theorem payRewards_frame {α : Type} (f : Chain → α)
    (deferred : ∀ c fees payload, f (c.deferred fees payload) = f c)
    (minted : ∀ c credit commitment, f (c.minted credit commitment) = f c) (H : Poseidon2)
    (cfg : Config) (c : Chain) : f (c.payRewards H cfg) = f c := by
  have retain : ∀ c fees, f (Chain.retainUnminted c fees) = f c := fun c fees =>
    deferred c (satAdd u128Max c.collectedFees fees) c.pendingCoinbase
  have pay : ∀ c amount, f (Chain.payCoinbase H c amount) = f c := by
    intro c amount
    rcases mintCoinbase_cases H c amount with hmint | ⟨inner, commitment, -, hmint⟩
    · have taken : f { c with pendingCoinbase := none } = f c := deferred c c.collectedFees none
      rw [Chain.payCoinbase, hmint]
      dsimp only
      split
      · exact taken
      · rw [retain, taken]
    · rw [Chain.payCoinbase, hmint]
      exact minted ..
  have take : f c.takeFees = f c := deferred c 0 c.pendingCoinbase
  rw [Chain.payRewards, Chain.payMiner]
  split
  · rw [retain, pay, take]
  · rw [retain, take]

/-- **An author's credit is retained whole, or minted up to the dust.** -/
theorem payMiner_cases (H : Poseidon2) {c : Chain} (hfees : c.collectedFees = 0) {gross : ℕ}
    (h : gross ≤ u128Max) :
    (∃ payload, c.payMiner H gross = c.deferred gross payload) ∨
    ∃ inner commitment, MintChecked H c (quantize gross).1 inner commitment ∧
      c.payMiner H gross = (c.minted (quantize gross).1 commitment).deferred (quantize gross).2
        none := by
  have total := quantize_sum gross
  unfold Chain.payMiner
  split
  · rcases payCoinbase_cases H c (quantize gross).1 (by omega) with
      hpay | ⟨inner, commitment, hcheck, hpay⟩
    · -- Refused: the credit and the dust are retained one after the other.
      refine .inl ⟨none, ?_⟩
      rw [hpay, hfees, Nat.zero_add, retainUnminted_eq (by show (quantize gross).1 + _ ≤ _; omega)]
      show c.deferred ((quantize gross).1 + (quantize gross).2) none = _
      rw [total]
    · refine .inr ⟨inner, commitment, hcheck, ?_⟩
      have kept : (c.minted (quantize gross).1 commitment).collectedFees = 0 := hfees
      rw [hpay, retainUnminted_eq (by rw [kept]; omega), kept, Nat.zero_add]
      rfl
  · refine .inl ⟨c.pendingCoinbase, ?_⟩
    rw [retainUnminted_eq (by omega), hfees, Nat.zero_add]

/-- What the block owes its author: the collected fees and the emission. -/
def Chain.minerGross (cfg : Config) (c : Chain) : ℕ := c.collectedFees + emission cfg c.supply

/-- **A block end defers its whole credit or mints it.** -/
theorem payRewards_cases (H : Poseidon2) (cfg : Config) (c : Chain) (h : c.supply ≤ u128Max) :
    (∃ payload, c.payRewards H cfg = c.deferred (c.minerGross cfg) payload) ∨
    ∃ inner commitment, MintChecked H c (quantize (c.minerGross cfg)).1 inner commitment ∧
      c.payRewards H cfg = (c.minted (quantize (c.minerGross cfg)).1 commitment).deferred
        (quantize (c.minerGross cfg)).2 none := by
  have capped := emission_le cfg c.supply
  have cap := cfg.maxSupply_le
  have fees : c.collectedFees ≤ c.supply := by
    unfold Chain.supply
    omega
  have bound : c.minerGross cfg ≤ u128Max := by
    unfold Chain.minerGross
    omega
  have gross : satAdd u128Max c.collectedFees (emission cfg c.supply) = c.minerGross cfg :=
    satAdd_eq bound
  rw [Chain.payRewards, blockReward_eq h, gross]
  -- Taking the fees changes nothing a mint looks at.
  refine (payMiner_cases H (c := c.takeFees) rfl bound).imp_right ?_
  rintro ⟨inner, commitment, hcheck, hpay⟩
  exact ⟨inner, commitment, ⟨hcheck.inner_eq, hcheck.steps_le, hcheck.commitment_eq,
    hcheck.commitment_ne_zero, hcheck.capacity⟩, hpay⟩

end Qnero
