import Qnero.Chain.Run
import Qnero.Shielded.Atomic

/-!
# The supply over both books

Value is issued to accounts, held by the pool, or on its way: fees collected and not yet minted
again, and the author's share of settled fees. `supply` is the sum, and every operation moves value
inside it, apart from what it is meant to do: a block end emits, a settlement burns a share of its
fee. One thing is easy to miss: a shield may leave an account below the existential deposit, and
what is left of it is destroyed.
-/

namespace Qnero

open Machine

variable {H : Poseidon2} {cfg : Config} {c c' : Chain}

/-! ## The calls -/

theorem supply_setPool (c : Chain) (pool pendingFee : ℕ) : (c.setPool pool pendingFee).supply =
    c.balances.totalIssuance + c.collectedFees + pool + pendingFee := rfl

/-- The share of a settled fee that is burned, in planck. -/
def burnedShare (cfg : Config) (feeSteps : ℕ) : ℕ := cfg.feeBurnRate.mulCeil feeSteps * poolStep

theorem burnedShare_add_author (cfg : Config) (feeSteps : ℕ) :
    burnedShare cfg feeSteps + Chain.authorSteps cfg feeSteps * poolStep = feeSteps * poolStep := by
  rw [burnedShare, Chain.authorSteps, ← Nat.add_mul,
    Nat.add_sub_cancel' (cfg.feeBurnRate.mulCeil_le feeSteps)]

/-- A fee leaves the pool; its author's share stays in the supply. -/
theorem supply_chargeFee {feeSteps : ℕ} (h : c.supply ≤ u128Max)
    (backed : feeSteps * poolStep ≤ c.poolValue) :
    (c.chargeFee cfg feeSteps).supply + burnedShare cfg feeSteps = c.supply := by
  have shares := burnedShare_add_author cfg feeSteps
  have sum : c.supply = c.balances.totalIssuance + c.collectedFees + c.poolValue +
    c.pendingCoinbaseFee := rfl
  rw [Chain.chargeFee, supply_setPool]
  split
  · next zero =>
    -- No author's share: the burn is the fee.
    rw [zero, Nat.zero_mul] at shares
    omega
  · rw [satAdd_eq (by omega)]
    omega

theorem Planned.supply_settled {bundle : SettlementBundle} {outputs : List ShieldedOutput}
    {plan : PlannedSettlement} (h : c.supply ≤ u128Max)
    (planned : Planned cfg c bundle outputs plan) :
    (c.settled cfg bundle plan).supply + burnedShare cfg plan.feeSteps = c.supply := by
  have unchanged := putSlots_frame Chain.supply (fun _ _ => rfl) c (plan.written bundle)
  have pool := putSlots_frame Chain.poolValue (fun _ _ => rfl) c (plan.written bundle)
  rw [Chain.settled, supply_chargeFee (by rw [unchanged]; exact h)
    (by rw [pool]; exact planned.fee_backed), unchanged]

variable {balances : Balances} {who : AccountId}

/-- What is burned was issued, so the pool's new value fits. -/
theorem poolValue_shielded {value : ℕ} (commitment : Hash256) (h : c.supply ≤ u128Max)
    (burn : c.balances.burnFrom cfg.existentialDeposit who value .expendable = .ok balances) :
    (c.shielded balances value commitment).poolValue = c.poolValue + value := by
  have issuance := Balances.takeExact_issuance _ (Balances.takeExact_of_burnFrom _ burn)
  unfold Chain.supply at h
  exact satAdd_eq (by omega)

/-- A shield moves its value between the books and destroys the dust. -/
theorem supply_shielded {value : ℕ} {commitment : Hash256} (h : c.supply ≤ u128Max)
    (burn : c.balances.burnFrom cfg.existentialDeposit who value .expendable = .ok balances) :
    (c.shielded balances value commitment).supply +
      Balances.reapedDust cfg.existentialDeposit (c.balances.account who) value = c.supply := by
  have issuance := Balances.takeExact_issuance _ (Balances.takeExact_of_burnFrom _ burn)
  have pool := poolValue_shielded commitment h burn
  show balances.totalIssuance + c.collectedFees + (c.shielded balances value commitment).poolValue +
    c.pendingCoinbaseFee + _ = _
  rw [pool, Chain.supply]
  omega

/-- A collected fee changes the book and nothing else: an account that stays alive leaves no
dust. -/
theorem supply_feeTaken {fee : ℕ} (h : c.supply ≤ u128Max) (pos : 0 < fee)
    (taken : c.balances.takeExact cfg.existentialDeposit who fee .preserve = .ok balances) :
    (c.feeTaken balances fee).supply = c.supply := by
  have issuance := Balances.takeExact_issuance _ taken
  rw [Balances.reapedDust_of_preserve _ pos (Balances.le_reducible_of_takeExact _ taken)] at issuance
  have sum : c.supply = c.balances.totalIssuance + c.collectedFees + c.poolValue +
    c.pendingCoinbaseFee := rfl
  have credited : satAdd u128Max c.collectedFees fee = c.collectedFees + fee := satAdd_eq (by omega)
  show balances.totalIssuance + satAdd u128Max c.collectedFees fee + c.poolValue +
    c.pendingCoinbaseFee = _
  rw [credited]
  omega

/-! ## The end of a block -/

/-- Where the credit of a block went: into a note of `steps`, or into the books that carry it to a
later block. -/
structure Rewarded (cfg : Config) (c c' : Chain) (steps : ℕ) : Prop where
  issuance_eq : c'.balances.totalIssuance = c.balances.totalIssuance
  pool_eq : c'.poolValue = c.poolValue + steps * poolStep
  conserved : c'.collectedFees + c'.pendingCoinbaseFee + steps * poolStep =
    c.collectedFees + c.pendingCoinbaseFee + emission cfg c.supply
  note : steps = 0 ∧ c'.tree = c.tree ∨
    c'.tree.leafCount = c.tree.leafCount + 1 ∧ c'.coinbaseValues c.tree.leafCount = some steps

theorem Rewarded.supply_eq {steps : ℕ} (h : Rewarded cfg c c' steps) :
    c'.supply = c.supply + emission cfg c.supply := by
  have conserved := h.conserved
  rw [Chain.supply, h.issuance_eq, h.pool_eq]
  unfold Chain.supply at conserved ⊢
  omega

/-- A minted credit: the note takes whole steps of the credit and the pending fee, the change
stays pending. -/
theorem MintChecked.rewarded {credit dust : ℕ} {inner commitment : Hash256}
    (checked : MintChecked H c credit inner commitment)
    (total : credit + dust = c.minerGross cfg)
    (bound : c.minerGross cfg + c.poolValue + c.pendingCoinbaseFee ≤ u128Max) :
    Rewarded cfg c ((c.minted credit commitment).deferred dust none) (coinbaseSteps c credit) := by
  have held : satAdd u128Max credit c.pendingCoinbaseFee = credit + c.pendingCoinbaseFee :=
    satAdd_eq (by omega)
  -- What the note does not take is the remainder, which goes back to pending.
  have split := Nat.div_add_mod' (credit + c.pendingCoinbaseFee) poolStep
  have steps : coinbaseSteps c credit = (credit + c.pendingCoinbaseFee) / poolStep := by
    rw [coinbaseSteps, held]
  have value : satMul u128Max (coinbaseSteps c credit) poolStep =
      coinbaseSteps c credit * poolStep := Nat.min_eq_left (by rw [steps]; omega)
  exact {
    issuance_eq := rfl
    pool_eq := by
      show satAdd u128Max c.poolValue (satMul u128Max (coinbaseSteps c credit) poolStep) = _
      rw [value]
      exact satAdd_eq (by rw [steps]; omega)
    conserved := by
      show dust + satAdd u128Max credit c.pendingCoinbaseFee % poolStep + _ = _
      rw [held, steps]
      unfold Chain.minerGross at total
      omega
    note := by
      refine .inr ⟨(remainingCapacity_append _ checked.capacity).1, ?_⟩
      exact Function.update_self .. }

/-- **Every path of a block end** keeps the credit whole. -/
theorem payRewards_rewarded (H : Poseidon2) (cfg : Config) (c : Chain) (h : c.supply ≤ u128Max) :
    ∃ steps, Rewarded cfg c (c.payRewards H cfg) steps := by
  rcases payRewards_cases H cfg c h with ⟨payload, hpay⟩ | ⟨inner, commitment, checked, hpay⟩
  · refine ⟨0, ?_⟩
    rw [hpay]
    exact {
      issuance_eq := rfl
      pool_eq := by
        rw [Nat.zero_mul]
        rfl
      conserved := by
        show c.collectedFees + emission cfg c.supply + c.pendingCoinbaseFee + _ = _
        omega
      note := .inl ⟨rfl, rfl⟩ }
  · refine ⟨_, hpay ▸ checked.rewarded (quantize_sum _) ?_⟩
    have capped := emission_le cfg c.supply
    have cap := cfg.maxSupply_le
    unfold Chain.minerGross
    unfold Chain.supply at h capped ⊢
    omega

theorem supply_payRewards (H : Poseidon2) (cfg : Config) (c : Chain) (h : c.supply ≤ u128Max) :
    (c.payRewards H cfg).supply = c.supply + emission cfg c.supply := by
  obtain ⟨_, rewarded⟩ := payRewards_rewarded H cfg c h
  exact rewarded.supply_eq

theorem supply_nextBlock (H : Poseidon2) (cfg : Config) (c : Chain) (env : Environment)
    (h : c.supply ≤ u128Max) :
    (c.nextBlock H cfg env).supply = c.supply + emission cfg c.supply :=
  supply_payRewards H cfg c h

/-! ## Runs -/

/-- **No operation takes the supply above the cap**, or further above it. -/
theorem Effect.supply_le {op : Op} (effect : Effect H cfg c op c') (h : c.supply ≤ u128Max) :
    c'.supply ≤ max c.supply cfg.maxSupply := by
  cases effect with
  | free => exact le_max_left ..
  | fee pos taken => exact le_max_of_le_left (supply_feeTaken h pos taken).le
  | shield check burn => exact le_max_of_le_left (Nat.le.intro (supply_shielded h burn))
  | settle check =>
    exact le_max_of_le_left (Nat.le.intro ((checkSettlement_ok check).supply_settled h))
  | coinbase => exact le_max_left ..
  | endBlock env =>
    have capped := emission_le cfg c.supply
    rw [supply_nextBlock H cfg c env h]
    omega

/-- Balances are 128-bit, and stay so. -/
theorem run_supply_le (H : Poseidon2) (cfg : Config) {c : Chain} {bound : ℕ}
    (hc : c.supply ≤ bound) (cap : cfg.maxSupply ≤ bound) (width : bound ≤ u128Max)
    (ops : List Op) : (c.run H cfg ops).supply ≤ bound :=
  run_invariant (P := fun c => c.supply ≤ bound) (A := fun _ _ => True)
    (fun _ _ _ hc _ effect =>
      le_trans (effect.supply_le (le_trans hc width)) (max_le hc cap)) hc (along_true _ _ _)

/-- **Supply conservation and cap.** From every state at or below the cap and over every run: the
supply stays at or below it; a block end raises it by exactly the scheduled share of what is left,
and its credit is in a note or still in the books; a settlement lowers it by exactly the burned
share; fees leave it unchanged; and a shield lowers it by exactly the remainder below the
existential deposit that is reaped from an account with nothing reserved. -/
theorem supply_conserved (H : Poseidon2) (cfg : Config) (c : Chain)
    (h : c.supply ≤ cfg.maxSupply) (ops : List Op) :
    let s := c.run H cfg ops
    s.supply ≤ cfg.maxSupply ∧
    (s.payRewards H cfg).supply = s.supply + (cfg.maxSupply - s.supply) / cfg.emissionDivisor ∧
    (∃ steps, Rewarded cfg s (s.payRewards H cfg) steps) ∧
    (∀ bundle outputs,
      (∃ e, s.dispatch H cfg (.settle bundle outputs) = (.error e, s)) ∨
      ∃ plan s', checkSettlement H cfg s bundle outputs = .ok plan ∧
        s.dispatch H cfg (.settle bundle outputs) = (.ok (), s') ∧
        s'.supply + cfg.feeBurnRate.mulCeil plan.feeSteps * poolStep = s.supply) ∧
    (∀ who value inner ciphertext,
      (∃ e, s.dispatch H cfg (.shield who value inner ciphertext) = (.error e, s)) ∨
      ∃ s', s.dispatch H cfg (.shield who value inner ciphertext) = (.ok (), s') ∧
        s'.supply + Balances.reapedDust cfg.existentialDeposit (s.balances.account who) value =
          s.supply) ∧
    (∀ who fee, (s.step H cfg (.collectFee who fee)).supply = s.supply) := by
  intro s
  have capped : s.supply ≤ cfg.maxSupply := run_supply_le H cfg h le_rfl cfg.maxSupply_le ops
  have width := le_trans capped cfg.maxSupply_le
  refine ⟨capped, supply_payRewards H cfg s width, payRewards_rewarded H cfg s width, ?_, ?_, ?_⟩
  · intro bundle outputs
    refine (dispatch_cases H cfg s (.settle bundle outputs)).imp_right ?_
    rintro ⟨s', done, effect⟩
    cases effect with
    | settle check => exact ⟨_, _, check, done, (checkSettlement_ok check).supply_settled width⟩
  · intro who value inner ciphertext
    refine (dispatch_cases H cfg s (.shield who value inner ciphertext)).imp_right ?_
    rintro ⟨s', done, effect⟩
    cases effect with
    | shield check burn => exact ⟨_, done, supply_shielded width burn⟩
  · intro who fee
    rcases step_cases H cfg s (.collectFee who fee) with same | effect
    · rw [same]
    · generalize s.step H cfg (.collectFee who fee) = s' at effect ⊢
      cases effect with
      | free => rfl
      | fee pos taken => exact supply_feeTaken width pos taken

/-- A block that shields, collects a fee and settles: the settlement burned half of its fee of ten
steps. -/
theorem supply_conserved_sample :
    let c : Chain := { Sample.settling with balances := Sample.balances (10 ^ 13) }
    let s := c.run sampleSponge runtime [.shield 0 poolStep 0 [], .collectFee 0 7,
      .settle ⟨[Sample.segment]⟩ Sample.outputsOf]
    c.supply ≤ runtime.maxSupply ∧ s.supply + 5 * poolStep = c.supply ∧ s.collectedFees = 7 ∧
      (s.payRewards sampleSponge runtime).supply =
        s.supply + (21000000 * 10 ^ 12 - s.supply) / 5000000 := by
  intro c s
  have cap : c.supply ≤ runtime.maxSupply := by decide
  exact ⟨cap, by decide +kernel, by decide +kernel,
    (supply_conserved sampleSponge runtime c cap _).2.1⟩

/-- A shield need not leave the supply unchanged: one step out of an account that holds half a
deposit more destroys the half. -/
theorem shield_reaps_dust :
    (Sample.genesis 10500000000).supply ≤ runtime.maxSupply ∧
      ∃ s', (Sample.genesis 10500000000).dispatch sampleSponge runtime
          (.shield 0 10000000000 0 []) = (.ok (), s') ∧
        s'.supply + 500000000 = (Sample.genesis 10500000000).supply := by
  refine ⟨by decide, _, Prod.ext (by decide +kernel) rfl, by decide +kernel⟩

end Qnero
