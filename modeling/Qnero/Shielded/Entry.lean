import Qnero.Shielded.Settle

/-!
# Value entering the pool

Two notes are created outside a spend proof: a shielded one, burned from an account, and a block's
coinbase. The chain computes their commitments from a public value and an `inner` it cannot open.
-/

namespace Qnero

open Plonkish Machine

section

variable (H : Poseidon2) (cfg : Config)

/-! ## Shielding -/

/-- The checks of `shield` in front of the burn; they return the commitment to append. -/
def shieldCheck (c : Chain) (value : ℕ) (inner : Hash256) (ciphertext : List UInt8) :
    Except Error Hash256 := do
  ensure (0 < value ∧ value % poolStep = 0) .valueNotQuantized
  ensure (value / poolStep ≤ u64Max) .valueOutOfRange
  ensure (value / poolStep ≤ maxValue) .valueOutOfRange
  let commitment ← okOr (chainCommitment H inner (value / poolStep)) .nonCanonicalInner
  ensure (ciphertext.length ≤ u32Max) .ciphertextTooLarge
  ensure (ciphertext.length ≤ cfg.maxCiphertextBytes) .ciphertextTooLarge
  ensure (1 ≤ c.tree.remainingCapacity) .treeFull
  c.ensureOutputCapacity cfg 1
  .ok commitment

def orBalances {α : Type} (x : Except BalancesError α) : Except DispatchError α :=
  x.mapError .balances

/-- Burn from the caller's account, and credit the pool with a note of the same value. -/
def shield (who : AccountId) (value : ℕ) (inner : Hash256) (ciphertext : List UInt8) :
    Runtime Unit := do
  let c ← Call.read
  let commitment ← Call.lift (orShielded (shieldCheck H cfg c value inner ciphertext))
  let balances ← Call.lift
    (orBalances (c.balances.burnFrom cfg.existentialDeposit who value .expendable))
  Call.write fun c => { c with balances := balances }
  Call.write fun c => { c with entryCount := satAdd u64Max c.entryCount 1 }
  let leafIndex ← treeInsert commitment
  Call.write fun c => c.recordOutputs 1
  Call.write fun c => { c with
    leafBlocks := Function.update c.leafBlocks leafIndex (some c.blockNumber) }
  Call.write fun c => { c with poolValue := satAdd u128Max c.poolValue value }

/-- The burn and the entry count, without the note. -/
def Chain.burned (c : Chain) (balances : Balances) : Chain :=
  { c with
    balances := balances
    entryCount := satAdd u64Max c.entryCount 1 }

/-- The state a shield leaves. -/
def Chain.shielded (c : Chain) (balances : Balances) (value : ℕ) (commitment : Hash256) : Chain :=
  ({ c with
      balances := balances
      entryCount := satAdd u64Max c.entryCount 1
      poolValue := satAdd u128Max c.poolValue value }.putLeaf commitment).recordOutputs 1

/-! ## The coinbase -/

/-- The inherent: one payload a block, of a block that has an author, without a ciphertext. -/
def coinbaseCheck (c : Chain) (inner : Hash256) (ciphertext : List UInt8) : Except Error Unit := do
  ensure (c.pendingCoinbase.isNone) .coinbaseAlreadySet
  ensure (c.hasAuthor) .noBlockAuthor
  ensure (ciphertext = []) .coinbasePayloadNotSupported
  ensure ((chainCommitment H inner 0).isSome) .nonCanonicalInner

def coinbase (inner : Hash256) (ciphertext : List UInt8) : Runtime Unit := do
  let c ← Call.read
  Call.lift (orShielded (coinbaseCheck H c inner ciphertext))
  Call.write fun c => { c with pendingCoinbase := some ⟨inner, ciphertext⟩ }

/-- The value of the note a credit of `minted` becomes, if it becomes one: the credit and the
pending fee in whole steps. -/
def coinbaseSteps (c : Chain) (minted : ℕ) : ℕ :=
  satAdd u128Max minted c.pendingCoinbaseFee / poolStep

/-- The commitment of a coinbase note: the payload is derived, the value a 62-bit count of steps. -/
def coinbaseCommitment (payload : CoinbasePayload) (steps : ℕ) : Option Hash256 :=
  if payload.ciphertext = [] ∧ steps ≤ u64Max ∧ steps ≠ 0 ∧ steps ≤ maxValue then
    chainCommitment H payload.inner steps
  else none

/-- Mint the block's coinbase note; what could not be minted is returned. -/
def mintCoinbase (c : Chain) (minted : ℕ) : Except ℕ Unit × Chain :=
  match c.pendingCoinbase with
  | none => (.error minted, c)
  | some payload =>
    let taken := { c with pendingCoinbase := none }
    let steps := coinbaseSteps c minted
    let change := satAdd u128Max minted c.pendingCoinbaseFee % poolStep
    match coinbaseCommitment H payload steps with
    | none => (.error minted, taken)
    | some commitment =>
      match c.tree.insertCommitment commitment with
      | .error _ => (.error minted, taken)
      | .ok (tree, leafIndex) =>
        (.ok (), { taken with
          tree := tree
          leafBlocks := Function.update c.leafBlocks leafIndex (some c.blockNumber)
          coinbaseValues := Function.update c.coinbaseValues leafIndex (some steps)
          poolValue := satAdd u128Max c.poolValue (satMul u128Max steps poolStep)
          pendingCoinbaseFee := change })

end

/-! ## What they do -/

variable {H : Poseidon2} {cfg : Config} {c : Chain}

variable {inner commitment : Hash256} {value : ℕ}

theorem canonical_chainCommitment (h : chainCommitment H inner value = some commitment) :
    commitment.Canonical := by
  obtain ⟨d, -, rfl⟩ := Option.map_eq_some_iff.1 h
  exact canonical_digestBytes _

/-- What the checks of `shield` establish. -/
structure ShieldChecked (H : Poseidon2) (cfg : Config) (c : Chain) (value : ℕ) (inner : Hash256)
    (commitment : Hash256) : Prop where
  value_pos : 0 < value
  quantized : value % poolStep = 0
  steps_le : value / poolStep ≤ maxValue
  commitment_eq : chainCommitment H inner (value / poolStep) = some commitment
  capacity : 1 ≤ c.tree.remainingCapacity
  outputBudget : c.outputsWritten + 1 ≤ cfg.maxOutputsPerBlock

theorem shieldCheck_ok {ciphertext : List UInt8}
    (h : shieldCheck H cfg c value inner ciphertext = .ok commitment) :
    ShieldChecked H cfg c value inner commitment := by
  simp only [shieldCheck, bind_ok_iff, ensure_ok_iff, okOr_ok_iff, ensureOutputCapacity_ok,
    Except.ok.injEq, exists_const] at h
  obtain ⟨⟨hpos, hq⟩, -, hle, _, hcm, -, -, hcap, hout, rfl⟩ := h
  exact ⟨hpos, hq, hle, hcm, hcap, hout⟩

/-- **After the burn a shield cannot fail.** -/
theorem exec_shield {who : AccountId} {ciphertext : List UInt8} {balances : Balances}
    (hcheck : shieldCheck H cfg c value inner ciphertext = .ok commitment)
    (hburn : c.balances.burnFrom cfg.existentialDeposit who value .expendable = .ok balances)
    (hne : commitment ≠ 0) :
    exec (shield H cfg who value inner ciphertext) c =
      (.ok (), c.shielded balances value commitment) := by
  have checked := shieldCheck_ok hcheck
  have canonical := canonical_chainCommitment checked.commitment_eq
  have lifted : orShielded (shieldCheck H cfg c value inner ciphertext) = .ok commitment :=
    mapError_ok_iff.2 hcheck
  have burned : orBalances (c.balances.burnFrom cfg.existentialDeposit who value .expendable) =
      .ok balances := mapError_ok_iff.2 hburn
  rw [shield, exec_read_bind, exec_lift_bind_ok lifted, exec_lift_bind_ok burned, exec_write_bind,
    exec_write_bind, exec_bind_ok (exec_treeInsert hne canonical (by exact checked.capacity)),
    exec_write_bind, exec_write_bind, exec_write]
  rfl

/-- The ways a shield ends, and what it has written by then. Only a commitment that hashes to
zero would be refused behind the burn. -/
theorem exec_shield_cases (H : Poseidon2) (cfg : Config) (c : Chain) (who : AccountId) (value : ℕ)
    (inner : Hash256) (ciphertext : List UInt8) :
    (∃ e, shieldCheck H cfg c value inner ciphertext = .error e ∧
      exec (shield H cfg who value inner ciphertext) c = (.error (.shielded e), c)) ∨
    (∃ e, c.balances.burnFrom cfg.existentialDeposit who value .expendable = .error e ∧
      exec (shield H cfg who value inner ciphertext) c = (.error (.balances e), c)) ∨
    ∃ commitment balances, shieldCheck H cfg c value inner ciphertext = .ok commitment ∧
      c.balances.burnFrom cfg.existentialDeposit who value .expendable = .ok balances ∧
      exec (shield H cfg who value inner ciphertext) c =
        if commitment = 0 then (.error (.zkTree .zeroCommitment), c.burned balances)
        else (.ok (), c.shielded balances value commitment) := by
  cases hcheck : shieldCheck H cfg c value inner ciphertext with
  | error e =>
    refine .inl ⟨e, rfl, ?_⟩
    rw [shield, exec_read_bind, exec_lift_bind_error]
    rw [hcheck]
    rfl
  | ok commitment =>
    have lifted : orShielded (shieldCheck H cfg c value inner ciphertext) = .ok commitment :=
      mapError_ok_iff.2 hcheck
    cases hburn : c.balances.burnFrom cfg.existentialDeposit who value .expendable with
    | error e =>
      refine .inr (.inl ⟨e, rfl, ?_⟩)
      rw [shield, exec_read_bind, exec_lift_bind_ok lifted, exec_lift_bind_error]
      rw [hburn]
      rfl
    | ok balances =>
      refine .inr (.inr ⟨commitment, balances, rfl, rfl, ?_⟩)
      split
      · next zero =>
        -- The tree refuses the zero hash, with the burn and the entry count already written.
        have burned : orBalances (c.balances.burnFrom cfg.existentialDeposit who value
            .expendable) = .ok balances := mapError_ok_iff.2 hburn
        rw [shield, exec_read_bind, exec_lift_bind_ok lifted, exec_lift_bind_ok burned,
          exec_write_bind, exec_write_bind, exec_bind_error (exec_treeInsert_zero zero)]
        rfl
      · next nonzero => exact exec_shield hcheck hburn nonzero

/-- What the tree accepts, it appends. -/
theorem insertCommitment_eq_ok {t t' : ZkTree} {commitment : Hash256} {index : ℕ}
    (h : t.insertCommitment commitment = .ok (t', index)) :
    commitment ≠ 0 ∧ 0 < t.remainingCapacity ∧ t' = (t.appendLeafHash commitment).1 ∧
      index = t.leafCount := by
  unfold ZkTree.insertCommitment at h
  split at h
  · cases h
  · next hzero =>
    split at h
    · cases h
    · split at h
      · cases h
      · next hroom =>
        obtain ⟨rfl, rfl⟩ := Prod.mk.inj (Except.ok.inj h)
        exact ⟨hzero, Nat.pos_of_ne_zero hroom, rfl, rfl⟩

/-- The state a minted coinbase leaves. -/
def Chain.minted (c : Chain) (minted : ℕ) (commitment : Hash256) : Chain :=
  { c.putLeaf commitment with
    pendingCoinbase := none
    coinbaseValues :=
      Function.update c.coinbaseValues c.tree.leafCount (some (coinbaseSteps c minted))
    poolValue := satAdd u128Max c.poolValue (satMul u128Max (coinbaseSteps c minted) poolStep)
    pendingCoinbaseFee := satAdd u128Max minted c.pendingCoinbaseFee % poolStep }

theorem coinbaseCommitment_eq_some {payload : CoinbasePayload} {steps : ℕ} {commitment : Hash256}
    (h : coinbaseCommitment H payload steps = some commitment) :
    steps ≤ maxValue ∧ chainCommitment H payload.inner steps = some commitment := by
  unfold coinbaseCommitment at h
  split at h
  · next guards => exact ⟨guards.2.2.2, h⟩
  · cases h

/-- A coinbase that is minted. -/
structure MintChecked (H : Poseidon2) (c : Chain) (minted : ℕ) (inner commitment : Hash256) :
    Prop where
  inner_eq : ∃ payload, c.pendingCoinbase = some payload ∧ payload.inner = inner
  steps_le : coinbaseSteps c minted ≤ maxValue
  commitment_eq : chainCommitment H inner (coinbaseSteps c minted) = some commitment
  commitment_ne_zero : commitment ≠ 0
  capacity : 0 < c.tree.remainingCapacity

/-- **A credit is returned whole or becomes a note.** In both cases the payload is used up. -/
theorem mintCoinbase_cases (H : Poseidon2) (c : Chain) (minted : ℕ) :
    mintCoinbase H c minted = (.error minted, { c with pendingCoinbase := none }) ∨
      ∃ inner commitment, MintChecked H c minted inner commitment ∧
        mintCoinbase H c minted = (.ok (), c.minted minted commitment) := by
  cases hpayload : c.pendingCoinbase with
  | none =>
    -- Without a payload the state does not change, and it had none to use up.
    have : { c with pendingCoinbase := none } = c := by rw [← hpayload]
    rw [mintCoinbase, hpayload, this]
    exact .inl rfl
  | some payload =>
    cases hcm : coinbaseCommitment H payload (coinbaseSteps c minted) with
    | none => exact .inl (by simp only [mintCoinbase, hpayload, hcm])
    | some commitment =>
      obtain ⟨hle, hchain⟩ := coinbaseCommitment_eq_some hcm
      cases hins : c.tree.insertCommitment commitment with
      | error e => exact .inl (by simp only [mintCoinbase, hpayload, hcm, hins])
      | ok inserted =>
        obtain ⟨tree, index⟩ := inserted
        obtain ⟨hne, hroom, rfl, rfl⟩ := insertCommitment_eq_ok hins
        refine .inr ⟨payload.inner, commitment,
          ⟨⟨payload, hpayload, rfl⟩, hle, hchain, hne, hroom⟩, ?_⟩
        simp only [mintCoinbase, hpayload, hcm, hins]
        rfl

end Qnero
