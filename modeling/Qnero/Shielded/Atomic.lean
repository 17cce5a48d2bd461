import Qnero.Batch.PrivateBatch
import Qnero.Shielded.Entry

/-!
# Settlements are all or nothing

Not because the dispatch layer rolls back, but because everything is decided before the first
write. `settle_all_or_nothing` is about the bare call: either it is refused with nothing written,
or every step behind the checks succeeds.
-/

namespace Qnero

open Machine

variable {H : Poseidon2} {cfg : Config} {c : Chain} {bundle : SettlementBundle}
  {outputs : List ShieldedOutput} {plan : PlannedSettlement}

/-- Every commitment of the bundle was encoded from field elements. -/
def SettlementBundle.FromFelts (bundle : SettlementBundle) : Prop :=
  ∀ segment ∈ bundle.segments, ∀ slot ∈ segment.slots, ∀ i, ∃ d, slot.commitments i = digestBytes d

theorem SettlementBundle.FromFelts.canonical (h : bundle.FromFelts) :
    ∀ slot ∈ plan.written bundle, ∀ i, (slot.commitments i).Canonical := by
  intro slot hslot i
  obtain ⟨segment, hsegment, hmem⟩ := mem_writtenSlots hslot
  obtain ⟨d, hd⟩ := h segment hsegment slot hmem i
  rw [hd]
  exact canonical_digestBytes d

/-- Whatever is read off a vector encodes field elements. -/
theorem fromFelts_ofInputs (batches : List PrivateBatchPublicInputs) :
    SettlementBundle.FromFelts ⟨batches.map Segment.ofInputs⟩ := by
  intro segment hsegment slot hslot i
  obtain ⟨inputs, -, rfl⟩ := List.mem_map.1 hsegment
  obtain ⟨published, -, rfl⟩ := List.mem_map.1 hslot
  exact ⟨published.commitments i, rfl⟩

theorem fromFelts_fromPrivateBatch (inputs : PrivateBatchPublicInputs) :
    (SettlementBundle.fromPrivateBatch inputs).FromFelts := by
  unfold SettlementBundle.fromPrivateBatch
  split
  · exact fromFelts_ofInputs []
  · exact fromFelts_ofInputs [inputs]

theorem fromFelts_fromPublicBatch (inputs : PublicBatchPublicInputs) :
    (SettlementBundle.fromPublicBatch inputs).FromFelts :=
  fromFelts_ofInputs inputs.settleableBatches

theorem Planned.leafCount_le (h : Planned cfg c bundle outputs plan) :
    c.tree.leafCount + 2 * plan.slots ≤ u64Max := by
  have cap : capacityAtDepth circuitMaxTreeDepth = 4 ^ 20 := by decide
  have small : (4 : ℕ) ^ 20 < u64Max := by decide
  have := h.capacity
  rw [ZkTree.remainingCapacity, cap] at this
  omega

/-- What a settlement has done, read off the storage. -/
structure Settled (c c' : Chain) (bundle : SettlementBundle) (plan : PlannedSettlement) : Prop where
  slots_eq : plan.slots = (plan.written bundle).length
  leafCount_eq : c'.tree.leafCount = c.tree.leafCount + 2 * plan.slots
  leaves_eq : ∀ i, c'.tree.leaves i =
    if c.tree.leafCount ≤ i ∧ i < c.tree.leafCount + 2 * plan.slots then
      (commitmentsOf (plan.written bundle))[i - c.tree.leafCount]?
    else c.tree.leaves i
  leafBlocks_eq : ∀ i, c'.leafBlocks i =
    if c.tree.leafCount ≤ i ∧ i < c.tree.leafCount + 2 * plan.slots then some c.blockNumber
    else c.leafBlocks i
  usedNullifiers_eq : c'.usedNullifiers =
    c.usedNullifiers ∪ (nullifiersOf (plan.written bundle)).toFinset
  poolValue_eq : c'.poolValue + plan.feeSteps * poolStep = c.poolValue
  outputsWritten_eq : c'.outputsWritten = c.outputsWritten + 2 * plan.slots

theorem Planned.settled (h : Planned cfg c bundle outputs plan) :
    Settled c (c.settled cfg bundle plan) bundle plan := by
  have slots := h.slots_eq
  have room := h.leafCount_le
  have budget := h.outputBudget
  have limit := cfg.maxOutputsPerBlock_lt
  have frame {α : Type} (f : Chain → α)
      (hf : ∀ c pool pendingFee, f (c.setPool pool pendingFee) = f c) :
      f (c.settled cfg bundle plan) = f (c.putSlots (plan.written bundle)) :=
    chargeFee_frame f hf ..
  exact {
    slots_eq := slots
    leafCount_eq := by
      rw [settled_tree, ZkTree.leafCount_appendAll (by rw [length_commitmentsOf, ← slots]; exact room),
        length_commitmentsOf, ← slots]
    leaves_eq := fun i => by
      rw [settled_tree, ZkTree.leaves_appendAll (by rw [length_commitmentsOf, ← slots]; exact room),
        length_commitmentsOf, ← slots]
    leafBlocks_eq := fun i => by
      rw [frame Chain.leafBlocks fun _ _ _ => rfl, slots]
      exact putSlots_leafBlocks (by rw [← slots]; exact room) i
    usedNullifiers_eq := settled_usedNullifiers ..
    poolValue_eq := by
      have unchanged := putSlots_frame Chain.poolValue (fun _ _ => rfl) c (plan.written bundle)
      have backed := h.fee_backed
      show (c.putSlots (plan.written bundle)).poolValue - plan.feeSteps * poolStep + _ = _
      rw [unchanged]
      omega
    outputsWritten_eq := by
      rw [frame Chain.outputsWritten fun _ _ _ => rfl, slots]
      exact putSlots_outputsWritten (by rw [← slots]; omega) }

/-- **All or nothing, without a rollback.** For a bundle of field elements either the check fails
and nothing is written, or the call succeeds with exactly the planned writes. A shield fails at its
checks or at its burn, with nothing written; behind the burn it succeeds, unless its commitment is
a preimage of zero found in the hash. -/
theorem settle_all_or_nothing (H : Poseidon2) (cfg : Config) (c : Chain)
    (bundle : SettlementBundle) (outputs : List ShieldedOutput) (hfelts : bundle.FromFelts) :
    ((∃ e, checkSettlement H cfg c bundle outputs = .error e ∧
        exec (settle H cfg bundle outputs) c = (.error (.shielded e), c)) ∨
      ∃ plan c', checkSettlement H cfg c bundle outputs = .ok plan ∧
        exec (settle H cfg bundle outputs) c = (.ok (), c') ∧ Settled c c' bundle plan) ∧
    ∀ who value inner ciphertext, chainCommitment H inner (value / poolStep) ≠ some 0 →
      (∃ e, shieldCheck H cfg c value inner ciphertext = .error e ∧
        exec (shield H cfg who value inner ciphertext) c = (.error (.shielded e), c)) ∨
      (∃ e, c.balances.burnFrom cfg.existentialDeposit who value .expendable = .error e ∧
        exec (shield H cfg who value inner ciphertext) c = (.error (.balances e), c)) ∨
      ∃ balances c',
        c.balances.burnFrom cfg.existentialDeposit who value .expendable = .ok balances ∧
        exec (shield H cfg who value inner ciphertext) c = (.ok (), c') := by
  constructor
  · cases hcheck : checkSettlement H cfg c bundle outputs with
    | error e => exact .inl ⟨e, rfl, exec_settle_error hcheck⟩
    | ok plan =>
      exact .inr ⟨plan, _, rfl, exec_settle hcheck hfelts.canonical,
        (checkSettlement_ok hcheck).settled⟩
  · intro who value inner ciphertext hne
    refine (exec_shield_cases H cfg c who value inner ciphertext).imp_right (Or.imp_right ?_)
    rintro ⟨commitment, balances, hcheck, hburn, h⟩
    have nonzero : commitment ≠ 0 := fun zero =>
      hne (zero ▸ (shieldCheck_ok hcheck).commitment_eq)
    rw [if_neg nonzero] at h
    exact ⟨balances, _, hburn, h⟩

/-! ## A settlement that goes through

The sample spend, submitted in block two against the hash of block one.
-/

namespace Sample

/-- The header bytes of suite one, and padding up to its length. -/
def ciphertext : List UInt8 := 0 :: 1 :: List.replicate 1790 0

def segment : Segment := ⟨digestBytes spend.blockHash, 1, [RealSlot.ofSlot spend.slot]⟩

/-- One account, and nothing else issued. -/
def balances (free : ℕ) : Balances where
  account who := if who = 0 then ⟨free, 0, 0, 1, 0, 0⟩ else .dead
  totalIssuance := free
  covered s := by
    calc ∑ who ∈ s, (if who = 0 then (⟨free, 0, 0, 1, 0, 0⟩ : AccountInfo) else .dead).total
        = ∑ who ∈ s, if who = 0 then free else 0 :=
          Finset.sum_congr rfl fun who _ => by split <;> rfl
      _ ≤ free := by
          rw [Finset.sum_ite_eq']
          split <;> omega

/-- The first block: nothing shielded yet. -/
def genesis (free : ℕ) : Chain where
  blockNumber := 1
  blockHash _ := 0
  hasAuthor := true
  tree := .empty
  usedNullifiers := ∅
  outputsWrittenThisBlock := (0, 0)
  leafBlocks _ := none
  entryCount := 0
  poolValue := 0
  pendingCoinbase := none
  pendingCoinbaseFee := 0
  coinbaseValues _ := none
  balances := balances free
  collectedFees := 0

/-- Block two, with the hash of block one on record. -/
def settling : Chain :=
  { genesis 0 with
    blockNumber := 2
    blockHash := Function.update (fun _ => 0) 1 (digestBytes spend.blockHash)
    poolValue := 50 * poolStep }

def outputsOf : List ShieldedOutput := [⟨ciphertext, ciphertext⟩]

theorem check_settling : checkSettlement sampleSponge runtime settling ⟨[segment]⟩ outputsOf =
    .ok ⟨10, 1, 0, 3584, [true]⟩ := by
  decide +kernel

theorem fromFelts_segment : SettlementBundle.FromFelts ⟨[segment]⟩ := by
  intro s hs slot hslot i
  obtain rfl := List.mem_singleton.1 hs
  obtain rfl := List.mem_singleton.1 hslot
  exact ⟨_, rfl⟩

end Sample

/-- The settlement goes through, and a shield out of an account with nothing in it fails at its
burn. -/
theorem settle_all_or_nothing_sample :
    (∃ plan c', exec (settle sampleSponge runtime ⟨[Sample.segment]⟩ Sample.outputsOf)
        Sample.settling = (.ok (), c') ∧ Settled Sample.settling c' ⟨[Sample.segment]⟩ plan) ∧
      ∃ e, exec (shield sampleSponge runtime 0 poolStep 0 []) Sample.settling =
        (.error (.balances e), Sample.settling) := by
  obtain ⟨settles, shields⟩ := settle_all_or_nothing sampleSponge runtime Sample.settling
    ⟨[Sample.segment]⟩ Sample.outputsOf Sample.fromFelts_segment
  constructor
  · rcases settles with ⟨e, hcheck, -⟩ | ⟨plan, c', -, h⟩
    · rw [Sample.check_settling] at hcheck
      cases hcheck
    · exact ⟨plan, c', h⟩
  · have burns : (Sample.settling.balances.burnFrom runtime.existentialDeposit 0 poolStep
        .expendable).isOk = false := by decide +kernel
    have checks : (shieldCheck sampleSponge runtime Sample.settling poolStep 0 []).isOk := by
      decide +kernel
    rcases shields 0 poolStep 0 [] (by decide +kernel) with ⟨e, refused, -⟩ | ⟨e, -, h⟩ |
      ⟨balances, c', burned, -⟩
    · rw [refused] at checks
      cases checks
    · exact ⟨e, h⟩
    · rw [burned] at burns
      cases burns

end Qnero
