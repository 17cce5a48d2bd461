import Qnero.Dispatch
import Qnero.Leaf.Soundness

/-!
# Filling the leaf circuit

A spend witness is what the wallet knows: byte digests, 64-bit values, paths as long as the tree is
deep. `fillWitness` validates its shape and writes it into the wires of the circuit. The two are
written separately, so which witnesses a proof exists for is a theorem: `fillWitness_holds_iff`
lists the conditions, and every one of them is needed.

The conditions are read off the gates in `holds_spendCircuit_iff`. With every list admitted to the
sponge (`Set.univ`) the hash gates ask nothing, so satisfying the circuit is satisfying the rest.
-/

namespace Qnero

open Plonkish Builder

/-! ## The witness -/

structure HeaderInputs where
  parentHash : Digest
  blockNumber : UInt32
  /-- Blake2-256, already reduced. -/
  stateRoot : Digest
  /-- Blake2-256, already reduced. -/
  extrinsicsRoot : Digest
  zkTreeRoot : Digest
  digest : Fin 28 → Felt

/-- One input note, with the keys that authorize spending it. -/
structure InputNote where
  ask : Digest
  nk : Digest
  value : UInt64
  rho : Digest
  r : Digest
  path : MerklePath
  isDummy : Bool

/-- One output note; its `rho` is derived from the nullifiers of the leaf. -/
structure OutputNote where
  pk : Digest
  value : UInt64
  r : Digest

structure SpendWitness where
  header : HeaderInputs
  /-- Depth of the tree the header's root belongs to. -/
  depth : ℕ
  inputs : Fin 2 → InputNote
  outputs : Fin 2 → OutputNote
  fee : UInt64
  ctDigest : Digest

/-- A `u64` as a field element, reduced if it is not canonical. -/
def feltOfU64 (value : UInt64) : Felt := (value.toNat : Felt)

def HeaderInputs.preimage (header : HeaderInputs) : List Felt :=
  headerPreimage header.parentHash (header.blockNumber.toNat : Felt) header.stateRoot
    header.extrinsicsRoot header.zkTreeRoot (List.ofFn header.digest)

section

variable (H : Poseidon2)

def HeaderInputs.blockHash (header : HeaderInputs) : Digest := H.hashToFelts header.preimage

namespace InputNote

def pk (input : InputNote) : Digest := derivePk H input.ask input.nk

def nullifier (input : InputNote) : Digest :=
  if input.isDummy then dummyNullifier H input.nk input.rho input.r
  else Qnero.nullifier H input.nk input.rho input.r

def commitment (input : InputNote) : Digest :=
  commitmentFromInner H (noteInner H (input.pk H) input.rho input.r) (feltOfU64 input.value)

end InputNote

def OutputNote.commitmentWithRho (output : OutputNote) (rho : Digest) : Digest :=
  commitmentFromInner H (noteInner H output.pk rho output.r) (feltOfU64 output.value)

end

/-! ## Validation -/

/-- Reject a `u64` the field cannot hold, before it is silently reduced. -/
def ensureCanonical (value : UInt64) (what : String) : Except String Unit :=
  let v := value.toNat
  ensure (v < goldilocks) (s!"{what} is {v}, at or above the Goldilocks modulus {goldilocks}; " ++
    "the circuit would range-check its reduction instead")

/-- The shape of one input's path: as many levels as the tree, every slot one of the four. -/
def validatePath (index : ℕ) (path : MerklePath) (depth : ℕ) : Except String Unit := do
  let levels := path.siblings.length
  let slots := path.positions.length
  ensure (levels = slots) s!"input {index} path has {levels} sibling levels and {slots} positions"
  ensure (levels = depth) s!"input {index} path has depth {levels}, tree depth is {depth}"
  path.positions.zipIdx.forM fun (position, level) =>
    ensure (position < arity)
      s!"input {index} position {position} at level {level} is not in 0..{arity}"

namespace SpendWitness

/-- Structural validation. Values in range and the contract of dummies are left to the circuit. -/
def validate (w : SpendWitness) : Except String Unit := do
  let depth := w.depth
  (List.finRange 2).forM fun index => ensureCanonical (w.inputs index).value s!"input {index} value"
  (List.finRange 2).forM fun index =>
    ensureCanonical (w.outputs index).value s!"output {index} value"
  ensureCanonical w.fee "fee"
  ensure (1 ≤ depth ∧ depth ≤ maxDepth) s!"tree depth {depth} must be in 1..={maxDepth}"
  (List.finRange 2).forM fun index => validatePath index (w.inputs index).path depth

variable (H : Poseidon2)

/-- `rho` of output note `index`, over both nullifiers the leaf publishes. -/
def outputRho (w : SpendWitness) (index : Fin 2) : Digest :=
  Qnero.outputRho H ((w.inputs 0).nullifier H) ((w.inputs 1).nullifier H) index

def outputCommitment (w : SpendWitness) (index : Fin 2) : Digest :=
  (w.outputs index).commitmentWithRho H (w.outputRho H index)

/-- The public inputs this witness produces, in layout order. -/
def publicInputs (w : SpendWitness) : List Felt :=
  felts (w.header.blockHash H) ++ [(w.header.blockNumber.toNat : Felt)] ++
    ((List.finRange 2).flatMap fun i => felts ((w.inputs i).nullifier H)) ++
    ((List.finRange 2).flatMap fun i => felts (w.outputCommitment H i)) ++
    [feltOfU64 w.fee] ++ felts w.ctDigest

end SpendWitness

/-! ## Filling -/

/-- The wires of a path. Levels past its end are inert: empty siblings, slot 0. -/
def MerklePath.fill (path : MerklePath) : MerklePathTargets where
  siblings level := path.siblings.getD level 0
  positions level := (path.positions.getD level 0 : ℕ)

def HeaderInputs.fill (header : HeaderInputs) : HeaderTargets where
  parentHash := header.parentHash
  blockNumber := (header.blockNumber.toNat : Felt)
  stateRoot := header.stateRoot
  extrinsicsRoot := header.extrinsicsRoot
  zkTreeRoot := header.zkTreeRoot
  digest := header.digest

def InputNote.fill (input : InputNote) : InputNoteTargets where
  ask := input.ask
  nk := input.nk
  rho := input.rho
  r := input.r
  value := feltOfU64 input.value
  path := input.path.fill
  isDummy := ofBool input.isDummy

def OutputNote.fill (output : OutputNote) : OutputNoteTargets where
  pk := output.pk
  r := output.r
  value := feltOfU64 output.value

section

variable (H : Poseidon2)

/-- The public wires get the values the witness implies, the private ones the witness itself. -/
def SpendWitness.fill (w : SpendWitness) : SpendTargets where
  blockHash := w.header.blockHash H
  nullifiers i := (w.inputs i).nullifier H
  commitments i := w.outputCommitment H i
  fee := feltOfU64 w.fee
  ctDigest := w.ctDigest
  header := w.header.fill
  depth := (w.depth : Felt)
  inputs i := (w.inputs i).fill
  outputs i := (w.outputs i).fill

/-- Write a witness into the circuit's targets. -/
def fillWitness (w : SpendWitness) : Except String SpendTargets := do
  w.validate
  pure (w.fill H)

end

variable {H : Poseidon2}

/-! ## What validation establishes -/

/-- A path of the shape the circuit expects at this depth. -/
structure MerklePath.Shaped (path : MerklePath) (depth : ℕ) : Prop where
  siblings_length : path.siblings.length = depth
  positions_length : path.positions.length = depth
  position_lt : ∀ p ∈ path.positions, p < 4

theorem validatePath_ok_iff {index depth : ℕ} {path : MerklePath} {u : Unit} :
    validatePath index path depth = .ok u ↔ path.Shaped depth := by
  simp only [validatePath, bind_ok_iff, ensure_ok_iff, forM_ok_iff]
  constructor
  · rintro ⟨-, sizes, -, levels, slots⟩
    refine ⟨levels, sizes ▸ levels, fun p hp => ?_⟩
    obtain ⟨i, hi, rfl⟩ := List.getElem_of_mem hp
    exact slots (path.positions[i], i) (List.mem_zipIdx_iff_getElem?.2 (by simp [hi]))
  · rintro ⟨levels, slots, positions⟩
    refine ⟨(), levels.trans slots.symm, (), levels, fun entry mem => ?_⟩
    exact positions _ (List.fst_mem_of_mem_zipIdx mem)

/-- What a validated witness satisfies: canonical values, a depth of the circuit, shaped paths. -/
structure SpendWitness.Valid (w : SpendWitness) : Prop where
  input_lt : ∀ i, (w.inputs i).value.toNat < goldilocks
  output_lt : ∀ i, (w.outputs i).value.toNat < goldilocks
  fee_lt : w.fee.toNat < goldilocks
  depth_pos : 1 ≤ w.depth
  depth_le : w.depth ≤ maxDepth
  path : ∀ i, (w.inputs i).path.Shaped w.depth

theorem SpendWitness.validate_ok_iff {w : SpendWitness} {u : Unit} :
    w.validate = .ok u ↔ w.Valid := by
  simp only [validate, ensureCanonical, bind_ok_iff, ensure_ok_iff, forM_ok_iff,
    validatePath_ok_iff, List.mem_finRange, true_implies]
  constructor
  · rintro ⟨-, inputs, -, outputs, -, fee, -, ⟨depthPos, depthLe⟩, paths⟩
    exact ⟨inputs, outputs, fee, depthPos, depthLe, paths⟩
  · rintro ⟨inputs, outputs, fee, depthPos, depthLe, paths⟩
    exact ⟨(), inputs, (), outputs, (), fee, (), ⟨depthPos, depthLe⟩, paths⟩

/-! ## The filled path -/

namespace MerklePath

variable {path : MerklePath} {depth : ℕ}

/-- The steps of a path, lowest first. -/
def steps (path : MerklePath) : List PathStep := path.positions.zip path.siblings

theorem Shaped.ofSteps_steps (h : path.Shaped depth) : ofSteps path.steps = path := by
  have sizes : path.positions.length = path.siblings.length := by
    rw [h.positions_length, h.siblings_length]
  cases path
  simp_all [ofSteps, steps, List.map_fst_zip, List.map_snd_zip]

theorem Shaped.root_eq (h : path.Shaped depth) (le : depth ≤ maxDepth) (leaf : Digest) :
    path.root H leaf = .ok (climb H leaf path.steps) := by
  have length : path.steps.length ≤ maxDepth := by
    rw [steps, List.length_zip, h.positions_length, h.siblings_length]
    omega
  have slots : ∀ s ∈ path.steps, s.1 < 4 := fun s hs => h.position_lt _ (List.of_mem_zip hs).1
  calc path.root H leaf = (ofSteps path.steps).root H leaf := by rw [h.ofSteps_steps]
    _ = .ok (climb H leaf path.steps) := root_ofSteps H length slots leaf

/-- Every wired slot is one of the four, the inert levels included. -/
theorem Shaped.fill_position (h : path.Shaped depth) (level : Fin 20) :
    (path.fill.positions level).val = path.positions.getD level 0 ∧
      path.positions.getD level 0 < 4 := by
  have lt : path.positions.getD level 0 < 4 := by
    rw [List.getD_eq_getElem?_getD]
    cases slot : path.positions[level.val]? with
    | none => simp
    | some p => exact h.position_lt p (List.mem_of_getElem? slot)
  exact ⟨ZMod.val_natCast_of_lt (lt_trans lt (by decide)), lt⟩

/-- The active levels of the filled wires are the path. -/
theorem Shaped.fill_steps (h : path.Shaped depth) (le : depth ≤ maxDepth) :
    path.fill.steps depth = path.steps := by
  have bound : depth ≤ 20 := le
  refine List.ext_getElem ?_ fun n hn hn' => ?_
  · simp [MerklePathTargets.steps, steps, h.positions_length, h.siblings_length, bound]
  · have lt : n < depth := by
      simp only [steps, List.length_zip, h.positions_length, h.siblings_length] at hn'
      omega
    have slot : n < path.positions.length := by rw [h.positions_length]; exact lt
    have sibling : n < path.siblings.length := by rw [h.siblings_length]; exact lt
    simp only [MerklePathTargets.steps, steps, List.getElem_map, List.getElem_take,
      List.getElem_finRange, List.getElem_zip, MerklePathTargets.step, (h.fill_position _).1]
    simp [fill, slot, sibling]

end MerklePath

/-! ## The gates, both ways -/

/-- With every list admitted, a walk asks for the slots to be in range, and nothing else. -/
theorem walkIn_univ {path : MerklePathTargets} {active : Fin 20 → Bool} {levels : List (Fin 20)}
    {current : Digest} : WalkIn H Set.univ path active current levels ↔
      ∀ level ∈ levels, (path.positions level).val < 4 := by
  induction levels generalizing current with
  | nil => simp [WalkIn]
  | cons level rest ih => simp [WalkIn, ih]

/-- The root the wires of a path lead to, with the flags of a depth. -/
def MerklePathTargets.rootWire (H : Poseidon2) (path : MerklePathTargets) (leaf : Digest)
    (depth : ℕ) : Wires Digest :=
  merkleRootFromPath H leaf path fun i => ofBool (decide (i.val < depth))

/-- **A shaped path is provable**: its wires satisfy the walk and lead where the path leads. -/
theorem MerklePath.Shaped.rootWire {path : MerklePath} {depth : ℕ} (h : path.Shaped depth)
    (le : depth ≤ maxDepth) (leaf : Digest) :
    (path.fill.rootWire H leaf depth).Holds Set.univ ∧
      path.root H leaf = .ok (path.fill.rootWire H leaf depth).value := by
  have walk : (path.fill.rootWire H leaf depth).Holds Set.univ :=
    holds_foldlM_merkleLevel.2 (walkIn_univ.2 fun level _ => by
      rw [(h.fill_position level).1]
      exact (h.fill_position level).2)
  have value := (merkleRootFromPath_value walk).1
  rw [h.fill_steps le] at value
  exact ⟨walk, by rw [h.root_eq le, MerklePathTargets.rootWire, value]⟩

theorem feltOfU64_val {value : UInt64} (h : value.toNat < goldilocks) :
    (feltOfU64 value).val = value.toNat := ZMod.val_natCast_of_lt h

theorem feltOfU64_eq_zero {value : UInt64} (h : value.toNat < goldilocks) :
    feltOfU64 value = 0 ↔ value = 0 := by
  rw [← ZMod.val_eq_zero, feltOfU64_val h, ← UInt64.toNat_inj]
  rfl

/-- The nullifier a filled slot publishes is the one its gates compute. -/
theorem InputNote.nullifier_eq (input : InputNote) : input.nullifier H =
    H.hashToFelts (nfInput (nullifierTag input.isDummy) input.nk input.rho input.r) := by
  unfold InputNote.nullifier nullifierTag
  cases input.isDummy <;> rfl

/-- What an input has to satisfy: its value in range, a dummy's zero, a real one's note under the
header's root. -/
structure InputNote.Spends (H : Poseidon2) (input : InputNote) (zkTreeRoot : Digest) : Prop where
  value_lt : input.value.toNat < 2 ^ valueBits
  dummy_value : input.isDummy = true → input.value = 0
  root_eq : input.isDummy = false → input.path.root H (input.commitment H) = .ok zkTreeRoot

variable {w : SpendWitness}

/-- The wires of an input satisfy its constraints exactly if it can be spent. -/
theorem holds_constrainInput_fill (valid : w.Valid) (i : Fin 2) :
    (constrainInput H (w.fill H) (fun l => ofBool (decide (l.val < w.depth))) i).Holds Set.univ ↔
      (w.inputs i).Spends H w.header.zkTreeRoot := by
  have flag : ((w.fill H).inputs i).isDummy = ofBool (w.inputs i).isDummy := rfl
  have value : ((w.fill H).inputs i).value.val = (w.inputs i).value.toNat :=
    feltOfU64_val (valid.input_lt i)
  obtain ⟨walk, root⟩ := (valid.path i).rootWire valid.depth_le ((w.inputs i).commitment H) (H := H)
  have nullifier := (w.inputs i).nullifier_eq (H := H)
  simp only [constrainInput, Circuit.holds_bind, holds_rangeCheck, mul, sub, Builder.not,
    Circuit.holds_pure, Circuit.pure_value, holds_connect, holds_gadget_derivePk,
    gadget_derivePk_value, holds_gadget_noteInner, gadget_noteInner_value,
    holds_gadget_noteCommitment, gadget_noteCommitment_value, Circuit.holds_arrayFromFn,
    holds_nullifierDomainTag, holds_gadget_noteNullifierTagged, gadget_noteNullifierTagged_value,
    holds_connectArrays, flag, value, nullifierDomainTag_value, Set.mem_univ, true_and, and_true]
  change _ ∧ feltOfU64 (w.inputs i).value * _ = 0 ∧
    ((w.inputs i).path.fill.rootWire H ((w.inputs i).commitment H) w.depth).Holds _ ∧
    (∀ limb, (((w.inputs i).path.fill.rootWire H ((w.inputs i).commitment H) w.depth).value limb -
      w.header.zkTreeRoot limb) * _ = 0) ∧ _ = (w.inputs i).nullifier H ↔ _
  constructor
  · rintro ⟨lt, zero, -, gated, -⟩
    refine ⟨lt, fun dummy => ?_, fun real => ?_⟩
    · rw [dummy, ofBool_true, mul_one] at zero
      exact (feltOfU64_eq_zero (valid.input_lt i)).1 zero
    · refine root.trans (congrArg Except.ok (funext fun limb => ?_))
      -- With the flag off the gated difference is the difference.
      have limbs := gated limb
      rw [real, ofBool_false, sub_zero, mul_one, sub_eq_zero] at limbs
      exact limbs
  · rintro ⟨lt, dummy, real⟩
    refine ⟨lt, ?_, walk, fun limb => ?_, nullifier.symm⟩
    · cases kind : (w.inputs i).isDummy with
      | false => rw [ofBool_false, mul_zero]
      | true => rw [(feltOfU64_eq_zero (valid.input_lt i)).2 (dummy kind), zero_mul]
    · cases kind : (w.inputs i).isDummy with
      | true => rw [ofBool_true, sub_self, mul_zero]
      | false =>
        rw [Except.ok.inj (root.symm.trans (real kind)), sub_self, zero_mul]

theorem holds_constrainOutput_fill (valid : w.Valid) (i : Fin 2) :
    (constrainOutput H (w.fill H) i).Holds Set.univ ↔
      (w.outputs i).value.toNat < 2 ^ valueBits := by
  have value : ((w.fill H).outputs i).value.val = (w.outputs i).value.toNat :=
    feltOfU64_val (valid.output_lt i)
  simp only [constrainOutput, Circuit.holds_bind, holds_rangeCheck, holds_gadget_outputRho,
    gadget_outputRho_value, holds_gadget_noteInner, gadget_noteInner_value,
    holds_gadget_noteCommitment, gadget_noteCommitment_value, holds_connectArrays,
    Circuit.holds_pure, value, Set.mem_univ, true_and, and_true]
  exact and_iff_left rfl

/-- The conditions under which a witness has a proof. -/
structure SpendWitness.Provable (H : Poseidon2) (w : SpendWitness) : Prop where
  inputs : ∀ i, (w.inputs i).Spends H w.header.zkTreeRoot
  output_lt : ∀ i, (w.outputs i).value.toNat < 2 ^ valueBits
  fee_lt : w.fee.toNat < 2 ^ valueBits
  balance : (w.inputs 0).value.toNat + (w.inputs 1).value.toNat =
    (w.outputs 0).value.toNat + (w.outputs 1).value.toNat + w.fee.toNat
  real_input : w.header.blockHash H = paddingBlockHash ∨ ∃ i, (w.inputs i).isDummy = false
  nullifiers_ne : (w.inputs 0).nullifier H ≠ (w.inputs 1).nullifier H

/-- **The filled circuit is satisfied exactly by a provable witness.** -/
theorem holds_spendCircuit_fill (valid : w.Valid) :
    (spendCircuit H (w.fill H)).Holds Set.univ ↔ w.Provable H := by
  simp only [spendCircuit, buildConstraints, Circuit.holds_bind, holds_new, holds_constrainHeader,
    holds_constrainDepth, Circuit.holds_arrayFromFn, holds_digestsAreEqual, digestsAreEqual_value,
    holds_connect, holds_constrainRealLeaf, holds_rangeCheck, holds_sum, sum_value,
    Circuit.arrayFromFn_value, true_and]
  have number : (w.fill H).header.blockNumber.val < 2 ^ 32 := by
    have lt := w.header.blockNumber.toNat_lt
    have eq : (w.fill H).header.blockNumber.val = w.header.blockNumber.toNat :=
      ZMod.val_natCast_of_lt (lt_trans lt (by decide))
    rwa [eq]
  have depth : (w.fill H).depth.val = w.depth :=
    ZMod.val_natCast_of_lt (lt_of_le_of_lt valid.depth_le (by decide))
  have fee : (w.fill H).fee.val = w.fee.toNat := feltOfU64_val valid.fee_lt
  have depthLe : (w.fill H).depth.val ≤ maxDepth := by rw [depth]; exact valid.depth_le
  rw [constrainDepth_value depthLe, depth]
  simp only [holds_constrainInput_fill valid, holds_constrainOutput_fill valid, fee]
  have sums : ((List.ofFn fun i => (constrainInput H (w.fill H)
      (fun l => ofBool (decide (l.val < w.depth))) i).value).sum =
      ((List.ofFn fun i => (constrainOutput H (w.fill H) i).value) ++ [(w.fill H).fee]).sum) ↔
      feltOfU64 (w.inputs 0).value + feltOfU64 (w.inputs 1).value =
        feltOfU64 (w.outputs 0).value + feltOfU64 (w.outputs 1).value + feltOfU64 w.fee := by
    simp [constrainInput, constrainOutput, List.ofFn_succ, add_assoc, SpendWitness.fill,
      InputNote.fill, OutputNote.fill]
  rw [sums]
  constructor
  · rintro ⟨-, -, -, inputs, distinct, real, outputs, feeLt, balance⟩
    -- The terms are small, so that the balance in the field is one of integers.
    have terms := val_balance (by rw [feltOfU64_val (valid.input_lt 0)]; exact (inputs 0).value_lt)
      (by rw [feltOfU64_val (valid.input_lt 1)]; exact (inputs 1).value_lt)
      (by rw [feltOfU64_val (valid.output_lt 0)]; exact outputs 0)
      (by rw [feltOfU64_val (valid.output_lt 1)]; exact outputs 1)
      (by rw [feltOfU64_val valid.fee_lt]; exact feeLt) balance
    simp only [feltOfU64_val (valid.input_lt _), feltOfU64_val (valid.output_lt _),
      feltOfU64_val valid.fee_lt] at terms
    exact ⟨inputs, outputs, feeLt, terms, real.imp_right (Exists.imp fun _ => ofBool_eq_zero.1),
      decide_eq_false_iff_not.1 (ofBool_eq_zero.1 distinct)⟩
  · rintro ⟨inputs, outputs, feeLt, balance, real, distinct⟩
    refine ⟨fun i => ⟨_, rfl⟩, ⟨number, trivial, rfl⟩, valid.depth_le, inputs,
      ofBool_eq_zero.2 (decide_eq_false distinct),
      real.imp_right (Exists.imp fun _ => ofBool_eq_zero.2), outputs, feeLt, ?_⟩
    simp only [feltOfU64]
    exact_mod_cast congrArg (Nat.cast (R := Felt)) balance

/-- **Which witnesses are provable.** A witness that validates is filled, and its wires satisfy the
circuit exactly if it is provable; the public inputs are then the ones it announces. -/
theorem fillWitness_holds_iff (valid : w.validate = .ok ()) :
    ∃ t, fillWitness H w = .ok t ∧ ((spendCircuit H t).Holds Set.univ ↔ w.Provable H) ∧
      t.publicInputs = w.publicInputs H := by
  refine ⟨w.fill H, ?_, holds_spendCircuit_fill (SpendWitness.validate_ok_iff.1 valid), ?_⟩
  · rw [fillWitness, valid]
    rfl
  · simp [SpendTargets.publicInputs, SpendWitness.publicInputs, SpendWitness.fill,
      HeaderInputs.fill, List.finRange_succ]

namespace Sample

/-- The sample spend as a wallet has it: a path of one level per input. -/
def spendWitness : SpendWitness where
  header := ⟨0, 1, 0, 0, rootOf 0, 0⟩
  depth := 1
  inputs i := ⟨0, 0, if i = 0 then 50 else 0, rhos i, 0, ⟨[0], [3]⟩, i == 1⟩
  outputs i := ⟨0, if i = 0 then 30 else 10, 0⟩
  fee := 10
  ctDigest := 0

theorem validate_spendWitness : spendWitness.validate = .ok () := by decide +kernel

theorem provable_spendWitness : spendWitness.Provable sampleSponge where
  inputs i := by
    refine ⟨?_, ?_, ?_⟩ <;> revert i <;> decide +kernel
  output_lt := by decide +kernel
  fee_lt := by decide +kernel
  balance := by decide +kernel
  real_input := .inr ⟨0, rfl⟩
  nullifiers_ne := by decide +kernel

end Sample

theorem fillWitness_spendWitness : Sample.spendWitness.validate = .ok () ∧
    Sample.spendWitness.Provable sampleSponge ∧
    ∃ t, fillWitness sampleSponge Sample.spendWitness = .ok t ∧
      (spendCircuit sampleSponge t).Holds Set.univ ∧
      t.publicInputs = Sample.spendWitness.publicInputs sampleSponge := by
  obtain ⟨t, filled, holds, registered⟩ :=
    fillWitness_holds_iff (H := sampleSponge) Sample.validate_spendWitness
  exact ⟨Sample.validate_spendWitness, Sample.provable_spendWitness, t, filled,
    holds.2 Sample.provable_spendWitness, registered⟩

end Qnero
