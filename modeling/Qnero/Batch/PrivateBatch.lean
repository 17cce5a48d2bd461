import Qnero.Batch.Anchor
import Qnero.Leaf.Witness
import Qnero.Shielded.Bundle

/-!
# The private batch

`N` leaf proofs under one anchor. A slot whose leaf carries the padding sentinel publishes zeros
and two hashes of fresh randomness; any other slot is forwarded as it stands.

The circuit tells padding by the sentinel, the chain by the zero commitments. That the two agree is
a fact about valid leaves: the commitments of one are hashes, and a hash is not zero.
-/

namespace Qnero

open Plonkish Builder

variable {Q : Set (List Felt)}

/-- The witnesses of one slot: a leaf proof, and the preimages of two padding nullifiers. -/
structure LeafProofTargets where
  publicInputs : List Felt
  paddingNullifierPreimages : Fin 2 → Digest

/-- The witnesses of the circuit. The constructor refuses an unsupported number of slots. -/
structure PrivateBatchTargets where
  leafProofs : List LeafProofTargets
  supported : validateProofCount leafProofs.length = true

def PrivateBatchTargets.numLeaves (targets : PrivateBatchTargets) : ℕ := targets.leafProofs.length

def paddingNullifierInput (preimage : Digest) : List Felt :=
  feltsInput Domain.nfBatchPadding [felts preimage]

section

variable (H : Poseidon2)

def paddingNullifier (preimage : Digest) : Wires Digest :=
  hash H.hashToFelts (paddingNullifierInput preimage)

/-- What a slot publishes, masked when it is padding. -/
def emitSlot (slot : LeafProofTargets) (padding : Felt) : Wires BatchLeafSlot := do
  let pis := slot.publicInputs
  let nullifiers ← Circuit.arrayFromFn fun input : Fin 2 => do
    let published := digestAt pis (nullifierIndex input)
    let replacement ← paddingNullifier H (slot.paddingNullifierPreimages input)
    Circuit.arrayFromFn fun limb => select padding (replacement limb) (published limb)
  let commitments ← Circuit.arrayFromFn fun note : Fin 2 => do
    let published := digestAt pis (commitmentIndex note)
    Circuit.arrayFromFn fun limb => select padding 0 (published limb)
  let fee ← select padding 0 (pis.getD feeIndex 0)
  let ctDigest ← Circuit.arrayFromFn fun limb => select padding 0 (digestAt pis ctDigestStart limb)
  pure ⟨nullifiers, commitments, fee, ctDigest⟩

/-- Both nullifiers of every slot, in slot order. -/
def emittedNullifiers (slots : List BatchLeafSlot) : List Digest :=
  slots.flatMap fun slot => List.ofFn slot.nullifiers

/-- Two wires' digests differ. -/
def assertDistinct (left right : Digest) : Wires Unit := do
  let equal ← digestsAreEqual left right
  connect equal 0

/-- The whole circuit; it returns the vector it registers. -/
def buildPrivateBatchConstraints (targets : PrivateBatchTargets) : Wires (List Felt) := do
  let (flags, reference) ← anchorProofs (targets.leafProofs.map LeafProofTargets.publicInputs)
  let slots ← Circuit.mapList (targets.leafProofs.zip flags) fun slot =>
    emitSlot H slot.1 slot.2.isPadding
  Circuit.forEachPair assertDistinct (emittedNullifiers slots)
  pure (PrivateBatchPublicInputs.toFelts
    ⟨reference.blockRef, reference.blockNumberRef, slots⟩)

end

/-! ## What it publishes -/

def LeafProofTargets.isPadding (leaf : LeafProofTargets) : Bool := isPaddingProof leaf.publicInputs

/-- A leaf's own values, as a slot. -/
def leafSlot (pis : List Felt) : BatchLeafSlot where
  nullifiers i := digestAt pis (nullifierIndex i)
  commitments j := digestAt pis (commitmentIndex j)
  fee := pis.getD feeIndex 0
  ctDigest := digestAt pis ctDigestStart

section

variable (H : Poseidon2)

def paddingSlot (preimages : Fin 2 → Digest) : BatchLeafSlot where
  nullifiers i := H.hashToFelts (paddingNullifierInput (preimages i))
  commitments := 0
  fee := 0
  ctDigest := 0

def LeafProofTargets.publishedSlot (leaf : LeafProofTargets) : BatchLeafSlot :=
  if leaf.isPadding then paddingSlot H leaf.paddingNullifierPreimages
  else leafSlot leaf.publicInputs

/-- The public inputs of the whole batch. -/
def PrivateBatchTargets.published (targets : PrivateBatchTargets) : PrivateBatchPublicInputs where
  blockHash := (anchorOf (targets.leafProofs.map LeafProofTargets.publicInputs)).1
  blockNumber := (anchorOf (targets.leafProofs.map LeafProofTargets.publicInputs)).2
  slots := targets.leafProofs.map (LeafProofTargets.publishedSlot H)

theorem emitSlot_value (leaf : LeafProofTargets) :
    (emitSlot H leaf (ofBool leaf.isPadding)).value = leaf.publishedSlot H := by
  rw [LeafProofTargets.publishedSlot]
  cases leaf.isPadding
  · simp [emitSlot, leafSlot]
  · simp [emitSlot, paddingSlot, paddingNullifier]
    exact ⟨rfl, rfl⟩

theorem holds_emitSlot (leaf : LeafProofTargets) (padding : Felt) :
    (emitSlot H leaf padding).Holds Q ↔
      ∀ i, paddingNullifierInput (leaf.paddingNullifierPreimages i) ∈ Q := by
  simp [emitSlot, paddingNullifier]

@[simp] theorem holds_assertDistinct (left right : Digest) :
    (assertDistinct left right).Holds Q ↔ left ≠ right := by
  simp [assertDistinct]

theorem zip_flags (leaves : List LeafProofTargets) :
    leaves.zip ((leaves.map LeafProofTargets.publicInputs).map flagged) =
      leaves.map fun leaf => (leaf, flagged leaf.publicInputs) := by
  induction leaves with
  | nil => rfl
  | cons leaf leaves ih => simpa using ih

/-- Every slot, emitted under its own flag. -/
theorem emitted_slots (targets : PrivateBatchTargets) :
    (targets.leafProofs.map fun leaf => (leaf, flagged leaf.publicInputs)).map
      (fun slot => (emitSlot H slot.1 slot.2.isPadding).value) = (targets.published H).slots := by
  rw [List.map_map]
  exact List.map_congr_left fun leaf _ => emitSlot_value H leaf

theorem buildPrivateBatchConstraints_value (targets : PrivateBatchTargets) :
    (buildPrivateBatchConstraints H targets).value = (targets.published H).toFelts := by
  obtain ⟨flags, hash, number⟩ :=
    anchorProofs_value (targets.leafProofs.map LeafProofTargets.publicInputs)
  simp only [buildPrivateBatchConstraints, Circuit.bind_value, Circuit.mapList_value,
    Circuit.pure_value, flags, hash, number, zip_flags, emitted_slots]
  rfl

theorem holds_buildPrivateBatchConstraints (targets : PrivateBatchTargets) :
    (buildPrivateBatchConstraints H targets).Holds Q ↔
      (∀ leaf ∈ targets.leafProofs, leaf.isPadding = false →
        blockHashOf leaf.publicInputs = (targets.published H).blockHash ∧
          blockNumberOf leaf.publicInputs = (targets.published H).blockNumber) ∧
      (∀ leaf ∈ targets.leafProofs, ∀ i,
        paddingNullifierInput (leaf.paddingNullifierPreimages i) ∈ Q) ∧
      (emittedNullifiers (targets.published H).slots).Nodup := by
  obtain ⟨flags, -, -⟩ := anchorProofs_value (targets.leafProofs.map LeafProofTargets.publicInputs)
  simp only [buildPrivateBatchConstraints, Circuit.holds_bind, holds_anchorProofs, flags,
    zip_flags, Circuit.holds_mapList, holds_emitSlot, Circuit.mapList_value, emitted_slots,
    Circuit.holds_forEachPair, holds_assertDistinct, Circuit.holds_pure, and_true,
    List.forall_mem_map]
  rfl

end

/-! ## Reading a leaf -/

/-- The slot of a leaf assignment's public wires. -/
def SpendTargets.slot (t : SpendTargets) : BatchLeafSlot where
  nullifiers := t.nullifiers
  commitments := t.commitments
  fee := t.fee
  ctDigest := t.ctDigest

theorem SpendTargets.publicInputs_eq (t : SpendTargets) :
    t.publicInputs = PrivateBatchPublicInputs.toFelts
      ⟨t.blockHash, t.header.blockNumber, [t.slot]⟩ := by
  simp [publicInputs, PrivateBatchPublicInputs.toFelts, BatchLeafSlot.toFelts, slot]

/-- A leaf's layout is that of a private batch of one slot. -/
theorem leafSlot_publicInputs (t : SpendTargets) : leafSlot t.publicInputs = t.slot := by
  have read := readPrivateBatch_toFelts ⟨t.blockHash, t.header.blockNumber, [t.slot]⟩
  rw [← SpendTargets.publicInputs_eq] at read
  have slots := congrArg PrivateBatchPublicInputs.slots read
  exact (List.cons.inj slots).1

variable {H : Poseidon2}

/-- The commitments of a valid leaf are hashes, so none is zero. -/
theorem LeafStatement.commitments_ne_zero (hH : CollisionFree H.hashToFelts Q) {pis : List Felt}
    (h : LeafStatement H Q pis) (i : Fin 2) : (leafSlot pis).commitments i ≠ 0 := by
  obtain ⟨t, rfl, holds⟩ := h
  have output := (LeafHolds.of_holds holds).outputs i
  rw [leafSlot_publicInputs]
  show t.commitments i ≠ 0
  rw [output.commitment_eq, SpendTargets.outputNote_commitment]
  exact hH.ne_zero _ output.cm_mem

/-! ## Soundness -/

/-- How a published slot stands to the leaf proof in its place. -/
def Forwarded (H : Poseidon2) (leaf : LeafProofTargets) (slot : BatchLeafSlot) : Prop :=
  (leaf.isPadding = false ∧ slot = leafSlot leaf.publicInputs) ∨
    (leaf.isPadding = true ∧ (∀ j, slot.commitments j = 0) ∧ slot.fee = 0 ∧ slot.ctDigest = 0 ∧
      ∀ i, ∃ preimage, slot.nullifiers i =
        H.hashToFelts (feltsInput Domain.nfBatchPadding [felts preimage]))

theorem forwarded_publishedSlot (leaf : LeafProofTargets) :
    Forwarded H leaf (leaf.publishedSlot H) := by
  rw [LeafProofTargets.publishedSlot]
  cases hpad : leaf.isPadding
  · exact .inl ⟨hpad, rfl⟩
  · exact .inr ⟨hpad, fun _ => rfl, rfl, rfl, fun i => ⟨_, rfl⟩⟩

/-- **The chain's padding test is the circuit's**, for a slot over a valid leaf. -/
theorem isPadding_publishedSlot (hH : CollisionFree H.hashToFelts Q) {leaf : LeafProofTargets}
    (hleaf : LeafStatement H Q leaf.publicInputs) :
    (leaf.publishedSlot H).isPadding = leaf.isPadding := by
  rw [BatchLeafSlot.isPadding_eq, LeafProofTargets.publishedSlot]
  cases hpad : leaf.isPadding
  · -- Forwarded: its commitments are hashes.
    have := hleaf.commitments_ne_zero hH 0
    simp only [Bool.false_eq_true, if_false, decide_eq_false_iff_not, not_forall]
    exact ⟨0, this⟩
  · simp [paddingSlot]

theorem filter_publishedSlots (hH : CollisionFree H.hashToFelts Q) {leaves : List LeafProofTargets}
    (hleaf : ∀ leaf ∈ leaves, LeafStatement H Q leaf.publicInputs) :
    (leaves.map (LeafProofTargets.publishedSlot H)).filter (fun slot => !slot.isPadding) =
      (leaves.filter fun leaf => !leaf.isPadding).map fun leaf => leafSlot leaf.publicInputs := by
  induction leaves with
  | nil => rfl
  | cons leaf leaves ih =>
    rw [List.forall_mem_cons] at hleaf
    rw [List.map_cons, List.filter_cons, List.filter_cons, isPadding_publishedSlot hH hleaf.1,
      ih hleaf.2]
    cases hpad : leaf.isPadding
    · simp [LeafProofTargets.publishedSlot, hpad]
    · simp

/-- The real slots of a batch, in 32-byte form. -/
def PrivateBatchTargets.realSlots (targets : PrivateBatchTargets) : List RealSlot :=
  (targets.leafProofs.filter fun leaf => !leaf.isPadding).map fun leaf =>
    RealSlot.ofSlot (leafSlot leaf.publicInputs)

theorem published_blockHash_eq_padding (targets : PrivateBatchTargets) :
    (targets.published H).blockHash = paddingBlockHash ↔
      ∀ leaf ∈ targets.leafProofs, leaf.isPadding = true := by
  rw [PrivateBatchTargets.published, anchorOf_eq_padding, List.forall_mem_map]
  rfl

theorem slots_ofInputs_published (hH : CollisionFree H.hashToFelts Q)
    {targets : PrivateBatchTargets}
    (hleaf : ∀ leaf ∈ targets.leafProofs, LeafStatement H Q leaf.publicInputs) :
    (Segment.ofInputs (targets.published H)).slots = targets.realSlots := by
  rw [Segment.ofInputs, PrivateBatchTargets.published, filter_publishedSlots hH hleaf, List.map_map]
  rfl

/-- The verifier reads back what the circuit publishes. -/
theorem parsePrivate_published (H : Poseidon2) (targets : PrivateBatchTargets) :
    parsePrivateBatchPublicInputFelts (buildPrivateBatchConstraints H targets).value
      targets.numLeaves = .ok (targets.published H) := by
  have count : (targets.published H).slots.length = targets.numLeaves := List.length_map ..
  rw [buildPrivateBatchConstraints_value, ← count]
  apply parsePrivate_toFelts
  rw [count]
  exact targets.supported

/-- **A private batch is sound.** Over valid leaves, whatever the circuit publishes has one anchor
that every real leaf carries; its slots are real leaves forwarded verbatim or padding that moves
nothing; its nullifiers are pairwise distinct; and the sentinel is published by an all-padding
batch only. The verifier reads the same batch back, agrees with the circuit on which slots are
padding, and the chain keeps the others. -/
theorem buildPrivateBatchConstraints_sound (hH : CollisionFree H.hashToFelts Q)
    (targets : PrivateBatchTargets)
    (hleaf : ∀ leaf ∈ targets.leafProofs, LeafStatement H Q leaf.publicInputs)
    (h : (buildPrivateBatchConstraints H targets).Holds Q) :
    ∃ pub : PrivateBatchPublicInputs,
      (buildPrivateBatchConstraints H targets).value = pub.toFelts ∧
      (∀ leaf ∈ targets.leafProofs, leaf.isPadding = false →
        blockHashOf leaf.publicInputs = pub.blockHash ∧
          blockNumberOf leaf.publicInputs = pub.blockNumber) ∧
      List.Forall₂ (Forwarded H) targets.leafProofs pub.slots ∧
      (emittedNullifiers pub.slots).Nodup ∧
      ((∀ leaf ∈ targets.leafProofs, leaf.isPadding = true) ↔ pub.blockHash = paddingBlockHash) ∧
      parsePrivateBatchPublicInputFelts (buildPrivateBatchConstraints H targets).value
        targets.numLeaves = .ok pub ∧
      List.Forall₂ (fun leaf slot => slot.isPadding = leaf.isPadding) targets.leafProofs
        pub.slots ∧
      SettlementBundle.fromPrivateBatch pub =
        ⟨if ∀ leaf ∈ targets.leafProofs, leaf.isPadding = true then []
          else [⟨digestBytes pub.blockHash, min pub.blockNumber.val Machine.u32Max,
            targets.realSlots⟩]⟩ := by
  obtain ⟨anchored, -, distinct⟩ := (holds_buildPrivateBatchConstraints H targets).1 h
  have sentinel := published_blockHash_eq_padding (H := H) targets
  refine ⟨targets.published H, buildPrivateBatchConstraints_value H targets, anchored, ?_, distinct,
    sentinel.symm, parsePrivate_published H targets, ?_, ?_⟩
  · rw [PrivateBatchTargets.published, List.forall₂_map_right_iff]
    exact List.forall₂_same.2 fun leaf _ => forwarded_publishedSlot leaf
  · rw [PrivateBatchTargets.published, List.forall₂_map_right_iff]
    exact List.forall₂_same.2 fun leaf hl => isPadding_publishedSlot hH (hleaf leaf hl)
  · rw [SettlementBundle.fromPrivateBatch, PrivateBatchPublicInputs.isPadding_eq]
    simp only [decide_eq_true_eq, sentinel]
    rw [← slots_ofInputs_published hH hleaf]
    rfl

/-! A batch of two: the sample spend, and a padding leaf. -/

namespace Sample

/-- Two dummies under the padding header, which is all zeros here. -/
def paddingLeaf : SpendTargets :=
  SpendWitness.fill sampleSponge ⟨⟨0, 0, 0, 0, 0, 0⟩, 0, fun i => ⟨0, 0, 0, rhos i, 0, ⟨[], []⟩, true⟩,
    fun _ => ⟨0, 0, 0⟩, 0, 0⟩

def preimages (slot i : Fin 2) : Digest := ![(2 * slot.val + i.val : ℕ), 0, 0, 0]

def batch : PrivateBatchTargets :=
  ⟨[⟨spend.publicInputs, preimages 0⟩, ⟨paddingLeaf.publicInputs, preimages 1⟩], rfl⟩

def batchHashed : List (List Felt) :=
  hashed ++ ((spendCircuit sampleSponge paddingLeaf).sponged.dedup ++
    (buildPrivateBatchConstraints sampleSponge batch).sponged)

theorem batchHashed_collisionFree : CollisionFree sampleSponge.hashToFelts {x | x ∈ batchHashed} :=
  collisionFree_sampleSponge (by decide +kernel)

theorem batch_leaves : ∀ leaf ∈ batch.leafProofs,
    LeafStatement sampleSponge {x | x ∈ batchHashed} leaf.publicInputs := by
  intro leaf hl
  simp only [batch, List.mem_cons, List.not_mem_nil, or_false] at hl
  rcases hl with rfl | rfl
  · exact ⟨spend, rfl, holds_spend.mono fun _ => List.mem_append_left _⟩
  · exact ⟨paddingLeaf, rfl, by decide +kernel⟩

theorem holds_batch : (buildPrivateBatchConstraints sampleSponge batch).Holds
    {x | x ∈ batchHashed} := by
  decide +kernel

end Sample

theorem buildPrivateBatchConstraints_sound_sample :
    CollisionFree sampleSponge.hashToFelts {x | x ∈ Sample.batchHashed} ∧
      (buildPrivateBatchConstraints sampleSponge Sample.batch).Holds {x | x ∈ Sample.batchHashed} ∧
      ∃ pub : PrivateBatchPublicInputs,
        parsePrivateBatchPublicInputFelts
          (buildPrivateBatchConstraints sampleSponge Sample.batch).value 2 = .ok pub ∧
        pub.slots.map BatchLeafSlot.isPadding = [false, true] ∧
        (emittedNullifiers pub.slots).Nodup := by
  obtain ⟨pub, -, -, -, distinct, -, parsed, agree, -⟩ := buildPrivateBatchConstraints_sound
    Sample.batchHashed_collisionFree Sample.batch Sample.batch_leaves Sample.holds_batch
  have flags : Sample.batch.leafProofs.map LeafProofTargets.isPadding = [false, true] := by
    decide +kernel
  refine ⟨Sample.batchHashed_collisionFree, Sample.holds_batch, pub, parsed, ?_, distinct⟩
  rw [← flags, ← List.forall₂_eq_eq_eq, List.forall₂_map_left_iff, List.forall₂_map_right_iff]
  exact agree.flip

end Qnero
