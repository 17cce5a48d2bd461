import Qnero.Batch.PrivateBatch

/-!
# The public batch

`n` private batches under one anchor, published one after the other behind the aggregator's
address. A real inner is forwarded element by element; a padding inner keeps its header, which is
how the chain recognises it, and is zero past it. No two real inners share the first nullifier of
their first slot, so none is forwarded twice.
-/

namespace Qnero

open Plonkish Builder

variable {Q : Set (List Felt)}

/-- The witnesses of the circuit. The constructor refuses unsupported sizes, and an inner circuit
whose public inputs are not those of a private batch over `numLeaves`. -/
structure PublicBatchTargets where
  privateBatchProofs : List (List Felt)
  aggregatorAddress : Digest
  numLeaves : ℕ
  inner_supported : validateProofCount privateBatchProofs.length = true
  leaves_supported : validateProofCount numLeaves = true
  length_eq : ∀ pis ∈ privateBatchProofs, pis.length = privateBatchPiLen numLeaves

def PublicBatchTargets.numInner (targets : PublicBatchTargets) : ℕ :=
  targets.privateBatchProofs.length

/-- What tells one inner proof from another: the first nullifier of its first slot. -/
def innerKey (publicInputs : List Felt) : Digest := digestAt publicInputs (slotNullifierIndex 0 0)

/-- Two inner proofs that are both real have different keys. -/
def assertKeysDiffer (left right : FlaggedProof) : Wires Unit := do
  let leftReal ← not left.isPadding
  let rightReal ← not right.isPadding
  let bothReal ← and leftReal rightReal
  let equal ← digestsAreEqual (innerKey left.publicInputs) (innerKey right.publicInputs)
  let collision ← and bothReal equal
  connect collision 0

/-- The header as it stands, then the slot region, zeroed in a padding inner. -/
def forwardInner (innerLen : ℕ) (proof : FlaggedProof) : Wires (List Felt) := do
  let masked ← Circuit.mapList ((proof.publicInputs.take innerLen).drop headerLen) fun forwarded =>
    select proof.isPadding 0 forwarded
  pure (proof.publicInputs.take headerLen ++ masked)

/-- The whole circuit; it returns the vector it registers. -/
def buildPublicBatchConstraints (targets : PublicBatchTargets) : Wires (List Felt) := do
  let innerLen := privateBatchPiLen targets.numLeaves
  let (flags, _) ← anchorProofs targets.privateBatchProofs
  Circuit.forEachPair assertKeysDiffer flags
  let inners ← Circuit.mapList flags (forwardInner innerLen)
  pure (felts targets.aggregatorAddress ++ inners.flatten)

/-! ## What it publishes -/

/-- An inner vector as it is published. -/
def publishedInner (publicInputs : List Felt) : List Felt :=
  if isPaddingProof publicInputs then
    publicInputs.take headerLen ++ List.replicate (publicInputs.length - headerLen) 0
  else publicInputs

variable {pis : List Felt} {n : ℕ}

theorem forwardInner_value {innerLen : ℕ} (h : pis.length = innerLen) :
    (forwardInner innerLen (flagged pis)).value = publishedInner pis := by
  rw [publishedInner]
  cases hpad : isPaddingProof pis
  · simp [forwardInner, flagged, hpad, ← h]
  · simp [forwardInner, flagged, hpad, ← h, List.map_const']

@[simp] theorem holds_forwardInner (innerLen : ℕ) (proof : FlaggedProof) :
    (forwardInner innerLen proof).Holds Q := by
  simp [forwardInner]

theorem holds_assertKeysDiffer (left right : List Felt) :
    (assertKeysDiffer (flagged left) (flagged right)).Holds Q ↔
      (isPaddingProof left = false → isPaddingProof right = false →
        innerKey left ≠ innerKey right) := by
  cases hl : isPaddingProof left <;> cases hr : isPaddingProof right <;>
    simp [assertKeysDiffer, flagged, hl, hr]

theorem buildPublicBatchConstraints_value (targets : PublicBatchTargets) :
    (buildPublicBatchConstraints targets).value =
      felts targets.aggregatorAddress ++ (targets.privateBatchProofs.map publishedInner).flatten := by
  obtain ⟨flags, -, -⟩ := anchorProofs_value targets.privateBatchProofs
  simp only [buildPublicBatchConstraints, Circuit.bind_value, Circuit.mapList_value,
    Circuit.pure_value, flags, List.map_map]
  refine congrArg (fun inners => _ ++ List.flatten inners) ?_
  exact List.map_congr_left fun pis hpis => forwardInner_value (targets.length_eq pis hpis)

theorem holds_buildPublicBatchConstraints (targets : PublicBatchTargets) :
    (buildPublicBatchConstraints targets).Holds Q ↔
      (∀ pis ∈ targets.privateBatchProofs, isPaddingProof pis = false →
        blockHashOf pis = (anchorOf targets.privateBatchProofs).1 ∧
          blockNumberOf pis = (anchorOf targets.privateBatchProofs).2) ∧
      targets.privateBatchProofs.Pairwise fun left right =>
        isPaddingProof left = false → isPaddingProof right = false →
          innerKey left ≠ innerKey right := by
  obtain ⟨flags, -, -⟩ := anchorProofs_value targets.privateBatchProofs
  simp only [buildPublicBatchConstraints, Circuit.holds_bind, holds_anchorProofs, flags,
    Circuit.holds_forEachPair, Circuit.holds_mapList, holds_forwardInner, List.pairwise_map,
    holds_assertKeysDiffer, Circuit.holds_pure, implies_true, and_true]

/-! ## Reading it back -/

theorem length_publishedInner (h : pis.length = privateBatchPiLen n) :
    (publishedInner pis).length = privateBatchPiLen n := by
  have long : headerLen ≤ pis.length := by rw [h, privateBatchPiLen]; omega
  rw [publishedInner]
  split
  · rw [List.length_append, List.length_take, List.length_replicate]
    omega
  · exact h

/-- The header is forwarded untouched, padding or not. -/
theorem take_publishedInner (h : pis.length = privateBatchPiLen n) :
    (publishedInner pis).take headerLen = pis.take headerLen := by
  have long : headerLen ≤ pis.length := by rw [h, privateBatchPiLen]; omega
  rw [publishedInner]
  split
  · exact List.take_left' (by rw [List.length_take]; omega)
  · rfl

theorem blockHashOf_take (pis : List Felt) : blockHashOf (pis.take headerLen) = blockHashOf pis := by
  funext i
  have inside : blockHashStart + i.val < headerLen := by
    show 0 + i.val < 5
    omega
  simp only [blockHashOf, digestAt, List.getD_eq_getElem?_getD, List.getElem?_take, if_pos inside]

theorem blockHashOf_publishedInner (h : pis.length = privateBatchPiLen n) :
    blockHashOf (publishedInner pis) = blockHashOf pis := by
  rw [← blockHashOf_take, take_publishedInner h, blockHashOf_take]

/-- The verifier recognises the padding inners: their headers carry the sentinel. -/
theorem isPadding_read_publishedInner (h : pis.length = privateBatchPiLen n) :
    (readPrivateBatch (publishedInner pis) n).isPadding = isPaddingProof pis := by
  rw [PrivateBatchPublicInputs.isPadding_eq, isPaddingProof, ← blockHashOf_publishedInner h]
  rfl

/-- The segments a chain settles, read off a published batch: the real inners, in order. -/
theorem settleable_publishedInner {proofs : List (List Felt)} (address : Digest)
    (h : ∀ pis ∈ proofs, pis.length = privateBatchPiLen n) :
    PublicBatchPublicInputs.settleableBatches
      ⟨address, (proofs.map publishedInner).map fun pis => readPrivateBatch pis n⟩ =
    (proofs.filter fun pis => !isPaddingProof pis).map fun pis => readPrivateBatch pis n := by
  rw [PublicBatchPublicInputs.settleableBatches]
  induction proofs with
  | nil => rfl
  | cons pis proofs ih =>
    rw [List.forall_mem_cons] at h
    -- The verifier's flag is the circuit's, so both filters keep or drop this inner.
    simp only [List.map_cons, List.filter_cons, isPadding_read_publishedInner h.1, ih h.2]
    cases hpad : isPaddingProof pis
    · simp [publishedInner, hpad]
    · simp

/-- The public inputs of the whole batch. -/
def PublicBatchTargets.published (targets : PublicBatchTargets) : PublicBatchPublicInputs where
  aggregatorAddress := targets.aggregatorAddress
  batches := (targets.privateBatchProofs.map publishedInner).map fun pis =>
    readPrivateBatch pis targets.numLeaves

theorem PublicBatchTargets.settleableBatches_published (targets : PublicBatchTargets) :
    targets.published.settleableBatches =
      (targets.privateBatchProofs.filter fun pis => !isPaddingProof pis).map fun pis =>
        readPrivateBatch pis targets.numLeaves :=
  settleable_publishedInner targets.aggregatorAddress targets.length_eq

/-- The verifier reads back what the circuit publishes. -/
theorem parsePublic_published (targets : PublicBatchTargets) :
    parsePublicBatchPublicInputFelts (buildPublicBatchConstraints targets).value targets.numInner
      targets.numLeaves = .ok targets.published := by
  have lengths : ∀ pis ∈ targets.privateBatchProofs.map publishedInner,
      pis.length = privateBatchPiLen targets.numLeaves :=
    List.forall_mem_map.2 fun pis hpis => length_publishedInner (targets.length_eq pis hpis)
  have count : (targets.privateBatchProofs.map publishedInner).length = targets.numInner :=
    List.length_map ..
  rw [buildPublicBatchConstraints_value, ← count]
  apply parsePublic_flatten _ targets.leaves_supported lengths
  rw [count]
  exact targets.inner_supported

/-- How a published inner stands to the inner proof in its place. -/
def ForwardedInner (numLeaves : ℕ) (pis : List Felt) (batch : PrivateBatchPublicInputs) : Prop :=
  (isPaddingProof pis = false ∧ batch.toFelts = pis) ∨
    (isPaddingProof pis = true ∧
      batch.toFelts = pis.take headerLen ++ List.replicate (numLeaves * slotLen) 0)

theorem forwardedInner_published (h : pis.length = privateBatchPiLen n) :
    ForwardedInner n pis (readPrivateBatch (publishedInner pis) n) := by
  have region : pis.length - headerLen = n * slotLen := by rw [h, privateBatchPiLen]; omega
  rw [ForwardedInner, toFelts_readPrivateBatch (length_publishedInner h), publishedInner, region]
  cases hpad : isPaddingProof pis
  · exact .inl ⟨rfl, if_neg Bool.false_ne_true⟩
  · exact .inr ⟨rfl, if_pos rfl⟩

/-- **A public batch is sound.** Whatever the circuit publishes parses; the parsed inners are the
inner proofs in order, real ones verbatim and padding ones zero past the header; the segments to
settle are the real ones, all under one anchor and no two of them equal. -/
theorem buildPublicBatchConstraints_sound (targets : PublicBatchTargets)
    (h : (buildPublicBatchConstraints targets).Holds Q) :
    ∃ pub : PublicBatchPublicInputs,
      parsePublicBatchPublicInputFelts (buildPublicBatchConstraints targets).value
        targets.numInner targets.numLeaves = .ok pub ∧
      (buildPublicBatchConstraints targets).value = pub.toFelts ∧
      pub.aggregatorAddress = targets.aggregatorAddress ∧
      List.Forall₂ (ForwardedInner targets.numLeaves) targets.privateBatchProofs pub.batches ∧
      (∃ blockHash blockNumber, ∀ batch ∈ pub.settleableBatches,
        batch.blockHash = blockHash ∧ batch.blockNumber = blockNumber) ∧
      (targets.privateBatchProofs.filter fun pis => !isPaddingProof pis).Nodup ∧
      pub.settleableBatches.map PrivateBatchPublicInputs.toFelts =
        targets.privateBatchProofs.filter fun pis => !isPaddingProof pis := by
  obtain ⟨anchored, keys⟩ := (holds_buildPublicBatchConstraints targets).1 h
  have lengths : ∀ pis ∈ targets.privateBatchProofs.map publishedInner,
      pis.length = privateBatchPiLen targets.numLeaves :=
    List.forall_mem_map.2 fun pis hpis => length_publishedInner (targets.length_eq pis hpis)
  have settleable := targets.settleableBatches_published
  have rewritten : ∀ pis ∈ targets.privateBatchProofs.map publishedInner,
      (readPrivateBatch pis targets.numLeaves).toFelts = pis :=
    fun pis hpis => toFelts_readPrivateBatch (lengths pis hpis)
  refine ⟨targets.published, parsePublic_published targets, ?_, rfl, ?_, ?_, ?_, ?_⟩
  · rw [buildPublicBatchConstraints_value, PublicBatchPublicInputs.toFelts,
      PublicBatchTargets.published, List.flatMap_map, List.flatMap_congr rewritten,
      List.flatMap_id']
  · rw [PublicBatchTargets.published, List.map_map, List.forall₂_map_right_iff]
    exact List.forall₂_same.2 fun pis hpis => forwardedInner_published (targets.length_eq pis hpis)
  · refine ⟨(anchorOf targets.privateBatchProofs).1, (anchorOf targets.privateBatchProofs).2, ?_⟩
    rw [settleable, List.forall_mem_map]
    intro pis hpis
    obtain ⟨mem, real⟩ := List.mem_filter.1 hpis
    exact anchored pis mem (by simpa using real)
  · -- Two real inners that were equal would share their key.
    refine (keys.filter _).imp_of_mem fun {left right} hl hr differ equal => ?_
    have real := (List.mem_filter.1 hl).2
    subst equal
    exact differ (by simpa using real) (by simpa using real) rfl
  · rw [settleable, List.map_map]
    refine (List.map_congr_left fun pis hpis => ?_).trans (List.map_id _)
    exact toFelts_readPrivateBatch (targets.length_eq pis (List.mem_of_mem_filter hpis))

/-! The sample batch next to a padding one. -/

namespace Sample

def paddingInner : PrivateBatchPublicInputs :=
  ⟨paddingBlockHash, (paddingBlockNumber : Felt), [0, 1].map fun slot => paddingSlot sampleSponge (preimages slot)⟩

def publicBatch : PublicBatchTargets where
  privateBatchProofs := [(batch.published sampleSponge).toFelts, paddingInner.toFelts]
  aggregatorAddress := 0
  numLeaves := 2
  inner_supported := rfl
  leaves_supported := rfl
  length_eq := by
    intro pis hpis
    rcases List.mem_cons.1 hpis with rfl | hpis
    · exact PrivateBatchPublicInputs.length_toFelts _
    · obtain rfl := List.mem_singleton.1 hpis
      exact PrivateBatchPublicInputs.length_toFelts _

/-- The two inners are a real one and a padding one, so the keys are not compared. -/
theorem holds_publicBatch : (buildPublicBatchConstraints publicBatch).Holds ∅ := by
  have real : isPaddingProof (batch.published sampleSponge).toFelts = false := by decide +kernel
  have padding : isPaddingProof paddingInner.toFelts = true := by decide +kernel
  rw [holds_buildPublicBatchConstraints]
  simp [publicBatch, anchorOf, real, padding]

end Sample

theorem buildPublicBatchConstraints_sound_sample :
    (buildPublicBatchConstraints Sample.publicBatch).Holds ∅ ∧
      ∃ pub : PublicBatchPublicInputs,
        parsePublicBatchPublicInputFelts (buildPublicBatchConstraints Sample.publicBatch).value
          2 2 = .ok pub ∧
        pub.settleableBatches.map PrivateBatchPublicInputs.toFelts =
          [(Sample.batch.published sampleSponge).toFelts] := by
  obtain ⟨pub, parsed, -, -, -, -, -, settleable⟩ :=
    buildPublicBatchConstraints_sound Sample.publicBatch Sample.holds_publicBatch
  exact ⟨Sample.holds_publicBatch, pub, parsed, settleable.trans (by decide +kernel)⟩

end Qnero
