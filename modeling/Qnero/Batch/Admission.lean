import Qnero.Batch.PublicBatch
import Qnero.Leaf.Witness
import Qnero.Overlap
import Qnero.Shielded.Skipped

/-!
# What the provers admit

A recursive proof takes minutes, so both provers look at what they are given before they start. The
private-batch prover asks that the leaves that are not padding share a block and repeat no nullifier;
the public-batch prover asks the same of its inner batches, refuses padding, and compares nullifiers
across batches, which its circuit does not.

Both checks are kept by hand in step with the constraints. For leaves the two are equivalent: what the
check admits has a satisfying assignment, whatever the order of the slots and the padding randomness,
and what has one is admitted. For inner batches the check is stronger, and what it admits settles
without one segment standing in the way of another.
-/

namespace Qnero

open Plonkish Builder Overlap

variable {Q : Set (List Felt)} {H : Poseidon2}

variable {numLeaves : ℕ} {proofs : List (List Felt)} {template : List Felt}

/-! ## The padding leaf -/

section

variable (H : Poseidon2)

/-- A fixed witness value, drawn from its label. -/
def paddingDigest (label : String) : Digest := H.hashBytes label.toUTF8.toList

/-- One for each note. -/
def paddingDigestAt (label : String) (index : Fin 2) : Digest :=
  H.hashBytes (label.toUTF8.toList ++ [UInt8.ofNat index])

/-- The one header a padding leaf binds to. -/
def paddingHeader : HeaderInputs where
  parentHash := paddingDigest H paddingParentHashDomain
  blockNumber := UInt32.ofNat paddingBlockNumber
  stateRoot := 0
  extrinsicsRoot := 0
  zkTreeRoot := 0
  digest i := (H.bytesToFelts (List.replicate digestLogsSize 0)).getD i 0

/-- Two dummies, two outputs worth zero, no fee. -/
def paddingLeafWitness : SpendWitness where
  header := paddingHeader H
  depth := 1
  inputs index := {
    ask := paddingDigest H "qnero/padding-ask"
    nk := paddingDigest H "qnero/padding-nk"
    value := 0
    rho := paddingDigestAt H "qnero/padding-rho" index
    r := paddingDigestAt H "qnero/padding-r" index
    path := ⟨[0], [0]⟩
    isDummy := true }
  outputs index := ⟨paddingDigest H "qnero/padding-pk", 0, paddingDigestAt H "qnero/padding-out-r" index⟩
  fee := 0
  ctDigest := 0

def canonicalPaddingLeafPublicInputs : List Felt := (paddingLeafWitness H).publicInputs H

end

/-- The padding leaf carries the sentinel; its header exists if the logs have their 28 elements. -/
theorem isPaddingProof_canonical (pinned : PaddingPinned H)
    (packs : (H.bytesToFelts (List.replicate digestLogsSize 0)).length = 28) :
    isPaddingProof (canonicalPaddingLeafPublicInputs H) = true := by
  have digest : List.ofFn (paddingHeader H).digest =
      H.bytesToFelts (List.replicate digestLogsSize 0) := by
    refine List.ext_getElem (by simp [packs]) fun i hi hi' => ?_
    rw [List.getElem_ofFn]
    exact List.getD_eq_getElem _ _ hi'
  have blockHash : (paddingHeader H).blockHash H = paddingBlockHash := by
    rw [← pinned, HeaderInputs.blockHash, HeaderInputs.preimage, digest]
    rfl
  have read : blockHashOf (canonicalPaddingLeafPublicInputs H) = (paddingHeader H).blockHash H := by
    simp only [blockHashOf, canonicalPaddingLeafPublicInputs, SpendWitness.publicInputs,
      List.append_assoc, blockHashStart]
    exact digestAt_felts ..
  rw [isPaddingProof, read, blockHash, decide_eq_true rfl]

/-! ## The check of the private-batch prover -/

/-- A digest as four canonical integers. -/
def canonicalU64 (digest : Digest) : Fin 4 → ℕ := fun i => (digest i).val

theorem canonicalU64_injective : Function.Injective canonicalU64 := by
  intro d d' same
  funext i
  exact ZMod.val_injective _ (congrFun same i)

structure LeafMeta where
  blockHash : Fin 4 → ℕ
  blockNumber : ℕ
  nullifiers : Fin 2 → Fin 4 → ℕ

def LeafMeta.ofProof (publicInputs : List Felt) : LeafMeta where
  blockHash := canonicalU64 (digestAt publicInputs blockHashStart)
  blockNumber := (publicInputs.getD blockNumberIndex 0).val
  nullifiers input := canonicalU64 (digestAt publicInputs (nullifierIndex input))

/-- Why leaves do not go together; the numbers are the positions the message names. -/
inductive BatchError where
  | otherBlock (index reference : ℕ)
  | otherNumber (index number reference referenceNumber : ℕ)
  | repeatedNullifier (index input previousIndex previousInput : ℕ)
  | allPadding
deriving DecidableEq

/-- The first real leaf with its position, and where each nullifier was published. -/
abbrev LeafScan := Scan (ℕ × LeafMeta) (Fin 4 → ℕ) (ℕ × ℕ)

def LeafMeta.block (leaf : LeafMeta) : (Fin 4 → ℕ) × ℕ := (leaf.blockHash, leaf.blockNumber)

def sameBlock (leaf : LeafMeta × ℕ) (reference : ℕ × LeafMeta) : Except BatchError Unit := do
  ensure (leaf.1.blockHash = reference.2.blockHash) (.otherBlock leaf.2 reference.1)
  ensure (leaf.1.blockNumber = reference.2.blockNumber)
    (.otherNumber leaf.2 leaf.1.blockNumber reference.1 reference.2.blockNumber)

/-- The nullifiers of a leaf, and where it publishes them. -/
def LeafMeta.entries (leaf : LeafMeta) (index : ℕ) : List ((Fin 4 → ℕ) × ℕ × ℕ) :=
  (List.finRange 2).map fun input => (leaf.nullifiers input, index, input.val)

/-- A real leaf against the first one, and its nullifiers against those of the leaves before it. -/
def admitLeaf (s : LeafScan) (leaf : LeafMeta × ℕ) : Except BatchError LeafScan :=
  if leaf.1.blockHash = canonicalU64 paddingBlockHash then .ok s
  else enter s (leaf.2, leaf.1) (sameBlock leaf)
    (fun entry previous => .repeatedNullifier entry.2.1 entry.2.2 previous.1 previous.2)
    (leaf.1.entries leaf.2)

def ensureBatchCompatible (proofs : List (List Felt)) : Except BatchError Unit := do
  let scan ← (proofs.map LeafMeta.ofProof).zipIdx.foldlM admitLeaf ⟨none, []⟩
  ensure (scan.reference.isSome) .allPadding

/-! ## The checks of the public-batch prover -/

inductive InnerError where
  | padding (index : ℕ)
  | otherBlock (index reference : ℕ)
  | repeatedNullifier (index slot input previousIndex previousSlot previousInput : ℕ)
deriving DecidableEq

/-- The block of the first inner batch with its position, and where each nullifier was published. -/
abbrev InnerScan := Scan (ℕ × (Fin 4 → ℕ) × ℕ) (Fin 4 → ℕ) (ℕ × ℕ × ℕ)

structure InnerMeta where
  blockHash : Fin 4 → ℕ
  blockNumber : ℕ
  nullifiers : ℕ → Fin 2 → Fin 4 → ℕ

def InnerMeta.ofProof (publicInputs : List Felt) : InnerMeta where
  blockHash := canonicalU64 (digestAt publicInputs blockHashStart)
  blockNumber := (publicInputs.getD blockNumberIndex 0).val
  nullifiers slot input := canonicalU64 (digestAt publicInputs (slotNullifierIndex slot input))

def sameInnerBlock (inner : InnerMeta × ℕ) (reference : ℕ × (Fin 4 → ℕ) × ℕ) :
    Except InnerError Unit :=
  ensure (inner.1.blockHash = reference.2.1 ∧ inner.1.blockNumber = reference.2.2)
    (.otherBlock inner.2 reference.1)

/-- The nullifiers of all slots, and where they are published. -/
def InnerMeta.entries (inner : InnerMeta) (numLeaves index : ℕ) :
    List ((Fin 4 → ℕ) × ℕ × ℕ × ℕ) :=
  (List.range numLeaves).flatMap fun slot => (List.finRange 2).map fun input =>
    (inner.nullifiers slot input, index, slot, input.val)

/-- An inner batch against the first one, and all its nullifiers against those of the others. -/
def admitInner (numLeaves : ℕ) (s : InnerScan) (inner : InnerMeta × ℕ) :
    Except InnerError InnerScan := do
  ensure (inner.1.blockHash ≠ canonicalU64 paddingBlockHash) (.padding inner.2)
  enter s (inner.2, inner.1.blockHash, inner.1.blockNumber) (sameInnerBlock inner)
    (fun entry previous => .repeatedNullifier entry.2.1 entry.2.2.1 entry.2.2.2 previous.1
      previous.2.1 previous.2.2)
    (inner.1.entries numLeaves inner.2)

def ensureInnerBatchCompatible (proofs : List (List Felt)) (numLeaves : ℕ) :
    Except InnerError Unit := do
  let _ ← (proofs.map InnerMeta.ofProof).zipIdx.foldlM (admitInner numLeaves) ⟨none, []⟩
  pure ()

inductive TemplateError where
  | publicInputs (found expected : ℕ)
  | blockHash
  | blockNumber
  | commitment (slot : ℕ)
  | fee (slot : ℕ)
  | ctDigest (slot : ℕ)
  | unverified
deriving DecidableEq

/-- A proof is taken as padding if it carries the sentinel, settles nothing and verifies. -/
def validatePaddingPrivateBatchTemplate (verify : List Felt → Bool) (template : List Felt)
    (numLeaves : ℕ) : Except TemplateError Unit := do
  ensure (template.length = privateBatchPiLen numLeaves)
    (.publicInputs template.length (privateBatchPiLen numLeaves))
  ensure (canonicalU64 (digestAt template blockHashStart) = canonicalU64 paddingBlockHash) .blockHash
  ensure ((template.getD blockNumberIndex 0).val = paddingBlockNumber) .blockNumber
  (List.range numLeaves).forM fun slot => do
    (List.finRange 2).forM fun note => (List.finRange 4).forM fun limb =>
      ensure ((template.getD (slotCommitmentIndex slot note + limb) 0).val = 0) (.commitment slot)
    ensure ((template.getD (slotFeeIndex slot) 0).val = 0) (.fee slot)
    (List.finRange 4).forM fun limb =>
      ensure ((template.getD (slotCtDigestIndex slot + limb) 0).val = 0) (.ctDigest slot)
  ensure (verify template) .unverified

/-! ## What the checks decide -/

/-- The block a proof is anchored at. -/
def blockOf (publicInputs : List Felt) : Digest × Felt :=
  (blockHashOf publicInputs, blockNumberOf publicInputs)

def realProofs (proofs : List (List Felt)) : List (List Felt) :=
  proofs.filter fun pis => !isPaddingProof pis

def leafNullifiers (publicInputs : List Felt) : List Digest :=
  List.ofFn (leafSlot publicInputs).nullifiers

theorem isPaddingProof_iff {pis : List Felt} : isPaddingProof pis = true ↔
    canonicalU64 (digestAt pis blockHashStart) = canonicalU64 paddingBlockHash := by
  rw [canonicalU64_injective.eq_iff, isPaddingProof, decide_eq_true_eq, blockHashOf]

/-- The canonical integers of a block. -/
theorem blockOf_eq_iff (pis pis' : List Felt) :
    (canonicalU64 (digestAt pis blockHashStart), (pis.getD blockNumberIndex 0).val) =
        (canonicalU64 (digestAt pis' blockHashStart), (pis'.getD blockNumberIndex 0).val) ↔
      blockOf pis = blockOf pis' := by
  rw [blockOf, blockOf, Prod.mk.injEq, Prod.mk.injEq, canonicalU64_injective.eq_iff,
    (ZMod.val_injective _).eq_iff]
  rfl

theorem admits_admitLeaf : Admits admitLeaf
    (fun s => s.reference.map fun r => r.2.block) (fun s => s.seen.map Prod.fst)
    (fun leaf => decide (leaf.1.blockHash ≠ canonicalU64 paddingBlockHash)) (fun _ => True)
    (fun leaf => leaf.1.block) (fun leaf => (leaf.1.entries leaf.2).map Prod.fst) := by
  refine Admits.of_enter (fun leaf => (leaf.2, leaf.1)) (fun r => r.2.block) sameBlock
    (fun entry previous => .repeatedNullifier entry.2.1 entry.2.2 previous.1 previous.2)
    (fun leaf => leaf.1.entries leaf.2) ?_ ?_ ?_
  · intro leaf r
    simp only [sameBlock, LeafMeta.block, bind_ok_iff, ensure_ok_iff, exists_const, Prod.mk.injEq]
  · intro s leaf padding
    rw [admitLeaf, if_pos (by simpa using padding)]
  · intro s leaf s' real
    rw [admitLeaf, if_neg (by simpa using real), true_and]

theorem admits_admitInner (numLeaves : ℕ) : Admits (admitInner numLeaves)
    (fun s => s.reference.map Prod.snd) (fun s => s.seen.map Prod.fst) (fun _ => true)
    (fun inner => inner.1.blockHash ≠ canonicalU64 paddingBlockHash)
    (fun inner => (inner.1.blockHash, inner.1.blockNumber))
    (fun inner => (inner.1.entries numLeaves inner.2).map Prod.fst) := by
  refine Admits.of_enter (fun inner => (inner.2, inner.1.blockHash, inner.1.blockNumber)) Prod.snd
    sameInnerBlock
    (fun entry previous => .repeatedNullifier entry.2.1 entry.2.2.1 entry.2.2.2 previous.1
      previous.2.1 previous.2.2)
    (fun inner => inner.1.entries numLeaves inner.2) ?_ ?_ ?_
  · intro inner r
    simp only [sameInnerBlock, ensure_ok_iff, Prod.ext_iff]
  · intro s inner never
    cases never
  · intro s inner s' _
    simp only [admitInner, bind_ok_iff, ensure_ok_iff, exists_const]

theorem LeafMeta.entries_ofProof (pis : List Felt) (index : ℕ) :
    ((LeafMeta.ofProof pis).entries index).map Prod.fst =
      (leafNullifiers pis).map canonicalU64 := by
  rw [entries, List.map_map, leafNullifiers, List.map_ofFn, List.ofFn_eq_map]
  rfl

theorem LeafMeta.counts_ofProof (pis : List Felt) :
    decide ((LeafMeta.ofProof pis).blockHash ≠ canonicalU64 paddingBlockHash) =
      !isPaddingProof pis := by
  rw [Bool.eq_iff_iff, decide_eq_true_eq, Bool.not_eq_true', ← Bool.not_eq_true, isPaddingProof_iff]
  rfl

/-- **What the check of the leaves decides.** -/
theorem ensureBatchCompatible_ok_iff (proofs : List (List Felt)) :
    ensureBatchCompatible proofs = .ok () ↔ realProofs proofs ≠ [] ∧
      (realProofs proofs).Pairwise (fun a b => blockOf a = blockOf b) ∧
      ((realProofs proofs).flatMap leafNullifiers).Nodup := by
  have walk := admits_admitLeaf.readings_ok_iff (s := ⟨none, []⟩)
    (fun pis _ => LeafMeta.counts_ofProof pis) (fun _ _ => Iff.rfl)
    (fun pis pis' _ _ => blockOf_eq_iff pis pis')
    LeafMeta.entries_ofProof canonicalU64_injective rfl rfl proofs
  simp only [ensureBatchCompatible, bind_ok_iff, ensure_ok_iff]
  constructor
  · rintro ⟨scan, walked, found⟩
    refine ⟨fun none => ?_, (walk.1 ⟨scan, walked⟩).2⟩
    have missing := (admits_admitLeaf.reference_of_readings
      (fun pis _ => LeafMeta.counts_ofProof pis) rfl walked).2 none
    rw [Option.map_eq_none_iff.1 missing] at found
    cases found
  · rintro ⟨some, decided⟩
    obtain ⟨scan, walked⟩ := walk.2 ⟨fun _ _ => trivial, decided⟩
    refine ⟨scan, walked, Option.ne_none_iff_isSome.1 fun none => some ?_⟩
    exact (admits_admitLeaf.reference_of_readings (fun pis _ => LeafMeta.counts_ofProof pis) rfl
      walked).1 (Option.map_eq_none_iff.2 none)

/-- All nullifiers an inner batch publishes. -/
def innerNullifiers (numLeaves : ℕ) (publicInputs : List Felt) : List Digest :=
  emittedNullifiers (readPrivateBatch publicInputs numLeaves).slots

theorem InnerMeta.entries_ofProof (numLeaves : ℕ) (pis : List Felt) (index : ℕ) :
    ((InnerMeta.ofProof pis).entries numLeaves index).map Prod.fst =
      (innerNullifiers numLeaves pis).map canonicalU64 := by
  rw [entries, innerNullifiers, emittedNullifiers, readPrivateBatch, List.flatMap_map,
    List.map_flatMap, List.map_flatMap]
  simp only [List.ofFn_eq_map, List.map_map]
  rfl

/-- **What the check of the inner batches decides.** -/
theorem ensureInnerBatchCompatible_ok_iff (proofs : List (List Felt)) (numLeaves : ℕ) :
    ensureInnerBatchCompatible proofs numLeaves = .ok () ↔
      (∀ pis ∈ proofs, isPaddingProof pis = false) ∧
      proofs.Pairwise (fun a b => blockOf a = blockOf b) ∧
      (proofs.flatMap (innerNullifiers numLeaves)).Nodup := by
  have walk := (admits_admitInner numLeaves).readings_ok_iff (s := ⟨none, []⟩)
    (fun _ _ => rfl)
    (fun pis _ => (not_congr isPaddingProof_iff).symm.trans (Bool.not_eq_true _).to_iff)
    (fun pis pis' _ _ => blockOf_eq_iff pis pis')
    (InnerMeta.entries_ofProof numLeaves) canonicalU64_injective rfl rfl proofs
  rw [List.filter_true] at walk
  simp only [ensureInnerBatchCompatible, bind_ok_iff, ← walk]
  exact exists_congr fun scan => and_iff_left rfl

/-! ## What the circuits ask -/

/-- Agreement with the first real proof is agreement of all of them. -/
theorem anchored_iff (proofs : List (List Felt)) :
    (∀ pis ∈ proofs, isPaddingProof pis = false →
      blockHashOf pis = (anchorOf proofs).1 ∧ blockNumberOf pis = (anchorOf proofs).2) ↔
    (realProofs proofs).Pairwise (fun a b => blockOf a = blockOf b) := by
  have first : ∀ pis ∈ realProofs proofs, ∃ first ∈ realProofs proofs, anchorOf proofs = blockOf first := by
    intro pis mem
    cases found : proofs.find? fun pis => !isPaddingProof pis with
    | none =>
      obtain ⟨mem, real⟩ := List.mem_filter.1 mem
      exact absurd real (List.find?_eq_none.1 found pis mem)
    | some first =>
      have real := List.find?_some found
      refine ⟨first, List.mem_filter.2 ⟨List.mem_of_find?_eq_some found, real⟩, ?_⟩
      rw [anchorOf, found]
      rfl
  have members : (∀ pis ∈ proofs, isPaddingProof pis = false →
      blockHashOf pis = (anchorOf proofs).1 ∧ blockNumberOf pis = (anchorOf proofs).2) ↔
      ∀ pis ∈ realProofs proofs, blockOf pis = anchorOf proofs := by
    simp only [realProofs, List.mem_filter, Bool.not_eq_true', and_imp, blockOf, Prod.ext_iff]
  rw [members, pairwise_eq_iff]
  constructor
  · intro anchored a mem b mem'
    exact (anchored a mem).trans (anchored b mem').symm
  · intro agree pis mem
    obtain ⟨first, mem', eq⟩ := first pis mem
    exact (agree pis mem first mem').trans eq.symm

/-- The preimages the padding slots of a batch publish the hashes of. -/
def paddingPreimages (leaves : List LeafProofTargets) : List Digest :=
  (leaves.filter LeafProofTargets.isPadding).flatMap fun leaf =>
    List.ofFn leaf.paddingNullifierPreimages

/-- What the nullifiers of a batch are: those of the real leaves, and those of padding slots. -/
theorem perm_emittedNullifiers (leaves : List LeafProofTargets) :
    (emittedNullifiers (leaves.map (LeafProofTargets.publishedSlot H))).Perm
      ((realProofs (leaves.map LeafProofTargets.publicInputs)).flatMap leafNullifiers ++
        (paddingPreimages leaves).map fun preimage =>
          H.hashToFelts (paddingNullifierInput preimage)) := by
  have real : (leaves.filter fun leaf => !leaf.isPadding).flatMap (fun leaf =>
      List.ofFn (leaf.publishedSlot H).nullifiers) =
      (realProofs (leaves.map LeafProofTargets.publicInputs)).flatMap leafNullifiers := by
    rw [realProofs, List.filter_map, List.flatMap_map]
    refine List.flatMap_congr fun leaf mem => ?_
    have flag : leaf.isPadding = false := by simpa using (List.mem_filter.1 mem).2
    rw [LeafProofTargets.publishedSlot, flag]
    rfl
  have padding : (leaves.filter LeafProofTargets.isPadding).flatMap (fun leaf =>
      List.ofFn (leaf.publishedSlot H).nullifiers) =
      (paddingPreimages leaves).map fun preimage =>
        H.hashToFelts (paddingNullifierInput preimage) := by
    rw [paddingPreimages, List.map_flatMap]
    refine List.flatMap_congr fun leaf mem => ?_
    rw [LeafProofTargets.publishedSlot, if_pos (List.mem_filter.1 mem).2, List.map_ofFn]
    rfl
  have split := (List.filter_append_perm LeafProofTargets.isPadding leaves).symm.trans
    List.perm_append_comm
  rw [emittedNullifiers, List.flatMap_map, ← real, ← padding, ← List.flatMap_append]
  exact split.flatMap_right _

/-- A leaf publishes its nullifiers under tags of their own. -/
theorem LeafStatement.exists_nullifier {pis : List Felt} (leaf : LeafStatement H Q pis)
    {n : Digest} (mem : n ∈ leafNullifiers pis) :
    ∃ x ∈ Q, n = H.hashToFelts x ∧ ∀ preimage, x ≠ paddingNullifierInput preimage := by
  obtain ⟨t, rfl, holds⟩ := leaf
  rw [leafNullifiers, leafSlot_publicInputs, List.mem_ofFn] at mem
  obtain ⟨i, rfl⟩ := mem
  obtain ⟨dummy, input⟩ := (LeafHolds.of_holds holds).inputs i
  refine ⟨_, input.nf_mem, input.nullifier_eq, fun preimage same => ?_⟩
  have tags := (feltsInput_inj.1 same).1
  cases dummy
  · exact absurd tags (by decide)
  · exact absurd tags (by decide)

/-- **Distinct preimages are enough.** -/
theorem nodup_emittedNullifiers (hH : CollisionFree H.hashToFelts Q)
    {leaves : List LeafProofTargets}
    (valid : ∀ pis ∈ realProofs (leaves.map LeafProofTargets.publicInputs), LeafStatement H Q pis)
    (published : ((realProofs (leaves.map LeafProofTargets.publicInputs)).flatMap
      leafNullifiers).Nodup)
    (distinct : (paddingPreimages leaves).Nodup)
    (drawn : ∀ preimage ∈ paddingPreimages leaves, paddingNullifierInput preimage ∈ Q) :
    (emittedNullifiers (leaves.map (LeafProofTargets.publishedSlot H))).Nodup := by
  rw [(perm_emittedNullifiers leaves).nodup_iff, List.nodup_append]
  refine ⟨published, ?_, ?_⟩
  · refine distinct.map_on fun a mem b mem' same => ?_
    have inputs := hH.inj (drawn a mem) (drawn b mem') same
    simp only [paddingNullifierInput, feltsInput_inj, List.flatten_cons, List.flatten_nil,
      List.append_nil, true_and] at inputs
    exact felts_injective inputs
  · rintro n real _ padding rfl
    obtain ⟨pis, mem, real⟩ := List.mem_flatMap.1 real
    obtain ⟨preimage, mem', hashed⟩ := List.mem_map.1 padding
    obtain ⟨x, queried, hash, apart⟩ := (valid pis mem).exists_nullifier real
    exact apart preimage (hH.inj queried (drawn preimage mem') (hash.symm.trans hashed.symm))

/-! ## In step -/

/-- The leaves of a batch: what was supplied, and the padding leaf in every empty slot. -/
def fillLeaves (H : Poseidon2) (numLeaves : ℕ) (proofs : List (List Felt)) : List (List Felt) :=
  proofs ++ List.replicate (numLeaves - proofs.length) (canonicalPaddingLeafPublicInputs H)

theorem realProofs_fill (proofs : List (List Felt)) (count : ℕ)
    (padding : isPaddingProof template = true) :
    realProofs (proofs ++ List.replicate count template) = realProofs proofs := by
  rw [realProofs, List.filter_append, List.filter_replicate, padding]
  simp [realProofs]

/-- The constraints, over the leaves alone and the nullifiers that come out. -/
theorem holds_privateBatch_iff (targets : PrivateBatchTargets) :
    (buildPrivateBatchConstraints H targets).Holds Set.univ ↔
      (realProofs (targets.leafProofs.map LeafProofTargets.publicInputs)).Pairwise
        (fun a b => blockOf a = blockOf b) ∧
      (emittedNullifiers (targets.leafProofs.map (LeafProofTargets.publishedSlot H))).Nodup := by
  rw [holds_buildPrivateBatchConstraints, ← anchored_iff, List.forall_mem_map]
  simp only [Set.mem_univ, implies_true, true_and]
  rfl

/-- What is admitted is satisfied in any order of the slots, by any distinct preimages. -/
theorem holds_of_admitted (hH : CollisionFree H.hashToFelts Q) (pinned : PaddingPinned H)
    (packs : (H.bytesToFelts (List.replicate digestLogsSize 0)).length = 28) (valid : ∀ pis ∈ proofs, LeafStatement H Q pis)
    (admitted : ensureBatchCompatible proofs = .ok ()) (targets : PrivateBatchTargets)
    (shuffled : (targets.leafProofs.map LeafProofTargets.publicInputs).Perm
      (fillLeaves H numLeaves proofs)) (distinct : (paddingPreimages targets.leafProofs).Nodup)
    (drawn : ∀ preimage ∈ paddingPreimages targets.leafProofs, paddingNullifierInput preimage ∈ Q) :
    (buildPrivateBatchConstraints H targets).Holds Set.univ := by
  obtain ⟨-, agree, nodup⟩ := (ensureBatchCompatible_ok_iff proofs).1 admitted
  have perm : (realProofs (targets.leafProofs.map LeafProofTargets.publicInputs)).Perm
      (realProofs proofs) := by
    have filled := realProofs_fill proofs (numLeaves - proofs.length)
      (isPaddingProof_canonical pinned packs)
    rw [← filled]
    exact shuffled.filter _
  rw [pairwise_eq_iff] at agree
  rw [holds_privateBatch_iff, pairwise_eq_iff]
  refine ⟨fun a mem b mem' => agree a (perm.subset mem) b (perm.subset mem'), ?_⟩
  refine nodup_emittedNullifiers hH (fun pis mem => ?_) ?_ distinct drawn
  · exact valid pis (List.mem_of_mem_filter (perm.subset mem))
  · exact (perm.flatMap_right leafNullifiers).nodup_iff.2 nodup

/-- Leaves next to the preimages drawn for their slots. -/
def drawnTargets (proofs : List (List Felt)) (drawn : List (Fin 2 → Digest)) :
    List LeafProofTargets :=
  List.zipWith LeafProofTargets.mk proofs drawn

theorem map_publicInputs_drawnTargets {drawn : List (Fin 2 → Digest)}
    (same : proofs.length = drawn.length) :
    (drawnTargets proofs drawn).map LeafProofTargets.publicInputs = proofs := by
  induction proofs generalizing drawn with
  | nil => rfl
  | cons pis proofs ih =>
    obtain _ | ⟨preimages, drawn⟩ := drawn
    · cases same
    · exact congrArg (pis :: ·) (ih (Nat.succ_inj.1 same))

/-- The padding slots publish some of what was drawn. -/
theorem paddingPreimages_drawnTargets (proofs : List (List Felt)) (drawn : List (Fin 2 → Digest)) :
    (paddingPreimages (drawnTargets proofs drawn)).Sublist (drawn.flatMap List.ofFn) := by
  induction proofs generalizing drawn with
  | nil => exact List.nil_sublist _
  | cons pis proofs ih =>
    obtain _ | ⟨preimages, drawn⟩ := drawn
    · exact List.nil_sublist _
    · rw [drawnTargets, List.zipWith_cons_cons, paddingPreimages, List.filter_cons,
        List.flatMap_cons]
      split
      · rw [List.flatMap_cons]
        exact (List.Sublist.refl _).append (ih drawn)
      · exact (ih drawn).trans (List.sublist_append_right ..)

/-- **The check of the leaves is in step with the circuit.** -/
theorem ensureBatchCompatible_iff (hH : CollisionFree H.hashToFelts Q) (pinned : PaddingPinned H)
    (packs : (H.bytesToFelts (List.replicate digestLogsSize 0)).length = 28) (supported : validateProofCount numLeaves = true) (valid : ∀ pis ∈ proofs, LeafStatement H Q pis) (fits : proofs.length ≤ numLeaves)
    {drawn : List (Fin 2 → Digest)} (slots : drawn.length = numLeaves)
    (distinct : (drawn.flatMap List.ofFn).Nodup)
    (queried : ∀ preimage ∈ drawn.flatMap List.ofFn, paddingNullifierInput preimage ∈ Q) :
    ensureBatchCompatible proofs = .ok () ↔
      (∃ pis ∈ proofs, isPaddingProof pis = false) ∧
      ∃ targets : PrivateBatchTargets,
        targets.leafProofs.map LeafProofTargets.publicInputs = fillLeaves H numLeaves proofs ∧
        (buildPrivateBatchConstraints H targets).Holds Set.univ := by
  have some_iff : realProofs proofs ≠ [] ↔ ∃ pis ∈ proofs, isPaddingProof pis = false := by
    simp [realProofs, List.filter_eq_nil_iff]
  constructor
  · intro admitted
    refine ⟨some_iff.1 ((ensureBatchCompatible_ok_iff proofs).1 admitted).1, ?_⟩
    have filled : (fillLeaves H numLeaves proofs).length = drawn.length := by
      rw [fillLeaves, List.length_append, List.length_replicate, slots]
      omega
    have inputs := map_publicInputs_drawnTargets filled
    have length : (drawnTargets (fillLeaves H numLeaves proofs) drawn).length = numLeaves := by
      rw [drawnTargets, List.length_zipWith, filled, slots, Nat.min_self]
    have chosen := paddingPreimages_drawnTargets (fillLeaves H numLeaves proofs) drawn
    refine ⟨⟨drawnTargets (fillLeaves H numLeaves proofs) drawn, (congrArg validateProofCount length).trans supported⟩,
      inputs, ?_⟩
    refine holds_of_admitted hH pinned packs valid admitted _ (by rw [inputs]) ?_ ?_
    · exact distinct.sublist chosen
    · exact fun preimage mem => queried preimage (chosen.subset mem)
  · rintro ⟨real, targets, inputs, holds⟩
    rw [holds_privateBatch_iff, (perm_emittedNullifiers _).nodup_iff, inputs, fillLeaves,
      realProofs_fill proofs _ (isPaddingProof_canonical pinned packs), List.nodup_append] at holds
    exact (ensureBatchCompatible_ok_iff proofs).2 ⟨some_iff.2 real, holds.1, holds.2.1⟩

/-! ## Inner batches -/

theorem isPaddingProof_template {verify : List Felt → Bool} (accepted : validatePaddingPrivateBatchTemplate verify template numLeaves = .ok ()) :
    template.length = privateBatchPiLen numLeaves ∧ isPaddingProof template = true := by
  simp only [validatePaddingPrivateBatchTemplate, bind_ok_iff, ensure_ok_iff, exists_const] at accepted
  exact ⟨accepted.1, isPaddingProof_iff.2 accepted.2.1⟩

/-- The segment an inner batch becomes. -/
def innerSegment (numLeaves : ℕ) (publicInputs : List Felt) : Segment :=
  Segment.ofInputs (readPrivateBatch publicInputs numLeaves)

/-- A segment publishes some of the nullifiers of its batch: the real slots' ones. -/
theorem nullifiersOf_innerSegment (numLeaves : ℕ) (pis : List Felt) :
    (nullifiersOf (innerSegment numLeaves pis).slots).Sublist
      ((innerNullifiers numLeaves pis).map digestBytes) := by
  rw [innerNullifiers, emittedNullifiers, innerSegment, Segment.ofInputs]
  induction (readPrivateBatch pis numLeaves).slots with
  | nil => exact List.nil_sublist _
  | cons slot slots ih =>
    rw [List.flatMap_cons, List.map_append, List.filter_cons]
    split
    · exact (List.Sublist.refl _).append ih
    · exact ih.trans (List.sublist_append_right ..)

theorem nodup_innerSegments (nodup : (proofs.flatMap (innerNullifiers numLeaves)).Nodup) :
    ((proofs.map (innerSegment numLeaves)).flatMap fun segment =>
      nullifiersOf segment.slots).Nodup := by
  have all : ((proofs.flatMap (innerNullifiers numLeaves)).map digestBytes).Nodup :=
    nodup.map digestBytes_injective
  refine all.sublist ?_
  rw [List.flatMap_map, List.map_flatMap]
  induction proofs with
  | nil => exact List.nil_sublist _
  | cons pis proofs ih =>
    rw [List.flatMap_cons, List.nodup_append] at nodup
    exact (nullifiersOf_innerSegment numLeaves pis).append
      (ih nodup.2.1 (nodup.2.1.map digestBytes_injective))

section

variable {cfg : Config} {c : Chain} {outputs : List ShieldedOutput} {segments : List Segment}
  {flags : List Bool}

/-- Segments that are anchored, unspent and apart all settle. -/
theorem FlagsRight.all (right : FlagsRight cfg c segments flags)
    (length : flags.length = segments.length)
    (anchored : ∀ segment ∈ segments, anchorFailure cfg c segment = none)
    (unspent : ∀ segment ∈ segments, ∀ n ∈ nullifiersOf segment.slots, n ∉ c.usedNullifiers)
    (apart : segments.Pairwise fun a b =>
      ∀ n ∈ nullifiersOf a.slots, n ∉ nullifiersOf b.slots) :
    ∀ flag ∈ flags, flag = true := by
  intro flag mem
  obtain ⟨i, inside, rfl⟩ := List.getElem_of_mem mem
  have here : i < segments.length := by omega
  have settles : Settles cfg c segments flags i segments[i] := by
    refine ⟨anchored _ (List.getElem_mem here), fun n published => ⟨?_, fun written => ?_⟩⟩
    · exact unspent _ (List.getElem_mem here) n published
    · obtain ⟨slot, mem, j, rfl⟩ := mem_nullifiersOf.1 written
      obtain ⟨front, there, mem⟩ := mem_writtenSlots mem
      -- The segment in front that publishes it stands at an earlier position.
      obtain ⟨k, before, rfl⟩ := List.getElem_of_mem there
      rw [List.length_take] at before
      rw [List.getElem_take] at mem
      have order := List.pairwise_iff_getElem.1 apart k i (by omega) here (by omega)
      exact order _ (mem_nullifiersOf.2 ⟨slot, mem, j, rfl⟩) published
  have flagged := (right i segments[i] (List.getElem?_eq_getElem here)).2 settles
  rw [List.getElem?_eq_getElem inside] at flagged
  exact Option.some.inj flagged

theorem walk_flags {s : PlanState}
    (walk : segments.foldlM (planSegment cfg c outputs) PlanState.start = .ok s) :
    s.settles.length = segments.length ∧ FlagsRight cfg c segments s.settles := by
  have both := foldlM_ok
    (P := fun segments s => Walked cfg c segments s ∧ FlagsRight cfg c segments s.settles)
    (fun _ _ _ _ hs hstep => ⟨planSegment_ok hs.1 hstep, planSegment_flags hs.1 hs.2 hstep⟩)
    segments [] _ s ⟨walked_start, by simp [FlagsRight]⟩ walk
  exact ⟨both.1.length_eq, both.2⟩

end

/-- The segments of a bundle settle or fail together: they share a block and no nullifier, so where the
block resolves and nothing is spent, neither the walk, however far it comes, nor a plan skips one. -/
structure SettlesTogether (bundle : SettlementBundle) : Prop where
  one_block : ∀ a ∈ bundle.segments, ∀ b ∈ bundle.segments,
    a.blockHash = b.blockHash ∧ a.blockNumber = b.blockNumber
  apart : bundle.segments.Pairwise fun a b =>
    ∀ n ∈ nullifiersOf a.slots, n ∉ nullifiersOf b.slots
  none_skipped : ∀ cfg c outputs, (∃ segment ∈ bundle.segments, anchorFailure cfg c segment = none) →
    (∀ segment ∈ bundle.segments, ∀ n ∈ nullifiersOf segment.slots, n ∉ c.usedNullifiers) →
    (∀ reached s, (bundle.segments.take reached).foldlM (planSegment cfg c outputs)
      PlanState.start = .ok s → ∀ flag ∈ s.settles, flag = true) ∧
    ∀ plan, planSettlement cfg c bundle outputs = .ok plan → ∀ flag ∈ plan.settles, flag = true

theorem anchorFailure_congr {cfg : Config} {c : Chain} {a b : Segment}
    (same : a.blockHash = b.blockHash ∧ a.blockNumber = b.blockNumber) :
    anchorFailure cfg c a = anchorFailure cfg c b := by
  rw [anchorFailure, anchorFailure, same.1, same.2]

theorem settlesTogether_inners (agree : proofs.Pairwise (fun a b => blockOf a = blockOf b))
    (nodup : (proofs.flatMap (innerNullifiers numLeaves)).Nodup) :
    SettlesTogether ⟨proofs.map (innerSegment numLeaves)⟩ := by
  have one_block : ∀ a ∈ proofs.map (innerSegment numLeaves),
      ∀ b ∈ proofs.map (innerSegment numLeaves),
        a.blockHash = b.blockHash ∧ a.blockNumber = b.blockNumber := by
    rw [pairwise_eq_iff] at agree
    simp only [List.forall_mem_map]
    intro a mem b mem'
    obtain ⟨hash, number⟩ := Prod.mk.inj (agree a mem b mem')
    exact ⟨congrArg digestBytes hash,
      congrArg (fun n : Felt => min (feltU64 n) Machine.u32Max) number⟩
  have apart : (proofs.map (innerSegment numLeaves)).Pairwise fun a b =>
      ∀ n ∈ nullifiersOf a.slots, n ∉ nullifiersOf b.slots :=
    (List.nodup_flatMap.1 (nodup_innerSegments nodup)).2.imp
      fun disjoint n mem mem' => disjoint mem mem'
  refine ⟨one_block, apart, fun cfg c outputs ⟨first, mem, resolves⟩ unspent => ?_⟩
  have anchored : ∀ segment ∈ proofs.map (innerSegment numLeaves),
      anchorFailure cfg c segment = none := fun segment mem' =>
    (anchorFailure_congr (one_block segment mem' first mem)).trans resolves
  constructor
  · intro reached s walk
    obtain ⟨length, right⟩ := walk_flags walk
    have kept := List.take_sublist reached (proofs.map (innerSegment numLeaves))
    exact right.all length (fun segment mem => anchored segment (kept.subset mem))
      (fun segment mem => unspent segment (kept.subset mem)) (apart.sublist kept)
  · intro plan planned
    exact (planSettlement_flags planned).all (planSettlement_ok planned).length_eq anchored unspent
      apart

/-- A public batch of these inner batches, filled up with a template: it satisfies the circuit, and
the bundle the chain reads back from it is theirs and settles together. -/
structure PublicBatchTargets.Carries (targets : PublicBatchTargets) (numInner numLeaves : ℕ)
    (proofs : List (List Felt)) (template : List Felt) (address : Digest) : Prop where
  proofs_eq : targets.privateBatchProofs =
    proofs ++ List.replicate (numInner - proofs.length) template
  address_eq : targets.aggregatorAddress = address
  numLeaves_eq : targets.numLeaves = numLeaves
  holds : (buildPublicBatchConstraints targets).Holds Set.univ
  parsed : parsePublicBatchPublicInputFelts (buildPublicBatchConstraints targets).value numInner
    numLeaves = .ok targets.published
  segments : (SettlementBundle.fromPublicBatch targets.published).segments =
    proofs.map (innerSegment numLeaves)
  together : SettlesTogether (SettlementBundle.fromPublicBatch targets.published)

/-- **What the check of the inner batches admits** is carried, with any accepted template and under
any address. -/
theorem carries_of_inners_admitted {numInner : ℕ}
    (inner_supported : validateProofCount numInner = true)
    (leaves_supported : validateProofCount numLeaves = true) (lengths : ∀ pis ∈ proofs, pis.length = privateBatchPiLen numLeaves)
    (fits : proofs.length ≤ numInner)
    (admitted : ensureInnerBatchCompatible proofs numLeaves = .ok ())
    {verify : List Felt → Bool} (accepted : validatePaddingPrivateBatchTemplate verify template numLeaves = .ok ())
    (address : Digest) :
    ∃ targets : PublicBatchTargets, targets.Carries numInner numLeaves proofs template address := by
  obtain ⟨real, agree, nodup⟩ := (ensureInnerBatchCompatible_ok_iff proofs numLeaves).1 admitted
  obtain ⟨length, padding⟩ := isPaddingProof_template accepted
  have count : (proofs ++ List.replicate (numInner - proofs.length) template).length = numInner := by
    rw [List.length_append, List.length_replicate]
    omega
  let targets : PublicBatchTargets := {
    privateBatchProofs := proofs ++ List.replicate (numInner - proofs.length) template
    aggregatorAddress := address
    numLeaves := numLeaves
    inner_supported := (congrArg validateProofCount count).trans inner_supported
    leaves_supported := leaves_supported
    length_eq := List.forall_mem_append.2 ⟨lengths, fun pis mem => by
      rw [List.eq_of_mem_replicate mem]
      exact length⟩ }
  have reals : realProofs targets.privateBatchProofs = proofs := by
    rw [realProofs_fill proofs _ padding, realProofs, List.filter_eq_self]
    intro pis mem
    rw [real pis mem, Bool.not_false]
  have segments : (SettlementBundle.fromPublicBatch targets.published).segments =
      proofs.map (innerSegment numLeaves) := by
    rw [SettlementBundle.fromPublicBatch, targets.settleableBatches_published, List.map_map]
    exact congrArg (List.map _) reals
  have parsed := parsePublic_published targets
  rw [show targets.numInner = numInner from count] at parsed
  refine ⟨targets, rfl, rfl, rfl, ?_, parsed, segments, ?_⟩
  · rw [holds_buildPublicBatchConstraints, anchored_iff, reals]
    refine ⟨agree, ?_⟩
    -- The keys of two real inners are nullifiers of different inners; a template is not compared.
    have keys : proofs.Pairwise fun left right => innerKey left ≠ innerKey right := by
      refine (List.nodup_flatMap.1 nodup).2.imp fun {left right} disjoint same => ?_
      have positive : 0 < numLeaves := (of_decide_eq_true leaves_supported).1
      have published : ∀ pis, innerKey pis ∈ innerNullifiers numLeaves pis := by
        intro pis
        refine List.mem_flatMap.2 ⟨slotAt pis 0, List.mem_map.2 ⟨0, List.mem_range.2 positive, rfl⟩, ?_⟩
        exact List.mem_ofFn.2 ⟨0, rfl⟩
      exact disjoint (published left) (same ▸ published right)
    refine List.pairwise_append.2 ⟨keys.imp fun differ _ _ => differ, ?_, ?_⟩
    · refine List.pairwise_replicate.2 (.inr fun flag => ?_)
      rw [padding] at flag
      cases flag
    · intro left _ right mem _ flag
      rw [List.eq_of_mem_replicate mem, padding] at flag
      cases flag
  · have together := settlesTogether_inners agree nodup
    rw [← segments] at together
    exact together

/-- **Admission is in step with the circuits.** For leaves it decides exactly whether there is a
satisfying assignment, and what is admitted is satisfied in any order of the slots by any distinct
preimages; inner batches it admits make a batch whose segments settle together. -/
theorem batch_admission (hH : CollisionFree H.hashToFelts Q) (pinned : PaddingPinned H)
    (packs : (H.bytesToFelts (List.replicate digestLogsSize 0)).length = 28) :
    (∀ numLeaves, validateProofCount numLeaves = true → ∀ proofs : List (List Felt),
      (∀ pis ∈ proofs, LeafStatement H Q pis) → proofs.length ≤ numLeaves →
      (∀ drawn : List (Fin 2 → Digest), drawn.length = numLeaves →
        (drawn.flatMap List.ofFn).Nodup →
        (∀ preimage ∈ drawn.flatMap List.ofFn, paddingNullifierInput preimage ∈ Q) →
        (ensureBatchCompatible proofs = .ok () ↔
          (∃ pis ∈ proofs, isPaddingProof pis = false) ∧
          ∃ targets : PrivateBatchTargets,
            targets.leafProofs.map LeafProofTargets.publicInputs = fillLeaves H numLeaves proofs ∧
            (buildPrivateBatchConstraints H targets).Holds Set.univ)) ∧
      (ensureBatchCompatible proofs = .ok () → ∀ targets : PrivateBatchTargets,
        (targets.leafProofs.map LeafProofTargets.publicInputs).Perm
          (fillLeaves H numLeaves proofs) →
        (paddingPreimages targets.leafProofs).Nodup →
        (∀ preimage ∈ paddingPreimages targets.leafProofs, paddingNullifierInput preimage ∈ Q) →
        (buildPrivateBatchConstraints H targets).Holds Set.univ)) ∧
    ∀ numInner numLeaves, validateProofCount numInner = true → validateProofCount numLeaves = true →
      ∀ proofs : List (List Felt), (∀ pis ∈ proofs, pis.length = privateBatchPiLen numLeaves) →
      proofs.length ≤ numInner → ensureInnerBatchCompatible proofs numLeaves = .ok () →
      ∀ verify template, validatePaddingPrivateBatchTemplate verify template numLeaves = .ok () →
      ∀ address, ∃ targets : PublicBatchTargets,
        targets.Carries numInner numLeaves proofs template address := by
  constructor
  · intro numLeaves supported proofs valid fits
    constructor
    · intro drawn slots distinct queried
      exact ensureBatchCompatible_iff hH pinned packs supported valid fits slots distinct queried
    · intro admitted targets shuffled distinct drawn
      exact holds_of_admitted hH pinned packs valid admitted targets shuffled distinct drawn
  · intro numInner numLeaves inner_supported leaves_supported proofs lengths fits admitted verify
      template accepted address
    exact carries_of_inners_admitted inner_supported leaves_supported lengths fits admitted accepted
      address

namespace Sample

/-- The sample spend in the second of two slots, behind the padding leaf. -/
def shuffledBatch : PrivateBatchTargets :=
  ⟨[⟨canonicalPaddingLeafPublicInputs sampleSponge, preimages 1⟩, ⟨spend.publicInputs, preimages 0⟩],
    rfl⟩

end Sample

open Sample in
/-- The sample spend in two slots, proved in some order and in the other, and its batch next to a
template. -/
theorem batch_admission_sample :
    ensureBatchCompatible [spend.publicInputs] = .ok () ∧
    (∃ targets : PrivateBatchTargets, targets.leafProofs.map LeafProofTargets.publicInputs =
        [spend.publicInputs, canonicalPaddingLeafPublicInputs sampleSponge] ∧
      (buildPrivateBatchConstraints sampleSponge targets).Holds Set.univ) ∧
    (buildPrivateBatchConstraints sampleSponge shuffledBatch).Holds Set.univ ∧
    ensureInnerBatchCompatible [(batch.published sampleSponge).toFelts] 2 = .ok () ∧
    ∃ targets : PublicBatchTargets,
      targets.privateBatchProofs = [(batch.published sampleSponge).toFelts, paddingInner.toFelts] ∧
      (buildPublicBatchConstraints targets).Holds Set.univ := by
  have evaluated : ensureBatchCompatible [spend.publicInputs] = .ok () ∧
      ensureInnerBatchCompatible [(batch.published sampleSponge).toFelts] 2 = .ok () ∧
      validatePaddingPrivateBatchTemplate (fun _ => true) paddingInner.toFelts 2 = .ok () ∧
      paddingPreimages shuffledBatch.leafProofs = List.ofFn (preimages 1) := by
    decide +kernel
  -- The gates of the sample batch ask for every preimage drawn here.
  have queried : ∀ preimage ∈ (batch.leafProofs.map
      LeafProofTargets.paddingNullifierPreimages).flatMap List.ofFn,
      paddingNullifierInput preimage ∈ {x | x ∈ batchHashed} := by
    intro preimage mem
    obtain ⟨slot, among, here⟩ := List.mem_flatMap.1 mem
    obtain ⟨i, rfl⟩ := List.mem_ofFn.1 here
    obtain ⟨leaf, inside, rfl⟩ := List.mem_map.1 among
    exact ((holds_buildPrivateBatchConstraints sampleSponge batch).1 holds_batch).2.1 leaf inside i
  obtain ⟨leaves, inners, template, drawn⟩ := evaluated
  obtain ⟨private_, public_⟩ :=
    batch_admission batchHashed_collisionFree paddingPinned_sampleSponge rfl
  obtain ⟨provable, shuffled⟩ := private_ 2 rfl [spend.publicInputs] (fun pis mem => by
    obtain rfl := List.mem_singleton.1 mem
    exact batch_leaves _ (List.mem_cons_self ..)) (by decide)
  obtain ⟨targets, carries⟩ := public_ 2 2 rfl rfl
    [(batch.published sampleSponge).toFelts] (fun pis mem => by
      obtain rfl := List.mem_singleton.1 mem
      exact PrivateBatchPublicInputs.length_toFelts _) (by decide) inners _ _ template 0
  refine ⟨leaves, ((provable _ rfl (by decide +kernel) queried).1 leaves).2,
    shuffled leaves shuffledBatch (List.Perm.swap ..) ?_ fun preimage mem => ?_, inners, targets,
    carries.proofs_eq, carries.holds⟩
  · rw [drawn]
    decide +kernel
  · rw [drawn] at mem
    exact queried preimage (List.mem_append_right _ (List.mem_append_left _ mem))

end Qnero
