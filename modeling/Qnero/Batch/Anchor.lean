import Qnero.Batch.Layout

/-!
# One block for a whole batch

Both batch circuits begin in the same way. Each inner proof is flagged as padding by its published
block hash; the first one that is not supplies the block reference; every other that is not has to
agree with it. `anchorOf` says what the prefix scan computes, `holds_anchorProofs` what the
agreement checks then establish.
-/

namespace Qnero

open Plonkish Builder

variable {Q : Set (List Felt)}

/-- The block hash an inner proof publishes; leaf and private batch put it first. -/
def blockHashOf (publicInputs : List Felt) : Digest := digestAt publicInputs blockHashStart

def blockNumberOf (publicInputs : List Felt) : Felt := publicInputs.getD blockNumberIndex 0

/-- An inner proof next to its padding flag. -/
structure FlaggedProof where
  publicInputs : List Felt
  isPadding : Felt

structure BlockReference where
  foundReal : Felt
  blockRef : Digest
  blockNumberRef : Felt

def flagPadding (publicInputs : List Felt) : Wires FlaggedProof := do
  let isPadding ← isPaddingBlockHash (blockHashOf publicInputs)
  pure ⟨publicInputs, isPadding⟩

/-- One step of the scan: take this proof's block if it is the first real one. -/
def scanReference (acc : BlockReference) (proof : FlaggedProof) : Wires BlockReference := do
  let isReal ← not proof.isPadding
  let notFoundYet ← not acc.foundReal
  let take ← and isReal notFoundYet
  let blockRef ← Circuit.arrayFromFn fun limb =>
    select take (blockHashOf proof.publicInputs limb) (acc.blockRef limb)
  let blockNumberRef ← select take (blockNumberOf proof.publicInputs) acc.blockNumberRef
  let foundReal ← or acc.foundReal isReal
  pure ⟨foundReal, blockRef, blockNumberRef⟩

/-- The block reference: the first real proof's block, or the sentinel if there is none. -/
def blockReference (proofs : List FlaggedProof) : Wires BlockReference :=
  proofs.foldlM scanReference ⟨ofBool false, paddingBlockHash, (paddingBlockNumber : Felt)⟩

/-- A real proof carries the reference. -/
def agreeWithReference (reference : BlockReference) (proof : FlaggedProof) : Wires Unit := do
  let hashMatches ← digestsAreEqual (blockHashOf proof.publicInputs) reference.blockRef
  let hashOk ← or proof.isPadding hashMatches
  connect hashOk 1
  let numberMatches ← isEqual (blockNumberOf proof.publicInputs) reference.blockNumberRef
  let numberOk ← or proof.isPadding numberMatches
  connect numberOk 1

/-- Flags, scan and agreement. -/
def anchorProofs (proofs : List (List Felt)) : Wires (List FlaggedProof × BlockReference) := do
  let flagged ← Circuit.mapList proofs flagPadding
  let reference ← blockReference flagged
  Circuit.forEach flagged (agreeWithReference reference)
  pure (flagged, reference)

/-! ## What it computes -/

/-- Does this proof carry the sentinel? -/
def isPaddingProof (publicInputs : List Felt) : Bool :=
  decide (blockHashOf publicInputs = paddingBlockHash)

/-- The flag wires carry the padding bits. -/
def flagged (publicInputs : List Felt) : FlaggedProof :=
  ⟨publicInputs, ofBool (isPaddingProof publicInputs)⟩

@[simp] theorem flagPadding_value (pis : List Felt) : (flagPadding pis).value = flagged pis := by
  simp [flagPadding, flagged, isPaddingProof]

@[simp] theorem holds_flagPadding (pis : List Felt) : (flagPadding pis).Holds Q := by
  simp [flagPadding]

/-- Block hash and number of the first real proof. -/
def anchorOf (proofs : List (List Felt)) : Digest × Felt :=
  match proofs.find? fun pis => !isPaddingProof pis with
  | some pis => (blockHashOf pis, blockNumberOf pis)
  | none => (paddingBlockHash, (paddingBlockNumber : Felt))

/-- Once a real proof has been found the reference does not move; before that a real proof sets it
and a padding proof leaves it alone. -/
theorem scanReference_value (found : Bool) (ref : Digest) (number : Felt) (pis : List Felt) :
    (scanReference ⟨ofBool found, ref, number⟩ (flagged pis)).value =
      if found || isPaddingProof pis then ⟨ofBool found, ref, number⟩
      else ⟨ofBool true, blockHashOf pis, blockNumberOf pis⟩ := by
  cases found <;> cases h : isPaddingProof pis <;> simp [scanReference, flagged, h]

theorem holds_scanReference (acc : BlockReference) (proof : FlaggedProof) :
    (scanReference acc proof).Holds Q := by
  simp [scanReference]

theorem foldl_scanReference_found (ref : Digest) (number : Felt) (proofs : List (List Felt)) :
    (proofs.map flagged).foldl (fun acc proof => (scanReference acc proof).value)
      ⟨ofBool true, ref, number⟩ = ⟨ofBool true, ref, number⟩ := by
  induction proofs with
  | nil => rfl
  | cons pis proofs ih => rw [List.map_cons, List.foldl_cons, scanReference_value, Bool.true_or,
      if_pos rfl, ih]

theorem foldl_scanReference (ref : Digest) (number : Felt) (proofs : List (List Felt)) :
    (proofs.map flagged).foldl (fun acc proof => (scanReference acc proof).value)
      ⟨ofBool false, ref, number⟩ =
    match proofs.find? fun pis => !isPaddingProof pis with
    | some pis => ⟨ofBool true, blockHashOf pis, blockNumberOf pis⟩
    | none => ⟨ofBool false, ref, number⟩ := by
  induction proofs with
  | nil => rfl
  | cons pis proofs ih =>
    rw [List.map_cons, List.foldl_cons, scanReference_value, Bool.false_or, List.find?_cons]
    -- The first real proof ends the search; what follows cannot move the reference.
    cases isPaddingProof pis with
    | true => exact ih
    | false => exact foldl_scanReference_found _ _ _

/-- **The scan finds the first real proof.** -/
theorem blockReference_value (proofs : List (List Felt)) :
    (blockReference (proofs.map flagged)).value.blockRef = (anchorOf proofs).1 ∧
      (blockReference (proofs.map flagged)).value.blockNumberRef = (anchorOf proofs).2 := by
  rw [blockReference, Circuit.foldlM_value, foldl_scanReference, anchorOf]
  cases proofs.find? fun pis => !isPaddingProof pis <;> exact ⟨rfl, rfl⟩

theorem holds_agreeWithReference (reference : BlockReference) (pis : List Felt) :
    (agreeWithReference reference (flagged pis)).Holds Q ↔ (isPaddingProof pis = false →
      blockHashOf pis = reference.blockRef ∧ blockNumberOf pis = reference.blockNumberRef) := by
  cases h : isPaddingProof pis <;> simp [agreeWithReference, flagged, h]

/-- The flags, and the anchor next to them. -/
theorem anchorProofs_value (proofs : List (List Felt)) :
    (anchorProofs proofs).value.1 = proofs.map flagged ∧
      (anchorProofs proofs).value.2.blockRef = (anchorOf proofs).1 ∧
      (anchorProofs proofs).value.2.blockNumberRef = (anchorOf proofs).2 := by
  have reference := blockReference_value proofs
  simp only [anchorProofs, Circuit.bind_value, Circuit.mapList_value, flagPadding_value,
    Circuit.pure_value]
  exact ⟨trivial, reference⟩

theorem holds_anchorProofs (proofs : List (List Felt)) :
    (anchorProofs proofs).Holds Q ↔ ∀ pis ∈ proofs, isPaddingProof pis = false →
      blockHashOf pis = (anchorOf proofs).1 ∧ blockNumberOf pis = (anchorOf proofs).2 := by
  obtain ⟨hash, number⟩ := blockReference_value proofs
  have scan : (blockReference (proofs.map flagged)).Holds Q :=
    Circuit.holds_foldlM_of_forall holds_scanReference _ _
  simp [anchorProofs, scan, holds_agreeWithReference, hash, number]

/-- The reference is the sentinel exactly when no proof is real. -/
theorem anchorOf_eq_padding (proofs : List (List Felt)) :
    (anchorOf proofs).1 = paddingBlockHash ↔ ∀ pis ∈ proofs, isPaddingProof pis = true := by
  rw [anchorOf]
  cases h : proofs.find? fun pis => !isPaddingProof pis with
  | none => simpa using h
  | some pis =>
    have real : isPaddingProof pis = false := by simpa using List.find?_some h
    constructor
    · intro hpad
      have sentinel : blockHashOf pis = paddingBlockHash := hpad
      simp [isPaddingProof, sentinel] at real
    · intro all
      simp [all pis (List.mem_of_find?_eq_some h)] at real

end Qnero
