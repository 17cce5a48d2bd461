import Qnero.Batch.Layout
import Qnero.Machine

/-!
# What a settlement settles

The pallet reads a verified proof's public inputs into segments of real slots, 32-byte values in
place of field elements. Padding is dropped on the way: a padding segment by its sentinel, a
padding slot by its two zero commitments.
-/

namespace Qnero

open Plonkish

@[ext] structure RealSlot where
  nullifiers : Fin 2 → Hash256
  commitments : Fin 2 → Hash256
  /-- In pool steps. -/
  fee : ℕ
  ctDigest : Hash256

instance : DecidableEq RealSlot := fun a b => decidable_of_iff (a.nullifiers = b.nullifiers ∧
  a.commitments = b.commitments ∧ a.fee = b.fee ∧ a.ctDigest = b.ctDigest) RealSlot.ext_iff.symm

@[ext] structure Segment where
  blockHash : Hash256
  blockNumber : ℕ
  slots : List RealSlot

instance : DecidableEq Segment := fun a b => decidable_of_iff (a.blockHash = b.blockHash ∧
  a.blockNumber = b.blockNumber ∧ a.slots = b.slots) Segment.ext_iff.symm

@[ext] structure SettlementBundle where
  segments : List Segment

instance : DecidableEq SettlementBundle := fun a b =>
  decidable_of_iff (a.segments = b.segments) SettlementBundle.ext_iff.symm

def feltU64 (felt : Felt) : ℕ := felt.val

/-- The 32-byte form of a published slot. -/
def RealSlot.ofSlot (slot : BatchLeafSlot) : RealSlot where
  nullifiers i := digestBytes (slot.nullifiers i)
  commitments i := digestBytes (slot.commitments i)
  fee := feltU64 slot.fee
  ctDigest := digestBytes slot.ctDigest

/-- `Segment::from`. A block number above 32 bits saturates. -/
def Segment.ofInputs (inputs : PrivateBatchPublicInputs) : Segment where
  blockHash := digestBytes inputs.blockHash
  blockNumber := min (feltU64 inputs.blockNumber) Machine.u32Max
  slots := (inputs.slots.filter fun slot => !slot.isPadding).map RealSlot.ofSlot

namespace SettlementBundle

def fromPrivateBatch (inputs : PrivateBatchPublicInputs) : SettlementBundle :=
  ⟨if inputs.isPadding then [] else [Segment.ofInputs inputs]⟩

def fromPublicBatch (inputs : PublicBatchPublicInputs) : SettlementBundle :=
  ⟨inputs.settleableBatches.map Segment.ofInputs⟩

/-- Every real slot of every segment, in the order the submitted outputs follow. -/
def realSlots (bundle : SettlementBundle) : List RealSlot :=
  bundle.segments.flatMap Segment.slots

end SettlementBundle

/-- The verifier's test of the block hash is the circuits' test. -/
theorem PrivateBatchPublicInputs.isPadding_eq (inputs : PrivateBatchPublicInputs) :
    inputs.isPadding = decide (inputs.blockHash = paddingBlockHash) := by
  simp [isPadding, funext_iff, (ZMod.val_injective _).eq_iff]

theorem BatchLeafSlot.isPadding_eq (slot : BatchLeafSlot) :
    slot.isPadding = decide (∀ i, slot.commitments i = 0) := by
  simp [isPadding, funext_iff]

end Qnero
