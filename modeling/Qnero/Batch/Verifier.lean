import Qnero.Batch.Layout
import Qnero.Dispatch

/-!
# Reading a serialized proof

The verifier crate around plonky2. `parseProofBytes` reads the public inputs of a serialized proof
and checks nothing about them; `verifyProofBytes` is the same reading with the verification behind
it. Deserialization, serialization and the verification itself are plonky2's and stay abstract in
`CircuitData`.
-/

namespace Qnero

open Plonkish

/-- plonky2 for one circuit: its proofs, their encoding, their public inputs and their check. -/
structure CircuitData where
  Proof : Type
  fromBytes : List UInt8 → Option Proof
  toBytes : Proof → List UInt8
  publicInputs : Proof → List Felt
  verify : Proof → Bool

/-- `qnero_verifier::MAX_PROOF_BYTES`; the pallet's own cap is half of it. -/
def verifierMaxProofBytes : ℕ := 1024 * 1024

/-- Why a serialized proof is refused, in the order of the checks. -/
inductive ProofRejection where
  | tooLarge
  | deserialization
  | nonCanonicalEncoding
  | publicInputLayout
  | verification
deriving DecidableEq

section

variable {α : Type} (data : CircuitData)

/-- Deserialize a proof and refuse anything but its canonical encoding. -/
def decodeCanonicalProof (bytes : List UInt8) : Except ProofRejection data.Proof := do
  ensure (bytes.length ≤ verifierMaxProofBytes) .tooLarge
  let proof ← okOr (data.fromBytes bytes) .deserialization
  ensure (data.toBytes proof = bytes) .nonCanonicalEncoding
  .ok proof

/-- The public inputs of a proof, by a layout. -/
def readInputs (layout : List Felt → Except String α) (proof : data.Proof) :
    Except ProofRejection α :=
  (layout (data.publicInputs proof)).mapError fun _ => .publicInputLayout

/-- Read the public inputs without verifying. -/
def parseWith (layout : List Felt → Except String α) (bytes : List UInt8) :
    Except ProofRejection α := do
  let proof ← decodeCanonicalProof data bytes
  readInputs data layout proof

/-- Read the public inputs, then verify. -/
def verifyWith (layout : List Felt → Except String α) (bytes : List UInt8) :
    Except ProofRejection α := do
  let proof ← decodeCanonicalProof data bytes
  let inputs ← readInputs data layout proof
  ensure (data.verify proof) .verification
  .ok inputs

end

/-! ## The two verifiers -/

structure QneroPrivateBatchVerifier where
  circuitData : CircuitData
  numLeaves : ℕ

structure QneroPublicBatchVerifier where
  circuitData : CircuitData
  numInner : ℕ
  numLeaves : ℕ

namespace QneroPrivateBatchVerifier

variable (v : QneroPrivateBatchVerifier)

def layout (publicInputs : List Felt) : Except String PrivateBatchPublicInputs :=
  parsePrivateBatchPublicInputFelts publicInputs v.numLeaves

def parseProofBytes : List UInt8 → Except ProofRejection PrivateBatchPublicInputs :=
  parseWith v.circuitData v.layout

def verifyProofBytes : List UInt8 → Except ProofRejection PrivateBatchPublicInputs :=
  verifyWith v.circuitData v.layout

end QneroPrivateBatchVerifier

namespace QneroPublicBatchVerifier

variable (v : QneroPublicBatchVerifier)

def layout (publicInputs : List Felt) : Except String PublicBatchPublicInputs :=
  parsePublicBatchPublicInputFelts publicInputs v.numInner v.numLeaves

def parseProofBytes : List UInt8 → Except ProofRejection PublicBatchPublicInputs :=
  parseWith v.circuitData v.layout

def verifyProofBytes : List UInt8 → Except ProofRejection PublicBatchPublicInputs :=
  verifyWith v.circuitData v.layout

end QneroPublicBatchVerifier

/-- **A verified proof parses**, to the same public inputs. -/
theorem parseWith_of_verifyWith {α : Type} {data : CircuitData} {layout : List Felt → Except String α}
    {bytes : List UInt8} {inputs : α} (h : verifyWith data layout bytes = .ok inputs) :
    parseWith data layout bytes = .ok inputs := by
  simp only [verifyWith, bind_ok_iff, Except.ok.injEq] at h
  obtain ⟨proof, decoded, read, hread, -, -, rfl⟩ := h
  rw [parseWith, bind_ok_iff]
  exact ⟨proof, decoded, hread⟩

end Qnero
