import Qnero.Chain.Balances
import Qnero.Shielded.Bundle
import Qnero.Tree.Correct

/-!
# The chain's storage

The part of the runtime that value flows through: system block numbers and hashes, the commitment
tree, the shielded pallet's storage, transparent balances, and the fees waiting for the next block
reward. `Config` holds the runtime's constants.
-/

namespace Qnero

open Machine

/-! ## Constants -/

/-- A ratio in parts per million. -/
structure Permill where
  parts : ℕ
  parts_le : parts ≤ 1000000

/-- The share of `n`, rounded up. -/
def Permill.mulCeil (rate : Permill) (n : ℕ) : ℕ := (n * rate.parts + 999999) / 1000000

theorem Permill.mulCeil_le (rate : Permill) (n : ℕ) : rate.mulCeil n ≤ n := by
  have := Nat.mul_le_mul_left n rate.parts_le
  unfold mulCeil
  omega

structure Config where
  blockHashCount : ℕ
  blockHashWindow : ℕ
  minLeafFee : ℕ
  ciphertextBytesPerFeeQuantum : ℕ
  feeBurnRate : Permill
  maxCiphertextBytes : ℕ
  maxOutputsPerBlock : ℕ
  existentialDeposit : ℕ
  maxSupply : ℕ
  emissionDivisor : ℕ
  /-- The counter saturates at `u32::MAX`, so the budget has to stay below it to mean anything. -/
  maxOutputsPerBlock_lt : maxOutputsPerBlock < u32Max
  /-- A balance. -/
  maxSupply_le : maxSupply ≤ u128Max

/-- The runtime's values. -/
def runtime : Config where
  blockHashCount := 4096
  blockHashWindow := 256
  minLeafFee := 1
  ciphertextBytesPerFeeQuantum := 512
  feeBurnRate := ⟨500000, by decide⟩
  maxCiphertextBytes := 2048
  maxOutputsPerBlock := 2048
  existentialDeposit := 10 ^ 9
  maxSupply := 21000000 * 10 ^ 12
  emissionDivisor := 5000000
  maxOutputsPerBlock_lt := by decide
  maxSupply_le := by decide

/-- One step of pool value, in planck. -/
def poolStep : ℕ := 10000000000

/-- `usize` of the runtime, which runs as 32-bit wasm. -/
def usizeMax : ℕ := u32Max

/-! ## Errors -/

inductive Error where
  | proofTooLarge
  | proofDeserializationFailed
  | nonCanonicalProofEncoding
  | verifierNotAvailable
  | proofVerificationFailed
  | invalidPublicInputs
  | nothingToSettle
  | blockNotFound
  | blockOutsideWindow
  | blockHashMismatch
  | nullifierAlreadyUsed
  | duplicateNullifier
  | zeroNullifier
  | zeroCommitment
  | feeBelowMinimum
  | valueOutOfRange
  | poolUnderflow
  | ciphertextCountMismatch
  | ciphertextDigestMismatch
  | ciphertextTooLarge
  | emptyCiphertext
  | ciphertextLengthMismatch
  | unknownCryptoSuite
  | payloadUnderpaid
  | treeFull
  | valueNotQuantized
  | nonCanonicalInner
  | coinbaseAlreadySet
  | noBlockAuthor
  | coinbasePayloadNotSupported
  | tooManyOutputsInBlock
deriving DecidableEq

/-- Why a call fails: an error of one of the pallets, or a panic. -/
inductive DispatchError where
  | shielded (e : Error)
  | zkTree (e : ZkTreeError)
  | balances (e : BalancesError)
  | badOrigin
  | indexOutOfBounds
  | blockNumberOverflow
deriving DecidableEq

/-! ## Storage -/

/-- The two note ciphertexts of one real slot. -/
structure ShieldedOutput where
  ct1 : List UInt8
  ct2 : List UInt8

structure CoinbasePayload where
  inner : Hash256
  ciphertext : List UInt8

structure Chain where
  /-- The block being executed. -/
  blockNumber : ℕ
  /-- Hashes of finished blocks; zero where none is stored. -/
  blockHash : ℕ → Hash256
  /-- The block's digest names an author. -/
  hasAuthor : Bool
  tree : ZkTree
  usedNullifiers : Finset Hash256
  /-- A block and the output notes created in it. -/
  outputsWrittenThisBlock : ℕ × ℕ
  leafBlocks : ℕ → Option ℕ
  entryCount : ℕ
  poolValue : ℕ
  pendingCoinbase : Option CoinbasePayload
  pendingCoinbaseFee : ℕ
  coinbaseValues : ℕ → Option ℕ
  balances : Balances
  collectedFees : ℕ

namespace Chain

/-- **The whole supply**, over both books: issuance, fees burned and not yet minted again, the
pool, and the author's share on its way back into it. -/
def supply (c : Chain) : ℕ :=
  c.balances.totalIssuance + c.collectedFees + c.poolValue + c.pendingCoinbaseFee

/-! ## The output budget of a block -/

def outputsWritten (c : Chain) : ℕ :=
  if c.outputsWrittenThisBlock.1 = c.blockNumber then c.outputsWrittenThisBlock.2 else 0

def ensureOutputCapacity (cfg : Config) (c : Chain) (count : ℕ) : Except Error Unit :=
  ensure (∃ total ∈ checkedAdd u32Max c.outputsWritten count, total ≤ cfg.maxOutputsPerBlock)
    .tooManyOutputsInBlock

def recordOutputs (c : Chain) (count : ℕ) : Chain :=
  { c with outputsWrittenThisBlock := (c.blockNumber,
      if c.outputsWrittenThisBlock.1 = c.blockNumber then
        satAdd u32Max c.outputsWrittenThisBlock.2 count
      else count) }

theorem outputsWritten_recordOutputs {c : Chain} {count : ℕ}
    (h : c.outputsWritten + count ≤ u32Max) :
    (c.recordOutputs count).outputsWritten = c.outputsWritten + count := by
  simp only [outputsWritten, recordOutputs, if_true] at h ⊢
  split at h
  · next same => rw [if_pos same, satAdd_eq h, if_pos same]
  · next differ => rw [if_neg differ, if_neg differ, Nat.zero_add]

end Chain

end Qnero
