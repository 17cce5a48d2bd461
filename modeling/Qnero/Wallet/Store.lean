import Qnero.Dispatch
import Qnero.Notes
import Qnero.Digest

/-!
# The wallet's store

What a wallet keeps between syncs: the notes it found and their flags, the outputs it refused, the
watermark of its scan, and a checkpoint per chunk of headers it has walked. Hashes and commitments
are kept decoded.
-/

namespace Qnero

open Plonkish

/-- The checkpoints a store keeps. -/
def maxCheckpoints : ℕ := 16

/-- A block a sync finished at, and the watermark it left. -/
structure SyncCheckpoint where
  blockNumber : ℕ
  blockHash : Hash256
  nextLeaf : ℕ
deriving DecidableEq

inductive NoteOrigin where
  | shield
  | spend
  | coinbase
deriving DecidableEq

structure StoredNote where
  leafIndex : ℕ
  blockNumber : Option ℕ
  value : ℕ
  commitment : Digest
  nullifier : Digest
  rho : Digest
  r : Digest
  memo : List UInt8
  origin : NoteOrigin
  spent : Bool
  onChain : Bool
  spentSeenAtBlock : Option ℕ
deriving DecidableEq

/-- A note submitted and not yet seen on chain. -/
structure PendingNote where
  commitment : Digest
deriving DecidableEq

/-- An output that decrypted and was refused. -/
structure RejectedNote where
  leafIndex : ℕ
  commitment : Digest
  nullifier : Digest
  value : ℕ
deriving DecidableEq

structure WalletStore where
  genesisHash : Option Hash256
  lastSyncedBlock : ℕ
  nextLeaf : ℕ
  notes : List StoredNote
  pending : List PendingNote
  rejected : List RejectedNote
  usedNullifiers : Finset Hash256
  birthday : Option SyncCheckpoint
  checkpoints : List SyncCheckpoint
deriving DecidableEq

/-- Whether a reconciliation may clear a spent flag. -/
inductive SpentDirection where
  | bothWays
  | addOnly
deriving DecidableEq

/-- What a reconciliation counts. -/
structure SpentReconciliation where
  newlySpent : ℕ
  newlyUnspent : ℕ
  heldSpent : ℕ
deriving DecidableEq

/-! ## One note -/

namespace StoredNote

/-- The flag of a spend that was seen above this head stays. -/
def aboveThisHead (n : StoredNote) (headBlock : ℕ) : Bool :=
  match n.spentSeenAtBlock with
  | some seen => headBlock < seen
  | none => false

/-- The spent flag, derived from the settled set. -/
def reconcile (settled : Finset Hash256) (headBlock : ℕ) (direction : SpentDirection)
    (n : StoredNote) : StoredNote :=
  match decide (digestBytes n.nullifier ∈ settled), n.spent with
  | true, false => { n with spent := true, spentSeenAtBlock := some headBlock }
  | false, true =>
    if direction = .addOnly ∨ n.aboveThisHead headBlock = true then n
    else { n with spent := false, spentSeenAtBlock := none }
  | _, _ => n

/-- `mark_off_chain`: a spent note and one already off chain are passed over. -/
def markOffChain (n : StoredNote) : StoredNote × Bool :=
  if n.spent = true ∨ n.onChain = false then (n, false) else ({ n with onChain := false }, true)

/-- A note seen at a leaf. -/
def relocate (leafIndex : ℕ) (blockNumber : Option ℕ) (n : StoredNote) : StoredNote :=
  { n with leafIndex := leafIndex, blockNumber := blockNumber, onChain := true }

end StoredNote

/-! ## The store -/

namespace WalletStore

/-- A store that has read nothing. -/
def new : WalletStore := ⟨none, 0, 0, [], [], [], ∅, none, []⟩

/-- The block of the birthday whose leaf count the watermark still is. -/
def unscannedBirthday (s : WalletStore) (watermark : ℕ) : Option ℕ :=
  (s.birthday.filter fun birthday => birthday.nextLeaf = watermark).map (·.blockNumber)

/-- Whether the store belongs to another chain. -/
def foreign (s : WalletStore) (genesis : Hash256) : Bool :=
  match s.genesisHash with
  | some bound => bound ≠ genesis
  | none => false

/-- Notes the wallet can spend. -/
def unspent (s : WalletStore) : List StoredNote :=
  s.notes.filter fun note => !note.spent && note.onChain

/-- Mark every note of a rescanned range that was not found again. -/
def markVanished (s : WalletStore) (start : ℕ) (seen : List Digest) : WalletStore × ℕ :=
  let gone (note : StoredNote) : Bool := start ≤ note.leafIndex ∧ note.commitment ∉ seen
  ({ s with notes := s.notes.map fun note => if gone note then note.markOffChain.1 else note },
    s.notes.countP fun note => gone note && note.markOffChain.2)

def hasCommitment (s : WalletStore) (commitment : Digest) : Bool :=
  s.notes.any fun note => note.commitment = commitment

/-- Move a held note to the leaf it is at; the flag says whether it was elsewhere. -/
def relocateNote (s : WalletStore) (commitment : Digest) (leafIndex : ℕ)
    (blockNumber : Option ℕ) : WalletStore × Bool :=
  ({ s with notes := s.notes.map fun note =>
      if note.commitment = commitment then note.relocate leafIndex blockNumber else note },
    s.notes.any fun note => note.commitment = commitment ∧
      (note.leafIndex ≠ leafIndex ∨ note.blockNumber ≠ blockNumber))

/-- The first entry of a refused output, at its newest leaf. -/
def updateRejected (rejected : RejectedNote) : List RejectedNote → List RejectedNote
  | [] => []
  | entry :: rest =>
    if entry.commitment = rejected.commitment then
      { entry with leafIndex := rejected.leafIndex } :: rest
    else entry :: updateRejected rejected rest

/-- Record a refused output, once per commitment. -/
def recordRejected (s : WalletStore) (rejected : RejectedNote) : WalletStore × Bool :=
  if s.rejected.any fun entry => entry.commitment = rejected.commitment then
    ({ s with rejected := updateRejected rejected s.rejected }, false)
  else ({ s with rejected := s.rejected ++ [rejected] }, true)

def nullifierSettled (s : WalletStore) (nullifier : Digest) : Bool :=
  digestBytes nullifier ∈ s.usedNullifiers

/-- Derive every spent flag from the settled set. -/
def reconcileSpent (s : WalletStore) (headBlock : ℕ) (direction : SpentDirection) :
    WalletStore × SpentReconciliation :=
  let settled (note : StoredNote) : Bool := digestBytes note.nullifier ∈ s.usedNullifiers
  let held (note : StoredNote) : Bool := direction = .addOnly ∨ note.aboveThisHead headBlock = true
  ({ s with notes := s.notes.map (StoredNote.reconcile s.usedNullifiers headBlock direction) },
    { newlySpent := s.notes.countP fun note => settled note && !note.spent
      newlyUnspent := s.notes.countP fun note => !settled note && note.spent && !held note
      heldSpent := s.notes.countP fun note => !settled note && note.spent && held note })

/-- Drop every refusal of an output that is held now. -/
def pruneRejected (s : WalletStore) : WalletStore × ℕ :=
  ({ s with rejected := s.rejected.filter fun entry => !s.hasCommitment entry.commitment },
    s.rejected.countP fun entry => s.hasCommitment entry.commitment)

def newestCheckpoint (s : WalletStore) : Option SyncCheckpoint := s.checkpoints.getLast?

/-- A checkpoint above every one below it; the newest ones are kept. -/
def pushCheckpoint (checkpoints : List SyncCheckpoint) (checkpoint : SyncCheckpoint) :
    List SyncCheckpoint :=
  let kept := checkpoints.filter (fun old => old.blockNumber < checkpoint.blockNumber) ++
    [checkpoint]
  kept.drop (kept.length - maxCheckpoints)

/-- Record where a sync finished. -/
def recordCheckpoint (s : WalletStore) (checkpoint : SyncCheckpoint) : WalletStore :=
  { s with checkpoints := pushCheckpoint s.checkpoints checkpoint }

/-- Rewind the watermark and drop every checkpoint above it. -/
def rewindTo (s : WalletStore) (blockNumber nextLeaf : ℕ) : WalletStore :=
  { s with
    nextLeaf := nextLeaf
    lastSyncedBlock := blockNumber
    checkpoints := s.checkpoints.filter fun old => old.blockNumber ≤ blockNumber }

/-- Bind the store to a chain; the flag says whether it was not bound. -/
def bindGenesis (s : WalletStore) (genesis : Hash256) : WalletStore × Bool :=
  if s.genesisHash.isSome then (s, false) else ({ s with genesisHash := some genesis }, true)

end WalletStore

end Qnero
