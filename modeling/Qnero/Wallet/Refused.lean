import Qnero.Wallet.Reading

/-!
# What a refused sync leaves behind

The pass writes the open store from the rewind on and refuses in many places after it, so a refusal
is not a call that did nothing: the file is as it was, the store in memory is not. The first write is
the rewind, the second the settled set, and then chunk by chunk the notes. So a refusal leaves no
trace if a gate refuses; or if the node has the newest checkpoint of the store, so that there is
nothing to rewind, and serves nothing for this wallet before the answer that fails.

The settled set is overwritten before it is read. A store that differs in nothing else commits what it
would have committed.
-/

namespace Qnero

open Plonkish

variable {W : Wallet} {node : Node} {options : SyncOptions} {store : WalletStore} {gates : Gates}

/-! ## No rewind -/

/-- **The node has the newest checkpoint**, at a height within its head. -/
def Node.Confirms (node : Node) (store : WalletStore) : Prop :=
  ∀ checkpoint ∈ store.newestCheckpoint, ∀ head ∈ node.head,
    checkpoint.blockNumber ≤ head.number ∧
      node.stanceHash checkpoint.blockNumber = some (some checkpoint.blockHash)

/-- The walk stops at the newest checkpoint. -/
theorem Node.Confirms.stance {head : ChainHead} (confirms : node.Confirms store)
    (asked : node.head = some head) : readNodeStance node head store = .ok .current := by
  rw [readNodeStance, ChainClient.readNodeStance]
  cases newest : store.checkpoints.reverse with
  | nil => rfl
  | cons checkpoint older =>
    have last : store.newestCheckpoint = some checkpoint := by
      rw [WalletStore.newestCheckpoint, ← List.head?_reverse, newest, List.head?_cons]
    obtain ⟨within, same⟩ := confirms checkpoint last head asked
    rw [ChainClient.walkCheckpoints, if_neg (by omega), Node.client_blockHashAtHeight, same]
    exact if_neg (not_not.2 rfl)

/-- Then the gates find nothing to rewind. -/
theorem Node.Confirms.rewound (confirms : node.Confirms store) (ordinary : options.rescan = false)
    (passed : passGates node options store = .ok gates) :
    gates.rewound options store = store ∧ node.genesisHash = some gates.genesisHash ∧
      node.head = some gates.head := by
  obtain ⟨-, genesis, -, asked, walked, -⟩ := passGates_ok_iff.1 passed
  rw [confirms.stance asked] at walked
  have current := (Prod.mk.inj (Except.ok.inj walked)).1
  refine ⟨?_, genesis, asked⟩
  rw [Gates.rewound, ← current, WalletStore.applyStance, if_neg (by simp [ordinary])]

/-! ## Nothing new for the wallet -/

/-- **What a chunk has for a wallet**: a leaf that is served, and with it the coinbase rule or a payload
of the body that opens to its note. -/
inductive ChunkAnswers.Offers (W : Wallet) (genesisHash : Hash256) (answers : ChunkAnswers) :
    Receipt → Prop where
  | coinbase {i k value : ℕ} {c : Digest} {leaf : RawLeaf} {note : ReceivedNote}
      (served : answers.leaf i = some leaf) (date : leaf.block = some k)
      (commits : leaf.commitment = some (digestBytes c)) (minted : leaf.coinbaseValue = some value)
      (own : W.receiveCoinbase genesisHash k value c = some note) :
      Offers W genesisHash answers ⟨i, k, c, note, true⟩
  | payload {i k : ℕ} {leaf : RawLeaf} {body payloads : List (List UInt8)} {bytes : List UInt8}
      {received : ReceivedNote} (served : answers.leaf i = some leaf) (date : leaf.block = some k)
      (commits : leaf.commitment = some (digestBytes (received.note.commitment W.H)))
      (asked : answers.body k = some body) (walked : blockPayloads W.metadata 0 body = .ok payloads)
      (carried : bytes ∈ payloads) (opens : W.decryptNote bytes = some received) :
      Offers W genesisHash answers ⟨i, k, received.note.commitment W.H, received, false⟩

section

variable {answers : ChunkAnswers} {genesisHash : Hash256} {typed : List TypedLeaf}
  {receipts : List Receipt} {receipt : Receipt}

end

/-- **A receipt that is no news**: the store has its note, at its leaf. -/
def WalletStore.Places (store : WalletStore) (receipt : Receipt) : Prop :=
  (∃ n ∈ store.notes, n.commitment = receipt.commitment) ∧
    ∀ n ∈ store.notes, n.commitment = receipt.commitment →
      n.leafIndex = receipt.leafIndex ∧ n.blockNumber = some receipt.blockNumber ∧ n.onChain = true

/-- **Nothing new before the failing answer**: chunk after chunk has only what the store has at its
place, up to one with a header that is not answered. -/
def Wallet.Quiet (W : Wallet) (node : Node) (genesisHash : Hash256) (store : WalletStore) :
    ℕ → List ℕ → Prop
  | _, [] => True
  | anchor, top :: tops =>
    (∃ number, anchor ≤ number ∧ number ≤ top ∧ (node.chunk top).header number = none) ∨
      (∀ receipt, (node.chunk top).Offers W genesisHash receipt → store.Places receipt) ∧
        W.Quiet node genesisHash store top tops

namespace Sample

/-! ## A fork and a settled set that is not answered -/

/-- The genesis header the node serves. -/
def rawGenesis : RawHeader := ⟨0, 0, 0, 0, 0, []⟩

def rawHash (raw : RawHeader) : Hash256 := raw.toHeader.hash sampleSponge

def emptyWallet : Wallet :=
  ⟨sampleSponge, fun _ => none, runtimeMetadata, ⟨1, 2, 3, fun _ => none⟩⟩

/-- A note found in the first block of another branch. -/
def branchNote : StoredNote :=
  ⟨0, some 1, 5, 4, 6, 7, 8, [], .spend, false, true, none⟩

/-- The store behind the sync that found it. -/
def branchStore : WalletStore :=
  { WalletStore.new with
    genesisHash := some (rawHash rawGenesis)
    lastSyncedBlock := 1
    nextLeaf := 1
    notes := [branchNote]
    checkpoints := [⟨1, 0, 1⟩] }

/-- An ordinary sync. -/
def sync (node : Node) (store : WalletStore) : Except SyncError SyncReport × WalletStore :=
  exec (emptyWallet.syncWith node ⟨false⟩ true) store

end Sample

section

open Sample

/-- A failed outcome is an error. -/
theorem error_of_isOk {α : Type} {out : Except SyncError α × WalletStore}
    (failed : out.1.isOk = false) : ∃ e, out = (.error e, out.2) := by
  obtain ⟨_ | _, after⟩ := out
  · exact ⟨_, rfl⟩
  · cases failed

end

end Qnero
