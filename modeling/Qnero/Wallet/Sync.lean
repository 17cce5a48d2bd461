import Qnero.Wallet.Client

/-!
# The sync pass

One pass over what a node answers: the gates that decide whether the node is on the wallet's chain
and not behind it, the rewind of a fork, the walk in chunks of headers, the leaves of each chunk
typed and its notes taken out, and at the end the flags, the watermark and the checkpoints.

It is written once, over a `ChainClient`: here the answers of a node, in `Wallet.Requests` the
requests that fetch them.

The pass writes the open store step by step and commits the file last. Reading a chunk does not
depend on the store, so `walkChunks` is a fold of what was read over it (`exec_walkChunks`).
-/

namespace Qnero

open Plonkish Machine QuadTree

/-- The entries the origin of a note is looked up in. -/
def entryWalkLimit : ℕ := 100000

/-- A decrypted note payload. -/
structure Plaintext where
  value : ℕ
  rho : Digest
  r : Digest
  memo : List UInt8

/-- The keys of a wallet. `decrypt` parses a payload and decrypts it. -/
structure WalletKeys where
  pk : Digest
  nk : Digest
  cvk : Digest
  decrypt : List UInt8 → Option Plaintext

/-- A wallet: its keys, the metadata it was handed, and the functions it takes from elsewhere. -/
structure Wallet where
  H : Poseidon2
  extrinsicsRoot : List (List UInt8) → Option Hash256
  metadata : Metadata
  keys : WalletKeys

/-- A note this wallet can read. -/
structure ReceivedNote where
  note : Note
  memo : List UInt8

/-- A note a chunk took out of the chain, and where the chain holds it. -/
structure Receipt where
  leafIndex : ℕ
  blockNumber : ℕ
  commitment : Digest
  received : ReceivedNote
  fromCoinbase : Bool

structure SyncOptions where
  rescan : Bool

/-- Where the node stands against the store. -/
inductive NodeStance where
  | current
  | forked (atBlock nextLeaf : ℕ)
deriving DecidableEq

def NodeStance.watermark (stance : NodeStance) (held : ℕ) : ℕ :=
  match stance with
  | .current => held
  | .forked _ nextLeaf => nextLeaf

/-- A rewind of the watermark. -/
structure ScanRewind where
  start : ℕ
  target : ℕ
  forkedAt : Option ℕ

structure SyncReport where
  headBlock : ℕ
  scannedFrom : ℕ
  scannedTo : ℕ
  leavesScanned : ℕ := 0
  coinbaseLeaves : ℕ := 0
  coinbaseReceived : ℕ := 0
  received : ℕ := 0
  receivedValue : ℕ := 0
  rejected : ℕ := 0
  rejectedCleared : ℕ := 0
  recordedGenesis : Bool := false
  newlySpent : ℕ := 0
  newlyUnspent : ℕ := 0
  heldSpent : ℕ := 0
  relocated : ℕ := 0
  rewoundFrom : Option ℕ
  rewoundTo : Option ℕ
  forkedAtBlock : Option ℕ
  vanished : ℕ := 0
  addOnly : Bool
  entryWalkTruncated : Option ℕ := none
  coinbaseLabelDisagreed : ℕ := 0
  scannedAndReceivedNothing : Bool := false
  bypassedRefusal : Option SyncError

/-! ## The client -/

/-- The chain as a pass reads it, and the store it keeps: the reads in one monad, the pass in another.
`checked` is a check of the pass itself. -/
structure ChainClient (m n : Type → Type) where
  checked {α : Type} (x : Except SyncError α) : m α
  genesisHash : m Hash256
  head : m ChainHead
  blockHashAtHeight (number : ℕ) : m (Option Hash256)
  /-- The checkpoint walk, whose refusal a rescan passes by. -/
  stanceOrBypass (options : SyncOptions) (stance : m NodeStance) : m (NodeStance × Option SyncError)
  leafCountAt (block : Hash256) : m ℕ
  usedNullifiersAt (block : Hash256) : m (Finset Hash256)
  entryCountAt (block : Hash256) : m ℕ
  blockHash (number : ℕ) : m Hash256
  headerChain (H : Poseidon2) (top : ChainHead) (anchor : ℕ) : m (List VerifiedBlock)
  leafHashes (stop leafCount : ℕ) (block : Hash256) : m (List Digest)
  leavesUpToBlock (leafCount top : ℕ) (block : Hash256) (fuel cursor : ℕ) : m (List LeafRecord)
  /-- Of a block of the chunk with this top. -/
  authenticatedBody (root : List (List UInt8) → Option Hash256) (top : ℕ) (block : VerifiedBlock) :
    m (List (List UInt8))
  lift {α : Type} (read : m α) : n α
  store : n WalletStore
  write (f : WalletStore → WalletStore) : n Unit

/-- The checkpoint walk of a node, whose refusal a rescan passes by. -/
def stanceOrBypass (options : SyncOptions) (stance : Except SyncError NodeStance) :
    Except SyncError (NodeStance × Option SyncError) :=
  match stance with
  | .ok stance => .ok (stance, none)
  | .error refusal => if options.rescan then .ok (.current, some refusal) else .error refusal

/-- The client of a node that is known by its answers. -/
@[simps] def Node.client (node : Node) :
    ChainClient (Except SyncError) (Call SyncError WalletStore) where
  checked x := x
  genesisHash := okOr node.genesisHash .rpc
  head := okOr node.head .rpc
  blockHashAtHeight number := okOr (node.stanceHash number) .rpc
  stanceOrBypass := stanceOrBypass
  leafCountAt _ := node.leafCountAt
  usedNullifiersAt _ := okOr node.usedNullifiers .rpc
  entryCountAt _ := node.entryCountAt
  blockHash top := okOr (node.chunk top).topHash .rpc
  headerChain H top anchor := headerChain H (node.chunk top.number) top anchor
  leafHashes stop leafCount _ := node.leafHashes stop leafCount
  leavesUpToBlock leafCount top _ := leavesUpToBlock (node.chunk top) leafCount top
  authenticatedBody root top := authenticatedBody root (node.chunk top)
  lift := Call.lift
  store := Call.read
  write := Call.write

variable {m n : Type → Type} [Monad m]

/-! ## The gates -/

/-- What the gates let through. -/
structure Gates where
  genesisHash : Hash256
  head : ChainHead
  stance : NodeStance
  bypassedRefusal : Option SyncError
  leafCount : ℕ

namespace ChainClient

variable (C : ChainClient m n)

/-- The walk over the checkpoints, newest first. -/
def walkCheckpoints (head : ChainHead) (lastSyncedBlock : ℕ) (aboveHead : ℕ) (forked : Bool) :
    List SyncCheckpoint → m NodeStance
  | [] => C.checked (if forked then .ok (.forked 0 0)
      else if 0 < aboveHead then .error (.behindThisWallet head.number lastSyncedBlock)
      else .ok .current)
  | checkpoint :: older =>
    if head.number < checkpoint.blockNumber then
      walkCheckpoints head lastSyncedBlock (aboveHead + 1) forked older
    else do
      let answer ← C.blockHashAtHeight checkpoint.blockNumber
      let hash ← C.checked (okOr answer (.missingBlock checkpoint.blockNumber head.number))
      if hash ≠ checkpoint.blockHash then
        walkCheckpoints head lastSyncedBlock aboveHead true older
      else
        C.checked (if forked then .ok (.forked checkpoint.blockNumber checkpoint.nextLeaf)
          else if 0 < aboveHead then .error (.behindThisWallet head.number lastSyncedBlock)
          else .ok .current)

def readNodeStance (head : ChainHead) (store : WalletStore) : m NodeStance :=
  C.walkCheckpoints head store.lastSyncedBlock 0 false store.checkpoints.reverse

/-- Everything that is read before the store is written. -/
def passGates (storageKnown : Bool) (options : SyncOptions) (store : WalletStore) : m Gates := do
  C.checked (ensure (storageKnown = true) .unknownStorage)
  let genesisHash ← C.genesisHash
  C.checked (ensure (store.foreign genesisHash = false)
    (.otherChain (store.genesisHash.getD genesisHash) genesisHash))
  let head ← C.head
  let (stance, bypassedRefusal) ← C.stanceOrBypass options (C.readNodeStance head store)
  let leafCount ← C.leafCountAt head.hash
  let watermark := if options.rescan then 0 else stance.watermark store.nextLeaf
  C.checked (ensure (watermark ≤ leafCount)
    (.shortTree leafCount watermark head.number (store.unscannedBirthday watermark)))
  pure ⟨genesisHash, head, stance, bypassedRefusal, leafCount⟩

end ChainClient

def readNodeStance (node : Node) : ChainHead → WalletStore → Except SyncError NodeStance :=
  node.client.readNodeStance

/-- The gates of a node. -/
def passGates (node : Node) (options : SyncOptions) (store : WalletStore) :
    Except SyncError Gates :=
  node.client.passGates node.storageKnown options store

theorem passGates_ok_iff {node : Node} {options : SyncOptions} {store : WalletStore} {gates : Gates} :
    passGates node options store = .ok gates ↔ node.storageKnown = true ∧
      node.genesisHash = some gates.genesisHash ∧ store.foreign gates.genesisHash = false ∧
      node.head = some gates.head ∧
      stanceOrBypass options (readNodeStance node gates.head store) =
        .ok (gates.stance, gates.bypassedRefusal) ∧
      node.leafCountAt = .ok gates.leafCount ∧
      (if options.rescan then 0 else gates.stance.watermark store.nextLeaf) ≤ gates.leafCount := by
  obtain ⟨genesisHash, head, stance, bypassed, leafCount⟩ := gates
  simp only [passGates, ChainClient.passGates, Node.client_checked, Node.client_genesisHash,
    Node.client_head, Node.client_stanceOrBypass, Node.client_leafCountAt, bind_ok_iff, ensure_ok_iff,
    okOr_ok_iff]
  constructor
  · rintro ⟨-, known, _, genesis, -, own, _, asked, ⟨_, _⟩, walked, _, counted, -, reaches, ⟨⟩⟩
    exact ⟨known, genesis, own, asked, walked, counted, reaches⟩
  · rintro ⟨known, genesis, own, asked, walked, counted, reaches⟩
    exact ⟨(), known, _, genesis, (), own, _, asked, (_, _), walked, _, counted, (), reaches, rfl⟩

/-- The first write: where the scan goes back to. -/
def WalletStore.applyStance (store : WalletStore) (stance : NodeStance) (options : SyncOptions) :
    WalletStore × Option ScanRewind :=
  if options.rescan then (store.rewindTo 0 0, some ⟨store.nextLeaf, 0, none⟩)
  else
    match stance with
    | .current => (store, none)
    | .forked atBlock nextLeaf =>
      (store.rewindTo atBlock nextLeaf, some ⟨store.nextLeaf, nextLeaf, some atBlock⟩)

/-- The block the walk stands on: genesis, or the checkpoint that ends on the watermark. -/
def scanAnchor (store : WalletStore) (genesisHash : Hash256) : Except SyncError (ℕ × Hash256) :=
  if store.nextLeaf = 0 then .ok (0, genesisHash)
  else do
    let checkpoint ← okOr
      (store.newestCheckpoint.filter fun checkpoint => checkpoint.nextLeaf = store.nextLeaf)
      (.noCheckpoint store.nextLeaf)
    pure (checkpoint.blockNumber, checkpoint.blockHash)

/-! ## Reading a chunk -/

section

variable (W : Wallet)

def Wallet.minerKey : MinerKey := ⟨W.keys.pk, W.keys.cvk⟩

/-- `decrypt_note` of a payload that parses. -/
def Wallet.decryptNote (payload : List UInt8) : Option ReceivedNote := do
  let plaintext ← W.keys.decrypt payload
  let note ← Note.new W.keys.pk plaintext.value plaintext.rho plaintext.r
  some ⟨note, plaintext.memo⟩

def Wallet.receiveCoinbase (genesisHash : Hash256) (block value : ℕ) (commitment : Digest) :
    Option ReceivedNote := do
  let note ← W.minerKey.coinbaseNote W.H genesisHash block value
  if note.commitment W.H = commitment then some ⟨note, []⟩ else none

/-- The coinbase rule at one leaf. -/
def Wallet.coinbaseReceipt (genesisHash : Hash256) (leaf : TypedLeaf) :
    Except SyncError (List Receipt) :=
  match leaf.kind with
  | .transfer => .ok []
  | .coinbase ours value _ =>
    match W.receiveCoinbase genesisHash leaf.blockNumber value leaf.commitment with
    | some note => .ok [⟨leaf.index, leaf.blockNumber, leaf.commitment, note, true⟩]
    | none => if ours then .error (.coinbaseRebuild leaf.index) else .ok []

def Wallet.coinbaseReceipts (genesisHash : Hash256) : List TypedLeaf →
    Except SyncError (List Receipt)
  | [] => .ok []
  | leaf :: typed => do
    let here ← W.coinbaseReceipt genesisHash leaf
    let rest ← coinbaseReceipts genesisHash typed
    pure (here ++ rest)

/-- `index_chunk`: the first leaf of a block with this commitment. -/
def indexChunk (typed : List TypedLeaf) (number : ℕ) (commitment : Digest) : Option ℕ :=
  (typed.find? fun leaf => leaf.blockNumber = number ∧ leaf.commitment = commitment).map (·.index)

/-- A payload of a block: the note it opens, at the leaf that commits to it. -/
def Wallet.payloadReceipt (typed : List TypedLeaf) (number : ℕ) (payload : List UInt8) :
    Option Receipt := do
  let received ← W.decryptNote payload
  let index ← indexChunk typed number (received.note.commitment W.H)
  some ⟨index, number, received.note.commitment W.H, received, false⟩

/-- What is fixed for a pass. -/
structure ScanPlan where
  genesisHash : Hash256
  head : ChainHead
  leafCount : ℕ
  start : ℕ
  birthday : Option ℕ

/-- Where the walk is. -/
structure Scan where
  frontier : Option TreeFrontier
  cursorLeaf : ℕ
  trustedBlock : ℕ
  trustedHash : Hash256
  checkpoints : List SyncCheckpoint

/-- What a chunk had. -/
structure ChunkRead where
  typed : List TypedLeaf
  receipts : List Receipt

/-- The checks of the pass itself over what a window answered. -/
def ensureAnswered (record : LeafRecord) : Except SyncError Unit := do
  ensure (record.commitment.isSome = true) (.withheldKey record.index .leaves)
  ensure (record.blockNumber.isSome = true) (.withheldKey record.index .leafBlocks)

variable (C : ChainClient m n)

/-- One block's body, if it appended a leaf. -/
def Wallet.blockReceipts (top : ℕ) (typed : List TypedLeaf) (block : VerifiedBlock) :
    m (List Receipt) :=
  if typed.any fun leaf => leaf.blockNumber = block.number then do
    let body ← C.authenticatedBody W.extrinsicsRoot top block
    let payloads ← C.checked (blockPayloads W.metadata 0 body)
    pure (payloads.filterMap (W.payloadReceipt typed block.number))
  else pure []

/-- The body rule: one body per block that appended a leaf. -/
def Wallet.bodyReceipts (top : ℕ) (typed : List TypedLeaf) : List VerifiedBlock → m (List Receipt)
  | [] => pure []
  | block :: blocks => do
    let here ← W.blockReceipts C top typed block
    let rest ← bodyReceipts top typed blocks
    pure (here ++ rest)

/-- The fold below the first chunk, read once. -/
def Wallet.seedFold (plan : ScanPlan) (scan : Scan) (anchor : VerifiedBlock) : m TreeFrontier :=
  match scan.frontier with
  | some fold => pure fold
  | none => do
    let leaves ← C.leafHashes plan.start plan.leafCount plan.head.hash
    C.checked ((seedFrontier W.H anchor plan.start leaves).mapError (SyncError.typing · none))

/-- A chunk with leaves to scan: its leaves typed, and its notes in leaf order. -/
def Wallet.scanLeaves (plan : ScanPlan) (scan : Scan) (top : ℕ) (anchor : VerifiedBlock)
    (blocks : List VerifiedBlock) : m (Option TreeFrontier × ChunkRead) := do
  let fold ← W.seedFold C plan scan anchor
  let records ← C.leavesUpToBlock plan.leafCount top plan.head.hash
    (plan.leafCount - scan.cursorLeaf) scan.cursorLeaf
  C.checked (records.forM ensureAnswered)
  let (fold, typed) ← C.checked
    ((typeChunk W.H ⟨W.minerKey, plan.genesisHash⟩ fold blocks records).mapError
      (SyncError.typing · none))
  let coinbase ← C.checked (W.coinbaseReceipts plan.genesisHash typed)
  let body ← W.bodyReceipts C top typed blocks.tail
  pure (some fold, ⟨typed, (coinbase ++ body).insertionSort fun a b => a.leafIndex ≤ b.leafIndex⟩)

/-- The leaves of a chunk: none are read if the tree has none to scan. -/
def Wallet.chunkLeaves (plan : ScanPlan) (scan : Scan) (top : ℕ) (anchor : VerifiedBlock)
    (blocks : List VerifiedBlock) : m (Option TreeFrontier × ChunkRead) :=
  if plan.start < plan.leafCount then W.scanLeaves C plan scan top anchor blocks
  else do
    C.checked ((checkChunkAppendedNothing blocks).mapError (SyncError.typing · plan.birthday))
    pure (scan.frontier, ⟨[], []⟩)

/-- The hash of the block a chunk ends on. -/
def chunkTop (plan : ScanPlan) (top : ℕ) : m Hash256 :=
  if top = plan.head.number then pure plan.head.hash else C.blockHash top

/-- One chunk, up to this top. -/
def Wallet.readChunk (plan : ScanPlan) (scan : Scan) (top : ℕ) : m (Scan × ChunkRead) := do
  let topHash ← chunkTop C plan top
  let blocks ← C.headerChain W.H ⟨top, topHash⟩ scan.trustedBlock
  let anchor ← C.checked (okOr blocks.head? .emptyWalk)
  C.checked (ensure (anchor.hash = scan.trustedHash) (.untrustedAnchor scan.trustedBlock))
  let (frontier, read) ← W.chunkLeaves C plan scan top anchor blocks
  let cursorLeaf := scan.cursorLeaf + read.typed.length
  pure (⟨frontier, cursorLeaf, top, topHash, scan.checkpoints ++ [⟨top, topHash, cursorLeaf⟩]⟩, read)

/-! ## Recording a chunk -/

/-- What became of a receipt. -/
inductive Recording where
  | held (moved : Bool)
  | refused (new : Bool)
  | received (origin : NoteOrigin)
deriving DecidableEq

/-- `entry_rho_matches`. -/
def entryRhoMatches (H : Poseidon2) (block : ℕ) (rho : Digest) (entries : ℕ) : Bool :=
  (List.range (min entries entryWalkLimit)).any fun index => entryRho H block index = rho

def Wallet.origin (entries : ℕ) (receipt : Receipt) : NoteOrigin :=
  if receipt.fromCoinbase then .coinbase
  else if entryRhoMatches W.H receipt.blockNumber receipt.received.note.rho entries then .shield
  else .spend

def Wallet.nullifierOf (receipt : Receipt) : Digest := receipt.received.note.nullifier W.H W.keys.nk

/-- The note a receipt adds. -/
def Wallet.storedNote (entries : ℕ) (receipt : Receipt) : StoredNote where
  leafIndex := receipt.leafIndex
  blockNumber := some receipt.blockNumber
  value := receipt.received.note.value
  commitment := receipt.commitment
  nullifier := W.nullifierOf receipt
  rho := receipt.received.note.rho
  r := receipt.received.note.r
  memo := receipt.received.memo
  origin := W.origin entries receipt
  spent := false
  onChain := true
  spentSeenAtBlock := none

/-- A held note is moved to its leaf, one whose nullifier is settled is refused, any other is
added. -/
def Wallet.record (entries : ℕ) (store : WalletStore) (receipt : Receipt) :
    WalletStore × Recording :=
  if store.hasCommitment receipt.commitment then
    let (store, moved) := store.relocateNote receipt.commitment receipt.leafIndex
      (some receipt.blockNumber)
    (store, .held moved)
  else if store.nullifierSettled (W.nullifierOf receipt) then
    let (store, new) := store.recordRejected
      ⟨receipt.leafIndex, receipt.commitment, W.nullifierOf receipt, receipt.received.note.value⟩
    (store, .refused new)
  else
    ({ store with
        notes := store.notes ++ [W.storedNote entries receipt]
        pending := store.pending.filter fun pending => pending.commitment ≠ receipt.commitment },
      .received (W.origin entries receipt))

/-- The counts of a pass and the commitments it met again. -/
structure Tally where
  report : SyncReport
  seenAgain : List Digest

/-- What a receipt adds to them; the commitments are collected for the marking of orphans only. -/
def Tally.add (tally : Tally) (collects : Bool) (receipt : Receipt) (recording : Recording) : Tally :=
  let seenAgain := if collects then tally.seenAgain ++ [receipt.commitment] else tally.seenAgain
  match recording with
  | .held moved =>
    { report := { tally.report with
        relocated := tally.report.relocated + if moved then 1 else 0 }
      seenAgain := seenAgain }
  | .refused new =>
    { tally with report := { tally.report with
        rejected := tally.report.rejected + if new then 1 else 0 } }
  | .received origin =>
    { report := { tally.report with
        received := tally.report.received + 1
        coinbaseReceived := tally.report.coinbaseReceived + if origin = .coinbase then 1 else 0
        receivedValue := tally.report.receivedValue + receipt.received.note.value }
      seenAgain := seenAgain }

/-- The leaves of a chunk, counted. -/
def Tally.scanned (tally : Tally) (typed : List TypedLeaf) : Tally :=
  let disagrees (leaf : TypedLeaf) : Bool :=
    match leaf.kind with
    | .transfer => false
    | .coinbase _ _ labelDisagrees => labelDisagrees
  { tally with report := { tally.report with
      leavesScanned := tally.report.leavesScanned + typed.length
      coinbaseLeaves := tally.report.coinbaseLeaves + typed.countP fun leaf =>
        leaf.coinbaseValue.isSome
      coinbaseLabelDisagreed := tally.report.coinbaseLabelDisagreed + typed.countP disagrees } }

/-- The receipts of a chunk, in order. -/
def Wallet.recordAll (entries : ℕ) (collects : Bool) :
    List Receipt → WalletStore × Tally → WalletStore × Tally
  | [], state => state
  | receipt :: receipts, (store, tally) =>
    let (store, recording) := W.record entries store receipt
    recordAll entries collects receipts (store, tally.add collects receipt recording)

/-! ## The pass -/

/-- The tops of the chunks: every `headerWalkLimit` blocks, then the head. -/
def chunkTops (trusted head : ℕ) : List ℕ :=
  (List.range' 1 ((head - trusted - 1) / headerWalkLimit)).map (trusted + headerWalkLimit * ·) ++
    [head]

variable [Monad n]

/-- Chunk after chunk: read, then written into the store. -/
def Wallet.walkChunks (plan : ScanPlan) (entries : ℕ) (collects : Bool) :
    List ℕ → Scan → Tally → n (Scan × Tally)
  | [], scan, tally => pure (scan, tally)
  | top :: tops, scan, tally => do
    let (scan, read) ← C.lift (W.readChunk C plan scan top)
    let store ← C.store
    let recorded := W.recordAll entries collects read.receipts (store, tally.scanned read.typed)
    C.write fun _ => recorded.1
    walkChunks plan entries collects tops scan recorded.2

/-- The orphans of a rescanned range, after a fork. -/
def WalletStore.markOrphans (store : WalletStore) (marks : Bool) (start : ℕ)
    (seenAgain : List Digest) : WalletStore × ℕ :=
  if marks then store.markVanished start seenAgain else (store, 0)

/-- The end of a pass: refusals of what is held now, the spent flags, the orphans of a fork, the
watermark, the checkpoints and the binding. -/
def WalletStore.finish (store : WalletStore) (plan : ScanPlan) (direction : SpentDirection)
    (marks : Bool) (checkpoints : List SyncCheckpoint) (tally : Tally) :
    WalletStore × SyncReport :=
  let (store, cleared) := if plan.start < plan.leafCount then store.pruneRejected else (store, 0)
  let (store, counts) := store.reconcileSpent plan.head.number direction
  let (store, vanished) := store.markOrphans marks plan.start tally.seenAgain
  let store : WalletStore :=
    { store with nextLeaf := plan.leafCount, lastSyncedBlock := plan.head.number }
  let store := checkpoints.foldl WalletStore.recordCheckpoint store
  let (store, recordedGenesis) := store.bindGenesis plan.genesisHash
  (store, { tally.report with
    rejectedCleared := cleared
    newlySpent := counts.newlySpent
    newlyUnspent := counts.newlyUnspent
    heldSpent := counts.heldSpent
    vanished := vanished
    scannedAndReceivedNothing :=
      decide (0 < tally.report.leavesScanned) && decide (tally.report.received = 0)
    recordedGenesis := recordedGenesis })

/-- The report a pass starts with. -/
def startReport (options : SyncOptions) (gates : Gates) (start entries : ℕ)
    (rewind : Option ScanRewind) : SyncReport where
  headBlock := gates.head.number
  scannedFrom := start
  scannedTo := gates.leafCount
  rewoundFrom := rewind.map (·.start)
  rewoundTo := rewind.map (·.target)
  forkedAtBlock := rewind.bind (·.forkedAt)
  addOnly := options.rescan
  bypassedRefusal := gates.bypassedRefusal
  entryWalkTruncated := if entryWalkLimit < entries then some entries else none

/-- What is fixed for the pass over this store. -/
def Gates.plan (gates : Gates) (store : WalletStore) : ScanPlan :=
  ⟨gates.genesisHash, gates.head, gates.leafCount, store.nextLeaf,
    store.unscannedBirthday store.nextLeaf⟩

/-- Whether a rewind is a fork's. -/
def marksOrphans (options : SyncOptions) (rewind : Option ScanRewind) : Bool :=
  rewind.isSome && !options.rescan

def SyncOptions.direction (options : SyncOptions) : SpentDirection :=
  if options.rescan then .addOnly else .bothWays

/-- The walk from the watermark to the head, and what it commits. -/
def Wallet.scanToHead (options : SyncOptions) (gates : Gates) (rewind : Option ScanRewind) :
    n SyncReport := do
  let store ← C.store
  let start := store.nextLeaf
  let (anchorBlock, anchorHash) ← C.lift (C.checked (scanAnchor store gates.genesisHash))
  let entries ← C.lift (C.entryCountAt gates.head.hash)
  let plan := gates.plan store
  let marks := marksOrphans options rewind
  let (scan, tally) ← W.walkChunks C plan entries marks (chunkTops anchorBlock gates.head.number)
    ⟨none, start, anchorBlock, anchorHash, []⟩ ⟨startReport options gates start entries rewind, []⟩
  C.lift (C.checked (ensure (scan.cursorLeaf = gates.leafCount)
    (.leavesUnaccounted scan.cursorLeaf gates.leafCount)))
  let store ← C.store
  let finished := store.finish plan options.direction marks scan.checkpoints tally
  C.write fun _ => finished.1
  pure finished.2

/-- `sync_with`, over any client. `saved` is whether the file at the end can be written. -/
def Wallet.sync (storageKnown : Bool) (options : SyncOptions) (saved : Bool) : n SyncReport := do
  let store ← C.store
  let gates ← C.lift (C.passGates storageKnown options store)
  let rewound := store.applyStance gates.stance options
  C.write fun _ => rewound.1
  let used ← C.lift (C.usedNullifiersAt gates.head.hash)
  C.write fun store => { store with usedNullifiers := used }
  let report ← W.scanToHead C options gates rewound.2
  C.lift (C.checked (ensure (saved = true) .saveFailed))
  pure report

/-- `sync_with`, over the answers of a node. -/
def Wallet.syncWith (node : Node) (options : SyncOptions) (saved : Bool) :
    Call SyncError WalletStore SyncReport :=
  W.sync node.client node.storageKnown options saved

/-! ## What a pass does

The chunks that are read before a refusal, and what they leave in the store. -/

/-- The chunks up to the first one that is refused. -/
def Wallet.readChunks (node : Node) (plan : ScanPlan) :
    List ℕ → Scan → List ChunkRead × Except SyncError Scan
  | [], scan => ([], .ok scan)
  | top :: tops, scan =>
    match W.readChunk node.client plan scan top with
    | .error e => ([], .error e)
    | .ok (scan, read) =>
      (read :: (readChunks node plan tops scan).1, (readChunks node plan tops scan).2)

/-- Receipts recorded one after the other. -/
def Wallet.take (entries : ℕ) (receipts : List Receipt) (store : WalletStore) : WalletStore :=
  receipts.foldl (fun store receipt => (W.record entries store receipt).1) store

/-- The chunks recorded one after the other. -/
def Wallet.recordReads (entries : ℕ) (collects : Bool) (reads : List ChunkRead)
    (state : WalletStore × Tally) : WalletStore × Tally :=
  reads.foldl (fun state read =>
    W.recordAll entries collects read.receipts (state.1, state.2.scanned read.typed)) state

/-- Everything the chunks had for this wallet. -/
def receiptsOf (reads : List ChunkRead) : List Receipt := reads.flatMap ChunkRead.receipts

/-- The reading half of a pass: the anchor, the entry count, the chunks, and whether their blocks
account for every leaf. -/
def Wallet.readPass (node : Node) (gates : Gates) (store : WalletStore) :
    List ChunkRead × Except SyncError Scan :=
  match scanAnchor store gates.genesisHash, node.entryCountAt with
  | .error e, _ => ([], .error e)
  | .ok _, .error e => ([], .error e)
  | .ok (block, hash), .ok _ =>
    let (reads, outcome) := W.readChunks node (gates.plan store)
      (chunkTops block gates.head.number) ⟨none, store.nextLeaf, block, hash, []⟩
    (reads, outcome.bind fun scan => (ensure (scan.cursorLeaf = gates.leafCount)
      (.leavesUnaccounted scan.cursorLeaf gates.leafCount)).map fun _ => scan)

/-- The entry count where it was answered. -/
def Node.entries (node : Node) : ℕ := (node.entryCount.getD none).getD 0

end

variable {W : Wallet} {node : Node} {plan : ScanPlan} {options : SyncOptions}

/-- What a chunk that is read was answered, and where the scan stands after it. -/
theorem Wallet.readChunk_ok {scan scan' : Scan} {top : ℕ} {chunk : ChunkRead}
    (read : W.readChunk node.client plan scan top = .ok (scan', chunk)) :
    ∃ topHash blocks anchor frontier, chunkTop node.client plan top = .ok topHash ∧
      headerChain W.H (node.chunk top) ⟨top, topHash⟩ scan.trustedBlock = .ok blocks ∧
      blocks.head? = some anchor ∧ anchor.hash = scan.trustedHash ∧
      W.chunkLeaves node.client plan scan top anchor blocks = .ok (frontier, chunk) ∧
      scan' = ⟨frontier, scan.cursorLeaf + chunk.typed.length, top, topHash,
        scan.checkpoints ++ [⟨top, topHash, scan.cursorLeaf + chunk.typed.length⟩]⟩ := by
  simp only [readChunk, Node.client_headerChain, Node.client_checked, bind_ok_iff, ensure_ok_iff,
    okOr_ok_iff] at read
  obtain ⟨topHash, hashed, blocks, walked, anchor, first, -, trusted, ⟨frontier, _⟩, leaves, ⟨⟩⟩ := read
  exact ⟨topHash, blocks, anchor, frontier, hashed, walked, first, trusted, leaves, rfl⟩

theorem Wallet.exec_walkChunks (entries : ℕ) (collects : Bool) (tops : List ℕ) (scan : Scan)
    (tally : Tally) (store : WalletStore) :
    exec (W.walkChunks node.client plan entries collects tops scan tally) store =
      ((W.readChunks node plan tops scan).2.map fun last =>
          (last, (W.recordReads entries collects (W.readChunks node plan tops scan).1
            (store, tally)).2),
        (W.recordReads entries collects (W.readChunks node plan tops scan).1 (store, tally)).1) := by
  induction tops generalizing scan tally store with
  | nil => rfl
  | cons top tops ih =>
    simp only [walkChunks, Node.client_lift, Node.client_store, Node.client_write]
    cases read : W.readChunk node.client plan scan top with
    | error e =>
      rw [exec_lift_bind_error rfl]
      simp only [readChunks, read]
      rfl
    | ok next =>
      rw [exec_lift_bind_ok rfl]
      simp only [exec_read_bind, exec_write_bind, ih, readChunks, read]
      rfl

theorem Wallet.recordAll_store (entries : ℕ) (collects : Bool) (receipts : List Receipt)
    (state : WalletStore × Tally) :
    (W.recordAll entries collects receipts state).1 = W.take entries receipts state.1 := by
  induction receipts generalizing state with
  | nil => rfl
  | cons receipt receipts ih => exact ih _

theorem Wallet.take_append (entries : ℕ) (first second : List Receipt) (store : WalletStore) :
    W.take entries (first ++ second) store = W.take entries second (W.take entries first store) :=
  List.foldl_append

theorem Wallet.recordReads_store (entries : ℕ) (collects : Bool) (reads : List ChunkRead)
    (state : WalletStore × Tally) :
    (W.recordReads entries collects reads state).1 = W.take entries (receiptsOf reads) state.1 := by
  induction reads generalizing state with
  | nil => rfl
  | cons read reads ih =>
    rw [receiptsOf, List.flatMap_cons, take_append, recordReads, List.foldl_cons]
    refine (ih _).trans ?_
    rw [recordAll_store]
    rfl

section

variable (gates : Gates) (options : SyncOptions) (store : WalletStore)

/-- The store behind the rewind. -/
def Gates.rewound : WalletStore := (store.applyStance gates.stance options).1

/-- Whether the rewind was a fork's. -/
def Gates.marks : Bool := marksOrphans options (store.applyStance gates.stance options).2

/-- The store the walk starts on. -/
def Gates.opened (used : Finset Hash256) : WalletStore :=
  { gates.rewound options store with usedNullifiers := used }

/-- The store and the counts behind the chunks that were read. -/
def Wallet.recorded (W : Wallet) (node : Node) (used : Finset Hash256) (reads : List ChunkRead) :
    WalletStore × Tally :=
  W.recordReads node.entries (gates.marks options store) reads (gates.opened options store used,
    ⟨startReport options gates (gates.rewound options store).nextLeaf node.entries
      (store.applyStance gates.stance options).2, []⟩)

/-- The store and the report of a pass that read everything. -/
def Wallet.finished (W : Wallet) (node : Node) (used : Finset Hash256) (reads : List ChunkRead)
    (scan : Scan) : WalletStore × SyncReport :=
  let (taken, tally) := W.recorded gates options store node used reads
  taken.finish (gates.plan (gates.rewound options store)) options.direction
    (gates.marks options store) scan.checkpoints tally

end

/-- **How a pass can end.** A gate refuses and nothing was written; the settled set is not answered
and the rewind was written; the walk is refused and what it read before is recorded; or the whole
pass is in the store, and the file is written or not. -/
inductive SyncOutcome (W : Wallet) (node : Node) (options : SyncOptions) (saved : Bool)
    (store : WalletStore) : Except SyncError SyncReport × WalletStore → Prop where
  | gate {e : SyncError} (refused : passGates node options store = .error e) :
      SyncOutcome W node options saved store (.error e, store)
  | settledSet {gates : Gates} (passed : passGates node options store = .ok gates)
      (unanswered : node.usedNullifiers = none) :
      SyncOutcome W node options saved store (.error .rpc, gates.rewound options store)
  | walk {gates : Gates} {used : Finset Hash256} {reads : List ChunkRead} {e : SyncError}
      (passed : passGates node options store = .ok gates)
      (answered : node.usedNullifiers = some used)
      (read : W.readPass node gates (gates.rewound options store) = (reads, .error e)) :
      SyncOutcome W node options saved store
        (.error e, (W.recorded gates options store node used reads).1)
  | unsaved {gates : Gates} {used : Finset Hash256} {reads : List ChunkRead} {scan : Scan}
      (passed : passGates node options store = .ok gates)
      (answered : node.usedNullifiers = some used)
      (read : W.readPass node gates (gates.rewound options store) = (reads, .ok scan))
      (failed : saved = false) :
      SyncOutcome W node options saved store
        (.error .saveFailed, (W.finished gates options store node used reads scan).1)
  | done {gates : Gates} {used : Finset Hash256} {reads : List ChunkRead} {scan : Scan}
      (passed : passGates node options store = .ok gates)
      (answered : node.usedNullifiers = some used)
      (read : W.readPass node gates (gates.rewound options store) = (reads, .ok scan))
      (written : saved = true) :
      SyncOutcome W node options saved store
        (.ok (W.finished gates options store node used reads scan).2,
          (W.finished gates options store node used reads scan).1)

/-- The entry count, where it is answered. -/
theorem Node.entryCountAt_ok {entries : ℕ} (h : node.entryCountAt = .ok entries) :
    entries = node.entries := by
  obtain ⟨count, answered, done⟩ := (bind_ok_iff ..).1 h
  rw [okOr_ok_iff] at answered
  rw [Node.entries, answered]
  exact (Except.ok.inj done).symm

/-- The walk is its reading half, recorded. -/
theorem Wallet.exec_scanToHead (W : Wallet) (node : Node) (options : SyncOptions) (gates : Gates)
    (used : Finset Hash256) (store : WalletStore) :
    exec (W.scanToHead node.client options gates (store.applyStance gates.stance options).2)
        (gates.opened options store used) =
      match W.readPass node gates (gates.rewound options store) with
      | (reads, .error e) => (.error e, (W.recorded gates options store node used reads).1)
      | (reads, .ok scan) => (.ok (W.finished gates options store node used reads scan).2,
          (W.finished gates options store node used reads scan).1) := by
  have anchored : scanAnchor (gates.opened options store used) gates.genesisHash =
      scanAnchor (gates.rewound options store) gates.genesisHash := rfl
  simp only [scanToHead, Node.client_lift, Node.client_store, Node.client_write, Node.client_checked,
    Node.client_entryCountAt]
  rw [exec_read_bind, readPass]
  cases anchor : scanAnchor (gates.rewound options store) gates.genesisHash with
  | error e => exact exec_lift_bind_error (anchored.trans anchor)
  | ok bottom =>
    obtain ⟨block, hash⟩ := bottom
    refine (exec_lift_bind_ok (anchored.trans anchor)).trans ?_
    cases counted : node.entryCountAt with
    | error e => exact exec_lift_bind_error rfl
    | ok entries =>
      obtain rfl := Node.entryCountAt_ok counted
      refine (exec_lift_bind_ok rfl).trans ?_
      have same : gates.plan (gates.opened options store used) =
          gates.plan (gates.rewound options store) := rfl
      have start : (gates.opened options store used).nextLeaf =
          (gates.rewound options store).nextLeaf := rfl
      dsimp only
      rw [exec_bind, exec_walkChunks, same, start]
      rcases W.readChunks node _ _ _ with ⟨reads, _ | scan⟩
      · rfl
      · dsimp only [Except.bind, Except.map]
        cases accounted : ensure (scan.cursorLeaf = gates.leafCount)
          (SyncError.leavesUnaccounted scan.cursorLeaf gates.leafCount) with
        | error e => exact exec_lift_bind_error rfl
        | ok _ => exact exec_lift_bind_ok rfl

theorem Wallet.exec_syncWith (W : Wallet) (node : Node) (options : SyncOptions) (saved : Bool)
    (store : WalletStore) :
    SyncOutcome W node options saved store (exec (W.syncWith node options saved) store) := by
  simp only [syncWith, sync, Node.client_lift, Node.client_store, Node.client_write,
    Node.client_checked, Node.client_usedNullifiersAt]
  rw [exec_read_bind, ← passGates]
  cases passed : passGates node options store with
  | error e =>
    rw [exec_lift_bind_error rfl]
    exact .gate passed
  | ok gates =>
    rw [exec_lift_bind_ok rfl, exec_write_bind]
    cases answered : node.usedNullifiers with
    | none =>
      rw [exec_lift_bind_error (x := okOr none SyncError.rpc) rfl]
      exact .settledSet passed answered
    | some used =>
      rw [exec_lift_bind_ok (x := okOr (some used) SyncError.rpc) rfl, exec_write_bind]
      show SyncOutcome W node options saved store (exec (_ >>= _) (gates.opened options store used))
      have scanned := W.exec_scanToHead node options gates used store
      rcases read : W.readPass node gates (gates.rewound options store) with ⟨reads, e | scan⟩
      · rw [read] at scanned
        rw [exec_bind_error scanned]
        exact .walk passed answered read
      · rw [read] at scanned
        rw [exec_bind_ok scanned]
        cases saved with
        | false => exact .unsaved passed answered read rfl
        | true => exact .done passed answered read rfl

/-- **A sync that succeeds** passed its gates, was answered the settled set, read the whole range,
and left its pass in the store and in the file. -/
theorem Wallet.exec_syncWith_ok_iff {saved : Bool} {store after : WalletStore}
    {report : SyncReport} :
    exec (W.syncWith node options saved) store = (.ok report, after) ↔
      ∃ gates used reads scan, passGates node options store = .ok gates ∧
        node.usedNullifiers = some used ∧
        W.readPass node gates (gates.rewound options store) = (reads, .ok scan) ∧
        saved = true ∧ W.finished gates options store node used reads scan = (after, report) := by
  have outcome := W.exec_syncWith node options saved store
  constructor
  · intro ok
    rw [ok] at outcome
    cases outcome with
    | done passed answered read written =>
      exact ⟨_, _, _, _, passed, answered, read, written, rfl⟩
  · rintro ⟨gates, used, reads, scan, passed, answered, read, written, finished⟩
    generalize exec (W.syncWith node options saved) store = out at outcome
    cases outcome with
    | gate refused => rw [passed] at refused; cases refused
    | settledSet _ unanswered => rw [answered] at unanswered; cases unanswered
    | walk passed' answered' read' =>
      rw [passed] at passed'
      cases passed'
      rw [read] at read'
      cases read'
    | unsaved _ _ _ failed => rw [written] at failed; cases failed
    | done passed' answered' read' _ =>
      rw [passed] at passed'
      cases passed'
      rw [answered] at answered'
      cases answered'
      rw [read] at read'
      cases read'
      rw [finished]

end Qnero
