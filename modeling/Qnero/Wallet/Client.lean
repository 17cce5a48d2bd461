import Qnero.Wallet.Typing
import Qnero.Wallet.Store
import Qnero.Extrinsic.Walk
import Qnero.Chain.Run

/-!
# What a node answers

A sync is a conversation with one node. `Node` holds the answers of a whole conversation, one per
question the sync asks; a question that is asked again in a later chunk may be answered differently.
Answers are taken decoded, and `none` is a request that failed or an answer that does not decode.

The reads of the client are over these answers, with every check it makes on its own: the header
walk, the leaf windows, and the bodies.
-/

namespace Qnero

open Plonkish Machine Scale

/-! ## Answers -/

structure ChainHead where
  number : ℕ
  hash : Hash256
deriving DecidableEq

/-- A header as `chain_getHeader` returns it, the digest as its items. -/
structure RawHeader where
  parentHash : Hash256
  number : ℕ
  stateRoot : Hash256
  extrinsicsRoot : Hash256
  zkTreeRoot : Hash256
  logs : List (List UInt8)

/-- The three keys of a leaf. -/
structure RawLeaf where
  commitment : Option Hash256
  block : Option ℕ
  coinbaseValue : Option ℕ

/-- The answers about one chunk of the walk, by height and by leaf. -/
structure ChunkAnswers where
  topHash : Option Hash256
  hashAt : ℕ → Option (Option Hash256)
  header : ℕ → Option RawHeader
  leaf : ℕ → Option RawLeaf
  body : ℕ → Option (List (List UInt8))
  /-- What a body is counted as, half the characters of its texts. -/
  bodySize : ℕ → ℕ

/-- The answers of one sync. -/
structure Node where
  storageKnown : Bool
  genesisHash : Option Hash256
  head : Option ChainHead
  stanceHash : ℕ → Option (Option Hash256)
  leafCount : Option (Option ℕ)
  usedNullifiers : Option (Finset Hash256)
  entryCount : Option (Option ℕ)
  leafHash : ℕ → Option (Option Hash256)
  /-- By the top of the chunk. -/
  chunk : ℕ → ChunkAnswers

inductive LeafKey where
  | leaves
  | leafBlocks
deriving DecidableEq

/-- Why a sync is refused. A refusal that rests on a watermark names the birthday it may still be. -/
inductive SyncError where
  | unknownStorage
  | rpc
  | otherChain (bound genesis : Hash256)
  | missingBlock (number head : ℕ)
  | behindThisWallet (head lastSyncedBlock : ℕ)
  | leafCountAboveCapacity (count : ℕ)
  | shortTree (leafCount watermark head : ℕ) (birthday : Option ℕ)
  | noCheckpoint (start : ℕ)
  | walkUpsideDown (anchor head : ℕ)
  | walkTooLong (anchor head : ℕ)
  | gapInWalk (number : ℕ)
  | headerNumber (claimed number : ℕ)
  | headerNotCanonical (number : ℕ)
  | headerHash (number : ℕ)
  | headerParent (number : ℕ)
  | emptyWalk
  | untrustedAnchor (number : ℕ)
  | withheldKey (index : ℕ) (key : LeafKey)
  | paddingSentinel (index : ℕ)
  | leafNotCanonical (index : ℕ)
  | typing (error : TypingError) (birthday : Option ℕ)
  | coinbaseRebuild (index : ℕ)
  | bodyExtrinsics (number count : ℕ)
  | bodyBytes (number : ℕ)
  | bodyRoot (number : ℕ)
  | extrinsicWalk (position : ℕ) (error : WalkError)
  | leavesUnaccounted (cursor leafCount : ℕ)
  | saveFailed
deriving DecidableEq

/-! ## Constants -/

/-- The blocks of one chunk. -/
def headerWalkLimit : ℕ := 1024

/-- The leaves of one read window. -/
def leafBatch : ℕ := 64

def maxBodyExtrinsics : ℕ := 65536

def maxBodyBytes : ℕ := 6 * 1024 * 1024

/-! ## Counts -/

/-- `leaf_count_at`: absent is zero, and above the capacity of the circuits' tree is refused. -/
def Node.leafCountAt (node : Node) : Except SyncError ℕ := do
  match ← okOr node.leafCount .rpc with
  | some count =>
    ensure (count ≤ 4 ^ circuitMaxTreeDepth) (.leafCountAboveCapacity count)
    pure count
  | none => pure 0

def Node.entryCountAt (node : Node) : Except SyncError ℕ := do
  let count ← okOr node.entryCount .rpc
  pure (count.getD 0)

/-! ## Headers -/

def preRuntimeVariant : UInt8 := 6

def powEngineId : List UInt8 := asciiBytes "pow_"

/-- The hash whose bytes these are. -/
def hashOfBytes (bytes : List UInt8) : Hash256 :=
  ⟨fun i => UInt64.ofNat (ofLe ((bytes.drop (8 * i.val)).take 8))⟩

theorem Hash256.toBytes_eq (h : Hash256) : h.toBytes = leBytes (h.limbs 0) ++
    (leBytes (h.limbs 1) ++ (leBytes (h.limbs 2) ++ leBytes (h.limbs 3))) := by
  simp [Hash256.toBytes, List.finRange_succ]

/-- The bytes of a hash are read back. -/
theorem hashOfBytes_toBytes (h : Hash256) : hashOfBytes h.toBytes = h := by
  have width : ∀ x : UInt64, (leBytes x).length = 8 := by simp [leBytes]
  ext i
  have limb : ((h.toBytes.drop (8 * i.val)).take 8) = leBytes (h.limbs i) := by
    rw [h.toBytes_eq]
    fin_cases i <;> simp [width, List.drop_append, List.drop_of_length_le]
  show (UInt64.ofNat (ofLe _)).toNat = _
  rw [limb, leBytes_eq_toLe, ofLe_toLe (h.limbs i).toNat_lt, UInt64.ofNat_toNat]

theorem toBytes_hashOfBytes {bytes : List UInt8} (h : bytes.length = 32) :
    (hashOfBytes bytes).toBytes = bytes := by
  have limb (i : Fin 4) : leBytes ((hashOfBytes bytes).limbs i) = (bytes.drop (8 * i.val)).take 8 := by
    have width : ((bytes.drop (8 * i.val)).take 8).length = 8 := by
      simp only [List.length_take, List.length_drop, h]
      omega
    have small := ofLe_lt ((bytes.drop (8 * i.val)).take 8)
    rw [width] at small
    rw [leBytes_eq_toLe, hashOfBytes, UInt64.toNat_ofNat_of_lt' small]
    have back := toLe_ofLe ((bytes.drop (8 * i.val)).take 8)
    rwa [width] at back
  rw [Hash256.toBytes_eq, limb, limb, limb, limb]
  have last : (bytes.drop 24).take 8 = bytes.drop 24 := List.take_of_length_le (by simp [h])
  have join (k : ℕ) : (bytes.drop k).take 8 ++ bytes.drop (k + 8) = bytes.drop k := by
    rw [← List.drop_drop, List.take_append_drop]
  show (bytes.drop 0).take 8 ++ ((bytes.drop 8).take 8 ++ ((bytes.drop 16).take 8 ++
    (bytes.drop 24).take 8)) = bytes
  rw [last, join 16, join 8, join 0, List.drop_zero]

namespace RawHeader

/-- The header the hash commits to. -/
def toHeader (raw : RawHeader) : Header :=
  ⟨raw.parentHash, raw.number, raw.stateRoot, raw.extrinsicsRoot, raw.zkTreeRoot,
    compact raw.logs.length ++ raw.logs.flatten⟩

/-- The label of a digest item: `PreRuntime`, the engine, and a vector of 32 bytes. -/
def logLabel (log : List UInt8) : Option Hash256 := do
  let (len, payload) ←
    if log.take 5 = preRuntimeVariant :: powEngineId then decodeCompact 4 (log.drop 5) else none
  if payload.length = len ∧ len = 32 then some (hashOfBytes payload) else none

/-- The first item that is a label. -/
def authorLabel (raw : RawHeader) : Option Hash256 := raw.logs.findSome? logLabel

end RawHeader

section

variable (H : Poseidon2)

/-- One header of the walk, asked for by this number and hash, over the hash answered below it. -/
def verifyHeader (below : Option Hash256) (number : ℕ) (hash : Hash256) (raw : RawHeader) :
    Except SyncError VerifiedBlock := do
  ensure (raw.number = number) (.headerNumber raw.number number)
  ensure (raw.parentHash.Canonical) (.headerNotCanonical number)
  let zkTreeRoot ← okOr (bytesToDigest raw.zkTreeRoot) (.headerNotCanonical number)
  ensure (raw.toHeader.hash H = hash) (.headerHash number)
  ensure (below = none ∨ below = some raw.parentHash) (.headerParent number)
  pure ⟨number, hash, raw.parentHash, raw.extrinsicsRoot, zkTreeRoot, raw.authorLabel⟩

/-- The headers of a walk, bottom first. -/
def verifyHeaders (below : Option Hash256) (number : ℕ) :
    List (Hash256 × RawHeader) → Except SyncError (List VerifiedBlock)
  | [] => .ok []
  | (hash, raw) :: rest => do
    let block ← verifyHeader H below number hash raw
    let blocks ← verifyHeaders (some hash) (number + 1) rest
    pure (block :: blocks)

/-- `header_chain`: the blocks from the anchor to the top, each rehashed and linked. -/
def headerChain (answers : ChunkAnswers) (top : ChainHead) (anchor : ℕ) :
    Except SyncError (List VerifiedBlock) := do
  ensure (anchor ≤ top.number) (.walkUpsideDown anchor top.number)
  ensure (top.number - anchor ≤ headerWalkLimit) (.walkTooLong anchor top.number)
  let below ← (List.range' anchor (top.number - anchor)).mapM fun number => do
    okOr (← okOr (answers.hashAt number) .rpc) (.gapInWalk number)
  let raws ← (List.range' anchor (top.number - anchor + 1)).mapM fun number =>
    okOr (answers.header number) .rpc
  verifyHeaders H none anchor ((below ++ [top.hash]).zip raws)

end

section

variable {H : Poseidon2} {raw : RawHeader}

/-- A block as the walk returns it, from the header that was served for it. -/
structure RawHeader.Verifies (H : Poseidon2) (raw : RawHeader) (block : VerifiedBlock) : Prop where
  number : block.number = raw.number
  hash : raw.toHeader.hash H = block.hash
  parentHash : block.parentHash = raw.parentHash
  canonical : raw.parentHash.Canonical
  extrinsicsRoot : block.extrinsicsRoot = raw.extrinsicsRoot
  zkTreeRoot : raw.zkTreeRoot = digestBytes block.zkTreeRoot
  authorLabel : block.authorLabel = raw.authorLabel

theorem verifyHeader_ok {below : Option Hash256} {number : ℕ} {hash : Hash256}
    {block : VerifiedBlock} (h : verifyHeader H below number hash raw = .ok block) :
    raw.Verifies H block ∧ block.number = number ∧ block.hash = hash ∧
      ∀ parent ∈ below, block.parentHash = parent := by
  simp only [verifyHeader, bind_ok_iff, ensure_ok_iff, okOr_ok_iff] at h
  obtain ⟨-, numbered, -, canonical, root, decoded, -, hashed, -, linked, done⟩ := h
  obtain rfl := Except.ok.inj done
  refine ⟨⟨numbered.symm, hashed, rfl, canonical, rfl, bytesToDigest_eq_some.1 decoded, rfl⟩, rfl, rfl,
    fun parent mem => ?_⟩
  rcases linked with none | some
  · rw [none] at mem
    cases mem
  · rw [some] at mem
    exact Option.some.inj mem

/-- The blocks of a walk: served and rehashed one by one, and each the parent of the next. -/
theorem verifyHeaders_ok {below : Option Hash256} {number : ℕ} {served : List (Hash256 × RawHeader)}
    {blocks : List VerifiedBlock} (h : verifyHeaders H below number served = .ok blocks) :
    List.Forall₂ (fun answer block => answer.2.Verifies H block ∧ block.hash = answer.1) served blocks ∧
      blocks.map VerifiedBlock.number = List.range' number served.length ∧
      blocks.IsChain (fun lower block => block.parentHash = lower.hash) ∧
      ∀ block ∈ blocks.head?, ∀ parent ∈ below, block.parentHash = parent := by
  induction served generalizing below number blocks with
  | nil =>
    obtain rfl := Except.ok.inj h
    exact ⟨.nil, rfl, .nil, fun _ mem => nomatch mem⟩
  | cons answer served ih =>
    simp only [verifyHeaders, bind_ok_iff] at h
    obtain ⟨block, here, rest, above, done⟩ := h
    obtain rfl := Except.ok.inj done
    obtain ⟨verifies, numbered, hashed, linked⟩ := verifyHeader_ok here
    obtain ⟨each, numbers, chain, first⟩ := ih above
    refine ⟨.cons ⟨verifies, hashed⟩ each, ?_, ?_, ?_⟩
    · rw [List.map_cons, numbers, numbered, List.length_cons, List.range'_succ]
    · refine List.isChain_cons.2 ⟨fun upper mem => first upper mem _ ?_, chain⟩
      rw [hashed]
      rfl
    · rintro _ ⟨⟩
      exact linked

end

/-! ## Leaves -/

/-- `leaf_hashes` below the count. -/
def Node.leafHashes (node : Node) (stop leafCount : ℕ) : Except SyncError (List Digest) :=
  (List.range stop).mapM fun index => do
    match ← okOr (node.leafHash index) .rpc with
    | some bytes =>
      let digest ← okOr (bytesToDigest bytes) (.leafNotCanonical index)
      ensure (¬ (index < leafCount ∧ digest = 0)) (.paddingSentinel index)
      pure digest
    | none =>
      ensure (¬ index < leafCount) (.withheldKey index .leaves)
      pure 0

/-- One leaf of a window: a key withheld below the count is refused, and so is the pad. -/
def readLeaf (leafCount index : ℕ) (raw : RawLeaf) : Except SyncError LeafRecord := do
  ensure (¬ (index < leafCount ∧ raw.commitment = none)) (.withheldKey index .leaves)
  ensure (¬ (index < leafCount ∧ raw.block = none)) (.withheldKey index .leafBlocks)
  ensure (¬ (index < leafCount ∧ raw.commitment = some 0)) (.paddingSentinel index)
  pure ⟨index, raw.commitment, raw.block, raw.coinbaseValue⟩

/-- `leaf_window`: the keys are read at once, then checked. -/
def leafWindow (answers : ChunkAnswers) (leafCount start stop : ℕ) :
    Except SyncError (List LeafRecord) := do
  let raws ← (List.range' start (stop - start)).mapM fun index => do
    pure (index, ← okOr (answers.leaf index) .rpc)
  raws.mapM fun (index, raw) => readLeaf leafCount index raw

/-- Whether a record stays in a chunk with this top. -/
def LeafRecord.upTo (topBlock : ℕ) (record : LeafRecord) : Bool :=
  match record.blockNumber with
  | some block => block ≤ topBlock
  | none => true

/-- `leaves_up_to_block`: windows up from the cursor, to the first leaf dated above the top. The
fuel bounds the windows; one per leaf is enough. -/
def leavesUpToBlock (answers : ChunkAnswers) (leafCount topBlock : ℕ) :
    ℕ → ℕ → Except SyncError (List LeafRecord)
  | 0, _ => .ok []
  | fuel + 1, cursor =>
    if cursor < leafCount then do
      let windowEnd := min (cursor + leafBatch) leafCount
      let window ← leafWindow answers leafCount cursor windowEnd
      let taken := window.takeWhile (LeafRecord.upTo topBlock)
      if taken.length < window.length then pure taken
      else do
        let rest ← leavesUpToBlock answers leafCount topBlock fuel windowEnd
        pure (window ++ rest)
    else .ok []

/-! ## Bodies -/

/-- `authenticated_body`: within the budgets, and rooted in the header. -/
def authenticatedBody (extrinsicsRoot : List (List UInt8) → Option Hash256)
    (answers : ChunkAnswers) (block : VerifiedBlock) : Except SyncError (List (List UInt8)) := do
  let body ← okOr (answers.body block.number) .rpc
  ensure (body.length ≤ maxBodyExtrinsics) (.bodyExtrinsics block.number body.length)
  ensure (answers.bodySize block.number ≤ maxBodyBytes) (.bodyBytes block.number)
  ensure (extrinsicsRoot body = some block.extrinsicsRoot) (.bodyRoot block.number)
  pure body

/-- `block_payloads`: every extrinsic from this position on is walked. -/
def blockPayloads (metadata : Metadata) (position : ℕ) :
    List (List UInt8) → Except SyncError (List (List UInt8))
  | [] => .ok []
  | extrinsic :: body => do
    let payloads ← (extrinsicPayloads metadata extrinsic).mapError (.extrinsicWalk position)
    let rest ← blockPayloads metadata (position + 1) body
    pure (payloads ++ rest)

end Qnero
