import Qnero.Dialogue
import Qnero.Leaf.Witness
import Qnero.Wallet.CommitmentTree
import Qnero.Wallet.Sync

/-!
# The client and its requests

The reads of a wallet, down to the requests they send. A read is a session with a node: it asks by
HTTP, single calls or batches of them, and what the client keeps between two reads is its state: what
it has learned about batches and lists on this node, and the state roots of the blocks it has seen.

The parsing of JSON and the tries are taken as given: `Json` is a parsed body, and `StateProofs` reads
values out of a proof.
-/

namespace Qnero.Rpc

open Plonkish Scale

/-! ## Texts -/

/-- A parsed body. Numbers that are no 64-bit ones, and truth values, are `other`. -/
inductive Json where
  | null
  | number (n : ℕ)
  | text (value : String)
  | array (items : List Json)
  | object (fields : List (String × Json))
  | other

namespace Json

def field (name : String) : Json → Option Json
  | object fields => fields.lookup name
  | _ => none

def asNumber : Json → Option ℕ
  | number n => some n
  | _ => none

def asText : Json → Option String
  | text value => some value
  | _ => none

def asArray : Json → Option (List Json)
  | array items => some items
  | _ => none

/-- A list of texts. -/
def texts (json : Json) : Option (List String) := do
  let items ← json.asArray
  items.mapM asText

end Json

def hexDigit (c : Char) : Option ℕ :=
  if '0' ≤ c ∧ c ≤ '9' then some (c.toNat - 48)
  else if 'a' ≤ c ∧ c ≤ 'f' then some (c.toNat - 87)
  else if 'A' ≤ c ∧ c ≤ 'F' then some (c.toNat - 55)
  else none

def hexBytes : List Char → Option (List UInt8)
  | [] => some []
  | [_] => none
  | high :: low :: rest => do
    let high ← hexDigit high
    let low ← hexDigit low
    let bytes ← hexBytes rest
    some (UInt8.ofNat (16 * high + low) :: bytes)

/-- Without a leading `0x`. -/
def strip0x : List Char → List Char
  | '0' :: 'x' :: rest => rest
  | cs => cs

def decodeHex (value : String) : Option (List UInt8) := hexBytes (strip0x value.toList)

def decodeHash (value : String) : Option Hash256 := do
  let bytes ← decodeHex value
  if bytes.length = 32 then some (hashOfBytes bytes) else none

/-- A block number; the radix parser takes a plus sign. -/
def decodeU32Hex (value : String) : Option ℕ := do
  let digits := match strip0x value.toList with
    | '+' :: rest => rest
    | cs => cs
  let digits ← if digits = [] then none else digits.mapM hexDigit
  let n := digits.foldl (fun n digit => 16 * n + digit) 0
  if n < 2 ^ 32 then some n else none

def hexChar (n : ℕ) : Char := Char.ofNat (if n < 10 then 48 + n else 87 + n)

def hex0x (bytes : List UInt8) : String :=
  String.ofList ('0' :: 'x' :: bytes.flatMap fun b => [hexChar (b.toNat / 16), hexChar (b.toNat % 16)])

/-- A header as it is answered. -/
structure HeaderText where
  parentHash : String
  number : String
  stateRoot : String
  extrinsicsRoot : String
  zkTreeRoot : String
  logs : List String

namespace HeaderText

def ofJson (json : Json) : Option HeaderText := do
  let text (name : String) : Option String := (json.field name).bind Json.asText
  let digest ← json.field "digest"
  let logs ← (digest.field "logs").bind Json.texts
  some ⟨← text "parentHash", ← text "number", ← text "stateRoot", ← text "extrinsicsRoot",
    ← text "zkTreeRoot", logs⟩

def decode (header : HeaderText) : Option RawHeader := do
  some ⟨← decodeHash header.parentHash, ← decodeU32Hex header.number, ← decodeHash header.stateRoot,
    ← decodeHash header.extrinsicsRoot, ← decodeHash header.zkTreeRoot, ← header.logs.mapM decodeHex⟩

end HeaderText

/-! ## Requests -/

/-- One call: its method and its parameters. -/
inductive RpcCall where
  /-- `chain_getBlockHash` without, with one and with a list of heights. -/
  | blockHash
  | blockHashAt (number : ℕ)
  | blockHashes (numbers : List ℕ)
  /-- `chain_getHeader`, of the best block or by hash. -/
  | header
  | headerAt (block : String)
  /-- `chain_getBlock`. -/
  | block (block : String)
  /-- `state_getReadProof`. -/
  | readProof (keys : List (List UInt8)) (block : String)
  /-- `state_getKeysPaged`. -/
  | keysPaged (key : List UInt8) (page : ℕ) (cursor : Option String) (block : String)
deriving DecidableEq

/-- What is posted: a call, or an array of them. -/
inductive HttpRequest where
  | single (call : RpcCall)
  | batch (calls : List RpcCall)
deriving DecidableEq

/-- What comes back: nothing, a status, or a body, which may not parse. -/
inductive HttpReply where
  | failed
  | status (code : ℕ)
  | body (json : Option Json)

/-- What the client has learned about a feature of this node. -/
inductive Support where
  | unknown
  | taken
  | refused
deriving DecidableEq

/-- What the client keeps from read to read. -/
structure RpcClient where
  nextId : ℕ
  batches : Support
  hashLists : Support
  stateRoots : List (Hash256 × Hash256)

/-- The client of a new command. -/
def RpcClient.new : RpcClient := ⟨1, .unknown, .unknown, []⟩

/-- Why a read fails. -/
inductive ClientError where
  | sync (error : SyncError)
  | call
  | answer
  | noBlock (number : ℕ)
  | storageHeader
  | otherBlock
  | proofNodes
  | proofBytes
  | stateProof
  | pageSize
  | pageOrder
  | prefixEntries
  | nullifierKey
  | valueWidth
  | headerCount
  | withheldBody (number : ℕ)
  | tree (message : String)
deriving DecidableEq

/-- A read. -/
abbrev Talk := Session HttpRequest HttpReply RpcClient ClientError

def orFail {α : Type} (x : Option α) (error : ClientError) : Talk α :=
  Session.ofExcept (okOr x error)

def check (p : Prop) [Decidable p] (error : ClientError) : Talk Unit :=
  Session.ofExcept (ensure p error)

/-- A check of the pass itself. -/
def offline {α : Type} (x : Except SyncError α) : Talk α := Session.ofExcept (x.mapError .sync)

/-! ## Calls -/

/-- A call that did not give a result: the node said no, or the request did not complete. -/
inductive CallFailure where
  | refused
  | incomplete

def readReply : HttpReply → Except CallFailure Json
  | .body (some json) =>
    match json.field "error" with
    | some _ => .error .refused
    | none => okOr (json.field "result") .incomplete
  | _ => .error .incomplete

def call (c : RpcCall) : Talk (Except CallFailure Json) := do
  modify fun client => { client with nextId := client.nextId + 1 }
  let reply ← Session.ask (.single c)
  pure (readReply reply)

def callResult (c : RpcCall) : Talk Json := do
  match ← call c with
  | .ok result => pure result
  | .error _ => throw .call

def callAs {α : Type} (decode : Json → Option α) (c : RpcCall) : Talk α := do
  let result ← callResult c
  orFail (decode result) .answer

/-- Statuses that say nothing about batches. -/
def statusIsTransient (code : ℕ) : Bool := code ∈ [408, 425, 429, 500, 502, 503, 504]

/-- The answers of a batch, by their ids; `none` is an answer that is no batch. -/
def readBatch (first count : ℕ) (json : Json) : Except ClientError (Option (List Json)) :=
  match json.asArray with
  | none => .ok none
  | some answers =>
    if answers.length ≠ count then .ok none
    else
      match answers.mapM fun answer => ((answer.field "id").bind Json.asNumber).map (·, answer) with
      | none => .ok none
      | some byId =>
        -- A later answer of one id replaces an earlier one.
        match (List.range' first count).mapM fun id => byId.reverse.lookup id with
        | none => .ok none
        | some found => (found.mapM fun answer : Json =>
          (readReply (.body (some answer))).mapError fun _ => ClientError.call).map some

def tryBatch (calls : List RpcCall) : Talk (Option (List Json)) := do
  let client ← get
  set { client with nextId := client.nextId + calls.length }
  match ← Session.ask (.batch calls) with
  | .status code => if statusIsTransient code then throw .call else pure none
  | .failed => throw .call
  | .body none => throw .call
  | .body (some json) => Session.ofExcept (readBatch client.nextId calls.length json)

/-- `call_many`: a batch where the node takes one, and otherwise one call after the other. -/
def callMany (calls : List RpcCall) : Talk (List Json) := do
  match calls with
  | [] => pure []
  | [c] => do
    let result ← callResult c
    pure [result]
  | calls => do
    let answered ←
      if (← get).batches = .refused then pure none
      else do
        let answered ← tryBatch calls
        modify fun client =>
          { client with batches := if answered.isSome then .taken else .refused }
        pure answered
    match answered with
    | some results => pure results
    | none => calls.mapM callResult

/-! ## Storage -/

/-- The hashes of storage keys, and the reading of state proofs. -/
structure StateProofs where
  twox128 : List UInt8 → List UInt8
  blake2128 : List UInt8 → List UInt8
  /-- The values of the keys, from the root and the nodes of a proof. -/
  readValues : Hash256 → List (List UInt8) → List (List UInt8) → Option (List (Option (List UInt8)))
  /-- Every entry below a prefix. -/
  readPrefix : Hash256 → Finset (List UInt8) → List UInt8 → Option (List (List UInt8 × List UInt8))

def maxProofBytes : ℕ := 64 * 1024 * 1024

def maxProofNodes : ℕ := 1000000

def maxPrefixEntries : ℕ := 1000000

/-- The state roots the client keeps at most. -/
def stateRootCache : ℕ := 64

/-- The keys of one page. -/
def keyPage : ℕ := 1000

section

variable (H : Poseidon2) (T : StateProofs)

namespace StateProofs

def storagePrefix (pallet item : String) : List UInt8 :=
  T.twox128 (asciiBytes pallet) ++ T.twox128 (asciiBytes item)

def identityMapKey (pallet item : String) (index : ℕ) : List UInt8 :=
  T.storagePrefix pallet item ++ toLe 8 index

def blake2128ConcatMapKey (pallet item : String) (rawKey : List UInt8) : List UInt8 :=
  T.storagePrefix pallet item ++ T.blake2128 rawKey ++ rawKey

end StateProofs

/-- The circuit's view of a header; its two Poseidon2 roots have to be digests. -/
def headerInputs (raw : RawHeader) : Option HeaderInputs := do
  let parentHash ← bytesToDigest raw.parentHash
  let zkTreeRoot ← bytesToDigest raw.zkTreeRoot
  let digest := H.bytesToFelts (digestWindow raw.toHeader.digest)
  if digest.length = 28 then
    some ⟨parentHash, UInt32.ofNat raw.number, bytesToDigestLossy raw.stateRoot,
      bytesToDigestLossy raw.extrinsicsRoot, zkTreeRoot, fun i => digest.getD i 0⟩
  else none

/-- `state_root`, from a header that hashes to the block, and kept. -/
def stateRoot (block : String) : Talk Hash256 := do
  let hash ← orFail (decodeHash block) .answer
  match (← get).stateRoots.lookup hash with
  | some root => pure root
  | none => do
    let text ← callAs HeaderText.ofJson (.headerAt block)
    let raw ← orFail text.decode .answer
    let header ← orFail (headerInputs H raw) .answer
    check (digestBytes (header.blockHash H) = hash) .storageHeader
    modify fun client =>
      let kept := if stateRootCache ≤ client.stateRoots.length then [] else client.stateRoots
      { client with stateRoots := (hash, raw.stateRoot) :: kept }
    pure raw.stateRoot

/-- The block and the nodes of an answer to `state_getReadProof`. -/
def proofOfJson (json : Json) : Option (String × List String) := do
  let block ← (json.field "at").bind Json.asText
  let nodes ← (json.field "proof").bind Json.texts
  some (block, nodes)

def readProof (keys : List (List UInt8)) (block : String) : Talk (List (List UInt8)) := do
  let (answered, nodes) ← callAs proofOfJson (.readProof keys block)
  let served ← orFail (decodeHash answered) .answer
  let asked ← orFail (decodeHash block) .answer
  check (served = asked) .otherBlock
  check (nodes.length ≤ maxProofNodes) .proofNodes
  check ((nodes.map fun node => node.length / 2).sum ≤ maxProofBytes) .proofBytes
  orFail (nodes.mapM decodeHex) .answer

def storageBatch (keys : List (List UInt8)) (block : String) :
    Talk (List (Option (List UInt8))) := do
  if keys = [] then pure []
  else do
    let root ← stateRoot H block
    let proof ← readProof keys block
    orFail (T.readValues root proof keys) .stateProof

/-- One value; an unpinned read selects a block first. -/
def storage (key : List UInt8) (block : Option String) : Talk (Option (List UInt8)) := do
  let block ← match block with
    | some block => pure block
    | none => callAs Json.asText .blockHash
  let values ← storageBatch H T [key] block
  pure (values.headD none)

/-- The keys of a page: below the prefix, and above each other. -/
def orderedKeys (key : List UInt8) : Option (List UInt8) → List String →
    Except ClientError (List (List UInt8))
  | _, [] => .ok []
  | last, text :: rest => do
    let next ← okOr (decodeHex text) .answer
    ensure (key.isPrefixOf next = true ∧ ∀ held ∈ last, held < next) .pageOrder
    let more ← orderedKeys key (some next) rest
    pure (next :: more)

/-- Page after page, with the proofs of their keys. Every page but the last is full, so the entries
run out before the fuel does. -/
def keyPages (key : List UInt8) (page : ℕ) (block : String) :
    ℕ → Option String → ℕ → Finset (List UInt8) → Talk (Finset (List UInt8))
  | 0, _, _, _ => throw .prefixEntries
  | fuel + 1, cursor, count, nodes => do
    let keys ← callAs Json.texts (.keysPaged key page cursor block)
    check (keys.length ≤ page) .pageSize
    let last ← orFail (cursor.mapM decodeHex) .answer
    let decoded ← Session.ofExcept (orderedKeys key last keys)
    let count := count + keys.length
    check (count ≤ maxPrefixEntries) .prefixEntries
    let more ← if decoded = [] then pure [] else readProof decoded block
    let nodes := nodes ∪ more.toFinset
    check (nodes.sum List.length ≤ maxProofBytes ∧ nodes.card ≤ maxProofNodes) .proofBytes
    if keys.length < page then pure nodes
    else keyPages key page block fuel keys.getLast? count nodes

def storagePrefix (key : List UInt8) (block : String) (page : ℕ) :
    Talk (List (List UInt8 × List UInt8)) := do
  check (0 < page ∧ page ≤ 4096) .pageSize
  let root ← stateRoot H block
  let first ← readProof [key] block
  let nodes ← keyPages key page block (maxPrefixEntries + 1) none 0 first.toFinset
  orFail (T.readPrefix root nodes key) .stateProof

end

/-! ## Blocks -/

/-- The heights of one list request. -/
def hashPage : ℕ := 256

/-- The headers of one batch. -/
def headerBatch : ℕ := 64

/-- The leaves of one read of hashes. -/
def leafHashBatch : ℕ := 256

/-- A range in steps of a size. -/
def pages (size start stop : ℕ) : List (ℕ × ℕ) :=
  (List.range ((stop - start + size - 1) / size)).map fun k =>
    (start + size * k, min (start + size * (k + 1)) stop)

/-- A hash, or that there is none. -/
def hashOfJson : Json → Option (Option Hash256)
  | .null => some none
  | .text value => (decodeHash value).map some
  | _ => none

def hashText (hash : Hash256) : String := hex0x hash.toBytes

def blockHashAtHeight (number : ℕ) : Talk (Option Hash256) :=
  callAs hashOfJson (.blockHashAt number)

def blockHash (number : ℕ) : Talk Hash256 := do
  let hash ← blockHashAtHeight number
  orFail hash (.noBlock number)

def genesisHash : Talk Hash256 := blockHash 0

/-- The list form; `none` is a node that does not take it. -/
def tryHashList (numbers : List ℕ) : Talk (Option (List (Option Hash256))) := do
  match ← call (.blockHashes numbers) with
  | .error .refused => pure none
  | .error .incomplete => throw .call
  | .ok listed =>
    match listed.asArray with
    | none => pure none
    | some answers =>
      if answers.length ≠ numbers.length then pure none
      else do
        let hashes ← orFail (answers.mapM hashOfJson) .answer
        pure (some hashes)

def blockHashesAt (numbers : List ℕ) : Talk (List (Option Hash256)) := do
  if numbers = [] then pure []
  else do
    let listed ←
      if (← get).hashLists = .refused then pure none
      else do
        let listed ← tryHashList numbers
        modify fun client => { client with hashLists := if listed.isSome then .taken else .refused }
        pure listed
    match listed with
    | some hashes => pure hashes
    | none => numbers.mapM blockHashAtHeight

def head : Talk ChainHead := do
  let header ← callAs HeaderText.ofJson .header
  let number ← orFail (decodeU32Hex header.number) .answer
  let hash ← blockHash number
  pure ⟨number, hash⟩

section

variable (H : Poseidon2) (T : StateProofs)

/-- The header of a height, rehashed. -/
def anchorHeader (number : ℕ) : Talk (HeaderInputs × Hash256) := do
  let hash ← blockHash number
  let text ← callAs HeaderText.ofJson (.headerAt (hashText hash))
  let raw ← orFail text.decode .answer
  let header ← orFail (headerInputs H raw) .answer
  check (digestBytes (header.blockHash H) = hash) .storageHeader
  pure (header, hash)

/-- What a walk asks for and decodes: the hashes by pages of heights, the last of them its own, and a
header for each, by batches. -/
def headerReads (top : ChainHead) (anchor : ℕ) : Talk (List Hash256 × List RawHeader) := do
  offline (ensure (anchor ≤ top.number) (.walkUpsideDown anchor top.number))
  offline (ensure (top.number - anchor ≤ headerWalkLimit) (.walkTooLong anchor top.number))
  let below ← (pages hashPage anchor top.number).mapM fun (start, stop) => do
    let numbers := List.range' start (stop - start)
    let answers ← blockHashesAt numbers
    offline ((answers.zip numbers).mapM fun (hash, number) => okOr hash (.gapInWalk number))
  let hashes := below.flatten ++ [top.hash]
  let texts ← (hashes.toChunks headerBatch).mapM fun page => do
    let answers ← callMany (page.map fun hash => .headerAt (hashText hash))
    answers.mapM fun answer => orFail (HeaderText.ofJson answer) .answer
  check (texts.flatten.length = top.number - anchor + 1) .headerCount
  let raws ← orFail (texts.flatten.mapM HeaderText.decode) .answer
  pure (hashes, raws)

/-- `header_chain`: what was read, then the checks. -/
def headerChain (top : ChainHead) (anchor : ℕ) : Talk (List VerifiedBlock) := do
  let (hashes, raws) ← headerReads top anchor
  offline (verifyHeaders H none anchor (hashes.zip raws))

/-! ## Leaves -/

/-- An integer of exactly this many bytes. -/
def decodeExact (width : ℕ) (bytes : List UInt8) : Option ℕ :=
  if bytes.length = width then some (ofLe bytes) else none

def decodeBytes32 (bytes : List UInt8) : Option Hash256 :=
  if bytes.length = 32 then some (hashOfBytes bytes) else none

def leafCountAt (block : Hash256) : Talk ℕ := do
  match ← storage H T (T.storagePrefix "ZkTree" "LeafCount") (some (hashText block)) with
  | none => pure 0
  | some bytes => do
    let count ← orFail (decodeExact 8 bytes) .valueWidth
    offline (ensure (count ≤ 4 ^ circuitMaxTreeDepth) (.leafCountAboveCapacity count))
    pure count

def entryCountAt (block : Hash256) : Talk ℕ := do
  match ← storage H T (T.storagePrefix "Shielded" "EntryCount") (some (hashText block)) with
  | none => pure 0
  | some bytes => orFail (decodeExact 8 bytes) .valueWidth

def treeDepthAt (block : Hash256) : Talk ℕ := do
  match ← storage H T (T.storagePrefix "ZkTree" "Depth") (some (hashText block)) with
  | none => pure 0
  | some bytes => orFail (decodeExact 1 bytes) .valueWidth

/-- A leaf of the prefix: withheld or the pad below the count is refused. -/
def readLeafHash (leafCount index : ℕ) (value : Option (List UInt8)) : Except ClientError Digest :=
  match value with
  | some bytes => do
    let bytes ← okOr (decodeBytes32 bytes) .valueWidth
    let digest ← okOr (bytesToDigest bytes) (.sync (.leafNotCanonical index))
    ensure (¬ (index < leafCount ∧ digest = 0)) (.sync (.paddingSentinel index))
    pure digest
  | none => do
    ensure (¬ index < leafCount) (.sync (.withheldKey index .leaves))
    pure 0

def leafHashes (start stop leafCount : ℕ) (block : Hash256) : Talk (List Digest) := do
  let read ← (pages leafHashBatch start stop).mapM fun (start, stop) => do
    let indices := List.range' start (stop - start)
    let keys := indices.map (T.identityMapKey "ZkTree" "Leaves")
    let values ← storageBatch H T keys (hashText block)
    Session.ofExcept ((indices.zip values).mapM fun (index, value) => readLeafHash leafCount index value)
  pure read.flatten

/-- The three keys of a leaf, decoded. -/
def rawLeaf (values : List (Option (List UInt8))) : Except ClientError RawLeaf := do
  let decode {α : Type} (f : List UInt8 → Option α) (i : ℕ) : Except ClientError (Option α) :=
    okOr ((values.getD i none).elim (some none) fun bytes => (f bytes).map some) .valueWidth
  let commitment ← decode decodeBytes32 0
  let block ← decode (decodeExact 4) 1
  let coinbaseValue ← decode (decodeExact 8) 2
  pure ⟨commitment, block, coinbaseValue⟩

def leafWindow (start stop leafCount : ℕ) (block : Hash256) : Talk (List LeafRecord) := do
  let indices := List.range' start (stop - start)
  let keys := indices.flatMap fun index =>
    [T.identityMapKey "ZkTree" "Leaves" index, T.identityMapKey "Shielded" "LeafBlocks" index,
      T.identityMapKey "Shielded" "CoinbaseValues" index]
  let values ← storageBatch H T keys (hashText block)
  Session.ofExcept (indices.zipIdx.mapM fun (index, offset) => do
    let raw ← rawLeaf (values.drop (3 * offset))
    (readLeaf leafCount index raw).mapError .sync)

/-- `leaves_up_to_block`: windows up from the cursor, to the first leaf dated above the top. -/
def leavesUpToBlock (leafCount topBlock : ℕ) (block : Hash256) : ℕ → ℕ → Talk (List LeafRecord)
  | 0, _ => pure []
  | fuel + 1, cursor =>
    if cursor < leafCount then do
      let windowEnd := min (cursor + leafBatch) leafCount
      let window ← leafWindow H T cursor windowEnd leafCount block
      let taken := window.takeWhile (LeafRecord.upTo topBlock)
      if taken.length < window.length then pure taken
      else do
        let rest ← leavesUpToBlock leafCount topBlock block fuel windowEnd
        pure (window ++ rest)
    else pure []

/-- The whole tree of a block. -/
def rebuildTree (block : Hash256) : Talk CommitmentTree := do
  let leafCount ← leafCountAt H T block
  let depth ← treeDepthAt H T block
  let leaves ← leafHashes H T 0 leafCount leafCount block
  Session.ofExcept ((CommitmentTree.new leaves depth).mapError .tree)

/-! ## Nullifiers and bodies -/

/-- The nullifier a key of the map ends in. -/
def nullifierOfEntry (entry : List UInt8 × List UInt8) : Except ClientError Hash256 := do
  let (key, value) := entry
  let skipped := (T.storagePrefix "Shielded" "UsedNullifiers").length + 16
  let raw := key.drop skipped
  ensure (skipped ≤ key.length ∧ raw.length = 32 ∧ value = []) .nullifierKey
  ensure (T.blake2128ConcatMapKey "Shielded" "UsedNullifiers" raw = key) .nullifierKey
  pure (hashOfBytes raw)

def usedNullifiersAt (block : Hash256) : Talk (Finset Hash256) := do
  let entries ← storagePrefix H T (T.storagePrefix "Shielded" "UsedNullifiers") (hashText block)
    keyPage
  let nullifiers ← Session.ofExcept (entries.mapM (nullifierOfEntry T))
  pure nullifiers.toFinset

/-- The extrinsics of an answer to `chain_getBlock`. -/
def bodyOfJson (json : Json) : Option (List Json) := do
  let block ← json.field "block"
  let extrinsics ← block.field "extrinsics"
  extrinsics.asArray

def authenticatedBody (extrinsicsRoot : List (List UInt8) → Option Hash256) (block : VerifiedBlock) :
    Talk (List (List UInt8)) := do
  let answer ← callResult (.block (hashText block.hash))
  let extrinsics ← orFail (bodyOfJson answer) (.withheldBody block.number)
  offline (ensure (extrinsics.length ≤ maxBodyExtrinsics)
    (.bodyExtrinsics block.number extrinsics.length))
  let texts ← orFail (extrinsics.mapM Json.asText) .answer
  offline (ensure ((texts.map fun text => text.length / 2).sum ≤ maxBodyBytes)
    (.bodyBytes block.number))
  let body ← orFail (texts.mapM decodeHex) .answer
  offline (ensure (extrinsicsRoot body = some block.extrinsicsRoot) (.bodyRoot block.number))
  pure body

end

end Qnero.Rpc
