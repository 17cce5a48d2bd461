import Qnero.Tree.Frontier
import Qnero.Tree.Correct
import Qnero.Dispatch

/-!
# Typing leaves

A wallet learns from the block headers which leaves a block appended and which of them is its
coinbase. It folds the leaves a node dates to a block and compares the root with the header's; the
last leaf of a block is then its coinbase, whose value has to be there, and the author label is
cross-checked against the note the wallet's own miner key derives.

`typeBlock` is one block of the pass, and `typeBlock_ok_iff` says what it accepts: every result
about the pass is read off that.
-/

namespace Qnero

open Plonkish Machine QuadTree

/-! ## The miner's key -/

/-- The ASCII bytes of a domain string. -/
def asciiBytes (text : String) : List UInt8 := text.toList.map fun c => UInt8.ofNat c.toNat

/-- What the author's node holds: the address key and the coinbase viewing key. -/
structure MinerKey where
  pk : Digest
  cvk : Digest

/-- `Note::new`: values stay in range. -/
def Note.new (pk : Digest) (value : ℕ) (rho r : Digest) : Option Note :=
  if value ≤ maxValue then some ⟨pk, value, rho, r⟩ else none

section

variable (H : Poseidon2)

def coinbaseR (cvk : Digest) (genesisHash : Hash256) (blockNumber : ℕ) : Digest :=
  let chain := H.hashBytes (asciiBytes "qnero/coinbase-chain" ++ genesisHash.toBytes)
  hashFelts H Domain.rCoinbase [felts cvk, felts chain, [(blockNumber : Felt)]]

namespace MinerKey

def authorLabel (key : MinerKey) (parentHash : Hash256) : Digest :=
  H.hashBytes (asciiBytes "qnero/author-label" ++ (digestBytes key.cvk).toBytes ++
    parentHash.toBytes)

def coinbaseNote (key : MinerKey) (genesisHash : Hash256) (blockNumber value : ℕ) : Option Note :=
  Note.new key.pk value (coinbaseRho H blockNumber) (coinbaseR H key.cvk genesisHash blockNumber)

end MinerKey

/-- The key on one chain. -/
structure MinerView where
  key : MinerKey
  genesisHash : Hash256

namespace MinerView

def label (miner : MinerView) (parentHash : Hash256) : Hash256 :=
  digestBytes (miner.key.authorLabel H parentHash)

/-- What the chain sees of the own coinbase note, whatever its value. -/
def coinbaseInner (miner : MinerView) (blockNumber : ℕ) : Digest :=
  noteInner H miner.key.pk (coinbaseRho H blockNumber)
    (coinbaseR H miner.key.cvk miner.genesisHash blockNumber)

def coinbaseCommitment (miner : MinerView) (blockNumber value : ℕ) : Option Digest :=
  (miner.key.coinbaseNote H miner.genesisHash blockNumber value).map (Note.commitment H)

end MinerView

end

/-! ## What is typed -/

/-- A block of a header walk. -/
structure VerifiedBlock where
  number : ℕ
  hash : Hash256
  parentHash : Hash256
  extrinsicsRoot : Hash256
  zkTreeRoot : Digest
  authorLabel : Option Hash256

/-- A leaf as a node reports it. -/
structure LeafRecord where
  index : ℕ
  commitment : Option Hash256
  blockNumber : Option ℕ
  coinbaseValue : Option ℕ

/-- Which rule opens a leaf. -/
inductive LeafKind where
  | transfer
  | coinbase (ours : Bool) (value : ℕ) (labelDisagrees : Bool)
deriving DecidableEq

structure TypedLeaf where
  index : ℕ
  commitment : Digest
  blockNumber : ℕ
  kind : LeafKind
deriving DecidableEq

/-- The refusals of the pass. -/
inductive TypingError where
  | noBlocks
  | treeTooDeep
  | foldedToNothing
  | seedLength
  | seedRoot
  | anchorRoot
  | unknownParent
  | noCommitment
  | nonCanonicalLeaf
  | paddingLeaf
  | blockRoot
  | movedRoot
  | coinbaseBelowLast
  | coinbaseWithheld
  | labelMismatch
  | strayLeaf
deriving DecidableEq

/-! ## The fold -/

section

variable (H : Poseidon2)

/-- The circuits' `hash_node`: children sorted by their bytes. -/
def Merkle.hashNode (children : Fin 4 → Digest) : Digest :=
  H.hashToFelts
    (((List.ofFn children).insertionSort (fun a b => digestBytes a ≤ digestBytes b)).flatMap felts)

/-- The commitment tree, kept as its frontier. -/
structure TreeFrontier where
  levels : List (List Digest)
  count : ℕ
deriving DecidableEq

namespace TreeFrontier

def new : TreeFrontier := ⟨[], 0⟩

def push (f : TreeFrontier) (leaf : Digest) : TreeFrontier :=
  ⟨carry 0 (Merkle.hashNode H) leaf f.levels, satAdd u64Max f.count 1⟩

/-- The smallest depth that holds the leaves, at least 1. -/
def depthFor (leafCount : ℕ) : Except TypingError ℕ :=
  okOr ((List.range' 1 circuitMaxTreeDepth).find? fun depth => leafCount ≤ 4 ^ depth) .treeTooDeep

def depth (f : TreeFrontier) : Except TypingError ℕ :=
  if f.count = 0 then .ok 0 else depthFor f.count

def root (f : TreeFrontier) : Except TypingError Digest := do
  let depth ← f.depth
  if depth = 0 then .ok 0
  else okOr (rootAt 0 (Merkle.hashNode H) f.levels depth) .foldedToNothing

end TreeFrontier

end

/-! ## The pass -/

section

variable (H : Poseidon2)

/-- The fold below a watermark, checked against the block it was recorded at. -/
def seedFrontier (anchor : VerifiedBlock) (anchorCount : ℕ) (leaves : List Digest) :
    Except TypingError TreeFrontier := do
  ensure (leaves.length = anchorCount) .seedLength
  let frontier := leaves.foldl (TreeFrontier.push H) .new
  let root ← frontier.root H
  ensure (root = anchor.zkTreeRoot) .seedRoot
  pure frontier

/-- The commitment of a record, never the pad. -/
def parseLeaf (record : LeafRecord) : Except TypingError Digest := do
  let bytes ← okOr record.commitment .noCommitment
  let commitment ← okOr (bytesToDigest bytes) .nonCanonicalLeaf
  ensure (commitment ≠ 0) .paddingLeaf
  pure commitment

def belowTheCoinbaseKind (record : LeafRecord) : Except TypingError LeafKind := do
  ensure (record.coinbaseValue = none) .coinbaseBelowLast
  pure .transfer

/-- The value is required and the own note rebuilt whatever the label says; then the label is
compared with the outcome. -/
def coinbasePositionKind (miner : MinerView) (record : LeafRecord) (blockNumber : ℕ)
    (labelSaysOurs : Bool) (commitment : Digest) : Except TypingError LeafKind := do
  let value ← okOr record.coinbaseValue .coinbaseWithheld
  let ours : Bool := miner.coinbaseCommitment H blockNumber value = some commitment
  ensure (¬ (labelSaysOurs = true ∧ ours = false)) .labelMismatch
  pure (.coinbase ours value (ours && !labelSaysOurs))

/-- The leaves of a block in order, the last one at the coinbase position. -/
def typeRun (miner : MinerView) (blockNumber : ℕ) (labelSaysOurs : Bool) :
    List (LeafRecord × Digest) → Except TypingError (List TypedLeaf)
  | [] => .ok []
  | [(record, commitment)] => do
    let kind ← coinbasePositionKind H miner record blockNumber labelSaysOurs commitment
    pure [⟨record.index, commitment, blockNumber, kind⟩]
  | (record, commitment) :: next :: rest => do
    let kind ← belowTheCoinbaseKind record
    let typed ← typeRun miner blockNumber labelSaysOurs (next :: rest)
    pure (⟨record.index, commitment, blockNumber, kind⟩ :: typed)

/-- One block over its parent: the fold behind it, the records left, and its leaves. -/
def typeBlock (miner : MinerView) (frontier : TreeFrontier) (parent block : VerifiedBlock)
    (scanned : List LeafRecord) :
    Except TypingError (TreeFrontier × List LeafRecord × List TypedLeaf) := do
  ensure (block.parentHash = parent.hash) .unknownParent
  let run := scanned.takeWhile fun record => record.blockNumber = some block.number
  let folded ← run.mapM parseLeaf
  let frontier := folded.foldl (TreeFrontier.push H) frontier
  let root ← frontier.root H
  ensure (root = block.zkTreeRoot) .blockRoot
  let labelSaysOurs : Bool := block.authorLabel = some (miner.label H parent.hash)
  let typed ← typeRun H miner block.number labelSaysOurs (run.zip folded)
  pure (frontier, scanned.dropWhile fun record => record.blockNumber = some block.number, typed)

def typeBlocks (miner : MinerView) (frontier : TreeFrontier) (parent : VerifiedBlock) :
    List VerifiedBlock → List LeafRecord →
    Except TypingError (TreeFrontier × List LeafRecord × List TypedLeaf)
  | [], scanned => .ok (frontier, scanned, [])
  | block :: blocks, scanned => do
    let (frontier, scanned, typed) ← typeBlock H miner frontier parent block scanned
    let (frontier, scanned, more) ← typeBlocks miner frontier block blocks scanned
    pure (frontier, scanned, typed ++ more)

/-- `type_chunk`: the blocks above the first, and every leaf dated to them. -/
def typeChunk (miner : MinerView) (frontier : TreeFrontier) (blocks : List VerifiedBlock)
    (scanned : List LeafRecord) : Except TypingError (TreeFrontier × List TypedLeaf) :=
  match blocks with
  | [] => .error .noBlocks
  | anchor :: blocks => do
    let root ← frontier.root H
    ensure (root = anchor.zkTreeRoot) .anchorRoot
    let (frontier, scanned, typed) ← typeBlocks H miner frontier anchor blocks scanned
    ensure (scanned.isEmpty) .strayLeaf
    pure (frontier, typed)

/-- A chunk without leaves: linked headers that carry the anchor's root. -/
def checkAppendedNothing (root : Digest) (parent : VerifiedBlock) :
    List VerifiedBlock → Except TypingError Unit
  | [] => .ok ()
  | block :: blocks => do
    ensure (block.parentHash = parent.hash) .unknownParent
    ensure (block.zkTreeRoot = root) .movedRoot
    checkAppendedNothing root block blocks

def checkChunkAppendedNothing : List VerifiedBlock → Except TypingError Unit
  | [] => .error .noBlocks
  | anchor :: blocks => checkAppendedNothing anchor.zkTreeRoot anchor blocks

end

/-! ## What the fold computes -/

variable {H : Poseidon2}

/-- Both node hashes agree on canonical children. -/
theorem digestBytes_hashNode (children : Fin 4 → Digest) :
    digestBytes (Merkle.hashNode H children) = hashNode H fun j => digestBytes (children j) := by
  have sorted := List.map_insertionSort (fun a b => digestBytes a ≤ digestBytes b) (· ≤ ·)
    digestBytes (List.ofFn children) fun _ _ _ _ => Iff.rfl
  have mapped : (List.ofFn children).map digestBytes = List.ofFn fun j => digestBytes (children j) :=
    List.map_ofFn ..
  rw [hashNode, hashNodeInput, Poseidon2.hashToBytes, Merkle.hashNode, ← mapped, ← sorted,
    List.flatMap_map]
  simp only [bytesToDigestLossy_digestBytes]

namespace TreeFrontier

/-- The frontier of these leaves. -/
structure Holds (H : Poseidon2) (f : TreeFrontier) (leaves : List Digest) : Prop where
  count_eq : f.count = leaves.length
  levels_eq : ∀ k, f.levels.getD k [] = completed 0 (Merkle.hashNode H) leaves k

variable {f : TreeFrontier} {leaves : List Digest}

theorem holds_new : Holds H new [] where
  count_eq := rfl
  levels_eq k := by simp [new, completed]

theorem Holds.push (h : Holds H f leaves) (leaf : Digest) (room : leaves.length < u64Max) :
    Holds H (f.push H leaf) (leaves ++ [leaf]) where
  count_eq := by
    rw [List.length_append, List.length_singleton, ← h.count_eq]
    exact satAdd_eq (by rw [h.count_eq]; omega)
  levels_eq := carry_leaf h.levels_eq

theorem Holds.pushAll (h : Holds H f leaves) (more : List Digest)
    (room : (leaves ++ more).length ≤ u64Max) :
    Holds H (more.foldl (TreeFrontier.push H) f) (leaves ++ more) := by
  induction more generalizing f leaves with
  | nil => rwa [List.append_nil]
  | cons leaf more ih =>
    rw [List.length_append, List.length_cons] at room
    have rest := ih (h.push leaf (by omega)) (by simp; omega)
    rwa [List.append_assoc, List.singleton_append] at rest

theorem depthFor_eq {count depth : ℕ} (least : IsLeast {d | count ≤ capacity d} depth)
    (pos : 0 < count) (fits : depth ≤ circuitMaxTreeDepth) : depthFor count = .ok depth := by
  have nonzero : depth ≠ 0 := by
    rintro rfl
    exact absurd least.1 (Nat.not_le.2 pos)
  have holds : count ≤ 4 ^ depth := le_trans least.1 (capacity_le depth)
  refine okOr_ok_iff.2 (List.find?_range'_eq_some.2 ⟨decide_eq_true holds, ?_, fun d hd lt => ?_⟩)
  · rw [List.mem_range'_1]
    omega
  · rw [Bool.not_eq_true', decide_eq_false_iff_not]
    intro smaller
    have cap : capacity d = 4 ^ d := if_neg (by omega)
    exact absurd (least.2 (show count ≤ capacity d by rwa [cap])) (by omega)

/-- **The fold reaches the root of the leaves**, at the depth the pallet folds them at. -/
theorem Holds.root_eq (h : Holds H f leaves) {depth : ℕ}
    (least : IsLeast {d | leaves.length ≤ capacity d} depth) (fits : depth ≤ circuitMaxTreeDepth) :
    f.root H = .ok (subtree 0 (Merkle.hashNode H) leaves depth 0) := by
  unfold root TreeFrontier.depth
  by_cases empty : f.count = 0
  · rw [if_pos empty]
    rw [h.count_eq] at empty
    obtain rfl : depth = 0 := Nat.le_zero.1 (least.2 (show leaves.length ≤ capacity 0 by omega))
    obtain rfl := List.length_eq_zero_iff.1 empty
    rfl
  · have pos : 0 < leaves.length := by
      rw [← h.count_eq]
      omega
    have nonzero : depth ≠ 0 := by
      rintro rfl
      exact absurd least.1 (Nat.not_le.2 pos)
    rw [if_neg empty, h.count_eq, bind_of_ok (depthFor_eq least pos fits), if_neg nonzero]
    exact okOr_ok_iff.2 (rootAt_eq h.levels_eq pos (le_trans least.1 (capacity_le depth)))

end TreeFrontier

/-- The root over digests, as the pallet's over their bytes. -/
theorem digestBytes_subtree (leaves : List Digest) (level index : ℕ) :
    digestBytes (subtree 0 (Merkle.hashNode H) leaves level index) =
      refNode H (leaves.map digestBytes) level index :=
  subtree_map digestBytes digestBytes_zero digestBytes_hashNode

/-! ## What the pass accepts -/

theorem parseLeaf_ok_iff {record : LeafRecord} {commitment : Digest} :
    parseLeaf record = .ok commitment ↔
      record.commitment = some (digestBytes commitment) ∧ commitment ≠ 0 := by
  unfold parseLeaf
  simp only [bind_ok_iff, okOr_ok_iff, ensure_ok_iff, bytesToDigest_eq_some]
  constructor
  · rintro ⟨bytes, held, commitment', rfl, -, nonzero, ⟨⟩⟩
    exact ⟨held, nonzero⟩
  · rintro ⟨held, nonzero⟩
    exact ⟨_, held, commitment, rfl, (), nonzero, rfl⟩

/-- The value a typed leaf publishes. -/
def TypedLeaf.coinbaseValue (leaf : TypedLeaf) : Option ℕ :=
  match leaf.kind with
  | .transfer => none
  | .coinbase _ value _ => some value

/-- The leaf a record was typed as. -/
structure TypedAs (H : Poseidon2) (miner : MinerView) (number : ℕ) (record : LeafRecord × Digest)
    (leaf : TypedLeaf) : Prop where
  index_eq : leaf.index = record.1.index
  commitment_eq : leaf.commitment = record.2
  number_eq : leaf.blockNumber = number
  value_eq : leaf.coinbaseValue = record.1.coinbaseValue
  ours_eq : ∀ ours value disagrees, leaf.kind = .coinbase ours value disagrees →
    (ours = true ↔ miner.coinbaseCommitment H number value = some record.2)

/-- What a block's leaves have to look like: no value below the last one, a value on it, and the
own note there if the label is the own one. -/
def RunAccepted (H : Poseidon2) (miner : MinerView) (number : ℕ) (labelSaysOurs : Bool) :
    List (LeafRecord × Digest) → Prop
  | [] => True
  | [(record, commitment)] => ∃ value, record.coinbaseValue = some value ∧
      (labelSaysOurs = true → miner.coinbaseCommitment H number value = some commitment)
  | (record, _) :: next :: rest => record.coinbaseValue = none ∧
      RunAccepted H miner number labelSaysOurs (next :: rest)

variable {miner : MinerView} {number : ℕ} {labelSaysOurs : Bool}

theorem coinbasePositionKind_ok_iff {record : LeafRecord} {commitment : Digest} {kind : LeafKind} :
    coinbasePositionKind H miner record number labelSaysOurs commitment = .ok kind ↔
      ∃ value, record.coinbaseValue = some value ∧
        (labelSaysOurs = true → miner.coinbaseCommitment H number value = some commitment) ∧
        kind = .coinbase (miner.coinbaseCommitment H number value = some commitment) value
          (decide (miner.coinbaseCommitment H number value = some commitment) && !labelSaysOurs) := by
  unfold coinbasePositionKind
  simp only [bind_ok_iff, okOr_ok_iff, ensure_ok_iff, decide_eq_false_iff_not, not_and, not_not]
  constructor
  · rintro ⟨value, held, -, label, ⟨⟩⟩
    exact ⟨value, held, label, rfl⟩
  · rintro ⟨value, held, label, rfl⟩
    exact ⟨value, held, (), label, rfl⟩

/-- **A block's leaves are accepted exactly if they look so**, and then every record is typed. -/
theorem typeRun_ok {run : List (LeafRecord × Digest)} :
    RunAccepted H miner number labelSaysOurs run ↔
      ∃ typed, typeRun H miner number labelSaysOurs run = .ok typed := by
  induction run with
  | nil => exact ⟨fun _ => ⟨[], rfl⟩, fun _ => trivial⟩
  | cons entry run ih =>
    obtain ⟨record, commitment⟩ := entry
    cases run with
    | nil =>
      simp only [RunAccepted, typeRun, bind_ok_iff, coinbasePositionKind_ok_iff]
      constructor
      · rintro ⟨value, held, label⟩
        exact ⟨_, _, ⟨value, held, label, rfl⟩, rfl⟩
      · rintro ⟨_, _, ⟨value, held, label, -⟩, -⟩
        exact ⟨value, held, label⟩
    | cons next rest =>
      simp only [RunAccepted, typeRun, belowTheCoinbaseKind, bind_ok_iff, ensure_ok_iff, ih]
      constructor
      · rintro ⟨none, typed, done⟩
        exact ⟨_, _, ⟨(), none, rfl⟩, typed, done, rfl⟩
      · rintro ⟨_, _, ⟨-, none, -⟩, typed, done, -⟩
        exact ⟨none, typed, done⟩

theorem typeRun_typedAs {run : List (LeafRecord × Digest)} {typed : List TypedLeaf}
    (h : typeRun H miner number labelSaysOurs run = .ok typed) :
    List.Forall₂ (TypedAs H miner number) run typed := by
  induction run generalizing typed with
  | nil =>
    obtain rfl : [] = typed := Except.ok.inj h
    exact .nil
  | cons entry run ih =>
    obtain ⟨record, commitment⟩ := entry
    cases run with
    | nil =>
      simp only [typeRun, bind_ok_iff, coinbasePositionKind_ok_iff] at h
      obtain ⟨_, ⟨value, held, -, rfl⟩, ⟨⟩⟩ := h
      refine .cons ⟨rfl, rfl, rfl, held.symm, ?_⟩ .nil
      rintro ours value' disagrees ⟨⟩
      exact decide_eq_true_iff
    | cons next rest =>
      simp only [typeRun, belowTheCoinbaseKind, bind_ok_iff, ensure_ok_iff] at h
      obtain ⟨_, ⟨-, held, ⟨⟩⟩, typed, done, ⟨⟩⟩ := h
      exact .cons ⟨rfl, rfl, rfl, held.symm, fun _ _ _ h => nomatch h⟩ (ih done)

/-- **One block of the pass**, where its records come first and are leaves that fold to its root. -/
theorem typeBlock_eq {f : TreeFrontier} {parent block : VerifiedBlock} {run rest : List LeafRecord}
    {new : List Digest} (linked : block.parentHash = parent.hash)
    (dated : ∀ record ∈ run, record.blockNumber = some block.number)
    (later : ∀ record ∈ rest, record.blockNumber ≠ some block.number)
    (held : List.Forall₂ (fun record leaf => parseLeaf record = .ok leaf) run new)
    (reach : (new.foldl (TreeFrontier.push H) f).root H = .ok block.zkTreeRoot) :
    typeBlock H miner f parent block (run ++ rest) =
      (typeRun H miner block.number
        (block.authorLabel = some (miner.label H parent.hash)) (run.zip new)).map
        fun typed => (new.foldl (TreeFrontier.push H) f, rest, typed) := by
  have here : ∀ record ∈ run, decide (record.blockNumber = some block.number) = true :=
    fun record hr => decide_eq_true (dated record hr)
  have stop : rest.takeWhile (fun record => decide (record.blockNumber = some block.number)) = [] ∧
      rest.dropWhile (fun record => decide (record.blockNumber = some block.number)) = rest := by
    cases rest with
    | nil => exact ⟨rfl, rfl⟩
    | cons record rest =>
      have other := decide_eq_false (later record (List.mem_cons_self ..))
      rw [List.takeWhile_cons, List.dropWhile_cons, other]
      exact ⟨rfl, rfl⟩
  unfold typeBlock
  rw [bind_of_ok (ensure_of linked)]
  dsimp only
  rw [List.takeWhile_append_of_pos here, List.dropWhile_append_of_pos here, stop.1, stop.2,
    List.append_nil, bind_of_ok (mapM_ok_iff.2 held), bind_of_ok reach, bind_of_ok (ensure_of rfl)]
  cases typeRun H miner block.number _ (run.zip new) <;> rfl

end Qnero
