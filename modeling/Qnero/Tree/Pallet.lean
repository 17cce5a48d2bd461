import Qnero.Machine
import Qnero.Notes

/-!
# The commitment tree pallet

Leaves are appended as they come and folded into the tree once per block. The pallet stores the
leaves, the inner nodes it has computed, and the root; an absent entry reads as the zero hash.
`updateRange` recomputes only what the new leaves touch: at each level the dirty nodes form one
interval, and a sibling left of it is read from storage, right of it is empty.
-/

namespace Qnero

open Plonkish Machine

/-! ## Hashing -/

/-- The absence sentinel: a missing leaf and an empty subtree at every level. -/
def emptyHash : Hash256 := 0

/-- The sorted children's limbs, reduced, as a node hashes them. -/
def hashNodeInput (children : Fin 4 → Hash256) : List Felt :=
  ((List.ofFn children).insertionSort (· ≤ ·)).flatMap fun c => felts (bytesToDigestLossy c)

/-- A transfer leaf of the tree. -/
structure ZkLeaf where
  toAccount : Hash256
  transferCount : ℕ
  assetId : ℕ
  amount : ℕ

/-- Quantisation of leaf amounts. -/
def amountScaleDownFactor : ℕ := 10000000000

/-- The eight elements of a transfer leaf; oversized ids and amounts saturate. -/
def hashLeafInput (leaf : ZkLeaf) : List Felt :=
  felts (bytesToDigestLossy leaf.toAccount) ++
    [((leaf.transferCount / 2 ^ 32 : ℕ) : Felt), ((leaf.transferCount % 2 ^ 32 : ℕ) : Felt),
      ((min leaf.assetId u32Max : ℕ) : Felt),
      ((min (leaf.amount / amountScaleDownFactor) u32Max : ℕ) : Felt)]

section

variable (H : Poseidon2)

def hashNode (children : Fin 4 → Hash256) : Hash256 := H.hashToBytes (hashNodeInput children)

def hashLeaf (leaf : ZkLeaf) : Hash256 := H.hashToBytes (hashLeafInput leaf)

/-! ## Storage -/

inductive ZkTreeError where
  | leafIndexOutOfBounds
  | leafNotFound
  | leafNotYetSettled
  | nonCanonicalCommitment
  | zeroCommitment
  | treeFull
deriving DecidableEq

/-- The inner nodes by `(level, index)`. -/
abbrev NodeMap : Type := ℕ × ℕ → Option Hash256

structure ZkTree where
  leaves : ℕ → Option Hash256
  nodes : NodeMap
  leafCount : ℕ
  depth : ℕ
  root : Hash256
  unprocessedLeaves : ℕ

/-- Default storage. -/
def ZkTree.empty : ZkTree where
  leaves _ := none
  nodes _ := none
  leafCount := 0
  depth := 0
  root := 0
  unprocessedLeaves := 0

/-- The deepest path the circuit can prove. -/
def circuitMaxTreeDepth : ℕ := 20

def capacityAtDepth (depth : ℕ) : ℕ := if depth = 0 then 0 else min (4 ^ depth) u64Max

namespace ZkTree

def getLeafHash (t : ZkTree) (index : ℕ) : Hash256 := (t.leaves index).getD emptyHash

def getNodeHash (nodes : NodeMap) (level index : ℕ) : Hash256 :=
  (nodes (level, index)).getD emptyHash

/-! ## Appending -/

/-- Append one leaf hash; returns its index. -/
def appendLeafHash (t : ZkTree) (leafHash : Hash256) : ZkTree × ℕ :=
  ({ t with
      leaves := Function.update t.leaves t.leafCount (some leafHash)
      leafCount := satAdd u64Max t.leafCount 1
      unprocessedLeaves := satAdd u64Max t.unprocessedLeaves 1 }, t.leafCount)

def remainingCapacity (t : ZkTree) : ℕ := capacityAtDepth circuitMaxTreeDepth - t.leafCount

def insertLeaf (t : ZkTree) (leaf : ZkLeaf) : ZkTree × ℕ := t.appendLeafHash (hashLeaf H leaf)

/-- Append a note commitment as a raw leaf. -/
def insertCommitment (t : ZkTree) (commitment : Hash256) : Except ZkTreeError (ZkTree × ℕ) :=
  if commitment = emptyHash then .error .zeroCommitment
  else if ¬ commitment.Canonical then .error .nonCanonicalCommitment
  else if t.remainingCapacity = 0 then .error .treeFull
  else .ok (t.appendLeafHash commitment)

/-! ## Folding the pending leaves -/

/-- The dirty interval `[lo, hi]` of a level, its hashes, and the node storage so far. -/
structure Dirty where
  nodes : NodeMap
  lo : ℕ
  hi : ℕ
  hashes : List Hash256

/-- The child at `index` of a node of `level`: dirty, empty to the right, stored to the left. -/
def childHash (t : ZkTree) (level : ℕ) (s : Dirty) (index : ℕ) : Hash256 :=
  if s.lo ≤ index ∧ index ≤ s.hi then s.hashes.getD (index - s.lo) emptyHash
  else if s.hi < index then emptyHash
  else if level = 1 then t.getLeafHash index
  else getNodeHash s.nodes (level - 1) index

/-- Store consecutive nodes of one level. -/
def writeNodes (nodes : NodeMap) (level : ℕ) : ℕ → List Hash256 → NodeMap
  | _, [] => nodes
  | index, hash :: rest =>
    Function.update (writeNodes nodes level (index + 1) rest) (level, index) (some hash)

/-- One level of the pass. The root lives in `root`, not in the nodes. -/
def updateLevel (t : ZkTree) (depth : ℕ) (s : Dirty) (level : ℕ) : Dirty :=
  let parentLo := s.lo / 4
  let parentHi := s.hi / 4
  let parents := (List.range' parentLo (parentHi - parentLo + 1)).map fun parent =>
    hashNode H fun i => childHash t level s (4 * parent + i)
  { nodes := if level < depth then writeNodes s.nodes level parentLo parents else s.nodes
    lo := parentLo
    hi := parentHi
    hashes := parents }

/-- Fold the leaves `[start, stop)` into the tree; returns the new node storage and root. -/
def updateRange (t : ZkTree) (start stop depth : ℕ) : NodeMap × Hash256 :=
  let leaves : Dirty :=
    { nodes := t.nodes
      lo := start
      hi := stop - 1
      hashes := (List.range' start (stop - start)).map t.getLeafHash }
  let top := (List.range' 1 depth).foldl (updateLevel H t depth) leaves
  (top.nodes, top.hashes.headD emptyHash)

/-- The old root becomes the first node of its level. -/
def growTree (t : ZkTree) (oldDepth : ℕ) : NodeMap :=
  if oldDepth = 0 then t.nodes else Function.update t.nodes (oldDepth, 0) (some t.root)

/-- The growth loop: deepen until the leaves fit, at most to the depth the circuit can prove. The
first argument bounds the rounds; twenty are always enough. -/
def growDepth (leafCount : ℕ) : ℕ → ℕ → ℕ
  | 0, depth => depth
  | rounds + 1, depth =>
    if capacityAtDepth depth < leafCount ∧ depth < circuitMaxTreeDepth then
      growDepth leafCount rounds (depth + 1)
    else depth

/-- Fold everything appended since the last call. -/
def processPendingLeaves (t : ZkTree) : ZkTree :=
  let pending := t.unprocessedLeaves
  if pending = 0 then t
  else
    let start := t.leafCount - pending
    let depth := growDepth t.leafCount circuitMaxTreeDepth t.depth
    let grown := if t.depth < depth then growTree t t.depth else t.nodes
    let updated := updateRange H { t with nodes := grown } start t.leafCount depth
    { t with
      nodes := updated.1
      depth := depth
      root := updated.2
      unprocessedLeaves := 0 }

/-! ## Proofs -/

structure MerkleProof where
  leafIndex : ℕ
  siblings : List (Fin 3 → Hash256)

/-- The three other children of the parent of `index`, in slot order. -/
def siblingHashes (t : ZkTree) (level index : ℕ) : Fin 3 → Hash256 := fun j =>
  let slot := if j.val < index % 4 then j.val else j.val + 1
  let child := 4 * (index / 4) + slot
  if level = 1 then t.getLeafHash child else getNodeHash t.nodes (level - 1) child

/-- The sibling levels from `level` up. -/
def proofLevels (t : ZkTree) : ℕ → ℕ → ℕ → List (Fin 3 → Hash256)
  | 0, _, _ => []
  | levels + 1, level, index =>
    t.siblingHashes level index :: proofLevels t levels (level + 1) (index / 4)

def generateProof (t : ZkTree) (leafIndex depth : ℕ) : Except ZkTreeError MerkleProof :=
  if depth = 0 then .error .leafNotFound
  else .ok ⟨leafIndex, t.proofLevels depth 1 leafIndex⟩

def getMerkleProof (t : ZkTree) (leafIndex : ℕ) : Except ZkTreeError MerkleProof :=
  if t.leafCount ≤ leafIndex then .error .leafIndexOutOfBounds
  else if t.leafCount - t.unprocessedLeaves ≤ leafIndex then .error .leafNotYetSettled
  else t.generateProof leafIndex t.depth

/-- The running hash and its three siblings, as `verify_proof` lists the children. -/
def withSiblings (current : Hash256) (siblings : Fin 3 → Hash256) : Fin 4 → Hash256 :=
  Fin.cons current siblings

/-- The root a proof leads to. -/
def foldProof (current : Hash256) (siblings : List (Fin 3 → Hash256)) : Hash256 :=
  siblings.foldl (fun current level => hashNode H (withSiblings current level)) current

def verifyProof (t : ZkTree) (leafHash : Hash256) (proof : MerkleProof) : Bool :=
  decide (foldProof H leafHash proof.siblings = t.root)

end ZkTree

end

end Qnero
