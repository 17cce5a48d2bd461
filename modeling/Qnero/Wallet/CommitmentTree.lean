import Qnero.Leaf.Merkle
import Qnero.Tree.Levels
import Qnero.Shielded.Settle
import Qnero.Wallet.Typing

/-!
# The wallet's tree

A wallet that spends rebuilds the whole tree of a block from its leaves, level by level, and reads
a membership path off it. Next to it stand the two other trees over the same leaves: the one the
pallet keeps in storage and updates block by block, and the frontier a sync folds. All three reach
the reference tree of `QuadTree.subtree`, so they have one root; only the wallet's tree refuses to
be built over nothing.
-/

namespace Qnero

open Plonkish Machine QuadTree

variable {H : Poseidon2}

/-- A commitment tree in memory: the leaves it was built over, and a depth that holds them. -/
structure CommitmentTree where
  leaves : List Digest
  depth : ℕ
  nonempty : leaves ≠ []
  depth_pos : 1 ≤ depth
  depth_le : depth ≤ maxDepth
  fits : leaves.length ≤ 4 ^ depth

namespace CommitmentTree

/-- Build a tree of exactly `depth` levels over `leaves`. -/
def new (leaves : List Digest) (depth : ℕ) : Except String CommitmentTree :=
  let count := leaves.length
  let capacity := arity ^ depth
  if nonempty : leaves = [] then .error "commitment tree needs at least one leaf"
  else if range : 1 ≤ depth ∧ depth ≤ maxDepth then
    if fits : count ≤ capacity then .ok ⟨leaves, depth, nonempty, range.1, range.2, fits⟩
    else .error s!"{count} leaves do not fit in a depth-{depth} 4-ary tree ({capacity} slots)"
  else .error s!"commitment tree depth {depth} must be in 1..={maxDepth}"

def leafCount (tree : CommitmentTree) : ℕ := tree.leaves.length

section

variable (H : Poseidon2)

/-- `levels[0]` are the leaves, `levels[depth]` is the single root. -/
def levels (tree : CommitmentTree) : List (List Digest) :=
  QuadTree.levels 0 (Merkle.hashNode H) tree.depth tree.leaves

/-- The digest at an index of a level, if the level is that long. -/
def get (tree : CommitmentTree) (level index : ℕ) : Option Digest :=
  ((tree.levels H).getD level [])[index]?

def root (tree : CommitmentTree) : Digest := (tree.get H tree.depth 0).getD 0

end

variable (tree : CommitmentTree)

theorem new_ok_iff {leaves : List Digest} {depth : ℕ} {tree : CommitmentTree} :
    new leaves depth = .ok tree ↔ tree.leaves = leaves ∧ tree.depth = depth := by
  constructor
  · intro h
    dsimp only [new] at h
    split at h
    · cases h
    · split at h
      · split at h
        · obtain rfl := Except.ok.inj h
          exact ⟨rfl, rfl⟩
        · cases h
      · cases h
  · rintro ⟨rfl, rfl⟩
    rw [new, dif_neg tree.nonempty, dif_pos ⟨tree.depth_pos, tree.depth_le⟩]
    exact dif_pos tree.fits

/-- Up to the root the levels hold the nodes of the reference tree, the missing ones left out. -/
theorem get_eq {level : ℕ} (h : level ≤ tree.depth) (index : ℕ) : tree.get H level index =
    if index * 4 ^ level < tree.leaves.length then
      some (subtree 0 (Merkle.hashNode H) tree.leaves level index)
    else none := by
  rw [get, levels, List.getD_eq_getElem?_getD, getElem?_levels h, Option.getD_some,
    getElem?_iterate_parents]

theorem getD_get {level : ℕ} (h : level ≤ tree.depth) (index : ℕ) :
    (tree.get H level index).getD 0 = subtree 0 (Merkle.hashNode H) tree.leaves level index := by
  rw [tree.get_eq h]
  split
  · rfl
  · next out => exact (subtree_eq_zero (Nat.not_lt.1 out)).symm

theorem root_eq : tree.root H = subtree 0 (Merkle.hashNode H) tree.leaves tree.depth 0 :=
  tree.getD_get le_rfl 0

end CommitmentTree

/-! ## The pallet's run -/

namespace ZkTree

/-- Insert a block's commitments one by one, then fold them. -/
def insertBlock (H : Poseidon2) (t : ZkTree) (block : List Hash256) :
    Except ZkTreeError ZkTree := do
  let t ← block.foldlM (fun t commitment => (t.insertCommitment commitment).map Prod.fst) t
  pure (t.processPendingLeaves H)

def insertBlocks (H : Poseidon2) (t : ZkTree) (blocks : List (List Hash256)) :
    Except ZkTreeError ZkTree :=
  blocks.foldlM (insertBlock H) t

end ZkTree

/-- A commitment the tree takes: canonical and not the pad. -/
def Insertable (commitment : Hash256) : Prop := commitment ≠ 0 ∧ commitment.Canonical

theorem insertable_digestBytes {d : Digest} (h : d ≠ 0) : Insertable (digestBytes d) :=
  ⟨fun zero => h (digestBytes_injective (zero.trans digestBytes_zero.symm)), canonical_digestBytes d⟩

/-- While there is room, inserting is appending. -/
theorem foldlM_insertCommitment {block : List Hash256} {t : ZkTree}
    (insertable : ∀ c ∈ block, Insertable c) (room : t.leafCount + block.length ≤ 4 ^ 20) :
    block.foldlM (fun t commitment => (t.insertCommitment commitment).map Prod.fst) t =
      .ok (t.appendAll block) := by
  induction block generalizing t with
  | nil => rfl
  | cons commitment block ih =>
    obtain ⟨nonzero, canonical⟩ := insertable commitment (List.mem_cons_self ..)
    rw [List.length_cons] at room
    have free : 0 < t.remainingCapacity := by
      rw [ZkTree.remainingCapacity, capacityAtDepth_eq le_rfl, capacity_circuitMaxTreeDepth]
      omega
    have count := ZkTree.leafCount_append commitment (t := t)
      (le_trans (show t.leafCount + 1 ≤ 4 ^ 20 by omega) (by decide))
    rw [List.foldlM_cons, insertCommitment_ok nonzero canonical free]
    exact ih (fun c hc => insertable c (List.mem_cons_of_mem _ hc)) (by rw [count]; omega)

/-- Blocks of insertable commitments within the capacity run as appended blocks. -/
theorem insertBlocks_eq {blocks : List (List Hash256)} {t : ZkTree} {leaves : List Hash256}
    (folded : Folded H t leaves leaves.length)
    (insertable : ∀ c ∈ blocks.flatten, Insertable c)
    (room : (leaves ++ blocks.flatten).length ≤ 4 ^ 20) :
    t.insertBlocks H blocks = .ok (t.runBlocks H blocks) := by
  induction blocks generalizing t leaves with
  | nil => rfl
  | cons block blocks ih =>
    rw [List.flatten_cons, ← List.append_assoc] at room
    have fits : (leaves ++ block).length ≤ 4 ^ 20 := by
      rw [List.length_append] at room
      omega
    have head := foldlM_insertCommitment (t := t)
      (fun c hc => insertable c (List.mem_flatten_of_mem (List.mem_cons_self ..) hc))
      (by rwa [folded.count_eq, ← List.length_append])
    have next := (folded.appendAll (le_trans fits (by decide))).process
      (by rw [capacity_circuitMaxTreeDepth]; exact fits)
    have rest := ih next (fun c hc => insertable c (by
      rw [List.flatten_cons]
      exact List.mem_append_right _ hc)) room
    rw [ZkTree.insertBlocks, List.foldlM_cons, ZkTree.insertBlock, head]
    exact rest

/-! ## One root -/

/-- The three trees over one list of leaves, appended in these blocks: the pallet's storage, the
frontier after the same pushes, and, unless there is no leaf, the tree in memory. -/
structure OneRoot (H : Poseidon2) (blocks : List (List Digest)) (pallet : ZkTree) : Prop where
  inserted : ZkTree.empty.insertBlocks H (blocks.map (List.map digestBytes)) = .ok pallet
  frontier_root : ∃ root, (blocks.flatten.foldl (TreeFrontier.push H) .new).root H = .ok root ∧
    digestBytes root = pallet.root
  frontier_depth : (blocks.flatten.foldl (TreeFrontier.push H) .new).depth = .ok pallet.depth
  tree_root : blocks.flatten ≠ [] →
    ∃ depth tree, TreeFrontier.depthFor blocks.flatten.length = .ok depth ∧
      CommitmentTree.new blocks.flatten depth = .ok tree ∧ depth = pallet.depth ∧
      digestBytes (tree.root H) = pallet.root
  no_tree : blocks.flatten = [] → ∀ depth,
    CommitmentTree.new blocks.flatten depth = .error "commitment tree needs at least one leaf"

/-- The depth of a frontier is the least one that holds its leaves, 0 for none. -/
theorem TreeFrontier.Holds.depth_eq {f : TreeFrontier} {leaves : List Digest}
    (h : f.Holds H leaves) {depth : ℕ} (least : IsLeast {d | leaves.length ≤ capacity d} depth)
    (fits : depth ≤ circuitMaxTreeDepth) : f.depth = .ok depth := by
  unfold TreeFrontier.depth
  split
  · next empty =>
    rw [h.count_eq] at empty
    obtain rfl : depth = 0 := Nat.le_zero.1 (least.2 (show leaves.length ≤ capacity 0 by omega))
    rfl
  · next some =>
    rw [h.count_eq] at some ⊢
    exact depthFor_eq least (by omega) fits

/-- A pallet that holds the folded leaves agrees with the other two. -/
theorem Folded.oneRoot {pallet : ZkTree} {leaves : List Digest} {blocks : List (List Digest)}
    (folded : Folded H pallet (leaves.map digestBytes) (leaves.map digestBytes).length)
    (flat : blocks.flatten = leaves) (room : leaves.length ≤ 4 ^ 20)
    (inserted : ZkTree.empty.insertBlocks H (blocks.map (List.map digestBytes)) = .ok pallet) :
    OneRoot H blocks pallet := by
  subst flat
  have least := folded.depth_least
  rw [List.length_map] at least
  have depthLe : pallet.depth ≤ circuitMaxTreeDepth := leastDepth_le room least
  have frontier : (blocks.flatten.foldl (TreeFrontier.push H) .new).Holds H ([] ++ blocks.flatten) :=
    TreeFrontier.holds_new.pushAll _ (le_trans room (by decide))
  rw [List.nil_append] at frontier
  have root : digestBytes (subtree 0 (Merkle.hashNode H) blocks.flatten pallet.depth 0) =
      pallet.root := by
    rw [folded.root_eq_refNode, digestBytes_subtree]
  refine ⟨inserted, ⟨_, frontier.root_eq least depthLe, root⟩, frontier.depth_eq least depthLe,
    fun nonempty => ?_, fun empty depth => dif_pos empty⟩
  have pos : 0 < blocks.flatten.length := List.length_pos_iff.2 nonempty
  have depthPos : pallet.depth ≠ 0 := fun zero => absurd least.1 (by
    rw [zero]
    exact Nat.not_le.2 pos)
  -- The depth the wallet picks is the pallet's, and the leaves fit it.
  have tree : ∃ tree : CommitmentTree, tree.leaves = blocks.flatten ∧ tree.depth = pallet.depth :=
    ⟨⟨blocks.flatten, pallet.depth, nonempty, by omega, depthLe,
      le_trans least.1 (capacity_le _)⟩, rfl, rfl⟩
  obtain ⟨tree, leavesEq, depthEq⟩ := tree
  refine ⟨pallet.depth, tree, TreeFrontier.depthFor_eq least pos depthLe,
    CommitmentTree.new_ok_iff.2 ⟨leavesEq, depthEq⟩, rfl, ?_⟩
  rw [tree.root_eq, leavesEq, depthEq, root]

/-- **Three trees, one root.** Whatever blocks the leaves come in, the pallet takes them, and its
root and depth are those of the frontier; the tree in memory reaches the same root as soon as there
is a leaf to build it over. -/
theorem insertBlocks_oneRoot {blocks : List (List Digest)}
    (nonzero : ∀ d ∈ blocks.flatten, d ≠ 0) (room : blocks.flatten.length ≤ 4 ^ 20) :
    ∃ pallet, OneRoot H blocks pallet := by
  have flat : (blocks.map (List.map digestBytes)).flatten = blocks.flatten.map digestBytes :=
    List.map_flatten.symm
  have fits : (blocks.map (List.map digestBytes)).flatten.length ≤ 4 ^ 20 := by
    rwa [flat, List.length_map]
  have insertable : ∀ c ∈ (blocks.map (List.map digestBytes)).flatten, Insertable c := by
    intro c hc
    rw [flat, List.mem_map] at hc
    obtain ⟨d, hd, rfl⟩ := hc
    exact insertable_digestBytes (nonzero d hd)
  have inserted := insertBlocks_eq (folded_empty (H := H)) insertable fits
  have folded := folded_runBlocks (H := H) fits
  rw [flat] at folded
  exact ⟨_, folded.oneRoot rfl room inserted⟩

/-- Five leaves in three blocks, one of them empty: the tree grows past a power of four. -/
def fiveLeaves : List (List Digest) :=
  [[![1, 0, 0, 0], ![1, 1, 0, 0]], [], [![1, 0, 1, 0], ![1, 0, 0, 0], ![1, 0, 0, 1]]]

theorem insertBlocks_oneRoot_fiveLeaves : (∀ d ∈ fiveLeaves.flatten, d ≠ 0) ∧
    fiveLeaves.flatten.length ≤ 4 ^ 20 ∧ ∃ pallet, OneRoot sampleSponge fiveLeaves pallet :=
  have nonzero : ∀ d ∈ fiveLeaves.flatten, d ≠ 0 := by simp [fiveLeaves]
  have room : fiveLeaves.flatten.length ≤ 4 ^ 20 := by simp [fiveLeaves]
  ⟨nonzero, room, insertBlocks_oneRoot nonzero room⟩

/-- Over no leaf the pallet and the frontier have the zero root, at depth 0, and there is no tree
in memory: at the depth `depth_for` gives, building one is refused. -/
theorem new_nil_refused :
    ZkTree.empty.root = emptyHash ∧ ZkTree.empty.insertBlocks sampleSponge [] = .ok ZkTree.empty ∧
    TreeFrontier.new.root sampleSponge = .ok 0 ∧ TreeFrontier.depthFor 0 = .ok 1 ∧
    CommitmentTree.new [] 1 = .error "commitment tree needs at least one leaf" :=
  ⟨rfl, rfl, rfl, rfl, rfl⟩

end Qnero
