import Qnero.Leaf.Witness
import Qnero.Tree.Membership
import Qnero.Wallet.CommitmentTree

/-!
# Paths of the wallet's tree

A node hash sorts its children, the circuit does not: a path says at which slot of the sorted four
the running hash sits and lists the other three. The wallet reads such a path off its own tree, or
converts the sibling lists a node serves, which come in child order and without a slot. Both end in
`sortedStep`, so they give one path (`fromUnsorted_indexOrderedSiblings`), and a path climbs to the
root because placing the running hash back into its slot restores the sorted children.

Equal children are next to each other once sorted. The slot is the first one that holds the running
hash, and which of several equal ones it is makes no difference to what is restored.
-/

namespace Qnero

open Plonkish Builder QuadTree

/-! ## One level -/

/-- Four children, sorted by their bytes. -/
def sortChildren (children : Fin 4 → Digest) : List Digest :=
  (List.ofFn children).insertionSort fun a b => digestBytes a ≤ digestBytes b

/-- The slot of `current` among the sorted children, and the other three. -/
def sortedStep (children : Fin 4 → Digest) (current : Digest) : PathStep :=
  let sorted := sortChildren children
  let position := sorted.idxOf current
  (position, fun j => (sorted.eraseIdx position).getD j 0)

theorem length_sortChildren (children : Fin 4 → Digest) : (sortChildren children).length = 4 := by
  rw [sortChildren, List.length_insertionSort, List.length_ofFn]

theorem mem_sortChildren {children : Fin 4 → Digest} {d : Digest} :
    d ∈ sortChildren children ↔ ∃ i, children i = d := by
  rw [sortChildren, List.mem_insertionSort, List.mem_ofFn]

/-- Sorting forgets the order, since digests with one encoding are one digest. -/
theorem sortChildren_perm {a b : Fin 4 → Digest} (h : (List.ofFn a).Perm (List.ofFn b)) :
    sortChildren a = sortChildren b := by
  have antisymm : ∀ x y, x ∈ sortChildren a → y ∈ sortChildren b →
      digestBytes x ≤ digestBytes y → digestBytes y ≤ digestBytes x → x = y := by
    intro x y _ _ le ge
    exact digestBytes_injective (le_antisymm le ge)
  exact List.Perm.eq_of_pairwise antisymm
    (List.pairwise_insertionSort _ _) (List.pairwise_insertionSort _ _)
    ((List.perm_insertionSort _ _).trans (h.trans (List.perm_insertionSort _ _).symm))

/-- A list of four with one of them taken out and put back. -/
theorem placeChild_eraseIdx {sorted : List Digest} (length : sorted.length = 4) {position : ℕ}
    (lt : position < 4) {current : Digest} (at_ : sorted[position]? = some current) (j : Fin 4) :
    placeChild position current (fun i => (sorted.eraseIdx position).getD i 0) j =
      sorted.getD j 0 := by
  match sorted, length with
  | [a, b, c, d], _ =>
    have : position = 0 ∨ position = 1 ∨ position = 2 ∨ position = 3 := by omega
    rcases this with rfl | rfl | rfl | rfl <;> obtain rfl := Option.some.inj at_ <;>
      match j with
      | 0 => rfl
      | 1 => rfl
      | 2 => rfl
      | 3 => rfl

section

variable {H : Poseidon2} {children : Fin 4 → Digest} {current : Digest}

theorem sortedStep_lt (h : ∃ i, children i = current) : (sortedStep children current).1 < 4 := by
  have mem := mem_sortChildren.2 h
  rw [← List.idxOf_lt_length_iff, length_sortChildren] at mem
  exact mem

/-- The sorted children in order are what a node hashes. -/
theorem hashNodePresorted_sortChildren (children : Fin 4 → Digest) :
    hashNodePresorted H (fun j => (sortChildren children).getD j 0) = Merkle.hashNode H children := by
  have four : ∀ {sorted : List Digest}, sorted.length = 4 →
      nodeInput (fun j : Fin 4 => sorted.getD j 0) = sorted.flatMap felts := by
    intro sorted length
    match sorted, length with
    | [a, b, c, d], _ => simp [nodeInput_eq]
  exact congrArg H.hashToFelts (four (length_sortChildren children))

/-- **A sorted step hashes to the node**: the children it restores are the sorted ones. -/
theorem hashNodePresorted_sortedStep (h : ∃ i, children i = current) :
    hashNodePresorted H
        (placeChild (sortedStep children current).1 current (sortedStep children current).2) =
      Merkle.hashNode H children := by
  have slot : (sortChildren children)[(sortedStep children current).1]? = some current :=
    List.getElem?_idxOf (mem_sortChildren.2 h)
  have restored := placeChild_eraseIdx (length_sortChildren children) (sortedStep_lt h) slot
  rw [← hashNodePresorted_sortChildren]
  exact congrArg (hashNodePresorted H) (funext restored)

end

/-! ## Reading and converting paths -/

namespace CommitmentTree

variable (H : Poseidon2)

/-- The four children of the parent of `index`, the ones the level does not have empty. -/
def children (tree : CommitmentTree) (level index : ℕ) : Fin 4 → Digest := fun slot =>
  (tree.get H level (4 * (index / 4) + slot)).getD 0

/-- The three other children of the parent of `index`, in child order. -/
def siblingsAt (tree : CommitmentTree) (level index : ℕ) : Siblings := fun j =>
  let slot := if j.val < index % 4 then j.val else j.val + 1
  (tree.get H level (4 * (index / 4) + slot)).getD 0

/-- The sibling levels from `level` up. -/
def siblingLevels (tree : CommitmentTree) : ℕ → ℕ → ℕ → List Siblings
  | 0, _, _ => []
  | levels + 1, level, index =>
    tree.siblingsAt H level index :: siblingLevels tree levels (level + 1) (index / 4)

def ensureIndex (tree : CommitmentTree) (leafIndex : ℕ) : Except String Unit :=
  let count := tree.leafCount
  ensure (leafIndex < count) s!"leaf index {leafIndex} is out of range for {count} leaves"

/-- The shape the chain's proofs have. -/
def indexOrderedSiblings (tree : CommitmentTree) (leafIndex : ℕ) :
    Except String (List Siblings) := do
  tree.ensureIndex leafIndex
  pure (tree.siblingLevels H tree.depth 0 leafIndex)

/-- The sorted steps from `level` up. -/
def pathLevels (tree : CommitmentTree) : ℕ → ℕ → ℕ → List PathStep
  | 0, _, _ => []
  | levels + 1, level, index =>
    let children := tree.children H level index
    let current := children (Fin.ofNat 4 index)
    sortedStep children current :: pathLevels tree levels (level + 1) (index / 4)

/-- The sorted-sibling path with position hints for one leaf. -/
def path (tree : CommitmentTree) (leafIndex : ℕ) : Except String MerklePath := do
  tree.ensureIndex leafIndex
  pure (.ofSteps (tree.pathLevels H tree.depth 0 leafIndex))

end CommitmentTree

section

variable (H : Poseidon2)

/-- Sort each level of siblings around the hash that runs through it. -/
def sortLevels (current : Digest) : List Siblings → List PathStep
  | [] => []
  | siblings :: rest =>
    let children := Fin.cons current siblings
    let sorted := sortChildren children
    sortedStep children current ::
      sortLevels (hashNodePresorted H fun j => sorted.getD j 0) rest

/-- Convert a chain-shaped proof into the form the circuit consumes. -/
def MerklePath.fromUnsorted (unsortedSiblings : List Siblings) (leaf : Digest) :
    Except String MerklePath := do
  let levels := unsortedSiblings.length
  ensure (levels ≤ maxDepth) s!"merkle path depth {levels} exceeds MAX_DEPTH {maxDepth}"
  pure (.ofSteps (sortLevels H leaf unsortedSiblings))

end

variable {H : Poseidon2}

namespace CommitmentTree

variable (tree : CommitmentTree) {level index : ℕ}

/-- The digest of a node of the reference tree over the leaves. -/
abbrev refAt (H : Poseidon2) (level index : ℕ) : Digest :=
  subtree 0 (Merkle.hashNode H) tree.leaves level index

theorem children_eq (h : level ≤ tree.depth) : tree.children H level index =
    fun slot : Fin 4 => tree.refAt H level (4 * (index / 4) + slot) :=
  funext fun _ => tree.getD_get h _

theorem children_current (H : Poseidon2) (index : ℕ) (h : level ≤ tree.depth) :
    tree.children H level index (Fin.ofNat 4 index) = tree.refAt H level index := by
  rw [tree.children_eq h]
  exact congrArg (tree.refAt H level) (Nat.div_add_mod index 4)

theorem hashNode_children (h : level ≤ tree.depth) (covers : index * 4 ^ level < tree.leaves.length) :
    Merkle.hashNode H (tree.children H level index) = tree.refAt H (level + 1) (index / 4) := by
  rw [tree.children_eq h, refAt, subtree_succ (parent_covers covers)]

/-- The running hash in front of its siblings is the four children in another order. -/
theorem cons_siblings_perm (H : Poseidon2) (index : ℕ) (h : level ≤ tree.depth) :
    (List.ofFn (Fin.cons (tree.refAt H level index) (tree.siblingsAt H level index))).Perm
      (List.ofFn (tree.children H level index)) := by
  have perm := ofFn_cons_perm (fun slot => tree.refAt H level (4 * (index / 4) + slot))
    (Nat.mod_lt index (by omega : 0 < 4))
  rw [Nat.div_add_mod] at perm
  have siblings : tree.siblingsAt H level index = fun j : Fin 3 => tree.refAt H level
      (4 * (index / 4) + if j.val < index % 4 then j.val else j.val + 1) :=
    funext fun _ => tree.getD_get h _
  rwa [siblings, tree.children_eq h]

/-- **Climbing the sorted steps from a node ends in the root.** -/
theorem climb_pathLevels : ∀ (levels level index : ℕ), level + levels = tree.depth →
    index * 4 ^ level < tree.leaves.length →
      climb H (tree.refAt H level index) (tree.pathLevels H levels level index) =
        tree.refAt H tree.depth (index / 4 ^ levels)
  | 0, level, index, total, _ => by
    obtain rfl : level = tree.depth := by omega
    simp [pathLevels, climb]
  | levels + 1, level, index, total, covers => by
    have le : level ≤ tree.depth := by omega
    have current := tree.children_current H index le
    have rest := climb_pathLevels levels (level + 1) (index / 4) (by omega) (parent_covers covers)
    rw [Nat.div_div_eq_div_mul, ← pow_succ'] at rest
    simp only [pathLevels, climb, current]
    rw [hashNodePresorted_sortedStep ⟨_, current⟩, tree.hashNode_children le covers, rest]

/-- **Sorting the served siblings gives the steps the tree gives.** -/
theorem sortLevels_siblingLevels : ∀ (levels level index : ℕ), level + levels = tree.depth →
    index * 4 ^ level < tree.leaves.length →
      sortLevels H (tree.refAt H level index) (tree.siblingLevels H levels level index) =
        tree.pathLevels H levels level index
  | 0, _, _, _, _ => rfl
  | levels + 1, level, index, total, covers => by
    have le : level ≤ tree.depth := by omega
    have current := tree.children_current H index le
    have rest :=
      sortLevels_siblingLevels levels (level + 1) (index / 4) (by omega) (parent_covers covers)
    have sorted := sortChildren_perm (tree.cons_siblings_perm H index le)
    have step : sortedStep (Fin.cons (tree.refAt H level index) (tree.siblingsAt H level index))
        (tree.refAt H level index) =
        sortedStep (tree.children H level index) (tree.refAt H level index) := by
      rw [sortedStep, sorted, sortedStep]
    simp only [siblingLevels, sortLevels, pathLevels, current]
    rw [step, sorted, hashNodePresorted_sortChildren, tree.hashNode_children le covers, rest]

theorem length_pathLevels : ∀ levels level index : ℕ,
    (tree.pathLevels H levels level index).length = levels
  | 0, _, _ => rfl
  | levels + 1, level, index => by
    rw [pathLevels, List.length_cons, length_pathLevels levels]

theorem length_siblingLevels : ∀ levels level index : ℕ,
    (tree.siblingLevels H levels level index).length = levels
  | 0, _, _ => rfl
  | levels + 1, level, index => by
    rw [siblingLevels, List.length_cons, length_siblingLevels levels]

theorem pathLevels_lt : ∀ levels level index : ℕ, ∀ s ∈ tree.pathLevels H levels level index, s.1 < 4
  | 0, _, _, s, hs => absurd hs List.not_mem_nil
  | levels + 1, level, index, s, hs => by
    rcases List.mem_cons.1 hs with rfl | later
    · exact sortedStep_lt ⟨_, rfl⟩
    · exact pathLevels_lt levels (level + 1) (index / 4) s later

end CommitmentTree

theorem MerklePath.shaped_ofSteps {steps : List PathStep} {depth : ℕ} (length : steps.length = depth)
    (slots : ∀ s ∈ steps, s.1 < 4) : (MerklePath.ofSteps steps).Shaped depth where
  siblings_length := by rw [ofSteps, List.length_map, length]
  positions_length := by rw [ofSteps, List.length_map, length]
  position_lt p hp := by
    obtain ⟨s, hs, rfl⟩ := List.mem_map.1 hp
    exact slots s hs

/-- The in-circuit walk over a shaped path, at the depth the witness writes. -/
theorem MerklePath.Shaped.memberRoot {path : MerklePath} {depth : ℕ} (h : path.Shaped depth)
    (le : depth ≤ maxDepth) (leaf : Digest) :
    (memberRoot H leaf path.fill (depth : Felt)).Holds Set.univ ∧
      path.root H leaf = .ok (memberRoot H leaf path.fill (depth : Felt)).value := by
  have wire : ((depth : ℕ) : Felt).val = depth :=
    ZMod.val_natCast_of_lt (lt_of_le_of_lt le (by decide))
  have bound : ((depth : ℕ) : Felt).val ≤ maxDepth := by rwa [wire]
  obtain ⟨walk, root⟩ := h.rootWire (H := H) le leaf
  rw [Qnero.memberRoot, Circuit.holds_bind, Circuit.bind_value, constrainDepth_value bound, wire]
  exact ⟨⟨holds_constrainDepth.2 bound, walk⟩, root⟩

/-- What the three forms of a membership path say about leaf `i` of a tree. -/
structure PathOf (H : Poseidon2) (tree : CommitmentTree) (i : ℕ) (leaf : Digest)
    (path : MerklePath) (siblings : List Siblings) : Prop where
  leaf_eq : tree.leaves[i]? = some leaf
  read : tree.path H i = .ok path
  root : path.root H leaf = .ok (tree.root H)
  served : tree.indexOrderedSiblings H i = .ok siblings
  converted : MerklePath.fromUnsorted H siblings leaf = .ok path
  holds : (memberRoot H leaf path.fill (tree.depth : Felt)).Holds Set.univ
  wired : (memberRoot H leaf path.fill (tree.depth : Felt)).value = tree.root H

theorem CommitmentTree.pathOf (tree : CommitmentTree) {i : ℕ} (hi : i < tree.leaves.length) :
    ∃ leaf path siblings, PathOf H tree i leaf path siblings := by
  have leaf : tree.refAt H 0 i = tree.leaves[i] := by
    simp [refAt, subtree, hi]
  have covers : i * 4 ^ 0 < tree.leaves.length := by simpa using hi
  have shaped := MerklePath.shaped_ofSteps (tree.length_pathLevels (H := H) tree.depth 0 i)
    (tree.pathLevels_lt tree.depth 0 i)
  have inRange : tree.ensureIndex i = .ok () := ensure_of hi
  -- The leaf's ancestor at the depth of the tree is the root.
  have climbs := tree.climb_pathLevels (H := H) tree.depth 0 i (Nat.zero_add _) covers
  rw [Nat.div_eq_of_lt (lt_of_lt_of_le hi tree.fits), leaf] at climbs
  have root : (MerklePath.ofSteps (tree.pathLevels H tree.depth 0 i)).root H tree.leaves[i] =
      .ok (tree.root H) := by
    rw [MerklePath.root_ofSteps H (by rw [length_pathLevels]; exact tree.depth_le)
      (tree.pathLevels_lt tree.depth 0 i), climbs, tree.root_eq]
  have sorted := tree.sortLevels_siblingLevels (H := H) tree.depth 0 i (Nat.zero_add _) covers
  rw [leaf] at sorted
  obtain ⟨walk, value⟩ := shaped.memberRoot (H := H) tree.depth_le tree.leaves[i]
  refine ⟨tree.leaves[i], .ofSteps (tree.pathLevels H tree.depth 0 i),
    tree.siblingLevels H tree.depth 0 i, List.getElem?_eq_getElem hi, ?_, root, ?_, ?_, walk,
    Except.ok.inj (value.symm.trans root)⟩
  · rw [path, inRange]
    rfl
  · rw [indexOrderedSiblings, inRange]
    rfl
  · rw [MerklePath.fromUnsorted, sorted]
    exact bind_of_ok (ensure_of (by rw [length_siblingLevels]; exact tree.depth_le))

/-- **Every leaf of a tree has a provable path.** The path the tree gives climbs to the root, the
served siblings convert to it, and filled into the circuit it leads to the root as well. -/
theorem exists_pathOf {leaves : List Digest} {depth i : ℕ} (hi : i < leaves.length)
    (depthPos : 1 ≤ depth) (depthLe : depth ≤ 20) (fits : leaves.length ≤ 4 ^ depth) :
    ∃ tree, CommitmentTree.new leaves depth = .ok tree ∧
      ∃ leaf path siblings, PathOf H tree i leaf path siblings := by
  have nonempty : leaves ≠ [] := by
    rintro rfl
    exact absurd hi (Nat.not_lt_zero i)
  exact ⟨⟨leaves, depth, nonempty, depthPos, depthLe, fits⟩,
    CommitmentTree.new_ok_iff.2 ⟨rfl, rfl⟩, CommitmentTree.pathOf _ hi⟩

/-- The fourth of five leaves equals the first one: its siblings hold its own digest. -/
theorem exists_pathOf_duplicate : 3 < fiveLeaves.flatten.length ∧
    fiveLeaves.flatten[3]? = fiveLeaves.flatten[0]? ∧
    ∃ tree, CommitmentTree.new fiveLeaves.flatten 2 = .ok tree ∧
      ∃ leaf path siblings, PathOf sampleSponge tree 3 leaf path siblings := by
  have length : fiveLeaves.flatten.length = 5 := by simp [fiveLeaves]
  exact ⟨by omega, rfl, exists_pathOf (by omega) (by omega) (by omega) (by omega)⟩

end Qnero
