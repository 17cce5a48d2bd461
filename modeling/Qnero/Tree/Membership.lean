import Qnero.Leaf.Constraints
import Qnero.Tree.Correct

/-!
# Membership at every witnessed depth

The circuit lets the prover choose how many steps of a path count, and a node hash tags no level.
So a prover may try an inner node as a leaf, a leaf opened one level deeper, or the empty digest.
None of it works: a node hashes sixteen elements, a commitment six and a transfer leaf eight, so a
value is a leaf or an inner node but not both, and the climb into the tree has to start at a leaf.
-/

namespace Qnero

open Plonkish QuadTree

variable {H : Poseidon2} {Q : Set (List Felt)} {leaves : List Hash256}

/-- A leaf as the pallet receives it: a note commitment or a hashed transfer. -/
def IsLeafHash (H : Poseidon2) (Q : Set (List Felt)) (v : Hash256) : Prop :=
  (∃ inner value, cmInput inner value ∈ Q ∧ v = H.hashToBytes (cmInput inner value)) ∨
    ∃ leaf, hashLeafInput leaf ∈ Q ∧ v = hashLeaf H leaf

/-- Every node list of the tree over `leaves`, up to `depth`, is in `Q`. -/
def TreeIn (H : Poseidon2) (Q : Set (List Felt)) (leaves : List Hash256) (depth : ℕ) : Prop :=
  ∀ l i, l < depth → i * 4 ^ (l + 1) < leaves.length →
    hashNodeInput (fun j : Fin 4 => refNode H leaves l (4 * i + j)) ∈ Q

/-- `x` was hashed as a child of `y`. -/
def Below (H : Poseidon2) (Q : Set (List Felt)) (x y : Hash256) : Prop :=
  ∃ children : Fin 4 → Digest, nodeInput children ∈ Q ∧ y = H.hashToBytes (nodeInput children) ∧
    ∃ i, x = digestBytes (children i)

/-! ## Lengths tell a leaf from a node -/

theorem length_hashNodeInput (children : Fin 4 → Hash256) :
    (hashNodeInput children).length = 16 := by
  simp only [hashNodeInput, List.length_flatMap, length_felts, List.map_const', List.sum_replicate,
    List.length_insertionSort, List.length_ofFn]
  rfl

theorem length_hashLeafInput (leaf : ZkLeaf) : (hashLeafInput leaf).length = 8 := by
  simp [hashLeafInput]

theorem IsLeafHash.preimage {v : Hash256} (h : IsLeafHash H Q v) :
    ∃ x ∈ Q, x.length ≠ 16 ∧ v = H.hashToBytes x := by
  rcases h with ⟨inner, value, hq, rfl⟩ | ⟨leaf, hq, rfl⟩
  · exact ⟨_, hq, by simp, rfl⟩
  · exact ⟨_, hq, by simp [length_hashLeafInput], rfl⟩

/-- Equal hashes of hashed lists have preimages of equal length. -/
theorem CollisionFree.length_eq (hH : CollisionFree H.hashToFelts Q) {x y : List Felt} (hx : x ∈ Q)
    (hy : y ∈ Q) (h : H.hashToBytes x = H.hashToBytes y) : x.length = y.length :=
  congrArg List.length (hH.inj hx hy (digestBytes_injective h))

/-! ## Children read back from a node -/

theorem flatMap_felts_injective : ∀ {a b : List Digest}, a.flatMap felts = b.flatMap felts → a = b
  | [], [], _ => rfl
  | [], y :: b, h => by
    have := congrArg List.length h
    simp at this
    omega
  | x :: a, [], h => by
    have := congrArg List.length h
    simp at this
  | x :: a, y :: b, h => by
    rw [List.flatMap_cons, List.flatMap_cons, felts_append_inj] at h
    rw [h.1, flatMap_felts_injective h.2]

/-- The digests of a sorted node are the decoded children. -/
theorem child_of_nodeInput_eq {children : Fin 4 → Hash256} (hc : ∀ i, (children i).Canonical)
    {digests : Fin 4 → Digest} (h : nodeInput digests = hashNodeInput children) (i : Fin 4) :
    ∃ j, digestBytes (digests i) = children j := by
  -- Element by element the two lists are the same four digests, one of them sorted.
  have lists : List.ofFn digests =
      ((List.ofFn children).insertionSort (· ≤ ·)).map bytesToDigestLossy := by
    refine flatMap_felts_injective ?_
    rw [List.flatMap_map]
    rw [nodeInput, ← Function.comp_def, List.ofFn_comp', ← List.flatMap_def] at h
    exact h
  have hmem : digests i ∈ List.ofFn digests := List.mem_ofFn.2 ⟨i, rfl⟩
  rw [lists, List.mem_map] at hmem
  obtain ⟨child, hchild, heq⟩ := hmem
  obtain ⟨j, rfl⟩ := List.mem_ofFn.1 ((List.mem_insertionSort _).1 hchild)
  exact ⟨j, by rw [← heq, (hc j).digestBytes_lossy]⟩

theorem canonical_refNode (hleaf : ∀ v ∈ leaves, v.Canonical) (l i : ℕ) :
    (refNode H leaves l i).Canonical := by
  have hzero : (emptyHash : Hash256).Canonical := by decide
  cases l with
  | zero =>
    by_cases hi : i < leaves.length
    · simp only [refNode, subtree, List.getElem?_eq_getElem hi, Option.getD_some]
      exact hleaf _ (List.getElem_mem hi)
    · rw [refNode, subtree_eq_zero (by simpa using hi)]
      exact hzero
  | succ l =>
    rw [refNode, subtree]
    split
    · exact canonical_digestBytes _
    · exact hzero

/-! ## The climb -/

/-- A satisfied climb is a chain of child-to-parent steps. -/
theorem ClimbIn.reflTransGen : ∀ {steps : List PathStep} {c : Digest}, ClimbIn H Q c steps →
    Relation.ReflTransGen (Below H Q) (digestBytes c) (digestBytes (climb H c steps))
  | [], _, _ => .refl
  | (position, siblings) :: rest, c, ⟨hpos, hmem, hrest⟩ => by
    obtain ⟨i, hi⟩ := placeChild_mem hpos c siblings
    exact .head ⟨_, hmem, rfl, i, by rw [hi]⟩ hrest.reflTransGen

/-- **A climb into the tree starts at a leaf**, at whatever depth it is made. -/
theorem mem_of_climbIn (hH : CollisionFree H.hashToFelts Q) {depth : ℕ}
    (hleaves : ∀ v ∈ leaves, IsLeafHash H Q v) (htree : TreeIn H Q leaves depth)
    {inner : Digest} {value : Felt} (hcm : cmInput inner value ∈ Q) {steps : List PathStep}
    (hclimb : ClimbIn H Q (commitmentFromInner H inner value) steps)
    (hroot : digestBytes (climb H (commitmentFromInner H inner value) steps) =
      refNode H leaves depth 0) :
    digestBytes (commitmentFromInner H inner value) ∈ leaves := by
  have hcanon : ∀ v ∈ leaves, v.Canonical := fun v hv => by
    obtain ⟨x, -, -, rfl⟩ := (hleaves v hv).preimage
    exact canonical_digestBytes _
  have chain := hclimb.reflTransGen
  rw [hroot] at chain
  refine mem_of_climb ?_ ?_ ?_ ?_ ?_ le_rfl chain
  · -- A node of the tree is above its own children only.
    rintro l i x hl hi ⟨digests, hmem, heq, k, rfl⟩
    rw [subtree_succ hi] at heq
    have same := hH.inj (htree l i hl hi) hmem (digestBytes_injective heq)
    exact child_of_nodeInput_eq (fun j => canonical_refNode hcanon _ _) same.symm k
  · -- A leaf is above nothing: its preimage is not sixteen elements long.
    rintro y hy x ⟨digests, hmem, heq, -⟩
    obtain ⟨z, hz, hlen, rfl⟩ := (hleaves y hy).preimage
    exact hlen (by rw [CollisionFree.length_eq hH hz hmem heq, length_nodeInput])
  · -- A commitment is no inner node, by length again.
    intro l i hl hi heq
    rw [subtree_succ hi] at heq
    have := CollisionFree.length_eq hH hcm (htree l i hl hi) heq
    rw [length_cmInput, length_hashNodeInput] at this
    omega
  · -- Neither a node nor a commitment hashes to the missing value.
    rintro x ⟨digests, hmem, heq, -⟩
    exact hH.ne_zero _ hmem (digestBytes_eq_zero.1 heq.symm)
  · exact fun h => hH.ne_zero _ hcm (digestBytes_eq_zero.1 h)

/-- The in-circuit root of a commitment at the depth on a wire: split and bound the depth, then
walk the path under its level flags. -/
def memberRoot (H : Poseidon2) (commitment : Digest) (path : MerklePathTargets) (depth : Felt) :
    Wires Digest := do
  let activeLevels ← constrainDepth depth
  merkleRootFromPath H commitment path activeLevels

/-- **Membership soundness.** Whatever depth up to twenty, siblings and positions a prover
witnesses, if the in-circuit root of a commitment is the root of the pallet's tree, then the
commitment is one of the tree's leaves. -/
theorem memberRoot_sound (hH : CollisionFree H.hashToFelts Q) {blocks : List (List Hash256)}
    (hroom : blocks.flatten.length ≤ 4 ^ 20) (hleaves : ∀ v ∈ blocks.flatten, IsLeafHash H Q v)
    (htree : TreeIn H Q blocks.flatten (ZkTree.empty.runBlocks H blocks).depth)
    {inner : Digest} {value : Felt} (hcm : cmInput inner value ∈ Q)
    {path : MerklePathTargets} {depth : Felt}
    (hholds : (memberRoot H (commitmentFromInner H inner value) path depth).Holds Q)
    (hroot : digestBytes (memberRoot H (commitmentFromInner H inner value) path depth).value =
      (ZkTree.empty.runBlocks H blocks).root) :
    digestBytes (commitmentFromInner H inner value) ∈ blocks.flatten := by
  rw [memberRoot, Circuit.holds_bind, holds_constrainDepth] at hholds
  obtain ⟨hdepth, hwalk⟩ := hholds
  rw [memberRoot, Circuit.bind_value] at hroot
  rw [constrainDepth_value hdepth] at hwalk hroot
  obtain ⟨hvalue, hclimb⟩ := merkleRootFromPath_value hwalk
  refine mem_of_climbIn hH hleaves htree hcm hclimb ?_
  rw [← hvalue, hroot, (folded_runBlocks hroom).root_eq_refNode]

namespace Sample

def memberLeaf (value : Felt) : Digest := commitmentFromInner sampleSponge 0 value

/-- Five commitments of two blocks: a full node, and one of a single leaf. -/
def memberBlocks : List (List Hash256) :=
  [[5, 6], [7, 8, 9]].map (List.map fun value => digestBytes (memberLeaf value))

def memberNode (l i : ℕ) : List Felt :=
  hashNodeInput fun j : Fin 4 => refNode sampleSponge memberBlocks.flatten l (4 * i + j)

/-- From the last leaf. A sorted node puts the empty slots first, and the full node is the last
sibling on the second level. -/
def memberPath : MerklePathTargets :=
  ⟨fun l j => if l.val = 1 ∧ j.val = 2 then sampleSponge.hashToFelts (memberNode 0 0) else 0, fun l => if l.val = 1 then 2 else 3⟩

def memberLists : List (List Felt) :=
  [5, 6, 7, 8, 9].map (cmInput 0) ++ [memberNode 0 0, memberNode 0 1, memberNode 1 0,
    nodeInput (placeChild 3 (sampleSponge.hashToFelts (memberNode 1 0)) 0)]

theorem collisionFree_memberLists :
    CollisionFree sampleSponge.hashToFelts {x | x ∈ memberLists} :=
  collisionFree_sampleSponge (by decide +kernel)

theorem memberBlocks_tree :
    (ZkTree.empty.runBlocks sampleSponge memberBlocks).depth = 2 ∧
    digestBytes (climb sampleSponge (memberLeaf 9) (memberPath.steps (2 : Felt).val)) =
      (ZkTree.empty.runBlocks sampleSponge memberBlocks).root := by
  decide +kernel

theorem two_val_le : (2 : Felt).val ≤ maxDepth := by decide +kernel

/-- Two levels up to the root, and the rest stay there. -/
theorem holds_memberRoot :
    (memberRoot sampleSponge (memberLeaf 9) memberPath 2).Holds {x | x ∈ memberLists} := by
  decide +kernel

theorem memberRoot_value :
    digestBytes (memberRoot sampleSponge (memberLeaf 9) memberPath 2).value =
      (ZkTree.empty.runBlocks sampleSponge memberBlocks).root := by
  have hwalk := holds_memberRoot
  rw [memberRoot, Circuit.holds_bind, constrainDepth_value two_val_le] at hwalk
  rw [memberRoot, Circuit.bind_value, constrainDepth_value two_val_le,
    (merkleRootFromPath_value hwalk.2).1]
  exact memberBlocks_tree.2

theorem treeIn_memberBlocks : TreeIn sampleSponge {x | x ∈ memberLists} memberBlocks.flatten
    (ZkTree.empty.runBlocks sampleSponge memberBlocks).depth := by
  rw [memberBlocks_tree.1]
  intro l i hl hi
  have five : memberBlocks.flatten.length = 5 := rfl
  rw [five] at hi
  change memberNode l i ∈ memberLists
  interval_cases l
  · have : i < 2 := by omega
    interval_cases i <;> simp [memberLists]
  · obtain rfl : i = 0 := by omega
    simp [memberLists]

end Sample

theorem memberRoot_sound_sample :
    CollisionFree sampleSponge.hashToFelts {x | x ∈ Sample.memberLists} ∧
      digestBytes (Sample.memberLeaf 9) ∈ Sample.memberBlocks.flatten := by
  refine ⟨Sample.collisionFree_memberLists,
    memberRoot_sound Sample.collisionFree_memberLists (by decide) (fun v hv => ?_)
      Sample.treeIn_memberBlocks (by simp [Sample.memberLists]) Sample.holds_memberRoot
      Sample.memberRoot_value⟩
  obtain ⟨value, mem, rfl⟩ := List.mem_map.1
    (show v ∈ [5, 6, 7, 8, 9].map fun value => digestBytes (Sample.memberLeaf value) from hv)
  exact .inl ⟨0, value, List.mem_append_left _ (List.mem_map_of_mem mem), rfl⟩

end Qnero
