import Qnero.Leaf.Header
import Qnero.Tree.Fold

/-!
# Correctness of the commitment tree

Blocks append leaves and then fold them. After any number of blocks the pallet holds the reference
tree of all leaves so far, and a proof it hands out for a folded leaf verifies against its root.
Verification does not know which slot the running hash sits in; it does not need to, because a node
hash sorts its children.
-/

namespace Qnero

open Plonkish Machine QuadTree

variable {H : Poseidon2} {t : ZkTree} {leaves : List Hash256} {processed : ℕ}

/-! ## Order-independent nodes -/

/-- **A node hash forgets the order of its children.** -/
theorem hashNode_perm {a b : Fin 4 → Hash256} (h : (List.ofFn a).Perm (List.ofFn b)) :
    hashNode H a = hashNode H b := by
  have sorted : (List.ofFn a).insertionSort (· ≤ ·) = (List.ofFn b).insertionSort (· ≤ ·) :=
    List.Perm.eq_of_pairwise' (List.pairwise_insertionSort _ _) (List.pairwise_insertionSort _ _)
      ((List.perm_insertionSort _ _).trans (h.trans (List.perm_insertionSort _ _).symm))
  rw [hashNode, hashNode, hashNodeInput, hashNodeInput, sorted]

/-- The child at `slot` and the other three are the four children. -/
theorem ofFn_cons_perm {α : Type} (children : ℕ → α) {slot : ℕ} (h : slot < 4) :
    (List.ofFn (Fin.cons (children slot)
      fun j : Fin 3 => children (if j.val < slot then j.val else j.val + 1) : Fin 4 → α)).Perm
      (List.ofFn fun i : Fin 4 => children i) := by
  -- Moving the child from its slot to the front permutes the four.
  have hslot : slot = 0 ∨ slot = 1 ∨ slot = 2 ∨ slot = 3 := by omega
  simp only [List.ofFn_succ, List.ofFn_zero]
  rcases hslot with rfl | rfl | rfl | rfl
  · exact .refl _
  · exact (@List.perm_middle _ _ [children 0] _).symm
  · exact (@List.perm_middle _ _ [children 0, children 1] _).symm
  · exact (@List.perm_middle _ _ [children 0, children 1, children 2] _).symm

theorem hashNode_withSiblings (children : ℕ → Hash256) {slot : ℕ} (h : slot < 4) :
    hashNode H (ZkTree.withSiblings (children slot)
      fun j : Fin 3 => children (if j.val < slot then j.val else j.val + 1)) =
      hashNode H fun i : Fin 4 => children i :=
  hashNode_perm (ofFn_cons_perm children h)

/-! ## Proofs -/

/-- In a folded tree every read of a node below the root is the reference node, missing ones
included. -/
theorem Folded.getNodeHash_eq (h : Folded H t leaves leaves.length) {l : ℕ} (hl : 1 ≤ l)
    (hd : l < t.depth) (i : ℕ) : ZkTree.getNodeHash t.nodes l i = refNode H leaves l i := by
  rw [ZkTree.getNodeHash, h.node_eq, List.take_length]
  split
  · rfl
  · next hout => exact (subtree_eq_zero (by omega)).symm

theorem Folded.siblingHashes_eq (h : Folded H t leaves leaves.length) {m : ℕ} (hm : m < t.depth)
    (index : ℕ) : t.siblingHashes (m + 1) index = fun j : Fin 3 => refNode H leaves m
      (4 * (index / 4) + if j.val < index % 4 then j.val else j.val + 1) := by
  funext j
  simp only [ZkTree.siblingHashes]
  split
  · next h0 =>
    obtain rfl : m = 0 := by omega
    exact h.getLeafHash_eq _
  · next h0 =>
    rw [Nat.add_sub_cancel]
    exact h.getNodeHash_eq (by omega) hm _

/-- Folding the siblings from a node on the path of a leaf ends in the root. -/
theorem Folded.foldProof_eq (h : Folded H t leaves leaves.length) :
    ∀ (levels m index : ℕ), m + levels = t.depth → index * 4 ^ m < leaves.length →
      ZkTree.foldProof H (refNode H leaves m index) (t.proofLevels levels (m + 1) index) =
        refNode H leaves t.depth (index / 4 ^ levels)
  | 0, m, index, hm, _ => by
    obtain rfl : m = t.depth := by omega
    simp [ZkTree.proofLevels, ZkTree.foldProof]
  | levels + 1, m, index, hm, hi => by
    have hcover := parent_covers hi
    -- One step: the node and its siblings hash to the parent.
    have hparent : hashNode H (ZkTree.withSiblings (refNode H leaves m index)
        (t.siblingHashes (m + 1) index)) = refNode H leaves (m + 1) (index / 4) := by
      have := hashNode_withSiblings (H := H)
        (fun s => refNode H leaves m (4 * (index / 4) + s)) (Nat.mod_lt index (by omega : 0 < 4))
      simp only [Nat.div_add_mod] at this
      rw [h.siblingHashes_eq (by omega), this, refNode, subtree_succ hcover]
    have step := Folded.foldProof_eq h levels (m + 1) (index / 4) (by omega) hcover
    rw [Nat.div_div_eq_div_mul, ← pow_succ'] at step
    rw [← step, ← hparent]
    rfl

theorem length_proofLevels (t : ZkTree) : ∀ levels level index,
    (t.proofLevels levels level index).length = levels
  | 0, _, _ => rfl
  | levels + 1, level, index => by
    rw [ZkTree.proofLevels, List.length_cons, length_proofLevels t levels]

/-- A folded tree hands out a proof for exactly the folded leaves. -/
theorem Folded.getMerkleProof_ok (h : Folded H t leaves processed) (i : ℕ) :
    (∃ proof, t.getMerkleProof i = .ok proof) ↔ i < processed := by
  have hpend := h.pending_eq
  -- A tree that holds a leaf is not of depth zero, so the generator does not refuse.
  have hdepth : 0 < processed → t.depth ≠ 0 := by
    intro hpos h0
    have := h.depth_least.1
    rw [h0] at this
    simp [capacity] at this
    omega
  unfold ZkTree.getMerkleProof ZkTree.generateProof
  rw [h.count_eq]
  by_cases hi : i < processed
  · rw [if_neg (by omega), if_neg (by omega), if_neg (hdepth (by omega))]
    exact ⟨fun _ => hi, fun _ => ⟨_, rfl⟩⟩
  · by_cases hl : leaves.length ≤ i
    · simp [hl, hi]
    · rw [if_neg hl, if_pos (by omega)]
      simp [hi]

theorem Folded.verify (h : Folded H t leaves leaves.length) {i : ℕ} {proof : ZkTree.MerkleProof}
    (hp : t.getMerkleProof i = .ok proof) :
    proof.siblings.length = t.depth ∧ t.verifyProof H (leaves.getD i emptyHash) proof = true := by
  have hi : i < leaves.length := (h.getMerkleProof_ok i).1 ⟨proof, hp⟩
  unfold ZkTree.getMerkleProof ZkTree.generateProof at hp
  split at hp
  · cases hp
  · split at hp
    · cases hp
    · split at hp
      · cases hp
      · cases hp
        refine ⟨length_proofLevels t _ _ _, ?_⟩
        have fold := h.foldProof_eq t.depth 0 i (by omega) (by simpa using hi)
        have hfits : leaves.length ≤ 4 ^ t.depth := le_trans h.depth_least.1 (capacity_le _)
        rw [Nat.div_eq_of_lt (by omega)] at fold
        have hroot := h.root_eq
        rw [List.take_length] at hroot
        rw [ZkTree.verifyProof, decide_eq_true_iff, hroot, ← fold, List.getD_eq_getElem?_getD]
        rfl

/-! ## Runs -/

/-- Append a block's leaves. -/
def ZkTree.appendAll (t : ZkTree) (block : List Hash256) : ZkTree :=
  block.foldl (fun t leaf => (t.appendLeafHash leaf).1) t

/-- Append and fold block after block. -/
def ZkTree.runBlocks (H : Poseidon2) (t : ZkTree) (blocks : List (List Hash256)) : ZkTree :=
  blocks.foldl (fun t block => (t.appendAll block).processPendingLeaves H) t

theorem ZkTree.appendAll_cons (t : ZkTree) (leaf : Hash256) (block : List Hash256) :
    t.appendAll (leaf :: block) = (t.appendLeafHash leaf).1.appendAll block := rfl

theorem ZkTree.leafCount_append {t : ZkTree} (leaf : Hash256) (h : t.leafCount + 1 ≤ u64Max) :
    (t.appendLeafHash leaf).1.leafCount = t.leafCount + 1 := satAdd_eq h

theorem ZkTree.leafCount_appendAll {t : ZkTree} {block : List Hash256}
    (hroom : t.leafCount + block.length ≤ u64Max) :
    (t.appendAll block).leafCount = t.leafCount + block.length := by
  induction block generalizing t with
  | nil => rfl
  | cons leaf block ih =>
    rw [List.length_cons] at hroom ⊢
    have count := leafCount_append leaf (t := t) (by omega)
    rw [appendAll_cons, ih (by omega), count]
    omega

/-- The appended leaves stand behind the ones there were; nothing else changes. -/
theorem ZkTree.leaves_appendAll {t : ZkTree} {block : List Hash256}
    (hroom : t.leafCount + block.length ≤ u64Max) (i : ℕ) :
    (t.appendAll block).leaves i =
      if t.leafCount ≤ i ∧ i < t.leafCount + block.length then block[i - t.leafCount]?
      else t.leaves i := by
  induction block generalizing t with
  | nil => rw [if_neg (by simp)]; rfl
  | cons leaf block ih =>
    rw [List.length_cons] at hroom ⊢
    have count := leafCount_append leaf (t := t) (by omega)
    rw [appendAll_cons, ih (by omega), count]
    have head : (t.appendLeafHash leaf).1.leaves =
        Function.update t.leaves t.leafCount (some leaf) := rfl
    rcases lt_trichotomy i t.leafCount with hi | rfl | hi
    · rw [if_neg (by omega), if_neg (by omega), head, Function.update_of_ne (by omega)]
    · rw [if_neg (by omega), if_pos (by omega), head, Function.update_self, Nat.sub_self]
      rfl
    · obtain ⟨k, rfl⟩ := Nat.exists_eq_add_of_lt hi
      have shift : t.leafCount + k + 1 - t.leafCount = k + 1 := by omega
      have shift' : t.leafCount + k + 1 - (t.leafCount + 1) = k := by omega
      rw [shift, shift', List.getElem?_cons_succ, head, Function.update_of_ne (by omega)]
      exact if_congr (by omega) rfl rfl

theorem capacity_circuitMaxTreeDepth : capacity circuitMaxTreeDepth = 4 ^ 20 := rfl

theorem Folded.appendAll (h : Folded H t leaves processed) {block : List Hash256}
    (hroom : (leaves ++ block).length ≤ u64Max) :
    Folded H (t.appendAll block) (leaves ++ block) processed := by
  induction block generalizing t leaves with
  | nil => simpa [ZkTree.appendAll] using h
  | cons leaf rest ih =>
    rw [List.length_append, List.length_cons] at hroom
    have := ih (h.append leaf (by omega)) (by simp; omega)
    rwa [List.append_assoc, List.singleton_append] at this

/-- Every block extends the folded list by its leaves. -/
theorem Folded.runBlocks (h : Folded H t leaves leaves.length) {blocks : List (List Hash256)}
    (hroom : (leaves ++ blocks.flatten).length ≤ 4 ^ 20) :
    Folded H (t.runBlocks H blocks) (leaves ++ blocks.flatten)
      (leaves ++ blocks.flatten).length := by
  induction blocks generalizing t leaves with
  | nil => simpa [ZkTree.runBlocks] using h
  | cons block rest ih =>
    rw [List.flatten_cons, ← List.append_assoc] at hroom ⊢
    have hblock : (leaves ++ block).length ≤ 4 ^ 20 := by
      rw [List.length_append] at hroom
      omega
    have hfold := (h.appendAll (le_trans hblock (by decide))).process
      (by rw [capacity_circuitMaxTreeDepth]; exact hblock)
    exact ih hfold hroom

theorem folded_runBlocks {blocks : List (List Hash256)} (hroom : blocks.flatten.length ≤ 4 ^ 20) :
    Folded H (ZkTree.empty.runBlocks H blocks) blocks.flatten blocks.flatten.length := by
  have run : Folded H (ZkTree.empty.runBlocks H blocks) ([] ++ blocks.flatten) _ :=
    folded_empty.runBlocks (by simpa using hroom)
  simpa using run

theorem Folded.root_eq_refNode (h : Folded H t leaves leaves.length) :
    t.root = refNode H leaves t.depth 0 := by
  rw [h.root_eq, List.take_length]

/-- **The pallet's tree is the reference tree of its leaves**, for every leaf sequence within the
capacity and every way of cutting it into blocks. A proof is handed out for exactly the folded
leaves, also while later ones are pending. -/
theorem runBlocks_correct {blocks : List (List Hash256)} (hroom : blocks.flatten.length ≤ 4 ^ 20) :
    let t := ZkTree.empty.runBlocks H blocks
    let leaves := blocks.flatten
    t.root = refNode H leaves t.depth 0 ∧
    (∀ blocks' : List (List Hash256), blocks'.flatten = leaves →
      (ZkTree.empty.runBlocks H blocks').root = t.root) ∧
    IsLeast {d | leaves.length ≤ capacity d} t.depth ∧
    (∀ l i v, t.nodes (l, i) = some v → v = refNode H leaves l i) ∧
    (∀ pending, (leaves ++ pending).length ≤ 4 ^ 20 → ∀ i,
      (∃ proof, (t.appendAll pending).getMerkleProof i = .ok proof) ↔ i < leaves.length) ∧
    (∀ i proof, t.getMerkleProof i = .ok proof →
      proof.siblings.length = t.depth ∧ t.verifyProof H (leaves.getD i emptyHash) proof = true) := by
  have folded := folded_runBlocks (H := H) hroom
  refine ⟨folded.root_eq_refNode, fun blocks' heq => ?_, folded.depth_least, fun l i v hv => ?_,
    fun pending hmore => (folded.appendAll (le_trans hmore (by decide))).getMerkleProof_ok,
    fun i proof => folded.verify⟩
  · have folded' : Folded H (ZkTree.empty.runBlocks H blocks') _ _ :=
      folded_runBlocks (by rw [heq]; exact hroom)
    rw [heq] at folded'
    rw [folded'.root_eq_refNode, folded.root_eq_refNode,
      folded'.depth_least.unique folded.depth_least]
  · rw [folded.node_eq, List.take_length] at hv
    split at hv
    · exact (Option.some.inj hv).symm
    · cases hv

/-- Three leaves over two blocks: the second block folds into a tree that is not empty. -/
def sampleBlocks : List (List Hash256) := [[⟨fun _ => 1⟩], [⟨fun _ => 2⟩, ⟨fun _ => 3⟩]]

theorem runBlocks_correct_sample : sampleBlocks.flatten.length ≤ 4 ^ 20 ∧
    (ZkTree.empty.runBlocks sampleSponge sampleBlocks).root =
      refNode sampleSponge sampleBlocks.flatten
        (ZkTree.empty.runBlocks sampleSponge sampleBlocks).depth 0 :=
  ⟨by decide, (runBlocks_correct (by decide)).1⟩

end Qnero
