import Qnero.Tree.Pallet
import Qnero.Tree.QuadTree

/-!
# The stored tree is the tree of its leaves

`Folded H t leaves processed` is the pallet's storage invariant: the first `processed` leaves of
`leaves` are folded, the rest are pending. The root, the depth and every stored node are those of
the reference tree over the folded prefix. Appending keeps it, and one `processPendingLeaves`
extends the prefix to the whole list, whatever the prefix was; so the tree never depends on how the
leaves were cut into blocks.
-/

namespace Qnero

open Plonkish Machine QuadTree

variable (H : Poseidon2)

/-- The reference tree: missing subtrees are the zero hash, children are sorted by the node hash. -/
abbrev refNode (leaves : List Hash256) (level index : ℕ) : Hash256 :=
  subtree emptyHash (hashNode H) leaves level index

/-- The storage invariant. -/
structure Folded (t : ZkTree) (leaves : List Hash256) (processed : ℕ) : Prop where
  leaf_eq : ∀ i, t.leaves i = leaves[i]?
  count_eq : t.leafCount = leaves.length
  pending_eq : processed + t.unprocessedLeaves = leaves.length
  depth_least : IsLeast {d | processed ≤ capacity d} t.depth
  root_eq : t.root = refNode H (leaves.take processed) t.depth 0
  node_eq : ∀ l i, t.nodes (l, i) =
    if 1 ≤ l ∧ l < t.depth ∧ i * 4 ^ l < processed then
      some (refNode H (leaves.take processed) l i)
    else none

variable {H} {t : ZkTree} {leaves : List Hash256} {processed : ℕ}

theorem folded_empty : Folded H ZkTree.empty [] 0 where
  leaf_eq _ := rfl
  count_eq := rfl
  pending_eq := rfl
  depth_least := ⟨Nat.zero_le _, fun _ _ => Nat.zero_le _⟩
  root_eq := rfl
  node_eq l i := by simp [ZkTree.empty]

theorem Folded.getLeafHash_eq (h : Folded H t leaves processed) (i : ℕ) :
    t.getLeafHash i = refNode H leaves 0 i := by
  rw [ZkTree.getLeafHash, h.leaf_eq]
  rfl

theorem Folded.processed_le (h : Folded H t leaves processed) : processed ≤ leaves.length := by
  have := h.pending_eq
  omega

/-! ## Appending -/

theorem Folded.append (h : Folded H t leaves processed) (leaf : Hash256)
    (hroom : leaves.length < u64Max) :
    Folded H (t.appendLeafHash leaf).1 (leaves ++ [leaf]) processed := by
  have hle := h.processed_le
  have htake : (leaves ++ [leaf]).take processed = leaves.take processed :=
    List.take_append_of_le_length hle
  have hpend := h.pending_eq
  exact {
    leaf_eq := fun i => by
      simp only [ZkTree.appendLeafHash, h.count_eq]
      by_cases hi : i = leaves.length
      · subst hi
        simp
      · rw [Function.update_of_ne hi, h.leaf_eq]
        rcases lt_or_gt_of_ne hi with hlt | hgt
        · rw [List.getElem?_append_left hlt]
        · rw [List.getElem?_eq_none (by omega), List.getElem?_eq_none (by simp; omega)]
    count_eq := by
      simp only [ZkTree.appendLeafHash, h.count_eq, List.length_append, List.length_singleton]
      exact satAdd_eq (by omega)
    pending_eq := by
      simp only [ZkTree.appendLeafHash, List.length_append, List.length_singleton]
      rw [satAdd_eq (by omega)]
      omega
    depth_least := h.depth_least
    root_eq := by rw [htake]; exact h.root_eq
    node_eq := by rw [htake]; exact h.node_eq }

/-! ## One pass over the dirty interval -/

theorem writeNodes_apply (nodes : NodeMap) (level : ℕ) : ∀ (lo : ℕ) (hashes : List Hash256) (l i : ℕ),
    ZkTree.writeNodes nodes level lo hashes (l, i) =
      if l = level ∧ lo ≤ i ∧ i < lo + hashes.length then hashes[i - lo]? else nodes (l, i)
  | lo, [], l, i => by
    have : ¬ (l = level ∧ lo ≤ i ∧ i < lo + ([] : List Hash256).length) := by
      simp
    rw [if_neg this]
    rfl
  | lo, hash :: rest, l, i => by
    rw [ZkTree.writeNodes]
    by_cases hi : (l, i) = (level, lo)
    · obtain ⟨rfl, rfl⟩ := Prod.mk.inj hi
      simp
    · rw [Function.update_of_ne hi, writeNodes_apply nodes level (lo + 1) rest]
      simp only [Prod.mk.injEq, not_and] at hi
      by_cases hin : l = level ∧ lo + 1 ≤ i ∧ i < lo + 1 + rest.length
      · rw [if_pos hin, if_pos (by simp; omega)]
        rw [show i - lo = i - (lo + 1) + 1 by omega, List.getElem?_cons_succ]
      · rw [if_neg hin, if_neg]
        rintro ⟨rfl, h1, h2⟩
        rw [List.length_cons] at h2
        have := hi rfl
        exact hin ⟨rfl, by omega, by omega⟩

/-- The state of the pass after level `m`: the dirty interval covers the nodes above the leaves
`[start, n)`, its hashes are the reference nodes, and so are the nodes stored so far; everything
else in storage is as it was in `base`. -/
structure RangeInv (H : Poseidon2) (leaves : List Hash256) (base : NodeMap) (start depth m : ℕ)
    (s : ZkTree.Dirty) : Prop where
  lo_eq : s.lo = start / 4 ^ m
  hi_eq : s.hi = (leaves.length - 1) / 4 ^ m
  hashes_eq : s.hashes = (List.range' s.lo (s.hi - s.lo + 1)).map (refNode H leaves m)
  node_eq : ∀ l i, s.nodes (l, i) =
    if 1 ≤ l ∧ l ≤ m ∧ l < depth ∧ start / 4 ^ l ≤ i ∧ i ≤ (leaves.length - 1) / 4 ^ l then
      some (refNode H leaves l i)
    else base (l, i)

section Pass

variable {base : NodeMap} {start depth m : ℕ} {s : ZkTree.Dirty}

/-- What the pass reads from storage left of the dirty interval is already final. -/
def LeftFinal (H : Poseidon2) (leaves : List Hash256) (base : NodeMap) (start depth : ℕ) : Prop :=
  ∀ l i, 1 ≤ l → l < depth → i < start / 4 ^ l → ZkTree.getNodeHash base l i = refNode H leaves l i

/-- Every child the pass reads is the reference node of the level below. -/
theorem childHash_eq (hleaf : ∀ i, t.getLeafHash i = refNode H leaves 0 i)
    (hbase : LeftFinal H leaves base start depth) (hm : m < depth)
    (h : RangeInv H leaves base start depth m s) (c : ℕ) :
    t.childHash (m + 1) s c = refNode H leaves m c := by
  unfold ZkTree.childHash
  split
  · next hin =>
    -- Inside the interval the hash was computed one level below.
    rw [h.hashes_eq, List.getD_eq_getElem?_getD, List.getElem?_map, List.getElem?_range' (by omega)]
    simp only [Option.map_some, Option.getD_some]
    congr 1
    omega
  · next hout =>
    split
    · next hhi =>
      -- Right of the last appended leaf the tree is empty.
      rw [h.hi_eq, Nat.div_lt_iff_lt_mul (by positivity)] at hhi
      exact (subtree_eq_zero (by omega)).symm
    · next hhi =>
      -- Left of it storage is read: the leaves at level 0, stored nodes above.
      have hlo : c < start / 4 ^ m := by
        rw [← h.lo_eq]
        omega
      split
      · next h1 =>
        obtain rfl : m = 0 := by omega
        exact hleaf c
      · next h1 =>
        rw [Nat.add_sub_cancel, ZkTree.getNodeHash, h.node_eq, if_neg (by omega)]
        exact hbase m c (by omega) hm hlo

/-- **One level of the pass.** -/
theorem RangeInv.step (hstart : start < leaves.length)
    (hleaf : ∀ i, t.getLeafHash i = refNode H leaves 0 i)
    (hbase : LeftFinal H leaves base start depth) (hm : m < depth)
    (h : RangeInv H leaves base start depth m s) :
    RangeInv H leaves base start depth (m + 1) (t.updateLevel H depth s (m + 1)) := by
  have hlo : s.lo / 4 = start / 4 ^ (m + 1) := by rw [h.lo_eq, Nat.div_div_eq_div_mul, pow_succ]
  have hhi : s.hi / 4 = (leaves.length - 1) / 4 ^ (m + 1) := by
    rw [h.hi_eq, Nat.div_div_eq_div_mul, pow_succ]
  have hle : s.lo / 4 ≤ s.hi / 4 := by
    rw [hlo, hhi]
    exact Nat.div_le_div_right (by omega)
  have hashes : (List.range' (s.lo / 4) (s.hi / 4 - s.lo / 4 + 1)).map (fun parent =>
      hashNode H fun i : Fin 4 => t.childHash (m + 1) s (4 * parent + i)) =
      (List.range' (s.lo / 4) (s.hi / 4 - s.lo / 4 + 1)).map (refNode H leaves (m + 1)) := by
    refine List.map_congr_left fun parent hp => ?_
    have hparent : parent ≤ (leaves.length - 1) / 4 ^ (m + 1) := by
      rw [← hhi]
      have := List.mem_range'_1.1 hp
      omega
    have hcover : parent * 4 ^ (m + 1) < leaves.length := by
      have := (Nat.le_div_iff_mul_le (Nat.pow_pos (by omega))).1 hparent
      omega
    -- The parent covers a leaf, so it is the hash of its children and not missing.
    rw [refNode, subtree_succ hcover]
    congr 1
    funext i
    exact childHash_eq hleaf hbase hm h _
  refine ⟨hlo, hhi, hashes, fun l i => ?_⟩
  -- Where this level writes nothing, the invariant of the level below already says it all.
  have unwritten : ¬ (l = m + 1 ∧ m + 1 < depth) →
      ((1 ≤ l ∧ l ≤ m ∧ l < depth ∧ start / 4 ^ l ≤ i ∧ i ≤ (leaves.length - 1) / 4 ^ l) ↔
        (1 ≤ l ∧ l ≤ m + 1 ∧ l < depth ∧ start / 4 ^ l ≤ i ∧ i ≤ (leaves.length - 1) / 4 ^ l)) := by
    omega
  simp only [ZkTree.updateLevel, hashes]
  by_cases hd : m + 1 < depth
  · rw [if_pos hd, writeNodes_apply, List.length_map, List.length_range', h.node_eq]
    by_cases hl : l = m + 1
    · subst hl
      rw [← hlo, ← hhi]
      by_cases hin : s.lo / 4 ≤ i ∧ i ≤ s.hi / 4
      · rw [if_pos ⟨rfl, hin.1, by omega⟩, if_pos ⟨by omega, le_rfl, hd, hin⟩, List.getElem?_map,
          List.getElem?_range' (by omega)]
        simp only [Option.map_some, Option.some.injEq]
        congr 1
        omega
      · rw [if_neg (by omega), if_neg (by omega), if_neg (by omega)]
    · rw [if_neg (by omega)]
      simp only [unwritten (by omega)]
  · -- The top level is the root, which is not a stored node.
    rw [if_neg hd, h.node_eq]
    simp only [unwritten (by omega)]

/-- The leaves themselves are the dirty interval of level 0. -/
theorem RangeInv.initial (hstart : start < leaves.length)
    (hleaf : ∀ i, t.getLeafHash i = refNode H leaves 0 i) :
    RangeInv H leaves base start depth 0
      ⟨base, start, leaves.length - 1,
        (List.range' start (leaves.length - start)).map t.getLeafHash⟩ where
  lo_eq := by simp
  hi_eq := by simp
  hashes_eq := by
    rw [show leaves.length - 1 - start + 1 = leaves.length - start by omega]
    exact List.map_congr_left fun i _ => hleaf i
  node_eq l i := by rw [if_neg (by omega)]

/-- The whole pass, by induction on the levels done. -/
theorem RangeInv.run (hstart : start < leaves.length)
    (hleaf : ∀ i, t.getLeafHash i = refNode H leaves 0 i)
    (hbase : LeftFinal H leaves base start depth)
    (h : RangeInv H leaves base start depth 0 s) : ∀ m, m ≤ depth →
    RangeInv H leaves base start depth m ((List.range' 1 m).foldl (t.updateLevel H depth) s)
  | 0, _ => h
  | m + 1, hm => by
    rw [List.range'_concat, List.foldl_append, one_mul, Nat.add_comm 1 m]
    exact (RangeInv.run hstart hleaf hbase h m (by omega)).step hstart hleaf hbase (by omega)

end Pass

/-! ## Growing -/

theorem capacityAtDepth_eq {d : ℕ} (h : d ≤ circuitMaxTreeDepth) :
    capacityAtDepth d = capacity d := by
  unfold capacityAtDepth capacity
  split
  · rfl
  · have : 4 ^ d ≤ 4 ^ 20 := Nat.pow_le_pow_right (by omega) h
    exact Nat.min_eq_left (le_trans this (by decide))

/-- The growth loop stops at the least depth that fits. -/
theorem growDepth_least {n : ℕ} (hn : n ≤ capacity circuitMaxTreeDepth) :
    ∀ {rounds depth : ℕ}, depth ≤ circuitMaxTreeDepth → circuitMaxTreeDepth ≤ depth + rounds →
      (∀ d < depth, capacity d < n) →
      IsLeast {d | n ≤ capacity d} (ZkTree.growDepth n rounds depth)
  | 0, depth, hd, hr, hbelow => by
    -- Out of rounds means at the largest depth, which fits by assumption.
    obtain rfl : depth = circuitMaxTreeDepth := by omega
    exact ⟨hn, fun d hfit => not_lt.1 fun hlt => absurd (hbelow d hlt) (not_lt.2 hfit)⟩
  | rounds + 1, depth, hd, hr, hbelow => by
    rw [ZkTree.growDepth, capacityAtDepth_eq hd]
    split
    · next h =>
      refine growDepth_least hn (by omega) (by omega) fun d hlt => ?_
      rcases Nat.lt_succ_iff_lt_or_eq.1 hlt with hlt | rfl
      · exact hbelow d hlt
      · exact h.1
    · next h =>
      -- The loop stopped because the leaves fit, or at the largest depth.
      refine ⟨?_, fun d hfit => not_lt.1 fun hlt => absurd (hbelow d hlt) (not_lt.2 hfit)⟩
      by_contra hfit
      have hfull : depth = circuitMaxTreeDepth := by
        by_contra hne
        exact h ⟨not_le.1 hfit, by omega⟩
      exact hfit (hfull ▸ hn)

theorem leastDepth_le {n d : ℕ} (hn : n ≤ capacity circuitMaxTreeDepth)
    (h : IsLeast {d | n ≤ capacity d} d) : d ≤ circuitMaxTreeDepth := h.2 hn

theorem capacity_lt_of_lt_least {n d : ℕ} (h : IsLeast {d | n ≤ capacity d} d) {d' : ℕ}
    (hlt : d' < d) :
    capacity d' < n := by
  by_contra hfit
  exact absurd (h.2 (not_lt.1 hfit)) (not_le.2 hlt)

/-- Node storage after the old root has been parked, if the tree grows. -/
def grownNodes (t : ZkTree) (depth : ℕ) : NodeMap :=
  if t.depth < depth then t.growTree t.depth else t.nodes

theorem grownNodes_apply (t : ZkTree) (depth l i : ℕ) : grownNodes t depth (l, i) =
    if t.depth < depth ∧ t.depth ≠ 0 ∧ l = t.depth ∧ i = 0 then some t.root else t.nodes (l, i) := by
  unfold grownNodes ZkTree.growTree
  by_cases hd : t.depth < depth
  · by_cases h0 : t.depth = 0
    · simp [h0]
    · by_cases hli : (l, i) = (t.depth, 0)
      · obtain ⟨rfl, rfl⟩ := Prod.mk.inj hli
        simp [hd, h0]
      · rw [if_pos hd, if_neg h0, Function.update_of_ne hli, if_neg]
        rintro ⟨-, -, rfl, rfl⟩
        exact hli rfl
  · rw [if_neg hd, if_neg (by omega)]

section

variable (h : Folded H t leaves processed)
include h

/-- A full node of the old tree lies below its root or is the root itself. -/
theorem Folded.level_of_full {l i : ℕ}
    (hfull : (i + 1) * 4 ^ l ≤ processed) : l < t.depth ∨ (l = t.depth ∧ i = 0) := by
  have hcap : processed ≤ 4 ^ t.depth := le_trans h.depth_least.1 (capacity_le _)
  rcases lt_trichotomy l t.depth with hlt | rfl | hgt
  · exact .inl hlt
  · -- A second node of this level would need more leaves than the old tree can hold.
    refine .inr ⟨rfl, ?_⟩
    by_contra h0
    have htwo : 2 * 4 ^ t.depth ≤ (i + 1) * 4 ^ t.depth := Nat.mul_le_mul_right _ (by omega)
    have hpos : 0 < 4 ^ t.depth := Nat.pow_pos (by omega)
    omega
  · exfalso
    have hpow : 4 ^ t.depth < 4 ^ l := Nat.pow_lt_pow_right (by omega) hgt
    have hone : 1 * 4 ^ l ≤ (i + 1) * 4 ^ l := Nat.mul_le_mul_right _ (by omega)
    omega

/-- **What is left of the dirty interval was final before the pass.** Below the old depth it is a
stored full node; at the old depth it is the parked root; above, nothing is left of the interval. -/
theorem Folded.grownNodes_left {depth l i : ℕ} (hl : 1 ≤ l)
    (hd : l < depth) (hi : i < processed / 4 ^ l) :
    grownNodes t depth (l, i) = some (refNode H leaves l i) := by
  have hfull : (i + 1) * 4 ^ l ≤ processed := by
    have := (Nat.le_div_iff_mul_le (Nat.pow_pos (by omega) : 0 < 4 ^ l)).1 hi
    simpa using this
  -- The pending leaves are appended behind a full node, so they do not reach it.
  have hstable : refNode H leaves l i = refNode H (leaves.take processed) l i := by
    conv_lhs => rw [← List.take_append_drop processed leaves]
    exact subtree_append (by rw [List.length_take, Nat.min_eq_left h.processed_le]; exact hfull)
  have hlt : i * 4 ^ l < processed :=
    lt_of_lt_of_le (Nat.mul_lt_mul_of_pos_right (Nat.lt_succ_self i) (Nat.pow_pos (by omega))) hfull
  rw [hstable, grownNodes_apply]
  rcases h.level_of_full hfull with hbelow | ⟨rfl, rfl⟩
  · rw [if_neg (by omega), h.node_eq, if_pos ⟨hl, hbelow, hlt⟩]
  · rw [if_pos ⟨hd, by omega, rfl, rfl⟩, h.root_eq]

theorem Folded.leftFinal (depth : ℕ) : LeftFinal H leaves (grownNodes t depth) processed depth := by
  intro l i hl hd hi
  rw [ZkTree.getNodeHash, h.grownNodes_left hl hd hi]
  rfl

/-- A stored node of the grown tree that the pass does not rewrite. -/
theorem Folded.grownNodes_eq {depth l i : ℕ} (hgrow : t.depth ≤ depth)
    (hout : ¬ (1 ≤ l ∧ l < depth ∧ processed / 4 ^ l ≤ i ∧ i ≤ (leaves.length - 1) / 4 ^ l))
    (hpos : processed < leaves.length) :
    grownNodes t depth (l, i) =
      if 1 ≤ l ∧ l < depth ∧ i * 4 ^ l < leaves.length then some (refNode H leaves l i)
      else none := by
  have hpow : 0 < 4 ^ l := Nat.pow_pos (by omega)
  by_cases hin : 1 ≤ l ∧ l < depth ∧ i * 4 ^ l < leaves.length
  · -- Inside the tree and not rewritten: left of the interval, where storage is final.
    obtain ⟨hl, hd, hi⟩ := hin
    have hhi : i ≤ (leaves.length - 1) / 4 ^ l := (Nat.le_div_iff_mul_le hpow).2 (by omega)
    have hleft : i < processed / 4 ^ l := by
      by_contra hge
      exact hout ⟨hl, hd, not_lt.1 hge, hhi⟩
    rw [if_pos ⟨hl, hd, hi⟩]
    exact h.grownNodes_left hl hd hleft
  · -- Outside the new tree: the old one stored nothing there, and did not park its root there.
    rw [if_neg hin, grownNodes_apply, if_neg, h.node_eq, if_neg]
    · rintro ⟨hl, hd, hi⟩
      exact hin ⟨hl, by omega, by omega⟩
    · rintro ⟨hd, h0, rfl, rfl⟩
      exact hin ⟨by omega, hd, by omega⟩

/-- The pass computes the reference root and stores exactly the reference nodes below it. -/
theorem Folded.updateRange_eq {depth : ℕ}
    (hgrow : t.depth ≤ depth) (hlt : processed < leaves.length) (hfits : leaves.length ≤ 4 ^ depth) :
    let updated := ZkTree.updateRange H { t with nodes := grownNodes t depth } processed
      leaves.length depth
    updated.2 = refNode H leaves depth 0 ∧
      ∀ l i, updated.1 (l, i) =
        if 1 ≤ l ∧ l < depth ∧ i * 4 ^ l < leaves.length then some (refNode H leaves l i)
        else none := by
  have top := RangeInv.run (t := { t with nodes := grownNodes t depth }) hlt h.getLeafHash_eq
    (h.leftFinal depth)
    (RangeInv.initial (t := { t with nodes := grownNodes t depth }) hlt h.getLeafHash_eq) depth le_rfl
  constructor
  · -- At the top the interval is the single node 0.
    simp only [ZkTree.updateRange]
    rw [top.hashes_eq, top.lo_eq, top.hi_eq, Nat.div_eq_of_lt (by omega),
      Nat.div_eq_of_lt (by omega)]
    rfl
  · intro l i
    simp only [ZkTree.updateRange]
    rw [top.node_eq]
    have hpow : 0 < 4 ^ l := Nat.pow_pos (by omega)
    split
    · next hin =>
      -- Written by the pass.
      have : i * 4 ^ l < leaves.length := by
        have := (Nat.le_div_iff_mul_le hpow).1 hin.2.2.2.2
        omega
      rw [if_pos ⟨hin.1, hin.2.2.1, this⟩]
    · next hout => exact h.grownNodes_eq hgrow (by omega) hlt

/-- **Folding the pending leaves.** -/
theorem Folded.process (hn : leaves.length ≤ capacity circuitMaxTreeDepth) :
    Folded H (t.processPendingLeaves H) leaves leaves.length := by
  have hpend := h.pending_eq
  by_cases h0 : t.unprocessedLeaves = 0
  · -- Nothing is pending and nothing is written.
    obtain rfl : processed = leaves.length := by omega
    simpa [ZkTree.processPendingLeaves, h0] using h
  · have hstart : leaves.length - t.unprocessedLeaves = processed := by omega
    have hlt : processed < leaves.length := by omega
    have hleast : IsLeast {d | leaves.length ≤ capacity d}
        (ZkTree.growDepth leaves.length circuitMaxTreeDepth t.depth) :=
      growDepth_least hn (leastDepth_le (le_trans h.processed_le hn) h.depth_least) (by omega)
        fun d hd => lt_of_lt_of_le (capacity_lt_of_lt_least h.depth_least hd) h.processed_le
    simp only [ZkTree.processPendingLeaves, h0, if_false, h.count_eq, hstart]
    -- From here on the new depth matters only through being the least that fits.
    generalize ZkTree.growDepth leaves.length circuitMaxTreeDepth t.depth = depth at hleast
    obtain ⟨hroot, hnodes⟩ := h.updateRange_eq
      (h.depth_least.2 (le_trans h.processed_le hleast.1)) hlt
      (le_trans hleast.1 (capacity_le _))
    rw [← grownNodes]
    exact {
      leaf_eq := h.leaf_eq
      count_eq := rfl
      pending_eq := by simp
      depth_least := hleast
      root_eq := by simpa [h.count_eq] using hroot
      node_eq := by simpa [h.count_eq] using hnodes }

end

end Qnero
