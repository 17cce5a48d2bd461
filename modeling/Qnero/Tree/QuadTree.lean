import Mathlib.Algebra.Order.Group.Nat
import Mathlib.Logic.Relation
import Mathlib.Order.Bounds.Basic
import Mathlib.Tactic.Ring

/-!
# Quaternary trees over a list

A list of leaves spans a tree of every depth: node `(level, index)` covers the leaves
`[index·4^level, (index+1)·4^level)`. A node that covers no leaf is *missing* and reads as `zero`;
every other inner node is the hash of its four children, missing ones included. Nothing is assumed
of the hash.

* `subtree` — the value of a node, by recursion on its level.
* `subtree_append` — appending leaves does not touch a node whose range was already full. This is
  what makes an incremental update possible.
* `mem_of_climb` — membership: whatever climbs to a node of the tree by child-to-parent steps was a
  leaf, as long as a parent determines its children.
-/

namespace Qnero.QuadTree

variable {α : Type} (zero : α) (node : (Fin 4 → α) → α)

/-- The value of node `(level, index)` of the tree over `leaves`. -/
def subtree (leaves : List α) : ℕ → ℕ → α
  | 0, index => leaves[index]?.getD zero
  | level + 1, index =>
    if index * 4 ^ (level + 1) < leaves.length then
      node fun j => subtree leaves level (4 * index + j)
    else zero

/-- Leaves that fit under a tree of the given depth; a tree of depth 0 holds none. -/
def capacity (depth : ℕ) : ℕ := if depth = 0 then 0 else 4 ^ depth

theorem capacity_le (depth : ℕ) : capacity depth ≤ 4 ^ depth := by
  unfold capacity
  split
  · exact Nat.zero_le _
  · exact le_rfl

variable {zero node} {leaves : List α} {level index : ℕ}

/-- A node right of the last leaf is missing. -/
theorem subtree_eq_zero (h : leaves.length ≤ index * 4 ^ level) :
    subtree zero node leaves level index = zero := by
  cases level with
  | zero => simp [subtree, List.getElem?_eq_none (show leaves.length ≤ index by simpa using h)]
  | succ level => rw [subtree, if_neg (by omega)]

theorem subtree_succ (h : index * 4 ^ (level + 1) < leaves.length) :
    subtree zero node leaves (level + 1) index =
      node fun j => subtree zero node leaves level (4 * index + j) := by
  rw [subtree, if_pos h]

/-- The parent of a node that covers a leaf covers one. -/
theorem parent_covers {n : ℕ} (h : index * 4 ^ level < n) : index / 4 * 4 ^ (level + 1) < n := by
  refine lt_of_le_of_lt ?_ h
  rw [pow_succ', ← mul_assoc]
  exact Nat.mul_le_mul_right _ (Nat.div_mul_le_self index 4)

/-- **A full node is final.** -/
theorem subtree_append {more : List α} (h : (index + 1) * 4 ^ level ≤ leaves.length) :
    subtree zero node (leaves ++ more) level index = subtree zero node leaves level index := by
  induction level generalizing index with
  | zero =>
    have hi : index < leaves.length := by omega
    simp [subtree, List.getElem?_append_left hi]
  | succ level ih =>
    have hlt : index * 4 ^ (level + 1) < leaves.length :=
      lt_of_lt_of_le (Nat.mul_lt_mul_of_pos_right (Nat.lt_succ_self _) (Nat.pow_pos (by omega))) h
    rw [subtree_succ hlt, subtree_succ (by rw [List.length_append]; omega)]
    congr 1
    funext j
    refine ih ?_
    calc (4 * index + j + 1) * 4 ^ level ≤ (4 * (index + 1)) * 4 ^ level :=
          Nat.mul_le_mul_right _ (by omega)
      _ = (index + 1) * 4 ^ (level + 1) := by ring
      _ ≤ leaves.length := h

/-- A map of the values that commutes with the hash commutes with the tree. -/
theorem subtree_map {β : Type} {zero' : β} {node' : (Fin 4 → β) → β} (f : α → β)
    (hzero : f zero = zero') (hnode : ∀ c, f (node c) = node' fun j => f (c j)) :
    f (subtree zero node leaves level index) = subtree zero' node' (leaves.map f) level index := by
  induction level generalizing index with
  | zero =>
    rw [subtree, subtree, List.getElem?_map]
    cases leaves[index]? with
    | none => exact hzero
    | some leaf => rfl
  | succ level ih =>
    rw [subtree, subtree, List.length_map]
    split
    · rw [hnode]
      congr 1
      funext j
      exact ih
    · exact hzero

/-! ## Membership -/

/-- **What climbs into the tree was a leaf.** `Below x y` says that `x` was hashed as a child of
`y`. If a node of the tree is above its own children only, no leaf is above anything, and the
starting value is neither missing nor an inner node, then climbing from it to a node of the tree
starts at a leaf. The number of steps is free: it need not be the level of the node. -/
theorem mem_of_climb {Below : α → α → Prop} {depth : ℕ} {c : α}
    (hnode : ∀ l i x, l < depth → i * 4 ^ (l + 1) < leaves.length →
      Below x (subtree zero node leaves (l + 1) i) →
      ∃ j : Fin 4, x = subtree zero node leaves l (4 * i + j))
    (hleaf : ∀ y ∈ leaves, ∀ x, ¬ Below x y)
    (hinner : ∀ l i, l < depth → i * 4 ^ (l + 1) < leaves.length →
      c ≠ subtree zero node leaves (l + 1) i)
    (hzero : ∀ x, ¬ Below x zero) (hc : c ≠ zero)
    (hlevel : level ≤ depth)
    (h : Relation.ReflTransGen Below c (subtree zero node leaves level index)) : c ∈ leaves := by
  -- Downwards from the node: its last step names a child, and the climb to that child is shorter.
  induction level generalizing index with
  | zero =>
    by_cases hi : index < leaves.length
    · have hmem : subtree zero node leaves 0 index ∈ leaves := by
        simp [subtree, List.getElem?_eq_getElem hi]
      rcases h.cases_tail with heq | ⟨x, -, hx⟩
      · exact heq ▸ hmem
      · exact absurd hx (hleaf _ hmem x)
    · rw [subtree_eq_zero (by simpa using hi)] at h
      rcases h.cases_tail with heq | ⟨x, -, hx⟩
      · exact absurd heq.symm hc
      · exact absurd hx (hzero x)
  | succ level ih =>
    by_cases hi : index * 4 ^ (level + 1) < leaves.length
    · rcases h.cases_tail with heq | ⟨x, hcx, hx⟩
      · exact absurd heq.symm (hinner level index (by omega) hi)
      · obtain ⟨j, rfl⟩ := hnode level index x (by omega) hi hx
        exact ih (by omega) hcx
    · rw [subtree_eq_zero (by omega)] at h
      rcases h.cases_tail with heq | ⟨x, -, hx⟩
      · exact absurd heq.symm hc
      · exact absurd hx (hzero x)

end Qnero.QuadTree
