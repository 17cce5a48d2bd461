import Qnero.Tree.QuadTree
import Mathlib.Data.List.FinRange
import Mathlib.Data.List.Perm.Basic

/-!
# What a root pins

A node that forgets the order of its children cannot tell which of them a leaf is under, only that
it is under this node. If node values determine their children up to order, no leaf is a node value
and nothing but a missing node is zero, then two trees of one root are one tree up to the order of
the children at each node (`Reordered`, `reordered_of_root_eq`), and so their leaves are permutations
of each other. Without the second condition not even the number of leaves is pinned, since four
leaves can be replaced by their parent.
-/

namespace Qnero.QuadTree

variable {α : Type} {zero : α} {node : (Fin 4 → α) → α}

/-- The leaves under a node. -/
def below (leaves : List α) (level index : ℕ) : List α :=
  (leaves.drop (index * 4 ^ level)).take (4 ^ level)

theorem below_zero (leaves : List α) (index : ℕ) : below leaves 0 index = leaves[index]?.toList := by
  rw [below, pow_zero, mul_one, List.take_one, List.head?_drop]

theorem below_succ (leaves : List α) (level index : ℕ) : below leaves (level + 1) index =
    (List.ofFn fun j : Fin 4 => below leaves level (4 * index + j)).flatten := by
  have width : 4 ^ (level + 1) = 4 ^ level + (4 ^ level + (4 ^ level + 4 ^ level)) := by ring
  have start : ∀ j : ℕ, (4 * index + j) * 4 ^ level = index * 4 ^ (level + 1) + j * 4 ^ level := by
    intro j
    ring
  simp only [below, start, List.ofFn_succ, List.ofFn_zero, List.flatten_cons, List.flatten_nil,
    List.append_nil]
  rw [width, List.take_add, List.take_add, List.take_add]
  simp only [List.drop_drop]
  congr 1
  · simp
  congr 1
  · simp
  congr 1
  · congr 2
    simp
    ring
  · congr 2
    simp
    ring

/-- **The same leaves up to the order of children**, under two nodes of one level: the children can be
paired off, and the leaves under every pair are the same in this sense. -/
def Reordered (A B : List α) : ℕ → ℕ → ℕ → Prop
  | 0, i, j => A[i]? = B[j]?
  | level + 1, i, j => ∃ order : List (Fin 4), order.Perm (List.finRange 4) ∧
      List.Forall₂ (fun s t : Fin 4 => Reordered A B level (4 * i + s) (4 * j + t))
        (List.finRange 4) order

theorem child_missing {leaves : List α} {level index : ℕ} (s : Fin 4)
    (out : leaves.length ≤ index * 4 ^ (level + 1)) :
    leaves.length ≤ (4 * index + s) * 4 ^ level := by
  calc leaves.length ≤ index * 4 ^ (level + 1) := out
    _ = 4 * index * 4 ^ level := by ring
    _ ≤ (4 * index + s) * 4 ^ level := Nat.mul_le_mul_right _ (Nat.le_add_right ..)

theorem reordered_of_missing {A B : List α} {level i j : ℕ} (outA : A.length ≤ i * 4 ^ level)
    (outB : B.length ≤ j * 4 ^ level) : Reordered A B level i j := by
  induction level generalizing i j with
  | zero =>
    rw [Reordered, List.getElem?_eq_none (by simpa using outA), List.getElem?_eq_none (by simpa using outB)]
  | succ level ih =>
    exact ⟨_, .refl _, List.forall₂_same.2 fun s _ => ih (child_missing s outA) (child_missing s outB)⟩

theorem Reordered.perm {A B : List α} {level i j : ℕ} (same : Reordered A B level i j) :
    (below A level i).Perm (below B level j) := by
  induction level generalizing i j with
  | zero =>
    rw [below_zero, below_zero]
    exact .of_eq (congrArg Option.toList same)
  | succ level ih =>
    obtain ⟨order, perm, pairs⟩ := same
    rw [below_succ, below_succ, List.ofFn_eq_map, List.ofFn_eq_map, ← List.flatMap_def,
      ← List.flatMap_def]
    refine .trans ?_ (perm.flatMap_right _)
    clear perm
    generalize List.finRange 4 = children at pairs ⊢
    induction pairs with
    | nil => exact .refl _
    | cons head _ rest => exact (ih head).append rest

/-- The children of a node. -/
def kids (zero : α) (node : (Fin 4 → α) → α) (leaves : List α) (level index : ℕ) : Fin 4 → α :=
  fun j => subtree zero node leaves level (4 * index + j)

/-- A node hash that determines the children in `P` up to order, and none of them to zero. -/
structure Pins (zero : α) (node : (Fin 4 → α) → α) (P : (Fin 4 → α) → Prop) : Prop where
  perm : ∀ a b, P a → P b → node a = node b → (List.ofFn a).Perm (List.ofFn b)
  ne_zero : ∀ a, P a → node a ≠ zero

/-- A tree whose nodes have children in `P` and whose leaves are no node values. -/
structure Fresh (zero : α) (node : (Fin 4 → α) → α) (P : (Fin 4 → α) → Prop) (depth : ℕ)
    (leaves : List α) : Prop where
  kids : ∀ level index, level < depth → index * 4 ^ (level + 1) < leaves.length →
    P (kids zero node leaves level index)
  ne_zero : ∀ x ∈ leaves, x ≠ zero
  ne_node : ∀ x ∈ leaves, ∀ c, P c → x ≠ node c

variable {P : (Fin 4 → α) → Prop} {A B : List α} {d e level index : ℕ}

theorem Fresh.subtree_ne_zero (pins : Pins zero node P) (fresh : Fresh zero node P d A)
    (le : level ≤ d) (covers : index * 4 ^ level < A.length) :
    subtree zero node A level index ≠ zero := by
  cases level with
  | zero =>
    have lt : index < A.length := by simpa using covers
    rw [subtree, List.getElem?_eq_getElem lt]
    exact fresh.ne_zero _ (List.getElem_mem lt)
  | succ level =>
    rw [subtree_succ covers]
    exact pins.ne_zero _ (fresh.kids level index le covers)

/-- A leaf is no node of a fresh tree. -/
theorem Fresh.leaf_ne (fresh : Fresh zero node P d A) (other : Fresh zero node P e B) {x : α}
    (mem : x ∈ A) (le : level < e) (covers : index * 4 ^ (level + 1) < B.length) :
    x ≠ subtree zero node B (level + 1) index := by
  rw [subtree_succ covers]
  exact fresh.ne_node x mem _ (other.kids level index le covers)

/-- **Equal nodes are at one height, over the same leaves up to the order of children.** -/
theorem reordered_of_eq (pins : Pins zero node P) (freshA : Fresh zero node P d A)
    (freshB : Fresh zero node P e B) : ∀ {l m i j : ℕ}, l ≤ d → m ≤ e → i * 4 ^ l < A.length →
      j * 4 ^ m < B.length → subtree zero node A l i = subtree zero node B m j →
      l = m ∧ Reordered A B l i j
  | 0, 0, i, j, _, _, hi, hj, eq => by
    have hi' : i < A.length := by simpa using hi
    have hj' : j < B.length := by simpa using hj
    rw [subtree, subtree, List.getElem?_eq_getElem hi', List.getElem?_eq_getElem hj'] at eq
    rw [Reordered, List.getElem?_eq_getElem hi', List.getElem?_eq_getElem hj']
    exact ⟨rfl, congrArg some eq⟩
  | 0, m + 1, i, j, _, hm, hi, hj, eq => by
    have hi' : i < A.length := by simpa using hi
    refine absurd eq (freshA.leaf_ne freshB ?_ hm hj)
    rw [subtree, List.getElem?_eq_getElem hi']
    exact List.getElem_mem hi'
  | l + 1, 0, i, j, hl, _, hi, hj, eq => by
    have hj' : j < B.length := by simpa using hj
    refine absurd eq.symm (freshB.leaf_ne freshA ?_ hl hi)
    rw [subtree, List.getElem?_eq_getElem hj']
    exact List.getElem_mem hj'
  | l + 1, m + 1, i, j, hl, hm, hi, hj, eq => by
    rw [subtree_succ hi, subtree_succ hj] at eq
    have perm := pins.perm _ _ (freshA.kids l i hl hi) (freshB.kids m j hm hj) eq
    -- A missing child has no leaves; one that is there is matched with one that is there.
    have matched : ∀ s t : Fin 4, kids zero node A l i s = kids zero node B m j t →
        (4 * i + s) * 4 ^ l < A.length → l = m ∧ Reordered A B l (4 * i + s) (4 * j + t) := by
      intro s t same covers
      have here := freshA.subtree_ne_zero pins (by omega) covers
      refine reordered_of_eq pins freshA freshB (by omega) (by omega) covers ?_ same
      refine Nat.lt_of_not_le fun out => here ?_
      exact same.trans (subtree_eq_zero out)
    have first : (4 * i + (0 : Fin 4)) * 4 ^ l < A.length := by
      calc (4 * i + (0 : Fin 4)) * 4 ^ l = i * 4 ^ (l + 1) := by simp; ring
        _ < A.length := hi
    obtain ⟨t, same⟩ := List.mem_ofFn.1 (perm.mem_iff.1 (List.mem_ofFn.2 ⟨0, rfl⟩))
    obtain rfl := (matched 0 t same.symm first).1
    -- The order in which the children of the second node are the children of the first.
    have named : List.Forall₂ (fun x t => x = kids zero node B l j t)
        (List.ofFn (kids zero node B l j)) (List.finRange 4) := by
      rw [List.ofFn_eq_map, List.forall₂_map_left_iff, List.forall₂_same]
      exact fun _ _ => rfl
    obtain ⟨order, pairs, reorders⟩ := List.perm_comp_forall₂ perm named
    rw [List.ofFn_eq_map, List.forall₂_map_left_iff] at pairs
    refine ⟨rfl, order, reorders, pairs.imp fun s t same => ?_⟩
    by_cases covers : (4 * i + s) * 4 ^ l < A.length
    · exact (matched s t same covers).2
    · have missing : kids zero node B l j t = zero :=
        same.symm.trans (subtree_eq_zero (Nat.not_lt.1 covers))
      have out : B.length ≤ (4 * j + t) * 4 ^ l := Nat.le_of_not_lt fun covered =>
        freshB.subtree_ne_zero pins (by omega) covered missing
      exact reordered_of_missing (Nat.not_lt.1 covers) out

/-- **A root pins the leaves, up to the order of the children at each node.** -/
theorem reordered_of_root_eq (pins : Pins zero node P) (freshA : Fresh zero node P d A)
    (freshB : Fresh zero node P e B) (fitsA : A.length ≤ 4 ^ d) (fitsB : B.length ≤ 4 ^ e)
    (eq : subtree zero node A d 0 = subtree zero node B e 0) : Reordered A B d 0 0 ∧ A.Perm B := by
  have whole : ∀ {l : List α} {k : ℕ}, l.length ≤ 4 ^ k → below l k 0 = l := by
    intro l k fits
    rw [below, Nat.zero_mul, List.drop_zero, List.take_of_length_le fits]
  by_cases emptyA : A = []
  · subst emptyA
    by_cases emptyB : B = []
    · subst emptyB
      exact ⟨reordered_of_missing (by simp) (by simp), .nil⟩
    · have posB : 0 * 4 ^ e < B.length := by simpa using List.length_pos_iff.2 emptyB
      refine absurd ?_ (freshB.subtree_ne_zero pins le_rfl posB)
      rw [← eq]
      exact subtree_eq_zero (by simp)
  · have posA : 0 * 4 ^ d < A.length := by simpa using List.length_pos_iff.2 emptyA
    have posB : 0 * 4 ^ e < B.length := Nat.lt_of_not_le fun out =>
      freshA.subtree_ne_zero pins le_rfl posA (eq.trans (subtree_eq_zero out))
    obtain ⟨rfl, same⟩ := reordered_of_eq pins freshA freshB le_rfl le_rfl posA posB eq
    have perm := same.perm
    rw [whole fitsA, whole fitsB] at perm
    exact ⟨same, perm⟩

end Qnero.QuadTree
