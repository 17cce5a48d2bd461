import Qnero.Tree.QuadTree
import Mathlib.Data.List.GetD

/-!
# A quaternary tree, level by level

The tree over a list can be built bottom up: cut a level into groups of four, hash each group, and
go on with the list of parents. A level built so has no entry for a missing node, so it is shorter
than the level of the reference tree and reads as `zero` beyond its end; `getElem?_iterate_parents`
says that this is the only difference.
-/

namespace Qnero.QuadTree

variable {α : Type} (zero : α) (node : (Fin 4 → α) → α)

/-- Groups of four, the last one of what is left. -/
def chunks : List α → List (List α)
  | [] => []
  | a :: b :: c :: d :: rest => [a, b, c, d] :: chunks rest
  | few => [few]

/-- The nodes above a level. -/
def parents (below : List α) : List α :=
  (chunks below).map fun chunk => node fun j => chunk[j.val]?.getD zero

/-- The `depth` levels above `below`, lowest first. -/
def levels : ℕ → List α → List (List α)
  | 0, below => [below]
  | depth + 1, below => below :: levels depth (parents zero node below)

variable {zero node} {leaves : List α}

theorem getElem?_chunks (l : List α) (i : ℕ) :
    (chunks l)[i]? = if 4 * i < l.length then some ((l.drop (4 * i)).take 4) else none := by
  induction l using chunks.induct generalizing i with
  | case1 => simp [chunks]
  | case2 a b c d rest ih =>
    cases i with
    | zero => simp [chunks]
    | succ i =>
      have shift : (a :: b :: c :: d :: rest).drop (4 * (i + 1)) = rest.drop (4 * i) := by
        rw [show 4 * (i + 1) = 4 * i + 4 by ring]
        rfl
      rw [chunks, List.getElem?_cons_succ, ih, shift]
      exact if_congr (by simp only [List.length_cons]; omega) rfl rfl
  | case3 few nonempty short =>
    have eq : chunks few = [few] := by
      rw [chunks]
      · exact nonempty
      · exact short
    have pos : 0 < few.length := List.length_pos_iff.2 nonempty
    have lt : few.length < 4 := by
      match few, short with
      | a :: b :: c :: d :: rest, short => exact (short a b c d rest rfl).elim
      | [], _ | [_], _ | [_, _], _ | [_, _, _], _ => simp
    cases i with
    | zero => simp [eq, pos, List.take_of_length_le lt.le]
    | succ i =>
      rw [eq, if_neg (by omega)]
      rfl

theorem getElem?_parents (below : List α) (i : ℕ) : (parents zero node below)[i]? =
    if 4 * i < below.length then some (node fun j => below[4 * i + j.val]?.getD zero) else none := by
  rw [parents, List.getElem?_map, getElem?_chunks]
  split
  · rw [Option.map_some]
    congr 2
    funext j
    rw [List.getElem?_take_of_lt j.isLt, List.getElem?_drop]
  · rfl

theorem getElem?_levels {depth level : ℕ} (h : level ≤ depth) :
    (levels zero node depth leaves)[level]? = some ((parents zero node)^[level] leaves) := by
  induction depth generalizing level leaves with
  | zero =>
    obtain rfl : level = 0 := by omega
    rfl
  | succ depth ih =>
    cases level with
    | zero => rfl
    | succ level =>
      rw [levels, List.getElem?_cons_succ, ih (by omega), Function.iterate_succ_apply]

/-- **A level lists the nodes that are not missing.** -/
theorem getElem?_iterate_parents (level i : ℕ) : ((parents zero node)^[level] leaves)[i]? =
    if i * 4 ^ level < leaves.length then some (subtree zero node leaves level i) else none := by
  induction level generalizing i with
  | zero =>
    by_cases h : i < leaves.length
    · simp [subtree, h]
    · simp [h]
  | succ level ih =>
    have below : 4 * i < ((parents zero node)^[level] leaves).length ↔
        i * 4 ^ (level + 1) < leaves.length := by
      have shift : 4 * i * 4 ^ level = i * 4 ^ (level + 1) := by ring
      rw [← not_iff_not, not_lt, ← List.getElem?_eq_none_iff, ih, shift]
      simp
    rw [Function.iterate_succ_apply', getElem?_parents]
    by_cases h : i * 4 ^ (level + 1) < leaves.length
    · rw [if_pos (below.2 h), if_pos h, subtree_succ h]
      congr 2
      funext j
      rw [ih]
      split
      · rfl
      · next out => exact (subtree_eq_zero (by omega)).symm
    · rw [if_neg (fun lt => h (below.1 lt)), if_neg h]

end Qnero.QuadTree
