import Qnero.Tree.QuadTree
import Mathlib.Data.List.GetD

/-!
# The frontier of a quaternary tree

A tree that only grows can be kept as its frontier: at each level the completed nodes whose parent
is still being filled, at most three of them. `carry` appends a node and passes a completed parent
upward; `rootAt` folds the frontier, with the missing children zero. The invariant is that level
`l` holds exactly the nodes `completed` lists, and both operations are read off it: one step of
`carry` for an append, one step of `foldLevel` for a root.
-/

namespace Qnero.QuadTree

variable {α : Type} (zero : α) (node : (Fin 4 → α) → α)

/-- Four children, the missing ones zero. -/
def padded (nodes : List α) : Fin 4 → α := fun j => nodes.getD j zero

/-- Append a completed node to a level; the levels above it follow in order. -/
def carry (x : α) : List (List α) → List (List α)
  | [] => [[x]]
  | nodes :: above =>
    if (nodes ++ [x]).length = 4 then [] :: carry (node (padded zero (nodes ++ [x]))) above
    else (nodes ++ [x]) :: above

/-- One level of the fold: the node that is being filled there, if any. -/
def foldLevel (nodes : List α) (below : Option α) : Option α :=
  if nodes.isEmpty && below.isNone then none
  else some (node (padded zero (nodes ++ below.toList)))

/-- The node being filled above the first `depth` levels. -/
def foldLevels (levels : List (List α)) : ℕ → Option α
  | 0 => none
  | depth + 1 => foldLevel zero node (levels.getD depth []) (foldLevels levels depth)

/-- The root at a depth: the node being filled there, or the last one completed. -/
def rootAt (levels : List (List α)) (depth : ℕ) : Option α :=
  (foldLevels zero node levels depth).or (levels.getD depth []).head?

/-- The completed nodes of a level whose parent is not completed. -/
def completed (leaves : List α) (level : ℕ) : List α :=
  (List.range (leaves.length / 4 ^ level % 4)).map fun j =>
    subtree zero node leaves level (4 * (leaves.length / 4 ^ (level + 1)) + j)

variable {zero node} {leaves : List α} {level : ℕ}

theorem length_completed :
    (completed zero node leaves level).length = leaves.length / 4 ^ level % 4 := by
  simp [completed]

/-- The completed nodes with the rest of their level: those of the parent that is being filled. -/
theorem padded_completed (j : Fin 4) (h : j < leaves.length / 4 ^ level % 4) (more : List α) :
    padded zero (completed zero node leaves level ++ more) j =
      subtree zero node leaves level (4 * (leaves.length / 4 ^ (level + 1)) + j) := by
  rw [padded, List.getD_append _ _ _ _ (by rw [length_completed]; exact h), completed,
    List.getD_eq_getElem _ _ (by simpa using h), List.getElem_map, List.getElem_range]

/-- A level has four times the nodes of the next, and the completed ones. -/
theorem div_pow_eq (n level : ℕ) : n / 4 ^ level = 4 * (n / 4 ^ (level + 1)) + n / 4 ^ level % 4 := by
  have next : n / 4 ^ (level + 1) = n / 4 ^ level / 4 := by rw [pow_succ, Nat.div_div_eq_div_mul]
  omega

/-! ## Appending -/

section Append

variable {leaf : α}

/-- A level keeps its nodes where no node of it is completed. -/
theorem completed_append_of_not_dvd (h : ¬ 4 ^ level ∣ leaves.length + 1) :
    completed zero node (leaves ++ [leaf]) level = completed zero node leaves level := by
  have above : ¬ 4 ^ (level + 1) ∣ leaves.length + 1 := fun dvd =>
    h (dvd_trans (pow_dvd_pow 4 (Nat.le_succ level)) dvd)
  have count := div_pow_eq leaves.length level
  have length : (leaves ++ [leaf]).length = leaves.length + 1 := by simp
  rw [completed, completed, length, Nat.succ_div_of_not_dvd h, Nat.succ_div_of_not_dvd above]
  refine List.map_congr_left fun j hj => subtree_append ?_
  rw [List.mem_range] at hj
  exact le_trans (Nat.mul_le_mul_right _ (by omega)) (Nat.div_mul_le_self leaves.length (4 ^ level))

variable (zero node) in
/-- A level with the node that the new leaf completes at it. -/
def joined (leaves : List α) (leaf : α) (level : ℕ) : List α :=
  completed zero node leaves level ++
    [subtree zero node (leaves ++ [leaf]) level (leaves.length / 4 ^ level)]

theorem length_joined :
    (joined zero node leaves leaf level).length = leaves.length / 4 ^ level % 4 + 1 := by
  rw [joined, List.length_append, length_completed, List.length_singleton]

/-- Its nodes are those of the tree over the longer list. -/
theorem getD_joined {j : ℕ} (hj : j ≤ leaves.length / 4 ^ level % 4) :
    (joined zero node leaves leaf level).getD j zero =
      subtree zero node (leaves ++ [leaf]) level (4 * (leaves.length / 4 ^ (level + 1)) + j) := by
  have count := div_pow_eq leaves.length level
  rcases Nat.lt_or_eq_of_le hj with old | rfl
  · have index : j < 4 := lt_trans old (Nat.mod_lt _ (by decide))
    refine (padded_completed ⟨j, index⟩ old _).trans (subtree_append ?_).symm
    exact le_trans (Nat.mul_le_mul_right _ (by dsimp only; omega))
      (Nat.div_mul_le_self leaves.length (4 ^ level))
  · rw [joined, List.getD_append_right _ _ _ _ (by rw [length_completed]), length_completed,
      Nat.sub_self, ← count]
    rfl

section

variable (h : 4 ^ level ∣ leaves.length + 1)
include h

/-- Where the leaf completes a node, it completes the parent with the fourth of its children. -/
theorem dvd_succ_level :
    4 ^ (level + 1) ∣ leaves.length + 1 ↔ leaves.length / 4 ^ level % 4 = 3 := by
  rw [pow_succ, ← Nat.dvd_div_iff_mul_dvd h, Nat.succ_div_of_dvd h]
  omega

theorem completed_of_full (full : 4 ^ (level + 1) ∣ leaves.length + 1) :
    completed zero node (leaves ++ [leaf]) level = [] := by
  have three := (dvd_succ_level h).1 full
  rw [← List.length_eq_zero_iff, length_completed, List.length_append, List.length_singleton,
    Nat.succ_div_of_dvd h]
  omega

theorem node_joined (full : 4 ^ (level + 1) ∣ leaves.length + 1) :
    node (padded zero (joined zero node leaves leaf level)) =
      subtree zero node (leaves ++ [leaf]) (level + 1) (leaves.length / 4 ^ (level + 1)) := by
  have three := (dvd_succ_level h).1 full
  rw [subtree_succ]
  · congr 1
    funext j
    exact getD_joined (by omega)
  · rw [List.length_append, List.length_singleton]
    exact Nat.lt_succ_of_le (Nat.div_mul_le_self ..)

theorem completed_of_open (part : ¬ 4 ^ (level + 1) ∣ leaves.length + 1) :
    completed zero node (leaves ++ [leaf]) level = joined zero node leaves leaf level := by
  have small := mt (dvd_succ_level h).2 part
  have length : (completed zero node (leaves ++ [leaf]) level).length =
      leaves.length / 4 ^ level % 4 + 1 := by
    rw [length_completed, List.length_append, List.length_singleton, Nat.succ_div_of_dvd h]
    omega
  refine List.ext_getElem (length.trans length_joined.symm) fun j hj hj' => ?_
  have value : (joined zero node leaves leaf level).getD j zero = _ := getD_joined (by omega)
  rw [List.getD_eq_getElem _ _ hj'] at value
  rw [value]
  simp only [completed, List.getElem_map, List.getElem_range, List.length_append,
    List.length_singleton, Nat.succ_div_of_not_dvd part]

/-- **A carry keeps the frontier.** From a level the new leaf completes a node at, the levels up. -/
theorem carry_completed {levels : List (List α)}
    (held : ∀ k, levels.getD k [] = completed zero node leaves (level + k)) (k : ℕ) :
    (carry zero node (subtree zero node (leaves ++ [leaf]) level (leaves.length / 4 ^ level))
      levels).getD k [] = completed zero node (leaves ++ [leaf]) (level + k) := by
  -- Above the last node completed nothing changes.
  have above : ∀ {l m}, ¬ 4 ^ (l + 1) ∣ leaves.length + 1 → l < m →
      completed zero node (leaves ++ [leaf]) m = completed zero node leaves m := fun hn hm =>
    completed_append_of_not_dvd fun dvd => hn (dvd_trans (pow_dvd_pow 4 hm) dvd)
  induction levels generalizing level k with
  | nil =>
    have empty : completed zero node leaves level = [] := (held 0).symm
    have part : ¬ 4 ^ (level + 1) ∣ leaves.length + 1 := by
      intro full
      have three := (dvd_succ_level h).1 full
      rw [← length_completed, empty] at three
      cases three
    cases k with
    | zero =>
      rw [Nat.add_zero, completed_of_open h part, joined, empty]
      rfl
    | succ k =>
      rw [above part (by omega)]
      exact held (k + 1)
  | cons nodes levels ih =>
    obtain rfl : nodes = completed zero node leaves level := held 0
    rw [carry, ← joined, length_joined]
    by_cases full : 4 ^ (level + 1) ∣ leaves.length + 1
    · have rest : ∀ k, levels.getD k [] = completed zero node leaves (level + 1 + k) := fun k =>
        (held (k + 1)).trans (by rw [Nat.add_assoc, Nat.add_comm 1 k])
      have parent : node (padded zero (joined zero node leaves leaf level)) = _ :=
        node_joined h full
      rw [if_pos (by rw [(dvd_succ_level h).1 full]), parent]
      cases k with
      | zero => exact (completed_of_full h full).symm
      | succ k =>
        rw [List.getD_cons_succ, ih full rest k, Nat.add_assoc, Nat.add_comm 1 k]
    · have small := mt (dvd_succ_level h).2 full
      rw [if_neg (by omega)]
      cases k with
      | zero => exact (completed_of_open h full).symm
      | succ k =>
        rw [above full (by omega)]
        exact held (k + 1)

end

/-- **Appending a leaf keeps the frontier.** -/
theorem carry_leaf {levels : List (List α)}
    (held : ∀ k, levels.getD k [] = completed zero node leaves k) (k : ℕ) :
    (carry zero node leaf levels).getD k [] = completed zero node (leaves ++ [leaf]) k := by
  have bottom : subtree zero node (leaves ++ [leaf]) 0 (leaves.length / 4 ^ 0) = leaf := by
    simp [subtree]
  have carried : (carry zero node (subtree zero node (leaves ++ [leaf]) 0 (leaves.length / 4 ^ 0))
      levels).getD k [] = completed zero node (leaves ++ [leaf]) (0 + k) :=
    carry_completed (one_dvd _) (fun k => by rw [Nat.zero_add]; exact held k) k
  rwa [bottom, Nat.zero_add] at carried

end Append

/-! ## The root -/

variable {levels : List (List α)} {depth : ℕ}

variable (zero node) in
/-- The node being filled at a depth, unless the leaves fill whole nodes there. -/
def filling (leaves : List α) (depth : ℕ) : Option α :=
  if 4 ^ depth ∣ leaves.length then none
  else some (subtree zero node leaves depth (leaves.length / 4 ^ depth))

/-- The children of the node being filled: the completed ones, the one being filled below, none. -/
theorem padded_filling (j : Fin 4) :
    padded zero (completed zero node leaves depth ++ (filling zero node leaves depth).toList) j =
      subtree zero node leaves depth (4 * (leaves.length / 4 ^ (depth + 1)) + j) := by
  have count := div_pow_eq leaves.length depth
  have covered := Nat.div_mul_le_self leaves.length (4 ^ depth)
  rcases Nat.lt_or_ge (j : ℕ) (leaves.length / 4 ^ depth % 4) with old | new
  · exact padded_completed j old _
  rw [padded, List.getD_append_right _ _ _ _ (by rw [length_completed]; exact new),
    length_completed, filling]
  have index : leaves.length / 4 ^ depth ≤ 4 * (leaves.length / 4 ^ (depth + 1)) + j := by omega
  by_cases dvd : 4 ^ depth ∣ leaves.length
  · rw [if_pos dvd, subtree_eq_zero]
    · rfl
    · calc leaves.length = leaves.length / 4 ^ depth * 4 ^ depth := (Nat.div_mul_cancel dvd).symm
        _ ≤ _ := Nat.mul_le_mul_right _ index
  · rw [if_neg dvd, Option.toList_some]
    rcases Nat.eq_or_lt_of_le new with here | later
    · rw [← here, Nat.sub_self, ← count]
      rfl
    · have above : leaves.length / 4 ^ depth < 4 * (leaves.length / 4 ^ (depth + 1)) + j := by omega
      rw [subtree_eq_zero ((Nat.div_lt_iff_lt_mul (Nat.pow_pos (by decide))).1 above).le,
        List.getD_eq_default]
      rw [List.length_singleton]
      omega

theorem filling_isNone : (filling zero node leaves depth).isNone ↔ 4 ^ depth ∣ leaves.length := by
  unfold filling
  split <;> simp_all

/-- **The fold of the frontier** is the node being filled. -/
theorem foldLevels_eq (held : ∀ k, levels.getD k [] = completed zero node leaves k) :
    foldLevels zero node levels depth = filling zero node leaves depth := by
  induction depth with
  | zero => simp [foldLevels, filling]
  | succ depth ih =>
    have nothing : ((completed zero node leaves depth).isEmpty &&
        (filling zero node leaves depth).isNone) = true ↔ 4 ^ (depth + 1) ∣ leaves.length := by
      rw [Bool.and_eq_true, filling_isNone, List.isEmpty_iff_length_eq_zero, length_completed,
        ← Nat.dvd_iff_mod_eq_zero, pow_succ]
      constructor
      · rintro ⟨four, dvd⟩
        exact (Nat.dvd_div_iff_mul_dvd dvd).1 four
      · intro dvd
        have here : 4 ^ depth ∣ leaves.length := dvd_trans (Nat.dvd_mul_right ..) dvd
        exact ⟨(Nat.dvd_div_iff_mul_dvd here).2 dvd, here⟩
    rw [foldLevels, held, ih, foldLevel, filling]
    refine ite_congr (propext nothing) (fun _ => rfl) fun part => ?_
    rw [subtree_succ]
    · congr 2
      funext j
      exact padded_filling j
    · refine lt_of_le_of_ne (Nat.div_mul_le_self ..) fun eq => part ?_
      exact ⟨_, (eq.symm.trans (Nat.mul_comm ..))⟩

/-- **The root of the frontier is that of the tree**, at any depth that holds the leaves. -/
theorem rootAt_eq (held : ∀ k, levels.getD k [] = completed zero node leaves k)
    (pos : 0 < leaves.length) (fits : leaves.length ≤ 4 ^ depth) :
    rootAt zero node levels depth = some (subtree zero node leaves depth 0) := by
  rw [rootAt, foldLevels_eq held, filling]
  split
  · -- The leaves fill the tree: its root is the one completed node of its level.
    next dvd =>
      have all : leaves.length = 4 ^ depth := Nat.le_antisymm fits (Nat.le_of_dvd pos dvd)
      have less : (4 : ℕ) ^ depth < 4 ^ (depth + 1) := Nat.pow_lt_pow_right (by decide) (by omega)
      rw [held, completed, all, Nat.div_self (Nat.pow_pos (by decide)), Nat.div_eq_of_lt less]
      rfl
  · next part =>
    have less : leaves.length < 4 ^ depth := lt_of_le_of_ne fits fun eq => part (eq ▸ dvd_rfl)
    rw [Nat.div_eq_of_lt less]
    rfl

end Qnero.QuadTree
