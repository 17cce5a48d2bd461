import Mathlib.Data.List.Sort

/-!
# Sorting

A sorted list is its elements in one order, so sorting forgets the order it was given. The relation is
antisymmetric only on what is sorted where ties are told apart by something else than equality.
-/

namespace Qnero.Sorting

variable {α : Type} {r : α → α → Prop} [DecidableRel r] [Std.Total r] [IsTrans α r]

/-- **What is sorted does not depend on the order it comes in.** -/
theorem insertionSort_congr {l l' : List α} (antisymm : ∀ a ∈ l, ∀ b ∈ l, r a b → r b a → a = b)
    (perm : l.Perm l') : l.insertionSort r = l'.insertionSort r := by
  refine List.Perm.eq_of_pairwise ?_ (List.pairwise_insertionSort r l)
    (List.pairwise_insertionSort r l') ?_
  · intro a b mem mem'
    rw [List.mem_insertionSort] at mem mem'
    exact antisymm a mem b (perm.mem_iff.2 mem')
  · exact ((List.perm_insertionSort r l).trans perm).trans (List.perm_insertionSort r l').symm

/-- Two lists sort to one exactly if they have the same elements. -/
theorem insertionSort_eq_iff {l l' : List α} (antisymm : ∀ a ∈ l, ∀ b ∈ l, r a b → r b a → a = b) :
    l.insertionSort r = l'.insertionSort r ↔ l.Perm l' := by
  refine ⟨fun same => ?_, insertionSort_congr antisymm⟩
  have perm := (List.perm_insertionSort r l).symm
  rw [same] at perm
  exact perm.trans (List.perm_insertionSort r l')

end Qnero.Sorting
