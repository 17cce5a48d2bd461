import Mathlib.Algebra.BigOperators.Group.Finset.Basic
import Mathlib.Algebra.GroupWithZero.Nat
import Mathlib.Data.List.Nodup
import Mathlib.Data.List.Perm.Basic

/-!
# Keyed storage

Finite maps as lists of pairs whose keys differ: the entry of a key is put in front of what the list
has of other keys, and removed by leaving it out. Up to order, a list is the entry of a key and the
list without it (`perm_of_lookup`), so what is counted or summed over it follows.

A `Histogram` is such a map that counts a list by a key of its items, without entries of zero. It
follows the list by one entry at a time.
-/

namespace Qnero.Keyed

variable {κ β : Type} [DecidableEq κ] {l : List (κ × β)} {k k' : κ} {v : β}

theorem mem_of_lookup (h : l.lookup k = some v) : (k, v) ∈ l := by
  obtain ⟨front, back, rfl, -⟩ := List.lookup_eq_some_iff.1 h
  simp

theorem lookup_none_iff : l.lookup k = none ↔ k ∉ l.map Prod.fst := by
  rw [List.lookup_eq_none_iff]
  constructor
  · intro h mem
    obtain ⟨entry, inside, rfl⟩ := List.mem_map.1 mem
    simpa using h entry inside
  · intro h entry mem
    refine bne_iff_ne.2 ?_
    rintro rfl
    exact h (List.mem_map_of_mem mem)

/-- What is left of other keys. -/
theorem filter_of_notMem (h : k ∉ l.map Prod.fst) : (l.filter fun entry => entry.1 ≠ k) = l := by
  refine List.filter_eq_self.2 fun entry mem => decide_eq_true ?_
  rintro rfl
  exact h (List.mem_map_of_mem mem)

theorem notMem_filter : k ∉ (l.filter fun entry => entry.1 ≠ k).map Prod.fst := by
  intro mem
  obtain ⟨entry, inside, rfl⟩ := List.mem_map.1 mem
  exact of_decide_eq_true (List.mem_filter.1 inside).2 rfl

omit [DecidableEq κ] in
theorem nodup_filter (nodup : (l.map Prod.fst).Nodup) (p : κ × β → Bool) :
    ((l.filter p).map Prod.fst).Nodup :=
  (List.filter_sublist.map _).nodup nodup

theorem nodup_cons_filter (nodup : (l.map Prod.fst).Nodup) (v : β) :
    (((k, v) :: l.filter fun entry => entry.1 ≠ k).map Prod.fst).Nodup :=
  List.nodup_cons.2 ⟨notMem_filter, nodup_filter nodup _⟩

/-- **The entry of a key, and the rest.** -/
theorem perm_of_lookup (nodup : (l.map Prod.fst).Nodup) (h : l.lookup k = some v) :
    l.Perm ((k, v) :: l.filter fun entry => entry.1 ≠ k) := by
  induction l with
  | nil => cases h
  | cons entry l ih =>
    obtain ⟨key, value⟩ := entry
    rw [List.map_cons, List.nodup_cons] at nodup
    by_cases same : key = k
    · subst same
      rw [List.lookup_cons_self] at h
      obtain rfl := Option.some.inj h
      rw [List.filter_cons_of_neg (by simp), filter_of_notMem nodup.1]
    · have other : (k == key) = false := by simpa using Ne.symm same
      rw [List.lookup_cons, other] at h
      rw [List.filter_cons_of_pos (by simpa using same)]
      exact ((ih nodup.2 h).cons _).trans (.swap ..)

theorem lookup_of_mem (nodup : (l.map Prod.fst).Nodup) (mem : (k, v) ∈ l) : l.lookup k = some v := by
  cases found : l.lookup k with
  | none => exact absurd (List.mem_map_of_mem mem) (lookup_none_iff.1 found)
  | some other =>
    have same := List.inj_on_of_nodup_map nodup mem (mem_of_lookup found) rfl
    rw [(Prod.mk.inj same).2]

@[simp] theorem lookup_filter_self : (l.filter fun entry => entry.1 ≠ k).lookup k = none :=
  lookup_none_iff.2 notMem_filter

theorem lookup_filter_ne (ne : k' ≠ k) :
    (l.filter fun entry => entry.1 ≠ k).lookup k' = l.lookup k' := by
  induction l with
  | nil => rfl
  | cons entry l ih =>
    obtain ⟨key, value⟩ := entry
    by_cases same : key = k
    · subst same
      have other : (k' == key) = false := by simpa using ne
      rw [List.filter_cons_of_neg (by simp), List.lookup_cons, other, ih]
    · rw [List.filter_cons_of_pos (by simpa using same), List.lookup_cons, List.lookup_cons, ih]

theorem lookup_cons_of_ne (ne : k' ≠ k) : ((k, v) :: l).lookup k' = l.lookup k' := by
  have other : (k' == k) = false := by simpa using ne
  rw [List.lookup_cons, other]

theorem sum_filter {l : List (κ × ℕ)} (nodup : (l.map Prod.fst).Nodup) (k : κ) :
    (l.map Prod.snd).sum =
      (l.lookup k).getD 0 + ((l.filter fun entry => entry.1 ≠ k).map Prod.snd).sum := by
  cases found : l.lookup k with
  | none =>
    rw [filter_of_notMem (lookup_none_iff.1 found)]
    exact (Nat.zero_add _).symm
  | some v =>
    have perm := (perm_of_lookup nodup found).map Prod.snd
    rw [perm.sum_eq, List.map_cons, List.sum_cons]
    rfl

/-! ## Histograms -/

section Histogram

variable {α : Type} {key : α → κ} {counts : List (κ × ℕ)} {items items' : List α} {a : α}

/-- How many items have a key. -/
def count (key : α → κ) (items : List α) (k : κ) : ℕ := items.countP fun a => key a = k

theorem count_cons : count key (a :: items) k = count key items k + if key a = k then 1 else 0 := by
  simp [count, List.countP_cons]

@[simp] theorem count_cons_self : count key (a :: items) (key a) = count key items (key a) + 1 := by
  simp [count_cons]

theorem count_cons_of_ne (ne : k ≠ key a) : count key (a :: items) k = count key items k := by
  simp [count_cons, ne.symm]

theorem count_perm (perm : items.Perm items') : count key items k = count key items' k :=
  perm.countP_eq _

theorem count_eq_of_map (same : items.map key = items'.map key) :
    count key items k = count key items' k := by
  have through (l : List α) : count key l k = (l.map key).countP fun k' => k' = k := by
    rw [List.countP_map]
    rfl
  rw [through, through, same]

/-- The map that counts the items by key. -/
structure Histogram (key : α → κ) (counts : List (κ × ℕ)) (items : List α) : Prop where
  nodup : (counts.map Prod.fst).Nodup
  lookup : ∀ k, counts.lookup k = if count key items k = 0 then none else some (count key items k)
  total : (counts.map Prod.snd).sum = items.length

namespace Histogram

theorem empty : Histogram key [] [] where
  nodup := List.nodup_nil
  lookup _ := rfl
  total := rfl

section

variable (h : Histogram key counts items)
include h

theorem perm (perm : items.Perm items') : Histogram key counts items' where
  nodup := h.nodup
  lookup k := by rw [h.lookup k, count_perm perm]
  total := h.total.trans perm.length_eq

/-- Only the keys count. -/
theorem congr (same : items.map key = items'.map key) : Histogram key counts items' where
  nodup := h.nodup
  lookup k := by rw [h.lookup k, count_eq_of_map same]
  total := h.total.trans (by simpa using congrArg List.length same)

theorem getD : (counts.lookup k).getD 0 = count key items k := by
  rw [h.lookup]
  split
  · next zero => exact zero.symm
  · rfl

/-- What the other keys count, and the items that are not of this key. -/
theorem total_others :
    items.length = count key items k + ((counts.filter fun entry => entry.1 ≠ k).map Prod.snd).sum := by
  rw [← h.getD, ← sum_filter h.nodup k]
  exact h.total.symm

/-- **One item more.** -/
theorem cons (a : α) :
    Histogram key ((key a, count key items (key a) + 1) :: counts.filter fun entry => entry.1 ≠ key a)
      (a :: items) where
  nodup := nodup_cons_filter h.nodup _
  lookup k := by
    by_cases same : k = key a
    · subst same
      simp
    · rw [lookup_cons_of_ne same, lookup_filter_ne same, h.lookup, count_cons_of_ne same]
  total := by
    have total := h.total_others (k := key a)
    rw [List.map_cons, List.sum_cons, List.length_cons]
    omega

end

/-- **One item less**; an entry that reaches zero goes. -/
theorem tail (h : Histogram key counts (a :: items)) :
    Histogram key (if count key items (key a) = 0 then counts.filter fun entry => entry.1 ≠ key a
      else (key a, count key items (key a)) :: counts.filter fun entry => entry.1 ≠ key a) items where
  nodup := by
    split
    · exact nodup_filter h.nodup _
    · exact nodup_cons_filter h.nodup _
  lookup k := by
    by_cases same : k = key a
    · subst same
      split
      · next zero => exact lookup_filter_self
      · next pos => exact List.lookup_cons_self
    · split
      · rw [lookup_filter_ne same, h.lookup, count_cons_of_ne same]
      · rw [lookup_cons_of_ne same, lookup_filter_ne same, h.lookup, count_cons_of_ne same]
  total := by
    have total := h.total_others (k := key a)
    rw [List.length_cons, count_cons_self] at total
    split
    · omega
    · rw [List.map_cons, List.sum_cons]
      omega

end Histogram

end Histogram

/-! ## Sums over keys -/

/-- One key's value changes: the sum follows. -/
theorem sum_update {ι α : Type} [DecidableEq ι] (f : α → ℕ) (g : ι → α) {keys : Finset ι} {i : ι}
    (mem : i ∈ keys) (new : α) :
    ∑ k ∈ keys, f (Function.update g i new k) + f (g i) = ∑ k ∈ keys, f (g k) + f new := by
  rw [← Finset.add_sum_erase _ _ mem, ← Finset.add_sum_erase _ (fun k => f (g k)) mem,
    Function.update_self]
  have others : ∑ k ∈ keys.erase i, f (Function.update g i new k) = ∑ k ∈ keys.erase i, f (g k) :=
    Finset.sum_congr rfl fun k hk => by rw [Function.update_of_ne (Finset.ne_of_mem_erase hk)]
  rw [others]
  omega

end Qnero.Keyed
