import Mathlib.Data.Finset.Basic
import Mathlib.Data.Finset.Lattice.Basic
import Mathlib.Data.List.Nodup
import Mathlib.Data.List.Perm.Subperm
import Mathlib.Algebra.Order.BigOperators.Group.List
import Mathlib.Algebra.Order.Ring.Nat

/-!
# Ledgers of notes

A ledger holds notes of some value and a set of serials already used, one for every note that was
spent. Two things are wanted of it: no serial enters the set twice, and the notes not yet spent are
backed.
-/

namespace Qnero.Ledger

/-! ## Serials used once -/

section

variable {ν : Type*} [DecidableEq ν] {used : Finset ν} {a b : List ν}

/-- A log of serials that may be added to `used`: nothing repeats, nothing is there already. -/
structure Fresh (used : Finset ν) (log : List ν) : Prop where
  nodup : log.Nodup
  unused : ∀ n ∈ log, n ∉ used

omit [DecidableEq ν] in
theorem fresh_nil : Fresh used ([] : List ν) := ⟨List.nodup_nil, by simp⟩

/-- What is added after a log must be new to the log as well. -/
theorem Fresh.append (ha : Fresh used a) (hb : Fresh (used ∪ a.toFinset) b) :
    Fresh used (a ++ b) where
  nodup := by
    refine List.nodup_append.2 ⟨ha.nodup, hb.nodup, fun x hx y hy hxy => hb.unused y hy ?_⟩
    exact Finset.mem_union_right _ (List.mem_toFinset.2 (hxy ▸ hx))
  unused := by
    refine List.forall_mem_append.2 ⟨ha.unused, fun n hn hused => hb.unused n hn ?_⟩
    exact Finset.mem_union_left _ hused

/-- The rest of a log is new to everything before it. -/
theorem Fresh.of_append (h : Fresh used (a ++ b)) : Fresh (used ∪ a.toFinset) b where
  nodup := (List.nodup_append.1 h.nodup).2.1
  unused n hn hmem := by
    rcases Finset.mem_union.1 hmem with hused | ha
    · exact h.unused n (List.mem_append_right _ hn) hused
    · exact (List.nodup_append.1 h.nodup).2.2 n (List.mem_toFinset.1 ha) n hn rfl

end

/-! ## Value not yet spent -/

section

variable {α : Type*} (value : α → ℕ)

open Classical in
/-- The value of the notes that are not spent, each as often as it is held. -/
noncomputable def unspent (spent : Set α) (notes : List α) : ℕ :=
  ((notes.filter (· ∉ spent)).map value).sum

variable {value} {spent spent' : Set α} {notes : List α}

theorem unspent_append (spent : Set α) (a b : List α) :
    unspent value spent (a ++ b) = unspent value spent a + unspent value spent b := by
  simp [unspent]

variable (value) in
/-- New notes add at most their value. -/
theorem unspent_le_sum (spent : Set α) (notes : List α) :
    unspent value spent notes ≤ (notes.map value).sum :=
  (List.filter_sublist.map value).sum_le_sum fun _ _ => Nat.zero_le _

variable (value) in
open Classical in
/-- **Spending.** Notes that were unspent, are held, are different and are now spent leave the sum
with their whole value. -/
theorem unspent_add_sum_le (grow : spent ⊆ spent') {consumed : List α} (nodup : consumed.Nodup)
    (held : ∀ x ∈ consumed, x ∈ notes) (before : ∀ x ∈ consumed, x ∉ spent)
    (after : ∀ x ∈ consumed, x ∈ spent') :
    unspent value spent' notes + (consumed.map value).sum ≤ unspent value spent notes := by
  -- Split what was unspent by whether it is still.
  have split : notes.filter (· ∉ spent) |>.Perm
      (((notes.filter (· ∉ spent)).filter (· ∉ spent')) ++
        (notes.filter (· ∉ spent)).filter fun x => ! decide (x ∉ spent')) :=
    (List.filter_append_perm ..).symm
  have still : (notes.filter (· ∉ spent)).filter (· ∉ spent') = notes.filter (· ∉ spent') := by
    rw [List.filter_filter]
    refine List.filter_congr fun x _ => ?_
    by_cases hx : x ∈ spent'
    · simp [hx]
    · have : x ∉ spent := fun h => hx (grow h)
      simp [hx, this]
  have gone : consumed.Subperm ((notes.filter (· ∉ spent)).filter fun x => ! decide (x ∉ spent')) :=
    List.subperm_of_subset nodup fun x hx => by
      simp [held x hx, before x hx, after x hx]
  rw [still] at split
  rw [unspent, unspent, (split.map value).sum_eq, List.map_append, List.sum_append]
  refine Nat.add_le_add_left ?_ _
  obtain ⟨l, perm, sub⟩ := gone
  rw [← (perm.map value).sum_eq]
  exact (sub.map value).sum_le_sum fun _ _ => Nat.zero_le _

/-! ## A pool that stays solvent -/

variable (value) in
/-- Notes, which of them are spent, and what stands behind the rest. -/
structure Pool where
  notes : List α
  spent : Set α
  backing : ℕ
  solvent : unspent value spent notes ≤ backing

namespace Pool

variable (p : Pool value)

/-- Value enters with a note worth no more. -/
def deposit (note : α) (amount : ℕ) (covered : value note ≤ amount) : Pool value where
  notes := p.notes ++ [note]
  spent := p.spent
  backing := p.backing + amount
  solvent := by
    have new := unspent_le_sum value p.spent [note]
    rw [List.map_singleton, List.sum_singleton] at new
    have old := p.solvent
    rw [unspent_append]
    omega

/-- Notes consumed, notes created, and a fee, in balance. More notes than those consumed may turn
spent: their owners' loss, not the pool's. -/
structure Transfer where
  consumed : List α
  created : List α
  fee : ℕ
  spent : Set α
  nodup : consumed.Nodup
  held : ∀ x ∈ consumed, x ∈ p.notes
  before : ∀ x ∈ consumed, x ∉ p.spent
  after : ∀ x ∈ consumed, x ∈ spent
  grow : p.spent ⊆ spent
  balance : (created.map value).sum + fee ≤ (consumed.map value).sum

variable {p}

theorem Transfer.unspent_add_fee_le (t : p.Transfer) :
    unspent value t.spent (p.notes ++ t.created) + t.fee ≤ p.backing := by
  have gone := unspent_add_sum_le value t.grow t.nodup t.held t.before t.after
  have new := unspent_le_sum value t.spent t.created
  have balance := t.balance
  have old := p.solvent
  rw [unspent_append]
  omega

/-- **The fee is there.** -/
theorem Transfer.fee_le (t : p.Transfer) : t.fee ≤ p.backing :=
  le_trans (Nat.le_add_left ..) t.unspent_add_fee_le

variable (p) in
def transfer (t : p.Transfer) : Pool value where
  notes := p.notes ++ t.created
  spent := t.spent
  backing := p.backing - t.fee
  solvent := by
    have := t.unspent_add_fee_le
    omega

/-- One step of the pool. -/
inductive Step : Pool value → Pool value → Prop where
  | deposit (p : Pool value) (note : α) (amount : ℕ) (covered : value note ≤ amount) :
      Step p (p.deposit note amount covered)
  | transfer (p : Pool value) (t : p.Transfer) : Step p (p.transfer t)

end Pool

end

end Qnero.Ledger
