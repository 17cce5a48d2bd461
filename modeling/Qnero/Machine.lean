import Mathlib.Order.Basic
import Mathlib.Order.Lattice
import Mathlib.Algebra.Order.Group.Nat

/-!
# Fixed-width arithmetic

Unsigned machine integers are natural numbers here; a width shows only where an operation can
leave it. `satAdd` and `satMul` clamp to the largest value, `checkedAdd`, `checkedMul` and
`checkedSub` fail, and saturating subtraction is the subtraction of naturals.
-/

namespace Qnero.Machine

def u32Max : ℕ := 2 ^ 32 - 1

def u64Max : ℕ := 2 ^ 64 - 1

def u128Max : ℕ := 2 ^ 128 - 1

def satAdd (max a b : ℕ) : ℕ := min (a + b) max

def satMul (max a b : ℕ) : ℕ := min (a * b) max

def checkedAdd (max a b : ℕ) : Option ℕ := if a + b ≤ max then some (a + b) else none

def checkedMul (max a b : ℕ) : Option ℕ := if a * b ≤ max then some (a * b) else none

def checkedSub (a b : ℕ) : Option ℕ := if b ≤ a then some (a - b) else none

theorem satAdd_eq {max a b : ℕ} (h : a + b ≤ max) : satAdd max a b = a + b := Nat.min_eq_left h

theorem satAdd_le {max a b : ℕ} : satAdd max a b ≤ a + b := Nat.min_le_left ..

@[simp] theorem checkedAdd_eq_some {max a b c : ℕ} :
    checkedAdd max a b = some c ↔ a + b = c ∧ c ≤ max := by
  unfold checkedAdd
  split
  · simp only [Option.some.injEq]
    omega
  · simp only [reduceCtorEq, false_iff]
    omega

@[simp] theorem checkedMul_eq_some {max a b c : ℕ} :
    checkedMul max a b = some c ↔ a * b = c ∧ c ≤ max := by
  unfold checkedMul
  split
  · simp only [Option.some.injEq]
    omega
  · simp only [reduceCtorEq, false_iff]
    omega

@[simp] theorem checkedSub_eq_some {a b c : ℕ} :
    checkedSub a b = some c ↔ b ≤ a ∧ c = a - b := by
  unfold checkedSub
  split
  · simp only [Option.some.injEq]
    omega
  · simp only [reduceCtorEq, false_iff]
    omega

end Qnero.Machine
