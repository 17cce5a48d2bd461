import Mathlib.NumberTheory.LucasPrimality
import Mathlib.Tactic.ReduceModChar
import Mathlib.Tactic.NormNum.Prime
import Mathlib.Tactic.Linarith
import Qnero.Numerals

/-!
# The Goldilocks field

The 64-bit prime field most FRI provers compute in. Its order `2^64 - 2^32 + 1` is proved prime by
a Lucas certificate: `7` generates the multiplicative group, and `p - 1` splits into the Fermat
primes below `2^32` and a power of two.
-/

namespace Qnero.Plonkish

/-- The order of the field, `2^64 - 2^32 + 1`. -/
def goldilocks : ℕ := 0xFFFFFFFF00000001

/-- The prime divisors of the group order, as the certificate below needs them. -/
theorem prime_dvd_goldilocks_sub_one {q : ℕ} (hq : q.Prime) (h : q ∣ goldilocks - 1) :
    q = 2 ∨ q = 3 ∨ q = 5 ∨ q = 17 ∨ q = 257 ∨ q = 65537 := by
  have factors : goldilocks - 1 = 2 ^ 32 * 3 * 5 * 17 * 257 * 65537 := by norm_num [goldilocks]
  have same : ∀ r, r.Prime → q ∣ r → q = r := fun r hr hd => (Nat.prime_dvd_prime_iff_eq hq hr).1 hd
  rw [factors] at h
  simp only [hq.dvd_mul] at h
  rcases h with ((((h | h) | h) | h) | h) | h
  · exact .inl (same 2 Nat.prime_two (hq.dvd_of_dvd_pow h))
  all_goals
    have := same _ (by norm_num) h
    tauto

theorem goldilocks_prime : goldilocks.Prime := by
  -- `reduce_mod_char` wants the modulus as a literal.
  show Nat.Prime 18446744069414584321
  refine lucas_primality _ (7 : ZMod 18446744069414584321) (by reduce_mod_char) ?_
  intro q hq hd
  rcases prime_dvd_goldilocks_sub_one hq hd with rfl | rfl | rfl | rfl | rfl | rfl <;>
    norm_num <;> reduce_mod_char <;> decide

instance : Fact goldilocks.Prime := ⟨goldilocks_prime⟩

/-- A field element. `ZMod.val` is its canonical representative. -/
abbrev Felt : Type := ZMod goldilocks

end Qnero.Plonkish
