import Qnero.Plonkish.Field
import Mathlib.Data.List.Lex
import Mathlib.Data.List.OfFn
import Mathlib.Data.List.Sort
import Mathlib.Data.Fintype.Pi
import Mathlib.Data.UInt

/-!
# Digests and their bytes

The circuits work on four field elements, the chain on 32 bytes. The bytes are four little-endian
limbs of eight, one per field element, so `Hash256` keeps the limbs and `toBytes` spells them out
where the byte order matters: children of a tree node are sorted by it.

Two decodings exist and the difference is used all over the chain. `bytesToDigest` refuses a limb
at or above the field order; `bytesToDigestLossy` reduces it, so it is not injective.
-/

namespace Qnero

open Plonkish

/-- A Poseidon2 output. -/
abbrev Digest : Type := Fin 4 → Felt

instance (priority := 2000) lawfulBEq_digest : LawfulBEq Digest := inferInstance

/-- The four elements of a digest, as a hash preimage lists them. -/
def felts (d : Digest) : List Felt := List.ofFn d

@[simp] theorem length_felts (d : Digest) : (felts d).length = 4 := List.length_ofFn

theorem felts_injective : Function.Injective felts := List.ofFn_injective

/-- Digests at the front of a preimage can be read off it. -/
@[simp] theorem felts_append_inj {a b : Digest} {l m : List Felt} :
    felts a ++ l = felts b ++ m ↔ a = b ∧ l = m := by
  constructor
  · intro h
    obtain ⟨h1, h2⟩ := List.append_inj h (by simp)
    exact ⟨felts_injective h1, h2⟩
  · rintro ⟨rfl, rfl⟩
    rfl

@[simp] theorem felts_inj {a b : Digest} : felts a = felts b ↔ a = b := felts_injective.eq_iff

/-- A 32-byte value, as its four little-endian 64-bit limbs. -/
@[ext] structure Hash256 where
  limbs : Fin 4 → UInt64

-- The derived instances transport along the equality of a field, and do not evaluate on a function.
instance : DecidableEq Hash256 := fun a b =>
  decidable_of_iff (a.limbs = b.limbs) Hash256.ext_iff.symm

instance : Zero Hash256 := ⟨⟨0⟩⟩

@[simp] theorem Hash256.limbs_zero : (0 : Hash256).limbs = 0 := rfl

/-! ## Encoding and decoding -/

/-- `digest_to_bytes`: each element's canonical representative, little endian. -/
def digestBytes (d : Digest) : Hash256 := ⟨fun i => UInt64.ofNat (d i).val⟩

/-- Every limb is the canonical representative of a field element. -/
def Hash256.Canonical (h : Hash256) : Prop := ∀ i, (h.limbs i).toNat < goldilocks

instance (h : Hash256) : Decidable h.Canonical := by
  unfold Hash256.Canonical
  infer_instance

/-- The reducing decode, eight bytes per element. -/
def bytesToDigestLossy (h : Hash256) : Digest := fun i => ((h.limbs i).toNat : Felt)

/-- The strict decode. -/
def bytesToDigest (h : Hash256) : Option Digest :=
  if h.Canonical then some (bytesToDigestLossy h) else none

theorem felt_val_lt (x : Felt) : x.val < 2 ^ 64 :=
  lt_trans (ZMod.val_lt x) (by norm_num [goldilocks])

@[simp] theorem toNat_digestBytes (d : Digest) (i : Fin 4) :
    ((digestBytes d).limbs i).toNat = (d i).val :=
  UInt64.toNat_ofNat_of_lt' (felt_val_lt _)

@[simp] theorem bytesToDigestLossy_digestBytes (d : Digest) :
    bytesToDigestLossy (digestBytes d) = d := by
  funext i
  simp [bytesToDigestLossy]

theorem canonical_digestBytes (d : Digest) : (digestBytes d).Canonical := by
  intro i
  rw [toNat_digestBytes]
  exact ZMod.val_lt _

theorem digestBytes_injective : Function.Injective digestBytes :=
  Function.LeftInverse.injective bytesToDigestLossy_digestBytes

@[simp] theorem digestBytes_inj {a b : Digest} : digestBytes a = digestBytes b ↔ a = b :=
  digestBytes_injective.eq_iff

theorem Hash256.Canonical.digestBytes_lossy {h : Hash256} (hc : h.Canonical) :
    digestBytes (bytesToDigestLossy h) = h := by
  ext i
  rw [toNat_digestBytes, bytesToDigestLossy, ZMod.val_natCast_of_lt (hc i)]

@[simp] theorem bytesToDigest_digestBytes (d : Digest) : bytesToDigest (digestBytes d) = some d := by
  simp [bytesToDigest, canonical_digestBytes]

/-- **The strict decode inverts the encoding**, and accepts nothing else. -/
theorem bytesToDigest_eq_some {h : Hash256} {d : Digest} :
    bytesToDigest h = some d ↔ h = digestBytes d := by
  constructor
  · intro hd
    unfold bytesToDigest at hd
    split at hd
    · next hc =>
      obtain rfl := Option.some.inj hd
      exact hc.digestBytes_lossy.symm
    · cases hd
  · rintro rfl
    simp

@[simp] theorem digestBytes_zero : digestBytes 0 = 0 := by
  ext i
  simp [digestBytes]

@[simp] theorem digestBytes_eq_zero {d : Digest} : digestBytes d = 0 ↔ d = 0 := by
  rw [← digestBytes_zero, digestBytes_inj]

/-! ## The byte order -/

/-- The eight bytes of a limb, least significant first. -/
def leBytes (x : UInt64) : List UInt8 :=
  (List.range 8).map fun k => UInt8.ofNat (x.toNat >>> (8 * k))

def Hash256.toBytes (h : Hash256) : List UInt8 :=
  (List.finRange 4).flatMap fun i => leBytes (h.limbs i)

@[simp] theorem length_toBytes (h : Hash256) : h.toBytes.length = 32 := by
  simp [Hash256.toBytes, leBytes, List.length_flatMap]

theorem leBytes_injective : Function.Injective leBytes := by
  intro x y h
  rw [← UInt64.toNat_inj]
  refine Nat.eq_of_testBit_eq fun j => ?_
  by_cases hj : j < 64
  · -- Bit `j` sits in byte `j / 8`.
    have hbyte : UInt8.ofNat (x.toNat >>> (8 * (j / 8))) =
        UInt8.ofNat (y.toNat >>> (8 * (j / 8))) := by
      simp only [leBytes] at h
      exact List.map_inj_left.1 h _ (List.mem_range.2 (by omega))
    have hbits := congrArg (fun b : UInt8 => b.toNat.testBit (j % 8)) hbyte
    simp only [UInt8.toNat_ofNat', Nat.testBit_mod_two_pow, Nat.testBit_shiftRight] at hbits
    simpa [Nat.mod_lt, Nat.div_add_mod] using hbits
  · have big : ∀ z : UInt64, z.toNat.testBit j = false := fun z =>
      Nat.testBit_lt_two_pow (lt_of_lt_of_le z.toNat_lt (Nat.pow_le_pow_right (by omega) (by omega)))
    rw [big, big]

theorem Hash256.toBytes_injective : Function.Injective Hash256.toBytes := by
  intro a b h
  have hlen : ∀ x, (leBytes x).length = 8 := by simp [leBytes]
  simp only [Hash256.toBytes, List.finRange_succ, List.finRange_zero, List.map_cons, List.map_nil,
    List.flatMap_cons, List.flatMap_nil] at h
  obtain ⟨h0, h⟩ := List.append_inj h (by simp [hlen])
  obtain ⟨h1, h⟩ := List.append_inj h (by simp [hlen])
  obtain ⟨h2, h⟩ := List.append_inj h (by simp [hlen])
  obtain ⟨h3, -⟩ := List.append_inj h (by simp [hlen])
  ext i
  match i with
  | 0 => exact congrArg _ (leBytes_injective h0)
  | 1 => exact congrArg _ (leBytes_injective h1)
  | 2 => exact congrArg _ (leBytes_injective h2)
  | 3 => exact congrArg _ (leBytes_injective h3)

/-- The bytes as numbers: the key of the lexicographic order on 32-byte arrays. -/
def Hash256.sortKey (h : Hash256) : List ℕ := h.toBytes.map UInt8.toNat

theorem Hash256.sortKey_injective : Function.Injective Hash256.sortKey := by
  intro a b h
  exact toBytes_injective (List.map_injective_iff.2 (fun _ _ => UInt8.toNat_inj.1) h)

/-- Byte-lexicographic order. -/
instance : LinearOrder Hash256 := LinearOrder.lift' Hash256.sortKey Hash256.sortKey_injective

end Qnero
