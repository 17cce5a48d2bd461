import Qnero.Plonkish.Circuit
import Qnero.Digest

/-!
# Notes

Every hash of a note is `Poseidon2(tag, parts…)` with a domain tag as first element. The functions
here are the off-circuit ones; next to each stands the list it hashes, because the security
statements are about those lists: `CollisionFree H.hashToFelts Q` says the sponge does not collide
on `Q`, and a statement about a note needs its lists in `Q`.

Two lists built under different tags differ, and two built by one function differ unless the
arguments agree. Both are facts about lists, with no assumption on the hash.
-/

namespace Qnero

open Plonkish

/-- The Poseidon2 sponge over field elements and over bytes, and the byte encoding next to it. None
is defined in this repository; what a result assumes of them it states. -/
structure Poseidon2 where
  hashToFelts : List Felt → Digest
  hashBytes : List UInt8 → Digest
  /-- The injective encoding of bytes, four to an element and a terminator. -/
  bytesToFelts : List UInt8 → List Felt

def Poseidon2.hashToBytes (H : Poseidon2) (input : List Felt) : Hash256 :=
  digestBytes (H.hashToFelts input)

/-! ## Domain tags -/

namespace Domain

def ak : Felt := 0x716e0001
def pk : Felt := 0x716e0002
def note : Felt := 0x716e0003
def cm : Felt := 0x716e0004
def nf : Felt := 0x716e0005
def rho : Felt := 0x716e0006
def nfDummy : Felt := 0x716e0007
def nfBatchPadding : Felt := 0x716e0008
def rhoEntry : Felt := 0x716e0009
def rhoCoinbase : Felt := 0x716e000a
def rCoinbase : Felt := 0x716e000b

end Domain

/-- What `Digest::hash_felts` absorbs: the tag, then every part in turn. -/
def feltsInput (domain : Felt) (parts : List (List Felt)) : List Felt := domain :: parts.flatten

@[simp] theorem feltsInput_inj {d d' : Felt} {parts parts' : List (List Felt)} :
    feltsInput d parts = feltsInput d' parts' ↔ d = d' ∧ parts.flatten = parts'.flatten := by
  simp [feltsInput]

section

variable (H : Poseidon2)

def hashFelts (domain : Felt) (parts : List (List Felt)) : Digest :=
  H.hashToFelts (feltsInput domain parts)

/-! ## Keys -/

def akInput (ask : Digest) : List Felt := feltsInput Domain.ak [felts ask]

def deriveAk (ask : Digest) : Digest := hashFelts H Domain.ak [felts ask]

def pkInput (ak nk : Digest) : List Felt := feltsInput Domain.pk [felts ak, felts nk]

def derivePk (ask nk : Digest) : Digest :=
  hashFelts H Domain.pk [felts (deriveAk H ask), felts nk]

/-! ## Note hashes -/

/-- Values fit in 62 bits. -/
def valueBits : ℕ := 62

def maxValue : ℕ := 2 ^ valueBits - 1

def noteInput (pk rho r : Digest) : List Felt :=
  feltsInput Domain.note [felts pk, felts rho, felts r]

def noteInner (pk rho r : Digest) : Digest :=
  hashFelts H Domain.note [felts pk, felts rho, felts r]

def cmInput (inner : Digest) (value : Felt) : List Felt := feltsInput Domain.cm [felts inner, [value]]

def commitmentFromInner (inner : Digest) (value : Felt) : Digest :=
  hashFelts H Domain.cm [felts inner, [value]]

/-- The list a nullifier hashes; only the tag tells a dummy's from a real one's. -/
def nfInput (tag : Felt) (nk rho r : Digest) : List Felt :=
  feltsInput tag [felts nk, felts rho, felts r]

def nullifier (nk rho r : Digest) : Digest :=
  hashFelts H Domain.nf [felts nk, felts rho, felts r]

def dummyNullifier (nk rho r : Digest) : Digest :=
  hashFelts H Domain.nfDummy [felts nk, felts rho, felts r]

/-- A note: who may spend it, for how much, under which randomness. -/
structure Note where
  pk : Digest
  value : ℕ
  rho : Digest
  r : Digest

def Note.inner (n : Note) : Digest := noteInner H n.pk n.rho n.r

def Note.commitment (n : Note) : Digest := commitmentFromInner H (n.inner H) (n.value : Felt)

def Note.nullifier (n : Note) (nk : Digest) : Digest := Qnero.nullifier H nk n.rho n.r

/-! ## Nullifier seeds

A note's `rho` is derived, never chosen: from the two nullifiers of the transfer that created it,
from the entry counter, or from the block number.
-/

def rhoInput (nf₁ nf₂ : Digest) (index : ℕ) : List Felt :=
  feltsInput Domain.rho [felts nf₁, felts nf₂, [(index : Felt)]]

def outputRho (nf₁ nf₂ : Digest) (index : ℕ) : Digest :=
  hashFelts H Domain.rho [felts nf₁, felts nf₂, [(index : Felt)]]

/-- The entry index is split into two 32-bit halves, high first. -/
def entryRhoInput (blockNumber entryIndex : ℕ) : List Felt :=
  feltsInput Domain.rhoEntry
    [[(blockNumber : Felt)], [((entryIndex >>> 32 : ℕ) : Felt), ((entryIndex % 2 ^ 32 : ℕ) : Felt)]]

def entryRho (blockNumber entryIndex : ℕ) : Digest :=
  H.hashToFelts (entryRhoInput blockNumber entryIndex)

def coinbaseRhoInput (blockNumber : ℕ) : List Felt :=
  feltsInput Domain.rhoCoinbase [[(blockNumber : Felt)]]

def coinbaseRho (blockNumber : ℕ) : Digest := H.hashToFelts (coinbaseRhoInput blockNumber)

end

/-! ## Reading a list back -/

@[simp] theorem pkInput_inj {a b a' b' : Digest} :
    pkInput a b = pkInput a' b' ↔ a = a' ∧ b = b' := by
  simp [pkInput]

@[simp] theorem noteInput_inj {a b c a' b' c' : Digest} :
    noteInput a b c = noteInput a' b' c' ↔ a = a' ∧ b = b' ∧ c = c' := by
  simp [noteInput]

@[simp] theorem cmInput_inj {a a' : Digest} {v v' : Felt} :
    cmInput a v = cmInput a' v' ↔ a = a' ∧ v = v' := by
  simp [cmInput]

@[simp] theorem nfInput_inj {t t' : Felt} {a b c a' b' c' : Digest} :
    nfInput t a b c = nfInput t' a' b' c' ↔ t = t' ∧ a = a' ∧ b = b' ∧ c = c' := by
  simp [nfInput]

@[simp] theorem rhoInput_inj {a b a' b' : Digest} {i i' : ℕ} :
    rhoInput a b i = rhoInput a' b' i' ↔ a = a' ∧ b = b' ∧ (i : Felt) = i' := by
  simp [rhoInput]

@[simp] theorem length_cmInput (a : Digest) (v : Felt) : (cmInput a v).length = 6 := by
  simp [cmInput, feltsInput]

end Qnero
