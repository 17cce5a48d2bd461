import Qnero.Notes

/-!
# Gadgets of the leaf circuit

The comparison gadgets and the in-circuit note hashes. Each gadget is followed by what it computes
and by the condition its gates impose; later modules use only those two facts.
-/

namespace Qnero

open Plonkish Builder

/-- A builder program over the field of the leaf circuit. -/
abbrev Wires (α : Type) : Type := Circuit goldilocks α

variable {Q : Set (List Felt)}

/-! ## Comparisons -/

/-- `a + b - 2ab`. -/
def xor (a b : Felt) : Wires Felt := do
  let aPlusB ← add a b
  let ab ← mul a b
  let twoAb ← add ab ab
  sub aPlusB twoAb

theorem xor_ofBool (a b : Bool) : xor (ofBool a) (ofBool b) = pure (ofBool (a ^^ b)) := by
  cases a <;> cases b <;> simp [xor]

/-- One round of `const_less_than_bits`, on bit `i` of both operands. The state is whether the
bits above `i` already decide `left < right`, and whether they are equal. -/
def compareBit (left : ℕ) (rightBits : List Felt) (state : Felt × Felt) (i : ℕ) :
    Wires (Felt × Felt) := do
  let a ← constantBool (left.testBit i)
  let b := rightBits.getD i 0
  let notA ← not a
  let notAAndB ← and notA b
  let thisLt ← and notAAndB state.2
  let lt ← or state.1 thisLt
  let aXorB ← xor a b
  let notXor ← not aXorB
  let eq ← and state.2 notXor
  pure (lt, eq)

/-- `left < right` for a constant against little-endian bits, most significant bit first. -/
def constLessThanBits (left : ℕ) (rightBits : List Felt) : Wires Felt := do
  let state ← (List.range rightBits.length).reverse.foldlM (compareBit left rightBits) (0, 1)
  pure state.1

/-- The little-endian bits a `split_le` of `v` returns. -/
def bitsOf (v n : ℕ) : List Felt := (List.range n).map fun i => ofBool (v.testBit i)

@[simp] theorem length_bitsOf (v n : ℕ) : (bitsOf v n).length = n := by
  simp [bitsOf]

theorem getD_bitsOf {v n i : ℕ} (h : i < n) : (bitsOf v n).getD i 0 = ofBool (v.testBit i) := by
  simp [bitsOf, h]

/-- The comparison state once the bits from `k` up have been read. -/
def comparedAbove (left right k : ℕ) : Felt × Felt :=
  (ofBool (decide (left / 2 ^ k < right / 2 ^ k)), ofBool (decide (left / 2 ^ k = right / 2 ^ k)))

/-- **One round reads one bit**: the prefixes above `k` become the prefixes from `k` up. -/
theorem compareBit_value {left v n k : ℕ} (h : k < n) :
    (compareBit left (bitsOf v n) (comparedAbove left v (k + 1)) k).value =
      comparedAbove left v k := by
  have half : ∀ x : ℕ, x / 2 ^ (k + 1) = x / 2 ^ k / 2 := fun x => by
    rw [pow_succ, Nat.div_div_eq_div_mul]
  simp only [compareBit, comparedAbove, getD_bitsOf h, half, constantBool, Circuit.pure_bind,
    Circuit.pure_value, not_ofBool, and_ofBool, or_ofBool, xor_ofBool,
    Nat.testBit_eq_decide_div_mod_eq]
  -- Only the two prefixes are left; each is twice the one above it, plus its own bit.
  generalize left / 2 ^ k = a
  generalize v / 2 ^ k = b
  refine Prod.ext (congrArg ofBool ?_) (congrArg ofBool ?_)
  all_goals
    rw [Bool.eq_iff_iff]
    simp
    omega

theorem foldl_compareBit {left v n : ℕ} : ∀ k, k ≤ n →
    (List.range k).reverse.foldl (fun s i => (compareBit left (bitsOf v n) s i).value)
      (comparedAbove left v k) = comparedAbove left v 0
  | 0, _ => rfl
  | k + 1, h => by
    rw [List.range_succ, List.reverse_append, List.reverse_singleton, List.singleton_append,
      List.foldl_cons, compareBit_value h]
    exact foldl_compareBit k (by omega)

/-- The comparison is exact when both operands fit the width. -/
theorem constLessThanBits_value {left v n : ℕ} (hl : left < 2 ^ n) (hv : v < 2 ^ n) :
    (constLessThanBits left (bitsOf v n)).value = ofBool (decide (left < v)) := by
  have start : ((0, 1) : Felt × Felt) = comparedAbove left v n := by
    simp [comparedAbove, Nat.div_eq_of_lt hl, Nat.div_eq_of_lt hv]
  simp only [constLessThanBits, Circuit.bind_value, Circuit.foldlM_value, Circuit.pure_value,
    length_bitsOf, start, foldl_compareBit n le_rfl]
  simp [comparedAbove]

@[simp] theorem holds_constLessThanBits (left : ℕ) (bits : List Felt) :
    (constLessThanBits left bits).Holds Q := by
  simp only [constLessThanBits, Circuit.holds_bind, Circuit.holds_pure, and_true]
  refine Circuit.holds_foldlM_of_forall (fun s i => ?_) _ _
  simp [compareBit, xor]

/-- `a == b` over two digests, limb by limb. -/
def digestsAreEqual (a b : Digest) : Wires Felt :=
  (List.finRange 4).foldlM (fun allEqual i => do
    let limbEqual ← isEqual (a i) (b i)
    and allEqual limbEqual) 1

@[simp] theorem digestsAreEqual_value (a b : Digest) :
    (digestsAreEqual a b).value = ofBool (decide (a = b)) := by
  -- The accumulator stays a bit: whether all limbs so far agreed.
  have fold : ∀ (l : List (Fin 4)) (c : Bool),
      l.foldl (fun x i => x * ofBool (decide (a i = b i))) (ofBool c : Felt) =
        ofBool (c && l.all fun i => decide (a i = b i)) := by
    intro l
    induction l with
    | nil => simp
    | cons i l ih =>
      intro c
      rw [List.foldl_cons, List.all_cons, ← Bool.and_assoc, ← ih]
      cases c <;> cases decide (a i = b i) <;> simp
  have := fold (List.finRange 4) true
  simp only [digestsAreEqual, Circuit.foldlM_value, Circuit.bind_value, isEqual, Builder.and,
    Circuit.pure_value]
  rw [← ofBool_true, this]
  congr 1
  rw [Bool.eq_iff_iff]
  simp [funext_iff]

@[simp] theorem holds_digestsAreEqual (a b : Digest) : (digestsAreEqual a b).Holds Q :=
  Circuit.holds_foldlM_of_forall (fun _ _ => by simp) _ _

/-! ## Note hashes in circuit -/

section

variable (H : Poseidon2)

/-- `Poseidon2(tag, parts…)` with the tag on a wire. -/
def hashWithDomainTarget (tag : Felt) (parts : List (List Felt)) : Wires Digest :=
  hash H.hashToFelts (tag :: parts.flatten)

def hashWithDomain (domain : Felt) (parts : List (List Felt)) : Wires Digest := do
  let tag ← constant domain
  hashWithDomainTarget H tag parts

/-- `NF_DUMMY` when `isDummy`, `NF` otherwise. -/
def nullifierDomainTag (isDummy : Felt) : Wires Felt := do
  let real ← constant Domain.nf
  let dummy ← constant Domain.nfDummy
  select isDummy dummy real

def Gadget.deriveAk (ask : Digest) : Wires Digest := hashWithDomain H Domain.ak [felts ask]

def Gadget.derivePk (ask nk : Digest) : Wires Digest := do
  let ak ← Gadget.deriveAk H ask
  hashWithDomain H Domain.pk [felts ak, felts nk]

def Gadget.noteInner (pk rho r : Digest) : Wires Digest :=
  hashWithDomain H Domain.note [felts pk, felts rho, felts r]

def Gadget.noteCommitment (inner : Digest) (value : Felt) : Wires Digest :=
  hashWithDomain H Domain.cm [felts inner, [value]]

def Gadget.outputRho (nf₁ nf₂ : Digest) (index : ℕ) : Wires Digest := do
  let index ← constant (index : Felt)
  hashWithDomain H Domain.rho [felts nf₁, felts nf₂, [index]]

def Gadget.noteNullifierTagged (tag : Felt) (nk rho r : Digest) : Wires Digest :=
  hashWithDomainTarget H tag [felts nk, felts rho, felts r]

/-! Each gadget returns what its off-circuit twin computes and hashes the same list. -/

theorem holds_hashWithDomain (domain : Felt) (parts : List (List Felt)) :
    (hashWithDomain H domain parts).Holds Q ↔ feltsInput domain parts ∈ Q := by
  simp only [hashWithDomain, hashWithDomainTarget, Circuit.holds_bind, holds_hash, constant,
    Circuit.holds_pure, Circuit.pure_value, true_and]
  rfl

@[simp] theorem nullifierDomainTag_value (b : Bool) :
    (nullifierDomainTag (ofBool b)).value = if b then Domain.nfDummy else Domain.nf := by
  cases b <;> simp [nullifierDomainTag]

@[simp] theorem holds_nullifierDomainTag (x : Felt) : (nullifierDomainTag x).Holds Q := by
  simp [nullifierDomainTag]

@[simp] theorem gadget_derivePk_value (ask nk : Digest) :
    (Gadget.derivePk H ask nk).value = derivePk H ask nk := rfl

@[simp] theorem holds_gadget_derivePk (ask nk : Digest) :
    (Gadget.derivePk H ask nk).Holds Q ↔ akInput ask ∈ Q ∧ pkInput (deriveAk H ask) nk ∈ Q := by
  rw [Gadget.derivePk, Gadget.deriveAk, Circuit.holds_bind, holds_hashWithDomain,
    holds_hashWithDomain]
  rfl

@[simp] theorem gadget_noteInner_value (pk rho r : Digest) :
    (Gadget.noteInner H pk rho r).value = noteInner H pk rho r := rfl

@[simp] theorem holds_gadget_noteInner (pk rho r : Digest) :
    (Gadget.noteInner H pk rho r).Holds Q ↔ noteInput pk rho r ∈ Q :=
  holds_hashWithDomain ..

@[simp] theorem gadget_noteCommitment_value (inner : Digest) (value : Felt) :
    (Gadget.noteCommitment H inner value).value = commitmentFromInner H inner value := rfl

@[simp] theorem holds_gadget_noteCommitment (inner : Digest) (value : Felt) :
    (Gadget.noteCommitment H inner value).Holds Q ↔ cmInput inner value ∈ Q :=
  holds_hashWithDomain ..

@[simp] theorem gadget_outputRho_value (nf₁ nf₂ : Digest) (index : ℕ) :
    (Gadget.outputRho H nf₁ nf₂ index).value = outputRho H nf₁ nf₂ index := rfl

@[simp] theorem holds_gadget_outputRho (nf₁ nf₂ : Digest) (index : ℕ) :
    (Gadget.outputRho H nf₁ nf₂ index).Holds Q ↔ rhoInput nf₁ nf₂ index ∈ Q := by
  rw [Gadget.outputRho, constant, Circuit.pure_bind, holds_hashWithDomain]
  rfl

@[simp] theorem gadget_noteNullifierTagged_value (tag : Felt) (nk rho r : Digest) :
    (Gadget.noteNullifierTagged H tag nk rho r).value = H.hashToFelts (nfInput tag nk rho r) := rfl

@[simp] theorem holds_gadget_noteNullifierTagged (tag : Felt) (nk rho r : Digest) :
    (Gadget.noteNullifierTagged H tag nk rho r).Holds Q ↔ nfInput tag nk rho r ∈ Q := by
  simp only [Gadget.noteNullifierTagged, hashWithDomainTarget, holds_hash]
  rfl

end

end Qnero
