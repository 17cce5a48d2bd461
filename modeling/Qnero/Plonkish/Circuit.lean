import Mathlib.Algebra.Field.ZMod
import Mathlib.Data.List.OfFn
import Mathlib.Tactic.Ring
import Mathlib.Tactic.LinearCombination
import Qnero.Numerals

/-!
# Constraint systems as a writer monad

A circuit is written against a builder: each call returns the wire it computes and may add a
constraint. Under a fixed assignment of the input wires every wire *has* a value, so a wire is
modelled by the field element it carries and a builder program by that element together with the
gates emitted on the way. Running the same program on two assignments compares two lists of gates.

* `Gate` — the three constraints a program can add, and the inputs it feeds to the hash sponge.
* `Circuit.Holds Q` — every gate holds, and **every sponge input lies in `Q`**. A hash cannot be
  injective on all lists over a finite field, so `Q` names the lists on which it is assumed to be:
  statements about a circuit carry the lists its assignment hashes through this one predicate.

The arithmetic calls (`add`, `mul`, `isEqual`, `select`, …) have a determined value and no gate of
their own here: their internal gates force exactly that value.
-/

namespace Qnero.Plonkish

variable {p : ℕ} {α β : Type} {Q : Set (List (ZMod p))}

/-- A constraint on wire values, or a record of one sponge call. -/
inductive Gate (p : ℕ) where
  | connect (x y : ZMod p)
  | rangeCheck (x : ZMod p) (bits : ℕ)
  | assertBool (b : ZMod p)
  | sponge (input : List (ZMod p))

/-- When a gate is satisfied; a sponge call is when its input is among the lists `Q`. -/
def Gate.Holds (Q : Set (List (ZMod p))) : Gate p → Prop
  | .connect x y => x = y
  | .rangeCheck x bits => x.val < 2 ^ bits
  | .assertBool b => b * b = b
  | .sponge input => input ∈ Q

instance Gate.decidableHolds [DecidablePred (· ∈ Q)] : DecidablePred (Gate.Holds Q)
  | .connect x y => inferInstanceAs (Decidable (x = y))
  | .rangeCheck x bits => inferInstanceAs (Decidable (x.val < 2 ^ bits))
  | .assertBool b => inferInstanceAs (Decidable (b * b = b))
  | .sponge input => inferInstanceAs (Decidable (input ∈ Q))

/-- A builder program run on an assignment: what it returns, and the gates it added. -/
structure Circuit (p : ℕ) (α : Type) where
  value : α
  gates : List (Gate p)

namespace Circuit

/-- Every gate of the program holds, all its sponge inputs lying in `Q`. -/
def Holds (Q : Set (List (ZMod p))) (c : Circuit p α) : Prop :=
  ∀ g ∈ c.gates, g.Holds Q

/-- A program can be run on an assignment and its gates checked. -/
instance decidableHolds [DecidablePred (· ∈ Q)] (c : Circuit p α) : Decidable (c.Holds Q) :=
  inferInstanceAs (Decidable (∀ g ∈ c.gates, g.Holds Q))

/-- The lists a program hashes. -/
def sponged (c : Circuit p α) : List (List (ZMod p)) :=
  c.gates.filterMap fun
    | .sponge input => some input
    | _ => none

instance : Monad (Circuit p) where
  pure a := ⟨a, []⟩
  bind c f := ⟨(f c.value).value, c.gates ++ (f c.value).gates⟩

@[simp] theorem pure_value (a : α) : (pure a : Circuit p α).value = a := rfl

@[simp] theorem bind_value (c : Circuit p α) (f : α → Circuit p β) :
    (c >>= f).value = (f c.value).value := rfl

@[simp] theorem pure_bind (a : α) (f : α → Circuit p β) :
    ((pure a : Circuit p α) >>= f) = f a := rfl

@[simp] theorem holds_pure (a : α) : (pure a : Circuit p α).Holds Q := by
  intro g hg
  cases hg

/-- **Sequencing is conjunction.** The one rule every circuit proof is built from. -/
@[simp] theorem holds_bind (c : Circuit p α) (f : α → Circuit p β) :
    (c >>= f).Holds Q ↔ c.Holds Q ∧ (f c.value).Holds Q := by
  constructor
  · intro h
    exact ⟨fun g hg => h g (List.mem_append_left _ hg),
      fun g hg => h g (List.mem_append_right _ hg)⟩
  · rintro ⟨hc, hf⟩ g hg
    rcases List.mem_append.1 hg with hg | hg
    · exact hc g hg
    · exact hf g hg

/-- Enlarging the set of hashed lists keeps a circuit satisfied. -/
theorem Holds.mono {c : Circuit p α} {Q' : Set (List (ZMod p))} (h : c.Holds Q) (hQ : Q ⊆ Q') :
    c.Holds Q' := by
  intro g hg
  have hg' := h g hg
  cases g with
  | sponge input => exact hQ hg'
  | connect x y => exact hg'
  | rangeCheck x bits => exact hg'
  | assertBool b => exact hg'

/-- Add one gate. -/
def emit (g : Gate p) : Circuit p Unit := ⟨(), [g]⟩

@[simp] theorem holds_emit (g : Gate p) : (emit g).Holds Q ↔ g.Holds Q := by
  simp [Holds, emit]

/-! ## Loops

`arrayFromFn` and `mapList` run one program per index or list element and collect the results,
`forEach` and `forEachPair` run one per element or per pair of elements for the gates alone, and
`List.foldlM` threads an accumulator.
-/

/-- One program per index, in index order. -/
def arrayFromFn {n : ℕ} (f : Fin n → Circuit p α) : Circuit p (Fin n → α) :=
  ⟨fun i => (f i).value, (List.ofFn fun i => (f i).gates).flatten⟩

@[simp] theorem arrayFromFn_value {n : ℕ} (f : Fin n → Circuit p α) :
    (arrayFromFn f).value = fun i => (f i).value := rfl

@[simp] theorem holds_arrayFromFn {n : ℕ} (f : Fin n → Circuit p α) :
    (arrayFromFn f).Holds Q ↔ ∀ i, (f i).Holds Q := by
  simp only [Holds, arrayFromFn, List.mem_flatten, List.mem_ofFn]
  constructor
  · intro h i g hg
    exact h g ⟨_, ⟨i, rfl⟩, hg⟩
  · rintro h g ⟨_, ⟨i, rfl⟩, hg⟩
    exact h i g hg

/-- One program per list element, for its gates. -/
def forEach (l : List β) (f : β → Circuit p Unit) : Circuit p Unit :=
  ⟨(), l.flatMap fun b => (f b).gates⟩

@[simp] theorem holds_forEach (l : List β) (f : β → Circuit p Unit) :
    (forEach l f).Holds Q ↔ ∀ b ∈ l, (f b).Holds Q := by
  simp only [Holds, forEach, List.mem_flatMap]
  constructor
  · intro h b hb g hg
    exact h g ⟨b, hb, hg⟩
  · rintro h g ⟨b, hb, hg⟩
    exact h b hb g hg

/-- One program per list element, in list order. -/
def mapList (l : List β) (f : β → Circuit p α) : Circuit p (List α) :=
  ⟨l.map fun b => (f b).value, l.flatMap fun b => (f b).gates⟩

@[simp] theorem mapList_value (l : List β) (f : β → Circuit p α) :
    (mapList l f).value = l.map fun b => (f b).value := rfl

@[simp] theorem holds_mapList (l : List β) (f : β → Circuit p α) :
    (mapList l f).Holds Q ↔ ∀ b ∈ l, (f b).Holds Q :=
  holds_forEach l fun b => ⟨(), (f b).gates⟩

/-- One program per pair of positions `i < j`. -/
def forEachPair (f : β → β → Circuit p Unit) : List β → Circuit p Unit
  | [] => pure ()
  | b :: rest => do
    forEach rest (f b)
    forEachPair f rest

@[simp] theorem holds_forEachPair (f : β → β → Circuit p Unit) (l : List β) :
    (forEachPair f l).Holds Q ↔ l.Pairwise fun a b => (f a b).Holds Q := by
  induction l with
  | nil => simp [forEachPair]
  | cons b rest ih => simp [forEachPair, ih]

@[simp] theorem foldlM_value (f : α → β → Circuit p α) (a : α) (l : List β) :
    (l.foldlM f a).value = l.foldl (fun a b => (f a b).value) a := by
  induction l generalizing a with
  | nil => rfl
  | cons b l ih => simp [List.foldlM_cons, ih]

/-- A loop whose body adds no gate adds none. -/
theorem holds_foldlM_of_forall {f : α → β → Circuit p α} (h : ∀ a b, (f a b).Holds Q) (a : α)
    (l : List β) : (l.foldlM f a).Holds Q := by
  induction l generalizing a with
  | nil => simp
  | cons b l ih => simp [List.foldlM_cons, h, ih]

end Circuit

/-! ## Booleans on wires -/

/-- A bit as a field element. -/
def ofBool (b : Bool) : ZMod p := if b then 1 else 0

@[simp] theorem ofBool_true : (ofBool true : ZMod p) = 1 := rfl

@[simp] theorem ofBool_false : (ofBool false : ZMod p) = 0 := rfl

section Prime

variable [hp : Fact p.Prime]

@[simp] theorem ofBool_eq_zero {b : Bool} : (ofBool b : ZMod p) = 0 ↔ b = false := by
  cases b <;> simp

@[simp] theorem ofBool_eq_one {b : Bool} : (ofBool b : ZMod p) = 1 ↔ b = true := by
  cases b <;> simp

/-- In a field, `b² = b` leaves only the two bits. -/
theorem mul_self_eq_self_iff {x : ZMod p} : x * x = x ↔ ∃ b : Bool, x = ofBool b := by
  constructor
  · intro h
    -- A field has no zero divisors, so one of the two factors vanishes.
    have : x * (x - 1) = 0 := by linear_combination h
    rcases mul_eq_zero.1 this with h0 | h1
    · exact ⟨false, h0⟩
    · exact ⟨true, sub_eq_zero.1 h1⟩
  · rintro ⟨b, rfl⟩
    cases b <;> simp

end Prime

/-! ## The builder's calls -/

namespace Builder

@[simp] def constant (c : ZMod p) : Circuit p (ZMod p) := pure c

@[simp] def zero : Circuit p (ZMod p) := pure 0

@[simp] def one : Circuit p (ZMod p) := pure 1

@[simp] def two : Circuit p (ZMod p) := pure 2

@[simp] def constantBool (b : Bool) : Circuit p (ZMod p) := pure (ofBool b)

@[simp] def add (x y : ZMod p) : Circuit p (ZMod p) := pure (x + y)

@[simp] def sub (x y : ZMod p) : Circuit p (ZMod p) := pure (x - y)

@[simp] def mul (x y : ZMod p) : Circuit p (ZMod p) := pure (x * y)

@[simp] def not (b : ZMod p) : Circuit p (ZMod p) := pure (1 - b)

@[simp] def and (a b : ZMod p) : Circuit p (ZMod p) := pure (a * b)

@[simp] def or (a b : ZMod p) : Circuit p (ZMod p) := pure (a + b - a * b)

@[simp] def isEqual (x y : ZMod p) : Circuit p (ZMod p) := pure (ofBool (decide (x = y)))

/-- `if b then x else y`, for a bit `b`. -/
@[simp] def select (b x y : ZMod p) : Circuit p (ZMod p) := pure (b * x + (1 - b) * y)

/-! On bits the arithmetic calls are the boolean operations. -/

theorem not_ofBool (b : Bool) : (not (ofBool b) : Circuit p (ZMod p)) = pure (ofBool (!b)) := by
  cases b <;> simp

theorem and_ofBool (a b : Bool) :
    (and (ofBool a) (ofBool b) : Circuit p (ZMod p)) = pure (ofBool (a && b)) := by
  cases a <;> cases b <;> simp

theorem or_ofBool (a b : Bool) :
    (or (ofBool a) (ofBool b) : Circuit p (ZMod p)) = pure (ofBool (a || b)) := by
  cases a <;> cases b <;> simp

theorem select_ofBool (b : Bool) (x y : ZMod p) :
    select (ofBool b) x y = pure (if b then x else y) := by
  cases b <;> simp

def connect (x y : ZMod p) : Circuit p Unit := Circuit.emit (.connect x y)

def rangeCheck (x : ZMod p) (bits : ℕ) : Circuit p Unit := Circuit.emit (.rangeCheck x bits)

/-- The constraint a boolean input wire is declared with. -/
def assertBool (b : ZMod p) : Circuit p Unit := Circuit.emit (.assertBool b)

/-- The little-endian bits of `x`, which is range checked to that many of them. Below the bit
length of the field the decomposition is unique, so the bits are those of `x.val`. -/
def splitLe (x : ZMod p) (bits : ℕ) : Circuit p (List (ZMod p)) := do
  rangeCheck x bits
  pure ((List.range bits).map fun i => ofBool (x.val.testBit i))

/-- One call of the hash sponge. -/
def hash {D : Type} (H : List (ZMod p) → D) (input : List (ZMod p)) : Circuit p D := do
  Circuit.emit (.sponge input)
  pure (H input)

/-- Two arrays of wires are equal limb by limb. -/
def connectArrays {n : ℕ} (x y : Fin n → ZMod p) : Circuit p Unit := do
  let _ ← Circuit.arrayFromFn fun i => connect (x i) (y i)

@[simp] theorem holds_connect (x y : ZMod p) : (connect x y).Holds Q ↔ x = y := by
  simp [connect, Gate.Holds]

@[simp] theorem holds_rangeCheck (x : ZMod p) (bits : ℕ) :
    (rangeCheck x bits).Holds Q ↔ x.val < 2 ^ bits := by
  simp [rangeCheck, Gate.Holds]

@[simp] theorem holds_assertBool [Fact p.Prime] (b : ZMod p) :
    (assertBool b).Holds Q ↔ ∃ c : Bool, b = ofBool c := by
  simp [assertBool, Gate.Holds, mul_self_eq_self_iff]

@[simp] theorem splitLe_value (x : ZMod p) (bits : ℕ) :
    (splitLe x bits).value = (List.range bits).map fun i => ofBool (x.val.testBit i) := rfl

@[simp] theorem holds_splitLe (x : ZMod p) (bits : ℕ) :
    (splitLe x bits).Holds Q ↔ x.val < 2 ^ bits := by
  simp [splitLe]

@[simp] theorem hash_value {D : Type} (H : List (ZMod p) → D) (input : List (ZMod p)) :
    (hash H input).value = H input := rfl

@[simp] theorem holds_hash {D : Type} (H : List (ZMod p) → D) (input : List (ZMod p)) :
    (hash H input).Holds Q ↔ input ∈ Q := by
  simp [hash, Gate.Holds]

@[simp] theorem holds_connectArrays {n : ℕ} (x y : Fin n → ZMod p) :
    (connectArrays x y).Holds Q ↔ x = y := by
  simp [connectArrays, funext_iff]

end Builder

/-! ## Collision freedom

What a proof may assume of the sponge: on the lists actually hashed it is injective and never
returns zero. Over a finite field this cannot hold of *all* lists, so the set is explicit.
-/

/-- `hash` has no collision on `Q` and does not map it to zero. -/
structure CollisionFree {A D : Type} [Zero D] (hash : List A → D) (Q : Set (List A)) : Prop where
  injOn : Set.InjOn hash Q
  ne_zero : ∀ x ∈ Q, hash x ≠ 0

theorem CollisionFree.inj {A D : Type} [Zero D] {hash : List A → D} {Q : Set (List A)}
    (h : CollisionFree hash Q) {x y : List A} (hx : x ∈ Q) (hy : y ∈ Q)
    (e : hash x = hash y) : x = y :=
  h.injOn hx hy e

end Qnero.Plonkish
