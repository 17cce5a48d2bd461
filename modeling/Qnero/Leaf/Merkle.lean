import Qnero.Leaf.Gadgets

/-!
# Merkle paths

A path step puts the running hash at one of four slots among three siblings and hashes the four
digests in that order. Off circuit `MerklePath.root` folds the steps it is given; in circuit
`merkleRootFromPath` evaluates all twenty and keeps the result of the active ones, so a prover
chooses how many steps count by the witnessed depth.

The two meet in `merkleRootFromPath_value`: with the flags of a depth `d ≤ 20` the circuit computes
the fold of the first `d` steps.
-/

namespace Qnero

open Plonkish Builder

variable {Q : Set (List Felt)}

/-- Children per node. -/
def arity : ℕ := 4

/-- Depth of the deepest tree, and the number of steps of an in-circuit path. -/
def maxDepth : ℕ := 20

def depthBits : ℕ := 5

/-- The siblings of one step, in slot order. -/
abbrev Siblings : Type := Fin 3 → Digest

/-- The list a node hashes: its children one after the other. -/
def nodeInput (children : Fin 4 → Digest) : List Felt :=
  (List.ofFn fun i => felts (children i)).flatten

theorem nodeInput_eq (children : Fin 4 → Digest) : nodeInput children =
    felts (children 0) ++ (felts (children 1) ++ (felts (children 2) ++ felts (children 3))) := by
  simp [nodeInput, List.ofFn_succ]

@[simp] theorem length_nodeInput (children : Fin 4 → Digest) : (nodeInput children).length = 16 := by
  simp [nodeInput_eq]

/-- The running hash at `position`, the siblings in the other slots in order. -/
def placeChild (position : ℕ) (current : Digest) (siblings : Siblings) : Fin 4 → Digest
  | 0 => if position = 0 then current else siblings 0
  | 1 => if position = 1 then current else if position = 0 then siblings 0 else siblings 1
  | 2 => if position = 2 then current else if position ≤ 1 then siblings 1 else siblings 2
  | 3 => if position = 3 then current else siblings 2

theorem placeChild_mem {position : ℕ} (h : position < 4) (current : Digest) (siblings : Siblings) :
    ∃ i, placeChild position current siblings i = current := by
  have : position = 0 ∨ position = 1 ∨ position = 2 ∨ position = 3 := by omega
  rcases this with rfl | rfl | rfl | rfl
  · exact ⟨0, rfl⟩
  · exact ⟨1, rfl⟩
  · exact ⟨2, rfl⟩
  · exact ⟨3, rfl⟩

section

variable (H : Poseidon2)

def hashNodePresorted (sorted : Fin 4 → Digest) : Digest := H.hashToFelts (nodeInput sorted)

/-- One step of a path: a slot and the three siblings. -/
abbrev PathStep : Type := ℕ × Siblings

/-- Climb the steps from `current`. -/
def climb (current : Digest) : List PathStep → Digest
  | [] => current
  | (position, siblings) :: rest =>
    climb (hashNodePresorted H (placeChild position current siblings)) rest

/-- Every node list of the climb is in `Q`, and every slot is one of the four. -/
def ClimbIn (Q : Set (List Felt)) (current : Digest) : List PathStep → Prop
  | [] => True
  | (position, siblings) :: rest =>
    position < 4 ∧ nodeInput (placeChild position current siblings) ∈ Q ∧
      ClimbIn Q (hashNodePresorted H (placeChild position current siblings)) rest

/-! ## Off circuit -/

structure MerklePath where
  siblings : List Siblings
  positions : List ℕ

/-- The root a path takes `leaf` to. -/
def MerklePath.root (path : MerklePath) (leaf : Digest) : Except String Digest := do
  let levels := path.siblings.length
  let slots := path.positions.length
  if levels ≠ slots then
    throw s!"merkle path has {levels} sibling levels and {slots} positions"
  if maxDepth < levels then
    throw s!"merkle path depth {levels} exceeds MAX_DEPTH {maxDepth}"
  (path.siblings.zip path.positions).foldlM (fun current step =>
    let position := step.2
    if arity ≤ position then throw s!"merkle path position {position} is out of range"
    else pure (hashNodePresorted H (placeChild position current step.1))) leaf

/-- A path of the given steps. -/
def MerklePath.ofSteps (steps : List PathStep) : MerklePath :=
  ⟨steps.map Prod.snd, steps.map Prod.fst⟩

theorem MerklePath.root_ofSteps {steps : List PathStep} (hlen : steps.length ≤ maxDepth)
    (hpos : ∀ s ∈ steps, s.1 < 4) (leaf : Digest) :
    (MerklePath.ofSteps steps).root H leaf = .ok (climb H leaf steps) := by
  have hzip : ((MerklePath.ofSteps steps).siblings.zip (MerklePath.ofSteps steps).positions) =
      steps.map fun s => (s.2, s.1) := by
    simp [MerklePath.ofSteps, List.zip_map']
  have hsizes : (MerklePath.ofSteps steps).siblings.length = steps.length ∧
      (MerklePath.ofSteps steps).positions.length = steps.length := by
    simp [MerklePath.ofSteps]
  simp only [MerklePath.root, hzip, hsizes.1, hsizes.2, ne_eq, not_true_eq_false, if_false,
    not_lt.2 hlen]
  -- Past the two length checks only the fold is left.
  clear hzip hsizes hlen
  induction steps generalizing leaf with
  | nil => rfl
  | cons s rest ih =>
    have hs : ¬ arity ≤ s.1 := not_le.2 (hpos s (List.mem_cons_self ..))
    simp only [List.map_cons, List.foldlM_cons, hs, if_false, pure_bind]
    exact ih (fun t ht => hpos t (List.mem_cons_of_mem _ ht)) _

/-! ## In circuit -/

structure MerklePathTargets where
  siblings : Fin 20 → Siblings
  positions : Fin 20 → Felt

/-- `level < depth` for every level, from the bits of `depth`. -/
def activeLevelFlagsFromBits (depthBits : List Felt) : Wires (Fin 20 → Felt) :=
  Circuit.arrayFromFn fun level => constLessThanBits level depthBits

/-- The children of one level: `current` selected into the slot the position names. -/
def selectChildren (current : Digest) (siblings : Siblings) (at₀ at₁ at₂ at₃ : Felt) :
    Wires (Fin 4 → Digest) :=
  Circuit.arrayFromFn fun slot => Circuit.arrayFromFn fun limb =>
    match slot with
    | 0 => select at₀ (current limb) (siblings 0 limb)
    | 1 => do
      let sibling ← select at₀ (siblings 0 limb) (siblings 1 limb)
      select at₁ (current limb) sibling
    | 2 => do
      let before₂ ← or at₀ at₁
      let sibling ← select before₂ (siblings 1 limb) (siblings 2 limb)
      select at₂ (current limb) sibling
    | 3 => select at₃ (current limb) (siblings 2 limb)

/-- One level of the walk. -/
def merkleLevel (path : MerklePathTargets) (activeLevels : Fin 20 → Felt) (current : Digest)
    (level : Fin 20) : Wires Digest := do
  let position := path.positions level
  rangeCheck position 2
  let at₀ ← isEqual position 0
  let at₁ ← isEqual position 1
  let at₂ ← isEqual position 2
  let at₃ ← isEqual position 3
  let children ← selectChildren current (path.siblings level) at₀ at₁ at₂ at₃
  let parent ← hash H.hashToFelts (nodeInput children)
  -- An inactive level has hashed all the same, and keeps what it was given.
  Circuit.arrayFromFn fun limb => select (activeLevels level) (parent limb) (current limb)

/-- Walk the path from `leafHash`, every level evaluated. -/
def merkleRootFromPath (leafHash : Digest) (path : MerklePathTargets)
    (activeLevels : Fin 20 → Felt) : Wires Digest :=
  (List.finRange 20).foldlM (merkleLevel H path activeLevels) leafHash

/-- The step a level of the witnessed path stands for. -/
def MerklePathTargets.step (path : MerklePathTargets) (level : Fin 20) : PathStep :=
  ((path.positions level).val, path.siblings level)

/-- The first `depth` steps of the witnessed path. -/
def MerklePathTargets.steps (path : MerklePathTargets) (depth : ℕ) : List PathStep :=
  ((List.finRange 20).take depth).map path.step

end

/-- Comparing a wire with a small constant compares its canonical representative. -/
theorem felt_eq_natCast_iff {x : Felt} {n : ℕ} (hn : n < goldilocks) :
    x = (n : Felt) ↔ x.val = n := by
  constructor
  · rintro rfl
    exact ZMod.val_natCast_of_lt hn
  · intro h
    rw [← h, ZMod.natCast_zmod_val]

theorem selectChildren_value {x : Felt} (h : x.val < 4) (current : Digest) (siblings : Siblings) :
    (selectChildren current siblings (ofBool (decide (x = 0))) (ofBool (decide (x = 1)))
      (ofBool (decide (x = 2))) (ofBool (decide (x = 3)))).value =
      placeChild x.val current siblings := by
  have h0 : (x = 0) ↔ x.val = 0 := (ZMod.val_eq_zero x).symm
  have h1 : (x = 1) ↔ x.val = 1 := by simpa using felt_eq_natCast_iff (x := x) (n := 1) (by decide)
  have h2 : (x = 2) ↔ x.val = 2 := by simpa using felt_eq_natCast_iff (x := x) (n := 2) (by decide)
  have h3 : (x = 3) ↔ x.val = 3 := by simpa using felt_eq_natCast_iff (x := x) (n := 3) (by decide)
  simp only [h0, h1, h2, h3]
  -- With the slot known, all four flags are constants.
  have : x.val = 0 ∨ x.val = 1 ∨ x.val = 2 ∨ x.val = 3 := by omega
  funext slot limb
  rcases this with hx | hx | hx | hx <;> rw [hx] <;>
    match slot with
    | 0 => simp [selectChildren, placeChild]
    | 1 => simp [selectChildren, placeChild]
    | 2 => simp [selectChildren, placeChild]
    | 3 => simp [selectChildren, placeChild]

@[simp] theorem holds_selectChildren (current : Digest) (siblings : Siblings) (a b c d : Felt) :
    (selectChildren current siblings a b c d).Holds Q := by
  simp only [selectChildren, Circuit.holds_arrayFromFn]
  intro slot limb
  fin_cases slot <;> simp

variable {H : Poseidon2} {path : MerklePathTargets} {active : Fin 20 → Bool}

theorem merkleLevel_value (current : Digest) {level : Fin 20}
    (h : (path.positions level).val < 4) :
    (merkleLevel H path (fun i => ofBool (active i)) current level).value =
      if active level then
        hashNodePresorted H (placeChild (path.positions level).val current (path.siblings level))
      else current := by
  simp only [merkleLevel, isEqual, Circuit.bind_value, Circuit.pure_value, hash_value,
    Circuit.arrayFromFn_value, selectChildren_value h, select_ofBool]
  cases active level <;> rfl

variable {current : Digest} {levels : List (Fin 20)}

theorem holds_merkleLevel {level : Fin 20} {flags : Fin 20 → Felt} :
    (merkleLevel H path flags current level).Holds Q ↔ (path.positions level).val < 4 ∧
      nodeInput (placeChild (path.positions level).val current (path.siblings level)) ∈ Q := by
  simp only [merkleLevel, isEqual, Circuit.holds_bind, Circuit.pure_value, holds_rangeCheck,
    Circuit.holds_pure, true_and, holds_selectChildren, holds_hash, Circuit.holds_arrayFromFn,
    select, implies_true, and_true]
  constructor
  · rintro ⟨h, hq⟩
    exact ⟨h, selectChildren_value h current _ ▸ hq⟩
  · rintro ⟨h, hq⟩
    exact ⟨h, (selectChildren_value h current _).symm ▸ hq⟩

/-- The gates of a walk over `levels`: at each one the slot is in range and the node list, built
from the hash running there, is in `Q`. -/
def WalkIn (H : Poseidon2) (Q : Set (List Felt)) (path : MerklePathTargets) (active : Fin 20 → Bool)
    (current : Digest) : List (Fin 20) → Prop
  | [] => True
  | level :: rest =>
    (path.positions level).val < 4 ∧
    nodeInput (placeChild (path.positions level).val current (path.siblings level)) ∈ Q ∧
    WalkIn H Q path active
      (if active level then
        hashNodePresorted H (placeChild (path.positions level).val current (path.siblings level))
      else current) rest

theorem holds_foldlM_merkleLevel :
    (levels.foldlM (merkleLevel H path fun i => ofBool (active i)) current).Holds Q ↔
      WalkIn H Q path active current levels := by
  induction levels generalizing current with
  | nil => simp [WalkIn]
  | cons level rest ih =>
    rw [List.foldlM_cons, Circuit.holds_bind, holds_merkleLevel, WalkIn, and_assoc]
    refine and_congr_right fun hpos => and_congr_right fun _ => ?_
    rw [merkleLevel_value current hpos, ih]

/-- Inactive levels drop out of the walk, whatever order the flags come in. -/
theorem foldlM_merkleLevel (h : WalkIn H Q path active current levels) :
    (levels.foldlM (merkleLevel H path fun i => ofBool (active i)) current).value =
        climb H current ((levels.filter active).map path.step) ∧
      ClimbIn H Q current ((levels.filter active).map path.step) := by
  induction levels generalizing current with
  | nil => exact ⟨rfl, trivial⟩
  | cons level rest ih =>
    obtain ⟨hpos, hq, hrest⟩ := h
    rw [List.foldlM_cons, Circuit.bind_value, merkleLevel_value current hpos]
    cases hact : active level with
    | false => simpa [hact] using ih (by simpa [hact] using hrest)
    | true =>
      obtain ⟨hval, hin⟩ := ih hrest
      simp only [hact, if_true, List.filter_cons_of_pos, List.map_cons] at hval hin ⊢
      exact ⟨hval, hpos, hq, hin⟩

theorem filter_level_lt (depth : ℕ) :
    (List.finRange 20).filter (fun i : Fin 20 => decide (i.val < depth)) =
      (List.finRange 20).take depth := by
  by_cases h : depth < 20
  · -- Below twenty there are twenty cases, each a computation.
    have cases : ∀ d : Fin 20, (List.finRange 20).filter (fun i : Fin 20 => decide (i.val < d)) =
        (List.finRange 20).take d := by decide
    exact cases ⟨depth, h⟩
  · rw [List.take_of_length_le (by simpa using h), List.filter_eq_self]
    intro i _
    exact decide_eq_true (by omega)

/-- **The in-circuit walk is the fold of the active steps.** With the flags `level < depth`, a
satisfied walk returns the climb of the first `depth` steps, and every list of that climb was
hashed. -/
theorem merkleRootFromPath_value {leaf : Digest} {depth : ℕ}
    (h : (merkleRootFromPath H leaf path fun i => ofBool (decide (i.val < depth))).Holds Q) :
    (merkleRootFromPath H leaf path fun i => ofBool (decide (i.val < depth))).value =
        climb H leaf (path.steps depth) ∧
      ClimbIn H Q leaf (path.steps depth) := by
  have := foldlM_merkleLevel (holds_foldlM_merkleLevel.1 h)
  rwa [filter_level_lt] at this

theorem holds_activeLevelFlags (bits : List Felt) : (activeLevelFlagsFromBits bits).Holds Q := by
  simp [activeLevelFlagsFromBits]

theorem activeLevelFlags_value {depth : ℕ} (h : depth < 2 ^ depthBits) :
    (activeLevelFlagsFromBits (bitsOf depth depthBits)).value =
      fun i => ofBool (decide (i.val < depth)) := by
  funext i
  have hi : i.val < 2 ^ depthBits := lt_trans i.isLt (by decide)
  simp [activeLevelFlagsFromBits, constLessThanBits_value hi h]

end Qnero
