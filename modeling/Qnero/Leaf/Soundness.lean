import Qnero.Leaf.Constraints

/-!
# Soundness of the spend leaf

What an assignment that satisfies the leaf circuit is worth. The balance is an equation of field
elements; below 62 bits per term neither side reaches the field order, so it is an equation of
integers and no value is minted. The one leaf that spends nothing is the padding leaf, and it
cannot carry value: its header commits to the empty tree, so none of its inputs is real.
-/

namespace Qnero

open Plonkish Builder

variable {H : Poseidon2} {Q : Set (List Felt)} {t : SpendTargets}

/-- Five terms below `2^62` cannot wrap the field: their field balance is an integer balance. -/
theorem val_balance {a b c d e : Felt} (ha : a.val < 2 ^ valueBits) (hb : b.val < 2 ^ valueBits)
    (hc : c.val < 2 ^ valueBits) (hd : d.val < 2 ^ valueBits) (he : e.val < 2 ^ valueBits)
    (h : a + b = c + d + e) : a.val + b.val = c.val + d.val + e.val := by
  -- The longer side has three terms, and three of them stay below the field order.
  have hp : 3 * 2 ^ valueBits < goldilocks := by norm_num [valueBits, goldilocks]
  have hcd : (c + d).val = c.val + d.val := ZMod.val_add_of_lt (by omega)
  have left : (a + b).val = a.val + b.val := ZMod.val_add_of_lt (by omega)
  have right : (c + d + e).val = c.val + d.val + e.val := by
    rw [ZMod.val_add_of_lt (by omega), hcd]
  rw [← left, ← right, h]

theorem LeafHolds.balance_val (h : LeafHolds H Q t) :
    (t.inputs 0).value.val + (t.inputs 1).value.val =
      (t.outputs 0).value.val + (t.outputs 1).value.val + t.fee.val := by
  obtain ⟨_, h0⟩ := h.inputs 0
  obtain ⟨_, h1⟩ := h.inputs 1
  exact val_balance h0.value_lt h1.value_lt (h.outputs 0).value_lt (h.outputs 1).value_lt h.fee_lt
    h.balance

/-- A climb ends in a hash, or is the leaf it started from: never in the zero digest. -/
theorem climb_ne_zero (hH : CollisionFree H.hashToFelts Q) {steps : List PathStep} {c : Digest} :
    c ≠ 0 → ClimbIn H Q c steps → climb H c steps ≠ 0 := by
  induction steps generalizing c with
  | nil => exact fun hc _ => hc
  | cons s rest ih =>
    rintro _ ⟨_, hmem, hrest⟩
    exact ih (hH.ne_zero _ hmem) hrest

/-- Every list of a climb was hashed, so its slots are in range. -/
theorem ClimbIn.position_lt : ∀ {steps : List PathStep} {c : Digest}, ClimbIn H Q c steps →
    ∀ s ∈ steps, s.1 < 4
  | (_, _) :: _, _, ⟨hpos, _, hrest⟩, s, hs => by
    rcases List.mem_cons.1 hs with rfl | hs
    · exact hpos
    · exact hrest.position_lt s hs

theorem InputHolds.commitment_ne_zero (hH : CollisionFree H.hashToFelts Q) {i : Fin 2} {dummy : Bool}
    (h : InputHolds H Q t i dummy) : ((t.inputs i).note H).commitment H ≠ 0 := by
  rw [InputNoteTargets.note_commitment]
  exact hH.ne_zero _ h.cm_mem

/-- A real input hangs below a tree root that is not the empty one. -/
theorem InputHolds.zkTreeRoot_ne_zero (hH : CollisionFree H.hashToFelts Q) {i : Fin 2}
    (h : InputHolds H Q t i false) : t.header.zkTreeRoot ≠ 0 := by
  rw [← h.root_eq rfl]
  exact climb_ne_zero hH (h.commitment_ne_zero hH) h.climb_mem

/-- A real input's path, cut at the witnessed depth, verifies against the header's root. -/
theorem InputHolds.merklePath_root {i : Fin 2} (h : InputHolds H Q t i false)
    (hdepth : t.depth.val ≤ maxDepth) :
    (t.merklePath i).root H (((t.inputs i).note H).commitment H) = .ok t.header.zkTreeRoot := by
  rw [SpendTargets.merklePath, MerklePath.root_ofSteps H _ h.climb_mem.position_lt, h.root_eq rfl]
  simpa [MerklePathTargets.steps] using Or.inl hdepth

/-- **Both inputs of a padding leaf are dummies.** -/
theorem LeafHolds.dummy_of_padding (hH : CollisionFree H.hashToFelts Q) (hpin : PaddingPinned H)
    (hpad : paddingPreimage H ∈ Q) (h : LeafHolds H Q t) (hb : t.blockHash = paddingBlockHash)
    (i : Fin 2) : InputHolds H Q t i true := by
  obtain ⟨dummy, hi⟩ := h.inputs i
  cases dummy with
  | true => exact hi
  | false =>
    -- A real input would put a hash under the root of the empty tree.
    have hroot := zkTreeRoot_of_padding hH hpin hpad h.header_mem (h.blockHash_eq.symm.trans hb)
    exact absurd hroot (hi.zkTreeRoot_ne_zero hH)

theorem LeafHolds.padding_no_value (hH : CollisionFree H.hashToFelts Q) (hpin : PaddingPinned H)
    (hpad : paddingPreimage H ∈ Q) (h : LeafHolds H Q t) (hb : t.blockHash = paddingBlockHash) :
    t.fee = 0 ∧ ∀ i, (t.outputs i).value = 0 := by
  have zero : ∀ i, (t.inputs i).value.val = 0 := fun i => by
    rw [(h.dummy_of_padding hH hpin hpad hb i).value_eq_zero rfl, ZMod.val_zero]
  -- The integer balance leaves nothing for three terms that sum to zero.
  have balance := h.balance_val
  rw [zero 0, zero 1] at balance
  simp only [← ZMod.val_eq_zero, Fin.forall_fin_two]
  omega

/-- **Soundness of the leaf circuit.** For every satisfying assignment, with the sponge collision
free on the lists it hashes: the values balance over the integers, each below `2^62`; a leaf that
is not padding spends a note; a real input publishes the nullifier of a note whose commitment
climbs, at the witnessed depth, to the tree root the block hash commits to, and a dummy publishes a
dummy nullifier and carries nothing; the nullifiers differ; the outputs are notes with derived
`rho`; and the padding leaf moves no value. -/
theorem spendCircuit_sound (hH : CollisionFree H.hashToFelts Q) (hpin : PaddingPinned H)
    (hpad : paddingPreimage H ∈ Q) (h : (spendCircuit H t).Holds Q) :
    ((t.inputs 0).value.val + (t.inputs 1).value.val =
        (t.outputs 0).value.val + (t.outputs 1).value.val + t.fee.val ∧
      (∀ i, (t.inputs i).value.val < 2 ^ 62) ∧ (∀ i, (t.outputs i).value.val < 2 ^ 62) ∧
      t.fee.val < 2 ^ 62) ∧
    (t.blockHash ≠ paddingBlockHash → ∃ i, (t.inputs i).isDummy = 0) ∧
    (∀ i, ((t.inputs i).isDummy = 0 ∧
          t.nullifiers i = ((t.inputs i).note H).nullifier H (t.inputs i).nk ∧
          ((t.inputs i).note H).pk = derivePk H (t.inputs i).ask (t.inputs i).nk ∧
          t.depth.val ≤ 20 ∧
          (t.merklePath i).root H (((t.inputs i).note H).commitment H) = .ok t.header.zkTreeRoot ∧
          t.blockHash = H.hashToFelts t.header.preimage) ∨
        ((t.inputs i).isDummy = 1 ∧
          t.nullifiers i = dummyNullifier H (t.inputs i).nk (t.inputs i).rho (t.inputs i).r ∧
          (t.inputs i).value = 0)) ∧
    t.nullifiers 0 ≠ t.nullifiers 1 ∧
    (∀ i, t.commitments i = (t.outputNote H i).commitment H ∧
      (t.outputNote H i).rho = outputRho H (t.nullifiers 0) (t.nullifiers 1) i) ∧
    (t.blockHash = paddingBlockHash → t.fee = 0 ∧ ∀ i, (t.outputs i).value = 0) := by
  have leaf := LeafHolds.of_holds h
  refine ⟨⟨leaf.balance_val, fun i => ?_, fun i => (leaf.outputs i).value_lt, leaf.fee_lt⟩,
    leaf.real_leaf.resolve_left, fun i => ?_, leaf.nullifiers_ne,
    fun i => ⟨(leaf.outputs i).commitment_eq, rfl⟩, leaf.padding_no_value hH hpin hpad⟩
  · obtain ⟨_, hi⟩ := leaf.inputs i
    exact hi.value_lt
  · obtain ⟨dummy, hi⟩ := leaf.inputs i
    cases dummy with
    | false =>
      exact .inl ⟨hi.isDummy, hi.nullifier_eq, rfl, leaf.depth_le,
        hi.merklePath_root leaf.depth_le, leaf.blockHash_eq⟩
    | true => exact .inr ⟨hi.isDummy, hi.nullifier_eq, hi.value_eq_zero rfl⟩

/-! ## A satisfying assignment

One note worth fifty, alone in a tree of depth one, is spent into notes worth thirty and ten for a
fee of ten; the other input is a dummy. The three empty children sort first, so the note is the
last child of the root.
-/

namespace Sample

/-- The note came in as the first entry of block one. -/
def rhos : Fin 2 → Digest := ![entryRho sampleSponge 1 0, ![1, 0, 0, 0]]

def values : Fin 2 → Felt := ![50, 0]

/-- Input 1 is the dummy. -/
def inputs (i : Fin 2) : InputNoteTargets where
  ask := 0
  nk := 0
  rho := rhos i
  r := 0
  value := values i
  path := ⟨fun _ _ => 0, fun _ => 3⟩
  isDummy := ofBool (i == 1)

def outputs : Fin 2 → OutputNoteTargets := ![⟨0, 0, 30⟩, ⟨0, 0, 10⟩]

def nullifiers (i : Fin 2) : Digest :=
  sampleSponge.hashToFelts (nfInput (nullifierTag (i == 1)) 0 (rhos i) 0)

/-- The commitment of input `i` and the root of the tree it is alone in. -/
def leafOf (i : Fin 2) : Digest :=
  commitmentFromInner sampleSponge
    (noteInner sampleSponge (derivePk sampleSponge 0 0) (rhos i) 0) (values i)

def rootOf (i : Fin 2) : Digest := hashNodePresorted sampleSponge (placeChild 3 (leafOf i) 0)

def header : HeaderTargets := ⟨0, 1, 0, 0, rootOf 0, 0⟩

/-- The output notes, their `rho` derived from the nullifiers above. -/
def outputRhoOf (i : Fin 2) : Digest := outputRho sampleSponge (nullifiers 0) (nullifiers 1) i

def commitments (i : Fin 2) : Digest :=
  commitmentFromInner sampleSponge
    (noteInner sampleSponge (outputs i).pk (outputRhoOf i) (outputs i).r) (outputs i).value

def spend : SpendTargets where
  blockHash := sampleSponge.hashToFelts header.preimage
  nullifiers := nullifiers
  commitments := commitments
  fee := 10
  ctDigest := 0
  header := header
  depth := 1
  inputs := inputs
  outputs := outputs

/-- The lists hashed for input `i` and output `i`, and for spending the output later. -/
def hashedAt (i : Fin 2) : List (List Felt) :=
  [akInput 0, pkInput (deriveAk sampleSponge 0) 0,
    noteInput (derivePk sampleSponge 0 0) (rhos i) 0,
    cmInput (noteInner sampleSponge (derivePk sampleSponge 0 0) (rhos i) 0) (values i),
    nodeInput (placeChild 3 (leafOf i) 0), nodeInput (placeChild 3 (rootOf i) 0),
    nfInput (nullifierTag (i == 1)) 0 (rhos i) 0,
    rhoInput (nullifiers 0) (nullifiers 1) i,
    noteInput (outputs i).pk (outputRhoOf i) (outputs i).r,
    cmInput (noteInner sampleSponge (outputs i).pk (outputRhoOf i) (outputs i).r) (outputs i).value,
    nfInput Domain.nf 0 (outputRhoOf i) (outputs i).r]

/-- Every list the assignment hashes, with the padding header's and the entry's. -/
def hashed : List (List Felt) :=
  paddingPreimage sampleSponge :: header.preimage :: entryRhoInput 1 0 ::
    (List.finRange 2).flatMap hashedAt

theorem holds_spend : (spendCircuit sampleSponge spend).Holds {x | x ∈ hashed} := by decide +kernel

theorem collisionFree : CollisionFree sampleSponge.hashToFelts {x | x ∈ hashed} :=
  collisionFree_sampleSponge (by decide +kernel)

end Sample

theorem spendCircuit_sound_sample :
    CollisionFree sampleSponge.hashToFelts {x | x ∈ Sample.hashed} ∧
      (spendCircuit sampleSponge Sample.spend).Holds {x | x ∈ Sample.hashed} ∧
      (Sample.spend.inputs 0).value.val + (Sample.spend.inputs 1).value.val =
        (Sample.spend.outputs 0).value.val + (Sample.spend.outputs 1).value.val +
          Sample.spend.fee.val ∧
      Sample.spend.nullifiers 0 ≠ Sample.spend.nullifiers 1 := by
  have sound := spendCircuit_sound Sample.collisionFree paddingPinned_sampleSponge
    (List.mem_cons_self ..) Sample.holds_spend
  exact ⟨Sample.collisionFree, Sample.holds_spend, sound.1.1, sound.2.2.2.1⟩

end Qnero
