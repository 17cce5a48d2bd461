import Qnero.Batch.PrivateBatch
import Qnero.Leaf.Soundness
import Qnero.Ledger
import Qnero.Shielded.Settle

/-!
# The notes behind the leaves

The chain sees commitments; the notes behind them exist for whoever can open them. Where the sponge
does not collide a leaf has one value and, if it can be opened at all, one nullifier. So the leaves
make a ledger: `LeafHolds.transfer` is a spend as a transfer of that ledger, in balance and with
each consumed note unspent before and spent after.
-/

namespace Qnero

open Plonkish Ledger

variable {H : Poseidon2} {Q : Set (List Felt)} {leaf : Hash256}

/-! ## One value, one nullifier -/

/-- `leaf` commits to `value` under `inner`, by a list that was hashed. -/
structure Commits (H : Poseidon2) (Q : Set (List Felt)) (leaf : Hash256) (inner : Digest)
    (value : Felt) : Prop where
  mem : cmInput inner value ∈ Q
  eq : leaf = H.hashToBytes (cmInput inner value)

theorem Commits.unique (hH : CollisionFree H.hashToFelts Q) {inner inner' : Digest}
    {value value' : Felt} (h : Commits H Q leaf inner value) (h' : Commits H Q leaf inner' value') :
    inner = inner' ∧ value = value' :=
  cmInput_inj.1 (hH.inj h.mem h'.mem (digestBytes_injective (h.eq.symm.trans h'.eq)))

open Classical in
/-- The value a leaf commits to, zero where it commits to none. -/
noncomputable def leafValue (H : Poseidon2) (Q : Set (List Felt)) (leaf : Hash256) : ℕ :=
  if h : ∃ value, ∃ inner, Commits H Q leaf inner value then h.choose.val else 0

theorem Commits.leafValue_eq (hH : CollisionFree H.hashToFelts Q) {inner : Digest} {value : Felt}
    (h : Commits H Q leaf inner value) : leafValue H Q leaf = value.val := by
  have ex : ∃ value, ∃ inner, Commits H Q leaf inner value := ⟨value, inner, h⟩
  obtain ⟨inner', h'⟩ := ex.choose_spec
  rw [leafValue, dif_pos ex, (h.unique hH h').2]

/-- The secrets that open a leaf: the keys of its owner and the randomness of its note. -/
structure Opening where
  ask : Digest
  nk : Digest
  rho : Digest
  r : Digest

/-- The note commitment of `leaf` was computed from these secrets. -/
structure Opens (H : Poseidon2) (Q : Set (List Felt)) (leaf : Hash256) (o : Opening)
    (value : Felt) : Prop where
  ak_mem : akInput o.ask ∈ Q
  pk_mem : pkInput (deriveAk H o.ask) o.nk ∈ Q
  note_mem : noteInput (derivePk H o.ask o.nk) o.rho o.r ∈ Q
  commits : Commits H Q leaf (noteInner H (derivePk H o.ask o.nk) o.rho o.r) value

def Opening.nullifier (H : Poseidon2) (o : Opening) : Hash256 :=
  digestBytes (Qnero.nullifier H o.nk o.rho o.r)

/-- **A leaf has one nullifier.** -/
theorem Opens.nullifier_unique (hH : CollisionFree H.hashToFelts Q) {o o' : Opening}
    {value value' : Felt} (h : Opens H Q leaf o value) (h' : Opens H Q leaf o' value') :
    o.nullifier H = o'.nullifier H := by
  -- Down the chain of hashes: the commitment fixes `inner`, that fixes `pk`, and that fixes `nk`.
  have inner := (h.commits.unique hH h'.commits).1
  obtain ⟨pk, rho, r⟩ := noteInput_inj.1 (hH.inj h.note_mem h'.note_mem inner)
  have nk := (pkInput_inj.1 (hH.inj h.pk_mem h'.pk_mem pk)).2
  rw [Opening.nullifier, Opening.nullifier, nk, rho, r]

/-- The leaves whose real nullifier is among `used`. -/
def spentLeaves (H : Poseidon2) (Q : Set (List Felt)) (used : Finset Hash256) : Set Hash256 :=
  {leaf | ∃ o value, Opens H Q leaf o value ∧ o.nullifier H ∈ used}

theorem spentLeaves_mono {used used' : Finset Hash256} (h : used ⊆ used') :
    spentLeaves H Q used ⊆ spentLeaves H Q used' :=
  fun _ ⟨o, value, opens, mem⟩ => ⟨o, value, opens, h mem⟩

theorem Opens.mem_spentLeaves_iff (hH : CollisionFree H.hashToFelts Q) {o : Opening} {value : Felt}
    (h : Opens H Q leaf o value) {used : Finset Hash256} :
    leaf ∈ spentLeaves H Q used ↔ o.nullifier H ∈ used := by
  constructor
  · rintro ⟨o', value', opens, mem⟩
    rwa [h.nullifier_unique hH opens]
  · exact fun mem => ⟨o, value, h, mem⟩

/-! ## The notes of a spend -/

variable {t : SpendTargets} {i : Fin 2}

/-- The leaf an input opens. -/
def SpendTargets.inputLeaf (H : Poseidon2) (t : SpendTargets) (i : Fin 2) : Hash256 :=
  digestBytes (((t.inputs i).note H).commitment H)

def InputNoteTargets.opening (input : InputNoteTargets) : Opening :=
  ⟨input.ask, input.nk, input.rho, input.r⟩

theorem InputHolds.opens {dummy : Bool} (h : InputHolds H Q t i dummy) :
    Opens H Q (t.inputLeaf H i) (t.inputs i).opening (t.inputs i).value where
  ak_mem := h.ak_mem
  pk_mem := h.pk_mem
  note_mem := h.note_mem
  commits := ⟨h.cm_mem, by rw [SpendTargets.inputLeaf, InputNoteTargets.note_commitment]; rfl⟩

theorem OutputHolds.commits (h : OutputHolds H Q t i) :
    Commits H Q (digestBytes (t.commitments i)) ((t.outputNote H i).inner H)
      (t.outputs i).value where
  mem := h.cm_mem
  eq := by
    rw [h.commitment_eq, SpendTargets.outputNote_commitment]
    rfl

/-- The inputs that are not dummies. -/
def SpendTargets.realInputs (t : SpendTargets) : List (Fin 2) :=
  (List.finRange 2).filter fun i => (t.inputs i).isDummy = 0

/-- A real input's facts, with its flag resolved. -/
theorem LeafHolds.real (h : LeafHolds H Q t) (hi : i ∈ t.realInputs) : InputHolds H Q t i false := by
  have flag : (t.inputs i).isDummy = 0 := by simpa [SpendTargets.realInputs] using hi
  obtain ⟨dummy, holds⟩ := h.inputs i
  have := holds.isDummy
  rw [flag, eq_comm, ofBool_eq_zero] at this
  rwa [this] at holds

/-- A real input publishes the nullifier of its note. -/
theorem LeafHolds.nullifier_eq (h : LeafHolds H Q t) (hi : i ∈ t.realInputs) :
    (t.inputs i).opening.nullifier H = digestBytes (t.nullifiers i) := by
  rw [(h.real hi).nullifier_eq]
  rfl

theorem LeafHolds.leafValue_input (hH : CollisionFree H.hashToFelts Q) (h : LeafHolds H Q t)
    (hi : i ∈ t.realInputs) : leafValue H Q (t.inputLeaf H i) = (t.inputs i).value.val :=
  (h.real hi).opens.commits.leafValue_eq hH

/-- Dummies carry nothing, so the real inputs carry all the value. -/
theorem LeafHolds.sum_realInputs (h : LeafHolds H Q t) :
    (t.realInputs.map fun i => (t.inputs i).value.val).sum =
      (t.inputs 0).value.val + (t.inputs 1).value.val := by
  have zero : ∀ i, (t.inputs i).isDummy ≠ 0 → (t.inputs i).value.val = 0 := by
    intro i hne
    obtain ⟨dummy, holds⟩ := h.inputs i
    cases dummy with
    | false => exact absurd holds.isDummy hne
    | true => rw [holds.value_eq_zero rfl, ZMod.val_zero]
  have all : List.finRange 2 = [0, 1] := rfl
  unfold SpendTargets.realInputs
  rw [all]
  by_cases h0 : (t.inputs 0).isDummy = 0 <;> by_cases h1 : (t.inputs 1).isDummy = 0 <;>
    simp [h0, h1, zero]

/-- Two real inputs open different leaves: their nullifiers differ. -/
theorem LeafHolds.inputLeaf_injOn (hH : CollisionFree H.hashToFelts Q) (h : LeafHolds H Q t) :
    ∀ i ∈ t.realInputs, ∀ j ∈ t.realInputs, t.inputLeaf H i = t.inputLeaf H j → i = j := by
  intro i hi j hj same
  have opens := (h.real hi).opens
  rw [same] at opens
  have nullifiers := opens.nullifier_unique hH (h.real hj).opens
  rw [h.nullifier_eq hi, h.nullifier_eq hj] at nullifiers
  have published := digestBytes_injective nullifiers
  have ne := h.nullifiers_ne
  -- The circuit keeps the two published nullifiers apart.
  match i, j with
  | 0, 0 | 1, 1 => rfl
  | 0, 1 => exact absurd published ne
  | 1, 0 => exact absurd published.symm ne

/-- **A spend is a transfer of the ledger of leaves**, as long as its notes are held and its
nullifiers are new. -/
def LeafHolds.transfer (hH : CollisionFree H.hashToFelts Q) (h : LeafHolds H Q t)
    (p : Pool (leafValue H Q)) (used : Finset Hash256) (hspent : p.spent = spentLeaves H Q used)
    (held : ∀ i ∈ t.realInputs, t.inputLeaf H i ∈ p.notes)
    (fresh : ∀ i, digestBytes (t.nullifiers i) ∉ used) : p.Transfer where
  consumed := t.realInputs.map (t.inputLeaf H)
  created := [digestBytes (t.commitments 0), digestBytes (t.commitments 1)]
  fee := t.fee.val
  spent := spentLeaves H Q
    (insert (digestBytes (t.nullifiers 1)) (insert (digestBytes (t.nullifiers 0)) used))
  nodup := List.Nodup.map_on (h.inputLeaf_injOn hH) ((List.nodup_finRange 2).filter _)
  held := List.forall_mem_map.2 held
  before := by
    rw [hspent]
    refine List.forall_mem_map.2 fun i hi => ?_
    rw [(h.real hi).opens.mem_spentLeaves_iff hH, h.nullifier_eq hi]
    exact fresh i
  after := by
    refine List.forall_mem_map.2 fun i hi => ?_
    rw [(h.real hi).opens.mem_spentLeaves_iff hH, h.nullifier_eq hi]
    match i with
    | 0 => exact Finset.mem_insert_of_mem (Finset.mem_insert_self ..)
    | 1 => exact Finset.mem_insert_self ..
  grow := by
    rw [hspent]
    exact spentLeaves_mono fun _ hn => Finset.mem_insert_of_mem (Finset.mem_insert_of_mem hn)
  balance := by
    have inputs : (t.realInputs.map (t.inputLeaf H)).map (leafValue H Q) =
        t.realInputs.map fun i => (t.inputs i).value.val := by
      rw [List.map_map]
      refine List.map_congr_left fun i hi => ?_
      rw [Function.comp_apply, h.leafValue_input hH hi]
    have outputs : ([digestBytes (t.commitments 0), digestBytes (t.commitments 1)].map
        (leafValue H Q)).sum = (t.outputs 0).value.val + (t.outputs 1).value.val := by
      rw [List.map_cons, List.map_singleton, List.sum_cons, List.sum_singleton,
        (h.outputs 0).commits.leafValue_eq hH, (h.outputs 1).commits.leafValue_eq hH]
    rw [inputs, outputs, h.sum_realInputs]
    exact h.balance_val.ge

end Qnero
