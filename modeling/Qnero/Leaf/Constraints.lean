import Qnero.Leaf.Header
import Qnero.Leaf.Merkle

/-!
# The spend leaf

One shielded transfer: two inputs, of which either may be a dummy, and two outputs. A value of
`SpendTargets` is an assignment of every input wire of the circuit, `spendCircuit` the constraints
on it. `LeafStatement` is what a verified leaf proof tells its reader: its 26 public inputs are
those of some satisfying assignment.
-/

namespace Qnero

open Plonkish Builder

variable {Q : Set (List Felt)}

structure InputNoteTargets where
  ask : Digest
  nk : Digest
  rho : Digest
  r : Digest
  value : Felt
  path : MerklePathTargets
  isDummy : Felt

structure OutputNoteTargets where
  pk : Digest
  r : Digest
  value : Felt

/-- The public wires in layout order, then the private ones. The public block number is the wire
`header.blockNumber`. -/
structure SpendTargets where
  blockHash : Digest
  nullifiers : Fin 2 → Digest
  commitments : Fin 2 → Digest
  fee : Felt
  ctDigest : Digest
  header : HeaderTargets
  depth : Felt
  inputs : Fin 2 → InputNoteTargets
  outputs : Fin 2 → OutputNoteTargets

/-- The public-input vector, in registration order. -/
def SpendTargets.publicInputs (t : SpendTargets) : List Felt :=
  felts t.blockHash ++ (t.header.blockNumber ::
    (felts (t.nullifiers 0) ++ (felts (t.nullifiers 1) ++
      (felts (t.commitments 0) ++ (felts (t.commitments 1) ++ (t.fee :: felts t.ctDigest))))))

/-- The constraints the input wires are declared with: the dummy flags are bits. -/
def SpendTargets.new (t : SpendTargets) : Wires Unit := do
  let _ ← Circuit.arrayFromFn fun i => assertBool (t.inputs i).isDummy

section

variable (H : Poseidon2)

/-- The tree depth, split once: bounded by `maxDepth`, and the level flags derived. -/
def constrainDepth (depth : Felt) : Wires (Fin 20 → Felt) := do
  let bits ← splitLe depth depthBits
  let depthOverMax ← constLessThanBits maxDepth bits
  connect depthOverMax 0
  activeLevelFlagsFromBits bits

/-- One input note. A dummy carries no value, skips membership, and publishes its nullifier under
the tag of dummies. -/
def constrainInput (t : SpendTargets) (activeLevels : Fin 20 → Felt) (index : Fin 2) :
    Wires Felt := do
  let input := t.inputs index
  rangeCheck input.value valueBits
  let dummyValue ← mul input.value input.isDummy
  connect dummyValue 0
  let pk ← Gadget.derivePk H input.ask input.nk
  let inner ← Gadget.noteInner H pk input.rho input.r
  let commitment ← Gadget.noteCommitment H inner input.value
  let root ← merkleRootFromPath H commitment input.path activeLevels
  -- The root is compared only for a real input; a dummy's path leads anywhere.
  let isReal ← not input.isDummy
  let _ ← Circuit.arrayFromFn fun limb => do
    let difference ← sub (root limb) (t.header.zkTreeRoot limb)
    let gated ← mul difference isReal
    connect gated 0
  let nullifierTag ← nullifierDomainTag input.isDummy
  let nullifier ← Gadget.noteNullifierTagged H nullifierTag input.nk input.rho input.r
  connectArrays nullifier (t.nullifiers index)
  pure input.value

/-- A leaf that binds a real block consumes a note: not both inputs are dummies. -/
def constrainRealLeaf (t : SpendTargets) : Wires Unit := do
  let isPadding ← isPaddingBlockHash t.blockHash
  let isRealLeaf ← not isPadding
  let allDummy ← mul (t.inputs 0).isDummy (t.inputs 1).isDummy
  let allDummyInARealLeaf ← mul allDummy isRealLeaf
  connect allDummyInARealLeaf 0

/-- One output note; its `rho` is derived from both published nullifiers. -/
def constrainOutput (t : SpendTargets) (index : Fin 2) : Wires Felt := do
  let output := t.outputs index
  rangeCheck output.value valueBits
  let rho ← Gadget.outputRho H (t.nullifiers 0) (t.nullifiers 1) index
  let inner ← Gadget.noteInner H output.pk rho output.r
  let commitment ← Gadget.noteCommitment H inner output.value
  connectArrays commitment (t.commitments index)
  pure output.value

/-- The sum of a non-empty list of wires. -/
def sum : List Felt → Wires Felt
  | [] => zero
  | term :: terms => terms.foldlM add term

/-- Every constraint of the leaf. The content digest is public and unconstrained. -/
def buildConstraints (t : SpendTargets) : Wires Unit := do
  constrainHeader H t.blockHash t.header
  let activeLevels ← constrainDepth t.depth
  let inputValues ← Circuit.arrayFromFn (constrainInput H t activeLevels)
  -- One note in both slots would be spent twice.
  let nullifiersEqual ← digestsAreEqual (t.nullifiers 0) (t.nullifiers 1)
  connect nullifiersEqual 0
  constrainRealLeaf t
  let outputValues ← Circuit.arrayFromFn (constrainOutput H t)
  rangeCheck t.fee valueBits
  let totalIn ← sum (List.ofFn inputValues)
  let totalOut ← sum (List.ofFn outputValues ++ [t.fee])
  connect totalIn totalOut

/-- The whole leaf circuit on an assignment. -/
def spendCircuit (t : SpendTargets) : Wires Unit := do
  t.new
  buildConstraints H t

/-- What a valid leaf proof establishes about its public inputs. -/
def LeafStatement (Q : Set (List Felt)) (publicInputs : List Felt) : Prop :=
  ∃ t : SpendTargets, t.publicInputs = publicInputs ∧ (spendCircuit H t).Holds Q

/-! ## The notes of an assignment -/

/-- The note an input slot opens. -/
def InputNoteTargets.note (input : InputNoteTargets) : Note where
  pk := derivePk H input.ask input.nk
  value := input.value.val
  rho := input.rho
  r := input.r

/-- The note an output slot creates. -/
def SpendTargets.outputNote (t : SpendTargets) (index : Fin 2) : Note where
  pk := (t.outputs index).pk
  value := (t.outputs index).value.val
  rho := outputRho H (t.nullifiers 0) (t.nullifiers 1) index
  r := (t.outputs index).r

/-- The Merkle path of an input, cut at the witnessed depth. -/
def SpendTargets.merklePath (t : SpendTargets) (index : Fin 2) : MerklePath :=
  MerklePath.ofSteps ((t.inputs index).path.steps t.depth.val)

end

variable {H : Poseidon2}

variable {t : SpendTargets}

theorem holds_new : t.new.Holds Q ↔ ∀ i, ∃ b : Bool, (t.inputs i).isDummy = ofBool b := by
  simp [SpendTargets.new]

/-- A satisfied depth constraint bounds the depth and returns its level flags. -/
theorem holds_constrainDepth {depth : Felt} :
    (constrainDepth depth).Holds Q ↔ depth.val ≤ maxDepth := by
  have width : maxDepth < 2 ^ depthBits := by decide
  simp only [constrainDepth, Circuit.holds_bind, holds_splitLe, splitLe_value,
    holds_constLessThanBits, holds_connect, holds_activeLevelFlags, true_and, and_true]
  constructor
  · rintro ⟨hw, hle⟩
    have := constLessThanBits_value width hw
    rw [bitsOf] at this
    rw [this, ofBool_eq_zero, decide_eq_false_iff_not] at hle
    omega
  · intro h
    have hw : depth.val < 2 ^ depthBits := by omega
    refine ⟨hw, ?_⟩
    have := constLessThanBits_value width hw
    rw [bitsOf] at this
    rw [this, ofBool_eq_zero, decide_eq_false_iff_not]
    omega

theorem constrainDepth_value {depth : Felt} (h : depth.val ≤ maxDepth) :
    (constrainDepth depth).value = fun i => ofBool (decide (i.val < depth.val)) := by
  have hw : depth.val < 2 ^ depthBits := lt_of_le_of_lt h (by decide)
  simpa [constrainDepth, bitsOf] using activeLevelFlags_value hw

/-! ## What a satisfied circuit says

The gates of each section, read as facts about the assignment. `LeafHolds` collects them, and
everything later modules know of a leaf proof they know through it.
-/

/-- The tag a slot's nullifier is published under. -/
def nullifierTag (dummy : Bool) : Felt := if dummy then Domain.nfDummy else Domain.nf

/-- The facts the constraints on input `i` establish, `dummy` being its flag. -/
structure InputHolds (H : Poseidon2) (Q : Set (List Felt)) (t : SpendTargets) (i : Fin 2)
    (dummy : Bool) : Prop where
  isDummy : (t.inputs i).isDummy = ofBool dummy
  value_lt : (t.inputs i).value.val < 2 ^ valueBits
  value_eq_zero : dummy = true → (t.inputs i).value = 0
  ak_mem : akInput (t.inputs i).ask ∈ Q
  pk_mem : pkInput (deriveAk H (t.inputs i).ask) (t.inputs i).nk ∈ Q
  note_mem : noteInput ((t.inputs i).note H).pk (t.inputs i).rho (t.inputs i).r ∈ Q
  cm_mem : cmInput (((t.inputs i).note H).inner H) (t.inputs i).value ∈ Q
  climb_mem : ClimbIn H Q (((t.inputs i).note H).commitment H) ((t.inputs i).path.steps t.depth.val)
  root_eq : dummy = false →
    climb H (((t.inputs i).note H).commitment H) ((t.inputs i).path.steps t.depth.val) =
      t.header.zkTreeRoot
  nf_mem : nfInput (nullifierTag dummy) (t.inputs i).nk (t.inputs i).rho (t.inputs i).r ∈ Q
  nullifier_eq : t.nullifiers i =
    H.hashToFelts (nfInput (nullifierTag dummy) (t.inputs i).nk (t.inputs i).rho (t.inputs i).r)

/-- The facts the constraints on output `i` establish. -/
structure OutputHolds (H : Poseidon2) (Q : Set (List Felt)) (t : SpendTargets) (i : Fin 2) :
    Prop where
  value_lt : (t.outputs i).value.val < 2 ^ valueBits
  rho_mem : rhoInput (t.nullifiers 0) (t.nullifiers 1) i ∈ Q
  note_mem : noteInput (t.outputs i).pk (t.outputNote H i).rho (t.outputs i).r ∈ Q
  cm_mem : cmInput ((t.outputNote H i).inner H) (t.outputs i).value ∈ Q
  commitment_eq : t.commitments i = (t.outputNote H i).commitment H

structure LeafHolds (H : Poseidon2) (Q : Set (List Felt)) (t : SpendTargets) : Prop where
  number_lt : t.header.blockNumber.val < 2 ^ 32
  header_mem : t.header.preimage ∈ Q
  blockHash_eq : t.blockHash = H.hashToFelts t.header.preimage
  depth_le : t.depth.val ≤ maxDepth
  inputs : ∀ i, ∃ dummy, InputHolds H Q t i dummy
  nullifiers_ne : t.nullifiers 0 ≠ t.nullifiers 1
  real_leaf : t.blockHash = paddingBlockHash ∨ ∃ i, (t.inputs i).isDummy = 0
  outputs : ∀ i, OutputHolds H Q t i
  fee_lt : t.fee.val < 2 ^ valueBits
  balance : (t.inputs 0).value + (t.inputs 1).value =
    (t.outputs 0).value + (t.outputs 1).value + t.fee

theorem InputNoteTargets.note_commitment (input : InputNoteTargets) :
    (input.note H).commitment H = commitmentFromInner H ((input.note H).inner H) input.value := by
  simp [Note.commitment, InputNoteTargets.note]

theorem SpendTargets.outputNote_commitment (t : SpendTargets) (i : Fin 2) :
    (t.outputNote H i).commitment H =
      commitmentFromInner H ((t.outputNote H i).inner H) (t.outputs i).value := by
  simp [Note.commitment, SpendTargets.outputNote]

theorem InputHolds.of_holds {i : Fin 2} {dummy : Bool} (hd : (t.inputs i).isDummy = ofBool dummy)
    (h : (constrainInput H t (fun l => ofBool (decide (l.val < t.depth.val))) i).Holds Q) :
    InputHolds H Q t i dummy := by
  simp only [constrainInput, Circuit.holds_bind, holds_rangeCheck, mul, sub, Builder.not,
    Circuit.holds_pure, Circuit.pure_value, holds_connect, holds_gadget_derivePk,
    gadget_derivePk_value, holds_gadget_noteInner, gadget_noteInner_value,
    holds_gadget_noteCommitment, gadget_noteCommitment_value, Circuit.holds_arrayFromFn,
    holds_nullifierDomainTag, holds_gadget_noteNullifierTagged, gadget_noteNullifierTagged_value,
    holds_connectArrays, hd, nullifierDomainTag_value, true_and, and_true] at h
  -- One conjunct per gate, in the order of the source.
  obtain ⟨hval, hzero, ⟨hak, hpk⟩, hnote, hcm, hpath, hroot, hnf, hpub⟩ := h
  obtain ⟨hclimb, hmem⟩ := merkleRootFromPath_value hpath
  rw [hclimb] at hroot
  exact {
    isDummy := hd
    value_lt := hval
    value_eq_zero := by rintro rfl; simpa using hzero
    ak_mem := hak
    pk_mem := hpk
    note_mem := hnote
    cm_mem := hcm
    climb_mem := by rw [InputNoteTargets.note_commitment]; exact hmem
    root_eq := by
      rintro rfl
      rw [InputNoteTargets.note_commitment]
      funext limb
      -- With the flag off the gated difference is the difference.
      have hlimb := hroot limb
      simp only [ofBool_false, sub_zero, mul_one, sub_eq_zero] at hlimb
      exact hlimb
    nf_mem := hnf
    nullifier_eq := hpub.symm }

theorem OutputHolds.of_holds {i : Fin 2} (h : (constrainOutput H t i).Holds Q) :
    OutputHolds H Q t i := by
  simp only [constrainOutput, Circuit.holds_bind, holds_rangeCheck, holds_gadget_outputRho,
    gadget_outputRho_value, holds_gadget_noteInner, gadget_noteInner_value,
    holds_gadget_noteCommitment, gadget_noteCommitment_value, holds_connectArrays,
    Circuit.holds_pure, and_true] at h
  obtain ⟨hval, hrho, hnote, hcm, hpub⟩ := h
  exact {
    value_lt := hval
    rho_mem := hrho
    note_mem := hnote
    cm_mem := hcm
    commitment_eq := by rw [SpendTargets.outputNote_commitment]; exact hpub.symm }

@[simp] theorem sum_value : ∀ terms : List Felt, (sum terms).value = terms.sum
  | [] => rfl
  | term :: terms => by
    have fold : ∀ (l : List Felt) (a : Felt), l.foldl (fun x y => x + y) a = a + l.sum := by
      intro l
      induction l with
      | nil => simp
      | cons x l ih => simp [ih, add_assoc]
    simp [sum, fold]

@[simp] theorem holds_sum : ∀ terms : List Felt, (sum terms).Holds Q
  | [] => by simp [sum]
  | _ :: _ => Circuit.holds_foldlM_of_forall (fun _ _ => by simp) _ _

theorem holds_constrainRealLeaf : (constrainRealLeaf t).Holds Q ↔
    t.blockHash = paddingBlockHash ∨ ∃ i, (t.inputs i).isDummy = 0 := by
  simp [constrainRealLeaf, Fin.exists_fin_two, sub_eq_zero, eq_comm (a := (1 : Felt)), or_comm]

/-- **Every satisfied leaf circuit has the leaf facts.** -/
theorem LeafHolds.of_holds (h : (spendCircuit H t).Holds Q) : LeafHolds H Q t := by
  simp only [spendCircuit, buildConstraints, Circuit.holds_bind, holds_new, holds_constrainHeader,
    holds_constrainDepth, Circuit.holds_arrayFromFn, holds_digestsAreEqual, digestsAreEqual_value,
    holds_connect, holds_constrainRealLeaf, holds_rangeCheck, holds_sum, sum_value,
    Circuit.arrayFromFn_value, true_and] at h
  obtain ⟨hbits, ⟨hnum, hmem, hhash⟩, hdepth, hin, hne, hreal, hout, hfee, hbal⟩ := h
  rw [constrainDepth_value hdepth] at hin
  exact {
    number_lt := hnum
    header_mem := hmem
    blockHash_eq := hhash
    depth_le := hdepth
    inputs := fun i => by
      obtain ⟨dummy, hd⟩ := hbits i
      exact ⟨dummy, .of_holds hd (hin i)⟩
    nullifiers_ne := by simpa using hne
    real_leaf := hreal
    outputs := fun i => .of_holds (hout i)
    fee_lt := hfee
    balance := by simpa [constrainInput, constrainOutput, List.ofFn_succ, add_assoc] using hbal }

end Qnero
