import Qnero.Shielded.Plan

/-!
# Writing a settlement

`settle` checks everything and then writes: a second walk over the same segments, under the flags
the plan computed. The source claims in several comments that no step of it can fail. `exec_settle`
is that claim: from a plan, every write goes through, and the state it leaves is `settled`.
-/

namespace Qnero

open Machine

/-- Code of the runtime over the chain's storage. -/
abbrev Runtime (α : Type) := Call DispatchError Chain α

/-- A check of the pallet inside a call. -/
def orShielded {α : Type} (x : Except Error α) : Except DispatchError α := x.mapError .shielded

/-- `T::ZkTree::insert_commitment`; returns the leaf index. -/
def treeInsert (commitment : Hash256) : Runtime ℕ := do
  let c ← Call.read
  match c.tree.insertCommitment commitment with
  | .error e => Call.lift (.error (.zkTree e))
  | .ok (tree, index) => do
    Call.write fun c => { c with tree := tree }
    pure index

/-- One slot: two nullifiers spent, two leaves appended. Returns the next output position. -/
def writeSlot (outputs : List ShieldedOutput) (slot : RealSlot) (outputIndex : ℕ) : Runtime ℕ := do
  Call.write fun c => { c with
    usedNullifiers := insert (slot.nullifiers 1) (insert (slot.nullifiers 0) c.usedNullifiers) }
  let _ ← Call.lift (okOr (outputs[outputIndex]?) .indexOutOfBounds)
  let first ← treeInsert (slot.commitments 0)
  let second ← treeInsert (slot.commitments 1)
  Call.write fun c => c.recordOutputs 2
  Call.write fun c => { c with
    leafBlocks := Function.update (Function.update c.leafBlocks first (some c.blockNumber)) second
      (some c.blockNumber) }
  pure (outputIndex + 1)

def writeSlots (outputs : List ShieldedOutput) : List RealSlot → ℕ → Runtime ℕ
  | [], outputIndex => pure outputIndex
  | slot :: slots, outputIndex => do
    let next ← writeSlot outputs slot outputIndex
    writeSlots outputs slots next

/-- A segment that does not settle only moves the position past its slots. -/
def writeSegments (outputs : List ShieldedOutput) : List (Segment × Bool) → ℕ → Runtime Unit
  | [], _ => pure ()
  | (segment, settles) :: rest, outputIndex =>
    if settles then do
      let next ← writeSlots outputs segment.slots outputIndex
      writeSegments outputs rest next
    else writeSegments outputs rest (satAdd usizeMax outputIndex segment.slots.length)

section

variable (H : Poseidon2) (cfg : Config)

/-- Split a settled fee and take it out of the pool; the author's share waits for the coinbase. -/
def accountFee (feeSteps : ℕ) : Runtime ℕ :=
  if feeSteps = 0 then pure 0
  else do
    let fee ← Call.lift (orShielded (feePlanck feeSteps))
    let c ← Call.read
    let pool ← Call.lift (okOr (checkedSub c.poolValue fee) (.shielded .poolUnderflow))
    Call.write fun c => { c with poolValue := pool }
    let burnSteps := cfg.feeBurnRate.mulCeil feeSteps
    let authorSteps := feeSteps - burnSteps
    if authorSteps = 0 then pure fee
    else do
      let authorAmount ← Call.lift (orShielded (feePlanck authorSteps))
      Call.write fun c => { c with
        pendingCoinbaseFee := satAdd u128Max c.pendingCoinbaseFee authorAmount }
      pure fee

/-- Check everything, then write. -/
def settle (bundle : SettlementBundle) (outputs : List ShieldedOutput) : Runtime Unit := do
  let c ← Call.read
  let plan ← Call.lift (orShielded (checkSettlement H cfg c bundle outputs))
  writeSegments outputs (bundle.segments.zip plan.settles) 0
  let _ ← accountFee cfg plan.feeSteps
  pure ()

end

/-! ## The writes, as functions -/

/-- Both output commitments of every slot. -/
def commitmentsOf (slots : List RealSlot) : List Hash256 :=
  slots.flatMap fun slot => [slot.commitments 0, slot.commitments 1]

namespace Chain

/-- Append a leaf and note the block it is in. -/
def putLeaf (c : Chain) (leaf : Hash256) : Chain :=
  { c with
    tree := (c.tree.appendLeafHash leaf).1
    leafBlocks := Function.update c.leafBlocks c.tree.leafCount (some c.blockNumber) }

/-- Mark both nullifiers of a slot. -/
def putNullifiers (c : Chain) (slot : RealSlot) : Chain :=
  { c with
    usedNullifiers := insert (slot.nullifiers 1) (insert (slot.nullifiers 0) c.usedNullifiers) }

/-- One written slot. -/
def putSlot (c : Chain) (slot : RealSlot) : Chain :=
  (((c.putNullifiers slot).putLeaf (slot.commitments 0)).putLeaf (slot.commitments 1)).recordOutputs 2

def putSlots (c : Chain) (slots : List RealSlot) : Chain := slots.foldl putSlot c

/-- The author's share of a fee, in steps. -/
def authorSteps (cfg : Config) (feeSteps : ℕ) : ℕ := feeSteps - cfg.feeBurnRate.mulCeil feeSteps

/-- New values for the two amounts the fee accounting moves. -/
def setPool (c : Chain) (pool pendingFee : ℕ) : Chain :=
  { c with
    poolValue := pool
    pendingCoinbaseFee := pendingFee }

/-- A fee taken out of the pool. -/
def chargeFee (cfg : Config) (c : Chain) (feeSteps : ℕ) : Chain :=
  c.setPool (c.poolValue - feeSteps * poolStep)
    (if authorSteps cfg feeSteps = 0 then c.pendingCoinbaseFee
      else satAdd u128Max c.pendingCoinbaseFee (authorSteps cfg feeSteps * poolStep))

/-- The state a settlement leaves. -/
def settled (cfg : Config) (c : Chain) (bundle : SettlementBundle) (plan : PlannedSettlement) :
    Chain :=
  (c.putSlots (plan.written bundle)).chargeFee cfg plan.feeSteps

end Chain

/-! ## What the writes change -/

/-- A field that no written slot changes. -/
theorem putSlots_frame {α : Type} (f : Chain → α) (h : ∀ c slot, f (c.putSlot slot) = f c)
    (c : Chain) (slots : List RealSlot) : f (c.putSlots slots) = f c := by
  induction slots generalizing c with
  | nil => rfl
  | cons slot slots ih => exact (ih _).trans (h c slot)

/-- A field that the fee accounting does not change. -/
theorem chargeFee_frame {α : Type} (f : Chain → α)
    (h : ∀ c pool pendingFee, f (c.setPool pool pendingFee) = f c) (cfg : Config) (c : Chain)
    (feeSteps : ℕ) : f (c.chargeFee cfg feeSteps) = f c :=
  h ..

theorem putSlots_cons (c : Chain) (slot : RealSlot) (slots : List RealSlot) :
    c.putSlots (slot :: slots) = (c.putSlot slot).putSlots slots := rfl

theorem putSlots_append (c : Chain) (a b : List RealSlot) :
    c.putSlots (a ++ b) = (c.putSlots a).putSlots b := List.foldl_append

@[simp] theorem length_commitmentsOf (slots : List RealSlot) :
    (commitmentsOf slots).length = 2 * slots.length := by
  simp [commitmentsOf, List.length_flatMap, Nat.mul_comm]

theorem putSlots_tree (c : Chain) (slots : List RealSlot) :
    (c.putSlots slots).tree = c.tree.appendAll (commitmentsOf slots) := by
  induction slots generalizing c with
  | nil => rfl
  | cons slot slots ih =>
    rw [putSlots_cons, ih]
    rfl

theorem putSlots_usedNullifiers (c : Chain) (slots : List RealSlot) :
    (c.putSlots slots).usedNullifiers = c.usedNullifiers ∪ (nullifiersOf slots).toFinset := by
  induction slots generalizing c with
  | nil => simp [Chain.putSlots, nullifiersOf]
  | cons slot slots ih =>
    rw [putSlots_cons, ih]
    ext n
    simp only [Chain.putSlot, Chain.putNullifiers, Chain.putLeaf, Chain.recordOutputs,
      nullifiersOf, Finset.mem_union,
      Finset.mem_insert, List.mem_toFinset, List.flatMap_cons, List.mem_append, List.mem_cons,
      List.not_mem_nil, or_false]
    tauto

/-- A field that neither the written slots nor the fee accounting change. -/
theorem settled_frame {α : Type} (f : Chain → α) (slot : ∀ c slot, f (Chain.putSlot c slot) = f c)
    (pool : ∀ c pool pendingFee, f (Chain.setPool c pool pendingFee) = f c) (cfg : Config) (c : Chain)
    (bundle : SettlementBundle) (plan : PlannedSettlement) :
    f (c.settled cfg bundle plan) = f c := by
  rw [Chain.settled, chargeFee_frame f pool, putSlots_frame f slot]

theorem settled_tree (cfg : Config) (c : Chain) (bundle : SettlementBundle)
    (plan : PlannedSettlement) : (c.settled cfg bundle plan).tree =
      c.tree.appendAll (commitmentsOf (plan.written bundle)) := by
  rw [Chain.settled, chargeFee_frame Chain.tree fun _ _ _ => rfl, putSlots_tree]

theorem settled_usedNullifiers (cfg : Config) (c : Chain) (bundle : SettlementBundle)
    (plan : PlannedSettlement) : (c.settled cfg bundle plan).usedNullifiers =
      c.usedNullifiers ∪ (nullifiersOf (plan.written bundle)).toFinset := by
  rw [Chain.settled, chargeFee_frame Chain.usedNullifiers fun _ _ _ => rfl, putSlots_usedNullifiers]

variable {outputs : List ShieldedOutput} {slots : List RealSlot} {cm : Hash256} {k : ℕ} {c' : Chain}

/-- A plan keeps to the room of the tree. -/
theorem Planned.commitments_le {cfg : Config} {c : Chain} {bundle : SettlementBundle}
    {plan : PlannedSettlement} (h : Planned cfg c bundle outputs plan) :
    (commitmentsOf (plan.written bundle)).length ≤ c.tree.remainingCapacity := by
  rw [length_commitmentsOf, ← h.slots_eq]
  exact Nat.le_of_succ_le h.capacity

theorem putSlots_outputsWritten {c : Chain} (h : c.outputsWritten + 2 * slots.length ≤ u32Max) :
    (c.putSlots slots).outputsWritten = c.outputsWritten + 2 * slots.length := by
  induction slots generalizing c with
  | nil => rfl
  | cons slot slots ih =>
    rw [List.length_cons] at h ⊢
    have one : (c.putSlot slot).outputsWritten = c.outputsWritten + 2 :=
      Chain.outputsWritten_recordOutputs
        (c := ((c.putNullifiers slot).putLeaf (slot.commitments 0)).putLeaf (slot.commitments 1))
        (by show c.outputsWritten + 2 ≤ _; omega)
    rw [putSlots_cons, ih (by omega), one]
    omega

/-- Every new leaf is entered under the current block. -/
theorem putSlots_leafBlocks {c : Chain} (hroom : c.tree.leafCount + 2 * slots.length ≤ u64Max)
    (i : ℕ) :
    (c.putSlots slots).leafBlocks i =
      if c.tree.leafCount ≤ i ∧ i < c.tree.leafCount + 2 * slots.length then some c.blockNumber
      else c.leafBlocks i := by
  induction slots generalizing c with
  | nil => rw [if_neg (by simp)]; rfl
  | cons slot slots ih =>
    rw [List.length_cons] at hroom ⊢
    have count₁ := ZkTree.leafCount_append (slot.commitments 0) (t := c.tree) (by omega)
    have count₂ := ZkTree.leafCount_append (slot.commitments 1)
      (t := (c.tree.appendLeafHash (slot.commitments 0)).1) (by omega)
    have count : (c.putSlot slot).tree.leafCount = c.tree.leafCount + 2 := by
      show ((c.tree.appendLeafHash (slot.commitments 0)).1.appendLeafHash
        (slot.commitments 1)).1.leafCount = _
      omega
    have head : (c.putSlot slot).leafBlocks = Function.update (Function.update c.leafBlocks
        c.tree.leafCount (some c.blockNumber)) (c.tree.leafCount + 1) (some c.blockNumber) := by
      rw [← count₁]
      rfl
    have number : (c.putSlot slot).blockNumber = c.blockNumber := rfl
    rw [putSlots_cons, ih (by omega), count, head, number, Function.update_apply,
      Function.update_apply]
    split_ifs <;> first | rfl | omega

/-! ## The writes go through -/

variable {c : Chain}

theorem insertCommitment_ok {t : ZkTree} (h0 : cm ≠ 0) (hc : cm.Canonical)
    (hroom : 0 < t.remainingCapacity) : t.insertCommitment cm = .ok (t.appendLeafHash cm) := by
  have h0' : cm ≠ emptyHash := h0
  rw [ZkTree.insertCommitment, if_neg h0', if_neg (not_not.2 hc), if_neg (by omega)]

theorem exec_treeInsert (h0 : cm ≠ 0) (hc : cm.Canonical) (hroom : 0 < c.tree.remainingCapacity) :
    exec (treeInsert cm) c =
      (.ok c.tree.leafCount, { c with tree := (c.tree.appendLeafHash cm).1 }) := by
  rw [treeInsert, exec_read_bind, insertCommitment_ok h0 hc hroom]
  rfl

theorem exec_treeInsert_zero (h : cm = 0) :
    exec (treeInsert cm) c = (.error (.zkTree .zeroCommitment), c) := by
  have refused : c.tree.insertCommitment cm = .error .zeroCommitment := if_pos h
  rw [treeInsert, exec_read_bind, refused]
  rfl

theorem remainingCapacity_append {t : ZkTree} (cm : Hash256) (hroom : 0 < t.remainingCapacity) :
    (t.appendLeafHash cm).1.leafCount = t.leafCount + 1 ∧
      (t.appendLeafHash cm).1.remainingCapacity + 1 = t.remainingCapacity := by
  have cap : capacityAtDepth circuitMaxTreeDepth = 4 ^ 20 := by decide
  have small : (4 : ℕ) ^ 20 < u64Max := by decide
  simp only [ZkTree.remainingCapacity, cap] at hroom ⊢
  have count : (t.appendLeafHash cm).1.leafCount = t.leafCount + 1 := satAdd_eq (by omega)
  rw [count]
  omega

/-- A slot whose commitments the tree accepts. -/
def RealSlot.Appendable (slot : RealSlot) : Prop :=
  ∀ i, slot.commitments i ≠ 0 ∧ (slot.commitments i).Canonical

theorem exec_writeSlot {slot : RealSlot} (hk : k < outputs.length) (hslot : slot.Appendable)
    (hroom : 2 ≤ c.tree.remainingCapacity) :
    exec (writeSlot outputs slot k) c = (.ok (k + 1), c.putSlot slot) := by
  have room₁ := remainingCapacity_append (slot.commitments 0) (t := c.tree) (by omega)
  rw [writeSlot, exec_write_bind,
    exec_lift_bind_ok (okOr_ok_iff.2 (List.getElem?_eq_getElem hk)),
    exec_bind_ok (exec_treeInsert (hslot 0).1 (hslot 0).2
      (by show 0 < c.tree.remainingCapacity; omega)),
    exec_bind_ok (exec_treeInsert (hslot 1).1 (hslot 1).2 (by
      show 0 < (c.tree.appendLeafHash (slot.commitments 0)).1.remainingCapacity
      omega)),
    exec_write_bind, exec_write_bind, exec_pure]
  rfl

theorem putSlot_remainingCapacity (slot : RealSlot) (hroom : 2 ≤ c.tree.remainingCapacity) :
    (c.putSlot slot).tree.remainingCapacity + 2 = c.tree.remainingCapacity := by
  have room₁ := remainingCapacity_append (slot.commitments 0) (t := c.tree) (by omega)
  have room₂ := remainingCapacity_append (slot.commitments 1)
    (t := (c.tree.appendLeafHash (slot.commitments 0)).1) (by omega)
  show ((c.tree.appendLeafHash (slot.commitments 0)).1.appendLeafHash
    (slot.commitments 1)).1.remainingCapacity + 2 = _
  omega

theorem exec_writeSlots (hk : k + slots.length ≤ outputs.length)
    (hslots : ∀ slot ∈ slots, slot.Appendable) (hroom : 2 * slots.length ≤ c.tree.remainingCapacity) :
    exec (writeSlots outputs slots k) c = (.ok (k + slots.length), c.putSlots slots) := by
  induction slots generalizing c k with
  | nil => rfl
  | cons slot slots ih =>
    rw [List.length_cons] at hk hroom
    rw [List.forall_mem_cons] at hslots
    have room := putSlot_remainingCapacity slot (c := c) (by omega)
    rw [writeSlots, exec_bind_ok (exec_writeSlot (by omega) hslots.1 (by omega)),
      ih (by omega) hslots.2 (by omega), List.length_cons]
    simp only [Chain.putSlots, List.foldl_cons, Nat.add_assoc, Nat.add_comm 1]

/-- The capacity left after some slots. -/
theorem putSlots_remainingCapacity (slots : List RealSlot)
    (hroom : 2 * slots.length ≤ c.tree.remainingCapacity) :
    (c.putSlots slots).tree.remainingCapacity + 2 * slots.length = c.tree.remainingCapacity := by
  induction slots generalizing c with
  | nil => rfl
  | cons slot slots ih =>
    rw [List.length_cons] at hroom ⊢
    have room := putSlot_remainingCapacity slot (c := c) (by omega)
    have rest := ih (c := c.putSlot slot) (by omega)
    rw [Chain.putSlots, List.foldl_cons]
    rw [Chain.putSlots] at rest
    omega

theorem writtenSlots_cons (segment : Segment) (flag : Bool) (segments : List Segment)
    (settles : List Bool) : writtenSlots (segment :: segments) (flag :: settles) =
      (if flag then segment.slots else []) ++ writtenSlots segments settles := by
  cases flag <;> simp [writtenSlots, writtenSegments]

/-- The write pass writes the slots the flags select, and its index stays inside the outputs. -/
theorem exec_writeSegments {segments : List Segment} {settles : List Bool}
    (hlen : settles.length = segments.length)
    (hk : k + (segments.flatMap Segment.slots).length ≤ outputs.length)
    (hslots : ∀ slot ∈ writtenSlots segments settles, slot.Appendable)
    (hroom : 2 * (writtenSlots segments settles).length ≤ c.tree.remainingCapacity) :
    exec (writeSegments outputs (segments.zip settles) k) c =
      (.ok (), c.putSlots (writtenSlots segments settles)) := by
  induction segments generalizing c k settles with
  | nil => rfl
  | cons segment segments ih =>
    obtain _ | ⟨flag, settles⟩ := settles
    · cases hlen
    rw [List.length_cons, List.length_cons, Nat.succ_inj] at hlen
    rw [writtenSlots_cons] at hslots hroom
    rw [List.flatMap_cons, List.length_append] at hk
    rw [List.zip_cons_cons, writeSegments, writtenSlots_cons]
    cases flag with
    | true =>
      -- The slots take their positions and their room; the rest starts behind both.
      simp only [if_true, List.length_append] at hslots hroom ⊢
      rw [List.forall_mem_append] at hslots
      have room := putSlots_remainingCapacity segment.slots (c := c) (by omega)
      rw [exec_bind_ok (exec_writeSlots (by omega) hslots.1 (by omega)),
        ih hlen (by omega) hslots.2 (by omega), putSlots_append]
    | false =>
      simp only [Bool.false_eq_true, if_false, List.nil_append] at hslots hroom ⊢
      -- Saturating, the position is at most the true one, which is inside the outputs.
      have advance : satAdd usizeMax k segment.slots.length ≤ k + segment.slots.length := satAdd_le
      exact ih hlen (by omega) hslots hroom

theorem exec_accountFee {cfg : Config} {feeSteps : ℕ} (hfee : feeSteps * poolStep ≤ u128Max)
    (hpool : feeSteps * poolStep ≤ c.poolValue) :
    exec (accountFee cfg feeSteps) c = (.ok (feeSteps * poolStep), c.chargeFee cfg feeSteps) := by
  unfold accountFee
  split
  · next h =>
    subst h
    simp [Chain.chargeFee, Chain.setPool, Chain.authorSteps]
  · have planck : orShielded (feePlanck feeSteps) = .ok (feeSteps * poolStep) :=
      mapError_ok_iff.2 (feePlanck_ok.2 ⟨rfl, hfee⟩)
    have sub : okOr (checkedSub c.poolValue (feeSteps * poolStep)) (.shielded .poolUnderflow) =
        (.ok (c.poolValue - feeSteps * poolStep) : Except DispatchError ℕ) :=
      okOr_ok_iff.2 (checkedSub_eq_some.2 ⟨hpool, rfl⟩)
    rw [exec_lift_bind_ok planck, exec_read_bind, exec_lift_bind_ok sub, exec_write_bind]
    -- The burn rounds up and may take the whole fee.
    by_cases hauthor : feeSteps - cfg.feeBurnRate.mulCeil feeSteps = 0
    · simp only [hauthor, if_true, exec_pure, Chain.chargeFee, Chain.setPool, Chain.authorSteps]
    · have share : (feeSteps - cfg.feeBurnRate.mulCeil feeSteps) * poolStep ≤ u128Max :=
        le_trans (Nat.mul_le_mul_right _ (Nat.sub_le ..)) hfee
      have author : orShielded (feePlanck (feeSteps - cfg.feeBurnRate.mulCeil feeSteps)) =
          .ok ((feeSteps - cfg.feeBurnRate.mulCeil feeSteps) * poolStep) :=
        mapError_ok_iff.2 (feePlanck_ok.2 ⟨rfl, share⟩)
      simp only [hauthor, if_false]
      rw [exec_lift_bind_ok author, exec_write_bind, exec_pure]
      simp only [Chain.chargeFee, Chain.setPool, Chain.authorSteps, hauthor, if_false]

variable {H : Poseidon2} {cfg : Config} {bundle : SettlementBundle}
  {outputs : List ShieldedOutput} {plan : PlannedSettlement}

/-- **A checked settlement cannot fail**, as long as its commitments are canonical. -/
theorem exec_settle (h : checkSettlement H cfg c bundle outputs = .ok plan)
    (hcanon : ∀ slot ∈ plan.written bundle, ∀ i, (slot.commitments i).Canonical) :
    exec (settle H cfg bundle outputs) c = (.ok (), c.settled cfg bundle plan) := by
  have planned := checkSettlement_ok h
  have check : orShielded (checkSettlement H cfg c bundle outputs) = .ok plan := mapError_ok_iff.2 h
  have appendable : ∀ slot ∈ plan.written bundle, slot.Appendable := fun slot hslot i =>
    ⟨planned.writable.commitment_ne_zero slot hslot i, hcanon slot hslot i⟩
  have room : 2 * (plan.written bundle).length ≤ c.tree.remainingCapacity := by
    rw [← length_commitmentsOf]
    exact planned.commitments_le
  have inside : 0 + (bundle.segments.flatMap Segment.slots).length ≤ outputs.length := by
    rw [planned.outputs_length, Nat.zero_add]
    exact le_rfl
  have backed : plan.feeSteps * poolStep ≤ (c.putSlots (plan.written bundle)).poolValue := by
    rw [putSlots_frame Chain.poolValue (fun _ _ => rfl)]
    exact planned.fee_backed
  rw [settle, exec_read_bind, exec_lift_bind_ok check,
    exec_bind_ok (exec_writeSegments planned.length_eq inside appendable room),
    exec_bind_ok (exec_accountFee planned.fee_le backed), exec_pure]
  rfl

/-! ## What a settlement that returned was given -/

theorem canonical_of_treeInsert {i : ℕ} (h : exec (treeInsert cm) c = (.ok i, c')) :
    cm.Canonical := by
  by_contra hcanon
  have refused : ∃ e, c.tree.insertCommitment cm = .error e := by
    rw [ZkTree.insertCommitment, if_pos hcanon]
    split <;> exact ⟨_, rfl⟩
  obtain ⟨e, he⟩ := refused
  rw [treeInsert, exec_read_bind, he] at h
  cases (Prod.mk.inj h).1

theorem canonical_of_writeSlot {slot : RealSlot} {k k' : ℕ}
    (h : exec (writeSlot outputs slot k) c = (.ok k', c')) (i : Fin 2) :
    (slot.commitments i).Canonical := by
  simp only [writeSlot, exec_write_bind] at h
  rw [exec_bind_ok_iff] at h
  obtain ⟨_, _, -, h⟩ := h
  rw [exec_bind_ok_iff] at h
  obtain ⟨_, _, first, h⟩ := h
  rw [exec_bind_ok_iff] at h
  obtain ⟨_, _, second, -⟩ := h
  match i with
  | 0 => exact canonical_of_treeInsert first
  | 1 => exact canonical_of_treeInsert second

theorem canonical_of_writeSlots {k k' : ℕ} (h : exec (writeSlots outputs slots k) c = (.ok k', c')) :
    ∀ slot ∈ slots, ∀ i, (slot.commitments i).Canonical := by
  induction slots generalizing c k with
  | nil => simp
  | cons slot slots ih =>
    rw [writeSlots, exec_bind_ok_iff] at h
    obtain ⟨_, _, head, rest⟩ := h
    exact List.forall_mem_cons.2 ⟨canonical_of_writeSlot head, ih rest⟩

theorem canonical_of_writeSegments {segments : List Segment} {settles : List Bool}
    (hlen : settles.length = segments.length)
    (h : exec (writeSegments outputs (segments.zip settles) k) c = (.ok (), c')) :
    ∀ slot ∈ writtenSlots segments settles, ∀ i, (slot.commitments i).Canonical := by
  induction segments generalizing c k settles with
  | nil => simp [writtenSlots, writtenSegments]
  | cons segment segments ih =>
    obtain _ | ⟨flag, settles⟩ := settles
    · cases hlen
    rw [List.length_cons, List.length_cons, Nat.succ_inj] at hlen
    rw [List.zip_cons_cons, writeSegments] at h
    rw [writtenSlots_cons]
    cases flag with
    | true =>
      rw [if_pos rfl, exec_bind_ok_iff] at h
      obtain ⟨_, _, head, rest⟩ := h
      exact List.forall_mem_append.2 ⟨canonical_of_writeSlots head, ih hlen rest⟩
    | false =>
      simp only [Bool.false_eq_true, if_false] at h
      exact ih hlen h

/-- A settlement that returned has appended canonical commitments only. -/
theorem canonical_of_settle {u : Unit} (hcheck : checkSettlement H cfg c bundle outputs = .ok plan)
    (h : exec (settle H cfg bundle outputs) c = (.ok u, c')) :
    ∀ slot ∈ plan.written bundle, ∀ i, (slot.commitments i).Canonical := by
  have check : orShielded (checkSettlement H cfg c bundle outputs) = .ok plan :=
    mapError_ok_iff.2 hcheck
  rw [settle, exec_read_bind, exec_lift_bind_ok check, exec_bind_ok_iff] at h
  obtain ⟨_, _, written, -⟩ := h
  exact canonical_of_writeSegments (checkSettlement_ok hcheck).length_eq written

/-- A settlement that returned was checked, and left the state of its plan. -/
theorem exec_settle_ok {u : Unit} (h : exec (settle H cfg bundle outputs) c = (.ok u, c')) :
    ∃ plan, checkSettlement H cfg c bundle outputs = .ok plan ∧ c' = c.settled cfg bundle plan := by
  cases hcheck : checkSettlement H cfg c bundle outputs with
  | error e =>
    rw [settle, exec_read_bind, hcheck] at h
    cases (Prod.mk.inj h).1
  | ok plan =>
    -- The write pass returned, so the tree took every commitment; then the call is `exec_settle`.
    rw [exec_settle hcheck (canonical_of_settle hcheck h)] at h
    exact ⟨plan, rfl, (Prod.mk.inj h).2.symm⟩

/-- A settlement that is refused writes nothing. -/
theorem exec_settle_error {e : Error} (h : checkSettlement H cfg c bundle outputs = .error e) :
    exec (settle H cfg bundle outputs) c = (.error (.shielded e), c) := by
  rw [settle, exec_read_bind, exec_lift_bind_error]
  rw [h]
  rfl

end Qnero
