import Qnero.Chain.State

/-!
# Checking a settlement

`planSettlement` walks the segments of a submission once and decides which of them settle: a
segment that conflicts with a nullifier already spent, or whose block anchor does not resolve, is
skipped whole. `bindPayload` then binds the submitted bytes to the proofs. Nothing is written.
-/

namespace Qnero

open Plonkish Machine

/-! ## Payloads -/

def ctHeaderLen : ℕ := 3

def ctSuiteOffset : ℕ := 1

def cryptoSuiteMlKem1024 : ℕ := 1

def suite1CiphertextBytes : ℕ := 1792

/-- The suite id in the header of a ciphertext, little endian after the version byte. -/
def declaredCryptoSuite (bytes : List UInt8) : Option ℕ :=
  if bytes.length < ctHeaderLen then none
  else some ((bytes.getD ctSuiteOffset 0).toNat + 256 * (bytes.getD (ctSuiteOffset + 1) 0).toNat)

def ciphertextLen (suite : ℕ) : Option ℕ :=
  if suite = cryptoSuiteMlKem1024 then some suite1CiphertextBytes else none

def u32LeBytes (n : ℕ) : List UInt8 := (List.range 4).map fun k => UInt8.ofNat (n >>> (8 * k))

def ctDigestPrefix : String := "qnero/ct"

/-- The bytes a ciphertext digest absorbs: both ciphertexts, each behind its length. -/
def ctPreimage (ciphertexts : List (List UInt8)) : List UInt8 :=
  ctDigestPrefix.toUTF8.toList ++ u32LeBytes ciphertexts.length ++
    ciphertexts.flatMap fun ct => u32LeBytes ct.length ++ ct

/-- The digest a slot commits to. -/
def ctDigest (H : Poseidon2) (ciphertexts : List (List UInt8)) : Hash256 :=
  digestBytes (H.hashBytes (ctPreimage ciphertexts))

/-- `qnero_circuit::chain::commitment`: the outer hash of a note, by the chain itself. -/
def chainCommitment (H : Poseidon2) (inner : Hash256) (value : ℕ) : Option Hash256 :=
  (bytesToDigest inner).map fun felts => H.hashToBytes (cmInput felts (value : Felt))

def ShieldedOutput.isEmpty (output : ShieldedOutput) : Bool :=
  output.ct1.isEmpty && output.ct2.isEmpty

/-- A ciphertext is exactly as long as its suite says. -/
def ensureExactCiphertext (bytes : List UInt8) : Except Error Unit := do
  let suite ← okOr (declaredCryptoSuite bytes) .ciphertextLengthMismatch
  let expected ← okOr (ciphertextLen suite) .unknownCryptoSuite
  ensure (bytes.length = expected) .ciphertextLengthMismatch

/-- The exact-length rule on one position; an emptied one is exempt. -/
def ensureExactOutput (output : ShieldedOutput) : Except Error Unit :=
  if output.isEmpty then .ok ()
  else do
    ensureExactCiphertext output.ct1
    ensureExactCiphertext output.ct2

def outputBytes (output : ShieldedOutput) : ℕ :=
  satAdd u64Max output.ct1.length output.ct2.length

def carriedBytes (outputs : List ShieldedOutput) : ℕ :=
  outputs.foldl (fun total output => satAdd u64Max total (outputBytes output)) 0

def divCeil (a b : ℕ) : ℕ := (a + b - 1) / b

/-- A fee in planck. -/
def feePlanck (feeSteps : ℕ) : Except Error ℕ :=
  okOr (checkedMul u128Max feeSteps poolStep) .valueOutOfRange

section

variable (cfg : Config)

def bytesPerFeeQuantum : ℕ := max cfg.ciphertextBytesPerFeeQuantum 1

def feeFloor (minFee ciphertextBytes : ℕ) : ℕ :=
  satAdd u64Max minFee (divCeil ciphertextBytes (bytesPerFeeQuantum cfg))

/-! ## Anchors -/

/-- Why a segment's anchor does not resolve, if it does not. -/
def anchorFailure (c : Chain) (segment : Segment) : Option Error :=
  if c.blockNumber ≤ segment.blockNumber then some .blockOutsideWindow
  else if cfg.blockHashWindow < c.blockNumber - segment.blockNumber then some .blockOutsideWindow
  else if c.blockHash segment.blockNumber = 0 then some .blockNotFound
  else if c.blockHash segment.blockNumber ≠ segment.blockHash then some .blockHashMismatch
  else none

/-! ## The walk -/

structure PlannedSettlement where
  feeSteps : ℕ
  slots : ℕ
  skippedSlots : ℕ
  carriedBytes : ℕ
  /-- One flag per segment. -/
  settles : List Bool
deriving DecidableEq

/-- The variables of the walk. -/
structure PlanState where
  claimed : Finset Hash256
  feeSteps : ℕ
  slots : ℕ
  skippedSlots : ℕ
  staleAnchor : Option Error
  settles : List Bool
  realSlots : ℕ

def PlanState.start : PlanState := ⟨∅, 0, 0, 0, none, [], 0⟩

/-- Claim one nullifier; `claimed.insert` answers whether it was new. -/
def claimNullifier (claimed : Finset Hash256) (nullifier : Hash256) :
    Except Error (Finset Hash256) := do
  ensure (nullifier ≠ 0) .zeroNullifier
  ensure (nullifier ∉ claimed) .duplicateNullifier
  .ok (insert nullifier claimed)

/-- One slot of a segment that settles. -/
def planSlot (outputs : List ShieldedOutput) (s : PlanState) (slot : RealSlot) :
    Except Error PlanState := do
  ensure (slot.fee ≤ maxValue) .valueOutOfRange
  ensure (∀ i, slot.commitments i ≠ 0) .zeroCommitment
  let claimed ← claimNullifier s.claimed (slot.nullifiers 0)
  let claimed ← claimNullifier claimed (slot.nullifiers 1)
  let output ← okOr (outputs[s.realSlots]?) .ciphertextCountMismatch
  ensure (output.ct1 ≠ [] ∧ output.ct2 ≠ []) .emptyCiphertext
  ensure (feeFloor cfg cfg.minLeafFee (outputBytes output) ≤ slot.fee) .feeBelowMinimum
  let feeSteps ← okOr (checkedAdd u128Max s.feeSteps slot.fee) .valueOutOfRange
  let slots ← okOr (checkedAdd u32Max s.slots 1) .valueOutOfRange
  let realSlots ← okOr (checkedAdd usizeMax s.realSlots 1) .valueOutOfRange
  .ok { s with claimed := claimed, feeSteps := feeSteps, slots := slots, realSlots := realSlots }

/-- Does a nullifier of the segment stand in the way, on the chain or in this submission? -/
def conflicts (c : Chain) (claimed : Finset Hash256) (segment : Segment) : Bool :=
  segment.slots.any fun slot => decide (∃ i, slot.nullifiers i ∈ c.usedNullifiers ∨
    slot.nullifiers i ∈ claimed)

/-- Pass over a segment: its slots still take their positions. -/
def skipSegment (s : PlanState) (segment : Segment) (staleAnchor : Option Error) :
    Except Error PlanState := do
  let count ← okOr (if segment.slots.length ≤ u32Max then some segment.slots.length else none)
    .valueOutOfRange
  let skippedSlots ← okOr (checkedAdd u32Max s.skippedSlots count) .valueOutOfRange
  let realSlots ← okOr (checkedAdd usizeMax s.realSlots segment.slots.length) .valueOutOfRange
  .ok { s with
    settles := s.settles ++ [false]
    staleAnchor := staleAnchor
    skippedSlots := skippedSlots
    realSlots := realSlots }

def planSegment (c : Chain) (outputs : List ShieldedOutput) (s : PlanState) (segment : Segment) :
    Except Error PlanState := do
  ensure (segment.slots ≠ []) .nothingToSettle
  if conflicts c s.claimed segment then skipSegment s segment s.staleAnchor
  else
    match anchorFailure cfg c segment with
    | some error => skipSegment s segment (some (s.staleAnchor.getD error))
    | none =>
      segment.slots.foldlM (planSlot cfg outputs) { s with settles := s.settles ++ [true] }

/-- What a submission has to pay for the slots and the bytes it carries. -/
def submissionFloor (s : PlanState) (outputs : List ShieldedOutput) : Option ℕ := do
  let payloadSteps := divCeil (carriedBytes outputs) (bytesPerFeeQuantum cfg)
  let carried ← checkedAdd u128Max s.slots s.skippedSlots
  let flat ← checkedMul u128Max carried cfg.minLeafFee
  checkedAdd u128Max flat payloadSteps

/-- The checks behind the walk. -/
def finishPlan (c : Chain) (outputs : List ShieldedOutput) (s : PlanState) :
    Except Error PlannedSettlement := do
  ensure (s.slots ≠ 0) (s.staleAnchor.getD .nullifierAlreadyUsed)
  ensure (outputs.length = s.realSlots) .ciphertextCountMismatch
  let floor ← okOr (submissionFloor cfg s outputs) .valueOutOfRange
  ensure (floor ≤ s.feeSteps) .payloadUnderpaid
  ensure (satAdd u64Max (satMul u64Max s.slots 2) 1 ≤ c.tree.remainingCapacity) .treeFull
  c.ensureOutputCapacity cfg (satMul u32Max s.slots 2)
  let fee ← feePlanck s.feeSteps
  ensure (fee ≤ c.poolValue) .poolUnderflow
  .ok ⟨s.feeSteps, s.slots, s.skippedSlots, carriedBytes outputs, s.settles⟩

def planSettlement (c : Chain) (bundle : SettlementBundle) (outputs : List ShieldedOutput) :
    Except Error PlannedSettlement := do
  ensure (bundle.segments ≠ []) .nothingToSettle
  outputs.forM ensureExactOutput
  let walked ← bundle.segments.foldlM (planSegment cfg c outputs) PlanState.start
  finishPlan cfg c outputs walked

end

section

variable (H : Poseidon2)

/-- One position against the digest its slot publishes. -/
def bindOutput (outputs : List ShieldedOutput) (slot : RealSlot × ℕ) : Except Error Unit := do
  let output ← okOr (outputs[slot.2]?) .ciphertextCountMismatch
  if output.isEmpty then .ok ()
  else ensure (ctDigest H [output.ct1, output.ct2] = slot.1.ctDigest) .ciphertextDigestMismatch

def bindPayload (bundle : SettlementBundle) (outputs : List ShieldedOutput) : Except Error Unit :=
  bundle.realSlots.zipIdx.forM (bindOutput H outputs)

def checkSettlement (cfg : Config) (c : Chain) (bundle : SettlementBundle)
    (outputs : List ShieldedOutput) : Except Error PlannedSettlement := do
  let plan ← planSettlement cfg c bundle outputs
  bindPayload H bundle outputs
  .ok plan

end

/-! ## What a walk that passed has established -/

/-- Both nullifiers of every slot. -/
def nullifiersOf (slots : List RealSlot) : List Hash256 :=
  slots.flatMap fun slot => [slot.nullifiers 0, slot.nullifiers 1]

@[simp] theorem nullifiersOf_append (a b : List RealSlot) :
    nullifiersOf (a ++ b) = nullifiersOf a ++ nullifiersOf b := List.flatMap_append ..

variable {slots : List RealSlot} {slot : RealSlot} {segments : List Segment} {segment : Segment}
    {settles : List Bool}

@[simp] theorem mem_nullifiersOf {n : Hash256} :
    n ∈ nullifiersOf slots ↔ ∃ slot ∈ slots, ∃ i, n = slot.nullifiers i := by
  simp [nullifiersOf, Fin.exists_fin_two]

variable {cfg : Config} {c : Chain} {outputs : List ShieldedOutput} {s s' : PlanState}

theorem claimNullifier_ok {claimed claimed' : Finset Hash256} {n : Hash256} :
    claimNullifier claimed n = .ok claimed' ↔ n ≠ 0 ∧ n ∉ claimed ∧ insert n claimed = claimed' := by
  simp only [claimNullifier, bind_ok_iff, ensure_ok_iff, Except.ok.injEq, exists_const]

/-- Slots a chain can write: what the per-slot checks establish. -/
structure Writable (slots : List RealSlot) : Prop where
  nodup : (nullifiersOf slots).Nodup
  nullifier_ne_zero : ∀ n ∈ nullifiersOf slots, n ≠ 0
  commitment_ne_zero : ∀ slot ∈ slots, ∀ i, slot.commitments i ≠ 0
  fee_le : ∀ slot ∈ slots, slot.fee ≤ maxValue

theorem writable_nil : Writable [] := by
  constructor <;> simp [nullifiersOf]

theorem Writable.append {a b : List RealSlot} (ha : Writable a) (hb : Writable b)
    (disjoint : ∀ n ∈ nullifiersOf b, n ∉ nullifiersOf a) : Writable (a ++ b) where
  nodup := by
    rw [nullifiersOf_append, List.nodup_append]
    exact ⟨ha.nodup, hb.nodup, fun x hx y hy hxy => disjoint y hy (hxy ▸ hx)⟩
  nullifier_ne_zero := by
    rw [nullifiersOf_append, List.forall_mem_append]
    exact ⟨ha.nullifier_ne_zero, hb.nullifier_ne_zero⟩
  commitment_ne_zero := List.forall_mem_append.2 ⟨ha.commitment_ne_zero, hb.commitment_ne_zero⟩
  fee_le := List.forall_mem_append.2 ⟨ha.fee_le, hb.fee_le⟩

/-- The effect of planning `slots` from `s` to `s'`. -/
structure SlotsPlanned (s : PlanState) (slots : List RealSlot) (s' : PlanState) : Prop where
  writable : Writable slots
  unclaimed : ∀ n ∈ nullifiersOf slots, n ∉ s.claimed
  settles_eq : s'.settles = s.settles
  claimed_eq : s'.claimed = s.claimed ∪ (nullifiersOf slots).toFinset
  feeSteps_eq : s'.feeSteps = s.feeSteps + (slots.map RealSlot.fee).sum
  slots_eq : s'.slots = s.slots + slots.length
  realSlots_eq : s'.realSlots = s.realSlots + slots.length

theorem SlotsPlanned.refl (s : PlanState) : SlotsPlanned s [] s := by
  constructor <;> simp [nullifiersOf, writable_nil]

theorem planSlot_ok (h : planSlot cfg outputs s slot = .ok s') : SlotsPlanned s [slot] s' := by
  simp only [planSlot, bind_ok_iff, ensure_ok_iff, okOr_ok_iff, claimNullifier_ok,
    checkedAdd_eq_some, Except.ok.injEq, exists_const] at h
  obtain ⟨hfee, hcm, _, ⟨h0, new0, rfl⟩, _, ⟨h1, new1, rfl⟩, output, -, -, -, _, ⟨rfl, -⟩, _,
    ⟨rfl, -⟩, _, ⟨rfl, -⟩, rfl⟩ := h
  -- The second nullifier was claimed after the first, so the two differ.
  rw [Finset.mem_insert, not_or] at new1
  exact {
    writable := {
      nodup := by simpa [nullifiersOf] using fun h : slot.nullifiers 0 = _ => new1.1 h.symm
      nullifier_ne_zero := by simp [nullifiersOf, h0, h1]
      commitment_ne_zero := by simpa using hcm
      fee_le := by simpa using hfee }
    unclaimed := by simp [nullifiersOf, new0, new1.2]
    settles_eq := rfl
    claimed_eq := by
      ext n
      simp only [nullifiersOf, Finset.mem_insert, Finset.mem_union, List.mem_toFinset,
        List.flatMap_cons, List.flatMap_nil, List.mem_append, List.mem_cons, List.not_mem_nil,
        or_false]
      tauto
    feeSteps_eq := by simp
    slots_eq := rfl
    realSlots_eq := rfl }

theorem SlotsPlanned.trans {mid : PlanState} {a b : List RealSlot} (h₁ : SlotsPlanned s a mid)
    (h₂ : SlotsPlanned mid b s') : SlotsPlanned s (a ++ b) s' where
  writable := h₁.writable.append h₂.writable fun n hn ha => h₂.unclaimed n hn <| by
    rw [h₁.claimed_eq]
    exact Finset.mem_union_right _ (List.mem_toFinset.2 ha)
  unclaimed := by
    rw [nullifiersOf_append, List.forall_mem_append]
    refine ⟨h₁.unclaimed, fun n hn hmem => h₂.unclaimed n hn ?_⟩
    rw [h₁.claimed_eq]
    exact Finset.mem_union_left _ hmem
  settles_eq := h₂.settles_eq.trans h₁.settles_eq
  claimed_eq := by
    rw [h₂.claimed_eq, h₁.claimed_eq, nullifiersOf_append, List.toFinset_append, Finset.union_assoc]
  feeSteps_eq := by
    rw [h₂.feeSteps_eq, h₁.feeSteps_eq, List.map_append, List.sum_append, Nat.add_assoc]
  slots_eq := by rw [h₂.slots_eq, h₁.slots_eq, List.length_append, Nat.add_assoc]
  realSlots_eq := by rw [h₂.realSlots_eq, h₁.realSlots_eq, List.length_append, Nat.add_assoc]

theorem planSlots_ok (h : slots.foldlM (planSlot cfg outputs) s = .ok s') :
    SlotsPlanned s slots s' :=
  foldlM_ok (P := SlotsPlanned s) (fun _ _ _ _ hs hstep => hs.trans (planSlot_ok hstep)) slots [] s
    s' (.refl s) h

/-! ### Segments -/

/-- The segments flagged as settling. -/
def writtenSegments (segments : List Segment) (settles : List Bool) : List Segment :=
  ((segments.zip settles).filter Prod.snd).map Prod.fst

/-- Their slots, in the order they are written. -/
def writtenSlots (segments : List Segment) (settles : List Bool) : List RealSlot :=
  (writtenSegments segments settles).flatMap Segment.slots

theorem mem_writtenSegments (h : segment ∈ writtenSegments segments settles) :
    segment ∈ segments := by
  obtain ⟨⟨_, _⟩, hmem, rfl⟩ := List.mem_map.1 h
  exact (List.of_mem_zip (List.mem_of_mem_filter hmem)).1

theorem mem_writtenSlots (h : slot ∈ writtenSlots segments settles) :
    ∃ segment ∈ segments, slot ∈ segment.slots := by
  obtain ⟨segment, hsegment, hslot⟩ := List.mem_flatMap.1 h
  exact ⟨segment, mem_writtenSegments hsegment, hslot⟩

theorem writtenSegments_concat (h : settles.length = segments.length) (segment : Segment)
    (flag : Bool) :
    writtenSegments (segments ++ [segment]) (settles ++ [flag]) =
      writtenSegments segments settles ++ if flag then [segment] else [] := by
  rw [writtenSegments, List.zip_append h.symm, List.filter_append, List.map_append]
  cases flag <;> rfl

/-- A walk over `segments` that ended in `s`. -/
structure Walked (cfg : Config) (c : Chain) (segments : List Segment) (s : PlanState) : Prop where
  length_eq : s.settles.length = segments.length
  nonempty : ∀ segment ∈ segments, segment.slots ≠ []
  writable : Writable (writtenSlots segments s.settles)
  claimed_eq : s.claimed = (nullifiersOf (writtenSlots segments s.settles)).toFinset
  feeSteps_eq : s.feeSteps = ((writtenSlots segments s.settles).map RealSlot.fee).sum
  slots_eq : s.slots = (writtenSlots segments s.settles).length
  realSlots_eq : s.realSlots = (segments.flatMap Segment.slots).length
  fresh : ∀ n ∈ nullifiersOf (writtenSlots segments s.settles), n ∉ c.usedNullifiers
  anchored : ∀ segment ∈ writtenSegments segments s.settles, anchorFailure cfg c segment = none

theorem walked_start : Walked cfg c [] PlanState.start := by
  constructor <;> simp [PlanState.start, writtenSlots, writtenSegments, nullifiersOf, writable_nil]

theorem writtenSlots_concat (h : settles.length = segments.length) (segment : Segment) (flag : Bool) :
    writtenSlots (segments ++ [segment]) (settles ++ [flag]) =
      writtenSlots segments settles ++ if flag then segment.slots else [] := by
  rw [writtenSlots, writtenSegments_concat h, List.flatMap_append, writtenSlots]
  cases flag <;> simp

theorem not_conflicts {claimed : Finset Hash256} (h : conflicts c claimed segment = false) :
    ∀ n ∈ nullifiersOf segment.slots, n ∉ c.usedNullifiers ∧ n ∉ claimed := by
  intro n hn
  obtain ⟨slot, hslot, i, rfl⟩ := mem_nullifiersOf.1 hn
  have := List.any_eq_false.1 h slot hslot
  simp only [decide_eq_true_eq, not_exists, not_or] at this
  exact this i

theorem Walked.skip {stale : Option Error} (h : Walked cfg c segments s) (hne : segment.slots ≠ [])
    (hskip : skipSegment s segment stale = .ok s') : Walked cfg c (segments ++ [segment]) s' := by
  simp only [skipSegment, bind_ok_iff, okOr_ok_iff, checkedAdd_eq_some, Except.ok.injEq] at hskip
  obtain ⟨_, -, _, -, _, ⟨rfl, -⟩, rfl⟩ := hskip
  -- A skipped segment adds a flag and nothing else that is written.
  have slots := writtenSlots_concat h.length_eq segment false
  have segs := writtenSegments_concat h.length_eq segment false
  simp only [Bool.false_eq_true, if_false, List.append_nil] at slots segs
  exact {
    length_eq := by simp [h.length_eq]
    nonempty := List.forall_mem_append.2 ⟨h.nonempty, by simpa using hne⟩
    writable := by simpa only [slots] using h.writable
    claimed_eq := by simpa only [slots] using h.claimed_eq
    feeSteps_eq := by simpa only [slots] using h.feeSteps_eq
    slots_eq := by simpa only [slots] using h.slots_eq
    realSlots_eq := by simp [h.realSlots_eq]
    fresh := by simpa only [slots] using h.fresh
    anchored := by simpa only [segs] using h.anchored }

/-- A segment that settles. -/
theorem Walked.settle (h : Walked cfg c segments s) (hne : segment.slots ≠ [])
    (hfree : conflicts c s.claimed segment = false) (hanchor : anchorFailure cfg c segment = none)
    (hplan : SlotsPlanned { s with settles := s.settles ++ [true] } segment.slots s') :
    Walked cfg c (segments ++ [segment]) s' := by
  have slots := writtenSlots_concat h.length_eq segment true
  have segs := writtenSegments_concat h.length_eq segment true
  rw [if_pos rfl] at slots segs
  have hsettles : s'.settles = s.settles ++ [true] := hplan.settles_eq
  rw [← hsettles] at slots segs
  exact {
    length_eq := by simp [hsettles, h.length_eq]
    nonempty := List.forall_mem_append.2 ⟨h.nonempty, by simpa using hne⟩
    writable := by
      rw [slots]
      -- What earlier segments claimed is in `claimed`, and these slots found none of theirs there.
      refine h.writable.append hplan.writable fun n hn hmem => hplan.unclaimed n hn ?_
      show n ∈ s.claimed
      rw [h.claimed_eq]
      exact List.mem_toFinset.2 hmem
    claimed_eq := by
      rw [slots, nullifiersOf_append, List.toFinset_append, ← h.claimed_eq]
      exact hplan.claimed_eq
    feeSteps_eq := by
      rw [slots, List.map_append, List.sum_append, ← h.feeSteps_eq]
      exact hplan.feeSteps_eq
    slots_eq := by
      rw [slots, List.length_append, ← h.slots_eq]
      exact hplan.slots_eq
    realSlots_eq := by
      rw [List.flatMap_append, List.length_append, ← h.realSlots_eq]
      simpa using hplan.realSlots_eq
    fresh := by
      rw [slots, nullifiersOf_append, List.forall_mem_append]
      exact ⟨h.fresh, fun n hn => (not_conflicts hfree n hn).1⟩
    anchored := by
      rw [segs]
      exact List.forall_mem_append.2 ⟨h.anchored, by simpa using hanchor⟩ }

theorem planSegment_ok (h : Walked cfg c segments s)
    (hstep : planSegment cfg c outputs s segment = .ok s') :
    Walked cfg c (segments ++ [segment]) s' := by
  simp only [planSegment, bind_ok_iff, ensure_ok_iff, exists_const] at hstep
  obtain ⟨hne, hstep⟩ := hstep
  -- A conflict skips, then a stale anchor; the rest settles.
  split at hstep
  · exact h.skip hne hstep
  · next hfree =>
    split at hstep
    · exact h.skip hne hstep
    · next hanchor =>
      exact h.settle hne (by simpa using hfree) hanchor (planSlots_ok hstep)

theorem walk_ok (h : segments.foldlM (planSegment cfg c outputs) PlanState.start = .ok s) :
    Walked cfg c segments s :=
  foldlM_ok (P := Walked cfg c) (fun _ _ _ _ hs hstep => planSegment_ok hs hstep) segments [] _ s
    walked_start h

/-! ### The whole plan -/

variable {bundle : SettlementBundle} {plan : PlannedSettlement}

/-- The slots a plan writes. -/
abbrev PlannedSettlement.written (plan : PlannedSettlement) (bundle : SettlementBundle) :
    List RealSlot :=
  writtenSlots bundle.segments plan.settles

/-- What a plan establishes. -/
structure Planned (cfg : Config) (c : Chain) (bundle : SettlementBundle)
    (outputs : List ShieldedOutput) (plan : PlannedSettlement) : Prop where
  length_eq : plan.settles.length = bundle.segments.length
  nonempty : ∀ segment ∈ bundle.segments, segment.slots ≠ []
  writable : Writable (plan.written bundle)
  fresh : ∀ n ∈ nullifiersOf (plan.written bundle), n ∉ c.usedNullifiers
  anchored : ∀ segment ∈ writtenSegments bundle.segments plan.settles,
    anchorFailure cfg c segment = none
  feeSteps_eq : plan.feeSteps = ((plan.written bundle).map RealSlot.fee).sum
  slots_eq : plan.slots = (plan.written bundle).length
  slots_pos : 0 < plan.slots
  outputs_length : outputs.length = bundle.realSlots.length
  capacity : 2 * plan.slots + 1 ≤ c.tree.remainingCapacity
  outputBudget : c.outputsWritten + 2 * plan.slots ≤ cfg.maxOutputsPerBlock
  fee_le : plan.feeSteps * poolStep ≤ u128Max
  fee_backed : plan.feeSteps * poolStep ≤ c.poolValue

theorem ensureOutputCapacity_ok {count : ℕ} {u : Unit} :
    c.ensureOutputCapacity cfg count = .ok u ↔
      c.outputsWritten + count ≤ cfg.maxOutputsPerBlock := by
  have := cfg.maxOutputsPerBlock_lt
  simp only [Chain.ensureOutputCapacity, ensure_ok_iff, Option.mem_def, checkedAdd_eq_some]
  constructor
  · rintro ⟨total, ⟨rfl, -⟩, hle⟩
    exact hle
  · intro hle
    exact ⟨_, ⟨rfl, by omega⟩, hle⟩

theorem feePlanck_ok {steps fee : ℕ} :
    feePlanck steps = .ok fee ↔ steps * poolStep = fee ∧ fee ≤ u128Max := by
  rw [feePlanck, okOr_ok_iff, checkedMul_eq_some]

/-- The capacity fits in a word, so the saturating count of appends is the count. -/
theorem remainingCapacity_le (t : ZkTree) : t.remainingCapacity ≤ 4 ^ 20 := by
  have : capacityAtDepth circuitMaxTreeDepth = 4 ^ 20 := by decide
  rw [ZkTree.remainingCapacity, this]
  exact Nat.sub_le ..

theorem appends_le {slots : ℕ} {t : ZkTree}
    (h : satAdd u64Max (satMul u64Max slots 2) 1 ≤ t.remainingCapacity) :
    2 * slots + 1 ≤ t.remainingCapacity := by
  have bound := remainingCapacity_le t
  have small : (4 : ℕ) ^ 20 < u64Max := by decide
  simp only [satAdd, satMul] at h
  omega

theorem planSettlement_ok (h : planSettlement cfg c bundle outputs = .ok plan) :
    Planned cfg c bundle outputs plan := by
  simp only [planSettlement, finishPlan, bind_ok_iff, ensure_ok_iff, okOr_ok_iff,
    ensureOutputCapacity_ok, feePlanck_ok, Except.ok.injEq, exists_const] at h
  obtain ⟨-, _, -, s, hwalk, hpos, hlen, floor, -, -, happ, hbudget, _, ⟨rfl, hfee⟩, hpool,
    rfl⟩ := h
  have walked := walk_ok hwalk
  exact {
    length_eq := walked.length_eq
    nonempty := walked.nonempty
    writable := walked.writable
    fresh := walked.fresh
    anchored := walked.anchored
    feeSteps_eq := walked.feeSteps_eq
    slots_eq := walked.slots_eq
    slots_pos := Nat.pos_of_ne_zero hpos
    outputs_length := by rw [hlen, walked.realSlots_eq]; rfl
    capacity := appends_le happ
    outputBudget := by
      -- The count saturates at the largest 32-bit value, which the budget excludes.
      have := cfg.maxOutputsPerBlock_lt
      simp only [satMul] at hbudget
      show c.outputsWritten + 2 * s.slots ≤ _
      omega
    fee_le := hfee
    fee_backed := hpool }

theorem checkSettlement_ok_iff {H : Poseidon2} :
    checkSettlement H cfg c bundle outputs = .ok plan ↔
      planSettlement cfg c bundle outputs = .ok plan ∧ bindPayload H bundle outputs = .ok () := by
  simp only [checkSettlement, bind_ok_iff, Except.ok.injEq]
  constructor
  · rintro ⟨_, hplan, _, hbind, rfl⟩
    exact ⟨hplan, hbind⟩
  · rintro ⟨hplan, hbind⟩
    exact ⟨plan, hplan, (), hbind, rfl⟩

theorem checkSettlement_error {H : Poseidon2} {e : Error}
    (hplan : planSettlement cfg c bundle outputs = .ok plan)
    (hbind : bindPayload H bundle outputs = .error e) :
    checkSettlement H cfg c bundle outputs = .error e := by
  rw [checkSettlement, bind_of_ok hplan, hbind]
  rfl

theorem checkSettlement_ok {H : Poseidon2} (h : checkSettlement H cfg c bundle outputs = .ok plan) :
    Planned cfg c bundle outputs plan :=
  planSettlement_ok (checkSettlement_ok_iff.1 h).1

/-! ### The remembered anchor -/

def Error.ofAnchor : Error → Bool
  | .blockOutsideWindow | .blockNotFound | .blockHashMismatch => true
  | _ => false

theorem anchorFailure_ofAnchor {e : Error} (h : anchorFailure cfg c segment = some e) :
    e.ofAnchor = true := by
  unfold anchorFailure at h
  split_ifs at h <;> obtain rfl := Option.some.inj h <;> rfl

theorem planSlots_staleAnchor (h : slots.foldlM (planSlot cfg outputs) s = .ok s') :
    s'.staleAnchor = s.staleAnchor := by
  refine foldlM_ok (P := fun _ (s' : PlanState) => s'.staleAnchor = s.staleAnchor) ?_ slots [] s s'
    rfl h
  intro _ mid slot next hmid hstep
  simp only [planSlot, bind_ok_iff, ensure_ok_iff, okOr_ok_iff, Except.ok.injEq,
    exists_const] at hstep
  obtain ⟨-, -, _, -, _, -, _, -, -, -, _, -, _, -, _, -, rfl⟩ := hstep
  exact hmid

theorem planSegment_staleAnchor (hs : ∀ e ∈ s.staleAnchor, e.ofAnchor = true)
    (h : planSegment cfg c outputs s segment = .ok s') :
    ∀ e ∈ s'.staleAnchor, e.ofAnchor = true := by
  have skip : ∀ {stale}, (∀ e ∈ stale, e.ofAnchor = true) →
      skipSegment s segment stale = .ok s' → ∀ e ∈ s'.staleAnchor, e.ofAnchor = true := by
    intro stale hstale hskip
    simp only [skipSegment, bind_ok_iff, okOr_ok_iff, Except.ok.injEq] at hskip
    obtain ⟨_, -, _, -, _, -, rfl⟩ := hskip
    exact hstale
  simp only [planSegment, bind_ok_iff, ensure_ok_iff, exists_const] at h
  obtain ⟨-, h⟩ := h
  split at h
  · exact skip hs h
  · split at h
    · next error herror =>
      refine skip ?_ h
      cases hstale : s.staleAnchor with
      | none => simpa using anchorFailure_ofAnchor herror
      | some e => simpa [hstale] using hs
    · rw [planSlots_staleAnchor h]
      exact hs

/-- What a walk remembers of a stale anchor is an error of the anchor check. -/
theorem walk_staleAnchor (h : segments.foldlM (planSegment cfg c outputs) PlanState.start = .ok s) :
    ∀ e ∈ s.staleAnchor, e.ofAnchor = true :=
  foldlM_ok (P := fun _ (s : PlanState) => ∀ e ∈ s.staleAnchor, e.ofAnchor = true)
    (fun _ _ _ _ => planSegment_staleAnchor) segments [] _ s (by simp [PlanState.start]) h

/-- A walk that settles nothing reports the remembered anchor, or a replay. -/
theorem staleAnchor_getD_ne {e : Error} (h : ∀ e ∈ s.staleAnchor, e.ofAnchor = true)
    (other : e.ofAnchor = false) (used : e ≠ .nullifierAlreadyUsed) :
    s.staleAnchor.getD .nullifierAlreadyUsed ≠ e := by
  rintro rfl
  cases stale : s.staleAnchor with
  | none => exact used (by rw [stale]; rfl)
  | some e =>
    rw [stale] at other
    exact absurd (h e stale) (by simpa using other)

/-! ### Errors of the checks behind the walk

Four errors come from there and from nowhere else, so a plan that ends in one of them has walked its
segments, and has the facts of a walk.
-/

def Error.behindWalk : Error → Bool
  | .payloadUnderpaid | .treeFull | .tooManyOutputsInBlock | .poolUnderflow => true
  | _ => false

section BehindWalk

variable {e : Error} (late : e.behindWalk = true)

include late

theorem behindWalk_cases : e = .payloadUnderpaid ∨ e = .treeFull ∨ e = .tooManyOutputsInBlock ∨
    e = .poolUnderflow := by
  cases e <;> simp_all [Error.behindWalk]

theorem planSlot_ne : planSlot cfg outputs s slot ≠ .error e := by
  rcases behindWalk_cases late with rfl | rfl | rfl | rfl <;>
    simp [planSlot, claimNullifier, bind_error_iff, ensure_error_iff, okOr_error_iff]

theorem skipSegment_ne {stale : Option Error} : skipSegment s segment stale ≠ .error e := by
  rcases behindWalk_cases late with rfl | rfl | rfl | rfl <;>
    simp [skipSegment, bind_error_iff, okOr_error_iff]

theorem ensureExactOutput_ne (output : ShieldedOutput) : ensureExactOutput output ≠ .error e := by
  unfold ensureExactOutput ensureExactCiphertext
  rcases behindWalk_cases late with rfl | rfl | rfl | rfl <;> split <;>
    simp [bind_error_iff, ensure_error_iff, okOr_error_iff]

theorem nothingToSettle_ne : Error.nothingToSettle ≠ e := by
  rintro rfl
  cases late

theorem planSegment_ne : planSegment cfg c outputs s segment ≠ .error e := by
  rw [planSegment, Ne, bind_error_iff, ensure_error_iff]
  rintro (⟨-, same⟩ | ⟨_, -, h⟩)
  · exact nothingToSettle_ne late same
  split at h
  · exact skipSegment_ne late h
  · split at h
    · exact skipSegment_ne late h
    · exact foldlM_ne_error (P := fun _ => True) (fun _ _ _ _ _ => trivial)
        (fun _ _ _ => planSlot_ne late) _ _ trivial h

/-- **A plan that ends in such an error has walked its segments**, and some of them settle. -/
theorem planSettlement_error (h : planSettlement cfg c bundle outputs = .error e) :
    bundle.segments ≠ [] ∧ outputs.forM ensureExactOutput = .ok () ∧
      ∃ s, bundle.segments.foldlM (planSegment cfg c outputs) PlanState.start = .ok s ∧
        s.slots ≠ 0 ∧ finishPlan cfg c outputs s = .error e := by
  rw [planSettlement, bind_error_iff, ensure_error_iff] at h
  rcases h with ⟨-, same⟩ | ⟨_, hne, h⟩
  · exact absurd same (nothingToSettle_ne late)
  rcases (bind_error_iff ..).1 h with h | ⟨_, hexact, h⟩
  · exact absurd h (forM_ne_error (ensureExactOutput_ne late) _)
  rcases (bind_error_iff ..).1 h with h | ⟨walked, hwalk, h⟩
  · exact absurd h (foldlM_ne_error (P := fun _ => True) (fun _ _ _ _ _ => trivial)
      (fun _ _ _ => planSegment_ne late) _ _ trivial)
  refine ⟨ensure_ok_iff.1 hne, hexact, walked, hwalk, fun none => ?_, h⟩
  rw [finishPlan, bind_error_iff, ensure_error_iff] at h
  rcases h with ⟨-, same⟩ | ⟨_, some, -⟩
  · refine staleAnchor_getD_ne (walk_staleAnchor hwalk) ?_ ?_ same <;>
      rcases behindWalk_cases late with rfl | rfl | rfl | rfl <;> decide
  · exact ensure_ok_iff.1 some none

end BehindWalk

/-- **Only an unbacked fee underflows the pool.** -/
theorem planSettlement_ne (backed : ∀ s, Walked cfg c bundle.segments s →
    s.feeSteps * poolStep ≤ c.poolValue) :
    planSettlement cfg c bundle outputs ≠ .error .poolUnderflow := by
  intro h
  obtain ⟨-, -, walked, hwalk, some, h⟩ := planSettlement_error rfl h
  have fee := backed walked (walk_ok hwalk)
  simp only [finishPlan, bind_error_iff, ensure_error_iff, okOr_error_iff,
    Chain.ensureOutputCapacity, feePlanck_ok, reduceCtorEq, and_false, false_or] at h
  rcases h with ⟨none, -⟩ | ⟨_, -, _, -, _, -, _, -, _, -, _, -, h⟩
  · exact absurd some none
  rcases h with h | ⟨_, ⟨rfl, -⟩, h⟩
  · simp [feePlanck, okOr_error_iff] at h
  · rcases h with ⟨unbacked, -⟩ | ⟨_, -, ⟨⟩⟩
    exact unbacked fee

theorem checkSettlement_ne {H : Poseidon2} (backed : ∀ s, Walked cfg c bundle.segments s →
    s.feeSteps * poolStep ≤ c.poolValue) :
    checkSettlement H cfg c bundle outputs ≠ .error .poolUnderflow := by
  have bind : ∀ slot, bindOutput H outputs slot ≠ .error .poolUnderflow := by
    intro slot
    rw [bindOutput, Ne, bind_error_iff, okOr_error_iff]
    rintro (⟨-, ⟨⟩⟩ | ⟨_, -, h⟩)
    split at h
    · cases h
    · cases (ensure_error_iff.1 h).2
  rw [checkSettlement, Ne, bind_error_iff]
  rintro (h | ⟨_, -, h⟩)
  · exact planSettlement_ne backed h
  · rcases (bind_error_iff ..).1 h with h | ⟨_, -, ⟨⟩⟩
    exact forM_ne_error bind _ h

end Qnero
