import Qnero.Shielded.Deferral
import Qnero.Wallet.Spend

/-!
# Fee floors

The pallet asks for a fee twice: of each slot that settles, for itself and the bytes at its position,
and of the whole submission, for all slots and all bytes it carries. The first asks for more, since a
started quantum is paid for in full: a sum of quotients rounded up is at least the quotient of the sum.
So the second says something only to a submission that skips. A wallet computes both floors on its
own, from the constants it reads in the metadata.
-/

namespace Qnero

open Machine

variable {cfg : Config} {c : Chain} {outputs : List ShieldedOutput} {s s' : PlanState}
  {segments : List Segment} {bundle : SettlementBundle}

/-! ## Quotients rounded up -/

theorem divCeil_le_iff {a b n : ℕ} (pos : 0 < b) : divCeil a b ≤ n ↔ a ≤ b * n := by
  rw [divCeil, ← Nat.lt_succ_iff, Nat.div_lt_iff_lt_mul pos, Nat.succ_mul, Nat.mul_comm]
  omega

theorem divCeil_add_le (a a' : ℕ) {b : ℕ} (pos : 0 < b) :
    divCeil (a + a') b ≤ divCeil a b + divCeil a' b := by
  rw [divCeil_le_iff pos, Nat.mul_add]
  exact Nat.add_le_add ((divCeil_le_iff pos).1 le_rfl) ((divCeil_le_iff pos).1 le_rfl)

theorem divCeil_mono {a a' : ℕ} (h : a ≤ a') (b : ℕ) : divCeil a b ≤ divCeil a' b :=
  Nat.div_le_div_right (by omega)

/-- **The quotient of a sum is at most the sum of the quotients**, each rounded up. -/
theorem divCeil_sum_le (l : List ℕ) {b : ℕ} (pos : 0 < b) :
    divCeil l.sum b ≤ (l.map (divCeil · b)).sum := by
  induction l with
  | nil => exact (divCeil_le_iff pos).2 (Nat.zero_le _)
  | cons a l ih =>
    rw [List.sum_cons, List.map_cons, List.sum_cons]
    exact (divCeil_add_le a l.sum pos).trans (Nat.add_le_add_left ih _)

theorem bytesPerFeeQuantum_pos (cfg : Config) : 0 < bytesPerFeeQuantum cfg :=
  lt_of_lt_of_le Nat.zero_lt_one (Nat.le_max_right ..)

/-! ## A walk that skips nothing -/

/-- The steps the bytes of these positions cost, each position for itself. -/
def positionSteps (cfg : Config) (outputs : List ShieldedOutput) : ℕ :=
  (outputs.map fun output => divCeil (outputBytes output) (bytesPerFeeQuantum cfg)).sum

theorem carriedSteps_le (cfg : Config) (outputs : List ShieldedOutput) :
    divCeil (carriedBytes outputs) (bytesPerFeeQuantum cfg) ≤ positionSteps cfg outputs := by
  rw [carriedBytes_eq]
  refine (divCeil_mono (Nat.min_le_left ..) _).trans ?_
  refine (divCeil_sum_le _ (bytesPerFeeQuantum_pos cfg)).trans_eq ?_
  rw [List.map_map]
  rfl

/-- As long as nothing is skipped, every slot has paid for itself and for its position. -/
structure PaidSoFar (cfg : Config) (outputs : List ShieldedOutput) (s : PlanState) : Prop where
  counted : s.slots + s.skippedSlots = s.realSlots
  slots_le : s.slots ≤ u32Max
  skippedSlots_le : s.skippedSlots ≤ u32Max
  fees_le : s.feeSteps ≤ u128Max
  paid : s.skippedSlots = 0 →
    s.slots * cfg.minLeafFee + positionSteps cfg (outputs.take s.realSlots) ≤ s.feeSteps

theorem paidSoFar_start : PaidSoFar cfg outputs PlanState.start := by
  constructor <;> simp [PlanState.start, positionSteps]

/-- A fee in range is above the flat part and the bytes together: the floor did not saturate. -/
theorem le_fee_of_feeFloor {minFee bytes fee : ℕ} (floor : feeFloor cfg minFee bytes ≤ fee)
    (range : fee ≤ maxValue) : minFee + divCeil bytes (bytesPerFeeQuantum cfg) ≤ fee := by
  have word : maxValue < u64Max := by decide
  simp only [feeFloor, satAdd] at floor
  omega

variable {slot : RealSlot}

theorem PaidSoFar.planSlot (h : PaidSoFar cfg outputs s)
    (step : planSlot cfg outputs s slot = .ok s') : PaidSoFar cfg outputs s' := by
  simp only [Qnero.planSlot, bind_ok_iff, ensure_ok_iff, okOr_ok_iff, checkedAdd_eq_some,
    Except.ok.injEq, exists_const] at step
  obtain ⟨range, -, _, -, _, -, output, here, -, floor, _, ⟨rfl, fees⟩, _, ⟨rfl, count⟩, _, ⟨rfl, -⟩,
    rfl⟩ := step
  have price := le_fee_of_feeFloor floor range
  have counted := h.counted
  refine ⟨by dsimp only; omega, count, h.skippedSlots_le, fees, fun none => ?_⟩
  have before := h.paid none
  dsimp only
  rw [List.take_add_one, here, Option.toList_some]
  simp only [positionSteps, List.map_append, List.map_singleton, List.sum_append, List.sum_singleton,
    Nat.succ_mul] at before ⊢
  omega

theorem PaidSoFar.planSegment {segment : Segment} (h : PaidSoFar cfg outputs s)
    (step : planSegment cfg c outputs s segment = .ok s') : PaidSoFar cfg outputs s' := by
  simp only [Qnero.planSegment, bind_ok_iff, ensure_ok_iff, exists_const] at step
  obtain ⟨nonempty, step⟩ := step
  have some := List.length_pos_iff.2 nonempty
  have skip : ∀ stale, skipSegment s segment stale = .ok s' → PaidSoFar cfg outputs s' := by
    intro stale skipped
    have counted := h.counted
    simp only [skipSegment, bind_ok_iff, okOr_ok_iff, checkedAdd_eq_some, Except.ok.injEq,
      Option.ite_none_right_eq_some, Option.some.injEq] at skipped
    obtain ⟨_, ⟨-, rfl⟩, _, ⟨rfl, skippedSlots⟩, _, ⟨rfl, -⟩, rfl⟩ := skipped
    refine ⟨?_, h.slots_le, skippedSlots, h.fees_le, fun none => ?_⟩ <;> dsimp only at *
    · omega
    · omega
  split at step
  · exact skip _ step
  · split at step
    · exact skip _ step
    · refine foldlM_ok (P := fun _ s => PaidSoFar cfg outputs s)
        (fun _ _ _ _ paid slot => paid.planSlot slot) segment.slots [] _ s' ?_ step
      exact ⟨h.counted, h.slots_le, h.skippedSlots_le, h.fees_le, h.paid⟩

section

variable (walk : segments.foldlM (planSegment cfg c outputs) PlanState.start = .ok s)
include walk

theorem paidSoFar_walk : PaidSoFar cfg outputs s :=
  foldlM_ok (P := fun _ s => PaidSoFar cfg outputs s)
    (fun _ _ _ _ paid segment => paid.planSegment segment) _ [] _ _ paidSoFar_start walk

/-- **Slots that all settle have paid for the submission.** -/
theorem submissionFloor_le_feeSteps (none : s.skippedSlots = 0)
    (length : outputs.length = s.realSlots) :
    ∃ floor, submissionFloor cfg s outputs = some floor ∧ floor ≤ s.feeSteps := by
  have h := paidSoFar_walk walk
  have paid := h.paid none
  rw [← length, List.take_length] at paid
  have bytes := carriedSteps_le cfg outputs
  have word : u32Max ≤ u128Max := by decide
  have slots := h.slots_le
  have fees := h.fees_le
  refine ⟨s.slots * cfg.minLeafFee + divCeil (carriedBytes outputs) (bytesPerFeeQuantum cfg), ?_,
    by omega⟩
  simp only [submissionFloor, Option.bind_eq_bind, Option.bind_eq_some_iff, checkedAdd_eq_some,
    checkedMul_eq_some, none, Nat.add_zero]
  exact ⟨_, ⟨rfl, by omega⟩, _, ⟨rfl, by omega⟩, rfl, by omega⟩

/-- Every segment settles, so nothing is skipped. -/
theorem skippedSlots_eq_zero (all : settlingSlots cfg c segments = segments.flatMap Segment.slots) :
    s.skippedSlots = 0 := by
  have walked := walk_ok walk
  have counted := (paidSoFar_walk walk).counted
  rw [walked.slots_eq, walked.realSlots_eq, walk_settlingSlots walk, all] at counted
  omega

end

/-- **Only a submission that skips is underpaid.** -/
theorem skipped_of_payloadUnderpaid
    (h : planSettlement cfg c bundle outputs = .error .payloadUnderpaid) :
    ∃ s, bundle.segments.foldlM (planSegment cfg c outputs) PlanState.start = .ok s ∧
      s.slots ≠ 0 ∧ s.skippedSlots ≠ 0 := by
  obtain ⟨-, -, s, walk, some, h⟩ := planSettlement_error rfl h
  refine ⟨s, walk, some, fun none => ?_⟩
  simp only [finishPlan, bind_error_iff, ensure_error_iff, okOr_error_iff, ensure_ok_iff, okOr_ok_iff,
    Chain.ensureOutputCapacity, exists_const, reduceCtorEq, and_false, false_or] at h
  rcases h with ⟨nothing, -⟩ | ⟨-, length, floor, floored, h⟩
  · exact absurd some nothing
  obtain ⟨floor', floored', paid⟩ := submissionFloor_le_feeSteps walk none length
  obtain rfl := Option.some.inj (floored.symm.trans floored')
  rcases h with ⟨under, -⟩ | ⟨_, -, h⟩
  · exact under paid
  · simp [feePlanck, okOr_error_iff] at h

theorem planSettlement_ne_payloadUnderpaid
    (all : settlingSlots cfg c bundle.segments = bundle.realSlots) :
    planSettlement cfg c bundle outputs ≠ .error .payloadUnderpaid := by
  intro h
  obtain ⟨s, walk, -, skipped⟩ := skipped_of_payloadUnderpaid h
  exact skipped (skippedSlots_eq_zero walk all)

/-! ## The wallet's floors -/

/-- `submission_fee_floor`: the floor of a submission with this many real slots and bytes. -/
def submissionFeeFloor (metadata : SpendMetadata) (realSlots carriedBytes : ℕ) : ℕ :=
  satAdd u64Max (satMul u64Max metadata.minLeafFee realSlots)
    (divCeil carriedBytes (max metadata.ciphertextBytesPerFeeQuantum 1))

/-- The constants of the metadata are the runtime's. -/
structure SpendMetadata.Declares (metadata : SpendMetadata) (cfg : Config) : Prop where
  minLeafFee_eq : metadata.minLeafFee = cfg.minLeafFee
  quantum_eq : metadata.ciphertextBytesPerFeeQuantum = cfg.ciphertextBytesPerFeeQuantum

section

variable {metadata : SpendMetadata} (declares : metadata.Declares cfg)

include declares

theorem submissionFloor_eq
    (walk : segments.foldlM (planSegment cfg c outputs) PlanState.start = .ok s)
    (fits : cfg.minLeafFee * s.realSlots +
      divCeil (carriedBytes outputs) (bytesPerFeeQuantum cfg) ≤ u64Max) :
    submissionFloor cfg s outputs =
      some (submissionFeeFloor metadata s.realSlots (carriedBytes outputs)) := by
  have h := paidSoFar_walk walk
  have slots := h.slots_le
  have skippedSlots := h.skippedSlots_le
  have words : 2 * u32Max ≤ u128Max ∧ u64Max ≤ u128Max := by decide
  rw [← h.counted] at fits ⊢
  rw [bytesPerFeeQuantum] at fits
  simp only [submissionFloor, Option.bind_eq_bind, Option.bind_eq_some_iff, checkedAdd_eq_some,
    checkedMul_eq_some]
  refine ⟨_, ⟨rfl, by omega⟩, _, ⟨rfl, ?_⟩, ?_, ?_⟩
  · rw [Nat.mul_comm]
    omega
  · rw [submissionFeeFloor, declares.minLeafFee_eq, declares.quantum_eq, satMul,
      Nat.min_eq_left (by omega), satAdd_eq fits, Nat.mul_comm]
    rfl
  · rw [submissionFeeFloor]
    exact (Nat.min_le_right ..).trans words.2

variable {ct1 ct2 : List UInt8}

/-- A byte string in memory is at most half of the address space long, so the sum does not
overflow. -/
theorem slotFeeFloor_eq (memory : ct1.length + ct2.length ≤ u64Max) :
    slotFeeFloor metadata ct1.length ct2.length =
      feeFloor cfg cfg.minLeafFee (outputBytes ⟨ct1, ct2⟩) := by
  rw [slotFeeFloor, feeFloor, outputBytes, satAdd_eq memory, bytesPerFeeQuantum,
    declares.minLeafFee_eq, declares.quantum_eq]
  rfl

omit declares in
theorem length_le_of_ensureExactOutput {output : ShieldedOutput} {u : Unit}
    (h : ensureExactOutput output = .ok u) : output.ct1.length + output.ct2.length ≤ u64Max := by
  rcases ensureExactOutput_ok.1 h with empty | ⟨first, second⟩
  · simp_all [ShieldedOutput.isEmpty]
  · rw [first.length_eq, second.length_eq]
    decide

/-- The only slot of a submission, at a fee that meets the floor of its pair. -/
theorem planSlot_priced (first : s.realSlots = 0) (exact : ensureExactOutput ⟨ct1, ct2⟩ = .ok ())
    (priced : slotFeeFloor metadata ct1.length ct2.length ≤ slot.fee) :
    planSlot cfg [⟨ct1, ct2⟩] s slot ≠ .error .feeBelowMinimum := by
  rw [slotFeeFloor_eq declares (length_le_of_ensureExactOutput exact)] at priced
  intro h
  simp only [planSlot, claimNullifier, bind_error_iff, ensure_error_iff, okOr_error_iff, ensure_ok_iff,
    okOr_ok_iff, first, List.getElem?_cons_zero, Option.some.injEq, exists_const, exists_eq_left',
    reduceCtorEq, and_false, false_or, and_true, or_false] at h
  obtain ⟨-, -, _, -, _, -, -, below⟩ := h
  exact below priced

theorem planSegment_priced {segment : Segment} (one : segment.slots = [slot])
    (exact : ensureExactOutput ⟨ct1, ct2⟩ = .ok ())
    (priced : slotFeeFloor metadata ct1.length ct2.length ≤ slot.fee) :
    [segment].foldlM (planSegment cfg c [⟨ct1, ct2⟩]) PlanState.start ≠ .error .feeBelowMinimum := by
  have skips : ∀ stale, skipSegment PlanState.start segment stale ≠ .error .feeBelowMinimum := by
    simp [skipSegment, bind_error_iff, okOr_error_iff]
  rw [List.foldlM_cons, Ne, bind_error_iff, planSegment, bind_error_iff, ensure_error_iff]
  rintro ((⟨-, ⟨⟩⟩ | ⟨_, -, h⟩) | ⟨_, -, ⟨⟩⟩)
  split at h
  · exact skips _ h
  · split at h
    · exact skips _ h
    · rw [one, List.foldlM_cons, bind_error_iff] at h
      rcases h with h | ⟨_, -, ⟨⟩⟩
      exact planSlot_priced declares rfl exact priced h

/-- **A spend priced at its floor is not refused for its fee.** -/
theorem planSettlement_priced {segment : Segment} (one : segment.slots = [slot])
    (priced : slotFeeFloor metadata ct1.length ct2.length ≤ slot.fee) :
    planSettlement cfg c ⟨[segment]⟩ [⟨ct1, ct2⟩] ≠ .error .feeBelowMinimum ∧
      planSettlement cfg c ⟨[segment]⟩ [⟨ct1, ct2⟩] ≠ .error .payloadUnderpaid := by
  constructor
  · intro h
    rw [planSettlement, bind_error_iff, ensure_error_iff] at h
    rcases h with ⟨-, ⟨⟩⟩ | ⟨_, -, h⟩
    rcases (bind_error_iff ..).1 h with h | ⟨_, exact, h⟩
    · obtain ⟨output, -, h⟩ := exists_of_forM_error h
      unfold ensureExactOutput ensureExactCiphertext at h
      split at h
      · cases h
      · simp [bind_error_iff, ensure_error_iff, okOr_error_iff] at h
    rcases (bind_error_iff ..).1 h with h | ⟨s, walk, h⟩
    · exact planSegment_priced declares one (forM_ok_iff.1 exact _ List.mem_cons_self) priced h
    · simp only [finishPlan, bind_error_iff, ensure_error_iff, okOr_error_iff,
        Chain.ensureOutputCapacity, feePlanck, reduceCtorEq, and_false, or_false, exists_false] at h
      refine staleAnchor_getD_ne (walk_staleAnchor walk) ?_ ?_ h.2 <;> decide
  · intro h
    obtain ⟨s, walk, some, skipped⟩ := skipped_of_payloadUnderpaid h
    -- One slot, so it settles or it is skipped.
    have counted := (paidSoFar_walk walk).counted
    rw [(walk_ok walk).realSlots_eq] at counted
    simp only [List.flatMap_singleton, one, List.length_singleton] at counted
    omega

/-- **The fee floors agree.** Slots that all settle have paid for the submission when each has paid for
itself, whatever the constants are, so a submission that skips nothing is not refused as underpaid. The
wallet's floors are the pallet's, and a one-slot spend at its floor passes both. -/
theorem fee_floors_agree :
    (∀ c (segments : List Segment) outputs s,
      segments.foldlM (planSegment cfg c outputs) PlanState.start = .ok s →
      settlingSlots cfg c segments = segments.flatMap Segment.slots → outputs.length = s.realSlots →
        ∃ floor, submissionFloor cfg s outputs = some floor ∧ floor ≤ s.feeSteps) ∧
    (∀ c bundle outputs, settlingSlots cfg c bundle.segments = bundle.realSlots →
      planSettlement cfg c bundle outputs ≠ .error .payloadUnderpaid) ∧
    (∀ c (segments : List Segment) outputs s,
      segments.foldlM (planSegment cfg c outputs) PlanState.start = .ok s →
      cfg.minLeafFee * s.realSlots + divCeil (carriedBytes outputs) (bytesPerFeeQuantum cfg) ≤ u64Max →
        submissionFloor cfg s outputs =
          some (submissionFeeFloor metadata s.realSlots (carriedBytes outputs))) ∧
    (∀ ct1 ct2 : List UInt8, ct1.length + ct2.length ≤ u64Max →
      slotFeeFloor metadata ct1.length ct2.length =
        feeFloor cfg cfg.minLeafFee (outputBytes ⟨ct1, ct2⟩)) ∧
    ∀ c segment slot ct1 ct2, segment.slots = [slot] →
      slotFeeFloor metadata ct1.length ct2.length ≤ slot.fee →
        planSettlement cfg c ⟨[segment]⟩ [⟨ct1, ct2⟩] ≠ .error .feeBelowMinimum ∧
          planSettlement cfg c ⟨[segment]⟩ [⟨ct1, ct2⟩] ≠ .error .payloadUnderpaid := by
  refine ⟨?_, ?_, ?_, ?_, ?_⟩
  · intro c segments outputs s walk all length
    exact submissionFloor_le_feeSteps walk (skippedSlots_eq_zero walk all) length
  · intro c bundle outputs all
    exact planSettlement_ne_payloadUnderpaid all
  · intro c segments outputs s walk fits
    exact submissionFloor_eq declares walk fits
  · intro ct1 ct2 memory
    exact slotFeeFloor_eq declares memory
  · intro c segment slot ct1 ct2 one priced
    exact planSettlement_priced declares one priced

end

namespace Sample

/-- The metadata of the runtime. -/
def spendMetadata : SpendMetadata := ⟨[], 1, 512, 2048⟩

theorem declares_runtime : spendMetadata.Declares runtime := ⟨rfl, rfl⟩

/-- The slot of the sample spend, and one with other nullifiers that pays the floor. -/
def twoSlots : Segment :=
  let slot := RealSlot.ofSlot spend.slot
  ⟨digestBytes spend.blockHash, 1, [slot, { slot with nullifiers := slot.commitments, fee := 8 }]⟩

def twoOutputs : List ShieldedOutput := outputsOf ++ outputsOf

end Sample

open Sample in
/-- Two slots at ten and eight steps over a floor of eight each, and the first of them alone. -/
theorem fee_floors_agree_sample :
    slotFeeFloor spendMetadata ciphertext.length ciphertext.length = 8 ∧
    settlingSlots runtime settling [twoSlots] = [twoSlots].flatMap Segment.slots ∧
    (∃ s floor, [twoSlots].foldlM (planSegment runtime settling twoOutputs) PlanState.start = .ok s ∧
      submissionFloor runtime s twoOutputs = some floor ∧ floor ≤ s.feeSteps ∧
      floor = submissionFeeFloor spendMetadata 2 7168) ∧
    planSettlement runtime settling ⟨[twoSlots]⟩ twoOutputs ≠ .error .payloadUnderpaid ∧
    planSettlement runtime settling ⟨[Sample.segment]⟩ outputsOf ≠ .error .feeBelowMinimum := by
  obtain ⟨paid, unskipped, same, slots, priced⟩ := fee_floors_agree declares_runtime
  have all : settlingSlots runtime settling [twoSlots] = [twoSlots].flatMap Segment.slots := by
    decide +kernel
  have length : ciphertext.length = 1792 := by decide +kernel
  have floor : slotFeeFloor spendMetadata ciphertext.length ciphertext.length = 8 := by
    rw [slots ciphertext ciphertext (by rw [length]; decide)]
    decide +kernel
  refine ⟨floor, all, ?_, unskipped settling ⟨[twoSlots]⟩ _ all,
    (priced settling Sample.segment _ ciphertext ciphertext rfl (floor.le.trans (by decide +kernel))).1⟩
  have walks : ([twoSlots].foldlM (planSegment runtime settling twoOutputs) PlanState.start).isOk := by
    decide +kernel
  cases walk : [twoSlots].foldlM (planSegment runtime settling twoOutputs) PlanState.start with
  | error e =>
    rw [walk] at walks
    cases walks
  | ok s =>
    have two : s.realSlots = 2 := (walk_ok walk).realSlots_eq
    have carried : carriedBytes twoOutputs = 7168 := by decide +kernel
    obtain ⟨floor, some, le⟩ := paid settling [twoSlots] twoOutputs s walk all (by rw [two]; rfl)
    have wallet := same settling [twoSlots] twoOutputs s walk (by rw [two, carried]; decide)
    rw [some, two, carried] at wallet
    exact ⟨s, floor, rfl, some, le, Option.some.inj wallet⟩

end Qnero
