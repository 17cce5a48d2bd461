import Qnero.Shielded.Gates
import Qnero.Shielded.Skipped

/-!
# What a full block defers

A submission that does not fit the output budget of a block is kept for the next one; every other
refusal drops it. That is right as long as nothing else is wrong with it. The budget is looked at
behind all other checks but one: whether the pool backs the fees comes last. So a submission whose
fees the pool does not hold is deferred by a full block, and refused by an empty one.
-/

namespace Qnero

open Machine

variable {cfg : Config} {c : Chain} {outputs : List ShieldedOutput} {s s' : PlanState}
  {segments : List Segment} {bundle : SettlementBundle}

/-! ## The slots that settle -/

/-- The segment's anchor resolves, and its nullifiers are neither on the chain nor in these slots. -/
def SettlesBehind (cfg : Config) (c : Chain) (taken : List RealSlot) (segment : Segment) : Prop :=
  anchorFailure cfg c segment = none ∧
    ∀ n ∈ nullifiersOf segment.slots, n ∉ c.usedNullifiers ∧ n ∉ nullifiersOf taken

instance (taken : List RealSlot) (segment : Segment) :
    Decidable (SettlesBehind cfg c taken segment) :=
  inferInstanceAs (Decidable (_ ∧ _))

/-- The slots a submission settles, read off the chain and the segments alone. -/
def settlingSlots (cfg : Config) (c : Chain) (segments : List Segment) : List RealSlot :=
  segments.foldl
    (fun taken segment => if SettlesBehind cfg c taken segment then taken ++ segment.slots else taken) []

theorem settlingSlots_concat (segment : Segment) :
    settlingSlots cfg c (segments ++ [segment]) =
      if SettlesBehind cfg c (settlingSlots cfg c segments) segment then
        settlingSlots cfg c segments ++ segment.slots
      else settlingSlots cfg c segments := by
  rw [settlingSlots, List.foldl_append]
  rfl

/-- One segment is decided as `settlingSlots` decides it. -/
theorem planSegment_settlingSlots {segment : Segment} (walked : Walked cfg c segments s)
    (before : writtenSlots segments s.settles = settlingSlots cfg c segments)
    (hstep : planSegment cfg c outputs s segment = .ok s') :
    writtenSlots (segments ++ [segment]) s'.settles =
      settlingSlots cfg c (segments ++ [segment]) := by
  have settles_iff : SettlesBehind cfg c (settlingSlots cfg c segments) segment ↔
      anchorFailure cfg c segment = none ∧ conflicts c s.claimed segment = false := by
    rw [SettlesBehind, conflicts_eq_false_iff, walked.claimed_eq, before]
    simp only [List.mem_toFinset]
  have skipped : ¬ SettlesBehind cfg c (settlingSlots cfg c segments) segment →
      ∀ stale, skipSegment s segment stale = .ok s' →
        writtenSlots (segments ++ [segment]) s'.settles =
          settlingSlots cfg c (segments ++ [segment]) := by
    intro not stale hskip
    obtain rfl := skipSegment_ok hskip
    rw [settlingSlots_concat, if_neg not, ← before]
    exact (writtenSlots_concat walked.length_eq segment false).trans (List.append_nil _)
  simp only [planSegment, bind_ok_iff, ensure_ok_iff, exists_const] at hstep
  obtain ⟨-, hstep⟩ := hstep
  split at hstep
  · next conflict =>
    refine skipped (fun settles => ?_) _ hstep
    rw [conflict] at settles_iff
    cases (settles_iff.1 settles).2
  · next free =>
    split at hstep
    · next stale =>
      refine skipped (fun settles => ?_) _ hstep
      rw [stale] at settles_iff
      cases (settles_iff.1 settles).1
    · next anchored =>
      rw [(planSlots_ok hstep).settles_eq, settlingSlots_concat,
        if_pos (settles_iff.2 ⟨anchored, by simpa using free⟩), ← before]
      exact writtenSlots_concat walked.length_eq segment true

/-- **What a walk writes is what settles.** -/
theorem walk_settlingSlots
    (h : segments.foldlM (planSegment cfg c outputs) PlanState.start = .ok s) :
    writtenSlots segments s.settles = settlingSlots cfg c segments :=
  (foldlM_ok
    (P := fun segments s => Walked cfg c segments s ∧
      writtenSlots segments s.settles = settlingSlots cfg c segments)
    (fun _ _ _ _ hs hstep => ⟨planSegment_ok hs.1 hstep, planSegment_settlingSlots hs.1 hs.2 hstep⟩)
    segments [] _ s ⟨walked_start, rfl⟩ h).2

/-! ## The last checks -/

/-- The same state with another count of outputs. -/
def Chain.recount (c : Chain) (count : ℕ × ℕ) : Chain := { c with outputsWrittenThisBlock := count }

/-- The fees of slots, in planck. -/
def feesPlanck (slots : List RealSlot) : ℕ := (slots.map RealSlot.fee).sum * poolStep

/-- A plan behind the walk that stopped at the budget has passed what stands in front of it. -/
theorem finishPlan_full (some : s.slots ≠ 0)
    (h : finishPlan cfg c outputs s = .error .tooManyOutputsInBlock) :
    outputs.length = s.realSlots ∧
      (∃ floor, submissionFloor cfg s outputs = .some floor ∧ floor ≤ s.feeSteps) ∧
      satAdd u64Max (satMul u64Max s.slots 2) 1 ≤ c.tree.remainingCapacity := by
  simp only [finishPlan, bind_error_iff, ensure_error_iff, okOr_error_iff, ensure_ok_iff,
    okOr_ok_iff, exists_const, reduceCtorEq, and_false, false_or] at h
  rcases h with ⟨none, -⟩ | ⟨-, length, floor, floored, paid, room, -⟩
  · exact absurd some none
  · exact ⟨length, ⟨floor, floored, paid⟩, room⟩

/-- With those checks passed and room in the budget, the fees decide. -/
theorem finishPlan_ok_iff (some : s.slots ≠ 0) (length : outputs.length = s.realSlots)
    (paid : ∃ floor, submissionFloor cfg s outputs = .some floor ∧ floor ≤ s.feeSteps)
    (room : satAdd u64Max (satMul u64Max s.slots 2) 1 ≤ c.tree.remainingCapacity)
    (fits : c.outputsWritten + 2 * s.slots ≤ cfg.maxOutputsPerBlock) :
    (∃ plan, finishPlan cfg c outputs s = .ok plan) ↔
      s.feeSteps * poolStep ≤ c.poolValue ∧ s.feeSteps * poolStep ≤ u128Max := by
  obtain ⟨floor, floored, paid⟩ := paid
  have budget : c.outputsWritten + satMul u32Max s.slots 2 ≤ cfg.maxOutputsPerBlock := by
    have := cfg.maxOutputsPerBlock_lt
    simp only [satMul]
    omega
  simp only [finishPlan, bind_ok_iff, ensure_ok_iff, okOr_ok_iff, ensureOutputCapacity_ok,
    feePlanck_ok, exists_const]
  constructor
  · rintro ⟨_, -, -, _, -, -, -, -, _, ⟨rfl, word⟩, pool, -⟩
    exact ⟨pool, word⟩
  · rintro ⟨pool, word⟩
    exact ⟨_, some, length, floor, floored, paid, room, budget, _, ⟨rfl, word⟩, pool, rfl⟩

/-- **Deferral is for full blocks, and for unbacked fees.** When a plan is stopped by the output
budget, and its outputs fit an empty block, then the same submission in the same state with nothing
counted yet goes through exactly if the pool holds the fees of the slots that settle. -/
theorem deferral_exact {count : ℕ × ℕ}
    (deferred : planSettlement cfg c bundle outputs = .error .tooManyOutputsInBlock)
    (empty : (c.recount count).outputsWritten = 0)
    (fits : 2 * (settlingSlots cfg c bundle.segments).length ≤ cfg.maxOutputsPerBlock) :
    (∃ plan, planSettlement cfg (c.recount count) bundle outputs = .ok plan) ↔
      feesPlanck (settlingSlots cfg c bundle.segments) ≤ min c.poolValue u128Max := by
  obtain ⟨nonempty, exact, s, walk, some, full⟩ := planSettlement_error rfl deferred
  obtain ⟨length, paid, room⟩ := finishPlan_full some full
  have walked := walk_ok walk
  have slots := walked.slots_eq
  have fees := walked.feeSteps_eq
  rw [walk_settlingSlots walk] at slots fees
  have same : UpToCap cfg cfg c (c.recount count) :=
    ⟨⟨_, cfg.maxOutputsPerBlock_lt, rfl⟩, ⟨count, rfl⟩⟩
  have steps : planSettlement cfg (c.recount count) bundle outputs =
      finishPlan cfg (c.recount count) outputs s := by
    rw [planSettlement, bind_of_ok (ensure_of nonempty), bind_of_ok exact, same.planSegment_eq,
      bind_of_ok walk]
  have fits' : (c.recount count).outputsWritten + 2 * s.slots ≤ cfg.maxOutputsPerBlock := by
    rw [empty, slots, Nat.zero_add]
    exact fits
  have room' : satAdd u64Max (satMul u64Max s.slots 2) 1 ≤
      (c.recount count).tree.remainingCapacity := room
  rw [steps, finishPlan_ok_iff some length paid room' fits', fees, feesPlanck, le_min_iff]
  rfl

namespace Sample

/-- A block with one output left, and fees of ten steps that the pool holds or not. -/
def crowded (backed : Bool) : Chain := { full with poolValue := if backed then 50 * poolStep else 0 }

theorem plan_crowded (backed : Bool) :
    planSettlement runtime (crowded backed) ⟨[segment]⟩ outputsOf =
        .error .tooManyOutputsInBlock ∧
      settlingSlots runtime (crowded backed) [segment] = [RealSlot.ofSlot spend.slot] := by
  cases backed <;> decide +kernel

end Sample

open Sample in
/-- Backed fees: an empty block takes what the full one deferred. -/
theorem deferral_exact_backed : ∃ plan, planSettlement runtime ((crowded true).recount (0, 0))
    ⟨[segment]⟩ outputsOf = .ok plan := by
  refine (deferral_exact (plan_crowded true).1 rfl ?_).2 ?_
  · rw [(plan_crowded true).2]
    decide
  · rw [(plan_crowded true).2]
    decide +kernel

open Sample in
/-- Unbacked fees: the full block defers them, and no block takes them. -/
theorem unbacked_deferred :
    planSettlement runtime (crowded false) ⟨[segment]⟩ outputsOf = .error .tooManyOutputsInBlock ∧
    2 * (SettlementBundle.realSlots ⟨[segment]⟩).length ≤ runtime.maxOutputsPerBlock ∧
    ((crowded false).recount (0, 0)).outputsWritten = 0 ∧
    planSettlement runtime ((crowded false).recount (0, 0)) ⟨[segment]⟩ outputsOf =
      .error .poolUnderflow :=
  ⟨(plan_crowded false).1, by decide, rfl, by decide +kernel⟩

end Qnero
