import Qnero.Shielded.DoubleSpend
import Qnero.Shielded.Skipped

/-!
# Skips are final

A segment is skipped because its anchor does not resolve or because a nullifier of it is taken. On one
chain neither goes away: the window moves forward, a hash that was pruned or differs stays so, and a
nullifier stays used. The exceptions are an anchor the chain has not reached, and a nullifier that was
only claimed, by a segment in front of it in a submission that was planned and not executed.
-/

namespace Qnero

open Machine

variable {H : Poseidon2} {cfg : Config} {c c' c'' : Chain} {segment : Segment}
  {bundle : SettlementBundle} {outputs : List ShieldedOutput} {plan : PlannedSettlement}

/-! ## One chain -/

/-- `c'` comes after `c` on one chain: the number does not fall, a hash that was written stays until
it is pruned, and a used nullifier stays used. -/
structure Chain.Later (c c' : Chain) : Prop where
  number_le : c.blockNumber ≤ c'.blockNumber
  hash_or_pruned : ∀ n < c.blockNumber, c'.blockHash n = c.blockHash n ∨ c'.blockHash n = 0
  used_subset : c.usedNullifiers ⊆ c'.usedNullifiers

theorem Chain.Later.refl (c : Chain) : c.Later c := ⟨le_rfl, fun _ _ => .inl rfl, Finset.Subset.refl _⟩

theorem Chain.Later.trans (first : c.Later c') (second : c'.Later c'') : c.Later c'' where
  number_le := first.number_le.trans second.number_le
  hash_or_pruned n below := by
    rcases second.hash_or_pruned n (below.trans_le first.number_le) with same | pruned
    · rw [same]
      exact first.hash_or_pruned n below
    · exact .inr pruned
  used_subset := first.used_subset.trans second.used_subset

/-- Within a block nothing of it moves but the nullifiers. -/
theorem Chain.Later.within (number : c'.blockNumber = c.blockNumber) (hashes : c'.blockHash = c.blockHash)
    (used : c.usedNullifiers ⊆ c'.usedNullifiers) : c.Later c' :=
  ⟨number.ge, fun _ _ => .inl (by rw [hashes]), used⟩

theorem later_openBlock (hash : Hash256) (hasAuthor : Bool) :
    c.Later (c.openBlock cfg hash hasAuthor) where
  number_le := Nat.le_succ _
  hash_or_pruned n below := by
    have kept : (c.openBlock cfg hash hasAuthor).blockHash n = c.prunedHashes cfg n :=
      Function.update_of_ne below.ne ..
    rw [kept]
    exact Chain.prunedHashes_cases cfg c n
  used_subset := Finset.Subset.refl _

theorem later_nextBlock (env : Environment) : c.Later (c.nextBlock H cfg env) := by
  have frame : ∀ {α : Type} (f : Chain → α), (∀ c fees payload, f (c.deferred fees payload) = f c) →
      (∀ c credit commitment, f (c.minted credit commitment) = f c) →
      (∀ c t, f (c.setTree t) = f c) → f (c.finalize H cfg) = f c := by
    intro α f deferred minted tree
    rw [Chain.finalize, tree, payRewards_frame f deferred minted]
  have closed : c.Later (c.finalize H cfg) := by
    refine .within ?_ ?_ (Eq.subset ?_)
    · exact frame Chain.blockNumber (fun _ _ _ => rfl) (fun _ _ _ => rfl) fun _ _ => rfl
    · exact frame Chain.blockHash (fun _ _ _ => rfl) (fun _ _ _ => rfl) fun _ _ => rfl
    · exact (frame Chain.usedNullifiers (fun _ _ _ => rfl) (fun _ _ _ => rfl) fun _ _ => rfl).symm
  exact closed.trans (later_openBlock ..)

theorem Effect.later {op : Op} (effect : Effect H cfg c op c') : c.Later c' := by
  cases effect with
  | free => exact .refl c
  | fee | shield | coinbase => exact .within rfl rfl (Finset.Subset.refl _)
  | @settle bundle outputs plan check =>
    refine .within ?_ ?_ ?_
    · exact settled_frame Chain.blockNumber (fun _ _ => rfl) (fun _ _ _ => rfl) ..
    · exact settled_frame Chain.blockHash (fun _ _ => rfl) (fun _ _ _ => rfl) ..
    · rw [settled_usedNullifiers]
      exact Finset.subset_union_left
  | endBlock env => exact later_nextBlock env

/-- **Every run is one chain.** -/
theorem later_run (H : Poseidon2) (cfg : Config) (c : Chain) (ops : List Op) :
    c.Later (c.run H cfg ops) :=
  run_invariant (P := c.Later) (A := fun _ _ => True) (fun _ _ _ later _ effect =>
    later.trans effect.later) (.refl c) (along_true ..)

/-! ## What does not go away -/

/-- **A failed anchor below the head fails for good.** -/
theorem Chain.Later.anchorFailure_ne_none (later : c.Later c')
    (past : segment.blockNumber < c.blockNumber) (failed : anchorFailure cfg c segment ≠ none) :
    anchorFailure cfg c' segment ≠ none := by
  have number := later.number_le
  intro resolves
  apply failed
  unfold anchorFailure at resolves ⊢
  split_ifs at resolves with ahead window absent differs
  -- What resolves later was in the window, and had its hash, before.
  have found : c.blockHash segment.blockNumber = c'.blockHash segment.blockNumber := by
    rcases later.hash_or_pruned _ past with same | pruned
    · exact same.symm
    · exact absurd pruned absent
  rw [found, if_neg (by omega), if_neg (by omega), if_neg absent, if_neg differs]

/-- The segment has a nullifier the chain has used. -/
def Segment.Spent (c : Chain) (segment : Segment) : Prop :=
  ∃ n ∈ nullifiersOf segment.slots, n ∈ c.usedNullifiers

theorem Chain.Later.spent (later : c.Later c') (spent : segment.Spent c) : segment.Spent c' := by
  obtain ⟨n, mem, used⟩ := spent
  exact ⟨n, mem, later.used_subset used⟩

/-- Every plan in this state that has the segment skips it. -/
def Segment.SkippedIn (cfg : Config) (c : Chain) (segment : Segment) : Prop :=
  ∀ bundle outputs plan, planSettlement cfg c bundle outputs = .ok plan →
    ∀ i : ℕ, bundle.segments[i]? = some segment → plan.settles[i]? = some false

theorem skippedIn_of (why : anchorFailure cfg c segment ≠ none ∨ segment.Spent c) :
    segment.SkippedIn cfg c := by
  intro bundle outputs plan planned i here
  have flags := (planSettlement_flags planned i segment here).not
  have not : ¬ Settles cfg c bundle.segments plan.settles i segment := by
    rintro ⟨anchored, free⟩
    rcases why with failed | ⟨n, mem, used⟩
    · exact failed anchored
    · exact (free n mem).1 used
  have inside : i < plan.settles.length := by
    rw [(planSettlement_ok planned).length_eq]
    exact (List.getElem?_eq_some_iff.1 here).1
  have unset := flags.2 not
  rw [List.getElem?_eq_getElem inside] at unset ⊢
  simpa using unset

theorem mem_writtenSlots_of_take {segments : List Segment} {flags : List Bool} {i : ℕ} {n : Hash256}
    (h : n ∈ nullifiersOf (writtenSlots (segments.take i) (flags.take i))) :
    n ∈ nullifiersOf (writtenSlots segments flags) := by
  have front : (writtenSegments (segments.take i) (flags.take i)).Sublist
      (writtenSegments segments flags) := by
    rw [writtenSegments, List.zip, ← List.take_zipWith]
    exact ((List.take_sublist i _).filter _).map _
  obtain ⟨slot, mem, k, rfl⟩ := mem_nullifiersOf.1 h
  obtain ⟨segment, inside, at_segment⟩ := List.mem_flatMap.1 mem
  exact mem_nullifiersOf.2 ⟨slot, List.mem_flatMap.2 ⟨segment, front.subset inside, at_segment⟩, k, rfl⟩

/-- **A segment that an executed settlement skipped is spent or has a failed anchor.** -/
theorem spent_of_settled (check : checkSettlement H cfg c bundle outputs = .ok plan) {i : ℕ}
    (here : bundle.segments[i]? = some segment) (skipped : plan.settles[i]? = some false) :
    anchorFailure cfg c segment ≠ none ∨ segment.Spent (c.settled cfg bundle plan) := by
  have planned := (checkSettlement_ok_iff.1 check).1
  have not : ¬ Settles cfg c bundle.segments plan.settles i segment := by
    rw [← planSettlement_flags planned i segment here, skipped]
    nofun
  by_contra neither
  rw [not_or, not_not] at neither
  refine not ⟨neither.1, fun n mem => ?_⟩
  have unused : n ∉ (c.settled cfg bundle plan).usedNullifiers := fun used =>
    neither.2 ⟨n, mem, used⟩
  rw [settled_usedNullifiers, Finset.mem_union, not_or, List.mem_toFinset] at unused
  exact ⟨unused.1, fun front => unused.2 (mem_writtenSlots_of_take front)⟩

/-- **Skips are final.** Along a run, an anchor that failed below the head fails ever after; a segment
with a used nullifier is skipped by every later plan; and so is every segment with a past anchor that
an executed settlement skipped, whatever the reason was. -/
theorem skips_are_final (H : Poseidon2) (cfg : Config) (c : Chain) (segment : Segment) :
    (∀ c', c.Later c' → segment.blockNumber < c.blockNumber → anchorFailure cfg c segment ≠ none →
      anchorFailure cfg c' segment ≠ none ∧ segment.SkippedIn cfg c') ∧
    (∀ c', c.Later c' → segment.Spent c → segment.SkippedIn cfg c') ∧
    (∀ bundle outputs plan (i : ℕ), checkSettlement H cfg c bundle outputs = .ok plan →
      bundle.segments[i]? = some segment → plan.settles[i]? = some false →
      segment.blockNumber < c.blockNumber →
        ∀ c', (c.settled cfg bundle plan).Later c' → segment.SkippedIn cfg c') ∧
    ∀ ops, c.Later (c.run H cfg ops) := by
  refine ⟨?_, ?_, ?_, later_run H cfg c⟩
  · intro c' later past failed
    have still := later.anchorFailure_ne_none past failed
    exact ⟨still, skippedIn_of (.inl still)⟩
  · intro c' later spent
    exact skippedIn_of (.inr (later.spent spent))
  · intro bundle outputs plan i check here skipped past c' later
    rcases spent_of_settled check here skipped with failed | spent
    · have after : c.Later (c.settled cfg bundle plan) :=
        (Effect.settle check : Effect H cfg c (.settle bundle outputs) _).later
      exact skippedIn_of (.inl ((after.trans later).anchorFailure_ne_none past failed))
    · exact skippedIn_of (.inr (later.spent spent))

namespace Sample

/-- The sample segment at another fee: the same nullifiers. -/
def pricedSegment (fee : ℕ) : Segment :=
  { Sample.segment with slots := [{ RealSlot.ofSlot spend.slot with fee := fee }] }

/-- A later block of the chain, with nothing settled in between. -/
def afterwards : Chain := settling.run sampleSponge runtime [.endBlock ⟨0, 0, [], true⟩]

/-- A block of another chain at the height the segment names. -/
def forked : Chain := { settling with blockHash := Function.update (fun _ => 0) 1 (digestBytes 9) }

end Sample

open Sample in
/-- A segment anchored in another chain is skipped now and in the next block. -/
theorem skips_are_final_forked :
    anchorFailure runtime forked Sample.segment = some .blockHashMismatch ∧
      Sample.segment.SkippedIn runtime (forked.run sampleSponge runtime [.endBlock ⟨0, 0, [], true⟩]) := by
  have failed : anchorFailure runtime forked Sample.segment = some .blockHashMismatch := by decide +kernel
  obtain ⟨anchors, -, -, runs⟩ := skips_are_final sampleSponge runtime forked Sample.segment
  exact ⟨failed, (anchors _ (runs _) (by decide) (by rw [failed]; nofun)).2⟩

open Sample in
/-- Two segments with the same nullifiers in one submission: the plan skips the second. The submission
is not executed, and the second segment, sent alone in the next block, settles. -/
theorem claimed_not_final :
    (planSettlement runtime settling ⟨[pricedSegment 20, pricedSegment 21]⟩
        (outputsOf ++ outputsOf)).map PlannedSettlement.settles = .ok [true, false] ∧
      settling.Later afterwards ∧
      (planSettlement runtime afterwards ⟨[pricedSegment 21]⟩ outputsOf).map
        PlannedSettlement.settles = .ok [true] := by
  have plans : (planSettlement runtime settling ⟨[pricedSegment 20, pricedSegment 21]⟩
        (outputsOf ++ outputsOf)).map PlannedSettlement.settles = .ok [true, false] ∧
      (planSettlement runtime afterwards ⟨[pricedSegment 21]⟩ outputsOf).map
        PlannedSettlement.settles = .ok [true] := by
    decide +kernel
  exact ⟨plans.1, later_run .., plans.2⟩

end Qnero
