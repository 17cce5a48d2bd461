import Qnero.Chain.Run
import Qnero.Ledger
import Qnero.Shielded.Atomic

/-!
# No double settlement

The segments a run has written, in order, and the nullifiers on them. A settlement refuses a zero
or repeated nullifier and skips a segment that meets one on the chain or in the same submission, so
every nullifier is written once: `run_written` is the invariant, over runs of all operations.
-/

namespace Qnero

open Machine Ledger

section

variable (H : Poseidon2) (cfg : Config)

/-- The segments an operation writes. -/
def Chain.writes (c : Chain) : Op → List Segment
  | .settle bundle outputs =>
    match (c.dispatch H cfg (.settle bundle outputs)).1, checkSettlement H cfg c bundle outputs with
    | .ok _, .ok plan => writtenSegments bundle.segments plan.settles
    | _, _ => []
  | _ => []

/-- The segments a run writes, in order. -/
def Chain.written (c : Chain) : List Op → List Segment
  | [] => []
  | op :: ops => c.writes H cfg op ++ Chain.written (c.step H cfg op) ops

end

/-- The nullifiers of all slots of some segments. -/
def nullifiersIn (segments : List Segment) : List Hash256 :=
  segments.flatMap fun segment => nullifiersOf segment.slots

theorem nullifiersIn_append (a b : List Segment) :
    nullifiersIn (a ++ b) = nullifiersIn a ++ nullifiersIn b := List.flatMap_append

theorem nullifiersOf_flatMap (segments : List Segment) :
    nullifiersOf (segments.flatMap Segment.slots) = nullifiersIn segments := by
  rw [nullifiersOf, List.flatMap_assoc]
  rfl

variable {H : Poseidon2} {cfg : Config} {c : Chain} {bundle : SettlementBundle}
  {outputs : List ShieldedOutput} {plan : PlannedSettlement}

/-- The segments a run has written are new to the chain it started from. -/
structure Written (used : Finset Hash256) (segments : List Segment) : Prop where
  fresh : Fresh used (nullifiersIn segments)
  ne_zero : ∀ n ∈ nullifiersIn segments, n ≠ 0
  nonempty : ∀ segment ∈ segments, segment.slots ≠ []

theorem written_nil (used : Finset Hash256) : Written used [] :=
  ⟨fresh_nil, by simp [nullifiersIn], by simp⟩

theorem Written.append {used : Finset Hash256} {a b : List Segment} (ha : Written used a)
    (hb : Written (used ∪ (nullifiersIn a).toFinset) b) : Written used (a ++ b) where
  fresh := by
    rw [nullifiersIn_append]
    exact ha.fresh.append hb.fresh
  ne_zero := by
    rw [nullifiersIn_append]
    exact List.forall_mem_append.2 ⟨ha.ne_zero, hb.ne_zero⟩
  nonempty := List.forall_mem_append.2 ⟨ha.nonempty, hb.nonempty⟩

/-- A segment has slots, and its nullifiers are written once, so it is written once. -/
theorem Written.nodup {used : Finset Hash256} {segments : List Segment} (h : Written used segments) :
    segments.Nodup := by
  have pairwise := (List.nodup_flatMap.1 h.fresh.nodup).2
  refine List.Pairwise.imp_of_mem (fun {a b} ha _ disjoint heq => ?_) pairwise
  obtain ⟨slot, hslot⟩ := List.exists_mem_of_ne_nil _ (h.nonempty a ha)
  have mem : slot.nullifiers 0 ∈ nullifiersOf a.slots := mem_nullifiersOf.2 ⟨slot, hslot, 0, rfl⟩
  exact disjoint mem (heq ▸ mem)

/-! ## One operation -/

theorem Planned.written (h : Planned cfg c bundle outputs plan) :
    Written c.usedNullifiers (writtenSegments bundle.segments plan.settles) where
  fresh := by
    rw [← nullifiersOf_flatMap]
    exact ⟨h.writable.nodup, h.fresh⟩
  ne_zero := by
    rw [← nullifiersOf_flatMap]
    exact h.writable.nullifier_ne_zero
  nonempty segment hsegment := h.nonempty segment (mem_writtenSegments hsegment)

theorem nextBlock_usedNullifiers (env : Environment) :
    (c.nextBlock H cfg env).usedNullifiers = c.usedNullifiers :=
  nextBlock_frame Chain.usedNullifiers (fun _ _ _ => rfl) (fun _ _ _ => rfl) (fun _ _ => rfl)
    (fun _ _ _ => rfl) env

theorem Effect.usedNullifiers {op : Op} {c' : Chain} (effect : Effect H cfg c op c')
    (hop : ∀ bundle outputs, op ≠ .settle bundle outputs) :
    c'.usedNullifiers = c.usedNullifiers := by
  cases effect with
  | settle => exact absurd rfl (hop _ _)
  | endBlock env => exact nextBlock_usedNullifiers env
  | free | fee | shield | coinbase => rfl

theorem writes_eq_nil {op : Op} (hop : ∀ bundle outputs, op ≠ .settle bundle outputs) :
    c.writes H cfg op = [] := by
  cases op with
  | settle => exact absurd rfl (hop _ _)
  | collectFee | shield | coinbase | endBlock => rfl

/-- **One operation** writes new segments, and marks exactly their nullifiers. -/
theorem step_written (H : Poseidon2) (cfg : Config) (c : Chain) (op : Op) :
    Written c.usedNullifiers (c.writes H cfg op) ∧
      (c.step H cfg op).usedNullifiers =
        c.usedNullifiers ∪ (nullifiersIn (c.writes H cfg op)).toFinset := by
  have nothing : c.usedNullifiers = c.usedNullifiers ∪ (nullifiersIn []).toFinset := by
    simp [nullifiersIn]
  by_cases hop : ∃ bundle outputs, op = .settle bundle outputs
  · obtain ⟨bundle, outputs, rfl⟩ := hop
    rcases dispatch_cases H cfg c (.settle bundle outputs) with ⟨e, h⟩ | ⟨c', h, effect⟩
    · simp only [Chain.writes, Chain.step, h]
      exact ⟨written_nil _, nothing⟩
    · cases effect with
      | settle check =>
        simp only [Chain.writes, Chain.step, h, check]
        rw [settled_usedNullifiers, ← nullifiersOf_flatMap]
        exact ⟨(checkSettlement_ok check).written, rfl⟩
  · have other : ∀ bundle outputs, op ≠ .settle bundle outputs :=
      fun bundle outputs h => hop ⟨bundle, outputs, h⟩
    rw [writes_eq_nil other, ← nothing]
    refine ⟨written_nil _, ?_⟩
    rcases step_cases H cfg c op with h | effect
    · rw [h]
    · exact effect.usedNullifiers other

/-! ## A whole run -/

/-- **A run writes every nullifier once.** -/
theorem run_written (H : Poseidon2) (cfg : Config) (c : Chain) (ops : List Op) :
    Written c.usedNullifiers (c.written H cfg ops) ∧
      (c.run H cfg ops).usedNullifiers =
        c.usedNullifiers ∪ (nullifiersIn (c.written H cfg ops)).toFinset := by
  induction ops generalizing c with
  | nil => exact ⟨written_nil _, by simp [Chain.run, Chain.written, nullifiersIn]⟩
  | cons op ops ih =>
    obtain ⟨first, used⟩ := step_written H cfg c op
    obtain ⟨rest, final⟩ := ih (c.step H cfg op)
    -- What the rest finds unused is unused before and not written by the first.
    rw [used] at rest final
    refine ⟨first.append rest, ?_⟩
    rw [Chain.run, List.foldl_cons]
    rw [Chain.run] at final
    rw [final, Chain.written, nullifiersIn_append, List.toFinset_append, Finset.union_assoc]

/-- A bundle with nothing new in it is refused. -/
theorem dispatch_settle_error (h : ∀ segment ∈ bundle.segments, ∀ slot ∈ segment.slots,
    slot.nullifiers 0 ∈ c.usedNullifiers) (outputs : List ShieldedOutput) :
    ∃ e, c.dispatch H cfg (.settle bundle outputs) = (.error e, c) := by
  rcases dispatch_cases H cfg c (.settle bundle outputs) with refused | ⟨c', -, effect⟩
  · exact refused
  · cases effect with
    | @settle _ _ plan check =>
      -- A plan settles at least one slot, and its nullifiers were not used.
      have planned := checkSettlement_ok check
      have pos := planned.slots_pos
      rw [planned.slots_eq] at pos
      obtain ⟨slot, hslot⟩ := List.exists_mem_of_length_pos pos
      obtain ⟨segment, hsegment, hmem⟩ := mem_writtenSlots hslot
      exact absurd (h segment hsegment slot hmem)
        (planned.fresh _ (mem_nullifiersOf.2 ⟨slot, hslot, 0, rfl⟩))

theorem written_used {ops : List Op} {segment : Segment} (h : segment ∈ c.written H cfg ops)
    {slot : RealSlot} (hslot : slot ∈ segment.slots) :
    slot.nullifiers 0 ∈ (c.run H cfg ops).usedNullifiers := by
  rw [(run_written H cfg c ops).2]
  refine Finset.mem_union_right _ (List.mem_toFinset.2 (List.mem_flatMap.2 ⟨segment, h, ?_⟩))
  exact mem_nullifiersOf.2 ⟨slot, hslot, 0, rfl⟩

/-- **No double settlement.** Over every run from every state, whatever was submitted: the
nullifiers written are pairwise distinct, not zero and not used before, and the set grows by exactly
them. A bundle whose segments have all been written is refused from then on. And a segment that was written
stays written once, whatever comes after: a private batch and a public batch that have it in common
write it once between them, in either order. -/
theorem no_double_settlement (H : Poseidon2) (cfg : Config) (c : Chain) (ops : List Op) :
    (nullifiersIn (c.written H cfg ops)).Nodup ∧
    (∀ n ∈ nullifiersIn (c.written H cfg ops), n ∉ c.usedNullifiers ∧ n ≠ 0) ∧
    (c.run H cfg ops).usedNullifiers =
      c.usedNullifiers ∪ (nullifiersIn (c.written H cfg ops)).toFinset ∧
    (∀ bundle : SettlementBundle, (∀ segment ∈ bundle.segments, segment ∈ c.written H cfg ops) →
      ∀ outputs, ∃ e, (c.run H cfg ops).dispatch H cfg (.settle bundle outputs) =
        (.error e, c.run H cfg ops)) ∧
    ∀ segment first, segment ∈ c.writes H cfg first → ∀ between second,
      (c.written H cfg (first :: between ++ [second])).count segment = 1 := by
  obtain ⟨written, used⟩ := run_written H cfg c ops
  refine ⟨written.fresh.nodup, fun n hn => ⟨written.fresh.unused n hn, written.ne_zero n hn⟩, used,
    ?_, ?_⟩
  · intro bundle hbundle outputs
    exact dispatch_settle_error (fun segment hsegment slot hslot =>
      written_used (hbundle segment hsegment) hslot) outputs
  · intro segment first hfirst between second
    have all := (run_written H cfg c (first :: between ++ [second])).1.nodup
    exact List.count_eq_one_of_mem all (List.mem_append_left _ hfirst)

namespace Sample

def privateOp : Op := .settle ⟨[segment]⟩ outputsOf

/-- A public batch over the same segment and one with other nullifiers that pays for both. -/
def publicOp : Op :=
  .settle ⟨[segment, { segment with slots := segment.slots.map fun slot =>
    { slot with nullifiers := slot.commitments, fee := 20 } }]⟩ (outputsOf ++ outputsOf)

theorem writes_sample : segment ∈ settling.writes sampleSponge runtime privateOp ∧
    segment ∈ settling.writes sampleSponge runtime publicOp ∧
    (settling.written sampleSponge runtime [privateOp, publicOp]).length = 2 := by
  decide +kernel

end Sample

open Sample in
/-- Either order, and the private batch once more. -/
theorem no_double_settlement_sample :
    (settling.written sampleSponge runtime [privateOp, publicOp]).count Sample.segment = 1 ∧
    (settling.written sampleSponge runtime [publicOp, privateOp]).count Sample.segment = 1 ∧
    (settling.written sampleSponge runtime [privateOp, publicOp]).length = 2 ∧
    ∃ e, ((settling.run sampleSponge runtime [privateOp]).dispatch sampleSponge runtime privateOp).1 =
      .error e := by
  obtain ⟨-, -, -, again, once⟩ := no_double_settlement sampleSponge runtime settling [privateOp]
  obtain ⟨first, second, both⟩ := writes_sample
  refine ⟨once _ _ first [] publicOp, once _ _ second [] privateOp, both, ?_⟩
  obtain ⟨e, refused⟩ := again ⟨[Sample.segment]⟩
    (fun _ mem => List.mem_singleton.1 mem ▸ List.mem_append_left _ first) outputsOf
  exact ⟨e, congrArg Prod.fst refused⟩

end Qnero
