import Qnero.Shielded.Payload

/-!
# Skipped segments are inert

A submission with some segments skipped plans like the submission without them: their slots are
counted and priced, but nothing of them is claimed, paid or written. `walk_kept` is a simulation of
two walks, the second over the kept segments and the kept positions; behind it only the fee floors
differ, and they differ downwards.

The payload check is the exception. It runs over the positions of skipped slots too, so a
submission that leaves wrong bytes there is refused as a whole, where the same submission without
the skipped segments goes through.
-/

namespace Qnero

open Machine

variable {cfg : Config} {c : Chain} {outputs : List ShieldedOutput} {s s' : PlanState}
  {segments : List Segment} {flags : List Bool} {bundle : SettlementBundle}
  {plan : PlannedSettlement}

/-! ## Which segments settle -/

/-- The segment resolves its anchor, and meets no nullifier on the chain or in front of it. -/
def Settles (cfg : Config) (c : Chain) (segments : List Segment) (settles : List Bool) (i : ℕ)
    (segment : Segment) : Prop :=
  anchorFailure cfg c segment = none ∧ ∀ n ∈ nullifiersOf segment.slots,
    n ∉ c.usedNullifiers ∧ n ∉ nullifiersOf (writtenSlots (segments.take i) (settles.take i))

theorem conflicts_eq_false_iff {claimed : Finset Hash256} {segment : Segment} :
    conflicts c claimed segment = false ↔
      ∀ n ∈ nullifiersOf segment.slots, n ∉ c.usedNullifiers ∧ n ∉ claimed := by
  refine ⟨not_conflicts, fun h => ?_⟩
  rw [conflicts, List.any_eq_false]
  intro slot hslot
  simp only [decide_eq_true_eq, not_exists, not_or]
  exact fun i => h _ (mem_nullifiersOf.2 ⟨slot, hslot, i, rfl⟩)

/-- The flag of every segment visited so far is the one its nullifiers and its anchor ask for. -/
def FlagsRight (cfg : Config) (c : Chain) (segments : List Segment) (settles : List Bool) : Prop :=
  ∀ i segment, segments[i]? = some segment →
    (settles[i]? = some true ↔ Settles cfg c segments settles i segment)

theorem FlagsRight.concat {segment : Segment} {flag : Bool}
    (hlen : flags.length = segments.length) (h : FlagsRight cfg c segments flags)
    (new : flag = true ↔ Settles cfg c segments flags segments.length segment) :
    FlagsRight cfg c (segments ++ [segment]) (flags ++ [flag]) := by
  intro i found hfound
  rcases Nat.lt_or_ge i segments.length with hi | hi
  · -- An earlier segment: what stands in front of it is unchanged.
    rw [List.getElem?_append_left hi] at hfound
    rw [List.getElem?_append_left (by omega), h i found hfound]
    unfold Settles
    rw [List.take_append_of_le_length hi.le, List.take_append_of_le_length (by omega)]
  · obtain ⟨inside, -⟩ := List.getElem?_eq_some_iff.1 hfound
    have last : i = segments.length := by
      rw [List.length_append, List.length_singleton] at inside
      omega
    subst last
    rw [List.getElem?_concat_length] at hfound
    obtain rfl := Option.some.inj hfound
    have flagAt : (flags ++ [flag])[segments.length]? = some flag := by
      rw [← hlen, List.getElem?_concat_length]
    rw [flagAt, Option.some.injEq, new]
    unfold Settles
    rw [List.take_append_of_le_length le_rfl, List.take_append_of_le_length hlen.ge]

theorem planSegment_flags {segment : Segment} (walked : Walked cfg c segments s)
    (h : FlagsRight cfg c segments s.settles) (hstep : planSegment cfg c outputs s segment = .ok s') :
    FlagsRight cfg c (segments ++ [segment]) s'.settles := by
  have settles_iff : Settles cfg c segments s.settles segments.length segment ↔
      anchorFailure cfg c segment = none ∧ conflicts c s.claimed segment = false := by
    rw [Settles, conflicts_eq_false_iff, walked.claimed_eq, List.take_length, ← walked.length_eq,
      List.take_length]
    simp only [List.mem_toFinset]
  simp only [planSegment, bind_ok_iff, ensure_ok_iff, exists_const] at hstep
  obtain ⟨-, hstep⟩ := hstep
  split at hstep
  · next conflict =>
    obtain rfl := skipSegment_ok hstep
    refine h.concat walked.length_eq ?_
    rw [settles_iff]
    simp [conflict]
  · next free =>
    split at hstep
    · next stale =>
      obtain rfl := skipSegment_ok hstep
      refine h.concat walked.length_eq ?_
      rw [settles_iff]
      simp [stale]
    · next anchored =>
      rw [(planSlots_ok hstep).settles_eq]
      refine h.concat walked.length_eq ?_
      rw [settles_iff]
      simp [anchored, free]

/-- **A segment settles exactly when its anchor resolves and its nullifiers are free.** -/
theorem planSettlement_flags (h : planSettlement cfg c bundle outputs = .ok plan) :
    FlagsRight cfg c bundle.segments plan.settles := by
  simp only [planSettlement, finishPlan, bind_ok_iff, Except.ok.injEq] at h
  obtain ⟨_, -, _, -, s, hwalk, _, -, _, -, _, -, _, -, _, -, _, -, _, -, _, -, rfl⟩ := h
  have both := foldlM_ok
    (P := fun segments s => Walked cfg c segments s ∧ FlagsRight cfg c segments s.settles)
    (fun _ _ _ _ hs hstep => ⟨planSegment_ok hs.1 hstep, planSegment_flags hs.1 hs.2 hstep⟩)
    bundle.segments [] _ s ⟨walked_start, by simp [FlagsRight]⟩ hwalk
  exact both.2

/-! ## The walk over what is kept -/

/-- The walk over the kept segments, next to the walk over all of them. -/
structure Mirrors (s t : PlanState) : Prop where
  claimed_eq : t.claimed = s.claimed
  feeSteps_eq : t.feeSteps = s.feeSteps
  slots_eq : t.slots = s.slots
  skippedSlots_eq : t.skippedSlots = 0
  realSlots_le : t.realSlots ≤ s.realSlots
  settles_all : ∀ flag ∈ t.settles, flag = true

variable {t : PlanState} {kept : List ShieldedOutput}

theorem planSlot_mirror {slot : RealSlot} (h : Mirrors s t)
    (same : kept[t.realSlots]? = outputs[s.realSlots]?)
    (hplan : planSlot cfg outputs s slot = .ok s') :
    ∃ t', planSlot cfg kept t slot = .ok t' ∧ Mirrors s' t' := by
  simp only [planSlot, bind_ok_iff, ensure_ok_iff, okOr_ok_iff, claimNullifier_ok,
    checkedAdd_eq_some, Except.ok.injEq, exists_const] at hplan ⊢
  obtain ⟨hfee, hcm, first, claim₁, second, claim₂, output, houtput, carried, floor, fees,
    ⟨hfees, feesLe⟩, count, ⟨hcount, countLe⟩, next, ⟨hnext, nextLe⟩, rfl⟩ := hplan
  have before := h.realSlots_le
  let next' : PlanState :=
    { t with
      claimed := second
      feeSteps := fees
      slots := count
      realSlots := t.realSlots + 1 }
  refine ⟨next', ⟨hfee, hcm, first, ?_, second, claim₂, output, same.trans houtput, carried, floor,
    fees, ⟨?_, feesLe⟩, count, ⟨?_, countLe⟩, t.realSlots + 1, ⟨rfl, by omega⟩, rfl⟩, ?_⟩
  · rw [h.claimed_eq]
    exact claim₁
  · rw [h.feeSteps_eq]
    exact hfees
  · rw [h.slots_eq]
    exact hcount
  · exact {
      claimed_eq := rfl
      feeSteps_eq := rfl
      slots_eq := rfl
      skippedSlots_eq := h.skippedSlots_eq
      realSlots_le := by show t.realSlots + 1 ≤ next; omega
      settles_all := h.settles_all }

theorem planSlots_mirror {slots : List RealSlot} (h : Mirrors s t)
    (same : ∀ j, j < slots.length → kept[t.realSlots + j]? = outputs[s.realSlots + j]?)
    (hplan : slots.foldlM (planSlot cfg outputs) s = .ok s') :
    ∃ t', slots.foldlM (planSlot cfg kept) t = .ok t' ∧ Mirrors s' t' := by
  induction slots generalizing s t with
  | nil =>
    rw [List.foldlM_nil] at hplan
    obtain rfl := Except.ok.inj hplan
    exact ⟨t, rfl, h⟩
  | cons slot slots ih =>
    rw [List.foldlM_cons, bind_ok_iff] at hplan
    obtain ⟨mid, hstep, hrest⟩ := hplan
    obtain ⟨mid', hstep', mirror⟩ := planSlot_mirror h (same 0 (Nat.succ_pos _)) hstep
    have next := (planSlot_ok hstep).realSlots_eq
    have next' := (planSlot_ok hstep').realSlots_eq
    have same' : ∀ j, j < slots.length →
        kept[mid'.realSlots + j]? = outputs[mid.realSlots + j]? := by
      intro j hj
      have shifted := same (j + 1) (Nat.succ_lt_succ hj)
      rw [next, next', List.length_singleton, Nat.add_assoc, Nat.add_assoc, Nat.add_comm 1 j]
      exact shifted
    obtain ⟨t', hrest', mirror'⟩ := ih mirror same' hrest
    refine ⟨t', ?_, mirror'⟩
    rw [List.foldlM_cons, bind_of_ok hstep']
    exact hrest'

theorem map_snd_zip {α β : Type} (a : List α) (l : List β) :
    (a.zip l).map Prod.snd = l.take a.length := by
  induction a generalizing l with
  | nil => rfl
  | cons x a ih =>
    cases l with
    | nil => rfl
    | cons y l => simp [ih]

/-- The outputs at the positions of the settling segments. -/
def keptOutputs (segments : List Segment) (flags : List Bool) (outputs : List ShieldedOutput) :
    List ShieldedOutput :=
  (positions true segments flags outputs).map Prod.snd

theorem keptOutputs_cons (segment : Segment) (flag : Bool) (segments : List Segment)
    (flags : List Bool) (outputs : List ShieldedOutput) :
    keptOutputs (segment :: segments) (flag :: flags) outputs =
      (if flag then outputs.take segment.slots.length else []) ++
        keptOutputs segments flags (outputs.drop segment.slots.length) := by
  rw [keptOutputs, positions, List.map_append, ← map_snd_zip]
  cases flag <;> rfl

theorem writtenSegments_cons (segment : Segment) (flag : Bool) (segments : List Segment)
    (flags : List Bool) : writtenSegments (segment :: segments) (flag :: flags) =
      (if flag then [segment] else []) ++ writtenSegments segments flags := by
  cases flag <;> rfl

/-- **The walk over what is kept goes through**, and ends where the whole walk does. The induction
is over the whole walk; a skipped segment is a step of it alone. -/
theorem walk_kept (walk : Walk cfg c outputs s segments flags s') (mirror : Mirrors s t)
    (enough : s.realSlots + (segments.flatMap Segment.slots).length ≤ outputs.length)
    (rest : kept.drop t.realSlots = keptOutputs segments flags (outputs.drop s.realSlots)) :
    ∃ t', (writtenSegments segments flags).foldlM (planSegment cfg c kept) t = .ok t' ∧
      Mirrors s' t' := by
  induction walk generalizing t with
  | nil s => exact ⟨t, rfl, mirror⟩
  | @skip s s' segment segments flags stale nonempty why _ ih =>
    rw [List.flatMap_cons, List.length_append] at enough
    rw [keptOutputs_cons, List.drop_drop] at rest
    rw [writtenSegments_cons]
    refine ih ?_ ?_ rest
    · exact {
        claimed_eq := mirror.claimed_eq
        feeSteps_eq := mirror.feeSteps_eq
        slots_eq := mirror.slots_eq
        skippedSlots_eq := mirror.skippedSlots_eq
        realSlots_le := Nat.le_add_right_of_le mirror.realSlots_le
        settles_all := mirror.settles_all }
    · show s.realSlots + segment.slots.length + _ ≤ _
      omega
  | @settle s mid s' segment segments flags nonempty free anchored slots _ ih =>
    rw [List.flatMap_cons, List.length_append] at enough
    rw [keptOutputs_cons, if_pos rfl] at rest
    have start : Mirrors { s with settles := s.settles ++ [true] }
        { t with settles := t.settles ++ [true] } := {
      mirror with
      settles_all := by
        intro flag hflag
        rcases List.mem_append.1 hflag with hflag | hflag
        · exact mirror.settles_all flag hflag
        · exact List.mem_singleton.1 hflag }
    have long : segment.slots.length ≤ (outputs.drop s.realSlots).length := by
      rw [List.length_drop]
      omega
    -- The kept outputs begin with those of this segment.
    have same : ∀ j, j < segment.slots.length →
        kept[t.realSlots + j]? = outputs[s.realSlots + j]? := by
      intro j hj
      rw [← List.getElem?_drop, rest, List.getElem?_append_left (by rw [List.length_take]; omega),
        List.getElem?_take_of_lt hj, List.getElem?_drop]
    obtain ⟨mid', slots', mirror'⟩ := planSlots_mirror start same slots
    have next : mid.realSlots = s.realSlots + segment.slots.length := (planSlots_ok slots).realSlots_eq
    have next' : mid'.realSlots = t.realSlots + segment.slots.length :=
      (planSlots_ok slots').realSlots_eq
    have after : kept.drop mid'.realSlots =
        keptOutputs segments flags (outputs.drop mid.realSlots) := by
      rw [next, next', ← List.drop_drop, rest, ← List.drop_drop]
      exact List.drop_left' (by rw [List.length_take]; omega)
    obtain ⟨t', hrest, hmirror⟩ := ih mirror' (by rw [next]; omega) after
    refine ⟨t', ?_, hmirror⟩
    have step : planSegment cfg c kept t segment = .ok mid' := by
      have free' : conflicts c t.claimed segment = false := by
        rw [mirror.claimed_eq]
        exact free
      rw [planSegment, bind_of_ok (ensure_of nonempty), free', anchored]
      exact slots'
    rw [writtenSegments_cons, if_pos rfl, List.singleton_append, List.foldlM_cons, bind_of_ok step]
    exact hrest

/-! ## The plan of what is kept -/

/-- The bundle without the segments the plan skips. -/
def PlannedSettlement.keptBundle (plan : PlannedSettlement) (bundle : SettlementBundle) :
    SettlementBundle :=
  ⟨writtenSegments bundle.segments plan.settles⟩

theorem carriedBytes_eq (outputs : List ShieldedOutput) :
    carriedBytes outputs = min (outputs.map outputBytes).sum u64Max := by
  have fold : ∀ (l : List ShieldedOutput) (total : ℕ),
      l.foldl (fun total output => satAdd u64Max total (outputBytes output)) (min total u64Max) =
        min (total + (l.map outputBytes).sum) u64Max := by
    intro l
    induction l with
    | nil => intro total; rfl
    | cons output l ih =>
      intro total
      have clamp : satAdd u64Max (min total u64Max) (outputBytes output) =
          min (total + outputBytes output) u64Max := by
        unfold satAdd
        omega
      rw [List.foldl_cons, clamp, ih, List.map_cons, List.sum_cons, Nat.add_assoc]
  have := fold outputs 0
  rwa [Nat.zero_min, Nat.zero_add] at this

theorem sublist_keptOutputs (segments : List Segment) (flags : List Bool)
    (outputs : List ShieldedOutput) : (keptOutputs segments flags outputs).Sublist outputs := by
  induction segments generalizing flags outputs with
  | nil => exact List.nil_sublist _
  | cons segment segments ih =>
    obtain _ | ⟨flag, flags⟩ := flags
    · exact List.nil_sublist _
    · rw [keptOutputs_cons]
      have parts : ((if flag then outputs.take segment.slots.length else []) ++
          keptOutputs segments flags (outputs.drop segment.slots.length)).Sublist
            (outputs.take segment.slots.length ++ outputs.drop segment.slots.length) := by
        refine List.Sublist.append ?_ (ih _ _)
        split
        · exact List.Sublist.refl _
        · exact List.nil_sublist _
      rwa [List.take_append_drop] at parts

theorem carriedBytes_le (h : kept.Sublist outputs) : carriedBytes kept ≤ carriedBytes outputs := by
  have sums : (kept.map outputBytes).sum ≤ (outputs.map outputBytes).sum :=
    (h.map outputBytes).sum_le_sum (fun _ _ => Nat.zero_le _)
  rw [carriedBytes_eq, carriedBytes_eq]
  omega

/-- Fewer slots and fewer bytes have to pay less. -/
theorem submissionFloor_le {floor : ℕ} (mirror : Mirrors s t) (bytes : kept.Sublist outputs)
    (h : submissionFloor cfg s outputs = some floor) :
    ∃ floor', floor' ≤ floor ∧ submissionFloor cfg t kept = some floor' := by
  have steps : divCeil (carriedBytes kept) (bytesPerFeeQuantum cfg) ≤
      divCeil (carriedBytes outputs) (bytesPerFeeQuantum cfg) := by
    unfold divCeil
    have := carriedBytes_le bytes
    exact Nat.div_le_div_right (by omega)
  have flat : s.slots * cfg.minLeafFee ≤ (s.slots + s.skippedSlots) * cfg.minLeafFee :=
    Nat.mul_le_mul_right _ (Nat.le_add_right ..)
  simp only [submissionFloor, Option.bind_eq_bind, Option.bind_eq_some_iff, checkedAdd_eq_some,
    checkedMul_eq_some] at h ⊢
  obtain ⟨_, ⟨rfl, carried⟩, _, ⟨rfl, paid⟩, rfl, total⟩ := h
  rw [mirror.slots_eq, mirror.skippedSlots_eq, Nat.add_zero]
  refine ⟨s.slots * cfg.minLeafFee + divCeil (carriedBytes kept) (bytesPerFeeQuantum cfg), by omega,
    s.slots, ⟨rfl, by omega⟩, _, ⟨rfl, by omega⟩, rfl, by omega⟩

theorem finishPlan_kept (mirror : Mirrors s t) (bytes : kept.Sublist outputs)
    (positioned : kept.length = t.realSlots) (h : finishPlan cfg c outputs s = .ok plan) :
    finishPlan cfg c kept t = .ok ⟨plan.feeSteps, plan.slots, 0, carriedBytes kept, t.settles⟩ := by
  simp only [finishPlan, bind_ok_iff, ensure_ok_iff, okOr_ok_iff, exists_const] at h ⊢
  obtain ⟨pos, -, floor, hfloor, paid, room, u, budget, fee, planck, pool, done⟩ := h
  obtain rfl := Except.ok.inj done
  obtain ⟨floor', hle, hfloor'⟩ := submissionFloor_le mirror bytes hfloor
  rw [mirror.slots_eq, mirror.feeSteps_eq, mirror.skippedSlots_eq]
  exact ⟨pos, positioned, floor', hfloor', hle.trans paid, room, u, budget, fee, planck, pool, rfl⟩

/-- **Without the segments it skips a submission plans the same**, and all of it settles. -/
theorem planSettlement_kept (h : planSettlement cfg c bundle outputs = .ok plan) :
    ∃ plan', planSettlement cfg c (plan.keptBundle bundle)
        (keptOutputs bundle.segments plan.settles outputs) = .ok plan' ∧
      (∀ flag ∈ plan'.settles, flag = true) ∧ plan'.feeSteps = plan.feeSteps ∧
      plan'.slots = plan.slots ∧ plan'.skippedSlots = 0 := by
  have planned := planSettlement_ok h
  obtain ⟨s, walk, hexact, hfinish⟩ := walk_of_plan h
  have bytes := sublist_keptOutputs bundle.segments plan.settles outputs
  have start : Mirrors PlanState.start PlanState.start :=
    ⟨rfl, rfl, rfl, rfl, le_rfl, by simp [PlanState.start]⟩
  have enough : (bundle.segments.flatMap Segment.slots).length ≤ outputs.length :=
    planned.outputs_length.ge
  obtain ⟨t, hwalk, mirror⟩ := walk_kept walk start
    (by show 0 + _ ≤ _; rw [Nat.zero_add]; exact enough) rfl
  change (plan.keptBundle bundle).segments.foldlM
    (planSegment cfg c (keptOutputs bundle.segments plan.settles outputs)) _ = _ at hwalk
  have positioned : (keptOutputs bundle.segments plan.settles outputs).length = t.realSlots := by
    rw [(walk_ok hwalk).realSlots_eq, keptOutputs, List.length_map,
      ← List.length_map Prod.fst, positions_fst planned.length_eq enough]
    rfl
  have some_kept : (plan.keptBundle bundle).segments ≠ [] := by
    intro none
    have slots := planned.slots_eq
    have pos := planned.slots_pos
    rw [PlannedSettlement.written, writtenSlots] at slots
    rw [show writtenSegments bundle.segments plan.settles = [] from none] at slots
    simp at slots
    omega
  have exact' : (keptOutputs bundle.segments plan.settles outputs).forM ensureExactOutput =
      .ok () :=
    forM_ok_iff.2 fun output houtput => forM_ok_iff.1 hexact output (bytes.subset houtput)
  refine ⟨⟨plan.feeSteps, plan.slots, 0, carriedBytes (keptOutputs bundle.segments plan.settles
    outputs), t.settles⟩, ?_, mirror.settles_all, rfl, rfl, rfl⟩
  rw [planSettlement, bind_of_ok (ensure_of some_kept), bind_of_ok exact', bind_of_ok hwalk]
  exact finishPlan_kept mirror bytes positioned hfinish

/-! ## Settling what is kept -/

variable {H : Poseidon2}

/-- The payload check is over the kept positions and, apart from them, over the skipped ones. -/
theorem bindPayload_kept (planned : Planned cfg c bundle outputs plan) {u : Unit} :
    bindPayload H bundle outputs = .ok u ↔
      bindPayload H (plan.keptBundle bundle) (keptOutputs bundle.segments plan.settles outputs) =
          .ok u ∧
        ∀ p ∈ positions false bundle.segments plan.settles outputs, BoundTo H p.1 p.2 := by
  have enough := planned.outputs_length.ge
  have slots := positions_fst planned.length_eq enough
  have pairs : (plan.keptBundle bundle).realSlots.zip
      (keptOutputs bundle.segments plan.settles outputs) =
        positions true bundle.segments plan.settles outputs :=
    (List.zip_of_prod slots rfl).symm
  have enough' : (plan.keptBundle bundle).realSlots.length ≤
      (keptOutputs bundle.segments plan.settles outputs).length := by
    show (writtenSlots bundle.segments plan.settles).length ≤ _
    rw [← slots, keptOutputs, List.length_map, List.length_map]
  rw [bindPayload_ok_iff enough, bindPayload_ok_iff enough', pairs]
  have split := mem_zip_iff_positions planned.length_eq outputs
  constructor
  · intro bound
    exact ⟨fun p hp => bound p ((split p).2 (.inl hp)), fun p hp => bound p ((split p).2 (.inr hp))⟩
  · rintro ⟨kept, skipped⟩ p hp
    exact ((split p).1 hp).elim (kept p) (skipped p)

theorem writtenSegments_all (hlen : flags.length = segments.length)
    (all : ∀ flag ∈ flags, flag = true) : writtenSegments segments flags = segments := by
  induction segments generalizing flags with
  | nil => rfl
  | cons segment segments ih =>
    obtain _ | ⟨flag, flags⟩ := flags
    · cases hlen
    rw [List.forall_mem_cons] at all
    rw [writtenSegments_cons, all.1, if_pos rfl, List.singleton_append,
      ih (Nat.succ_inj.1 hlen) all.2]

/-- A dispatched settlement that passed its checks writes its plan, or meets a commitment the tree
refuses and writes nothing. -/
theorem transactional_settle (h : checkSettlement H cfg c bundle outputs = .ok plan) :
    ((∀ slot ∈ plan.written bundle, ∀ i, (slot.commitments i).Canonical) ∧
        Call.transactional (settle H cfg bundle outputs) c = (.ok (), c.settled cfg bundle plan)) ∨
      ((¬ ∀ slot ∈ plan.written bundle, ∀ i, (slot.commitments i).Canonical) ∧
        ∃ e, Call.transactional (settle H cfg bundle outputs) c = (.error e, c)) := by
  by_cases canonical : ∀ slot ∈ plan.written bundle, ∀ i, (slot.commitments i).Canonical
  · exact .inl ⟨canonical, transactional_ok (exec_settle h canonical)⟩
  · refine .inr ⟨canonical, ?_⟩
    rcases transactional_cases (settle H cfg bundle outputs) c with refused | ⟨u, c', done, -⟩
    · exact refused
    · exact absurd (canonical_of_settle h done) canonical

/-- What a settlement leaves depends on the slots it writes and on their fee. -/
theorem settled_kept {plan' : PlannedSettlement}
    (written : plan'.written (plan.keptBundle bundle) = plan.written bundle)
    (fee : plan'.feeSteps = plan.feeSteps) :
    c.settled cfg (plan.keptBundle bundle) plan' = c.settled cfg bundle plan := by
  rw [Chain.settled, written, fee, Chain.settled]

/-- **Skipped segments are inert.** A segment settles exactly when its anchor resolves and none of
its nullifiers is spent, on the chain or by an earlier settling segment. Without the skipped
segments and their positions the submission plans again, with every segment settling, the same fee
and the same slots; and it settles to the same state, as long as the skipped positions that carry
bytes carry those their slots committed to. Otherwise the whole submission is refused. -/
theorem skipped_segments_inert (H : Poseidon2) (cfg : Config) (c : Chain)
    (bundle : SettlementBundle) (outputs : List ShieldedOutput) (plan : PlannedSettlement)
    (h : planSettlement cfg c bundle outputs = .ok plan) :
    (∀ i segment, bundle.segments[i]? = some segment →
      (plan.settles[i]? = some true ↔ Settles cfg c bundle.segments plan.settles i segment)) ∧
    (∃ plan', planSettlement cfg c (plan.keptBundle bundle)
        (keptOutputs bundle.segments plan.settles outputs) = .ok plan' ∧
      plan'.settles.length = (plan.keptBundle bundle).segments.length ∧
      (∀ flag ∈ plan'.settles, flag = true) ∧ plan'.feeSteps = plan.feeSteps ∧
      plan'.slots = plan.slots) ∧
    ((∀ p ∈ positions false bundle.segments plan.settles outputs, BoundTo H p.1 p.2) →
      let whole := Call.transactional (settle H cfg bundle outputs) c
      let kept := Call.transactional (settle H cfg (plan.keptBundle bundle)
        (keptOutputs bundle.segments plan.settles outputs)) c
      (whole.1 = .ok () ↔ kept.1 = .ok ()) ∧ whole.2 = kept.2) ∧
    ((∃ p ∈ positions false bundle.segments plan.settles outputs, ¬ BoundTo H p.1 p.2) →
      Call.transactional (settle H cfg bundle outputs) c =
        (.error (.shielded .ciphertextDigestMismatch), c)) := by
  have planned := planSettlement_ok h
  obtain ⟨plan', hkept, all, fee, slots, -⟩ := planSettlement_kept h
  have planned' := planSettlement_ok hkept
  refine ⟨planSettlement_flags h, ⟨plan', hkept, planned'.length_eq, all, fee, slots⟩, ?_, ?_⟩
  · intro skipped
    have written : plan'.written (plan.keptBundle bundle) = plan.written bundle := by
      show writtenSlots _ _ = _
      rw [writtenSlots, writtenSegments_all planned'.length_eq all]
      rfl
    cases hbind : bindPayload H bundle outputs with
    | ok u =>
      have kept := ((bindPayload_kept planned).1 hbind).1
      rcases transactional_settle (checkSettlement_ok_iff.2 ⟨h, hbind⟩) with
        ⟨canonical, whole⟩ | ⟨refused, e, whole⟩
      · rcases transactional_settle (checkSettlement_ok_iff.2 ⟨hkept, kept⟩) with
          ⟨-, kept⟩ | ⟨refused, -⟩
        · rw [whole, kept, settled_kept written fee]
          exact ⟨Iff.rfl, rfl⟩
        · rw [written] at refused
          exact absurd canonical refused
      · rcases transactional_settle (checkSettlement_ok_iff.2 ⟨hkept, kept⟩) with
          ⟨canonical, -⟩ | ⟨-, e', kept⟩
        · rw [written] at canonical
          exact absurd canonical refused
        · rw [whole, kept]
          exact ⟨by simp, rfl⟩
    | error e =>
      -- The failing position is a kept one, so the kept submission is refused too.
      cases hbind' : bindPayload H (plan.keptBundle bundle)
          (keptOutputs bundle.segments plan.settles outputs) with
      | ok u =>
        have bound := (bindPayload_kept planned).2 ⟨hbind', skipped⟩
        rw [hbind] at bound
        cases bound
      | error e' =>
        rw [transactional_error (exec_settle_error (checkSettlement_error h hbind)),
          transactional_error (exec_settle_error (checkSettlement_error hkept hbind'))]
        exact ⟨by simp, rfl⟩
  · rintro ⟨p, hp, unbound⟩
    cases hbind : bindPayload H bundle outputs with
    | ok u => exact absurd (((bindPayload_kept planned).1 hbind).2 p hp) unbound
    | error e =>
      obtain rfl := bindPayload_error planned.outputs_length.ge hbind
      exact transactional_error (exec_settle_error (checkSettlement_error h hbind))

/-! ## A skipped segment with bytes

The sample settlement with a higher fee, and behind it a segment of the same slot: its nullifiers
are claimed by then, so it is skipped, and its position may carry the ciphertexts again.
-/

namespace Sample

/-- The sample slot, paying for two positions. -/
def paidSlot : RealSlot := { RealSlot.ofSlot spend.slot with fee := 20 }

def paidSegment : Segment := ⟨digestBytes spend.blockHash, 1, [paidSlot]⟩

/-- Twice the same segment; the second is skipped. -/
def repeated : SettlementBundle := ⟨[paidSegment, paidSegment]⟩

def repeatedPlan : PlannedSettlement := ⟨20, 1, 1, 7168, [true, false]⟩

theorem plan_repeated : planSettlement runtime settling repeated (outputsOf ++ outputsOf) =
    .ok repeatedPlan := by
  decide +kernel

/-- The slot of the skipped segment committed to something else. -/
def strayed : SettlementBundle :=
  ⟨[paidSegment, ⟨digestBytes spend.blockHash, 1, [{ paidSlot with ctDigest := digestBytes 1 }]⟩]⟩

theorem plan_strayed : planSettlement runtime settling strayed (outputsOf ++ outputsOf) =
    .ok repeatedPlan := by
  decide +kernel

theorem check_paid : checkSettlement sampleSponge runtime settling ⟨[paidSegment]⟩ outputsOf =
    .ok ⟨20, 1, 0, 3584, [true]⟩ := by
  decide +kernel

end Sample

/-- A plan that goes through, of a submission that does not: the payload check refuses it for the
bytes at a skipped position, and without the skipped segment it settles. -/
theorem skipped_bytes_refuse :
    planSettlement runtime Sample.settling Sample.strayed (Sample.outputsOf ++ Sample.outputsOf) =
        .ok Sample.repeatedPlan ∧
      Call.transactional (settle sampleSponge runtime Sample.strayed
        (Sample.outputsOf ++ Sample.outputsOf)) Sample.settling =
          (.error (.shielded .ciphertextDigestMismatch), Sample.settling) ∧
      ∃ c', Call.transactional (settle sampleSponge runtime
          (Sample.repeatedPlan.keptBundle Sample.strayed)
          (keptOutputs Sample.strayed.segments Sample.repeatedPlan.settles
            (Sample.outputsOf ++ Sample.outputsOf))) Sample.settling = (.ok (), c') ∧
        c'.usedNullifiers ≠ Sample.settling.usedNullifiers := by
  refine ⟨Sample.plan_strayed, ?_, ?_⟩
  · have bind : bindPayload sampleSponge Sample.strayed (Sample.outputsOf ++ Sample.outputsOf) =
        .error .ciphertextDigestMismatch := by decide +kernel
    exact transactional_error (exec_settle_error (checkSettlement_error Sample.plan_strayed bind))
  · refine ⟨_, transactional_ok (exec_settle Sample.check_paid ?_), ?_⟩
    · intro slot hslot i
      obtain rfl := List.mem_singleton.1 hslot
      exact canonical_digestBytes _
    · rw [settled_usedNullifiers]
      intro none
      have mem : Sample.paidSlot.nullifiers 0 ∈ Sample.settling.usedNullifiers ∪
          (nullifiersOf [Sample.paidSlot]).toFinset :=
        Finset.mem_union_right _ (List.mem_toFinset.2 List.mem_cons_self)
      exact absurd (none ▸ mem) (Finset.notMem_empty _)

theorem skipped_segments_inert_sample :
    (Call.transactional (settle sampleSponge runtime Sample.repeated
        (Sample.outputsOf ++ Sample.outputsOf)) Sample.settling).2 =
      (Call.transactional (settle sampleSponge runtime
        (Sample.repeatedPlan.keptBundle Sample.repeated)
        (keptOutputs Sample.repeated.segments Sample.repeatedPlan.settles
          (Sample.outputsOf ++ Sample.outputsOf))) Sample.settling).2 := by
  refine ((skipped_segments_inert sampleSponge runtime Sample.settling Sample.repeated
    (Sample.outputsOf ++ Sample.outputsOf) Sample.repeatedPlan Sample.plan_repeated).2.2.1 ?_).2
  intro p hp
  obtain rfl := List.mem_singleton.1 hp
  exact .inr (by decide +kernel)

end Qnero
