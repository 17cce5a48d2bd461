import Qnero.Keyed
import Qnero.Vesting.Pallet

/-!
# What the pot owes, it has

Every way out of the pot lowers what a schedule has still to be paid by what it pays, and the schedules
never owe more than is vested. Two things the table of a genesis block can break: without schedules
the pot need not hold its deposit, and offsets at the end of the range saturate together, so that a
schedule starts when it ends (`Ordered` says when they do not).
-/

namespace Qnero.Vesting

open Machine Interleaving

/-- **What is documented of the currency and the recorder**: a transfer moves the amount between two
accounts and touches no other, and a record moves nothing. The quantum is a divisor. -/
structure Runtime.Lawful {σ : Type} (rt : Runtime σ) : Prop where
  debit : ∀ {source dest amount rest rest'}, rt.transfer source dest amount rest = some rest' →
    source ≠ dest → rt.totalBalance rest' source + amount = rt.totalBalance rest source
  credit : ∀ {source dest amount rest rest'}, rt.transfer source dest amount rest = some rest' →
    source ≠ dest → rt.totalBalance rest' dest = rt.totalBalance rest dest + amount
  frame : ∀ {source dest amount rest rest'}, rt.transfer source dest amount rest = some rest' →
    ∀ who, who ≠ source → who ≠ dest → rt.totalBalance rest' who = rt.totalBalance rest who
  recorded : ∀ source dest amount rest,
    rt.totalBalance (rt.recordTransferProof source dest amount rest).2 = rt.totalBalance rest
  quantum_pos : 0 < rt.payoutQuantum

/-! ## One schedule -/

namespace VestingSchedule

variable {schedule : VestingSchedule} {now now' : ℕ}

theorem vestedAmount_le_total (h : schedule.start ≤ schedule.cliff) :
    schedule.vestedAmount now ≤ schedule.total := by
  unfold vestedAmount
  split
  · exact Nat.zero_le _
  split
  · exact le_rfl
  · refine Nat.div_le_of_le_mul ?_
    rw [Nat.mul_comm (_ - _)]
    exact Nat.mul_le_mul_left _ (by omega)

/-- Nothing vests backwards. -/
theorem vestedAmount_mono (h : schedule.start ≤ schedule.cliff) (le : now ≤ now') :
    schedule.vestedAmount now ≤ schedule.vestedAmount now' := by
  by_cases early : now < schedule.cliff
  · rw [vestedAmount, if_pos early]
    exact Nat.zero_le _
  by_cases late : schedule.endAt ≤ now'
  · have whole : schedule.vestedAmount now' = schedule.total := by
      rw [vestedAmount, if_neg (by omega), if_pos late]
    rw [whole]
    exact vestedAmount_le_total h
  · rw [vestedAmount, vestedAmount, if_neg early, if_neg (by omega), if_neg (by omega), if_neg late]
    exact Nat.div_le_div_right (Nat.mul_le_mul_left _ (by omega))

/-- At the moment zero nothing is. -/
theorem vestedAmount_zero (h : schedule.start ≤ schedule.cliff) (pos : schedule.start < schedule.endAt) :
    schedule.vestedAmount 0 = 0 := by
  unfold vestedAmount
  split
  · rfl
  · rw [if_neg (by omega), Nat.zero_sub, Nat.mul_zero, Nat.zero_div]

/-- **A stored schedule** at a moment. -/
structure Ok {σ : Type} (rt : Runtime σ) (now : ℕ) (schedule : VestingSchedule) : Prop where
  start_le : schedule.start ≤ schedule.cliff
  cliff_le : schedule.cliff ≤ schedule.endAt
  total_le : schedule.total ≤ u128Max
  total_dvd : rt.payoutQuantum ∣ schedule.total
  claimed_dvd : rt.payoutQuantum ∣ schedule.claimed
  claimed_le : schedule.claimed ≤ schedule.vestedAmount now
  beneficiary_ne : schedule.beneficiary ≠ rt.potAccountId

variable {σ : Type} {rt : Runtime σ}

theorem Ok.claimed_le_total (ok : schedule.Ok rt now) : schedule.claimed ≤ schedule.total :=
  le_trans ok.claimed_le (vestedAmount_le_total ok.start_le)

theorem Ok.later (ok : schedule.Ok rt now) (le : now ≤ now') : schedule.Ok rt now' :=
  { ok with claimed_le := le_trans ok.claimed_le (vestedAmount_mono ok.start_le le) }

/-- `outstanding` does not underflow. -/
theorem Ok.outstanding_eq (ok : schedule.Ok rt now) : schedule.outstanding now =
    .ok (schedule.total - schedule.claimed, schedule.vestedAmount now - schedule.claimed) := by
  rw [outstanding, checkedSub, checkedSub, if_pos ok.claimed_le_total, if_pos ok.claimed_le]
  rfl

theorem ok_of_valid {beneficiary : AccountId} {start cliff endAt total : ℕ}
    (valid : scheduleIsValid rt start cliff endAt total = true) (le : total ≤ u128Max)
    (ne : beneficiary ≠ rt.potAccountId) :
    Ok rt now ⟨beneficiary, start, cliff, endAt, total, 0, none⟩ ∧ start < endAt := by
  obtain ⟨start_le, cliff_le, lt, -, aligned⟩ := of_decide_eq_true valid
  exact ⟨⟨start_le, cliff_le, le, Nat.dvd_of_mod_eq_zero aligned, Nat.dvd_zero _, Nat.zero_le _, ne⟩,
    lt⟩

end VestingSchedule

/-! ### What a claim pays -/

theorem align_le (amount quantum : ℕ) : align amount quantum ≤ amount := Nat.sub_le ..

theorem dvd_align (amount quantum : ℕ) : quantum ∣ align amount quantum := Nat.dvd_sub_mod amount

/-- A coarse multiple is a multiple of the quantum, unless it saturates; then it is zero for all that
is below the whole range. -/
theorem dvd_align_satMul {amount quantum : ℕ} (lt : amount < u128Max) :
    quantum ∣ align amount (satMul u128Max quantum nonFinalPayoutQuanta) := by
  by_cases fits : quantum * nonFinalPayoutQuanta ≤ u128Max
  · rw [satMul, Nat.min_eq_left fits]
    exact (Nat.dvd_mul_right ..).trans (dvd_align ..)
  · rw [satMul, Nat.min_eq_right (by omega), align, Nat.mod_eq_of_lt lt, Nat.sub_self]
    exact Nat.dvd_zero _

section

variable {σ : Type} {rt : Runtime σ} {schedule : VestingSchedule} {now amount : ℕ}

/-- **What a claim pays** is a multiple of the quantum and within what is vested. -/
theorem claimPlan_pay (ok : schedule.Ok rt now) (h : claimPlan rt schedule now = .ok (.pay amount)) :
    rt.payoutQuantum ∣ amount ∧ schedule.claimed + amount ≤ schedule.vestedAmount now := by
  have vested : schedule.vestedAmount now ≤ schedule.total := schedule.vestedAmount_le_total ok.start_le
  have claimed := ok.claimed_le
  have total := ok.total_le
  rw [claimPlan, ok.outstanding_eq] at h
  change (if _ = 0 then _ else _) = _ at h
  set payable := if schedule.vestedAmount now - schedule.claimed = schedule.total - schedule.claimed
    then schedule.vestedAmount now - schedule.claimed
    else align (schedule.vestedAmount now - schedule.claimed)
      (satMul u128Max rt.payoutQuantum nonFinalPayoutQuanta) with payable_def
  have pays : amount = payable := by
    split at h
    · cases h
    · split at h
      · obtain ⟨elapsed, -, h⟩ := (bind_ok_iff ..).1 h
        split at h
        · cases h
        · exact (ClaimPlan.pay.inj (Except.ok.inj h)).symm
      · exact (ClaimPlan.pay.inj (Except.ok.inj h)).symm
  rw [pays, payable_def]
  split
  next last =>
    rw [last]
    exact ⟨Nat.dvd_sub ok.total_dvd ok.claimed_dvd, by omega⟩
  next before =>
    have le := align_le (schedule.vestedAmount now - schedule.claimed)
      (satMul u128Max rt.payoutQuantum nonFinalPayoutQuanta)
    exact ⟨dvd_align_satMul (by omega), by omega⟩

theorem transferAndRecord_ok {source dest : AccountId} {rest rest' : σ} (lawful : rt.Lawful)
    (ne : source ≠ dest) (h : transferAndRecord rt source dest amount rest = .ok rest') :
    rt.totalBalance rest' source + amount = rt.totalBalance rest source ∧
      rt.totalBalance rest' dest = rt.totalBalance rest dest + amount ∧
      ∀ who, who ≠ source → who ≠ dest → rt.totalBalance rest' who = rt.totalBalance rest who := by
  obtain ⟨moved, transferred, h⟩ := (bind_ok_iff ..).1 h
  obtain ⟨-, -, h⟩ := (bind_ok_iff ..).1 h
  obtain rfl := Except.ok.inj h
  rw [lawful.recorded]
  have transferred := okOr_ok_iff.1 transferred
  exact ⟨lawful.debit transferred ne, lawful.credit transferred ne, lawful.frame transferred⟩

end

/-! ## The books -/

/-- What a schedule has still to be paid. -/
def remainingOf : Option VestingSchedule → ℕ
  | some schedule => schedule.total - schedule.claimed
  | none => 0

@[simp] theorem remainingOf_some (schedule : VestingSchedule) :
    remainingOf (some schedule) = schedule.total - schedule.claimed := rfl

@[simp] theorem remainingOf_none : remainingOf none = 0 := rfl

/-- What the legs of a schedule move. -/
def movedBy (legs : List Leg) (id : ℕ) (kind : LegKind) : ℕ :=
  ((legs.filter fun leg => leg.scheduleId = id ∧ leg.kind = kind).map Leg.amount).sum

/-- The legs move so much more for this schedule, and as much for the others. -/
structure Leads (legs legs' : List Leg) (id : ℕ) (kind : LegKind) (amount : ℕ) : Prop where
  here : movedBy legs' id kind = amount + movedBy legs id kind
  others : ∀ id' kind', (id' ≠ id ∨ kind' ≠ kind) → movedBy legs' id' kind' = movedBy legs id' kind'

theorem leads_cons (legs : List Leg) (id : ℕ) (kind : LegKind) (dest : AccountId) (amount : ℕ) :
    Leads legs (⟨id, kind, dest, amount⟩ :: legs) id kind amount where
  here := by
    rw [movedBy, List.filter_cons_of_pos (by simp)]
    rfl
  others id' kind' ne := by
    rw [movedBy, List.filter_cons_of_neg]
    · rfl
    simp only [decide_eq_true_eq, not_and]
    rintro rfl rfl
    rcases ne with ne | ne <;> exact ne rfl

theorem leads_zero (legs : List Leg) (id : ℕ) (kind : LegKind) : Leads legs legs id kind 0 :=
  ⟨(Nat.zero_add _).symm, fun _ _ _ => rfl⟩

/-! ### Legs and balances -/

section

variable {σ : Type} {rt : Runtime σ}

/-- What the legs bring an account. -/
def creditedTo (legs : List Leg) (who : AccountId) : ℕ :=
  ((legs.filter fun leg => leg.dest = who).map Leg.amount).sum

/-- **The legs are what moved**: the pot is less by all of them, and every other account more by those
that go to it. -/
structure Moves (rt : Runtime σ) (rest rest' : σ) (made : List Leg) : Prop where
  pot : rt.totalBalance rest' rt.potAccountId + (made.map Leg.amount).sum =
    rt.totalBalance rest rt.potAccountId
  others : ∀ who, who ≠ rt.potAccountId →
    rt.totalBalance rest' who = rt.totalBalance rest who + creditedTo made who

theorem Moves.refl (rt : Runtime σ) (rest : σ) : Moves rt rest rest [] := ⟨rfl, fun _ _ => rfl⟩

/-- One more transfer out of the pot, written down. -/
theorem Moves.cons {rest rest' rest'' : σ} {made : List Leg} (moves : Moves rt rest rest' made)
    (lawful : rt.Lawful) (leg : Leg) (ne : leg.dest ≠ rt.potAccountId)
    (h : transferAndRecord rt rt.potAccountId leg.dest leg.amount rest' = .ok rest'') :
    Moves rt rest rest'' (leg :: made) := by
  obtain ⟨debit, credit, frame⟩ := transferAndRecord_ok lawful ne.symm h
  refine ⟨?_, fun who other => ?_⟩
  · have before := moves.pot
    rw [List.map_cons, List.sum_cons]
    omega
  · have before := moves.others who other
    unfold creditedTo at before ⊢
    by_cases here : leg.dest = who
    · subst here
      rw [List.filter_cons_of_pos (by simp), List.map_cons, List.sum_cons, credit]
      omega
    · rw [List.filter_cons_of_neg (by simpa using here), frame who other (Ne.symm here), before]

/-- A leg for a schedule goes to its beneficiary, or back to the treasury. -/
def Leg.Due (rt : Runtime σ) (rest : σ) (id : ℕ) (schedule : VestingSchedule) (leg : Leg) : Prop :=
  leg.scheduleId = id ∧
    match leg.kind with
    | .payout => leg.dest = schedule.beneficiary
    | .refund => rt.treasuryAccount rest = some leg.dest

/-- **What a step does to the balances**, and that this is what is written down of it. -/
def Settles (rt : Runtime σ) (s s' : State σ) : Action σ → Prop
  | .claim _ id | .endSchedule _ id => ∃ schedule made, s.schedules id = some schedule ∧
      s'.legs = made ++ s.legs ∧ Moves rt s.rest s'.rest made ∧
      ∀ leg ∈ made, leg.Due rt s.rest id schedule
  | .createSchedule _ _ _ _ _ total => s'.legs = s.legs ∧
      s'.granted = Function.update s.granted s.nextScheduleId total ∧
      rt.totalBalance s'.rest rt.potAccountId = rt.totalBalance s.rest rt.potAccountId + total ∧
      ∃ treasury, rt.treasuryAccount s.rest = some treasury ∧
        rt.totalBalance s'.rest treasury + total = rt.totalBalance s.rest treasury
  | .retargetSchedule .. | .setTimestamp _ =>
    s'.legs = s.legs ∧ s'.granted = s.granted ∧ s'.rest = s.rest
  | .others _ => s'.legs = s.legs ∧ s'.granted = s.granted

end

/-! ### The state -/

namespace State

variable {σ : Type}

/-- What the stored schedules have still to be paid. -/
def obligations (s : State σ) : ℕ :=
  ∑ id ∈ Finset.range s.nextScheduleId, remainingOf (s.schedules id)

/-- What was moved for a schedule, to its beneficiaries or back. -/
def moved (s : State σ) (id : ℕ) (kind : LegKind) : ℕ := movedBy s.legs id kind

end State

/-- **What holds of a schedule id over its whole life**: what was paid is what it has claimed, and once it is
ended, what was paid and what went back are what was granted. -/
def Accounted {σ : Type} (s : State σ) (id : ℕ) : Prop :=
  match s.schedules id with
  | some schedule => s.granted id = schedule.total ∧ s.moved id .payout = schedule.claimed ∧
      s.moved id .refund = 0
  | none => s.moved id .payout + s.moved id .refund = s.granted id

/-- **A step in order**: the first timestamp, added to offsets, takes no start to the end of the range. -/
def Ordered {σ : Type} (s : State σ) : Action σ → Prop
  | .setTimestamp now => s.launch = some .pending → now ≠ 0 →
      ∀ id schedule, s.schedules id = some schedule → schedule.start + now < u64Max
  | _ => True

/-- **The books between two steps.** Schedules end behind their start before the rebase, and always if
the steps are in order. -/
structure Books {σ : Type} (rt : Runtime σ) (ordered : Prop) (s : State σ) : Prop where
  ids : ∀ id schedule, s.schedules id = some schedule → id < s.nextScheduleId
  stored : ∀ id schedule, s.schedules id = some schedule → schedule.Ok rt s.now
  pending : s.launch = some .pending → s.now = 0
  strict : ordered ∨ s.launch = some .pending →
    ∀ id schedule, s.schedules id = some schedule → schedule.start < schedule.endAt
  fresh : ∀ id, s.nextScheduleId ≤ id → s.granted id = 0 ∧ ∀ kind, s.moved id kind = 0
  accounted : ∀ id, Accounted s id

namespace Books

variable {σ : Type} {rt : Runtime σ} {ordered : Prop} {s s' : State σ}

variable {schedule : VestingSchedule}

/-- A schedule behind an update is the new one, or another one as it was. -/
theorem update_cases {schedules : ℕ → Option VestingSchedule} {id id' : ℕ}
    {new : Option VestingSchedule} (h : Function.update schedules id new id' = some schedule) :
    id' = id ∧ new = some schedule ∨ id' ≠ id ∧ schedules id' = some schedule := by
  by_cases here : id' = id
  · rw [here, Function.update_self] at h
    exact .inl ⟨here, h⟩
  · rw [Function.update_of_ne here] at h
    exact .inr ⟨here, h⟩

/-- **One schedule is replaced**, or taken away, for as much less as it has still to be paid. -/
theorem replaced (books : Books rt ordered s) {id amount : ℕ} {old : VestingSchedule}
    {new : Option VestingSchedule} {rest : σ} {legs : List Leg} (found : s.schedules id = some old)
    (ok : ∀ schedule, new = some schedule → schedule.Ok rt s.now ∧ schedule.start = old.start ∧
      schedule.endAt = old.endAt)
    (apart : ∀ id' kind, id' ≠ id → movedBy legs id' kind = movedBy s.legs id' kind)
    (less : remainingOf new + amount = old.total - old.claimed)
    (s'_eq : s' = { s with
      rest := rest, schedules := Function.update s.schedules id new, legs := legs })
    (here : Accounted s' id) : Books rt ordered s' ∧ s'.obligations + amount = s.obligations := by
  subst s'_eq
  have lt := books.ids id old found
  refine ⟨⟨fun id' schedule h => ?_, fun id' schedule h => ?_, books.pending,
    fun order id' schedule h => ?_, fun id' le => ?_, fun id' => ?_⟩, ?_⟩
  · rcases update_cases h with ⟨rfl, -⟩ | ⟨-, was⟩
    · exact lt
    · exact books.ids id' schedule was
  · rcases update_cases h with ⟨-, is⟩ | ⟨-, was⟩
    · exact (ok schedule is).1
    · exact books.stored id' schedule was
  · rcases update_cases h with ⟨-, is⟩ | ⟨-, was⟩
    · obtain ⟨-, start, endAt⟩ := ok schedule is
      rw [start, endAt]
      exact books.strict order id old found
    · exact books.strict order id' schedule was
  · obtain ⟨none, unmoved⟩ := books.fresh id' le
    exact ⟨none, fun kind => (apart id' kind (lt_of_lt_of_le lt le).ne').trans (unmoved kind)⟩
  · by_cases same : id' = id
    · rw [same]
      exact here
    · have was := books.accounted id'
      unfold Accounted State.moved at was ⊢
      simp only [Function.update_of_ne same, apart id' _ same]
      exact was
  · have sum := Keyed.sum_update remainingOf s.schedules (Finset.mem_range.2 lt) new
    rw [found, remainingOf_some] at sum
    simp only [State.obligations]
    omega

/-- **A schedule is paid on**, or only named anew. -/
theorem revised (books : Books rt ordered s) {id amount : ℕ} {old new : VestingSchedule} {rest : σ}
    {legs : List Leg} (found : s.schedules id = some old) (ok : new.Ok rt s.now)
    (times : new.start = old.start ∧ new.endAt = old.endAt) (total : new.total = old.total)
    (claimed : new.claimed = old.claimed + amount) (leads : Leads s.legs legs id .payout amount)
    (s'_eq : s' = { s with
      rest := rest, schedules := Function.update s.schedules id (some new), legs := legs }) :
    Books rt ordered s' ∧ s'.obligations + amount = s.obligations := by
  have fits := ok.claimed_le_total
  refine books.replaced found (by rintro _ ⟨⟩; exact ⟨ok, times⟩)
    (fun id' kind ne => leads.others id' kind (.inl ne)) (by rw [remainingOf_some]; omega) s'_eq ?_
  subst s'_eq
  have was := books.accounted id
  unfold Accounted State.moved at was ⊢
  rw [found] at was
  simp only [Function.update_self]
  refine ⟨was.1.trans total.symm, ?_, (leads.others id .refund (.inr nofun)).trans was.2.2⟩
  rw [leads.here, was.2.1, claimed, Nat.add_comm]

/-- **A schedule is added.** -/
theorem added (books : Books rt ordered s) {new : VestingSchedule} {rest : σ} (ok : new.Ok rt s.now)
    (strict : new.start < new.endAt) (unclaimed : new.claimed = 0)
    (s'_eq : s' = { s with
      rest := rest
      nextScheduleId := s.nextScheduleId + 1
      schedules := Function.update s.schedules s.nextScheduleId (some new)
      granted := Function.update s.granted s.nextScheduleId new.total }) :
    Books rt ordered s' ∧ s'.obligations = s.obligations + new.total := by
  subst s'_eq
  refine ⟨⟨fun id schedule h => ?_, fun id schedule h => ?_, books.pending,
    fun order id schedule h => ?_, fun id le => ?_, fun id => ?_⟩, ?_⟩
  · rcases update_cases h with ⟨rfl, -⟩ | ⟨-, was⟩
    · exact Nat.lt_succ_self _
    · exact Nat.lt_succ_of_lt (books.ids id schedule was)
  · rcases update_cases h with ⟨-, ⟨⟩⟩ | ⟨-, was⟩
    · exact ok
    · exact books.stored id schedule was
  · rcases update_cases h with ⟨-, ⟨⟩⟩ | ⟨-, was⟩
    · exact strict
    · exact books.strict order id schedule was
  · have le : s.nextScheduleId + 1 ≤ id := le
    obtain ⟨none, unmoved⟩ := books.fresh id (by omega)
    exact ⟨(Function.update_of_ne (by omega) ..).trans none, unmoved⟩
  · have was := books.accounted id
    unfold Accounted at was ⊢
    by_cases here : id = s.nextScheduleId
    · subst here
      obtain ⟨-, unmoved⟩ := books.fresh s.nextScheduleId le_rfl
      simp only [Function.update_self]
      exact ⟨trivial, (unmoved .payout).trans unclaimed.symm, unmoved .refund⟩
    · simp only [Function.update_of_ne here]
      exact was
  · have others : ∑ id ∈ Finset.range s.nextScheduleId,
        remainingOf (Function.update s.schedules s.nextScheduleId (some new) id) =
        s.obligations := by
      refine Finset.sum_congr rfl fun id mem => ?_
      rw [Function.update_of_ne (Finset.mem_range.1 mem).ne]
    rw [State.obligations, Finset.sum_range_succ, others]
    dsimp only
    rw [Function.update_self, remainingOf_some, unclaimed, Nat.sub_zero]

/-- **A schedule is ended**: all that remained of it has moved. -/
theorem ended (books : Books rt ordered s) {id payout refund : ℕ} {old : VestingSchedule} {rest : σ}
    {legs legs' : List Leg} (found : s.schedules id = some old)
    (whole : payout + refund = old.total - old.claimed)
    (paid : Leads s.legs legs id .payout payout) (refunded : Leads legs legs' id .refund refund)
    (s'_eq : s' = { s with
      rest := rest, schedules := Function.update s.schedules id none, legs := legs' }) :
    Books rt ordered s' ∧ s'.obligations + (payout + refund) = s.obligations := by
  refine books.replaced found (fun _ none => absurd none (by simp)) (fun id' kind ne =>
    (refunded.others id' kind (.inl ne)).trans (paid.others id' kind (.inl ne)))
    (by rw [remainingOf_none]; omega) s'_eq ?_
  subst s'_eq
  have was := books.accounted id
  unfold Accounted State.moved at was ⊢
  rw [found] at was
  have fits := (books.stored id old found).claimed_le_total
  have first := (refunded.others id .payout (.inr nofun)).trans paid.here
  have second := refunded.here
  rw [paid.others id .refund (.inr nofun)] at second
  simp only [Function.update_self]
  omega

/-! ### Time -/

theorem rebaseAll_apply (now next : ℕ) (schedules : ℕ → Option VestingSchedule) (id : ℕ) :
    rebaseAll now next schedules id =
      if id < next then (schedules id).map (.rebase now) else schedules id := by
  induction next with
  | zero => rfl
  | succ next ih =>
    have step : rebaseAll now (next + 1) schedules = Function.update (rebaseAll now next schedules)
        next ((rebaseAll now next schedules next).map (.rebase now)) := by
      simp only [rebaseAll, List.range_succ, List.foldl_append, List.foldl_cons, List.foldl_nil]
    rw [step]
    by_cases here : id = next
    · subst here
      rw [Function.update_self, ih, if_neg (lt_irrefl _), if_pos (Nat.lt_succ_self _)]
    · rw [Function.update_of_ne here, ih]
      exact if_congr (by omega) rfl rfl

/-- A schedule that nothing was claimed of is in order behind the rebase. -/
theorem ok_rebase {now now' : ℕ} (ok : schedule.Ok rt now) (unclaimed : schedule.claimed = 0) :
    (schedule.rebase now').Ok rt now' where
  start_le := min_le_min_right _ (Nat.add_le_add_right ok.start_le _)
  cliff_le := min_le_min_right _ (Nat.add_le_add_right ok.cliff_le _)
  total_le := ok.total_le
  total_dvd := ok.total_dvd
  claimed_dvd := ok.claimed_dvd
  claimed_le := by
    show schedule.claimed ≤ _
    rw [unclaimed]
    exact Nat.zero_le _
  beneficiary_ne := ok.beneficiary_ne

/-- Nothing is claimed before the first timestamp. -/
theorem unclaimed_of_pending (books : Books rt ordered s) (waits : s.launch = some .pending)
    {id : ℕ} (found : s.schedules id = some schedule) : schedule.claimed = 0 := by
  have ok := books.stored id schedule found
  have vested := ok.claimed_le
  rw [books.pending waits, schedule.vestedAmount_zero ok.start_le
    (books.strict (.inr waits) id schedule found)] at vested
  exact Nat.le_zero.1 vested

/-- The rebase, over all that is stored. -/
theorem rebaseAll_eq (books : Books rt ordered s) (now id : ℕ) :
    rebaseAll now s.nextScheduleId s.schedules id = (s.schedules id).map (.rebase now) := by
  rw [rebaseAll_apply]
  split
  · rfl
  next above =>
    cases found : s.schedules id with
    | none => rfl
    | some schedule => exact absurd (books.ids id schedule found) above

/-- **A timestamp**, the first one included. -/
theorem timestamp (books : Books rt ordered s) {now : ℕ} (le : s.now ≤ now)
    (order : ordered → Ordered s (.setTimestamp now)) :
    Books rt ordered (({ s with now := now }).onTimestampSet now) ∧
      (({ s with now := now }).onTimestampSet now).obligations = s.obligations ∧
      ((∃ id schedule, (({ s with now := now }).onTimestampSet now).schedules id = some schedule) →
        ∃ id schedule, s.schedules id = some schedule) := by
  unfold State.onTimestampSet
  split
  next unanchored =>
    refine ⟨⟨books.ids, fun id schedule h => (books.stored id schedule h).later le, fun waits => ?_,
      books.strict, books.fresh, books.accounted⟩, rfl, id⟩
    exact unanchored.resolve_right (not_not.2 waits)
  next anchors =>
    obtain ⟨nonzero, waits⟩ : now ≠ 0 ∧ s.launch = some .pending := by
      by_contra other
      refine anchors ?_
      by_cases zero : now = 0
      · exact .inl zero
      · exact .inr fun waits => other ⟨zero, waits⟩
    -- The first time that is set shifts every schedule, and the amounts stay.
    have rebased := books.rebaseAll_eq now
    refine ⟨⟨fun id schedule h => ?_, fun id schedule h => ?_, nofun, fun strict id schedule h => ?_,
      books.fresh, fun id => ?_⟩, ?_, ?_⟩
    · obtain ⟨old, found, -⟩ := Option.map_eq_some_iff.1 ((rebased id).symm.trans h)
      exact books.ids id old found
    · obtain ⟨old, found, rfl⟩ := Option.map_eq_some_iff.1 ((rebased id).symm.trans h)
      exact ok_rebase (books.stored id old found) (books.unclaimed_of_pending waits found)
    · obtain ⟨old, found, rfl⟩ := Option.map_eq_some_iff.1 ((rebased id).symm.trans h)
      have before := books.strict (.inr waits) id old found
      have room := order (strict.resolve_right nofun) waits nonzero id old found
      show min (old.start + now) u64Max < min (old.endAt + now) u64Max
      omega
    · have was := books.accounted id
      unfold Accounted at was ⊢
      simp only [rebased]
      cases found : s.schedules id with
      | none =>
        rw [found] at was
        exact was
      | some schedule =>
        rw [found] at was
        exact was
    · refine Finset.sum_congr rfl fun id _ => ?_
      simp only [rebased]
      cases s.schedules id <;> rfl
    · rintro ⟨id, schedule, h⟩
      obtain ⟨old, found, -⟩ := Option.map_eq_some_iff.1 ((rebased id).symm.trans h)
      exact ⟨id, old, found⟩

end Books

/-! ## The pot -/

/-- **What holds between two steps.** The pot is held to its deposit from the start, or from the first
schedule on. -/
structure Sound {σ : Type} (rt : Runtime σ) (ordered endowed : Prop) (s : State σ) : Prop where
  books : Books rt ordered s
  solvent : endowed ∨ (∃ id schedule, s.schedules id = some schedule) →
    s.obligations + rt.minimumBalance ≤ rt.totalBalance s.rest rt.potAccountId

namespace Sound

variable {σ : Type} {rt : Runtime σ} {ordered endowed : Prop} {s s' : State σ}

variable {origin : RawOrigin}

theorem claim (lawful : rt.Lawful) (sound : Sound rt ordered endowed s) {id : ℕ}
    (h : s.claim rt origin id = .ok s') :
    Sound rt ordered endowed s' ∧ Settles rt s s' (.claim origin id) := by
  simp only [State.claim, settle, bind_ok_iff, okOr_ok_iff] at h
  obtain ⟨-, -, schedule, found, plan, planned, amount, pays, ⟨rest, after⟩,
    ⟨rest', paid, claimed, added, done⟩, h⟩ := h
  obtain ⟨rfl, rfl⟩ := Prod.mk.inj (Except.ok.inj done)
  obtain rfl : plan = .pay amount := by
    cases plan <;> cases pays
    rfl
  have ok := sound.books.stored id schedule found
  obtain ⟨aligned, vested⟩ := claimPlan_pay ok planned
  obtain ⟨rfl, -⟩ := checkedAdd_eq_some.1 added
  have grown : VestingSchedule.Ok rt s.now
      { schedule with claimed := schedule.claimed + amount, lastClaimAt := some s.now } :=
    { ok with claimed_dvd := Nat.dvd_add ok.claimed_dvd aligned, claimed_le := vested }
  obtain ⟨books, owed⟩ := sound.books.revised found grown ⟨rfl, rfl⟩ rfl rfl (leads_cons ..)
    (Except.ok.inj h).symm
  have balance := (transferAndRecord_ok lawful ok.beneficiary_ne.symm paid).1
  have held := sound.solvent (.inr ⟨id, schedule, found⟩)
  have rest_eq : s'.rest = rest' := by rw [← Except.ok.inj h]
  let leg : Leg := ⟨id, .payout, schedule.beneficiary, amount⟩
  have written : s'.legs = [leg] ++ s.legs := by rw [← Except.ok.inj h]; rfl
  refine ⟨⟨books, fun _ => ?_⟩, schedule, [leg], found, written, ?_, by simp [leg, Leg.Due]⟩
  · rw [rest_eq]
    omega
  · rw [rest_eq]
    exact (Moves.refl rt s.rest).cons lawful leg ok.beneficiary_ne paid

theorem retargetSchedule (sound : Sound rt ordered endowed s) {id : ℕ} {newBeneficiary : AccountId}
    (h : s.retargetSchedule rt origin id newBeneficiary = .ok s') :
    Sound rt ordered endowed s' ∧ Settles rt s s' (.retargetSchedule origin id newBeneficiary) := by
  simp only [State.retargetSchedule, bind_ok_iff, okOr_ok_iff, ensure_ok_iff] at h
  obtain ⟨-, -, -, ne, schedule, found, -, -, h⟩ := h
  have ok := sound.books.stored id schedule found
  have named : VestingSchedule.Ok rt s.now { schedule with beneficiary := newBeneficiary } :=
    { ok with beneficiary_ne := ne }
  obtain ⟨books, owed⟩ := sound.books.revised found named ⟨rfl, rfl⟩ rfl rfl (leads_zero ..)
    (Except.ok.inj h).symm
  have held := sound.solvent (.inr ⟨id, schedule, found⟩)
  have rest_eq : s'.rest = s.rest := by rw [← Except.ok.inj h]
  refine ⟨⟨books, fun _ => ?_⟩, ?_⟩
  · rw [rest_eq]
    omega
  · rw [← Except.ok.inj h]
    exact ⟨rfl, rfl, rfl⟩

theorem createSchedule (lawful : rt.Lawful) (sound : Sound rt ordered endowed s)
    {beneficiary : AccountId} {start cliff endAt total : ℕ} (fits : total ≤ u128Max)
    (h : s.createSchedule rt origin beneficiary start cliff endAt total = .ok s') :
    Sound rt ordered endowed s' ∧
      Settles rt s s' (.createSchedule origin beneficiary start cliff endAt total) := by
  simp only [State.createSchedule, treasuryAndPot, bind_ok_iff, okOr_ok_iff, ensure_ok_iff] at h
  obtain ⟨-, -, ⟨treasury, pot⟩, ⟨_, known, -, ne, named⟩, -, valid, -, other, -, deposit, next, counted,
    rest, paid, h⟩ := h
  obtain ⟨rfl, rfl⟩ := Prod.mk.inj (Except.ok.inj named)
  obtain ⟨rfl, -⟩ := checkedAdd_eq_some.1 counted
  obtain ⟨ok, strict⟩ := VestingSchedule.ok_of_valid valid fits other
  obtain ⟨books, owed⟩ := sound.books.added ok strict rfl (Except.ok.inj h).symm
  obtain ⟨debit, balance, -⟩ := transferAndRecord_ok lawful ne paid
  -- Without another schedule there is nothing to pay, and the deposit was checked.
  have held : s.obligations + rt.minimumBalance ≤ rt.totalBalance s.rest rt.potAccountId := by
    by_cases any : ∃ id schedule, s.schedules id = some schedule
    · exact sound.solvent (.inr any)
    · have none : s.obligations = 0 := Finset.sum_eq_zero fun id _ => by
        cases found : s.schedules id with
        | none => rfl
        | some schedule => exact absurd ⟨id, schedule, found⟩ any
      dsimp only at deposit
      omega
  have rest_eq : s'.rest = rest := by rw [← Except.ok.inj h]
  refine ⟨⟨books, fun _ => ?_⟩, ?_⟩
  · rw [rest_eq]
    dsimp only at owed
    omega
  · rw [← Except.ok.inj h]
    exact ⟨rfl, rfl, balance, _, known, debit⟩

/-- One leg of an early end. -/
theorem endLeg_ok (lawful : rt.Lawful) {id amount : ℕ} {kind : LegKind} {dest : AccountId} {rest : σ}
    {out out' : σ × List Leg} {made legs : List Leg} (ne : dest ≠ rt.potAccountId)
    (written : out.2 = made ++ legs) (moves : Moves rt rest out.1 made)
    (h : State.endLeg rt id kind dest amount out = .ok out') :
    rt.totalBalance out'.1 rt.potAccountId + amount = rt.totalBalance out.1 rt.potAccountId ∧
      Leads out.2 out'.2 id kind amount ∧
      ∃ made', out'.2 = made' ++ legs ∧ Moves rt rest out'.1 made' ∧
        ∀ leg ∈ made', leg ∈ made ∨ leg = ⟨id, kind, dest, amount⟩ := by
  unfold State.endLeg at h
  split at h
  next zero =>
    obtain rfl := Except.ok.inj h
    exact ⟨by omega, zero ▸ leads_zero .., made, written, moves, fun leg mem => .inl mem⟩
  next =>
    obtain ⟨after, paid, h⟩ := (bind_ok_iff ..).1 h
    obtain rfl := Except.ok.inj h
    refine ⟨(transferAndRecord_ok lawful ne.symm paid).1, leads_cons .., _ :: made,
      congrArg (List.cons _) written, moves.cons lawful ⟨id, kind, dest, amount⟩ ne paid, ?_⟩
    intro leg mem
    exact (List.mem_cons.1 mem).symm

theorem endSchedule (lawful : rt.Lawful) (sound : Sound rt ordered endowed s) {id : ℕ}
    (h : s.endSchedule rt origin id = .ok s') :
    Sound rt ordered endowed s' ∧ Settles rt s s' (.endSchedule origin id) := by
  simp only [State.endSchedule, treasuryAndPot, bind_ok_iff, okOr_ok_iff, ensure_ok_iff] at h
  obtain ⟨-, -, ⟨treasury, pot⟩, ⟨_, known, -, ne, named⟩, schedule, found, ⟨remaining, owed⟩, counted,
    refund, split, paid, payout, ⟨rest, legs⟩, refunded, h⟩ := h
  obtain ⟨rfl, rfl⟩ := Prod.mk.inj (Except.ok.inj named)
  have ok := sound.books.stored id schedule found
  rw [ok.outstanding_eq] at counted
  obtain ⟨rfl, rfl⟩ := Prod.mk.inj (Except.ok.inj counted)
  obtain ⟨le, rfl⟩ := checkedSub_eq_some.1 split
  obtain ⟨balance, first, made, written, moves, legs_of⟩ :=
    endLeg_ok lawful ok.beneficiary_ne (List.nil_append _).symm (Moves.refl rt s.rest) payout
  obtain ⟨balance', second, made', written', moves', legs_of'⟩ :=
    endLeg_ok lawful ne written moves refunded
  obtain ⟨books, less⟩ := sound.books.ended found (Nat.add_sub_cancel' le) first second
    (Except.ok.inj h).symm
  have held := sound.solvent (.inr ⟨id, schedule, found⟩)
  have rest_eq : s'.rest = rest := by rw [← Except.ok.inj h]
  have legs_eq : s'.legs = legs := by rw [← Except.ok.inj h]
  refine ⟨⟨books, fun _ => ?_⟩, schedule, made', found, legs_eq.trans written', rest_eq ▸ moves', ?_⟩
  · rw [rest_eq]
    dsimp only at balance balance'
    omega
  · intro leg mem
    rcases legs_of' leg mem with mem | rfl
    · obtain rfl := (legs_of leg mem).resolve_left List.not_mem_nil
      exact ⟨rfl, rfl⟩
    · exact ⟨rfl, known⟩

/-- **Any step.** -/
theorem step (lawful : rt.Lawful) (sound : Sound rt ordered endowed s) {action : Action σ}
    (fits : action.Fits) (order : ordered → Ordered s action) (h : s.step rt action = some s') :
    Sound rt ordered endowed s' ∧ Settles rt s s' action := by
  cases action with
  | claim origin id => exact sound.claim lawful (toOption_eq_some_iff.1 h)
  | createSchedule origin beneficiary start cliff endAt total =>
    exact sound.createSchedule lawful fits.2.2.2 (toOption_eq_some_iff.1 h)
  | endSchedule origin id => exact sound.endSchedule lawful (toOption_eq_some_iff.1 h)
  | retargetSchedule origin id newBeneficiary => exact sound.retargetSchedule (toOption_eq_some_iff.1 h)
  | setTimestamp now =>
    obtain ⟨le, h⟩ := Option.ite_none_right_eq_some.1 h
    obtain rfl := Option.some.inj h
    obtain ⟨books, owed, before⟩ := sound.books.timestamp le order
    have kept : Settles rt s (({ s with now := now }).onTimestampSet now) (.setTimestamp now) := by
      unfold State.onTimestampSet
      split <;> exact ⟨rfl, rfl, rfl⟩
    refine ⟨⟨books, fun funded => ?_⟩, kept⟩
    have held := sound.solvent (funded.imp_right before)
    rw [owed, kept.2.2]
    exact held
  | others rest =>
    obtain ⟨le, h⟩ := Option.ite_none_right_eq_some.1 h
    obtain rfl := Option.some.inj h
    exact ⟨⟨⟨sound.books.ids, sound.books.stored, sound.books.pending, sound.books.strict,
      sound.books.fresh, sound.books.accounted⟩, fun funded => le_trans (sound.solvent funded) le⟩,
      rfl, rfl⟩

end Sound

/-! ## Genesis -/

section

variable {σ : Type} {rt : Runtime σ} {ordered : Prop}

/-- The table of an accepted genesis block, entry by entry. -/
theorem buildSchedules_ok {table : List GenesisSchedule} {sum sum' : ℕ} {s s' : State σ}
    (books : Books rt ordered s) (owed : s.obligations = sum)
    (h : buildSchedules rt table sum s = some (sum', s')) :
    Books rt ordered s' ∧ s'.obligations = sum' ∧ s'.rest = s.rest := by
  induction table generalizing sum s with
  | nil =>
    obtain ⟨rfl, rfl⟩ := Prod.mk.inj (Option.some.inj h)
    exact ⟨books, owed, rfl⟩
  | cons entry table ih =>
    rw [buildSchedules] at h
    obtain ⟨⟨valid, ne⟩, h⟩ := Option.ite_none_right_eq_some.1 h
    obtain ⟨next, added, h⟩ := Option.bind_eq_some_iff.1 h
    obtain ⟨rfl, fits⟩ := checkedAdd_eq_some.1 added
    obtain ⟨ok, strict⟩ := VestingSchedule.ok_of_valid valid (by omega) ne
    obtain ⟨books', more⟩ := books.added ok strict rfl rfl
    obtain ⟨done, whole, same⟩ := ih books' (more.trans (by rw [owed])) h
    exact ⟨done, whole, same⟩

/-- **The pot of an accepted genesis block.** -/
theorem GenesisConfig.build_sound {config : GenesisConfig} {rest : σ} {genesis : State σ}
    (built : config.build rt rest = some genesis) :
    Sound rt ordered (config.schedules ≠ [] ∨
      rt.minimumBalance ≤ rt.totalBalance rest rt.potAccountId) genesis := by
  have start : Books rt ordered (config.empty rest) :=
    ⟨nofun, nofun, fun _ => rfl, fun _ => nofun, fun _ _ => ⟨rfl, fun _ => rfl⟩, fun _ => rfl⟩
  unfold GenesisConfig.build at built
  split at built
  next empty =>
    obtain rfl := Option.some.inj built
    refine ⟨start, fun funded => ?_⟩
    rcases funded with (filled | deposit) | ⟨_, _, h⟩
    · exact absurd empty filled
    · exact le_of_eq_of_le (Nat.zero_add _) deposit
    · cases h
  next =>
    obtain ⟨⟨sum, s⟩, table, built⟩ := Option.bind_eq_some_iff.1 built
    obtain ⟨required, added, built⟩ := Option.bind_eq_some_iff.1 built
    obtain ⟨exact_, built⟩ := Option.ite_none_right_eq_some.1 built
    obtain rfl := Option.some.inj built
    obtain ⟨rfl, -⟩ := checkedAdd_eq_some.1 added
    obtain ⟨books, owed, same⟩ := buildSchedules_ok start rfl table
    refine ⟨books, fun _ => ?_⟩
    rw [owed, same]
    exact exact_.ge

end

/-! ## Every run -/

/-- **Conservation and solvency.** In every run from an accepted genesis block, whoever claims, creates,
ends and retargets, and whatever else happens without taking from the pot: the pot holds what the
stored schedules have still to be paid and its deposit, from the start or from the first schedule on;
each schedule has claimed a multiple of the quantum, and no more than is vested; `outstanding` does
not underflow; and what was paid for a schedule and went back is what was granted, once it is fully
claimed or ended. What is written down as paid is what moved: in each step the pot lost it, and the
beneficiary or the treasury got it. A schedule ends behind its start if no offset saturates. -/
theorem vesting_conservation {σ : Type} {rt : Runtime σ} (lawful : rt.Lawful) (config : GenesisConfig)
    (rest : σ) {genesis : State σ} (built : config.build rt rest = some genesis) :
    (∀ s, Reaches (State.step rt) (fun _ action => action.Fits) genesis s →
      (config.schedules ≠ [] ∨ rt.minimumBalance ≤ rt.totalBalance rest rt.potAccountId ∨
          (∃ id schedule, s.schedules id = some schedule) →
        s.obligations + rt.minimumBalance ≤ rt.totalBalance s.rest rt.potAccountId) ∧
      (∀ id schedule, s.schedules id = some schedule →
        id < s.nextScheduleId ∧
        schedule.start ≤ schedule.cliff ∧ schedule.cliff ≤ schedule.endAt ∧
        rt.payoutQuantum ∣ schedule.claimed ∧
        schedule.claimed ≤ schedule.vestedAmount s.now ∧
        schedule.vestedAmount s.now ≤ schedule.total ∧
        (schedule.outstanding s.now).isOk = true ∧
        (schedule.claimed = schedule.total →
          s.moved id .payout + s.moved id .refund = schedule.total)) ∧
      (∀ id, id < s.nextScheduleId → s.schedules id = none →
        s.moved id .payout + s.moved id .refund = s.granted id) ∧
      (∀ id schedule, s.schedules id = some schedule → s.granted id = schedule.total) ∧
      ∀ action s', action.Fits → s.step rt action = some s' → Settles rt s s' action) ∧
    ∀ s, Reaches (State.step rt) (fun s action => action.Fits ∧ Ordered s action) genesis s →
      ∀ id schedule, s.schedules id = some schedule → schedule.start < schedule.endAt := by
  constructor
  · intro s reached
    have sound : Sound rt False _ s := reached.invariant (GenesisConfig.build_sound built)
      fun _ _ _ before fits h => (before.step lawful fits False.elim h).1
    have accounted := sound.books.accounted
    refine ⟨fun funded => sound.solvent (or_assoc.2 funded), fun id schedule found => ?_,
      fun id _ ended => ?_, fun id schedule found => ?_,
      fun action s' fits h => (sound.step lawful fits False.elim h).2⟩
    · have ok := sound.books.stored id schedule found
      refine ⟨sound.books.ids id schedule found, ok.start_le, ok.cliff_le, ok.claimed_dvd,
        ok.claimed_le, schedule.vestedAmount_le_total ok.start_le, ?_, fun whole => ?_⟩
      · rw [ok.outstanding_eq]
        rfl
      · have here := accounted id
        rw [Accounted, found] at here
        rw [here.2.1, here.2.2, whole, Nat.add_zero]
    · have here := accounted id
      rwa [Accounted, ended] at here
    · have here := accounted id
      rw [Accounted, found] at here
      exact here.1
  · intro s reached
    have sound : Sound rt True _ s := reached.invariant (GenesisConfig.build_sound built)
      fun _ _ _ before meets h => (before.step lawful meets.1 (fun _ => meets.2) h).1
    exact sound.books.strict (.inl trivial)

namespace Grants

def account (n : UInt64) : AccountId := ⟨fun _ => n⟩

/-- Balances that are moved if the source keeps its deposit, and the other side has one. -/
def transfer (source dest : AccountId) (amount : ℕ) (balances : AccountId → ℕ) :
    Option (AccountId → ℕ) :=
  if amount + 10 ≤ balances source ∧ 10 ≤ balances dest + amount then
    some (if source = dest then balances
      else Function.update (Function.update balances source (balances source - amount)) dest
        (balances dest + amount))
  else none

def grantRuntime : Runtime (AccountId → ℕ) where
  totalBalance balances := balances
  minimumBalance := 10
  transfer := transfer
  recordTransferProof _ _ _ balances := (true, balances)
  potAccountId := account 1
  treasuryAccount _ := some (account 2)
  adminOrigin
    | .root => true
    | _ => false
  payoutQuantum := 4
  minClaimInterval := 5

theorem lawful : grantRuntime.Lawful where
  debit {source dest amount rest rest'} h ne := by
    obtain ⟨room, h⟩ := Option.ite_none_right_eq_some.1 (show transfer .. = _ from h)
    rw [if_neg ne] at h
    obtain rfl := Option.some.inj h
    have left : grantRuntime.totalBalance (Function.update (Function.update rest source
        (rest source - amount)) dest (rest dest + amount)) source = rest source - amount :=
      (Function.update_of_ne ne ..).trans (Function.update_self ..)
    rw [left]
    exact Nat.sub_add_cancel (by omega)
  credit {source dest amount rest rest'} h ne := by
    obtain ⟨room, h⟩ := Option.ite_none_right_eq_some.1 (show transfer .. = _ from h)
    rw [if_neg ne] at h
    obtain rfl := Option.some.inj h
    exact Function.update_self ..
  frame {source dest amount rest rest'} h who notSource notDest := by
    obtain ⟨room, h⟩ := Option.ite_none_right_eq_some.1 (show transfer .. = _ from h)
    obtain rfl := Option.some.inj h
    show (if source = dest then rest else _) who = rest who
    split
    · rfl
    · exact (Function.update_of_ne notDest ..).trans (Function.update_of_ne notSource ..)
  recorded _ _ _ _ := rfl
  quantum_pos := by decide

/-- One grant, its times offsets from the first timestamp. -/
def table (start endAt : ℕ) : GenesisConfig where
  schedules := [⟨account 3, start, start, endAt, 40000⟩]
  anchorToFirstTimestamp := true
  few := Nat.succ_le_succ (Nat.zero_le _)

def endowment : AccountId → ℕ := fun who => if who = account 1 then 40010 else 100000

end Grants

open Grants in
/-- A grant whose offsets are at the end of the range: the first timestamp takes its start to its end.
And an empty table is accepted over a pot without a deposit. -/
theorem offsets_saturate :
    (∃ genesis s, (table (u64Max - 5) u64Max).build grantRuntime endowment = some genesis ∧
      Reaches (State.step grantRuntime) (fun _ action => action.Fits) genesis s ∧
      ∃ schedule, s.schedules 0 = some schedule ∧ schedule.start = schedule.endAt) ∧
    ∃ genesis, (⟨[], false, by decide⟩ : GenesisConfig).build grantRuntime (fun _ => 0) =
        some genesis ∧
      grantRuntime.totalBalance genesis.rest grantRuntime.potAccountId <
        grantRuntime.minimumBalance := by
  constructor
  · have ends : (((table (u64Max - 5) u64Max).build grantRuntime endowment).bind
        (runMeeting (State.step grantRuntime) (fun _ action => action.Fits) [.setTimestamp 10])).bind
          (fun s => (s.schedules 0).map fun schedule => (schedule.start, schedule.endAt)) =
        some (u64Max, u64Max) := by
      decide +kernel
    obtain ⟨s, ran, ends⟩ := Option.bind_eq_some_iff.1 ends
    obtain ⟨genesis, built, ran⟩ := Option.bind_eq_some_iff.1 ran
    obtain ⟨schedule, found, times⟩ := Option.map_eq_some_iff.1 ends
    obtain ⟨start, endAt⟩ := Prod.mk.inj times
    exact ⟨genesis, s, built, Reaches.of_runMeeting ran, schedule, found, start.trans endAt.symm⟩
  · exact ⟨_, rfl, by decide⟩

open Grants in
/-- A grant that is claimed of, retargeted and ended early, beside one that was added: the first
beneficiary has 20000 of it, the second 4000, and the treasury the rest, less what it granted. -/
theorem vesting_conservation_ended :
    ∃ genesis s, (table 0 100).build grantRuntime endowment = some genesis ∧
      Reaches (State.step grantRuntime) (fun s action => action.Fits ∧ Ordered s action) genesis s ∧
      s.schedules 0 = none ∧ s.moved 0 .payout = 24000 ∧ s.moved 0 .refund = 16000 ∧
      s.moved 0 .payout + s.moved 0 .refund = s.granted 0 ∧
      [3, 5, 2].map (fun who => s.rest (account who)) = [120000, 104000, 108000] ∧
      s.obligations + 10 ≤ s.rest (account 1) ∧
      ∃ schedule, s.schedules 1 = some schedule ∧ schedule.start < schedule.endAt := by
  -- Behind the first timestamp every step is in order.
  let meets : State (AccountId → ℕ) → Action (AccountId → ℕ) → Prop :=
    fun s action => action.Fits ∧ s.launch ≠ some .pending
  have ends : (((table 0 100).build grantRuntime endowment).bind fun genesis =>
      (genesis.step grantRuntime (.setTimestamp 1000)).bind
        (runMeeting (State.step grantRuntime) meets
          [.setTimestamp 1050, .claim (.signed (account 9)) 0,
            .createSchedule .root (account 4) 1000 1000 2000 8000,
            .retargetSchedule .root 0 (account 5), .setTimestamp 1060, .endSchedule .root 0])).map
      (fun s => (s.schedules 0, [s.moved 0 .payout, s.moved 0 .refund, s.nextScheduleId],
        (s.schedules 1).isSome, [3, 5, 2].map fun who => s.rest (account who))) =
      some (none, [24000, 16000, 2], true, [120000, 104000, 108000]) := by
    decide +kernel
  obtain ⟨s, ran, ends⟩ := Option.map_eq_some_iff.1 ends
  obtain ⟨genesis, built, ran⟩ := Option.bind_eq_some_iff.1 ran
  obtain ⟨first, stepped, ran⟩ := Option.bind_eq_some_iff.1 ran
  simp only [Prod.mk.injEq, List.cons.injEq] at ends
  obtain ⟨ended, ⟨paid, refunded, next, -⟩, stored, balances⟩ := ends
  have opens : Ordered genesis (.setTimestamp 1000) := by
    intro _ _ id schedule found
    have shape : genesis.schedules = Function.update (fun _ => none) 0
        (some ⟨account 3, 0, 0, 100, 40000, 0, none⟩) :=
      congrArg State.schedules (Option.some.inj (built.symm.trans rfl))
    rw [shape] at found
    rcases Books.update_cases found with ⟨-, ⟨⟩⟩ | ⟨-, ⟨⟩⟩
    decide
  have reached : Reaches (State.step grantRuntime) (fun s action => action.Fits ∧ Ordered s action)
      genesis s := by
    refine .head ⟨.setTimestamp 1000, ⟨by decide, opens⟩, stepped⟩ ?_
    refine (Reaches.of_runMeeting ran).weaken fun s action met => ⟨met.1, ?_⟩
    cases action with
    | setTimestamp now => exact fun waits => absurd waits met.2
    | _ => trivial
  obtain ⟨always, strict⟩ := vesting_conservation lawful (table 0 100) endowment built
  obtain ⟨solvent, -, whole, -⟩ := always s (reached.weaken fun _ _ met => met.1)
  obtain ⟨schedule, found⟩ := Option.isSome_iff_exists.1 stored
  exact ⟨genesis, s, built, reached, ended, paid, refunded, whole 0 (by omega) ended, balances,
    solvent (.inl nofun), schedule, found, strict s reached 1 schedule found⟩

end Qnero.Vesting
