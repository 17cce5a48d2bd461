import Mathlib.Algebra.BigOperators.Group.Finset.Basic
import Qnero.Interleaving
import Qnero.Shielded.Gates

/-!
# The vesting pallet

Grants are paid from one account, the pot, as they vest: linearly from `start` to `endAt`, nothing
before `cliff`. A payout is rounded in one of three ways: the last one is exact, one before it is cut
to a coarse multiple of the quantum, and the one at an early end goes to the nearest multiple, with the
rest back to the treasury.

A genesis table may hold offsets; the first timestamp that is not zero is added to them, and the
addition saturates.
-/

namespace Qnero.Vesting

open Machine Interleaving

/-- A payout that is not the last one is a multiple of so many quanta. -/
def nonFinalPayoutQuanta : ℕ := 2500

def maxGenesisSchedules : ℕ := 64

/-- A grant. Times are in milliseconds. -/
structure VestingSchedule where
  beneficiary : AccountId
  start : ℕ
  cliff : ℕ
  endAt : ℕ
  total : ℕ
  claimed : ℕ
  lastClaimAt : Option ℕ
deriving DecidableEq

inductive LaunchAnchor where
  | pending
  | anchored (moment : ℕ)
deriving DecidableEq

inductive ClaimPlan where
  | pay (amount : ℕ)
  | nothingToClaim
  | tooSoon
deriving DecidableEq

inductive VestingError where
  | badOrigin
  | noSchedule
  | invalidSchedule
  | nothingToClaim
  | claimTooSoon
  | treasuryNotConfigured
  | potUnderfunded
  | invalidBeneficiary
  | transferProofNotRecorded
  | overflow
  | underflow
  | currency
deriving DecidableEq

/-- What the pallet is configured with, over the state of the other pallets: the currency, whose
transfer preserves the account it takes from, the recorder, and the constants. -/
structure Runtime (σ : Type) where
  totalBalance : σ → AccountId → ℕ
  minimumBalance : ℕ
  transfer : AccountId → AccountId → ℕ → σ → Option σ
  recordTransferProof : AccountId → AccountId → ℕ → σ → Bool × σ
  potAccountId : AccountId
  treasuryAccount : σ → Option AccountId
  adminOrigin : RawOrigin → Bool
  payoutQuantum : ℕ
  minClaimInterval : ℕ

/-- What a claim is refused with. -/
def ClaimPlan.payable : ClaimPlan → Except VestingError ℕ
  | .pay amount => .ok amount
  | .nothingToClaim => .error .nothingToClaim
  | .tooSoon => .error .claimTooSoon

/-! ## Amounts -/

/-- What is vested at a moment. The product is exact: it is taken in 256 bits. -/
def VestingSchedule.vestedAmount (schedule : VestingSchedule) (now : ℕ) : ℕ :=
  if now < schedule.cliff then 0
  else if schedule.endAt ≤ now then schedule.total
  else schedule.total * (now - schedule.start) / (schedule.endAt - schedule.start)

/-- What is still to be paid, and what of it is vested. -/
def VestingSchedule.outstanding (schedule : VestingSchedule) (now : ℕ) :
    Except VestingError (ℕ × ℕ) := do
  let remaining ← okOr (checkedSub schedule.total schedule.claimed) .underflow
  let owed ← okOr (checkedSub (schedule.vestedAmount now) schedule.claimed) .underflow
  pure (remaining, owed)

/-- Down to a multiple of the quantum. -/
def align (amount quantum : ℕ) : ℕ := amount - amount % quantum

variable {σ : Type} (rt : Runtime σ)

def scheduleIsValid (start cliff endAt total : ℕ) : Bool :=
  start ≤ cliff ∧ cliff ≤ endAt ∧ start < endAt ∧ total ≠ 0 ∧ total % rt.payoutQuantum = 0

def claimPlan (schedule : VestingSchedule) (now : ℕ) : Except VestingError ClaimPlan := do
  let (remaining, owed) ← schedule.outstanding now
  let payable := if owed = remaining then owed
    else align owed (satMul u128Max rt.payoutQuantum nonFinalPayoutQuanta)
  if payable = 0 then pure .nothingToClaim
  else
    match schedule.lastClaimAt with
    | some last => do
      let elapsed ← okOr (checkedSub now last) .underflow
      if elapsed < rt.minClaimInterval then pure .tooSoon else pure (.pay payable)
    | none => pure (.pay payable)

/-! ## Storage and transfers -/

inductive LegKind where
  | payout
  | refund
deriving DecidableEq

/-- A transfer out of the pot, and the schedule it was made for. -/
structure Leg where
  scheduleId : ℕ
  kind : LegKind
  dest : AccountId
  amount : ℕ
deriving DecidableEq

/-- The storage of the pallet over that of the others. The transfers out of the pot and the totals
that were granted are kept besides. -/
structure State (σ : Type) where
  rest : σ
  now : ℕ
  nextScheduleId : ℕ
  schedules : ℕ → Option VestingSchedule
  launch : Option LaunchAnchor
  legs : List Leg
  granted : ℕ → ℕ

/-- A transfer and its proof. -/
def transferAndRecord (source dest : AccountId) (amount : ℕ) (rest : σ) : Except VestingError σ := do
  let rest ← okOr (rt.transfer source dest amount rest) .currency
  let (recorded, rest) := rt.recordTransferProof source dest amount rest
  ensure (recorded = true) .transferProofNotRecorded
  pure rest

def settle (schedule : VestingSchedule) (amount now : ℕ) (rest : σ) :
    Except VestingError (σ × VestingSchedule) := do
  let rest ← transferAndRecord rt rt.potAccountId schedule.beneficiary amount rest
  let claimed ← okOr (checkedAdd u128Max schedule.claimed amount) .overflow
  pure (rest, { schedule with claimed := claimed, lastClaimAt := some now })

def treasuryAndPot (rest : σ) : Except VestingError (AccountId × AccountId) := do
  let treasury ← okOr (rt.treasuryAccount rest) .treasuryNotConfigured
  ensure (treasury ≠ rt.potAccountId) .treasuryNotConfigured
  pure (treasury, rt.potAccountId)

/-! ## Calls -/

namespace State

/-- Anyone may have a schedule paid, to its beneficiary. -/
def claim (origin : RawOrigin) (scheduleId : ℕ) (s : State σ) : Except VestingError (State σ) := do
  let _ ← (ensureSigned origin).mapError fun _ => .badOrigin
  let schedule ← okOr (s.schedules scheduleId) .noSchedule
  let payable ← (← claimPlan rt schedule s.now).payable
  let (rest, schedule) ← settle rt schedule payable s.now s.rest
  pure { s with
    rest := rest
    schedules := Function.update s.schedules scheduleId (some schedule)
    legs := ⟨scheduleId, .payout, schedule.beneficiary, payable⟩ :: s.legs }

def createSchedule (origin : RawOrigin) (beneficiary : AccountId) (start cliff endAt total : ℕ)
    (s : State σ) : Except VestingError (State σ) := do
  ensure (rt.adminOrigin origin = true) .badOrigin
  let (treasury, pot) ← treasuryAndPot rt s.rest
  ensure (scheduleIsValid rt start cliff endAt total = true) .invalidSchedule
  ensure (beneficiary ≠ pot) .invalidBeneficiary
  ensure (rt.minimumBalance ≤ rt.totalBalance s.rest pot) .potUnderfunded
  let nextId ← okOr (checkedAdd u64Max s.nextScheduleId 1) .overflow
  let rest ← transferAndRecord rt treasury pot total s.rest
  pure { s with
    rest := rest
    nextScheduleId := nextId
    schedules := Function.update s.schedules s.nextScheduleId
      (some ⟨beneficiary, start, cliff, endAt, total, 0, none⟩)
    granted := Function.update s.granted s.nextScheduleId total }

/-- A leg of an early end: nothing moves if there is nothing to move. -/
def endLeg (scheduleId : ℕ) (kind : LegKind) (dest : AccountId) (amount : ℕ)
    (out : σ × List Leg) : Except VestingError (σ × List Leg) :=
  if amount = 0 then .ok out
  else do
    let rest ← transferAndRecord rt rt.potAccountId dest amount out.1
    pure (rest, ⟨scheduleId, kind, dest, amount⟩ :: out.2)

def endSchedule (origin : RawOrigin) (scheduleId : ℕ) (s : State σ) :
    Except VestingError (State σ) := do
  ensure (rt.adminOrigin origin = true) .badOrigin
  let (treasury, _) ← treasuryAndPot rt s.rest
  let schedule ← okOr (s.schedules scheduleId) .noSchedule
  let (remaining, owed) ← schedule.outstanding s.now
  -- The nearest multiple of the quantum.
  let vestedPayout :=
    min (align (satAdd u128Max owed (rt.payoutQuantum / 2)) rt.payoutQuantum) remaining
  let unvestedRefund ← okOr (checkedSub remaining vestedPayout) .underflow
  let paid ← endLeg rt scheduleId .payout schedule.beneficiary vestedPayout (s.rest, s.legs)
  let (rest, legs) ← endLeg rt scheduleId .refund treasury unvestedRefund paid
  pure { s with
    rest := rest
    schedules := Function.update s.schedules scheduleId none
    legs := legs }

def retargetSchedule (origin : RawOrigin) (scheduleId : ℕ) (newBeneficiary : AccountId)
    (s : State σ) : Except VestingError (State σ) := do
  ensure (rt.adminOrigin origin = true) .badOrigin
  ensure (newBeneficiary ≠ rt.potAccountId) .invalidBeneficiary
  let schedule ← okOr (s.schedules scheduleId) .noSchedule
  ensure (newBeneficiary ≠ schedule.beneficiary) .invalidBeneficiary
  pure { s with
    schedules := Function.update s.schedules scheduleId
      (some { schedule with beneficiary := newBeneficiary }) }

/-! ## Time -/

end State

def VestingSchedule.rebase (now : ℕ) (schedule : VestingSchedule) : VestingSchedule :=
  { schedule with
    start := satAdd u64Max schedule.start now
    cliff := satAdd u64Max schedule.cliff now
    endAt := satAdd u64Max schedule.endAt now }

/-- The loop over the ids that were given out. -/
def rebaseAll (now next : ℕ) (schedules : ℕ → Option VestingSchedule) :
    ℕ → Option VestingSchedule :=
  (List.range next).foldl
    (fun schedules id => Function.update schedules id ((schedules id).map (.rebase now))) schedules

def State.onTimestampSet (now : ℕ) (s : State σ) : State σ :=
  if now = 0 ∨ s.launch ≠ some .pending then s
  else { s with
    schedules := rebaseAll now s.nextScheduleId s.schedules
    launch := some (.anchored now) }

/-! ## Genesis -/

structure GenesisSchedule where
  beneficiary : AccountId
  start : ℕ
  cliff : ℕ
  endAt : ℕ
  total : ℕ

structure GenesisConfig where
  schedules : List GenesisSchedule
  anchorToFirstTimestamp : Bool
  few : schedules.length ≤ maxGenesisSchedules

/-- The loop over the table, with the sum so far; `none` where the builder panics. -/
def buildSchedules : List GenesisSchedule → ℕ → State σ → Option (ℕ × State σ)
  | [], sum, s => some (sum, s)
  | entry :: table, sum, s =>
    if scheduleIsValid rt entry.start entry.cliff entry.endAt entry.total = true ∧
        entry.beneficiary ≠ rt.potAccountId then
      (checkedAdd u128Max sum entry.total).bind fun sum =>
        buildSchedules table sum { s with
          nextScheduleId := s.nextScheduleId + 1
          schedules := Function.update s.schedules s.nextScheduleId
            (some ⟨entry.beneficiary, entry.start, entry.cliff, entry.endAt, entry.total, 0, none⟩)
          granted := Function.update s.granted s.nextScheduleId entry.total }
    else none

/-- The storage without schedules. -/
def GenesisConfig.empty (config : GenesisConfig) (rest : σ) : State σ where
  rest := rest
  now := 0
  nextScheduleId := 0
  schedules := fun _ => none
  launch := if config.anchorToFirstTimestamp then some .pending else none
  legs := []
  granted := fun _ => 0

/-- The storage behind the genesis block. The pot of an empty table is not looked at. -/
def GenesisConfig.build (config : GenesisConfig) (rest : σ) : Option (State σ) :=
  if config.schedules = [] then some (config.empty rest)
  else
    (buildSchedules rt config.schedules 0 (config.empty rest)).bind fun (sum, s) =>
      (checkedAdd u128Max sum rt.minimumBalance).bind fun required =>
        if rt.totalBalance rest rt.potAccountId = required then some s else none

/-! ## Runs -/

/-- A call, a timestamp, or whatever else happens on the chain. -/
inductive Action (σ : Type) where
  | claim (origin : RawOrigin) (scheduleId : ℕ)
  | createSchedule (origin : RawOrigin) (beneficiary : AccountId) (start cliff endAt total : ℕ)
  | endSchedule (origin : RawOrigin) (scheduleId : ℕ)
  | retargetSchedule (origin : RawOrigin) (scheduleId : ℕ) (newBeneficiary : AccountId)
  | setTimestamp (now : ℕ)
  | others (rest : σ)

/-- The arguments are of their types. -/
def Action.Fits : Action σ → Prop
  | .createSchedule _ _ start cliff endAt total =>
    start ≤ u64Max ∧ cliff ≤ u64Max ∧ endAt ≤ u64Max ∧ total ≤ u128Max
  | .setTimestamp now => now ≤ u64Max
  | _ => True

instance (action : Action σ) : Decidable action.Fits := by
  cases action <;> unfold Action.Fits <;> infer_instance

/-- A call that is refused is no step. Time does not go back, and nothing but the pallet takes from the
pot. -/
def State.step (action : Action σ) (s : State σ) : Option (State σ) :=
  match action with
  | .claim origin scheduleId => (s.claim rt origin scheduleId).toOption
  | .createSchedule origin beneficiary start cliff endAt total =>
    (s.createSchedule rt origin beneficiary start cliff endAt total).toOption
  | .endSchedule origin scheduleId => (s.endSchedule rt origin scheduleId).toOption
  | .retargetSchedule origin scheduleId newBeneficiary =>
    (s.retargetSchedule rt origin scheduleId newBeneficiary).toOption
  | .setTimestamp now => if s.now ≤ now then some (({ s with now := now }).onTimestampSet now) else none
  | .others rest =>
    if rt.totalBalance s.rest rt.potAccountId ≤ rt.totalBalance rest rt.potAccountId then
      some { s with rest := rest }
    else none

end Qnero.Vesting
