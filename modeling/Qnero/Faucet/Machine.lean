import Qnero.Faucet.Ledger

/-!
# The faucet

The HTTP handlers, the one worker, the ledger and the chain as one machine. A step is what happens
between two places where something else can run: a hold of the ledger's lock, a channel operation, a
phase of the worker, a block, a crash. Every answer from outside (a read or a write of the ledger, the
wallet, the node, the clock) is part of the step.
-/

namespace Qnero.Faucet

/-- How addresses are spelled in the ledger. -/
structure AddressCodec (α τ : Type) where
  encode : α → τ
  decode : τ → Option α
  decode_encode : ∀ address, decode (encode address) = some address

structure Config where
  addressCooldown : ℕ
  ipLimit : ℕ
  ipWindow : ℕ
  dripQuanta : ℕ
  queueDepth : ℕ

structure Job (α : Type) where
  claimId : ℕ
  address : α
  quanta : ℕ

/-- A payment that was handed to the node. -/
structure Payment (α : Type) where
  claimId : ℕ
  address : α
  quanta : ℕ
  /-- `Wallet::send` returned an error after the submission. -/
  givenUp : Bool
  settled : Bool

/-- Where the process is: down, reading the queued rows of the last run, or with its worker in one of
the phases of a drip. -/
inductive Phase (α τ κ : Type) where
  | stopped
  | recovering (rows : List (Claim τ κ × ℕ))
  | idle
  /-- Before the row is marked as submitted. -/
  | preparing (job : Job α)
  /-- Inside `Wallet::send`, with the payment once it is submitted. -/
  | sending (job : Job α) (payment : Option ℕ)
  | returned (job : Job α) (result : Except FailureCode ℕ)

structure State (α τ κ : Type) where
  rows : List (Claim τ κ)
  /-- Accepted claims whose handler has not reached the channel yet. -/
  accepted : List (Job α)
  /-- Claims the channel had no room for, whose handler has not marked them yet. -/
  refused : List (Job α)
  queue : List (Job α)
  phase : Phase α τ κ
  payments : List (Payment α)

/-- Flags say whether a read, a write or a check goes through. -/
inductive Event (α τ κ : Type) where
  /-- A handler at its decision: the limits and the row, under one hold of the lock. `admitted` is
  the outcome of the steps before it. -/
  | claim (posted : τ) (client : κ) (now : ℕ) (admitted lastRead countRead written : Bool)
  /-- The next step of one of the handlers with an accepted claim, and of one that was refused. -/
  | trySend (handler : ℕ)
  | markRefused (handler now : ℕ) (written : Bool)
  | receive
  | prepareFailed (code : FailureCode)
  | markSubmitted (now : ℕ) (written : Bool)
  | submit
  | sendOk (includedAt : ℕ)
  | sendFailed (code : FailureCode)
  | finish (now : ℕ) (written : Bool)
  /-- A block in which a submitted payment settles. -/
  | settle (payment : ℕ)
  /-- A crash, with the rows the next start finds. A crash of the process leaves them; a reset of
  the host can take back writes, since the log of the ledger is not synced at every commit. -/
  | crash (found : List (Claim τ κ))
  | start
  | recover (now : ℕ) (written : Bool)

section

variable {α τ κ : Type} [DecidableEq τ] [DecidableEq κ] (codec : AddressCodec α τ)
  (config : Config) (s : State α τ κ)

/-- One row, if the write goes through. -/
def write (written : Bool) (claimId : ℕ) (f : Claim τ κ → Claim τ κ) (rows : List (Claim τ κ)) :
    List (Claim τ κ) :=
  if written then rows.modify claimId f else rows

def Phase.isServing : Phase α τ κ → Bool
  | .stopped | .recovering _ => false
  | .idle | .preparing _ | .sending .. | .returned .. => true

/-- An accepted claim: the row, and the job its handler goes on with. -/
def State.accept (recipient : α) (client : κ) (now : ℕ) : State α τ κ :=
  { s with
    rows := s.rows ++ [.recordQueued (codec.encode recipient) client config.dripQuanta now]
    accepted := s.accepted ++ [⟨s.rows.length, recipient, config.dripQuanta⟩] }

/-- Step 6 of the handler. A read that fails reads as no claim. -/
def decideClaim (recipient : α) (client : κ) (now : ℕ) (lastRead countRead written : Bool) :
    State α τ κ :=
  let wanted := codec.encode recipient
  let last := if lastRead then lastClaimForAddress s.rows wanted else none
  if (addressCooldown last config.addressCooldown now).isSome then s
  else
    let count := if countRead then claimsForClient s.rows client config.ipWindow now else 0
    if (clientLimit count config.ipLimit config.ipWindow).isSome then s
    else if written then s.accept codec config recipient client now
    else s

/-- `queued_claims`, with the ids. -/
def queuedClaims (rows : List (Claim τ κ)) : List (Claim τ κ × ℕ) :=
  rows.zipIdx.filter fun entry => entry.1.status == .queued

/-- A queued row of the last run is given up. A write that fails ends the start. -/
def State.release (claimId : ℕ) (detail : Detail) (rest : List (Claim τ κ × ℕ)) (now : ℕ)
    (written : Bool) : State α τ κ :=
  if written then
    { s with
      rows := s.rows.modify claimId (.markFailed detail now)
      phase := .recovering rest }
  else
    { s with
      queue := []
      phase := .stopped }

/-- One row of `recover_queued_claims`. -/
def recoverClaim (claim : Claim τ κ) (claimId : ℕ) (rest : List (Claim τ κ × ℕ)) (now : ℕ)
    (written : Bool) : State α τ κ :=
  match codec.decode claim.address with
  | none => s.release claimId .badAddress rest now written
  | some address =>
    if claim.submittedAt.isSome then s.release claimId .interrupted rest now written
    else if s.queue.length < config.queueDepth then
      { s with
        queue := s.queue ++ [⟨claimId, address, claim.amountQuanta⟩]
        phase := .recovering rest }
    else s.release claimId .queueFull rest now written

/-- A step that does not apply where the machine is changes nothing. -/
def step (event : Event α τ κ) : State α τ κ :=
  match event with
  | .claim posted client now admitted lastRead countRead written =>
    match codec.decode posted with
    | none => s
    | some recipient =>
      if s.phase.isServing && admitted then
        decideClaim codec config s recipient client now lastRead countRead written
      else s
  | .trySend handler =>
    match s.accepted[handler]? with
    | none => s
    | some job =>
      if s.queue.length < config.queueDepth then
        { s with
          accepted := s.accepted.eraseIdx handler
          queue := s.queue ++ [job] }
      else
        { s with
          accepted := s.accepted.eraseIdx handler
          refused := s.refused ++ [job] }
  | .markRefused handler now written =>
    match s.refused[handler]? with
    | none => s
    | some job =>
      { s with
        refused := s.refused.eraseIdx handler
        rows := write written job.claimId (.markFailed .queueFull now) s.rows }
  | .receive =>
    match s.phase, s.queue with
    | .idle, job :: rest =>
      { s with
        queue := rest
        phase := .preparing job }
    | _, _ => s
  | .prepareFailed code =>
    match s.phase with
    | .preparing job => { s with phase := .returned job (.error code) }
    | _ => s
  | .markSubmitted now written =>
    match s.phase with
    | .preparing job =>
      { s with
        rows := write written job.claimId (.markSubmitted now) s.rows
        phase := .sending job none }
    | _ => s
  | .submit =>
    match s.phase with
    | .sending job none =>
      { s with
        payments := s.payments ++ [⟨job.claimId, job.address, job.quanta, false, false⟩]
        phase := .sending job (some s.payments.length) }
    | _ => s
  | .sendOk includedAt =>
    match s.phase with
    | .sending job (some _) => { s with phase := .returned job (.ok includedAt) }
    | _ => s
  | .sendFailed code =>
    match s.phase with
    | .sending job none => { s with phase := .returned job (.error code) }
    | .sending job (some payment) =>
      { s with
        payments := s.payments.modify payment fun p => { p with givenUp := true }
        phase := .returned job (.error code) }
    | _ => s
  | .finish now written =>
    match s.phase with
    | .returned job (.ok includedAt) =>
      { s with
        rows := write written job.claimId (.markSent includedAt now) s.rows
        phase := .idle }
    | .returned job (.error code) =>
      { s with
        rows := write written job.claimId (.markFailed (.drip code) now) s.rows
        phase := .idle }
    | _ => s
  | .settle payment =>
    { s with payments := s.payments.modify payment fun p => { p with settled := true } }
  | .crash found =>
    { rows := found
      accepted := []
      refused := []
      queue := []
      phase := .stopped
      payments := s.payments }
  | .start =>
    match s.phase with
    | .stopped => { s with phase := .recovering (queuedClaims s.rows) }
    | _ => s
  | .recover now written =>
    match s.phase with
    | .recovering [] => { s with phase := .idle }
    | .recovering ((claim, claimId) :: rest) =>
      recoverClaim codec config s claim claimId rest now written
    | _ => s

/-- What keeps the bound: the last claim is read before a decision, a drip is marked before it is
sent, a payment whose send returned an error does not settle, and a crash takes no write back. -/
def Event.Sound : Event α τ κ → Prop
  | .claim _ _ _ _ lastRead _ _ => lastRead = true
  | .markSubmitted _ written => written = true
  | .sendFailed _ => ∀ job payment, s.phase = .sending job (some payment) →
      ∀ p, s.payments[payment]? = some p → p.settled = false
  | .settle payment => ∀ p, s.payments[payment]? = some p → p.givenUp = false
  | .crash found => found = s.rows
  | _ => True

end

/-- A faucet that was never started. -/
def State.new {α τ κ : Type} : State α τ κ where
  rows := []
  accepted := []
  refused := []
  queue := []
  phase := .stopped
  payments := []

end Qnero.Faucet
