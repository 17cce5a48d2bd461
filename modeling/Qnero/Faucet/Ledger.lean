import Mathlib.Data.List.Basic
import Mathlib.Order.Basic
import Mathlib.Data.Nat.Notation

/-!
# The faucet's claims ledger

One row per accepted claim, and the two limits that are read from the rows. A row counts against the
cooldown of its address unless its drip failed, and a drip that was interrupted counts as well. Rows
are never deleted, so a claim id is the position of its row.
-/

namespace Qnero.Faucet

inductive ClaimStatus where
  | queued
  | sent
  | failed
deriving DecidableEq

/-- The codes `failure_code` reads off an error. -/
inductive FailureCode where
  | noSpendableFunds
  | feeFloor
  | notIncluded
  | sendFailed
deriving DecidableEq

/-- The reason stored with a failed claim. -/
inductive Detail where
  | drip (code : FailureCode)
  | badAddress
  | queueFull
  | interrupted
deriving DecidableEq

/-- A row. `τ` is the spelling of an address, `κ` the keyed hash of a client. -/
structure Claim (τ κ : Type) where
  address : τ
  clientHash : κ
  amountQuanta : ℕ
  status : ClaimStatus
  includedAt : Option ℕ
  detail : Option Detail
  requestedAt : ℕ
  submittedAt : Option ℕ
  settledAt : Option ℕ

variable {τ κ : Type}

/-- `COUNTS_AS_CLAIMED`. -/
def Claim.countsAsClaimed (claim : Claim τ κ) : Bool :=
  claim.status == .queued || claim.status == .sent ||
    (claim.status == .failed && claim.detail == some .interrupted)

section

variable [DecidableEq τ] [DecidableEq κ] (rows : List (Claim τ κ))

/-- When this address last had a claim that counts. -/
def lastClaimForAddress (address : τ) : Option ℕ :=
  ((rows.filter fun claim => claim.address == address && claim.countsAsClaimed).map
    Claim.requestedAt).max?

/-- How many claims that count this client has had inside `window`. -/
def claimsForClient (clientHash : κ) (window now : ℕ) : ℕ :=
  rows.countP fun claim => claim.clientHash == clientHash && now - window ≤ claim.requestedAt &&
    claim.countsAsClaimed

/-- How long an address still has to wait, if it has to. -/
def addressCooldown (lastClaim : Option ℕ) (cooldown now : ℕ) : Option ℕ :=
  match lastClaim with
  | none => none
  | some last => if cooldown ≤ now - last then none else some (cooldown - (now - last))

/-- How long a client still has to wait, if it has to. -/
def clientLimit (claimsInWindow limit window : ℕ) : Option ℕ :=
  if claimsInWindow < limit then none else some window

omit [DecidableEq κ] in
/-- A claim that counts is not later than the last one. -/
theorem requestedAt_le_last {rows : List (Claim τ κ)} {claim : Claim τ κ} (mem : claim ∈ rows)
    (counts : claim.countsAsClaimed = true) :
    ∃ last, lastClaimForAddress rows claim.address = some last ∧ claim.requestedAt ≤ last := by
  have listed : claim.requestedAt ∈ (rows.filter fun other =>
      other.address == claim.address && other.countsAsClaimed).map Claim.requestedAt :=
    List.mem_map_of_mem (List.mem_filter.2 ⟨mem, by simp [counts]⟩)
  cases found : lastClaimForAddress rows claim.address with
  | none =>
    rw [List.max?_eq_none_iff.1 found] at listed
    cases listed
  | some last => exact ⟨last, rfl, (List.max?_eq_some_iff.1 found).2 _ listed⟩

/-- What passes the cooldown is a whole cooldown later. -/
theorem le_of_addressCooldown {last cooldown now : ℕ}
    (h : addressCooldown (some last) cooldown now = none) : cooldown = 0 ∨ last + cooldown ≤ now := by
  unfold addressCooldown at h
  dsimp only at h
  split at h
  · omega
  · cases h

end

/-! ## Writes -/

/-- The row of an accepted claim. -/
def Claim.recordQueued (address : τ) (clientHash : κ) (amountQuanta now : ℕ) : Claim τ κ where
  address := address
  clientHash := clientHash
  amountQuanta := amountQuanta
  status := .queued
  includedAt := none
  detail := none
  requestedAt := now
  submittedAt := none
  settledAt := none

def Claim.markSubmitted (now : ℕ) (claim : Claim τ κ) : Claim τ κ :=
  { claim with submittedAt := some now }

def Claim.markSent (includedAt now : ℕ) (claim : Claim τ κ) : Claim τ κ :=
  { claim with
    status := .sent
    includedAt := some includedAt
    settledAt := some now }

def Claim.markFailed (detail : Detail) (now : ℕ) (claim : Claim τ κ) : Claim τ κ :=
  { claim with
    status := .failed
    detail := some detail
    settledAt := some now }

end Qnero.Faucet
