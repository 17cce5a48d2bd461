import Qnero.Dispatch
import Qnero.Extrinsic.Filter
import Qnero.Extrinsic.Walk

/-!
# The multisig pallet under the filter

A proposal is stored as bytes, approved as bytes and executed by resubmitting the typed call, which
has to encode to the stored bytes. `dispatch` is the dispatch of any call of the runtime as far as
the pallet is concerned: wrappers recurse, the calls of other pallets act on the rest of the state.
It keeps a log of what executions dispatch, successful or not, since a refused call is not to be
dispatched at all.

Two facts carry every step. The executor resubmits the call, so what an execution dispatches occurs
in the typed tree of an admitted extrinsic. And a payload is stored by a proposal that was admitted,
so every stored payload is sealed (`Stored`, `SealedPayload`), whatever its expiry or approvals.
-/

namespace Qnero

open Scale Machine

/-! ## Storage -/

inductive ProposalStatus where
  | active
  | approved
deriving DecidableEq

structure ProposalData where
  proposer : AccountId
  /-- The encoded call to be executed. -/
  call : List UInt8
  expiry : ℕ
  approvals : List AccountId
  deposit : ℕ
  status : ProposalStatus

structure MultisigData where
  creator : AccountId
  signers : List AccountId
  threshold : ℕ
  proposalNonce : ℕ
  /-- Active proposals of each signer that has one. -/
  proposalsPerSigner : List (AccountId × ℕ)

def MultisigData.activeProposals (data : MultisigData) : ℕ :=
  (data.proposalsPerSigner.map Prod.snd).sum

def MultisigData.countOf (data : MultisigData) (who : AccountId) : ℕ :=
  (data.proposalsPerSigner.lookup who).getD 0

inductive MultisigError where
  | notEnoughSigners
  | thresholdZero
  | thresholdTooHigh
  | tooManySigners
  | multisigAlreadyExists
  | multisigNotFound
  | notASigner
  | proposalNotFound
  | notProposer
  | alreadyApproved
  | expiryInPast
  | expiryTooFar
  | proposalExpired
  | invalidCall
  | tooManyProposalsInStorage
  | tooManyProposalsPerSigner
  | insufficientBalance
  | proposalNotExpired
  | proposalNotActive
  | proposalNotApproved
  | callNotAllowedForHighSecurityMultisig
  | proposalNonceExhausted
  | callWeightExceedsLimit
  | callMismatch
  | duplicateSigners
deriving DecidableEq

/-- How a dispatch fails. -/
inductive CallError where
  | badOrigin
  | callFiltered
  | tooManyCalls
  | notAllowed
  | undecodable
  | multisig (error : MultisigError)
  | other
deriving DecidableEq

/-- The pallet's storage, the block number, and the rest of the runtime. -/
structure MultisigState (σ : Type) where
  multisigs : AccountId → Option MultisigData
  /-- The proposals of each multisig, by id. -/
  proposals : AccountId → List (ℕ × ProposalData)
  block : ℕ
  rest : σ

/-- The constants of the pallet, the arguments of its calls as the generated call type decodes them,
and the collaborators: the currency, the high-security policy, the other pallets. -/
structure MultisigEnv (σ : Type) extends CallInfo where
  maxSigners : ℕ
  maxTotalProposalsInStorage : ℕ
  multisigFee : ℕ
  proposalDeposit : ℕ
  proposalFee : ℕ
  signerStepFactor : Permill
  maxExpiryDuration : ℕ
  batchedCallsLimit : ℕ
  deriveMultisigAddress : List AccountId → ℕ → ℕ → AccountId
  createMultisigArgs : List UInt8 → Option (List AccountId × ℕ × ℕ)
  proposalArgs : List UInt8 → Option (AccountId × ℕ)
  claimDepositsArgs : List UInt8 → Option AccountId
  withdraw : AccountId → ℕ → σ → Option σ
  reserve : AccountId → ℕ → σ → Option σ
  unreserve : AccountId → ℕ → σ → σ
  isCallAllowed : σ → AccountId → RuntimeCall → Bool
  otherCall : RawOrigin → RuntimeCall → σ → Except Unit σ

section Pallet

variable {σ : Type} (env : MultisigEnv σ)

/-- `Permill::mul_floor`. -/
def Permill.mulFloor (rate : Permill) (n : ℕ) : ℕ := n * rate.parts / 1000000

/-- `Base + floor(StepFactor * Base * SignerCount)`. -/
def MultisigEnv.feeFor (signersCount : ℕ) : ℕ :=
  satAdd u128Max env.proposalFee
    (env.signerStepFactor.mulFloor (satMul u128Max env.proposalFee signersCount))

/-- Insert into a map of at most `bound` keys. -/
def tryInsert (bound : ℕ) (who : AccountId) (count : ℕ) (counts : List (AccountId × ℕ)) :
    Option (List (AccountId × ℕ)) :=
  if counts.length < bound ∨ (counts.lookup who).isSome then
    some ((who, count) :: counts.filter fun entry => entry.1 ≠ who)
  else none

/-- One proposal less for its proposer; an entry that reaches zero goes. -/
def MultisigData.release (data : MultisigData) (proposer : AccountId) : MultisigData :=
  match data.proposalsPerSigner.lookup proposer with
  | none => data
  | some count =>
    let others := data.proposalsPerSigner.filter fun entry => entry.1 ≠ proposer
    { data with
      proposalsPerSigner := if count - 1 = 0 then others else (proposer, count - 1) :: others }

namespace MultisigState

variable (s : MultisigState σ)

def proposal (multisig : AccountId) (id : ℕ) : Option ProposalData := (s.proposals multisig).lookup id

def putProposal (multisig : AccountId) (id : ℕ) (proposal : ProposalData) : MultisigState σ :=
  { s with
    proposals := Function.update s.proposals multisig
      ((id, proposal) :: (s.proposals multisig).filter fun entry => entry.1 ≠ id) }

def removeProposalAndReturnDeposit (multisig : AccountId) (id : ℕ) (proposer : AccountId)
    (deposit : ℕ) : MultisigState σ where
  multisigs := Function.update s.multisigs multisig
    ((s.multisigs multisig).map fun data => data.release proposer)
  proposals := Function.update s.proposals multisig
    ((s.proposals multisig).filter fun entry => entry.1 ≠ id)
  block := s.block
  rest := env.unreserve proposer deposit s.rest

end MultisigState

/-! ## Calls -/

variable (who multisig : AccountId) (s : MultisigState σ)

/-- The multisig, if the caller may act for it. -/
def signerOf : Except MultisigError MultisigData := do
  let data ← okOr (s.multisigs multisig) .multisigNotFound
  ensure (who ∈ data.signers) .notASigner
  pure data

def createMultisig (signers : List AccountId) (threshold nonce : ℕ) :
    Except MultisigError (MultisigState σ) := do
  ensure (0 < threshold) .thresholdZero
  ensure (2 ≤ signers.length) .notEnoughSigners
  ensure (signers.length ≤ env.maxSigners) .tooManySigners
  let sorted := signers.insertionSort (· ≤ ·)
  ensure (sorted.IsChain (· ≠ ·)) .duplicateSigners
  ensure (threshold ≤ sorted.length) .thresholdTooHigh
  let address := env.deriveMultisigAddress sorted threshold nonce
  ensure (s.multisigs address = none) .multisigAlreadyExists
  let rest ← okOr (env.withdraw who env.multisigFee s.rest) .insufficientBalance
  pure { s with
    multisigs := Function.update s.multisigs address (some ⟨who, sorted, threshold, 0, []⟩)
    rest := rest }

/-- Store a payload that decodes to a call, encodes to itself and is not too heavy. -/
def propose (payload : List UInt8) (expiry : ℕ) : Except MultisigError (MultisigState σ) := do
  let data ← signerOf who multisig s
  ensure (data.activeProposals < env.maxTotalProposalsInStorage) .tooManyProposalsInStorage
  let perSigner := if data.signers.length = 0 then 1
    else env.maxTotalProposalsInStorage / data.signers.length
  ensure (data.countOf who < perSigner) .tooManyProposalsPerSigner
  ensure (s.block < expiry) .expiryInPast
  ensure (expiry ≤ satAdd u32Max s.block env.maxExpiryDuration) .expiryTooFar
  let decoded ← okOr (env.decodeWithDepthLimit payload) .invalidCall
  ensure (decoded.encode = payload) .invalidCall
  ensure (env.weightExceeds decoded = false) .callWeightExceedsLimit
  ensure (env.isCallAllowed s.rest multisig decoded) .callNotAllowedForHighSecurityMultisig
  let rest ← okOr (env.withdraw who (env.feeFor data.signers.length) s.rest) .insufficientBalance
  let rest ← okOr (env.reserve who env.proposalDeposit rest) .insufficientBalance
  let id := data.proposalNonce
  let nonce ← okOr (checkedAdd u32Max id 1) .proposalNonceExhausted
  let counts ← okOr (tryInsert env.maxSigners who (satAdd u32Max (data.countOf who) 1)
    data.proposalsPerSigner) .tooManySigners
  let s : MultisigState σ := { s with
    multisigs := Function.update s.multisigs multisig
      (some { data with
        proposalNonce := nonce
        proposalsPerSigner := counts })
    rest := rest }
  pure (s.putProposal multisig id
    ⟨who, payload, expiry, [who], env.proposalDeposit,
      if data.threshold ≤ 1 then .approved else .active⟩)

/-- An approval resubmits the payload, byte-equal to the stored one. -/
def approve (id : ℕ) (payload : List UInt8) : Except MultisigError (MultisigState σ) := do
  let data ← signerOf who multisig s
  let proposal ← okOr (s.proposal multisig id) .proposalNotFound
  ensure (payload = proposal.call) .callMismatch
  ensure (s.block ≤ proposal.expiry) .proposalExpired
  ensure (who ∉ proposal.approvals) .alreadyApproved
  ensure (proposal.approvals.length < env.maxSigners) .tooManySigners
  let approvals := proposal.approvals ++ [who]
  let status := if proposal.status = .active ∧ data.threshold ≤ approvals.length then .approved
    else proposal.status
  pure (s.putProposal multisig id { proposal with
    approvals := approvals
    status := status })

def cancel (id : ℕ) : Except MultisigError (MultisigState σ) := do
  let proposal ← okOr (s.proposal multisig id) .proposalNotFound
  ensure (who = proposal.proposer) .notProposer
  ensure (proposal.status = .active ∨ proposal.status = .approved) .proposalNotActive
  pure (s.removeProposalAndReturnDeposit env multisig id proposal.proposer proposal.deposit)

def removeExpired (id : ℕ) : Except MultisigError (MultisigState σ) := do
  let _ ← signerOf who multisig s
  let proposal ← okOr (s.proposal multisig id) .proposalNotFound
  ensure (proposal.status = .active ∨ proposal.status = .approved) .proposalNotActive
  ensure (proposal.expiry < s.block) .proposalNotExpired
  pure (s.removeProposalAndReturnDeposit env multisig id proposal.proposer proposal.deposit)

/-- Remove all expired proposals of the caller. -/
def claimDeposits : Except MultisigError (MultisigState σ) := do
  let _ ← signerOf who multisig s
  let expired := (s.proposals multisig).filter fun entry =>
    entry.2.proposer = who ∧ (entry.2.status = .active ∨ entry.2.status = .approved) ∧
      entry.2.expiry < s.block
  pure (expired.foldl (fun s entry =>
    s.removeProposalAndReturnDeposit env multisig entry.1 who entry.2.deposit) s)

/-- The checks of an execution, and the state its call is dispatched in: the proposal is gone. -/
def executeChecks (id : ℕ) (call : RuntimeCall) : Except MultisigError (MultisigState σ) := do
  let _ ← signerOf who multisig s
  let proposal ← okOr (s.proposal multisig id) .proposalNotFound
  ensure (proposal.status = .approved) .proposalNotApproved
  ensure (s.block ≤ proposal.expiry) .proposalExpired
  ensure (call.encode = proposal.call) .callMismatch
  ensure (env.weightExceeds call = false) .callWeightExceedsLimit
  ensure (env.isCallAllowed s.rest multisig call) .callNotAllowedForHighSecurityMultisig
  pure (s.removeProposalAndReturnDeposit env multisig id proposal.proposer proposal.deposit)

/-- A call of another pallet acts on the rest of the state. -/
def otherDispatch (origin : RawOrigin) (call : RuntimeCall) : Except CallError (MultisigState σ) :=
  match env.otherCall origin call s.rest with
  | .ok rest => .ok { s with rest := rest }
  | .error _ => .error .other

/-- A call that carries no other: the multisig pallet's own, or one of another pallet. -/
def leafDispatch (origin : RawOrigin) (call : LeafCall) (args : List UInt8) :
    Except CallError (MultisigState σ) :=
  match call, origin with
  | .createMultisig, .signed who => do
    let (signers, threshold, nonce) ← okOr (env.createMultisigArgs args) .undecodable
    (createMultisig env who s signers threshold nonce).mapError .multisig
  | .cancelProposal, .signed who => do
    let (multisig, id) ← okOr (env.proposalArgs args) .undecodable
    (cancel env who multisig s id).mapError .multisig
  | .removeExpired, .signed who => do
    let (multisig, id) ← okOr (env.proposalArgs args) .undecodable
    (removeExpired env who multisig s id).mapError .multisig
  | .claimDeposits, .signed who => do
    let multisig ← okOr (env.claimDepositsArgs args) .undecodable
    (claimDeposits env who multisig s).mapError .multisig
  | .createMultisig, _ | .cancelProposal, _ | .removeExpired, _ | .claimDeposits, _ =>
    .error .badOrigin
  | call, origin => otherDispatch env s origin (.leaf call args)

/-! ## Dispatch -/

/-- The origin's filter: the runtime's own, and for a child of a batch also the one against batches.
Root passes every filter. -/
def MultisigEnv.passes (origin : RawOrigin) (inBatch : Bool) (call : RuntimeCall) : Bool :=
  match origin with
  | .root => true
  | .signed _ | .none => qneroCallFilter env.toCallInfo call && !(inBatch && call.isBatchAll)

/-- The high-security policy, asked again before each child of a batch. -/
def MultisigEnv.nestedCallAllowed (origin : RawOrigin) (call : RuntimeCall) : Bool :=
  match origin with
  | .signed who => env.isCallAllowed s.rest who call
  | .root | .none => true

/-- The result of a dispatch, and the calls that executions in it dispatched, in order. -/
structure Outcome (σ : Type) where
  result : Except CallError (MultisigState σ)
  dispatched : List RuntimeCall

/-- The state after a dispatch: a failure leaves the one before. -/
def Outcome.state (outcome : Outcome σ) (before : MultisigState σ) : MultisigState σ :=
  match outcome.result with
  | .ok after => after
  | .error _ => before

mutual

def dispatchBypassFilter (origin : RawOrigin) : RuntimeCall → MultisigState σ → Outcome σ
  | .leaf call args, s => ⟨leafDispatch env s origin call args, []⟩
  | .shielded call, s => ⟨otherDispatch env s origin (.shielded call), []⟩
  | .propose multisig payload expiry, s =>
    match origin with
    | .signed who => ⟨(propose env who multisig s payload expiry).mapError .multisig, []⟩
    | .root | .none => ⟨.error .badOrigin, []⟩
  | .approve multisig id payload, s =>
    match origin with
    | .signed who => ⟨(approve env who multisig s id payload).mapError .multisig, []⟩
    | .root | .none => ⟨.error .badOrigin, []⟩
  | .batchAll calls, s =>
    match origin with
    | .none => ⟨.error .badOrigin, []⟩
    | .root | .signed _ =>
      if env.batchedCallsLimit < calls.length then ⟨.error .tooManyCalls, []⟩
      else dispatchAll origin calls s
  | .execute multisig id call, s =>
    match origin with
    | .signed who =>
      match executeChecks env who multisig s id call with
      | .error e => ⟨.error (.multisig e), []⟩
      | .ok s =>
        -- The inner origin is a fresh one, without the batch's filter, and an inner failure
        -- rolls back what the inner call wrote, not the removal of the proposal.
        if env.passes (.signed multisig) false call then
          let inner := dispatchBypassFilter (.signed multisig) call s
          ⟨.ok (inner.state s), call :: inner.dispatched⟩
        else ⟨.ok s, [call]⟩
    | .root | .none => ⟨.error .badOrigin, []⟩

/-- The children of a batch, up to the first that fails. -/
def dispatchAll (origin : RawOrigin) : List RuntimeCall → MultisigState σ → Outcome σ
  | [], s => ⟨.ok s, []⟩
  | call :: calls, s =>
    if env.nestedCallAllowed s origin call = false then ⟨.error .notAllowed, []⟩
    else if env.passes origin true call = false then ⟨.error .callFiltered, []⟩
    else
      let first := dispatchBypassFilter origin call s
      match first.result with
      | .error e => ⟨.error e, first.dispatched⟩
      | .ok s =>
        let rest := dispatchAll origin calls s
        ⟨rest.result, first.dispatched ++ rest.dispatched⟩

end

def dispatch (origin : RawOrigin) (call : RuntimeCall) : Outcome σ :=
  if env.passes origin false call then dispatchBypassFilter env origin call s
  else ⟨.error .callFiltered, []⟩

/-! ## Runs -/

/-- What happens to the chain: an extrinsic, or anything that leaves the pallet alone. -/
inductive MultisigEvent (σ : Type) where
  | extrinsic (x : Extrinsic)
  | elsewhere (block : ℕ) (rest : σ)

/-- The state, with all calls that executions have dispatched so far. -/
structure MultisigRun (σ : Type) where
  state : MultisigState σ
  dispatched : List RuntimeCall

def MultisigRun.step (run : MultisigRun σ) : MultisigEvent σ → MultisigRun σ
  | .extrinsic x =>
    let outcome := dispatch env run.state x.preamble.origin x.call
    ⟨outcome.state run.state, run.dispatched ++ outcome.dispatched⟩
  | .elsewhere block rest =>
    { run with state := { run.state with
      block := block
      rest := rest } }

/-- The check before an extrinsic can enter a block, `ensure_allowed_call`. -/
def MultisigEvent.EnsuresAllowedCall : MultisigEvent σ → Prop
  | .extrinsic x => qneroCallFilter env.toCallInfo x.call = true
  | .elsewhere _ _ => True

end Pallet

/-! ## What a call stores -/

section Stores

variable {σ : Type} {env : MultisigEnv σ} {who multisig : AccountId} {s s' : MultisigState σ}
  {id : ℕ} {payload : List UInt8}

/-- Every stored payload satisfies `P`. -/
def MultisigState.Stored (P : List UInt8 → Prop) (s : MultisigState σ) : Prop :=
  ∀ multisig, ∀ entry ∈ s.proposals multisig, P entry.2.call

variable {P : List UInt8 → Prop}

section

variable (stored : s.Stored P)
include stored

theorem MultisigState.Stored.putProposal {proposal : ProposalData}
    (h : P proposal.call) : (s.putProposal multisig id proposal).Stored P := by
  intro address entry mem
  dsimp only [MultisigState.putProposal] at mem
  rw [Function.update_apply] at mem
  split at mem
  · rcases List.mem_cons.1 mem with rfl | old
    · exact h
    · exact stored _ entry (List.mem_of_mem_filter old)
  · exact stored address entry mem

theorem MultisigState.Stored.removeProposal {proposer : AccountId} {deposit : ℕ} :
    (s.removeProposalAndReturnDeposit env multisig id proposer deposit).Stored P := by
  intro address entry mem
  dsimp only [MultisigState.removeProposalAndReturnDeposit] at mem
  rw [Function.update_apply] at mem
  split at mem
  · exact stored _ entry (List.mem_of_mem_filter mem)
  · exact stored address entry mem

/-- A proposal that is read is stored. -/
theorem MultisigState.Stored.proposal {proposal : ProposalData}
    (h : s.proposal multisig id = some proposal) : P proposal.call := by
  obtain ⟨front, back, split, -⟩ := List.lookup_eq_some_iff.1 h
  refine stored multisig (id, proposal) ?_
  rw [split]
  simp

theorem stored_propose {expiry : ℕ} (allowed : P payload)
    (h : propose env who multisig s payload expiry = .ok s') : s'.Stored P := by
  simp only [propose, bind_ok_iff] at h
  obtain ⟨data, -, _, -, _, -, _, -, _, -, decoded, -, _, -, _, -, _, -, rest, -, reserved, -, nonce,
    -, counts, -, done⟩ := h
  obtain rfl := Except.ok.inj done
  exact MultisigState.Stored.putProposal (s := { s with
    multisigs := _
    rest := _ }) stored allowed

theorem stored_approve (h : approve env who multisig s id payload = .ok s') : s'.Stored P := by
  simp only [approve, bind_ok_iff, okOr_ok_iff] at h
  obtain ⟨data, -, proposal, found, _, -, _, -, _, -, _, -, done⟩ := h
  obtain rfl := Except.ok.inj done
  have old : P proposal.call := stored.proposal found
  exact stored.putProposal old

theorem stored_executeChecks {call : RuntimeCall}
    (h : executeChecks env who multisig s id call = .ok s') : s'.Stored P ∧ P call.encode := by
  simp only [executeChecks, bind_ok_iff, okOr_ok_iff, ensure_ok_iff] at h
  obtain ⟨data, -, proposal, found, _, -, _, -, _, same, _, -, _, -, done⟩ := h
  obtain rfl := Except.ok.inj done
  exact ⟨stored.removeProposal, same ▸ stored.proposal found⟩

theorem stored_createMultisig {signers : List AccountId} {threshold nonce : ℕ}
    (h : createMultisig env who s signers threshold nonce = .ok s') : s'.Stored P := by
  simp only [createMultisig, bind_ok_iff] at h
  obtain ⟨_, -, _, -, _, -, _, -, _, -, _, -, rest, -, done⟩ := h
  obtain rfl := Except.ok.inj done
  exact stored

theorem stored_cancel (h : cancel env who multisig s id = .ok s') : s'.Stored P := by
  simp only [cancel, bind_ok_iff] at h
  obtain ⟨proposal, -, _, -, _, -, done⟩ := h
  obtain rfl := Except.ok.inj done
  exact stored.removeProposal

theorem stored_removeExpired (h : removeExpired env who multisig s id = .ok s') : s'.Stored P := by
  simp only [removeExpired, bind_ok_iff] at h
  obtain ⟨data, -, proposal, -, _, -, _, -, done⟩ := h
  obtain rfl := Except.ok.inj done
  exact stored.removeProposal

theorem stored_claimDeposits (h : claimDeposits env who multisig s = .ok s') : s'.Stored P := by
  simp only [claimDeposits, bind_ok_iff] at h
  obtain ⟨data, -, done⟩ := h
  obtain rfl := Except.ok.inj done
  exact List.foldlRecOn _ _ stored fun _ before _ _ => before.removeProposal

theorem stored_otherDispatch {origin : RawOrigin} {call : RuntimeCall}
    (h : otherDispatch env s origin call = .ok s') : s'.Stored P := by
  unfold otherDispatch at h
  split at h
  · obtain rfl := Except.ok.inj h
    exact stored
  · cases h

theorem stored_leafDispatch {origin : RawOrigin} {call : LeafCall} {args : List UInt8}
    (h : leafDispatch env s origin call args = .ok s') : s'.Stored P := by
  unfold leafDispatch at h
  split at h
  · simp only [bind_ok_iff, mapError_ok_iff] at h
    obtain ⟨_, -, done⟩ := h
    exact stored_createMultisig stored done
  · simp only [bind_ok_iff, mapError_ok_iff] at h
    obtain ⟨_, -, done⟩ := h
    exact stored_cancel stored done
  · simp only [bind_ok_iff, mapError_ok_iff] at h
    obtain ⟨_, -, done⟩ := h
    exact stored_removeExpired stored done
  · simp only [bind_ok_iff, mapError_ok_iff] at h
    obtain ⟨_, -, done⟩ := h
    exact stored_claimDeposits stored done
  · cases h
  · cases h
  · cases h
  · cases h
  · exact stored_otherDispatch stored h

end

end Stores

/-! ## What a dispatch dispatches -/

section Dispatched

variable {σ : Type} {env : MultisigEnv σ}

/-- A payload the filter lets through, as a predicate. -/
def SealedPayload (info : CallInfo) (payload : List UInt8) : Prop := ∃ inner, Sealed info payload inner

/-- A call an execution dispatched as it should be: admitted, with everything in it, and resubmitted
from a sealed payload. -/
structure Cleared (info : CallInfo) (call : RuntimeCall) : Prop where
  admitted : ∀ sub, Within sub call → qneroCallFilter info sub = true
  sealed : SealedPayload info call.encode

/-- A dispatch keeps the stored payloads sealed and dispatches cleared calls only. -/
structure Outcome.Safe (info : CallInfo) (outcome : Outcome σ) : Prop where
  stored : ∀ s, outcome.result = .ok s → s.Stored (SealedPayload info)
  cleared : ∀ call ∈ outcome.dispatched, Cleared info call

theorem Outcome.Safe.of_error {info : CallInfo} (e : CallError) :
    Outcome.Safe (σ := σ) info ⟨.error e, []⟩ where
  stored := nofun
  cleared := nofun

theorem Outcome.Safe.of_call {info : CallInfo} {result : Except CallError (MultisigState σ)}
    (h : ∀ s, result = .ok s → s.Stored (SealedPayload info)) : Outcome.Safe info ⟨result, []⟩ where
  stored := h
  cleared := nofun

theorem Outcome.Safe.state {info : CallInfo} {outcome : Outcome σ} {s : MultisigState σ}
    (safe : outcome.Safe info) (before : s.Stored (SealedPayload info)) :
    (outcome.state s).Stored (SealedPayload info) := by
  unfold Outcome.state
  split
  · next after done => exact safe.stored after done
  · exact before

mutual

/-- The induction is on the call: what is dispatched under an execution or in a batch occurs in it,
and so is admitted. -/
theorem dispatchBypassFilter_safe (origin : RawOrigin) : ∀ (call : RuntimeCall)
    (s : MultisigState σ), qneroCallFilter env.toCallInfo call = true →
      s.Stored (SealedPayload env.toCallInfo) →
      (dispatchBypassFilter env origin call s).Safe env.toCallInfo
  | .leaf call args, s, _, stored => by
    unfold dispatchBypassFilter
    exact .of_call fun _ done => stored_leafDispatch stored done
  | .shielded call, s, _, stored => by
    unfold dispatchBypassFilter
    exact .of_call fun _ done => stored_otherDispatch stored done
  | .propose multisig payload expiry, s, allowed, stored => by
    unfold dispatchBypassFilter
    split
    · refine .of_call fun _ done => ?_
      exact stored_propose stored (Within.refl.payload allowed rfl) (mapError_ok_iff.1 done)
    · exact .of_error _
    · exact .of_error _
  | .approve multisig id payload, s, _, stored => by
    unfold dispatchBypassFilter
    split
    · exact .of_call fun _ done => stored_approve stored (mapError_ok_iff.1 done)
    · exact .of_error _
    · exact .of_error _
  | .batchAll calls, s, allowed, stored => by
    have each : ∀ call ∈ calls, qneroCallFilter env.toCallInfo call = true :=
      fun call mem => (Within.batchAll mem .refl).allowed allowed
    unfold dispatchBypassFilter
    split
    · exact .of_error _
    all_goals
      split
      · exact .of_error _
      · exact dispatchAll_safe _ calls s each stored
  | .execute multisig id call, s, allowed, stored => by
    unfold dispatchBypassFilter
    split
    · next who =>
      split
      · exact .of_error _
      · next after checked =>
        obtain ⟨kept, payload⟩ := stored_executeChecks stored checked
        -- The filter read the payload when it was proposed, and the call is that payload.
        have cleared : Cleared env.toCallInfo call :=
          ⟨fun sub within => (Within.execute within).allowed allowed, payload⟩
        split
        · have inner := dispatchBypassFilter_safe (.signed multisig) call after
            (cleared.admitted call .refl) kept
          refine ⟨?_, ?_⟩
          · rintro _ ⟨⟩
            exact inner.state kept
          · exact List.forall_mem_cons.2 ⟨cleared, inner.cleared⟩
        · refine ⟨?_, ?_⟩
          · rintro _ ⟨⟩
            exact kept
          · exact List.forall_mem_singleton.2 cleared
    · exact .of_error _
    · exact .of_error _

theorem dispatchAll_safe (origin : RawOrigin) : ∀ (calls : List RuntimeCall)
    (s : MultisigState σ), (∀ call ∈ calls, qneroCallFilter env.toCallInfo call = true) →
      s.Stored (SealedPayload env.toCallInfo) →
      (dispatchAll env origin calls s).Safe env.toCallInfo
  | [], s, _, stored => by
    unfold dispatchAll
    exact .of_call fun _ done => Except.ok.inj done ▸ stored
  | call :: calls, s, allowed, stored => by
    obtain ⟨head, tail⟩ := List.forall_mem_cons.1 allowed
    have first := dispatchBypassFilter_safe origin call s head stored
    unfold dispatchAll
    split
    · exact .of_error _
    · split
      · exact .of_error _
      · dsimp only
        split
        · exact ⟨nofun, first.cleared⟩
        · next after done =>
          have rest := dispatchAll_safe origin calls after tail (first.stored after done)
          exact ⟨rest.stored, List.forall_mem_append.2 ⟨first.cleared, rest.cleared⟩⟩

end

theorem dispatch_safe {origin : RawOrigin} {call : RuntimeCall} {s : MultisigState σ}
    (allowed : qneroCallFilter env.toCallInfo call = true)
    (stored : s.Stored (SealedPayload env.toCallInfo)) :
    (dispatch env s origin call).Safe env.toCallInfo := by
  unfold dispatch
  split
  · exact dispatchBypassFilter_safe origin call s allowed stored
  · exact .of_error _

/-- What every event keeps, given that its extrinsic passed the filter. -/
structure MultisigRun.Safe (env : MultisigEnv σ) (run : MultisigRun σ) : Prop where
  stored : run.state.Stored (SealedPayload env.toCallInfo)
  cleared : ∀ call ∈ run.dispatched, Cleared env.toCallInfo call

theorem MultisigRun.Safe.step {run : MultisigRun σ} {event : MultisigEvent σ} (safe : run.Safe env)
    (allowed : event.EnsuresAllowedCall env) : (run.step env event).Safe env := by
  cases event with
  | extrinsic x =>
    have outcome : (dispatch env run.state x.preamble.origin x.call).Safe env.toCallInfo :=
      dispatch_safe allowed safe.stored
    exact ⟨outcome.state safe.stored, List.forall_mem_append.2 ⟨safe.cleared, outcome.cleared⟩⟩
  | elsewhere block rest => exact ⟨safe.stored, safe.cleared⟩

theorem MultisigRun.Safe.run {events : List (MultisigEvent σ)} {run : MultisigRun σ}
    (safe : run.Safe env) (allowed : ∀ event ∈ events, event.EnsuresAllowedCall env) :
    (events.foldl (MultisigRun.step env) run).Safe env :=
  List.foldlRecOn _ _ safe fun _ before _ mem => before.step (allowed _ mem)

end Dispatched

/-! ## The filter over a chain -/

/-- The leaves of the v1 policy: transparent transfers, reversible transfers, the administration of
vesting, and the enrolment in high security. -/
def LeafCall.Refused (call : LeafCall) : Prop :=
  movesTransparentValue call = true ∨ enrolsInAFeatureV1Refuses call = true

theorem qneroCallFilter_leaf {info : CallInfo} {call : LeafCall} {args : List UInt8} :
    qneroCallFilter info (.leaf call args) = false ↔ call.Refused := by
  rw [qneroCallFilter, Bool.not_eq_false', refusedUnderV1, refusedWith, Bool.or_eq_true,
    LeafCall.Refused]

/-- No wrapper, stored payload or run of the multisig pallet gets around the filter. -/
structure FilterHolds {σ : Type} (env : MultisigEnv σ) : Prop where
  refused : ∀ (leaf : LeafCall) (args : List UInt8),
    qneroCallFilter env.toCallInfo (.leaf leaf args) = false ↔ leaf.Refused
  tree : ∀ (call : RuntimeCall) (leaf : LeafCall) (args : List UInt8),
    qneroCallFilter env.toCallInfo call = true → leaf.Refused → ¬ Within (.leaf leaf args) call
  payload : ∀ (call sub : RuntimeCall) (payload : List UInt8),
    qneroCallFilter env.toCallInfo call = true → Within sub call → sub.payload = some payload →
      ∃ inner : RuntimeCall, env.decodeWithDepthLimit payload = some inner ∧
        inner.encode = payload ∧ (∀ deeper, Within deeper inner → deeper.payload = none) ∧
        ∀ leaf args, leaf.Refused → ¬ Within (.leaf leaf args) inner
  run : ∀ (s : MultisigState σ) (events : List (MultisigEvent σ)),
    (∀ multisig, s.proposals multisig = []) → (∀ event ∈ events, event.EnsuresAllowedCall env) →
      ∀ call ∈ (events.foldl (MultisigRun.step env) ⟨s, []⟩).dispatched,
        ∀ sub, Within sub call → qneroCallFilter env.toCallInfo sub = true

theorem not_within_of_refused {info : CallInfo} {call : RuntimeCall} {leaf : LeafCall}
    {args : List UInt8} (allowed : qneroCallFilter info call = true) (refused : leaf.Refused) :
    ¬ Within (.leaf leaf args) call := by
  intro within
  have kept := within.allowed allowed
  rw [qneroCallFilter_leaf.2 refused] at kept
  cases kept

/-- **The filter cannot be wrapped around**: in an admitted call, in the payloads it carries, and in
what any execution dispatches in a run of admitted extrinsics from no proposals. -/
theorem filterHolds {σ : Type} (env : MultisigEnv σ) : FilterHolds env where
  refused _ _ := qneroCallFilter_leaf
  tree _ _ _ allowed refused := not_within_of_refused allowed refused
  payload call sub payload allowed within carried := by
    obtain ⟨inner, is⟩ := within.payload allowed carried
    refine ⟨inner, is.decoded, is.canonical, ?_, ?_⟩
    · intro deeper deep
      exact payload_eq_none (deep.no_proposal is.no_proposal)
    · intro leaf args refused
      exact not_within_of_refused is.allowed refused
  run s events empty allowed := by
    have start : MultisigRun.Safe env ⟨s, []⟩ := by
      refine ⟨?_, nofun⟩
      intro multisig entry mem
      rw [empty multisig] at mem
      cases mem
    intro call mem
    exact ((start.run allowed).cleared call mem).admitted

namespace Sample

def submittedBy (who : AccountId) (call : RuntimeCall) : MultisigEvent Unit :=
  .extrinsic ⟨.signed who signature (extensions 0 (Nat.zero_le _)), call⟩

def account (n : UInt64) : AccountId := ⟨fun _ => n⟩

/-- A remark, the only payload the sample decoder knows. -/
def proposed : RuntimeCall := .leaf .remark [4, 7]

def multisigEnv : MultisigEnv Unit where
  decodeWithDepthLimit payload := if payload = proposed.encode then some proposed else none
  weightExceeds _ := false
  maxSigners := 10
  maxTotalProposalsInStorage := 10
  multisigFee := 1
  proposalDeposit := 1
  proposalFee := 1
  signerStepFactor := ⟨10000, by decide⟩
  maxExpiryDuration := 100
  batchedCallsLimit := 10
  deriveMultisigAddress _ _ _ := account 9
  createMultisigArgs _ := none
  proposalArgs _ := none
  claimDepositsArgs _ := none
  withdraw _ _ := some
  reserve _ _ := some
  unreserve _ _ s := s
  isCallAllowed _ _ _ := true
  otherCall _ _ s := .ok s

/-- Two signers, both needed. -/
def multisigState : MultisigState Unit where
  multisigs := fun _ => some ⟨account 1, [account 1, account 2], 2, 0, []⟩
  proposals _ := []
  block := 1
  rest := ()

def multisigEvents : List (MultisigEvent Unit) :=
  [submittedBy (account 1) (.batchAll [.propose (account 9) proposed.encode 50]),
    submittedBy (account 2) (.approve (account 9) 0 proposed.encode),
    submittedBy (account 1) (.execute (account 9) 0 proposed)]

theorem multisigEvents_dispatched :
    (multisigEvents.foldl (MultisigRun.step multisigEnv) ⟨multisigState, []⟩).dispatched
      = [proposed] := by
  rfl

theorem multisigEvents_allowed :
    ∀ event ∈ multisigEvents, event.EnsuresAllowedCall multisigEnv := by
  simp only [multisigEvents, List.forall_mem_cons]
  exact ⟨rfl, rfl, rfl, nofun⟩

end Sample

/-- A run in which an execution dispatches. -/
theorem filterHolds_multisigEvents :
    (Sample.multisigEvents.foldl (MultisigRun.step Sample.multisigEnv)
      ⟨Sample.multisigState, []⟩).dispatched = [Sample.proposed] ∧
    ∀ sub, Within sub Sample.proposed →
      qneroCallFilter Sample.multisigEnv.toCallInfo sub = true := by
  refine ⟨Sample.multisigEvents_dispatched, ?_⟩
  have runs := (filterHolds Sample.multisigEnv).run Sample.multisigState Sample.multisigEvents
    (fun _ => rfl) Sample.multisigEvents_allowed
  rw [Sample.multisigEvents_dispatched] at runs
  exact runs Sample.proposed List.mem_cons_self

end Qnero
