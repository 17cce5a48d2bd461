import Qnero.Extrinsic.Multisig
import Qnero.Keyed

/-!
# Who authorised an execution

The pallet keeps no history: an execution is checked against the stored proposal only, and the
proposal is gone before its call is dispatched, which may call the pallet again. `actsOf` records
what a dispatch did for good, over the recursion of the dispatch itself; a failed call, a batch with
a failed child and a failed inner call did nothing. `Kept` then ties the storage to the record.

Every change of a multisig is one update of its data and of its proposals, so `Kept.change` is the
only place where the two maps are taken apart.
-/

namespace Qnero

open Machine

/-! ## What happened -/

inductive Act where
  | created (multisig : AccountId) (signers : List AccountId) (threshold : ℕ)
  | proposed (multisig : AccountId) (id : ℕ) (who : AccountId) (payload : List UInt8) (expiry : ℕ)
  | approved (multisig : AccountId) (id : ℕ) (who : AccountId) (payload : List UInt8)
  | executed (multisig : AccountId) (id : ℕ) (call : RuntimeCall) (block : ℕ)

section Record

variable {σ : Type} (env : MultisigEnv σ)

def leafActs (origin : RawOrigin) (call : LeafCall) (args : List UInt8) (s : MultisigState σ) :
    List Act :=
  match call, origin with
  | .createMultisig, .signed who =>
    match env.createMultisigArgs args with
    | none => []
    | some (signers, threshold, nonce) =>
      match createMultisig env who s signers threshold nonce with
      | .error _ => []
      | .ok _ =>
        let sorted := signers.insertionSort (· ≤ ·)
        [.created (env.deriveMultisigAddress sorted threshold nonce) sorted threshold]
  | _, _ => []

mutual

/-- What a call does for good, newest first. -/
def actsOf (origin : RawOrigin) : RuntimeCall → MultisigState σ → List Act
  | .leaf call args, s => leafActs env origin call args s
  | .shielded _, _ => []
  | .propose multisig payload expiry, s =>
    match origin with
    | .signed who =>
      match propose env who multisig s payload expiry with
      | .error _ => []
      | .ok _ =>
        let id := (s.multisigs multisig).elim 0 MultisigData.proposalNonce
        [.proposed multisig id who payload expiry]
    | .root | .none => []
  | .approve multisig id payload, s =>
    match origin with
    | .signed who =>
      match approve env who multisig s id payload with
      | .error _ => []
      | .ok _ => [.approved multisig id who payload]
    | .root | .none => []
  | .batchAll calls, s =>
    match (dispatchBypassFilter env origin (.batchAll calls) s).result with
    | .error _ => []
    | .ok _ => actsOfAll origin calls s
  | .execute multisig id call, s =>
    match origin with
    | .signed who =>
      match executeChecks env who multisig s id call with
      | .error _ => []
      | .ok after =>
        let inner := if env.passes (.signed multisig) false call
          then actsOf (.signed multisig) call after else []
        inner ++ [.executed multisig id call s.block]
    | .root | .none => []

def actsOfAll (origin : RawOrigin) : List RuntimeCall → MultisigState σ → List Act
  | [], _ => []
  | call :: calls, s =>
    match (dispatchBypassFilter env origin call s).result with
    | .error _ => []
    | .ok after => actsOfAll origin calls after ++ actsOf origin call s

end

def MultisigEvent.acts (s : MultisigState σ) : MultisigEvent σ → List Act
  | .extrinsic x =>
    if env.passes x.preamble.origin false x.call then actsOf env x.preamble.origin x.call s else []
  | .elsewhere _ _ => []

/-- A run of the pallet, with everything that has happened in it, newest first. -/
structure RecordedRun (σ : Type) extends MultisigRun σ where
  acts : List Act

def RecordedRun.step (run : RecordedRun σ) (event : MultisigEvent σ) : RecordedRun σ where
  toMultisigRun := run.toMultisigRun.step env event
  acts := event.acts env run.state ++ run.acts

end Record

/-! ## What is to hold -/

/-- The account has submitted these bytes for the proposal. -/
def Submitted (acts : List Act) (multisig : AccountId) (id : ℕ) (payload : List UInt8)
    (who : AccountId) : Prop :=
  (∃ expiry, .proposed multisig id who payload expiry ∈ acts) ∨ .approved multisig id who payload ∈ acts

/-- At least the threshold of the signers fixed at creation have submitted these bytes, each of them,
and the proposal has not expired. -/
def Authorized (before : List Act) (multisig : AccountId) (id : ℕ) (payload : List UInt8)
    (block : ℕ) : Prop :=
  ∃ (signers : List AccountId) (threshold : ℕ) (proposer : AccountId) (expiry : ℕ)
    (submitters : List AccountId),
    .created multisig signers threshold ∈ before ∧
    .proposed multisig id proposer payload expiry ∈ before ∧ block ≤ expiry ∧
    submitters.Nodup ∧ threshold ≤ submitters.length ∧
    ∀ who ∈ submitters, who ∈ signers ∧ Submitted before multisig id payload who

/-- A multisig is created once, and a proposal id of it is given out and executed once. -/
def Act.Once : Act → Act → Prop
  | .created multisig _ _, .created multisig' _ _ => multisig ≠ multisig'
  | .proposed multisig id _ _ _, .proposed multisig' id' _ _ _ => (multisig, id) ≠ (multisig', id')
  | .executed multisig id _ _, .executed multisig' id' _ _ => (multisig, id) ≠ (multisig', id')
  | _, _ => True

/-- How many of the stored proposals are the account's. -/
def storedBy (stored : List (ℕ × ProposalData)) (who : AccountId) : ℕ :=
  Keyed.count (fun entry => entry.2.proposer) stored who

/-- The deposits of the account's stored proposals. -/
def depositsOf (who : AccountId) (stored : List (ℕ × ProposalData)) : ℕ :=
  (stored.map fun entry => if entry.2.proposer = who then entry.2.deposit else 0).sum

/-- The reserve each account has with the pallet is the deposits of its stored proposals. -/
def ReserveMatches {σ : Type} (held : σ → AccountId → ℕ) (s : MultisigState σ) : Prop :=
  ∃ owners : Finset AccountId, (∀ multisig ∉ owners, s.proposals multisig = []) ∧
    ∀ who, held s.rest who = ∑ multisig ∈ owners, depositsOf who (s.proposals multisig)

/-- What the pallet guarantees of a record and of the state it led to. -/
structure MultisigHolds {σ : Type} (env : MultisigEnv σ) (held : σ → AccountId → ℕ)
    (s : MultisigState σ) (acts : List Act) : Prop where
  once : acts.Pairwise Act.Once
  authorized : ∀ newer older multisig id call block,
    acts = newer ++ .executed multisig id call block :: older →
      Authorized older multisig id call.encode block
  orphanless : ∀ multisig, s.multisigs multisig = none → s.proposals multisig = []
  counted : ∀ multisig data, s.multisigs multisig = some data →
    (data.proposalsPerSigner.map Prod.fst).Nodup ∧
    ∀ who, data.proposalsPerSigner.lookup who =
      if storedBy (s.proposals multisig) who = 0 then none
      else some (storedBy (s.proposals multisig) who)
  total : ∀ multisig data, s.multisigs multisig = some data →
    (s.proposals multisig).length ≤ env.maxTotalProposalsInStorage
  perSigner : ∀ multisig data, s.multisigs multisig = some data →
    ∀ who, storedBy (s.proposals multisig) who ≤ env.maxTotalProposalsInStorage / data.signers.length
  reserve : ReserveMatches held s

/-- The currency as documented, seen through what the pallet has reserved: a reserve adds, an
unreserve takes off, and nobody else touches it. -/
structure Reserves {σ : Type} (env : MultisigEnv σ) (held : σ → AccountId → ℕ) : Prop where
  withdraw : ∀ who amount rest rest', env.withdraw who amount rest = some rest' →
    held rest' = held rest
  reserve : ∀ who amount rest rest', env.reserve who amount rest = some rest' →
    held rest' = Function.update (held rest) who (held rest who + amount)
  unreserve : ∀ who amount rest,
    held (env.unreserve who amount rest) = Function.update (held rest) who (held rest who - amount)
  otherCall : ∀ origin call rest rest', env.otherCall origin call rest = .ok rest' →
    held rest' = held rest

/-! ## The invariant -/

section Invariant

variable {σ : Type} {env : MultisigEnv σ} {held : σ → AccountId → ℕ} {s s' : MultisigState σ}
  {acts acts' : List Act} {multisig who : AccountId} {id : ℕ} {payload : List UInt8} {block : ℕ}

theorem Submitted.mono (sub : acts ⊆ acts') (h : Submitted acts multisig id payload who) :
    Submitted acts' multisig id payload who := by
  rcases h with ⟨expiry, mem⟩ | mem
  · exact .inl ⟨expiry, sub mem⟩
  · exact .inr (sub mem)

/-- A multisig and its proposals, as the storage has them. -/
structure MultisigData.Accounted (env : MultisigEnv σ) (data : MultisigData)
    (stored : List (ℕ × ProposalData)) : Prop where
  two_signers : 2 ≤ data.signers.length
  ids : (stored.map Prod.fst).Nodup
  fresh : ∀ entry ∈ stored, entry.1 < data.proposalNonce
  counted : Keyed.Histogram (fun entry => entry.2.proposer) data.proposalsPerSigner stored
  total : stored.length ≤ env.maxTotalProposalsInStorage
  perSigner : ∀ who, storedBy stored who ≤ env.maxTotalProposalsInStorage / data.signers.length

/-- A stored proposal's approvals are what the record says. -/
structure ProposalData.Backed (proposal : ProposalData) (acts : List Act) (multisig : AccountId)
    (id : ℕ) (signers : List AccountId) (threshold : ℕ) : Prop where
  proposed : .proposed multisig id proposal.proposer proposal.call proposal.expiry ∈ acts
  nodup : proposal.approvals.Nodup
  submitted : ∀ who ∈ proposal.approvals,
    who ∈ signers ∧ Submitted acts multisig id proposal.call who
  reached : proposal.status = .approved → threshold ≤ proposal.approvals.length

variable {signers : List AccountId} {origin : RawOrigin}

theorem ProposalData.Backed.mono {proposal : ProposalData} {threshold : ℕ} (sub : acts ⊆ acts')
    (h : proposal.Backed acts multisig id signers threshold) :
    proposal.Backed acts' multisig id signers threshold where
  proposed := sub h.proposed
  nodup := h.nodup
  submitted who mem := ⟨(h.submitted who mem).1, (h.submitted who mem).2.mono sub⟩
  reached := h.reached

/-- The proposal an act gives out or executes. -/
def Act.proposalId : Act → Option (AccountId × ℕ)
  | .proposed multisig id _ _ _ | .executed multisig id _ _ => some (multisig, id)
  | .created _ _ _ | .approved _ _ _ _ => none

/-- The storage and the record agree. -/
structure Kept (env : MultisigEnv σ) (held : σ → AccountId → ℕ) (s : MultisigState σ)
    (acts : List Act) : Prop where
  once : acts.Pairwise Act.Once
  authorized : ∀ newer older multisig id call block,
    acts = newer ++ .executed multisig id call block :: older →
      Authorized older multisig id call.encode block
  orphanless : ∀ multisig, s.multisigs multisig = none → s.proposals multisig = []
  created : ∀ multisig signers threshold, .created multisig signers threshold ∈ acts ↔
    ∃ data, s.multisigs multisig = some data ∧ data.signers = signers ∧ data.threshold = threshold
  given : ∀ act ∈ acts, ∀ multisig id, act.proposalId = some (multisig, id) →
    ∃ data, s.multisigs multisig = some data ∧ id < data.proposalNonce
  gone : ∀ multisig id call block, .executed multisig id call block ∈ acts →
    id ∉ (s.proposals multisig).map Prod.fst
  accounted : ∀ multisig data, s.multisigs multisig = some data →
    data.Accounted env (s.proposals multisig)
  backed : ∀ multisig data, s.multisigs multisig = some data → ∀ entry ∈ s.proposals multisig,
    entry.2.Backed acts multisig entry.1 data.signers data.threshold
  reserve : ReserveMatches held s

theorem authorized_cons {act : Act}
    (old : ∀ newer older multisig id call block,
      acts = newer ++ .executed multisig id call block :: older →
        Authorized older multisig id call.encode block)
    (new : ∀ multisig id call block, act = .executed multisig id call block →
      Authorized acts multisig id call.encode block) :
    ∀ newer older multisig id call block,
      act :: acts = newer ++ .executed multisig id call block :: older →
        Authorized older multisig id call.encode block := by
  intro newer older multisig id call block split
  cases newer with
  | nil =>
    obtain ⟨rfl, rfl⟩ := List.cons.inj split
    exact new multisig id call block rfl
  | cons first newer => exact old newer older multisig id call block (List.cons.inj split).2

theorem signerOf_ok_iff {data : MultisigData} : signerOf who multisig s = .ok data ↔
    s.multisigs multisig = some data ∧ who ∈ data.signers := by
  simp only [signerOf, bind_ok_iff, okOr_ok_iff, ensure_ok_iff]
  constructor
  · rintro ⟨_, found, _, signer, ⟨⟩⟩
    exact ⟨found, signer⟩
  · rintro ⟨found, signer⟩
    exact ⟨data, found, (), signer, rfl⟩

section Release

variable {data : MultisigData}

theorem release_signers : (data.release who).signers = data.signers := by
  unfold MultisigData.release
  split <;> rfl

theorem release_threshold : (data.release who).threshold = data.threshold := by
  unfold MultisigData.release
  split <;> rfl

theorem release_proposalNonce : (data.release who).proposalNonce = data.proposalNonce := by
  unfold MultisigData.release
  split <;> rfl

/-- The counts follow the removal of a proposal. -/
theorem release_counted {proposal : ProposalData} {others : List (ℕ × ProposalData)}
    (counted : Keyed.Histogram (fun entry => entry.2.proposer) data.proposalsPerSigner
      ((id, proposal) :: others)) :
    Keyed.Histogram (fun entry => entry.2.proposer)
      (data.release proposal.proposer).proposalsPerSigner others := by
  have lookup := counted.lookup proposal.proposer
  have more : Keyed.count (fun entry : ℕ × ProposalData => entry.2.proposer)
      ((id, proposal) :: others) proposal.proposer =
      Keyed.count (fun entry => entry.2.proposer) others proposal.proposer + 1 :=
    Keyed.count_cons_self
  rw [more, if_neg (Nat.succ_ne_zero _)] at lookup
  unfold MultisigData.release
  rw [lookup]
  exact counted.tail

end Release

theorem depositsOf_cons {entry : ℕ × ProposalData} {stored : List (ℕ × ProposalData)} :
    depositsOf who (entry :: stored) =
      (if entry.2.proposer = who then entry.2.deposit else 0) + depositsOf who stored := by
  rw [depositsOf, List.map_cons, List.sum_cons, depositsOf]

theorem depositsOf_perm {stored stored' : List (ℕ × ProposalData)} (perm : stored.Perm stored') :
    depositsOf who stored = depositsOf who stored' :=
  (perm.map _).sum_eq

namespace MultisigData.Accounted

variable {data : MultisigData} {stored : List (ℕ × ProposalData)} {proposal proposal' : ProposalData}

/-- A proposal is written again, under its id and proposer. -/
theorem replace (accounted : data.Accounted env stored) (h : stored.lookup id = some proposal)
    (proposer : proposal'.proposer = proposal.proposer) :
    data.Accounted env ((id, proposal') :: stored.filter fun entry => entry.1 ≠ id) := by
  have perm := Keyed.perm_of_lookup accounted.ids h
  have keys : (((id, proposal) :: stored.filter fun entry => entry.1 ≠ id).map
      fun entry => entry.2.proposer) =
      (((id, proposal') :: stored.filter fun entry => entry.1 ≠ id).map
        fun entry => entry.2.proposer) := by
    rw [List.map_cons, List.map_cons, proposer]
  exact {
    two_signers := accounted.two_signers
    ids := Keyed.nodup_cons_filter accounted.ids _
    fresh := List.forall_mem_cons.2 ⟨accounted.fresh (id, proposal) (Keyed.mem_of_lookup h),
      fun entry mem => accounted.fresh entry (List.mem_of_mem_filter mem)⟩
    counted := (accounted.counted.perm perm).congr keys
    total := perm.length_eq.symm.trans_le accounted.total
    perSigner := fun who => by
      have same := (Keyed.count_perm perm (k := who)).trans (Keyed.count_eq_of_map keys)
      exact same.symm.trans_le (accounted.perSigner who) }

theorem bump (accounted : data.Accounted env stored) {nonce : ℕ} (le : data.proposalNonce ≤ nonce) :
    Accounted env { data with proposalNonce := nonce } stored where
  two_signers := accounted.two_signers
  ids := accounted.ids
  fresh entry mem := (accounted.fresh entry mem).trans_le le
  counted := accounted.counted
  total := accounted.total
  perSigner := accounted.perSigner

/-- A proposal is added, under an id that none has. -/
theorem add (accounted : data.Accounted env stored) (proposal : ProposalData)
    (id_new : id ∉ stored.map Prod.fst) (lt : id < data.proposalNonce)
    (room : stored.length < env.maxTotalProposalsInStorage)
    (room_for : storedBy stored proposal.proposer <
      env.maxTotalProposalsInStorage / data.signers.length) :
    Accounted env { data with
        proposalsPerSigner := (proposal.proposer, storedBy stored proposal.proposer + 1) ::
          data.proposalsPerSigner.filter fun entry => entry.1 ≠ proposal.proposer }
      ((id, proposal) :: stored) where
  two_signers := accounted.two_signers
  ids := List.nodup_cons.2 ⟨id_new, accounted.ids⟩
  fresh := List.forall_mem_cons.2 ⟨lt, accounted.fresh⟩
  counted := accounted.counted.cons (id, proposal)
  total := room
  perSigner who := by
    rw [storedBy, Keyed.count_cons]
    split
    · next is => exact is ▸ room_for
    · exact accounted.perSigner who

end MultisigData.Accounted

namespace Kept

theorem holds (kept : Kept env held s acts) : MultisigHolds env held s acts where
  once := kept.once
  authorized := kept.authorized
  orphanless := kept.orphanless
  counted multisig data found :=
    have accounted := kept.accounted multisig data found
    ⟨accounted.counted.nodup, accounted.counted.lookup⟩
  total multisig data found := (kept.accounted multisig data found).total
  perSigner multisig data found := (kept.accounted multisig data found).perSigner
  reserve := kept.reserve

theorem start (none : ∀ multisig, s.multisigs multisig = none)
    (empty : ∀ multisig, s.proposals multisig = []) (unheld : ∀ who, held s.rest who = 0) :
    Kept env held s [] where
  once := .nil
  authorized := by simp
  orphanless multisig _ := empty multisig
  created := by simp [none]
  given := nofun
  gone := nofun
  accounted multisig data found := by
    rw [none] at found
    cases found
  backed multisig data found := by
    rw [none] at found
    cases found
  reserve := ⟨∅, fun multisig _ => empty multisig, by simpa using unheld⟩

section

variable (kept : Kept env held s acts)
include kept

/-- What leaves the pallet's storage and reserve alone. -/
theorem elsewhere {rest : σ} (same : held rest = held s.rest) (block : ℕ) : Kept env held { s with
      block := block
      rest := rest } acts where
  once := kept.once
  authorized := kept.authorized
  orphanless := kept.orphanless
  created := kept.created
  given := kept.given
  gone := kept.gone
  accounted := kept.accounted
  backed := kept.backed
  reserve := by
    obtain ⟨owners, others, sums⟩ := kept.reserve
    refine ⟨owners, others, fun who => ?_⟩
    dsimp only
    rw [same]
    exact sums who

/-- The deposits of one multisig change with the reserve. -/
theorem reserve_update {stored : List (ℕ × ProposalData)}
    (proposals : s'.proposals = Function.update s.proposals multisig stored)
    (moved : ∀ who, held s'.rest who + depositsOf who (s.proposals multisig) =
      held s.rest who + depositsOf who stored) : ReserveMatches held s' := by
  obtain ⟨owners, others, sums⟩ := kept.reserve
  refine ⟨insert multisig owners, ?_, ?_⟩
  · intro other outside
    rw [Finset.mem_insert, not_or] at outside
    rw [proposals, Function.update_of_ne outside.1]
    exact others other outside.2
  · intro who
    have update := Keyed.sum_update (depositsOf who) s.proposals
      (Finset.mem_insert_self multisig owners) stored
    have outside : multisig ∉ owners → depositsOf who (s.proposals multisig) = 0 := by
      intro missing
      rw [others multisig missing]
      rfl
    have same := Finset.sum_insert_of_eq_zero_if_notMem
      (f := fun other => depositsOf who (s.proposals other)) outside
    rw [same] at update
    have before := sums who
    have after := moved who
    rw [proposals]
    omega

/-- **One multisig changes.** Its signers and threshold stay, and its nonce does not go back. -/
theorem change {data : MultisigData}
    (found : s.multisigs multisig = some data) (data' : MultisigData)
    (stored : List (ℕ × ProposalData))
    (multisigs : s'.multisigs = Function.update s.multisigs multisig (some data'))
    (proposals : s'.proposals = Function.update s.proposals multisig stored)
    (signers : data'.signers = data.signers) (threshold : data'.threshold = data.threshold)
    (nonce : data.proposalNonce ≤ data'.proposalNonce) (accounted : data'.Accounted env stored)
    (backed : ∀ entry ∈ stored, entry.2.Backed acts multisig entry.1 data.signers data.threshold)
    (gone : ∀ id call block, .executed multisig id call block ∈ acts → id ∉ stored.map Prod.fst)
    (moved : ∀ who, held s'.rest who + depositsOf who (s.proposals multisig) =
      held s.rest who + depositsOf who stored) :
    Kept env held s' acts where
  once := kept.once
  authorized := kept.authorized
  orphanless other missing := by
    rw [multisigs, Function.update_apply] at missing
    rw [proposals, Function.update_apply]
    split at missing
    · cases missing
    · next ne =>
      rw [if_neg ne]
      exact kept.orphanless other missing
  created other signers' threshold' := by
    rw [kept.created, multisigs, Function.update_apply]
    split
    · next same =>
      subst same
      simp [found, signers, threshold]
    · rfl
  given act mem other id named := by
    obtain ⟨known, known_found, lt⟩ := kept.given act mem other id named
    rw [multisigs, Function.update_apply]
    split
    · next same =>
      subst same
      obtain rfl := Option.some.inj (found.symm.trans known_found)
      exact ⟨data', rfl, lt.trans_le nonce⟩
    · exact ⟨known, known_found, lt⟩
  gone other id call block mem := by
    rw [proposals, Function.update_apply]
    split
    · next same =>
      subst same
      exact gone id call block mem
    · exact kept.gone other id call block mem
  accounted other known known_found := by
    rw [multisigs, Function.update_apply] at known_found
    rw [proposals, Function.update_apply]
    split at known_found
    · next same =>
      obtain rfl := Option.some.inj known_found
      rw [if_pos same]
      exact accounted
    · next ne =>
      rw [if_neg ne]
      exact kept.accounted other known known_found
  backed other known known_found := by
    rw [multisigs, Function.update_apply] at known_found
    rw [proposals, Function.update_apply]
    split at known_found
    · next same =>
      obtain rfl := Option.some.inj known_found
      rw [if_pos same, same, signers, threshold]
      exact backed
    · next ne =>
      rw [if_neg ne]
      exact kept.backed other known known_found
  reserve := kept.reserve_update proposals moved

/-- **An act on a known multisig is recorded.** -/
theorem record (act : Act)
    (no_creation : ∀ multisig signers threshold, act ≠ .created multisig signers threshold)
    (given : ∀ multisig id, act.proposalId = some (multisig, id) →
      ∃ data, s.multisigs multisig = some data ∧ id < data.proposalNonce)
    (once : ∀ old ∈ acts, act.Once old)
    (executed : ∀ multisig id call block, act = .executed multisig id call block →
      id ∉ (s.proposals multisig).map Prod.fst ∧ Authorized acts multisig id call.encode block) :
    Kept env held s (act :: acts) where
  once := .cons once kept.once
  authorized := authorized_cons kept.authorized fun multisig id call block is =>
    (executed multisig id call block is).2
  orphanless := kept.orphanless
  created multisig signers threshold := by
    rw [List.mem_cons, or_iff_right (no_creation multisig signers threshold).symm]
    exact kept.created multisig signers threshold
  given := List.forall_mem_cons.2 ⟨given, kept.given⟩
  gone multisig id call block mem := by
    rcases List.mem_cons.1 mem with new | old
    · exact (executed multisig id call block new.symm).1
    · exact kept.gone multisig id call block old
  accounted := kept.accounted
  backed multisig data found entry mem :=
    (kept.backed multisig data found entry mem).mono (List.subset_cons_self act acts)
  reserve := kept.reserve

/-! ### The calls -/

/-- A new multisig. Its address was vacant, so nothing before was done in its name. -/
theorem createMultisig (reserves : Reserves env held)
    {threshold nonce : ℕ} (h : createMultisig env who s signers threshold nonce = .ok s') :
    Kept env held s' (.created (env.deriveMultisigAddress (signers.insertionSort (· ≤ ·)) threshold nonce)
      (signers.insertionSort (· ≤ ·)) threshold :: acts) := by
  simp only [Qnero.createMultisig, bind_ok_iff, ensure_ok_iff, okOr_ok_iff] at h
  obtain ⟨_, -, _, two, _, -, _, -, _, -, _, vacant, rest, paid, done⟩ := h
  obtain rfl := Except.ok.inj done
  have unmoved := reserves.withdraw _ _ _ _ paid
  set sorted := signers.insertionSort (· ≤ ·) with sorted_eq
  set address := env.deriveMultisigAddress sorted threshold nonce
  -- At a vacant address there are neither proposals nor acts.
  have proposals : s.proposals address = [] := kept.orphanless address vacant
  have unknown : ∀ signers threshold, .created address signers threshold ∉ acts := by
    intro signers threshold mem
    obtain ⟨data, found, -⟩ := (kept.created _ _ _).1 mem
    rw [vacant] at found
    cases found
  exact {
    once := by
      refine .cons ?_ kept.once
      intro old mem
      cases old with
      | created other signers' threshold' =>
        rintro rfl
        exact unknown signers' threshold' mem
      | _ => trivial
    authorized := authorized_cons kept.authorized (by simp)
    orphanless := by
      intro other missing
      dsimp only at missing
      rw [Function.update_apply] at missing
      split at missing
      · cases missing
      · exact kept.orphanless other missing
    created := by
      intro other signers' threshold'
      dsimp only
      rw [List.mem_cons, Function.update_apply]
      split
      · next same =>
        subst same
        rw [or_iff_left (unknown signers' threshold')]
        constructor
        · rintro ⟨⟩
          exact ⟨_, rfl, rfl, rfl⟩
        · rintro ⟨data, ⟨⟩, rfl, rfl⟩
          rfl
      · next ne =>
        rw [or_iff_right (fun is => ne (Act.created.inj is).1)]
        exact kept.created other signers' threshold'
    given := by
      refine List.forall_mem_cons.2 ⟨by simp [Act.proposalId], ?_⟩
      intro act mem other id named
      obtain ⟨data, found, lt⟩ := kept.given act mem other id named
      refine ⟨data, ?_, lt⟩
      dsimp only
      rw [Function.update_of_ne, found]
      rintro rfl
      rw [vacant] at found
      cases found
    gone := by
      intro other id call block mem
      exact kept.gone other id call block ((List.mem_cons.1 mem).resolve_left (by simp))
    accounted := by
      intro other data found
      dsimp only at found ⊢
      rw [Function.update_apply] at found
      split at found
      · next same =>
        obtain rfl := Option.some.inj found
        rw [same, proposals]
        refine ⟨?_, .nil, by simp, .empty, Nat.zero_le _, fun _ => Nat.zero_le _⟩
        rw [sorted_eq, List.length_insertionSort]
        exact two
      · exact kept.accounted other data found
    backed := by
      intro other data found entry mem
      dsimp only at found mem
      rw [Function.update_apply] at found
      split at found
      · next same =>
        rw [same, proposals] at mem
        cases mem
      · exact (kept.backed other data found entry mem).mono (List.subset_cons_self _ _)
    reserve := by
      obtain ⟨owners, others, sums⟩ := kept.reserve
      refine ⟨owners, others, fun who => ?_⟩
      dsimp only
      rw [unmoved]
      exact sums who }

/-- A stored proposal is a known multisig's. -/
theorem owner {proposal : ProposalData}
    (stored : s.proposal multisig id = some proposal) : ∃ data, s.multisigs multisig = some data := by
  cases found : s.multisigs multisig with
  | some data => exact ⟨data, rfl⟩
  | none =>
    rw [MultisigState.proposal, kept.orphanless multisig found] at stored
    cases stored

theorem deposits_le (multisig who : AccountId) :
    depositsOf who (s.proposals multisig) ≤ held s.rest who := by
  obtain ⟨owners, others, sums⟩ := kept.reserve
  rw [sums who]
  by_cases mem : multisig ∈ owners
  · exact Finset.single_le_sum (f := fun other => depositsOf who (s.proposals other))
      (fun _ _ => Nat.zero_le _) mem
  · rw [others multisig mem]
    exact Nat.zero_le _

/-- A proposal goes, and the proposer has the deposit back. -/
theorem removed (reserves : Reserves env held)
    {proposal : ProposalData} (stored : s.proposal multisig id = some proposal) :
    Kept env held
      (s.removeProposalAndReturnDeposit env multisig id proposal.proposer proposal.deposit) acts := by
  obtain ⟨data, found⟩ := kept.owner stored
  have accounted := kept.accounted multisig data found
  have perm := Keyed.perm_of_lookup accounted.ids stored
  have sublist : ((s.proposals multisig).filter fun entry => entry.1 ≠ id).Sublist
    (s.proposals multisig) := List.filter_sublist
  refine kept.change found (data.release proposal.proposer)
    ((s.proposals multisig).filter fun entry => entry.1 ≠ id) ?_ rfl ?_ ?_ ?_ ?_ ?_ ?_ ?_
  · simp only [MultisigState.removeProposalAndReturnDeposit, found, Option.map_some]
  · exact release_signers
  · exact release_threshold
  · exact release_proposalNonce.ge
  · exact {
      two_signers := (congrArg List.length release_signers).ge.trans' accounted.two_signers
      ids := Keyed.nodup_filter accounted.ids _
      fresh := fun entry mem =>
        (accounted.fresh entry (sublist.subset mem)).trans_eq release_proposalNonce.symm
      counted := release_counted (accounted.counted.perm perm)
      total := sublist.length_le.trans accounted.total
      perSigner := fun who => by
        rw [release_signers]
        exact (sublist.countP_le).trans (accounted.perSigner who) }
  · intro entry mem
    exact kept.backed multisig data found entry (sublist.subset mem)
  · intro other call block executed mem
    exact kept.gone multisig other call block executed ((sublist.map _).subset mem)
  · intro who
    -- The deposit that is returned is among those held for the proposer.
    have enough := kept.deposits_le multisig who
    rw [depositsOf_perm perm, depositsOf_cons] at enough ⊢
    dsimp only [MultisigState.removeProposalAndReturnDeposit] at enough ⊢
    rw [reserves.unreserve, Function.update_apply]
    by_cases same : who = proposal.proposer
    · subst same
      rw [if_pos rfl] at enough ⊢
      rw [if_pos rfl]
      omega
    · rw [if_neg same, if_neg (Ne.symm same), Nat.zero_add]

theorem cancel (reserves : Reserves env held)
    (h : cancel env who multisig s id = .ok s') : Kept env held s' acts := by
  simp only [Qnero.cancel, bind_ok_iff, okOr_ok_iff] at h
  obtain ⟨proposal, stored, _, -, _, -, done⟩ := h
  obtain rfl := Except.ok.inj done
  exact kept.removed reserves stored

theorem removeExpired (reserves : Reserves env held)
    (h : removeExpired env who multisig s id = .ok s') : Kept env held s' acts := by
  simp only [Qnero.removeExpired, bind_ok_iff, okOr_ok_iff] at h
  obtain ⟨data, -, proposal, stored, _, -, _, -, done⟩ := h
  obtain rfl := Except.ok.inj done
  exact kept.removed reserves stored

end

/-- Entries of the caller, all still stored, are removed one after another: what is left of them is
stored, since their ids differ. -/
theorem removedAll (reserves : Reserves env held) : ∀ (entries : List (ℕ × ProposalData))
    {s : MultisigState σ}, Kept env held s acts → (entries.map Prod.fst).Nodup →
      (∀ entry ∈ entries, s.proposal multisig entry.1 = some entry.2 ∧ entry.2.proposer = who) →
      Kept env held (entries.foldl (fun s entry =>
        s.removeProposalAndReturnDeposit env multisig entry.1 who entry.2.deposit) s) acts
  | [], _, kept, _, _ => kept
  | entry :: entries, s, kept, nodup, stored => by
    obtain ⟨⟨here, is⟩, there⟩ := List.forall_mem_cons.1 stored
    rw [List.map_cons, List.nodup_cons] at nodup
    rw [List.foldl_cons]
    refine removedAll reserves entries (is ▸ kept.removed reserves here) nodup.2 ?_
    intro other mem
    refine ⟨?_, (there other mem).2⟩
    have ne : other.1 ≠ entry.1 := fun same => nodup.1 (same ▸ List.mem_map_of_mem mem)
    rw [← (there other mem).1, MultisigState.proposal, MultisigState.proposal]
    dsimp only [MultisigState.removeProposalAndReturnDeposit]
    rw [Function.update_self]
    exact Keyed.lookup_filter_ne ne

section

variable (kept : Kept env held s acts)
include kept

theorem claimDeposits (reserves : Reserves env held)
    (h : claimDeposits env who multisig s = .ok s') : Kept env held s' acts := by
  simp only [Qnero.claimDeposits, bind_ok_iff, signerOf_ok_iff] at h
  obtain ⟨data, ⟨found, -⟩, done⟩ := h
  obtain rfl := Except.ok.inj done
  have ids := (kept.accounted multisig _ found).ids
  refine removedAll reserves _ kept (Keyed.nodup_filter ids _) ?_
  intro entry mem
  obtain ⟨inside, expired⟩ := List.mem_filter.1 mem
  exact ⟨Keyed.lookup_of_mem ids inside, (of_decide_eq_true expired).1⟩

/-- The submission is recorded first, so that the new approval is backed. -/
theorem approve (h : approve env who multisig s id payload = .ok s') :
    Kept env held s' (.approved multisig id who payload :: acts) := by
  simp only [Qnero.approve, bind_ok_iff, signerOf_ok_iff, okOr_ok_iff, ensure_ok_iff] at h
  obtain ⟨data, ⟨found, signer⟩, proposal, stored, _, same, _, -, _, absent, _, -, done⟩ := h
  obtain rfl := Except.ok.inj done
  have recorded : Kept env held s (.approved multisig id who payload :: acts) :=
    kept.record _ (by simp) (by simp [Act.proposalId]) (fun _ _ => trivial) (by simp)
  have accounted := kept.accounted multisig _ found
  have perm := Keyed.perm_of_lookup accounted.ids stored
  have old := recorded.backed multisig _ found (id, proposal) (Keyed.mem_of_lookup stored)
  refine recorded.change found data _ ?_ rfl rfl rfl le_rfl ?_ ?_ ?_ ?_
  · exact (found ▸ Function.update_eq_self multisig s.multisigs).symm
  · exact accounted.replace stored rfl
  · refine List.forall_mem_cons.2 ⟨?_, ?_⟩
    · refine ⟨old.proposed, ?_, ?_, ?_⟩
      · exact List.nodup_append.2 ⟨old.nodup, List.nodup_singleton who, by
          intro one mem other is
          rw [List.mem_singleton.1 is]
          rintro rfl
          exact absent mem⟩
      · refine List.forall_mem_append.2 ⟨old.submitted, List.forall_mem_singleton.2 ⟨signer, ?_⟩⟩
        exact .inr (List.mem_cons.2 (.inl (same ▸ rfl)))
      · dsimp only
        intro reached
        split at reached
        · next now => exact now.2
        · rw [List.length_append]
          exact (old.reached reached).trans (Nat.le_add_right _ _)
    · intro entry mem
      exact recorded.backed multisig _ found entry (List.mem_of_mem_filter mem)
  · intro other call block executed mem
    have keys : other ∈ (s.proposals multisig).map Prod.fst := by
      rw [(perm.map Prod.fst).mem_iff]
      exact mem
    exact recorded.gone multisig other call block executed keys
  · intro other
    rw [depositsOf_perm perm, depositsOf_cons, depositsOf_cons]
    rfl

theorem propose (reserves : Reserves env held)
    (cap : env.maxTotalProposalsInStorage ≤ u32Max) {expiry : ℕ}
    (h : propose env who multisig s payload expiry = .ok s') :
    ∃ data, s.multisigs multisig = some data ∧
      Kept env held s' (.proposed multisig data.proposalNonce who payload expiry :: acts) := by
  simp only [Qnero.propose, bind_ok_iff, signerOf_ok_iff, okOr_ok_iff, ensure_ok_iff] at h
  obtain ⟨data, ⟨found, signer⟩, _, room, _, room_for, _, -, _, -, decoded, -, _, -, _, -, _,
    -, paid, withdrawn, rest, reserved, nonce, next, counts, inserted, done⟩ := h
  obtain rfl := Except.ok.inj done
  obtain ⟨rfl, -⟩ := checkedAdd_eq_some.1 next
  have accounted := kept.accounted multisig data found
  have fresh : data.proposalNonce ∉ (s.proposals multisig).map Prod.fst := by
    intro mem
    obtain ⟨entry, inside, is⟩ := List.mem_map.1 mem
    exact (accounted.fresh entry inside).ne is
  -- The nonce moves on, the proposal is recorded under the old one, and then stored.
  let bump : MultisigState σ := { s with
    multisigs := Function.update s.multisigs multisig
      (some { data with proposalNonce := data.proposalNonce + 1 }) }
  have bumped : Kept env held bump acts :=
    kept.change found _ _ rfl (Function.update_eq_self multisig s.proposals).symm rfl rfl
      (Nat.le_succ _) (accounted.bump (Nat.le_succ _)) (kept.backed multisig data found)
      (kept.gone multisig) fun _ => rfl
  have unused : ∀ act ∈ acts, act.proposalId ≠ some (multisig, data.proposalNonce) := by
    intro act mem named
    obtain ⟨known, known_found, lt⟩ := kept.given act mem _ _ named
    obtain rfl := Option.some.inj (found.symm.trans known_found)
    exact lt.false
  have recorded := bumped.record (.proposed multisig data.proposalNonce who payload expiry)
    (by simp) (by
      rintro _ _ ⟨⟩
      exact ⟨_, Function.update_self .., Nat.lt_succ_self _⟩)
    (by
      intro old mem
      cases old with
      | proposed other id who' payload' expiry' =>
        intro same
        exact unused _ mem (congrArg some same.symm)
      | _ => trivial) (by simp)
  have mine : data.countOf who = storedBy (s.proposals multisig) who := accounted.counted.getD
  have active : data.activeProposals = (s.proposals multisig).length := accounted.counted.total
  rw [if_neg (by have := accounted.two_signers; omega), mine] at room_for
  have counts_eq : counts = (who, storedBy (s.proposals multisig) who + 1) ::
      data.proposalsPerSigner.filter fun entry => entry.1 ≠ who := by
    have few := Nat.div_le_self env.maxTotalProposalsInStorage data.signers.length
    rw [mine, satAdd_eq (by omega)] at inserted
    unfold tryInsert at inserted
    split at inserted
    · exact (Option.some.inj inserted).symm
    · cases inserted
  let data' := { data with
    proposalNonce := data.proposalNonce + 1
    proposalsPerSigner := counts }
  refine ⟨data, found,
    recorded.change (Function.update_self ..) data' _ ?_ rfl rfl rfl le_rfl ?_ ?_ ?_ ?_⟩
  · exact (Function.update_idem ..).symm
  · dsimp only [data']
    rw [counts_eq, Keyed.filter_of_notMem fresh]
    exact (accounted.bump (Nat.le_succ _)).add ⟨who, _, _, _, _, _⟩ fresh (Nat.lt_succ_self _)
      (active ▸ room) room_for
  · refine List.forall_mem_cons.2 ⟨?_, ?_⟩
    · refine ⟨List.mem_cons_self, List.nodup_singleton who, ?_, ?_⟩
      · exact List.forall_mem_singleton.2 ⟨signer, .inl ⟨expiry, List.mem_cons_self⟩⟩
      · dsimp only
        intro reached
        split at reached
        · next one => exact one
        · cases reached
    · intro entry mem
      exact (kept.backed multisig data found entry (List.mem_of_mem_filter mem)).mono
        (List.subset_cons_self _ _)
  · intro id call block executed mem
    have before := (List.mem_cons.1 executed).resolve_left (by simp)
    rw [Keyed.filter_of_notMem fresh, List.map_cons, List.mem_cons] at mem
    rcases mem with rfl | old
    · exact unused _ before rfl
    · exact kept.gone multisig id call block before old
  · intro other
    dsimp only [bump, MultisigState.putProposal]
    rw [Keyed.filter_of_notMem fresh, depositsOf_cons, reserves.reserve _ _ _ _ reserved,
      reserves.withdraw _ _ _ _ withdrawn, Function.update_apply]
    dsimp only
    by_cases same : other = who
    · subst same
      rw [if_pos rfl, if_pos rfl]
      omega
    · rw [if_neg same, if_neg (Ne.symm same)]
      omega

/-- The checks of an execution find it authorised, and the proposal is gone before the call is
dispatched. -/
theorem executeChecks (reserves : Reserves env held)
    {call : RuntimeCall} (h : executeChecks env who multisig s id call = .ok s') :
    Kept env held s' (.executed multisig id call s.block :: acts) := by
  simp only [Qnero.executeChecks, bind_ok_iff, signerOf_ok_iff, okOr_ok_iff, ensure_ok_iff] at h
  obtain ⟨data, ⟨found, -⟩, proposal, stored, _, approved, _, alive, _, same, _, -, _, -, done⟩ := h
  obtain rfl := Except.ok.inj done
  have inside := Keyed.mem_of_lookup stored
  have backed := kept.backed multisig data found (id, proposal) inside
  have removed := kept.removed reserves stored
  refine removed.record _ (by simp) ?_ ?_ ?_
  · rintro _ _ ⟨⟩
    exact removed.given _ backed.proposed multisig id rfl
  · intro old mem
    cases old with
    | executed other id' call' block' =>
      intro same
      obtain ⟨rfl, rfl⟩ := Prod.mk.inj same
      exact kept.gone _ _ call' block' mem (List.mem_map_of_mem inside)
    | _ => trivial
  · rintro _ _ _ _ ⟨⟩
    refine ⟨?_, data.signers, data.threshold, proposal.proposer, proposal.expiry, proposal.approvals,
      (kept.created ..).2 ⟨data, found, rfl, rfl⟩, ?_, alive, backed.nodup, backed.reached approved, ?_⟩
    · dsimp only [MultisigState.removeProposalAndReturnDeposit]
      rw [Function.update_self]
      exact Keyed.notMem_filter
    · rw [same]
      exact backed.proposed
    · rw [same]
      exact backed.submitted

theorem otherDispatch (reserves : Reserves env held)
    {origin : RawOrigin} {call : RuntimeCall} (h : otherDispatch env s origin call = .ok s') :
    Kept env held s' acts := by
  unfold Qnero.otherDispatch at h
  split at h
  · next rest done =>
    obtain rfl := Except.ok.inj h
    exact kept.elsewhere (reserves.otherCall _ _ _ _ done) s.block
  · cases h

end

end Kept

/-! ## Dispatch -/

theorem kept_leafDispatch (reserves : Reserves env held) (kept : Kept env held s acts)
    {call : LeafCall} {args : List UInt8} (h : leafDispatch env s origin call args = .ok s') :
    Kept env held s' (leafActs env origin call args s ++ acts) := by
  unfold leafDispatch at h
  split at h
  · simp only [bind_ok_iff, okOr_ok_iff, mapError_ok_iff] at h
    obtain ⟨⟨signers, threshold, nonce⟩, decoded, done⟩ := h
    simp only [leafActs, decoded, done]
    exact kept.createMultisig reserves done
  · simp only [bind_ok_iff, mapError_ok_iff] at h
    obtain ⟨_, -, done⟩ := h
    exact kept.cancel reserves done
  · simp only [bind_ok_iff, mapError_ok_iff] at h
    obtain ⟨_, -, done⟩ := h
    exact kept.removeExpired reserves done
  · simp only [bind_ok_iff, mapError_ok_iff] at h
    obtain ⟨_, -, done⟩ := h
    exact kept.claimDeposits reserves done
  · cases h
  · cases h
  · cases h
  · cases h
  · next creates _ _ _ _ _ _ _ =>
    have none : leafActs env origin call args s = [] := by
      unfold leafActs
      split
      · exact (creates rfl).elim
      · rfl
    rw [none]
    exact kept.otherDispatch reserves h

theorem leafActs_of_error {call : LeafCall} {args : List UInt8} {e : CallError}
    (h : leafDispatch env s origin call args = .error e) :
    leafActs env origin call args s = [] := by
  unfold leafActs
  split
  · next who =>
    split
    · rfl
    · next signers threshold nonce decoded =>
      split
      · rfl
      · next done =>
        simp only [leafDispatch, decoded, okOr] at h
        change (createMultisig env who s signers threshold nonce).mapError CallError.multisig =
          .error e at h
        rw [done] at h
        cases h
  · rfl

/-- A failed call did nothing. -/
theorem actsOf_of_error {call : RuntimeCall} {e : CallError}
    (h : (dispatchBypassFilter env origin call s).result = .error e) :
    actsOf env origin call s = [] := by
  cases call with
  | leaf call args =>
    unfold dispatchBypassFilter at h
    unfold actsOf
    exact leafActs_of_error h
  | shielded call => rw [actsOf]
  | propose | approve =>
    unfold dispatchBypassFilter at h
    unfold actsOf
    split
    · split
      · rfl
      · next done =>
        simp only [done] at h
        cases h
    · rfl
    · rfl
  | batchAll calls =>
    unfold actsOf
    rw [h]
  | execute multisig id call =>
    unfold dispatchBypassFilter at h
    unfold actsOf
    split
    · split
      · rfl
      · next done =>
        simp only [done] at h
        split at h <;> cases h
    · rfl
    · rfl

mutual

/-- The induction is on the call. An execution is recorded, and its proposal gone, before what it
dispatches is looked at. -/
theorem kept_dispatchBypassFilter (reserves : Reserves env held)
    (cap : env.maxTotalProposalsInStorage ≤ u32Max) (origin : RawOrigin) :
    ∀ (call : RuntimeCall) {s s' : MultisigState σ} {acts : List Act}, Kept env held s acts →
      (dispatchBypassFilter env origin call s).result = .ok s' →
      Kept env held s' (actsOf env origin call s ++ acts)
  | .leaf call args, s, s', acts, kept, h => by
    unfold dispatchBypassFilter at h
    unfold actsOf
    exact kept_leafDispatch reserves kept h
  | .shielded call, s, s', acts, kept, h => by
    unfold dispatchBypassFilter at h
    unfold actsOf
    exact kept.otherDispatch reserves h
  | .propose multisig payload expiry, s, s', acts, kept, h => by
    unfold dispatchBypassFilter at h
    unfold actsOf
    split at h
    · have done := mapError_ok_iff.1 h
      obtain ⟨data, found, after⟩ := kept.propose reserves cap done
      simp only [done, found]
      exact after
    · cases h
    · cases h
  | .approve multisig id payload, s, s', acts, kept, h => by
    unfold dispatchBypassFilter at h
    unfold actsOf
    split at h
    · have done := mapError_ok_iff.1 h
      simp only [done]
      exact kept.approve done
    · cases h
    · cases h
  | .batchAll calls, s, s', acts, kept, h => by
    have each : (dispatchAll env origin calls s).result = .ok s' := by
      unfold dispatchBypassFilter at h
      split at h
      · cases h
      all_goals
        split at h
        · cases h
        · exact h
    unfold actsOf
    rw [h]
    exact kept_dispatchAll reserves cap origin calls kept each
  | .execute multisig id call, s, s', acts, kept, h => by
    unfold dispatchBypassFilter at h
    unfold actsOf
    split at h
    · next who =>
      cases checked : executeChecks env who multisig s id call with
      | error e =>
        simp only [checked] at h
        cases h
      | ok removed =>
        simp only [checked] at h ⊢
        have executed := kept.executeChecks reserves checked
        rw [List.append_assoc, List.singleton_append]
        split at h
        · next passes =>
          obtain rfl := Except.ok.inj h
          rw [if_pos passes]
          unfold Outcome.state
          split
          · next after done =>
            exact kept_dispatchBypassFilter reserves cap (.signed multisig) call executed done
          · -- The execution stands, although the call it executed failed.
            next failed =>
            rw [actsOf_of_error failed]
            exact executed
        · next passes =>
          obtain rfl := Except.ok.inj h
          rw [if_neg passes]
          exact executed
    · cases h
    · cases h

theorem kept_dispatchAll (reserves : Reserves env held)
    (cap : env.maxTotalProposalsInStorage ≤ u32Max) (origin : RawOrigin) :
    ∀ (calls : List RuntimeCall) {s s' : MultisigState σ} {acts : List Act}, Kept env held s acts →
      (dispatchAll env origin calls s).result = .ok s' →
      Kept env held s' (actsOfAll env origin calls s ++ acts)
  | [], s, s', acts, kept, h => by
    unfold dispatchAll at h
    unfold actsOfAll
    obtain rfl := Except.ok.inj h
    exact kept
  | call :: calls, s, s', acts, kept, h => by
    unfold dispatchAll at h
    split at h
    · cases h
    · split at h
      · cases h
      · dsimp only at h
        split at h
        · cases h
        · next after done =>
          have first := kept_dispatchBypassFilter reserves cap origin call kept done
          have recorded : actsOfAll env origin (call :: calls) s =
              actsOfAll env origin calls after ++ actsOf env origin call s := by
            conv_lhs => unfold actsOfAll
            simp only [done]
          rw [recorded, List.append_assoc]
          exact kept_dispatchAll reserves cap origin calls first h

end

/-! ## Runs -/

/-- What happens elsewhere leaves the pallet's reserves alone. -/
def RecordedRun.KeepsReserves (held : σ → AccountId → ℕ) (run : RecordedRun σ) :
    MultisigEvent σ → Prop
  | .extrinsic _ => True
  | .elsewhere _ rest => held rest = held run.state.rest

theorem kept_step (reserves : Reserves env held) (cap : env.maxTotalProposalsInStorage ≤ u32Max)
    {run : RecordedRun σ} {event : MultisigEvent σ} (kept : Kept env held run.state run.acts)
    (elsewhere : run.KeepsReserves held event) :
    Kept env held (run.step env event).state (run.step env event).acts := by
  cases event with
  | elsewhere block rest => exact kept.elsewhere elsewhere block
  | extrinsic x =>
    dsimp only [RecordedRun.step, MultisigRun.step, MultisigEvent.acts, dispatch]
    split
    · unfold Outcome.state
      split
      · next after done =>
        exact kept_dispatchBypassFilter reserves cap x.preamble.origin x.call kept done
      · next failed =>
        rw [actsOf_of_error failed]
        exact kept
    · exact kept

/-- **Every execution is authorised**, and the counters and reserves match the stored proposals: in
every run of the pallet from its empty storage, by any accounts in any order, with executions that
call the pallet again. -/
theorem multisig_authorization (reserves : Reserves env held)
    (cap : env.maxTotalProposalsInStorage ≤ u32Max) (start : MultisigState σ)
    (none : ∀ multisig, start.multisigs multisig = none)
    (empty : ∀ multisig, start.proposals multisig = [])
    (unheld : ∀ who, held start.rest who = 0) (events : List (MultisigEvent σ))
    (elsewhere : Along (RecordedRun.step env) (RecordedRun.KeepsReserves held) ⟨⟨start, []⟩, []⟩
      events) :
    MultisigHolds env held (events.foldl (RecordedRun.step env) ⟨⟨start, []⟩, []⟩).state
      (events.foldl (RecordedRun.step env) ⟨⟨start, []⟩, []⟩).acts :=
  (foldl_invariant (P := fun run : RecordedRun σ => Kept env held run.state run.acts)
    (fun _ _ kept allowed => kept_step reserves cap kept allowed) events ⟨⟨start, []⟩, []⟩
    (.start none empty unheld) elsewhere).holds

end Invariant

namespace Sample

/-- A multisig that creates another. -/
def creation : RuntimeCall := .leaf .createMultisig [1]

/-- The rest of the state is what the pallet has reserved. -/
def reservingEnv : MultisigEnv (AccountId → ℕ) where
  decodeWithDepthLimit payload := if payload = creation.encode then some creation else none
  weightExceeds _ := false
  maxSigners := 10
  maxTotalProposalsInStorage := 10
  multisigFee := 1
  proposalDeposit := 7
  proposalFee := 1
  signerStepFactor := multisigEnv.signerStepFactor
  maxExpiryDuration := 100
  batchedCallsLimit := 10
  deriveMultisigAddress _ _ nonce := account (.ofNat (8 + nonce))
  createMultisigArgs args := some ([account 2, account 1], 2, args.length)
  proposalArgs _ := none
  claimDepositsArgs _ := none
  withdraw _ _ := some
  reserve who amount held := some (Function.update held who (held who + amount))
  unreserve who amount held := Function.update held who (held who - amount)
  isCallAllowed _ _ _ := true
  otherCall _ _ held := .ok held

theorem reserves_reservingEnv : Reserves reservingEnv id where
  withdraw := by
    rintro _ _ _ _ ⟨⟩
    rfl
  reserve := by
    rintro _ _ _ _ ⟨⟩
    rfl
  unreserve _ _ _ := rfl
  otherCall := by
    rintro _ _ _ _ ⟨⟩
    rfl

def noMultisigs : MultisigState (AccountId → ℕ) where
  multisigs _ := none
  proposals _ := []
  block := 1
  rest _ := 0

def sentBy (who : AccountId) (call : RuntimeCall) : MultisigEvent (AccountId → ℕ) :=
  .extrinsic ⟨.signed who signature (extensions 0 (Nat.zero_le _)), call⟩

def creatingEvents : List (MultisigEvent (AccountId → ℕ)) :=
  [sentBy (account 1) (.leaf .createMultisig []),
    sentBy (account 1) (.propose (account 8) creation.encode 50),
    sentBy (account 2) (.batchAll [.approve (account 8) 0 creation.encode,
      .execute (account 8) 0 creation]),
    sentBy (account 1) (.execute (account 8) 0 creation)]

end Sample

/-- A run in which an execution creates a multisig, and a second execution of it fails. -/
theorem multisig_authorization_reentered :
    (Sample.creatingEvents.foldl (RecordedRun.step Sample.reservingEnv)
      ⟨⟨Sample.noMultisigs, []⟩, []⟩).acts =
      [.created (Sample.account 9) [Sample.account 1, Sample.account 2] 2,
        .executed (Sample.account 8) 0 Sample.creation 1,
        .approved (Sample.account 8) 0 (Sample.account 2) Sample.creation.encode,
        .proposed (Sample.account 8) 0 (Sample.account 1) Sample.creation.encode 50,
        .created (Sample.account 8) [Sample.account 1, Sample.account 2] 2] ∧
    MultisigHolds Sample.reservingEnv id
      (Sample.creatingEvents.foldl (RecordedRun.step Sample.reservingEnv)
        ⟨⟨Sample.noMultisigs, []⟩, []⟩).state
      (Sample.creatingEvents.foldl (RecordedRun.step Sample.reservingEnv)
        ⟨⟨Sample.noMultisigs, []⟩, []⟩).acts :=
  ⟨rfl, multisig_authorization Sample.reserves_reservingEnv (by decide) Sample.noMultisigs
    (fun _ => rfl) (fun _ => rfl) (fun _ => rfl) Sample.creatingEvents
    ⟨trivial, trivial, trivial, trivial, trivial⟩⟩

end Qnero
