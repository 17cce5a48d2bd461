import Qnero.Batch.Verifier
import Qnero.Shielded.Atomic

/-!
# The gates of a settlement

A settlement is checked three times: when a node admits it to its pool, when a block includes it,
and when the block executes it. The gates parse, plan, verify and bind the payload in different
orders and map the failures differently. `preDispatch_eq` and `preDispatch_ok_iff` say that they
agree all the same, because a verified proof parses to the bundle the plan was made for.
-/

namespace Qnero

open Machine

/-! ## The verification pipeline -/

/-- The pallet's cap on a serialized proof, below the verifier's own. -/
def maxProofBytes : ℕ := 512 * 1024

def unsignedSettlementPriority : ℕ := 1

/-- The verifiers the runtime embeds; `none` where the artifact does not load. -/
structure Verifiers where
  privateBatch : Option QneroPrivateBatchVerifier
  publicBatch : Option QneroPublicBatchVerifier

/-- Each layer that refuses a proof has its own error. -/
def proofError : ProofRejection → Error
  | .tooLarge => .proofTooLarge
  | .deserialization => .proofDeserializationFailed
  | .nonCanonicalEncoding => .nonCanonicalProofEncoding
  | .publicInputLayout => .invalidPublicInputs
  | .verification => .proofVerificationFailed

/-- The size gate, the verifier, its reading of the proof, and the bundle of what was read. -/
def readBundle {V : Type 1} {α : Type} (verifier : Option V)
    (read : V → List UInt8 → Except ProofRejection α) (bundle : α → SettlementBundle)
    (proof : List UInt8) : Except Error SettlementBundle := do
  ensure (proof.length ≤ maxProofBytes) .proofTooLarge
  match verifier with
  | none => .error .verifierNotAvailable
  | some loaded =>
    let inputs ← (read loaded proof).mapError proofError
    .ok (bundle inputs)

namespace Verifiers

variable (v : Verifiers)

def preValidatePrivateBatch : List UInt8 → Except Error SettlementBundle :=
  readBundle v.privateBatch QneroPrivateBatchVerifier.parseProofBytes
    SettlementBundle.fromPrivateBatch

def validatePrivateBatch : List UInt8 → Except Error SettlementBundle :=
  readBundle v.privateBatch QneroPrivateBatchVerifier.verifyProofBytes
    SettlementBundle.fromPrivateBatch

def preValidatePublicBatch : List UInt8 → Except Error SettlementBundle :=
  readBundle v.publicBatch QneroPublicBatchVerifier.parseProofBytes
    SettlementBundle.fromPublicBatch

def validatePublicBatch : List UInt8 → Except Error SettlementBundle :=
  readBundle v.publicBatch QneroPublicBatchVerifier.verifyProofBytes
    SettlementBundle.fromPublicBatch

end Verifiers

/-! ## Calls -/

inductive RawOrigin where
  | root
  | signed (who : AccountId)
  | none

/-- The calls of the shielded pallet. -/
inductive ShieldedCall where
  | submitPrivateBatch (proof : List UInt8) (outputs : List ShieldedOutput)
  | submitPublicBatch (proof : List UInt8) (outputs : List ShieldedOutput)
  | shield (value : ℕ) (inner : Hash256) (ciphertext : List UInt8)
  | coinbase (inner : Hash256) (ciphertext : List UInt8)

/-- The two unsigned calls that settle. -/
def ShieldedCall.isSettlement : ShieldedCall → Bool
  | .submitPrivateBatch .. | .submitPublicBatch .. => true
  | .shield .. | .coinbase .. => false

def ensureNone : RawOrigin → Except DispatchError Unit
  | .none => .ok ()
  | .root | .signed _ => .error .badOrigin

def ensureSigned : RawOrigin → Except DispatchError AccountId
  | .signed who => .ok who
  | .root | .none => .error .badOrigin

section

variable (v : Verifiers) (H : Poseidon2) (cfg : Config)

/-- Both submissions: read the bundle off a verified proof, then settle it. -/
def submitBatch (verified : Except Error SettlementBundle) (origin : RawOrigin)
    (outputs : List ShieldedOutput) : Runtime Unit := do
  Call.lift (ensureNone origin)
  let bundle ← Call.lift (orShielded verified)
  settle H cfg bundle outputs

def submitPrivateBatch (origin : RawOrigin) (proof : List UInt8) (outputs : List ShieldedOutput) :
    Runtime Unit :=
  submitBatch H cfg (v.validatePrivateBatch proof) origin outputs

def submitPublicBatch (origin : RawOrigin) (proof : List UInt8) (outputs : List ShieldedOutput) :
    Runtime Unit :=
  submitBatch H cfg (v.validatePublicBatch proof) origin outputs

/-- The dispatch of a call under an origin. -/
def ShieldedCall.body (origin : RawOrigin) : ShieldedCall → Runtime Unit
  | .submitPrivateBatch proof outputs => Qnero.submitPrivateBatch v H cfg origin proof outputs
  | .submitPublicBatch proof outputs => Qnero.submitPublicBatch v H cfg origin proof outputs
  | .shield value inner ciphertext => do
    let who ← Call.lift (ensureSigned origin)
    Qnero.shield H cfg who value inner ciphertext
  | .coinbase inner ciphertext => do
    Call.lift (ensureNone origin)
    Qnero.coinbase H inner ciphertext

end

/-! ## The validity gates -/

inductive InvalidTransaction where
  | call
  | exhaustsResources
deriving DecidableEq

/-- What the pool keeps of an admitted transaction. A tag is the prefix and the hash under it. -/
structure ValidTransaction where
  provides : List (String × Hash256)
  priority : ℕ
  longevity : ℕ
  propagate : Bool

/-- A full block says nothing about the submission, so it defers; every other failure refuses. -/
def settlementPlanError : Error → InvalidTransaction
  | .tooManyOutputsInBlock => .exhaustsResources
  | _ => .call

def orCall {α : Type} (x : Except Error α) : Except InvalidTransaction α :=
  x.mapError fun _ => .call

/-- The segments in order, each by its slot count and its sorted nullifiers. -/
def settlementTagPreimage (bundle : SettlementBundle) : List UInt8 :=
  u32LeBytes bundle.segments.length ++ bundle.segments.flatMap fun segment =>
    u32LeBytes segment.slots.length ++
      ((nullifiersOf segment.slots).insertionSort (· ≤ ·)).flatMap Hash256.toBytes

def settlementProvidesTag (blake2 : List UInt8 → Hash256) (bundle : SettlementBundle) : Hash256 :=
  blake2 (settlementTagPreimage bundle)

def validSettlement (blake2 : List UInt8 → Hash256) (tagPrefix : String)
    (bundle : SettlementBundle) : ValidTransaction where
  provides := [(tagPrefix, settlementProvidesTag blake2 bundle)]
  priority := unsignedSettlementPriority
  longevity := 5
  propagate := true

section

variable (v : Verifiers) (blake2 : List UInt8 → Hash256) (H : Poseidon2) (cfg : Config) (c : Chain)

/-- Pool admission: plan what parses, then verify, then bind the payload. -/
def admitBatch (parsed verified : Except Error SettlementBundle) (outputs : List ShieldedOutput) :
    Except InvalidTransaction SettlementBundle := do
  let bundle ← orCall parsed
  let _ ← (planSettlement cfg c bundle outputs).mapError settlementPlanError
  let verified ← orCall verified
  orCall (bindPayload H verified outputs)
  .ok verified

def validateUnsigned : ShieldedCall → Except InvalidTransaction ValidTransaction
  | .submitPrivateBatch proof outputs => do
    let bundle ← admitBatch H cfg c (v.preValidatePrivateBatch proof) (v.validatePrivateBatch proof)
      outputs
    .ok (validSettlement blake2 "QneroPrivateBatch" bundle)
  | .submitPublicBatch proof outputs => do
    let bundle ← admitBatch H cfg c (v.preValidatePublicBatch proof) (v.validatePublicBatch proof)
      outputs
    .ok (validSettlement blake2 "QneroPublicBatch" bundle)
  | .shield .. | .coinbase .. => .error .call

/-- Block inclusion: plan what parses, then verify and check the whole settlement again. -/
def includeBatch (parsed verified : Except Error SettlementBundle)
    (outputs : List ShieldedOutput) : Except InvalidTransaction Unit := do
  let bundle ← orCall parsed
  let _ ← (planSettlement cfg c bundle outputs).mapError settlementPlanError
  let bundle ← orCall verified
  let _ ← orCall (checkSettlement H cfg c bundle outputs)
  .ok ()

def preDispatch : ShieldedCall → Except InvalidTransaction Unit
  | .coinbase .. => .ok ()
  | .submitPrivateBatch proof outputs =>
    includeBatch H cfg c (v.preValidatePrivateBatch proof) (v.validatePrivateBatch proof) outputs
  | .submitPublicBatch proof outputs =>
    includeBatch H cfg c (v.preValidatePublicBatch proof) (v.validatePublicBatch proof) outputs
  | .shield .. => .error .call

end

/-! ## A verified proof parses -/

/-- Two readings of one proof, without and with the verification. -/
structure Readings (parsed verified : Except Error SettlementBundle) : Prop where
  parsed_of_verified : ∀ bundle, verified = .ok bundle → parsed = .ok bundle
  fromFelts : ∀ bundle, verified = .ok bundle → bundle.FromFelts

variable {bundle : SettlementBundle}

theorem readBundle_ok_iff {V : Type 1} {α : Type} {verifier : Option V}
    {read : V → List UInt8 → Except ProofRejection α} {toBundle : α → SettlementBundle}
    {proof : List UInt8} :
    readBundle verifier read toBundle proof = .ok bundle ↔
      proof.length ≤ maxProofBytes ∧ ∃ w, verifier = some w ∧
        ∃ inputs, read w proof = .ok inputs ∧ toBundle inputs = bundle := by
  cases verifier with
  | none => simp [readBundle, bind_ok_iff]
  | some loaded => simp [readBundle, bind_ok_iff, ensure_ok_iff, mapError_ok_iff]

/-- If whatever the second reading accepts the first reads the same way, so do the bundles. -/
theorem readings_of_read {V : Type 1} {α : Type} {verifier : Option V}
    {parse verify : V → List UInt8 → Except ProofRejection α} {toBundle : α → SettlementBundle}
    (reads : ∀ w proof inputs, verify w proof = .ok inputs → parse w proof = .ok inputs)
    (fromFelts : ∀ inputs, (toBundle inputs).FromFelts) (proof : List UInt8) :
    Readings (readBundle verifier parse toBundle proof)
      (readBundle verifier verify toBundle proof) where
  parsed_of_verified := by
    intro bundle h
    obtain ⟨size, w, hw, inputs, hread, rfl⟩ := readBundle_ok_iff.1 h
    exact readBundle_ok_iff.2 ⟨size, w, hw, inputs, reads w proof inputs hread, rfl⟩
  fromFelts := by
    intro bundle h
    obtain ⟨-, -, -, inputs, -, rfl⟩ := readBundle_ok_iff.1 h
    exact fromFelts inputs

theorem Verifiers.private_readings (v : Verifiers) (proof : List UInt8) :
    Readings (v.preValidatePrivateBatch proof) (v.validatePrivateBatch proof) :=
  readings_of_read (fun _ _ _ => parseWith_of_verifyWith) fromFelts_fromPrivateBatch proof

theorem Verifiers.public_readings (v : Verifiers) (proof : List UInt8) :
    Readings (v.preValidatePublicBatch proof) (v.validatePublicBatch proof) :=
  readings_of_read (fun _ _ _ => parseWith_of_verifyWith) fromFelts_fromPublicBatch proof

/-! ## The gates agree -/

section

variable {H : Poseidon2} {cfg : Config} {c : Chain}
  {parsed verified : Except Error SettlementBundle} {outputs : List ShieldedOutput}

/-- **The two validity gates give one answer**, errors included. -/
theorem includeBatch_eq (h : Readings parsed verified) :
    includeBatch H cfg c parsed verified outputs =
      (admitBatch H cfg c parsed verified outputs).map fun _ => () := by
  cases hparsed : parsed with
  | error e => rfl
  | ok bundle =>
    cases hplan : planSettlement cfg c bundle outputs with
    | error e =>
      simp only [includeBatch, admitBatch, orCall, Except.mapError, bind, Except.bind, hplan,
        Except.map]
    | ok plan =>
      cases hverified : verified with
      | error e =>
        simp only [includeBatch, admitBatch, orCall, Except.mapError, bind, Except.bind, hplan,
          Except.map]
      | ok other =>
        -- The verified bundle is the parsed one, so its plan is the plan already made.
        have same : bundle = other := by
          have := h.parsed_of_verified other hverified
          rw [hparsed] at this
          exact Except.ok.inj this
        subst same
        cases hbind : bindPayload H bundle outputs <;>
          simp only [includeBatch, admitBatch, orCall, checkSettlement, Except.mapError, bind,
            Except.bind, hplan, hbind, Except.map]

/-- The settlement goes through: its proof verifies and its bundle passes the check. -/
def Settleable (H : Poseidon2) (cfg : Config) (c : Chain) (verified : Except Error SettlementBundle)
    (outputs : List ShieldedOutput) : Prop :=
  ∃ bundle plan, verified = .ok bundle ∧ checkSettlement H cfg c bundle outputs = .ok plan

theorem admitBatch_ok_iff (h : Readings parsed verified) :
    admitBatch H cfg c parsed verified outputs = .ok bundle ↔
      verified = .ok bundle ∧ ∃ plan, checkSettlement H cfg c bundle outputs = .ok plan := by
  simp only [admitBatch, orCall, bind_ok_iff, mapError_ok_iff, checkSettlement_ok_iff, Except.ok.injEq]
  constructor
  · rintro ⟨first, hparsed, plan, hplan, _, hverified, _, hbind, rfl⟩
    have same := h.parsed_of_verified _ hverified
    rw [hparsed] at same
    obtain rfl := Except.ok.inj same
    exact ⟨hverified, plan, hplan, hbind⟩
  · rintro ⟨hverified, plan, hplan, hbind⟩
    exact ⟨bundle, h.parsed_of_verified _ hverified, plan, hplan, bundle, hverified, (), hbind, rfl⟩

theorem includeBatch_ok_iff (h : Readings parsed verified) :
    includeBatch H cfg c parsed verified outputs = .ok () ↔
      Settleable H cfg c verified outputs := by
  rw [includeBatch_eq h]
  constructor
  · intro hmap
    cases hpool : admitBatch H cfg c parsed verified outputs with
    | error e =>
      rw [hpool] at hmap
      cases hmap
    | ok bundle =>
      obtain ⟨hverified, plan, hcheck⟩ := (admitBatch_ok_iff h).1 hpool
      exact ⟨bundle, plan, hverified, hcheck⟩
  · rintro ⟨bundle, plan, hverified, hcheck⟩
    rw [(admitBatch_ok_iff h).2 ⟨hverified, plan, hcheck⟩]
    rfl

/-- **The dispatch accepts what the gates accept**: behind a passed check no write fails. -/
theorem submitBatch_ok_iff (h : Readings parsed verified) :
    (∃ c', exec (submitBatch H cfg verified .none outputs) c = (.ok (), c')) ↔
      Settleable H cfg c verified outputs := by
  have origin : exec (submitBatch H cfg verified .none outputs) c =
      exec (Call.lift (orShielded verified) >>= fun bundle => settle H cfg bundle outputs) c :=
    exec_lift_bind_ok rfl
  rw [origin]
  constructor
  · rintro ⟨c', hdone⟩
    rw [exec_bind_ok_iff] at hdone
    obtain ⟨bundle, mid, hlift, hsettle⟩ := hdone
    rw [exec_lift] at hlift
    obtain ⟨hverified, rfl⟩ := Prod.mk.inj hlift
    obtain ⟨plan, hcheck, -⟩ := exec_settle_ok hsettle
    exact ⟨bundle, plan, mapError_ok_iff.1 hverified, hcheck⟩
  · rintro ⟨bundle, plan, hverified, hcheck⟩
    refine ⟨c.settled cfg bundle plan, ?_⟩
    have lifted : orShielded verified = .ok bundle := mapError_ok_iff.2 hverified
    rw [exec_lift_bind_ok lifted]
    exact exec_settle hcheck (h.fromFelts bundle hverified).canonical

/-! ### The cap -/

/-- The same configuration and storage, but for the cap and what counts against it. -/
structure UpToCap (cfg cfg' : Config) (c c' : Chain) : Prop where
  config : ∃ cap lt, cfg' = { cfg with maxOutputsPerBlock := cap, maxOutputsPerBlock_lt := lt }
  chain : ∃ count, c' = { c with outputsWrittenThisBlock := count }

section UpToCap

variable {cfg' : Config} {c' : Chain} (same : UpToCap cfg cfg' c c')

include same

theorem UpToCap.minLeafFee_eq : cfg'.minLeafFee = cfg.minLeafFee := by
  obtain ⟨⟨cap, lt, hcfg⟩, -⟩ := same
  rw [hcfg]

theorem UpToCap.bytesPerFeeQuantum_eq : bytesPerFeeQuantum cfg' = bytesPerFeeQuantum cfg := by
  obtain ⟨⟨cap, lt, hcfg⟩, -⟩ := same
  unfold bytesPerFeeQuantum
  rw [hcfg]

/-- The walk does not look at the cap. -/
theorem UpToCap.planSegment_eq : planSegment cfg' c' outputs = planSegment cfg c outputs := by
  have floor : feeFloor cfg' = feeFloor cfg := by
    funext minFee bytes
    rw [feeFloor, feeFloor, same.bytesPerFeeQuantum_eq]
  have slot : planSlot cfg' outputs = planSlot cfg outputs := by
    funext s slot
    unfold planSlot
    rw [floor, same.minLeafFee_eq]
  obtain ⟨⟨cap, lt, hcfg⟩, ⟨count, hc⟩⟩ := same
  have anchor : anchorFailure cfg' c' = anchorFailure cfg c := by
    rw [hcfg, hc]
    rfl
  have conflict : conflicts c' = conflicts c := by
    rw [hc]
    rfl
  funext s segment
  unfold planSegment
  rw [slot, anchor, conflict]

variable {plan : PlannedSettlement}

/-- Behind the walk the cap is looked at once, in front of the fee. -/
theorem finishPlan_upToCap {s : PlanState} (h : finishPlan cfg' c' outputs s = .ok plan) :
    finishPlan cfg c outputs s = .ok plan ∨
      finishPlan cfg c outputs s = .error .tooManyOutputsInBlock := by
  have floorEq : submissionFloor cfg' s outputs = submissionFloor cfg s outputs := by
    unfold submissionFloor
    rw [same.bytesPerFeeQuantum_eq, same.minLeafFee_eq]
  obtain ⟨-, ⟨count, hc⟩⟩ := same
  have treeEq : c'.tree = c.tree := by rw [hc]
  have poolEq : c'.poolValue = c.poolValue := by rw [hc]
  -- Each other check is a proposition that does not mention the cap; it holds again.
  simp only [finishPlan, bind_ok_iff, ensure_ok_iff, okOr_ok_iff, exists_const, floorEq, treeEq,
    poolEq] at h
  obtain ⟨pos, len, floor, floored, paid, room, _, -, fee, planck, pool, done⟩ := h
  obtain rfl := Except.ok.inj done
  cases hcap : c.ensureOutputCapacity cfg (satMul u32Max s.slots 2) with
  | ok u =>
    left
    simp only [finishPlan, bind_ok_iff, ensure_ok_iff, okOr_ok_iff, exists_const]
    exact ⟨pos, len, floor, floored, paid, room, u, hcap, fee, planck, pool, trivial⟩
  | error e =>
    right
    have full : e = .tooManyOutputsInBlock := by
      rw [Chain.ensureOutputCapacity, ensure_error_iff] at hcap
      exact hcap.2.symm
    subst full
    rw [finishPlan, bind_of_ok (ensure_of pos), bind_of_ok (ensure_of len),
      bind_of_ok (okOr_ok_iff.2 floored), bind_of_ok (ensure_of paid),
      bind_of_ok (ensure_of room), hcap]
    rfl

theorem planSettlement_upToCap (h : planSettlement cfg' c' bundle outputs = .ok plan) :
    planSettlement cfg c bundle outputs = .ok plan ∨
      planSettlement cfg c bundle outputs = .error .tooManyOutputsInBlock := by
  simp only [planSettlement, bind_ok_iff, same.planSegment_eq] at h
  obtain ⟨_, hne, _, hexact, s, hwalk, hfinish⟩ := h
  have steps : planSettlement cfg c bundle outputs = finishPlan cfg c outputs s := by
    simp only [planSettlement, hne, hexact, hwalk, bind, Except.bind]
  rw [steps]
  exact finishPlan_upToCap same hfinish

/-- **A submission that only the cap refuses is deferred.** -/
theorem admitBatch_upToCap (h : Readings parsed verified)
    (accepted : Settleable H cfg' c' verified outputs)
    (refused : ¬ Settleable H cfg c verified outputs) :
    admitBatch H cfg c parsed verified outputs = .error .exhaustsResources := by
  obtain ⟨bundle, plan, hverified, hcheck⟩ := accepted
  obtain ⟨hplan, hbind⟩ := checkSettlement_ok_iff.1 hcheck
  rcases planSettlement_upToCap same hplan with hok | hfull
  · exact absurd ⟨bundle, plan, hverified, checkSettlement_ok_iff.2 ⟨hok, hbind⟩⟩ refused
  · rw [admitBatch, h.parsed_of_verified bundle hverified]
    simp only [orCall, Except.mapError, hfull, settlementPlanError, bind, Except.bind]

end UpToCap

end

/-! ### Calls -/

section

variable (v : Verifiers) (blake2 : List UInt8 → Hash256) (H : Poseidon2) (cfg : Config) (c : Chain)

variable {call : ShieldedCall}

/-- What the gates and the dispatch make of a settlement call: two readings of its proof, and the
three pipelines over them. -/
theorem settlement_readings (hcall : call.isSettlement) :
    ∃ parsed verified outputs tagPrefix, Readings parsed verified ∧
      (∀ cfg c, validateUnsigned v blake2 H cfg c call = do
        let bundle ← admitBatch H cfg c parsed verified outputs
        .ok (validSettlement blake2 tagPrefix bundle)) ∧
      (∀ cfg c, preDispatch v H cfg c call = includeBatch H cfg c parsed verified outputs) ∧
      ∀ origin, call.body v H cfg origin = submitBatch H cfg verified origin outputs := by
  cases call with
  | submitPrivateBatch proof outputs =>
    exact ⟨_, _, outputs, "QneroPrivateBatch", v.private_readings proof, fun _ _ => rfl,
      fun _ _ => rfl, fun _ => rfl⟩
  | submitPublicBatch proof outputs =>
    exact ⟨_, _, outputs, "QneroPublicBatch", v.public_readings proof, fun _ _ => rfl,
      fun _ _ => rfl, fun _ => rfl⟩
  | shield value inner ciphertext => cases hcall
  | coinbase inner ciphertext => cases hcall

/-- The pool and the block answer a settlement alike. -/
theorem preDispatch_eq (hcall : call.isSettlement) :
    preDispatch v H cfg c call = (validateUnsigned v blake2 H cfg c call).map fun _ => () := by
  obtain ⟨parsed, verified, outputs, tagPrefix, readings, hvalidate, hpre, -⟩ :=
    settlement_readings v blake2 H cfg hcall
  rw [hvalidate, hpre, includeBatch_eq readings]
  cases admitBatch H cfg c parsed verified outputs <;> rfl

theorem preDispatch_ok_iff (hcall : call.isSettlement) :
    preDispatch v H cfg c call = .ok () ↔
      ∃ c', exec (call.body v H cfg .none) c = (.ok (), c') := by
  obtain ⟨parsed, verified, outputs, tagPrefix, readings, -, hpre, hbody⟩ :=
    settlement_readings v (fun _ => 0) H cfg hcall
  rw [hpre, includeBatch_ok_iff readings, hbody, submitBatch_ok_iff readings]

theorem validateUnsigned_upToCap {cfg' : Config} {c' : Chain} (same : UpToCap cfg cfg' c c')
    (hcall : call.isSettlement) (accepted : preDispatch v H cfg' c' call = .ok ())
    (refused : preDispatch v H cfg c call ≠ .ok ()) :
    validateUnsigned v blake2 H cfg c call = .error .exhaustsResources := by
  obtain ⟨parsed, verified, outputs, tagPrefix, readings, hvalidate, hpre, -⟩ :=
    settlement_readings v blake2 H cfg hcall
  rw [hpre, includeBatch_ok_iff readings] at accepted
  rw [hpre, Ne, includeBatch_ok_iff readings] at refused
  rw [hvalidate, admitBatch_upToCap same readings accepted refused]
  rfl

/-- **The three settlement gates agree.** In every state the pool admits a settlement call exactly
when a block may include it, and exactly when its dispatch succeeds there. A call that would go
through under another cap, or with fewer outputs counted, is deferred by both validity gates. The
coinbase is the one call a block takes and the pool does not. -/
theorem settlement_gates_agree :
    (∀ call : ShieldedCall, call.isSettlement →
      ((∃ valid, validateUnsigned v blake2 H cfg c call = .ok valid) ↔
        preDispatch v H cfg c call = .ok ()) ∧
      (preDispatch v H cfg c call = .ok () ↔
        ∃ c', exec (call.body v H cfg .none) c = (.ok (), c')) ∧
      ∀ cfg' c', UpToCap cfg cfg' c c' → preDispatch v H cfg' c' call = .ok () →
        preDispatch v H cfg c call ≠ .ok () →
          validateUnsigned v blake2 H cfg c call = .error .exhaustsResources ∧
          preDispatch v H cfg c call = .error .exhaustsResources) ∧
    ∀ inner ciphertext, preDispatch v H cfg c (.coinbase inner ciphertext) = .ok () ∧
      validateUnsigned v blake2 H cfg c (.coinbase inner ciphertext) = .error .call := by
  refine ⟨fun call hcall => ⟨?_, preDispatch_ok_iff v H cfg c hcall, ?_⟩, fun _ _ => ⟨rfl, rfl⟩⟩
  · rw [preDispatch_eq v blake2 H cfg c hcall]
    cases validateUnsigned v blake2 H cfg c call with
    | error e => exact ⟨nofun, nofun⟩
    | ok valid => exact ⟨fun _ => rfl, fun _ => ⟨valid, rfl⟩⟩
  · intro cfg' c' same accepted refused
    have deferred := validateUnsigned_upToCap v blake2 H cfg c same hcall accepted refused
    refine ⟨deferred, ?_⟩
    rw [preDispatch_eq v blake2 H cfg c hcall, deferred]
    rfl

end

/-! ## A full block

The sample settlement in a block whose outputs are all but used up.
-/

namespace Sample

/-- The sample batch, or the same with the two nullifiers of its slot exchanged. -/
def batchInputs (swapped : Bool) : PrivateBatchPublicInputs :=
  ⟨spend.blockHash, 1, [if swapped then
    { spend.slot with nullifiers := spend.slot.nullifiers ∘ Fin.rev } else spend.slot]⟩

/-- A blob is a proof: the empty one of the sample batch, any other of the exchanged one. -/
def circuitData (publicInputs : Bool → List Plonkish.Felt) : CircuitData where
  Proof := List UInt8
  fromBytes := some
  toBytes := id
  publicInputs proof := publicInputs (proof ≠ [])
  verify _ := true

def verifiers : Verifiers :=
  ⟨some ⟨circuitData fun swapped => (batchInputs swapped).toFelts, 1⟩,
    some ⟨circuitData fun swapped => PublicBatchPublicInputs.toFelts ⟨0, [batchInputs swapped]⟩, 1, 1⟩⟩

theorem validate_sample : verifiers.validatePrivateBatch [] = .ok ⟨[segment]⟩ :=
  toOption_eq_some_iff.1 (by decide +kernel)

/-- A block with one output left. -/
def full : Chain := { settling with outputsWrittenThisBlock := (2, 2047) }

theorem check_full : checkSettlement sampleSponge runtime full ⟨[segment]⟩ outputsOf =
    .error .tooManyOutputsInBlock := by
  decide +kernel

end Sample

theorem settlement_gates_agree_sample :
    validateUnsigned Sample.verifiers (fun _ => 0) sampleSponge runtime Sample.full
      (.submitPrivateBatch [] Sample.outputsOf) = .error .exhaustsResources := by
  have gates := settlement_gates_agree Sample.verifiers (fun _ => 0) sampleSponge runtime
    Sample.full
  refine ((gates.1 (.submitPrivateBatch [] Sample.outputsOf) rfl).2.2 runtime Sample.settling
    ⟨⟨_, runtime.maxOutputsPerBlock_lt, rfl⟩, ⟨(0, 0), rfl⟩⟩ ?_ ?_).1
  · exact (includeBatch_ok_iff (Sample.verifiers.private_readings [])).2
      ⟨_, _, Sample.validate_sample, Sample.check_settling⟩
  · intro accepted
    obtain ⟨bundle, plan, verified, check⟩ :=
      (includeBatch_ok_iff (Sample.verifiers.private_readings [])).1 accepted
    rw [Sample.validate_sample] at verified
    obtain rfl := Except.ok.inj verified
    rw [Sample.check_full] at check
    cases check

end Qnero
