import Qnero.Wallet.Cipher
import Qnero.Wallet.Paths

/-!
# Preparing a spend

What a wallet does on its own for a payment: the fee from the runtime's constants, at most two notes
that cover it, the paths of those notes in the tree it rebuilt, and the witness with two outputs. Which
of the two slots carries the payment is drawn. An output's `rho` comes from the nullifiers of the
inputs, so the witness is built before the ciphertexts and gets their digest afterwards.

Nothing here asks the node; the reads in between are in `Qnero.Wallet.Requests`.
-/

namespace Qnero

open Plonkish Machine

/-! ## What a spend is given -/

/-- What a spend reads of the runtime's metadata. -/
structure SpendMetadata where
  protocolProfile : List UInt8
  minLeafFee : ℕ
  ciphertextBytesPerFeeQuantum : ℕ
  maxCiphertextBytes : ℕ

/-- The circuits of a wallet: whether the verifiers are the supported ones, and the proof of a
submission of one leaf. -/
structure WalletProver where
  supported : Bool
  proveSubmission : SpendWitness → Option (List UInt8)
  verify : List UInt8 → Bool

/-- What every spend of a build shares. -/
structure SpendEnv where
  H : Poseidon2
  S : CipherSuite
  metadata : SpendMetadata
  /-- The profile this build was made for. -/
  supportedProfile : List UInt8

/-- What the caller asks for; the memo as its bytes. -/
structure SpendOrder where
  recipient : Address
  amount : ℕ
  requestedFee : Option ℕ
  memo : List UInt8
  acceptsHighFee : Bool

/-- What is drawn for one spend. The probes are encrypted and thrown away. -/
structure SpendDraws where
  probes : Fin 4 → List UInt8
  dummySeed : List UInt8
  paymentSlot : Fin 2
  paymentSeed : List UInt8
  changeSeed : List UInt8
  paymentKem : List UInt8
  changeKem : List UInt8

inductive SpendError where
  | unsupportedProfile
  | noActiveProfile
  | profileDiffers
  | unsupportedVerifiers
  | memoPad (padded cap : ℕ)
  | minLeafFee (declared : ℕ)
  | bytesPerFeeQuantum (declared : ℕ)
  | memoTooLong (length : ℕ)
  | encryption
  | probesDiffer (payment change : ℕ)
  | ciphertextCap (length cap : ℕ)
  | feeBelowFloor (fee floor : ℕ)
  | feeRunsAway (fee floor : ℕ)
  | feeAboveCeiling (fee : ℕ)
  | feeOutrunsAmount (fee amount : ℕ)
  | overflow (amount fee : ℕ)
  | noNotes
  | unreachable (target chosen candidates reachable held : ℕ)
  | treeRoot (leafCount anchorBlock : ℕ)
  | shortTree (leafCount watermark anchorBlock : ℕ) (birthday : Option ℕ)
  | noteNotOnChain (commitment : Digest) (leafIndex recordedAt anchorBlock leafCount : ℕ)
  | notFolded (leafIndex anchorBlock leafCount : ℕ)
  | noteValue (leafIndex : ℕ)
  | leafMismatch (leafIndex : ℕ)
  | path (message : String)
  | pathRoot (leafIndex anchorBlock : ℕ)
  | tooManyInputs (count : ℕ)
  | inputKeys
  | witness (message : String)
  | outputValue
  | ciphertextLengths (ct1 ct2 : ℕ)
  | ctDigest
  | proving
  | ownProof

/-! ## The fee -/

def ciphertextFixedBytes : ℕ := 1731

def maxTrustedMinLeafFee : ℕ := 64

def minTrustedBytesPerFeeQuantum : ℕ := 64

def maxTrustedSlotFee : ℕ := 256

def highFeeAllowance : ℕ := 16

def highFeeAmountShare : ℕ := 2

def feeCeilingMultiple : ℕ := 10

def ensureMemoPadFits (metadata : SpendMetadata) : Except SpendError Unit :=
  let padded := ciphertextFixedBytes + memoBytes
  ensure (padded ≤ metadata.maxCiphertextBytes) (.memoPad padded metadata.maxCiphertextBytes)

def ensureFeeConstantsAreSane (metadata : SpendMetadata) : Except SpendError Unit := do
  ensure (metadata.minLeafFee ≤ maxTrustedMinLeafFee) (.minLeafFee metadata.minLeafFee)
  ensure (minTrustedBytesPerFeeQuantum ≤ metadata.ciphertextBytesPerFeeQuantum)
    (.bytesPerFeeQuantum metadata.ciphertextBytesPerFeeQuantum)

/-- `MinLeafFee`, and a step for every started quantum of ciphertext. -/
def slotFeeFloor (metadata : SpendMetadata) (ct1 ct2 : ℕ) : ℕ :=
  let quantum := max metadata.ciphertextBytesPerFeeQuantum 1
  satAdd u64Max metadata.minLeafFee ((ct1 + ct2 + quantum - 1) / quantum)

def feeRunsAway (fee floor : ℕ) : Bool := satMul u64Max (max floor 1) feeCeilingMultiple < fee

def feeOutrunsAmount (fee amount : ℕ) : Bool :=
  highFeeAllowance < fee ∧ amount < satMul u64Max fee highFeeAmountShare

/-- The floor, or the caller's own fee where it is not below it and does not run away. -/
def plannedFee (requested : Option ℕ) (floor : ℕ) : Except SpendError ℕ :=
  match requested with
  | none => .ok floor
  | some fee => do
    ensure (floor ≤ fee) (.feeBelowFloor fee floor)
    ensure (feeRunsAway fee floor = false) (.feeRunsAway fee floor)
    pure fee

namespace SpendEnv

variable (E : SpendEnv) (key : SpendingKey) (order : SpendOrder) (draws : SpendDraws)

/-- The size of a ciphertext to this key, measured on a note of no value. -/
def probeCiphertextLen (ek memo randomness : List UInt8) : Except SpendError ℕ := do
  let probe (name : String) : Digest := E.H.hashBytes (asciiBytes name)
  let note : Note := ⟨probe "qnero-wallet/probe-pk", 0, probe "qnero-wallet/probe-rho",
    probe "qnero-wallet/probe-r"⟩
  let ct ← okOr (encryptNote E.S ek note memo randomness) .encryption
  pure ct.toBytes.length

/-- The lengths of the two ciphertexts, which must not differ. -/
def probeLengths (payment change : List UInt8) : Except SpendError (ℕ × ℕ) := do
  let memo ← okOr (padMemo order.memo) (.memoTooLong order.memo.length)
  let paymentLen ← E.probeCiphertextLen order.recipient.ek memo payment
  let blank ← okOr (padMemo []) (.memoTooLong 0)
  let changeLen ← E.probeCiphertextLen (key.ek E.H E.S) blank change
  ensure (paymentLen = changeLen) (.probesDiffer paymentLen changeLen)
  pure (paymentLen, changeLen)

def resolveFee : Except SpendError ℕ := do
  ensureFeeConstantsAreSane E.metadata
  let (payment, change) ← E.probeLengths key order (draws.probes 0) (draws.probes 1)
  ensure (payment ≤ E.metadata.maxCiphertextBytes)
    (.ciphertextCap payment E.metadata.maxCiphertextBytes)
  ensure (change ≤ E.metadata.maxCiphertextBytes)
    (.ciphertextCap change E.metadata.maxCiphertextBytes)
  let fee ← plannedFee order.requestedFee (slotFeeFloor E.metadata payment change)
  ensure (fee ≤ maxTrustedSlotFee) (.feeAboveCeiling fee)
  ensure (¬ (order.acceptsHighFee = false ∧ feeOutrunsAmount fee order.amount = true))
    (.feeOutrunsAmount fee order.amount)
  pure fee

end SpendEnv

/-! ## The notes -/

/-- Which of two notes with one nullifier a spend uses: the larger, then the earlier. -/
def outranks (candidate held : StoredNote) : Bool :=
  held.value < candidate.value ∨ held.value = candidate.value ∧ candidate.leafIndex < held.leafIndex

/-- Into a list with one note per nullifier, in the order of the nullifiers. -/
def insertBest (note : StoredNote) : List StoredNote → List StoredNote
  | [] => [note]
  | held :: rest =>
    if note.nullifier = held.nullifier then (if outranks note held then note else held) :: rest
    else if digestBytes note.nullifier < digestBytes held.nullifier then note :: held :: rest
    else held :: insertBest note rest

def WalletStore.spendable (store : WalletStore) : List StoredNote :=
  store.unspent.foldl (fun best note => insertBest note best) []

/-- The input slots of a leaf. -/
def maxInputs : ℕ := 2

/-- The notes up to the first one the target is reached with. -/
def reach (target total : ℕ) : List StoredNote → Option (List StoredNote)
  | [] => none
  | note :: rest =>
    let total := satAdd u64Max total note.value
    if target ≤ total then some [note] else (reach target total rest).map (note :: ·)

/-- Larger first, ties by leaf. -/
def selectionOrder (a b : StoredNote) : Prop :=
  b.value < a.value ∨ a.value = b.value ∧ a.leafIndex ≤ b.leafIndex

instance : DecidableRel selectionOrder := fun a b => by
  unfold selectionOrder
  infer_instance

/-- A sum of 64 bits that nothing checks: it wraps in a release build. -/
def sumU64 (notes : List StoredNote) : ℕ := (notes.map StoredNote.value).sum % 2 ^ 64

/-- Largest first, at most two. The choice is made with saturating sums; what is held in all, which a
refusal reports, is not. -/
def selectNotes (unspent : List StoredNote) (target : ℕ) : Except SpendError (List StoredNote) :=
  let candidates := unspent.insertionSort selectionOrder
  let chosen := candidates.take maxInputs
  let reachable := chosen.foldl (fun total note => satAdd u64Max total note.value) 0
  okOr (reach target 0 chosen)
    (if candidates.isEmpty then .noNotes
      else .unreachable target chosen.length candidates.length reachable (sumU64 candidates))

def StoredNote.note (n : StoredNote) (pk : Digest) : Option Note := Note.new pk n.value n.rho n.r

/-! ## The paths -/

/-- A leaf the rebuilt tree does not have: a note the chain dropped, or one it is about to fold. -/
def outOfRange (n : StoredNote) (leafCount anchorBlock : ℕ) : SpendError :=
  match n.blockNumber with
  | some block =>
    if block < anchorBlock then
      .noteNotOnChain n.commitment n.leafIndex block anchorBlock leafCount
    else .notFolded n.leafIndex anchorBlock leafCount
  | none => .notFolded n.leafIndex anchorBlock leafCount

section

variable (H : Poseidon2)

/-- The path of one note, checked against the root. -/
def localPath (pk : Digest) (tree : CommitmentTree) (zkTreeRoot : Digest) (anchorBlock : ℕ)
    (n : StoredNote) : Except SpendError (Note × MerklePath) := do
  let stored ← okOr (n.note pk) (.noteValue n.leafIndex)
  let onChain ← okOr tree.leaves[n.leafIndex]? (.leafMismatch n.leafIndex)
  ensure (onChain = stored.commitment H) (.leafMismatch n.leafIndex)
  let path ← (tree.path H n.leafIndex).mapError .path
  let reached ← (path.root H (stored.commitment H)).mapError .path
  ensure (reached = zkTreeRoot) (.pathRoot n.leafIndex anchorBlock)
  pure (stored, path)

/-- What `local_paths` does with the tree it rebuilt. -/
def localPaths (store : WalletStore) (pk : Digest) (tree : CommitmentTree) (zkTreeRoot : Digest)
    (anchorBlock : ℕ) (selected : List StoredNote) : Except SpendError (List (Note × MerklePath)) := do
  ensure (tree.root H = zkTreeRoot) (.treeRoot tree.leafCount anchorBlock)
  ensure (store.nextLeaf ≤ tree.leafCount)
    (.shortTree tree.leafCount store.nextLeaf anchorBlock (store.unscannedBirthday store.nextLeaf))
  selected.forM fun n =>
    ensure (n.leafIndex < tree.leafCount) (outOfRange n tree.leafCount anchorBlock)
  selected.mapM (localPath H pk tree zkTreeRoot anchorBlock)

end

/-! ## The witness -/

namespace InputNote

variable (H : Poseidon2) (key : SpendingKey)

/-- An input of the wallet's own. -/
def real (note : Note) (path : MerklePath) : Except SpendError InputNote := do
  ensure (derivePk H (key.ask H) (key.nk H) = note.pk) .inputKeys
  pure ⟨key.ask H, key.nk H, UInt64.ofNat note.value, note.rho, note.r, path, false⟩

/-- A padding input, its randomness from a drawn seed. -/
def dummyRandom (seed : List UInt8) (depth : ℕ) : InputNote where
  ask := key.ask H
  nk := key.nk H
  value := 0
  rho := H.hashBytes (asciiBytes "qnero/dummy-rho" ++ seed)
  r := H.hashBytes (asciiBytes "qnero/dummy-r" ++ seed)
  path := ⟨List.replicate depth fun _ => 0, List.replicate depth 0⟩
  isDummy := true

end InputNote

/-- Output note `index` as a whole. -/
def SpendWitness.outputNote (H : Poseidon2) (w : SpendWitness) (index : Fin 2) :
    Except SpendError Note :=
  okOr (Note.new (w.outputs index).pk (w.outputs index).value.toNat (w.outputRho H index)
    (w.outputs index).r) .outputValue

/-- A proved spend. -/
structure PreparedSpend where
  proof : List UInt8
  outputs : List ShieldedOutput
  nullifiers : Fin 2 → Digest
  changeNote : PendingNote
  spentNullifiers : List Digest
  inputLeaves : List ℕ
  amount : ℕ
  fee : ℕ
  change : ℕ
  anchorBlock : ℕ

/-- What is settled before the anchor is read. -/
structure SpendPlan where
  fee : ℕ
  probes : ℕ × ℕ
  selected : List StoredNote
  change : ℕ

namespace SpendEnv

variable (E : SpendEnv) (key : SpendingKey) (order : SpendOrder) (draws : SpendDraws)

/-- The fee, and the notes that cover it with the amount. A sum above 64 bits has a note that is no
note, which the paths refuse. -/
def planSpend (store : WalletStore) : Except SpendError SpendPlan := do
  let fee ← E.resolveFee key order draws
  let probes ← E.probeLengths key order (draws.probes 2) (draws.probes 3)
  let target ← okOr (checkedAdd u64Max order.amount fee) (.overflow order.amount fee)
  let selected ← selectNotes store.spendable target
  pure ⟨fee, probes, selected, (selected.map (·.value)).sum - target⟩

/-- One note and a dummy, or two notes. -/
def spendInputs (paths : List (Note × MerklePath)) : Except SpendError (Fin 2 → InputNote) :=
  match paths with
  | [(note, path)] => do
    let input ← InputNote.real E.H key note path
    pure ![input, InputNote.dummyRandom E.H key draws.dummySeed path.siblings.length]
  | [(first, firstPath), (second, secondPath)] => do
    let first ← InputNote.real E.H key first firstPath
    let second ← InputNote.real E.H key second secondPath
    pure ![first, second]
  | paths => .error (.tooManyInputs paths.length)

/-- The payment in the drawn slot, the change in the other one. -/
def spendOutputs (change : ℕ) : Fin 2 → OutputNote := fun slot =>
  if slot = draws.paymentSlot then
    ⟨order.recipient.pk, UInt64.ofNat order.amount,
      E.H.hashBytes (asciiBytes "qnero-wallet/out-payment" ++ draws.paymentSeed)⟩
  else
    ⟨key.pk E.H, UInt64.ofNat change,
      E.H.hashBytes (asciiBytes "qnero-wallet/out-change" ++ draws.changeSeed)⟩

/-- The witness over a placeholder for the ciphertext digest. -/
def spendWitness (plan : SpendPlan) (header : HeaderInputs) (depth : ℕ) (inputs : Fin 2 → InputNote) :
    SpendWitness :=
  ⟨header, depth, inputs, E.spendOutputs key order draws plan.change, UInt64.ofNat plan.fee, 0⟩

/-- The payment's ciphertext and the change's. -/
def spendCiphertexts (payment change : Note) : Except SpendError (List UInt8 × List UInt8) := do
  let memo ← okOr (padMemo order.memo) (.memoTooLong order.memo.length)
  let paymentCt ← okOr (encryptNote E.S order.recipient.ek payment memo draws.paymentKem) .encryption
  let blank ← okOr (padMemo []) (.memoTooLong 0)
  let changeCt ← okOr (encryptNote E.S (key.ek E.H E.S) change blank draws.changeKem) .encryption
  pure (paymentCt.toBytes, changeCt.toBytes)

/-- The rest of a spend, from the paths of its inputs to the proof. -/
def buildSpend (prover : WalletProver) (plan : SpendPlan) (header : HeaderInputs) (anchorBlock : ℕ)
    (paths : List (Note × MerklePath)) : Except SpendError PreparedSpend := do
  let depth := (paths.head?.map fun path => path.2.siblings.length).getD 0
  let inputs ← E.spendInputs key draws paths
  let witness := E.spendWitness key order draws plan header depth inputs
  witness.validate.mapError .witness
  let changeSlot := 1 - draws.paymentSlot
  let paymentNote ← witness.outputNote E.H draws.paymentSlot
  let changeNote ← witness.outputNote E.H changeSlot
  let (paymentCt, changeCt) ← E.spendCiphertexts key order draws paymentNote changeNote
  let (ct1, ct2) := if draws.paymentSlot = 0 then (paymentCt, changeCt) else (changeCt, paymentCt)
  ensure (ct1.length = plan.probes.1 ∧ ct2.length = plan.probes.2 ∧
      ct1.length = suite1CiphertextBytes ∧ ct2.length = suite1CiphertextBytes)
    (.ciphertextLengths ct1.length ct2.length)
  let digest ← okOr (bytesToDigest (ctDigest E.H [ct1, ct2])) .ctDigest
  let witness := { witness with ctDigest := digest }
  witness.validate.mapError .witness
  let proof ← okOr (prover.proveSubmission witness) .proving
  ensure (prover.verify proof = true) .ownProof
  pure {
    proof := proof
    outputs := [⟨ct1, ct2⟩]
    nullifiers := fun i => (inputs i).nullifier E.H
    changeNote := ⟨changeNote.commitment E.H⟩
    spentNullifiers := plan.selected.map (·.nullifier)
    inputLeaves := plan.selected.map (·.leafIndex)
    amount := order.amount
    fee := plan.fee
    change := plan.change
    anchorBlock := anchorBlock }

end SpendEnv

end Qnero
