import Qnero.Scale
import Qnero.Shielded.Gates

/-!
# Calls and extrinsics on the wire

A block body is a list of SCALE byte strings. This is the side that writes them: the calls of the
runtime with the two wrappers that carry calls inside, the filter every submitted call passes, and
the envelope around a call. Note ciphertexts are nowhere else, so what a dispatch executes is stated
here too: `Executes` says which calls of the shielded pallet a dispatch that goes through runs.
-/

namespace Qnero

open Scale Machine

/-! ## Calls -/

/-- The calls that are neither the shielded pallet's nor carry a call inside. Of their arguments
only the bytes are kept. -/
inductive LeafCall where
  | remark
  | remarkWithEvent
  | doTask
  | timestampSet
  | transferAllowDeath
  | transferKeepAlive
  | transferAll
  | burn
  | setHighSecurity
  | cancelTransfer
  | executeTransfer
  | scheduleTransfer
  | scheduleTransferWithDelay
  | recoverFunds
  | createMultisig
  | cancelProposal
  | removeExpired
  | claimDeposits
  | claim
  | createSchedule
  | endSchedule
  | retargetSchedule
deriving DecidableEq

/-- The pallet index and the call index. -/
def LeafCall.index : LeafCall → UInt8 × UInt8
  | .remark => (0, 0)
  | .remarkWithEvent => (0, 7)
  | .doTask => (0, 8)
  | .timestampSet => (1, 0)
  | .transferAllowDeath => (2, 0)
  | .transferKeepAlive => (2, 3)
  | .transferAll => (2, 4)
  | .burn => (2, 10)
  | .setHighSecurity => (11, 0)
  | .cancelTransfer => (11, 1)
  | .executeTransfer => (11, 2)
  | .scheduleTransfer => (11, 3)
  | .scheduleTransferWithDelay => (11, 4)
  | .recoverFunds => (11, 7)
  | .createMultisig => (19, 0)
  | .cancelProposal => (19, 3)
  | .removeExpired => (19, 4)
  | .claimDeposits => (19, 5)
  | .claim => (22, 0)
  | .createSchedule => (22, 1)
  | .endSchedule => (22, 2)
  | .retargetSchedule => (22, 3)

inductive RuntimeCall where
  | leaf (call : LeafCall) (args : List UInt8)
  | shielded (call : ShieldedCall)
  | batchAll (calls : List RuntimeCall)
  | propose (multisig : AccountId) (call : List UInt8) (expiry : ℕ)
  | approve (multisig : AccountId) (proposalId : ℕ) (call : List UInt8)
  | execute (multisig : AccountId) (proposalId : ℕ) (call : RuntimeCall)

def utilityPallet : UInt8 := 9

def multisigPallet : UInt8 := 19

def shieldedPallet : UInt8 := 24

/-! ### Encoding -/

def encodeOutputs (outputs : List ShieldedOutput) : List UInt8 :=
  outputs.flatMap fun output => encodeBytes output.ct1 ++ encodeBytes output.ct2

/-- `submit_private_batch(proof, outputs)` and its public twin. -/
def encodeBatchArgs (proof : List UInt8) (outputs : List ShieldedOutput) : List UInt8 :=
  encodeBytes proof ++ compact outputs.length ++ encodeOutputs outputs

def ShieldedCall.callIndex : ShieldedCall → UInt8
  | .submitPrivateBatch .. => 0
  | .submitPublicBatch .. => 1
  | .shield .. => 2
  | .coinbase .. => 3

def ShieldedCall.args : ShieldedCall → List UInt8
  | .submitPrivateBatch proof outputs | .submitPublicBatch proof outputs =>
    encodeBatchArgs proof outputs
  | .shield value inner ciphertext => toLe 16 value ++ inner.toBytes ++ encodeBytes ciphertext
  | .coinbase inner ciphertext => inner.toBytes ++ encodeBytes ciphertext

mutual

def RuntimeCall.encode : RuntimeCall → List UInt8
  | .leaf call args => call.index.1 :: call.index.2 :: args
  | .shielded call => shieldedPallet :: call.callIndex :: call.args
  | .batchAll calls => utilityPallet :: 2 :: (compact calls.length ++ encodeCalls calls)
  | .propose multisig call expiry =>
    multisigPallet :: 1 :: (multisig.toBytes ++ encodeBytes call ++ toLe 4 expiry)
  | .approve multisig proposalId call =>
    multisigPallet :: 2 :: (multisig.toBytes ++ toLe 4 proposalId ++ encodeBytes call)
  | .execute multisig proposalId call =>
    multisigPallet :: 6 :: (multisig.toBytes ++ toLe 4 proposalId ++ call.encode)

def encodeCalls : List RuntimeCall → List UInt8
  | [] => []
  | call :: calls => call.encode ++ encodeCalls calls

end

/-! ## The call filter -/

/-- Whether a call moves transparent value between accounts. Burning one's own and claiming a
genesis schedule do not. -/
def movesTransparentValue : LeafCall → Bool
  | .transferAllowDeath | .transferKeepAlive | .transferAll => true
  | .scheduleTransfer | .scheduleTransferWithDelay | .executeTransfer | .cancelTransfer
  | .recoverFunds => true
  | .createSchedule | .endSchedule | .retargetSchedule => true
  | _ => false

def enrolsInAFeatureV1Refuses : LeafCall → Bool
  | .setHighSecurity => true
  | _ => false

mutual

/-- Whether a call is a proposal or an approval, or carries one in a wrapper. -/
def carriesAProposal : RuntimeCall → Bool
  | .propose .. | .approve .. => true
  | .batchAll calls => anyCarriesAProposal calls
  | .execute _ _ call => carriesAProposal call
  | .leaf .. | .shielded _ => false

def anyCarriesAProposal : List RuntimeCall → Bool
  | [] => false
  | call :: calls => carriesAProposal call || anyCarriesAProposal calls

end

mutual

/-- What v1 refuses, wrappers included, with a rule for the payload of a proposal. -/
def refusedWith (proposal : List UInt8 → Bool) : RuntimeCall → Bool
  | .batchAll calls => anyRefusedWith proposal calls
  | .execute _ _ call => refusedWith proposal call
  | .propose _ call _ | .approve _ _ call => proposal call
  | .leaf call _ => movesTransparentValue call || enrolsInAFeatureV1Refuses call
  | .shielded _ => false

def anyRefusedWith (proposal : List UInt8 → Bool) : List RuntimeCall → Bool
  | [] => false
  | call :: calls => refusedWith proposal call || anyRefusedWith proposal calls

end

/-- What the filter takes from the generated call type: decoding up to the nesting limit, and the
comparison of a call's weight with the limit for inner calls. -/
structure CallInfo where
  decodeWithDepthLimit : List UInt8 → Option RuntimeCall
  weightExceeds : RuntimeCall → Bool

section

variable (info : CallInfo)

/-- One level is unwrapped: a payload that carries a proposal itself is refused, so the rule for
proposals inside it is never asked. -/
def theProposalIsRefused (payload : List UInt8) : Bool :=
  match info.decodeWithDepthLimit payload with
  | none => true
  | some decoded =>
    if decoded.encode ≠ payload then true
    else if info.weightExceeds decoded then true
    else carriesAProposal decoded || refusedWith (fun _ => true) decoded

def refusedUnderV1 : RuntimeCall → Bool := refusedWith (theProposalIsRefused info)

/-- `QneroCallFilter`. -/
def qneroCallFilter (call : RuntimeCall) : Bool := !refusedUnderV1 info call

end

/-! ## Dispatch -/

def RuntimeCall.isBatchAll : RuntimeCall → Bool
  | .batchAll _ => true
  | _ => false

mutual

/-- **What a dispatch that goes through executes** of the shielded pallet, in order. Settlements and
the coinbase take no signed origin and a shield takes no other; a batch needs a signer, dispatches
its children under the same origin and does not allow a batch among them; an executed proposal is
dispatched as the multisig account, and goes through also where its call fails. -/
inductive Executes : RawOrigin → RuntimeCall → List ShieldedCall → Prop where
  | leaf {origin : RawOrigin} {call : LeafCall} {args : List UInt8} :
      Executes origin (.leaf call args) []
  | settle {call : ShieldedCall} (h : call.isSettlement) : Executes .none (.shielded call) [call]
  | coinbase {inner : Hash256} {ciphertext : List UInt8} :
      Executes .none (.shielded (.coinbase inner ciphertext)) [.coinbase inner ciphertext]
  | shield {who : AccountId} {value : ℕ} {inner : Hash256} {ciphertext : List UInt8} :
      Executes (.signed who) (.shielded (.shield value inner ciphertext))
        [.shield value inner ciphertext]
  | batchAll {who : AccountId} {calls : List RuntimeCall} {executed : List ShieldedCall}
      (nested : ∀ call ∈ calls, call.isBatchAll = false)
      (all : ExecutesAll (.signed who) calls executed) :
      Executes (.signed who) (.batchAll calls) executed
  | propose {who multisig : AccountId} {call : List UInt8} {expiry : ℕ} :
      Executes (.signed who) (.propose multisig call expiry) []
  | approve {who multisig : AccountId} {proposalId : ℕ} {call : List UInt8} :
      Executes (.signed who) (.approve multisig proposalId call) []
  | execute {who multisig : AccountId} {proposalId : ℕ} {call : RuntimeCall}
      {executed : List ShieldedCall} (inner : Executes (.signed multisig) call executed) :
      Executes (.signed who) (.execute multisig proposalId call) executed
  | executeFailed {who multisig : AccountId} {proposalId : ℕ} {call : RuntimeCall} :
      Executes (.signed who) (.execute multisig proposalId call) []

inductive ExecutesAll : RawOrigin → List RuntimeCall → List ShieldedCall → Prop where
  | nil {origin : RawOrigin} : ExecutesAll origin [] []
  | cons {origin : RawOrigin} {call : RuntimeCall} {calls : List RuntimeCall}
      {first rest : List ShieldedCall} (head : Executes origin call first)
      (tail : ExecutesAll origin calls rest) : ExecutesAll origin (call :: calls) (first ++ rest)

end

/-- The note ciphertexts of a call, empty ones left out. A coinbase has none: its payload has to be
empty. -/
def ShieldedCall.ciphertexts : ShieldedCall → List (List UInt8)
  | .submitPrivateBatch _ outputs | .submitPublicBatch _ outputs =>
    (outputs.flatMap fun output => [output.ct1, output.ct2]).filter (· ≠ [])
  | .shield _ _ ciphertext => [ciphertext].filter (· ≠ [])
  | .coinbase .. => []

/-! ## Extrinsics -/

/-- Mortality: a mortal era is an exponent of the period and a phase, packed in two bytes. -/
inductive Era where
  | immortal
  | mortal (exponent : ℕ) (phase : ℕ) (exponent_pos : 1 ≤ exponent) (exponent_le : exponent ≤ 15)
      (phase_lt : phase < 2 ^ 12)

def Era.encode : Era → List UInt8
  | .immortal => [0]
  | .mortal exponent phase .. => toLe 2 (exponent + 16 * phase)

/-- The four transaction extensions that encode anything. -/
structure Extensions where
  era : Era
  nonce : ℕ
  tip : ℕ
  /-- The metadata hash is checked. -/
  mode : Bool
  nonce_le : nonce ≤ u32Max
  tip_le : tip ≤ u128Max

def Extensions.encode (e : Extensions) : List UInt8 :=
  e.era.encode ++ compact e.nonce ++ compact e.tip ++ [if e.mode then 1 else 0]

def signatureLen : ℕ := 4627

def publicKeyLen : ℕ := 2592

/-- An ML-DSA-87 signature with its public key. -/
structure SignatureWithPublic where
  signature : List UInt8
  publicKey : List UInt8
  signature_length : signature.length = signatureLen
  publicKey_length : publicKey.length = publicKeyLen

/-- The forms the runtime decodes. A bare one comes in two format versions; the only address that
is looked up is an account id, the only scheme admitted ML-DSA-87. A general transaction carries
extensions and no signature. -/
inductive Preamble where
  | bare (version : UInt8) (known : version = 4 ∨ version = 5)
  | signed (who : AccountId) (signature : SignatureWithPublic) (extensions : Extensions)
  | general (extensionVersion : UInt8) (extensions : Extensions)

def Preamble.encode : Preamble → List UInt8
  | .bare version _ => [version]
  | .signed who signature extensions =>
    [0x84, 0] ++ who.toBytes ++ [0] ++ signature.signature ++ signature.publicKey ++
      extensions.encode
  | .general extensionVersion extensions => [0x45, extensionVersion] ++ extensions.encode

/-- The origin the call is dispatched under. -/
def Preamble.origin : Preamble → RawOrigin
  | .bare .. | .general .. => .none
  | .signed who .. => .signed who

/-- The tip, zero where there is none. -/
def Preamble.tip : Preamble → ℕ
  | .bare .. => 0
  | .signed _ _ extensions | .general _ extensions => extensions.tip

structure Extrinsic where
  preamble : Preamble
  call : RuntimeCall

def Extrinsic.body (x : Extrinsic) : List UInt8 := x.preamble.encode ++ x.call.encode

/-- As it stands in a block: with its length in front. -/
def Extrinsic.encode (x : Extrinsic) : List UInt8 := encodeBytes x.body

/-- The length limit of a block. -/
def runtimeBlockLength : ℕ := 5 * 1024 * 1024

/-- What a block can include: the call passes the filter, and the bytes fit the block. -/
structure Extrinsic.Admitted (info : CallInfo) (x : Extrinsic) : Prop where
  allowed : qneroCallFilter info x.call = true
  fits : x.encode.length ≤ runtimeBlockLength

/-! ## Metadata -/

/-- The identifiers of the transaction extensions. -/
inductive ExtensionId where
  | checkNonZeroSender
  | checkSpecVersion
  | checkTxVersion
  | checkGenesis
  | checkMortality
  | checkNonce
  | checkWeight
  | reversibleTransactionExtension
  | chargeTransactionPayment
  | checkMetadataHash
  | weightReclaim
  | other (name : String)
deriving DecidableEq

/-- The extensions of the runtime, in order. -/
def txExtension : List ExtensionId :=
  [.checkNonZeroSender, .checkSpecVersion, .checkTxVersion, .checkGenesis, .checkMortality,
    .checkNonce, .checkWeight, .reversibleTransactionExtension, .chargeTransactionPayment,
    .checkMetadataHash, .weightReclaim]

/-- What the metadata says that a body walk reads: the indices of the shielded pallet and its calls,
the extensions, the widths of the signature schemes, and the kind of address. -/
structure Metadata where
  shieldedPallet : UInt8
  submitPrivateBatch : UInt8
  submitPublicBatch : UInt8
  shield : UInt8
  extensions : List ExtensionId
  signatureLengths : List (UInt8 × ℕ)
  multiAddress : Bool

/-- The runtime's own. The second scheme is declared and never admitted. -/
def runtimeMetadata : Metadata where
  shieldedPallet := shieldedPallet
  submitPrivateBatch := 0
  submitPublicBatch := 1
  shield := 2
  extensions := txExtension
  signatureLengths := [(0, signatureLen + publicKeyLen), (1, 3309 + 1952)]
  multiAddress := true

end Qnero
