import Qnero.Extrinsic.Walk

/-!
# The wallet's codec

The extrinsics the wallet sends, and what the walk finds in bytes it did not write. The walk is
characterised by a relation: it finds payloads exactly in a length prefix, an envelope of one of three
types and a settlement or a shield, with nothing behind it. The envelope is read by its shape. The
format version in the low bits of every preamble, the extension version, the account, the signature,
the value of a mortal era, a nonce up to 64 bits and the mode are stepped over, so the walk also reads
bytes no runtime decodes.
-/

namespace Qnero

open Scale Machine

/-! ## The encoders -/

/-- What the metadata says that an encoder reads: the format version with what a walk reads. -/
structure ChainMetadata extends Metadata where
  extrinsicVersion : UInt8

inductive EncodeError where
  | barePreamble (version : UInt8)
  | signedPreamble (version : UInt8)
  | unknownExtensions
  | signing
deriving DecidableEq

section

variable (metadata : ChainMetadata)

def ensureBarePreambleDecodes : Except EncodeError Unit :=
  ensure (4 ≤ metadata.extrinsicVersion ∧ metadata.extrinsicVersion ≤ 5)
    (.barePreamble metadata.extrinsicVersion)

def ensureSignedPreambleDecodes : Except EncodeError Unit :=
  ensure (metadata.extrinsicVersion = 4) (.signedPreamble metadata.extrinsicVersion)

def wrapBare (call : List UInt8) : Except EncodeError (List UInt8) := do
  ensureBarePreambleDecodes metadata
  let body := 0x04 :: call
  .ok (compact body.length ++ body)

def encodeSubmitPrivateBatch (proof : List UInt8) (outputs : List ShieldedOutput) :
    Except EncodeError (List UInt8) :=
  wrapBare metadata
    (metadata.shieldedPallet :: metadata.submitPrivateBatch :: encodeBatchArgs proof outputs)

def encodeSubmitPublicBatch (proof : List UInt8) (outputs : List ShieldedOutput) :
    Except EncodeError (List UInt8) :=
  wrapBare metadata
    (metadata.shieldedPallet :: metadata.submitPublicBatch :: encodeBatchArgs proof outputs)

/-- The call alone, without a preamble. -/
def encodeShieldCall (valuePlanck : ℕ) (inner : Hash256) (ciphertext : List UInt8) : List UInt8 :=
  metadata.shieldedPallet :: metadata.shield ::
    (toLe 16 valuePlanck ++ inner.toBytes ++ encodeBytes ciphertext)

end

/-- What a signature commits to besides the call. -/
structure SigningContext where
  specVersion : UInt32
  transactionVersion : UInt32
  genesisHash : Hash256
  nonce : UInt32
  tip : ℕ
  tip_le : tip ≤ u128Max

/-- The half of the extensions that rides in the extrinsic: an immortal era, the nonce, the tip, and
the metadata hash disabled. -/
def encodeExtensions (context : SigningContext) : List UInt8 :=
  [0] ++ compact context.nonce.toNat ++ compact context.tip ++ [0]

/-- The half that only the signature covers. -/
def encodeImplicit (context : SigningContext) : List UInt8 :=
  toLe 4 context.specVersion.toNat ++ toLe 4 context.transactionVersion.toNat ++
    context.genesisHash.toBytes ++ context.genesisHash.toBytes ++ [0]

/-- A key pair, by what it answers. -/
structure TransparentKey where
  accountId : AccountId
  publicBytes : List UInt8
  sign : List UInt8 → Option (List UInt8)
  publicBytes_length : publicBytes.length = publicKeyLen
  sign_length : ∀ message signature, sign message = some signature → signature.length = signatureLen

/-- Sign a call and wrap it. A payload over 256 bytes is signed as its hash. -/
def encodeSigned (blake2 : List UInt8 → Hash256) (metadata : ChainMetadata) (key : TransparentKey)
    (call : List UInt8) (context : SigningContext) : Except EncodeError (List UInt8) := do
  ensure (metadata.extensions = knownSignedExtensions) .unknownExtensions
  ensureSignedPreambleDecodes metadata
  let extensions := encodeExtensions context
  let payload := call ++ extensions ++ encodeImplicit context
  let signature ← okOr
    (key.sign (if 256 < payload.length then (blake2 payload).toBytes else payload)) .signing
  let body := [0x84, 0] ++ key.accountId.toBytes ++ [0] ++ signature ++ key.publicBytes ++
    extensions ++ call
  .ok (compact body.length ++ body)

/-! ## What the walk walks -/

/-- An era by its width: one zero byte, or two bytes of which the first is not zero. -/
inductive WalkedEra : List UInt8 → Prop where
  | immortal : WalkedEra [0]
  | mortal {low high : UInt8} (nonzero : low ≠ 0) : WalkedEra [low, high]

/-- The bytes of the extensions, with any byte for the mode. -/
inductive WalkedExtensions : List UInt8 → Prop where
  | mk {era : List UInt8} {nonce tip : ℕ} {mode : UInt8} (walked : WalkedEra era)
      (nonce_le : nonce ≤ u64Max) (tip_le : tip ≤ u64Max) :
      WalkedExtensions (era ++ (compact nonce ++ (compact tip ++ [mode])))

/-- The three types of envelope, by the two top bits of the preamble. -/
inductive WalkedEnvelope (metadata : Metadata) : List UInt8 → Prop where
  | bare {first : UInt8} (type : first.toNat / 64 = 0) : WalkedEnvelope metadata [first]
  | signed {first : UInt8} {account signature extensions : List UInt8}
      (type : first.toNat / 64 = 2) (known : metadata.extensions = knownSignedExtensions)
      (account_length : account.length = 32)
      (signature_length : signature.length = signatureLen + publicKeyLen)
      (walked : WalkedExtensions extensions) :
      WalkedEnvelope metadata (first :: 0 :: (account ++ 0 :: (signature ++ extensions)))
  | general {first version : UInt8} {extensions : List UInt8} (type : first.toNat / 64 = 1)
      (known : metadata.extensions = knownSignedExtensions)
      (walked : WalkedExtensions extensions) :
      WalkedEnvelope metadata (first :: version :: extensions)

/-- The index of a call that carries payloads. -/
def Metadata.payloadIndex (metadata : Metadata) : ShieldedCall → Option UInt8
  | .submitPrivateBatch .. => some metadata.submitPrivateBatch
  | .submitPublicBatch .. => some metadata.submitPublicBatch
  | .shield .. => some metadata.shield
  | .coinbase .. => none

/-- The bytes are an extrinsic of this call: its length, an envelope, and the call to the end. -/
def IsExtrinsicOf (metadata : Metadata) (call : ShieldedCall) (bytes : List UInt8) : Prop :=
  ∃ envelope index, WalkedEnvelope metadata envelope ∧ metadata.payloadIndex call = some index ∧
    bytes = encodeBytes (envelope ++ metadata.shieldedPallet :: index :: call.args)

/-! ### The readers -/

variable {bytes args body : List UInt8} {offset next n : ℕ}

theorem readCompact_eq_some (h : readCompact bytes offset = some (n, next)) :
    n ≤ u64Max ∧ next = offset + (compact n).length ∧
      ∃ tail, At bytes offset (compact n ++ tail) := by
  rw [readCompact] at h
  split at h
  · next le =>
    obtain ⟨⟨value, rest⟩, read, made⟩ := Option.bind_eq_some_iff.1 h
    obtain ⟨rfl, rfl⟩ := Prod.mk.inj (Option.some.inj made)
    obtain ⟨spelled, small⟩ := eq_compact_of_decodeCompact (by omega) read
    refine ⟨le_u64Max_iff.2 small, ?_, rest, le, spelled⟩
    rw [spelled, List.length_append, Nat.add_sub_cancel]
  · cases h

theorem readBytes_eq_some {payload : List UInt8} (h : readBytes bytes offset = some (payload, next)) :
    next = offset + (encodeBytes payload).length ∧
      ∃ tail, At bytes offset (encodeBytes payload ++ tail) := by
  obtain ⟨⟨len, start⟩, prefixed, h⟩ := Option.bind_eq_some_iff.1 h
  obtain ⟨stop, added, h⟩ := Option.bind_eq_some_iff.1 h
  obtain ⟨rfl, -⟩ := checkedAdd_eq_some.1 added
  obtain ⟨-, rfl, tail, front⟩ := readCompact_eq_some prefixed
  split at h
  · next inside =>
    obtain ⟨rfl, rfl⟩ := Prod.mk.inj (Option.some.inj h)
    have behind := front.skip rfl
    have length : ((bytes.drop (offset + (compact len).length)).take len).length = len := by
      rw [List.length_take, List.length_drop]
      omega
    refine ⟨?_, tail.drop len, front.le, ?_⟩
    · rw [encodeBytes, length, List.length_append, length, Nat.add_assoc]
    · rw [encodeBytes, length, List.append_assoc, behind.drop_eq, List.take_append_drop,
        front.drop_eq]
  · cases h

/-- The loop over the slots, by induction on their number. -/
theorem readSlots_eq_ok {count slot : ℕ} {out found : List (List UInt8)}
    (inside : offset ≤ bytes.length)
    (h : readSlots bytes count slot offset out = .ok (found, next)) :
    ∃ outputs : List ShieldedOutput, ∃ tail, outputs.length = count ∧
      At bytes offset (encodeOutputs outputs ++ tail) ∧
      next = offset + (encodeOutputs outputs).length ∧
      found = out ++ (outputs.flatMap fun output => [output.ct1, output.ct2]).filter (· ≠ []) := by
  induction count generalizing slot offset out with
  | zero =>
    obtain ⟨rfl, rfl⟩ := Prod.mk.inj (Except.ok.inj h)
    exact ⟨[], bytes.drop offset, rfl, ⟨inside, rfl⟩, rfl, by simp⟩
  | succ count ih =>
    simp only [readSlots, readSlotsWith, bind_ok_iff, okOr_ok_iff] at h
    obtain ⟨⟨ct1, second⟩, read, ⟨ct2, third⟩, read', h⟩ := h
    obtain ⟨rfl, tail, front⟩ := readBytes_eq_some read
    obtain ⟨rfl, tail', front'⟩ := readBytes_eq_some read'
    obtain ⟨outputs, rest, rfl, encoded, rfl, rfl⟩ := ih (front'.skip rfl).le h
    have cons : encodeOutputs (⟨ct1, ct2⟩ :: outputs) =
        encodeBytes ct1 ++ (encodeBytes ct2 ++ encodeOutputs outputs) := by
      simp [encodeOutputs]
    refine ⟨⟨ct1, ct2⟩ :: outputs, rest, rfl, ⟨inside, ?_⟩, ?_, ?_⟩
    · rw [cons, List.append_assoc, List.append_assoc, ← encoded.drop_eq, (front'.skip rfl).drop_eq,
        ← front'.drop_eq, (front.skip rfl).drop_eq, front.drop_eq]
    · rw [cons, List.length_append, List.length_append]
      omega
    · rw [pushPayload_eq, pushPayload_eq]
      simp only [List.flatMap_cons, List.append_assoc]
      rw [← List.filter_append, ← List.filter_append]
      rfl

variable {payloads : List (List UInt8)}

theorem readBatchPayloads_eq_ok (h : readBatchPayloads args = .ok payloads) : ∃ proof outputs,
      args = encodeBatchArgs proof outputs ∧
      payloads = (outputs.flatMap fun output => [output.ct1, output.ct2]).filter (· ≠ []) := by
  simp only [readBatchPayloads, bind_ok_iff, okOr_ok_iff, Option.filter_eq_some_iff,
    checkedAdd_eq_some, ensureConsumed, ensure_ok_iff, Except.ok.injEq, exists_const,
    decide_eq_true_eq] at h
  obtain ⟨⟨proofLen, proofAt⟩, prefixed, cursor, ⟨⟨rfl, -⟩, inside⟩, ⟨slots, start⟩, counted,
    ⟨found, stop⟩, read, consumed, rfl⟩ := h
  obtain ⟨-, rfl, tail, front⟩ := readCompact_eq_some prefixed
  obtain ⟨-, rfl, tail', count⟩ := readCompact_eq_some counted
  obtain ⟨outputs, rest, rfl, encoded, rfl, rfl⟩ := readSlots_eq_ok (count.skip rfl).le read
  obtain ⟨proof, split, length⟩ := (front.skip rfl).between count (by omega)
  -- The last ciphertext ends where the arguments do.
  have nothing : rest = [] := by
    have total := encoded.length_eq
    rw [List.length_append] at total
    exact List.length_eq_zero_iff.1 (by omega)
  refine ⟨proof, outputs, ?_, List.nil_append _⟩
  have proofLength : proof.length = proofLen := by omega
  rw [encodeBatchArgs, encodeBytes, proofLength, List.append_assoc, List.append_assoc,
    show args = _ from front.drop_eq, split, ← (count.skip rfl).drop_eq, encoded.drop_eq, nothing,
    List.append_nil]

theorem exists_leBytes {bytes : List UInt8} (length : bytes.length = 8) :
    ∃ x : UInt64, leBytes x = bytes := by
  have small := ofLe_lt bytes
  have spelled := toLe_ofLe bytes
  rw [length] at small spelled
  refine ⟨UInt64.ofNat (ofLe bytes), ?_⟩
  rw [leBytes_eq_toLe, UInt64.toNat_ofNat', Nat.mod_eq_of_lt (by omega), spelled]

/-- Any 32 bytes are a hash. -/
theorem exists_toBytes {bytes : List UInt8} (length : bytes.length = 32) :
    ∃ h : Hash256, h.toBytes = bytes := by
  have limb : ∀ k ≤ 3, ∃ x : UInt64, leBytes x = (bytes.drop (8 * k)).take 8 := by
    intro k le
    refine exists_leBytes ?_
    rw [List.length_take, List.length_drop]
    omega
  obtain ⟨x0, h0⟩ := limb 0 (by omega)
  obtain ⟨x1, h1⟩ := limb 1 (by omega)
  obtain ⟨x2, h2⟩ := limb 2 (by omega)
  obtain ⟨x3, h3⟩ := limb 3 (by omega)
  refine ⟨⟨![x0, x1, x2, x3]⟩, ?_⟩
  have spelled : Hash256.toBytes ⟨![x0, x1, x2, x3]⟩ =
      leBytes x0 ++ (leBytes x1 ++ (leBytes x2 ++ leBytes x3)) := by
    simp [Hash256.toBytes, List.finRange_succ]
  have last : (bytes.drop 24).take 8 = bytes.drop 24 :=
    List.take_of_length_le (by rw [List.length_drop]; omega)
  have step : ∀ k, (bytes.drop k).take 8 ++ bytes.drop (k + 8) = bytes.drop k := by
    intro k
    rw [← List.drop_drop, List.take_append_drop]
  rw [spelled, h0, h1, h2, h3, last, step 16, step 8, step 0, List.drop_zero]

theorem readShieldPayload_eq_ok (h : readShieldPayload args = .ok payloads) :
    ∃ value inner ciphertext,
      args = (ShieldedCall.shield value inner ciphertext).args ∧
      payloads = [ciphertext].filter (· ≠ []) := by
  simp only [readShieldPayload, bind_ok_iff, okOr_ok_iff, ensureConsumed, ensure_ok_iff,
    Except.ok.injEq, exists_const] at h
  obtain ⟨long, ⟨ciphertext, stop⟩, read, consumed, rfl⟩ := h
  obtain ⟨rfl, tail, encoded⟩ := readBytes_eq_some read
  obtain ⟨front, split, length⟩ := (At.start args).between encoded (by omega)
  have nothing : tail = [] := by
    have total := encoded.length_eq
    rw [List.length_append] at total
    exact List.length_eq_zero_iff.1 (by omega)
  have width : (front.drop 16).length = 32 := by
    rw [List.length_drop]
    omega
  obtain ⟨inner, spelled⟩ := exists_toBytes width
  have value : toLe 16 (ofLe (front.take 16)) = front.take 16 := by
    have bytes := toLe_ofLe (front.take 16)
    rwa [List.length_take, length] at bytes
  refine ⟨ofLe (front.take 16), inner, ciphertext, ?_, filter_single ciphertext⟩
  rw [ShieldedCall.args, value, spelled, List.take_append_drop, split, nothing, List.append_nil]

/-! ### The envelope -/

/-- What is skipped as extensions is an era, two compact numbers and a mode byte. -/
theorem skipExtensions_eq_ok (h : skipExtensions body offset = .ok next) (inside : next ≤ body.length) :
    ∃ extensions tail, WalkedExtensions extensions ∧ At body offset (extensions ++ tail) ∧
      next = offset + extensions.length := by
  simp only [skipExtensions, bind_ok_iff, okOr_ok_iff, Except.ok.injEq] at h
  obtain ⟨first, atEra, ⟨nonce, cursor⟩, readNonce, ⟨tip, cursor'⟩, readTip, rfl⟩ := h
  obtain ⟨nonce_le, rfl, tail, atNonce⟩ := readCompact_eq_some readNonce
  obtain ⟨tip_le, rfl, tail', atTip⟩ := readCompact_eq_some readTip
  have start := At.of_getElem? atEra
  obtain ⟨era, split, width⟩ := start.between atNonce (by split <;> omega)
  have walked : WalkedEra era := by
    obtain ⟨rest, rfl⟩ : ∃ rest, era = first :: rest := by
      cases era with
      | nil => split at width <;> simp at width
      | cons head rest => exact ⟨rest, by rw [(List.cons.inj split).1]⟩
    split at width
    · next zero =>
      obtain rfl : rest = [] := List.length_eq_zero_iff.1 (by rw [List.length_cons] at width; omega)
      exact zero ▸ .immortal
    · next nonzero =>
      obtain ⟨high, rfl⟩ := List.length_eq_one_iff.1
        (show rest.length = 1 by rw [List.length_cons] at width; omega)
      exact .mortal nonzero
  -- The mode byte is not read, but it is there: the walk ends inside the body.
  have behind := atTip.skip rfl
  obtain ⟨mode, last, rfl⟩ : ∃ mode last, tail' = mode :: last := by
    refine List.exists_cons_of_length_pos ?_
    have total := behind.length_eq
    omega
  refine ⟨era ++ (compact nonce ++ (compact tip ++ [mode])), last, .mk walked nonce_le tip_le, ?_, ?_⟩
  · have same : tail = compact tip ++ mode :: last :=
      (atNonce.skip rfl).drop_eq.symm.trans atTip.drop_eq
    refine ⟨start.le, ?_⟩
    rw [start.drop_eq, split, same]
    simp only [List.append_assoc, List.singleton_append]
  · simp only [List.length_append, List.length_singleton]
    omega

theorem skipExtensions_walked {extensions tail : List UInt8} (walked : WalkedExtensions extensions)
    (h : At body offset (extensions ++ tail)) :
    skipExtensions body offset = .ok (offset + extensions.length) := by
  obtain ⟨era, nonce_le, tip_le⟩ := walked
  rename_i era' nonce tip mode
  simp only [List.append_assoc] at h
  have atNonce := h.skip rfl
  have atTip := atNonce.skip rfl
  have first : ∃ first, body[offset]? = some first ∧ (if first = 0 then 1 else 2) = era'.length := by
    cases era with
    | immortal => exact ⟨0, h.getElem?, rfl⟩
    | mortal nonzero => exact ⟨_, h.getElem?, if_neg nonzero⟩
  obtain ⟨first, atEra, width⟩ := first
  unfold skipExtensions
  rw [bind_of_ok (okOr_ok_iff.2 atEra)]
  dsimp only
  rw [width, bind_of_ok (okOr_ok_iff.2 (readCompact_at atNonce nonce_le))]
  dsimp only
  rw [bind_of_ok (okOr_ok_iff.2 (readCompact_at atTip tip_le))]
  simp only [List.length_append, List.length_singleton, Nat.add_assoc]

variable {metadata : Metadata}

/-- **Where the walk takes the call to start**: behind an envelope. -/
theorem callOffset_eq_ok {first : UInt8} (preamble : body[0]? = some first)
    (h : callOffset metadata body first = .ok next) (inside : next ≤ body.length) :
    ∃ envelope tail, WalkedEnvelope metadata envelope ∧ body = envelope ++ tail ∧
      next = envelope.length := by
  have start := At.of_getElem? preamble
  have whole : body = first :: body.drop 1 := start.drop_eq
  unfold callOffset at h
  split at h
  · next type =>
    obtain rfl := Except.ok.inj h
    exact ⟨[first], body.drop 1, .bare type, whole, rfl⟩
  · next type =>
    simp only [ensureKnownSignedExtensions, bind_ok_iff, okOr_ok_iff, ensure_ok_iff,
      exists_const] at h
    obtain ⟨known, address, atAddress, rfl, scheme, atScheme, rfl, skipped⟩ := h
    obtain ⟨extensions, tail, walked, atExtensions, rfl⟩ := skipExtensions_eq_ok skipped inside
    -- Address and scheme are read at fixed offsets: what lies between has the length.
    have second := At.of_getElem? atAddress
    have third := At.of_getElem? atScheme
    obtain ⟨account, split, account_length⟩ := second.tail.between third (by omega)
    obtain ⟨signature, split', signature_length⟩ := third.tail.between atExtensions (by omega)
    have length : signature.length = signatureLen + publicKeyLen := by omega
    refine ⟨_, tail, .signed type known account_length length walked, ?_, ?_⟩
    · rw [whole, second.drop_eq, split, split']
      simp only [List.append_assoc, List.cons_append]
    · simp only [List.length_cons, List.length_append]
      omega
  · next type =>
    simp only [ensureKnownSignedExtensions, bind_ok_iff, ensure_ok_iff, exists_const] at h
    obtain ⟨known, skipped⟩ := h
    obtain ⟨extensions, tail, walked, atExtensions, rfl⟩ := skipExtensions_eq_ok skipped inside
    obtain ⟨middle, split, length⟩ := start.tail.between atExtensions (by omega)
    obtain ⟨version, rfl⟩ := List.length_eq_one_iff.1 (show middle.length = 1 by omega)
    refine ⟨first :: version :: extensions, tail, .general type known walked, ?_, ?_⟩
    · rw [whole, split]
      rfl
    · simp only [List.length_cons]
      omega
  · cases h

/-- The walk over an envelope ends where it does, whatever is behind. -/
theorem callOffset_walked {envelope : List UInt8} (walked : WalkedEnvelope metadata envelope)
    (tail : List UInt8) :
    ∃ first, (envelope ++ tail)[0]? = some first ∧
      callOffset metadata (envelope ++ tail) first = .ok envelope.length := by
  generalize whole : envelope ++ tail = body
  have start : At body 0 (envelope ++ tail) := whole ▸ .start _
  cases walked with
  | @bare first type =>
    refine ⟨first, start.getElem?, ?_⟩
    rw [callOffset, type]
    rfl
  | @signed first account signature extensions type known account_length signature_length walked =>
    simp only [List.cons_append, List.append_assoc] at start
    have address : At body 1 _ := start.tail
    have scheme := address.tail.skip rfl
    rw [account_length] at scheme
    have skipped := skipExtensions_walked walked (scheme.tail.skip rfl)
    have length : 1 + 1 + 32 + 1 + signature.length = 35 + signatureLen + publicKeyLen := by omega
    rw [length] at skipped
    refine ⟨first, start.getElem?, ?_⟩
    have branch : callOffset metadata body first = (do
        ensureKnownSignedExtensions metadata
        let address ← okOr body[1]? .noAddress
        ensure (address = 0) (.unknownAddress address)
        let scheme ← okOr body[34]? .noScheme
        ensure (scheme = 0) (.unknownScheme scheme)
        skipExtensions body (35 + signatureLen + publicKeyLen)) := by
      rw [callOffset, type]
      rfl
    rw [branch, ensureKnownSignedExtensions, bind_of_ok (ensure_of known),
      bind_of_ok (okOr_ok_iff.2 address.getElem?), bind_of_ok (ensure_of rfl),
      bind_of_ok (okOr_ok_iff.2 scheme.getElem?), bind_of_ok (ensure_of rfl), skipped]
    simp only [List.length_cons, List.length_append]
    exact congrArg Except.ok (by omega)
  | @general first version extensions type known walked =>
    refine ⟨first, start.getElem?, ?_⟩
    have branch : callOffset metadata body first = (do
        ensureKnownSignedExtensions metadata
        skipExtensions body 2) := by
      rw [callOffset, type]
      rfl
    rw [branch, ensureKnownSignedExtensions, bind_of_ok (ensure_of known),
      skipExtensions_walked walked start.tail.tail]
    simp only [List.length_cons]
    exact congrArg Except.ok (by omega)

/-! ### The extrinsic -/

theorem payloads_nonempty_of_call {pallet call : UInt8}
    (h : callPayloads metadata readBatchPayloads readShieldPayload pallet call args = .ok payloads)
    (some : payloads ≠ []) : pallet = metadata.shieldedPallet ∧
      ∃ carried : ShieldedCall, metadata.payloadIndex carried = Option.some call ∧
        args = carried.args ∧ payloads = carried.ciphertexts := by
  unfold callPayloads at h
  split at h
  · cases h
    exact absurd rfl some
  · next same =>
    refine ⟨not_not.1 same, ?_⟩
    split at h
    · next batch =>
      obtain ⟨proof, outputs, rfl, rfl⟩ := readBatchPayloads_eq_ok h
      rcases batch with rfl | rfl
      · exact ⟨.submitPrivateBatch proof outputs, rfl, rfl, rfl⟩
      · exact ⟨.submitPublicBatch proof outputs, rfl, rfl, rfl⟩
    · split at h
      · next shield =>
        obtain ⟨value, inner, ciphertext, rfl, rfl⟩ := readShieldPayload_eq_ok h
        exact ⟨.shield value inner ciphertext, by rw [shield]; rfl, rfl, rfl⟩
      · cases h
        exact absurd rfl some

/-- **What carries payloads is an extrinsic of a call that does**, to the last byte. -/
theorem isExtrinsicOf_of_payloads (h : extrinsicPayloads metadata bytes = .ok payloads)
    (some : payloads ≠ []) :
    ∃ call : ShieldedCall, IsExtrinsicOf metadata call bytes ∧ payloads = call.ciphertexts := by
  simp only [extrinsicPayloads, bind_ok_iff, okOr_ok_iff, ensure_ok_iff, exists_const] at h
  obtain ⟨⟨declared, start⟩, prefixed, length, first, preamble, cursor, offset, pallet, atPallet, index,
    atIndex, read⟩ := h
  obtain ⟨-, rfl, tail, front⟩ := readCompact_eq_some prefixed
  have behind := front.skip rfl
  rw [behind.drop_eq] at length preamble offset atPallet atIndex read
  obtain ⟨envelope, rest, walked, rfl, rfl⟩ :=
    callOffset_eq_ok preamble offset (At.of_getElem? atPallet).le
  obtain ⟨rfl, call, indexed, args, rfl⟩ := payloads_nonempty_of_call read some
  refine ⟨call, ⟨envelope, index, walked, indexed, ?_⟩, rfl⟩
  have pair : rest = metadata.shieldedPallet :: index :: call.args := by
    have call : At (envelope ++ rest) envelope.length rest :=
      (At.start _).skip (Nat.zero_add _).symm
    rw [← call.drop_eq, (At.of_getElem? atPallet).drop_eq, (At.of_getElem? atIndex).drop_eq, ← args]
  rw [encodeBytes, ← pair, length]
  exact front.drop_eq

/-- Behind an envelope the walk is the reading of the call. -/
theorem extrinsicPayloads_encodeBytes {envelope : List UInt8} {pallet index : UInt8}
    (walked : WalkedEnvelope metadata envelope)
    (fits : (encodeBytes (envelope ++ pallet :: index :: args)).length ≤ u64Max) :
    extrinsicPayloads metadata (encodeBytes (envelope ++ pallet :: index :: args)) =
      callPayloads metadata readBatchPayloads readShieldPayload pallet index args := by
  obtain ⟨first, preamble, offset⟩ := callOffset_walked walked (pallet :: index :: args)
  generalize whole : envelope ++ pallet :: index :: args = body at fits preamble offset ⊢
  have start : At (encodeBytes body) 0 (compact body.length ++ body) := .start _
  have call : At body envelope.length (pallet :: index :: args) :=
    At.skip (whole ▸ .start _) (Nat.zero_add _).symm
  rw [encodeBytes, List.length_append] at fits
  unfold extrinsicPayloads
  rw [bind_of_ok (okOr_ok_iff.2 (readCompact_at start (by omega)))]
  dsimp only
  rw [(start.skip rfl).drop_eq, bind_of_ok (ensure_of rfl), bind_of_ok (okOr_ok_iff.2 preamble),
    bind_of_ok offset, bind_of_ok (okOr_ok_iff.2 call.getElem?),
    bind_of_ok (okOr_ok_iff.2 call.tail.getElem?), call.tail.tail.drop_eq]

/-- No shield is read as a settlement. -/
def Metadata.Distinct (metadata : Metadata) : Prop :=
  metadata.shield ≠ metadata.submitPrivateBatch ∧ metadata.shield ≠ metadata.submitPublicBatch

theorem callPayloads_args {call : ShieldedCall} {index : UInt8}
    (indexed : metadata.payloadIndex call = some index)
    (distinct : call.isSettlement ∨ metadata.Distinct) (fits : call.args.length ≤ u64Max) :
    callPayloads metadata readBatchPayloads readShieldPayload metadata.shieldedPallet index
      call.args = .ok call.ciphertexts := by
  unfold callPayloads
  rw [if_neg (not_not.2 rfl)]
  cases call with
  | submitPrivateBatch proof outputs =>
    obtain rfl := Option.some.inj indexed
    rw [if_pos (.inl rfl)]
    exact readBatchPayloads_args fits
  | submitPublicBatch proof outputs =>
    obtain rfl := Option.some.inj indexed
    rw [if_pos (.inr rfl)]
    exact readBatchPayloads_args fits
  | shield value inner ciphertext =>
    obtain rfl := Option.some.inj indexed
    have other : metadata.Distinct := distinct.resolve_left nofun
    rw [if_neg (not_or.2 other), if_pos rfl]
    exact readShieldPayload_args fits
  | coinbase inner ciphertext => cases indexed

/-- **An extrinsic of a call that carries payloads is read back.** -/
theorem payloads_of_isExtrinsicOf {call : ShieldedCall} (h : IsExtrinsicOf metadata call bytes)
    (distinct : call.isSettlement ∨ metadata.Distinct) (fits : bytes.length ≤ u64Max) :
    extrinsicPayloads metadata bytes = .ok call.ciphertexts := by
  obtain ⟨envelope, index, walked, indexed, rfl⟩ := h
  rw [extrinsicPayloads_encodeBytes walked fits]
  refine callPayloads_args indexed distinct ?_
  simp only [encodeBytes, List.length_append, List.length_cons] at fits
  omega

/-! ## What the wallet sends -/

section

variable {metadata : ChainMetadata}

theorem isExtrinsicOf_wrapBare (call : ShieldedCall) {index : UInt8}
    (indexed : metadata.payloadIndex call = some index)
    (h : wrapBare metadata (metadata.shieldedPallet :: index :: call.args) = .ok bytes) :
    IsExtrinsicOf metadata.toMetadata call bytes := by
  simp only [wrapBare, bind_ok_iff, Except.ok.injEq] at h
  obtain ⟨_, -, rfl⟩ := h
  exact ⟨[4], index, .bare (by decide), indexed, rfl⟩

variable {context : SigningContext} {blake2 : List UInt8 → Hash256}

theorem walkedExtensions_encodeExtensions (tip : context.tip < 2 ^ 64) :
    WalkedExtensions (encodeExtensions context) := by
  have nonce := context.nonce.toNat_lt
  have walked : WalkedExtensions
      ([0] ++ (compact context.nonce.toNat ++ (compact context.tip ++ [0]))) :=
    .mk .immortal (le_u64Max_iff.2 (by omega)) (le_u64Max_iff.2 (by omega))
  simpa only [encodeExtensions, List.append_assoc] using walked

theorem isExtrinsicOf_encodeSigned {key : TransparentKey} {value : ℕ} {inner : Hash256}
    {ciphertext : List UInt8} (tip : context.tip < 2 ^ 64)
    (h : encodeSigned blake2 metadata key (encodeShieldCall metadata value inner ciphertext) context = .ok bytes) :
    IsExtrinsicOf metadata.toMetadata (.shield value inner ciphertext) bytes := by
  simp only [encodeSigned, bind_ok_iff, ensure_ok_iff, okOr_ok_iff, Except.ok.injEq,
    exists_const] at h
  obtain ⟨known, _, -, signature, signed, rfl⟩ := h
  have length : (signature ++ key.publicBytes).length = signatureLen + publicKeyLen := by
    rw [List.length_append, key.sign_length _ _ signed, key.publicBytes_length]
  refine ⟨_, metadata.shield, .signed (by decide : UInt8.toNat 0x84 / 64 = 2) known
    (length_toBytes key.accountId) length (walkedExtensions_encodeExtensions tip), rfl, ?_⟩
  simp only [encodeBytes, encodeShieldCall, ShieldedCall.args, List.append_assoc, List.cons_append,
    List.nil_append]

/-- Signing is all that can stand in the way of a runtime the wallet knows. -/
theorem encodeSigned_isOk {key : TransparentKey} {call : List UInt8}
    (known : metadata.extensions = knownSignedExtensions) (version : metadata.extrinsicVersion = 4)
    (signs : ∀ message, (key.sign message).isSome) :
    ∃ bytes, encodeSigned blake2 metadata key call context = .ok bytes := by
  obtain ⟨signature, signed⟩ := Option.isSome_iff_exists.1 (signs
    (if 256 < (call ++ encodeExtensions context ++ encodeImplicit context).length then
      (blake2 (call ++ encodeExtensions context ++ encodeImplicit context)).toBytes
    else call ++ encodeExtensions context ++ encodeImplicit context))
  simp only [encodeSigned, ensureSignedPreambleDecodes, bind_ok_iff, ensure_ok_iff, okOr_ok_iff,
    exists_const]
  exact ⟨_, known, version, signature, signed, rfl⟩

end

/-- **The wallet's codec.** Under a metadata the wallet can encode for, both settlements and the signed
shield are produced, and the walk returns the ciphertexts of each, but for the empty ones. Whatever the
walk finds payloads in is an extrinsic of such a call, with these ciphertexts and nothing behind. -/
theorem extrinsic_codec (blake2 : List UInt8 → Hash256) (metadata : ChainMetadata) :
    (∀ proof outputs, ensureBarePreambleDecodes metadata = .ok () →
      (∃ bytes, encodeSubmitPrivateBatch metadata proof outputs = .ok bytes) ∧
      ∃ bytes, encodeSubmitPublicBatch metadata proof outputs = .ok bytes) ∧
    (∀ proof outputs bytes, encodeSubmitPrivateBatch metadata proof outputs = .ok bytes ∨
        encodeSubmitPublicBatch metadata proof outputs = .ok bytes → bytes.length ≤ u64Max →
      extrinsicPayloads metadata.toMetadata bytes =
        .ok ((outputs.flatMap fun output => [output.ct1, output.ct2]).filter (· ≠ []))) ∧
    (∀ key call context, metadata.extensions = knownSignedExtensions →
      ensureSignedPreambleDecodes metadata = .ok () → (∀ message, (key.sign message).isSome) →
      ∃ bytes, encodeSigned blake2 metadata key call context = .ok bytes) ∧
    (metadata.Distinct → ∀ key value inner ciphertext context bytes, context.tip < 2 ^ 64 →
      encodeSigned blake2 metadata key (encodeShieldCall metadata value inner ciphertext) context =
        .ok bytes → bytes.length ≤ u64Max →
      extrinsicPayloads metadata.toMetadata bytes = .ok (if ciphertext = [] then [] else [ciphertext])) ∧
    ∀ bytes payloads, extrinsicPayloads metadata.toMetadata bytes = .ok payloads → payloads ≠ [] →
      ∃ call : ShieldedCall, IsExtrinsicOf metadata.toMetadata call bytes ∧
        payloads = call.ciphertexts := by
  refine ⟨?_, ?_, ?_, ?_, fun _ _ => isExtrinsicOf_of_payloads⟩
  · intro proof outputs decodes
    exact ⟨⟨_, bind_of_ok decodes⟩, _, bind_of_ok decodes⟩
  · rintro proof outputs bytes (encoded | encoded) fits
    · exact payloads_of_isExtrinsicOf
        (isExtrinsicOf_wrapBare (.submitPrivateBatch proof outputs) rfl encoded) (.inl rfl) fits
    · exact payloads_of_isExtrinsicOf
        (isExtrinsicOf_wrapBare (.submitPublicBatch proof outputs) rfl encoded) (.inl rfl) fits
  · intro key call context known decodes signs
    exact encodeSigned_isOk known (ensure_ok_iff.1 decodes) signs
  · intro distinct key value inner ciphertext context bytes tip encoded fits
    rw [filter_single]
    exact payloads_of_isExtrinsicOf (isExtrinsicOf_encodeSigned tip encoded) (.inr distinct) fits

namespace Sample

/-- The metadata of the runtime. -/
def chainMetadata : ChainMetadata := { runtimeMetadata with extrinsicVersion := 4 }

/-- A metadata that gives a shield the index of a settlement. -/
def clashing : ChainMetadata := { chainMetadata with shield := chainMetadata.submitPrivateBatch }

def transparentKey : TransparentKey where
  accountId := 0
  publicBytes := signature.publicKey
  sign _ := some signature.signature
  publicBytes_length := signature.publicKey_length
  sign_length := by
    rintro _ _ ⟨⟩
    exact signature.signature_length

def signingContext : SigningContext := ⟨1, 1, 0, 0, 0, Nat.zero_le _⟩

/-- A shield of one byte, signed. -/
def signedShield (index : UInt8) : List UInt8 :=
  encodeBytes ([0x84, 0] ++ Hash256.toBytes 0 ++ [0] ++ signature.signature ++ signature.publicKey ++
    encodeExtensions signingContext ++
    (shieldedPallet :: index :: (toLe 16 0 ++ Hash256.toBytes 0 ++ encodeBytes [7])))

theorem encodeSigned_sample (metadata : ChainMetadata)
    (known : metadata.extensions = knownSignedExtensions)
    (version : metadata.extrinsicVersion = 4) (pallet : metadata.shieldedPallet = shieldedPallet) :
    encodeSigned (fun _ => 0) metadata transparentKey (encodeShieldCall metadata 0 0 [7])
      signingContext = .ok (signedShield metadata.shield) := by
  simp only [encodeSigned, ensureSignedPreambleDecodes, bind_ok_iff, ensure_ok_iff, okOr_ok_iff,
    exists_const]
  refine ⟨known, version, signature.signature, rfl, ?_⟩
  rw [encodeShieldCall, pallet]
  rfl

theorem length_signedShield (index : UInt8) : (signedShield index).length ≤ u64Max := by
  have extensions : (encodeExtensions signingContext).length = 4 := by decide
  have ciphertext : (encodeBytes [7]).length = 2 := by decide
  have body : ∀ body : List UInt8, body.length = 7310 → (encodeBytes body).length ≤ u64Max := by
    intro body length
    have short := length_compact_le (n := body.length) (by omega)
    rw [encodeBytes, List.length_append, u64Max]
    omega
  refine body _ ?_
  simp only [List.length_append, List.length_cons, List.length_nil, length_toBytes, length_toLe,
    signature.signature_length, signature.publicKey_length, extensions, ciphertext, signatureLen,
    publicKeyLen]

/-- A settlement of one ciphertext. -/
def settlement : ShieldedCall := .submitPrivateBatch [] [⟨[7], []⟩]

def settlementCall : List UInt8 := shieldedPallet :: 0 :: settlement.args

/-- Envelopes the walk steps over and no runtime decodes: a format version that never was, in each of
the three types, and a nonce of 33 bits. -/
def strays : List (List UInt8) :=
  [[0],
    0x80 :: 0 :: (Hash256.toBytes 0 ++ 0 :: (signature.signature ++ signature.publicKey ++
      encodeExtensions signingContext)),
    0x40 :: 0 :: encodeExtensions signingContext,
    0x45 :: 0 :: ([0] ++ (compact (2 ^ 32) ++ (compact 0 ++ [0])))]

theorem walked_strays {envelope : List UInt8} (mem : envelope ∈ strays) :
    WalkedEnvelope runtimeMetadata envelope ∧ envelope.length ≤ 8000 := by
  have walked : WalkedExtensions (encodeExtensions signingContext) :=
    walkedExtensions_encodeExtensions (by decide)
  have length : (encodeExtensions signingContext).length = 4 := by decide
  have signed : (signature.signature ++ signature.publicKey).length = signatureLen + publicKeyLen := by
    rw [List.length_append, signature.signature_length, signature.publicKey_length]
  simp only [strays, List.mem_cons, List.not_mem_nil, or_false] at mem
  rcases mem with rfl | rfl | rfl | rfl
  · exact ⟨.bare (by decide), by decide⟩
  · refine ⟨.signed (by decide) rfl (length_toBytes _) signed walked, ?_⟩
    simp only [List.length_cons, List.length_append, length_toBytes, length,
      signature.signature_length, signature.publicKey_length, signatureLen, publicKeyLen]
    omega
  · exact ⟨.general (by decide) rfl walked, by decide⟩
  · exact ⟨.general (by decide) rfl (.mk .immortal (by decide) (by decide)), by decide⟩

/-- The preamble of a runtime's extrinsic. -/
theorem body_head (x : Extrinsic) : x.body.head? ∈ [some 4, some 5, some 0x84, some 0x45] := by
  obtain ⟨preamble, call⟩ := x
  cases preamble with
  | bare version known =>
    rcases known with rfl | rfl <;> simp [Extrinsic.body, Preamble.encode]
  | signed who signature extensions => simp [Extrinsic.body, Preamble.encode]
  | general version extensions => simp [Extrinsic.body, Preamble.encode]

/-- No runtime's extrinsic has a nonce of 33 bits. -/
theorem body_ne_nonce (x : Extrinsic) (tail : List UInt8) :
    x.body ≠ 0x45 :: 0 :: 0 :: (compact (2 ^ 32) ++ tail) := by
  intro same
  obtain ⟨preamble, call⟩ := x
  cases preamble with
  | bare version known => rcases known with rfl | rfl <;> simp [Extrinsic.body, Preamble.encode] at same
  | signed who signature extensions => simp [Extrinsic.body, Preamble.encode] at same
  | general version extensions =>
    simp only [Extrinsic.body, Preamble.encode, Extensions.encode, List.append_assoc, List.cons_append,
      List.nil_append, List.cons.injEq, true_and] at same
    obtain ⟨first, rest, era, width⟩ := extensions.era.encode_eq
    rw [era, List.cons_append, List.cons.injEq] at same
    obtain ⟨-, rfl, same⟩ := same
    -- The first byte of the era is zero, so the nonce is next.
    obtain rfl : rest = [] := by
      rw [era, List.length_cons, if_pos rfl] at width
      exact List.length_eq_zero_iff.1 (by omega)
    have read := congrArg (decodeCompact 4) same
    rw [List.nil_append, decodeCompact_compact 4 le_rfl (by omega)
      (Nat.lt_of_le_of_lt extensions.nonce_le (by decide)),
      decodeCompact_compact_eq_none 4 le_rfl (by decide) (by decide)] at read
    cases read

theorem body_ne_stray (x : Extrinsic) {envelope : List UInt8} (mem : envelope ∈ strays) :
    x.body ≠ envelope ++ settlementCall := by
  intro same
  have head := body_head x
  rw [same] at head
  simp only [strays, List.mem_cons, List.not_mem_nil, or_false] at mem
  rcases mem with rfl | rfl | rfl | rfl
  · exact absurd head (by simp)
  · exact absurd head (by simp)
  · exact absurd head (by simp)
  · refine body_ne_nonce x (compact 0 ++ [0] ++ settlementCall) (same.trans ?_)
    simp only [List.cons_append, List.nil_append, List.append_assoc]

end Sample

open Sample in
/-- A public settlement of two slots with an empty ciphertext in each, and a signed shield. -/
theorem extrinsic_codec_sample :
    (∃ bytes, encodeSubmitPublicBatch chainMetadata [1] [⟨[7], []⟩, ⟨[], [8]⟩] = .ok bytes ∧
      extrinsicPayloads runtimeMetadata bytes = .ok [[7], [8]]) ∧
    encodeSigned (fun _ => 0) chainMetadata transparentKey (encodeShieldCall chainMetadata 0 0 [7])
      signingContext = .ok (signedShield 2) ∧
    extrinsicPayloads runtimeMetadata (signedShield 2) = .ok [[7]] ∧
    ∃ call : ShieldedCall, IsExtrinsicOf runtimeMetadata call (signedShield 2) ∧
      [[7]] = call.ciphertexts := by
  obtain ⟨-, settlements, -, shield, converse⟩ := extrinsic_codec (fun _ => 0) chainMetadata
  have sent : encodeSubmitPublicBatch chainMetadata [1] [⟨[7], []⟩, ⟨[], [8]⟩] = .ok _ := rfl
  have encoded := encodeSigned_sample chainMetadata rfl rfl rfl
  have read := shield ⟨by decide, by decide⟩ transparentKey 0 0 [7] signingContext _ (by decide) encoded
    (length_signedShield 2)
  exact ⟨⟨_, sent, settlements _ _ _ (.inr sent) (by decide)⟩, encoded, read,
    converse _ _ read (by decide)⟩

open Sample in
/-- Where the shield has the index of a settlement it is read as one, and refused. And the walk returns
the ciphertext of bytes that no runtime decodes, behind four envelopes. -/
theorem codec_diverges :
    (∃ bytes, encodeSigned (fun _ => 0) clashing transparentKey (encodeShieldCall clashing 0 0 [7])
        signingContext = .ok bytes ∧
      extrinsicPayloads clashing.toMetadata bytes ≠ .ok [[7]]) ∧
    ∀ envelope ∈ strays,
      extrinsicPayloads runtimeMetadata (encodeBytes (envelope ++ settlementCall)) = .ok [[7]] ∧
      ∀ x : Extrinsic, x.encode ≠ encodeBytes (envelope ++ settlementCall) := by
  constructor
  · have encoded := encodeSigned_sample clashing rfl rfl rfl
    refine ⟨_, encoded, ?_⟩
    have fits := length_signedShield clashing.shield
    obtain ⟨envelope, index, walked, indexed, whole⟩ := isExtrinsicOf_encodeSigned (by decide) encoded
    obtain rfl := Option.some.inj indexed
    rw [whole] at fits ⊢
    rw [extrinsicPayloads_encodeBytes walked fits]
    decide +kernel
  · intro envelope mem
    obtain ⟨walked, short⟩ := walked_strays mem
    have call : settlementCall.length = 7 := by decide
    have body : (envelope ++ settlementCall).length < 2 ^ 30 := by
      rw [List.length_append, call]
      omega
    have fits : (encodeBytes (envelope ++ settlementCall)).length < 256 ^ 4 := by
      have counted := length_compact_le body
      rw [encodeBytes, List.length_append]
      omega
    refine ⟨?_, fun x same => ?_⟩
    · have written : IsExtrinsicOf runtimeMetadata settlement (encodeBytes (envelope ++ settlementCall)) :=
        ⟨envelope, 0, walked, rfl, rfl⟩
      refine payloads_of_isExtrinsicOf written (.inl rfl) ?_
      rw [le_u64Max_iff]
      omega
    · have whole : x.body.length < 256 ^ 4 := by
        rw [← same, Extrinsic.encode, encodeBytes, List.length_append] at fits
        omega
      have bodies := selfDelimiting_encodeBytes x.body (envelope ++ settlementCall) [] [] whole
        (by omega) (by rw [List.append_nil, List.append_nil]; exact same)
      exact body_ne_stray x mem bodies.1

end Qnero
