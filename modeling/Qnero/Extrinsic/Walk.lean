import Qnero.Extrinsic.Call

/-!
# The walk back out of an extrinsic

The wallet reads note ciphertexts out of block bodies: down the envelope of each extrinsic to its
call, and out of the arguments of the three calls that carry a payload. It refuses what it cannot
read. `extrinsicPayloads_encode` says what it finds in every extrinsic a block can hold, and that is
the payload of the outermost call: the walk does not go into a call that carries calls.
-/

namespace Qnero

open Scale Machine

/-! ## The walk -/

inductive ExtensionField where
  | nonce
  | tip
deriving DecidableEq

inductive PayloadCall where
  | settlement
  | shield
deriving DecidableEq

/-- Why a walk refuses. -/
inductive WalkError where
  | noLengthPrefix
  | lengthMismatch (declared carried : ℕ)
  | noPreamble
  | unknownExtensions
  | noAddress
  | unknownAddress (variant : UInt8)
  | noScheme
  | unknownScheme (variant : UInt8)
  | endsBeforeEra
  | endsBefore (field : ExtensionField)
  | unknownType (bits : ℕ)
  | noCall
  | noCallIndex
  | noProofLength
  | proofOverrun
  | noOutputCount
  | noCiphertext (slot which : ℕ)
  | shortShield
  | noShieldCiphertext
  | leftOver (what : PayloadCall) (cursor length : ℕ)
deriving DecidableEq

/-- `read_compact`: a compact `u64`, and where it ended. -/
def readCompact (bytes : List UInt8) (offset : ℕ) : Option (ℕ × ℕ) :=
  if offset ≤ bytes.length then do
    let input := bytes.drop offset
    let (value, rest) ← decodeCompact 8 input
    some (value, offset + (input.length - rest.length))
  else none

/-- A `Vec<u8>` argument: a compact length and exactly that many bytes. -/
def readBytes (args : List UInt8) (offset : ℕ) : Option (List UInt8 × ℕ) := do
  let (len, start) ← readCompact args offset
  let stop ← checkedAdd u64Max start len
  if stop ≤ args.length then some ((args.drop start).take len, stop) else none

/-- The explicit bytes of the extensions: era, nonce, tip, mode. -/
def skipExtensions (body : List UInt8) (offset : ℕ) : Except WalkError ℕ := do
  let era ← okOr body[offset]? .endsBeforeEra
  let cursor := offset + if era = 0 then 1 else 2
  let (_, cursor) ← okOr (readCompact body cursor) (.endsBefore .nonce)
  let (_, cursor) ← okOr (readCompact body cursor) (.endsBefore .tip)
  .ok (cursor + 1)

def pushPayload (out : List (List UInt8)) (payload : List UInt8) : List (List UInt8) :=
  if payload = [] then out else out ++ [payload]

/-- The slots of a settlement from `slot` on, two ciphertexts each, by a reader that is told the slot
and which of its ciphertexts it reads. -/
def readSlotsWith {ε : Type} (read : ℕ → ℕ → ℕ → Except ε (List UInt8 × ℕ)) : ℕ → ℕ → ℕ →
    List (List UInt8) → Except ε (List (List UInt8) × ℕ)
  | 0, _, cursor, out => .ok (out, cursor)
  | count + 1, slot, cursor, out => do
    let (ct1, cursor) ← read slot 1 cursor
    let out := pushPayload out ct1
    let (ct2, cursor) ← read slot 2 cursor
    readSlotsWith read count (slot + 1) cursor (pushPayload out ct2)

def readSlots (args : List UInt8) : ℕ → ℕ → ℕ → List (List UInt8) →
    Except WalkError (List (List UInt8) × ℕ) :=
  readSlotsWith fun slot which cursor => okOr (readBytes args cursor) (.noCiphertext slot which)

def ensureConsumed (args : List UInt8) (cursor : ℕ) (what : PayloadCall) : Except WalkError Unit :=
  ensure (cursor = args.length) (.leftOver what cursor args.length)

def readBatchPayloads (args : List UInt8) : Except WalkError (List (List UInt8)) := do
  let (proofLen, proofAt) ← okOr (readCompact args 0) .noProofLength
  let cursor ← okOr ((checkedAdd u64Max proofAt proofLen).filter (· ≤ args.length)) .proofOverrun
  let (slots, cursor) ← okOr (readCompact args cursor) .noOutputCount
  let (out, cursor) ← readSlots args slots 0 cursor []
  ensureConsumed args cursor .settlement
  .ok out

def readShieldPayload (args : List UInt8) : Except WalkError (List (List UInt8)) := do
  ensure (16 + 32 ≤ args.length) .shortShield
  let (payload, cursor) ← okOr (readBytes args (16 + 32)) .noShieldCiphertext
  ensureConsumed args cursor .shield
  .ok (if payload = [] then [] else [payload])

/-- The extensions the wallet can lay out. -/
def knownSignedExtensions : List ExtensionId :=
  [.checkNonZeroSender, .checkSpecVersion, .checkTxVersion, .checkGenesis, .checkMortality,
    .checkNonce, .checkWeight, .reversibleTransactionExtension, .chargeTransactionPayment,
    .checkMetadataHash, .weightReclaim]

def ensureKnownSignedExtensions (metadata : Metadata) : Except WalkError Unit :=
  ensure (metadata.extensions = knownSignedExtensions) .unknownExtensions

/-- Where the call starts, by the type in the two top bits of the preamble. -/
def callOffset (metadata : Metadata) (body : List UInt8) (preamble : UInt8) : Except WalkError ℕ :=
  match preamble.toNat / 64 with
  | 0 => .ok 1
  | 2 => do
    ensureKnownSignedExtensions metadata
    let address ← okOr body[1]? .noAddress
    ensure (address = 0) (.unknownAddress address)
    let scheme ← okOr body[34]? .noScheme
    ensure (scheme = 0) (.unknownScheme scheme)
    skipExtensions body (35 + signatureLen + publicKeyLen)
  | 1 => do
    ensureKnownSignedExtensions metadata
    skipExtensions body 2
  | bits => .error (.unknownType bits)

/-- The payloads of a call, by its indices. Both wallets select the reader of the arguments this
way. -/
def callPayloads {ε : Type} (metadata : Metadata)
    (batch shield : List UInt8 → Except ε (List (List UInt8))) (pallet call : UInt8)
    (args : List UInt8) : Except ε (List (List UInt8)) :=
  if pallet ≠ metadata.shieldedPallet then .ok []
  else if call = metadata.submitPrivateBatch ∨ call = metadata.submitPublicBatch then batch args
  else if call = metadata.shield then shield args
  else .ok []

/-- `extrinsic_payloads`: every note ciphertext an extrinsic carries, as the wallet reads it. -/
def extrinsicPayloads (metadata : Metadata) (extrinsic : List UInt8) :
    Except WalkError (List (List UInt8)) := do
  let (declared, bodyAt) ← okOr (readCompact extrinsic 0) .noLengthPrefix
  let body := extrinsic.drop bodyAt
  ensure (body.length = declared) (.lengthMismatch declared body.length)
  let preamble ← okOr body[0]? .noPreamble
  let cursor ← callOffset metadata body preamble
  let pallet ← okOr body[cursor]? .noCall
  let call ← okOr body[cursor + 1]? .noCallIndex
  callPayloads metadata readBatchPayloads readShieldPayload pallet call (body.drop (cursor + 2))

/-! ## What the readers read -/

variable {bytes tail : List UInt8} {offset n : ℕ}

theorem le_u64Max_iff : n ≤ u64Max ↔ n < 256 ^ 8 := by
  have : 256 ^ 8 = u64Max + 1 := by decide
  omega

theorem leBytes_eq_toLe (x : UInt64) : leBytes x = toLe 8 x.toNat := by
  simp [leBytes, toLe, List.range_succ, Nat.shiftRight_eq_div_pow, Nat.div_div_eq_div_mul]

theorem readCompact_at (h : At bytes offset (compact n ++ tail)) (hn : n ≤ u64Max) :
    readCompact bytes offset = some (n, offset + (compact n).length) := by
  have read := decodeCompact_compact 8 (by omega) (by omega) (le_u64Max_iff.1 hn) tail
  rw [readCompact, if_pos h.le, h.drop_eq]
  simp only [read, Option.bind_eq_bind, Option.bind_some, List.length_append, Nat.add_sub_cancel]

/-- A value above `u64` is not read. -/
theorem readCompact_at_large (h : At bytes offset (compact n ++ tail)) (hn : u64Max < n)
    (hmax : n ≤ u128Max) : readCompact bytes offset = none := by
  have wide : n < 256 ^ 67 := lt_of_le_of_lt hmax (by decide)
  have refused := decodeCompact_compact_eq_none 8 (by omega)
    (Nat.not_lt.1 (mt le_u64Max_iff.2 (Nat.not_le.2 hn))) wide tail
  rw [readCompact, if_pos h.le, h.drop_eq]
  simp only [refused, Option.bind_eq_bind, Option.bind_none]

theorem readBytes_at {payload : List UInt8} (h : At bytes offset (encodeBytes payload ++ tail))
    (hlen : bytes.length ≤ u64Max) :
    readBytes bytes offset = some (payload, offset + (encodeBytes payload).length) := by
  have total := h.length_eq
  rw [encodeBytes, List.append_assoc] at h
  have start : At bytes (offset + (compact payload.length).length) (payload ++ tail) := h.skip rfl
  simp only [encodeBytes, List.length_append] at total
  have read := readCompact_at h (n := payload.length) (by omega)
  have stop : checkedAdd u64Max (offset + (compact payload.length).length) payload.length =
      some (offset + (encodeBytes payload).length) := by
    rw [checkedAdd_eq_some, encodeBytes, List.length_append]
    omega
  have inside : offset + (encodeBytes payload).length ≤ bytes.length := by
    rw [encodeBytes, List.length_append]
    omega
  simp only [readBytes, read, stop, Option.bind_eq_bind, Option.bind_some, if_pos inside,
    start.take]

/-! ### The arguments -/

theorem pushPayload_eq (out : List (List UInt8)) (payload : List UInt8) :
    pushPayload out payload = out ++ [payload].filter (· ≠ []) := by
  unfold pushPayload
  split
  · next empty => simp [empty]
  · next nonempty => simp [nonempty]

variable {outputs : List ShieldedOutput} {call : RuntimeCall}

/-- The loop over the slots, by induction on the outputs. -/
theorem readSlotsWith_at {ε : Type} {read : ℕ → ℕ → ℕ → Except ε (List UInt8 × ℕ)}
    (reads : ∀ slot which offset payload tail, At bytes offset (encodeBytes payload ++ tail) → read slot which offset = .ok (payload, offset + (encodeBytes payload).length))
    (slot : ℕ) (out : List (List UInt8)) (h : At bytes offset (encodeOutputs outputs ++ tail)) :
    readSlotsWith read outputs.length slot offset out =
      .ok (out ++ (outputs.flatMap fun output => [output.ct1, output.ct2]).filter (· ≠ []),
        offset + (encodeOutputs outputs).length) := by
  induction outputs generalizing slot offset out with
  | nil => simp [readSlotsWith, encodeOutputs]
  | cons output outputs ih =>
    have cons : encodeOutputs (output :: outputs) =
        encodeBytes output.ct1 ++ (encodeBytes output.ct2 ++ encodeOutputs outputs) := by
      simp [encodeOutputs]
    rw [cons, List.append_assoc, List.append_assoc] at h
    have second := h.skip rfl
    have rest := second.skip rfl
    rw [List.length_cons, readSlotsWith, bind_of_ok (reads _ _ _ _ _ h)]
    dsimp only
    rw [bind_of_ok (reads _ _ _ _ _ second)]
    dsimp only
    rw [ih (slot + 1) _ rest, cons, pushPayload_eq, pushPayload_eq]
    simp only [List.append_assoc, List.flatMap_cons, List.length_append, Nat.add_assoc]
    rw [← List.filter_append, ← List.filter_append]
    rfl

theorem length_le_encodeOutputs (outputs : List ShieldedOutput) :
    outputs.length ≤ (encodeOutputs outputs).length := by
  induction outputs with
  | nil => exact Nat.zero_le _
  | cons output outputs ih =>
    have pos := length_compact_pos output.ct1.length
    simp only [encodeOutputs, List.flatMap_cons, List.length_append, List.length_cons,
      encodeBytes] at ih ⊢
    omega

/-- Where the parts of a settlement's arguments stand. -/
theorem at_batchArgs {proof args : List UInt8} (hargs : encodeBatchArgs proof outputs = args) :
    At args 0 (compact proof.length ++ (proof ++ (compact outputs.length ++
      (encodeOutputs outputs ++ [])))) ∧
    At args (0 + (compact proof.length).length + proof.length)
      (compact outputs.length ++ (encodeOutputs outputs ++ [])) ∧
    At args (0 + (compact proof.length).length + proof.length + (compact outputs.length).length)
      (encodeOutputs outputs ++ []) ∧
    args.length = (compact proof.length).length + proof.length + (compact outputs.length).length +
      (encodeOutputs outputs).length := by
  have start : At args 0 (compact proof.length ++ (proof ++ (compact outputs.length ++
      (encodeOutputs outputs ++ [])))) := by
    refine ⟨Nat.zero_le _, ?_⟩
    rw [← hargs, List.drop_zero, List.append_nil]
    simp only [encodeBatchArgs, encodeBytes, List.append_assoc]
  have atCount := (start.skip rfl).skip rfl
  have total := start.length_eq
  simp only [List.length_append, List.length_nil] at total
  exact ⟨start, atCount, atCount.skip rfl, by omega⟩

theorem readBatchPayloads_args {proof : List UInt8}
    (hlen : (encodeBatchArgs proof outputs).length ≤ u64Max) :
    readBatchPayloads (encodeBatchArgs proof outputs) =
      .ok ((outputs.flatMap fun output => [output.ct1, output.ct2]).filter (· ≠ [])) := by
  generalize hargs : encodeBatchArgs proof outputs = args at hlen ⊢
  obtain ⟨start, atCount, atOutputs, total⟩ := at_batchArgs hargs
  have slots := length_le_encodeOutputs outputs
  have stop : (checkedAdd u64Max (0 + (compact proof.length).length) proof.length).filter
      (· ≤ args.length) = some (0 + (compact proof.length).length + proof.length) := by
    rw [Option.filter_eq_some_iff, checkedAdd_eq_some]
    refine ⟨⟨rfl, by omega⟩, ?_⟩
    rw [decide_eq_true_iff]
    omega
  unfold readBatchPayloads
  rw [bind_of_ok (okOr_ok_iff.2 (readCompact_at start (by omega)))]
  dsimp only
  rw [bind_of_ok (okOr_ok_iff.2 stop),
    bind_of_ok (okOr_ok_iff.2 (readCompact_at atCount (by omega)))]
  dsimp only
  rw [readSlots, bind_of_ok (readSlotsWith_at
    (fun _ _ _ _ _ h => okOr_ok_iff.2 (readBytes_at h hlen)) 0 [] atOutputs)]
  dsimp only
  rw [ensureConsumed, bind_of_ok (ensure_of (by omega)), List.nil_append]

theorem at_shieldArgs {value : ℕ} {inner : Hash256} {ciphertext args : List UInt8}
    (hargs : (ShieldedCall.shield value inner ciphertext).args = args) :
    At args (16 + 32) (encodeBytes ciphertext ++ []) := by
  have start : At args 0 ((toLe 16 value ++ inner.toBytes) ++ (encodeBytes ciphertext ++ [])) := by
    refine ⟨Nat.zero_le _, ?_⟩
    rw [← hargs, List.drop_zero, List.append_nil]
    rfl
  exact start.skip (by rw [List.length_append, length_toLe, length_toBytes, Nat.zero_add])

theorem filter_single (payload : List UInt8) :
    (if payload = [] then [] else [payload]) = [payload].filter (· ≠ []) := by
  split
  · next empty => simp [empty]
  · next nonempty => simp [nonempty]

theorem readShieldPayload_args {value : ℕ} {inner : Hash256} {ciphertext : List UInt8}
    (hlen : (ShieldedCall.shield value inner ciphertext).args.length ≤ u64Max) :
    readShieldPayload (ShieldedCall.shield value inner ciphertext).args =
      .ok ([ciphertext].filter (· ≠ [])) := by
  generalize hargs : (ShieldedCall.shield value inner ciphertext).args = args at hlen ⊢
  have atCiphertext := at_shieldArgs hargs
  have total := atCiphertext.length_eq
  simp only [List.length_append, List.length_nil] at total
  unfold readShieldPayload
  rw [bind_of_ok (ensure_of atCiphertext.le),
    bind_of_ok (okOr_ok_iff.2 (readBytes_at atCiphertext hlen))]
  dsimp only
  rw [ensureConsumed, bind_of_ok (ensure_of (by omega)), filter_single]

/-! ### The call -/

/-- The payloads of the outermost call. -/
def RuntimeCall.carried : RuntimeCall → List (List UInt8)
  | .shielded call => call.ciphertexts
  | _ => []

theorem LeafCall.index_ne (call : LeafCall) : call.index.1 ≠ shieldedPallet := by
  cases call <;> decide

/-- The reader of a shielded call's arguments. -/
theorem callPayloads_shielded {ε : Type} {batch shield : List UInt8 → Except ε (List (List UInt8))}
    (call : ShieldedCall) : callPayloads runtimeMetadata batch shield shieldedPallet call.callIndex
      call.args = match call with
        | .submitPrivateBatch .. | .submitPublicBatch .. => batch call.args
        | .shield .. => shield call.args
        | .coinbase .. => .ok [] := by
  cases call <;> rfl

/-- **What is read at an encoded call**, by readers that read the arguments of the shielded pallet's
calls: the payloads of this call, and nothing of the calls inside it. -/
theorem callPayloads_encode {ε : Type} {batch shield : List UInt8 → Except ε (List (List UInt8))}
    (call : RuntimeCall)
    (hbatch : ∀ proof outputs, (encodeBatchArgs proof outputs).length ≤ call.encode.length →
      batch (encodeBatchArgs proof outputs) =
        .ok ((outputs.flatMap fun output => [output.ct1, output.ct2]).filter (· ≠ [])))
    (hshield : ∀ value inner ciphertext,
      (ShieldedCall.shield value inner ciphertext).args.length ≤ call.encode.length →
      shield (ShieldedCall.shield value inner ciphertext).args = .ok ([ciphertext].filter (· ≠ []))) :
    ∃ pallet index args, call.encode = pallet :: index :: args ∧
      callPayloads runtimeMetadata batch shield pallet index args = .ok call.carried := by
  cases call with
  | leaf call args => exact ⟨_, _, _, rfl, if_pos call.index_ne⟩
  | batchAll calls => exact ⟨utilityPallet, 2, _, by rw [RuntimeCall.encode], if_pos (by decide)⟩
  | propose multisig call expiry =>
    exact ⟨multisigPallet, 1, _, by rw [RuntimeCall.encode], if_pos (by decide)⟩
  | approve multisig proposalId call =>
    exact ⟨multisigPallet, 2, _, by rw [RuntimeCall.encode], if_pos (by decide)⟩
  | execute multisig proposalId call =>
    exact ⟨multisigPallet, 6, _, by rw [RuntimeCall.encode], if_pos (by decide)⟩
  | shielded call =>
    refine ⟨shieldedPallet, call.callIndex, call.args, by rw [RuntimeCall.encode], ?_⟩
    have shorter : call.args.length ≤ (RuntimeCall.shielded call).encode.length := by
      rw [RuntimeCall.encode, List.length_cons, List.length_cons]
      omega
    rw [callPayloads_shielded]
    cases call with
    | submitPrivateBatch proof outputs => exact hbatch proof outputs shorter
    | submitPublicBatch proof outputs => exact hbatch proof outputs shorter
    | shield value inner ciphertext => exact hshield value inner ciphertext shorter
    | coinbase inner ciphertext => rfl

/-! ### The envelope -/

theorem Era.encode_eq (era : Era) : ∃ first rest, era.encode = first :: rest ∧
    (if first = 0 then 1 else 2) = era.encode.length := by
  cases era with
  | immortal => exact ⟨0, [], rfl, rfl⟩
  | mortal exponent phase pos le lt =>
    refine ⟨_, _, rfl, ?_⟩
    -- The exponent is not zero, so neither is the low byte.
    have nonzero : UInt8.ofNat (exponent + 16 * phase) ≠ 0 := by
      intro zero
      have low := congrArg UInt8.toNat zero
      rw [UInt8.toNat_ofNat'] at low
      have : (exponent + 16 * phase) % 2 ^ 8 = 0 := low
      omega
    rw [if_neg nonzero, Era.encode, length_toLe]

theorem skipExtensions_at {e : Extensions} (h : At bytes offset (e.encode ++ tail)) :
    skipExtensions bytes offset =
      if e.tip ≤ u64Max then .ok (offset + e.encode.length) else .error (.endsBefore .tip) := by
  obtain ⟨first, rest, era, width⟩ := e.era.encode_eq
  have nonce : e.nonce ≤ u64Max := le_trans e.nonce_le (by decide)
  simp only [Extensions.encode, List.append_assoc] at h
  have atNonce := h.skip rfl
  have atTip := atNonce.skip rfl
  rw [era, List.cons_append] at h
  unfold skipExtensions
  rw [bind_of_ok (okOr_ok_iff.2 h.getElem?)]
  dsimp only
  rw [width, bind_of_ok (okOr_ok_iff.2 (readCompact_at atNonce nonce))]
  dsimp only
  split
  · next small =>
    rw [bind_of_ok (okOr_ok_iff.2 (readCompact_at atTip small))]
    simp only [Extensions.encode, List.length_append, List.length_singleton, Nat.add_assoc]
  · next large =>
    rw [readCompact_at_large atTip (by omega) e.tip_le]
    rfl

/-- What stands at the fixed offsets of a signed envelope. -/
theorem signed_body {body : List UInt8} {who : AccountId} {signature : SignatureWithPublic}
    {e : Extensions} (h : At body 0 ((Preamble.signed who signature e).encode ++ tail)) :
    body[0]? = some 0x84 ∧ body[1]? = some 0 ∧ body[34]? = some 0 ∧
      At body (35 + signatureLen + publicKeyLen) (e.encode ++ tail) := by
  simp only [Preamble.encode, List.append_assoc, List.cons_append, List.nil_append] at h
  have address := h.tail
  have scheme := address.tail.skip rfl
  rw [length_toBytes] at scheme
  have publicKey := scheme.tail.skip rfl
  rw [signature.signature_length] at publicKey
  refine ⟨h.getElem?, address.getElem?, scheme.getElem?, publicKey.skip ?_⟩
  rw [signature.publicKey_length]

/-- The walk down the envelope ends at the call, unless the tip stops it. -/
theorem callOffset_at {body : List UInt8} {preamble : Preamble}
    (h : At body 0 (preamble.encode ++ tail)) : ∃ first, body[0]? = some first ∧
      callOffset runtimeMetadata body first =
        if preamble.tip ≤ u64Max then .ok preamble.encode.length
        else .error (.endsBefore .tip) := by
  have known : ensureKnownSignedExtensions runtimeMetadata = .ok () := ensure_of rfl
  cases preamble with
  | bare version hversion =>
    refine ⟨version, h.getElem?, ?_⟩
    have free : (Preamble.bare version hversion).tip ≤ u64Max := Nat.zero_le _
    rw [if_pos free]
    rcases hversion with rfl | rfl <;> rfl
  | signed who signature e =>
    obtain ⟨first, address, scheme, extensions⟩ := signed_body h
    refine ⟨_, first, ?_⟩
    have type : callOffset runtimeMetadata body 0x84 = skipExtensions body
        (35 + signatureLen + publicKeyLen) := by
      show (do
        ensureKnownSignedExtensions runtimeMetadata
        let address ← okOr body[1]? .noAddress
        ensure (address = 0) (.unknownAddress address)
        let scheme ← okOr body[34]? .noScheme
        ensure (scheme = 0) (.unknownScheme scheme)
        skipExtensions body (35 + signatureLen + publicKeyLen)) = _
      rw [bind_of_ok known, bind_of_ok (okOr_ok_iff.2 address), bind_of_ok (ensure_of rfl),
        bind_of_ok (okOr_ok_iff.2 scheme), bind_of_ok (ensure_of rfl)]
    rw [type, skipExtensions_at extensions]
    simp only [Preamble.encode, Preamble.tip, List.length_append, List.length_cons,
      List.length_nil, length_toBytes, signature.signature_length, signature.publicKey_length]
  | general version e =>
    have extensions : At body 2 (e.encode ++ tail) := by
      simp only [Preamble.encode, List.append_assoc] at h
      exact h.skip rfl
    refine ⟨_, h.getElem?, ?_⟩
    have type : callOffset runtimeMetadata body 0x45 = skipExtensions body 2 := by
      show (do
        ensureKnownSignedExtensions runtimeMetadata
        skipExtensions body 2) = _
      rw [bind_of_ok known]
    rw [type, skipExtensions_at extensions]
    simp only [Preamble.encode, Preamble.tip, List.length_append, List.length_cons, List.length_nil]

/-- Where the parts of an extrinsic stand. -/
theorem Extrinsic.at_encode (x : Extrinsic) :
    At x.encode 0 (compact x.body.length ++ x.body) ∧
    At x.encode (0 + (compact x.body.length).length) x.body ∧
    At x.body 0 (x.preamble.encode ++ x.call.encode) ∧
    x.encode.length = (compact x.body.length).length + x.body.length ∧
    x.body.length = x.preamble.encode.length + x.call.encode.length := by
  have start : At x.encode 0 (compact x.body.length ++ x.body) := .start _
  exact ⟨start, start.skip rfl, .start _, List.length_append, List.length_append⟩

/-- **What the wallet finds in an extrinsic of a block**: the payloads of its outermost call, or
nothing at all where the tip does not fit 64 bits. -/
theorem extrinsicPayloads_encode (x : Extrinsic) (hlen : x.encode.length ≤ u64Max) :
    extrinsicPayloads runtimeMetadata x.encode =
      if x.preamble.tip ≤ u64Max then .ok x.call.carried else .error (.endsBefore .tip) := by
  obtain ⟨start, body, envelope, total, length⟩ := x.at_encode
  obtain ⟨first, hfirst, offset⟩ := callOffset_at envelope
  obtain ⟨pallet, index, args, encoded, read⟩ := callPayloads_encode x.call
    (fun proof outputs h => readBatchPayloads_args (by omega))
    (fun value inner ciphertext h => readShieldPayload_args (by omega))
  have call : At x.body x.preamble.encode.length (pallet :: index :: args) :=
    encoded ▸ envelope.skip (Nat.zero_add _).symm
  have rest : At x.body (x.preamble.encode.length + 2) args := call.tail.tail
  unfold extrinsicPayloads
  rw [bind_of_ok (okOr_ok_iff.2 (readCompact_at start (by omega)))]
  dsimp only
  rw [body.drop_eq, bind_of_ok (ensure_of rfl), bind_of_ok (okOr_ok_iff.2 hfirst), offset]
  split
  · rw [bind_of_ok rfl, bind_of_ok (okOr_ok_iff.2 call.getElem?),
      bind_of_ok (okOr_ok_iff.2 call.tail.getElem?), rest.drop_eq, read]
  · rfl

/-! ## Completeness -/

/-- The calls that dispatch a call they carry. -/
def RuntimeCall.isWrapper : RuntimeCall → Bool
  | .batchAll _ | .execute .. => true
  | _ => false

/-- The walk errs, or returns the payloads of the executed calls in order. -/
def WalkComplete (x : Extrinsic) (executed : List ShieldedCall) : Prop :=
  (∃ e, extrinsicPayloads runtimeMetadata x.encode = .error e) ∨
    extrinsicPayloads runtimeMetadata x.encode = .ok (executed.flatMap ShieldedCall.ciphertexts)

/-- Without a wrapper around it, what is executed is the call itself. -/
theorem Executes.carried_eq {origin : RawOrigin} {executed : List ShieldedCall}
    (run : Executes origin call executed) (direct : call.isWrapper = false) :
    executed.flatMap ShieldedCall.ciphertexts = call.carried := by
  cases run with
  | leaf | propose | approve => rfl
  | settle | coinbase | shield => exact List.flatMap_singleton ..
  | batchAll | execute | executeFailed => cases direct

theorem carried_of_isWrapper (wrapper : call.isWrapper = true) : call.carried = [] := by
  cases call with
  | batchAll | execute => rfl
  | leaf | shielded | propose | approve => cases wrapper

/-- **The walk misses what a wrapper executes, and nothing else.** For an extrinsic of a block and a
run of it, the walk is complete exactly if it errs on the tip, the outermost call is no wrapper, or
no executed call has a payload. -/
theorem walkComplete_iff {info : CallInfo} {x : Extrinsic} (admitted : x.Admitted info)
    {executed : List ShieldedCall} (run : Executes x.preamble.origin x.call executed) :
    WalkComplete x executed ↔ u64Max < x.preamble.tip ∨ x.call.isWrapper = false ∨
      executed.flatMap ShieldedCall.ciphertexts = [] := by
  have fits : x.encode.length ≤ u64Max := le_trans admitted.fits (by decide)
  unfold WalkComplete
  rw [extrinsicPayloads_encode x fits]
  by_cases tip : x.preamble.tip ≤ u64Max
  · simp only [if_pos tip, reduceCtorEq, exists_false, false_or, Except.ok.injEq,
      Nat.not_lt.2 tip]
    cases wrapper : x.call.isWrapper with
    | false => simp [run.carried_eq wrapper]
    | true =>
      rw [carried_of_isWrapper wrapper]
      simp only [Bool.true_eq_false, false_or]
      exact eq_comm
  · simp [if_neg tip, Nat.lt_of_not_le tip]

/-! ### A shield in a batch -/

namespace Sample

/-- Proposals are refused whole. -/
def callInfo : CallInfo := ⟨fun _ => none, fun _ => false⟩

def signature : SignatureWithPublic where
  signature := List.replicate signatureLen 0
  publicKey := List.replicate publicKeyLen 0
  signature_length := List.length_replicate
  publicKey_length := List.length_replicate

def extensions (tip : ℕ) (h : tip ≤ u128Max) : Extensions := ⟨.immortal, 0, tip, false, Nat.zero_le _, h⟩

/-- A shield with a ciphertext of one byte. -/
def shieldOne : ShieldedCall := .shield poolStep 0 [7]

def signedBy (tip : ℕ) (h : tip ≤ u128Max) (call : RuntimeCall) : Extrinsic :=
  ⟨.signed 0 signature (extensions tip h), call⟩

def shieldDirect : Extrinsic := signedBy 0 (Nat.zero_le _) (.shielded shieldOne)

def shieldBatched : Extrinsic := signedBy 0 (Nat.zero_le _) (.batchAll [.shielded shieldOne])

theorem length_body_signedBy (tip : ℕ) (h : tip ≤ u128Max) (call : RuntimeCall) :
    (signedBy tip h call).body.length = 7257 + (compact tip).length + call.encode.length := by
  simp only [signedBy, Extrinsic.body, Preamble.encode, Extensions.encode, extensions, signature,
    Era.encode, List.length_append, List.length_replicate, List.length_cons, List.length_nil,
    length_toBytes, signatureLen, publicKeyLen]
  have zero : (compact 0).length = 1 := by decide
  omega

theorem length_shieldOne : (RuntimeCall.shielded shieldOne).encode.length = 52 := by
  decide +kernel

theorem length_batchOne : (RuntimeCall.batchAll [.shielded shieldOne]).encode.length = 55 := by
  decide +kernel

/-- A few thousand bytes fit a block. -/
theorem fits_signedBy {tip : ℕ} {h : tip ≤ u128Max} (width : (compact tip).length ≤ 17)
    (small : call.encode.length ≤ 100) :
    (signedBy tip h call).encode.length ≤ runtimeBlockLength := by
  have length := length_body_signedBy tip h call
  have prefixed : (compact (signedBy tip h call).body.length).length ≤ 4 :=
    length_compact_le (by omega)
  rw [Extrinsic.encode, encodeBytes, List.length_append, runtimeBlockLength]
  omega

theorem admitted_direct : shieldDirect.Admitted callInfo :=
  ⟨rfl, fits_signedBy (by decide) (by rw [length_shieldOne]; decide)⟩

theorem admitted_batched : shieldBatched.Admitted callInfo :=
  ⟨rfl, fits_signedBy (by decide) (by rw [length_batchOne]; decide)⟩

theorem executes_batched :
    Executes shieldBatched.preamble.origin shieldBatched.call [shieldOne] := by
  refine .batchAll (fun call hcall => ?_) (.cons .shield .nil)
  rw [List.mem_singleton.1 hcall]
  rfl

end Sample

/-- A shield alone is found. -/
theorem walkComplete_iff_sample :
    Executes Sample.shieldDirect.preamble.origin Sample.shieldDirect.call [Sample.shieldOne] ∧
      WalkComplete Sample.shieldDirect [Sample.shieldOne] :=
  ⟨.shield, (walkComplete_iff Sample.admitted_direct .shield).2 (.inr (.inl rfl))⟩

/-- The same shield in a batch is executed, and the walk returns nothing for it. -/
theorem walk_misses_batched_shield :
    Sample.shieldBatched.Admitted Sample.callInfo ∧
      Executes Sample.shieldBatched.preamble.origin Sample.shieldBatched.call [Sample.shieldOne] ∧
      ¬ WalkComplete Sample.shieldBatched [Sample.shieldOne] := by
  refine ⟨Sample.admitted_batched, Sample.executes_batched, ?_⟩
  have fits : Sample.shieldBatched.encode.length ≤ u64Max :=
    le_trans Sample.admitted_batched.fits (by decide)
  have walk : extrinsicPayloads runtimeMetadata Sample.shieldBatched.encode = .ok [] :=
    (extrinsicPayloads_encode _ fits).trans (if_pos (Nat.zero_le _))
  rintro (⟨e, err⟩ | found)
  · rw [walk] at err
    cases err
  · rw [walk] at found
    cases found

end Qnero
