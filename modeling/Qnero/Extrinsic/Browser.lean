import Qnero.Extrinsic.Walk

/-!
# The browser's walk

The browser wallet walks the same bodies with code of its own. It takes every offset from the
metadata, where the other wallet has them compiled in, and reads its integers as JavaScript numbers,
so it refuses a compact integer above `Number.MAX_SAFE_INTEGER` wherever one stands. The two walks
agree on every extrinsic of a block whose tip is small enough for both.
-/

namespace Qnero.Browser

open Scale

/-! ## The walk -/

/-- Why the browser's walk throws. -/
inductive BodyError where
  | compactPastEnd (length : ℕ)
  | twoBytesPastEnd
  | fourBytesPastEnd
  | bigPastEnd
  | compactTooLarge
  | lengthMismatch (declared carried : ℕ)
  | noPreamble
  | unknownType (bits : ℕ)
  | noCallIndex
  | proofOverrun
  | vectorOverrun (length : ℕ)
  | noCiphertext (slot which : ℕ) (cause : BodyError)
  | shortShield
  | leftOver (what : PayloadCall) (cursor length : ℕ)
  | unknownAddress (variant : Option UInt8)
  | signaturePastEnd
  | unknownScheme (variant : UInt8)
  | unknownExtension (identifier : ExtensionId)
  | endsBefore (identifier : ExtensionId)
  | endsBeforeEra
  | endsInsideEra
  | extensionsPastEnd
deriving DecidableEq

/-- `Number.MAX_SAFE_INTEGER`. -/
def maxSafeInteger : ℕ := 2 ^ 53 - 1

def leBytesToBigInt (bytes : List UInt8) : ℕ :=
  bytes.foldr (fun b out => (out <<< 8) ||| b.toNat) 0

/-- All four modes, the shortest form not asked for; returns the value and where it ended. -/
def readCompact (bytes : List UInt8) (offset : ℕ) : Except BodyError (ℕ × ℕ) := do
  let first ← okOr bytes[offset]? (.compactPastEnd bytes.length)
  match first.toNat % 4 with
  | 0 => .ok (first.toNat >>> 2, offset + 1)
  | 1 => do
    let second ← okOr bytes[offset + 1]? .twoBytesPastEnd
    .ok ((first.toNat ||| (second.toNat <<< 8)) >>> 2, offset + 2)
  | 2 => do
    let b1 ← okOr bytes[offset + 1]? .fourBytesPastEnd
    let b2 ← okOr bytes[offset + 2]? .fourBytesPastEnd
    let b3 ← okOr bytes[offset + 3]? .fourBytesPastEnd
    let raw := first.toNat + b1.toNat * 0x100 + b2.toNat * 0x10000 + b3.toNat * 0x1000000
    .ok (raw / 4, offset + 4)
  | _ => do
    let length := (first.toNat >>> 2) + 4
    let slice := (bytes.drop (offset + 1)).take length
    ensure (slice.length = length) .bigPastEnd
    let value := leBytesToBigInt slice
    ensure (value ≤ maxSafeInteger) .compactTooLarge
    .ok (value, offset + 1 + length)

def readBytes (args : List UInt8) (offset : ℕ) : Except BodyError (List UInt8 × ℕ) := do
  let (value, next) ← readCompact args offset
  let stop := next + value
  ensure (stop ≤ args.length) (.vectorOverrun value)
  .ok ((args.drop next).take value, stop)

def ensureConsumed (args : List UInt8) (cursor : ℕ) (what : PayloadCall) : Except BodyError Unit :=
  ensure (cursor = args.length) (.leftOver what cursor args.length)

def readSlots (args : List UInt8) : ℕ → ℕ → ℕ → List (List UInt8) →
    Except BodyError (List (List UInt8) × ℕ) :=
  readSlotsWith fun slot which cursor =>
    (readBytes args cursor).mapError (.noCiphertext slot which)

def readBatchPayloads (args : List UInt8) : Except BodyError (List (List UInt8)) := do
  let (proofLen, proofAt) ← readCompact args 0
  let cursor := proofAt + proofLen
  ensure (cursor ≤ args.length) .proofOverrun
  let (slots, cursor) ← readCompact args cursor
  let (out, cursor) ← readSlots args slots 0 cursor []
  ensureConsumed args cursor .settlement
  .ok out

def readShieldPayload (args : List UInt8) : Except BodyError (List (List UInt8)) := do
  ensure (16 + 32 ≤ args.length) .shortShield
  let (bytes, next) ← readBytes args (16 + 32)
  ensureConsumed args next .shield
  .ok (if bytes = [] then [] else [bytes])

def skipAddress (layout : Metadata) (body : List UInt8) (offset : ℕ) : Except BodyError ℕ :=
  if !layout.multiAddress then .ok (offset + 32)
  else
    match body[offset]? with
    | some 0 => .ok (offset + 33)
    | some 1 => do
      let (_, next) ← readCompact body (offset + 1)
      .ok next
    | some 2 => do
      let (value, next) ← readCompact body (offset + 1)
      .ok (next + value)
    | some 3 => .ok (offset + 33)
    | some 4 => .ok (offset + 21)
    | variant => .error (.unknownAddress variant)

def skipSignature (layout : Metadata) (body : List UInt8) (offset : ℕ) : Except BodyError ℕ := do
  let variant ← okOr body[offset]? .signaturePastEnd
  let length ← okOr (layout.signatureLengths.lookup variant) (.unknownScheme variant)
  .ok (offset + 1 + length)

inductive Width where
  | empty
  | era
  | compact
  | byte

/-- `EXTENSION_WIDTH`. -/
def extensionWidth : ExtensionId → Option Width
  | .checkNonZeroSender => some .empty
  | .checkSpecVersion => some .empty
  | .checkTxVersion => some .empty
  | .checkGenesis => some .empty
  | .checkMortality => some .era
  | .checkNonce => some .compact
  | .checkWeight => some .empty
  | .reversibleTransactionExtension => some .empty
  | .chargeTransactionPayment => some .compact
  | .checkMetadataHash => some .byte
  | .weightReclaim => some .empty
  | .other _ => none

def skipExtension (body : List UInt8) (cursor : ℕ) (identifier : ExtensionId) :
    Except BodyError ℕ := do
  let width ← okOr (extensionWidth identifier) (.unknownExtension identifier)
  match width with
  | .empty => .ok cursor
  | .byte => do
    ensure (cursor < body.length) (.endsBefore identifier)
    .ok (cursor + 1)
  | .era => do
    let era ← okOr body[cursor]? .endsBeforeEra
    let cursor := cursor + if era = 0 then 1 else 2
    ensure (cursor ≤ body.length) .endsInsideEra
    .ok cursor
  | .compact => do
    let (_, next) ← readCompact body cursor
    .ok next

def skipExtensions (layout : Metadata) (body : List UInt8) (offset : ℕ) : Except BodyError ℕ := do
  let cursor ← layout.extensions.foldlM (skipExtension body) offset
  ensure (cursor ≤ body.length) .extensionsPastEnd
  .ok cursor

def callOffset (layout : Metadata) (body : List UInt8) (preamble : UInt8) : Except BodyError ℕ :=
  match preamble.toNat >>> 6 with
  | 0 => .ok 1
  | 2 => do
    let signature ← skipAddress layout body 1
    let extensions ← skipSignature layout body signature
    skipExtensions layout body extensions
  | 1 => skipExtensions layout body 2
  | bits => .error (.unknownType bits)

/-- `extrinsicPayloads`: every note ciphertext an extrinsic carries, as the browser reads it. -/
def extrinsicPayloads (layout : Metadata) (extrinsic : List UInt8) :
    Except BodyError (List (List UInt8)) := do
  let (declared, bodyAt) ← readCompact extrinsic 0
  ensure (extrinsic.length - bodyAt = declared)
    (.lengthMismatch declared (extrinsic.length - bodyAt))
  let body := extrinsic.drop bodyAt
  let preamble ← okOr body[0]? .noPreamble
  let cursor ← callOffset layout body preamble
  let pallet ← okOr body[cursor]? .noCallIndex
  let call ← okOr body[cursor + 1]? .noCallIndex
  callPayloads layout readBatchPayloads readShieldPayload pallet call (body.drop (cursor + 2))

/-! ## What the readers read -/

variable {bytes tail : List UInt8} {offset n : ℕ}

theorem leBytesToBigInt_eq (bytes : List UInt8) : leBytesToBigInt bytes = ofLe bytes := by
  induction bytes with
  | nil => rfl
  | cons b bytes ih =>
    rw [leBytesToBigInt, List.foldr_cons, ← leBytesToBigInt, ih, ofLe, Nat.shiftLeft_eq,
      Nat.mul_comm (ofLe bytes), ← Nat.two_pow_add_eq_or_of_lt b.toNat_lt, Nat.add_comm]

/-- **The browser reads a compact integer it can hold exactly, and refuses any other.** -/
theorem readCompact_at (h : At bytes offset (compact n ++ tail)) (hn : n < 256 ^ 67) :
    readCompact bytes offset = if n ≤ maxSafeInteger then .ok (n, offset + (compact n).length)
      else .error .compactTooLarge := by
  obtain ⟨b, rest, eq, form⟩ := compact_form hn
  rw [eq, List.cons_append] at h
  rw [eq, readCompact, bind_of_ok (okOr_ok_iff.2 h.getElem?)]
  cases form with
  | one small hb =>
    have mode : b.toNat % 4 = 0 := by omega
    have fits : n ≤ maxSafeInteger := le_trans small.le (by decide)
    have value : b.toNat >>> 2 = n := by
      rw [Nat.shiftRight_eq_div_pow]
      omega
    rw [mode, if_pos fits]
    simp only [value, List.length_singleton]
  -- The two byte form is read with bit operations, the four byte form with sums.
  | two range length value =>
    obtain ⟨second, rfl⟩ := List.length_eq_one_iff.1 length
    have mode : b.toNat % 4 = 1 := by omega
    have fits : n ≤ maxSafeInteger := le_trans range.2.le (by decide)
    have read : (b.toNat ||| (second.toNat <<< 8)) >>> 2 = n := by
      rw [Nat.shiftLeft_eq, Nat.mul_comm, Nat.or_comm,
        ← Nat.two_pow_add_eq_or_of_lt b.toNat_lt, Nat.shiftRight_eq_div_pow]
      simp only [ofLe] at value
      omega
    rw [mode, if_pos fits]
    simp only [bind_of_ok (okOr_ok_iff.2 h.tail.getElem?), read, List.length_cons, List.length_nil]
  | four range length value =>
    obtain ⟨b1, b2, b3, rfl⟩ := List.length_eq_three.1 length
    have mode : b.toNat % 4 = 2 := by omega
    have fits : n ≤ maxSafeInteger := le_trans range.2.le (by decide)
    have read : (b.toNat + b1.toNat * 0x100 + b2.toNat * 0x10000 + b3.toNat * 0x1000000) / 4 =
        n := by
      simp only [ofLe] at value
      omega
    rw [mode, if_pos fits]
    simp only [bind_of_ok (okOr_ok_iff.2 h.tail.getElem?),
      bind_of_ok (okOr_ok_iff.2 h.tail.tail.getElem?),
      bind_of_ok (okOr_ok_iff.2 h.tail.tail.tail.getElem?), read, List.length_cons,
      List.length_nil]
  | big large hb length value =>
    have four := le_byteLength large
    have mode : b.toNat % 4 = 3 := by omega
    have count : (b.toNat >>> 2) + 4 = rest.length := by
      rw [Nat.shiftRight_eq_div_pow]
      omega
    rw [mode]
    simp only [count, h.tail.take, leBytesToBigInt_eq, value]
    rw [bind_of_ok (ensure_of trivial)]
    split
    · next small =>
      rw [bind_of_ok (ensure_of small), List.length_cons, Nat.add_assoc, Nat.add_comm 1]
    · next huge =>
      rw [ensure, if_neg huge]
      rfl

theorem le_wide (h : n ≤ maxSafeInteger) : n < 256 ^ 67 := lt_of_le_of_lt h (by decide)

theorem readCompact_ok (h : At bytes offset (compact n ++ tail)) (hn : n ≤ maxSafeInteger) :
    readCompact bytes offset = .ok (n, offset + (compact n).length) := by
  rw [readCompact_at h (le_wide hn), if_pos hn]

theorem readBytes_at {payload : List UInt8} (h : At bytes offset (encodeBytes payload ++ tail))
    (hlen : bytes.length ≤ maxSafeInteger) :
    readBytes bytes offset = .ok (payload, offset + (encodeBytes payload).length) := by
  have total := h.length_eq
  rw [encodeBytes, List.append_assoc] at h
  have start := h.skip rfl
  simp only [encodeBytes, List.length_append] at total
  rw [readBytes, bind_of_ok (readCompact_ok h (by omega))]
  dsimp only
  rw [bind_of_ok (ensure_of (by omega)), start.take, encodeBytes, List.length_append, Nat.add_assoc]

theorem readBatchPayloads_args {proof : List UInt8} {outputs : List ShieldedOutput}
    (hlen : (encodeBatchArgs proof outputs).length ≤ maxSafeInteger) :
    readBatchPayloads (encodeBatchArgs proof outputs) =
      .ok ((outputs.flatMap fun output => [output.ct1, output.ct2]).filter (· ≠ [])) := by
  generalize hargs : encodeBatchArgs proof outputs = args at hlen ⊢
  obtain ⟨start, atCount, atOutputs, total⟩ := at_batchArgs hargs
  have slots := length_le_encodeOutputs outputs
  unfold readBatchPayloads
  rw [bind_of_ok (readCompact_ok start (by omega))]
  dsimp only
  rw [bind_of_ok (ensure_of (by omega)), bind_of_ok (readCompact_ok atCount (by omega))]
  dsimp only
  rw [readSlots, bind_of_ok (readSlotsWith_at
    (fun _ _ _ _ _ h => mapError_ok_iff.2 (readBytes_at h hlen)) 0 [] atOutputs)]
  dsimp only
  rw [ensureConsumed, bind_of_ok (ensure_of (by omega)), List.nil_append]

theorem readShieldPayload_args {value : ℕ} {inner : Hash256} {ciphertext : List UInt8}
    (hlen : (ShieldedCall.shield value inner ciphertext).args.length ≤ maxSafeInteger) :
    readShieldPayload (ShieldedCall.shield value inner ciphertext).args =
      .ok ([ciphertext].filter (· ≠ [])) := by
  generalize hargs : (ShieldedCall.shield value inner ciphertext).args = args at hlen ⊢
  have atCiphertext := at_shieldArgs hargs
  have total := atCiphertext.length_eq
  simp only [List.length_append, List.length_nil] at total
  unfold readShieldPayload
  rw [bind_of_ok (ensure_of atCiphertext.le), bind_of_ok (readBytes_at atCiphertext hlen)]
  dsimp only
  rw [ensureConsumed, bind_of_ok (ensure_of (by omega)), filter_single]

/-! ### The envelope -/

theorem skipExtension_empty {identifier : ExtensionId} {cursor : ℕ}
    (h : extensionWidth identifier = some .empty) :
    skipExtension bytes cursor identifier = .ok cursor := by
  rw [skipExtension, bind_of_ok (okOr_ok_iff.2 h)]

theorem skipExtension_era {era : Era} (h : At bytes offset (era.encode ++ tail)) :
    skipExtension bytes offset .checkMortality = .ok (offset + era.encode.length) := by
  obtain ⟨first, rest, eq, width⟩ := era.encode_eq
  have behind := h.skip rfl
  rw [eq, List.cons_append] at h
  have mortality : extensionWidth .checkMortality = some .era := rfl
  rw [skipExtension, bind_of_ok (okOr_ok_iff.2 mortality)]
  dsimp only
  rw [bind_of_ok (okOr_ok_iff.2 h.getElem?), width, bind_of_ok (ensure_of behind.le)]

theorem skipExtension_compact (identifier : ExtensionId)
    (h : extensionWidth identifier = some .compact) (hat : At bytes offset (compact n ++ tail))
    (hn : n < 256 ^ 67) : skipExtension bytes offset identifier =
      if n ≤ maxSafeInteger then .ok (offset + (compact n).length)
      else .error .compactTooLarge := by
  rw [skipExtension, bind_of_ok (okOr_ok_iff.2 h)]
  dsimp only
  rw [readCompact_at hat hn]
  split <;> rfl

/-- The extensions of the runtime, one after the other. -/
theorem skipExtensions_at {e : Extensions} (h : At bytes offset (e.encode ++ tail)) :
    skipExtensions runtimeMetadata bytes offset =
      if e.tip ≤ maxSafeInteger then .ok (offset + e.encode.length)
      else .error .compactTooLarge := by
  have behind := h.skip rfl
  have nonceSmall : e.nonce ≤ maxSafeInteger := le_trans e.nonce_le (by decide)
  have tipWide : e.tip < 256 ^ 67 := lt_of_le_of_lt e.tip_le (by decide)
  simp only [Extensions.encode, List.append_assoc] at h
  have atNonce := h.skip rfl
  have atTip := atNonce.skip rfl
  have atMode := atTip.skip rfl
  have nonce := skipExtension_compact .checkNonce rfl atNonce (le_wide nonceSmall)
  have tip := skipExtension_compact .chargeTransactionPayment rfl atTip tipWide
  rw [if_pos nonceSmall] at nonce
  have fold : runtimeMetadata.extensions.foldlM (skipExtension bytes) offset =
      if e.tip ≤ maxSafeInteger then .ok (offset + e.encode.length)
      else .error .compactTooLarge := by
    show txExtension.foldlM (skipExtension bytes) offset = _
    simp only [txExtension, List.foldlM_cons, List.foldlM_nil]
    rw [bind_of_ok (skipExtension_empty rfl), bind_of_ok (skipExtension_empty rfl),
      bind_of_ok (skipExtension_empty rfl), bind_of_ok (skipExtension_empty rfl),
      bind_of_ok (skipExtension_era h), bind_of_ok nonce, bind_of_ok (skipExtension_empty rfl),
      bind_of_ok (skipExtension_empty rfl), tip]
    split
    · have inside := atMode.length_eq
      rw [List.length_append, List.length_singleton] at inside
      have mode : skipExtension bytes (offset + e.era.encode.length + (compact e.nonce).length +
          (compact e.tip).length) .checkMetadataHash = .ok (offset + e.era.encode.length +
            (compact e.nonce).length + (compact e.tip).length + 1) := by
        have byte : extensionWidth .checkMetadataHash = some .byte := rfl
        rw [skipExtension, bind_of_ok (okOr_ok_iff.2 byte)]
        dsimp only
        rw [bind_of_ok (ensure_of (by omega))]
      rw [bind_of_ok rfl, bind_of_ok mode, bind_of_ok (skipExtension_empty rfl)]
      simp only [Extensions.encode, List.length_append, List.length_singleton, Nat.add_assoc]
      rfl
    · rfl
  rw [skipExtensions, fold]
  split
  · rw [bind_of_ok rfl, bind_of_ok (ensure_of behind.le)]
  · rfl

theorem callOffset_at {body : List UInt8} {preamble : Preamble}
    (h : At body 0 (preamble.encode ++ tail)) : ∃ first, body[0]? = some first ∧
      callOffset runtimeMetadata body first =
        if preamble.tip ≤ maxSafeInteger then .ok preamble.encode.length
        else .error .compactTooLarge := by
  cases preamble with
  | bare version hversion =>
    refine ⟨version, h.getElem?, ?_⟩
    have free : (Preamble.bare version hversion).tip ≤ maxSafeInteger := Nat.zero_le _
    rw [if_pos free]
    rcases hversion with rfl | rfl <;> rfl
  | signed who signature e =>
    obtain ⟨first, address, scheme, extensions⟩ := signed_body h
    refine ⟨_, first, ?_⟩
    have addressSkipped : skipAddress runtimeMetadata body 1 = .ok 34 := by
      rw [skipAddress, if_neg (by decide), address]
      rfl
    have signatureSkipped : skipSignature runtimeMetadata body 34 =
        .ok (35 + signatureLen + publicKeyLen) := by
      rw [skipSignature, bind_of_ok (okOr_ok_iff.2 scheme)]
      rfl
    have type : callOffset runtimeMetadata body 0x84 =
        skipExtensions runtimeMetadata body (35 + signatureLen + publicKeyLen) := by
      show (do
        let signature ← skipAddress runtimeMetadata body 1
        let extensions ← skipSignature runtimeMetadata body signature
        skipExtensions runtimeMetadata body extensions) = _
      rw [bind_of_ok addressSkipped, bind_of_ok signatureSkipped]
    rw [type, skipExtensions_at extensions]
    simp only [Preamble.encode, Preamble.tip, List.length_append, List.length_cons,
      List.length_nil, length_toBytes, signature.signature_length, signature.publicKey_length]
  | general version e =>
    have extensions : At body 2 (e.encode ++ tail) := by
      simp only [Preamble.encode, List.append_assoc] at h
      exact h.skip rfl
    refine ⟨_, h.getElem?, ?_⟩
    have type : callOffset runtimeMetadata body 0x45 = skipExtensions runtimeMetadata body 2 := rfl
    rw [type, skipExtensions_at extensions]
    simp only [Preamble.encode, Preamble.tip, List.length_append, List.length_cons, List.length_nil]

/-- **What the browser finds in an extrinsic of a block.** -/
theorem extrinsicPayloads_encode (x : Extrinsic) (hlen : x.encode.length ≤ maxSafeInteger) :
    extrinsicPayloads runtimeMetadata x.encode =
      if x.preamble.tip ≤ maxSafeInteger then .ok x.call.carried else .error .compactTooLarge := by
  obtain ⟨start, body, envelope, total, length⟩ := x.at_encode
  obtain ⟨first, hfirst, offset⟩ := callOffset_at envelope
  obtain ⟨pallet, index, args, encoded, read⟩ := callPayloads_encode x.call
    (fun proof outputs h => readBatchPayloads_args (by omega))
    (fun value inner ciphertext h => readShieldPayload_args (by omega))
  have call : At x.body x.preamble.encode.length (pallet :: index :: args) :=
    encoded ▸ envelope.skip (Nat.zero_add _).symm
  have rest : At x.body (x.preamble.encode.length + 2) args := call.tail.tail
  unfold extrinsicPayloads
  rw [bind_of_ok (readCompact_ok start (by omega))]
  dsimp only
  rw [bind_of_ok (ensure_of (by omega)), body.drop_eq, bind_of_ok (okOr_ok_iff.2 hfirst), offset]
  split
  · rw [bind_of_ok rfl, bind_of_ok (okOr_ok_iff.2 call.getElem?),
      bind_of_ok (okOr_ok_iff.2 call.tail.getElem?), rest.drop_eq, read]
  · rfl

/-! ## The two walks -/

/-- Both walks return a list, and the same one. -/
def WalksAgree (x : Extrinsic) : Prop :=
  ∃ payloads, Qnero.extrinsicPayloads runtimeMetadata x.encode = .ok payloads ∧
    extrinsicPayloads runtimeMetadata x.encode = .ok payloads

/-- **Both wallets walk an extrinsic of a block, to the same list, exactly if its tip is a number
the browser can hold.** The nonce, the era, the mode, the form and the call do not matter. -/
theorem walks_agree_iff (x : Extrinsic) (fits : x.encode.length ≤ runtimeBlockLength) :
    WalksAgree x ↔ x.preamble.tip ≤ maxSafeInteger := by
  have cli := Qnero.extrinsicPayloads_encode x (le_trans fits (by decide))
  have browser := extrinsicPayloads_encode x (le_trans fits (by decide))
  unfold WalksAgree
  rw [cli, browser]
  constructor
  · rintro ⟨payloads, -, read⟩
    by_contra large
    rw [if_neg large] at read
    cases read
  · intro small
    exact ⟨x.call.carried, if_pos (le_trans small (by decide)), if_pos small⟩

theorem walks_agree_iff_sample : WalksAgree Sample.shieldDirect :=
  (walks_agree_iff Sample.shieldDirect Sample.admitted_direct.fits).2 (Nat.zero_le _)

/-- The same extrinsic with a tip of `2 ^ 53`, some nine thousand coins. -/
def Sample.tipped : Extrinsic := Sample.signedBy (2 ^ 53) (by decide) (.shielded Sample.shieldOne)

theorem walks_disagree_on_tip : Sample.tipped.Admitted Sample.callInfo ∧
    Sample.tipped.preamble.tip ≤ runtime.maxSupply ∧ ¬ WalksAgree Sample.tipped := by
  have admitted : Sample.tipped.Admitted Sample.callInfo :=
    ⟨rfl, Sample.fits_signedBy (by decide) (by rw [Sample.length_shieldOne]; decide)⟩
  refine ⟨admitted, by decide, ?_⟩
  rintro ⟨payloads, -, read⟩
  rw [extrinsicPayloads_encode _ (le_trans admitted.fits (by decide)), if_neg (by decide)] at read
  cases read

end Qnero.Browser
