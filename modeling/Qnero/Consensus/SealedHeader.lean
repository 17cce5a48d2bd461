import Qnero.Scale
import Qnero.Chain.Run

/-!
# Sealed headers

The hash of a header is over a window of 110 bytes of its encoded digest: a shorter digest is padded
with zeros and a longer one is cut. What makes the hash commit to the digest nevertheless is checked
elsewhere: import admits only digests that fill the window, or one byte more in a historical shape,
and only seals whose bytes behind the two nonces are zero, so that the byte that is cut is known.

Between the two admitted lengths it is the format that separates: no encoded digest begins another
one (`selfDelimiting_encodeDigest`).
-/

namespace Qnero

open Plonkish Machine Scale

variable {Q : Set (List Felt)}

/-! ## Digests -/

/-- Four bytes that name a consensus engine. -/
structure EngineId where
  bytes : List UInt8
  length_eq : bytes.length = 4
deriving DecidableEq

/-- `b"pow_"`. -/
def EngineId.pow : EngineId := ⟨[112, 111, 119, 95], rfl⟩

inductive DigestItem where
  | other (data : List UInt8)
  | consensus (engine : EngineId) (data : List UInt8)
  | sealed (engine : EngineId) (data : List UInt8)
  | preRuntime (engine : EngineId) (data : List UInt8)
  | runtimeEnvironmentUpdated
deriving DecidableEq

namespace DigestItem

def encode : DigestItem → List UInt8
  | other data => 0 :: encodeBytes data
  | consensus engine data => 4 :: (engine.bytes ++ encodeBytes data)
  | sealed engine data => 5 :: (engine.bytes ++ encodeBytes data)
  | preRuntime engine data => 6 :: (engine.bytes ++ encodeBytes data)
  | runtimeEnvironmentUpdated => [8]

def data : DigestItem → List UInt8
  | other data | consensus _ data | sealed _ data | preRuntime _ data => data
  | runtimeEnvironmentUpdated => []

theorem length_data_le (item : DigestItem) : item.data.length ≤ item.encode.length := by
  cases item <;> simp only [data, encode, encodeBytes, List.length_cons, List.length_append,
    List.length_nil] <;> omega

end DigestItem

/-- An engine and a vector behind it. -/
theorem engine_encodeBytes_inj {engine engine' : EngineId} {data data' x y : List UInt8}
    (hd : data.length < 256 ^ 4) (hd' : data'.length < 256 ^ 4)
    (h : engine.bytes ++ encodeBytes data ++ x = engine'.bytes ++ encodeBytes data' ++ y) :
    engine = engine' ∧ data = data' ∧ x = y := by
  rw [List.append_assoc, List.append_assoc] at h
  obtain ⟨bytes, tails⟩ := List.append_inj h (engine.length_eq.trans engine'.length_eq.symm)
  have same : engine = engine' := by
    cases engine
    cases engine'
    congr
  exact ⟨same, selfDelimiting_encodeBytes _ _ _ _ hd hd' tails⟩

theorem DigestItem.selfDelimiting_encode :
    SelfDelimiting (fun item : DigestItem => item.data.length < 256 ^ 4) encode := by
  intro a b x y ha hb h
  cases a <;> cases b <;> simp only [encode, List.cons_append, List.cons.injEq] at h
  case other.other data data' =>
    obtain ⟨rfl, rest⟩ := selfDelimiting_encodeBytes _ _ _ _ ha hb h.2
    exact ⟨rfl, rest⟩
  case consensus.consensus | sealed.sealed | preRuntime.preRuntime =>
    obtain ⟨rfl, rfl, rest⟩ := engine_encodeBytes_inj ha hb h.2
    exact ⟨rfl, rest⟩
  case runtimeEnvironmentUpdated.runtimeEnvironmentUpdated => exact ⟨rfl, h.2⟩
  -- The variants are told apart by the first byte.
  all_goals exact absurd h.1 (by decide)

/-- A digest, as its items in order. -/
def encodeDigest (digest : List DigestItem) : List UInt8 := encodeVec DigestItem.encode digest

theorem length_le_flatMap_encode (digest : List DigestItem) :
    digest.length ≤ (digest.flatMap DigestItem.encode).length := by
  induction digest with
  | nil => exact le_rfl
  | cons item digest ih =>
    have : 0 < item.encode.length := by cases item <;> simp [DigestItem.encode]
    rw [List.flatMap_cons, List.length_append, List.length_cons]
    omega

/-- **No encoded digest begins another one**, as long as both are of a size the format can hold. -/
theorem selfDelimiting_encodeDigest :
    SelfDelimiting (fun digest => (encodeDigest digest).length < 256 ^ 4) encodeDigest := by
  have sized : ∀ digest : List DigestItem, (encodeDigest digest).length < 256 ^ 4 →
      digest.length < 256 ^ 4 ∧ ∀ item ∈ digest, item.data.length < 256 ^ 4 := by
    intro digest bound
    rw [encodeDigest, encodeVec, List.length_append] at bound
    have count := length_le_flatMap_encode digest
    refine ⟨by omega, fun item mem => ?_⟩
    have := item.length_data_le
    have : item.encode.length ≤ (digest.flatMap DigestItem.encode).length :=
      (List.sublist_flatten_of_mem (List.mem_map_of_mem mem)).length_le
    omega
  intro a b x y ha hb h
  exact DigestItem.selfDelimiting_encode.vec a b x y (sized a ha) (sized b hb) h

/-! ## Headers -/

/-- A header as a node holds it. The runtime's block numbers have 32 bits. -/
structure BlockHeader where
  parentHash : Hash256
  number : UInt32
  stateRoot : Hash256
  extrinsicsRoot : Hash256
  zkTreeRoot : Hash256
  digest : List DigestItem

namespace BlockHeader

def toHeader (header : BlockHeader) : Header :=
  ⟨header.parentHash, header.number.toNat, header.stateRoot, header.extrinsicsRoot,
    header.zkTreeRoot, encodeDigest header.digest⟩

def hash (H : Poseidon2) (header : BlockHeader) : Hash256 := header.toHeader.hash H

end BlockHeader

/-- The last height at which one byte more is admitted. -/
def legacyDigestCutoff : ℕ := 1000000

/-- The window is filled, or by one byte exceeded in the one historical shape. -/
def checkDigestCommitmentWindow (digest : List DigestItem) (blockNumber : ℕ) : Except ℕ Unit :=
  let encodedLen := (encodeDigest digest).length
  if encodedLen = digestLogsSize then .ok ()
  else
    let reuCount := (digest.filter (· = .runtimeEnvironmentUpdated)).length
    if reuCount = 1 ∧ encodedLen = digestLogsSize + 1 ∧ blockNumber ≤ legacyDigestCutoff then .ok ()
    else .error encodedLen

theorem length_of_checkDigestCommitmentWindow {digest : List DigestItem} {number : ℕ}
    (h : checkDigestCommitmentWindow digest number = .ok ()) :
    (encodeDigest digest).length = digestLogsSize ∨
      (encodeDigest digest).length = digestLogsSize + 1 := by
  unfold checkDigestCommitmentWindow at h
  simp only at h
  split at h
  · next full => exact .inl full
  · split at h
    · next legacy => exact .inr legacy.2.1
    · cases h

/-! ## Seals -/

def sealLen : ℕ := 64

def sealPadding : List UInt8 := List.replicate (sealLen - 8) 0

/-- What a miner has found. -/
structure Seal where
  nonce : UInt32
  extraNonce : UInt32
deriving DecidableEq

inductive SealError where
  | wrongLength (length : ℕ)
  | unpinnedPadding
deriving DecidableEq

namespace Seal

def encode (s : Seal) : List UInt8 :=
  toLe 4 s.nonce.toNat ++ (toLe 4 s.extraNonce.toNat ++ sealPadding)

def decode (bytes : List UInt8) : Except SealError Seal := do
  ensure (bytes.length = sealLen) (.wrongLength bytes.length)
  ensure (bytes.drop 8 = sealPadding) .unpinnedPadding
  pure ⟨.ofNat (ofLe (bytes.take 4)), .ofNat (ofLe ((bytes.drop 4).take 4))⟩

end Seal

/-- A 32-bit integer from its four bytes, and back. -/
theorem toLe_ofNat_ofLe {bytes : List UInt8} (h : bytes.length = 4) :
    toLe 4 (UInt32.ofNat (ofLe bytes)).toNat = bytes := by
  have small : ofLe bytes < 2 ^ 32 := by
    have := ofLe_lt bytes
    rwa [h] at this
  rw [UInt32.toNat_ofNat_of_lt' small, ← h, toLe_ofLe]

/-- **A seal is its two nonces**: what decodes is the encoding of what it decodes to. -/
theorem Seal.eq_encode_of_decode {bytes : List UInt8} {s : Seal} (h : decode bytes = .ok s) :
    bytes = s.encode := by
  simp only [decode, bind_ok_iff, ensure_ok_iff] at h
  obtain ⟨-, length, -, padding, ok⟩ := h
  have sized : bytes.length = 64 := length
  obtain rfl := Except.ok.inj ok
  calc bytes = bytes.take 4 ++ ((bytes.drop 4).take 4 ++ bytes.drop 8) := by
        rw [show bytes.drop 8 = (bytes.drop 4).drop 4 by rw [List.drop_drop], List.take_append_drop,
          List.take_append_drop]
    _ = _ := by
        rw [encode, toLe_ofNat_ofLe (by simp; omega), toLe_ofNat_ofLe (by simp; omega), padding]

theorem Seal.length_encode (s : Seal) : s.encode.length = sealLen := by
  simp [encode, sealPadding, sealLen]

theorem Seal.decode_encode (s : Seal) : decode s.encode = .ok s := by
  have first : s.encode.take 4 = toLe 4 s.nonce.toNat := List.take_left' (length_toLe ..)
  have behind : s.encode.drop 4 = toLe 4 s.extraNonce.toNat ++ sealPadding :=
    List.drop_left' (length_toLe ..)
  have padding : s.encode.drop 8 = sealPadding := by
    rw [show s.encode.drop 8 = (s.encode.drop 4).drop 4 by rw [List.drop_drop], behind]
    exact List.drop_left' (length_toLe ..)
  have back (x : UInt32) : UInt32.ofNat (ofLe (toLe 4 x.toNat)) = x := by
    rw [ofLe_toLe x.toNat_lt, UInt32.ofNat_toNat]
  simp only [decode, bind_ok_iff, ensure_ok_iff]
  refine ⟨(), s.length_encode, (), padding, ?_⟩
  rw [first, behind, List.take_left' (length_toLe ..), back, back]
  rfl

inductive ExtractError where
  | digestWindow (encodedLen : ℕ)
  | malformedSeal (error : SealError)
  | wrongEngine (engine : EngineId)
  | headerUnsealed (hash : Hash256)

/-- The header without its seal, and the seal. -/
def extractPowSeal (H : Poseidon2) (header : BlockHeader) :
    Except ExtractError (BlockHeader × DigestItem) := do
  (checkDigestCommitmentWindow header.digest header.number.toNat).mapError .digestWindow
  match header.digest.getLast? with
  | some (.sealed engine data) => do
    ensure (engine = .pow) (.wrongEngine engine)
    let _ ← (Seal.decode data).mapError .malformedSeal
    pure ({ header with digest := header.digest.dropLast }, .sealed engine data)
  | _ => .error (.headerUnsealed (header.hash H))

/-! ## What the hash commits to -/

/-- The digest of a sealed block: of an admitted length, and with a seal at its end. -/
structure SealedDigest (digest : List DigestItem) (number : ℕ) (engine : EngineId) (s : Seal) :
    Prop where
  window : checkDigestCommitmentWindow digest number = .ok ()
  last : digest.getLast? = some (.sealed engine s.encode)

theorem extractPowSeal_ok_iff {H : Poseidon2} {header pre : BlockHeader} {item : DigestItem} :
    extractPowSeal H header = .ok (pre, item) ↔ ∃ s : Seal,
      SealedDigest header.digest header.number.toNat .pow s ∧
        pre = { header with digest := header.digest.dropLast } ∧ item = .sealed .pow s.encode := by
  constructor
  · intro h
    simp only [extractPowSeal, bind_ok_iff, mapError_ok_iff] at h
    obtain ⟨_, window, h⟩ := h
    split at h
    · next engine data last =>
      simp only [bind_ok_iff, ensure_ok_iff, mapError_ok_iff] at h
      obtain ⟨-, rfl, s, decoded, done⟩ := h
      obtain ⟨rfl, rfl⟩ := Prod.mk.inj (Except.ok.inj done)
      obtain rfl := Seal.eq_encode_of_decode decoded
      exact ⟨s, ⟨window, last⟩, rfl, rfl⟩
    · cases h
  · rintro ⟨s, ⟨window, last⟩, rfl, rfl⟩
    simp only [extractPowSeal, bind_ok_iff, mapError_ok_iff]
    refine ⟨(), window, ?_⟩
    rw [last]
    simp only [bind_ok_iff, ensure_ok_iff, mapError_ok_iff]
    exact ⟨(), trivial, s, s.decode_encode, rfl⟩

namespace SealedDigest

variable {digest digest' : List DigestItem} {number number' : ℕ} {engine engine' : EngineId}
  {s s' : Seal}

section

variable (h : SealedDigest digest number engine s)
include h

theorem eq_append : digest = digest.dropLast ++ [.sealed engine s.encode] :=
  (List.dropLast_append_getLast? _ h.last).symm

theorem length_le : (encodeDigest digest).length ≤ digestLogsSize + 1 := by
  rcases length_of_checkDigestCommitmentWindow h.window with full | legacy <;> omega

/-- The byte behind the window, if there is one, is pinned. -/
theorem window_tail : ∃ tail, (tail = [] ∨ tail = [0]) ∧
      encodeDigest digest = digestWindow (encodeDigest digest) ++ tail := by
  obtain ⟨body, eq⟩ : ∃ body, encodeDigest digest = body ++ [0] := by
    have pinned : s.encode = toLe 4 s.nonce.toNat ++ (toLe 4 s.extraNonce.toNat ++
        (List.replicate 55 0 ++ [0])) := rfl
    rw [encodeDigest, encodeVec, h.eq_append, List.flatMap_append, List.flatMap_singleton,
      DigestItem.encode, encodeBytes, pinned]
    simp only [← List.append_assoc, ← List.cons_append]
    exact ⟨_, rfl⟩
  rcases length_of_checkDigestCommitmentWindow h.window with full | legacy
  · exact ⟨[], .inl rfl, by rw [digestWindow, List.take_left' full, List.append_nil]⟩
  · refine ⟨[0], .inr rfl, ?_⟩
    rw [eq, List.length_append, List.length_singleton, Nat.add_right_cancel_iff] at legacy
    rw [eq, digestWindow, List.append_assoc, List.take_left' legacy]

/-- **The window holds the whole digest**, across both admitted lengths. -/
theorem eq_of_window (h' : SealedDigest digest' number' engine' s')
    (same : digestWindow (encodeDigest digest) = digestWindow (encodeDigest digest')) :
    digest = digest' := by
  obtain ⟨tail, ht, eq⟩ := h.window_tail
  obtain ⟨tail', ht', eq'⟩ := h'.window_tail
  have swap : tail ++ tail' = tail' ++ tail := by
    rcases ht with rfl | rfl <;> rcases ht' with rfl | rfl <;> rfl
  have crossed : encodeDigest digest ++ tail' = encodeDigest digest' ++ tail := by
    rw [eq, eq', same, List.append_assoc, List.append_assoc, swap]
  have bound := h.length_le
  have bound' := h'.length_le
  rw [digestLogsSize] at bound bound'
  exact (selfDelimiting_encodeDigest _ _ _ _ (by omega) (by omega) crossed).1

end

end SealedDigest

theorem length_digestWindow (digest : List UInt8) :
    (digestWindow digest).length = digestLogsSize := by
  simp [digestWindow]

/-- Two headers whose parts are one, as far as the hash is over them. -/
structure Header.Agrees (H : Poseidon2) (a b : Header) : Prop where
  parentHash : bytesToDigestLossy a.parentHash = bytesToDigestLossy b.parentHash
  number : (a.number : Felt) = b.number
  stateRoot : bytesToDigestLossy a.stateRoot = bytesToDigestLossy b.stateRoot
  extrinsicsRoot : bytesToDigestLossy a.extrinsicsRoot = bytesToDigestLossy b.extrinsicsRoot
  zkTreeRoot : bytesToDigestLossy a.zkTreeRoot = bytesToDigestLossy b.zkTreeRoot
  digest : H.bytesToFelts (digestWindow a.digest) = H.bytesToFelts (digestWindow b.digest)

namespace Header

variable {H : Poseidon2} {a b : Header}

theorem agrees_iff : a.Agrees H b ↔ a.preimage H = b.preimage H := by
  rw [preimage, preimage, headerPreimage_inj]
  exact ⟨fun ⟨p, n, s, e, z, d⟩ => ⟨p, n, s, e, z, d⟩, fun ⟨p, n, s, e, z, d⟩ => ⟨p, n, s, e, z, d⟩⟩

/-- **A hash is of one header**, as far as it is over it. -/
theorem agrees_of_hash_eq (hH : CollisionFree H.hashToFelts Q) (ha : a.preimage H ∈ Q)
    (hb : b.preimage H ∈ Q) (same : a.hash H = b.hash H) : a.Agrees H b :=
  agrees_iff.2 (hH.inj ha hb (digestBytes_injective same))

theorem Agrees.hash_eq (h : a.Agrees H b) : a.hash H = b.hash H := by
  rw [hash, hash, agrees_iff.1 h]

/-- Numbers of 32 bits are field elements of their own. -/
theorem Agrees.number_eq (h : a.Agrees H b) (ha : a.number < 2 ^ 32) (hb : b.number < 2 ^ 32) :
    a.number = b.number := by
  have small : 2 ^ 32 ≤ goldilocks := by norm_num [goldilocks]
  have := congrArg ZMod.val h.number
  rwa [ZMod.val_natCast_of_lt (lt_of_lt_of_le ha small),
    ZMod.val_natCast_of_lt (lt_of_lt_of_le hb small)] at this

end Header

theorem Hash256.Canonical.eq_of_lossy {a b : Hash256} (ha : a.Canonical) (hb : b.Canonical)
    (same : bytesToDigestLossy a = bytesToDigestLossy b) : a = b := by
  rw [← ha.digestBytes_lossy, ← hb.digestBytes_lossy, same]

/-! ## The commitment -/

namespace BlockHeader

variable {H : Poseidon2} {a b : BlockHeader}

/-- **The hash of a sealed header commits to its digest.** -/
theorem digest_eq (packs : Set.InjOn H.bytesToFelts {bytes | bytes.length = digestLogsSize})
    {engine engine' : EngineId} {s s' : Seal}
    (ha : SealedDigest a.digest a.number.toNat engine s)
    (hb : SealedDigest b.digest b.number.toNat engine' s')
    (agrees : a.toHeader.Agrees H b.toHeader) : a.digest = b.digest :=
  ha.eq_of_window hb (packs (length_digestWindow _) (length_digestWindow _) agrees.digest)

theorem length_encode_sealed (engine : EngineId) (s : Seal) :
    (DigestItem.sealed engine s.encode).encode.length = 71 := by
  simp [DigestItem.encode, encodeBytes, compact, engine.length_eq, s.length_encode, sealLen]

/-- Without the seal there is room in the window. -/
theorem length_dropLast_le {digest : List DigestItem} {number : ℕ} {engine : EngineId} {s : Seal}
    (h : SealedDigest digest number engine s) :
    (encodeDigest digest.dropLast).length ≤ digestLogsSize := by
  have items := congrArg (List.flatMap DigestItem.encode) h.eq_append
  rw [List.flatMap_append, List.flatMap_singleton] at items
  have bound := h.length_le
  rw [encodeDigest, encodeVec, items, List.length_append, List.length_append,
    length_encode_sealed] at bound
  rw [digestLogsSize] at bound ⊢
  have count := length_le_flatMap_encode digest.dropLast
  have few := length_compact_le (show digest.dropLast.length < 2 ^ 30 by omega)
  rw [encodeDigest, encodeVec, List.length_append]
  omega

/-- Behind a digest that fits, the window is zeros. -/
theorem eq_of_window_of_fits {digest digest' : List DigestItem}
    (ha : (encodeDigest digest).length ≤ digestLogsSize)
    (hb : (encodeDigest digest').length ≤ digestLogsSize)
    (same : digestWindow (encodeDigest digest) = digestWindow (encodeDigest digest')) :
    digest = digest' := by
  rw [digestWindow, digestWindow, List.take_append, List.take_append, List.take_of_length_le ha,
    List.take_of_length_le hb] at same
  rw [digestLogsSize] at ha hb
  exact (selfDelimiting_encodeDigest _ _ _ _ (by omega) (by omega) same).1

/-- Admitted by the window, sealed at the end of the digest, and over digests where the hash reads
digests. -/
structure Sealed (header : BlockHeader) : Prop where
  window : checkDigestCommitmentWindow header.digest header.number.toNat = .ok ()
  last : ∃ engine data s, header.digest.getLast? = some (.sealed engine data) ∧
    Seal.decode data = .ok s
  parentHash : header.parentHash.Canonical
  zkTreeRoot : header.zkTreeRoot.Canonical

theorem Sealed.digest (h : a.Sealed) :
    ∃ engine s, SealedDigest a.digest a.number.toNat engine s := by
  obtain ⟨engine, data, s, last, decoded⟩ := h.last
  obtain rfl := Seal.eq_encode_of_decode decoded
  exact ⟨engine, s, h.window, last⟩

/-- What two headers of one hash share. -/
structure SameBlock (a b : BlockHeader) : Prop where
  number : a.number = b.number
  parentHash : a.parentHash = b.parentHash
  zkTreeRoot : a.zkTreeRoot = b.zkTreeRoot
  digest : a.digest = b.digest
  stateRoot : bytesToDigestLossy a.stateRoot = bytesToDigestLossy b.stateRoot
  extrinsicsRoot : bytesToDigestLossy a.extrinsicsRoot = bytesToDigestLossy b.extrinsicsRoot

theorem Sealed.sameBlock (packs : Set.InjOn H.bytesToFelts {bytes | bytes.length = digestLogsSize})
    (ha : a.Sealed) (hb : b.Sealed) (agrees : a.toHeader.Agrees H b.toHeader) : a.SameBlock b := by
  obtain ⟨_, _, da⟩ := ha.digest
  obtain ⟨_, _, db⟩ := hb.digest
  exact {
    number := UInt32.toNat_inj.1 (agrees.number_eq a.number.toNat_lt b.number.toNat_lt)
    parentHash := ha.parentHash.eq_of_lossy hb.parentHash agrees.parentHash
    zkTreeRoot := ha.zkTreeRoot.eq_of_lossy hb.zkTreeRoot agrees.zkTreeRoot
    digest := digest_eq packs da db agrees
    stateRoot := agrees.stateRoot
    extrinsicsRoot := agrees.extrinsicsRoot }

/-- Over one pre-hash, the nonces decide the block hash. -/
theorem hash_eq_iff_of_pre (hH : CollisionFree H.hashToFelts Q)
    (packs : Set.InjOn H.bytesToFelts {bytes | bytes.length = digestLogsSize}) {s s' : Seal}
    (ha : SealedDigest a.digest a.number.toNat .pow s)
    (hb : SealedDigest b.digest b.number.toNat .pow s')
    (ina : a.toHeader.preimage H ∈ Q) (inb : b.toHeader.preimage H ∈ Q)
    (agrees : { a with digest := a.digest.dropLast : BlockHeader }.toHeader.Agrees H
      { b with digest := b.digest.dropLast : BlockHeader }.toHeader) :
    a.hash H = b.hash H ↔ s = s' := by
  constructor
  · intro same
    have digests := digest_eq packs ha hb (Header.agrees_of_hash_eq hH ina inb same)
    have lasts := ha.last.symm.trans ((congrArg List.getLast? digests).trans hb.last)
    injection lasts with items
    injection items with _ bytes
    have decoded := s.decode_encode
    rw [bytes, s'.decode_encode] at decoded
    exact (Except.ok.inj decoded).symm
  · rintro rfl
    have pres : a.digest.dropLast = b.digest.dropLast :=
      eq_of_window_of_fits (length_dropLast_le ha) (length_dropLast_le hb)
        (packs (length_digestWindow _) (length_digestWindow _) agrees.digest)
    have digests : a.digest = b.digest := by
      rw [ha.eq_append, hb.eq_append, pres]
    have whole : a.toHeader.Agrees H b.toHeader :=
      ⟨agrees.parentHash, agrees.number, agrees.stateRoot, agrees.extrinsicsRoot, agrees.zkTreeRoot,
        by rw [toHeader, toHeader, digests]⟩
    exact whole.hash_eq

/-- **A block hash commits to its header**: to the whole digest in both admitted lengths, to number,
parent and tree root, and to the two other roots up to the reduction of their limbs. Over one
pre-hash, an accepted seal is free in its two nonces only. -/
theorem header_commitment (hH : CollisionFree H.hashToFelts Q)
    (packs : Set.InjOn H.bytesToFelts {bytes | bytes.length = digestLogsSize}) :
    (∀ a b : BlockHeader, a.Sealed → b.Sealed → a.toHeader.preimage H ∈ Q →
      b.toHeader.preimage H ∈ Q → a.hash H = b.hash H → a.SameBlock b) ∧
    (∀ (a b pre pre' : BlockHeader) (item item' : DigestItem),
      extractPowSeal H a = .ok (pre, item) → extractPowSeal H b = .ok (pre', item') →
      a.toHeader.preimage H ∈ Q → b.toHeader.preimage H ∈ Q →
      pre.toHeader.preimage H ∈ Q → pre'.toHeader.preimage H ∈ Q → pre.hash H = pre'.hash H →
      ∃ s s' : Seal, item = .sealed .pow s.encode ∧ item' = .sealed .pow s'.encode ∧
        (a.hash H = b.hash H ↔ s = s')) := by
  refine ⟨fun a b ha hb ina inb same => ?_, ?_⟩
  · exact ha.sameBlock packs hb (Header.agrees_of_hash_eq hH ina inb same)
  · intro a b pre pre' item item' ha hb ina inb inp inp' same
    obtain ⟨s, da, rfl, rfl⟩ := extractPowSeal_ok_iff.1 ha
    obtain ⟨s', db, rfl, rfl⟩ := extractPowSeal_ok_iff.1 hb
    exact ⟨s, s', rfl, rfl,
      hash_eq_iff_of_pre hH packs da db ina inb (Header.agrees_of_hash_eq hH inp inp' same)⟩

end BlockHeader

/-! ## Worked headers -/

namespace Sample

/-- Four bytes to an element, and a terminator behind the last. -/
def packBytes : List UInt8 → List Felt
  | a :: b :: c :: d :: rest => (ofLe [a, b, c, d] : Felt) :: packBytes rest
  | short => [(ofLe (short ++ [1]) : Felt)]

theorem natCast_ofLe_inj {a b : List UInt8} (length : a.length = b.length) (short : a.length ≤ 4)
    (h : (ofLe a : Felt) = ofLe b) : a = b := by
  have small : ∀ bytes : List UInt8, bytes.length ≤ 4 → ofLe bytes < goldilocks := by
    intro bytes le
    have : ofLe bytes < 256 ^ bytes.length := ofLe_lt bytes
    have : 256 ^ bytes.length ≤ 256 ^ 4 := Nat.pow_le_pow_right (by omega) le
    have : 256 ^ 4 < goldilocks := by norm_num [goldilocks]
    omega
  have values := congrArg ZMod.val h
  rw [ZMod.val_natCast_of_lt (small a short), ZMod.val_natCast_of_lt (small b (length ▸ short))]
    at values
  rw [← toLe_ofLe a, ← toLe_ofLe b, values, length]

theorem packBytes_inj {bytes bytes' : List UInt8} (length : bytes.length = bytes'.length)
    (h : packBytes bytes = packBytes bytes') : bytes = bytes' := by
  induction bytes using packBytes.induct generalizing bytes' with
  | case1 a b c d rest ih =>
    match bytes', length with
    | a' :: b' :: c' :: d' :: rest', length =>
      obtain ⟨words, tails⟩ := List.cons.inj h
      have four := natCast_ofLe_inj (a := [a, b, c, d]) (b := [a', b', c', d']) rfl (by simp) words
      have rests := ih (by simpa using length) tails
      simp_all
  | case2 short few =>
    have le : short.length < 4 := by
      by_contra large
      match short, large with
      | a :: b :: c :: d :: rest, _ => exact few a b c d rest rfl
      | [], large | [_], large | [_, _], large | [_, _, _], large => simp at large
    match short, bytes', length, le with
    | [], [], _, _ => rfl
    | [a], [a'], _, _ | [a, b], [a', b'], _, _ | [a, b, c], [a', b', c'], _, _ =>
      have words := natCast_ofLe_inj (by simp) (by simp) (List.cons.inj h).1
      simpa using words

def windowSponge : Poseidon2 := { sampleSponge with bytesToFelts := packBytes }

theorem injOn_packBytes :
    Set.InjOn windowSponge.bytesToFelts {bytes | bytes.length = digestLogsSize} :=
  fun _ length _ length' h => packBytes_inj (length.trans length'.symm) h

/-- At a height of the legacy range, with the item that made its digests longer. -/
def sealedHeader (stateRoot nonce : ℕ) : BlockHeader where
  parentHash := 0
  number := 7
  stateRoot := ⟨fun _ => .ofNat stateRoot⟩
  extrinsicsRoot := 0
  zkTreeRoot := 0
  digest := [.preRuntime .pow (List.replicate 32 9), .runtimeEnvironmentUpdated,
    .sealed .pow (Seal.encode ⟨.ofNat nonce, 5⟩)]

/-- Without its seal. -/
def unsealedHeader (stateRoot : ℕ) : BlockHeader :=
  { sealedHeader stateRoot 0 with digest := (sealedHeader stateRoot 0).digest.dropLast }

def sealedLists : List (List Felt) :=
  [sealedHeader 1 1, sealedHeader (goldilocks + 1) 1, sealedHeader 1 2, unsealedHeader 1].map
    fun header => header.toHeader.preimage windowSponge

theorem collisionFree_windowSponge :
    CollisionFree windowSponge.hashToFelts {x | x ∈ sealedLists} :=
  collisionFree_sampleSponge (by decide +kernel)

theorem window_sealedHeader (stateRoot nonce : ℕ) :
    checkDigestCommitmentWindow (sealedHeader stateRoot nonce).digest 7 = .ok () := by
  have long : (encodeDigest (sealedHeader stateRoot nonce).digest).length = 111 := by
    simp [sealedHeader, encodeDigest, encodeVec, DigestItem.encode, encodeBytes, compact,
      EngineId.length_eq, Seal.length_encode, sealLen]
  have one : ((sealedHeader stateRoot nonce).digest.filter
      (· = .runtimeEnvironmentUpdated)).length = 1 := rfl
  simp only [checkDigestCommitmentWindow, long, one]
  rfl

theorem sealed_sealedHeader (stateRoot nonce : ℕ) : (sealedHeader stateRoot nonce).Sealed where
  window := window_sealedHeader stateRoot nonce
  last := ⟨_, _, _, rfl, Seal.decode_encode _⟩
  parentHash := by
    show (0 : Hash256).Canonical
    decide
  zkTreeRoot := by
    show (0 : Hash256).Canonical
    decide

theorem extract_sealedHeader (stateRoot nonce : ℕ) :
    extractPowSeal windowSponge (sealedHeader stateRoot nonce) =
      .ok (unsealedHeader stateRoot, .sealed .pow (Seal.encode ⟨.ofNat nonce, 5⟩)) :=
  extractPowSeal_ok_iff.2 ⟨_, ⟨window_sealedHeader stateRoot nonce, rfl⟩, rfl, rfl⟩

end Sample

open Sample in
/-- A root whose limbs are not reduced, and another nonce. -/
theorem BlockHeader.header_commitment_sample :
    (sealedHeader 1 1).stateRoot ≠ (sealedHeader (goldilocks + 1) 1).stateRoot ∧
      (sealedHeader 1 1).SameBlock (sealedHeader (goldilocks + 1) 1) ∧
      (sealedHeader 1 1).hash windowSponge ≠ (sealedHeader 1 2).hash windowSponge := by
  obtain ⟨committed, freedom⟩ := header_commitment collisionFree_windowSponge injOn_packBytes
  refine ⟨by decide +kernel, ?_, ?_⟩
  · exact committed _ _ (sealed_sealedHeader ..) (sealed_sealedHeader ..) (by simp [sealedLists])
      (by simp [sealedLists]) (by decide +kernel)
  · obtain ⟨s, s', item, item', free⟩ := freedom _ _ _ _ _ _
      (extract_sealedHeader 1 1) (extract_sealedHeader 1 2)
      (by simp [sealedLists]) (by simp [sealedLists]) (by simp [sealedLists])
      (by simp [sealedLists]) rfl
    rw [Ne, free]
    rintro rfl
    exact absurd (item.trans item'.symm) (by decide +kernel)

end Qnero
