import Qnero.Consensus.SealedHeader
import Qnero.Wallet.Rpc

/-!
# The header walk

A walk asks for hashes by height and for headers by hash, and none of the answers is believed: every
header is rehashed, and has to name the hash below it as its parent. Whatever a node answers, what is
accepted is one chain that ends at the hash the walk was given, so two walks to one hash agree
downward as far as both reach.

They agree on what the hash is over. It is over the number of the digest items and over the first
bytes of all of them in a row, and not over where one item ends and the next begins, nor over bytes
behind the window. The author label is read from the items, so a node can serve a header whose digest
fills the window with any label (`RawHeader.exists_relabelled`). Where both walks were served every
item as it was encoded, within the window, the labels agree as well.
-/

namespace Qnero

open Plonkish Scale

variable {Q : Set (List Felt)} {H : Poseidon2}

/-! ## Labels -/

/-- The digest item that carries a label. -/
def labelItem (label : Hash256) : List UInt8 := (DigestItem.preRuntime .pow label.toBytes).encode

theorem length_labelItem (label : Hash256) : (labelItem label).length = 38 := by
  simp [labelItem, DigestItem.encode, encodeBytes, compact, EngineId.length_eq]

theorem Scale.eq_of_decodeCompact_small {width n : ℕ} {input rest : List UInt8} (small : n < 2 ^ 6)
    (h : decodeCompact width input = some (n, rest)) : input = compact n ++ rest := by
  match input with
  | [] => cases h
  | b :: input =>
    rw [decodeCompact] at h
    split at h
    · next mode =>
      obtain ⟨rfl, rfl⟩ := Prod.mk.inj (Option.some.inj h)
      have whole : UInt8.ofNat (4 * (b.toNat / 4)) = b := by
        rw [show 4 * (b.toNat / 4) = b.toNat by omega, UInt8.ofNat_toNat]
      rw [compact, if_pos small, whole]
      rfl
    -- Every longer form holds a larger integer.
    · simp only [Option.bind_eq_bind, Option.bind_eq_some_iff, Option.ite_none_right_eq_some] at h
      obtain ⟨⟨high, behind⟩, -, large, h⟩ := h
      obtain ⟨rfl, -⟩ := Prod.mk.inj (Option.some.inj h)
      omega
    · simp only [Option.bind_eq_bind, Option.bind_eq_some_iff, Option.ite_none_right_eq_some] at h
      obtain ⟨⟨high, behind⟩, -, large, h⟩ := h
      obtain ⟨rfl, -⟩ := Prod.mk.inj (Option.some.inj h)
      omega
    · simp only [Option.ite_none_right_eq_some, Option.bind_eq_bind, Option.bind_eq_some_iff] at h
      obtain ⟨-, ⟨bytes, behind⟩, -, large, h⟩ := h
      obtain ⟨rfl, -⟩ := Prod.mk.inj (Option.some.inj h)
      have : 256 ^ 3 ≤ 256 ^ (b.toNat / 4 + 4 - 1) := Nat.pow_le_pow_right (by omega) (by omega)
      split at large <;> omega

theorem RawHeader.logLabel_eq_some_iff {log : List UInt8} {label : Hash256} :
    logLabel log = some label ↔ log = labelItem label := by
  have engine : preRuntimeVariant :: powEngineId = 6 :: EngineId.pow.bytes := by decide
  constructor
  · intro h
    simp only [logLabel] at h
    split at h
    · next head =>
      simp only [Option.bind_eq_bind, Option.bind_eq_some_iff, Option.ite_none_right_eq_some] at h
      obtain ⟨⟨len, payload⟩, read, ⟨length, rfl⟩, h⟩ := h
      obtain rfl := Option.some.inj h
      have tail := Scale.eq_of_decodeCompact_small (by decide) read
      have item : labelItem (hashOfBytes payload) =
          (6 :: EngineId.pow.bytes) ++ (compact 32 ++ payload) := by
        rw [labelItem, toBytes_hashOfBytes length, DigestItem.encode, encodeBytes, length]
        rfl
      rw [item, ← engine, ← head, ← tail, List.take_append_drop]
    · cases h
  · rintro rfl
    have item : labelItem label = (6 :: EngineId.pow.bytes) ++ (compact 32 ++ label.toBytes) := by
      rw [labelItem, DigestItem.encode, encodeBytes, length_toBytes]
      rfl
    have head : (labelItem label).take 5 = preRuntimeVariant :: powEngineId := by
      rw [item, engine]
      exact List.take_left' rfl
    have tail : (labelItem label).drop 5 = compact 32 ++ label.toBytes := by
      rw [item]
      exact List.drop_left' rfl
    rw [logLabel, if_pos head, tail, decodeCompact_compact 4 le_rfl (by omega) (by decide)]
    simp only [Option.bind_eq_bind, Option.bind_some, length_toBytes, and_self, if_true,
      hashOfBytes_toBytes]

variable {raw : RawHeader}

/-- A log of another length is no label. -/
theorem RawHeader.logLabel_eq_none {log : List UInt8} (length : log.length ≠ 38) :
    logLabel log = none := by
  rw [Option.eq_none_iff_forall_ne_some]
  intro label here
  rw [logLabel_eq_some_iff.1 here, length_labelItem] at length
  exact length rfl

/-- **The items as they were encoded**, all of them in the window. -/
def RawHeader.AsEncoded (raw : RawHeader) : Prop :=
  ∃ items : List DigestItem, raw.logs = items.map DigestItem.encode ∧
    (encodeDigest items).length ≤ digestLogsSize

/-- Headers of one hash that are served so have the same logs. -/
theorem RawHeader.AsEncoded.logs_eq {raw' : RawHeader}
    (packs : Set.InjOn H.bytesToFelts {bytes | bytes.length = digestLogsSize})
    (agrees : raw.toHeader.Agrees H raw'.toHeader) (encoded : raw.AsEncoded)
    (encoded' : raw'.AsEncoded) : raw.logs = raw'.logs := by
  obtain ⟨items, logs, fits⟩ := encoded
  obtain ⟨items', logs', fits'⟩ := encoded'
  have digest (raw : RawHeader) (items : List DigestItem)
      (logs : raw.logs = items.map DigestItem.encode) :
      raw.toHeader.digest = encodeDigest items := by
    rw [RawHeader.toHeader, logs, List.length_map, encodeDigest, encodeVec, List.flatMap_def]
  have window := packs (length_digestWindow _) (length_digestWindow _) agrees.digest
  rw [digest raw items logs, digest raw' items' logs'] at window
  obtain rfl := BlockHeader.eq_of_window_of_fits fits fits' window
  rw [logs, logs']

/-- **A label the hash is not over.** A header of two logs or more whose digest fills the window has the
hash of one with any other label: all logs in one, that label behind it, and as many logs in all. -/
theorem RawHeader.exists_relabelled (H : Poseidon2) (raw : RawHeader) (two : 2 ≤ raw.logs.length)
    (full : digestLogsSize ≤ raw.toHeader.digest.length) (label : Hash256) :
    ∃ logs, ({ raw with logs := logs } : RawHeader).toHeader.Agrees H raw.toHeader ∧
      ({ raw with logs := logs } : RawHeader).authorLabel = some label := by
  -- The zeros make the first log too long for a label.
  let first := raw.logs.flatten ++ List.replicate 39 0
  refine ⟨first :: labelItem label :: List.replicate (raw.logs.length - 2) [], ?_, ?_⟩
  · refine ⟨rfl, rfl, rfl, rfl, rfl, congrArg H.bytesToFelts ?_⟩
    have count : raw.logs.length - 2 + 1 + 1 = raw.logs.length := by omega
    have longer : compact raw.logs.length ++ (first ++ (labelItem label ++
        (List.replicate (raw.logs.length - 2) []).flatten)) = raw.toHeader.digest ++
          (List.replicate 39 0 ++ (labelItem label ++
            (List.replicate (raw.logs.length - 2) []).flatten)) := by
      simp only [first, toHeader, List.append_assoc]
    show digestWindow (compact (List.length _) ++ List.flatten _) = _
    rw [List.length_cons, List.length_cons, List.length_replicate, count, List.flatten_cons,
      List.flatten_cons, longer, digestWindow, digestWindow, List.append_assoc,
      List.take_append_of_le_length full, List.take_append_of_le_length full]
  · have long : first.length ≠ 38 := by
      rw [List.length_append, List.length_replicate]
      omega
    rw [authorLabel, List.findSome?_cons, logLabel_eq_none long, List.findSome?_cons,
      logLabel_eq_some_iff.2 rfl]

/-! ## Accepted headers -/

/-- **What an accepted walk is.** One block for each height, linked, ending at the hash it was given,
each with the header that was served for it. -/
structure HeaderWalk (H : Poseidon2) (top : ChainHead) (anchor : ℕ) (raws : List RawHeader)
    (blocks : List VerifiedBlock) : Prop where
  le : anchor ≤ top.number
  numbers : blocks.map VerifiedBlock.number = List.range' anchor (top.number - anchor + 1)
  last : ∀ block ∈ blocks.getLast?, block.hash = top.hash
  linked : blocks.IsChain fun lower block => block.parentHash = lower.hash
  served : List.Forall₂ (RawHeader.Verifies H) raws blocks
  bounded : ∀ raw ∈ raws, raw.number < 2 ^ 32

namespace HeaderWalk

variable {top : ChainHead} {anchor : ℕ} {raws : List RawHeader} {blocks : List VerifiedBlock}
  {block block' : VerifiedBlock}

section

variable (walk : HeaderWalk H top anchor raws blocks)
include walk

theorem length_eq : blocks.length = top.number - anchor + 1 := by
  have := congrArg List.length walk.numbers
  simpa using this

theorem number_getElem {i : ℕ} (h : i < blocks.length) : blocks[i].number = anchor + i := by
  have at_i := congrArg (·[i]?) walk.numbers
  have := walk.length_eq
  simpa [h, List.getElem?_range', show i < top.number - anchor + 1 by omega] using at_i

theorem number_le (mem : block ∈ blocks) : block.number ≤ top.number := by
  obtain ⟨i, h, rfl⟩ := List.getElem_of_mem mem
  have := walk.number_getElem h
  have := walk.length_eq
  have := walk.le
  omega

/-- The block at the top. -/
theorem hash_top (mem : block ∈ blocks)
    (number : block.number = top.number) : block.hash = top.hash := by
  obtain ⟨i, h, rfl⟩ := List.getElem_of_mem mem
  have numbered := walk.number_getElem h
  have length := walk.length_eq
  have := walk.le
  refine walk.last _ ?_
  rw [List.getLast?_eq_getElem?, List.getElem?_eq_getElem (by omega), Option.mem_some_iff]
  congr 1
  omega

theorem exists_top : ∃ block ∈ blocks, block.number = top.number := by
  have length := walk.length_eq
  have bound : top.number - anchor < blocks.length := by omega
  have := walk.number_getElem bound
  have := walk.le
  exact ⟨_, List.getElem_mem bound, by omega⟩

/-- Below the top every block is the parent of one. -/
theorem exists_above (mem : block ∈ blocks) (lt : block.number < top.number) :
    ∃ upper ∈ blocks, upper.number = block.number + 1 ∧ upper.parentHash = block.hash := by
  obtain ⟨i, h, rfl⟩ := List.getElem_of_mem mem
  have numbered := walk.number_getElem h
  have length := walk.length_eq
  have bound : i + 1 < blocks.length := by omega
  have next := walk.number_getElem bound
  exact ⟨_, List.getElem_mem bound, by omega, walk.linked.getElem i bound⟩

theorem exists_served (mem : block ∈ blocks) : ∃ raw ∈ raws, raw.Verifies H block :=
  forall₂_exists_left walk.served mem

end

end HeaderWalk

/-! ## Two walks -/

/-- Two blocks whose headers are one, as far as the hash is over them. -/
structure VerifiedBlock.SameHeader (block block' : VerifiedBlock) : Prop where
  number : block.number = block'.number
  hash : block.hash = block'.hash
  parentHash : block.parentHash = block'.parentHash
  zkTreeRoot : block.zkTreeRoot = block'.zkTreeRoot
  extrinsicsRoot : bytesToDigestLossy block.extrinsicsRoot = bytesToDigestLossy block'.extrinsicsRoot

/-- Headers of one hash are one header. -/
theorem RawHeader.Verifies.sameHeader (hH : CollisionFree H.hashToFelts Q) {raw raw' : RawHeader}
    {block block' : VerifiedBlock} (v : raw.Verifies H block) (v' : raw'.Verifies H block')
    (bound : raw.number < 2 ^ 32) (bound' : raw'.number < 2 ^ 32)
    (hin : raw.toHeader.preimage H ∈ Q) (hin' : raw'.toHeader.preimage H ∈ Q)
    (same : block.hash = block'.hash) : block.SameHeader block' := by
  have agrees := Header.agrees_of_hash_eq hH hin hin' (v.hash.trans (same.trans v'.hash.symm))
  refine ⟨?_, same, ?_, ?_, ?_⟩
  · rw [v.number, v'.number]
    exact agrees.number_eq bound bound'
  · rw [v.parentHash, v'.parentHash]
    exact v.canonical.eq_of_lossy v'.canonical agrees.parentHash
  · have roots : bytesToDigestLossy raw.zkTreeRoot = bytesToDigestLossy raw'.zkTreeRoot :=
      agrees.zkTreeRoot
    rwa [v.zkTreeRoot, v'.zkTreeRoot, bytesToDigestLossy_digestBytes,
      bytesToDigestLossy_digestBytes] at roots
  · rw [v.extrinsicsRoot, v'.extrinsicsRoot]
    exact agrees.extrinsicsRoot

namespace HeaderWalk

section

variable {top top' : ChainHead} {anchor anchor' : ℕ} {raws raws' : List RawHeader}
  {blocks blocks' : List VerifiedBlock} {block block' : VerifiedBlock}

section

variable (hH : CollisionFree H.hashToFelts Q) (walk : HeaderWalk H top anchor raws blocks)
  (walk' : HeaderWalk H top' anchor' raws' blocks')
  (hin : ∀ raw ∈ raws, raw.toHeader.preimage H ∈ Q)
  (hin' : ∀ raw ∈ raws', raw.toHeader.preimage H ∈ Q)
include hH walk walk' hin hin'

theorem sameHeader_of_hash (mem : block ∈ blocks) (mem' : block' ∈ blocks')
    (same : block.hash = block'.hash) : block.SameHeader block' := by
  obtain ⟨raw, served, v⟩ := walk.exists_served mem
  obtain ⟨raw', served', v'⟩ := walk'.exists_served mem'
  exact v.sameHeader hH v' (walk.bounded raw served) (walk'.bounded raw' served') (hin raw served)
    (hin' raw' served') same

/-- One hash is at one height. -/
theorem top_eq (same : top.hash = top'.hash) : top = top' := by
  obtain ⟨block, mem, number⟩ := walk.exists_top
  obtain ⟨block', mem', number'⟩ := walk'.exists_top
  have hashes : block.hash = block'.hash := by
    rw [walk.hash_top mem number, walk'.hash_top mem' number', same]
  have := (sameHeader_of_hash hH walk walk' hin hin' mem mem' hashes).number
  cases top
  cases top'
  simp_all

/-- **Two walks to one hash agree downward.** -/
theorem sameHeader (same : top.hash = top'.hash) (mem : block ∈ blocks) (mem' : block' ∈ blocks')
    (number : block.number = block'.number) : block.SameHeader block' := by
  obtain rfl := top_eq hH walk walk' hin hin' same
  -- Downward from the top: a block's hash is what the block above it names as its parent.
  induction depth : top.number - block.number generalizing block block' with
  | zero =>
    have le := walk.number_le mem
    have le' := walk'.number_le mem'
    refine sameHeader_of_hash hH walk walk' hin hin' mem mem' ?_
    rw [walk.hash_top mem (by omega), walk'.hash_top mem' (by omega)]
  | succ depth ih =>
    obtain ⟨upper, above, next, parent⟩ := walk.exists_above mem (by omega)
    obtain ⟨upper', above', next', parent'⟩ := walk'.exists_above mem' (by omega)
    have upper_same := ih above above' (by omega) (by omega)
    refine sameHeader_of_hash hH walk walk' hin hin' mem mem' ?_
    rw [← parent, ← parent', upper_same.parentHash]

end

/-- **The labels agree** at a height where both walks were served the items as they were encoded. -/
theorem label_eq (hH : CollisionFree H.hashToFelts Q)
    (packs : Set.InjOn H.bytesToFelts {bytes | bytes.length = digestLogsSize})
    (walk : HeaderWalk H top anchor raws blocks) (walk' : HeaderWalk H top' anchor' raws' blocks')
    (hin : ∀ raw ∈ raws, raw.toHeader.preimage H ∈ Q)
    (hin' : ∀ raw ∈ raws', raw.toHeader.preimage H ∈ Q) (mem : block ∈ blocks)
    (mem' : block' ∈ blocks') (same : block.hash = block'.hash)
    (encoded : ∀ raw ∈ raws, raw.number = block.number → raw.AsEncoded)
    (encoded' : ∀ raw ∈ raws', raw.number = block'.number → raw.AsEncoded) :
    block.authorLabel = block'.authorLabel := by
  obtain ⟨raw, here, v⟩ := walk.exists_served mem
  obtain ⟨raw', here', v'⟩ := walk'.exists_served mem'
  have agrees := Header.agrees_of_hash_eq hH (hin raw here) (hin' raw' here')
    (v.hash.trans (same.trans v'.hash.symm))
  rw [v.authorLabel, v'.authorLabel, RawHeader.authorLabel, RawHeader.authorLabel,
    (encoded raw here v.number.symm).logs_eq packs agrees (encoded' raw' here' v'.number.symm)]

end

end HeaderWalk

/-! ## Whatever is answered -/

namespace Rpc

theorem talk_headerChain (top : ChainHead) (anchor : ℕ) (respond : List HttpRequest → HttpReply)
    (client : RpcClient) : ((headerChain H top anchor).talk respond client).1 =
      ((headerReads top anchor).talk respond client).1 >>= fun served =>
        (verifyHeaders H none anchor (served.1.zip served.2)).mapError .sync :=
  Session.talk_bind_ofExcept ..

theorem orFail_yields {α : Type} {x : Option α} {e : ClientError} :
    (orFail x e).Yields fun a => x = some a :=
  .ofExcept fun _ ok => okOr_ok_iff.1 ok

theorem offline_yields {α : Type} {x : Except SyncError α} :
    (offline x).Yields fun a => x = .ok a :=
  .ofExcept fun _ ok => mapError_ok_iff.1 ok

/-- A list is answered with a hash, or that there is none, for each height. -/
theorem tryHashList_yields (numbers : List ℕ) : (tryHashList numbers).Yields fun listed =>
    ∀ hashes ∈ listed, hashes.length = numbers.length := by
  unfold tryHashList
  refine .bind_any fun answer => ?_
  split
  · exact .pure fun _ mem => nomatch mem
  · exact .throw _
  · split
    · exact .pure fun _ mem => nomatch mem
    · split
      · exact .pure fun _ mem => nomatch mem
      · next answers _ counted =>
        refine orFail_yields.bind fun hashes decoded => .pure fun _ mem => ?_
        obtain rfl := Option.some.inj mem
        rw [← (mapM_some_iff.1 decoded).length_eq]
        exact not_not.1 counted

theorem blockHashesAt_yields (numbers : List ℕ) : (blockHashesAt numbers).Yields fun hashes =>
    hashes.length = numbers.length := by
  -- Also one by one, each height is answered once.
  have each : (numbers.mapM blockHashAtHeight : Talk _).Yields fun hashes =>
      hashes.length = numbers.length :=
    (Session.Yields.mapM numbers fun _ _ => .any _).mono fun _ all => all.length_eq.symm
  unfold blockHashesAt
  split
  · next empty =>
    subst empty
    exact .pure rfl
  · refine .bind_any fun client => ?_
    dsimp only
    split
    · exact each
    · refine (tryHashList_yields numbers).bind fun listed counted => .bind_any fun _ => ?_
      cases listed with
      | some hashes => exact .pure (counted hashes rfl)
      | none => exact each

theorem sum_pages {size : ℕ} (pos : 0 < size) (start stop : ℕ) :
    ((pages size start stop).map fun page => page.2 - page.1).sum = stop - start := by
  have first (k : ℕ) : ((List.range k).map fun i =>
      min (start + size * (i + 1)) stop - (start + size * i)).sum = min (size * k) (stop - start) := by
    induction k with
    | zero => simp
    | succ k ih =>
      rw [List.range_succ, List.map_append, List.sum_append, ih, List.map_singleton,
        List.sum_singleton, Nat.mul_succ]
      omega
  rw [pages, List.map_map]
  refine (first _).trans (Nat.min_eq_right ?_)
  have := Nat.div_add_mod (stop - start + size - 1) size
  have := Nat.mod_lt (stop - start + size - 1) pos
  omega

theorem length_flatten_pages {α : Type} {size : ℕ} (pos : 0 < size) {start stop : ℕ}
    {read : List (List α)}
    (each : List.Forall₂ (fun (page : ℕ × ℕ) items => items.length = page.2 - page.1)
      (pages size start stop) read) : read.flatten.length = stop - start := by
  have lengths : read.map List.length = (pages size start stop).map fun page => page.2 - page.1 := by
    generalize pages size start stop = all at each
    induction each with
    | nil => rfl
    | cons head _ ih => rw [List.map_cons, List.map_cons, head, ih]
  rw [List.length_flatten, lengths, sum_pages pos]

theorem decodeU32Hex_lt {value : String} {n : ℕ} (h : decodeU32Hex value = some n) : n < 2 ^ 32 := by
  have bounded (digits : List Char) (read : (do
      let digits ← if digits = [] then none else digits.mapM hexDigit
      let n := digits.foldl (fun n digit => 16 * n + digit) 0
      if n < 2 ^ 32 then some n else none) = some n) : n < 2 ^ 32 := by
    dsimp only at read
    split at read
    · cases read
    · simp only [Option.bind_eq_bind, Option.bind_eq_some_iff, Option.ite_none_right_eq_some] at read
      obtain ⟨digits, -, small, same⟩ := read
      exact Option.some.inj same ▸ small
  exact bounded _ h

theorem HeaderText.number_lt {text : HeaderText} (h : text.decode = some raw) :
    raw.number < 2 ^ 32 := by
  simp only [HeaderText.decode, Option.bind_eq_bind, Option.bind_eq_some_iff] at h
  obtain ⟨_, _, number, bounded, _, _, _, _, _, _, _, _, done⟩ := h
  obtain rfl := Option.some.inj done
  exact decodeU32Hex_lt bounded

/-- **The reads of a walk**, whatever is answered: a hash for each height, the last one its own, and
as many headers. -/
theorem headerReads_yields (top : ChainHead) (anchor : ℕ) :
    (headerReads top anchor).Yields fun served => anchor ≤ top.number ∧
      served.1.length = top.number - anchor + 1 ∧ served.1.getLast? = some top.hash ∧
      served.2.length = served.1.length ∧ ∀ raw ∈ served.2, raw.number < 2 ^ 32 := by
  refine offline_yields.bind fun _ le => offline_yields.bind fun _ _ => ?_
  refine Session.Yields.bind (P := List.Forall₂
    (fun page hashes => hashes.length = page.2 - page.1) (pages hashPage anchor top.number))
    (.mapM _ ?_) fun below each => .bind_any fun texts => ?_
  · rintro ⟨start, stop⟩ -
    refine (blockHashesAt_yields _).bind fun answers counted => ?_
    refine offline_yields.mono fun hashes ok => ?_
    rw [← (mapM_ok_iff.1 ok).length_eq, List.length_zip, counted, List.length_range']
    exact Nat.min_self _
  refine (Session.Yields.ofExcept fun _ ok => ensure_ok_iff.1 ok).bind fun _ counted => ?_
  refine orFail_yields.bind fun raws decoded => .pure ?_
  have length : (below.flatten ++ [top.hash]).length = top.number - anchor + 1 := by
    rw [List.length_append, length_flatten_pages (by decide) each, List.length_singleton]
  refine ⟨ensure_ok_iff.1 le, length, List.getLast?_concat .., ?_, fun raw mem => ?_⟩
  · rw [← (mapM_some_iff.1 decoded).length_eq, counted, length]
  · obtain ⟨text, -, here⟩ := forall₂_exists_left (mapM_some_iff.1 decoded) mem
    exact HeaderText.number_lt here

section

variable {top top' : ChainHead} {anchor anchor' : ℕ} {respond respond' : List HttpRequest → HttpReply}
  {client client' : RpcClient} {hashes hashes' : List Hash256} {raws raws' : List RawHeader}
  {blocks blocks' : List VerifiedBlock}

/-- **What is accepted is a walk**, whatever was answered. -/
theorem headerWalk_of_talk
    (reads : ((headerReads top anchor).talk respond client).1 = .ok (hashes, raws))
    (accepted : ((headerChain H top anchor).talk respond client).1 = .ok blocks) :
    HeaderWalk H top anchor raws blocks := by
  obtain ⟨le, length, last, counted, bounded⟩ := (headerReads_yields top anchor).talk reads
  rw [talk_headerChain, reads] at accepted
  obtain ⟨each, numbers, linked, -⟩ := verifyHeaders_ok (mapError_ok_iff.1 accepted)
  dsimp only at length last counted bounded each numbers
  have firsts : (hashes.zip raws).map Prod.fst = hashes := List.map_fst_zip (by omega)
  have seconds : (hashes.zip raws).map Prod.snd = raws := List.map_snd_zip (by omega)
  have hashed : blocks.map VerifiedBlock.hash = hashes := by
    have pairs : List.Forall₂ Eq (blocks.map VerifiedBlock.hash) ((hashes.zip raws).map Prod.fst) :=
      List.forall₂_map_left_iff.2 (List.forall₂_map_right_iff.2 (each.flip.imp fun _ _ h => h.2))
    rwa [List.forall₂_eq_eq_eq, firsts] at pairs
  refine ⟨le, ?_, fun block mem => ?_, linked, ?_, bounded⟩
  · rw [numbers, List.length_zip, counted, Nat.min_self, length]
  · have := congrArg List.getLast? hashed
    rw [List.getLast?_map, mem, last] at this
    exact Option.some.inj this
  · rw [← seconds, List.forall₂_map_left_iff]
    exact each.imp fun _ _ h => h.1

/-- **Two walks to one hash agree**, whatever was answered, from whichever anchors and in whichever
pages: on the headers as far as both reach, up to the reduction of the extrinsics root; and on the
author label at every height where both were served the digest items as they were encoded, within the
window. Without that any label will do: a header of two logs that fill the window has the hash of one
with any other label. -/
theorem header_walks_agree (hH : CollisionFree H.hashToFelts Q)
    (packs : Set.InjOn H.bytesToFelts {bytes | bytes.length = digestLogsSize})
    (reads : ((headerReads top anchor).talk respond client).1 = .ok (hashes, raws))
    (accepted : ((headerChain H top anchor).talk respond client).1 = .ok blocks)
    (reads' : ((headerReads top' anchor').talk respond' client').1 = .ok (hashes', raws'))
    (accepted' : ((headerChain H top' anchor').talk respond' client').1 = .ok blocks')
    (hin : ∀ raw ∈ raws, raw.toHeader.preimage H ∈ Q)
    (hin' : ∀ raw ∈ raws', raw.toHeader.preimage H ∈ Q) (same : top.hash = top'.hash) :
    HeaderWalk H top anchor raws blocks ∧ HeaderWalk H top' anchor' raws' blocks' ∧ top = top' ∧
      (∀ block ∈ blocks, ∀ block' ∈ blocks', block.number = block'.number →
        block.SameHeader block' ∧
        ((∀ raw ∈ raws, raw.number = block.number → raw.AsEncoded) →
          (∀ raw ∈ raws', raw.number = block'.number → raw.AsEncoded) →
          block.authorLabel = block'.authorLabel)) ∧
      ∀ raw ∈ raws, 2 ≤ raw.logs.length → digestLogsSize ≤ raw.toHeader.digest.length →
        ∀ label, ∃ logs, ({ raw with logs := logs } : RawHeader).toHeader.hash H =
            raw.toHeader.hash H ∧
          ({ raw with logs := logs } : RawHeader).authorLabel = some label := by
  have walk := headerWalk_of_talk reads accepted
  have walk' := headerWalk_of_talk reads' accepted'
  refine ⟨walk, walk', walk.top_eq hH walk' hin hin' same, fun block mem block' mem' number => ?_,
    fun raw _ two full label => ?_⟩
  · have header := walk.sameHeader hH walk' hin hin' same mem mem' number
    exact ⟨header, walk.label_eq hH packs walk' hin hin' mem mem' header.hash⟩
  · obtain ⟨logs, agrees, labelled⟩ := raw.exists_relabelled H two full label
    exact ⟨logs, agrees.hash_eq, labelled⟩

end

/-! ## One header, two labels -/

theorem hexDigit_hexChar {n : ℕ} (h : n < 16) : hexDigit (hexChar n) = some n := by
  decide +revert

theorem hexBytes_flatMap (bytes : List UInt8) :
    hexBytes (bytes.flatMap fun b => [hexChar (b.toNat / 16), hexChar (b.toNat % 16)]) =
      some bytes := by
  induction bytes with
  | nil => rfl
  | cons b bytes ih =>
    have := b.toNat_lt
    rw [List.flatMap_cons, List.cons_append, List.cons_append, List.nil_append, hexBytes,
      hexDigit_hexChar (by omega), hexDigit_hexChar (by omega), ih]
    simp only [Option.bind_eq_bind, Option.bind_some, Option.some.injEq, List.cons.injEq, and_true]
    rw [Nat.div_add_mod, UInt8.ofNat_toNat]

theorem decodeHex_hex0x (bytes : List UInt8) : decodeHex (hex0x bytes) = some bytes := by
  rw [decodeHex, hex0x, String.toList_ofList]
  exact hexBytes_flatMap bytes

theorem decodeHash_hashText (hash : Hash256) : decodeHash (hashText hash) = some hash := by
  rw [decodeHash, hashText, decodeHex_hex0x]
  simp [hashOfBytes_toBytes]

/-- A header as it is answered, with its number as this text. -/
def headerJson (number : String) (raw : RawHeader) : Json :=
  .object [("parentHash", .text (hashText raw.parentHash)), ("number", .text number),
    ("stateRoot", .text (hashText raw.stateRoot)),
    ("extrinsicsRoot", .text (hashText raw.extrinsicsRoot)),
    ("zkTreeRoot", .text (hashText raw.zkTreeRoot)),
    ("digest", .object [("logs", .array (raw.logs.map fun log => .text (hex0x log)))])]

theorem decode_headerJson {number : String} (numbered : decodeU32Hex number = some raw.number) :
    (HeaderText.ofJson (headerJson number raw)).bind HeaderText.decode = some raw := by
  have logs : (raw.logs.map fun log => Json.text (hex0x log)).mapM Json.asText =
      some (raw.logs.map hex0x) := by
    rw [mapM_some_iff, List.forall₂_map_left_iff, List.forall₂_map_right_iff]
    exact List.forall₂_same.2 fun _ _ => rfl
  have decoded : (raw.logs.map hex0x).mapM decodeHex = some raw.logs := by
    rw [mapM_some_iff, List.forall₂_map_left_iff]
    exact List.forall₂_same.2 fun log _ => decodeHex_hex0x log
  have text : HeaderText.ofJson (headerJson number raw) = some ⟨hashText raw.parentHash, number,
      hashText raw.stateRoot, hashText raw.extrinsicsRoot, hashText raw.zkTreeRoot,
      raw.logs.map hex0x⟩ := by
    simp [HeaderText.ofJson, headerJson, Json.field, Json.texts, Json.asArray, Json.asText,
      List.lookup_cons, logs]
  rw [text, Option.bind_some, HeaderText.decode]
  simp only [decodeHash_hashText, numbered, decoded, Option.bind_eq_bind, Option.bind_some]

/-- A node with two blocks: it lists the hash of the lower one, answers a batch with both headers, and
everything else with the upper one. -/
def serves (hash : Hash256) (lower upper : RawHeader) : List HttpRequest → HttpReply := fun asked =>
  match asked.getLast? with
  | some (.single (.blockHashes _)) =>
    .body (some (.object [("result", .array [.text (hashText hash)])]))
  | some (.batch _) =>
    .body (some (.array [.object [("id", .number 2), ("result", headerJson "0x0" lower)],
      .object [("id", .number 3), ("result", headerJson "0x1" upper)]]))
  | _ => .body (some (.object [("result", headerJson "0x1" upper)]))

section

variable {lower upper : RawHeader} (zero : lower.number = 0) (one : upper.number = 1)
  (hash top : Hash256)

theorem run_offline {respond : List HttpRequest → HttpReply} {p : Prop} [Decidable p] (holds : p)
    (error : SyncError) (client : RpcClient) (asked : List HttpRequest) :
    (offline (ensure p error) client).run respond asked = ((.ok (), client), asked) := by
  rw [offline, ensure, if_pos holds]
  rfl

theorem run_orFail {respond : List HttpRequest → HttpReply} {α : Type} {x : Option α} {a : α}
    (ok : x = some a) (client : RpcClient) (asked : List HttpRequest) :
    ((orFail x .answer : Talk α) client).run respond asked = ((.ok a, client), asked) := by
  rw [ok]
  rfl

include one

/-- The upper header alone. -/
theorem reads_upper : ((headerReads ⟨1, top⟩ 1).talk (serves hash lower upper) .new).1 =
    .ok ([top], [upper]) := by
  obtain ⟨text, parsed, decoded⟩ := Option.bind_eq_some_iff.1
    (decode_headerJson (show decodeU32Hex "0x1" = some upper.number by rw [one]; decide))
  have none : pages hashPage 1 1 = [] := rfl
  have chunk : [top].toChunks headerBatch = [[top]] := rfl
  have asks : (callResult (.headerAt (hashText top)) .new).run (serves hash lower upper) [] =
      ((.ok (headerJson "0x1" upper), { RpcClient.new with nextId := 2 }),
        [.single (.headerAt (hashText top))]) := rfl
  have decodes : [[text]].flatten.mapM HeaderText.decode = some [upper] := by simp [decoded]
  simp only [headerReads, none, List.mapM_nil, pure_bind, List.flatten_nil, List.nil_append, chunk,
    List.mapM_cons, callMany, List.map_cons, List.map_nil, bind_assoc]
  rw [Session.talk, Session.run_bind_ok (run_offline le_rfl ..),
    Session.run_bind_ok (run_offline (Nat.zero_le _) ..), Session.run_bind_ok asks,
    Session.run_bind_ok (run_orFail parsed ..), check, ensure, if_pos (by rfl),
    Session.run_bind_ok rfl, Session.run_bind_ok (run_orFail decodes ..)]
  rfl

include zero

/-- Both headers: a list of one hash, and a batch. -/
theorem reads_both : ((headerReads ⟨1, top⟩ 0).talk (serves hash lower upper) .new).1 =
    .ok ([hash, top], [lower, upper]) := by
  obtain ⟨text, parsed, decoded⟩ := Option.bind_eq_some_iff.1
    (decode_headerJson (show decodeU32Hex "0x0" = some lower.number by rw [zero]; decide))
  obtain ⟨text', parsed', decoded'⟩ := Option.bind_eq_some_iff.1
    (decode_headerJson (show decodeU32Hex "0x1" = some upper.number by rw [one]; decide))
  have page : pages hashPage 0 1 = [(0, 1)] := rfl
  have chunk : [hash, top].toChunks headerBatch = [[hash, top]] := rfl
  have listed : (blockHashesAt [0] .new).run (serves hash lower upper) [] =
      ((.ok [some hash], ⟨2, .unknown, .taken, []⟩), [.single (.blockHashes [0])]) := by
    have hashes : [Json.text (hashText hash)].mapM hashOfJson = some [some hash] := by
      simp [hashOfJson, decodeHash_hashText]
    have list : (tryHashList [0] .new).run (serves hash lower upper) [] =
        ((.ok (some [some hash]), ⟨2, .unknown, .unknown, []⟩), [.single (.blockHashes [0])]) := by
      rw [tryHashList, Session.run_bind_ok (a := .ok (.array [.text (hashText hash)])) rfl]
      show ((orFail ([Json.text (hashText hash)].mapM hashOfJson) .answer >>= _) _).run _ _ = _
      rw [Session.run_bind_ok (run_orFail hashes ..)]
      rfl
    rw [blockHashesAt, if_neg (by decide), Session.run_bind_ok (a := RpcClient.new) rfl]
    rw [if_neg (by decide), Session.run_bind_ok list]
    rfl
  have batch : (callMany [.headerAt (hashText hash), .headerAt (hashText top)]
        ⟨2, .unknown, .taken, []⟩).run (serves hash lower upper) [.single (.blockHashes [0])] =
      ((.ok [headerJson "0x0" lower, headerJson "0x1" upper], ⟨4, .taken, .taken, []⟩),
        [.single (.blockHashes [0]),
          .batch [.headerAt (hashText hash), .headerAt (hashText top)]]) := rfl
  have decodes : (do
      let first ← text.decode
      let second ← text'.decode
      pure [first, second]) = some [lower, upper] := by
    simp [decoded, decoded']
  simp only [headerReads, page, List.mapM_cons, List.mapM_nil, List.range', bind_assoc, pure_bind]
  rw [Session.talk, Session.run_bind_ok (run_offline (Nat.zero_le _) ..),
    Session.run_bind_ok (run_offline (by decide) ..), Session.run_bind_ok listed,
    Session.run_bind_ok (a := [hash]) rfl]
  simp only [List.flatten_cons, List.flatten_nil, List.append_nil, List.cons_append, List.nil_append,
    chunk, List.mapM_cons, List.mapM_nil, List.map_cons, List.map_nil, bind_assoc, pure_bind]
  rw [Session.run_bind_ok batch]
  simp only [List.mapM_cons, List.mapM_nil, bind_assoc, pure_bind]
  rw [Session.run_bind_ok (run_orFail parsed ..), Session.run_bind_ok (run_orFail parsed' ..), check,
    ensure, if_pos (by rfl), Session.run_bind_ok rfl, Session.run_bind_ok (run_orFail decodes ..)]
  rfl

end

end Rpc

namespace Sample

open Rpc

/-- The two items of a block, as they were encoded. -/
def itemLogs : List (List UInt8) :=
  [labelItem 0, (DigestItem.sealed .pow (Seal.encode ⟨3, 5⟩)).encode]

/-- Both items as one log, which fills the window, and a label behind it. -/
def joinedLogs : List (List UInt8) := [itemLogs.flatten, labelItem ⟨fun _ => 1⟩]

def lowerRaw : RawHeader := ⟨0, 0, 0, 0, 0, itemLogs⟩

def lowerHash : Hash256 := lowerRaw.toHeader.hash windowSponge

/-- The block above it, with these digest items. -/
def upperRaw (logs : List (List UInt8)) : RawHeader := ⟨lowerHash, 1, 0, 0, 0, logs⟩

def walkHead : ChainHead := ⟨1, (upperRaw itemLogs).toHeader.hash windowSponge⟩

theorem agrees_joinedLogs :
    (upperRaw joinedLogs).toHeader.Agrees windowSponge (upperRaw itemLogs).toHeader :=
  ⟨rfl, rfl, rfl, rfl, rfl, by decide +kernel⟩

theorem authorLabel_itemLogs : (upperRaw itemLogs).authorLabel = some 0 := by
  rw [RawHeader.authorLabel, upperRaw, itemLogs, List.findSome?_cons,
    RawHeader.logLabel_eq_some_iff.2 rfl]

theorem authorLabel_joinedLogs : (upperRaw joinedLogs).authorLabel = some ⟨fun _ => 1⟩ := by
  rw [RawHeader.authorLabel, upperRaw, joinedLogs, List.findSome?_cons,
    RawHeader.logLabel_eq_none (by decide +kernel), List.findSome?_cons,
    RawHeader.logLabel_eq_some_iff.2 rfl]

theorem asEncoded_itemLogs (raw : RawHeader) (logs : raw.logs = itemLogs) : raw.AsEncoded :=
  ⟨[.preRuntime .pow (Hash256.toBytes 0), .sealed .pow (Seal.encode ⟨3, 5⟩)], logs, by decide +kernel⟩

theorem verifyHeader_sample (raw : RawHeader) (below : Option Hash256) {number : ℕ} {hash : Hash256}
    (numbered : raw.number = number) (canonical : raw.parentHash.Canonical)
    (root : raw.zkTreeRoot = 0) (hashed : raw.toHeader.hash windowSponge = hash)
    (linked : below = none ∨ below = some raw.parentHash) :
    verifyHeader windowSponge below number hash raw =
      .ok ⟨number, hash, raw.parentHash, raw.extrinsicsRoot, 0, raw.authorLabel⟩ := by
  have zero : bytesToDigest raw.zkTreeRoot = some 0 := bytesToDigest_eq_some.2 (by simp [root])
  simp only [verifyHeader, bind_ok_iff, ensure_ok_iff, okOr_ok_iff]
  exact ⟨(), numbered, (), canonical, 0, zero, (), hashed, (), linked, rfl⟩

theorem canonical_lowerHash : lowerHash.Canonical := by
  unfold lowerHash Header.hash
  exact canonical_digestBytes _

def lowerBlock : VerifiedBlock := ⟨0, lowerHash, 0, 0, 0, lowerRaw.authorLabel⟩

def upperBlock (logs : List (List UInt8)) : VerifiedBlock :=
  ⟨1, walkHead.hash, lowerHash, 0, 0, (upperRaw logs).authorLabel⟩

section

variable {logs : List (List UInt8)}
  (hashed : (upperRaw logs).toHeader.hash windowSponge = walkHead.hash)
include hashed

/-- A walk of both headers. -/
theorem accepts_both : ((Rpc.headerChain windowSponge walkHead 0).talk
    (serves lowerHash lowerRaw (upperRaw logs)) .new).1 = .ok [lowerBlock, upperBlock logs] := by
  have lower := verifyHeader_sample lowerRaw none rfl (by decide) rfl
    (show _ = lowerHash from rfl) (.inl rfl)
  have upper := verifyHeader_sample (upperRaw logs) _ rfl canonical_lowerHash rfl hashed
    (.inr (show some lowerHash = _ from rfl))
  have reads : ((headerReads walkHead 0).talk (serves lowerHash lowerRaw (upperRaw logs)) .new).1 =
      .ok ([lowerHash, walkHead.hash], [lowerRaw, upperRaw logs]) := reads_both rfl rfl ..
  rw [talk_headerChain, bind_of_ok reads, mapError_ok_iff]
  simp only [List.zip_cons_cons, List.zip_nil_right, verifyHeaders, bind_ok_iff]
  exact ⟨_, lower, _, ⟨_, upper, [], rfl, rfl⟩, rfl⟩

/-- A walk of the upper one. -/
theorem accepts_upper : ((Rpc.headerChain windowSponge walkHead 1).talk
    (serves lowerHash lowerRaw (upperRaw logs)) .new).1 = .ok [upperBlock logs] := by
  have upper := verifyHeader_sample (upperRaw logs) none rfl canonical_lowerHash rfl
    hashed (.inl rfl)
  have reads : ((headerReads walkHead 1).talk (serves lowerHash lowerRaw (upperRaw logs)) .new).1 =
      .ok ([walkHead.hash], [upperRaw logs]) := reads_upper rfl ..
  rw [talk_headerChain, bind_of_ok reads, mapError_ok_iff]
  simp only [List.zip_cons_cons, List.zip_nil_right, verifyHeaders, bind_ok_iff]
  exact ⟨_, upper, [], rfl, rfl⟩

end

def walkLists : List (List Felt) :=
  [lowerRaw, upperRaw itemLogs].map fun raw => raw.toHeader.preimage windowSponge

theorem collisionFree_walkLists : CollisionFree windowSponge.hashToFelts {x | x ∈ walkLists} :=
  collisionFree_sampleSponge (by decide +kernel)

end Sample

open Sample Rpc in
/-- One header, of one hash, is accepted with two labels: over the block below it, and alone. -/
theorem label_not_committed :
    CollisionFree windowSponge.hashToFelts {x | x ∈ walkLists} ∧
      (upperRaw joinedLogs).toHeader.preimage windowSponge =
        (upperRaw itemLogs).toHeader.preimage windowSponge ∧
      ∃ lower block block' : VerifiedBlock,
        ((Rpc.headerChain windowSponge walkHead 0).talk
          (serves lowerHash lowerRaw (upperRaw itemLogs)) .new).1 = .ok [lower, block] ∧
        ((Rpc.headerChain windowSponge walkHead 1).talk
          (serves lowerHash lowerRaw (upperRaw joinedLogs)) .new).1 = .ok [block'] ∧
        block.number = block'.number ∧ block.authorLabel = some 0 ∧
        block'.authorLabel = some ⟨fun _ => 1⟩ ∧ (0 : Hash256) ≠ ⟨fun _ => 1⟩ :=
  ⟨collisionFree_walkLists, Header.agrees_iff.1 agrees_joinedLogs, _, _, _, accepts_both rfl,
    accepts_upper agrees_joinedLogs.hash_eq, rfl, authorLabel_itemLogs, authorLabel_joinedLogs,
    by decide⟩

open Sample Rpc in
/-- A walk of two headers, by a list and a batch, and one of the upper header alone, which was served as
it was encoded: one header and one label. -/
theorem header_walks_agree_labelled : ∃ lower block block' : VerifiedBlock,
    ((Rpc.headerChain windowSponge walkHead 0).talk
      (serves lowerHash lowerRaw (upperRaw itemLogs)) .new).1 = .ok [lower, block] ∧
    ((Rpc.headerChain windowSponge walkHead 1).talk
      (serves lowerHash lowerRaw (upperRaw itemLogs)) .new).1 = .ok [block'] ∧
    block.SameHeader block' ∧ block.authorLabel = block'.authorLabel := by
  obtain ⟨-, -, -, headers, -⟩ := header_walks_agree collisionFree_walkLists injOn_packBytes
    (reads_both rfl rfl lowerHash _) (accepts_both rfl) (reads_upper rfl lowerHash _)
    (accepts_upper rfl) (by simp [walkLists]) (by simp [walkLists]) rfl
  obtain ⟨header, label⟩ := headers (upperBlock itemLogs) (by simp) (upperBlock itemLogs) (by simp) rfl
  refine ⟨_, _, _, accepts_both rfl, accepts_upper rfl, header, label ?_ ?_⟩
  · intro raw mem _
    simp only [List.mem_cons, List.not_mem_nil, or_false] at mem
    rcases mem with rfl | rfl <;> exact asEncoded_itemLogs _ rfl
  · intro raw mem _
    obtain rfl := List.mem_singleton.1 mem
    exact asEncoded_itemLogs _ rfl

end Qnero
