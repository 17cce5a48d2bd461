import Qnero.Consensus.SealedHeader
import Qnero.Consensus.Work
import Qnero.Wallet.Rpc

/-!
# Shares and blocks

A hash is good for a block if it is small enough: read as a little-endian number and multiplied by the
difficulty, it must fit 256 bits. A miner never computes that. It is sent a target of 64 bits, compares
the top word of its hash with it and submits what is below; such a hash is a share.

The share difficulty of a job is never above the block difficulty, so a block can fail the share rule
only by having the target itself as its top word. The endpoint therefore asks for the block rule first,
and takes a hash that passes either.
-/

namespace Qnero.Stratum

open Machine Scale

/-! ## The two rules -/

def u256Max : ℕ := 2 ^ 256 - 1

/-- A number from its bytes, most significant first. -/
def fromBigEndian (bytes : List UInt8) : ℕ := bytes.foldl (fun n b => 256 * n + b.toNat) 0

def hashAsLeU512 (hash : Hash256) : ℕ := fromBigEndian hash.toBytes.reverse

/-- The rule of consensus. A zero difficulty accepts nothing. -/
def meetsDifficulty (hash : Hash256) (difficulty : ℕ) : Bool :=
  if difficulty = 0 then false
  else
    let product := hashAsLeU512 hash * difficulty % 2 ^ 512
    let overflowed := decide (u512Max < hashAsLeU512 hash * difficulty)
    !overflowed && decide (product ≤ u256Max)

def shareTargetU64 (shareDifficulty : ℕ) : ℕ := u64Max / max shareDifficulty 1

/-- The last eight bytes of a hash, its most significant ones. -/
def topWord (hash : Hash256) : ℕ := ofLe (hash.toBytes.drop 24)

/-- The rule of a miner. -/
def meetsShareTarget (hash : Hash256) (target : ℕ) : Bool := decide (topWord hash < target)

def difficultyAsU64 (difficulty : ℕ) : ℕ :=
  if u64Max < difficulty then u64Max else difficulty % 2 ^ 64

/-- The share difficulty of a job: the configured one, never above the block difficulty. -/
def jobShareDifficulty (shareDifficulty difficulty : ℕ) : ℕ :=
  max (min shareDifficulty (difficultyAsU64 difficulty)) 1

section

variable {hash : Hash256} {configured difficulty : ℕ}

theorem fromBigEndian_reverse (bytes : List UInt8) : fromBigEndian bytes.reverse = ofLe bytes := by
  induction bytes with
  | nil => rfl
  | cons b bytes ih =>
    rw [fromBigEndian] at ih
    rw [fromBigEndian, List.reverse_cons, List.foldl_append, ih, ofLe]
    exact Nat.add_comm ..

/-- A hash is its top word and 192 bits below. -/
theorem hash_between (hash : Hash256) :
    2 ^ 192 * topWord hash ≤ hashAsLeU512 hash ∧
      hashAsLeU512 hash < 2 ^ 192 * (topWord hash + 1) := by
  have low := ofLe_lt (hash.toBytes.take 24)
  have lowLength : (hash.toBytes.take 24).length = 24 := by simp
  have whole : hashAsLeU512 hash = ofLe (hash.toBytes.take 24) + 2 ^ 192 * topWord hash := by
    rw [hashAsLeU512, fromBigEndian_reverse, ← List.take_append_drop 24 hash.toBytes, ofLe_append,
      lowLength, List.take_append_drop, topWord]
    rfl
  rw [lowLength] at low
  omega

/-- **The block rule**: the product fits 256 bits. -/
theorem meetsDifficulty_iff (positive : 0 < difficulty) :
    meetsDifficulty hash difficulty ↔ hashAsLeU512 hash * difficulty ≤ u256Max := by
  have wide : u256Max < 2 ^ 512 ∧ u512Max < 2 ^ 512 ∧ u256Max ≤ u512Max := by decide +kernel
  obtain ⟨wide, small, order⟩ := wide
  simp only [meetsDifficulty, if_neg positive.ne', Bool.and_eq_true, Bool.not_eq_true',
    decide_eq_false_iff_not, decide_eq_true_eq, Nat.not_lt]
  constructor
  · rintro ⟨fits, product⟩
    rwa [Nat.mod_eq_of_lt (fits.trans_lt small)] at product
  · intro fits
    rw [Nat.mod_eq_of_lt (fits.trans_lt wide)]
    exact ⟨fits.trans order, fits⟩

theorem jobShareDifficulty_pos : 0 < jobShareDifficulty configured difficulty := by
  rw [jobShareDifficulty]
  omega

theorem jobShareDifficulty_le (positive : 0 < difficulty) :
    jobShareDifficulty configured difficulty ≤ difficulty := by
  have clamped : difficultyAsU64 difficulty ≤ difficulty := by
    rw [difficultyAsU64]
    split
    · omega
    · exact Nat.mod_le ..
  rw [jobShareDifficulty]
  omega

theorem shareTargetU64_of_pos {d : ℕ} (positive : 0 < d) : shareTargetU64 d = u64Max / d := by
  rw [shareTargetU64, Nat.max_eq_left positive]

/-- The top word of a block is not above the target of any easier share. -/
theorem topWord_le_target {d : ℕ} (positive : 0 < d) (easier : d ≤ difficulty)
    (meets : meetsDifficulty hash difficulty) : topWord hash ≤ shareTargetU64 d := by
  have fits := (meetsDifficulty_iff (positive.trans_le easier)).1 meets
  have product : 2 ^ 192 * (topWord hash * d) ≤ u256Max :=
    calc 2 ^ 192 * (topWord hash * d) = 2 ^ 192 * topWord hash * d := (Nat.mul_assoc ..).symm
      _ ≤ hashAsLeU512 hash * difficulty := Nat.mul_le_mul (hash_between hash).1 easier
      _ ≤ u256Max := fits
  rw [shareTargetU64_of_pos positive, Nat.le_div_iff_mul_le positive]
  unfold u256Max at product
  unfold u64Max
  omega

/-- At one difficulty a share is a block. -/
theorem meetsDifficulty_of_share (positive : 0 < difficulty)
    (share : meetsShareTarget hash (shareTargetU64 difficulty)) : meetsDifficulty hash difficulty := by
  have below : topWord hash + 1 ≤ shareTargetU64 difficulty := of_decide_eq_true share
  rw [shareTargetU64_of_pos positive, Nat.le_div_iff_mul_le positive] at below
  have product : hashAsLeU512 hash * difficulty ≤ 2 ^ 192 * u64Max :=
    calc hashAsLeU512 hash * difficulty ≤ 2 ^ 192 * (topWord hash + 1) * difficulty :=
          Nat.mul_le_mul_right _ (hash_between hash).2.le
      _ = 2 ^ 192 * ((topWord hash + 1) * difficulty) := Nat.mul_assoc ..
      _ ≤ 2 ^ 192 * u64Max := Nat.mul_le_mul_left _ below
  exact (meetsDifficulty_iff positive).2 (product.trans (by decide +kernel))

end

/-! ## The endpoint -/

structure MiningJob where
  jobId : String
  preHash : Hash256
  height : ℕ
  difficulty : ℕ
  seedHash : Hash256
deriving DecidableEq

/-- The template being mined, and the one before it. -/
structure Jobs where
  current : Option MiningJob
  previous : Option MiningJob

/-- The job a submit names, and whether it is the current template. -/
def Jobs.lookup (jobs : Jobs) (jobId : String) : Option (MiningJob × Bool) :=
  match jobs.current.filter (·.jobId = jobId) with
  | some job => some (job, true)
  | none => (jobs.previous.filter (·.jobId = jobId)).map fun job => (job, false)

structure Session where
  worker : String
  extraNonce : UInt32

structure MinedSeal where
  jobId : String
  worker : String
  sealed : List UInt8

structure Counters where
  accepted : ℕ
  rejected : ℕ
  blockCandidates : ℕ
  superseded : ℕ

abbrev SeenShares := Finset (String × ℕ × UInt32)

/-- How many seals may wait for the mining loop. -/
def sealQueue : ℕ := 16

structure StratumServer where
  shareDifficulty : ℕ
  jobs : Jobs
  sessions : ℕ → Option Session
  seenShares : SeenShares
  counters : Counters
  seals : List MinedSeal

/-- The parameters of a submit that are texts. -/
structure SubmitParams where
  jobId : Option String
  nonce : Option String
  result : Option String

/-- What a submit is answered: an error with its message, or that the share is accepted. -/
inductive Reply where
  | refused (message : String)
  | accepted
deriving DecidableEq

def maxSeenShares : ℕ := 100000

def submitRefillPerSecond : ℕ := 32

def submitRefillWhenEveryShareIsABlock : ℕ := 256

/-- Whether the share is new. A full set is cleared first. -/
def insertSeen (seen : SeenShares) (share : String × ℕ × UInt32) (ceiling : ℕ) :
    Bool × SeenShares :=
  let seen := if ceiling ≤ seen.card then ∅ else seen
  (decide (share ∉ seen), insert share seen)

def decodeNonce (value : String) : Option UInt32 := do
  let bytes ← Rpc.hexBytes value.toList
  if bytes.length = 4 then some (.ofNat (ofLe bytes)) else none

def domainTag : List UInt8 := [113, 110, 101, 114, 111, 47, 49]

/-- What the hash of a share is taken over. -/
def buildBlob (preHash : Hash256) (height : ℕ) (extraNonce nonce : UInt32) : List UInt8 :=
  domainTag ++ preHash.toBytes ++ toLe 4 nonce.toNat ++ toLe 8 height ++ toLe 4 extraNonce.toNat ++
    List.replicate 21 0

def hexEncode (bytes : List UInt8) : List Char :=
  bytes.flatMap fun b => [Rpc.hexChar (b.toNat / 16), Rpc.hexChar (b.toNat % 16)]

/-- The hash a miner states is the one the node computes, in letters of either case. -/
def sameResult (claimed : String) (hash : Hash256) : Bool :=
  claimed.toList.map Char.toLower = (hexEncode hash.toBytes).map Char.toLower

namespace StratumServer

/-- Refuse, and count it. -/
def reject (s : StratumServer) (message : String) : Reply × StratumServer :=
  (.refused message, { s with counters := { s.counters with rejected := s.counters.rejected + 1 } })

/-- Take a share. A block of the current template is passed on to the mining loop if it has room; one
of a template that is gone is counted and no more. -/
def accept (s : StratumServer) (job : MiningJob) (worker : String) (mined : Seal)
    (isBlock isCurrent : Bool) : Reply × StratumServer :=
  let counters := { s.counters with accepted := s.counters.accepted + 1 }
  match isBlock, isCurrent with
  | true, true => (.accepted, { s with
      counters := { counters with blockCandidates := counters.blockCandidates + 1 }
      seals := if s.seals.length < sealQueue then s.seals ++ [⟨job.jobId, worker, mined.encode⟩]
        else s.seals })
  | true, false => (.accepted, { s with
      counters := { counters with
        blockCandidates := counters.blockCandidates + 1
        superseded := counters.superseded + 1 } })
  | false, _ => (.accepted, { s with counters })

/-- What is done once the hash of a share is known. -/
def judge (s : StratumServer) (job : MiningJob) (worker : String) (mined : Seal) (isCurrent : Bool)
    (hash : Hash256) : Reply × StratumServer :=
  let isBlock := meetsDifficulty hash job.difficulty
  let shareTarget := shareTargetU64 (jobShareDifficulty s.shareDifficulty job.difficulty)
  if !isBlock && !meetsShareTarget hash shareTarget then s.reject "Low difficulty share"
  else s.accept job worker mined isBlock isCurrent

/-- What a share is worth decides how fast they may come. -/
def submitRefill (s : StratumServer) (job : MiningJob) : ℕ :=
  if difficultyAsU64 job.difficulty ≤ jobShareDifficulty s.shareDifficulty job.difficulty then
    submitRefillWhenEveryShareIsABlock
  else submitRefillPerSecond

/-- A submit. The connection's budget is asked with a rate, and the hash function may fail. -/
def handleSubmit (s : StratumServer) (take : ℕ → Bool)
    (engine : Hash256 → List UInt8 → Option Hash256) (sessionId : Option ℕ)
    (params : SubmitParams) : Reply × StratumServer :=
  match sessionId with
  | none => s.reject "Unauthenticated"
  | some sessionId =>
  match s.jobs.lookup (params.jobId.getD "") with
  | none => s.reject "Block expired"
  | some (job, isCurrent) =>
  match s.sessions sessionId with
  | none => s.reject "Unauthenticated"
  | some session =>
  match params.nonce.bind decodeNonce with
  | none => s.reject "Malformed nonce"
  | some nonce =>
  if !take (s.submitRefill job) then s.reject "Too many shares" else
  let (fresh, seen) := insertSeen s.seenShares (job.jobId, sessionId, nonce) maxSeenShares
  let s := { s with seenShares := seen }
  if !fresh then s.reject "Duplicate share" else
  match engine job.seedHash (buildBlob job.preHash job.height session.extraNonce nonce) with
  | none => s.reject "Internal error"
  | some hash =>
  if params.result.any fun claimed => !sameResult claimed hash then s.reject "Invalid result" else
  s.judge job session.worker ⟨nonce, session.extraNonce⟩ isCurrent hash

/-- The job a submit is for, and the hash of what it submits. -/
def shareOf (s : StratumServer) (engine : Hash256 → List UInt8 → Option Hash256)
    (sessionId : Option ℕ) (params : SubmitParams) : Option (MiningJob × Hash256) := do
  let id ← sessionId
  let (job, _) ← s.jobs.lookup (params.jobId.getD "")
  let session ← s.sessions id
  let nonce ← params.nonce.bind decodeNonce
  let hash ← engine job.seedHash (buildBlob job.preHash job.height session.extraNonce nonce)
  pure (job, hash)

section

variable (s : StratumServer) (take : ℕ → Bool) (engine : Hash256 → List UInt8 → Option Hash256)
  (sessionId : Option ℕ) (params : SubmitParams) (job : MiningJob) (worker : String) (mined : Seal)
  (isCurrent : Bool) (hash : Hash256)

/-- The refusals that come before the hash is looked at. -/
def earlyRefusals : List String :=
  ["Unauthenticated", "Block expired", "Malformed nonce", "Too many shares", "Duplicate share",
    "Internal error", "Invalid result"]

/-- **What a submit can do**: it is refused early, with nothing changed but the counter and the shares
seen, or its hash is judged. -/
theorem handleSubmit_cases :
    (∃ message ∈ earlyRefusals, ∃ seenShares,
      s.handleSubmit take engine sessionId params = { s with seenShares }.reject message) ∨
    ∃ job hash worker mined isCurrent seenShares, s.shareOf engine sessionId params = some (job, hash) ∧
      s.handleSubmit take engine sessionId params =
        { s with seenShares }.judge job worker mined isCurrent hash := by
  unfold handleSubmit
  split
  · exact .inl ⟨_, by decide, s.seenShares, rfl⟩
  · split
    · exact .inl ⟨_, by decide, s.seenShares, rfl⟩
    · next job isCurrent found =>
      split
      · exact .inl ⟨_, by decide, s.seenShares, rfl⟩
      · next session opened =>
        split
        · exact .inl ⟨_, by decide, s.seenShares, rfl⟩
        · next nonce decoded =>
          dsimp only
          split
          · exact .inl ⟨_, by decide, s.seenShares, rfl⟩
          · split
            · exact .inl ⟨_, by decide, _, rfl⟩
            · split
              · exact .inl ⟨_, by decide, _, rfl⟩
              · next hash hashed =>
                split
                · exact .inl ⟨_, by decide, _, rfl⟩
                · refine .inr ⟨job, hash, _, _, _, _, ?_, rfl⟩
                  simp [shareOf, found, opened, decoded, hashed]

theorem judge_cases :
    (meetsDifficulty hash job.difficulty = false ∧
      s.judge job worker mined isCurrent hash = s.reject "Low difficulty share") ∨
    (meetsDifficulty hash job.difficulty ∨ meetsShareTarget hash
        (shareTargetU64 (jobShareDifficulty s.shareDifficulty job.difficulty))) ∧
      s.judge job worker mined isCurrent hash =
        s.accept job worker mined (meetsDifficulty hash job.difficulty) isCurrent := by
  unfold judge
  dsimp only
  split
  · next low =>
    rw [Bool.and_eq_true, Bool.not_eq_true'] at low
    exact .inl ⟨low.1, rfl⟩
  · next enough =>
    refine .inr ⟨?_, rfl⟩
    rw [Bool.and_eq_true, not_and_or, Bool.not_eq_true', Bool.not_eq_true', Bool.not_eq_false,
      Bool.not_eq_false] at enough
    exact enough

theorem accept_fst (isBlock : Bool) :
    (s.accept job worker mined isBlock isCurrent).1 = .accepted := by
  cases isBlock <;> cases isCurrent <;> rfl

/-- An accepted block is a candidate. -/
theorem accept_blockCandidates :
    (s.accept job worker mined true isCurrent).2.counters.blockCandidates =
      s.counters.blockCandidates + 1 := by
  cases isCurrent <;> rfl

variable {s take engine sessionId params job hash}

/-- What is answered with a low difficulty is no block. -/
theorem not_meetsDifficulty_of_low (found : s.shareOf engine sessionId params = some (job, hash))
    (low : (s.handleSubmit take engine sessionId params).1 = .refused "Low difficulty share") :
    ¬ meetsDifficulty hash job.difficulty := by
  rcases handleSubmit_cases s take engine sessionId params with ⟨message, known, seenShares, early⟩ |
    ⟨job', hash', worker, mined, isCurrent, seenShares, found', judged⟩
  · rw [early] at low
    obtain rfl : message = "Low difficulty share" := Reply.refused.inj low
    exact absurd known (by decide)
  · obtain ⟨rfl, rfl⟩ := Prod.mk.inj (Option.some.inj (found.symm.trans found'))
    rcases judge_cases { s with seenShares } job worker mined isCurrent hash with
      ⟨none, -⟩ | ⟨-, accepted⟩
    · rw [none]
      exact Bool.false_ne_true
    · rw [judged, accepted, accept_fst] at low
      cases low

/-- What is accepted passes a rule, and is a candidate if it passes that of blocks. -/
theorem handleSubmit_accepted (found : s.shareOf engine sessionId params = some (job, hash))
    (accepted : (s.handleSubmit take engine sessionId params).1 = .accepted) :
    (meetsDifficulty hash job.difficulty ∨ meetsShareTarget hash
      (shareTargetU64 (jobShareDifficulty s.shareDifficulty job.difficulty))) ∧
    (meetsDifficulty hash job.difficulty →
      (s.handleSubmit take engine sessionId params).2.counters.blockCandidates =
        s.counters.blockCandidates + 1) := by
  rcases handleSubmit_cases s take engine sessionId params with ⟨message, known, seenShares, early⟩ |
    ⟨job', hash', worker, mined, isCurrent, seenShares, found', judged⟩
  · rw [early] at accepted
    cases accepted
  · obtain ⟨rfl, rfl⟩ := Prod.mk.inj (Option.some.inj (found.symm.trans found'))
    rcases judge_cases { s with seenShares } job worker mined isCurrent hash with
      ⟨-, low⟩ | ⟨passes, taken⟩
    · rw [judged, low] at accepted
      cases accepted
    · refine ⟨passes, fun block => ?_⟩
      rw [judged, taken, block]
      exact accept_blockCandidates ..

end

end StratumServer

/-- **Shares and blocks.** The top word of a block is at most the target of its job, so only one that
equals the target is withheld; and where the two difficulties are the same, what is below the target is
a block. So the endpoint never turns a block away as a share of low difficulty, and on a job whose share
difficulty is the block difficulty all it accepts are blocks. -/
theorem share_rule :
    (∀ hash difficulty configured, 1 ≤ difficulty →
      (meetsDifficulty hash difficulty →
        topWord hash ≤ shareTargetU64 (jobShareDifficulty configured difficulty)) ∧
      (meetsDifficulty hash difficulty →
        ¬ meetsShareTarget hash (shareTargetU64 (jobShareDifficulty configured difficulty)) →
        topWord hash = shareTargetU64 (jobShareDifficulty configured difficulty)) ∧
      (difficulty < 2 ^ 64 → jobShareDifficulty configured difficulty = difficulty →
        topWord hash < shareTargetU64 (jobShareDifficulty configured difficulty) →
        meetsDifficulty hash difficulty)) ∧
    ∀ (s : StratumServer) take engine sessionId params job hash,
      s.shareOf engine sessionId params = some (job, hash) →
      (meetsDifficulty hash job.difficulty →
        (s.handleSubmit take engine sessionId params).1 ≠ .refused "Low difficulty share") ∧
      (jobShareDifficulty s.shareDifficulty job.difficulty = job.difficulty →
        (meetsShareTarget hash
            (shareTargetU64 (jobShareDifficulty s.shareDifficulty job.difficulty)) →
          meetsDifficulty hash job.difficulty) ∧
        ((s.handleSubmit take engine sessionId params).1 = .accepted →
          meetsDifficulty hash job.difficulty ∧
            (s.handleSubmit take engine sessionId params).2.counters.blockCandidates =
              s.counters.blockCandidates + 1)) := by
  constructor
  · intro hash difficulty configured positive
    have most : meetsDifficulty hash difficulty →
        topWord hash ≤ shareTargetU64 (jobShareDifficulty configured difficulty) :=
      topWord_le_target jobShareDifficulty_pos (jobShareDifficulty_le positive)
    refine ⟨most, fun meets withheld => ?_, fun _ same below => ?_⟩
    · have least := Nat.not_lt.1 fun below => withheld (decide_eq_true below)
      exact Nat.le_antisymm (most meets) least
    · rw [same] at below
      exact meetsDifficulty_of_share positive (decide_eq_true below)
  · intro s take engine sessionId params job hash found
    refine ⟨fun meets low => StratumServer.not_meetsDifficulty_of_low found low meets, fun same => ?_⟩
    have positive : 0 < job.difficulty := same ▸ jobShareDifficulty_pos
    have isBlock : meetsShareTarget hash
        (shareTargetU64 (jobShareDifficulty s.shareDifficulty job.difficulty)) →
        meetsDifficulty hash job.difficulty := by
      rw [same]
      exact meetsDifficulty_of_share positive
    refine ⟨isBlock, fun accepted => ?_⟩
    obtain ⟨passes, counted⟩ := StratumServer.handleSubmit_accepted found accepted
    have meets := passes.elim id isBlock
    exact ⟨meets, counted meets⟩

/-- A job of a chain that asks for less than the endpoint is configured for. -/
def soloJob : MiningJob := ⟨"1", 0, 1, 5, 0⟩

/-- An endpoint with one miner, whose shares are blocks. -/
def soloEndpoint : StratumServer where
  shareDifficulty := 1000
  jobs := ⟨some soloJob, none⟩
  sessions id := if id = 0 then some ⟨"rig", 7⟩ else none
  seenShares := ∅
  counters := ⟨0, 0, 0, 0⟩
  seals := []

theorem share_rule_solo :
    (meetsDifficulty 0 5 ∧ topWord 0 ≤ shareTargetU64 (jobShareDifficulty 1000 5)) ∧
    (soloEndpoint.handleSubmit (fun _ => true) (fun _ _ => some 0) (some 0)
      ⟨some "1", some "01000000", none⟩).2.counters.blockCandidates = 1 := by
  have evaluated : meetsDifficulty 0 5 ∧
      soloEndpoint.shareOf (fun _ _ => some 0) (some 0) ⟨some "1", some "01000000", none⟩ =
        some (soloJob, 0) ∧
      (soloEndpoint.handleSubmit (fun _ => true) (fun _ _ => some 0) (some 0)
        ⟨some "1", some "01000000", none⟩).1 = .accepted := by
    decide +kernel
  obtain ⟨meets, found, accepted⟩ := evaluated
  obtain ⟨rules, endpoint⟩ := share_rule
  obtain ⟨-, blocks⟩ := endpoint _ (fun _ => true) _ _ _ _ _ found
  exact ⟨⟨meets, (rules 0 5 1000 (by decide)).1 meets⟩, ((blocks (by decide)).2 accepted).2⟩

end Qnero.Stratum
