import Mathlib.Logic.Function.Iterate
import Qnero.Digest
import Qnero.Dispatch
import Qnero.Machine

/-!
# The seed of a block

The hash of a block is keyed by a seed, the hash of an ancestor that moves up by an epoch at a time and
stays a lag behind. The ancestor is of the block's own branch: a node walks down from the parent until
it stands on its canonical chain, and from there it jumps by number.

What a node takes for canonical is its own matter. It may not show in the seed: `walk_eq` says that
the walk ends at the ancestor in any case.
-/

namespace Qnero.Seed

open Machine

/-! ## Heights -/

def seedHeight (height epochBlocks lag : ℕ) : ℕ :=
  let epoch := max epochBlocks 1
  if height ≤ satAdd u64Max epoch lag then 0
  else
    let anchor := height - lag - 1
    anchor - anchor % epoch

/-- The seed of the next epoch, announced ahead by the lag. -/
def nextSeedHeight (height epochBlocks lag : ℕ) : ℕ :=
  seedHeight (satAdd u64Max height lag) epochBlocks lag

/-! ## The walk -/

/-- The two questions of the walk. -/
structure ChainView where
  canonicalHash : ℕ → Except String (Option Hash256)
  parentOf : Hash256 → Except String (Option Hash256)

/-- Down from a block of a known height, in so many steps. -/
def walk (view : ChainView) (targetHeight : ℕ) :
    ℕ → Hash256 → ℕ → Except String (Option Hash256)
  | 0, _, _ => .ok none
  | steps + 1, cursor, cursorHeight => do
    if cursorHeight = targetHeight then pure (some cursor)
    else if (← view.canonicalHash cursorHeight) = some cursor then
      -- Everything below a canonical block is canonical.
      view.canonicalHash targetHeight
    else if cursorHeight = 0 then pure none
    else
      match ← view.parentOf cursor with
      | some parent => walk view targetHeight steps parent (cursorHeight - 1)
      | none => pure none

def resolveOnBranch (view : ChainView) (parentHash : Hash256) (height targetHeight maxWalk : ℕ) :
    Except String (Option Hash256) :=
  if height = 0 ∨ height ≤ targetHeight then .ok none
  else walk view targetHeight (maxWalk + 1) parentHash (height - 1)

/-! ## Nodes -/

/-- The blocks there are, by hash: the number and the parent a header has, and the two constants of
the runtime in the state behind it. -/
structure Blocks where
  number : Hash256 → ℕ
  parent : Hash256 → Hash256
  epochBlocks : Hash256 → ℕ
  lag : Hash256 → ℕ
  number_le : ∀ block, number block ≤ u32Max
  epochBlocks_le : ∀ block, epochBlocks block ≤ u32Max
  lag_le : ∀ block, lag block ≤ u32Max

/-- What a node knows of them: a tree, and in it one chain that is closed under parents. -/
structure Client (blocks : Blocks) where
  known : Hash256 → Bool
  hasState : Hash256 → Bool
  canonical : ℕ → Option Hash256
  linked : ∀ block, known block = true → known (blocks.parent block) = true →
    blocks.number block ≠ 0 → blocks.number block = blocks.number (blocks.parent block) + 1
  canonical_number : ∀ number block, canonical number = some block → blocks.number block = number
  canonical_closed : ∀ number block, canonical (number + 1) = some block →
    canonical number = some (blocks.parent block)

inductive Error where
  | runtime (message : String)
  | other (message : String)
  | seedUnreachable (height : ℕ)
deriving DecidableEq

variable {blocks : Blocks}

namespace Client

variable (client : Client blocks)

/-- Numbers of the client are of 32 bits. -/
def view : ChainView where
  canonicalHash number := .ok (client.canonical (min number u32Max))
  parentOf block := .ok (if client.known block then some (blocks.parent block) else none)

def getSeedEpochBlocks (block : Hash256) : Except String ℕ :=
  if client.hasState block then .ok (blocks.epochBlocks block) else .error "state discarded"

def getSeedEpochLag (block : Hash256) : Except String ℕ :=
  if client.hasState block then .ok (blocks.lag block) else .error "state discarded"

def hashAtAncestor (parentHash : Hash256) (height targetHeight maxWalk : ℕ) : Except Error Hash256 := do
  let found ← (resolveOnBranch client.view parentHash height targetHeight maxWalk).mapError .other
  okOr found (.seedUnreachable targetHeight)

/-- The seed of a block at this height over this parent, that of the next epoch, and the height of the
first. -/
def seedHashes (parentHash : Hash256) (height : ℕ) : Except Error (Hash256 × Hash256 × ℕ) := do
  let epoch ← (client.getSeedEpochBlocks parentHash).mapError .runtime
  let lag ← (client.getSeedEpochLag parentHash).mapError .runtime
  let seedHeight := Seed.seedHeight height epoch lag
  let nextSeedHeight := Seed.nextSeedHeight height epoch lag
  let seed ← client.hashAtAncestor parentHash height seedHeight (epoch + lag)
  let next ←
    if nextSeedHeight = seedHeight then pure seed
    else client.hashAtAncestor parentHash height nextSeedHeight (epoch + lag)
  pure (seed, next, seedHeight)

end Client

/-! ## Heights are below, ordered, and within reach -/

section

variable {height height' epochBlocks lag : ℕ}

theorem seedHeight_mono (epochBlocks lag : ℕ) : Monotone fun height => seedHeight height epochBlocks lag := by
  intro height height' le
  simp only [seedHeight]
  split_ifs with low low'
  · exact Nat.zero_le _
  · exact Nat.zero_le _
  · omega
  · -- The largest multiple of the epoch at or below the anchor.
    rw [← Nat.mul_div_self_eq_mod_sub_self, ← Nat.mul_div_self_eq_mod_sub_self]
    exact Nat.mul_le_mul_left _ (Nat.div_le_div_right (by omega))

theorem nextSeedHeight_mono (epochBlocks lag : ℕ) :
    Monotone fun height => nextSeedHeight height epochBlocks lag := by
  intro height height' le
  refine seedHeight_mono epochBlocks lag ?_
  simp only [satAdd]
  omega

/-- Genesis in the first epoch, and then the last multiple of the epoch that is a lag behind. -/
theorem seedHeight_cases (fits : epochBlocks + lag < u64Max) (height : ℕ) :
    height ≤ max epochBlocks 1 + lag ∧ seedHeight height epochBlocks lag = 0 ∨
      max epochBlocks 1 + lag < height ∧ seedHeight height epochBlocks lag =
        height - lag - 1 - (height - lag - 1) % max epochBlocks 1 := by
  rw [seedHeight, satAdd_eq (by omega)]
  rcases Nat.lt_or_ge (max epochBlocks 1 + lag) height with high | low
  · exact .inr ⟨high, if_neg (by omega)⟩
  · exact .inl ⟨low, if_pos low⟩

/-- The seed of a child is at or below the parent, not further than an epoch and the lag. -/
theorem seedHeight_reach (fits : epochBlocks + lag < u64Max) (number : ℕ) :
    seedHeight (number + 1) epochBlocks lag ≤ number ∧
      number - seedHeight (number + 1) epochBlocks lag ≤ epochBlocks + lag := by
  have := Nat.mod_lt (number + 1 - lag - 1) (show 0 < max epochBlocks 1 by omega)
  rcases seedHeight_cases fits (number + 1) with ⟨_, _⟩ | ⟨_, _⟩ <;> omega

theorem nextSeedHeight_reach {number : ℕ} (fits : epochBlocks + lag + number < u64Max) :
    nextSeedHeight (number + 1) epochBlocks lag ≤ number ∧
      number - nextSeedHeight (number + 1) epochBlocks lag ≤ epochBlocks + lag := by
  rw [nextSeedHeight, satAdd_eq (by omega)]
  have := Nat.mod_lt (number + 1 + lag - lag - 1) (show 0 < max epochBlocks 1 by omega)
  rcases seedHeight_cases (show epochBlocks + lag < u64Max by omega) (number + 1 + lag)
    with ⟨_, _⟩ | ⟨_, _⟩ <;> omega

end

/-- The seeds of the children of a block are within the bound of the walk. -/
theorem Blocks.seed_reach (blocks : Blocks) (block : Hash256) :
    let number := blocks.number block
    let seed := seedHeight (number + 1) (blocks.epochBlocks block) (blocks.lag block)
    let next := nextSeedHeight (number + 1) (blocks.epochBlocks block) (blocks.lag block)
    (seed ≤ number ∧ number - seed ≤ blocks.epochBlocks block + blocks.lag block) ∧
      next ≤ number ∧ number - next ≤ blocks.epochBlocks block + blocks.lag block := by
  have number := blocks.number_le block
  have epoch := blocks.epochBlocks_le block
  have lag := blocks.lag_le block
  rw [u32Max] at number epoch lag
  have fits : blocks.epochBlocks block + blocks.lag block + blocks.number block < u64Max := by
    rw [u64Max]
    omega
  exact ⟨seedHeight_reach (Nat.lt_of_le_of_lt (Nat.le_add_right ..) fits) _,
    nextSeedHeight_reach fits⟩

/-! ## The walk ends at the ancestor -/

/-- The ancestor of a block at a height. -/
def Blocks.ancestorAt (blocks : Blocks) (block : Hash256) (height : ℕ) : Hash256 :=
  blocks.parent^[blocks.number block - height] block

namespace Client

variable (client : Client blocks)

/-- A block and all its ancestors are in the tree. -/
def KnowsAncestry (block : Hash256) : Prop :=
  ∀ k ≤ blocks.number block, client.known (blocks.parent^[k] block) = true

variable {client} {block : Hash256}

theorem view_canonicalHash {number : ℕ} (le : number ≤ u32Max) :
    client.view.canonicalHash number = .ok (client.canonical number) :=
  congrArg (fun n => Except.ok (client.canonical n)) (Nat.min_eq_left le)

theorem view_parentOf (known : client.known block = true) :
    client.view.parentOf block = .ok (some (blocks.parent block)) :=
  congrArg Except.ok (if_pos known)

theorem number_iterate (ancestry : client.KnowsAncestry block) {k : ℕ} (le : k ≤ blocks.number block) :
    blocks.number (blocks.parent^[k] block) = blocks.number block - k := by
  induction k with
  | zero => rfl
  | succ k ih =>
    have above := ih (by omega)
    have known := ancestry (k + 1) le
    rw [Function.iterate_succ_apply'] at known ⊢
    have := client.linked (blocks.parent^[k] block) (ancestry k (by omega)) known (by omega)
    omega

theorem number_ancestorAt (ancestry : client.KnowsAncestry block) {height : ℕ}
    (le : height ≤ blocks.number block) : blocks.number (blocks.ancestorAt block height) = height := by
  rw [Blocks.ancestorAt, number_iterate ancestry (by omega)]
  omega

/-- Below a canonical block the canonical chain is its ancestry. -/
theorem canonical_below {number : ℕ} (canonical : client.canonical number = some block) {k : ℕ}
    (le : k ≤ number) : client.canonical (number - k) = some (blocks.parent^[k] block) := by
  induction k with
  | zero => exact canonical
  | succ k ih =>
    rw [Function.iterate_succ_apply']
    refine client.canonical_closed _ _ ?_
    rw [show number - (k + 1) + 1 = number - k by omega]
    exact ih (by omega)

/-- **Wherever it meets the canonical chain, the walk ends at the ancestor.** -/
theorem walk_eq (ancestry : client.KnowsAncestry block) {targetHeight steps k : ℕ}
    (below : targetHeight ≤ blocks.number block - k) (inside : k ≤ blocks.number block)
    (enough : blocks.number block - k - targetHeight < steps) :
    walk client.view targetHeight steps (blocks.parent^[k] block) (blocks.number block - k) =
      .ok (some (blocks.ancestorAt block targetHeight)) := by
  have bound := blocks.number_le block
  induction steps generalizing k with
  | zero => omega
  | succ steps ih =>
    rw [walk]
    by_cases here : blocks.number block - k = targetHeight
    · rw [if_pos here, Blocks.ancestorAt, ← here, Nat.sub_sub_self inside]
      rfl
    rw [if_neg here, view_canonicalHash (by omega), view_canonicalHash (by omega),
      view_parentOf (ancestry k inside), ← Function.iterate_succ_apply' blocks.parent]
    show (if client.canonical (blocks.number block - k) = some (blocks.parent^[k] block) then _
      else _) = _
    by_cases met : client.canonical (blocks.number block - k) = some (blocks.parent^[k] block)
    · have jump := canonical_below met
        (show blocks.number block - k - targetHeight ≤ blocks.number block - k by omega)
      rw [Nat.sub_sub_self below, ← Function.iterate_add_apply, show blocks.number block - k -
        targetHeight + k = blocks.number block - targetHeight by omega] at jump
      rw [if_pos met, jump]
      rfl
    · have next := ih (k := k + 1) (by omega) (by omega) (by omega)
      rw [if_neg met, if_neg (by omega)]
      exact next

theorem hashAtAncestor_eq (ancestry : client.KnowsAncestry block) {targetHeight maxWalk : ℕ}
    (below : targetHeight ≤ blocks.number block)
    (enough : blocks.number block - targetHeight ≤ maxWalk) :
    client.hashAtAncestor block (blocks.number block + 1) targetHeight maxWalk =
      .ok (blocks.ancestorAt block targetHeight) := by
  have found := walk_eq ancestry (k := 0) below (Nat.zero_le _)
    (show _ < maxWalk + 1 by omega)
  rw [hashAtAncestor, resolveOnBranch, if_neg (by omega), Nat.add_sub_cancel]
  simp only [Function.iterate_zero, id_eq, Nat.sub_zero] at found
  rw [found]
  rfl

/-- **The seeds of a child of a block are the hashes of the block's own ancestors.** -/
theorem seedHashes_eq (ancestry : client.KnowsAncestry block) (state : client.hasState block = true) :
    client.seedHashes block (blocks.number block + 1) =
      .ok (blocks.ancestorAt block
          (seedHeight (blocks.number block + 1) (blocks.epochBlocks block) (blocks.lag block)),
        blocks.ancestorAt block
          (nextSeedHeight (blocks.number block + 1) (blocks.epochBlocks block) (blocks.lag block)),
        seedHeight (blocks.number block + 1) (blocks.epochBlocks block) (blocks.lag block)) := by
  obtain ⟨⟨below, reach⟩, ⟨below', reach'⟩⟩ := blocks.seed_reach block
  rw [seedHashes, getSeedEpochBlocks, getSeedEpochLag, if_pos state, if_pos state]
  simp only [bind_ok_iff, mapError_ok_iff, Except.ok.injEq, exists_eq_left']
  refine ⟨_, hashAtAncestor_eq ancestry below reach, ?_⟩
  split_ifs with same
  · rw [same]
    rfl
  · exact (bind_ok_iff ..).2 ⟨_, hashAtAncestor_eq ancestry below' reach', rfl⟩

/-- **Every node that knows a block's ancestry finds the same seeds for its children**: the hashes of
the block's own ancestors at the two heights of the rule, whatever the node takes for canonical. The
heights are at or below the block, and do not go down. -/
theorem seed_agreement (ancestry : client.KnowsAncestry block)
    (state : client.hasState block = true) :
    (∃ seed next : ℕ,
      seed = seedHeight (blocks.number block + 1) (blocks.epochBlocks block) (blocks.lag block) ∧
      next = nextSeedHeight (blocks.number block + 1) (blocks.epochBlocks block) (blocks.lag block) ∧
      seed ≤ blocks.number block ∧ next ≤ blocks.number block ∧
      blocks.number (blocks.ancestorAt block seed) = seed ∧
      blocks.number (blocks.ancestorAt block next) = next ∧
      client.seedHashes block (blocks.number block + 1) =
        .ok (blocks.ancestorAt block seed, blocks.ancestorAt block next, seed)) ∧
    (∀ other : Client blocks, other.KnowsAncestry block → other.hasState block = true →
      other.seedHashes block (blocks.number block + 1) =
        client.seedHashes block (blocks.number block + 1)) ∧
    (∀ epochBlocks lag : ℕ, Monotone (fun height => seedHeight height epochBlocks lag) ∧
      Monotone fun height => nextSeedHeight height epochBlocks lag) := by
  obtain ⟨⟨below, -⟩, ⟨below', -⟩⟩ := blocks.seed_reach block
  refine ⟨⟨_, _, rfl, rfl, below, below', number_ancestorAt ancestry below,
    number_ancestorAt ancestry below', seedHashes_eq ancestry state⟩, fun other known held => ?_,
    fun epochBlocks lag => ⟨seedHeight_mono epochBlocks lag, nextSeedHeight_mono epochBlocks lag⟩⟩
  rw [seedHashes_eq ancestry state, seedHashes_eq known held]

end Client

/-! ## A fork -/

namespace Fork

def code (block : Hash256) : ℕ := (block.limbs 0).toNat

def block (n : ℕ) : Hash256 := ⟨fun i => if i = 0 then .ofNat n else 0⟩

theorem code_block {n : ℕ} (h : n < 2 ^ 64) : code (block n) = n :=
  UInt64.toNat_ofNat_of_lt' h

/-- A chain of five blocks, and a sixth one at the height of its tip. -/
def forked : Blocks where
  number h := code h % 10
  parent h := if code h = 14 then block 3 else block (code h - 1)
  epochBlocks _ := 2
  lag _ := 2
  number_le _ := by
    rw [u32Max]
    omega
  epochBlocks_le _ := by decide
  lag_le _ := by decide

def tipNode : Client forked where
  known h := code h ≤ 4 ∨ code h = 14
  hasState _ := true
  canonical n := if n ≤ 4 then some (block n) else none
  linked h known _ nonzero := by
    simp only [decide_eq_true_eq] at known
    simp only [forked] at nonzero ⊢
    split
    · next fork =>
      rw [fork, code_block (by decide)]
    · rw [code_block (by omega)]
      omega
  canonical_number n h canonical := by
    obtain ⟨le, same⟩ := Option.ite_none_right_eq_some.1 canonical
    obtain rfl := Option.some.inj same
    simp only [forked, code_block (show n < 2 ^ 64 by omega)]
    omega
  canonical_closed n h canonical := by
    obtain ⟨le, same⟩ := Option.ite_none_right_eq_some.1 canonical
    obtain rfl := Option.some.inj same
    simp only [forked, code_block (show n + 1 < 2 ^ 64 by omega)]
    rw [if_pos (by omega), if_neg (by omega), Nat.add_sub_cancel]

theorem knowsAncestry_tipNode : tipNode.KnowsAncestry (block 14) := by
  intro k le
  have le : k ≤ 4 := le
  interval_cases k <;> decide +kernel

end Fork

open Fork in
/-- Over a block that is not canonical, with a seed below the fork. -/
theorem Client.seed_agreement_forked :
    tipNode.canonical 4 ≠ some (block 14) ∧
      tipNode.seedHashes (block 14) 5 = .ok (block 2, block 14, 2) := by
  obtain ⟨⟨seed, next, hseed, hnext, -, -, -, -, found⟩, -⟩ :=
    Client.seed_agreement knowsAncestry_tipNode rfl
  obtain rfl : seed = 2 := hseed.trans (by decide +kernel)
  obtain rfl : next = 4 := hnext.trans (by decide +kernel)
  refine ⟨by decide +kernel, found.trans ?_⟩
  decide +kernel

end Qnero.Seed
