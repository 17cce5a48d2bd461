import Qnero.Wallet.Typing
import Qnero.Chain.Blocks

/-!
# Can a block author stall a wallet?

The typing pass refuses a chain rather than skip a leaf, so every refusal has to be one an honest
node never meets. Here it is run on the true headers and leaf records of any chain the runtime can
reach, cut into chunks in any way, with author labels chosen freely. It accepts them exactly if every
block that appends a leaf mints its coinbase, and every block under the wallet's own label pays the
wallet. Neither is enforced by the chain: a label can be copied from a competing block on the same
parent, and a block whose credit is below one step mints nothing.
-/

namespace Qnero

open Plonkish Machine QuadTree

variable {H : Poseidon2} {cfg : Config} {c : Chain}

/-! ## Leaves and values a wallet can read -/

/-- Every leaf is a canonical digest and not the pad, and every coinbase value is a note's. -/
structure Readable (c : Chain) : Prop where
  leaf : ∀ i v, c.tree.leaves i = some v → v.Canonical ∧ v ≠ 0
  value_le : ∀ i steps, c.coinbaseValues i = some steps → steps ≤ maxValue

/-- Leaves that are not there before are appended. -/
theorem Readable.appendAll {c' : Chain} (h : Readable c) (new : List Hash256)
    (tree : c'.tree = c.tree.appendAll new) (proper : ∀ v ∈ new, v.Canonical ∧ v ≠ 0)
    (value_le : ∀ i steps, c'.coinbaseValues i = some steps → steps ≤ maxValue) : Readable c' where
  leaf i v hv := by
    rw [tree] at hv
    clear tree value_le
    have held := h.leaf i v
    generalize c.tree = t at hv held
    induction new generalizing t with
    | nil => exact held hv
    | cons leaf new ih =>
      refine ih (fun v hv => proper v (List.mem_cons_of_mem _ hv)) _ hv ?_
      intro here
      have head : (t.appendLeafHash leaf).1.leaves =
          Function.update t.leaves t.leafCount (some leaf) := rfl
      rw [head, Function.update_apply] at here
      split at here
      · obtain rfl := Option.some.inj here
        exact proper leaf (List.mem_cons_self ..)
      · exact held here
  value_le := value_le

theorem Readable.frame {c' : Chain} (h : Readable c) (tree : c'.tree.leaves = c.tree.leaves)
    (values : c'.coinbaseValues = c.coinbaseValues) : Readable c' :=
  ⟨fun i v hv => h.leaf i v (tree ▸ hv), fun i steps hi => h.value_le i steps (values ▸ hi)⟩

theorem Readable.payCoinbase (h : Readable c) (amount : ℕ) : Readable (c.payCoinbase H amount) := by
  rcases mintCoinbase_cases H c amount with hmint | ⟨inner, commitment, checked, hmint⟩
  · rw [Chain.payCoinbase, hmint]
    dsimp only
    split
    · exact h.frame rfl rfl
    · exact h.frame rfl rfl
  · rw [Chain.payCoinbase, hmint]
    refine h.appendAll [commitment] rfl ?_ ?_
    · intro v hv
      rw [List.mem_singleton.1 hv]
      exact ⟨canonical_chainCommitment checked.commitment_eq, checked.commitment_ne_zero⟩
    · intro i steps hi
      have values : (c.minted amount commitment).coinbaseValues =
          Function.update c.coinbaseValues c.tree.leafCount (some (coinbaseSteps c amount)) := rfl
      rw [values, Function.update_apply] at hi
      split at hi
      · obtain rfl := Option.some.inj hi
        exact checked.steps_le
      · exact h.value_le i steps hi

theorem leaves_processPendingLeaves (H : Poseidon2) (t : ZkTree) :
    (t.processPendingLeaves H).leaves = t.leaves := by
  unfold ZkTree.processPendingLeaves
  dsimp only
  split <;> rfl

theorem Readable.nextBlock (h : Readable c) (env : Environment) :
    Readable (c.nextBlock H cfg env) := by
  have paid : Readable (c.payRewards H cfg) := by
    rw [Chain.payRewards, Chain.payMiner]
    have taken : Readable c.takeFees := h.frame rfl rfl
    split
    · exact (taken.payCoinbase _).frame rfl rfl
    · exact taken.frame rfl rfl
  exact paid.frame (leaves_processPendingLeaves H _) rfl

/-- **Every operation keeps the leaves readable**: the tree refuses what is not. -/
theorem Readable.step (h : Readable c) (op : Op) : Readable (c.step H cfg op) := by
  cases op with
  | collectFee who fee =>
    rcases step_cases H cfg c (.collectFee who fee) with idle | effect
    · rwa [idle]
    · generalize c.step H cfg (.collectFee who fee) = c' at effect
      cases effect with
      | free => exact h
      | fee => exact h.frame rfl rfl
  | coinbase inner ciphertext =>
    rcases step_cases H cfg c (.coinbase inner ciphertext) with idle | effect
    · rwa [idle]
    · generalize c.step H cfg (.coinbase inner ciphertext) = c' at effect
      cases effect with
      | coinbase => exact h.frame rfl rfl
  | endBlock env =>
    rcases step_cases H cfg c (.endBlock env) with idle | effect
    · rwa [idle]
    · generalize c.step H cfg (.endBlock env) = c' at effect
      cases effect with
      | endBlock => exact h.nextBlock env
  | shield who value inner ciphertext =>
    show Readable (Call.transactional (shield H cfg who value inner ciphertext) c).2
    rcases transactional_cases (shield H cfg who value inner ciphertext) c with
      ⟨e, refused⟩ | ⟨u, c', done, shielded⟩
    · rwa [refused]
    · rw [shielded]
      rcases exec_shield_cases H cfg c who value inner ciphertext with
        ⟨e, -, refused⟩ | ⟨e, -, refused⟩ | ⟨commitment, balances, check, -, ends⟩
      · rw [refused] at done
        cases (Prod.mk.inj done).1
      · rw [refused] at done
        cases (Prod.mk.inj done).1
      · rw [ends] at done
        split at done
        · cases (Prod.mk.inj done).1
        · next nonzero =>
          obtain rfl := (Prod.mk.inj done).2
          -- The leaf of a shield is a digest of the chain, and was checked not to be zero.
          refine h.appendAll [commitment] rfl (fun v hv => ?_) h.value_le
          rw [List.mem_singleton.1 hv]
          exact ⟨canonical_chainCommitment (shieldCheck_ok check).commitment_eq, nonzero⟩
  | settle bundle outputs =>
    show Readable (Call.transactional (settle H cfg bundle outputs) c).2
    rcases transactional_cases (settle H cfg bundle outputs) c with
      ⟨e, refused⟩ | ⟨u, c', done, settles⟩
    · rwa [refused]
    · rw [settles]
      obtain ⟨plan, check, rfl⟩ := exec_settle_ok done
      have canonical := canonical_of_settle check done
      have writable := (checkSettlement_ok check).writable
      have values : (c.settled cfg bundle plan).coinbaseValues = c.coinbaseValues :=
        settled_frame Chain.coinbaseValues (fun _ _ => rfl) (fun _ _ _ => rfl) ..
      refine h.appendAll _ (settled_tree ..) (fun v hv => ?_) (values ▸ h.value_le)
      obtain ⟨slot, hslot, hv⟩ := List.mem_flatMap.1 hv
      simp only [List.mem_cons, List.not_mem_nil, or_false] at hv
      rcases hv with rfl | rfl
      · exact ⟨canonical slot hslot 0, writable.commitment_ne_zero slot hslot 0⟩
      · exact ⟨canonical slot hslot 1, writable.commitment_ne_zero slot hslot 1⟩

theorem Readable.run (h : Readable c) (ops : List Op) : Readable (c.run H cfg ops) := by
  induction ops generalizing c with
  | nil => exact h
  | cons op ops ih => exact ih (h.step op)

theorem Leafless.readable (empty : Leafless c) : Readable c where
  leaf i v hv := by
    rw [empty.tree_eq] at hv
    cases hv
  value_le i steps hi := by
    rw [empty.coinbaseValues_eq] at hi
    cases hi

/-! ## Headers name their parents -/

/-- From a hash to a hash over blocks that each name the one before. -/
def Linked (H : Poseidon2) : Hash256 → List ClosedBlock → Hash256 → Prop
  | from', [], last => from' = last
  | from', b :: blocks, last => b.header.parentHash = from' ∧ Linked H (b.header.hash H) blocks last

theorem Linked.snoc {from' last : Hash256} {blocks : List ClosedBlock} (h : Linked H from' blocks last)
    {b : ClosedBlock} (parent : b.header.parentHash = last) :
    Linked H from' (blocks ++ [b]) (b.header.hash H) := by
  induction blocks generalizing from' with
  | nil =>
    obtain rfl : from' = last := h
    exact ⟨parent, rfl⟩
  | cons first blocks ih => exact ⟨h.1, ih h.2⟩

theorem Linked.append_iff {from' last : Hash256} {bs cs : List ClosedBlock} :
    Linked H from' (bs ++ cs) last ↔ ∃ mid, Linked H from' bs mid ∧ Linked H mid cs last := by
  induction bs generalizing from' with
  | nil =>
    constructor
    · exact fun h => ⟨from', rfl, h⟩
    · rintro ⟨mid, rfl, h⟩
      exact h
  | cons b bs ih =>
    constructor
    · rintro ⟨parent, rest⟩
      obtain ⟨mid, left, right⟩ := ih.1 rest
      exact ⟨mid, ⟨parent, left⟩, right⟩
    · rintro ⟨mid, ⟨parent, left⟩, right⟩
      exact ⟨parent, ih.2 ⟨mid, left, right⟩⟩

/-- The block below the open one. -/
def Chain.parentHash (c : Chain) : Hash256 := c.blockHash (c.blockNumber - 1)

theorem Effect.parentHash_eq {c' : Chain} {op : Op} (effect : Effect H cfg c op c')
    (inside : ∀ env, op ≠ .endBlock env) :
    c'.parentHash = c.parentHash ∧ c'.blockNumber = c.blockNumber := by
  cases effect with
  | free | fee | shield | coinbase => exact ⟨rfl, rfl⟩
  | @settle bundle outputs plan check =>
    exact ⟨settled_frame Chain.parentHash (fun _ _ => rfl) (fun _ _ _ => rfl) ..,
      settled_frame Chain.blockNumber (fun _ _ => rfl) (fun _ _ _ => rfl) ..⟩
  | endBlock env => exact absurd rfl (inside env)

/-- The closed blocks lead from the hash the run started on to the parent of the open block. -/
structure Chained (H : Poseidon2) (genesisHash : Hash256) (h : History) : Prop where
  number_pos : 0 < h.chain.blockNumber
  linked : Linked H genesisHash h.blocks h.chain.parentHash

variable {h : History} {genesisHash : Hash256}

theorem Chained.step (k : Chained H genesisHash h) (op : Op) :
    Chained H genesisHash (h.step H cfg op) := by
  by_cases ends : ∃ env, op = .endBlock env
  · obtain ⟨env, rfl⟩ := ends
    show Chained H genesisHash (if _ then _ else _)
    split
    · have number : (h.chain.finalize H cfg).blockNumber = h.chain.blockNumber :=
        payRewards_frame Chain.blockNumber (fun _ _ _ => rfl) (fun _ _ _ => rfl) H cfg h.chain
      have parent : (h.chain.finalize H cfg).parentHash = h.chain.parentHash :=
        payRewards_frame Chain.parentHash (fun _ _ _ => rfl) (fun _ _ _ => rfl) H cfg h.chain
      refine ⟨Nat.succ_pos _, ?_⟩
      -- The hash of the block that closes is where the next one looks for its parent.
      have next : (h.close H cfg env).chain.parentHash = (h.closing H cfg env).header.hash H :=
        Function.update_self ..
      rw [next]
      exact k.linked.snoc parent
    · exact k
  · have inside : ∀ env, op ≠ .endBlock env := fun env eq => ends ⟨env, eq⟩
    rw [h.step_inside H cfg inside]
    rcases step_cases H cfg h.chain op with idle | effect
    · rwa [idle]
    · obtain ⟨parent, number⟩ := effect.parentHash_eq inside
      exact ⟨number ▸ k.number_pos, parent ▸ k.linked⟩

theorem Chained.run (k : Chained H genesisHash h) (ops : List Op) :
    Chained H genesisHash (h.run H cfg ops) := by
  induction ops generalizing h with
  | nil => exact k
  | cons op ops ih => exact ih (k.step op)

/-! ## The true headers and records -/

/-- A leaf as the state holds it. -/
def Chain.leafRecord (c : Chain) (i : ℕ) : LeafRecord :=
  ⟨i, c.tree.leaves i, c.leafBlocks i, c.coinbaseValues i⟩

namespace ClosedBlock

def indices (b : ClosedBlock) : List ℕ := List.range' b.start (b.stop - b.start)

/-- The records of the block's leaves. -/
def records (c : Chain) (b : ClosedBlock) : List LeafRecord := b.indices.map c.leafRecord

/-- The block as a header walk returns it, under the label its digest carries. -/
def verified (H : Poseidon2) (label : ClosedBlock → Option Hash256) (b : ClosedBlock) :
    VerifiedBlock where
  number := b.header.number
  hash := b.header.hash H
  parentHash := b.header.parentHash
  extrinsicsRoot := b.header.extrinsicsRoot
  zkTreeRoot := bytesToDigestLossy b.header.zkTreeRoot
  authorLabel := label b

/-- **What the pass asks of a block**: if it appends a leaf, it mints its coinbase, and under the
wallet's own label the payload is the wallet's. -/
def Typable (H : Poseidon2) (miner : MinerView) (label : ClosedBlock → Option Hash256) (c : Chain)
    (b : ClosedBlock) : Prop :=
  b.start < b.stop → ∃ payload, b.payload = some payload ∧
    (c.coinbaseValues (b.stop - 1)).isSome ∧
    (label b = some (miner.label H b.header.parentHash) →
      payload.inner = digestBytes (miner.coinbaseInner H b.header.number))

end ClosedBlock

/-- The block a walk from the start of the run stands on. -/
def Chain.anchorBlock (c : Chain) : VerifiedBlock :=
  ⟨c.blockNumber - 1, c.parentHash, 0, 0, 0, none⟩

/-- Chunk after chunk, each on the top of the one before. -/
def typeChunks (H : Poseidon2) (miner : MinerView) (frontier : TreeFrontier)
    (anchor : VerifiedBlock) :
    List (List VerifiedBlock × List LeafRecord) → Except TypingError TreeFrontier
  | [] => .ok frontier
  | (blocks, scanned) :: rest => do
    let (frontier, _) ← typeChunk H miner frontier (anchor :: blocks) scanned
    typeChunks H miner frontier (blocks.getLastD anchor) rest

/-- A chunk as an honest node serves it. -/
def trueChunk (H : Poseidon2) (label : ClosedBlock → Option Hash256) (c : Chain)
    (blocks : List ClosedBlock) : List VerifiedBlock × List LeafRecord :=
  (blocks.map (ClosedBlock.verified H label), blocks.flatMap (ClosedBlock.records c))

/-! ## One block -/

/-- A leaf as the pass folds it. -/
def leafDigest (leaves : List Hash256) (i : ℕ) : Digest := bytesToDigestLossy (leaves.getD i 0)

variable {first : ℕ} {leaves : List Hash256} {miner : MinerView}
  {label : ClosedBlock → Option Hash256} {b : ClosedBlock}

theorem Structured.parseLeaf_eq (s : Structured H first h leaves) (r : Readable h.chain) {i : ℕ}
    (hi : i < leaves.length) : parseLeaf (h.chain.leafRecord i) = .ok (leafDigest leaves i) := by
  obtain ⟨_, folded⟩ := s.folded
  have held : h.chain.tree.leaves i = some leaves[i] := by
    rw [folded.leaf_eq, List.getElem?_eq_getElem hi]
  obtain ⟨canonical, nonzero⟩ := r.leaf i _ held
  have bytes : digestBytes (leafDigest leaves i) = leaves[i] := by
    rw [leafDigest, List.getD_eq_getElem _ _ hi, canonical.digestBytes_lossy]
  refine parseLeaf_ok_iff.2 ⟨held.trans (congrArg some bytes.symm), fun zero => nonzero ?_⟩
  rw [← bytes, zero, digestBytes_zero]

/-- Blocks cut the folded digests where they cut the leaves. -/
theorem ClosedBlock.digests_stop (le : b.start ≤ b.stop) :
    (List.range b.stop).map (leafDigest leaves) =
      (List.range b.start).map (leafDigest leaves) ++ b.indices.map (leafDigest leaves) := by
  have cut : List.range b.stop = List.range b.start ++ b.indices := by
    have joined : List.range' 0 b.start ++ List.range' (0 + b.start) (b.stop - b.start) =
        List.range' 0 (b.start + (b.stop - b.start)) := List.range'_append_1
    rw [Nat.zero_add, Nat.add_sub_cancel' le] at joined
    rw [indices, List.range_eq_range', List.range_eq_range', joined]
  rw [cut, List.map_append]

theorem Structured.digestBytes_range (s : Structured H first h leaves) (r : Readable h.chain) {n : ℕ}
    (hn : n ≤ leaves.length) :
    ((List.range n).map (leafDigest leaves)).map digestBytes = leaves.take n := by
  obtain ⟨_, folded⟩ := s.folded
  refine List.ext_getElem (by simpa using hn) fun i hi hi' => ?_
  have lt : i < leaves.length := by
    simp only [List.length_take] at hi'
    omega
  have held : h.chain.tree.leaves i = some leaves[i] := by
    rw [folded.leaf_eq, List.getElem?_eq_getElem lt]
  simp only [List.getElem_map, List.getElem_range, List.getElem_take]
  rw [leafDigest, List.getD_eq_getElem _ _ lt, (r.leaf i _ held).1.digestBytes_lossy]

/-- The fold up to the end of a block reaches its header's root. -/
theorem Structured.root_eq (s : Structured H first h leaves) (r : Readable h.chain)
    (hb : b ∈ h.blocks) {f : TreeFrontier}
    (holds : f.Holds H ((List.range b.stop).map (leafDigest leaves))) :
    f.root H = .ok (b.verified H label).zkTreeRoot := by
  obtain ⟨depth, least, root⟩ := s.roots b hb
  have stop := s.stop_le hb
  have fits : depth ≤ circuitMaxTreeDepth :=
    least.2 (show b.stop ≤ capacity circuitMaxTreeDepth from le_trans stop s.room)
  rw [holds.root_eq (by simpa using least) fits, ClosedBlock.verified, root,
    ← s.digestBytes_range r stop, ← digestBytes_subtree, bytesToDigestLossy_digestBytes]

/-- What the pass asks of consecutive records: a value on the last one alone. -/
theorem runAccepted_range {number : ℕ} {labelSaysOurs : Bool} {record : ℕ → LeafRecord}
    {digest : ℕ → Digest} {start n : ℕ} :
    RunAccepted H miner number labelSaysOurs
        ((List.range' start (n + 1)).map fun i => (record i, digest i)) ↔
      (∀ i, start ≤ i → i < start + n → (record i).coinbaseValue = none) ∧
        ∃ value, (record (start + n)).coinbaseValue = some value ∧
          (labelSaysOurs = true →
            miner.coinbaseCommitment H number value = some (digest (start + n))) := by
  induction n generalizing start with
  | zero =>
    refine (and_iff_right fun i le lt => ?_).symm
    omega
  | succ n ih =>
    have shift : start + 1 + n = start + (n + 1) := by omega
    rw [List.range'_succ, List.range'_succ]
    simp only [List.map_cons, RunAccepted]
    rw [← List.map_cons (f := fun i => (record i, digest i)), ← List.range'_succ, ih, shift,
      ← and_assoc]
    refine and_congr_left fun _ => ⟨?_, fun below => ⟨below start le_rfl (by omega), ?_⟩⟩
    · rintro ⟨head, below⟩ i le lt
      rcases Nat.eq_or_lt_of_le le with rfl | lt'
      · exact head
      · exact below i lt' lt
    · exact fun i le lt => below i (by omega) lt

/-- The lists the coinbase notes of a run hash to, at the values recorded. -/
def CoinbaseLists (H : Poseidon2) (miner : MinerView) (h : History) (Q : Set (List Felt)) : Prop :=
  ∀ b ∈ h.blocks, ∀ payload value, b.payload = some payload →
    h.chain.coinbaseValues (b.stop - 1) = some value →
    cmInput (bytesToDigestLossy payload.inner) (value : Felt) ∈ Q ∧
      cmInput (miner.coinbaseInner H b.header.number) (value : Felt) ∈ Q

theorem MinerView.coinbaseCommitment_eq {number value : ℕ} (le : value ≤ maxValue) :
    miner.coinbaseCommitment H number value =
      some (commitmentFromInner H (miner.coinbaseInner H number) (value : Felt)) := by
  rw [coinbaseCommitment, MinerKey.coinbaseNote, Note.new, if_pos le]
  rfl

variable {Q : Set (List Felt)}

/-- The coinbase of a block is the wallet's exactly if its payload is. -/
theorem Readable.ours_iff (r : Readable h.chain)
    (free : CollisionFree H.hashToFelts Q) (lists : CoinbaseLists H miner h Q) (hb : b ∈ h.blocks)
    {value : ℕ} {payload : CoinbasePayload} (pending : b.payload = some payload)
    (coinbase : b.Coinbase H leaves (b.stop - 1) value)
    (held : h.chain.coinbaseValues (b.stop - 1) = some value) :
    miner.coinbaseCommitment H b.header.number value = some (leafDigest leaves (b.stop - 1)) ↔
      payload.inner = digestBytes (miner.coinbaseInner H b.header.number) := by
  obtain ⟨-, -, payload', commitment, pending', commits, leaf⟩ := coinbase
  obtain rfl : payload = payload' := Option.some.inj (pending.symm.trans pending')
  obtain ⟨d, parsed, rfl⟩ := Option.map_eq_some_iff.1 commits
  have inner : payload.inner = digestBytes d := bytesToDigest_eq_some.1 parsed
  obtain ⟨theirs, own⟩ := lists b hb payload value pending held
  rw [inner, bytesToDigestLossy_digestBytes] at theirs
  have digest : leafDigest leaves (b.stop - 1) = commitmentFromInner H d (value : Felt) := by
    rw [leafDigest, List.getD_eq_getElem?_getD, leaf]
    exact bytesToDigestLossy_digestBytes _
  rw [MinerView.coinbaseCommitment_eq (r.value_le _ _ held), digest, inner, Option.some.injEq,
    digestBytes_injective.eq_iff]
  constructor
  · intro same
    exact (cmInput_inj.1 (free.inj own theirs same)).1.symm
  · rintro rfl
    rfl

/-- **The records of a block are accepted exactly if it is typable.** -/
theorem Structured.runAccepted_iff (s : Structured H first h leaves) (r : Readable h.chain)
    (free : CollisionFree H.hashToFelts Q) (lists : CoinbaseLists H miner h Q)
    (hb : b ∈ h.blocks) :
    RunAccepted H miner b.header.number
        (label b = some (miner.label H b.header.parentHash))
        (b.indices.map fun i => (h.chain.leafRecord i, leafDigest leaves i)) ↔
      b.Typable H miner label h.chain := by
  obtain ⟨-, le, -⟩ := s.ranges.bounds.2 b hb
  rcases Nat.eq_or_lt_of_le le with empty | lt
  · have none : b.indices = [] := by rw [ClosedBlock.indices, empty, Nat.sub_self]; rfl
    rw [none]
    exact ⟨fun _ some => absurd some (by omega), fun _ => trivial⟩
  obtain ⟨n, stop⟩ : ∃ n, b.stop = b.start + n + 1 := ⟨b.stop - b.start - 1, by omega⟩
  have indices : b.indices = List.range' b.start (n + 1) := by
    rw [ClosedBlock.indices, stop, Nat.add_assoc, Nat.add_sub_cancel_left]
  have last : b.start + n = b.stop - 1 := by omega
  have coinbase : ∀ i value, b.Has i → h.chain.coinbaseValues i = some value →
      b.Coinbase H leaves i value := fun i value has held => s.coinbase_of_has hb has held
  rw [indices, runAccepted_range, last]
  constructor
  · rintro ⟨-, value, held, own⟩ -
    have minted := coinbase (b.stop - 1) value ⟨by omega, by omega⟩ held
    obtain ⟨-, -, payload, -, pending, -⟩ := id minted
    refine ⟨payload, pending, Option.isSome_iff_exists.2 ⟨value, held⟩, fun ours => ?_⟩
    exact (r.ours_iff free lists hb pending minted held).1 (own (decide_eq_true ours))
  · intro typable
    obtain ⟨payload, pending, some, own⟩ := typable lt
    obtain ⟨value, held⟩ := Option.isSome_iff_exists.1 some
    have minted := coinbase (b.stop - 1) value ⟨by omega, by omega⟩ held
    refine ⟨fun i le' lt' => ?_, value, held, fun ours => ?_⟩
    · refine Option.eq_none_iff_forall_ne_some.2 fun value' held' => ?_
      have stops := (coinbase i value' ⟨le', by omega⟩ held').2.1
      omega
    · exact (r.ours_iff free lists hb pending minted held).2 (own (of_decide_eq_true ours))

/-! ## Chains of blocks -/

variable (miner label) in
/-- One block of the true records: the fold goes on to its root, and what is left to accept is its
run. -/
theorem Structured.typeBlock_eq (s : Structured H first h leaves) (r : Readable h.chain)
    (hb : b ∈ h.blocks) {parent : VerifiedBlock} (linked : b.header.parentHash = parent.hash)
    {f : TreeFrontier} (holds : f.Holds H ((List.range b.start).map (leafDigest leaves)))
    {rest : List LeafRecord} (later : ∀ record ∈ rest, record.blockNumber ≠ some b.header.number) :
    ∃ f' : TreeFrontier, f'.Holds H ((List.range b.stop).map (leafDigest leaves)) ∧
      typeBlock H miner f parent (b.verified H label) (b.records h.chain ++ rest) =
        (typeRun H miner b.header.number (label b = some (miner.label H b.header.parentHash))
          (b.indices.map fun i => (h.chain.leafRecord i, leafDigest leaves i))).map
          fun typed => (f', rest, typed) := by
  obtain ⟨-, le, -⟩ := s.ranges.bounds.2 b hb
  have stop := s.stop_le hb
  have inside : ∀ i ∈ b.indices, b.Has i := by
    intro i hi
    have := List.mem_range'_1.1 hi
    exact ⟨by omega, by omega⟩
  have after := holds.pushAll (b.indices.map (leafDigest leaves)) (by
    rw [← ClosedBlock.digests_stop le, List.length_map, List.length_range]
    exact le_trans stop (le_trans s.room (by decide)))
  rw [← ClosedBlock.digests_stop le] at after
  have dated : ∀ record ∈ b.records h.chain, record.blockNumber = some b.header.number := by
    intro record hrecord
    obtain ⟨i, hi, rfl⟩ := List.mem_map.1 hrecord
    exact s.closed_dated b hb i (inside i hi)
  have held : List.Forall₂ (fun record leaf => parseLeaf record = .ok leaf)
      (b.records h.chain) (b.indices.map (leafDigest leaves)) := by
    rw [ClosedBlock.records, List.forall₂_map_left_iff, List.forall₂_map_right_iff]
    refine List.forall₂_same.2 fun i hi => s.parseLeaf_eq r ?_
    exact lt_of_lt_of_le (inside i hi).2 stop
  refine ⟨_, after, (Qnero.typeBlock_eq linked dated later held (s.root_eq r hb after)).trans ?_⟩
  rw [ClosedBlock.records, List.zip_map', linked]
  rfl

/-- The records of later blocks carry other dates. -/
theorem Structured.later_dated (s : Structured H first h leaves) {bs : List ClosedBlock}
    (inside : ∀ b' ∈ b :: bs, b' ∈ h.blocks)
    (distinct : ((b :: bs).map fun b => b.header.number).Nodup) :
    ∀ record ∈ bs.flatMap (ClosedBlock.records h.chain),
      record.blockNumber ≠ some b.header.number := by
  intro record hrecord same
  obtain ⟨b', hb', hrecord⟩ := List.mem_flatMap.1 hrecord
  obtain ⟨i, hi, rfl⟩ := List.mem_map.1 hrecord
  have range := List.mem_range'_1.1 hi
  have dated := s.closed_dated b' (inside b' (List.mem_cons_of_mem _ hb')) i
    ⟨by omega, by omega⟩
  have number := Option.some.inj (dated.symm.trans same)
  refine (List.nodup_cons.1 distinct).1 (List.mem_map.2 ⟨b', hb', number⟩)

/-- A span of the history above a verified block, and the fold below it. -/
structure Span (H : Poseidon2) (h : History) (leaves : List Hash256) (f : TreeFrontier)
    (parent : VerifiedBlock) (bs : List ClosedBlock) (s e : ℕ) (last : Hash256) : Prop where
  inside : ∀ b ∈ bs, b ∈ h.blocks
  distinct : (bs.map fun b => b.header.number).Nodup
  ranges : Consecutive s bs e
  linked : Linked H parent.hash bs last
  holds : f.Holds H ((List.range s).map (leafDigest leaves))

section

variable {f : TreeFrontier} {parent : VerifiedBlock} {bs cs : List ClosedBlock} {start stop : ℕ}
  {last : Hash256}

/-- Past the first block. -/
theorem Span.tail (span : Span H h leaves f parent (b :: bs) start stop last)
    {f' : TreeFrontier} (holds : f'.Holds H ((List.range b.stop).map (leafDigest leaves))) :
    Span H h leaves f' (b.verified H label) bs b.stop stop last where
  inside b' hb' := span.inside b' (List.mem_cons_of_mem _ hb')
  distinct := (List.nodup_cons.1 span.distinct).2
  ranges := span.ranges.2.2
  linked := span.linked.2
  holds := holds

/-- A span of typable blocks is typed, and the fold is carried to its end. -/
theorem Span.typeBlocks_ok (s : Structured H first h leaves) (r : Readable h.chain)
    (free : CollisionFree H.hashToFelts Q) (lists : CoinbaseLists H miner h Q)
    (span : Span H h leaves f parent bs start stop last)
    (reach : f.root H = .ok parent.zkTreeRoot)
    (typable : ∀ b ∈ bs, b.Typable H miner label h.chain) :
    ∃ f' typed, typeBlocks H miner f parent (bs.map (ClosedBlock.verified H label))
        (bs.flatMap (ClosedBlock.records h.chain)) = .ok (f', [], typed) ∧
      f'.Holds H ((List.range stop).map (leafDigest leaves)) ∧
      f'.root H = .ok ((bs.map (ClosedBlock.verified H label)).getLastD parent).zkTreeRoot ∧
      ((bs.map (ClosedBlock.verified H label)).getLastD parent).hash = last := by
  induction bs generalizing f parent start with
  | nil =>
    obtain rfl : start = stop := span.ranges
    exact ⟨f, [], rfl, span.holds, reach, span.linked⟩
  | cons b bs ih =>
    have hb := span.inside b (List.mem_cons_self ..)
    obtain ⟨rfl, -, -⟩ := span.ranges
    obtain ⟨f', holds, block⟩ := s.typeBlock_eq miner label r hb
      span.linked.1 span.holds (s.later_dated span.inside span.distinct)
    obtain ⟨typed, run⟩ := typeRun_ok.1 ((s.runAccepted_iff r free lists hb).2
      (typable b (List.mem_cons_self ..)))
    obtain ⟨f'', more, rest, done⟩ := ih (span.tail holds) (s.root_eq r hb holds)
      fun b hb => typable b (List.mem_cons_of_mem _ hb)
    rw [run] at block
    refine ⟨f'', typed ++ more, ?_, ?_⟩
    · rw [List.map_cons, List.flatMap_cons, typeBlocks, block]
      show (typeBlocks H miner f' _ _ _ >>= _) = _
      rw [rest]
      rfl
    · rwa [List.map_cons, List.getLastD_cons]

/-- A span that is typed has typable blocks only. -/
theorem Span.typable (s : Structured H first h leaves) (r : Readable h.chain)
    (free : CollisionFree H.hashToFelts Q) (lists : CoinbaseLists H miner h Q)
    (span : Span H h leaves f parent bs start stop last)
    {out : TreeFrontier × List LeafRecord × List TypedLeaf}
    (typed : typeBlocks H miner f parent (bs.map (ClosedBlock.verified H label))
      (bs.flatMap (ClosedBlock.records h.chain)) = .ok out) :
    ∀ b ∈ bs, b.Typable H miner label h.chain := by
  induction bs generalizing f parent start out with
  | nil => simp
  | cons b bs ih =>
    have hb := span.inside b (List.mem_cons_self ..)
    obtain ⟨rfl, -, -⟩ := span.ranges
    obtain ⟨f', holds, block⟩ := s.typeBlock_eq miner label r hb
      span.linked.1 span.holds (s.later_dated span.inside span.distinct)
    rw [List.map_cons, List.flatMap_cons, typeBlocks, block] at typed
    obtain ⟨_, run, typed⟩ := (bind_ok_iff ..).1 typed
    obtain ⟨run', accepted, rfl⟩ := map_ok_iff.1 run
    obtain ⟨_, rest, -⟩ := (bind_ok_iff ..).1 typed
    intro b' hb'
    rcases List.mem_cons.1 hb' with rfl | hb'
    · exact (s.runAccepted_iff r free lists hb).1 (typeRun_ok.2 ⟨run', accepted⟩)
    · exact ih (span.tail holds) rest b' hb'

/-- A cut through a span. -/
theorem Span.cut (span : Span H h leaves f parent (bs ++ cs) start stop last) :
    ∃ m mid, Span H h leaves f parent bs start m mid ∧
      ∀ f' (parent' : VerifiedBlock), f'.Holds H ((List.range m).map (leafDigest leaves)) →
        parent'.hash = mid → Span H h leaves f' parent' cs m stop last := by
  obtain ⟨m, low, high⟩ := Consecutive.append_iff.1 span.ranges
  obtain ⟨mid, left, right⟩ := Linked.append_iff.1 span.linked
  have distinct := span.distinct
  rw [List.map_append, List.nodup_append] at distinct
  refine ⟨m, mid, ⟨fun b hb => span.inside b (List.mem_append_left _ hb), distinct.1, low, left,
    span.holds⟩, ?_⟩
  rintro f' parent' holds rfl
  exact ⟨fun b hb => span.inside b (List.mem_append_right _ hb), distinct.2.1, high, right, holds⟩

/-- Typable blocks are typed however they are cut. -/
theorem Span.typeChunks_ok (s : Structured H first h leaves) (r : Readable h.chain)
    (free : CollisionFree H.hashToFelts Q) (lists : CoinbaseLists H miner h Q)
    {chunks : List (List ClosedBlock)}
    (span : Span H h leaves f parent chunks.flatten start stop last)
    (reach : f.root H = .ok parent.zkTreeRoot)
    (typable : ∀ b ∈ chunks.flatten, b.Typable H miner label h.chain) :
    ∃ f', typeChunks H miner f parent (chunks.map (trueChunk H label h.chain)) = .ok f' := by
  induction chunks generalizing f parent start with
  | nil => exact ⟨f, rfl⟩
  | cons bs chunks ih =>
    rw [List.flatten_cons] at span typable
    obtain ⟨m, mid, here, above⟩ := span.cut
    obtain ⟨f', typed, done, holds, root, hash⟩ := here.typeBlocks_ok s r free lists reach
      fun b hb => typable b (List.mem_append_left _ hb)
    obtain ⟨f'', rest⟩ := ih (above f' _ holds hash) root
      fun b hb => typable b (List.mem_append_right _ hb)
    refine ⟨f'', ?_⟩
    have chunk : typeChunk H miner f (parent :: bs.map (ClosedBlock.verified H label))
        (bs.flatMap (ClosedBlock.records h.chain)) = .ok (f', typed) := by
      rw [typeChunk, bind_of_ok reach, bind_of_ok (ensure_of rfl), bind_of_ok done]
      rfl
    rw [List.map_cons, trueChunk, typeChunks, bind_of_ok chunk]
    exact rest

end

/-- **When no block author can stall a wallet.** Take any chain the runtime can reach from a leafless
genesis, whatever its operations, with author labels chosen freely, and any wallet. The typing pass
accepts the true headers and leaf records of that chain, cut into chunks in any way, exactly if every
block that appends a leaf mints its coinbase and every such block under the wallet's own label for
its parent carries the wallet's own coinbase note. -/
theorem typeChunks_accepts_iff (H : Poseidon2) (cfg : Config) (empty : Leafless c)
    (pos : 0 < c.blockNumber) (ops : List Op) (miner : MinerView)
    (label : ClosedBlock → Option Hash256) (free : CollisionFree H.hashToFelts Q)
    (lists : CoinbaseLists H miner ((History.start c).run H cfg ops) Q) :
    let h := (History.start c).run H cfg ops
    (∀ chunks : List (List ClosedBlock), chunks.flatten = h.blocks →
        ∃ f, typeChunks H miner .new c.anchorBlock (chunks.map (trueChunk H label h.chain)) = .ok f) ↔
      ∀ b ∈ h.blocks, b.Typable H miner label h.chain := by
  obtain ⟨leaves, s⟩ := (empty.structured (H := H)).run cfg ops
  rw [List.nil_append] at s
  have r : Readable ((History.start c).run H cfg ops).chain := by
    rw [History.chain_run]
    exact empty.readable.run ops
  have started : Chained H c.parentHash (History.start c) := ⟨pos, rfl⟩
  intro h
  have span : Span H h leaves .new c.anchorBlock h.blocks 0 h.opened h.chain.parentHash := {
    inside := fun b hb => hb
    distinct := by
      rw [s.numbers]
      exact List.nodup_range'
    ranges := s.ranges
    linked := (started.run ops).linked
    holds := TreeFrontier.holds_new }
  constructor
  · intro accepts
    obtain ⟨f, ok⟩ := accepts [h.blocks] (List.append_nil _)
    rw [List.map_cons, trueChunk, typeChunks] at ok
    obtain ⟨_, chunk, -⟩ := (bind_ok_iff ..).1 ok
    rw [typeChunk] at chunk
    obtain ⟨_, -, chunk⟩ := (bind_ok_iff ..).1 chunk
    obtain ⟨_, -, chunk⟩ := (bind_ok_iff ..).1 chunk
    obtain ⟨_, typed, -⟩ := (bind_ok_iff ..).1 chunk
    exact span.typable s r free lists typed
  · intro typable chunks cut
    rw [← cut] at span typable
    exact span.typeChunks_ok s r free lists rfl typable

namespace Sample

/-- The small sponge with bytes hashed as field elements. -/
def labelSponge : Poseidon2 :=
  { sampleSponge with
    hashBytes := fun bytes => sampleSponge.hashToFelts (bytes.map fun b => (b.toNat : Felt)) }

/-- A wallet that mines. -/
def ownMiner : MinerView := ⟨⟨1, 2⟩, (genesis 0).parentHash⟩

/-- A block of an author on another, from the genesis block. -/
def authored (inners : List Hash256) : History :=
  (History.start (genesis 0)).run labelSponge runtime
    (inners.flatMap fun inner => [.coinbase inner [], .endBlock env])

/-- The label the wallet's node puts into the first one, public from then on. -/
def ownLabel : ClosedBlock → Option Hash256 :=
  fun _ => some (ownMiner.label labelSponge (genesis 0).parentHash)

def ownInner : Hash256 := digestBytes (ownMiner.coinbaseInner labelSponge 1)

/-- What typing makes of a chain of those blocks. -/
def typedOn (inners : List Hash256) : Except TypingError TreeFrontier :=
  typeChunks labelSponge ownMiner .new (genesis 0).anchorBlock
    [trueChunk labelSponge ownLabel (authored inners).chain (authored inners).blocks]

/-- The commitment lists of the authors and of the wallet, at the values the runtime mints. -/
def coinbaseLists (inners : List Hash256) : List (List Felt) :=
  (authored inners).blocks.flatMap fun b =>
    let value : ℕ := ((authored inners).chain.coinbaseValues (b.stop - 1)).getD 0
    cmInput (ownMiner.coinbaseInner labelSponge b.header.number) (value : Felt) ::
      b.payload.toList.map fun payload => cmInput (bytesToDigestLossy payload.inner) (value : Felt)

/-- The wallet's own block, and a stranger's on it under the label copied from it. -/
def copied : List Hash256 := [ownInner, inner]

theorem collisionFree_copied : CollisionFree labelSponge.hashToFelts {x | x ∈ coinbaseLists copied} :=
  collisionFree_sampleSponge (by decide +kernel)

theorem lists_copied : CoinbaseLists labelSponge ownMiner (authored copied)
    {x | x ∈ coinbaseLists copied} := by
  have computed : ∀ b ∈ (authored copied).blocks, ∀ payload ∈ b.payload,
      ∀ value ∈ (authored copied).chain.coinbaseValues (b.stop - 1),
        cmInput (bytesToDigestLossy payload.inner) (value : Felt) ∈ coinbaseLists copied ∧
          cmInput (ownMiner.coinbaseInner labelSponge b.header.number) (value : Felt) ∈
            coinbaseLists copied := by
    decide +kernel
  exact fun b hb payload value hpayload hvalue => computed b hb payload hpayload value hvalue

theorem typable_copied : ∀ b ∈ (authored copied).blocks,
    b.Typable labelSponge ownMiner ownLabel (authored copied).chain := by
  have computed : ∀ b ∈ (authored copied).blocks, ∃ payload ∈ b.payload,
      ((authored copied).chain.coinbaseValues (b.stop - 1)).isSome = true ∧
        (ownLabel b = some (ownMiner.label labelSponge b.header.parentHash) →
          payload.inner = digestBytes (ownMiner.coinbaseInner labelSponge b.header.number)) := by
    decide +kernel
  intro b hb _
  exact computed b hb

end Sample

/-- **A copied label stalls the wallet.** Its own block is accepted; a stranger's block on the same
parent, under the label copied from it and with a note of the stranger's, is refused on an honest
node. -/
theorem typeChunks_stalled_by_copied_label :
    ((Sample.authored [Sample.ownInner]).blocks.map fun b => b.header.parentHash) =
        (Sample.authored [Sample.inner]).blocks.map (fun b => b.header.parentHash) ∧
      CollisionFree Sample.labelSponge.hashToFelts
        {x | x ∈ Sample.coinbaseLists [Sample.inner]} ∧
      (Sample.typedOn [Sample.ownInner]).isOk = true ∧
      Sample.typedOn [Sample.inner] = .error .labelMismatch :=
  ⟨by decide +kernel, collisionFree_sampleSponge (by decide +kernel), by decide +kernel,
    by decide +kernel⟩

/-- On another parent the copy is no label of the wallet's, and both blocks are accepted. -/
theorem typeChunks_accepts_own_block :
    (Sample.authored Sample.copied).blocks.length = 2 ∧
      ∀ chunks : List (List ClosedBlock), chunks.flatten = (Sample.authored Sample.copied).blocks →
        ∃ f, typeChunks Sample.labelSponge Sample.ownMiner .new (Sample.genesis 0).anchorBlock
          (chunks.map (trueChunk Sample.labelSponge Sample.ownLabel
            (Sample.authored Sample.copied).chain)) = .ok f :=
  ⟨by decide +kernel,
    (typeChunks_accepts_iff Sample.labelSponge runtime (Sample.leafless 0) (by decide) _
      Sample.ownMiner Sample.ownLabel
      Sample.collisionFree_copied Sample.lists_copied).2 Sample.typable_copied⟩

end Qnero
