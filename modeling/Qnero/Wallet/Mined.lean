import Qnero.Wallet.Stall
import Qnero.Wallet.Client

/-!
# Chains that were mined

Blocks with the extrinsics they include and what the runtime does for them, from one genesis block.
Along a chain leaves are only added, each dated to the block that added it (`Grown`); and two chains
with one hash at one height are the same up to it (`World.same_below`), as far as the hash of the
headers is collision free and the two roots in a header bind what they are roots of.
-/

namespace Qnero

open Plonkish Machine

/-! ## Blocks -/

/-- What an executed call does. A settlement settles the bundle its proof was verified to. -/
inductive Performs : ShieldedCall → Op → Prop where
  | shield {who : AccountId} {value : ℕ} {inner : Hash256} {ciphertext : List UInt8} :
      Performs (.shield value inner ciphertext) (.shield who value inner ciphertext)
  | coinbase {inner : Hash256} {ciphertext : List UInt8} :
      Performs (.coinbase inner ciphertext) (.coinbase inner ciphertext)
  | privateBatch {proof : List UInt8} {outputs : List ShieldedOutput} {bundle : SettlementBundle} :
      Performs (.submitPrivateBatch proof outputs) (.settle bundle outputs)
  | publicBatch {proof : List UInt8} {outputs : List ShieldedOutput} {bundle : SettlementBundle} :
      Performs (.submitPublicBatch proof outputs) (.settle bundle outputs)

def Op.isFee : Op → Bool
  | .collectFee .. => true
  | _ => false

/-- A block: its extrinsics with the shielded calls each executed, what the runtime did for them, the
items of its digest, and whether the digest of the next block names an author. -/
structure MinedBlock where
  extrinsics : List (Extrinsic × List ShieldedCall)
  ops : List Op
  logs : List (List UInt8)
  nextHasAuthor : Bool

def MinedBlock.body (b : MinedBlock) : List (List UInt8) := b.extrinsics.map fun x => x.1.encode

/-- What all chains have in common: the runtime, the genesis block, and the two trie roots. -/
structure World where
  H : Poseidon2
  cfg : Config
  genesis : Chain
  genesisHeader : RawHeader
  stateRoot : Chain → Hash256
  extrinsicsRoot : List (List UInt8) → Option Hash256
  leafless : Leafless genesis
  number_eq : genesis.blockNumber = 1
  parent_eq : genesis.parentHash = genesisHeader.toHeader.hash H

namespace World

variable (w : World)

/-- The state a block leaves, with its leaves folded. -/
def closed (c : Chain) (b : MinedBlock) : Chain :=
  (c.run w.H w.cfg b.ops).finalize w.H w.cfg

def environment (c : Chain) (b : MinedBlock) : Environment where
  stateRoot := w.stateRoot (w.closed c b)
  extrinsicsRoot := (w.extrinsicsRoot b.body).getD 0
  digest := Scale.compact b.logs.length ++ b.logs.flatten
  nextHasAuthor := b.nextHasAuthor

/-- The header as it is served, the digest as its items. -/
def header (c : Chain) (b : MinedBlock) : RawHeader where
  parentHash := (w.closed c b).parentHash
  number := (w.closed c b).blockNumber
  stateRoot := w.stateRoot (w.closed c b)
  extrinsicsRoot := (w.extrinsicsRoot b.body).getD 0
  zkTreeRoot := (w.closed c b).tree.root
  logs := b.logs

/-- A block on top of a chain. -/
def mine (c : Chain) (b : MinedBlock) : Chain :=
  c.run w.H w.cfg (b.ops ++ [.endBlock (w.environment c b)])

/-- The chain of these blocks. -/
def grow (blocks : List MinedBlock) : Chain := blocks.foldl w.mine w.genesis

/-- The header at a height. -/
def headerAt (blocks : List MinedBlock) : ℕ → RawHeader
  | 0 => w.genesisHeader
  | k + 1 => ((blocks[k]?).map (w.header (w.grow (blocks.take k)))).getD w.genesisHeader

def hashAt (blocks : List MinedBlock) (k : ℕ) : Hash256 :=
  (w.headerAt blocks k).toHeader.hash w.H

/-- The leaves there are at a height. -/
def countAt (blocks : List MinedBlock) (k : ℕ) : ℕ := (w.grow (blocks.take k)).tree.leafCount

end World

/-- **The blocks of a chain**: every extrinsic is one a block can include, and the runtime does what
the executed calls ask for. Block numbers are 32-bit. -/
structure Valid (info : CallInfo) (blocks : List MinedBlock) : Prop where
  executes : ∀ b ∈ blocks, ∀ x ∈ b.extrinsics,
    x.1.Admitted info ∧ Executes x.1.preamble.origin x.1.call x.2
  performs : ∀ b ∈ blocks, List.Forall₂ Performs (b.extrinsics.flatMap Prod.snd)
    (b.ops.filter fun op => !op.isFee)
  length_lt : blocks.length < u32Max

/-- Only fees and performed calls are between the ends of blocks. -/
theorem Valid.inside {info : CallInfo} {blocks : List MinedBlock} (valid : Valid info blocks)
    {b : MinedBlock} (hb : b ∈ blocks) {op : Op} (hop : op ∈ b.ops) (env : Environment) :
    op ≠ .endBlock env := by
  rintro rfl
  have kept : Op.endBlock env ∈ b.ops.filter fun op => !op.isFee := List.mem_filter.2 ⟨hop, rfl⟩
  obtain ⟨call, -, performs⟩ := forall₂_exists_left (valid.performs b hb) kept
  cases performs

theorem Valid.take {info : CallInfo} {blocks : List MinedBlock} (valid : Valid info blocks)
    (k : ℕ) : Valid info (blocks.take k) where
  executes b hb := valid.executes b (List.mem_of_mem_take hb)
  performs b hb := valid.performs b (List.mem_of_mem_take hb)
  length_lt := lt_of_le_of_lt (List.length_take_le' ..) valid.length_lt

/-! ## Leaves are added -/

/-- **What stays of a state while a block runs**: the leaves it has, and the block and its parent;
what is added is dated to the block. -/
structure Grown (c c' : Chain) : Prop where
  count_le : c.tree.leafCount ≤ c'.tree.leafCount
  record_eq : ∀ i, i < c.tree.leafCount → c'.leafRecord i = c.leafRecord i
  dated : ∀ i, c.tree.leafCount ≤ i → i < c'.tree.leafCount → c'.leafBlocks i = some c.blockNumber
  number_eq : c'.blockNumber = c.blockNumber
  parent_eq : c'.parentHash = c.parentHash

variable {c c' c'' : Chain}

theorem Grown.refl (c : Chain) : Grown c c where
  count_le := le_rfl
  record_eq _ _ := rfl
  dated _ le lt := absurd lt (Nat.not_lt.2 le)
  number_eq := rfl
  parent_eq := rfl

theorem Grown.trans (h : Grown c c') (h' : Grown c' c'') : Grown c c'' where
  count_le := le_trans h.count_le h'.count_le
  record_eq i lt := (h'.record_eq i (lt_of_lt_of_le lt h.count_le)).trans (h.record_eq i lt)
  dated i le lt := by
    by_cases before : i < c'.tree.leafCount
    · rw [← h.dated i le before]
      exact congrArg LeafRecord.blockNumber (h'.record_eq i before)
    · rw [h'.dated i (Nat.le_of_not_lt before) lt, h.number_eq]
  number_eq := h'.number_eq.trans h.number_eq
  parent_eq := h'.parent_eq.trans h.parent_eq

/-- An append grows the state, if the coinbase entries it makes are of its own leaves. -/
theorem Appends.grown {new : List Hash256} (appends : Appends c c' new)
    (values : ∀ i, i < c.tree.leafCount → c'.coinbaseValues i = c.coinbaseValues i)
    (parent : c'.parentHash = c.parentHash) : Grown c c' := by
  have dates := appends.leafBlocks_eq
  by_cases empty : new = []
  · subst empty
    have tree : c'.tree = c.tree := appends.tree_eq
    refine ⟨by rw [tree], fun i lt => ?_, fun i le lt => ?_, appends.blockNumber_eq, parent⟩
    · rw [Chain.leafRecord, Chain.leafRecord, tree, dates, values i lt, if_neg]
      rintro ⟨le, -⟩
      omega
    · rw [tree] at lt
      omega
  · have room : c.tree.leafCount + new.length ≤ u64Max := by
      have some := List.length_pos_iff.2 empty
      have fits := appends.room
      have cap : capacityAtDepth circuitMaxTreeDepth ≤ u64Max := by decide
      rw [ZkTree.remainingCapacity] at fits
      omega
    have count : c'.tree.leafCount = c.tree.leafCount + new.length := by
      rw [appends.tree_eq, ZkTree.leafCount_appendAll room]
    refine ⟨by omega, fun i lt => ?_, fun i le lt => ?_, appends.blockNumber_eq, parent⟩
    · have leaf : c'.tree.leaves i = c.tree.leaves i := by
        rw [appends.tree_eq, ZkTree.leaves_appendAll room, if_neg (by omega)]
      rw [Chain.leafRecord, Chain.leafRecord, leaf, dates, values i lt, if_neg (by omega)]
    · rw [dates, if_pos (by omega)]

variable {H : Poseidon2} {cfg : Config}

theorem Grown.step {op : Op} (inside : ∀ env, op ≠ .endBlock env) :
    Grown c (c.step H cfg op) := by
  rcases step_cases H cfg c op with idle | effect
  · rw [idle]
    exact .refl c
  · obtain ⟨new, appends, values⟩ := effect.appends inside
    exact appends.grown (fun i _ => congrFun values i) (effect.parentHash_eq inside).1

theorem Grown.run {ops : List Op} (inside : ∀ op ∈ ops, ∀ env, op ≠ .endBlock env) :
    Grown c (c.run H cfg ops) := by
  induction ops generalizing c with
  | nil => exact .refl c
  | cons op ops ih =>
    rw [List.forall_mem_cons] at inside
    exact (Grown.step inside.1).trans (ih inside.2)

theorem Grown.finalize (c : Chain) : Grown c (c.finalize H cfg) := by
  obtain ⟨new, appends, leaf⟩ := payRewards_appends H cfg c
  have parent : (c.payRewards H cfg).parentHash = c.parentHash :=
    payRewards_frame Chain.parentHash (fun _ _ _ => rfl) (fun _ _ _ => rfl) H cfg c
  have paid : Grown c (c.payRewards H cfg) := by
    refine appends.grown (fun i lt => ?_) parent
    cases leaf with
    | none values => rw [values]
    | minted _ _ values => rw [values, Function.update_of_ne (Nat.ne_of_lt lt)]
  -- The fold writes nodes and the root.
  have count : ((c.payRewards H cfg).tree.processPendingLeaves H).leafCount =
      (c.payRewards H cfg).tree.leafCount := by
    unfold ZkTree.processPendingLeaves
    dsimp only
    split <;> rfl
  have leaves := leaves_processPendingLeaves H (c.payRewards H cfg).tree
  refine paid.trans ⟨count.ge, fun i _ => ?_, fun i le lt => ?_, rfl, rfl⟩
  · exact congrArg (fun f : ℕ → Option Hash256 => (⟨i, f i, (c.payRewards H cfg).leafBlocks i,
      (c.payRewards H cfg).coinbaseValues i⟩ : LeafRecord)) leaves
  · have same : (c.finalize H cfg).tree.leafCount = (c.payRewards H cfg).tree.leafCount := count
    omega

/-! ## Chains, block by block -/

namespace World

variable {w : World} {info : CallInfo} {blocks : List MinedBlock} {b : MinedBlock}

/-- A block on top, where it has a number left. -/
theorem mine_eq (inside : ∀ op ∈ b.ops, ∀ env, op ≠ .endBlock env) (number : c.blockNumber < u32Max) :
    w.mine c b = (w.closed c b).openBlock w.cfg ((w.header c b).toHeader.hash w.H)
      b.nextHasAuthor := by
  have ran : (c.run w.H w.cfg b.ops).blockNumber = c.blockNumber := (Grown.run inside).number_eq
  rw [mine, Chain.run, List.foldl_append]
  show (c.run w.H w.cfg b.ops).step w.H w.cfg (.endBlock (w.environment c b)) = _
  rw [Chain.step, Chain.dispatch, if_pos (by omega)]
  rfl

theorem closed_grown (inside : ∀ op ∈ b.ops, ∀ env, op ≠ .endBlock env) :
    Grown c (w.closed c b) :=
  (Grown.run inside).trans (Grown.finalize _)

theorem grow_take_succ {k : ℕ} (hk : blocks[k]? = some b) :
    w.grow (blocks.take (k + 1)) = w.mine (w.grow (blocks.take k)) b := by
  rw [grow, grow, List.take_add_one, hk, Option.toList_some, List.foldl_append]
  rfl

/-- **The heights of a chain.** The block behind the first `k` has number `k + 1`, and its parent is
the block at height `k`. -/
theorem grow_take (valid : Valid info blocks) {k : ℕ} (hk : k ≤ blocks.length) :
    (w.grow (blocks.take k)).blockNumber = k + 1 ∧
      (w.grow (blocks.take k)).parentHash = w.hashAt blocks k := by
  induction k with
  | zero => exact ⟨w.number_eq, w.parent_eq⟩
  | succ k ih =>
    obtain ⟨number, -⟩ := ih (by omega)
    have here : blocks[k]? = some blocks[k] := List.getElem?_eq_getElem hk
    have inside : ∀ op ∈ blocks[k].ops, ∀ env, op ≠ .endBlock env :=
      fun op hop => valid.inside (List.getElem_mem hk) hop
    have small : (w.grow (blocks.take k)).blockNumber < u32Max := by
      have := valid.length_lt
      omega
    have same : (w.closed (w.grow (blocks.take k)) blocks[k]).blockNumber = _ :=
      (closed_grown inside).number_eq
    rw [grow_take_succ here, mine_eq inside small]
    constructor
    · show (w.closed _ _).blockNumber + 1 = _
      rw [same, number]
    · show Function.update _ (w.closed _ _).blockNumber _ ((w.closed _ _).blockNumber + 1 - 1) = _
      rw [Nat.add_sub_cancel, Function.update_self, hashAt, headerAt, here]
      rfl

/-- **One more block**: the leaves there are stay, and the new ones are dated to its height. -/
theorem grow_succ (valid : Valid info blocks) {k : ℕ} (hk : blocks[k]? = some b) :
    (∀ i, (w.grow (blocks.take (k + 1))).leafRecord i =
        (w.closed (w.grow (blocks.take k)) b).leafRecord i) ∧
      w.countAt blocks (k + 1) = (w.closed (w.grow (blocks.take k)) b).tree.leafCount ∧
      Grown (w.grow (blocks.take k)) (w.closed (w.grow (blocks.take k)) b) := by
  obtain ⟨lt, rfl⟩ := List.getElem?_eq_some_iff.1 hk
  have inside : ∀ op ∈ blocks[k].ops, ∀ env, op ≠ .endBlock env :=
    fun op hop => valid.inside (List.getElem_mem lt) hop
  have small : (w.grow (blocks.take k)).blockNumber < u32Max := by
    have number := (grow_take (w := w) valid (Nat.le_of_lt lt)).1
    have length := valid.length_lt
    omega
  rw [countAt, grow_take_succ hk, mine_eq inside small]
  exact ⟨fun _ => rfl, rfl, closed_grown inside⟩

theorem countAt_zero : w.countAt blocks 0 = 0 := by
  show w.genesis.tree.leafCount = 0
  rw [w.leafless.tree_eq]
  rfl

theorem countAt_of_le {k : ℕ} (hk : blocks.length ≤ k) :
    w.countAt blocks k = w.countAt blocks blocks.length := by
  rw [countAt, countAt, List.take_of_length_le hk, List.take_length]

theorem countAt_mono (valid : Valid info blocks) : Monotone (w.countAt blocks) := by
  refine monotone_nat_of_le_succ fun k => ?_
  by_cases hk : k < blocks.length
  · obtain ⟨-, count, grown⟩ := grow_succ (w := w) valid (List.getElem?_eq_getElem hk)
    rw [count]
    exact grown.count_le
  · have end' := Nat.le_of_not_lt hk
    exact ((countAt_of_le end').trans (countAt_of_le (Nat.le_succ_of_le end')).symm).le

/-- A leaf is at every later height what it is at the first one. -/
theorem leafRecord_grow (valid : Valid info blocks) {k : ℕ} (hk : k ≤ blocks.length) {i : ℕ}
    (hi : i < w.countAt blocks k) :
    (w.grow blocks).leafRecord i = (w.grow (blocks.take k)).leafRecord i := by
  have later : ∀ m, k + m ≤ blocks.length →
      (w.grow (blocks.take (k + m))).leafRecord i = (w.grow (blocks.take k)).leafRecord i := by
    intro m
    induction m with
    | zero => exact fun _ => rfl
    | succ m ih =>
      intro le
      obtain ⟨records, -, grown⟩ := grow_succ (w := w) valid
        (List.getElem?_eq_getElem (show k + m < blocks.length by omega))
      have below : i < w.countAt blocks (k + m) := lt_of_lt_of_le hi (countAt_mono valid (by omega))
      rw [← Nat.add_assoc, records, grown.record_eq i below]
      exact ih (by omega)
  have last := later (blocks.length - k) (by omega)
  rwa [Nat.add_sub_cancel' hk, List.take_length] at last

/-- **The date of a leaf** is the height it was added at. -/
theorem leafBlocks_grow (valid : Valid info blocks) {i : ℕ}
    (hi : i < w.countAt blocks blocks.length) :
    ∃ d, (w.grow blocks).leafBlocks i = some d ∧ ∀ k, d ≤ k ↔ i < w.countAt blocks k := by
  -- The first height that has the leaf.
  have some : ∃ k, i < w.countAt blocks k := ⟨_, hi⟩
  obtain ⟨d, has, first⟩ : ∃ d, i < w.countAt blocks d ∧ ∀ k, k < d → ¬ i < w.countAt blocks k :=
    ⟨Nat.find some, Nat.find_spec some, fun k => Nat.find_min some⟩
  have le : d ≤ blocks.length := Nat.le_of_not_lt fun lt => first _ lt hi
  refine ⟨d, ?_, fun k => ⟨fun hk => lt_of_lt_of_le has (countAt_mono valid hk), fun hk =>
    Nat.le_of_not_lt fun lt => first k lt hk⟩⟩
  cases d with
  | zero =>
    rw [countAt_zero] at has
    omega
  | succ d =>
    have here : blocks[d]? = Option.some blocks[d] := List.getElem?_eq_getElem le
    obtain ⟨records, count, grown⟩ := grow_succ (w := w) valid here
    have number := (grow_take (w := w) valid (Nat.le_of_lt le)).1
    have dated := grown.dated i (Nat.le_of_not_lt (first d (Nat.lt_succ_self d))) (count ▸ has)
    have record := (leafRecord_grow valid le has).trans (records i)
    rw [← number, ← dated]
    exact congrArg LeafRecord.blockNumber record

/-! ## One hash, one chain -/

/-- **What a header binds**, among the chains that are served: its hash is collision free, its state
root is of one state and its extrinsics root of one body. -/
structure Binding (w : World) (served : Set (List MinedBlock)) : Prop where
  headers : CollisionFree w.H.hashToFelts {x | ∃ blocks ∈ served, ∃ k, k < blocks.length ∧
    x = (w.headerAt blocks (k + 1)).toHeader.preimage w.H}
  states : ∀ blocks ∈ served, ∀ blocks' ∈ served, ∀ (k : ℕ) (b b' : MinedBlock), blocks[k]? = some b →
    blocks'[k]? = some b' →
      bytesToDigestLossy (w.stateRoot (w.closed (w.grow (blocks.take k)) b)) =
        bytesToDigestLossy (w.stateRoot (w.closed (w.grow (blocks'.take k)) b')) →
      w.closed (w.grow (blocks.take k)) b = w.closed (w.grow (blocks'.take k)) b'
  bodies : ∀ blocks ∈ served, ∀ blocks' ∈ served, ∀ (k : ℕ) (b b' : MinedBlock), blocks[k]? = some b →
    blocks'[k]? = some b' →
      bytesToDigestLossy ((w.extrinsicsRoot b.body).getD 0) =
        bytesToDigestLossy ((w.extrinsicsRoot b'.body).getD 0) →
      b.body = b'.body

variable {served : Set (List MinedBlock)} {blocks' : List MinedBlock} {k : ℕ}

theorem Binding.mono {fewer : Set (List MinedBlock)} (binding : w.Binding served)
    (sub : fewer ⊆ served) : w.Binding fewer where
  headers := by
    have lists : {x | ∃ blocks ∈ fewer, ∃ k, k < blocks.length ∧
        x = (w.headerAt blocks (k + 1)).toHeader.preimage w.H} ⊆ {x | ∃ blocks ∈ served, ∃ k,
          k < blocks.length ∧ x = (w.headerAt blocks (k + 1)).toHeader.preimage w.H} := by
      rintro x ⟨blocks, mem, rest⟩
      exact ⟨blocks, sub mem, rest⟩
    exact ⟨binding.headers.injOn.mono lists, fun x mem => binding.headers.ne_zero x (lists mem)⟩
  states blocks mem blocks' mem' := binding.states blocks (sub mem) blocks' (sub mem')
  bodies blocks mem blocks' mem' := binding.bodies blocks (sub mem) blocks' (sub mem')

theorem headerAt_succ (hk : blocks[k]? = some b) :
    w.headerAt blocks (k + 1) = w.header (w.grow (blocks.take k)) b := by
  rw [headerAt, hk]
  rfl

/-- One step down: the same hash has the same parent, the same state and the same body. -/
theorem same_step (binding : w.Binding served) (mem : blocks ∈ served) (mem' : blocks' ∈ served)
    (valid : Valid info blocks) (valid' : Valid info blocks') (hk : k < blocks.length)
    (hk' : k < blocks'.length) (same : w.hashAt blocks (k + 1) = w.hashAt blocks' (k + 1)) :
    w.hashAt blocks k = w.hashAt blocks' k ∧
      w.closed (w.grow (blocks.take k)) blocks[k] = w.closed (w.grow (blocks'.take k)) blocks'[k] ∧
      blocks[k].body = blocks'[k].body := by
  have here : blocks[k]? = some blocks[k] := List.getElem?_eq_getElem hk
  have here' : blocks'[k]? = some blocks'[k] := List.getElem?_eq_getElem hk'
  have preimages := binding.headers.inj ⟨blocks, mem, k, hk, rfl⟩ ⟨blocks', mem', k, hk', rfl⟩
    (digestBytes_injective same)
  rw [headerAt_succ here, headerAt_succ here'] at preimages
  obtain ⟨parent, -, state, body, -, -⟩ := headerPreimage_inj.1 preimages
  have link : ∀ {blocks : List MinedBlock} (_ : Valid info blocks) (hk : k < blocks.length),
      (w.closed (w.grow (blocks.take k)) blocks[k]).parentHash = w.hashAt blocks k := by
    intro blocks valid hk
    have grown := (grow_succ (w := w) valid (List.getElem?_eq_getElem hk)).2.2
    exact grown.parent_eq.trans (grow_take valid (Nat.le_of_lt hk)).2
  refine ⟨?_, binding.states _ mem _ mem' k _ _ here here' state,
    binding.bodies _ mem _ mem' k _ _ here here' body⟩
  have lossy : bytesToDigestLossy (w.hashAt blocks k) = bytesToDigestLossy (w.hashAt blocks' k) := by
    rw [← link valid hk, ← link valid' hk']
    exact parent
  rw [hashAt, hashAt, Header.hash, Header.hash, Poseidon2.hashToBytes, Poseidon2.hashToBytes,
    bytesToDigestLossy_digestBytes, bytesToDigestLossy_digestBytes] at lossy
  exact congrArg digestBytes lossy

/-- **Two chains with one hash at one height are one chain up to it.** -/
theorem same_below (binding : w.Binding served) (mem : blocks ∈ served) (mem' : blocks' ∈ served)
    (valid : Valid info blocks) (valid' : Valid info blocks') (hk : k ≤ blocks.length)
    (hk' : k ≤ blocks'.length) (same : w.hashAt blocks k = w.hashAt blocks' k) {j : ℕ}
    (hj : j ≤ k) : w.hashAt blocks j = w.hashAt blocks' j := by
  -- Down from the height, a parent at a time.
  induction k with
  | zero =>
    obtain rfl : j = 0 := Nat.le_zero.1 hj
    exact same
  | succ k ih =>
    rcases Nat.of_le_succ hj with le | rfl
    · exact ih (by omega) (by omega)
        (same_step binding mem mem' valid valid' hk hk' same).1 le
    · exact same

end World

end Qnero
