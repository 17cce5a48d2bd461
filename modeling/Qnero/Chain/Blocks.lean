import Qnero.Shielded.Solvency

/-!
# Blocks and their leaves

Which block appended a leaf, and which leaf of a block is its coinbase. Shields and settlements
append while the block runs, the coinbase when it ends, and then the tree is folded into the root of
the header; `History` keeps, next to the state, what each closed block did. Wallets read the leaves
by this structure, so it has to hold in every state a run can reach.
-/

namespace Qnero

open Plonkish Machine QuadTree

/-! ## Ranges

Blocks cut the leaves into consecutive intervals. A block may append nothing.
-/

/-- The record of a closed block: its header, the leaf counts it was opened and closed at, and the
payload its coinbase inherent had left. -/
structure ClosedBlock where
  header : Header
  start : ℕ
  stop : ℕ
  payload : Option CoinbasePayload

/-- The leaf is one the block appended. -/
def ClosedBlock.Has (b : ClosedBlock) (i : ℕ) : Prop := b.start ≤ i ∧ i < b.stop

/-- The blocks cut `[s, e)` into consecutive ranges. -/
def Consecutive : ℕ → List ClosedBlock → ℕ → Prop
  | s, [], e => s = e
  | s, b :: blocks, e => b.start = s ∧ s ≤ b.stop ∧ Consecutive b.stop blocks e

variable {b : ClosedBlock} {blocks : List ClosedBlock} {s e i steps : ℕ}

theorem Consecutive.snoc (h : Consecutive s blocks e) (start : b.start = e) (le : e ≤ b.stop) :
    Consecutive s (blocks ++ [b]) b.stop := by
  induction blocks generalizing s with
  | nil =>
    obtain rfl : s = e := h
    exact ⟨start, le, rfl⟩
  | cons first blocks ih => exact ⟨h.1, h.2.1, ih h.2.2⟩

theorem Consecutive.bounds (h : Consecutive s blocks e) :
    s ≤ e ∧ ∀ b ∈ blocks, s ≤ b.start ∧ b.start ≤ b.stop ∧ b.stop ≤ e := by
  induction blocks generalizing s with
  | nil => exact ⟨le_of_eq h, by simp⟩
  | cons first blocks ih =>
    obtain ⟨start, le, rest⟩ := h
    obtain ⟨below, inside⟩ := ih rest
    refine ⟨le_trans le below, fun b hb => ?_⟩
    rcases List.mem_cons.1 hb with rfl | hb
    · exact ⟨start.ge, start.trans_le le, below⟩
    · exact ⟨le_trans le (inside b hb).1, (inside b hb).2⟩

theorem Consecutive.append_iff {bs cs : List ClosedBlock} :
    Consecutive s (bs ++ cs) e ↔ ∃ m, Consecutive s bs m ∧ Consecutive m cs e := by
  induction bs generalizing s with
  | nil =>
    constructor
    · exact fun h => ⟨s, rfl, h⟩
    · rintro ⟨m, rfl, h⟩
      exact h
  | cons b bs ih =>
    constructor
    · rintro ⟨start, le, rest⟩
      obtain ⟨m, left, right⟩ := ih.1 rest
      exact ⟨m, ⟨start, le, left⟩, right⟩
    · rintro ⟨m, ⟨start, le, left⟩, right⟩
      exact ⟨start, le, ih.2 ⟨m, left, right⟩⟩

/-- Every leaf of the interval is a block's. -/
theorem Consecutive.exists_has (h : Consecutive s blocks e) (hs : s ≤ i) (he : i < e) :
    ∃ b ∈ blocks, b.Has i := by
  induction blocks generalizing s with
  | nil =>
    obtain rfl : s = e := h
    omega
  | cons first blocks ih =>
    obtain ⟨start, -, rest⟩ := h
    by_cases hi : i < first.stop
    · exact ⟨first, List.mem_cons_self .., start.trans_le hs, hi⟩
    · obtain ⟨b, hb, has⟩ := ih rest (by omega)
      exact ⟨b, List.mem_cons_of_mem _ hb, has⟩

/-- Of one block only. -/
theorem Consecutive.has_unique (h : Consecutive s blocks e) {b b' : ClosedBlock} (hb : b ∈ blocks)
    (hb' : b' ∈ blocks) (has : b.Has i) (has' : b'.Has i) : b = b' := by
  induction blocks generalizing s with
  | nil => cases hb
  | cons first blocks ih =>
    obtain ⟨-, -, rest⟩ := h
    -- A leaf of the first block lies below every later one.
    have later : ∀ b ∈ blocks, b.Has i → ¬ first.Has i := by
      intro b hb has here
      have start := (rest.bounds.2 b hb).1
      have below := here.2
      have above := has.1
      omega
    rcases List.mem_cons.1 hb with rfl | mem
    · rcases List.mem_cons.1 hb' with rfl | mem'
      · rfl
      · exact absurd has (later b' mem' has')
    · rcases List.mem_cons.1 hb' with rfl | mem'
      · exact absurd has' (later b mem has)
      · exact ih rest mem mem'

/-! ## Histories -/

/-- A run's state, the blocks it closed, and the leaf count the open block started at. -/
structure History where
  chain : Chain
  blocks : List ClosedBlock
  opened : ℕ

namespace History

variable (H : Poseidon2) (cfg : Config)

/-- A run that starts in `c`. -/
def start (c : Chain) : History := ⟨c, [], c.tree.leafCount⟩

/-- The record of the block that is open, closed now. -/
def closing (h : History) (env : Environment) : ClosedBlock where
  header := (h.chain.finalize H cfg).header env
  start := h.opened
  stop := (h.chain.finalize H cfg).tree.leafCount
  payload := h.chain.pendingCoinbase

/-- Close the block. -/
def close (h : History) (env : Environment) : History where
  chain := h.chain.nextBlock H cfg env
  blocks := h.blocks ++ [h.closing H cfg env]
  opened := (h.chain.finalize H cfg).tree.leafCount

def step (h : History) : Op → History
  | .endBlock env => if h.chain.blockNumber + 1 ≤ u32Max then h.close H cfg env else h
  | op => { h with chain := h.chain.step H cfg op }

def run (h : History) (ops : List Op) : History := ops.foldl (step H cfg) h

/-- Inside a block only the state moves. -/
theorem step_inside (h : History) {op : Op} (inside : ∀ env, op ≠ .endBlock env) :
    h.step H cfg op = { h with chain := h.chain.step H cfg op } := by
  cases op with
  | endBlock env => exact absurd rfl (inside env)
  | _ => rfl

theorem chain_step (h : History) (op : Op) :
    (h.step H cfg op).chain = h.chain.step H cfg op := by
  cases op with
  | endBlock env =>
    simp only [step, Chain.step, Chain.dispatch]
    split <;> rfl
  | _ => rfl

/-- The records are next to the run and do not change it. -/
theorem chain_run (h : History) (ops : List Op) :
    (h.run H cfg ops).chain = h.chain.run H cfg ops := by
  induction ops generalizing h with
  | nil => rfl
  | cons op ops ih =>
    have tail := ih (h.step H cfg op)
    rw [chain_step] at tail
    exact tail

end History

/-! ## Appending within a block -/

variable {H : Poseidon2} {cfg : Config} {c c' : Chain} {new : List Hash256}

/-- The leaves `new` appended and dated to the block being executed. -/
structure Appends (c c' : Chain) (new : List Hash256) : Prop where
  room : new.length ≤ c.tree.remainingCapacity
  tree_eq : c'.tree = c.tree.appendAll new
  leafBlocks_eq : ∀ i, c'.leafBlocks i =
    if c.tree.leafCount ≤ i ∧ i < c.tree.leafCount + new.length then some c.blockNumber
    else c.leafBlocks i
  blockNumber_eq : c'.blockNumber = c.blockNumber

theorem Appends.refl (tree : c'.tree = c.tree) (dates : c'.leafBlocks = c.leafBlocks)
    (number : c'.blockNumber = c.blockNumber) : Appends c c' [] where
  room := Nat.zero_le _
  tree_eq := tree
  leafBlocks_eq i := by
    rw [dates, if_neg]
    rintro ⟨hi, hi'⟩
    exact absurd hi' (Nat.not_lt.2 hi)
  blockNumber_eq := number

theorem Appends.single {leaf : Hash256} (room : 0 < c.tree.remainingCapacity)
    (tree : c'.tree = (c.tree.appendLeafHash leaf).1)
    (dates : c'.leafBlocks = Function.update c.leafBlocks c.tree.leafCount (some c.blockNumber))
    (number : c'.blockNumber = c.blockNumber) : Appends c c' [leaf] where
  room := room
  tree_eq := tree
  leafBlocks_eq i := by
    rw [dates, Function.update_apply]
    refine if_congr ⟨?_, ?_⟩ rfl rfl
    · rintro rfl
      exact ⟨le_rfl, Nat.lt_succ_self _⟩
    · rintro ⟨le, lt⟩
      exact Nat.le_antisymm (Nat.le_of_lt_succ lt) le
  blockNumber_eq := number

/-- What an operation inside a block appends; no coinbase among it. -/
theorem Effect.appends {op : Op} (effect : Effect H cfg c op c')
    (inside : ∀ env, op ≠ .endBlock env) :
    ∃ new, Appends c c' new ∧ c'.coinbaseValues = c.coinbaseValues := by
  cases effect with
  | free => exact ⟨[], .refl rfl rfl rfl, rfl⟩
  | fee => exact ⟨[], .refl rfl rfl rfl, rfl⟩
  | shield check => exact ⟨_, .single (shieldCheck_ok check).capacity rfl rfl rfl, rfl⟩
  | @settle bundle outputs plan check =>
    have planned := checkSettlement_ok check
    have settled := planned.settled
    refine ⟨commitmentsOf (plan.written bundle), {
      room := planned.commitments_le
      tree_eq := settled_tree ..
      leafBlocks_eq := fun i => ?_
      blockNumber_eq := settled_frame Chain.blockNumber (fun _ _ => rfl) (fun _ _ _ => rfl) .. },
      settled_frame Chain.coinbaseValues (fun _ _ => rfl) (fun _ _ _ => rfl) ..⟩
    rw [settled.leafBlocks_eq, length_commitmentsOf, ← settled.slots_eq]
  | coinbase => exact ⟨[], .refl rfl rfl rfl, rfl⟩
  | endBlock env => exact absurd rfl (inside env)

/-- The leaf the end of a block appends: none, or the coinbase of the payload at the recorded value,
which is the only entry it makes. -/
inductive RewardLeaf (H : Poseidon2) (c c' : Chain) : List Hash256 → Prop where
  | none (values : c'.coinbaseValues = c.coinbaseValues) : RewardLeaf H c c' []
  | minted {payload : CoinbasePayload} {steps : ℕ} {commitment : Hash256}
      (pending : c.pendingCoinbase = some payload)
      (commits : chainCommitment H payload.inner steps = some commitment)
      (values : c'.coinbaseValues =
        Function.update c.coinbaseValues c.tree.leafCount (some steps)) :
      RewardLeaf H c c' [commitment]

/-- Whatever the books hold, a reward appends the coinbase of the block or nothing. -/
theorem payRewards_appends (H : Poseidon2) (cfg : Config) (c : Chain) :
    ∃ new, Appends c (c.payRewards H cfg) new ∧ RewardLeaf H c (c.payRewards H cfg) new := by
  -- Retaining a credit touches the fees alone.
  have retained : ∀ (mid : Chain) (fees : ℕ) (new : List Hash256),
      Appends c mid new ∧ RewardLeaf H c mid new →
      Appends c (mid.retainUnminted fees) new ∧ RewardLeaf H c (mid.retainUnminted fees) new := by
    rintro mid fees new ⟨appends, leaf⟩
    refine ⟨⟨appends.room, appends.tree_eq, appends.leafBlocks_eq, appends.blockNumber_eq⟩, ?_⟩
    cases leaf with
    | none values => exact .none values
    | minted pending commits values => exact .minted pending commits values
  have paid : ∀ amount, ∃ new, Appends c (c.takeFees.payCoinbase H amount) new ∧
      RewardLeaf H c (c.takeFees.payCoinbase H amount) new := by
    intro amount
    rcases mintCoinbase_cases H c.takeFees amount with hmint | ⟨inner, commitment, checked, hmint⟩
    · have taken : Appends c { c.takeFees with pendingCoinbase := none } [] ∧
          RewardLeaf H c { c.takeFees with pendingCoinbase := none } [] :=
        ⟨.refl rfl rfl rfl, .none rfl⟩
      rw [Chain.payCoinbase, hmint]
      dsimp only
      split
      · exact ⟨_, taken⟩
      · exact ⟨_, retained _ _ _ taken⟩
    · obtain ⟨payload, pending, rfl⟩ := checked.inner_eq
      rw [Chain.payCoinbase, hmint]
      exact ⟨_, .single checked.capacity rfl rfl rfl, .minted pending checked.commitment_eq rfl⟩
  rw [Chain.payRewards, Chain.payMiner]
  split
  · obtain ⟨new, done⟩ := paid _
    exact ⟨new, retained _ _ _ done⟩
  · exact ⟨[], retained _ _ _ ⟨.refl rfl rfl rfl, .none rfl⟩⟩

/-! ## What holds of a history -/

/-- The header's root is that of exactly the leaves up to the end of the block. -/
def ClosedBlock.Covers (H : Poseidon2) (leaves : List Hash256) (b : ClosedBlock) : Prop :=
  ∃ depth, IsLeast {d | b.stop ≤ capacity d} depth ∧
    b.header.zkTreeRoot = refNode H (leaves.take b.stop) depth 0

/-- The leaf is the block's coinbase: its last leaf, and the commitment of the payload's `inner` at
the recorded value. -/
def ClosedBlock.Coinbase (H : Poseidon2) (leaves : List Hash256) (b : ClosedBlock) (i steps : ℕ) :
    Prop :=
  b.Has i ∧ i + 1 = b.stop ∧ ∃ payload commitment, b.payload = some payload ∧
    chainCommitment H payload.inner steps = some commitment ∧ leaves[i]? = some commitment

/-- **The leaf structure of a run** whose first block is `first`: the ranges, the dates, the coinbases
and the roots. -/
structure Structured (H : Poseidon2) (first : ℕ) (h : History) (leaves : List Hash256) : Prop where
  folded : ∃ processed, Folded H h.chain.tree leaves processed
  room : leaves.length ≤ 4 ^ 20
  number_eq : h.chain.blockNumber = first + h.blocks.length
  numbers : h.blocks.map (fun b => b.header.number) = List.range' first h.blocks.length
  ranges : Consecutive 0 h.blocks h.opened
  opened_le : h.opened ≤ leaves.length
  closed_dated : ∀ b ∈ h.blocks, ∀ i, b.Has i → h.chain.leafBlocks i = some b.header.number
  open_dated : ∀ i, h.opened ≤ i → i < leaves.length →
    h.chain.leafBlocks i = some h.chain.blockNumber
  undated : ∀ i, leaves.length ≤ i → h.chain.leafBlocks i = none
  coinbases : ∀ i steps, h.chain.coinbaseValues i = some steps →
    ∃ b ∈ h.blocks, b.Coinbase H leaves i steps
  roots : ∀ b ∈ h.blocks, b.Covers H leaves

variable {h : History} {first : ℕ} {leaves : List Hash256}

theorem Structured.leafCount_eq (s : Structured H first h leaves) :
    h.chain.tree.leafCount = leaves.length := by
  obtain ⟨_, folded⟩ := s.folded
  exact folded.count_eq

theorem Structured.stop_le (s : Structured H first h leaves) (hb : b ∈ h.blocks) :
    b.stop ≤ leaves.length :=
  le_trans (s.ranges.bounds.2 b hb).2.2 s.opened_le

theorem ClosedBlock.Covers.append (covers : b.Covers H leaves) (stop : b.stop ≤ leaves.length)
    (new : List Hash256) : b.Covers H (leaves ++ new) := by
  obtain ⟨depth, least, root⟩ := covers
  refine ⟨depth, least, ?_⟩
  rw [root, List.take_append_of_le_length stop]

theorem ClosedBlock.Coinbase.append (coinbase : b.Coinbase H leaves i steps) (new : List Hash256) :
    b.Coinbase H (leaves ++ new) i steps := by
  obtain ⟨has, last, payload, commitment, hpayload, commits, leaf⟩ := coinbase
  refine ⟨has, last, payload, commitment, hpayload, commits, ?_⟩
  rw [List.getElem?_append_left, leaf]
  exact (List.getElem?_eq_some_iff.1 leaf).1

/-- The tree behind an append, within the capacity. -/
theorem Structured.append_tree (s : Structured H first h leaves) (appends : Appends h.chain c' new) :
    (leaves ++ new).length ≤ 4 ^ 20 ∧ ∃ processed, Folded H c'.tree (leaves ++ new) processed := by
  have cap : capacityAtDepth circuitMaxTreeDepth = 4 ^ 20 := by decide
  have small : (4 : ℕ) ^ 20 ≤ u64Max := by decide
  have held := s.room
  have room := appends.room
  rw [ZkTree.remainingCapacity, cap, s.leafCount_eq] at room
  have fits : (leaves ++ new).length ≤ 4 ^ 20 := by
    rw [List.length_append]
    omega
  obtain ⟨processed, folded⟩ := s.folded
  refine ⟨fits, processed, ?_⟩
  rw [appends.tree_eq]
  exact folded.appendAll (le_trans fits small)

/-- **An append within the open block keeps the structure.** The closed ranges lie below it, and what
it adds is dated to the open block. -/
theorem Structured.append (s : Structured H first h leaves) (appends : Appends h.chain c' new)
    (values : c'.coinbaseValues = h.chain.coinbaseValues) :
    Structured H first { h with chain := c' } (leaves ++ new) := by
  obtain ⟨fits, folded⟩ := s.append_tree appends
  have count := s.leafCount_eq
  have opened := s.opened_le
  have dates := appends.leafBlocks_eq
  have length : (leaves ++ new).length = leaves.length + new.length := List.length_append
  rw [count] at dates
  exact {
    folded := folded
    room := fits
    number_eq := appends.blockNumber_eq.trans s.number_eq
    numbers := s.numbers
    ranges := s.ranges
    opened_le := le_trans opened (by rw [length]; omega)
    closed_dated := by
      intro b hb i has
      have stop := s.stop_le hb
      have below := has.2
      rw [dates, if_neg (by omega)]
      exact s.closed_dated b hb i has
    open_dated := by
      intro i hi lt
      rw [length] at lt
      show c'.leafBlocks i = some c'.blockNumber
      rw [dates, appends.blockNumber_eq]
      split
      · rfl
      · next old => exact s.open_dated i hi (by omega)
    undated := by
      intro i hi
      rw [length] at hi
      rw [dates, if_neg (by omega)]
      exact s.undated i (by omega)
    coinbases := by
      intro i steps hi
      obtain ⟨b, hb, coinbase⟩ := s.coinbases i steps (values ▸ hi)
      exact ⟨b, hb, coinbase.append new⟩
    roots := fun b hb => (s.roots b hb).append (s.stop_le hb) new }

/-! ### The end of a block -/

/-- The leaves of the block that is closing are dated to it: those of the block while it ran, and
its reward. -/
theorem Structured.closing_dated (s : Structured H first h leaves)
    (appends : Appends h.chain c' new) (hi : h.opened ≤ i) (lt : i < (leaves ++ new).length) :
    c'.leafBlocks i = some h.chain.blockNumber := by
  rw [List.length_append] at lt
  rw [appends.leafBlocks_eq, s.leafCount_eq]
  split
  · rfl
  · next old => exact s.open_dated i hi (by omega)

/-- A coinbase entry behind the reward is an old one, or the last leaf of the block. -/
theorem Structured.closing_coinbase (s : Structured H first h leaves)
    (leaf : RewardLeaf H h.chain c' new) (hi : c'.coinbaseValues i = some steps)
    (start : b.start = h.opened) (stop : b.stop = (leaves ++ new).length)
    (payload : b.payload = h.chain.pendingCoinbase) :
    ∃ b' ∈ h.blocks ++ [b], b'.Coinbase H (leaves ++ new) i steps := by
  have old : h.chain.coinbaseValues i = some steps →
      ∃ b' ∈ h.blocks ++ [b], b'.Coinbase H (leaves ++ new) i steps := by
    intro hi
    obtain ⟨b', hb', coinbase⟩ := s.coinbases i steps hi
    exact ⟨b', List.mem_append_left _ hb', coinbase.append new⟩
  cases leaf with
  | none values => exact old (values ▸ hi)
  | @minted p steps' commitment pending commits values =>
    rw [values, Function.update_apply] at hi
    split at hi
    · next here =>
      obtain rfl := Option.some.inj hi
      rw [s.leafCount_eq] at here
      subst here
      have opened := s.opened_le
      rw [List.length_append, List.length_singleton] at stop
      refine ⟨b, List.mem_append_right _ (List.mem_singleton_self b), ⟨?_, ?_⟩, stop.symm, p,
        commitment, payload.trans pending, commits, ?_⟩
      · omega
      · omega
      · rw [List.getElem?_append_right le_rfl, Nat.sub_self]
        rfl
    · exact old hi

/-- **The end of a block keeps the structure**: its record takes up the range, and the fold gives the
header the root of all leaves there are. -/
theorem Structured.close (s : Structured H first h leaves) (env : Environment) :
    ∃ new, Structured H first (h.close H cfg env) (leaves ++ new) := by
  obtain ⟨new, appends, leaf⟩ := payRewards_appends H cfg h.chain
  obtain ⟨fits, processed, pending⟩ := s.append_tree appends
  have folded : Folded H (h.chain.finalize H cfg).tree (leaves ++ new) (leaves ++ new).length :=
    pending.process (by rw [capacity_circuitMaxTreeDepth]; exact fits)
  have number : (h.chain.finalize H cfg).blockNumber = h.chain.blockNumber := appends.blockNumber_eq
  have stop : (h.closing H cfg env).stop = (leaves ++ new).length := folded.count_eq
  have grown : leaves.length ≤ (leaves ++ new).length := by simp
  have opened := s.opened_le
  refine ⟨new, {
    folded := ⟨_, folded⟩
    room := fits
    number_eq := ?_
    numbers := ?_
    ranges := s.ranges.snoc rfl (by omega)
    opened_le := stop.le
    closed_dated := ?_
    open_dated := fun i hi lt => ?_
    undated := ?_
    coinbases := fun i steps hi => s.closing_coinbase leaf hi rfl stop rfl
    roots := ?_ }⟩
  · show (h.chain.finalize H cfg).blockNumber + 1 = first + (h.blocks ++ [_]).length
    rw [number, s.number_eq, List.length_append, List.length_singleton, Nat.add_assoc]
  · show (h.blocks ++ [h.closing H cfg env]).map _ = List.range' first (h.blocks ++ [_]).length
    have here : (h.closing H cfg env).header.number = first + h.blocks.length :=
      number.trans s.number_eq
    rw [List.map_append, s.numbers, List.length_append, List.length_singleton,
      List.range'_1_concat, List.map_singleton, here]
  · -- The rewards are leaves of the block that closes.
    intro b hb i has
    rcases List.mem_append.1 hb with old | here
    · have lt := has.2
      have below := s.stop_le old
      show (h.chain.payRewards H cfg).leafBlocks i = _
      rw [appends.leafBlocks_eq, s.leafCount_eq, if_neg (by omega)]
      exact s.closed_dated b old i has
    · obtain rfl := List.mem_singleton.1 here
      exact (s.closing_dated appends has.1 (stop ▸ has.2)).trans (congrArg some number.symm)
  · -- The new block has no leaf yet.
    have above : (leaves ++ new).length ≤ i := stop ▸ hi
    omega
  · intro i hi
    have above := s.undated i (by omega)
    rw [List.length_append] at hi
    show (h.chain.payRewards H cfg).leafBlocks i = none
    rw [appends.leafBlocks_eq, s.leafCount_eq, if_neg (by omega)]
    exact above
  · intro b hb
    rcases List.mem_append.1 hb with old | here
    · exact (s.roots b old).append (s.stop_le old) new
    · obtain rfl := List.mem_singleton.1 here
      refine ⟨_, stop ▸ folded.depth_least, ?_⟩
      rw [stop]
      exact folded.root_eq

/-! ## Runs -/

/-- **Every operation keeps the structure.** -/
theorem Structured.step (s : Structured H first h leaves) (cfg : Config) (op : Op) :
    ∃ new, Structured H first (h.step H cfg op) (leaves ++ new) := by
  by_cases ends : ∃ env, op = .endBlock env
  · obtain ⟨env, rfl⟩ := ends
    by_cases number : h.chain.blockNumber + 1 ≤ u32Max
    · have closes : h.step H cfg (.endBlock env) = h.close H cfg env := if_pos number
      rw [closes]
      exact s.close env
    · have stays : h.step H cfg (.endBlock env) = h := if_neg number
      rw [stays]
      exact ⟨[], by rwa [List.append_nil]⟩
  · have inside : ∀ env, op ≠ .endBlock env := fun env eq => ends ⟨env, eq⟩
    rw [h.step_inside H cfg inside]
    rcases step_cases H cfg h.chain op with idle | effect
    · rw [idle]
      exact ⟨[], by rwa [List.append_nil]⟩
    · obtain ⟨new, appends, values⟩ := effect.appends inside
      exact ⟨new, s.append appends values⟩

theorem Structured.run (s : Structured H first h leaves) (cfg : Config) (ops : List Op) :
    ∃ new, Structured H first (h.run H cfg ops) (leaves ++ new) := by
  induction ops generalizing h leaves with
  | nil => exact ⟨[], by rwa [List.append_nil]⟩
  | cons op ops ih =>
    obtain ⟨new, stepped⟩ := s.step cfg op
    obtain ⟨rest, ran⟩ := ih stepped
    exact ⟨new ++ rest, List.append_assoc .. ▸ ran⟩

/-- A chain without a leaf. -/
structure Leafless (c : Chain) : Prop where
  tree_eq : c.tree = .empty
  leafBlocks_eq : ∀ i, c.leafBlocks i = none
  coinbaseValues_eq : ∀ i, c.coinbaseValues i = none

theorem Leafless.structured (empty : Leafless c) :
    Structured H c.blockNumber (History.start c) [] where
  folded := ⟨0, by
    show Folded H c.tree [] 0
    rw [empty.tree_eq]
    exact folded_empty⟩
  room := Nat.zero_le _
  number_eq := rfl
  numbers := rfl
  ranges := by
    show 0 = c.tree.leafCount
    rw [empty.tree_eq]
    rfl
  opened_le := by
    show c.tree.leafCount ≤ 0
    rw [empty.tree_eq]
    rfl
  closed_dated := by simp [History.start]
  open_dated i _ lt := absurd lt (Nat.not_lt_zero i)
  undated i _ := empty.leafBlocks_eq i
  coinbases i steps hi := by
    rw [show (History.start c).chain.coinbaseValues i = none from empty.coinbaseValues_eq i] at hi
    cases hi
  roots := by simp [History.start]

/-- A coinbase entry on a leaf of the block is the block's own. -/
theorem Structured.coinbase_of_has (s : Structured H first h leaves) (hb : b ∈ h.blocks)
    (has : b.Has i) (value : h.chain.coinbaseValues i = some steps) :
    b.Coinbase H leaves i steps := by
  obtain ⟨b', hb', coinbase⟩ := s.coinbases i steps value
  rw [s.ranges.has_unique hb hb' has coinbase.1]
  exact coinbase

theorem Structured.dated (s : Structured H first h leaves) (hi : i < leaves.length) :
    (∃ b ∈ h.blocks, b.Has i ∧ h.chain.leafBlocks i = some b.header.number) ∨
      h.opened ≤ i ∧ h.chain.leafBlocks i = some h.chain.blockNumber := by
  by_cases opened : h.opened ≤ i
  · exact .inr ⟨opened, s.open_dated i opened hi⟩
  · obtain ⟨b, hb, has⟩ := s.ranges.exists_has (Nat.zero_le i) (Nat.lt_of_not_le opened)
    exact .inl ⟨b, hb, has, s.closed_dated b hb i has⟩

/-- **Blocks and leaves, in every state a run can reach.** Blocks are numbered in order and cut the
leaves into consecutive ranges, the open block behind them; every leaf is dated to the block whose
range it is in. A coinbase value stands on the last leaf of a closed block only, where the leaf is
the commitment of the block's payload at that value. A header's root is that of the leaves up to the
end of its block. -/
theorem block_leaf_structure (H : Poseidon2) (cfg : Config) (empty : Leafless c) (ops : List Op) :
    let h := (History.start c).run H cfg ops
    let leaves := h.chain.leafList
    h.chain = c.run H cfg ops ∧ leaves.length = h.chain.tree.leafCount ∧
    h.blocks.map (fun b => b.header.number) = List.range' c.blockNumber h.blocks.length ∧
    h.chain.blockNumber = c.blockNumber + h.blocks.length ∧
    Consecutive 0 h.blocks h.opened ∧ h.opened ≤ h.chain.tree.leafCount ∧
    (∀ i < h.chain.tree.leafCount,
      (∃ b ∈ h.blocks, b.Has i ∧ h.chain.leafBlocks i = some b.header.number) ∨
        h.opened ≤ i ∧ h.chain.leafBlocks i = some h.chain.blockNumber) ∧
    (∀ b ∈ h.blocks, ∀ i steps, b.Has i → h.chain.coinbaseValues i = some steps →
      b.Coinbase H leaves i steps) ∧
    (∀ i steps, h.chain.coinbaseValues i = some steps → ∃ b ∈ h.blocks, b.Has i) ∧
    ∀ b ∈ h.blocks, b.Covers H leaves := by
  obtain ⟨leaves, s⟩ := (empty.structured (H := H)).run cfg ops
  rw [List.nil_append] at s
  obtain ⟨_, folded⟩ := s.folded
  have count := s.leafCount_eq
  intro h all
  have list : all = leaves := folded.leafList_eq
  rw [list, count]
  refine ⟨History.chain_run H cfg _ ops, rfl, s.numbers, s.number_eq, s.ranges, s.opened_le,
    fun i hi => s.dated hi, fun b hb i steps has value => s.coinbase_of_has hb has value,
    fun i steps value => ?_, s.roots⟩
  obtain ⟨b, hb, coinbase⟩ := s.coinbases i steps value
  exact ⟨b, hb, coinbase.1⟩

/-- A shield and a coinbase in the first block. -/
def Sample.rewardedOps : List Op :=
  [.shield 0 (50 * poolStep) inner [], .coinbase inner [], .endBlock env]

theorem Sample.leafless (free : ℕ) : Leafless (genesis free) := ⟨rfl, fun _ => rfl, fun _ => rfl⟩

theorem block_leaf_structure_sample :
    let h := (History.start (Sample.genesis (10 ^ 13))).run sampleSponge runtime Sample.rewardedOps
    h.chain.tree.leafCount = 2 ∧ (h.chain.coinbaseValues 1).isSome ∧
      ∀ b ∈ h.blocks, ∀ i steps, b.Has i → h.chain.coinbaseValues i = some steps →
        b.Coinbase sampleSponge h.chain.leafList i steps := by
  intro h
  obtain ⟨-, -, -, -, -, -, -, coinbases, -⟩ := block_leaf_structure sampleSponge runtime
    (Sample.leafless (10 ^ 13)) Sample.rewardedOps
  exact ⟨by decide +kernel, by decide +kernel, coinbases⟩

end Qnero
