import Qnero.Chain.Supply
import Qnero.Shielded.Openings
import Qnero.Tree.Membership

/-!
# The pool is solvent

Four pieces of code that never see each other keep the pool backed: the balance inside a spend, the
membership of its inputs under an old root, the chain's nullifier set, and the credit both entries
give the pool. `Refines` says what the chain's storage has to do with the ledger of its leaves, and
every operation keeps it: a shield or a coinbase is a deposit, a settled slot a transfer, and the
rest changes nothing the ledger sees. The ledger is solvent by construction.
-/

namespace Qnero

open Plonkish Machine Ledger

/-! ## What is given -/

/-- The leaves of the tree. -/
def Chain.leafList (c : Chain) : List Hash256 :=
  (List.range c.tree.leafCount).filterMap c.tree.leaves

/-- The value of the notes in the tree whose real nullifier is not used. -/
noncomputable def unspentValue (H : Poseidon2) (Q : Set (List Felt)) (c : Chain) : ℕ :=
  unspent (leafValue H Q) (spentLeaves H Q c.usedNullifiers) c.leafList

/-- A segment whose slots are the public inputs of satisfied leaf circuits on its block. -/
def Segment.Valid (H : Poseidon2) (Q : Set (List Felt)) (segment : Segment) : Prop :=
  ∀ slot ∈ segment.slots, ∃ t : SpendTargets, (spendCircuit H t).Holds Q ∧
    slot = RealSlot.ofSlot t.slot ∧ segment.blockHash = digestBytes t.blockHash

/-- The lists the end of a block hashes: the coinbase note's, the tree's nodes', the header's. -/
structure BlockHashed (H : Poseidon2) (Q : Set (List Felt)) (cfg : Config) (c : Chain)
    (env : Environment) : Prop where
  coinbase : ∀ payload inner, c.pendingCoinbase = some payload →
    bytesToDigest payload.inner = some inner →
    cmInput inner (coinbaseSteps c (quantize (c.minerGross cfg)).1 : Felt) ∈ Q
  nodes : TreeIn H Q (c.finalize H cfg).leafList (c.finalize H cfg).tree.depth
  header : ((c.finalize H cfg).header env).preimage H ∈ Q

/-- An operation of a run: what is settled was proved, and what is hashed is in `Q`. -/
def Admissible (H : Poseidon2) (Q : Set (List Felt)) (cfg : Config) (c : Chain) : Op → Prop
  | .shield _ value inner _ =>
    ∀ d, bytesToDigest inner = some d → cmInput d ((value / poolStep : ℕ) : Felt) ∈ Q
  | .settle bundle _ => ∀ segment ∈ bundle.segments, segment.Valid H Q
  | .endBlock env => BlockHashed H Q cfg c env
  | .collectFee .. | .coinbase .. => True

/-- A chain nothing was shielded on. Its books are 128-bit, and a block hash it has on record is
that of a header over the empty tree. -/
structure Genesis (H : Poseidon2) (Q : Set (List Felt)) (c : Chain) : Prop where
  tree_eq : c.tree = .empty
  used_eq : c.usedNullifiers = ∅
  width : c.supply ≤ u128Max
  anchors : ∀ n, c.blockHash n ≠ 0 → ∃ header : Header,
    c.blockHash n = header.hash H ∧ header.preimage H ∈ Q ∧ header.zkTreeRoot = 0

/-! ## Old roots -/

variable {H : Poseidon2} {Q : Set (List Felt)} {notes : List Hash256} {hash : Hash256}

/-- A block hash over the tree of some earlier leaves. -/
def Anchored (H : Poseidon2) (Q : Set (List Felt)) (notes : List Hash256) (hash : Hash256) : Prop :=
  ∃ header : Header, hash = header.hash H ∧ header.preimage H ∈ Q ∧
    ∃ old depth, old <+: notes ∧ header.zkTreeRoot = refNode H old depth 0 ∧ TreeIn H Q old depth

theorem Anchored.mono (h : Anchored H Q notes hash) (more : List Hash256) :
    Anchored H Q (notes ++ more) hash := by
  obtain ⟨header, hhash, hmem, old, depth, hold, hroot, htree⟩ := h
  exact ⟨header, hhash, hmem, old, depth, hold.trans (List.prefix_append ..), hroot, htree⟩

/-- **A real input was in the tree.** The block hash of the spend is on record, so its header is
the chain's, its root is an old one, and the note it climbs from is a leaf. -/
theorem LeafHolds.inputLeaf_mem (hH : CollisionFree H.hashToFelts Q) {t : SpendTargets}
    (h : LeafHolds H Q t) (hashed : ∀ leaf ∈ notes, ∃ inner value, Commits H Q leaf inner value)
    (anchored : Anchored H Q notes (digestBytes t.blockHash)) {i : Fin 2} (hi : i ∈ t.realInputs) :
    t.inputLeaf H i ∈ notes := by
  obtain ⟨header, hhash, hmem, old, depth, hold, hroot, htree⟩ := anchored
  have isLeaf : ∀ v ∈ old, IsLeafHash H Q v := fun v hv => by
    obtain ⟨inner, value, commits⟩ := hashed v (hold.subset hv)
    exact .inl ⟨inner, value, commits.mem, commits.eq⟩
  have canonical : header.zkTreeRoot.Canonical := by
    rw [hroot]
    refine canonical_refNode (fun v hv => ?_) _ _
    obtain ⟨inner, value, commits⟩ := hashed v (hold.subset hv)
    rw [commits.eq]
    exact canonical_digestBytes _
  -- One hash, one preimage: the header the prover witnessed is the chain's.
  have same : t.header.preimage = header.preimage H := by
    refine hH.inj h.header_mem hmem (h.blockHash_eq.symm.trans ?_)
    exact digestBytes_injective hhash
  have root : t.header.zkTreeRoot = bytesToDigestLossy header.zkTreeRoot :=
    (headerPreimage_inj.1 same).2.2.2.2.1
  have holds := h.real hi
  rw [SpendTargets.inputLeaf, InputNoteTargets.note_commitment]
  have climbs := holds.climb_mem
  rw [InputNoteTargets.note_commitment] at climbs
  refine hold.subset (mem_of_climbIn hH isLeaf htree holds.cm_mem climbs ?_)
  rw [← InputNoteTargets.note_commitment, holds.root_eq rfl, root, canonical.digestBytes_lossy,
    hroot]

/-! ## Slots are transfers -/

/-- A slot proved against notes that are held. -/
def Spends (H : Poseidon2) (Q : Set (List Felt)) (notes : List Hash256) (slot : RealSlot) : Prop :=
  ∃ t : SpendTargets, LeafHolds H Q t ∧ slot = RealSlot.ofSlot t.slot ∧
    ∀ i ∈ t.realInputs, t.inputLeaf H i ∈ notes

theorem Spends.mono {slot : RealSlot} (h : Spends H Q notes slot) (more : List Hash256) :
    Spends H Q (notes ++ more) slot := by
  obtain ⟨t, leaf, hslot, held⟩ := h
  exact ⟨t, leaf, hslot, fun i hi => List.mem_append_left _ (held i hi)⟩

theorem insert_pair (used : Finset Hash256) (a b : Hash256) :
    insert b (insert a used) = used ∪ [a, b].toFinset := by
  ext n
  simp only [Finset.mem_insert, Finset.mem_union, List.mem_toFinset, List.mem_cons,
    List.not_mem_nil, or_false]
  tauto

/-- **Settled slots are a run of transfers**: by induction on the slots, each against the notes and
the nullifiers the ones before it left. -/
theorem exists_transfers (hH : CollisionFree H.hashToFelts Q) {slots : List RealSlot}
    {p : Pool (leafValue H Q)} {used : Finset Hash256} (hspent : p.spent = spentLeaves H Q used)
    (spends : ∀ slot ∈ slots, Spends H Q p.notes slot) (fresh : Fresh used (nullifiersOf slots)) :
    ∃ p', Relation.ReflTransGen Pool.Step p p' ∧ p'.notes = p.notes ++ commitmentsOf slots ∧
      p'.spent = spentLeaves H Q (used ∪ (nullifiersOf slots).toFinset) ∧
      p'.backing + (slots.map RealSlot.fee).sum = p.backing := by
  induction slots generalizing p used with
  | nil => exact ⟨p, .refl, by simp [commitmentsOf], by simp [nullifiersOf, hspent], by simp⟩
  | cons slot slots ih =>
    obtain ⟨⟨t, leaf, hslot, held⟩, rest⟩ := List.forall_mem_cons.1 spends
    have cons : nullifiersOf (slot :: slots) =
        [slot.nullifiers 0, slot.nullifiers 1] ++ nullifiersOf slots := rfl
    have new : ∀ i, slot.nullifiers i ∉ used := fun i =>
      fresh.unused _ (mem_nullifiersOf.2 ⟨slot, List.mem_cons_self .., i, rfl⟩)
    subst hslot
    -- The first slot against the pool as it stands, the others against what it leaves.
    let transfer := leaf.transfer hH p used hspent held new
    have spent : (p.transfer transfer).spent = spentLeaves H Q
        (used ∪ [(RealSlot.ofSlot t.slot).nullifiers 0,
          (RealSlot.ofSlot t.slot).nullifiers 1].toFinset) := by
      rw [← insert_pair]
      rfl
    rw [cons] at fresh
    obtain ⟨p', steps, notes, hspent', backing⟩ := ih spent (fun slot h => (rest slot h).mono _)
      fresh.of_append
    refine ⟨p', .head (.transfer p transfer) steps, ?_, ?_, ?_⟩
    · rw [notes]
      exact List.append_assoc ..
    · rw [hspent', cons, List.toFinset_append, Finset.union_assoc]
    · have fee : (p.transfer transfer).backing + (RealSlot.ofSlot t.slot).fee = p.backing :=
        Nat.sub_add_cancel transfer.fee_le
      rw [List.map_cons, List.sum_cons]
      omega

/-! ## The chain refines the ledger -/

variable {cfg : Config} {c c' : Chain} {p : Pool (leafValue H Q)}

/-- **What the storage says about the ledger of leaves**: the tree holds its notes, the nullifier
set marks its spent ones, the pool value backs it; and every block hash on record is over a tree of
some of its notes. -/
structure Refines (H : Poseidon2) (Q : Set (List Felt)) (c : Chain) (p : Pool (leafValue H Q)) :
    Prop where
  folded : ∃ processed, Folded H c.tree p.notes processed
  room : p.notes.length ≤ 4 ^ 20
  hashed : ∀ leaf ∈ p.notes, ∃ inner value, Commits H Q leaf inner value
  anchors : ∀ n, c.blockHash n ≠ 0 → Anchored H Q p.notes (c.blockHash n)
  width : c.supply ≤ u128Max
  spent_eq : p.spent = spentLeaves H Q c.usedNullifiers
  backing_eq : p.backing = c.poolValue / poolStep

theorem filterMap_range_getElem? {α : Type} (l : List α) :
    (List.range l.length).filterMap (fun i => l[i]?) = l := by
  induction l using List.reverseRecOn with
  | nil => rfl
  | append_singleton l a ih =>
    rw [List.length_append, List.length_singleton, List.range_succ, List.filterMap_append]
    congr 1
    · refine (List.filterMap_congr fun i hi => ?_).trans ih
      exact List.getElem?_append_left (List.mem_range.1 hi)
    · simp

theorem Folded.leafList_eq {leaves : List Hash256} {processed : ℕ}
    (h : Folded H c.tree leaves processed) : c.leafList = leaves := by
  have leaf : c.tree.leaves = fun i => leaves[i]? := funext h.leaf_eq
  rw [Chain.leafList, h.count_eq, leaf, filterMap_range_getElem?]

theorem Refines.leafList_eq (h : Refines H Q c p) : c.leafList = p.notes := by
  obtain ⟨_, folded⟩ := h.folded
  exact folded.leafList_eq

/-- **A chain that refines a ledger is solvent.** -/
theorem Refines.unspentValue_le (h : Refines H Q c p) :
    unspentValue H Q c ≤ c.poolValue / poolStep := by
  rw [unspentValue, h.leafList_eq, ← h.spent_eq, ← h.backing_eq]
  exact p.solvent

/-- An operation that touches none of it. -/
theorem Refines.frame (h : Refines H Q c p) (tree : c'.tree = c.tree)
    (hashes : c'.blockHash = c.blockHash) (used : c'.usedNullifiers = c.usedNullifiers)
    (pool : c'.poolValue = c.poolValue) (width : c'.supply ≤ u128Max) : Refines H Q c' p where
  folded := by
    rw [tree]
    exact h.folded
  room := h.room
  hashed := h.hashed
  anchors := by
    rw [hashes]
    exact h.anchors
  width := width
  spent_eq := by rw [used, h.spent_eq]
  backing_eq := by rw [pool, h.backing_eq]

theorem Refines.leafCount_eq (h : Refines H Q c p) : c.tree.leafCount = p.notes.length := by
  obtain ⟨_, folded⟩ := h.folded
  exact folded.count_eq

/-- Notes appended under the capacity of the tree. -/
theorem Refines.append (h : Refines H Q c p) (new : List Hash256)
    (room : new.length ≤ c.tree.remainingCapacity) :
    (p.notes ++ new).length ≤ 4 ^ 20 ∧
      ∃ processed, Folded H (c.tree.appendAll new) (p.notes ++ new) processed := by
  have cap : capacityAtDepth circuitMaxTreeDepth = 4 ^ 20 := by decide
  have small : (4 : ℕ) ^ 20 ≤ u64Max := by decide
  have held := h.room
  rw [ZkTree.remainingCapacity, cap, h.leafCount_eq] at room
  have fits : (p.notes ++ new).length ≤ 4 ^ 20 := by
    rw [List.length_append]
    omega
  obtain ⟨processed, folded⟩ := h.folded
  exact ⟨fits, processed, folded.appendAll (le_trans fits small)⟩

/-- **A leaf appended against its value is a deposit.** -/
theorem Refines.deposit (hH : CollisionFree H.hashToFelts Q) (h : Refines H Q c p) {leaf : Hash256}
    {inner : Digest} {steps : ℕ} (commits : Commits H Q leaf inner (steps : Felt))
    (hsteps : steps ≤ maxValue) (room : 0 < c.tree.remainingCapacity)
    (tree : c'.tree = (c.tree.appendLeafHash leaf).1) (hashes : c'.blockHash = c.blockHash)
    (used : c'.usedNullifiers = c.usedNullifiers)
    (pool : c'.poolValue = c.poolValue + steps * poolStep) (width : c'.supply ≤ u128Max) :
    ∃ p', Pool.Step p p' ∧ Refines H Q c' p' := by
  have value : leafValue H Q leaf = steps := by
    rw [commits.leafValue_eq hH]
    exact ZMod.val_natCast_of_lt (lt_of_le_of_lt hsteps (by decide))
  obtain ⟨fits, folded⟩ := h.append [leaf] room
  refine ⟨_, .deposit p leaf steps value.le, {
    folded := tree ▸ folded
    room := fits
    hashed := List.forall_mem_append.2 ⟨h.hashed, by simpa using ⟨inner, _, commits⟩⟩
    anchors := by
      rw [hashes]
      exact fun n hn => (h.anchors n hn).mono _
    width := width
    spent_eq := by rw [used]; exact h.spent_eq
    backing_eq := ?_ }⟩
  have pos : 0 < poolStep := by decide
  rw [pool, Nat.add_mul_div_right _ _ pos, ← h.backing_eq]
  rfl

/-! ### Settling -/

theorem anchorFailure_eq_none {segment : Segment} (h : anchorFailure cfg c segment = none) :
    c.blockHash segment.blockNumber ≠ 0 ∧ c.blockHash segment.blockNumber = segment.blockHash := by
  unfold anchorFailure at h
  split_ifs at h with _ _ hzero hne
  exact ⟨hzero, not_not.1 hne⟩

/-- What the walk lets through spends notes that are held. -/
theorem Refines.spends (hH : CollisionFree H.hashToFelts Q) (h : Refines H Q c p)
    {segments : List Segment} {settles : List Bool}
    (valid : ∀ segment ∈ segments, segment.Valid H Q)
    (anchored : ∀ segment ∈ writtenSegments segments settles, anchorFailure cfg c segment = none) :
    ∀ slot ∈ writtenSlots segments settles, Spends H Q p.notes slot := by
  intro slot hslot
  obtain ⟨segment, hsegment, hmem⟩ := List.mem_flatMap.1 hslot
  obtain ⟨stored, hash⟩ := anchorFailure_eq_none (anchored segment hsegment)
  obtain ⟨t, holds, hpub, hblock⟩ := valid segment (mem_writtenSegments hsegment) slot hmem
  have leaf := LeafHolds.of_holds holds
  have anchor := h.anchors segment.blockNumber stored
  rw [hash, hblock] at anchor
  exact ⟨t, leaf, hpub, fun i hi => leaf.inputLeaf_mem hH h.hashed anchor hi⟩

/-- **The fees of what the walk lets through are in the pool.** -/
theorem Refines.fee_backed (hH : CollisionFree H.hashToFelts Q) (h : Refines H Q c p)
    {segments : List Segment} {s : PlanState} (valid : ∀ segment ∈ segments, segment.Valid H Q)
    (walked : Walked cfg c segments s) : s.feeSteps * poolStep ≤ c.poolValue := by
  obtain ⟨p', -, -, -, backing⟩ := exists_transfers hH h.spent_eq
    (h.spends hH valid walked.anchored) ⟨walked.writable.nodup, walked.fresh⟩
  have pos : 0 < poolStep := by decide
  rw [walked.feeSteps_eq, ← Nat.le_div_iff_mul_le pos, ← h.backing_eq, ← backing]
  exact Nat.le_add_left ..

/-- The outputs of a proved slot are notes. -/
theorem Spends.commits {slot : RealSlot} (h : Spends H Q notes slot) (i : Fin 2) :
    ∃ inner value, Commits H Q (slot.commitments i) inner value := by
  obtain ⟨t, leaf, rfl, -⟩ := h
  exact ⟨_, _, (leaf.outputs i).commits⟩

/-- A settlement is a run of transfers of the pool. -/
theorem Refines.settled (hH : CollisionFree H.hashToFelts Q) (h : Refines H Q c p)
    {bundle : SettlementBundle} {outputs : List ShieldedOutput} {plan : PlannedSettlement}
    (valid : ∀ segment ∈ bundle.segments, segment.Valid H Q)
    (planned : Planned cfg c bundle outputs plan) :
    ∃ p', Relation.ReflTransGen Pool.Step p p' ∧ Refines H Q (c.settled cfg bundle plan) p' := by
  have spends := h.spends hH valid planned.anchored
  obtain ⟨p', steps, notes, spent, backing⟩ := exists_transfers hH h.spent_eq spends
    ⟨planned.writable.nodup, planned.fresh⟩
  have pos : 0 < poolStep := by decide
  have pool := planned.settled.poolValue_eq
  have hashes : (c.settled cfg bundle plan).blockHash = c.blockHash :=
    settled_frame Chain.blockHash (fun _ _ => rfl) (fun _ _ _ => rfl) cfg c bundle plan
  obtain ⟨fits, folded⟩ := h.append _ planned.commitments_le
  refine ⟨p', steps, {
    folded := by rw [notes, settled_tree]; exact folded
    room := by rw [notes]; exact fits
    hashed := by
      rw [notes]
      refine List.forall_mem_append.2 ⟨h.hashed, fun leaf hleaf => ?_⟩
      obtain ⟨slot, hslot, hmem⟩ := List.mem_flatMap.1 hleaf
      have both := (spends slot hslot).commits
      simp only [List.mem_cons, List.not_mem_nil, or_false] at hmem
      rcases hmem with rfl | rfl
      · exact both 0
      · exact both 1
    anchors := by
      rw [hashes, notes]
      exact fun n hn => (h.anchors n hn).mono _
    width := le_trans (Nat.le.intro (planned.supply_settled h.width)) h.width
    spent_eq := by rw [spent, settled_usedNullifiers]
    backing_eq := ?_ }⟩
  -- The fee is whole steps, so it leaves the quotient step by step.
  rw [← planned.feeSteps_eq, h.backing_eq, ← pool, Nat.add_mul_div_right _ _ pos] at backing
  omega

/-! ### Value entering -/

theorem chainCommitment_commits {inner commitment : Hash256} {value : ℕ}
    (h : chainCommitment H inner value = some commitment)
    (mem : ∀ d, bytesToDigest inner = some d → cmInput d (value : Felt) ∈ Q) :
    ∃ d, Commits H Q commitment d (value : Felt) := by
  obtain ⟨d, hd, rfl⟩ := Option.map_eq_some_iff.1 h
  exact ⟨d, mem d hd, rfl⟩

theorem Refines.shielded (hH : CollisionFree H.hashToFelts Q) (h : Refines H Q c p)
    {who : AccountId} {value : ℕ} {inner commitment : Hash256} {balances : Balances}
    (checked : ShieldChecked H cfg c value inner commitment)
    (burn : c.balances.burnFrom cfg.existentialDeposit who value .expendable = .ok balances)
    (mem : ∀ d, bytesToDigest inner = some d → cmInput d ((value / poolStep : ℕ) : Felt) ∈ Q) :
    ∃ p', Pool.Step p p' ∧ Refines H Q (c.shielded balances value commitment) p' := by
  obtain ⟨d, commits⟩ := chainCommitment_commits checked.commitment_eq mem
  have whole : value / poolStep * poolStep = value :=
    Nat.div_mul_cancel (Nat.dvd_of_mod_eq_zero checked.quantized)
  refine h.deposit hH commits checked.steps_le checked.capacity rfl rfl rfl ?_
    (le_trans (Nat.le.intro (supply_shielded h.width burn)) h.width)
  rw [poolValue_shielded _ h.width burn, whole]

theorem Refines.payRewards (hH : CollisionFree H.hashToFelts Q) (h : Refines H Q c p)
    (coinbase : ∀ payload inner, c.pendingCoinbase = some payload →
      bytesToDigest payload.inner = some inner →
      cmInput inner (coinbaseSteps c (quantize (c.minerGross cfg)).1 : Felt) ∈ Q) :
    ∃ p', Relation.ReflTransGen Pool.Step p p' ∧ Refines H Q (c.payRewards H cfg) p' := by
  have capped := emission_le cfg c.supply
  have cap := cfg.maxSupply_le
  have held := h.width
  have width : (c.payRewards H cfg).supply ≤ u128Max := by
    rw [supply_payRewards H cfg c h.width]
    omega
  rcases payRewards_cases H cfg c h.width with ⟨payload, hpay⟩ | ⟨inner, commitment, checked, hpay⟩
  · rw [hpay] at width ⊢
    exact ⟨p, .refl, h.frame rfl rfl rfl rfl width⟩
  · rw [hpay] at width ⊢
    obtain ⟨payload, hpayload, rfl⟩ := checked.inner_eq
    obtain ⟨d, commits⟩ := chainCommitment_commits checked.commitment_eq fun d hd =>
      coinbase payload d hpayload hd
    have bound : c.minerGross cfg + c.poolValue + c.pendingCoinbaseFee ≤ u128Max := by
      unfold Chain.minerGross
      unfold Chain.supply at capped held ⊢
      omega
    have rewarded := checked.rewarded (quantize_sum _) bound
    have minted : ∃ p', Pool.Step p p' ∧ Refines H Q ((c.minted _ commitment).deferred _ none) p' :=
      h.deposit hH commits checked.steps_le checked.capacity rfl rfl rfl rewarded.pool_eq width
    obtain ⟨p', step, refines⟩ := minted
    exact ⟨p', .single step, refines⟩

/-! ### The end of a block -/

/-- A recorded hash is an old one or the one just recorded. -/
theorem blockHash_openBlock {n : ℕ} {hasAuthor : Bool} :
    (c.openBlock cfg hash hasAuthor).blockHash n =
      if n = c.blockNumber then hash else c.prunedHashes cfg n := by
  show Function.update (c.prunedHashes cfg) c.blockNumber hash n = _
  rw [Function.update_apply]

theorem prunedHashes_eq {n : ℕ} (h : c.prunedHashes cfg n ≠ 0) :
    c.prunedHashes cfg n = c.blockHash n :=
  (Chain.prunedHashes_cases cfg c n).resolve_right h

/-- The end of a block: the rewards enter, and the hash of the block becomes an anchor. -/
theorem Refines.nextBlock (hH : CollisionFree H.hashToFelts Q) (h : Refines H Q c p)
    {env : Environment} (hashed : BlockHashed H Q cfg c env) :
    ∃ p', Relation.ReflTransGen Pool.Step p p' ∧ Refines H Q (c.nextBlock H cfg env) p' := by
  have width : (c.nextBlock H cfg env).supply ≤ u128Max := by
    have capped := emission_le cfg c.supply
    have cap := cfg.maxSupply_le
    have held := h.width
    rw [supply_nextBlock H cfg c env h.width]
    omega
  obtain ⟨p', steps, paid⟩ := h.payRewards hH hashed.coinbase
  obtain ⟨_, folding⟩ := paid.folded
  have folded : Folded H (c.finalize H cfg).tree p'.notes p'.notes.length :=
    folding.process (by rw [capacity_circuitMaxTreeDepth]; exact paid.room)
  have nodes := hashed.nodes
  rw [folded.leafList_eq] at nodes
  refine ⟨p', steps, {
    folded := ⟨_, folded⟩
    room := paid.room
    hashed := paid.hashed
    anchors := fun n hn => ?_
    width := width
    spent_eq := paid.spent_eq
    backing_eq := paid.backing_eq }⟩
  rw [Chain.nextBlock, blockHash_openBlock] at hn ⊢
  split at hn
  · next here =>
    -- The block just closed: its header is over all the notes there are.
    rw [if_pos here]
    exact ⟨_, rfl, hashed.header, p'.notes, _, List.prefix_rfl, folded.root_eq_refNode, nodes⟩
  · next other =>
    -- An older hash that was not pruned: some prefix of them.
    rw [if_neg other, prunedHashes_eq hn]
    rw [prunedHashes_eq hn] at hn
    exact paid.anchors n hn

/-! ## Runs -/

/-- **Every operation of the chain is a run of the ledger.** -/
theorem Refines.step (hH : CollisionFree H.hashToFelts Q) (h : Refines H Q c p) {op : Op}
    (admissible : Admissible H Q cfg c op) (effect : Effect H cfg c op c') :
    ∃ p', Relation.ReflTransGen Pool.Step p p' ∧ Refines H Q c' p' := by
  cases effect with
  | free => exact ⟨p, .refl, h⟩
  | fee pos taken =>
    refine ⟨p, .refl, h.frame rfl rfl rfl rfl ?_⟩
    rw [supply_feeTaken h.width pos taken]
    exact h.width
  | shield check burn =>
    obtain ⟨p', step, refines⟩ := h.shielded hH (shieldCheck_ok check) burn admissible
    exact ⟨p', .single step, refines⟩
  | settle check => exact h.settled hH admissible (checkSettlement_ok check)
  | coinbase => exact ⟨p, .refl, h.frame rfl rfl rfl rfl h.width⟩
  | endBlock env => exact h.nextBlock hH admissible

theorem Genesis.refines (h : Genesis H Q c) : ∃ p, Refines H Q c p := by
  have empty : unspent (leafValue H Q) (spentLeaves H Q c.usedNullifiers) [] = 0 := by
    simp [unspent]
  refine ⟨⟨[], spentLeaves H Q c.usedNullifiers, c.poolValue / poolStep,
    empty ▸ Nat.zero_le _⟩, {
    folded := ⟨0, by rw [h.tree_eq]; exact folded_empty⟩
    room := Nat.zero_le _
    hashed := by simp
    anchors := fun n hn => ?_
    width := h.width
    spent_eq := rfl
    backing_eq := rfl }⟩
  obtain ⟨header, hhash, hmem, hroot⟩ := h.anchors n hn
  refine ⟨header, hhash, hmem, [], 0, List.prefix_rfl, ?_,
    fun l i hl => absurd hl (Nat.not_lt_zero l)⟩
  rw [hroot]
  rfl

theorem run_refines (hH : CollisionFree H.hashToFelts Q) (genesis : Genesis H Q c) {ops : List Op}
    (admissible : Along (Chain.step H cfg) (Admissible H Q cfg) c ops) :
    ∃ p, Refines H Q (c.run H cfg ops) p := by
  refine run_invariant (P := fun c => ∃ p, Refines H Q c p) ?_ genesis.refines admissible
  rintro c op c' ⟨p, h⟩ ha effect
  obtain ⟨p', -, refines⟩ := h.step hH ha effect
  exact ⟨p', refines⟩

/-- **The pool is solvent, in every state a run can reach.** The notes in the tree that are not
spent are worth at most what the pool holds, so no settlement of proved slots underflows it: not in
the check, and not where the fee is taken. -/
theorem pool_solvent (hH : CollisionFree H.hashToFelts Q) (genesis : Genesis H Q c) {ops : List Op}
    (admissible : Along (Chain.step H cfg) (Admissible H Q cfg) c ops) :
    unspentValue H Q (c.run H cfg ops) ≤ (c.run H cfg ops).poolValue / poolStep ∧
    ∀ bundle outputs, (∀ segment ∈ bundle.segments, segment.Valid H Q) →
      planSettlement cfg (c.run H cfg ops) bundle outputs ≠ .error .poolUnderflow ∧
      (exec (settle H cfg bundle outputs) (c.run H cfg ops)).1 ≠
        .error (.shielded .poolUnderflow) := by
  obtain ⟨p, refines⟩ := run_refines hH genesis admissible
  refine ⟨refines.unspentValue_le, fun bundle outputs valid => ?_⟩
  have backed : ∀ s, Walked cfg (c.run H cfg ops) bundle.segments s →
      s.feeSteps * poolStep ≤ (c.run H cfg ops).poolValue :=
    fun s walked => refines.fee_backed hH valid walked
  refine ⟨planSettlement_ne backed, ?_⟩
  cases hcheck : checkSettlement H cfg (c.run H cfg ops) bundle outputs with
  | error e =>
    rw [exec_settle_error hcheck]
    intro h
    cases h
    exact checkSettlement_ne backed hcheck
  | ok plan =>
    -- Proved commitments are canonical, so behind the check nothing fails.
    have spends := refines.spends hH valid (checkSettlement_ok hcheck).anchored
    rw [exec_settle hcheck fun slot hslot i => by
      obtain ⟨_, _, commits⟩ := (spends slot hslot).commits i
      rw [commits.eq]
      exact canonical_digestBytes _]
    nofun

/-! ## A run

Fifty steps are shielded, the block is closed, and the sample spend settles in the next one.
-/

namespace Sample

def inner : Hash256 :=
  digestBytes (noteInner sampleSponge (derivePk sampleSponge 0 0) (rhos 0) 0)

def env : Environment := ⟨0, 0, [], true⟩

def ops : List Op :=
  [.shield 0 (50 * poolStep) inner [], .endBlock env, .settle ⟨[segment]⟩ outputsOf]

/-- The chain in the block of the shield, behind it. -/
def shieldedOne : Chain :=
  (genesis (10 ^ 13)).step sampleSponge runtime (.shield 0 (50 * poolStep) inner [])

theorem admissible_shield : Admissible sampleSponge {x | x ∈ hashed} runtime (genesis (10 ^ 13))
    (.shield 0 (50 * poolStep) inner []) := by
  intro d hd
  obtain rfl := digestBytes_injective (bytesToDigest_eq_some.1 hd)
  decide +kernel

theorem blockHashed : BlockHashed sampleSponge {x | x ∈ hashed} runtime shieldedOne env where
  coinbase payload inner hpayload := by
    have none : shieldedOne.pendingCoinbase.isNone = true := by decide +kernel
    rw [hpayload] at none
    cases none
  nodes := by
    have depth : (shieldedOne.finalize sampleSponge runtime).tree.depth = 1 := by decide +kernel
    have leaves : (shieldedOne.finalize sampleSponge runtime).leafList = [digestBytes (leafOf 0)] := by
      decide +kernel
    rw [depth, leaves]
    intro l i hl hi
    obtain rfl : l = 0 := by omega
    obtain rfl : i = 0 := by
      simp at hi
      omega
    decide +kernel
  header := by decide +kernel

theorem valid_segment : segment.Valid sampleSponge {x | x ∈ hashed} := by
  intro slot hslot
  obtain rfl := List.mem_singleton.1 hslot
  exact ⟨spend, holds_spend, rfl, rfl⟩

theorem admissible_ops : Along (Chain.step sampleSponge runtime)
    (Admissible sampleSponge {x | x ∈ hashed} runtime) (genesis (10 ^ 13)) ops :=
  ⟨admissible_shield, blockHashed, by simpa [Admissible] using valid_segment, trivial⟩

theorem genesis_genesis : Genesis sampleSponge {x | x ∈ hashed} (genesis (10 ^ 13)) where
  tree_eq := rfl
  used_eq := rfl
  width := by decide
  anchors _ hn := absurd rfl hn

end Sample

theorem pool_solvent_sample :
    ((Sample.genesis (10 ^ 13)).run sampleSponge runtime Sample.ops).usedNullifiers.card = 2 ∧
      unspentValue sampleSponge {x | x ∈ Sample.hashed}
        ((Sample.genesis (10 ^ 13)).run sampleSponge runtime Sample.ops) ≤ 40 := by
  have solvent := (pool_solvent Sample.collisionFree Sample.genesis_genesis Sample.admissible_ops).1
  have pool : ((Sample.genesis (10 ^ 13)).run sampleSponge runtime Sample.ops).poolValue / poolStep =
      40 := by decide +kernel
  rw [pool] at solvent
  exact ⟨by decide +kernel, solvent⟩

end Qnero
