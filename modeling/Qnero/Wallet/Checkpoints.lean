import Qnero.Wallet.Resume
import Qnero.Wallet.Refused

/-!
# The checkpoints of a store

A store keeps a few of the blocks it has read to, the newest last. They are of one branch, the one it
was last synced with, whatever forks and rescans came before (`Branch.Stamped`); and so what a node
makes of them says how far the node's branch is the store's.
-/

namespace Qnero

open Plonkish

variable {C D : Branch} {W : Wallet} {store after : WalletStore} {height : ℕ}

variable {options : SyncOptions} {served : Set Branch} {node : Node} {gates : Gates}

/-! ## Passes with either option -/

/-- A sync against the branch, with its file written. -/
def Wallet.Passes (W : Wallet) (C : Branch) (options : SyncOptions) (store after : WalletStore) :
    Prop :=
  ∃ report, exec (W.syncWith C.node options true) store = (.ok report, after)

/-- **A wallet that stays open**, sync after sync, ordinary ones and rescans: with one of the branches,
whether the sync succeeds, is refused, or cannot write its file; or refused with any node at all. -/
inductive PassRun (W : Wallet) (served : Set Branch) (start : WalletStore) : WalletStore → Prop where
  | nil : PassRun W served start start
  | pass {store : WalletStore} {C : Branch} (run : PassRun W served start store) (mem : C ∈ served)
      (options : SyncOptions) (saved : Bool) :
      PassRun W served start (exec (W.syncWith C.node options saved) store).2
  | refused {store after : WalletStore} {node : Node} {options : SyncOptions} {e : SyncError}
      (run : PassRun W served start store)
      (stopped : exec (W.syncWith node options true) store = (.error e, after)) :
      PassRun W served start after

/-- **A store whose newest checkpoint is where it has read the branch to.** -/
structure Branch.Stamped (C : Branch) (store : WalletStore) : Prop where
  readTo : C.ReadTo C.head store
  newest : store.newestCheckpoint = some (C.checkpoint C.head)
  few : store.checkpoints.length ≤ maxCheckpoints

theorem WalletStore.length_pushCheckpoint_le (checkpoints : List SyncCheckpoint)
    (pushed : SyncCheckpoint) : (pushCheckpoint checkpoints pushed).length ≤ maxCheckpoints := by
  simp only [pushCheckpoint, List.length_drop]
  omega

theorem WalletStore.getLast?_pushCheckpoint (checkpoints : List SyncCheckpoint)
    (pushed : SyncCheckpoint) : (pushCheckpoint checkpoints pushed).getLast? = some pushed := by
  simp only [pushCheckpoint]
  rw [List.getLast?_drop, if_neg, List.getLast?_concat]
  rw [List.length_append, List.length_singleton, maxCheckpoints]
  omega

/-- The store a rescan starts from has no checkpoint but one of the genesis block. -/
theorem Branch.on_rewindTo_zero (bound : Branch.Bound served)
    (memC : C ∈ served) (memD : D ∈ served) (readTo : D.ReadTo height store) :
    ∀ checkpoint ∈ (store.rewindTo 0 0).checkpoints, ∃ k ≤ C.head, checkpoint = C.checkpoint k := by
  intro checkpoint mem
  obtain ⟨mem, low⟩ := List.mem_filter.1 mem
  obtain ⟨k, -, rfl⟩ := readTo.checkpoints_on checkpoint mem
  obtain rfl : k = 0 := Nat.le_zero.1 (of_decide_eq_true low)
  refine ⟨0, Nat.zero_le _, ?_⟩
  rw [checkpoint, checkpoint, bound.genesis_eq C memC D memD, C.count_zero, D.count_zero]

/-- **A pass that reads to the head** leaves the checkpoints of its branch. -/
theorem Branch.stamped_finished (bound : Branch.Bound served) (memC : C ∈ served)
    (memD : D ∈ served) (readTo : D.ReadTo height store) {used : Finset Hash256} {reads : List ChunkRead} {scan : Scan}
    (passed : passGates C.node options store = .ok gates)
    (read : W.readPass C.node gates (gates.rewound options store) = (reads, .ok scan)) :
    C.Stamped (W.finished gates options store C.node used reads scan).1 := by
  have gated := C.gated_of_passGates passed
  have starts : (∀ checkpoint ∈ (gates.rewound options store).checkpoints,
        ∃ k ≤ C.head, checkpoint = C.checkpoint k) ∧
      (gates.rewound options store).checkpoints.Pairwise
        fun a b => a.blockNumber < b.blockNumber := by
    obtain ⟨rescan⟩ := options
    cases rescan with
    | true => exact ⟨Branch.on_rewindTo_zero bound memC memD readTo, readTo.ordered.filter _⟩
    | false =>
      obtain ⟨anchor, anchored⟩ := Wallet.readPass_anchored gated read
      have resumes := Branch.resumes bound memC memD readTo passed anchored
      exact ⟨resumes.checkpoints_on, resumes.ordered⟩
  have left : C.ReadTo C.head (W.finished gates options store C.node used reads scan).1 ∧
      ∃ pushed, _ = _ := Wallet.finished_readTo gated starts.1 starts.2 read
  obtain ⟨done, pushed, checkpoints⟩ := left
  refine ⟨done, ?_, ?_⟩
  · rw [WalletStore.newestCheckpoint, checkpoints, WalletStore.getLast?_pushCheckpoint]
  · rw [checkpoints]
    exact WalletStore.length_pushCheckpoint_le ..

theorem Wallet.Passes.stamped (bound : Branch.Bound served) (memC : C ∈ served)
    (memD : D ∈ served) (readTo : D.ReadTo height store) (pass : W.Passes C options store after) : C.Stamped after := by
  obtain ⟨report, ran⟩ := pass
  obtain ⟨gates, used, reads, scan, passed, -, read, -, finished⟩ := exec_syncWith_ok_iff.1 ran
  have stamped : C.Stamped (W.finished gates options store C.node used reads scan).1 :=
    Branch.stamped_finished bound memC memD readTo passed read
  rwa [finished] at stamped

/-! ## Refusals

A refused walk has rewound the store, to one of its own checkpoints or to the genesis block, and has
pushed no checkpoint. So the store has read less of the branch it was on, whatever the node said. -/

/-- A fork is at a checkpoint of the store or at the genesis block, by any node's answers. -/
theorem walkCheckpoints_forked {head : ChainHead} {last above atBlock nextLeaf : ℕ}
    {forked : Bool} {checkpoints : List SyncCheckpoint}
    (walked : node.client.walkCheckpoints head last above forked checkpoints =
      .ok (.forked atBlock nextLeaf)) :
    (atBlock = 0 ∧ nextLeaf = 0) ∨ ∃ checkpoint ∈ checkpoints,
      checkpoint.blockNumber = atBlock ∧ checkpoint.nextLeaf = nextLeaf := by
  induction checkpoints generalizing above forked with
  | nil =>
    rw [ChainClient.walkCheckpoints, Node.client_checked] at walked
    split at walked
    · obtain ⟨rfl, rfl⟩ := NodeStance.forked.inj (Except.ok.inj walked)
      exact .inl ⟨rfl, rfl⟩
    · split at walked <;> cases walked
  | cons checkpoint older ih =>
    have further : ∀ {above forked},
        node.client.walkCheckpoints head last above forked older = .ok (.forked atBlock nextLeaf) →
        (atBlock = 0 ∧ nextLeaf = 0) ∨ ∃ found ∈ checkpoint :: older,
          found.blockNumber = atBlock ∧ found.nextLeaf = nextLeaf := fun walked =>
      (ih walked).imp_right (.imp fun _ => .imp_left (List.mem_cons_of_mem _))
    rw [ChainClient.walkCheckpoints] at walked
    split at walked
    · exact further walked
    · simp only [Node.client_checked, bind_ok_iff] at walked
      obtain ⟨_, -, hash, -, walked⟩ := walked
      split at walked
      · exact further walked
      · split at walked
        · obtain ⟨rfl, rfl⟩ := NodeStance.forked.inj (Except.ok.inj walked)
          exact .inr ⟨checkpoint, List.mem_cons_self .., rfl, rfl⟩
        · split at walked <;> cases walked

/-- A rewind to a block of the branch. -/
theorem Branch.ReadTo.rewindTo (readTo : D.ReadTo height store) {k : ℕ} (le : k ≤ height) :
    D.ReadTo k (store.rewindTo k (D.count k)) where
  height_le := le_trans le readTo.height_le
  nextLeaf_eq := rfl
  checkpoints_on checkpoint mem := by
    obtain ⟨mem, low⟩ := List.mem_filter.1 mem
    obtain ⟨j, -, rfl⟩ := readTo.checkpoints_on checkpoint mem
    exact ⟨j, of_decide_eq_true low, rfl⟩
  ordered := readTo.ordered.filter _

theorem Branch.ReadTo.rewound (readTo : D.ReadTo height store) (passed : passGates node options store = .ok gates) :
    ∃ k, D.ReadTo k (gates.rewound options store) := by
  have toGenesis : D.ReadTo 0 (store.rewindTo 0 0) := by
    have read := readTo.rewindTo (Nat.zero_le _)
    rwa [D.count_zero] at read
  unfold Gates.rewound WalletStore.applyStance
  split
  · exact ⟨0, toGenesis⟩
  · obtain ⟨-, -, -, -, walked, -⟩ := passGates_ok_iff.1 passed
    cases stance : gates.stance with
    | current => exact ⟨height, readTo⟩
    | forked atBlock nextLeaf =>
      rw [stance] at walked
      cases stood : readNodeStance node gates.head store with
      | error refusal =>
        rw [stood, stanceOrBypass] at walked
        split at walked <;> cases walked
      | ok found =>
        rw [stood] at walked
        obtain ⟨rfl, -⟩ := Prod.mk.inj (Except.ok.inj walked)
        rcases walkCheckpoints_forked stood with ⟨rfl, rfl⟩ | ⟨checkpoint, mem, rfl, rfl⟩
        · exact ⟨0, toGenesis⟩
        · obtain ⟨k, le, rfl⟩ := readTo.checkpoints_on checkpoint (List.mem_reverse.1 mem)
          exact ⟨k, readTo.rewindTo le⟩

/-- The chunks of a walk move neither the watermark nor the checkpoints. -/
theorem Branch.ReadTo.recorded {used : Finset Hash256} {reads : List ChunkRead}
    (readTo : D.ReadTo height (gates.rewound options store)) :
    D.ReadTo height (W.recorded gates options store node used reads).1 := by
  have nextLeaf : (W.recorded gates options store node used reads).1.nextLeaf =
      (gates.rewound options store).nextLeaf := by
    rw [Wallet.recorded, Wallet.recordReads_store]
    exact W.take_frame WalletStore.nextLeaf (fun _ _ _ _ => rfl)
  have checkpoints : (W.recorded gates options store node used reads).1.checkpoints =
      (gates.rewound options store).checkpoints := by
    rw [Wallet.recorded, Wallet.recordReads_store]
    exact W.take_frame WalletStore.checkpoints (fun _ _ _ _ => rfl)
  exact ⟨readTo.height_le, nextLeaf.trans readTo.nextLeaf_eq, checkpoints ▸ readTo.checkpoints_on,
    checkpoints ▸ readTo.ordered⟩

/-- **A sync that is refused before its end** leaves a store on the branch it was on. -/
theorem Branch.ReadTo.refused (readTo : D.ReadTo height store) {e : SyncError} (stopped : exec (W.syncWith node options true) store = (.error e, after)) :
    ∃ k, D.ReadTo k after := by
  have outcome := W.exec_syncWith node options true store
  rw [stopped] at outcome
  cases outcome with
  | gate _ => exact ⟨height, readTo⟩
  | settledSet passed _ => exact readTo.rewound passed
  | walk passed _ _ =>
    obtain ⟨k, rewound⟩ := readTo.rewound passed
    exact ⟨k, rewound.recorded⟩
  | unsaved _ _ _ failed => cases failed

/-- **However its syncs end, an open wallet has read one of the branches.** -/
theorem PassRun.exists_readTo (bound : Branch.Bound served) (memD : D ∈ served)
    {start : WalletStore} (begins : D.ReadTo height start) (run : PassRun W served start after) :
    ∃ E ∈ served, ∃ height, E.ReadTo height after := by
  induction run with
  | nil => exact ⟨D, memD, height, begins⟩
  | refused run stopped ih =>
    obtain ⟨E, memE, height, readTo⟩ := ih
    exact ⟨E, memE, readTo.refused stopped⟩
  | @pass store C run memC options saved ih =>
    obtain ⟨E, memE, height, readTo⟩ := ih
    have outcome := W.exec_syncWith C.node options saved store
    generalize exec (W.syncWith C.node options saved) store = out at outcome ⊢
    cases outcome with
    | gate _ => exact ⟨E, memE, height, readTo⟩
    | settledSet passed _ => exact ⟨E, memE, readTo.rewound passed⟩
    | walk passed _ _ =>
      obtain ⟨k, rewound⟩ := readTo.rewound passed
      exact ⟨E, memE, k, rewound.recorded⟩
    | unsaved passed _ read _ | done passed _ read _ =>
      exact ⟨C, memC, _, (Branch.stamped_finished bound memC memE readTo passed read).readTo⟩

/-! ## What a node makes of them -/

/-- A node that has the newest checkpoint is on the store's branch. -/
theorem Branch.Stamped.agree_of_current (bound : Branch.Bound served)
    {E : Branch} (memC : C ∈ served) (memE : E ∈ served) (stamped : C.Stamped store)
    (current : readNodeStance E.node ⟨E.head, E.hash E.head⟩ store = .ok .current) :
    C.head ≤ E.head ∧ E.Agree C C.head := by
  have found := (E.shared_of_current stamped.readTo.ordered current).trans stamped.newest
  have has := List.find?_some found
  obtain ⟨le, same⟩ := of_decide_eq_true has
  exact ⟨le, bound.agree E memE C memC C.head le le_rfl same⟩

namespace World

variable {w : World} {info : CallInfo} {served : Set (List MinedBlock)}

/-- **The checkpoints of a store.** Behind a sync that succeeds with a branch of one block tree, after
any run of syncs and rescans with such branches and of refusals, they are blocks of that branch, in
order and few, each with the leaves the branch had at it, and the newest is its head. A node of any branch is then taken for current only if
it has all the store has read; for forked only if it has another block where the store has a
checkpoint, from the newest checkpoint it has on, up to which the leaves are the same; and it is
refused exactly if a checkpoint is above its head and all it was asked about are its own. -/
theorem checkpoint_discipline (binding : w.Binding served) {start : WalletStore}
    (memD : D ∈ w.branches info served) (begins : D.ReadTo height start)
    (run : PassRun W (w.branches info served) start store) {options : SyncOptions}
    (memC : C ∈ w.branches info served) (pass : W.Passes C options store after) :
    (after.checkpoints.Pairwise (fun a b => a.blockNumber < b.blockNumber) ∧
      after.checkpoints.length ≤ 16 ∧
      after.checkpoints.Pairwise (fun a b => a.nextLeaf ≤ b.nextLeaf) ∧
      (∀ checkpoint ∈ after.checkpoints, checkpoint.blockNumber ≤ C.head ∧
        checkpoint.blockHash = C.hash checkpoint.blockNumber ∧
        checkpoint.nextLeaf = C.count checkpoint.blockNumber) ∧
      after.newestCheckpoint = some ⟨C.head, C.hash C.head, after.nextLeaf⟩) ∧
    ∀ E ∈ w.branches info served,
      (readNodeStance E.node ⟨E.head, E.hash E.head⟩ after = .ok .current →
        C.head ≤ E.head ∧ E.Agree C C.head) ∧
      (∀ atBlock nextLeaf,
        readNodeStance E.node ⟨E.head, E.hash E.head⟩ after = .ok (.forked atBlock nextLeaf) →
        (∃ checkpoint ∈ after.checkpoints, checkpoint.blockNumber ≤ E.head ∧
          E.hash checkpoint.blockNumber ≠ checkpoint.blockHash) ∧
        atBlock = ((E.shared after).map SyncCheckpoint.blockNumber).getD 0 ∧
        nextLeaf = ((E.shared after).map SyncCheckpoint.nextLeaf).getD 0 ∧
        nextLeaf ≤ C.count C.head ∧ nextLeaf ≤ E.count E.head ∧
        ∀ i < nextLeaf, E.record i = C.record i) ∧
      ((∃ refusal, readNodeStance E.node ⟨E.head, E.hash E.head⟩ after = .error refusal) ↔
        (∀ checkpoint ∈ E.probed after.checkpoints.reverse,
          E.hash checkpoint.blockNumber = checkpoint.blockHash) ∧
        ∃ checkpoint ∈ after.checkpoints, E.head < checkpoint.blockNumber) := by
  have bound : Branch.Bound (w.branches info served) := bound binding
  obtain ⟨F, memF, height, readTo⟩ := run.exists_readTo bound memD begins
  have stamped : C.Stamped after := pass.stamped bound memC memF readTo
  have ordered := stamped.readTo.ordered
  refine ⟨⟨ordered, stamped.few, ?_, fun checkpoint mem => ?_, ?_⟩, fun E memE => ⟨?_, ?_, ?_⟩⟩
  · refine ordered.imp_of_mem fun {a b} memA memB lt => ?_
    obtain ⟨j, -, rfl⟩ := stamped.readTo.checkpoints_on a memA
    obtain ⟨k, -, rfl⟩ := stamped.readTo.checkpoints_on b memB
    exact C.count_mono (Nat.le_of_lt lt)
  · obtain ⟨k, le, rfl⟩ := stamped.readTo.checkpoints_on checkpoint mem
    exact ⟨le, rfl, rfl⟩
  · rw [stamped.newest, stamped.readTo.nextLeaf_eq]
    rfl
  · exact stamped.agree_of_current bound memC memE
  · intro atBlock nextLeaf forked
    rw [E.readNodeStance_eq ordered] at forked
    split at forked
    next differs =>
      obtain ⟨rfl, rfl⟩ := NodeStance.forked.inj (Except.ok.inj forked)
      obtain ⟨checkpoint, probed, not⟩ := differs
      obtain ⟨mem, le⟩ := E.mem_of_mem_probed probed
      obtain ⟨j, j_le, j_le', agree, resume, -⟩ :=
        Branch.exists_shared bound memE memC stamped.readTo
      have leaves : E.resumeLeaf after = C.count j := resume.trans (agree.count_eq j le_rfl)
      refine ⟨⟨checkpoint, List.mem_reverse.1 mem, le, fun same => ?_⟩, rfl, rfl,
        leaves ▸ C.count_mono j_le', resume ▸ E.count_mono j_le, fun i lt => ?_⟩
      · exact of_decide_eq_false not ⟨le, same⟩
      · exact agree.record_eq i (resume ▸ lt)
    · split at forked <;> cases forked
  · rw [E.readNodeStance_eq ordered]
    -- Of what is probed, to have a checkpoint is to have its hash.
    have unprobed : (∀ checkpoint ∈ E.probed after.checkpoints.reverse,
        E.hash checkpoint.blockNumber = checkpoint.blockHash) ↔
        ¬ ∃ checkpoint ∈ E.probed after.checkpoints.reverse, E.Has checkpoint = false := by
      push Not
      refine forall₂_congr fun checkpoint mem => ?_
      rw [Branch.Has, ne_eq, decide_eq_false_iff_not, not_not]
      exact (and_iff_right (E.mem_of_mem_probed mem).2).symm
    rw [unprobed]
    split
    next differs => simp [differs]
    next same =>
      rw [and_iff_right same]
      split
      next above => simp [above]
      next below => simp [below]

end World

namespace Sample

/-- The small sponge with bytes taken as field elements. -/
def byteSponge : Poseidon2 :=
  { sampleSponge with bytesToFelts := fun bytes => bytes.map fun b => (b.toNat : Felt) }

/-- The chains from one genesis block without leaves. -/
def emptyWorld : World where
  H := byteSponge
  cfg := runtime
  genesis := { genesis 0 with blockHash := fun _ => rawGenesis.toHeader.hash byteSponge }
  genesisHeader := rawGenesis
  stateRoot _ := 0
  extrinsicsRoot _ := none
  leafless := ⟨rfl, fun _ => rfl, fun _ => rfl⟩
  number_eq := rfl
  parent_eq := rfl

/-- A chain of one block, with nothing in it but an item of its digest. -/
def emptyChain (item : List UInt8) : List MinedBlock := [⟨[], [], [item], false⟩]

theorem valid_emptyChain (item : List UInt8) : Valid callInfo (emptyChain item) where
  executes b mem x inside := by
    obtain rfl := List.mem_singleton.1 mem
    cases inside
  performs b mem := by
    obtain rfl := List.mem_singleton.1 mem
    exact .nil
  length_lt := Nat.succ_lt_succ (Nat.succ_pos _)

def fork (item : List UInt8) : Branch := emptyWorld.branch (valid_emptyChain item)

/-- A wallet on these chains. -/
def forkWallet : Wallet := { emptyWallet with H := byteSponge }

def passed (item : List UInt8) (rescan : Bool) (store : WalletStore) :
    Except SyncError SyncReport × WalletStore :=
  exec (forkWallet.syncWith (fork item).node ⟨rescan⟩ true) store

theorem passes_of_isOk {item : List UInt8} {rescan : Bool} {store : WalletStore}
    (ok : (passed item rescan store).1.isOk = true) :
    forkWallet.Passes (fork item) ⟨rescan⟩ store (passed item rescan store).2 := by
  cases ran : (passed item rescan store).1 with
  | error e =>
    rw [ran] at ok
    cases ok
  | ok report => exact ⟨report, Prod.ext ran rfl⟩

def forkItems : List (List UInt8) := [[1], [2]]

/-- Two forks of the genesis block. -/
def forks : Set (List MinedBlock) := {blocks | ∃ item ∈ forkItems, emptyChain item = blocks}

def forkLists : List (List Felt) :=
  forkItems.map fun item => (emptyWorld.headerAt (emptyChain item) 1).toHeader.preimage byteSponge

theorem binding_forks : emptyWorld.Binding forks where
  headers := by
    have lists : CollisionFree byteSponge.hashToFelts {x | x ∈ forkLists} :=
      collisionFree_sampleSponge (by decide +kernel)
    have sub : {x | ∃ blocks ∈ forks, ∃ k, k < blocks.length ∧
        x = (emptyWorld.headerAt blocks (k + 1)).toHeader.preimage byteSponge} ⊆
        {x | x ∈ forkLists} := by
      rintro _ ⟨_, ⟨item, inside, rfl⟩, k, lt, rfl⟩
      obtain rfl : k = 0 := Nat.lt_one_iff.1 lt
      exact List.mem_map.2 ⟨item, inside, rfl⟩
    exact ⟨lists.injOn.mono sub, fun x mem => lists.ne_zero x (sub mem)⟩
  states := by
    rintro _ ⟨item, -, rfl⟩ _ ⟨item', -, rfl⟩ k b b' here here' -
    obtain _ | k := k
    · obtain rfl := Option.some.inj here
      obtain rfl := Option.some.inj here'
      rfl
    · cases here
  bodies := by
    rintro _ ⟨item, -, rfl⟩ _ ⟨item', -, rfl⟩ k b b' here here' -
    obtain _ | k := k
    · obtain rfl := Option.some.inj here
      obtain rfl := Option.some.inj here'
      rfl
    · cases here

end Sample

open Sample in
/-- A sync; a refusal by a node of the other fork that does not answer the settled set, and whose
rewind stays; a sync with that fork; and a rescan of the first. The store is then on the first fork,
and the node of the other is a fork to it. -/
theorem checkpoint_discipline_forked :
    ∃ store after, PassRun forkWallet (emptyWorld.branches callInfo forks) .new store ∧
      store.checkpoints = [(fork [2]).checkpoint 1] ∧
      forkWallet.Passes (fork [1]) ⟨true⟩ store after ∧
      after.checkpoints = [(fork [1]).checkpoint 1] ∧
      readNodeStance (fork [2]).node ⟨1, (fork [2]).hash 1⟩ after = .ok (.forked 0 0) ∧
      after.newestCheckpoint = some ⟨1, (fork [1]).hash 1, after.nextLeaf⟩ ∧
      ∃ checkpoint ∈ after.checkpoints,
        (fork [2]).hash checkpoint.blockNumber ≠ checkpoint.blockHash := by
  let one := (passed [1] false .new).2
  let silent : Node := { (fork [2]).node with usedNullifiers := none }
  let two := (exec (forkWallet.syncWith silent ⟨false⟩ true) one).2
  let three := (passed [2] false two).2
  let four := (passed [1] true three).2
  have served : ∀ item ∈ forkItems, fork item ∈ emptyWorld.branches callInfo forks :=
    fun item mem => ⟨emptyChain item, ⟨item, mem, rfl⟩, valid_emptyChain item, rfl⟩
  have first := (@PassRun.nil forkWallet _ .new).pass (served [1] (by decide)) ⟨false⟩ true
  have failed : (exec (forkWallet.syncWith silent ⟨false⟩ true) one).1.isOk = false := by
    decide +kernel
  obtain ⟨e, stopped⟩ := error_of_isOk failed
  have run := (first.refused stopped).pass (served [2] (by decide)) ⟨false⟩ true
  have last : forkWallet.Passes (fork [1]) ⟨true⟩ three four := passes_of_isOk (by decide +kernel)
  obtain ⟨⟨-, -, -, -, newest⟩, stances⟩ := World.checkpoint_discipline binding_forks
    (served [1] (by decide)) (Branch.readTo_new _) run (served [1] (by decide)) last
  have forked : readNodeStance (fork [2]).node ⟨1, (fork [2]).hash 1⟩ four = .ok (.forked 0 0) := by
    decide +kernel
  obtain ⟨⟨checkpoint, mem, -, differs⟩, -⟩ :=
    (stances (fork [2]) (served [2] (by decide))).2.1 0 0 forked
  exact ⟨three, four, run, by decide +kernel, last, by decide +kernel, forked, newest, checkpoint, mem,
    differs⟩

end Qnero
