import Qnero.Wallet.Reading

/-!
# Where a sync resumes

A store that has read one branch meets another. The newest of its checkpoints that the other branch
has is where both are still one branch, as far as headers bind (`Branch.Bound`); a sync that succeeds
goes on from there, whether it found a fork or not, and leaves a store that has read the new branch
to its head (`Wallet.Syncs.synced`).
-/

namespace Qnero

open Plonkish

variable {C D : Branch} {W : Wallet} {store after : WalletStore} {height : ℕ}

/-! ## Checkpoints -/

/-- The branch has the block of the checkpoint. -/
def Branch.Has (C : Branch) (checkpoint : SyncCheckpoint) : Bool :=
  checkpoint.blockNumber ≤ C.head ∧ C.hash checkpoint.blockNumber = checkpoint.blockHash

/-- The newest checkpoint the branch has. -/
def Branch.shared (C : Branch) (store : WalletStore) : Option SyncCheckpoint :=
  store.checkpoints.reverse.find? C.Has

/-- The leaf a sync resumes at: the first one behind that checkpoint. -/
def Branch.resumeLeaf (C : Branch) (store : WalletStore) : ℕ :=
  ((C.shared store).map SyncCheckpoint.nextLeaf).getD 0

/-- **A store that has read a branch up to a height.** -/
structure Branch.ReadTo (D : Branch) (height : ℕ) (store : WalletStore) : Prop where
  height_le : height ≤ D.head
  nextLeaf_eq : store.nextLeaf = D.count height
  checkpoints_on : ∀ checkpoint ∈ store.checkpoints, ∃ k ≤ height, checkpoint = D.checkpoint k
  ordered : store.checkpoints.Pairwise fun a b => a.blockNumber < b.blockNumber

/-- A store that has read nothing has read any branch up to its genesis block. -/
theorem Branch.readTo_new (D : Branch) : D.ReadTo 0 .new where
  height_le := Nat.zero_le _
  nextLeaf_eq := D.count_zero.symm
  checkpoints_on _ mem := nomatch mem
  ordered := .nil

variable {checkpoints : List SyncCheckpoint} {gates : Gates} {served : Set Branch}

theorem WalletStore.mem_pushCheckpoint {checkpoint pushed : SyncCheckpoint}
    (mem : checkpoint ∈ pushCheckpoint checkpoints pushed) :
    checkpoint = pushed ∨ checkpoint ∈ checkpoints := by
  rcases List.mem_append.1 (List.mem_of_mem_drop mem) with old | new
  · exact .inr (List.mem_filter.1 old).1
  · exact .inl (List.mem_singleton.1 new)

theorem WalletStore.pushCheckpoint_ordered {pushed : SyncCheckpoint}
    (ordered : checkpoints.Pairwise fun a b => a.blockNumber < b.blockNumber) :
    (pushCheckpoint checkpoints pushed).Pairwise fun a b => a.blockNumber < b.blockNumber := by
  refine List.Pairwise.drop (List.pairwise_append.2 ⟨ordered.filter _, List.pairwise_singleton .., ?_⟩)
  intro old mem new mem'
  rw [List.mem_singleton.1 mem']
  exact of_decide_eq_true (List.mem_filter.1 mem).2

/-- Checkpoints of the branch over checkpoints of the branch. -/
theorem Branch.readTo_pushed {pushed : List SyncCheckpoint}
    (on : ∀ checkpoint ∈ store.checkpoints, ∃ k ≤ C.head, checkpoint = C.checkpoint k)
    (ordered : store.checkpoints.Pairwise fun a b => a.blockNumber < b.blockNumber)
    (new : ∀ checkpoint ∈ pushed, ∃ k ≤ C.head, checkpoint = C.checkpoint k)
    (checkpoints : after.checkpoints = pushed.foldl WalletStore.pushCheckpoint store.checkpoints)
    (nextLeaf : after.nextLeaf = C.count C.head) : C.ReadTo C.head after := by
  have both : (∀ checkpoint ∈ after.checkpoints, ∃ k ≤ C.head, checkpoint = C.checkpoint k) ∧
      after.checkpoints.Pairwise fun a b => a.blockNumber < b.blockNumber := by
    rw [checkpoints]
    generalize store.checkpoints = kept at on ordered
    clear checkpoints
    induction pushed generalizing kept with
    | nil => exact ⟨on, ordered⟩
    | cons next pushed ih =>
      rw [List.forall_mem_cons] at new
      refine ih new.2 _ (fun checkpoint mem => ?_) (WalletStore.pushCheckpoint_ordered ordered)
      rcases WalletStore.mem_pushCheckpoint mem with rfl | old
      · exact new.1
      · exact on checkpoint old
  exact ⟨le_rfl, nextLeaf, both.1, both.2⟩

/-! ## The stance -/

/-- The checkpoints that a node is asked about, newest first: those within its head, up to the first
one it has. -/
def Branch.probed (C : Branch) : List SyncCheckpoint → List SyncCheckpoint
  | [] => []
  | checkpoint :: older =>
    if C.head < checkpoint.blockNumber then C.probed older
    else if C.Has checkpoint then [checkpoint]
    else checkpoint :: C.probed older

theorem Branch.mem_of_mem_probed {checkpoint : SyncCheckpoint}
    (mem : checkpoint ∈ C.probed checkpoints) :
    checkpoint ∈ checkpoints ∧ checkpoint.blockNumber ≤ C.head := by
  induction checkpoints with
  | nil => cases mem
  | cons first older ih =>
    rw [probed] at mem
    split at mem
    · exact ⟨List.mem_cons_of_mem _ (ih mem).1, (ih mem).2⟩
    next within =>
      split at mem
      · obtain rfl := List.mem_singleton.1 mem
        exact ⟨List.mem_cons_self .., Nat.le_of_not_lt within⟩
      · rcases List.mem_cons.1 mem with rfl | mem
        · exact ⟨List.mem_cons_self .., Nat.le_of_not_lt within⟩
        · exact ⟨List.mem_cons_of_mem _ (ih mem).1, (ih mem).2⟩

/-- **The walk of an honest node over checkpoints in order.** A probed checkpoint that differs is a
fork; without one, a checkpoint above the head is a refusal. -/
theorem Branch.walkCheckpoints_eq {hash : Hash256} {last above : ℕ} {forked : Bool}
    (ordered : checkpoints.Pairwise fun a b => b.blockNumber < a.blockNumber) :
    C.node.client.walkCheckpoints ⟨C.head, hash⟩ last above forked checkpoints =
      if forked = true ∨ ∃ checkpoint ∈ C.probed checkpoints, C.Has checkpoint = false then
        .ok (.forked (((checkpoints.find? C.Has).map SyncCheckpoint.blockNumber).getD 0)
          (((checkpoints.find? C.Has).map SyncCheckpoint.nextLeaf).getD 0))
      else if 0 < above ∨ ∃ checkpoint ∈ checkpoints, C.head < checkpoint.blockNumber then
        .error (.behindThisWallet C.head last)
      else .ok .current := by
  induction checkpoints generalizing above forked with
  | nil => simp [ChainClient.walkCheckpoints, probed]
  | cons checkpoint older ih =>
    rw [List.pairwise_cons] at ordered
    rw [ChainClient.walkCheckpoints, probed]
    by_cases above' : C.head < checkpoint.blockNumber
    · have not : C.Has checkpoint = false := by
        rw [Has, decide_eq_false_iff_not]
        omega
      rw [if_pos above', if_pos above', ih ordered.2, List.find?_cons_of_neg (by simp [not])]
      simp [above']
    · have answer : C.node.stanceHash checkpoint.blockNumber =
          some (some (C.hash checkpoint.blockNumber)) := congrArg some (if_pos (by omega))
      rw [if_neg above', if_neg above', Node.client_blockHashAtHeight, answer]
      change (if C.hash checkpoint.blockNumber ≠ checkpoint.blockHash then _ else _) = _
      by_cases same : C.hash checkpoint.blockNumber = checkpoint.blockHash
      · have has : C.Has checkpoint = true := by
          rw [Has, decide_eq_true_iff]
          exact ⟨by omega, same⟩
        have below : ¬ ∃ old ∈ checkpoint :: older, C.head < old.blockNumber := by
          rintro ⟨old, mem, high⟩
          rcases List.mem_cons.1 mem with rfl | mem
          · exact above' high
          · have := ordered.1 old mem
            omega
        have only : ¬ ∃ old ∈ [checkpoint], C.Has old = false := by simp [has]
        rw [if_neg (not_not.2 same), if_pos has, List.find?_cons_of_pos has]
        simp only [below, only, or_false]
        rfl
      · have not : C.Has checkpoint = false := by
          rw [Has, decide_eq_false_iff_not]
          exact fun both => same both.2
        have unhad : ¬ C.Has checkpoint = true := by simp [not]
        rw [if_pos same, if_neg unhad, ih ordered.2, List.find?_cons_of_neg unhad]
        simp [not]

/-- **The stance of an honest node** towards checkpoints in order. -/
theorem Branch.readNodeStance_eq (ordered : store.checkpoints.Pairwise
    fun a b => a.blockNumber < b.blockNumber) :
    readNodeStance C.node ⟨C.head, C.hash C.head⟩ store =
      if ∃ checkpoint ∈ C.probed store.checkpoints.reverse, C.Has checkpoint = false then
        .ok (.forked (((C.shared store).map SyncCheckpoint.blockNumber).getD 0) (C.resumeLeaf store))
      else if ∃ checkpoint ∈ store.checkpoints, C.head < checkpoint.blockNumber then
        .error (.behindThisWallet C.head store.lastSyncedBlock)
      else .ok .current := by
  rw [readNodeStance, ChainClient.readNodeStance, walkCheckpoints_eq (List.pairwise_reverse.2 ordered)]
  simp only [Bool.false_eq_true, false_or, lt_self_iff_false, List.mem_reverse]
  rfl

/-- A store the node is current for has its newest checkpoint on the branch. -/
theorem Branch.shared_of_current (ordered : store.checkpoints.Pairwise
    fun a b => a.blockNumber < b.blockNumber)
    (current : readNodeStance C.node ⟨C.head, C.hash C.head⟩ store = .ok .current) :
    C.shared store = store.newestCheckpoint := by
  rw [C.readNodeStance_eq ordered] at current
  split at current
  · cases current
  next had =>
    split at current
    · cases current
    next below =>
      rw [WalletStore.newestCheckpoint, ← List.head?_reverse, shared]
      simp only [← @List.mem_reverse _ _ store.checkpoints] at below
      cases newest : store.checkpoints.reverse with
      | nil => rfl
      | cons checkpoint older =>
        rw [newest] at had below
        push Not at had below
        have within := Nat.not_lt.2 (below checkpoint (List.mem_cons_self ..))
        have has : C.Has checkpoint = true := by
          by_contra unhad
          refine had checkpoint ?_ (Bool.eq_false_of_not_eq_true unhad)
          rw [probed, if_neg within, if_neg unhad]
          exact List.mem_cons_self ..
        rw [List.find?_cons_of_pos has, List.head?_cons]

/-- What any pass is let through with, by an honest node. -/
theorem Branch.gated_of_passGates {options : SyncOptions}
    (passed : passGates C.node options store = .ok gates) : C.Gated gates := by
  obtain ⟨-, genesis, -, asked, -, counted, -⟩ := passGates_ok_iff.1 passed
  refine ⟨(Option.some.inj genesis).symm, (Option.some.inj asked).symm, ?_⟩
  obtain ⟨_, answered, checked⟩ := (bind_ok_iff ..).1 counted
  obtain rfl := Except.ok.inj answered
  obtain ⟨-, -, same⟩ := (bind_ok_iff ..).1 checked
  exact (Except.ok.inj same).symm

/-- The stance of an ordinary pass is the one that is read. -/
theorem Branch.readNodeStance_of_passGates (passed : passGates C.node ⟨false⟩ store = .ok gates) :
    readNodeStance C.node ⟨C.head, C.hash C.head⟩ store = .ok gates.stance := by
  obtain ⟨-, -, -, asked, walked, -⟩ := passGates_ok_iff.1 passed
  rw [← Option.some.inj asked] at walked
  cases stood : readNodeStance C.node ⟨C.head, C.hash C.head⟩ store with
  | error refusal =>
    rw [stood] at walked
    cases walked
  | ok found =>
    rw [stood] at walked
    exact congrArg Except.ok (Prod.mk.inj (Except.ok.inj walked)).1

/-- What an ordinary pass is let through with. -/
theorem Branch.passGates_ok (ordered : store.checkpoints.Pairwise
    fun a b => a.blockNumber < b.blockNumber) (passed : passGates C.node ⟨false⟩ store = .ok gates) :
    (gates.stance = .current ∧ C.shared store = store.newestCheckpoint) ∨
      gates.stance = .forked (((C.shared store).map SyncCheckpoint.blockNumber).getD 0)
        (C.resumeLeaf store) := by
  have stance := C.readNodeStance_of_passGates passed
  cases is : gates.stance with
  | current =>
    rw [is] at stance
    exact .inl ⟨rfl, C.shared_of_current ordered stance⟩
  | forked atBlock nextLeaf =>
    rw [is, C.readNodeStance_eq ordered] at stance
    split at stance
    · exact .inr (Except.ok.inj stance).symm
    · split at stance <;> cases stance

/-! ## The common part -/

/-- **Where the branches part**: up to the newest shared checkpoint they are one. -/
theorem Branch.exists_shared (bound : Branch.Bound served) (memC : C ∈ served) (memD : D ∈ served)
    (readTo : D.ReadTo height store) :
    ∃ j, j ≤ C.head ∧ j ≤ height ∧ C.Agree D j ∧ C.resumeLeaf store = C.count j ∧
      ((C.shared store).map SyncCheckpoint.blockNumber).getD 0 = j := by
  cases found : C.shared store with
  | none =>
    refine ⟨0, Nat.zero_le _, Nat.zero_le _, ?_, ?_, rfl⟩
    · exact bound.agree C memC D memD 0 (Nat.zero_le _) (Nat.zero_le _)
        (bound.genesis_eq C memC D memD)
    · rw [resumeLeaf, found, C.count_zero]
      rfl
  | some checkpoint =>
    have mem : checkpoint ∈ store.checkpoints :=
      List.mem_reverse.1 (List.mem_of_find?_eq_some found)
    obtain ⟨k, le, rfl⟩ := readTo.checkpoints_on checkpoint mem
    have has : C.Has (D.checkpoint k) = true := List.find?_some found
    obtain ⟨here, same⟩ := of_decide_eq_true has
    have agree := bound.agree C memC D memD k here (le_trans le readTo.height_le) same
    refine ⟨k, here, le, agree, ?_, rfl⟩
    rw [resumeLeaf, found]
    exact (agree.count_eq k le_rfl).symm

theorem Branch.Agree.checkpoint_eq {j k : ℕ} (agree : C.Agree D j) (le : k ≤ j) :
    D.checkpoint k = C.checkpoint k := by
  rw [checkpoint, checkpoint, agree.hash_eq k le, agree.count_eq k le]

/-- In a sequence ordered by a key, the last one has the largest. -/
theorem le_getLast?_of_pairwise {α : Type} {f : α → ℕ} {l : List α}
    (ordered : l.Pairwise fun a b => f a < f b) {a last : α} (mem : a ∈ l)
    (ends : l.getLast? = some last) : f a ≤ f last := by
  obtain ⟨before, rfl⟩ := List.getLast?_eq_some_iff.1 ends
  rcases List.mem_append.1 mem with before | here
  · exact ((List.pairwise_append.1 ordered).2.2 a before last (List.mem_singleton_self _)).le
  · rw [List.mem_singleton.1 here]

theorem Gates.rewound_current (stance : gates.stance = .current) :
    gates.rewound ⟨false⟩ store = store ∧ gates.marks ⟨false⟩ store = false := by
  unfold rewound marks WalletStore.applyStance
  rw [stance]
  exact ⟨rfl, rfl⟩

theorem Gates.rewound_forked {block leaf : ℕ} (stance : gates.stance = .forked block leaf) :
    gates.rewound ⟨false⟩ store = store.rewindTo block leaf ∧ gates.marks ⟨false⟩ store = true := by
  unfold rewound marks WalletStore.applyStance
  rw [stance]
  exact ⟨rfl, rfl⟩

/-- **The store behind the rewind**: its checkpoints are the branch's, and its watermark is where the
sync resumes. -/
structure Branch.Resumes (C : Branch) (store rewound : WalletStore) (marks : Bool) : Prop where
  nextLeaf_eq : rewound.nextLeaf = C.resumeLeaf store
  notes_eq : rewound.notes = store.notes
  pending_eq : rewound.pending = store.pending
  rejected_eq : rewound.rejected = store.rejected
  checkpoints_on : ∀ checkpoint ∈ rewound.checkpoints, ∃ k ≤ C.head, checkpoint = C.checkpoint k
  ordered : rewound.checkpoints.Pairwise fun a b => a.blockNumber < b.blockNumber
  whole : marks = false → C.resumeLeaf store = store.nextLeaf

/-- **Behind the gates the store is on the branch**, at the leaf where it resumes. -/
theorem Branch.resumes (bound : Branch.Bound served) (memC : C ∈ served) (memD : D ∈ served)
    (readTo : D.ReadTo height store) {anchor : ℕ × Hash256}
    (passed : passGates C.node ⟨false⟩ store = .ok gates)
    (anchored : scanAnchor (gates.rewound ⟨false⟩ store) (C.hash 0) = .ok anchor) :
    C.Resumes store (gates.rewound ⟨false⟩ store) (gates.marks ⟨false⟩ store) := by
  obtain ⟨j, j_le, j_le', agree, resume, block⟩ := exists_shared bound memC memD readTo
  -- A checkpoint of the old branch below the common height is one of the new branch.
  have on : ∀ checkpoint ∈ store.checkpoints, checkpoint.blockNumber ≤ j →
      ∃ k ≤ C.head, checkpoint = C.checkpoint k := by
    intro checkpoint mem le
    obtain ⟨k, -, rfl⟩ := readTo.checkpoints_on checkpoint mem
    exact ⟨k, le_trans le j_le, agree.checkpoint_eq le⟩
  obtain ⟨current, newest⟩ | forked := C.passGates_ok readTo.ordered passed
  · -- No fork: the newest checkpoint is on the branch, and so are the older ones.
    obtain ⟨same, unmarked⟩ := @Gates.rewound_current store gates current
    rw [same] at anchored ⊢
    have whole : C.resumeLeaf store = store.nextLeaf := by
      by_cases zero : store.nextLeaf = 0
      · have le := D.count_mono j_le'
        rw [resume, agree.count_eq j le_rfl]
        rw [readTo.nextLeaf_eq] at zero ⊢
        omega
      · rw [scanAnchor, if_neg zero] at anchored
        obtain ⟨checkpoint, found, -⟩ := (bind_ok_iff ..).1 anchored
        obtain ⟨last, ends⟩ := Option.filter_eq_some_iff.1 (okOr_ok_iff.1 found)
        rw [resumeLeaf, newest, last]
        exact of_decide_eq_true ends
    refine ⟨whole.symm, rfl, rfl, rfl, fun checkpoint mem => on checkpoint mem ?_, readTo.ordered,
      fun _ => whole⟩
    obtain ⟨last, ends⟩ := Option.isSome_iff_exists.1
      (List.getLast?_isSome.2 (List.ne_nil_of_mem mem))
    have most := le_getLast?_of_pairwise readTo.ordered mem ends
    have last_eq : C.shared store = some last := newest.trans ends
    rw [last_eq] at block
    exact le_trans most block.le
  · obtain ⟨same, marked⟩ := @Gates.rewound_forked store gates _ _ forked
    rw [same, marked]
    refine ⟨rfl, rfl, rfl, rfl, fun checkpoint mem => ?_, readTo.ordered.filter _,
      fun impossible => ?_⟩
    · obtain ⟨mem, le⟩ := List.mem_filter.1 mem
      exact on checkpoint mem (le_trans (of_decide_eq_true le) block.le)
    · cases impossible

/-- A store on the branch is anchored to it, at the leaf it resumes at. -/
theorem Branch.anchor_eq {rewound : WalletStore} {t : ℕ} {hash : Hash256}
    (on : ∀ checkpoint ∈ rewound.checkpoints, ∃ k ≤ C.head, checkpoint = C.checkpoint k)
    (anchored : scanAnchor rewound (C.hash 0) = .ok (t, hash)) :
    t ≤ C.head ∧ rewound.nextLeaf = C.count t := by
  rw [scanAnchor] at anchored
  by_cases zero : rewound.nextLeaf = 0
  · rw [if_pos zero] at anchored
    cases anchored
    exact ⟨Nat.zero_le _, zero.trans C.count_zero.symm⟩
  · rw [if_neg zero] at anchored
    obtain ⟨checkpoint, found, done⟩ := (bind_ok_iff ..).1 anchored
    obtain ⟨last, ends⟩ := Option.filter_eq_some_iff.1 (okOr_ok_iff.1 found)
    obtain ⟨k, le, rfl⟩ := on checkpoint (List.mem_of_getLast? last)
    obtain ⟨rfl, -⟩ := Prod.mk.inj (Except.ok.inj done)
    exact ⟨le, (of_decide_eq_true ends).symm⟩

/-! ## What a sync does -/

/-- **An ordinary sync with a branch**: the receipts from where it resumes are recorded over the notes
there are, the spent flags set by what the branch has settled, and behind a fork the notes marked
that were not met again. -/
structure Synced (W : Wallet) (C : Branch) (store after base : WalletStore) (receipts : List Receipt)
    (seen : List Digest) (marks : Bool) : Prop where
  receipts_iff : ∀ receipt, receipt ∈ receipts ↔
    C.Offers W receipt ∧ C.resumeLeaf store ≤ receipt.leafIndex
  base_notes : base.notes = store.notes
  base_pending : base.pending = store.pending
  base_rejected : base.rejected = store.rejected
  base_used : base.usedNullifiers = C.settled
  notes_eq : after.notes = (W.take C.entries receipts base).notes.map fun n =>
    StoredNote.orphan marks (C.resumeLeaf store) seen (n.reconcile C.settled C.head .bothWays)
  pending_eq : after.pending = (W.take C.entries receipts base).pending
  rejected_eq : after.rejected = if C.resumeLeaf store < C.count C.head then
      (W.take C.entries receipts base).rejected.filter fun entry =>
        !(W.take C.entries receipts base).hasCommitment entry.commitment
    else (W.take C.entries receipts base).rejected
  seen_iff : marks = true → ∀ c, c ∈ seen ↔
    (W.take C.entries receipts base).hasCommitment c = true ∧
      ∃ receipt ∈ receipts, receipt.commitment = c
  whole : marks = false → C.resumeLeaf store = store.nextLeaf

/-- A pass that read something had an anchor. -/
theorem Wallet.readPass_anchored {rewound : WalletStore} {reads : List ChunkRead} {scan : Scan}
    (gated : C.Gated gates) (read : W.readPass C.node gates rewound = (reads, .ok scan)) :
    ∃ anchor, scanAnchor rewound (C.hash 0) = .ok anchor := by
  rw [readPass, gated.genesis_eq] at read
  cases found : scanAnchor rewound (C.hash 0) with
  | error e =>
    rw [found] at read
    cases (Prod.mk.inj read).2
  | ok anchor => exact ⟨anchor, rfl⟩

/-- **A pass that started on the branch** has read it to its head, and its newest checkpoint is the
head. -/
theorem Wallet.finished_readTo {options : SyncOptions} {used : Finset Hash256}
    {reads : List ChunkRead} {scan : Scan} (gated : C.Gated gates)
    (on : ∀ checkpoint ∈ (gates.rewound options store).checkpoints, ∃ k ≤ C.head, checkpoint = C.checkpoint k)
    (ordered : (gates.rewound options store).checkpoints.Pairwise fun a b => a.blockNumber < b.blockNumber)
    (read : W.readPass C.node gates (gates.rewound options store) = (reads, .ok scan)) :
    C.ReadTo C.head (W.finished gates options store C.node used reads scan).1 ∧
      ∃ pushed, (W.finished gates options store C.node used reads scan).1.checkpoints =
        WalletStore.pushCheckpoint pushed (C.checkpoint C.head) := by
  obtain ⟨⟨t, hash⟩, anchored⟩ := readPass_anchored gated read
  obtain ⟨t_le, start⟩ := Branch.anchor_eq on anchored
  obtain ⟨⟨tops, tops_le, checkpoints⟩, -⟩ := readPass_honest gated anchored t_le start read
  have pushed : (W.finished gates options store C.node used reads scan).1.checkpoints =
      scan.checkpoints.foldl WalletStore.pushCheckpoint (gates.rewound options store).checkpoints := by
    have kept : (W.recorded gates options store C.node used reads).1.checkpoints =
        (gates.rewound options store).checkpoints := by
      rw [recorded, recordReads_store]
      exact take_frame WalletStore.checkpoints fun _ _ _ _ => rfl
    show (WalletStore.finish (W.recorded gates options store C.node used reads).1 _ _ _ _ _).1.checkpoints
      = _
    rw [WalletStore.finish_eq, ← kept]
  constructor
  · refine Branch.readTo_pushed on ordered (fun checkpoint mem => ?_) pushed ?_
    · rw [checkpoints] at mem
      rcases List.mem_append.1 mem with mem | mem
      · obtain ⟨top, inside, rfl⟩ := List.mem_map.1 mem
        exact ⟨top, tops_le top inside, rfl⟩
      · exact ⟨C.head, le_rfl, List.mem_singleton.1 mem⟩
    · show (WalletStore.finish (W.recorded gates options store C.node used reads).1 _ _ _ _ _).1.nextLeaf
        = _
      rw [WalletStore.finish_eq]
      exact gated.count_eq
  · rw [pushed, checkpoints, List.foldl_append]
    exact ⟨_, rfl⟩

/-- **A sync with an honest node**, as what it does to the notes. -/
theorem Wallet.Syncs.synced (bound : Branch.Bound served) (memC : C ∈ served) (memD : D ∈ served)
    (readTo : D.ReadTo height store) (syncs : W.Syncs C store after) :
    C.ReadTo C.head after ∧
      ∃ base receipts seen marks, Synced W C store after base receipts seen marks := by
  obtain ⟨report, ran⟩ := syncs
  obtain ⟨gates, used, reads, scan, passed, answered, read, -, finished⟩ :=
    exec_syncWith_ok_iff.1 ran
  obtain rfl : used = C.settled := (Option.some.inj answered).symm
  have gated := C.gated_of_passGates passed
  obtain ⟨anchor, anchored⟩ := readPass_anchored gated read
  have resumes := Branch.resumes bound memC memD readTo passed anchored
  obtain ⟨t_le, start⟩ := Branch.anchor_eq resumes.checkpoints_on anchored
  obtain ⟨-, receipts⟩ := readPass_honest gated anchored t_le start read
  set base := gates.opened ⟨false⟩ store C.settled with base_def
  set tally := (W.recorded gates ⟨false⟩ store C.node C.settled reads).2 with tally_def
  have recorded : (W.recorded gates ⟨false⟩ store C.node C.settled reads).1 =
      W.take C.entries (receiptsOf reads) base := recordReads_store ..
  have after_eq : after = ((W.take C.entries (receiptsOf reads) base).finish
      (gates.plan (gates.rewound ⟨false⟩ store)) .bothWays (gates.marks ⟨false⟩ store)
      scan.checkpoints tally).1 := by
    rw [← recorded]
    exact (congrArg Prod.fst finished).symm
  rw [WalletStore.finish_eq, take_usedNullifiers] at after_eq
  have head_eq : (gates.plan (gates.rewound ⟨false⟩ store)).head.number = C.head :=
    congrArg ChainHead.number gated.head_eq
  have start_eq : (gates.plan (gates.rewound ⟨false⟩ store)).start = C.resumeLeaf store :=
    resumes.nextLeaf_eq
  rw [head_eq, start_eq] at after_eq
  constructor
  · have done : C.ReadTo C.head (W.finished gates ⟨false⟩ store C.node C.settled reads scan).1 :=
      (finished_readTo gated resumes.checkpoints_on resumes.ordered read).1
    rwa [finished] at done
  · refine ⟨base, receiptsOf reads, tally.seenAgain, gates.marks ⟨false⟩ store, ?_⟩
    refine ⟨?_, resumes.notes_eq, resumes.pending_eq, resumes.rejected_eq, rfl, ?_, ?_, ?_,
      fun marks c => ?_, resumes.whole⟩
    · rw [← resumes.nextLeaf_eq]
      exact receipts
    · rw [after_eq]
      rfl
    · rw [after_eq]
    · rw [after_eq, ← gated.count_eq]
      rfl
    · show c ∈ (W.recordReads C.entries (gates.marks ⟨false⟩ store) reads
        (base, ⟨_, []⟩)).2.seenAgain ↔ _
      rw [marks, mem_seenAgain_recordReads]
      exact or_iff_right List.not_mem_nil

end Qnero
