import Mathlib.Algebra.BigOperators.Group.Finset.Basic
import Mathlib.Data.Finset.Insert
import Mathlib.Order.Interval.Finset.Nat
import Qnero.Dispatch
import Qnero.Machine

/-!
# Cumulative work

Fork choice compares total work, which is kept beside the database: one auxiliary entry per block,
the parent's entry plus the difficulty the block had to beat. The entry is written before the block
is handed to the inner import, whose notifications read it, and removed if that fails; a missing
entry reads as zero.

A hash names its header, so a block tree is given by what the headers say. `BlockTree.totalWork` is
the quantity the entries stand for, and `Booked` says that they do. What can undo it is an attempt
that fails on a block that is already there: the entry that goes is then not the one the attempt
wrote first, but the one the block's children are scored against.
-/

namespace Qnero

open Machine

def u512Max : ℕ := 2 ^ 512 - 1

theorem one_le_u512Max : 1 ≤ u512Max := by
  decide +kernel

/-- What the headers say, and the difficulty the runtime asks of the children of a block. -/
structure BlockTree (α : Type) where
  genesis : α
  parent : α → α
  number : α → ℕ
  getDifficulty : α → ℕ
  number_genesis : number genesis = 0

namespace BlockTree

variable {α : Type} (tree : BlockTree α)

/-- The difficulty a block had to beat. -/
def work (block : α) : ℕ := tree.getDifficulty (tree.parent block)

def genesisWork : ℕ := 1

/-- The work of genesis and of every block after it on the way to `block`. -/
def totalWork (block : α) : ℕ :=
  genesisWork + ∑ k ∈ Finset.range (tree.number block), tree.work (tree.parent^[k] block)

/-- `block` says it follows its parent. -/
def Follows (block : α) : Prop := tree.number block = tree.number (tree.parent block) + 1

instance (block : α) : Decidable (tree.Follows block) := inferInstanceAs (Decidable (_ = _))

variable {tree}

theorem totalWork_genesis : tree.totalWork tree.genesis = genesisWork := by
  rw [totalWork, tree.number_genesis, Finset.sum_range_zero, Nat.add_zero]

theorem Follows.totalWork_eq {block : α} (h : tree.Follows block) :
    tree.totalWork block = tree.totalWork (tree.parent block) + tree.work block := by
  have shift : ∀ k, tree.parent^[k + 1] block = tree.parent^[k] (tree.parent block) :=
    fun k => Function.iterate_succ_apply tree.parent k block
  rw [totalWork, totalWork, h, Finset.sum_range_succ']
  simp only [shift, Function.iterate_zero, id_eq]
  omega

end BlockTree

/-! ## Import -/

/-- The database and the auxiliary store beside it. -/
structure PowBackend (α : Type) where
  blocks : Finset α
  bestHash : α
  achievedWork : α → Option ℕ

inductive ImportResult where
  | imported
  | alreadyInChain
  | knownBad
  | missingState
  | unknownParent
deriving DecidableEq

inductive ConsensusError where
  | refused
  | unknownParent
  | heightMismatch
  | invalidSeal
  | clientImport
deriving DecidableEq

/-- A block handed to the importer, with everything that is decided elsewhere. -/
structure ImportAttempt (α : Type) where
  block : α
  /-- The admission budget, the digest window and the inherents. -/
  admissible : Bool
  /-- The seal, and that the runtime and the auxiliary store answer. -/
  validSeal : Bool
  /-- What the inner importer returns. -/
  inner : Except ConsensusError ImportResult
  /-- After a failure, whether the entry could be deleted. -/
  cleaned : Bool

/-- More work, or the same at a greater height. -/
def isHeavier (candidateWork candidateNumber currentWork currentNumber : ℕ) : Bool :=
  currentWork < candidateWork || (candidateWork == currentWork && currentNumber < candidateNumber)

section

variable {α : Type} [DecidableEq α]

namespace PowBackend

variable (s : PowBackend α) (block : α)

def getChainWork : ℕ := (s.achievedWork block).getD 0

def storeCumulativeAchievedWork (work : ℕ) : PowBackend α :=
  { s with achievedWork := Function.update s.achievedWork block (some work) }

def deleteCumulativeAchievedWork : PowBackend α :=
  { s with achievedWork := Function.update s.achievedWork block none }

/-- What the inner importer commits. -/
def commit (isBest : Bool) : PowBackend α :=
  { s with
    blocks := insert block s.blocks
    bestHash := if isBest then block else s.bestHash }

/-- At startup, where nothing is stored yet. -/
def initializeGenesisAchievedWork (tree : BlockTree α) : PowBackend α :=
  if s.getChainWork tree.genesis ≠ 0 then s
  else s.storeCumulativeAchievedWork tree.genesis BlockTree.genesisWork

end PowBackend

/-- A database with genesis in it. -/
def PowBackend.fresh (tree : BlockTree α) : PowBackend α where
  blocks := {tree.genesis}
  bestHash := tree.genesis
  achievedWork := fun _ => none

/-- The same after startup. -/
def PowBackend.start (tree : BlockTree α) : PowBackend α :=
  (PowBackend.fresh tree).initializeGenesisAchievedWork tree

variable (tree : BlockTree α) (s : PowBackend α) (attempt : ImportAttempt α)

/-- `check_header_position`; the finalized block stays genesis, so every height is above it. -/
def checkHeaderPosition (block : α) : Except ConsensusError Unit := do
  ensure (tree.parent block ∈ s.blocks) .unknownParent
  ensure (tree.Follows block) .heightMismatch

/-- The checks before the work is read, and the difficulty they end in. -/
def verifyPow : Except ConsensusError ℕ := do
  ensure (attempt.admissible = true) .refused
  checkHeaderPosition tree s attempt.block
  ensure (attempt.validSeal = true) .invalidSeal
  pure (tree.work attempt.block)

def importBlock : Except ConsensusError ImportResult × PowBackend α :=
  match verifyPow tree s attempt with
  | .error e => (.error e, s)
  | .ok achievedDifficulty =>
    let block := attempt.block
    let newWork := satAdd u512Max (s.getChainWork (tree.parent block)) achievedDifficulty
    let isBest := isHeavier newWork (tree.number block) (s.getChainWork s.bestHash)
      (tree.number s.bestHash)
    let stored := s.storeCumulativeAchievedWork block newWork
    match attempt.inner with
    | .ok .imported => (.ok .imported, stored.commit block isBest)
    | .ok result => (.ok result, stored)
    | .error e =>
      (.error e, if attempt.cleaned then stored.deleteCumulativeAchievedWork block else stored)

/-! ## The books -/

/-- Every block of the database has its parent there, and an entry with its total work; none has more
than the best one. -/
structure Booked : Prop where
  ancestry : ∀ block ∈ s.blocks, block = tree.genesis ∨
    tree.parent block ∈ s.blocks ∧ tree.Follows block
  entry : ∀ block ∈ s.blocks, s.achievedWork block = some (tree.totalWork block)
  fits : ∀ block ∈ s.blocks, tree.totalWork block ≤ u512Max
  best_mem : s.bestHash ∈ s.blocks
  best : ∀ block ∈ s.blocks, tree.totalWork block ≤ tree.totalWork s.bestHash

/-- The attempt gets as far as the inner importer. -/
structure ImportAttempt.Reaches : Prop where
  admissible : attempt.admissible = true
  parent_mem : tree.parent attempt.block ∈ s.blocks
  follows : tree.Follows attempt.block
  validSeal : attempt.validSeal = true

/-- What the books need of an attempt. -/
structure ImportAttempt.Keeps : Prop where
  /-- No failed import of a block that is there takes its entry away. -/
  retained : attempt.Reaches tree s → attempt.inner.isOk = false → attempt.cleaned = true →
    attempt.block ∉ s.blocks
  /-- The total of a block that comes in fits its entry. -/
  fits : attempt.Reaches tree s → attempt.inner = .ok .imported →
    tree.totalWork attempt.block ≤ u512Max

variable {tree} {s} {attempt}

theorem verifyPow_ok_iff {difficulty : ℕ} : verifyPow tree s attempt = .ok difficulty ↔
    attempt.Reaches tree s ∧ difficulty = tree.work attempt.block := by
  simp only [verifyPow, checkHeaderPosition, bind_ok_iff, ensure_ok_iff]
  constructor
  · rintro ⟨_, admissible, _, ⟨_, parent_mem, follows⟩, _, validSeal, done⟩
    exact ⟨⟨admissible, parent_mem, follows, validSeal⟩, (Except.ok.inj done).symm⟩
  · rintro ⟨⟨admissible, parent_mem, follows, validSeal⟩, rfl⟩
    exact ⟨(), admissible, (), ⟨(), parent_mem, follows⟩, (), validSeal, rfl⟩

theorem importBlock_of_not_reaches (h : ¬ attempt.Reaches tree s) :
    (importBlock tree s attempt).2 = s := by
  unfold importBlock
  split
  · rfl
  · next difficulty verified => exact absurd (verifyPow_ok_iff.1 verified).1 h

namespace Booked

variable {block : α}

omit [DecidableEq α] in
theorem getChainWork (h : Booked tree s) (mem : block ∈ s.blocks) :
    s.getChainWork block = tree.totalWork block := by
  rw [PowBackend.getChainWork, h.entry block mem, Option.getD_some]

omit [DecidableEq α] in
/-- A child is scored from its parent's total. -/
theorem newWork_eq (h : Booked tree s) (mem : tree.parent block ∈ s.blocks)
    (follows : tree.Follows block) (fits : tree.totalWork block ≤ u512Max) :
    satAdd u512Max (s.getChainWork (tree.parent block)) (tree.work block) =
      tree.totalWork block := by
  rw [h.getChainWork mem]
  rw [follows.totalWork_eq] at fits ⊢
  exact satAdd_eq fits

/-- An entry of a block that is not there is nobody's. -/
theorem update (h : Booked tree s) {entry : Option ℕ}
    (same : block ∈ s.blocks → entry = some (tree.totalWork block)) :
    Booked tree { s with achievedWork := Function.update s.achievedWork block entry } where
  ancestry := h.ancestry
  entry other mem := by
    by_cases eq : other = block
    · obtain rfl := eq
      exact (Function.update_self ..).trans (same mem)
    · exact (Function.update_of_ne eq ..).trans (h.entry other mem)
  fits := h.fits
  best_mem := h.best_mem
  best := h.best

/-- A block with its entry written comes in, and becomes the best one if it is heavier. -/
theorem commit (h : Booked tree s) (mem : tree.parent block ∈ s.blocks)
    (follows : tree.Follows block) (fits : tree.totalWork block ≤ u512Max) :
    Booked tree ((s.storeCumulativeAchievedWork block (tree.totalWork block)).commit block
      (isHeavier (tree.totalWork block) (tree.number block) (tree.totalWork s.bestHash)
        (tree.number s.bestHash))) := by
  have stored : Booked tree (s.storeCumulativeAchievedWork block (tree.totalWork block)) :=
    h.update fun _ => rfl
  refine ⟨?_, ?_, ?_, ?_, ?_⟩
  · refine Finset.forall_mem_insert _ _ _ |>.2 ⟨.inr ⟨Finset.mem_insert_of_mem mem, follows⟩, ?_⟩
    intro other old
    rcases h.ancestry other old with genesis | ⟨parent, follows⟩
    · exact .inl genesis
    · exact .inr ⟨Finset.mem_insert_of_mem parent, follows⟩
  · exact Finset.forall_mem_insert _ _ _ |>.2 ⟨Function.update_self .., stored.entry⟩
  · exact Finset.forall_mem_insert _ _ _ |>.2 ⟨fits, h.fits⟩
  · dsimp only [PowBackend.commit, PowBackend.storeCumulativeAchievedWork]
    split
    · exact Finset.mem_insert_self ..
    · exact Finset.mem_insert_of_mem h.best_mem
  · dsimp only [PowBackend.commit, PowBackend.storeCumulativeAchievedWork]
    refine Finset.forall_mem_insert _ _ _ |>.2 ?_
    split
    · next heavier =>
      have : tree.totalWork s.bestHash ≤ tree.totalWork block := by
        simp only [isHeavier, Bool.or_eq_true, decide_eq_true_eq, Bool.and_eq_true,
          beq_iff_eq] at heavier
        omega
      exact ⟨le_rfl, fun other old => (h.best other old).trans this⟩
    · next lighter =>
      have : tree.totalWork block ≤ tree.totalWork s.bestHash := by
        simp only [isHeavier, Bool.or_eq_true, decide_eq_true_eq, not_or] at lighter
        omega
      exact ⟨this, h.best⟩

theorem start : Booked tree (PowBackend.start tree) := by
  have empty : (PowBackend.fresh tree).getChainWork tree.genesis = 0 := rfl
  have total : tree.totalWork tree.genesis = BlockTree.genesisWork := BlockTree.totalWork_genesis
  rw [PowBackend.start, PowBackend.initializeGenesisAchievedWork, if_neg (not_not.2 empty)]
  refine ⟨?_, ?_, ?_, Finset.mem_singleton_self _, ?_⟩
  · exact fun block mem => .inl (Finset.mem_singleton.1 mem)
  · intro block mem
    obtain rfl := Finset.mem_singleton.1 mem
    exact (Function.update_self ..).trans (congrArg some total.symm)
  · intro block mem
    obtain rfl := Finset.mem_singleton.1 mem
    exact total.trans_le one_le_u512Max
  · intro block mem
    obtain rfl := Finset.mem_singleton.1 mem
    exact le_rfl

/-- The books after an attempt that reaches the inner importer, by what that returns. -/
theorem importBlock (h : Booked tree s) (keeps : attempt.Keeps tree s) :
    Booked tree (importBlock tree s attempt).2 := by
  by_cases reaches : attempt.Reaches tree s
  case neg =>
    rw [importBlock_of_not_reaches reaches]
    exact h
  have verified := verifyPow_ok_iff.2 ⟨reaches, rfl⟩
  have scored := h.newWork_eq reaches.parent_mem reaches.follows
  -- An attempt on a block that is there writes the entry it already has.
  have again : attempt.block ∈ s.blocks → some (satAdd u512Max
      (s.getChainWork (tree.parent attempt.block)) (tree.work attempt.block)) =
        some (tree.totalWork attempt.block) :=
    fun mem => congrArg some (scored (h.fits _ mem))
  rw [Qnero.importBlock, verified]
  dsimp only
  split
  · next done =>
    have fits := keeps.fits reaches done
    rw [scored fits, h.getChainWork h.best_mem]
    exact h.commit reaches.parent_mem reaches.follows fits
  · exact h.update again
  · next failed =>
    split
    · next cleaned =>
      have absent := keeps.retained reaches (by rw [failed]; rfl) cleaned
      exact (h.update again).update fun mem => absurd mem absent
    · exact h.update again

/-- Where the condition fails, so do the books. -/
theorem keeps_of_importBlock (after : Booked tree (Qnero.importBlock tree s attempt).2) :
    attempt.Keeps tree s := by
  constructor
  · intro reaches failed cleaned mem
    cases inner : attempt.inner with
    | ok result => simp [inner, Except.isOk, Except.toBool] at failed
    | error e =>
      have entry := after.entry attempt.block
      rw [Qnero.importBlock, verifyPow_ok_iff.2 ⟨reaches, rfl⟩] at entry
      simp only [inner, cleaned, if_true] at entry
      have gone := entry mem
      rw [PowBackend.deleteCumulativeAchievedWork] at gone
      simp at gone
  · intro reaches done
    have fits := after.fits attempt.block
    rw [Qnero.importBlock, verifyPow_ok_iff.2 ⟨reaches, rfl⟩] at fits
    simp only [done] at fits
    exact fits (Finset.mem_insert_self ..)

end Booked

/-- **The books of a run.** From genesis, every state reached is booked as long as every attempt
meets the condition; and from a booked state, an attempt that does not meet it leaves the books
wrong. -/
theorem importBlock_books (tree : BlockTree α) :
    (∀ attempts : List (ImportAttempt α),
      Along (fun s attempt => (importBlock tree s attempt).2) (fun s attempt => attempt.Keeps tree s)
        (PowBackend.start tree) attempts →
      Booked tree (attempts.foldl (fun s attempt => (importBlock tree s attempt).2)
        (PowBackend.start tree))) ∧
    ∀ s (attempt : ImportAttempt α), Booked tree s →
      (Booked tree (importBlock tree s attempt).2 ↔ attempt.Keeps tree s) := by
  constructor
  · intro attempts along
    exact foldl_invariant (fun _ _ booked keeps => booked.importBlock keeps) attempts _ .start along
  · intro s attempt booked
    exact ⟨Booked.keeps_of_importBlock, booked.importBlock⟩

end

namespace Sample

/-- Two blocks on genesis, and one on the first of them, all at difficulty ten. -/
def forkTree : BlockTree ℕ where
  genesis := 0
  parent block := if block = 2 then 1 else 0
  number block := if block = 2 then 2 else if block = 0 then 0 else 1
  getDifficulty _ := 10
  number_genesis := rfl

def attemptOn (block : ℕ) (inner : Except ConsensusError ImportResult) : ImportAttempt ℕ where
  block := block
  admissible := true
  validSeal := true
  inner := inner
  cleaned := true

/-- The first block comes in, and comes again and fails; then its child and its sibling come in. -/
def failedAgain : List (ImportAttempt ℕ) :=
  [attemptOn 1 (.ok .imported), attemptOn 1 (.error .clientImport), attemptOn 2 (.ok .imported),
    attemptOn 3 (.ok .imported)]

theorem keeps_attemptOn {block : ℕ} {result : ImportResult} {s : PowBackend ℕ}
    (fits : forkTree.totalWork block ≤ u512Max) :
    (attemptOn block (.ok result)).Keeps forkTree s where
  retained _ failed := nomatch failed
  fits _ _ := fits

def powRun (attempts : List (ImportAttempt ℕ)) : PowBackend ℕ :=
  attempts.foldl (fun s attempt => (importBlock forkTree s attempt).2) (PowBackend.start forkTree)

end Sample

/-- The first block stays in the database without an entry, its child is scored from zero, and the
best block of the end has less work than the child. -/
theorem importBlock_failed_again :
    1 ∈ (Sample.powRun (Sample.failedAgain.take 2)).blocks ∧
      (Sample.powRun (Sample.failedAgain.take 2)).achievedWork 1 = none ∧
      (Sample.powRun (Sample.failedAgain.take 3)).achievedWork 2 = some 10 ∧
      Sample.forkTree.totalWork 2 = 21 ∧
      2 ∈ (Sample.powRun Sample.failedAgain).blocks ∧
      (Sample.powRun Sample.failedAgain).bestHash = 3 ∧ Sample.forkTree.totalWork 3 = 11 := by
  decide +kernel

/-- The same blocks without the failure. -/
theorem importBlock_books_fork :
    Booked Sample.forkTree (Sample.powRun [Sample.attemptOn 1 (.ok .imported),
      Sample.attemptOn 1 (.ok .alreadyInChain), Sample.attemptOn 2 (.ok .imported),
      Sample.attemptOn 3 (.ok .imported)]) ∧
    (Sample.powRun [Sample.attemptOn 1 (.ok .imported), Sample.attemptOn 1 (.ok .alreadyInChain),
      Sample.attemptOn 2 (.ok .imported), Sample.attemptOn 3 (.ok .imported)]).bestHash = 2 := by
  have fits : ∀ block ∈ [1, 2, 3], Sample.forkTree.totalWork block ≤ u512Max := by decide +kernel
  simp only [List.forall_mem_cons] at fits
  obtain ⟨one, two, three, -⟩ := fits
  refine ⟨(importBlock_books Sample.forkTree).1 _ ?_, by decide +kernel⟩
  exact ⟨Sample.keeps_attemptOn one, Sample.keeps_attemptOn one, Sample.keeps_attemptOn two,
    Sample.keeps_attemptOn three, trivial⟩

end Qnero
