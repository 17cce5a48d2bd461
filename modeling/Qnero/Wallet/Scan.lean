import Qnero.Tree.Pinned
import Qnero.Wallet.Paths
import Mathlib.Data.List.TakeWhile

/-!
# What an accepted scan says

`typeChunk` folds the leaves a node dates to each block and compares with the headers. An accepted
chunk splits its records into one run per block (`Runs`): the run folds to the block's root, its
last leaf is typed at the coinbase position and the others as transfers. Cutting a range into
chunks changes nothing but which of two refusals names a stray record (`typeSegments_eq`).

A root does not say more than it commits to. A node hash sorts its children, so what the fold pins
of a block is its leaves up to the order of the children at each node, and it pins them only if none
of the leaves served is itself the value of a node (`Runs.reordered`). `typeChunk_reordered` is a
block whose two leaves come in either order, and with them the coinbase; and one of five leaves that
come as two.
-/

namespace Qnero

open Plonkish Machine QuadTree

variable {H : Poseidon2} {miner : MinerView}

/-! ## One block -/

/-- Is this the kind of a leaf at the coinbase position? -/
def LeafKind.isCoinbase : LeafKind → Bool
  | .transfer => false
  | .coinbase .. => true

/-- What a block of the pass was given, and what it made of it. -/
structure BlockRun where
  records : List LeafRecord
  leaves : List Digest
  typed : List TypedLeaf

/-- A run accepted at `block` over `parent`, on top of the fold `f`. -/
structure Accepted (H : Poseidon2) (miner : MinerView) (f : TreeFrontier)
    (parent block : VerifiedBlock) (run : BlockRun) : Prop where
  linked : block.parentHash = parent.hash
  dated : ∀ record ∈ run.records, record.blockNumber = some block.number
  parsed : List.Forall₂ (fun record leaf => parseLeaf record = .ok leaf) run.records run.leaves
  root_eq : (run.leaves.foldl (TreeFrontier.push H) f).root H = .ok block.zkTreeRoot
  typedAs : List.Forall₂ (TypedAs H miner block.number) (run.records.zip run.leaves) run.typed
  coinbase_last : ∀ i leaf, run.typed[i]? = some leaf →
    (leaf.kind.isCoinbase = true ↔ i + 1 = run.typed.length)

/-- Block by block, from the fold `f` over `parent` to the fold behind the last block. -/
inductive Runs (H : Poseidon2) (miner : MinerView) :
    TreeFrontier → VerifiedBlock → List VerifiedBlock → List BlockRun → TreeFrontier → Prop
  | nil (f parent) : Runs H miner f parent [] [] f
  | cons {f parent block blocks run runs f'}
      (head : Accepted H miner f parent block run)
      (tail : Runs H miner (run.leaves.foldl (TreeFrontier.push H) f) block blocks runs f') :
      Runs H miner f parent (block :: blocks) (run :: runs) f'

variable {typed : List TypedLeaf} {f f' : TreeFrontier} {blocks first second : List VerifiedBlock}
    {parent anchor : VerifiedBlock} {scanned : List LeafRecord} {runs : List BlockRun}

theorem typeRun_coinbase_last {number : ℕ} {label : Bool} {run : List (LeafRecord × Digest)}
    (h : typeRun H miner number label run = .ok typed) (i : ℕ) (leaf : TypedLeaf)
    (at_ : typed[i]? = some leaf) : leaf.kind.isCoinbase = true ↔ i + 1 = typed.length := by
  induction run generalizing typed i with
  | nil =>
    obtain rfl : [] = typed := Except.ok.inj h
    cases at_
  | cons entry run ih =>
    obtain ⟨record, commitment⟩ := entry
    cases run with
    | nil =>
      simp only [typeRun, bind_ok_iff, coinbasePositionKind_ok_iff] at h
      obtain ⟨_, ⟨value, -, -, rfl⟩, ⟨⟩⟩ := h
      cases i with
      | zero =>
        obtain rfl := Option.some.inj at_
        simp [LeafKind.isCoinbase]
      | succ i => cases at_
    | cons next rest =>
      simp only [typeRun, belowTheCoinbaseKind, bind_ok_iff, ensure_ok_iff] at h
      obtain ⟨_, ⟨-, -, ⟨⟩⟩, typed, done, ⟨⟩⟩ := h
      have some_left : typed ≠ [] := by
        rintro rfl
        cases typeRun_typedAs done
      cases i with
      | zero =>
        obtain rfl := Option.some.inj at_
        simpa [LeafKind.isCoinbase] using some_left
      | succ i =>
        rw [ih done i at_, List.length_cons]
        omega

/-- **What a block of the pass has established**: its records come first, and they are accepted. -/
theorem typeBlock_ok {parent block : VerifiedBlock} {scanned rest : List LeafRecord}
    (h : typeBlock H miner f parent block scanned = .ok (f', rest, typed)) :
    ∃ run : BlockRun, Accepted H miner f parent block run ∧ scanned = run.records ++ rest ∧
      f' = run.leaves.foldl (TreeFrontier.push H) f ∧ typed = run.typed := by
  unfold typeBlock at h
  simp only [bind_ok_iff, ensure_ok_iff] at h
  obtain ⟨-, linked, leaves, parsed, root, reach, -, rfl, _, ran, ⟨⟩⟩ := h
  refine ⟨⟨_, leaves, typed⟩, ⟨linked, fun record mem => ?_, mapM_ok_iff.1 parsed, reach,
    typeRun_typedAs ran, typeRun_coinbase_last ran⟩, List.takeWhile_append_dropWhile.symm, rfl, rfl⟩
  simpa using List.mem_takeWhile_imp mem

/-- **An accepted range is a run per block**, and nothing between or before them. -/
theorem typeBlocks_ok {scanned rest : List LeafRecord}
    (h : typeBlocks H miner f parent blocks scanned = .ok (f', rest, typed)) :
    ∃ runs, Runs H miner f parent blocks runs f' ∧
      scanned = runs.flatMap BlockRun.records ++ rest ∧ typed = runs.flatMap BlockRun.typed := by
  induction blocks generalizing f parent scanned typed with
  | nil =>
    obtain ⟨rfl, rfl, rfl⟩ : f = f' ∧ scanned = rest ∧ [] = typed := by
      simpa [typeBlocks] using h
    exact ⟨[], .nil _ _, rfl, rfl⟩
  | cons block blocks ih =>
    simp only [typeBlocks, bind_ok_iff] at h
    obtain ⟨⟨f₁, left, typed₁⟩, first, ⟨f₂, left₂, typed₂⟩, others, ⟨⟩⟩ := h
    obtain ⟨run, accepted, rfl, rfl, rfl⟩ := typeBlock_ok first
    obtain ⟨runs, tail, rfl, rfl⟩ := ih others
    exact ⟨run :: runs, .cons accepted tail, by simp, by simp⟩

theorem typeChunk_ok (h : typeChunk H miner f (anchor :: blocks) scanned = .ok (f', typed)) :
    f.root H = .ok anchor.zkTreeRoot ∧ ∃ runs, Runs H miner f anchor blocks runs f' ∧
      scanned = runs.flatMap BlockRun.records ∧ typed = runs.flatMap BlockRun.typed := by
  simp only [typeChunk, bind_ok_iff, ensure_ok_iff] at h
  obtain ⟨root, reach, -, rfl, ⟨f₁, left, typed₁⟩, done, -, empty, ⟨⟩⟩ := h
  obtain ⟨runs, accepted, split, rfl⟩ := typeBlocks_ok done
  obtain rfl : left = [] := List.isEmpty_iff.1 empty
  rw [List.append_nil] at split
  exact ⟨reach, runs, accepted, split, rfl⟩

/-! ## The fold behind the runs -/

namespace TreeFrontier

theorem count_pushAll {f : TreeFrontier} (le : f.count ≤ u64Max) (leaves : List Digest) :
    (leaves.foldl (TreeFrontier.push H) f).count = min (f.count + leaves.length) u64Max := by
  induction leaves generalizing f with
  | nil => simp [le]
  | cons leaf leaves ih =>
    have next : (f.push H leaf).count = min (f.count + 1) u64Max := rfl
    rw [List.foldl_cons, ih (by rw [next]; exact Nat.min_le_right ..), next, List.length_cons]
    omega

/-- A fold that has a root is not deeper than the pallet's tree. -/
theorem count_le_of_root {f : TreeFrontier} {root : Digest} (h : f.root H = .ok root) :
    f.count ≤ 4 ^ 20 := by
  rw [TreeFrontier.root, bind_ok_iff] at h
  obtain ⟨depth, fits, -⟩ := h
  unfold TreeFrontier.depth at fits
  split at fits
  · omega
  · have found := List.find?_some (okOr_ok_iff.1 fits)
    have mem := List.mem_of_find?_eq_some (okOr_ok_iff.1 fits)
    rw [List.mem_range'_1] at mem
    have le : f.count ≤ 4 ^ depth := of_decide_eq_true found
    exact le_trans le (Nat.pow_le_pow_right (by omega) (by
      have : circuitMaxTreeDepth = 20 := rfl
      omega))

/-- However many leaves are pushed, a root behind them says that all of them were counted. -/
theorem Holds.pushAll_of_root {f : TreeFrontier} {leaves more : List Digest} {root : Digest}
    (h : f.Holds H leaves) (le : f.count ≤ u64Max)
    (reach : (more.foldl (TreeFrontier.push H) f).root H = .ok root) :
    (more.foldl (TreeFrontier.push H) f).Holds H (leaves ++ more) ∧ (leaves ++ more).length ≤ 4 ^ 20 := by
  have bound := count_le_of_root reach
  rw [count_pushAll le] at bound
  have small : f.count + more.length ≤ 4 ^ 20 := by
    have : (4 : ℕ) ^ 20 < u64Max := by decide
    omega
  have length : (leaves ++ more).length ≤ 4 ^ 20 := by
    rwa [List.length_append, ← h.count_eq]
  exact ⟨h.pushAll more (le_trans length (by decide)), length⟩

end TreeFrontier

/-- The leaves of the first `n` runs. -/
def leavesOf (runs : List BlockRun) : List Digest := runs.flatMap BlockRun.leaves

theorem Runs.holds {base : List Digest} (h : Runs H miner f parent blocks runs f')
    (holds : f.Holds H base) (le : base.length ≤ 4 ^ 20) :
    f'.Holds H (base ++ leavesOf runs) ∧ (base ++ leavesOf runs).length ≤ 4 ^ 20 := by
  induction h generalizing base with
  | nil f parent =>
    rw [leavesOf, List.flatMap_nil, List.append_nil]
    exact ⟨holds, le⟩
  | cons head tail ih =>
    have count := holds.count_eq
    obtain ⟨next, small⟩ := holds.pushAll_of_root (by rw [count]; exact le_trans le (by decide))
      head.root_eq
    rw [leavesOf, List.flatMap_cons, ← List.append_assoc]
    exact ih next small

theorem Runs.root_eq (h : Runs H miner f parent blocks runs f')
    (start : f.root H = .ok parent.zkTreeRoot) :
    f'.root H = .ok (blocks.getLastD parent).zkTreeRoot := by
  induction h with
  | nil f parent => exact start
  | @cons f parent block blocks run runs f' head tail ih =>
    rw [List.getLastD_cons]
    exact ih head.root_eq

/-- Every record of a run belongs to one of the blocks. -/
theorem Runs.dated (h : Runs H miner f parent blocks runs f') :
    ∀ record ∈ runs.flatMap BlockRun.records, ∃ b ∈ blocks, record.blockNumber = some b.number := by
  induction h with
  | nil f parent => simp
  | @cons f parent block blocks run runs f' head tail ih =>
    intro record mem
    rw [List.flatMap_cons, List.mem_append] at mem
    rcases mem with here | later
    · exact ⟨block, List.mem_cons_self .., head.dated record here⟩
    · obtain ⟨b, mem, eq⟩ := ih record later
      exact ⟨b, List.mem_cons_of_mem _ mem, eq⟩

/-! ## Cutting a range into chunks -/

/-- Block numbers go up by one. -/
def Ascending (parent : VerifiedBlock) : List VerifiedBlock → Prop
  | [] => True
  | block :: blocks => block.number = parent.number + 1 ∧ Ascending block blocks

theorem ascending_append :
    Ascending parent (first ++ second) ↔
      Ascending parent first ∧ Ascending (first.getLastD parent) second := by
  induction first generalizing parent with
  | nil => simp [Ascending]
  | cons block first ih => rw [List.cons_append, Ascending, Ascending, ih, List.getLastD_cons,
      and_assoc]

theorem Ascending.number_mem (h : Ascending parent blocks) :
    parent.number ≤ (blocks.getLastD parent).number ∧
      ∀ b ∈ blocks, parent.number < b.number ∧ b.number ≤ (blocks.getLastD parent).number := by
  induction blocks generalizing parent with
  | nil => simp
  | cons block blocks ih =>
    obtain ⟨next, rest⟩ := h
    obtain ⟨le, inside⟩ := ih rest
    rw [List.getLastD_cons]
    refine ⟨by omega, fun b mem => ?_⟩
    rcases List.mem_cons.1 mem with rfl | later
    · omega
    · have := inside b later
      omega

/-- The records dated at or below a block. -/
def datedUpTo (top : ℕ) (record : LeafRecord) : Bool := record.blockNumber.any (· ≤ top)

section

variable (H : Poseidon2) (miner : MinerView)

/-- The range chunk by chunk: each chunk gets the records dated up to its top, and the fold of the
chunk before. -/
def typeSegments (f : TreeFrontier) (anchor : VerifiedBlock) :
    List (List VerifiedBlock) → List LeafRecord →
    Except TypingError (TreeFrontier × List TypedLeaf)
  | [], scanned => typeChunk H miner f [anchor] scanned
  | segment :: segments, scanned => do
    let top := segment.getLastD anchor
    let (f, typed) ← typeChunk H miner f (anchor :: segment)
      (scanned.takeWhile (datedUpTo top.number))
    let (f, more) ← typeSegments f top segments (scanned.dropWhile (datedUpTo top.number))
    pure (f, typed ++ more)

end

theorem typeBlocks_append :
    typeBlocks H miner f parent (first ++ second) scanned = (do
      let (f, scanned, typed) ← typeBlocks H miner f parent first scanned
      let (f, scanned, more) ← typeBlocks H miner f (first.getLastD parent) second scanned
      pure (f, scanned, typed ++ more)) := by
  induction first generalizing f parent scanned with
  | nil =>
    change typeBlocks H miner f parent second scanned =
      typeBlocks H miner f parent second scanned >>= fun out => pure (out.1, out.2.1, [] ++ out.2.2)
    cases typeBlocks H miner f parent second scanned <;> rfl
  | cons block first ih =>
    simp only [List.cons_append, typeBlocks, List.getLastD_cons, ih, bind_assoc, pure_bind]
    refine bind_congr fun out => bind_congr fun next => ?_
    cases typeBlocks H miner next.1 (first.getLastD block) second next.2.1 with
    | error e => rfl
    | ok last => exact congrArg (fun l => Except.ok (_, _, l)) (List.append_assoc ..).symm

/-- A prefix cut by a test ends where the list does, if what follows fails the test. -/
theorem takeWhile_dropWhile_append {α : Type} {p : α → Bool} {l more : List α}
    (stop : ∀ x ∈ more.head?, p x = false) : (l ++ more).takeWhile p = l.takeWhile p ∧
      (l ++ more).dropWhile p = l.dropWhile p ++ more := by
  induction l with
  | nil =>
    cases more with
    | nil => exact ⟨rfl, rfl⟩
    | cons x more => simp [stop x rfl]
  | cons x l ih =>
    cases here : p x with
    | true => simp [here, ih.1, ih.2]
    | false => simp [here]

/-- Records behind the ones of a range do not matter to it. -/
theorem typeBlock_frame {parent block : VerifiedBlock} {scanned more : List LeafRecord}
    (later : ∀ record ∈ more.head?, record.blockNumber ≠ some block.number) :
    typeBlock H miner f parent block (scanned ++ more) =
      (typeBlock H miner f parent block scanned).map fun (f, rest, typed) =>
        (f, rest ++ more, typed) := by
  have stop : ∀ record ∈ more.head?, decide (record.blockNumber = some block.number) = false :=
    fun record mem => decide_eq_false (later record mem)
  obtain ⟨take, drop⟩ := takeWhile_dropWhile_append (l := scanned) stop
  simp only [typeBlock, take, drop, map_bind_eq]
  rfl

theorem typeBlocks_frame {scanned more : List LeafRecord}
    (later : ∀ record ∈ more.head?, ∀ b ∈ blocks, record.blockNumber ≠ some b.number) :
    typeBlocks H miner f parent blocks (scanned ++ more) =
      (typeBlocks H miner f parent blocks scanned).map fun (f, rest, typed) =>
        (f, rest ++ more, typed) := by
  induction blocks generalizing f parent scanned with
  | nil => rfl
  | cons block blocks ih =>
    rw [typeBlocks, typeBlock_frame fun record mem => later record mem block
      (List.mem_cons_self ..), typeBlocks]
    cases typeBlock H miner f parent block scanned with
    | error e => rfl
    | ok out =>
      change typeBlocks H miner out.1 block blocks (out.2.1 ++ more) >>= _ =
        Except.map _ (typeBlocks H miner out.1 block blocks out.2.1 >>= _)
      rw [ih fun record mem b hb => later record mem b (List.mem_cons_of_mem _ hb)]
      cases typeBlocks H miner out.1 block blocks out.2.1 <;> rfl

/-- One outcome, up to which refusal names a record that no block of its chunk claims. -/
def SameOutcome (cut whole : Except TypingError (TreeFrontier × List TypedLeaf)) : Prop :=
  cut = whole ∨ cut = .error .strayLeaf ∧ ∃ e, whole = .error e

/-- A range with records left over from before its blocks is refused. -/
theorem typeBlocks_stray {record : LeafRecord}
    (early : ∀ b ∈ blocks, record.blockNumber ≠ some b.number) (f' : TreeFrontier)
    (typed : List TypedLeaf) :
    typeBlocks H miner f parent blocks (record :: scanned) ≠ .ok (f', [], typed) := by
  intro ok
  obtain ⟨runs, accepted, split, -⟩ := typeBlocks_ok ok
  rw [List.append_nil] at split
  obtain ⟨b, mem, dated⟩ := accepted.dated record (split ▸ List.mem_cons_self ..)
  exact early b mem dated

theorem typeChunk_of_root (start : f.root H = .ok anchor.zkTreeRoot) :
    typeChunk H miner f (anchor :: blocks) scanned =
      typeBlocks H miner f anchor blocks scanned >>= fun out =>
        ensure out.2.1.isEmpty .strayLeaf >>= fun _ => pure (out.1, out.2.2) := by
  simp only [typeChunk]
  rw [bind_of_ok start, bind_of_ok (ensure_of rfl)]

/-- A fold that does not reach the anchor is refused, whatever follows. -/
theorem typeChunk_of_not_root (h : f.root H ≠ .ok anchor.zkTreeRoot) :
    ∃ e, ∀ blocks scanned, typeChunk H miner f (anchor :: blocks) scanned = .error e := by
  cases start : f.root H with
  | error e => exact ⟨e, fun blocks scanned => by simp only [typeChunk, start]; rfl⟩
  | ok root =>
    have off : root ≠ anchor.zkTreeRoot := fun eq => h (by rw [start, eq])
    refine ⟨.anchorRoot, fun blocks scanned => ?_⟩
    simp only [typeChunk]
    rw [bind_of_ok start, ensure, if_neg off]
    rfl

/-- **One cut.** -/
theorem typeChunk_cut (ascending : Ascending anchor (first ++ second)) :
    SameOutcome (do
        let (f, typed) ← typeChunk H miner f (anchor :: first)
          (scanned.takeWhile (datedUpTo (first.getLastD anchor).number))
        let (f, more) ← typeChunk H miner f (first.getLastD anchor :: second)
          (scanned.dropWhile (datedUpTo (first.getLastD anchor).number))
        pure (f, typed ++ more))
      (typeChunk H miner f (anchor :: (first ++ second)) scanned) := by
  obtain ⟨low, high⟩ := ascending_append.1 ascending
  generalize topEq : first.getLastD anchor = top at *
  have below := low.number_mem.2
  rw [topEq] at below
  have above := high.number_mem.2
  -- Records behind the cut start with one that is dated above the top, or not at all.
  have later : ∀ record ∈ (scanned.dropWhile (datedUpTo top.number)).head?, ∀ b ∈ first,
      record.blockNumber ≠ some b.number := by
    intro record mem b hb eq
    have fails := List.head?_dropWhile_not (datedUpTo top.number) scanned
    rw [mem] at fails
    have le := (below b hb).2
    simp [datedUpTo, eq, le] at fails
  have whole : typeBlocks H miner f anchor first scanned =
      (typeBlocks H miner f anchor first (scanned.takeWhile (datedUpTo top.number))).map
        fun (f, rest, typed) => (f, rest ++ scanned.dropWhile (datedUpTo top.number), typed) := by
    have split : scanned = scanned.takeWhile (datedUpTo top.number) ++
      scanned.dropWhile (datedUpTo top.number) := List.takeWhile_append_dropWhile.symm
    conv_lhs => rw [split]
    exact typeBlocks_frame later
  have dated : ∀ record ∈ scanned.takeWhile (datedUpTo top.number), ∀ b ∈ second,
      record.blockNumber ≠ some b.number := by
    intro record mem b hb eq
    have holds := List.mem_takeWhile_imp mem
    have lt := (above b hb).1
    simp only [datedUpTo, eq, Option.any_some, decide_eq_true_eq] at holds
    omega
  generalize scanned.takeWhile (datedUpTo top.number) = early at *
  generalize scanned.dropWhile (datedUpTo top.number) = late at *
  by_cases start : f.root H = .ok anchor.zkTreeRoot
  swap
  · obtain ⟨e, refused⟩ : ∃ e, ∀ blocks scanned,
        typeChunk H miner f (anchor :: blocks) scanned = .error e := typeChunk_of_not_root start
    rw [refused, refused]
    exact .inl rfl
  rw [typeChunk_of_root start, typeChunk_of_root start, typeBlocks_append, whole, topEq]
  cases done : typeBlocks H miner f anchor first early with
  | error e => exact .inl rfl
  | ok out =>
    obtain ⟨f₁, rest, typed⟩ := out
    obtain ⟨runs, accepted, split, -⟩ := typeBlocks_ok done
    have reach := accepted.root_eq start
    rw [topEq] at reach
    cases rest with
    | nil =>
      left
      change typeChunk H miner f₁ (top :: second) late >>= _ =
        (typeBlocks H miner f₁ top second late >>= fun out => _) >>= _
      rw [typeChunk_of_root reach]
      cases typeBlocks H miner f₁ top second late with
      | error e => rfl
      | ok out =>
        change (ensure out.2.1.isEmpty TypingError.strayLeaf >>= _) >>= _ =
          ensure out.2.1.isEmpty TypingError.strayLeaf >>= _
        cases out.2.1.isEmpty <;> rfl
    | cons record rest =>
      -- The whole pass carries the record along, and no later block claims it.
      refine .inr ⟨rfl, ?_⟩
      have stray := dated record (split ▸ List.mem_append_right _ (List.mem_cons_self ..))
      change ∃ e, (typeBlocks H miner f₁ top second (record :: rest ++ late) >>= fun out =>
        (pure (out.1, out.2.1, typed ++ out.2.2) : Except TypingError _)) >>= _ = .error e
      cases ended : typeBlocks H miner f₁ top second (record :: rest ++ late) with
      | error e => exact ⟨e, rfl⟩
      | ok out =>
        obtain ⟨f₂, left, more⟩ := out
        cases left with
        | nil => exact absurd ended (typeBlocks_stray stray f₂ more)
        | cons _ _ => exact ⟨.strayLeaf, rfl⟩

/-- **Chunks change nothing**: however a range of consecutive blocks is cut, typing it chunk by
chunk accepts what typing it at once accepts, with the same leaves and the same fold, and refuses
what that refuses. -/
theorem typeSegments_eq {segments : List (List VerifiedBlock)}
    (ascending : Ascending anchor segments.flatten) :
    SameOutcome (typeSegments H miner f anchor segments scanned)
      (typeChunk H miner f (anchor :: segments.flatten) scanned) := by
  induction segments generalizing f anchor scanned with
  | nil => exact .inl rfl
  | cons segment segments ih =>
    rw [List.flatten_cons] at ascending ⊢
    have cut : SameOutcome _ (typeChunk H miner f (anchor :: (segment ++ segments.flatten)) scanned) :=
      typeChunk_cut ascending
    rw [typeSegments]
    cases first : typeChunk H miner f (anchor :: segment)
        (scanned.takeWhile (datedUpTo (segment.getLastD anchor).number)) with
    | error e =>
      rw [first] at cut
      exact cut
    | ok out =>
      rw [first] at cut
      change SameOutcome (typeChunk H miner out.1 (segment.getLastD anchor :: segments.flatten)
        (scanned.dropWhile (datedUpTo (segment.getLastD anchor).number)) >>= _) _ at cut
      change SameOutcome (typeSegments H miner out.1 (segment.getLastD anchor) segments
        (scanned.dropWhile (datedUpTo (segment.getLastD anchor).number)) >>= _) _
      rcases ih (ascending_append.1 ascending).2 with same | ⟨stray, e, refused⟩
      · rw [same]
        exact cut
      · rw [stray]
        rw [refused] at cut
        refine .inr ⟨rfl, ?_⟩
        rcases cut with same | ⟨-, refused⟩
        · exact ⟨e, same.symm⟩
        · exact refused

/-! ## What the roots pin -/

/-- The list a node over these children hashes is in `Q`. -/
def NodeIn (Q : Set (List Felt)) (children : Fin 4 → Digest) : Prop :=
  (sortChildren children).flatMap felts ∈ Q

theorem pins_of_collisionFree {Q : Set (List Felt)} (hH : CollisionFree H.hashToFelts Q) :
    Pins 0 (Merkle.hashNode H) (NodeIn Q) where
  perm a b ha hb eq := by
    have sorted : sortChildren a = sortChildren b := flatMap_felts_injective (hH.inj ha hb eq)
    have permA : (sortChildren a).Perm (List.ofFn a) := List.perm_insertionSort _ _
    have permB : (sortChildren b).Perm (List.ofFn b) := List.perm_insertionSort _ _
    exact permA.symm.trans (sorted ▸ permB)
  ne_zero a ha := hH.ne_zero _ ha

/-- The leaves of block after block, on top of `base`, fold to the roots in the headers. -/
def FoldsTo (H : Poseidon2) (base : List Digest) :
    List VerifiedBlock → List (List Digest) → Prop
  | [], [] => True
  | block :: blocks, new :: rest =>
    (∃ depth, IsLeast {d | (base ++ new).length ≤ capacity d} depth ∧
      block.zkTreeRoot = subtree 0 (Merkle.hashNode H) (base ++ new) depth 0) ∧
    FoldsTo H (base ++ new) blocks rest
  | _, _ => False

/-- Block after block, the nodes of the tree hash lists in `Q`, and no leaf of it is a pad or the
value of such a node. -/
def FreshFolds (H : Poseidon2) (Q : Set (List Felt)) (base : List Digest) :
    List (List Digest) → Prop
  | [] => True
  | new :: rest =>
    (∀ depth, IsLeast {d | (base ++ new).length ≤ capacity d} depth →
      Fresh 0 (Merkle.hashNode H) (NodeIn Q) depth (base ++ new)) ∧
    FreshFolds H Q (base ++ new) rest

/-- Block after block the same leaves, and the tree with them the same up to the order of the children
at each node. -/
def ReorderedFolds (served base : List Digest) : List (List Digest) → List (List Digest) → Prop
  | [], [] => True
  | own :: runs, new :: rest =>
    (own.Perm new ∧ ∀ depth, IsLeast {d | (served ++ own).length ≤ capacity d} depth →
      Reordered (served ++ own) (base ++ new) depth 0 0) ∧
    ReorderedFolds (served ++ own) (base ++ new) runs rest
  | _, _ => False

/-- **Every block's leaves are the chain's, where a node cannot tell them apart.** `base` and `truth`
are the chain's; the served leaves below may already be a permutation of them. -/
theorem Runs.reordered {Q : Set (List Felt)} (hH : CollisionFree H.hashToFelts Q)
    (h : Runs H miner f parent blocks runs f') {served base : List Digest}
    {truth : List (List Digest)} (holds : f.Holds H served) (le : served.length ≤ 4 ^ 20)
    (same : served.Perm base) (chain : FoldsTo H base blocks truth)
    (freshServed : FreshFolds H Q served (runs.map BlockRun.leaves))
    (freshChain : FreshFolds H Q base truth) :
    ReorderedFolds served base (runs.map BlockRun.leaves) truth := by
  induction h generalizing served base truth with
  | nil f parent =>
    cases truth with
    | nil => exact trivial
    | cons new rest => exact chain.elim
  | @cons f parent block blocks run runs f' head tail ih =>
    cases truth with
    | nil => exact chain.elim
    | cons new rest =>
      obtain ⟨⟨depth, least, root⟩, chain⟩ := chain
      obtain ⟨fresh, freshServed⟩ := freshServed
      obtain ⟨fresh', freshChain⟩ := freshChain
      have count := holds.count_eq
      obtain ⟨next, small⟩ := holds.pushAll_of_root
        (by rw [count]; exact le_trans le (by decide)) head.root_eq
      have pinned : ∀ depth', IsLeast {d | (served ++ run.leaves).length ≤ capacity d} depth' →
          Reordered (served ++ run.leaves) (base ++ new) depth' 0 0 ∧
            (served ++ run.leaves).Perm (base ++ new) := by
        intro depth' least'
        have reach := next.root_eq least' (leastDepth_le small least')
        have roots : subtree 0 (Merkle.hashNode H) (served ++ run.leaves) depth' 0 =
            subtree 0 (Merkle.hashNode H) (base ++ new) depth 0 := by
          rw [← root]
          exact Except.ok.inj (reach.symm.trans head.root_eq)
        exact reordered_of_root_eq (pins_of_collisionFree hH) (fresh _ least') (fresh' _ least)
          (le_trans least'.1 (capacity_le _)) (le_trans least.1 (capacity_le _)) roots
      obtain ⟨depth', least'⟩ : ∃ d, IsLeast {d | (served ++ run.leaves).length ≤ capacity d} d :=
        ⟨_, growDepth_least small (Nat.zero_le circuitMaxTreeDepth)
          (Nat.zero_add circuitMaxTreeDepth).ge fun _ lt => absurd lt (Nat.not_lt_zero _)⟩
      have perm := (pinned depth' least').2
      -- The leaves below agree already, so the block's own do.
      have own : run.leaves.Perm new :=
        (List.perm_append_left_iff base).1 ((same.symm.append_right _).trans perm)
      exact ⟨⟨own, fun depth least => (pinned depth least).1⟩,
        ih next small perm chain freshServed freshChain⟩

/-- What an accepted chunk has established about its records. -/
structure ScanSound (H : Poseidon2) (miner : MinerView) (f : TreeFrontier) (base : List Digest)
    (anchor : VerifiedBlock) (blocks : List VerifiedBlock) (scanned : List LeafRecord)
    (f' : TreeFrontier) (typed : List TypedLeaf) (runs : List BlockRun) : Prop where
  anchored : f.root H = .ok anchor.zkTreeRoot
  accepted : Runs H miner f anchor blocks runs f'
  records_eq : scanned = runs.flatMap BlockRun.records
  typed_eq : typed = runs.flatMap BlockRun.typed
  holds : f'.Holds H (base ++ leavesOf runs)
  pinned : ∀ Q, CollisionFree H.hashToFelts Q → ∀ truth, FoldsTo H base blocks truth →
    FreshFolds H Q base (runs.map BlockRun.leaves) → FreshFolds H Q base truth →
    ReorderedFolds base base (runs.map BlockRun.leaves) truth

/-- **Scan typing.** From the fold of the leaves below, an accepted chunk is one run of records per
block, folded to that block's root and typed with the coinbase last, and it has the chain's leaves
in every block, up to the order of the children at each node; and however the range is cut into
chunks, the outcome is the same up to which refusal names a stray record. -/
theorem typeChunk_sound {f : TreeFrontier} {base : List Digest} {anchor : VerifiedBlock}
    {blocks : List VerifiedBlock} {scanned : List LeafRecord} (holds : f.Holds H base)
    (ascending : Ascending anchor blocks) :
    (∀ f' typed, typeChunk H miner f (anchor :: blocks) scanned = .ok (f', typed) →
      ∃ runs, ScanSound H miner f base anchor blocks scanned f' typed runs) ∧
    (∀ segments : List (List VerifiedBlock), segments.flatten = blocks →
      SameOutcome (typeSegments H miner f anchor segments scanned)
        (typeChunk H miner f (anchor :: blocks) scanned)) := by
  refine ⟨fun f' typed ok => ?_, fun segments flat => ?_⟩
  · obtain ⟨anchored, runs, accepted, records, leaves⟩ := typeChunk_ok ok
    have le : base.length ≤ 4 ^ 20 := holds.count_eq ▸ TreeFrontier.count_le_of_root anchored
    exact ⟨runs, anchored, accepted, records, leaves, (accepted.holds holds le).1,
      fun Q hH truth chain fresh fresh' => accepted.reordered hH holds le (.refl _) chain fresh fresh'⟩
  · subst flat
    exact typeSegments_eq ascending

/-! ## A block in either order -/

namespace Sample

def scanMiner : MinerView := ⟨⟨0, 0⟩, 0⟩

def leafA : Digest := ![1, 0, 0, 0]

def leafB : Digest := ![1, 1, 0, 0]

def scanAnchor : VerifiedBlock := ⟨0, 0, 0, 0, 0, none⟩

/-- A block of two leaves above an empty tree. -/
def scanBlock : VerifiedBlock :=
  ⟨1, 0, 0, 0, Merkle.hashNode sampleSponge ![leafA, leafB, 0, 0], none⟩

/-- Leaves dated to it, numbered from `start`, with a coinbase value beside the last. -/
def recordsFrom (start : ℕ) (leaves : List Digest) : List LeafRecord :=
  leaves.mapIdx fun i leaf => ⟨start + i, some (digestBytes leaf), some 1,
    if i + 1 = leaves.length then some 5 else none⟩

def served (first second : Digest) : List LeafRecord := recordsFrom 0 [first, second]

/-- A typed leaf with its commitment as a list, to be compared by evaluation. -/
def shown (leaf : TypedLeaf) : ℕ × List Felt × LeafKind :=
  (leaf.index, felts leaf.commitment, leaf.kind)

/-- What a chunk of one block over the empty tree is typed to. -/
def typedOver (block : VerifiedBlock) (scanned : List LeafRecord) :
    Except TypingError (List (ℕ × List Felt × LeafKind)) :=
  (typeChunk sampleSponge scanMiner .new [scanAnchor, block] scanned).map fun out => out.2.map shown

/-- The one node list of the block. -/
def scanNode : List Felt := (sortChildren ![leafA, leafB, 0, 0]).flatMap felts

def five : List Digest := [![2, 0, 0, 0], ![3, 0, 0, 0], ![4, 0, 0, 0], ![5, 0, 0, 0], ![6, 0, 0, 0]]

/-- The children of the two nodes over five leaves, and of the root. -/
def fiveKids : List (Fin 4 → Digest) :=
  let first := fun j : Fin 4 => five.getD j 0
  let second := ![five.getD 4 0, 0, 0, 0]
  [first, second, ![Merkle.hashNode sampleSponge first, Merkle.hashNode sampleSponge second, 0, 0]]

def fiveNodes : List Digest := fiveKids.map (Merkle.hashNode sampleSponge)

/-- A block of five leaves above an empty tree. -/
def fiveBlock : VerifiedBlock := ⟨1, 0, 0, 0, fiveNodes.getD 2 0, none⟩

/-- A block of one leaf, and above it the block that makes two of it. -/
def oneByOne : List VerifiedBlock :=
  [⟨1, 0, 0, 0, Merkle.hashNode sampleSponge ![leafA, 0, 0, 0], none⟩, { scanBlock with number := 2 }]

/-- Their leaves, with a record in between that is dated below them. -/
def strayBetween : List LeafRecord :=
  [⟨0, some (digestBytes leafA), some 1, some 5⟩, ⟨9, some (digestBytes leafB), some 0, none⟩,
    ⟨1, some (digestBytes leafB), some 2, some 5⟩]

theorem kids_pair (x y : Digest) :
    kids 0 (Merkle.hashNode sampleSponge) [x, y] 0 0 = ![x, y, 0, 0] := by
  funext j
  match j with
  | 0 => rfl
  | 1 => rfl
  | 2 => rfl
  | 3 => rfl

/-- In either order the two leaves make a fresh tree. -/
theorem fresh_pair {pair : List Digest} (perm : pair.Perm [leafA, leafB]) {depth : ℕ}
    (least : IsLeast {d | pair.length ≤ capacity d} depth) :
    Fresh 0 (Merkle.hashNode sampleSponge) (NodeIn {x | x ∈ [scanNode]}) depth pair := by
  have two : pair.length = 2 := perm.length_eq
  have one : depth ≤ 1 := least.2 (show pair.length ≤ capacity 1 by rw [two]; decide)
  refine ⟨fun level index lt covers => ?_, fun x mem => ?_, fun x mem c inside => ?_⟩
  · obtain rfl : level = 0 := by omega
    obtain rfl : index = 0 := by omega
    match pair, two with
    | [x, y], _ =>
      have same : (List.ofFn ![x, y, 0, 0]).Perm (List.ofFn ![leafA, leafB, 0, 0]) :=
        perm.append_right [0, 0]
      rw [kids_pair, NodeIn, sortChildren_perm same]
      exact List.mem_singleton.2 rfl
  · rcases List.mem_pair.1 (perm.mem_iff.1 mem) with rfl | rfl <;> simp [leafA, leafB]
  · have node : Merkle.hashNode sampleSponge c = sampleSponge.hashToFelts scanNode :=
      congrArg sampleSponge.hashToFelts (List.mem_singleton.1 inside)
    rw [node]
    rcases List.mem_pair.1 (perm.mem_iff.1 mem) with rfl | rfl <;> decide +kernel

end Sample

section

open Sample

/-- What a node hash without collisions does not pin. Two leaves are accepted in either order, and the
one typed at the coinbase position is then the other one; their numbers are taken as they are served;
and two nodes are accepted as leaves in place of the five leaves under them, where a swap of leaves
across the two nodes is refused. Nor is the refusal the same however a range is cut: a record that
belongs to no block is named where a chunk ends, or else the next block misses its leaf first. -/
theorem typeChunk_reordered :
    CollisionFree sampleSponge.hashToFelts
      {x | x ∈ scanNode :: fiveKids.map fun c => (sortChildren c).flatMap felts} ∧
    (typedOver scanBlock (served leafA leafB) =
        .ok [(0, felts leafA, .transfer), (1, felts leafB, .coinbase false 5 false)] ∧
      typedOver scanBlock (served leafB leafA) =
        .ok [(0, felts leafB, .transfer), (1, felts leafA, .coinbase false 5 false)]) ∧
    typedOver scanBlock (recordsFrom 7 [leafA, leafB]) =
      .ok [(7, felts leafA, .transfer), (8, felts leafB, .coinbase false 5 false)] ∧
    ((typedOver fiveBlock (recordsFrom 0 five)).map List.length = .ok 5 ∧
      (typedOver fiveBlock (recordsFrom 0 (fiveNodes.take 2))).map List.length = .ok 2 ∧
      typedOver fiveBlock (recordsFrom 0 five.reverse) = .error .blockRoot) ∧
    (typeSegments sampleSponge scanMiner .new scanAnchor (oneByOne.map ([·])) strayBetween).map
        (fun out => out.2.map shown) = .error .strayLeaf ∧
      (typeChunk sampleSponge scanMiner .new (scanAnchor :: oneByOne) strayBetween).map
        (fun out => out.2.map shown) = .error .blockRoot := by
  refine ⟨collisionFree_sampleSponge (by decide +kernel), ⟨?_, ?_⟩, ?_, ⟨?_, ?_, ?_⟩, ?_, ?_⟩ <;>
    decide +kernel

/-- The block above, served in the other order: one run, and its leaves are the chain's. -/
theorem typeChunk_sound_pair : TreeFrontier.new.Holds sampleSponge [] ∧
    Ascending scanAnchor [scanBlock] ∧ FoldsTo sampleSponge [] [scanBlock] [[leafA, leafB]] ∧
    ∃ f' typed runs, typeChunk sampleSponge scanMiner .new [scanAnchor, scanBlock]
        (served leafB leafA) = .ok (f', typed) ∧
      ScanSound sampleSponge scanMiner .new [] scanAnchor [scanBlock] (served leafB leafA) f' typed
        runs ∧
      ReorderedFolds [] [] (runs.map BlockRun.leaves) [[leafA, leafB]] := by
  have accepted : ∃ f' typed, typeChunk sampleSponge scanMiner .new [scanAnchor, scanBlock]
      (served leafB leafA) = .ok (f', typed) := by
    cases result : typeChunk sampleSponge scanMiner .new [scanAnchor, scanBlock]
        (served leafB leafA) with
    | ok out => exact ⟨out.1, out.2, rfl⟩
    | error e =>
      have ok : (typeChunk sampleSponge scanMiner .new [scanAnchor, scanBlock]
        (served leafB leafA)).isOk = true := by decide +kernel
      rw [result] at ok
      cases ok
  obtain ⟨f', typed, ok⟩ := accepted
  have ascending : Ascending scanAnchor [scanBlock] := ⟨rfl, trivial⟩
  obtain ⟨runs, sound⟩ := (typeChunk_sound TreeFrontier.holds_new ascending).1 f' typed ok
  have least : IsLeast {d | [leafA, leafB].length ≤ capacity d} 1 :=
    ⟨by decide, fun d fits => Nat.one_le_iff_ne_zero.2 (by rintro rfl; exact absurd fits (by decide))⟩
  have chain : FoldsTo sampleSponge [] [scanBlock] [[leafA, leafB]] := by
    refine ⟨⟨1, least, ?_⟩, trivial⟩
    exact ((subtree_succ (by decide)).trans
      (congrArg (Merkle.hashNode sampleSponge) (kids_pair leafA leafB))).symm
  refine ⟨TreeFrontier.holds_new, ascending, chain, f', typed, runs, ok, sound, ?_⟩
  refine sound.pinned {x | x ∈ [scanNode]} (collisionFree_sampleSponge (by simp)) _ chain ?_
    ⟨fun depth least => fresh_pair (.refl _) least, trivial⟩
  -- The run holds the two records that were served, so its leaves are theirs.
  obtain ⟨_, accepted, records, _, _, _⟩ := sound
  cases accepted with
  | @cons _ _ _ _ run _ _ head tail =>
    cases tail
    have two : run.records = served leafB leafA := by simpa using records.symm
    have parsed := head.parsed
    rw [two] at parsed
    have leaves : run.leaves = [leafB, leafA] := by
      have all : List.Forall₂ (fun record leaf => parseLeaf record = .ok leaf)
          (served leafB leafA) [leafB, leafA] :=
        .cons (parseLeaf_ok_iff.2 ⟨rfl, by simp [leafB]⟩)
          (.cons (parseLeaf_ok_iff.2 ⟨rfl, by simp [leafA]⟩) .nil)
      exact Except.ok.inj ((mapM_ok_iff.2 parsed).symm.trans (mapM_ok_iff.2 all))
    refine ⟨fun depth least => ?_, trivial⟩
    rw [leaves] at least ⊢
    exact fresh_pair (.swap ..) least

end

end Qnero
