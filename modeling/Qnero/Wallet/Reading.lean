import Qnero.Wallet.Branch
import Qnero.Wallet.Scan

/-!
# What a sync reads off a branch

A sync that succeeds against an honest node has read every leaf from where it resumed to the head,
at its date and its commitment, and every body those leaves are dated to. So its receipts are the
ones the branch offers from there on, and its checkpoints stand on the branch
(`Wallet.readPass_honest`).
-/

namespace Qnero

open Plonkish

variable {C : Branch}

variable {top i t : ℕ} {f : TreeFrontier} {typed : List TypedLeaf}

/-! ## Leaves -/

/-- A condition that holds below a bound cuts a range there. -/
theorem takeWhile_map_range' {α : Type} {f : ℕ → α} {p : α → Bool} {a n m : ℕ}
    (cut : ∀ i, a ≤ i → i < a + n → (p (f i) = true ↔ i < m)) :
    ((List.range' a n).map f).takeWhile p = (List.range' a (min n (m - a))).map f := by
  induction n generalizing a with
  | zero => simp
  | succ n ih =>
    rw [List.range'_succ, List.map_cons]
    by_cases below : a < m
    · have rest := @ih (a + 1) fun i le lt => cut i (by omega) (by omega)
      have length : min (n + 1) (m - a) = min n (m - (a + 1)) + 1 := by omega
      rw [List.takeWhile_cons_of_pos ((cut a le_rfl (by omega)).2 below), rest, length,
        List.range'_succ, List.map_cons]
    · have stops : ¬ p (f a) = true := fun holds => below ((cut a le_rfl (by omega)).1 holds)
      have length : min (n + 1) (m - a) = 0 := by omega
      rw [List.takeWhile_cons_of_neg stops, length]
      rfl

/-- A window of an honest node is what the state holds. -/
theorem Branch.leafWindow_eq {start stop leafCount : ℕ} {window : List LeafRecord}
    (read : leafWindow (C.node.chunk top) leafCount start stop = .ok window) :
    window = (List.range' start (stop - start)).map C.record := by
  obtain ⟨raws, asked, checked⟩ := (bind_ok_iff ..).1 read
  rw [mapM_ok_iff] at asked checked
  have answers : raws = (List.range' start (stop - start)).map fun i => (i,
      ⟨(C.record i).commitment, (C.record i).blockNumber, (C.record i).coinbaseValue⟩) := by
    rw [← List.forall₂_eq_eq_eq, List.forall₂_map_right_iff]
    refine (asked.imp fun i answer got => ?_).flip
    exact (Except.ok.inj got).symm
  rw [answers, List.forall₂_map_left_iff] at checked
  rw [← List.forall₂_eq_eq_eq, List.forall₂_map_right_iff]
  refine (checked.imp fun i record got => ?_).flip
  obtain ⟨-, -, got⟩ := (bind_ok_iff ..).1 got
  obtain ⟨-, -, got⟩ := (bind_ok_iff ..).1 got
  obtain ⟨-, -, got⟩ := (bind_ok_iff ..).1 got
  rw [← Except.ok.inj got]
  exact congrArg (fun index => (⟨index, (C.record i).commitment, (C.record i).blockNumber,
    (C.record i).coinbaseValue⟩ : LeafRecord)) (C.index_eq i).symm

/-- A leaf stays in a chunk exactly if it was there at its top. -/
theorem Branch.upTo_iff (hi : i < C.count C.head) :
    (C.record i).upTo top = true ↔ i < C.count top := by
  obtain ⟨d, date, cut⟩ := C.dated i hi
  rw [LeafRecord.upTo, date, ← cut top]
  exact decide_eq_true_iff

/-- **The leaves of a chunk**: from the cursor to those there were at its top. -/
theorem Branch.leavesUpToBlock_eq {fuel cursor : ℕ} {records : List LeafRecord}
    (enough : C.count C.head - cursor ≤ fuel) (above : cursor ≤ C.count top) (le : top ≤ C.head)
    (read : leavesUpToBlock (C.node.chunk top) (C.count C.head) top fuel cursor = .ok records) :
    records = (List.range' cursor (C.count top - cursor)).map C.record := by
  have most := C.count_mono le
  -- Each window reads a leaf, so the fuel is enough.
  induction fuel generalizing cursor records with
  | zero =>
    have none : C.count top - cursor = 0 := by omega
    rw [none]
    exact (Except.ok.inj read).symm
  | succ fuel ih =>
    rw [leavesUpToBlock] at read
    by_cases more : cursor < C.count C.head
    · rw [if_pos more] at read
      obtain ⟨window, asked, read⟩ := (bind_ok_iff ..).1 read
      have seen := leafWindow_eq asked
      set stop := min (cursor + leafBatch) (C.count C.head) with hstop
      have step : cursor < stop ∧ stop ≤ C.count C.head := by
        rw [hstop, leafBatch]
        omega
      have taken : window.takeWhile (LeafRecord.upTo top) =
          (List.range' cursor (min (stop - cursor) (C.count top - cursor))).map C.record := by
        rw [seen]
        exact takeWhile_map_range' fun i _ lt => upTo_iff (by omega)
      dsimp only at read
      by_cases cut : (window.takeWhile (LeafRecord.upTo top)).length < window.length
      · -- A leaf of the window is dated above the top.
        rw [if_pos cut] at read
        rw [taken, seen, List.length_map, List.length_map, List.length_range',
          List.length_range'] at cut
        have length : min (stop - cursor) (C.count top - cursor) = C.count top - cursor := by omega
        rw [← length, ← taken]
        exact (Except.ok.inj read).symm
      · rw [if_neg cut] at read
        rw [taken, seen, List.length_map, List.length_map, List.length_range',
          List.length_range'] at cut
        obtain ⟨rest, next, done⟩ := (bind_ok_iff ..).1 read
        have later := ih (by omega) (by omega) next
        have joined : List.range' cursor (C.count top - cursor) =
            List.range' cursor (stop - cursor) ++ List.range' stop (C.count top - stop) := by
          have split : C.count top - cursor = (stop - cursor) + (C.count top - stop) := by omega
          have next : stop = cursor + (stop - cursor) := by omega
          rw [split, ← List.range'_append_1, ← next]
        rw [joined, List.map_append, ← later, ← seen]
        exact (Except.ok.inj done).symm
    · rw [if_neg more] at read
      have none : C.count top - cursor = 0 := by omega
      rw [none]
      exact (Except.ok.inj read).symm

/-! ## Typed leaves -/

/-- What typing keeps of a record. -/
structure LeafRecord.TypedTo (record : LeafRecord) (leaf : TypedLeaf) : Prop where
  index_eq : leaf.index = record.index
  date : record.blockNumber = some leaf.blockNumber
  commitment : record.commitment = some (digestBytes leaf.commitment)
  value_eq : leaf.coinbaseValue = record.coinbaseValue

theorem forall₂_through_zip {α β γ : Type} {P : α → β → Prop} {Q : α × β → γ → Prop} {as : List α}
    {bs : List β} {cs : List γ} (first : List.Forall₂ P as bs)
    (second : List.Forall₂ Q (as.zip bs) cs) :
    List.Forall₂ (fun a c => ∃ b, P a b ∧ Q (a, b) c) as cs := by
  induction first generalizing cs with
  | nil =>
    cases second
    exact .nil
  | cons head _ ih =>
    rw [List.zip_cons_cons, List.forall₂_cons_left_iff] at second
    obtain ⟨c, cs, here, rest, rfl⟩ := second
    exact .cons ⟨_, head, here⟩ (ih rest)

variable {H : Poseidon2} {miner : MinerView}

theorem Accepted.typedTo {parent block : VerifiedBlock} {run : BlockRun}
    (accepted : Accepted H miner f parent block run) :
    List.Forall₂ LeafRecord.TypedTo run.records run.typed := by
  have pairs := forall₂_through_zip accepted.parsed accepted.typedAs
  have dated := accepted.dated
  generalize run.records = records, run.typed = typed at pairs dated
  induction pairs with
  | nil => exact .nil
  | cons head _ ih =>
    rw [List.forall_mem_cons] at dated
    obtain ⟨commitment, parsed, typed⟩ := head
    refine .cons ⟨typed.index_eq, ?_, ?_, typed.value_eq⟩ (ih dated.2)
    · rw [dated.1, typed.number_eq]
    · rw [(parseLeaf_ok_iff.1 parsed).1, typed.commitment_eq]

variable {blocks : List VerifiedBlock} {number : ℕ} {answers : ChunkAnswers} {node : Node} {receipt : Receipt}
    {receipts : List Receipt} {out : Option TreeFrontier × ChunkRead}

theorem Runs.typedTo {f' : TreeFrontier} {parent : VerifiedBlock} {runs : List BlockRun}
    (accepted : Runs H miner f parent blocks runs f') :
    List.Forall₂ LeafRecord.TypedTo (runs.flatMap BlockRun.records)
      (runs.flatMap BlockRun.typed) := by
  induction accepted with
  | nil _ _ => exact .nil
  | cons head _ ih =>
    rw [List.flatMap_cons, List.flatMap_cons]
    exact List.rel_append head.typedTo ih

theorem typeChunk_typedTo {f' : TreeFrontier} {scanned : List LeafRecord} (h : typeChunk H miner f blocks scanned = .ok (f', typed)) :
    List.Forall₂ LeafRecord.TypedTo scanned typed := by
  cases blocks with
  | nil => cases h
  | cons anchor blocks =>
    obtain ⟨-, runs, accepted, rfl, rfl⟩ := typeChunk_ok h
    exact accepted.typedTo

/-- The typed leaves of a range of the branch. -/
def Branch.TypedRange (C : Branch) (start stop : ℕ) (typed : List TypedLeaf) : Prop :=
  List.Forall₂ LeafRecord.TypedTo ((List.range' start (stop - start)).map C.record) typed

namespace Branch.TypedRange

variable {start stop : ℕ} {typed : List TypedLeaf} {leaf : TypedLeaf}

section

variable (range : C.TypedRange start stop typed)
include range

theorem length_eq : typed.length = stop - start := by
  rw [← List.Forall₂.length_eq range, List.length_map, List.length_range']

theorem indices_eq : typed.map TypedLeaf.index = List.range' start (stop - start) := by
  rw [TypedRange, List.forall₂_map_left_iff] at range
  rw [← List.forall₂_eq_eq_eq, List.forall₂_map_left_iff]
  refine (range.imp fun i leaf typed => ?_).flip
  exact typed.index_eq.trans (C.index_eq i)

theorem of_mem (mem : leaf ∈ typed) :
    start ≤ leaf.index ∧ leaf.index < stop ∧ (C.record leaf.index).TypedTo leaf := by
  rw [TypedRange, List.forall₂_map_left_iff] at range
  obtain ⟨i, inside, typed⟩ := forall₂_exists_left range mem
  obtain rfl : leaf.index = i := typed.index_eq.trans (C.index_eq i)
  rw [List.mem_range'_1] at inside
  exact ⟨inside.1, by omega, typed⟩

theorem exists_mem (le : start ≤ i) (lt : i < stop) :
    ∃ leaf ∈ typed, leaf.index = i ∧ (C.record i).TypedTo leaf := by
  rw [TypedRange, List.forall₂_map_left_iff] at range
  obtain ⟨leaf, mem, typed⟩ := forall₂_exists_right range (List.mem_range'_1.2 ⟨le, by omega⟩)
  exact ⟨leaf, mem, typed.index_eq.trans (C.index_eq i), typed⟩

/-- The first leaf with a property has no leaf with it below. -/
theorem not_of_find? {p : TypedLeaf → Bool}
    (found : typed.find? p = some leaf) {other : TypedLeaf} (mem : other ∈ typed)
    (below : other.index < leaf.index) : p other = false := by
  obtain ⟨-, before, after, rfl, none⟩ := List.find?_eq_some_iff_append.1 found
  have ordered : (before ++ leaf :: after).Pairwise fun a b => a.index < b.index := by
    rw [← List.pairwise_map (f := TypedLeaf.index) (R := (· < ·)), range.indices_eq]
    exact List.pairwise_lt_range'
  rw [List.pairwise_append, List.pairwise_cons] at ordered
  rcases List.mem_append.1 mem with here | here
  · simpa using none other here
  · rcases List.mem_cons.1 here with rfl | here
    · exact absurd below (lt_irrefl _)
    · have above := ordered.2.1.1 other here
      omega

/-- **Where a commitment of a block is found**: at its first leaf. -/
theorem indexChunk_iff {number : ℕ} {c : Digest} :
    indexChunk typed number c = some i ↔ start ≤ i ∧ i < stop ∧
      (C.record i).blockNumber = some number ∧ (C.record i).commitment = some (digestBytes c) ∧
      ∀ j, start ≤ j → j < i → (C.record j).blockNumber = some number →
        (C.record j).commitment ≠ some (digestBytes c) := by
  have matches_iff : ∀ {j : ℕ} {leaf : TypedLeaf}, (C.record j).TypedTo leaf →
      (decide (leaf.blockNumber = number ∧ leaf.commitment = c) = true ↔
        (C.record j).blockNumber = some number ∧
          (C.record j).commitment = some (digestBytes c)) := by
    intro j leaf typed
    rw [decide_eq_true_iff, typed.date, typed.commitment, Option.some_inj, Option.some_inj,
      digestBytes_injective.eq_iff]
  have first : ∀ {i : ℕ}, indexChunk typed number c = some i → start ≤ i ∧ i < stop ∧
      (C.record i).blockNumber = some number ∧ (C.record i).commitment = some (digestBytes c) ∧
      ∀ j, start ≤ j → j < i → (C.record j).blockNumber = some number →
        (C.record j).commitment ≠ some (digestBytes c) := by
    intro i indexed
    obtain ⟨leaf, found, rfl⟩ := Option.map_eq_some_iff.1 indexed
    obtain ⟨le, lt, here⟩ := range.of_mem (List.mem_of_find?_eq_some found)
    have matched := List.find?_some found
    obtain ⟨date, commitment⟩ := (matches_iff here).1 matched
    refine ⟨le, lt, date, commitment, fun j le' below date' commitment' => ?_⟩
    obtain ⟨other, mem, rfl, typed'⟩ := range.exists_mem le' (lt_trans below lt)
    have not := range.not_of_find? found mem below
    rw [(matches_iff typed').2 ⟨date', commitment'⟩] at not
    cases not
  constructor
  · exact first
  · rintro ⟨le, lt, date, commitment, none⟩
    obtain ⟨leaf, mem, rfl, typed'⟩ := range.exists_mem le lt
    -- Some leaf is found, and neither of the two is below the other.
    have some : (indexChunk typed number c).isSome = true := by
      rw [indexChunk, Option.isSome_map, List.find?_isSome]
      exact ⟨leaf, mem, (matches_iff typed').2 ⟨date, commitment⟩⟩
    obtain ⟨i, found⟩ := Option.isSome_iff_exists.1 some
    obtain ⟨le', lt', date', commitment', none'⟩ := first found
    have not_lt : ¬ i < leaf.index := fun below => none i le' below date' commitment'
    have not_gt : ¬ leaf.index < i := fun below => none' leaf.index le below date commitment
    rw [found, Nat.le_antisymm (Nat.le_of_not_lt not_gt) (Nat.le_of_not_lt not_lt)]

end

end Branch.TypedRange

/-! ## Headers -/

/-- A walk is from its anchor to its top, block by block. -/
theorem headerChain_numbers {top : ChainHead} {anchor : ℕ}
    (h : headerChain H answers top anchor = .ok blocks) :
    anchor ≤ top.number ∧
      blocks.map VerifiedBlock.number = List.range' anchor (top.number - anchor + 1) := by
  simp only [headerChain, bind_ok_iff, ensure_ok_iff] at h
  obtain ⟨-, le, -, -, below, hashes, raws, headers, verified⟩ := h
  have hashes_length := (List.Forall₂.length_eq (mapM_ok_iff.1 hashes)).symm
  have headers_length := (List.Forall₂.length_eq (mapM_ok_iff.1 headers)).symm
  rw [List.length_range'] at hashes_length headers_length
  refine ⟨le, (verifyHeaders_ok verified).2.1.trans ?_⟩
  rw [List.length_zip, List.length_append, hashes_length, headers_length, List.length_singleton,
    min_self]

/-! ## Receipts -/

variable {W : Wallet}

theorem Wallet.mem_coinbaseReceipt_iff {genesisHash : Hash256} {leaf : TypedLeaf}
    (h : W.coinbaseReceipt genesisHash leaf = .ok receipts) :
    receipt ∈ receipts ↔ ∃ value note, leaf.coinbaseValue = some value ∧
      W.receiveCoinbase genesisHash leaf.blockNumber value leaf.commitment = some note ∧
      receipt = ⟨leaf.index, leaf.blockNumber, leaf.commitment, note, true⟩ := by
  rw [coinbaseReceipt] at h
  cases kind : leaf.kind with
  | transfer =>
    rw [kind] at h
    obtain rfl := Except.ok.inj h
    simp [TypedLeaf.coinbaseValue, kind]
  | coinbase ours value disagrees =>
    rw [kind] at h
    cases own : W.receiveCoinbase genesisHash leaf.blockNumber value leaf.commitment with
    | some note =>
      simp only [own] at h
      obtain rfl := Except.ok.inj h
      simp [TypedLeaf.coinbaseValue, kind, own]
    | none =>
      simp only [own] at h
      cases ours with
      | true => cases h
      | false =>
        obtain rfl := Except.ok.inj h
        simp [TypedLeaf.coinbaseValue, kind, own]

theorem Wallet.mem_coinbaseReceipts_iff {genesisHash : Hash256} (h : W.coinbaseReceipts genesisHash typed = .ok receipts) :
    receipt ∈ receipts ↔ ∃ leaf ∈ typed, ∃ value note, leaf.coinbaseValue = some value ∧
      W.receiveCoinbase genesisHash leaf.blockNumber value leaf.commitment = some note ∧
      receipt = ⟨leaf.index, leaf.blockNumber, leaf.commitment, note, true⟩ := by
  induction typed generalizing receipts with
  | nil =>
    obtain rfl := Except.ok.inj h
    simp
  | cons leaf typed ih =>
    simp only [coinbaseReceipts, bind_ok_iff] at h
    obtain ⟨here, done, rest, others, ⟨⟩⟩ := h
    rw [List.mem_append, ih others, List.exists_mem_cons_iff, mem_coinbaseReceipt_iff done]

/-- The payloads the walk takes out of the body at a height. -/
def Branch.payloads (C : Branch) (metadata : Metadata) (k : ℕ) : List (List UInt8) :=
  (blockPayloads metadata 0 (C.body k)).toOption.getD []

theorem Wallet.payloadReceipt_eq_some_iff {payload : List UInt8} :
    W.payloadReceipt typed number payload = some receipt ↔
      ∃ received index, W.decryptNote payload = some received ∧
        indexChunk typed number (received.note.commitment W.H) = some index ∧
        receipt = ⟨index, number, received.note.commitment W.H, received, false⟩ := by
  simp only [payloadReceipt, Option.bind_eq_bind, Option.bind_eq_some_iff, Option.some_inj,
    eq_comm (a := receipt), exists_and_left]

/-- The receipts of the bodies are their payloads that are placed. A block without leaves is not
asked for its body, and places none. -/
theorem Wallet.mem_bodyReceipts_iff
    (h : W.bodyReceipts node.client top typed blocks = .ok receipts) :
    receipt ∈ receipts ↔ ∃ block ∈ blocks, ∃ body payloads,
      (node.chunk top).body block.number = some body ∧
      blockPayloads W.metadata 0 body = .ok payloads ∧
      ∃ payload ∈ payloads, W.payloadReceipt typed block.number payload = some receipt := by
  induction blocks generalizing receipts with
  | nil =>
    obtain rfl := Except.ok.inj h
    simp
  | cons block blocks ih =>
    rw [List.exists_mem_cons_iff]
    by_cases appended : (typed.any fun leaf => leaf.blockNumber = block.number) = true
    · simp only [bodyReceipts, blockReceipts, if_pos appended, Node.client_authenticatedBody,
        Node.client_checked, authenticatedBody, bind_ok_iff, okOr_ok_iff] at h
      obtain ⟨_, ⟨_, ⟨_, asked, -, -, -, -, -, -, ⟨⟩⟩, payloads, walked, ⟨⟩⟩, rest, others, ⟨⟩⟩ := h
      rw [List.mem_append, ih others, List.mem_filterMap]
      refine or_congr_left ⟨fun placed => ⟨_, payloads, asked, walked, placed⟩, ?_⟩
      rintro ⟨_, _, asked', walked', placed⟩
      cases asked.symm.trans asked'
      cases walked.symm.trans walked'
      exact placed
    · simp only [bodyReceipts, blockReceipts, if_neg appended, bind_ok_iff] at h
      obtain ⟨_, ⟨⟩, rest, others, ⟨⟩⟩ := h
      rw [List.nil_append, ih others]
      refine (or_iff_right ?_).symm
      rintro ⟨_, _, -, -, payload, -, placed⟩
      obtain ⟨received, index, -, found, -⟩ := payloadReceipt_eq_some_iff.1 placed
      obtain ⟨leaf, first, -⟩ := Option.map_eq_some_iff.1 found
      have meets := List.find?_some first
      exact appended (List.any_eq_true.2 ⟨leaf, List.mem_of_find?_eq_some first,
        decide_eq_true (decide_eq_true_iff.1 meets).1⟩)

theorem Wallet.mem_bodyReceipts_honest
    (h : W.bodyReceipts node.client top typed blocks = .ok receipts)
    (honest : ∀ block ∈ blocks, (node.chunk top).body block.number = some (C.body block.number)) :
    receipt ∈ receipts ↔ ∃ block ∈ blocks, ∃ payload ∈ C.payloads W.metadata block.number,
      W.payloadReceipt typed block.number payload = some receipt := by
  rw [mem_bodyReceipts_iff h]
  refine exists_congr fun block => and_congr_right fun mem => ?_
  rw [honest block mem, Branch.payloads]
  cases walked : blockPayloads W.metadata 0 (C.body block.number) with
  | error e => simp [Except.toOption, walked]
  | ok payloads => simp [Except.toOption, walked]

/-- **The notes of a wallet on a branch**: its coinbase notes, and what the payloads of a block open,
at the first leaf of the block that commits to it. -/
inductive Branch.Offers (W : Wallet) (C : Branch) : Receipt → Prop where
  | coinbase {i k value : ℕ} {c : Digest} {note : ReceivedNote} (below : i < C.count C.head)
      (date : (C.record i).blockNumber = some k)
      (leaf : (C.record i).commitment = some (digestBytes c))
      (minted : (C.record i).coinbaseValue = some value)
      (own : W.receiveCoinbase (C.hash 0) k value c = some note) :
      Offers W C ⟨i, k, c, note, true⟩
  | payload {i k : ℕ} {bytes : List UInt8} {received : ReceivedNote} (below : i < C.count C.head)
      (date : (C.record i).blockNumber = some k)
      (leaf : (C.record i).commitment = some (digestBytes (received.note.commitment W.H)))
      (first : ∀ j, j < i → (C.record j).blockNumber = some k →
        (C.record j).commitment ≠ some (digestBytes (received.note.commitment W.H)))
      (carried : bytes ∈ C.payloads W.metadata k) (opens : W.decryptNote bytes = some received) :
      Offers W C ⟨i, k, received.note.commitment W.H, received, false⟩

theorem Branch.Offers.holds (offers : C.Offers W receipt) :
    C.Holds receipt.leafIndex receipt.commitment := by
  cases offers with
  | coinbase below _ leaf _ _ => exact ⟨below, leaf⟩
  | payload below _ leaf _ _ _ => exact ⟨below, leaf⟩

/-- What was added between two heights is dated there. -/
theorem Branch.dated_between {k : ℕ} (hi : i < C.count C.head)
    (date : (C.record i).blockNumber = some k) :
    C.count t ≤ i ∧ i < C.count top ↔ t < k ∧ k ≤ top := by
  obtain ⟨d, date', cut⟩ := C.dated i hi
  obtain rfl : k = d := Option.some.inj (date.symm.trans date')
  have low := cut t
  have high := cut top
  omega

/-- **The receipts of typed leaves**, where the blocks are those the leaves are dated to. -/
theorem Wallet.mem_receipts_iff {coinbase body : List Receipt} (le : top ≤ C.head) (range : C.TypedRange (C.count t) (C.count top) typed)
    (numbers : ∀ k, (∃ block ∈ blocks, block.number = k) ↔ t < k ∧ k ≤ top)
    (honest : ∀ block ∈ blocks, (node.chunk top).body block.number = some (C.body block.number))
    (minted : W.coinbaseReceipts (C.hash 0) typed = .ok coinbase)
    (walked : W.bodyReceipts node.client top typed blocks = .ok body) :
    receipt ∈ coinbase ++ body ↔ C.Offers W receipt ∧ C.count t ≤ receipt.leafIndex ∧
      receipt.leafIndex < C.count top := by
  have most := C.count_mono le
  rw [List.mem_append, mem_coinbaseReceipts_iff minted, mem_bodyReceipts_honest walked honest]
  constructor
  · rintro (⟨leaf, mem, value, note, held, own, rfl⟩ | ⟨block, mem, bytes, carried, placed⟩)
    · obtain ⟨low, high, typed⟩ := range.of_mem mem
      have here : leaf.index < C.count C.head := by omega
      exact ⟨.coinbase here typed.date typed.commitment (typed.value_eq ▸ held) own, low, high⟩
    · obtain ⟨received, i, opens, found, rfl⟩ := payloadReceipt_eq_some_iff.1 placed
      obtain ⟨low, high, date, leaf, first⟩ := range.indexChunk_iff.1 found
      have here : i < C.count C.head := by omega
      refine ⟨.payload here date leaf (fun j below date' => ?_) carried opens, low, high⟩
      -- A leaf of the same block is in the same range.
      have inside := (C.dated_between here date).1 ⟨low, high⟩
      have range' := (C.dated_between (lt_trans below here) date').2 inside
      exact first j range'.1 below date'
  · rintro ⟨offers, low, high⟩
    cases offers with
    | coinbase below date leaf held own =>
      obtain ⟨found, mem, rfl, same⟩ := range.exists_mem low high
      obtain rfl := Option.some.inj (same.date.symm.trans date)
      obtain rfl := digestBytes_injective (Option.some.inj (same.commitment.symm.trans leaf))
      exact .inl ⟨found, mem, _, _, same.value_eq.trans held, own, rfl⟩
    | payload below date leaf first carried opens =>
      obtain ⟨block, mem, rfl⟩ := (numbers _).2 ((C.dated_between below date).1 ⟨low, high⟩)
      refine .inr ⟨block, mem, _, carried, payloadReceipt_eq_some_iff.2 ⟨_, _, opens, ?_, rfl⟩⟩
      exact range.indexChunk_iff.2 ⟨low, high, date, leaf, fun j _ below => first j below⟩

/-! ## Chunks -/

/-- The plan of a pass over the branch. -/
structure Branch.Plans (C : Branch) (plan : ScanPlan) : Prop where
  genesis_eq : plan.genesisHash = C.hash 0
  head_eq : plan.head = ⟨C.head, C.hash C.head⟩
  count_eq : plan.leafCount = C.count C.head

/-- The walk stands on a block of the branch, with the leaves there are at it behind it. -/
structure Branch.Stands (C : Branch) (plan : ScanPlan) (scan : Scan) : Prop where
  block_le : scan.trustedBlock ≤ C.head
  cursor_eq : scan.cursorLeaf = C.count scan.trustedBlock
  start_le : plan.start ≤ scan.cursorLeaf

/-- The checkpoint of a block. -/
def Branch.checkpoint (C : Branch) (k : ℕ) : SyncCheckpoint := ⟨k, C.hash k, C.count k⟩

variable {plan : ScanPlan} {scan scan' : Scan} {top : ℕ}

theorem Wallet.scanLeaves_honest {anchor : VerifiedBlock} (plans : C.Plans plan)
    (stands : C.Stands plan scan) (le : scan.trustedBlock ≤ top) (top_le : top ≤ C.head)
    (numbers : blocks.map VerifiedBlock.number = List.range' scan.trustedBlock (top - scan.trustedBlock + 1))
    (h : W.scanLeaves C.node.client plan scan top anchor blocks = .ok out) :
    out.2.typed.length = C.count top - C.count scan.trustedBlock ∧
      ∀ receipt, receipt ∈ out.2.receipts ↔ C.Offers W receipt ∧
        C.count scan.trustedBlock ≤ receipt.leafIndex ∧ receipt.leafIndex < C.count top := by
  simp only [scanLeaves, Node.client_checked, Node.client_leavesUpToBlock, bind_ok_iff,
    mapError_ok_iff] at h
  obtain ⟨fold, -, records, read, -, -, ⟨fold', typed⟩, ran, coinbase, minted, body, walked, ⟨⟩⟩ := h
  rw [plans.count_eq, stands.cursor_eq] at read
  have seen := C.leavesUpToBlock_eq le_rfl (C.count_mono le) top_le read
  have range : C.TypedRange (C.count scan.trustedBlock) (C.count top) typed := by
    rw [Branch.TypedRange, ← seen]
    exact typeChunk_typedTo ran
  have tail : blocks.tail.map VerifiedBlock.number =
      List.range' (scan.trustedBlock + 1) (top - scan.trustedBlock) := by
    rw [List.map_tail, numbers, List.range'_succ, List.tail_cons]
  have mem_tail : ∀ k, (∃ block ∈ blocks.tail, block.number = k) ↔
      scan.trustedBlock < k ∧ k ≤ top := by
    intro k
    rw [← List.mem_map, tail, List.mem_range'_1]
    omega
  have honest : ∀ block ∈ blocks.tail, (C.node.chunk top).body block.number =
      some (C.body block.number) := by
    intro block mem
    have inside := (mem_tail block.number).1 ⟨block, mem, rfl⟩
    exact if_pos (by omega)
  rw [plans.genesis_eq] at minted
  refine ⟨range.length_eq, fun receipt => ?_⟩
  rw [List.mem_insertionSort, mem_receipts_iff top_le range mem_tail honest minted walked]

theorem Branch.chunkTop_eq {hash : Hash256} (plans : C.Plans plan) (le : top ≤ C.head)
    (h : chunkTop C.node.client plan top = .ok hash) : hash = C.hash top := by
  rw [chunkTop, plans.head_eq] at h
  by_cases isHead : top = C.head
  · rw [if_pos isHead] at h
    rw [isHead]
    exact (Except.ok.inj h).symm
  · rw [if_neg isHead, Node.client_blockHash, okOr_ok_iff] at h
    exact (Option.some.inj ((if_pos le).symm.trans h)).symm

/-- The leaves of a chunk; if the tree has none to scan there are none in between. -/
theorem Wallet.chunkLeaves_honest {anchor : VerifiedBlock} (plans : C.Plans plan)
    (stands : C.Stands plan scan) (le : scan.trustedBlock ≤ top) (top_le : top ≤ C.head)
    (numbers : blocks.map VerifiedBlock.number = List.range' scan.trustedBlock (top - scan.trustedBlock + 1))
    (h : W.chunkLeaves C.node.client plan scan top anchor blocks = .ok out) :
    out.2.typed.length = C.count top - C.count scan.trustedBlock ∧
      ∀ receipt, receipt ∈ out.2.receipts ↔ C.Offers W receipt ∧
        C.count scan.trustedBlock ≤ receipt.leafIndex ∧ receipt.leafIndex < C.count top := by
  rw [chunkLeaves] at h
  by_cases scans : plan.start < plan.leafCount
  · rw [if_pos scans] at h
    exact scanLeaves_honest plans stands le top_le numbers h
  · rw [if_neg scans] at h
    obtain ⟨-, -, h⟩ := (bind_ok_iff ..).1 h
    obtain rfl := Except.ok.inj h
    have start := stands.start_le
    rw [stands.cursor_eq] at start
    rw [plans.count_eq] at scans
    have most := C.count_mono top_le
    refine ⟨?_, fun receipt => ⟨fun mem => (nomatch mem), fun inside => ?_⟩⟩
    · show 0 = _
      omega
    · omega

/-- **A chunk of an honest node**: it ends on its top, and its receipts are those of the leaves in
between. -/
theorem Wallet.readChunk_honest {read : ChunkRead} (plans : C.Plans plan)
    (stands : C.Stands plan scan) (top_le : top ≤ C.head)
    (h : W.readChunk C.node.client plan scan top = .ok (scan', read)) :
    scan.trustedBlock ≤ top ∧ scan'.trustedBlock = top ∧ C.Stands plan scan' ∧
      scan'.checkpoints = scan.checkpoints ++ [C.checkpoint top] ∧
      ∀ receipt, receipt ∈ read.receipts ↔ C.Offers W receipt ∧
        C.count scan.trustedBlock ≤ receipt.leafIndex ∧ receipt.leafIndex < C.count top := by
  obtain ⟨topHash, blocks, anchor, frontier, hashed, walked, -, -, leaves, rfl⟩ := readChunk_ok h
  obtain rfl := C.chunkTop_eq plans top_le hashed
  obtain ⟨le, numbers⟩ := headerChain_numbers walked
  obtain ⟨length, receipts⟩ := chunkLeaves_honest plans stands le top_le numbers leaves
  have cursor : scan.cursorLeaf + read.typed.length = C.count top := by
    have more := C.count_mono le
    rw [stands.cursor_eq, length]
    exact Nat.add_sub_cancel' more
  have start := stands.start_le
  refine ⟨le, rfl, ⟨top_le, cursor, ?_⟩, ?_, receipts⟩
  · exact le_trans start (Nat.le_add_right ..)
  · rw [cursor]
    rfl

/-- **The chunks of an honest node**, one after the other. -/
theorem Wallet.readChunks_honest {tops : List ℕ} {reads : List ChunkRead} (plans : C.Plans plan)
    (stands : C.Stands plan scan) (tops_le : ∀ top ∈ tops, top ≤ C.head)
    (h : W.readChunks C.node plan tops scan = (reads, .ok scan')) :
    C.Stands plan scan' ∧ scan'.trustedBlock = tops.getLastD scan.trustedBlock ∧
      scan.trustedBlock ≤ scan'.trustedBlock ∧
      scan'.checkpoints = scan.checkpoints ++ tops.map C.checkpoint ∧
      ∀ receipt, receipt ∈ receiptsOf reads ↔ C.Offers W receipt ∧
        C.count scan.trustedBlock ≤ receipt.leafIndex ∧
        receipt.leafIndex < C.count scan'.trustedBlock := by
  induction tops generalizing scan reads with
  | nil =>
    obtain ⟨rfl, ⟨⟩⟩ := Prod.mk.inj h
    refine ⟨stands, rfl, le_rfl, (List.append_nil _).symm, fun receipt => ?_⟩
    refine ⟨fun mem => (nomatch mem), fun inside => ?_⟩
    omega
  | cons top tops ih =>
    rw [List.forall_mem_cons] at tops_le
    rw [readChunks] at h
    cases read : W.readChunk C.node.client plan scan top with
    | error e =>
      rw [read] at h
      cases (Prod.mk.inj h).2
    | ok out =>
      obtain ⟨next, first⟩ := out
      rw [read] at h
      obtain ⟨rfl, rest⟩ := Prod.mk.inj h
      obtain ⟨le, reached, stands', checkpoints, receipts⟩ :=
        readChunk_honest plans stands tops_le.1 read
      obtain ⟨last, ends, le', more, others⟩ := ih stands' tops_le.2 (Prod.ext rfl rest)
      refine ⟨last, ?_, by omega, ?_, fun receipt => ?_⟩
      · rw [ends, reached, List.getLastD_cons]
      · rw [more, checkpoints, List.append_assoc]
        rfl
      · have split : receiptsOf (first :: (W.readChunks C.node plan tops next).1) =
            first.receipts ++ receiptsOf (W.readChunks C.node plan tops next).1 := rfl
        have low := C.count_mono le
        have high := C.count_mono le'
        rw [reached] at high others
        rw [split, List.mem_append, receipts, others]
        constructor
        · rintro (⟨offers, inside⟩ | ⟨offers, inside⟩)
          · exact ⟨offers, by omega⟩
          · exact ⟨offers, by omega⟩
        · rintro ⟨offers, inside⟩
          by_cases here : receipt.leafIndex < C.count top
          · exact .inl ⟨offers, by omega⟩
          · exact .inr ⟨offers, by omega⟩

theorem le_of_mem_chunkTops {trusted head : ℕ} (mem : top ∈ chunkTops trusted head) :
    top ≤ head := by
  rcases List.mem_append.1 mem with mem | mem
  · obtain ⟨j, inside, rfl⟩ := List.mem_map.1 mem
    rw [List.mem_range'_1] at inside
    have most : j ≤ (head - trusted - 1) / headerWalkLimit := by omega
    have fits := Nat.mul_le_of_le_div _ _ _ most
    rw [headerWalkLimit] at fits ⊢
    omega
  · exact (List.mem_singleton.1 mem).le

/-! ## The pass -/

/-- What the gates let through at an honest node. -/
structure Branch.Gated (C : Branch) (gates : Gates) : Prop where
  genesis_eq : gates.genesisHash = C.hash 0
  head_eq : gates.head = ⟨C.head, C.hash C.head⟩
  count_eq : gates.leafCount = C.count C.head

/-- **The receipts of a pass that stands on the branch**: all there are from its watermark on. -/
theorem Wallet.readPass_honest {gates : Gates} {store : WalletStore} {reads : List ChunkRead}
    {hash : Hash256} (gated : C.Gated gates)
    (anchored : scanAnchor store (C.hash 0) = .ok (t, hash)) (t_le : t ≤ C.head)
    (resumes : store.nextLeaf = C.count t) (h : W.readPass C.node gates store = (reads, .ok scan)) :
    (∃ tops : List ℕ, (∀ top ∈ tops, top ≤ C.head) ∧
      scan.checkpoints = tops.map C.checkpoint ++ [C.checkpoint C.head]) ∧
      ∀ receipt, receipt ∈ receiptsOf reads ↔
        C.Offers W receipt ∧ store.nextLeaf ≤ receipt.leafIndex := by
  rw [readPass, gated.genesis_eq, anchored] at h
  have counted : C.node.entryCountAt = .ok C.entries := rfl
  rw [counted] at h
  dsimp only at h
  rw [gated.head_eq] at h
  rcases walked : W.readChunks C.node (gates.plan store) (chunkTops t C.head)
    ⟨none, store.nextLeaf, t, hash, []⟩ with ⟨reads', e | last⟩
  · rw [walked] at h
    cases (Prod.mk.inj h).2
  · rw [walked] at h
    obtain ⟨rfl, done⟩ := Prod.mk.inj h
    obtain ⟨_, -, rfl⟩ : ∃ fits, ensure _ _ = .ok fits ∧ last = scan := map_ok_iff.1 done
    have plans : C.Plans (gates.plan store) := ⟨gated.genesis_eq, gated.head_eq, gated.count_eq⟩
    have stands : C.Stands (gates.plan store) ⟨none, store.nextLeaf, t, hash, []⟩ :=
      ⟨t_le, resumes, le_rfl⟩
    obtain ⟨-, ends, -, checkpoints, receipts⟩ :=
      readChunks_honest plans stands (fun top => le_of_mem_chunkTops) walked
    have top : last.trustedBlock = C.head := by
      rw [ends, chunkTops, List.getLastD_concat]
    rw [top] at receipts
    refine ⟨⟨(chunkTops t C.head).dropLast, fun top mem => ?_, ?_⟩, fun receipt => ?_⟩
    · exact le_of_mem_chunkTops (List.mem_of_mem_dropLast mem)
    · rw [checkpoints, List.nil_append, chunkTops, List.dropLast_concat, List.map_append]
      rfl
    · rw [receipts, resumes]
      constructor
      · rintro ⟨offers, low, -⟩
        exact ⟨offers, low⟩
      · rintro ⟨offers, low⟩
        exact ⟨offers, low, offers.holds.1⟩

end Qnero
