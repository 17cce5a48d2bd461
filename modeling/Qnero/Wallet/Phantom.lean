import Qnero.Wallet.Refused
import Qnero.Wallet.Resume

/-!
# Notes whose leaf is gone

A note on chain is where the branch the store has read holds it (`Branch.Locates`). A sync behind a
fork keeps that by marking what it did not meet again, but it passes over a note that is spent, and
a spent flag outlives the branch it was seen on: it stays while the head is below the height it was
seen at, and falls later, in a pass that marks nothing. So the invariant holds as long as no flag
stays on a note whose leaf is gone (`Branch.Sheds`), and `phantom_note` is a run in which one does.
-/

namespace Qnero

open Plonkish

variable {C D : Branch} {W : Wallet} {store after : WalletStore} {height : ℕ}

/-- Every note on chain is at a leaf of the branch below the height. -/
def Branch.Locates (D : Branch) (height : ℕ) (store : WalletStore) : Prop :=
  ∀ n ∈ store.notes, n.onChain = true →
    n.leafIndex < D.count height ∧ (D.record n.leafIndex).commitment = some (digestBytes n.commitment)

/-- **A note on chain is kept or let go by a sync with the branch**: it is where the branch holds it,
or the branch has it again behind the leaf the sync resumes at, or no spent flag stays on it. -/
def Branch.Sheds (W : Wallet) (store : WalletStore) (C : Branch) : Prop :=
  ∀ n ∈ store.notes, n.onChain = true →
    C.Holds n.leafIndex n.commitment ∨
      (∃ receipt, C.Offers W receipt ∧ receipt.commitment = n.commitment ∧
        C.resumeLeaf store ≤ receipt.leafIndex) ∨
      (digestBytes n.nullifier ∉ C.settled ∧ (n.spent = true → n.aboveThisHead C.head = false))

/-! ## One note -/

namespace StoredNote

variable {settled : Finset Hash256} {head start : ℕ} {direction : SpentDirection} {marks : Bool}
  {seen : List Digest} {n : StoredNote}

theorem reconcile_frame {β : Type} (f : StoredNote → β)
    (frame : ∀ n spent seenAt, f { n with spent := spent, spentSeenAtBlock := seenAt } = f n) :
    f (n.reconcile settled head direction) = f n := by
  unfold reconcile
  split
  · exact frame ..
  · split
    · rfl
    · exact frame ..
  · rfl

theorem orphan_frame {β : Type} (f : StoredNote → β)
    (frame : ∀ n onChain, f { n with onChain := onChain } = f n) :
    f (n.orphan marks start seen) = f n := by
  unfold orphan markOffChain
  split
  · split
    · rfl
    · exact frame ..
  · rfl

/-- The end of a pass writes the flags. -/
theorem finish_frame {β : Type} (f : StoredNote → β)
    (frame : ∀ n spent seenAt, f { n with spent := spent, spentSeenAtBlock := seenAt } = f n)
    (frame' : ∀ n onChain, f { n with onChain := onChain } = f n) :
    f ((n.reconcile settled head direction).orphan marks start seen) = f n :=
  (orphan_frame f frame').trans (reconcile_frame f frame)

/-- Marking only takes notes off the chain. -/
theorem onChain_of_orphan (on : (n.orphan marks start seen).onChain = true) : n.onChain = true := by
  unfold orphan markOffChain at on
  split at on
  · split at on
    · exact on
    · cases on
  · exact on

/-- What stays on chain behind a marking was met, is below the range, or is spent. -/
theorem spent_of_orphan (on : (n.orphan true start seen).onChain = true) (above : start ≤ n.leafIndex)
    (unseen : n.commitment ∉ seen) : n.spent = true := by
  rw [orphan, if_pos ⟨rfl, above, unseen⟩] at on
  by_contra unspent
  have kept : ¬ (n.spent = true ∨ n.onChain = false) := by
    rintro (spent | off)
    · exact unspent spent
    · rw [markOffChain, if_pos (.inr off)] at on
      rw [off] at on
      cases on
  rw [markOffChain, if_neg kept] at on
  cases on

/-- A flag without a settled nullifier falls below its height. -/
theorem reconcile_unspent (unsettled : digestBytes n.nullifier ∉ settled)
    (below : n.spent = true → n.aboveThisHead head = false) :
    (n.reconcile settled head .bothWays).spent = false := by
  unfold reconcile
  rw [decide_eq_false unsettled]
  cases spent : n.spent with
  | false => exact spent
  | true =>
    rw [if_neg]
    simp [below spent]

end StoredNote

/-! ## One sync -/

/-- A note placed by receipts of the branch is where the branch holds it. -/
theorem Branch.holds_placeAll {receipts : List Receipt} {n : StoredNote}
    (offers : ∀ receipt ∈ receipts, C.Offers W receipt)
    (here : (∃ receipt ∈ receipts, receipt.commitment = n.commitment) ∨
      C.Holds n.leafIndex n.commitment) :
    C.Holds (placeAll receipts n).leafIndex (placeAll receipts n).commitment := by
  by_cases met : ∃ receipt ∈ receipts, receipt.commitment = n.commitment
  · obtain ⟨last, found⟩ := lastAt_isSome_iff.2 met
    obtain ⟨mem, same⟩ := lastAt_mem found
    rw [placeAll_commitment, placeAll_eq, found, ← same]
    exact (offers last mem).holds
  · rw [placeAll_of_unmet met]
    exact here.resolve_left met

/-- **A sync that lets go of what it does not keep locates every note.** -/
theorem Branch.Locates.synced {served : Set Branch} (bound : Branch.Bound served) (memC : C ∈ served)
    (memD : D ∈ served) (readTo : D.ReadTo height store) (locates : D.Locates height store)
    (sheds : C.Sheds W store) (syncs : W.Syncs C store after) : C.Locates C.head after := by
  obtain ⟨-, base, receipts, seen, marks, synced⟩ := syncs.synced bound memC memD readTo
  obtain ⟨j, j_le, -, agree, resume, -⟩ := exists_shared bound memC memD readTo
  have offers : ∀ receipt ∈ receipts, C.Offers W receipt := fun receipt mem =>
    ((synced.receipts_iff receipt).1 mem).1
  intro n mem on
  rw [synced.notes_eq] at mem
  obtain ⟨m, taken, rfl⟩ := List.mem_map.1 mem
  have kept := StoredNote.onChain_of_orphan on
  rw [StoredNote.finish_frame StoredNote.leafIndex (fun _ _ _ => rfl) fun _ _ => rfl,
    StoredNote.finish_frame StoredNote.commitment (fun _ _ _ => rfl) fun _ _ => rfl]
  show C.Holds m.leafIndex m.commitment
  rcases W.mem_take_notes taken with ⟨old, held, rfl⟩ | ⟨receipt, found, later, sub, -, rfl⟩
  · refine holds_placeAll offers (or_iff_not_imp_left.2 fun unmet => ?_)
    rw [placeAll_of_unmet unmet] at on kept
    rw [synced.base_notes] at held
    have was_on : old.onChain = true := by
      rwa [StoredNote.reconcile_frame StoredNote.onChain fun _ _ _ => rfl] at kept
    obtain ⟨below, leaf⟩ := locates old held was_on
    by_cases shared : old.leafIndex < C.resumeLeaf store
    · -- Below where the sync resumes the branches are one.
      rw [resume] at shared
      rw [← agree.record_eq _ shared] at leaf
      exact ⟨lt_of_lt_of_le shared (C.count_mono j_le), leaf⟩
    · -- Above it only a fork explains the leaf, and then the note was to be marked.
      have marked : marks = true := by
        by_contra unmarked
        have whole := synced.whole (Bool.eq_false_of_not_eq_true unmarked)
        rw [readTo.nextLeaf_eq] at whole
        omega
      subst marked
      have same_leaf : (old.reconcile C.settled C.head .bothWays).leafIndex = old.leafIndex :=
        StoredNote.reconcile_frame StoredNote.leafIndex fun _ _ _ => rfl
      have same : (old.reconcile C.settled C.head .bothWays).commitment = old.commitment :=
        StoredNote.reconcile_frame StoredNote.commitment fun _ _ _ => rfl
      have unseen : (old.reconcile C.settled C.head .bothWays).commitment ∉ seen := by
        rw [same, synced.seen_iff rfl]
        exact fun both => unmet both.2
      have spent := StoredNote.spent_of_orphan on (by omega) unseen
      rcases sheds old held was_on with holds | ⟨receipt, offered, again, behind⟩ | ⟨unsettled, falls⟩
      · exact holds
      · exact absurd ⟨receipt, (synced.receipts_iff receipt).2 ⟨offered, behind⟩, again⟩ unmet
      · rw [StoredNote.reconcile_unspent unsettled falls] at spent
        cases spent
  · exact holds_placeAll (fun other mem => offers other (sub mem)) (.inr (offers receipt found).holds)

/-! ## Every run -/

/-- A wallet that has received nothing yet, read up to a block of a branch: a new one, or one with a
birthday. -/
structure Branch.Begins (D : Branch) (start : WalletStore) : Prop where
  exists_readTo : ∃ height, D.ReadTo height start
  notes_eq : start.notes = []

theorem SyncRun.locates {served : Set Branch} (bound : Branch.Bound served) {start : WalletStore}
    {branches : List Branch} (memD : D ∈ served) (begins : D.Begins start)
    (honest : ∀ C ∈ branches, C ∈ served)
    (run : SyncRun W (fun store C => C.Sheds W store) start branches after) :
    ∃ C ∈ served, ∃ height, C.ReadTo height after ∧ C.Locates height after ∧
      ∀ last ∈ branches.getLast?, C = last ∧ height = last.head := by
  induction run with
  | nil =>
    obtain ⟨height, readTo⟩ := begins.exists_readTo
    refine ⟨D, memD, height, readTo, fun n mem => ?_, fun _ impossible => nomatch impossible⟩
    rw [begins.notes_eq] at mem
    cases mem
  | snoc run sheds syncs ih =>
    rw [List.forall_mem_append, List.forall_mem_singleton] at honest
    obtain ⟨E, memE, height, readTo, locates, -⟩ := ih honest.1
    refine ⟨_, honest.2, _, (syncs.synced bound honest.2 memE readTo).1,
      locates.synced bound honest.2 memE readTo sheds syncs, fun last ends => ?_⟩
    rw [List.getLast?_concat] at ends
    obtain rfl := Option.some.inj ends
    exact ⟨rfl, rfl⟩

/-- **No phantom notes, where no flag stays behind**: along any syncs with branches of one block tree,
every spendable note is a leaf of the branch the last one read. -/
theorem World.no_phantom_notes {w : World} {info : CallInfo} {served : Set (List MinedBlock)}
    (binding : w.Binding served) {start : WalletStore} {branches : List Branch}
    (memD : D ∈ w.branches info served) (begins : D.Begins start)
    (honest : ∀ E ∈ branches ++ [C], E ∈ w.branches info served)
    (run : SyncRun W (fun store E => E.Sheds W store) start (branches ++ [C]) after) :
    ∀ n ∈ after.unspent, ∃ i, C.Holds i n.commitment := by
  obtain ⟨E, -, height, -, locates, ends⟩ := run.locates (World.bound binding) memD begins honest
  obtain ⟨rfl, rfl⟩ := ends C List.getLast?_concat
  intro n mem
  obtain ⟨stored, spendable⟩ := List.mem_filter.1 mem
  rw [Bool.and_eq_true] at spendable
  exact ⟨n.leafIndex, locates n stored spendable.2⟩

/-! ## Runs on fixed chains -/

/-- **What the initial parts of some chains need to be bound**: where two chains part, both roots
differ. -/
theorem World.binding_of_stories {w : World} {ι : Type} {story : ι → List MinedBlock}
    (headers : CollisionFree w.H.hashToFelts {x | ∃ a k, k < (story a).length ∧
      x = (w.headerAt (story a) (k + 1)).toHeader.preimage w.H})
    (part : ∀ a a' k b b', (story a)[k]? = some b → (story a')[k]? = some b' →
      (story a).take k = (story a').take k ∧ b = b' ∨
      bytesToDigestLossy (w.stateRoot (w.closed (w.grow ((story a).take k)) b)) ≠
        bytesToDigestLossy (w.stateRoot (w.closed (w.grow ((story a').take k)) b')) ∧
      bytesToDigestLossy ((w.extrinsicsRoot b.body).getD 0) ≠
        bytesToDigestLossy ((w.extrinsicsRoot b'.body).getD 0)) :
    w.Binding {blocks | ∃ a length, (story a).take length = blocks} := by
  -- The blocks of an initial part and what is below them are the chain's.
  have inside : ∀ {a length k b}, ((story a).take length)[k]? = some b →
      (story a)[k]? = some b ∧ ((story a).take length).take k = (story a).take k := by
    intro a length k b here
    rw [List.getElem?_take] at here
    split at here
    · next lt => exact ⟨here, by rw [List.take_take, Nat.min_eq_left lt.le]⟩
    · cases here
  have sub : {x | ∃ blocks ∈ {blocks | ∃ a length, (story a).take length = blocks},
      ∃ k, k < blocks.length ∧ x = (w.headerAt blocks (k + 1)).toHeader.preimage w.H} ⊆
      {x | ∃ a k, k < (story a).length ∧
        x = (w.headerAt (story a) (k + 1)).toHeader.preimage w.H} := by
    rintro _ ⟨_, ⟨a, length, rfl⟩, k, lt, rfl⟩
    obtain ⟨here, below⟩ := inside (List.getElem?_eq_getElem lt)
    refine ⟨a, k, (List.getElem?_eq_some_iff.1 here).1, ?_⟩
    rw [World.headerAt, World.headerAt, List.getElem?_eq_getElem lt, here, below]
  refine ⟨⟨headers.injOn.mono sub, fun x mem => headers.ne_zero x (sub mem)⟩, ?_, ?_⟩
  · rintro _ ⟨a, length, rfl⟩ _ ⟨a', length', rfl⟩ k b b' here here' same
    obtain ⟨at_b, below⟩ := inside here
    obtain ⟨at_b', below'⟩ := inside here'
    rw [below, below'] at same ⊢
    rcases part a a' k b b' at_b at_b' with ⟨equal, rfl⟩ | ⟨differ, -⟩
    · rw [equal]
    · exact absurd same differ
  · rintro _ ⟨a, length, rfl⟩ _ ⟨a', length', rfl⟩ k b b' here here' same
    rcases part a a' k b b' (inside here).1 (inside here').1 with ⟨-, rfl⟩ | ⟨-, differ⟩
    · rfl
    · exact absurd same differ

namespace Sample

/-- The small sponge, with bytes hashed and packed as field elements. -/
def mintSponge : Poseidon2 :=
  { sampleSponge with
    hashBytes := fun bytes => sampleSponge.hashToFelts ((bytes.take 100).map fun b => (b.toNat : Felt))
    bytesToFelts := fun bytes => bytes.map fun b => (b.toNat : Felt) }

/-- A root over the first bytes of every extrinsic. -/
def bodyRoot (body : List (List UInt8)) : Option Hash256 :=
  some (digestBytes (mintSponge.hashBytes (body.flatMap fun bytes => bytes.take 40)))

/-- The chains from one genesis block, on which blocks have authors. The tree's root stands for the
root of the state. -/
def mintWorld : World where
  H := mintSponge
  cfg := runtime
  genesis := { genesis 0 with blockHash := fun _ => rawGenesis.toHeader.hash mintSponge }
  genesisHeader := rawGenesis
  stateRoot c := c.tree.root
  extrinsicsRoot := bodyRoot
  leafless := ⟨rfl, fun _ => rfl, fun _ => rfl⟩
  number_eq := rfl
  parent_eq := rfl

/-- A wallet that mines on these chains, and can read no ciphertext. -/
def mintWallet : Wallet := ⟨mintSponge, bodyRoot, runtimeMetadata, ⟨1, 2, 3, fun _ => none⟩⟩

def bareCall (call : ShieldedCall) : Extrinsic × List ShieldedCall :=
  (⟨.bare 4 (.inl rfl), .shielded call⟩, [call])

/-- A block of an author, with what else is in it. -/
def blockOf (inner : Hash256) (others : List ((Extrinsic × List ShieldedCall) × Op)) :
    MinedBlock where
  extrinsics := bareCall (.coinbase inner []) :: others.map Prod.fst
  ops := .coinbase inner [] :: others.map Prod.snd
  logs := []
  nextHasAuthor := true

/-- The extrinsic executes one call, and the runtime does what it asks for. -/
def PerformsOne (x : Extrinsic × List ShieldedCall) (op : Op) : Prop :=
  ∃ call, x.2 = [call] ∧ Executes x.1.preamble.origin x.1.call [call] ∧ Performs call op ∧
    op.isFee = false

theorem valid_of_blockOf {blocks : List MinedBlock} (short : blocks.length < Machine.u32Max)
    (made : ∀ b ∈ blocks, ∃ inner others, b = blockOf inner others ∧
      ∀ other ∈ others, PerformsOne other.1 other.2)
    (admitted : ∀ b ∈ blocks, ∀ x ∈ b.extrinsics,
      qneroCallFilter callInfo x.1.call = true ∧ x.1.encode.length ≤ runtimeBlockLength) :
    Valid callInfo blocks where
  length_lt := short
  executes b mem x inside := by
    refine ⟨⟨(admitted b mem x inside).1, (admitted b mem x inside).2⟩, ?_⟩
    obtain ⟨inner, others, rfl, each⟩ := made b mem
    rcases List.mem_cons.1 inside with rfl | inside
    · exact .coinbase
    · obtain ⟨other, at_other, rfl⟩ := List.mem_map.1 inside
      obtain ⟨call, is, executes, -⟩ := each other at_other
      rw [is]
      exact executes
  performs b mem := by
    obtain ⟨inner, others, rfl, each⟩ := made b mem
    have all : List.Forall₂ Performs ((others.map Prod.fst).flatMap Prod.snd)
        ((others.map Prod.snd).filter fun op => !op.isFee) := by
      clear mem
      induction others with
      | nil => exact .nil
      | cons other others ih =>
        rw [List.forall_mem_cons] at each
        obtain ⟨⟨call, is, -, performs, paid⟩, rest⟩ := each
        rw [List.map_cons, List.map_cons, List.flatMap_cons, is,
          List.filter_cons_of_pos (by simpa using paid)]
        exact .cons performs (ih rest)
    exact .cons .coinbase all

def minerView : MinerView := ⟨mintWallet.minerKey, mintWorld.genesisHeader.toHeader.hash mintSponge⟩

/-- The wallet's own block. -/
def ownBlock : MinedBlock := blockOf (digestBytes (minerView.coinbaseInner mintSponge 1)) []

def strangerBlock : MinedBlock := blockOf (digestBytes 5) []

def minted : Option Note := mintWallet.minerKey.coinbaseNote mintSponge minerView.genesisHash 1
  (((mintWorld.grow [ownBlock]).coinbaseValues 0).getD 0)

def mintedNullifier : Digest := (minted.map fun note => note.nullifier mintSponge 2).getD 0

/-- A spend of the note of that block. -/
def spendingSegment : Segment where
  blockHash := mintWorld.hashAt [ownBlock] 1
  blockNumber := 1
  slots := [⟨![digestBytes mintedNullifier, digestBytes 9], ![digestBytes 10, digestBytes 11], 10,
    ctDigest mintSponge [ciphertext, ciphertext]⟩]

def spendingBlock : MinedBlock :=
  blockOf (digestBytes 6)
    [(bareCall (.submitPrivateBatch [] outputsOf), .settle ⟨[spendingSegment]⟩ outputsOf)]

/-- The branch of the wallet's block, or the one of strangers. -/
def story (own : Bool) : List MinedBlock :=
  if own then [ownBlock, spendingBlock] else [strangerBlock, strangerBlock]

theorem valid_story (own : Bool) : Valid callInfo (story own) := by
  have settles : PerformsOne (bareCall (.submitPrivateBatch [] outputsOf))
      (.settle ⟨[spendingSegment]⟩ outputsOf) := ⟨_, rfl, .settle rfl, .privateBatch, rfl⟩
  refine valid_of_blockOf ?_ ?_ ?_
  · cases own <;> decide
  · cases own
    · exact List.forall_mem_cons.2 ⟨⟨_, [], rfl, nofun⟩,
        List.forall_mem_singleton.2 ⟨_, [], rfl, nofun⟩⟩
    · exact List.forall_mem_cons.2 ⟨⟨_, [], rfl, nofun⟩,
        List.forall_mem_singleton.2 ⟨_, _, rfl, List.forall_mem_singleton.2 settles⟩⟩
  · cases own <;> decide +kernel

def tip (own : Bool) (length : ℕ) : Branch := mintWorld.branch ((valid_story own).take length)

def synced (own : Bool) (length : ℕ) (store : WalletStore) : Except SyncError SyncReport × WalletStore :=
  exec (mintWallet.syncWith (tip own length).node ⟨false⟩ true) store

def tips : Set (List MinedBlock) := {blocks | ∃ own length, (story own).take length = blocks}

theorem tip_mem (own : Bool) (length : ℕ) : tip own length ∈ mintWorld.branches callInfo tips :=
  ⟨_, ⟨own, length, rfl⟩, (valid_story own).take length, rfl⟩

def mintLists : List (List Felt) :=
  [true, false].flatMap fun own => [0, 1].map fun k =>
    (mintWorld.headerAt (story own) (k + 1)).toHeader.preimage mintSponge

/-- The two branches have other states and other bodies at every height. -/
theorem apart : ∀ k < 2, ∀ b ∈ (story true)[k]?, ∀ b' ∈ (story false)[k]?,
    bytesToDigestLossy (mintWorld.stateRoot (mintWorld.closed (mintWorld.grow ((story true).take k)) b)) ≠
      bytesToDigestLossy
        (mintWorld.stateRoot (mintWorld.closed (mintWorld.grow ((story false).take k)) b')) ∧
    bytesToDigestLossy ((mintWorld.extrinsicsRoot b.body).getD 0) ≠
      bytesToDigestLossy ((mintWorld.extrinsicsRoot b'.body).getD 0) := by
  decide +kernel

theorem binding_tips : mintWorld.Binding tips := by
  have two : ∀ own, (story own).length = 2 := by rintro (_ | _) <;> rfl
  refine World.binding_of_stories ?_ ?_
  · have lists : CollisionFree mintSponge.hashToFelts {x | x ∈ mintLists} :=
      collisionFree_sampleSponge (by decide +kernel)
    have sub : {x | ∃ own k, k < (story own).length ∧
        x = (mintWorld.headerAt (story own) (k + 1)).toHeader.preimage mintSponge} ⊆
        {x | x ∈ mintLists} := by
      rintro _ ⟨own, k, lt, rfl⟩
      rw [two] at lt
      exact List.mem_flatMap.2 ⟨own, by cases own <;> decide, List.mem_map.2
        ⟨k, by interval_cases k <;> decide, rfl⟩⟩
    exact ⟨lists.injOn.mono sub, fun x mem => lists.ne_zero x (sub mem)⟩
  · intro own own' k b b' here here'
    have lt : k < 2 := two own ▸ (List.getElem?_eq_some_iff.1 here).1
    cases own <;> cases own'
    · exact .inl ⟨rfl, Option.some.inj (here.symm.trans here')⟩
    · have differ := apart k lt b' here' b here
      exact .inr ⟨differ.1.symm, differ.2.symm⟩
    · exact .inr (apart k lt b here b' here')
    · exact .inl ⟨rfl, Option.some.inj (here.symm.trans here')⟩

end Sample

open Sample in
/-- The note of an orphaned block is let go, and found again. -/
theorem no_phantom_notes_refound :
    ∃ after, SyncRun mintWallet (fun store E => E.Sheds mintWallet store) .new
        [tip true 1, tip false 1, tip true 1] after ∧
      (∃ n, after.unspent = [n]) ∧ ∀ n ∈ after.unspent, ∃ i, (tip true 1).Holds i n.commitment := by
  let one := (synced true 1 .new).2
  let two := (synced false 1 one).2
  let three := (synced true 1 two).2
  have ran : (synced true 1 .new).1.isOk = true ∧ (synced false 1 one).1.isOk = true ∧
      (synced true 1 two).1.isOk = true ∧ three.unspent.length = 1 ∧
      (∀ n ∈ one.notes, digestBytes n.nullifier ∉ (tip false 1).settled ∧
        (n.spent = true → n.aboveThisHead (tip false 1).head = false)) ∧
      ∀ n ∈ two.notes, n.onChain = false := by
    decide +kernel
  obtain ⟨first, second, third, single, unspent, off⟩ := ran
  have run : SyncRun mintWallet (fun store E => E.Sheds mintWallet store) .new
      ([tip true 1, tip false 1] ++ [tip true 1]) three := by
    refine ((SyncRun.nil.snoc nofun (Wallet.syncs_of_isOk first)).snoc ?_ (Wallet.syncs_of_isOk second)).snoc ?_
      (Wallet.syncs_of_isOk third)
    · exact fun n mem _ => .inr (.inr (unspent n mem))
    · intro n mem on
      rw [off n mem] at on
      cases on
  refine ⟨three, run, List.length_eq_one_iff.1 single, ?_⟩
  exact World.no_phantom_notes binding_tips (tip_mem true 1) ⟨⟨0, Branch.readTo_new _⟩, rfl⟩
    (by simp [tip_mem]) run

open Sample in
/-- The wallet's own block is orphaned after its note was spent. The sync behind the fork sees a lower
head, so the flag stays and the note is passed over; the next one finds no fork, drops the flag and
marks nothing. -/
theorem phantom_note :
    mintWorld.Binding tips ∧
    ∃ after, SyncRun mintWallet (fun _ _ => True) .new
        [tip true 1, tip true 2, tip false 1, tip false 2] after ∧
      (∀ E ∈ [tip true 1, tip true 2, tip false 1, tip false 2],
        E ∈ mintWorld.branches callInfo tips) ∧
      ∃ n ∈ after.unspent, ∀ i, ¬ (tip false 2).Holds i n.commitment := by
  let one := (synced true 1 .new).2
  let two := (synced true 2 one).2
  let three := (synced false 1 two).2
  let four := (synced false 2 three).2
  have ran : (synced true 1 .new).1.isOk = true ∧ (synced true 2 one).1.isOk = true ∧
      (synced false 1 two).1.isOk = true ∧ (synced false 2 three).1.isOk = true ∧
      ∃ n ∈ four.unspent, ∀ i < (tip false 2).count (tip false 2).head,
        ((tip false 2).record i).commitment ≠ some (digestBytes n.commitment) := by
    decide +kernel
  obtain ⟨first, second, third, fourth, n, mem, nowhere⟩ := ran
  have run : SyncRun mintWallet (fun _ _ => True) .new
      ([tip true 1, tip true 2, tip false 1] ++ [tip false 2]) four :=
    (((SyncRun.nil.snoc trivial (Wallet.syncs_of_isOk first)).snoc trivial (Wallet.syncs_of_isOk second)).snoc
      trivial (Wallet.syncs_of_isOk third)).snoc trivial (Wallet.syncs_of_isOk fourth)
  refine ⟨binding_tips, four, run, ?_, ?_⟩
  · simp [tip_mem]
  · exact ⟨n, mem, fun i holds => nowhere i holds.1 holds.2⟩

end Qnero
