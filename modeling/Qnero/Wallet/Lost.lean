import Qnero.Wallet.Phantom

/-!
# Notes a sync does not count

What a branch owes a wallet is more than what a sync of it takes out: a payload inside a wrapper is
not walked (`MinedBlock.Plain`). And a note that was taken out is counted only as long as three things
do not happen at a fork (`Branch.Recovers`): it was refused because it was spent, and the spend is
gone while its leaf is below where the sync resumes; it was met at two leaves, and the later one is
gone; or a spent flag was seen above the new head. `lost_note` is a run with the second.

Under these conditions every output of the branch is held on chain or on the list of refusals
(`Branch.Keeps`), along every run.
-/

namespace Qnero

open Plonkish

variable {C D : Branch} {W : Wallet} {store after : WalletStore} {height : ℕ}

/-! ## The conditions -/

/-- **What a sync with the branch needs** to count every unspent note of it. -/
structure Branch.Recovers (W : Wallet) (store : WalletStore) (C : Branch) : Prop where
  /-- An output that was refused is settled, or there again behind where the sync resumes. -/
  refused : ∀ receipt, C.Offers W receipt → receipt.leafIndex < C.resumeLeaf store →
    digestBytes (W.nullifierOf receipt) ∉ C.settled → store.Refuses receipt.commitment →
      ∃ again, C.Offers W again ∧ C.resumeLeaf store ≤ again.leafIndex ∧
        again.commitment = receipt.commitment
  /-- A held note is at a leaf below where the sync resumes, or there again behind it. -/
  moved : ∀ receipt, C.Offers W receipt → receipt.leafIndex < C.resumeLeaf store →
    digestBytes (W.nullifierOf receipt) ∉ C.settled →
      ∀ n ∈ store.notes, n.commitment = receipt.commitment → n.leafIndex < C.resumeLeaf store ∨
        ∃ again, C.Offers W again ∧ C.resumeLeaf store ≤ again.leafIndex ∧
          again.commitment = receipt.commitment
  /-- No spent flag was seen above the head. -/
  flagged : ∀ receipt, C.Offers W receipt → digestBytes (W.nullifierOf receipt) ∉ C.settled →
    ∀ n ∈ store.notes, n.commitment = receipt.commitment → n.spent = true →
      n.aboveThisHead C.head = false

/-- Receipts of one commitment are of one nullifier. -/
def Wallet.Distinguishes (W : Wallet) (served : Set Branch) : Prop :=
  ∀ E ∈ served, ∀ receipt, E.Offers W receipt → ∀ E' ∈ served, ∀ receipt', E'.Offers W receipt' →
    receipt.commitment = receipt'.commitment → W.nullifierOf receipt = W.nullifierOf receipt'

/-! ## What is kept -/

/-- **Every output the store has read is held on chain or refused.** -/
structure Branch.Keeps (W : Wallet) (served : Set Branch) (D : Branch) (height : ℕ)
    (store : WalletStore) : Prop where
  sourced : ∀ n ∈ store.notes, ∃ E ∈ served, ∃ receipt, E.Offers W receipt ∧
    receipt.commitment = n.commitment ∧ W.nullifierOf receipt = n.nullifier
  apart : ∀ c, store.Refuses c → store.hasCommitment c = false
  kept : ∀ receipt, D.Offers W receipt → receipt.leafIndex < D.count height →
    (∃ n ∈ store.notes, n.commitment = receipt.commitment ∧ n.onChain = true) ∨
      store.Refuses receipt.commitment

variable {served : Set Branch} {n : StoredNote}

/-- A new store has read nothing. -/
theorem Branch.keeps_new : D.Keeps W served 0 .new where
  sourced := nofun
  apart := nofun
  kept receipt _ below := by
    rw [D.count_zero] at below
    cases below

/-- What is offered below a common height is offered by both branches. -/
theorem Branch.Agree.offers {j : ℕ} {receipt : Receipt} (agree : C.Agree D j) (le : j ≤ D.head)
    (offers : C.Offers W receipt) (below : receipt.leafIndex < C.count j) :
    D.Offers W receipt := by
  have inside : ∀ {i}, i < C.count j → i < D.count D.head := fun lt =>
    lt_of_lt_of_le (agree.count_eq j le_rfl ▸ lt) (D.count_mono le)
  cases offers with
  | coinbase here date leaf minted own =>
    have same := agree.record_eq _ below
    rw [same] at date leaf minted
    rw [agree.hash_eq 0 (Nat.zero_le _)] at own
    exact .coinbase (inside below) date leaf minted own
  | @payload i k bytes received here date leaf first carried opens =>
    have same := agree.record_eq _ below
    obtain ⟨d, date', cut⟩ := C.dated i here
    obtain rfl : k = d := Option.some.inj (date.symm.trans date')
    have body : C.payloads W.metadata k = D.payloads W.metadata k := by
      rw [payloads, payloads, agree.body_eq k ((cut j).2 below)]
    rw [same] at date leaf
    rw [body] at carried
    refine .payload (inside below) date leaf (fun i' lt dated => ?_) carried opens
    rw [← agree.record_eq i' (lt_trans lt below)] at dated ⊢
    exact first i' lt dated

/-! ## One note -/

/-- A note with a settled nullifier is spent. -/
theorem StoredNote.reconcile_of_settled {settled : Finset Hash256} {head : ℕ}
    (is : digestBytes n.nullifier ∈ settled) :
    (n.reconcile settled head .bothWays).spent = true := by
  unfold reconcile
  rw [decide_eq_true is]
  cases spent : n.spent with
  | false => rfl
  | true => exact spent

/-- A note on chain stays there, and so does one that is met. -/
theorem onChain_placeAll {receipts : List Receipt}
    (either : n.onChain = true ∨ ∃ receipt ∈ receipts, receipt.commitment = n.commitment) :
    (placeAll receipts n).onChain = true := by
  rw [placeAll_eq]
  cases last : lastAt receipts n.commitment with
  | some receipt => rfl
  | none =>
    refine either.resolve_right fun met => ?_
    obtain ⟨receipt, found⟩ := lastAt_isSome_iff.2 met
    rw [last] at found
    cases found

/-- A note that is met is on chain. -/
theorem Wallet.onChain_of_met {entries : ℕ} {receipts : List Receipt}
    (mem : n ∈ (W.take entries receipts store).notes)
    (met : ∃ receipt ∈ receipts, receipt.commitment = n.commitment) : n.onChain = true := by
  rcases mem_take_notes mem with ⟨m, -, rfl⟩ | ⟨receipt, -, later, -, -, rfl⟩
  · rw [placeAll_commitment] at met
    exact onChain_placeAll (.inr met)
  · exact onChain_placeAll (.inl rfl)

/-! ## One sync -/

namespace Synced

variable {base : WalletStore} {receipts : List Receipt} {seen : List Digest} {marks : Bool}
  {receipt : Receipt} {n : StoredNote} {c : Digest}

section

variable (synced : Synced W C store after base receipts seen marks)
include synced

/-- A note behind the receipts, as the end of the pass leaves it. -/
theorem mem_after (mem : n ∈ (W.take C.entries receipts base).notes) :
    (n.reconcile C.settled C.head .bothWays).orphan marks (C.resumeLeaf store) seen ∈ after.notes := by
  rw [synced.notes_eq]
  exact List.mem_map_of_mem mem

/-- A note on chain that was met, is below where the sync resumed or is settled stays on chain. -/
theorem onChain_after (mem : n ∈ (W.take C.entries receipts base).notes) (on : n.onChain = true)
    (stays : (∃ receipt ∈ receipts, receipt.commitment = n.commitment) ∨
      n.leafIndex < C.resumeLeaf store ∨ digestBytes n.nullifier ∈ C.settled) :
    ((n.reconcile C.settled C.head .bothWays).orphan marks (C.resumeLeaf store) seen).onChain =
      true := by
  have same : (n.reconcile C.settled C.head .bothWays).onChain = true :=
    (StoredNote.reconcile_frame StoredNote.onChain fun _ _ _ => rfl).trans on
  have leaf : (n.reconcile C.settled C.head .bothWays).leafIndex = n.leafIndex :=
    StoredNote.reconcile_frame StoredNote.leafIndex fun _ _ _ => rfl
  have commitment : (n.reconcile C.settled C.head .bothWays).commitment = n.commitment :=
    StoredNote.reconcile_frame StoredNote.commitment fun _ _ _ => rfl
  unfold StoredNote.orphan
  split
  · next marked =>
    obtain ⟨is, above, unseen⟩ := marked
    rcases stays with met | below | settled
    · rw [commitment, synced.seen_iff is] at unseen
      exact absurd ⟨WalletStore.hasCommitment_iff.2 ⟨n, mem, rfl⟩, met⟩ unseen
    · rw [leaf] at above
      omega
    · rw [StoredNote.markOffChain, if_pos (.inl (StoredNote.reconcile_of_settled settled))]
      exact same
  · exact same

/-- A refusal goes only where the output is held. -/
theorem refuses_after (refuses : (W.take C.entries receipts base).Refuses c)
    (unheld : (W.take C.entries receipts base).hasCommitment c = false) : after.Refuses c := by
  obtain ⟨entry, mem, rfl⟩ := refuses
  refine ⟨entry, ?_, rfl⟩
  rw [synced.rejected_eq]
  split
  · exact List.mem_filter.2 ⟨mem, by rw [unheld]; rfl⟩
  · exact mem

/-- **What a receipt leaves**: a note on chain, or a refusal. -/
theorem kept_of_mem (mem : receipt ∈ receipts) :
    (∃ n ∈ after.notes, n.commitment = receipt.commitment ∧ n.onChain = true) ∨
      after.Refuses receipt.commitment := by
  by_cases held : (W.take C.entries receipts base).hasCommitment receipt.commitment = true
  · obtain ⟨n, inside, same⟩ := WalletStore.hasCommitment_iff.1 held
    have met : ∃ receipt ∈ receipts, receipt.commitment = n.commitment := ⟨receipt, mem, same.symm⟩
    refine .inl ⟨_, synced.mem_after inside, ?_,
      synced.onChain_after inside (Wallet.onChain_of_met inside met) (.inl met)⟩
    rw [StoredNote.finish_frame StoredNote.commitment (fun _ _ _ => rfl) fun _ _ => rfl, same]
  · exact .inr (synced.refuses_after ((Wallet.held_or_refused mem).resolve_left held)
      (Bool.eq_false_of_not_eq_true held))

/-- The end of the pass adds no note and drops none. -/
theorem hasCommitment_after :
    after.hasCommitment c = (W.take C.entries receipts base).hasCommitment c := by
  unfold WalletStore.hasCommitment
  rw [synced.notes_eq, List.any_map]
  congr 1
  funext n
  show decide (StoredNote.commitment _ = c) = _
  rw [StoredNote.finish_frame StoredNote.commitment (fun _ _ _ => rfl) fun _ _ => rfl]

/-- What is held is not on the list of refusals. -/
theorem apart_after (apart : ∀ c, store.Refuses c → store.hasCommitment c = false)
    (refuses : after.Refuses c) :
    after.hasCommitment c = false := by
  rw [synced.hasCommitment_after]
  obtain ⟨entry, mem, rfl⟩ := refuses
  rw [synced.rejected_eq] at mem
  split at mem
  · have unheld := (List.mem_filter.1 mem).2
    rwa [Bool.not_eq_true'] at unheld
  · next scanned =>
    -- Without leaves to scan there are no receipts.
    have none : receipts = [] := List.eq_nil_iff_forall_not_mem.2 fun receipt inside => by
      obtain ⟨offers, above⟩ := (synced.receipts_iff receipt).1 inside
      have below := offers.holds.1
      omega
    subst none
    have unheld := apart entry.commitment ⟨entry, synced.base_rejected ▸ mem, rfl⟩
    rw [WalletStore.hasCommitment, ← synced.base_notes] at unheld
    exact unheld

/-- An unsettled receipt leaves a note. -/
theorem held_of_mem (mem : receipt ∈ receipts)
    (unsettled : digestBytes (W.nullifierOf receipt) ∉ C.settled) :
    after.hasCommitment receipt.commitment = true := by
  rw [synced.hasCommitment_after]
  refine (Wallet.held_or_settled mem).resolve_right fun settled => unsettled ?_
  rw [WalletStore.nullifierSettled, synced.base_used] at settled
  exact of_decide_eq_true settled

/-- A note of the store, behind the receipts. -/
theorem mem_take (mem : n ∈ store.notes) :
    placeAll receipts n ∈ (W.take C.entries receipts base).notes := by
  obtain ⟨new, notes, -⟩ := W.take_notes C.entries receipts base
  rw [notes, synced.base_notes]
  exact List.mem_append_left _ (List.mem_map_of_mem mem)

/-- The flag of a note without a settled nullifier falls. -/
theorem spent_after (mem : n ∈ after.notes) (unsettled : digestBytes n.nullifier ∉ C.settled)
    (falls : ∀ m ∈ store.notes, m.commitment = n.commitment → m.spent = true →
      m.aboveThisHead C.head = false) : n.spent = false := by
  rw [synced.notes_eq] at mem
  obtain ⟨m, taken, rfl⟩ := List.mem_map.1 mem
  rw [StoredNote.finish_frame StoredNote.nullifier (fun _ _ _ => rfl) fun _ _ => rfl] at unsettled
  rw [StoredNote.finish_frame StoredNote.commitment (fun _ _ _ => rfl) fun _ _ => rfl] at falls
  rw [StoredNote.orphan_frame StoredNote.spent fun _ _ => rfl]
  refine StoredNote.reconcile_unspent unsettled fun spent => ?_
  rcases Wallet.mem_take_notes taken with ⟨old, held, rfl⟩ | ⟨receipt, -, later, -, -, rfl⟩
  · rw [placeAll_frame StoredNote.spent fun _ _ _ => rfl] at spent
    rw [placeAll_commitment] at falls
    rw [synced.base_notes] at held
    rw [StoredNote.aboveThisHead, placeAll_frame StoredNote.spentSeenAtBlock fun _ _ _ => rfl]
    exact falls old held rfl spent
  · rw [placeAll_frame StoredNote.spent fun _ _ _ => rfl] at spent
    cases spent

/-- Every note comes from a receipt. -/
theorem sourced_after (memC : C ∈ served)
    (sourced : ∀ n ∈ store.notes, ∃ E ∈ served, ∃ receipt, E.Offers W receipt ∧ receipt.commitment = n.commitment ∧ W.nullifierOf receipt = n.nullifier)
    (mem : n ∈ after.notes) : ∃ E ∈ served, ∃ receipt, E.Offers W receipt ∧
      receipt.commitment = n.commitment ∧ W.nullifierOf receipt = n.nullifier := by
  rw [synced.notes_eq] at mem
  obtain ⟨m, taken, rfl⟩ := List.mem_map.1 mem
  rw [StoredNote.finish_frame StoredNote.nullifier (fun _ _ _ => rfl) fun _ _ => rfl,
    StoredNote.finish_frame StoredNote.commitment (fun _ _ _ => rfl) fun _ _ => rfl]
  rcases Wallet.mem_take_notes taken with ⟨old, held, rfl⟩ | ⟨receipt, found, later, -, -, rfl⟩
  · rw [placeAll_commitment, placeAll_frame StoredNote.nullifier fun _ _ _ => rfl]
    exact sourced old (synced.base_notes ▸ held)
  · rw [placeAll_commitment, placeAll_frame StoredNote.nullifier fun _ _ _ => rfl]
    exact ⟨C, memC, receipt, ((synced.receipts_iff receipt).1 found).1, rfl, rfl⟩

end

end Synced

/-- **A sync keeps every output in sight.** -/
theorem Branch.Keeps.synced (bound : Branch.Bound served) (distinct : W.Distinguishes served)
    (memC : C ∈ served) (memD : D ∈ served) (readTo : D.ReadTo height store)
    (keeps : D.Keeps W served height store) (recovers : C.Recovers W store)
    (syncs : W.Syncs C store after) :
    C.Keeps W served C.head after ∧
      ∀ receipt, C.Offers W receipt → digestBytes (W.nullifierOf receipt) ∉ C.settled →
        ∃ n ∈ after.unspent, n.commitment = receipt.commitment := by
  obtain ⟨-, base, receipts, seen, marks, synced⟩ := syncs.synced bound memC memD readTo
  obtain ⟨j, -, j_le, agree, resume, -⟩ := exists_shared bound memC memD readTo
  -- Below where the sync resumes, the store has read what the branch offers.
  have read : ∀ receipt, C.Offers W receipt → receipt.leafIndex < C.resumeLeaf store →
      (∃ n ∈ store.notes, n.commitment = receipt.commitment ∧ n.onChain = true) ∨
        store.Refuses receipt.commitment := by
    intro receipt offers low
    rw [resume] at low
    refine keeps.kept receipt
      (agree.offers (le_trans j_le readTo.height_le) offers low) ?_
    rw [agree.count_eq j le_rfl] at low
    exact lt_of_lt_of_le low (D.count_mono j_le)
  -- A held note and a receipt of its commitment have one nullifier.
  have nullifier : ∀ receipt, C.Offers W receipt → ∀ n ∈ store.notes,
      n.commitment = receipt.commitment → W.nullifierOf receipt = n.nullifier := by
    intro receipt offers n mem same
    obtain ⟨E, memE, source, offered, is, from_source⟩ := keeps.sourced n mem
    rw [← from_source]
    exact distinct C memC receipt offers E memE source offered (same.symm.trans is.symm)
  have met : ∀ receipt, C.Offers W receipt → C.resumeLeaf store ≤ receipt.leafIndex →
      receipt ∈ receipts := fun receipt offers above =>
    (synced.receipts_iff receipt).2 ⟨offers, above⟩
  have apart := fun c => synced.apart_after (c := c) keeps.apart
  -- Nothing that is offered gets out of sight, below the resumption or above it.
  have kept : ∀ receipt, C.Offers W receipt →
      (∃ n ∈ after.notes, n.commitment = receipt.commitment ∧ n.onChain = true) ∨
        after.Refuses receipt.commitment := by
    intro receipt offers
    by_cases low : receipt.leafIndex < C.resumeLeaf store
    · rcases read receipt offers low with ⟨n, mem, same, on⟩ | refuses
      · have on' : (placeAll receipts n).onChain = true :=
          onChain_placeAll (.inl on)
        refine .inl ⟨_, synced.mem_after (synced.mem_take mem), ?_,
          synced.onChain_after (synced.mem_take mem) on' ?_⟩
        · rw [StoredNote.finish_frame StoredNote.commitment (fun _ _ _ => rfl) fun _ _ => rfl,
            placeAll_commitment, same]
        · -- The end of the pass would mark it only if the fork had moved it.
          rw [placeAll_commitment]
          by_contra moves
          push Not at moves
          obtain ⟨unmet, above, unsettled⟩ := moves
          have unplaced : placeAll receipts n = n :=
            placeAll_of_unmet fun ⟨other, inside, is⟩ => unmet other inside is
          rw [unplaced] at above unsettled
          rw [← nullifier receipt offers n mem same] at unsettled
          rcases recovers.moved receipt offers low unsettled n mem same with below | ⟨again, offered,
            behind, is⟩
          · omega
          · exact unmet again (met again offered behind) (is.trans same.symm)
      · have refuses' : (W.take C.entries receipts base).Refuses receipt.commitment := by
          refine Wallet.take_refuses ?_
          rw [WalletStore.Refuses, synced.base_rejected]
          exact refuses
        by_cases held : (W.take C.entries receipts base).hasCommitment receipt.commitment = true
        · -- Held now and not before: it was met.
          have unheld : base.hasCommitment receipt.commitment = false := by
            rw [WalletStore.hasCommitment, synced.base_notes]
            exact keeps.apart _ refuses
          rcases Wallet.exists_of_hasCommitment_take held with was | ⟨other, inside, is⟩
          · rw [unheld] at was
            cases was
          · rw [← is]
            exact synced.kept_of_mem inside
        · exact .inr (synced.refuses_after refuses' (Bool.eq_false_of_not_eq_true held))
    · exact synced.kept_of_mem (met receipt offers (Nat.le_of_not_lt low))
  refine ⟨⟨fun n mem => synced.sourced_after memC keeps.sourced mem, apart,
    fun receipt offers _ => kept receipt offers⟩, fun receipt offers unsettled => ?_⟩
  rcases kept receipt offers with ⟨n, mem, same, on⟩ | refuses
  · -- What is held on chain is counted, since its flag falls.
    obtain ⟨E, memE, source, offered, is, from_source⟩ :=
      synced.sourced_after memC keeps.sourced mem
    have own : W.nullifierOf receipt = n.nullifier := by
      rw [← from_source]
      exact distinct C memC receipt offers E memE source offered (same.symm.trans is.symm)
    have spent := synced.spent_after mem (own ▸ unsettled) fun m held is =>
      recovers.flagged receipt offers unsettled m held (is.trans same)
    exact ⟨n, List.mem_filter.2 ⟨mem, by rw [spent, on]; rfl⟩, same⟩
  · -- A refused output is settled.
    have unheld := apart _ refuses
    have impossible : ∀ other, C.Offers W other → C.resumeLeaf store ≤ other.leafIndex →
        other.commitment ≠ receipt.commitment := by
      intro other offered above is
      have same := distinct C memC other offered C memC receipt offers is
      have held := synced.held_of_mem (met other offered above) (same ▸ unsettled)
      rw [is, unheld] at held
      cases held
    by_cases low : receipt.leafIndex < C.resumeLeaf store
    · rcases read receipt offers low with ⟨n, mem, same, -⟩ | refused
      · have held : after.hasCommitment receipt.commitment = true := by
          rw [synced.hasCommitment_after, WalletStore.hasCommitment_iff]
          exact ⟨_, synced.mem_take mem, (placeAll_commitment n).trans same⟩
        rw [unheld] at held
        cases held
      · obtain ⟨again, offered, above, is⟩ := recovers.refused receipt offers low unsettled refused
        exact absurd is (impossible again offered above)
    · exact absurd rfl (impossible receipt offers (Nat.le_of_not_lt low))

/-! ## Every run -/

/-- **Along a run the store keeps what it has read**, and counts all of the last branch. -/
theorem SyncRun.keeps (bound : Branch.Bound served) (distinct : W.Distinguishes served)
    (memD : D ∈ served) {branches : List Branch} (honest : ∀ C ∈ branches, C ∈ served)
    (run : SyncRun W (fun store C => C.Recovers W store) .new branches after) :
    ∃ E ∈ served, ∃ height, E.ReadTo height after ∧ E.Keeps W served height after ∧
      ∀ last ∈ branches.getLast?, ∀ receipt, last.Offers W receipt →
        digestBytes (W.nullifierOf receipt) ∉ last.settled →
          ∃ n ∈ after.unspent, n.commitment = receipt.commitment := by
  induction run with
  | nil => exact ⟨D, memD, 0, D.readTo_new, Branch.keeps_new, fun _ impossible => nomatch impossible⟩
  | snoc run recovers syncs ih =>
    rw [List.forall_mem_append, List.forall_mem_singleton] at honest
    obtain ⟨E, memE, height, readTo, keeps, -⟩ := ih honest.1
    obtain ⟨kept, counted⟩ := keeps.synced bound distinct honest.2 memE readTo recovers syncs
    refine ⟨_, honest.2, _, (syncs.synced bound honest.2 memE readTo).1, kept, fun last ends => ?_⟩
    rw [List.getLast?_concat] at ends
    obtain rfl := Option.some.inj ends
    exact counted

/-! ## What a chain owes -/

/-- **The notes of a wallet in the tree of a branch**: its coinbase notes, and what the ciphertexts
delivered in a block open, at a leaf of the block. -/
inductive Branch.Carries (W : Wallet) (C : Branch) (delivered : ℕ → List (List UInt8)) :
    ReceivedNote → Prop where
  | coinbase {i k value : ℕ} {c : Digest} {note : ReceivedNote} (below : i < C.count C.head)
      (date : (C.record i).blockNumber = some k)
      (leaf : (C.record i).commitment = some (digestBytes c))
      (minted : (C.record i).coinbaseValue = some value)
      (own : W.receiveCoinbase (C.hash 0) k value c = some note) : Carries W C delivered note
  | payload {i k : ℕ} {bytes : List UInt8} {received : ReceivedNote} (below : i < C.count C.head)
      (date : (C.record i).blockNumber = some k)
      (leaf : (C.record i).commitment = some (digestBytes (received.note.commitment W.H)))
      (carried : bytes ∈ delivered k) (opens : W.decryptNote bytes = some received) :
      Carries W C delivered received

/-- A receipt is of the note it was opened to. -/
theorem Branch.Offers.commitment_eq {receipt : Receipt} (offers : C.Offers W receipt) :
    receipt.commitment = receipt.received.note.commitment W.H := by
  cases offers with
  | payload => rfl
  | coinbase _ _ _ _ own =>
    simp only [Wallet.receiveCoinbase, Option.bind_eq_bind, Option.bind_eq_some_iff] at own
    obtain ⟨note, -, own⟩ := own
    split at own
    · next same =>
      obtain rfl := Option.some.inj own
      exact same.symm
    · cases own

/-- Where the walk finds what is delivered, the branch offers what it carries. -/
theorem Branch.Carries.offers {delivered : ℕ → List (List UInt8)} {received : ReceivedNote}
    (carries : C.Carries W delivered received)
    (walked : ∀ k, ∀ bytes ∈ delivered k, (W.decryptNote bytes).isSome = true →
      bytes ∈ C.payloads W.metadata k) :
    ∃ receipt, C.Offers W receipt ∧ receipt.received = received := by
  cases carries with
  | coinbase below date leaf minted own => exact ⟨_, .coinbase below date leaf minted own, rfl⟩
  | @payload i k bytes _ below date leaf carried opens =>
    -- The receipt is at the first leaf of the block with the commitment.
    have some : ∃ j, j ≤ i ∧ (C.record j).blockNumber = .some k ∧
        (C.record j).commitment = .some (digestBytes (received.note.commitment W.H)) :=
      ⟨i, le_rfl, date, leaf⟩
    obtain ⟨le, date', leaf'⟩ := Nat.find_spec some
    refine ⟨_, .payload (lt_of_le_of_lt le below) date' leaf' (fun j lt dated is => ?_)
      (walked k bytes carried (opens ▸ rfl)) opens, rfl⟩
    exact Nat.find_min some lt ⟨lt.le.trans le, dated, is⟩

/-- A block whose payloads the walk finds: no tip is too large for it, and no wrapper executes a
payload that is the wallet's. -/
def MinedBlock.Plain (W : Wallet) (b : MinedBlock) : Prop :=
  ∀ x ∈ b.extrinsics, x.1.preamble.tip ≤ Machine.u64Max ∧
    (x.1.call.isWrapper = true →
      ∀ bytes ∈ x.2.flatMap ShieldedCall.ciphertexts, W.decryptNote bytes = none)

/-- The ciphertexts delivered in the block at a height. -/
def deliveredAt (blocks : List MinedBlock) : ℕ → List (List UInt8)
  | 0 => []
  | k + 1 => ((blocks[k]?).map fun b =>
    b.extrinsics.flatMap fun x => x.2.flatMap ShieldedCall.ciphertexts).getD []

/-- The walk of a whole body finds what its calls carry outside of wrappers. -/
theorem blockPayloads_encode {extrinsics : List (Extrinsic × List ShieldedCall)} {position : ℕ}
    (tips : ∀ x ∈ extrinsics, x.1.preamble.tip ≤ Machine.u64Max)
    (fits : ∀ x ∈ extrinsics, x.1.encode.length ≤ Machine.u64Max) :
    blockPayloads runtimeMetadata position (extrinsics.map fun x => x.1.encode) =
      .ok (extrinsics.flatMap fun x => x.1.call.carried) := by
  induction extrinsics generalizing position with
  | nil => rfl
  | cons x extrinsics ih =>
    rw [List.forall_mem_cons] at tips fits
    rw [List.map_cons, blockPayloads, extrinsicPayloads_encode x.1 fits.1, if_pos tips.1,
      ih tips.2 fits.2]
    rfl

/-- The walk of a plain block finds every payload of the wallet. -/
theorem World.mem_payloads {w : World} {info : CallInfo} {blocks : List MinedBlock}
    (valid : Valid info blocks) (plain : ∀ b ∈ blocks, b.Plain W) {k : ℕ} {bytes : List UInt8}
    (delivered : bytes ∈ deliveredAt blocks k) (opens : (W.decryptNote bytes).isSome = true) :
    bytes ∈ (w.branch valid).payloads runtimeMetadata k := by
  cases k with
  | zero => cases delivered
  | succ k =>
    cases here : blocks[k]? with
    | none =>
      rw [deliveredAt, here] at delivered
      cases delivered
    | some b =>
      have mem : b ∈ blocks := List.mem_of_getElem? here
      rw [deliveredAt, here] at delivered
      obtain ⟨x, at_x, inside⟩ := List.mem_flatMap.1 delivered
      obtain ⟨admitted, executes⟩ := valid.executes b mem x at_x
      have body : (w.branch valid).body (k + 1) = b.extrinsics.map fun x => x.1.encode := by
        show bodyAt blocks (k + 1) = _
        rw [bodyAt, here]
        rfl
      have walked : (w.branch valid).payloads runtimeMetadata (k + 1) =
          b.extrinsics.flatMap fun x => x.1.call.carried := by
        rw [Branch.payloads, body, blockPayloads_encode (fun x at_x => (plain b mem x at_x).1)]
        · rfl
        · intro x at_x
          exact le_trans (valid.executes b mem x at_x).1.fits (by decide)
      have direct : x.1.call.isWrapper = false := by
        by_contra wrapper
        have closed := (plain b mem x at_x).2 (Bool.eq_true_of_not_eq_false wrapper) bytes inside
        rw [closed] at opens
        cases opens
      rw [walked]
      exact List.mem_flatMap.2 ⟨x, at_x, executes.carried_eq direct ▸ inside⟩

/-- The lists that the notes of a wallet on these branches hash are among these. -/
def Wallet.NoteLists (W : Wallet) (served : Set Branch) (Q : Set (List Felt)) : Prop :=
  ∀ E ∈ served, ∀ receipt, E.Offers W receipt →
    noteInput receipt.received.note.pk receipt.received.note.rho receipt.received.note.r ∈ Q ∧
      cmInput (receipt.received.note.inner W.H) (receipt.received.note.value : Felt) ∈ Q

/-- A commitment fixes what the nullifier is hashed from. -/
theorem Wallet.NoteLists.distinguishes {Q : Set (List Felt)} (lists : W.NoteLists served Q)
    (hH : CollisionFree W.H.hashToFelts Q) : W.Distinguishes served := by
  intro E memE receipt offers E' memE' receipt' offers' same
  obtain ⟨note, cm⟩ := lists E memE receipt offers
  obtain ⟨note', cm'⟩ := lists E' memE' receipt' offers'
  rw [offers.commitment_eq, offers'.commitment_eq] at same
  have inner := (cmInput_inj.1 (hH.inj cm cm' same)).1
  obtain ⟨-, rho, r⟩ := noteInput_inj.1 (hH.inj note note' inner)
  rw [nullifierOf, nullifierOf, Note.nullifier, Note.nullifier, rho, r]

/-- **No lost notes, under the conditions**: along any syncs of a new wallet with branches of one block
tree, every note of it in the tree of the last branch that is not settled there is counted. -/
theorem World.no_lost_notes {w : World} {info : CallInfo} {served : Set (List MinedBlock)}
    {Q : Set (List Felt)} (binding : w.Binding served) (hH : CollisionFree W.H.hashToFelts Q)
    (lists : W.NoteLists (w.branches info served) Q) (metadata : W.metadata = runtimeMetadata)
    {blocks : List MinedBlock} (mem : blocks ∈ served) (valid : Valid info blocks)
    (plain : ∀ b ∈ blocks, b.Plain W) {branches : List Branch}
    (honest : ∀ E ∈ branches, E ∈ w.branches info served)
    (run : SyncRun W (fun store E => E.Recovers W store) .new (branches ++ [w.branch valid]) after) :
    ∀ received, (w.branch valid).Carries W (deliveredAt blocks) received →
      digestBytes (received.note.nullifier W.H W.keys.nk) ∉ (w.branch valid).settled →
        ∃ n ∈ after.unspent, n.commitment = received.note.commitment W.H := by
  intro received carries unsettled
  have memC : w.branch valid ∈ w.branches info served := ⟨blocks, mem, valid, rfl⟩
  obtain ⟨receipt, offers, rfl⟩ := carries.offers fun k bytes delivered opens =>
    metadata ▸ World.mem_payloads valid plain delivered opens
  obtain ⟨-, -, -, -, -, counted⟩ := run.keeps (World.bound binding) (lists.distinguishes hH) memC
    (List.forall_mem_append.2 ⟨honest, List.forall_mem_singleton.2 memC⟩)
  rw [← offers.commitment_eq]
  exact counted _ List.getLast?_concat receipt offers unsettled

/-- A sync from the first leaf on has nothing to recover but flags. -/
theorem Branch.recovers_of_start (start : C.resumeLeaf store = 0)
    (unspent : ∀ n ∈ store.notes, n.spent = false) : C.Recovers W store where
  refused receipt _ low := by
    rw [start] at low
    cases low
  moved receipt _ low := by
    rw [start] at low
    cases low
  flagged receipt _ _ n mem _ spent := by
    rw [unspent n mem] at spent
    cases spent

namespace Sample

/-- The first blocks of both branches. -/
def firsts : Set (List MinedBlock) := {blocks | ∃ own, (story own).take 1 = blocks}

theorem binding_firsts : mintWorld.Binding firsts :=
  binding_tips.mono fun _ ⟨own, is⟩ => ⟨own, 1, is⟩

/-- The lists of the wallet's coinbase note of block one. -/
def ownLists : List (List Felt) :=
  let rho := coinbaseRho mintSponge 1
  let r := coinbaseR mintSponge 3 minerView.genesisHash 1
  [noteInput 1 rho r, cmInput (noteInner mintSponge 1 rho r) 420]

theorem collisionFree_ownLists : CollisionFree mintSponge.hashToFelts {x | x ∈ ownLists} :=
  collisionFree_sampleSponge (by decide +kernel)

theorem first_leaf (own : Bool) : (tip own 1).count (tip own 1).head = 1 ∧
    ((tip own 1).record 0).blockNumber = some 1 ∧
    ((tip own 1).record 0).coinbaseValue = some 420 := by
  cases own <;> decide +kernel

theorem noteLists_firsts :
    mintWallet.NoteLists (mintWorld.branches callInfo firsts) {x | x ∈ ownLists} := by
  rintro _ ⟨_, ⟨own, rfl⟩, valid, rfl⟩ receipt offers
  obtain ⟨one, dated, minted⟩ := first_leaf own
  cases offers with
  | payload _ _ _ _ _ opens => cases opens
  | @coinbase i k value c note below date leaf minted' own =>
    obtain rfl : i = 0 := Nat.lt_one_iff.1 (one ▸ below)
    obtain rfl := Option.some.inj (date.symm.trans dated)
    obtain rfl := Option.some.inj (minted'.symm.trans minted)
    simp only [Wallet.receiveCoinbase, Option.bind_eq_bind, Option.bind_eq_some_iff] at own
    obtain ⟨made, is, own⟩ := own
    obtain rfl := Option.some.inj is
    split at own
    · obtain rfl := Option.some.inj own
      exact ⟨.head _, .tail _ (.head _)⟩
    · cases own

end Sample

open Sample in
/-- The note of an orphaned block is counted when the block is back. -/
theorem no_lost_notes_refound :
    ∃ after, SyncRun mintWallet (fun store E => E.Recovers mintWallet store) .new
        [tip true 1, tip false 1, tip true 1] after ∧
      ∃ received, (tip true 1).Carries mintWallet (deliveredAt ((story true).take 1)) received ∧
        ∃ n ∈ after.unspent, n.commitment = received.note.commitment mintSponge := by
  let one := (synced true 1 .new).2
  let two := (synced false 1 one).2
  let three := (synced true 1 two).2
  have ran : ((synced true 1 .new).1.isOk = true ∧ (synced false 1 one).1.isOk = true ∧
      (synced true 1 two).1.isOk = true) ∧ (tip false 1).resumeLeaf one = 0 ∧
      (tip true 1).resumeLeaf two = 0 ∧ (∀ n ∈ one.notes, n.spent = false) ∧
      ∀ n ∈ two.notes, n.spent = false := by
    decide +kernel
  obtain ⟨⟨first, second, third⟩, start, start', unspent, unspent'⟩ := ran
  have run : SyncRun mintWallet (fun store E => E.Recovers mintWallet store) .new
      ([tip true 1, tip false 1] ++ [tip true 1]) three := by
    refine ((SyncRun.nil.snoc ?_ (Wallet.syncs_of_isOk first)).snoc ?_ (Wallet.syncs_of_isOk second)).snoc ?_
      (Wallet.syncs_of_isOk third)
    · exact Branch.recovers_of_start rfl nofun
    · exact Branch.recovers_of_start start unspent
    · exact Branch.recovers_of_start start' unspent'
  obtain ⟨one_leaf, dated, value⟩ := first_leaf true
  have own : ((tip true 1).record 0).commitment =
        some (digestBytes ((minted.map (Note.commitment mintSponge)).getD 0)) ∧
      ((mintWallet.receiveCoinbase ((tip true 1).hash 0) 1 420
        ((minted.map (Note.commitment mintSponge)).getD 0)).map fun received =>
          received.note.nullifier mintSponge 2) = some mintedNullifier ∧
      digestBytes mintedNullifier ∉ (tip true 1).settled := by
    decide +kernel
  obtain ⟨leaf, received, unsettled⟩ := own
  obtain ⟨note, is, nullifier⟩ := Option.map_eq_some_iff.1 received
  rw [← nullifier] at unsettled
  have carries : (tip true 1).Carries mintWallet (deliveredAt ((story true).take 1)) note  := by
    refine .coinbase ?_ dated leaf value is
    rw [one_leaf]
    exact Nat.zero_lt_one
  have members : ∀ own, tip own 1 ∈ mintWorld.branches callInfo firsts := fun own =>
    ⟨_, ⟨own, rfl⟩, (valid_story own).take 1, rfl⟩
  have plain : ∀ b ∈ (story true).take 1, b.Plain mintWallet := by
    have bare : ∀ b ∈ (story true).take 1, ∀ x ∈ b.extrinsics, x.1.preamble.tip = 0 ∧
        x.1.call.isWrapper = false := by decide +kernel
    intro b mem x inside
    obtain ⟨free, direct⟩ := bare b mem x inside
    rw [free, direct]
    exact ⟨Nat.zero_le _, nofun⟩
  refine ⟨three, run, note, carries, World.no_lost_notes binding_firsts collisionFree_ownLists
    noteLists_firsts rfl ⟨true, rfl⟩ ((valid_story true).take 1) plain ?_ run note carries unsettled⟩
  simp [members]

namespace Sample

/-- A root over the number of extrinsics, which is all that tells the bodies apart here. -/
def countRoot (body : List (List UInt8)) : Option Hash256 :=
  some (digestBytes fun _ => (body.length : Felt))

/-- The chains from a genesis block with an account that can pay. -/
def payWorld : World :=
  { mintWorld with
    extrinsicsRoot := countRoot
    genesis := { genesis (10 ^ 15) with blockHash := fun _ => rawGenesis.toHeader.hash mintSponge }
    leafless := ⟨rfl, fun _ => rfl, fun _ => rfl⟩
    number_eq := rfl
    parent_eq := rfl }

/-- The wallet, and the note it finds in the one ciphertext it can open. -/
def payWallet : Wallet :=
  { mintWallet with
    extrinsicsRoot := countRoot
    keys := ⟨1, 2, 3, fun bytes => if bytes = ciphertext then some ⟨5, 7, 8, []⟩ else none⟩ }

def paidNote : Note := ⟨1, 5, 7, 8⟩

def payCall : ShieldedCall :=
  .shield (5 * poolStep) (digestBytes (paidNote.inner mintSponge)) ciphertext

/-- A shield into the wallet, by the account's extrinsic of this nonce. -/
def payment (nonce : ℕ) (h : nonce ≤ Machine.u32Max) : (Extrinsic × List ShieldedCall) × Op :=
  ((⟨.signed 0 signature ⟨.immortal, nonce, 0, false, h, Nat.zero_le _⟩, .shielded payCall⟩, [payCall]),
    .shield 0 (5 * poolStep) (digestBytes (paidNote.inner mintSponge)) ciphertext)

def payBlock : MinedBlock := blockOf (digestBytes 5) [payment 0 (Nat.zero_le _)]

/-- The same shield, sent a second time. -/
def againBlock : MinedBlock := blockOf (digestBytes 6) [payment 1 (by decide)]

def payStory (again : Bool) : List MinedBlock :=
  [payBlock, if again then againBlock else strangerBlock]

theorem valid_payStory (again : Bool) : Valid callInfo (payStory again) := by
  have pays : ∀ nonce h, PerformsOne (payment nonce h).1 (payment nonce h).2 := fun _ _ =>
    ⟨_, rfl, .shield, .shield, rfl⟩
  refine valid_of_blockOf ?_ ?_ ?_
  · cases again <;> decide
  · cases again
    · exact List.forall_mem_cons.2 ⟨⟨_, _, rfl, List.forall_mem_singleton.2 (pays _ _)⟩,
        List.forall_mem_singleton.2 ⟨_, [], rfl, nofun⟩⟩
    · exact List.forall_mem_cons.2 ⟨⟨_, _, rfl, List.forall_mem_singleton.2 (pays _ _)⟩,
        List.forall_mem_singleton.2 ⟨_, _, rfl, List.forall_mem_singleton.2 (pays _ _)⟩⟩
  · cases again <;> decide +kernel

def payTip (again : Bool) (length : ℕ) : Branch := payWorld.branch ((valid_payStory again).take length)

def payTips : Set (List MinedBlock) := {blocks | ∃ again length, (payStory again).take length = blocks}

theorem payTip_mem (again : Bool) (length : ℕ) :
    payTip again length ∈ payWorld.branches callInfo payTips :=
  ⟨_, ⟨again, length, rfl⟩, (valid_payStory again).take length, rfl⟩

def paySynced (again : Bool) (length : ℕ) (store : WalletStore) :
    Except SyncError SyncReport × WalletStore :=
  exec (payWallet.syncWith (payTip again length).node ⟨false⟩ true) store

/-- The store behind the first `k` blocks, the note at its newest leaf. -/
def paidStore (k : ℕ) : WalletStore where
  genesisHash := some (payWorld.hashAt (payStory true) 0)
  lastSyncedBlock := k
  nextLeaf := 2 * k
  notes := [⟨2 * (k - 1), some k, 5, paidNote.commitment mintSponge, paidNote.nullifier mintSponge 2,
    7, 8, [], .spend, false, true, none⟩]
  pending := []
  rejected := []
  usedNullifiers := ∅
  birthday := none
  checkpoints := (List.range k).map fun j =>
    ⟨j + 1, payWorld.hashAt (payStory true) (j + 1), 2 * (j + 1)⟩

def payLists : List (List Felt) :=
  [true, false].flatMap fun again => [0, 1].map fun k =>
    (payWorld.headerAt (payStory again) (k + 1)).toHeader.preimage mintSponge

theorem binding_payTips : payWorld.Binding payTips := by
  have lists : CollisionFree mintSponge.hashToFelts {x | x ∈ payLists} :=
    collisionFree_sampleSponge (by decide +kernel)
  have part : ∀ b ∈ (payStory true)[1]?, ∀ b' ∈ (payStory false)[1]?,
      bytesToDigestLossy (payWorld.stateRoot (payWorld.closed (payWorld.grow [payBlock]) b)) ≠
        bytesToDigestLossy (payWorld.stateRoot (payWorld.closed (payWorld.grow [payBlock]) b')) ∧
      bytesToDigestLossy ((payWorld.extrinsicsRoot b.body).getD 0) ≠
        bytesToDigestLossy ((payWorld.extrinsicsRoot b'.body).getD 0) := by
    decide +kernel
  refine World.binding_of_stories ?_ ?_
  · have sub : {x | ∃ again k, k < (payStory again).length ∧
        x = (payWorld.headerAt (payStory again) (k + 1)).toHeader.preimage mintSponge} ⊆
        {x | x ∈ payLists} := by
      rintro _ ⟨again, k, lt, rfl⟩
      have small : k < 2 := lt
      exact List.mem_flatMap.2 ⟨again, by cases again <;> decide, List.mem_map.2
        ⟨k, by interval_cases k <;> decide, rfl⟩⟩
    exact ⟨lists.injOn.mono sub, fun x mem => lists.ne_zero x (sub mem)⟩
  · intro again again' k b b' here here'
    match k, here, here' with
    | 0, here, here' => exact .inl ⟨rfl, Option.some.inj (here.symm.trans here')⟩
    | 1, here, here' =>
      cases again <;> cases again'
      · exact .inl ⟨rfl, Option.some.inj (here.symm.trans here')⟩
      · have differ := part b' here' b here
        exact .inr ⟨differ.1.symm, differ.2.symm⟩
      · exact .inr (part b here b' here')
      · exact .inl ⟨rfl, Option.some.inj (here.symm.trans here')⟩

end Sample

open Sample in
/-- A shield into the wallet is sent twice, and the note is moved to the later leaf. A fork takes that
leaf alone: the note is marked off chain, although the first leaf is where it was. -/
theorem lost_note :
    payWorld.Binding payTips ∧ (∀ b ∈ payStory false, b.Plain payWallet) ∧
    ∃ after, SyncRun payWallet (fun _ _ => True) .new [payTip true 1, payTip true 2, payTip false 2]
        after ∧
      (∀ E ∈ [payTip true 1, payTip true 2, payTip false 2],
        E ∈ payWorld.branches callInfo payTips) ∧
      (payTip false 2).Carries payWallet (deliveredAt (payStory false)) ⟨paidNote, []⟩ ∧
      digestBytes (paidNote.nullifier mintSponge payWallet.keys.nk) ∉ (payTip false 2).settled ∧
      ∀ n ∈ after.unspent, n.commitment ≠ paidNote.commitment mintSponge := by
  -- One evaluation for each sync: the walk of a signed extrinsic is thousands of steps.
  have one : (paySynced true 1 .new).1.isOk = true ∧
      (paySynced true 1 .new).2 = paidStore 1 := by
    decide +kernel
  have two : (paySynced true 2 (paidStore 1)).1.isOk = true ∧
      (paySynced true 2 (paidStore 1)).2 = paidStore 2 := by
    decide +kernel
  have three : (paySynced false 2 (paidStore 2)).1.isOk = true ∧
      ∀ n ∈ (paySynced false 2 (paidStore 2)).2.unspent,
        n.commitment ≠ paidNote.commitment mintSponge := by
    decide +kernel
  have first := Wallet.syncs_of_isOk one.1
  have second := Wallet.syncs_of_isOk two.1
  rw [show (exec _ _).2 = _ from one.2] at first
  rw [show (exec _ _).2 = _ from two.2] at second
  have run : SyncRun payWallet (fun _ _ => True) .new
      ([payTip true 1, payTip true 2] ++ [payTip false 2]) (paySynced false 2 (paidStore 2)).2 :=
    ((SyncRun.nil.snoc trivial first).snoc trivial second).snoc trivial
      (Wallet.syncs_of_isOk three.1)
  have leaf : 0 < (payTip false 2).count (payTip false 2).head ∧
      ((payTip false 2).record 0).blockNumber = some 1 ∧
      ((payTip false 2).record 0).commitment = some (digestBytes (paidNote.commitment mintSponge)) ∧
      ciphertext ∈ deliveredAt (payStory false) 1 ∧
      digestBytes (paidNote.nullifier mintSponge payWallet.keys.nk) ∉ (payTip false 2).settled := by
    decide +kernel
  obtain ⟨below, dated, is, delivered, unsettled⟩ := leaf
  have plain : ∀ b ∈ payStory false, ∀ x ∈ b.extrinsics, x.1.preamble.tip = 0 ∧
      x.1.call.isWrapper = false := by decide +kernel
  refine ⟨binding_payTips, fun b mem x inside => ?_, _, run, by simp [payTip_mem],
    .payload below dated is delivered ?_, unsettled, three.2⟩
  · obtain ⟨free, direct⟩ := plain b mem x inside
    rw [free, direct]
    exact ⟨Nat.zero_le _, nofun⟩
  · simp [Wallet.decryptNote, payWallet, mintWallet, Note.new, paidNote, maxValue, valueBits]

end Qnero
