import Qnero.Wallet.Sync

/-!
# What recording does to the store

A receipt moves a held note, is refused, or adds a note. So the notes behind a list of receipts are
the notes before it, each at the last leaf it was met at, with the added ones behind them
(`Wallet.take_notes`); and the commitments a pass collects for the marking of orphans are those of
its receipts that are held in the end (`Wallet.mem_seenAgain_iff`).
-/

namespace Qnero

open Plonkish

variable {W : Wallet} {entries : ℕ} {store : WalletStore} {receipt : Receipt}
  {receipts : List Receipt}

variable {c : Digest} {n : StoredNote} {state : WalletStore × Tally}

theorem WalletStore.hasCommitment_iff :
    store.hasCommitment c = true ↔ ∃ n ∈ store.notes, n.commitment = c := by
  simp [hasCommitment]

/-! ## One note -/

/-- What a receipt does to a held note. -/
def Receipt.place (receipt : Receipt) (n : StoredNote) : StoredNote :=
  if n.commitment = receipt.commitment then
    n.relocate receipt.leafIndex (some receipt.blockNumber)
  else n

/-- What a list of receipts does to it. -/
def placeAll (receipts : List Receipt) (n : StoredNote) : StoredNote :=
  receipts.foldl (fun n receipt => receipt.place n) n

/-- The last receipt of a commitment. -/
def lastAt (receipts : List Receipt) (c : Digest) : Option Receipt :=
  (receipts.filter fun receipt => receipt.commitment = c).getLast?

@[simp] theorem Receipt.place_commitment (n : StoredNote) :
    (receipt.place n).commitment = n.commitment := by
  unfold place
  split <;> rfl

theorem Receipt.place_of_ne (ne : n.commitment ≠ receipt.commitment) :
    receipt.place n = n := if_neg ne

@[simp] theorem placeAll_commitment (n : StoredNote) :
    (placeAll receipts n).commitment = n.commitment := by
  induction receipts generalizing n with
  | nil => rfl
  | cons receipt receipts ih => exact (ih _).trans (Receipt.place_commitment n)

theorem getLast?_filter_concat {α : Type} (p : α → Bool) (l : List α) (a : α) :
    ((l ++ [a]).filter p).getLast? = if p a = true then some a else (l.filter p).getLast? := by
  rw [List.filter_append]
  split
  · next holds => rw [List.filter_cons_of_pos holds, List.filter_nil, List.getLast?_concat]
  · next fails => rw [List.filter_cons_of_neg fails, List.filter_nil, List.append_nil]

theorem lastAt_append_singleton (c : Digest) :
    lastAt (receipts ++ [receipt]) c =
      if receipt.commitment = c then some receipt else lastAt receipts c := by
  unfold lastAt
  rw [getLast?_filter_concat]
  simp only [decide_eq_true_eq]

theorem lastAt_isSome_iff :
    (∃ last, lastAt receipts c = some last) ↔ ∃ receipt ∈ receipts, receipt.commitment = c := by
  rw [← Option.isSome_iff_exists, lastAt, List.getLast?_isSome]
  simp [List.filter_eq_nil_iff]

theorem lastAt_mem {last : Receipt} (h : lastAt receipts c = some last) :
    last ∈ receipts ∧ last.commitment = c := by
  have mem := List.mem_of_getLast? h
  simpa using mem

/-- **A held note ends at the last leaf it was met at.** -/
theorem placeAll_eq (n : StoredNote) :
    placeAll receipts n = match lastAt receipts n.commitment with
      | some last => n.relocate last.leafIndex (some last.blockNumber)
      | none => n := by
  induction receipts using List.reverseRecOn with
  | nil => rfl
  | append_singleton receipts receipt ih =>
    have step : placeAll (receipts ++ [receipt]) n = receipt.place (placeAll receipts n) :=
      List.foldl_append
    rw [step, lastAt_append_singleton, Receipt.place, placeAll_commitment]
    by_cases same : n.commitment = receipt.commitment
    · rw [if_pos same, if_pos same.symm, ih]
      cases lastAt receipts n.commitment <;> rfl
    · rw [if_neg same, if_neg (Ne.symm same), ih]

/-- Receipts write where a note is. -/
theorem placeAll_frame {β : Type} (f : StoredNote → β)
    (frame : ∀ n leafIndex blockNumber, f (n.relocate leafIndex blockNumber) = f n) (n : StoredNote) :
    f (placeAll receipts n) = f n := by
  rw [placeAll_eq]
  split
  · exact frame ..
  · rfl

/-- A note that is not met stays where it is. -/
theorem placeAll_of_unmet (unmet : ¬ ∃ receipt ∈ receipts, receipt.commitment = n.commitment) :
    placeAll receipts n = n := by
  rw [placeAll_eq]
  cases last : lastAt receipts n.commitment with
  | some receipt => exact absurd (lastAt_isSome_iff.1 ⟨receipt, last⟩) unmet
  | none => rfl

/-! ## The store -/

/-- The receipt adds no note. -/
def Wallet.Knows (W : Wallet) (store : WalletStore) (receipt : Receipt) : Prop :=
  store.hasCommitment receipt.commitment = true ∨
    store.nullifierSettled (W.nullifierOf receipt) = true

/-- What a refused receipt is recorded as. -/
def Wallet.refusal (W : Wallet) (receipt : Receipt) : RejectedNote :=
  ⟨receipt.leafIndex, receipt.commitment, W.nullifierOf receipt, receipt.received.note.value⟩

/-- The cases of a receipt. -/
inductive Recorded (W : Wallet) (entries : ℕ) (store : WalletStore) (receipt : Receipt) :
    WalletStore × Recording → Prop where
  | held (moved : Bool) (has : store.hasCommitment receipt.commitment = true) :
      Recorded W entries store receipt
        ({ store with notes := store.notes.map receipt.place }, .held moved)
  | refused (new : Bool) (has : store.hasCommitment receipt.commitment = false)
      (settled : store.nullifierSettled (W.nullifierOf receipt) = true) :
      Recorded W entries store receipt ((store.recordRejected (W.refusal receipt)).1, .refused new)
  | received (origin : NoteOrigin) (has : store.hasCommitment receipt.commitment = false)
      (unsettled : store.nullifierSettled (W.nullifierOf receipt) = false) :
      Recorded W entries store receipt
        ({ store with
            notes := store.notes ++ [W.storedNote entries receipt]
            pending := store.pending.filter fun pending =>
              pending.commitment ≠ receipt.commitment }, .received origin)

theorem Wallet.record_cases (W : Wallet) (entries : ℕ) (store : WalletStore) (receipt : Receipt) :
    Recorded W entries store receipt (W.record entries store receipt) := by
  unfold record
  by_cases has : store.hasCommitment receipt.commitment = true
  · rw [if_pos has]
    exact .held _ has
  · rw [if_neg has]
    rw [Bool.not_eq_true] at has
    by_cases settled : store.nullifierSettled (W.nullifierOf receipt) = true
    · rw [if_pos settled]
      exact .refused _ has settled
    · rw [if_neg settled]
      exact .received _ has (Bool.eq_false_of_not_eq_true settled)

theorem WalletStore.recordRejected_frame {β : Type} (f : WalletStore → β)
    (frame : ∀ s rejected, f { s with rejected := rejected } = f s) (x : RejectedNote) :
    f (store.recordRejected x).1 = f store := by
  unfold recordRejected
  split <;> exact frame ..

theorem Wallet.take_cons (W : Wallet) :
    W.take entries (receipt :: receipts) store =
      W.take entries receipts (W.record entries store receipt).1 := rfl

/-- Recording touches the notes, the pending ones and the refusals. -/
theorem Wallet.take_frame {β : Type} (f : WalletStore → β)
    (frame : ∀ s notes pending rejected,
      f { s with notes := notes, pending := pending, rejected := rejected } = f s) :
    f (W.take entries receipts store) = f store := by
  induction receipts generalizing store with
  | nil => rfl
  | cons receipt receipts ih =>
    rw [W.take_cons, ih]
    generalize done : W.record entries store receipt = out
    have recorded := W.record_cases entries store receipt
    rw [done] at recorded
    cases recorded with
    | held _ _ => exact frame store _ store.pending store.rejected
    | refused _ _ _ =>
      exact WalletStore.recordRejected_frame f (fun s => frame s s.notes s.pending) _
    | received _ _ _ => exact frame store _ _ store.rejected

theorem Wallet.take_usedNullifiers :
    (W.take entries receipts store).usedNullifiers = store.usedNullifiers :=
  take_frame WalletStore.usedNullifiers fun _ _ _ _ => rfl

/-- A note that is held stays held, and so does what a receipt leaves of it. -/
theorem WalletStore.hasCommitment_place (store : WalletStore) (receipt : Receipt) (c : Digest) :
    ({ store with notes := store.notes.map receipt.place } : WalletStore).hasCommitment c =
      store.hasCommitment c := by
  unfold hasCommitment
  rw [List.any_map]
  congr 1
  funext n
  simp

/-- What a receipt adds to the held commitments. -/
theorem Wallet.record_hasCommitment (c : Digest) :
    (W.record entries store receipt).1.hasCommitment c = true ↔
      store.hasCommitment c = true ∨
        receipt.commitment = c ∧ ¬ ∃ new, (W.record entries store receipt).2 = .refused new := by
  generalize done : W.record entries store receipt = out
  have recorded := W.record_cases entries store receipt
  rw [done] at recorded
  cases recorded with
  | held moved has =>
    rw [store.hasCommitment_place]
    constructor
    · exact .inl
    · rintro (held | ⟨rfl, -⟩)
      · exact held
      · exact has
  | refused new has settled =>
    have same : (store.recordRejected (W.refusal receipt)).1.hasCommitment c =
        store.hasCommitment c :=
      WalletStore.recordRejected_frame (fun s => s.hasCommitment c) (fun _ _ => rfl) _
    rw [same]
    constructor
    · exact .inl
    · rintro (held | ⟨-, fresh⟩)
      · exact held
      · exact absurd ⟨new, rfl⟩ fresh
  | received origin has unsettled =>
    rw [WalletStore.hasCommitment_iff, WalletStore.hasCommitment_iff]
    simp only [List.mem_append, List.mem_singleton]
    constructor
    · rintro ⟨n, held | rfl, rfl⟩
      · exact .inl ⟨n, held, rfl⟩
      · exact .inr ⟨rfl, by simp⟩
    · rintro (⟨n, held, rfl⟩ | ⟨rfl, -⟩)
      · exact ⟨n, .inl held, rfl⟩
      · exact ⟨_, .inr rfl, rfl⟩

theorem Wallet.hasCommitment_take (has : store.hasCommitment c = true) :
    (W.take entries receipts store).hasCommitment c = true := by
  induction receipts generalizing store with
  | nil => exact has
  | cons receipt receipts ih => exact ih ((record_hasCommitment c).2 (.inl has))

/-- What is held behind the receipts was held before, or one of them is of it. -/
theorem Wallet.exists_of_hasCommitment_take
    (has : (W.take entries receipts store).hasCommitment c = true) :
    store.hasCommitment c = true ∨ ∃ receipt ∈ receipts, receipt.commitment = c := by
  induction receipts generalizing store with
  | nil => exact .inl has
  | cons receipt receipts ih =>
    rcases ih has with held | ⟨later, mem, rfl⟩
    · rcases (record_hasCommitment c).1 held with held | ⟨rfl, -⟩
      · exact .inl held
      · exact .inr ⟨receipt, List.mem_cons_self .., rfl⟩
    · exact .inr ⟨later, List.mem_cons_of_mem _ mem, rfl⟩

/-! ## The commitments met again -/

theorem Tally.mem_seenAgain_add {tally : Tally} {recording : Recording} :
    c ∈ (tally.add true receipt recording).seenAgain ↔
      c ∈ tally.seenAgain ∨ receipt.commitment = c ∧ ¬ ∃ new, recording = .refused new := by
  cases recording <;> simp [add, eq_comm]

/-- **The commitments a pass collects**: those of its receipts that are held in the end. -/
theorem Wallet.mem_seenAgain_iff :
    c ∈ (W.recordAll entries true receipts state).2.seenAgain ↔
      c ∈ state.2.seenAgain ∨ (W.take entries receipts state.1).hasCommitment c = true ∧
        ∃ receipt ∈ receipts, receipt.commitment = c := by
  induction receipts generalizing state with
  | nil => simp [recordAll]
  | cons receipt receipts ih =>
    obtain ⟨store, tally⟩ := state
    have step : W.recordAll entries true (receipt :: receipts) (store, tally) =
        W.recordAll entries true receipts ((W.record entries store receipt).1,
          tally.add true receipt (W.record entries store receipt).2) := rfl
    rw [step, ih, Tally.mem_seenAgain_add, W.take_cons]
    constructor
    · rintro ((before | ⟨rfl, fresh⟩) | ⟨held, later, mem, rfl⟩)
      · exact .inl before
      · refine .inr ⟨hasCommitment_take ((record_hasCommitment _).2 (.inr ⟨rfl, fresh⟩)), ?_⟩
        exact ⟨receipt, List.mem_cons_self .., rfl⟩
      · exact .inr ⟨held, later, List.mem_cons_of_mem _ mem, rfl⟩
    · rintro (before | ⟨held, found, mem, rfl⟩)
      · exact .inl (.inl before)
      rcases exists_of_hasCommitment_take held with now | ⟨later, mem', same⟩
      · -- Held right behind this receipt: before it, or by it.
        rcases (record_hasCommitment _).1 now with was | ⟨same, fresh⟩
        · rcases List.mem_cons.1 mem with rfl | mem
          · refine .inl (.inr ⟨rfl, ?_⟩)
            rintro ⟨new, refused⟩
            generalize done : W.record entries store found = out at refused
            have recorded := W.record_cases entries store found
            rw [done] at recorded
            cases recorded with
            | held _ _ => cases refused
            | refused _ has _ => rw [was] at has; cases has
            | received _ _ _ => cases refused
          · exact .inr ⟨held, found, mem, rfl⟩
        · exact .inl (.inr ⟨same, fresh⟩)
      · exact .inr ⟨held, later, mem', same⟩

theorem Wallet.mem_seenAgain_recordReads {reads : List ChunkRead} :
    c ∈ (W.recordReads entries true reads state).2.seenAgain ↔
      c ∈ state.2.seenAgain ∨
        (W.take entries (receiptsOf reads) state.1).hasCommitment c = true ∧
          ∃ receipt ∈ receiptsOf reads, receipt.commitment = c := by
  induction reads generalizing state with
  | nil => simp [recordReads, receiptsOf]
  | cons read reads ih =>
    have step : W.recordReads entries true (read :: reads) state = W.recordReads entries true reads
        (W.recordAll entries true read.receipts (state.1, state.2.scanned read.typed)) := rfl
    have split : receiptsOf (read :: reads) = read.receipts ++ receiptsOf reads := rfl
    rw [step, ih, mem_seenAgain_iff, recordAll_store, split, take_append]
    have scanned : (state.2.scanned read.typed).seenAgain = state.2.seenAgain := rfl
    rw [scanned]
    constructor
    · rintro ((before | ⟨held, found, mem, rfl⟩) | ⟨held, found, mem, rfl⟩)
      · exact .inl before
      · exact .inr ⟨hasCommitment_take held, found, List.mem_append_left _ mem, rfl⟩
      · exact .inr ⟨held, found, List.mem_append_right _ mem, rfl⟩
    · rintro (before | ⟨held, found, mem, rfl⟩)
      · exact .inl (.inl before)
      rcases List.mem_append.1 mem with mem | mem
      · rcases exists_of_hasCommitment_take held with was | ⟨later, mem', same⟩
        · exact .inl (.inr ⟨was, found, mem, rfl⟩)
        · exact .inr ⟨held, later, mem', same⟩
      · exact .inr ⟨held, found, mem, rfl⟩

/-! ## The notes behind a list of receipts -/

/-- Notes whose commitment the receipt is not of stay as they are. -/
theorem map_place_of_unheld (has : store.hasCommitment receipt.commitment = false) :
    store.notes.map receipt.place = store.notes := by
  refine (List.map_congr_left fun n hn => ?_).trans (List.map_id _)
  refine Receipt.place_of_ne fun same => ?_
  exact Bool.eq_false_iff.1 has (WalletStore.hasCommitment_iff.2 ⟨n, hn, same⟩)

/-- **The notes behind a list of receipts**: each where it was met last, and the added ones, which
there are none of exactly if the store knows every receipt. -/
theorem Wallet.take_notes (W : Wallet) (entries : ℕ) (receipts : List Receipt)
    (store : WalletStore) :
    ∃ new, (W.take entries receipts store).notes = store.notes.map (placeAll receipts) ++ new ∧
      (new = [] ↔ ∀ receipt ∈ receipts, W.Knows store receipt) := by
  -- By the receipts, since a note that one adds is moved by the later ones.
  induction receipts generalizing store with
  | nil => exact ⟨[], ((List.append_nil _).trans (List.map_id _)).symm, by simp⟩
  | cons receipt receipts ih =>
    rw [W.take_cons]
    have folds : placeAll (receipt :: receipts) = placeAll receipts ∘ receipt.place := rfl
    obtain ⟨new, notes, none⟩ := ih (W.record entries store receipt).1
    generalize done : W.record entries store receipt = out at notes none
    have recorded := W.record_cases entries store receipt
    rw [done] at recorded
    rw [folds, ← List.map_map, List.forall_mem_cons]
    cases recorded with
    | held moved has =>
      have knows : ∀ later, W.Knows { store with notes := store.notes.map receipt.place } later ↔
          W.Knows store later := fun later =>
        or_congr_left (iff_of_eq (congrArg (· = true) (store.hasCommitment_place receipt _)))
      refine ⟨new, notes, none.trans ?_⟩
      simp only [knows]
      exact (and_iff_right (.inl has)).symm
    | refused fresh has settled =>
      have knows : ∀ later, W.Knows (store.recordRejected (W.refusal receipt)).1 later ↔
          W.Knows store later := fun later =>
        iff_of_eq (WalletStore.recordRejected_frame (fun s => W.Knows s later)
          (fun _ _ => rfl) _)
      refine ⟨new, ?_, none.trans ?_⟩
      · have kept : (store.recordRejected (W.refusal receipt)).1.notes = store.notes :=
          WalletStore.recordRejected_frame WalletStore.notes (fun _ _ => rfl) _
        rw [map_place_of_unheld has, notes, kept]
      · simp only [knows]
        exact (and_iff_right (.inr settled)).symm
    | received origin has unsettled =>
      refine ⟨placeAll receipts (W.storedNote entries receipt) :: new, ?_, ?_⟩
      · rw [map_place_of_unheld has, notes, List.map_append, List.append_assoc]
        rfl
      · refine iff_of_false (List.cons_ne_nil _ _) ?_
        rintro ⟨held | settled, -⟩
        · rw [has] at held
          cases held
        · rw [unsettled] at settled
          cases settled

/-- **Where the notes behind a list of receipts come from**: from the notes before it, or from a
receipt whose nullifier is not settled, and then placed by the later ones. -/
theorem Wallet.mem_take_notes (mem : n ∈ (W.take entries receipts store).notes) :
    (∃ m ∈ store.notes, n = placeAll receipts m) ∨
      ∃ receipt ∈ receipts, ∃ later, later ⊆ receipts ∧
        store.nullifierSettled (W.nullifierOf receipt) = false ∧
        n = placeAll later (W.storedNote entries receipt) := by
  induction receipts generalizing store with
  | nil => exact .inl ⟨n, mem, rfl⟩
  | cons receipt receipts ih =>
    rw [W.take_cons] at mem
    have settled : ∀ nullifier, (W.record entries store receipt).1.nullifierSettled nullifier =
        store.nullifierSettled nullifier := by
      have used : (W.record entries store receipt).1.usedNullifiers = store.usedNullifiers :=
        @take_usedNullifiers W entries store [receipt]
      intro nullifier
      rw [WalletStore.nullifierSettled, WalletStore.nullifierSettled, used]
    rcases ih mem with ⟨m, held, rfl⟩ | ⟨other, mem', later, sub, unsettled, rfl⟩
    · generalize done : W.record entries store receipt = out at held
      have recorded := W.record_cases entries store receipt
      rw [done] at recorded
      cases recorded with
      | held moved has =>
        obtain ⟨m, before, rfl⟩ := List.mem_map.1 held
        exact .inl ⟨m, before, rfl⟩
      | refused new has _ =>
        have same : (store.recordRejected (W.refusal receipt)).1.notes = store.notes :=
          WalletStore.recordRejected_frame WalletStore.notes (fun _ _ => rfl) _
        rw [same] at held
        rw [← map_place_of_unheld has] at held
        obtain ⟨m, before, rfl⟩ := List.mem_map.1 held
        exact .inl ⟨m, before, rfl⟩
      | received origin has unsettled =>
        rcases List.mem_append.1 held with held | held
        · rw [← map_place_of_unheld has] at held
          obtain ⟨m, before, rfl⟩ := List.mem_map.1 held
          exact .inl ⟨m, before, rfl⟩
        · rw [List.mem_singleton.1 held]
          exact .inr ⟨receipt, List.mem_cons_self .., receipts, List.subset_cons_self .., unsettled,
            rfl⟩
    · rw [settled] at unsettled
      exact .inr ⟨other, List.mem_cons_of_mem _ mem', later,
        fun x inside => List.mem_cons_of_mem _ (sub inside), unsettled, rfl⟩

/-- **No receipt is passed over**: its note is held behind the receipts, or its nullifier is
settled. -/
theorem Wallet.held_or_settled (mem : receipt ∈ receipts) :
    (W.take entries receipts store).hasCommitment receipt.commitment = true ∨
      store.nullifierSettled (W.nullifierOf receipt) = true := by
  induction receipts generalizing store with
  | nil => cases mem
  | cons first receipts ih =>
    rw [W.take_cons]
    generalize done : W.record entries store first = out
    have recorded := W.record_cases entries store first
    have has_iff := @record_hasCommitment W entries store first first.commitment
    rw [done] at recorded has_iff
    have used : out.1.usedNullifiers = store.usedNullifiers := by
      rw [← done]
      exact @take_usedNullifiers W entries store [first]
    rcases List.mem_cons.1 mem with rfl | mem
    · by_cases settled : store.nullifierSettled (W.nullifierOf receipt) = true
      · exact .inr settled
      · refine .inl (hasCommitment_take (has_iff.2 ?_))
        cases recorded with
        | held _ has => exact .inl has
        | refused _ _ settled' => exact absurd settled' settled
        | received _ _ _ => exact .inr ⟨rfl, by simp⟩
    · rw [WalletStore.nullifierSettled, ← used]
      exact ih mem

/-! ## The refusals behind a list of receipts -/

/-- An output of this commitment was refused. -/
def WalletStore.Refuses (store : WalletStore) (c : Digest) : Prop :=
  ∃ entry ∈ store.rejected, entry.commitment = c

theorem WalletStore.updateRejected_commitments (x : RejectedNote) (list : List RejectedNote) :
    (updateRejected x list).map RejectedNote.commitment = list.map RejectedNote.commitment := by
  induction list with
  | nil => rfl
  | cons entry list ih =>
    unfold updateRejected
    split
    · rfl
    · rw [List.map_cons, List.map_cons, ih]

theorem WalletStore.recordRejected_refuses {x : RejectedNote} :
    (store.recordRejected x).1.Refuses c ↔ store.Refuses c ∨ x.commitment = c := by
  unfold recordRejected Refuses
  split
  · next known =>
    simp only [← List.mem_map, updateRejected_commitments]
    refine ⟨.inl, ?_⟩
    rintro (refused | rfl)
    · exact refused
    · simpa using known
  · simp [or_and_right, exists_or]

theorem Wallet.record_refuses (refuses : store.Refuses c) :
    (W.record entries store receipt).1.Refuses c := by
  generalize done : W.record entries store receipt = out
  have recorded := W.record_cases entries store receipt
  rw [done] at recorded
  cases recorded with
  | held _ _ => exact refuses
  | refused _ _ _ => exact WalletStore.recordRejected_refuses.2 (.inl refuses)
  | received _ _ _ => exact refuses

theorem Wallet.take_refuses (refuses : store.Refuses c) :
    (W.take entries receipts store).Refuses c := by
  induction receipts generalizing store with
  | nil => exact refuses
  | cons receipt receipts ih => exact ih (record_refuses refuses)

/-- **No receipt is passed over without a trace**: its note is held behind the receipts, or it is
refused. -/
theorem Wallet.held_or_refused (mem : receipt ∈ receipts) :
    (W.take entries receipts store).hasCommitment receipt.commitment = true ∨
      (W.take entries receipts store).Refuses receipt.commitment := by
  induction receipts generalizing store with
  | nil => cases mem
  | cons first receipts ih =>
    rw [W.take_cons]
    rcases List.mem_cons.1 mem with rfl | mem
    · have has_iff := @record_hasCommitment W entries store receipt receipt.commitment
      generalize done : W.record entries store receipt = out at has_iff
      have recorded := W.record_cases entries store receipt
      rw [done] at recorded
      cases recorded with
      | held _ has => exact .inl (hasCommitment_take (has_iff.2 (.inl has)))
      | refused _ _ _ =>
        exact .inr (take_refuses (WalletStore.recordRejected_refuses.2 (.inr rfl)))
      | received _ _ _ => exact .inl (hasCommitment_take (has_iff.2 (.inr ⟨rfl, by simp⟩)))
    · exact ih mem

/-! ## The end of a pass -/

/-- The marking of an orphan. -/
def StoredNote.orphan (marks : Bool) (start : ℕ) (seen : List Digest) (n : StoredNote) : StoredNote :=
  if marks = true ∧ start ≤ n.leafIndex ∧ n.commitment ∉ seen then n.markOffChain.1 else n

theorem WalletStore.foldl_recordCheckpoint (checkpoints : List SyncCheckpoint)
    (store : WalletStore) :
    checkpoints.foldl recordCheckpoint store =
      { store with checkpoints := checkpoints.foldl pushCheckpoint store.checkpoints } := by
  induction checkpoints generalizing store with
  | nil => rfl
  | cons checkpoint checkpoints ih => exact ih _

theorem WalletStore.markOrphans_notes (marks : Bool) (start : ℕ) (seen : List Digest) :
    (store.markOrphans marks start seen).1 =
      { store with notes := store.notes.map (StoredNote.orphan marks start seen) } := by
  unfold markOrphans
  cases marks with
  | false =>
    have idle : StoredNote.orphan false start seen = id := rfl
    rw [idle, List.map_id]
    rfl
  | true =>
    have same : StoredNote.orphan true start seen = fun n =>
        if decide (start ≤ n.leafIndex ∧ n.commitment ∉ seen) = true then n.markOffChain.1
        else n := by
      funext n
      simp only [StoredNote.orphan, true_and, decide_eq_true_eq]
    rw [same]
    rfl

/-- **What a pass leaves**: each note reconciled and then marked, the refusals pruned if leaves were
scanned, and the watermark, the checkpoints and the binding written. -/
theorem WalletStore.finish_eq {plan : ScanPlan} {direction : SpentDirection} {marks : Bool}
    {checkpoints : List SyncCheckpoint} {tally : Tally} :
    (store.finish plan direction marks checkpoints tally).1 = { store with
      genesisHash := some (store.genesisHash.getD plan.genesisHash)
      lastSyncedBlock := plan.head.number
      nextLeaf := plan.leafCount
      notes := store.notes.map fun n => StoredNote.orphan marks plan.start tally.seenAgain
        (n.reconcile store.usedNullifiers plan.head.number direction)
      rejected := if plan.start < plan.leafCount then
          store.rejected.filter fun entry => !store.hasCommitment entry.commitment
        else store.rejected
      checkpoints := checkpoints.foldl pushCheckpoint store.checkpoints } := by
  have bind : ∀ s : WalletStore, (s.bindGenesis plan.genesisHash).1 =
      { s with genesisHash := some (s.genesisHash.getD plan.genesisHash) } := by
    rintro ⟨_ | bound, _⟩ <;> rfl
  by_cases scans : plan.start < plan.leafCount
  · simp only [finish, if_pos scans, bind, foldl_recordCheckpoint, markOrphans_notes, pruneRejected,
      reconcileSpent, List.map_map]
    rfl
  · simp only [finish, if_neg scans, bind, foldl_recordCheckpoint, markOrphans_notes,
      reconcileSpent, List.map_map]
    rfl

end Qnero
