import Mathlib.Logic.Function.Basic
import Qnero.Dispatch

/-!
# The browser wallet's note table

Three writers of whole rows: a sync, the latch of a spent flag, and the write-off of a missing note.
Each reads in one transaction and writes in another, and any number of them run at once, in one tab
or several. Here a step is one transaction. A sync merges what it writes with what the table holds by
then; the other two put back the rows they read.

The last three fields of `TableState` are no part of the table. They record what the results speak of:
where the last sync that wrote a row put it and when, and when a spent flag was last latched. What
keeps the writers apart is then a matter of the schedule alone (`Transaction.Sound`): which rows a
sync or a latch wrote between another operation's read and its write.
-/

namespace Qnero.Browser

/-- A row. `σ` is a sealed secret. -/
structure StoredNote (σ : Type) where
  leafIndex : ℕ
  blockNumber : Option ℕ
  spent : Bool
  spentSeenAtBlock : Option ℕ
  onChain : Bool
  secret : σ
deriving DecidableEq

/-- What only a sync decides about a note. -/
structure Place (σ : Type) where
  leafIndex : ℕ
  blockNumber : Option ℕ
  secret : σ
deriving DecidableEq

def StoredNote.place {σ : Type} (note : StoredNote σ) : Place σ :=
  ⟨note.leafIndex, note.blockNumber, note.secret⟩

/-- The notes by commitment. -/
abbrev Table (κ σ : Type) := κ → Option (StoredNote σ)

variable {κ σ ν : Type}

/-- `mergeSyncedNote`: a flag that moved since the pass read it stays as it is stored. -/
def mergeSyncedNote (stored base : Option (StoredNote σ)) (written : StoredNote σ) : StoredNote σ :=
  match stored with
  | none => written
  | some stored =>
    let spentMoved := base.all fun base => stored.spent != base.spent
    let onChainMoved := base.all fun base => stored.onChain != base.onChain
    { written with
      spent := if spentMoved then stored.spent else written.spent
      spentSeenAtBlock := if spentMoved then stored.spentSeenAtBlock else written.spentSeenAtBlock
      onChain := if onChainMoved then stored.onChain else written.onChain }

/-- What an operation took from its read. -/
inductive Reading (κ σ : Type) where
  | sync (base : Table κ σ)
  | spent (hits : Table κ σ) (atBlock : ℕ)
  | offChain (commitment : κ) (existing : StoredNote σ)

/-- An operation between its read and its write. -/
structure Operation (κ σ : Type) where
  readAt : ℕ
  reading : Reading κ σ

/-- When a spent flag was set, and when the operation that set it had read the row. -/
structure Latch where
  readAt : ℕ
  putAt : ℕ
deriving DecidableEq

structure TableState (κ σ : Type) where
  notes : Table κ σ
  running : List (Operation κ σ)
  clock : ℕ
  scanned : κ → Option (Place σ)
  syncedAt : κ → Option ℕ
  latchedAt : κ → Option Latch

/-- One transaction. The writes name a running operation; what a sync has decided to write and to
remove comes with its write. -/
inductive Transaction (κ σ ν : Type) where
  | readNotes
  | readForSpent (nullifiers : ν → Bool) (atBlock : ℕ)
  | readForOffChain (commitment : κ)
  | commitSync (operation : ℕ) (notes : Table κ σ) (removedNotes : κ → Bool)
  | putSpent (operation : ℕ)
  | putOffChain (operation : ℕ)

section

-- `openNoteSecret`, and the nullifier in it; a record the key cannot open has none.
variable (nullifierOf : κ → σ → Option ν)

/-- The unspent notes whose nullifier is wanted. -/
def hitsOf (nullifiers : ν → Bool) (notes : Table κ σ) : Table κ σ := fun commitment =>
  (notes commitment).filter fun note =>
    !note.spent && (nullifierOf commitment note.secret).any nullifiers

variable [DecidableEq κ]

def TableState.start (s : TableState κ σ) (reading : Reading κ σ) : TableState κ σ :=
  { s with running := s.running ++ [⟨s.clock, reading⟩] }

/-- The write of an operation that is done with it. -/
def TableState.finish (s : TableState κ σ) (operation : ℕ) (notes : Table κ σ) : TableState κ σ :=
  { s with
    notes := notes
    running := s.running.eraseIdx operation }

def commitSyncNotes (base written : Table κ σ) (removedNotes : κ → Bool) (current : Table κ σ) :
    Table κ σ := fun commitment =>
  match written commitment with
  | some note => some (mergeSyncedNote (current commitment) (base commitment) note)
  | none => if removedNotes commitment then none else current commitment

def putSpentNotes (hits : Table κ σ) (atBlock : ℕ) (current : Table κ σ) : Table κ σ :=
  fun commitment =>
    match hits commitment with
    | some note =>
      some { note with
        spent := true
        spentSeenAtBlock := some atBlock }
    | none => current commitment

/-- A transaction that does not fit what is running changes nothing but the time. -/
def TableState.apply (s : TableState κ σ) : Transaction κ σ ν → TableState κ σ
  | .readNotes => s.start (.sync s.notes)
  | .readForSpent nullifiers atBlock =>
    s.start (.spent (hitsOf nullifierOf nullifiers s.notes) atBlock)
  | .readForOffChain commitment =>
    match s.notes commitment with
    | none => s
    | some existing =>
      if existing.spent || !existing.onChain then s
      else s.start (.offChain commitment existing)
  | .commitSync operation notes removedNotes =>
    match s.running[operation]? with
    | some ⟨_, .sync base⟩ =>
      { s.finish operation (commitSyncNotes base notes removedNotes s.notes) with
        scanned := fun commitment =>
          match notes commitment with
          | some note => some note.place
          | none => s.scanned commitment
        syncedAt := fun commitment =>
          if (notes commitment).isSome || removedNotes commitment then some s.clock
          else s.syncedAt commitment }
    | _ => s
  | .putSpent operation =>
    match s.running[operation]? with
    | some ⟨readAt, .spent hits atBlock⟩ =>
      { s.finish operation (putSpentNotes hits atBlock s.notes) with
        latchedAt := fun commitment =>
          if (hits commitment).isSome then some ⟨readAt, s.clock⟩ else s.latchedAt commitment }
    | _ => s
  | .putOffChain operation =>
    match s.running[operation]? with
    | some ⟨_, .offChain commitment existing⟩ =>
      s.finish operation (Function.update s.notes commitment
        (some { existing with onChain := false }))
    | _ => s

def TableState.step (s : TableState κ σ) (transaction : Transaction κ σ ν) : TableState κ σ :=
  { s.apply nullifierOf transaction with clock := s.clock + 1 }

end

/-- A table nothing is running on, whose rows stand where the last sync put them. -/
def TableState.opened (notes : Table κ σ) : TableState κ σ where
  notes := notes
  running := []
  clock := 0
  scanned := fun commitment => (notes commitment).map StoredNote.place
  syncedAt := fun _ => none
  latchedAt := fun _ => none

/-! ## The schedule -/

section

variable {s : TableState κ σ} {transaction : Transaction κ σ ν} {commitment : κ} {note : StoredNote σ}

/-- A sync wrote or removed the row after this time. -/
def TableState.SyncedSince (s : TableState κ σ) (commitment : κ) (time : ℕ) : Prop :=
  ∃ wrote, s.syncedAt commitment = some wrote ∧ time < wrote

/-- The row was latched after this time. -/
def TableState.LatchedSince (s : TableState κ σ) (commitment : κ) (time : ℕ) : Prop :=
  ∃ latch, s.latchedAt commitment = some latch ∧ time < latch.putAt

/-- The operation whose write a transaction is. -/
def Transaction.operation : Transaction κ σ ν → Option ℕ
  | .readNotes | .readForSpent .. | .readForOffChain _ => none
  | .commitSync operation _ _ | .putSpent operation | .putOffChain operation => some operation

/-- **What keeps the three writers apart.** Between its read and its write, a latch meets no sync of
the rows it puts, and a write-off neither a sync nor a latch of its row. A sync may be met by a latch,
if the latch also read since, no other sync wrote the row, and this one does not remove it. -/
def Transaction.Sound (s : TableState κ σ) : Transaction κ σ ν → Prop
  | .readNotes | .readForSpent .. | .readForOffChain _ => True
  | .commitSync operation _ removedNotes =>
    ∀ readAt base, s.running[operation]? = some ⟨readAt, .sync base⟩ →
      ∀ commitment latch, s.latchedAt commitment = some latch → readAt < latch.putAt →
        readAt < latch.readAt ∧ ¬ s.SyncedSince commitment readAt ∧ removedNotes commitment = false
  | .putSpent operation =>
    ∀ readAt hits atBlock, s.running[operation]? = some ⟨readAt, .spent hits atBlock⟩ →
      ∀ commitment, (hits commitment).isSome = true → ¬ s.SyncedSince commitment readAt
  | .putOffChain operation =>
    ∀ readAt commitment existing,
      s.running[operation]? = some ⟨readAt, .offChain commitment existing⟩ →
        ¬ s.SyncedSince commitment readAt ∧ ¬ s.LatchedSince commitment readAt

/-! ## No update is lost -/

/-- Every row stands where the last sync that wrote it put it. -/
def TableState.Placed (s : TableState κ σ) : Prop :=
  ∀ commitment note, s.notes commitment = some note → s.scanned commitment = some note.place

variable [DecidableEq κ] (nullifierOf : κ → σ → Option ν)

/-- A latched flag survives a write whose read came before the latch. -/
def TableState.KeepsLatches (s : TableState κ σ) (transaction : Transaction κ σ ν) : Prop :=
  ∀ i operation, transaction.operation = some i → s.running[i]? = some operation →
    ∀ commitment latch note, s.latchedAt commitment = some latch → operation.readAt < latch.putAt →
      s.notes commitment = some note → note.spent = true →
      ∃ after, (s.step nullifierOf transaction).notes commitment = some after ∧ after.spent = true

/-- A write-off leaves a row on chain that is spent by then. -/
def TableState.SparesSpent (s : TableState κ σ) (transaction : Transaction κ σ ν) : Prop :=
  ∀ i readAt commitment existing, transaction = .putOffChain i →
    s.running[i]? = some ⟨readAt, .offChain commitment existing⟩ →
    ∀ note, s.notes commitment = some note → note.spent = true → note.onChain = true →
      ∃ after, (s.step nullifierOf transaction).notes commitment = some after ∧ after.onChain = true

theorem place_mergeSyncedNote (stored base : Option (StoredNote σ)) (written : StoredNote σ) :
    (mergeSyncedNote stored base written).place = written.place := by
  cases stored <;> rfl

/-- A flag that was latched since the pass read the row stays. -/
theorem spent_mergeSyncedNote {stored written : StoredNote σ} {base : Option (StoredNote σ)}
    (spent : stored.spent = true) (unspent : ∀ note, base = some note → note.spent = false) :
    (mergeSyncedNote (some stored) base written).spent = true := by
  cases base with
  | none => exact spent
  | some base => simp [mergeSyncedNote, spent, unspent base rfl]

/-- The row an operation read. -/
def Reading.row : Reading κ σ → Table κ σ
  | .sync base => base
  | .spent hits _ => hits
  | .offChain commitment existing => Function.update (fun _ => none) commitment (some existing)

/-- The rows a latch is about to put. -/
def Reading.Wants : Reading κ σ → κ → Prop
  | .spent hits _, commitment => (hits commitment).isSome = true
  | .sync _, _ | .offChain .., _ => False

/-- **What a row that was read says of the table**, while no sync has written it since: where it is,
that its flag can only have been latched, and that no latch that read it later found it spent. -/
structure TableState.Tracks (s : TableState κ σ) (readAt : ℕ) (commitment : κ) (note : StoredNote σ) :
    Prop where
  place : s.scanned commitment = some note.place
  row : ∃ now, s.notes commitment = some now ∧
    (now.spent = true ↔ note.spent = true ∨ s.LatchedSince commitment readAt)
  wanted : ∀ later ∈ s.running, readAt < later.readAt → later.reading.Wants commitment →
    note.spent = false
  latched : ∀ latch, s.latchedAt commitment = some latch → readAt < latch.readAt → note.spent = false

/-- **The invariant**: every row is placed, time goes on, and every running operation tracks the rows
it read. -/
structure TableState.Coherent (s : TableState κ σ) : Prop where
  placed : s.Placed
  read_lt : ∀ operation ∈ s.running, operation.readAt < s.clock
  latch_lt : ∀ commitment latch, s.latchedAt commitment = some latch →
    latch.readAt < s.clock ∧ latch.putAt < s.clock
  unspent : ∀ operation ∈ s.running, ∀ commitment existing,
    operation.reading = .offChain commitment existing → existing.spent = false
  tracks : ∀ operation ∈ s.running, ∀ commitment note,
    operation.reading.row commitment = some note → ¬ s.SyncedSince commitment operation.readAt →
      s.Tracks operation.readAt commitment note

/-- The table as it is opened. -/
theorem TableState.coherent_opened (notes : Table κ σ) : (TableState.opened notes).Coherent where
  placed commitment note found := congrArg (Option.map StoredNote.place) found
  read_lt _ mem := by cases mem
  latch_lt _ _ found := by cases found
  unspent _ mem := by cases mem
  tracks _ mem := by cases mem

omit [DecidableEq κ] in
/-- What tracks a row only looks at that row, and at the operations that run. -/
theorem TableState.Tracks.frame {s' : TableState κ σ} {readAt : ℕ}
    (tracks : s.Tracks readAt commitment note) (scanned : s'.scanned commitment = s.scanned commitment)
    (notes : s'.notes commitment = s.notes commitment)
    (latched : s'.latchedAt commitment = s.latchedAt commitment)
    (running : ∀ operation ∈ s'.running, operation ∈ s.running) :
    s'.Tracks readAt commitment note where
  place := scanned.trans tracks.place
  row := by
    rw [notes, LatchedSince, latched]
    exact tracks.row
  wanted later mem := tracks.wanted later (running later mem)
  latched latch found := tracks.latched latch (latched.symm.trans found)

/-! ### Reads -/

/-- A read takes rows that are in the table, and a latch those that are not spent. -/
structure Reading.From (reading : Reading κ σ) (notes : Table κ σ) : Prop where
  row : ∀ commitment note, reading.row commitment = some note → notes commitment = some note
  wants : ∀ commitment, reading.Wants commitment →
    ∀ note, notes commitment = some note → note.spent = false
  unspent : ∀ commitment existing, reading = .offChain commitment existing → existing.spent = false

theorem TableState.Coherent.tick (coherent : s.Coherent) :
    ({ s with clock := s.clock + 1 } : TableState κ σ).Coherent where
  placed := coherent.placed
  read_lt operation mem := Nat.lt_succ_of_lt (coherent.read_lt operation mem)
  latch_lt commitment latch found := by
    obtain ⟨read, put⟩ := coherent.latch_lt commitment latch found
    exact ⟨Nat.lt_succ_of_lt read, Nat.lt_succ_of_lt put⟩
  unspent := coherent.unspent
  tracks operation mem commitment note read unsynced :=
    (coherent.tracks operation mem commitment note read unsynced).frame rfl rfl rfl fun _ mem => mem

/-- An operation begins, with what it reads. -/
theorem TableState.Coherent.start (coherent : s.Coherent) {reading : Reading κ σ}
    (taken : reading.From s.notes) :
    ({ s.start reading with clock := s.clock + 1 } : TableState κ σ).Coherent := by
  have cases_running : ∀ {P : Operation κ σ → Prop}, (∀ operation ∈ s.running, P operation) →
      P ⟨s.clock, reading⟩ → ∀ operation ∈ s.running ++ [⟨s.clock, reading⟩], P operation :=
    fun old new => List.forall_mem_append.2 ⟨old, List.forall_mem_singleton.2 new⟩
  refine ⟨coherent.placed, ?_, coherent.tick.latch_lt, ?_, ?_⟩
  · exact cases_running coherent.tick.read_lt (Nat.lt_succ_self _)
  · exact cases_running coherent.unspent taken.unspent
  · refine cases_running (fun operation mem commitment note read unsynced => ?_)
      fun commitment note read _ => ?_
    · -- An operation that runs: the only news is a latch, and the row is not spent for it.
      obtain ⟨place, ⟨now, found, spent⟩, wanted, latched⟩ :=
        coherent.tracks operation mem commitment note read unsynced
      refine ⟨place, ⟨now, found, spent⟩, cases_running wanted fun _ wants => ?_, latched⟩
      have unspent := taken.wants commitment wants now found
      rw [Bool.eq_false_iff]
      intro noted
      rw [spent.2 (.inl noted)] at unspent
      cases unspent
    · -- The operation that starts reads the table as it is, after every latch there was.
      have found := taken.row commitment note read
      refine ⟨coherent.placed commitment note found, ⟨note, found, ?_⟩, ?_, ?_⟩
      · refine (or_iff_left ?_).symm
        rintro ⟨latch, last, since⟩
        have before := (coherent.latch_lt commitment latch last).2
        exact absurd (Nat.lt_trans since before) (Nat.lt_irrefl _)
      · intro later mem since
        have before : later.readAt ≤ s.clock :=
          cases_running (fun operation mem => Nat.le_of_lt (coherent.read_lt operation mem)) Nat.le.refl
            later mem
        exact absurd (Nat.lt_of_lt_of_le since before) (Nat.lt_irrefl _)
      · intro latch last since
        have before := (coherent.latch_lt commitment latch last).1
        exact absurd (Nat.lt_trans since before) (Nat.lt_irrefl _)

/-! ### Writes -/

variable {nullifierOf}

/-- A sync writes its rows, merged with those of the table. -/
theorem TableState.Coherent.commitSync (coherent : s.Coherent) {operation : ℕ} {notes : Table κ σ}
    {removedNotes : κ → Bool} :
    (s.step nullifierOf (.commitSync operation notes removedNotes)).Coherent := by
  dsimp only [TableState.step, TableState.apply]
  split
  · next readAt base running =>
    refine ⟨fun commitment note found => ?_, fun operation mem => ?_, coherent.tick.latch_lt,
      fun operation mem => coherent.unspent operation (List.mem_of_mem_eraseIdx mem), ?_⟩
    · dsimp only [TableState.finish, commitSyncNotes] at found ⊢
      split at found
      · next written decided =>
        obtain rfl := Option.some.inj found
        rw [place_mergeSyncedNote]
      · split at found
        · cases found
        · exact coherent.placed commitment note found
    · exact coherent.tick.read_lt operation (List.mem_of_mem_eraseIdx mem)
    · intro operation mem commitment note read unsynced
      replace mem := List.mem_of_mem_eraseIdx mem
      -- A row this sync writes is tracked no longer, and any other is as it was.
      by_cases touched : ((notes commitment).isSome || removedNotes commitment) = true
      · exact absurd ⟨s.clock, if_pos touched, coherent.read_lt operation mem⟩ unsynced
      · have before : ¬ s.SyncedSince commitment operation.readAt := by
          rintro ⟨wrote, last, since⟩
          exact unsynced ⟨wrote, (if_neg touched).trans last, since⟩
        have tracks := coherent.tracks operation mem commitment note read before
        simp only [Bool.or_eq_true, not_or, Bool.not_eq_true, Option.isSome_eq_false_iff,
          Option.isNone_iff_eq_none] at touched
        refine tracks.frame ?_ ?_ rfl fun _ => List.mem_of_mem_eraseIdx
        · simp only [touched.1]
        · simp only [TableState.finish, commitSyncNotes, touched.1, touched.2, Bool.false_eq_true,
            if_false]
  · exact coherent.tick

/-- The rows that were hit are put back as spent. -/
theorem TableState.Coherent.putSpent (coherent : s.Coherent) {operation : ℕ}
    (sound : (Transaction.putSpent operation : Transaction κ σ ν).Sound s) :
    (s.step nullifierOf (.putSpent operation)).Coherent := by
  dsimp only [TableState.step, TableState.apply]
  split
  · next readAt hits atBlock running =>
    have mine : ⟨readAt, .spent hits atBlock⟩ ∈ s.running := List.mem_of_getElem? running
    refine ⟨fun commitment note found => ?_, fun operation mem => ?_, fun commitment latch found => ?_,
      fun operation mem => coherent.unspent operation (List.mem_of_mem_eraseIdx mem), ?_⟩
    · dsimp only [TableState.finish, putSpentNotes] at found ⊢
      split at found
      · next hit isHit =>
        obtain rfl := Option.some.inj found
        have unsynced := sound readAt hits atBlock running commitment (by rw [isHit]; rfl)
        exact (coherent.tracks _ mine commitment hit isHit unsynced).place
      · exact coherent.placed commitment note found
    · exact coherent.tick.read_lt operation (List.mem_of_mem_eraseIdx mem)
    · dsimp only at found
      split at found
      · obtain rfl := Option.some.inj found
        exact ⟨Nat.lt_succ_of_lt (coherent.read_lt _ mine), Nat.lt_succ_self _⟩
      · exact coherent.tick.latch_lt commitment latch found
    · intro operation mem commitment note read unsynced
      replace mem := List.mem_of_mem_eraseIdx mem
      have tracks := coherent.tracks operation mem commitment note read unsynced
      -- A row that is hit is spent from now on for every reader, by this latch.
      by_cases hit : (hits commitment).isSome = true
      · obtain ⟨row, isHit⟩ := Option.isSome_iff_exists.1 hit
        refine ⟨tracks.place, ⟨{ row with spent := true, spentSeenAtBlock := some atBlock }, ?_, ?_⟩,
          fun later mem => tracks.wanted later (List.mem_of_mem_eraseIdx mem), fun latch found => ?_⟩
        · simp only [TableState.finish, putSpentNotes, isHit]
        · refine iff_of_true rfl (.inr ⟨⟨readAt, s.clock⟩, if_pos hit, ?_⟩)
          exact coherent.read_lt operation mem
        · obtain rfl := Option.some.inj ((if_pos hit).symm.trans found)
          exact fun since => tracks.wanted _ mine since hit
      · refine tracks.frame rfl ?_ (if_neg hit) fun _ => List.mem_of_mem_eraseIdx
        rw [Bool.not_eq_true, Option.isSome_eq_false_iff, Option.isNone_iff_eq_none] at hit
        simp only [TableState.finish, putSpentNotes, hit]
  · exact coherent.tick

/-- The row that a write-off puts back is not spent. -/
theorem TableState.Coherent.unspent_offChain (coherent : s.Coherent) {readAt : ℕ}
    {existing : StoredNote σ} (mine : ⟨readAt, .offChain commitment existing⟩ ∈ s.running)
    (unsynced : ¬ s.SyncedSince commitment readAt) (unlatched : ¬ s.LatchedSince commitment readAt) :
    s.scanned commitment = some existing.place ∧
      ∃ now, s.notes commitment = some now ∧ now.spent = false := by
  have read : (Reading.offChain commitment existing).row commitment = some existing := by
    rw [Reading.row, Function.update_self]
  have tracks := coherent.tracks _ mine commitment existing read unsynced
  obtain ⟨now, found, spent⟩ := tracks.row
  refine ⟨tracks.place, now, found, Bool.eq_false_iff.2 fun isSpent => ?_⟩
  rcases spent.1 isSpent with read | latched
  · rw [coherent.unspent _ mine commitment existing rfl] at read
    cases read
  · exact unlatched latched

/-- The row is put back as read, off chain. -/
theorem TableState.Coherent.putOffChain (coherent : s.Coherent) {operation : ℕ}
    (sound : (Transaction.putOffChain operation : Transaction κ σ ν).Sound s) :
    (s.step nullifierOf (.putOffChain operation)).Coherent := by
  dsimp only [TableState.step, TableState.apply]
  split
  · next readAt commitment existing running =>
    have mine : ⟨readAt, .offChain commitment existing⟩ ∈ s.running := List.mem_of_getElem? running
    obtain ⟨unsynced, unlatched⟩ := sound readAt commitment existing running
    obtain ⟨place, now, found, unspent⟩ := coherent.unspent_offChain mine unsynced unlatched
    refine ⟨fun other note found => ?_, fun operation mem => ?_, coherent.tick.latch_lt,
      fun operation mem => coherent.unspent operation (List.mem_of_mem_eraseIdx mem), ?_⟩
    · dsimp only [TableState.finish] at found ⊢
      by_cases same : other = commitment
      · subst same
        rw [Function.update_self] at found
        obtain rfl := Option.some.inj found
        exact place
      · rw [Function.update_of_ne same] at found
        exact coherent.placed other note found
    · exact coherent.tick.read_lt operation (List.mem_of_mem_eraseIdx mem)
    · intro operation mem other note read before
      replace mem := List.mem_of_mem_eraseIdx mem
      have tracks := coherent.tracks operation mem other note read before
      by_cases same : other = commitment
      · subst same
        obtain ⟨now', found', spent⟩ := tracks.row
        obtain rfl := Option.some.inj (found.symm.trans found')
        refine ⟨tracks.place, ⟨{ existing with onChain := false }, Function.update_self .., ?_⟩,
          fun later mem => tracks.wanted later (List.mem_of_mem_eraseIdx mem), tracks.latched⟩
        rw [coherent.unspent _ mine other existing rfl, ← unspent]
        exact spent
      · exact tracks.frame rfl (Function.update_of_ne same ..) rfl fun _ => List.mem_of_mem_eraseIdx
  · exact coherent.tick

/-- **Every transaction keeps the invariant.** -/
theorem TableState.Coherent.step (coherent : s.Coherent) (sound : transaction.Sound s) :
    (s.step nullifierOf transaction).Coherent := by
  cases transaction with
  | readNotes =>
    exact coherent.start ⟨fun _ _ found => found, fun _ wants => wants.elim, fun _ _ is => by cases is⟩
  | readForSpent nullifiers atBlock =>
    refine coherent.start ⟨fun _ _ found => (Option.filter_eq_some_iff.1 found).1, ?_,
      fun _ _ is => by cases is⟩
    intro commitment wants note found
    rw [Reading.Wants, hitsOf, found, Option.isSome_filter] at wants
    simp_all
  | readForOffChain commitment =>
    dsimp only [TableState.step, TableState.apply]
    split
    · exact coherent.tick
    · next existing found =>
      split
      · exact coherent.tick
      · next free =>
        rw [Bool.or_eq_true, not_or, Bool.not_eq_true] at free
        refine coherent.start ⟨fun other note read => ?_, fun _ wants => wants.elim, ?_⟩
        · by_cases same : other = commitment
          · subst same
            rw [Reading.row, Function.update_self] at read
            exact found.trans read
          · rw [Reading.row, Function.update_of_ne same] at read
            cases read
        · rintro _ _ ⟨⟩
          exact free.1
  | commitSync => exact coherent.commitSync
  | putSpent => exact coherent.putSpent sound
  | putOffChain => exact coherent.putOffChain sound

/-! ### What the writes keep -/

/-- **No write takes a spent flag back** that was set since it was read. -/
theorem TableState.Coherent.keepsLatches (coherent : s.Coherent) (sound : transaction.Sound s) :
    s.KeepsLatches nullifierOf transaction := by
  intro i operation isWrite running commitment latch note latched before found spent
  cases transaction with
  | readNotes | readForSpent | readForOffChain => cases isWrite
  | commitSync operation notes removedNotes =>
    obtain rfl := Option.some.inj isWrite
    dsimp only [TableState.step, TableState.apply]
    split
    · next readAt base isSync =>
      obtain rfl := Option.some.inj (running.symm.trans isSync)
      obtain ⟨readSince, unsynced, kept⟩ := sound readAt base isSync commitment latch latched before
      have unspent : ∀ note, base commitment = some note → note.spent = false := fun note read =>
        (coherent.tracks _ (List.mem_of_getElem? isSync) commitment note read unsynced).latched latch
          latched readSince
      dsimp only [TableState.finish, commitSyncNotes]
      split
      · rw [found]
        exact ⟨_, rfl, spent_mergeSyncedNote spent unspent⟩
      · rw [kept, found]
        exact ⟨note, rfl, spent⟩
    · exact ⟨note, found, spent⟩
  | putSpent operation =>
    dsimp only [TableState.step, TableState.apply]
    split
    · dsimp only [TableState.finish, putSpentNotes]
      split
      · exact ⟨_, rfl, rfl⟩
      · exact ⟨note, found, spent⟩
    · exact ⟨note, found, spent⟩
  | putOffChain operation =>
    obtain rfl := Option.some.inj isWrite
    dsimp only [TableState.step, TableState.apply]
    split
    · next readAt other existing isOffChain =>
      obtain rfl := Option.some.inj (running.symm.trans isOffChain)
      have ne : commitment ≠ other := by
        rintro rfl
        exact (sound readAt commitment existing isOffChain).2 ⟨latch, latched, before⟩
      dsimp only [TableState.finish]
      exact ⟨note, (Function.update_of_ne ne ..).trans found, spent⟩
    · exact ⟨note, found, spent⟩

theorem TableState.Coherent.sparesSpent (coherent : s.Coherent) (sound : transaction.Sound s) :
    s.SparesSpent nullifierOf transaction := by
  rintro i readAt commitment existing rfl running note found spent
  obtain ⟨unsynced, unlatched⟩ := sound readAt commitment existing running
  obtain ⟨-, now, found', unspent⟩ :=
    coherent.unspent_offChain (List.mem_of_getElem? running) unsynced unlatched
  obtain rfl := Option.some.inj (found.symm.trans found')
  rw [spent] at unspent
  cases unspent

/-- **No update is lost**, in any interleaving whose schedule keeps the writers apart: every row ends
where the last sync that wrote it put it, no latched flag is cleared by a write that read the row
before it was set, and no row is written off while it is spent. -/
theorem transactions_lose_no_update (nullifierOf : κ → σ → Option ν) (notes : Table κ σ)
    (transactions : List (Transaction κ σ ν))
    (sound : Along (TableState.step nullifierOf) (fun s transaction => transaction.Sound s)
      (.opened notes) transactions) :
    (transactions.foldl (TableState.step nullifierOf) (.opened notes)).Placed ∧
      Along (TableState.step nullifierOf) (fun s transaction =>
        s.KeepsLatches nullifierOf transaction ∧ s.SparesSpent nullifierOf transaction)
        (.opened notes) transactions := by
  have keep : ∀ (s : TableState κ σ) (transaction : Transaction κ σ ν), s.Coherent →
      transaction.Sound s → (s.step nullifierOf transaction).Coherent :=
    fun _ _ coherent sound => coherent.step sound
  have opened := TableState.coherent_opened notes
  constructor
  · exact (foldl_invariant keep transactions _ opened sound).placed
  · exact sound.imp_of_invariant keep
      (fun _ _ coherent sound => ⟨coherent.keepsLatches sound, coherent.sparesSpent sound⟩) opened

end

namespace Sample

/-- One note, in leaf five. -/
def table : Table Unit ℕ := fun _ => some ⟨5, some 3, false, none, true, 9⟩

-- The secret of a sample note is its nullifier.
def tableRun (transactions : List (Transaction Unit ℕ ℕ)) : TableState Unit ℕ :=
  transactions.foldl (TableState.step fun _ => some) (.opened table)

/-- A sync moves the note to leaf six between the read and the write of a latch. -/
def movedBetween : List (Transaction Unit ℕ ℕ) :=
  [.readNotes, .readForSpent (· == 9) 12,
    .commitSync 0 (fun _ => some ⟨6, some 4, false, none, true, 9⟩) fun _ => false, .putSpent 0]

/-- A latch between the read and the write of a write-off. -/
def latchedBetween : List (Transaction Unit ℕ ℕ) :=
  [.readForOffChain (), .readForSpent (· == 9) 12, .putSpent 1, .putOffChain 0]

/-- Another note, in leaf seven. -/
def pair : Table Bool ℕ := fun first =>
  if first then table () else some ⟨7, some 3, false, none, true, 8⟩

/-- A latch of the first note within a sync that moves both, and then a write-off of the second. -/
def nested : List (Transaction Bool ℕ ℕ) :=
  [.readNotes, .readForSpent (· == 9) 12, .putSpent 1,
    .commitSync 0 (fun first => some ⟨if first then 6 else 8, some 4, false, none, true,
      if first then 9 else 8⟩) fun _ => false,
    .readForOffChain false, .putOffChain 0]

end Sample

/-- The row goes back to the leaf it was moved from; and the flag the latch set is gone, on a row
written off while it was spent. -/
theorem transactions_lose_updates :
    ((Sample.tableRun Sample.movedBetween).notes ()).map StoredNote.leafIndex = some 5 ∧
      ((Sample.tableRun Sample.movedBetween).scanned ()).map Place.leafIndex = some 6 ∧
      ((Sample.tableRun (Sample.latchedBetween.take 3)).notes ()).map StoredNote.spent = some true ∧
      ((Sample.tableRun Sample.latchedBetween).notes ()).map StoredNote.spent = some false ∧
      ((Sample.tableRun Sample.latchedBetween).notes ()).map StoredNote.onChain = some false := by
  decide

/-- The sync keeps the flag that was latched within it, and the row it moved is written off where it
put it. -/
theorem transactions_lose_no_update_nested :
    (Sample.nested.foldl (TableState.step fun _ => some) (.opened Sample.pair)).Placed ∧
      (Sample.nested.foldl (TableState.step fun _ => some) (.opened Sample.pair)).notes true =
        some ⟨6, some 4, true, some 12, true, 9⟩ ∧
      (Sample.nested.foldl (TableState.step fun _ => some) (.opened Sample.pair)).notes false =
        some ⟨8, some 4, false, none, false, 8⟩ := by
  refine ⟨(transactions_lose_no_update (fun _ => some) Sample.pair Sample.nested ?_).1, by decide,
    by decide⟩
  refine ⟨trivial, trivial, ?_, ?_, trivial, ?_, trivial⟩
  · rintro readAt hits atBlock running commitment - ⟨wrote, synced, -⟩
    cases synced
  · intro readAt base running commitment latch latched _
    cases (Option.some.inj running : (⟨0, .sync _⟩ : Operation Bool ℕ) = _)
    cases commitment with
    | false => cases latched
    | true =>
      obtain rfl := Option.some.inj latched
      refine ⟨Nat.one_pos, ?_, rfl⟩
      rintro ⟨wrote, synced, -⟩
      cases synced
  · intro readAt commitment existing running
    cases (Option.some.inj running : (⟨4, .offChain false _⟩ : Operation Bool ℕ) = _)
    constructor
    · rintro ⟨wrote, synced, since⟩
      obtain rfl := Option.some.inj synced
      exact absurd since (by decide)
    · rintro ⟨latch, latched, -⟩
      cases latched

end Qnero.Browser
