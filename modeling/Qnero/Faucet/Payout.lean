import Mathlib.Data.List.Nodup
import Mathlib.Data.List.Perm.Basic
import Qnero.Dispatch
import Qnero.Faucet.Machine

/-!
# The faucet's payouts

A claim that counts keeps its address waiting, so the bound rests on one fact: a payment that can
still settle belongs to a row that counts (`Paid`). Four steps can break it, and `Event.Sound` is that
none of them happens. The rest of the invariant is that a claim is in one pair of hands at a time
(`State.hands`), so that no row is paid twice.
-/

namespace Qnero.Faucet

/-! ## The invariant -/

section Invariant

variable {α τ κ : Type} {codec : AddressCodec α τ} {config : Config} {cooldown : ℕ}
  {rows rows' : List (Claim τ κ)} {payments : List (Payment α)} {claimId : ℕ} {row : Claim τ κ}
  {f : Claim τ κ → Claim τ κ}

/-- Claims of one address that count are a cooldown apart. -/
def Spaced (cooldown : ℕ) (rows : List (Claim τ κ)) : Prop :=
  ∀ (c c' : ℕ) (r r' : Claim τ κ), rows[c]? = some r → rows[c']? = some r' → c ≠ c' → r.address = r'.address →
    r.countsAsClaimed = true → r'.countsAsClaimed = true →
    r.requestedAt + cooldown ≤ r'.requestedAt ∨ r'.requestedAt + cooldown ≤ r.requestedAt

/-- Every payment belongs to a row that was marked before it, one row has one payment at most, and
while the payment can settle the row counts. -/
structure Paid (codec : AddressCodec α τ) (rows : List (Claim τ κ)) (payments : List (Payment α)) :
    Prop where
  row : ∀ p ∈ payments, ∃ r, rows[p.claimId]? = some r ∧ r.address = codec.encode p.address ∧
    r.submittedAt.isSome = true ∧ (p.givenUp = false → r.countsAsClaimed = true)
  once : ∀ (i j : ℕ) (p q : Payment α), payments[i]? = some p → payments[j]? = some q →
    p.claimId = q.claimId → i = j
  settled : ∀ p ∈ payments, p.settled = true → p.givenUp = false

/-- The row of a job. -/
def Queued (codec : AddressCodec α τ) (rows : List (Claim τ κ)) (job : Job α) (row : Claim τ κ) :
    Prop :=
  rows[job.claimId]? = some row ∧ row.status = .queued ∧ row.address = codec.encode job.address

/-- A job nothing was submitted for. -/
def Waiting (codec : AddressCodec α τ) (rows : List (Claim τ κ)) (job : Job α) : Prop :=
  ∃ row, Queued codec rows job row ∧ row.submittedAt = none

def Phase.Holds (codec : AddressCodec α τ) (rows : List (Claim τ κ)) (payments : List (Payment α)) :
    Phase α τ κ → Prop
  | .stopped | .idle => True
  | .recovering todo => ∀ entry ∈ todo, rows[entry.2]? = some entry.1 ∧ entry.1.status = .queued
  | .preparing job => Waiting codec rows job
  | .sending job none => (∃ row, Queued codec rows job row ∧ row.submittedAt.isSome = true) ∧
      ∀ p ∈ payments, p.claimId ≠ job.claimId
  | .sending job (some payment) => (∃ row, Queued codec rows job row) ∧
      ∃ p, payments[payment]? = some p ∧ p.claimId = job.claimId
  | .returned job (.ok _) => ∃ row, Queued codec rows job row
  | .returned job (.error _) => (∃ row, Queued codec rows job row) ∧
      ∀ p ∈ payments, p.claimId = job.claimId → p.givenUp = true

/-- The claims a phase has in hand. -/
def Phase.ids : Phase α τ κ → List ℕ
  | .stopped | .idle => []
  | .recovering todo => todo.map Prod.snd
  | .preparing job | .sending job _ | .returned job _ => [job.claimId]

/-- In how many hands a claim is before the worker has it, and altogether. -/
def State.waitingHands (s : State α τ κ) (claimId : ℕ) : ℕ :=
  (s.accepted.map Job.claimId).count claimId + (s.refused.map Job.claimId).count claimId +
    (s.queue.map Job.claimId).count claimId

def State.hands (s : State α τ κ) (claimId : ℕ) : ℕ :=
  s.waitingHands claimId + s.phase.ids.count claimId

/-- A job on its way to the worker. -/
def State.Has (s : State α τ κ) (job : Job α) : Prop :=
  job ∈ s.accepted ∨ job ∈ s.refused ∨ job ∈ s.queue

/-- No handler runs before the queued rows of the last run are read. -/
def State.Quiet (s : State α τ κ) : Prop :=
  match s.phase with
  | .stopped => s.accepted = [] ∧ s.refused = [] ∧ s.queue = []
  | .recovering _ => s.accepted = [] ∧ s.refused = []
  | _ => True

structure Inv (codec : AddressCodec α τ) (config : Config) (s : State α τ κ) : Prop where
  spelled : ∀ row ∈ s.rows, ∃ address, row.address = codec.encode address
  spaced : Spaced config.addressCooldown s.rows
  paid : Paid codec s.rows s.payments
  hands : ∀ claimId, s.hands claimId ≤ 1
  waiting : ∀ job, s.Has job → Waiting codec s.rows job
  phase : s.phase.Holds codec s.rows s.payments
  quiet : s.Quiet

theorem countsAsClaimed_of_queued (h : row.status = .queued) : row.countsAsClaimed = true := by
  simp [Claim.countsAsClaimed, h]

/-! ### Rewriting a row -/

/-- A write that leaves the address and the time of a claim alone, and its mark if it has one. -/
structure Keeps (f : Claim τ κ → Claim τ κ) : Prop where
  address : ∀ row, (f row).address = row.address
  requestedAt : ∀ row, (f row).requestedAt = row.requestedAt
  submittedAt : ∀ row, row.submittedAt.isSome = true → (f row).submittedAt.isSome = true

variable {now : ℕ} {job : Job α} {written : Bool} {phase : Phase α τ κ} {new : Claim τ κ}
    {code : FailureCode}

theorem keeps_markSubmitted : Keeps (Claim.markSubmitted (κ := κ) (τ := τ) now) where
  address _ := rfl
  requestedAt _ := rfl
  submittedAt _ _ := rfl

theorem keeps_markSent {includedAt now : ℕ} :
    Keeps (Claim.markSent (κ := κ) (τ := τ) includedAt now) where
  address _ := rfl
  requestedAt _ := rfl
  submittedAt _ h := h

theorem keeps_markFailed {detail : Detail} :
    Keeps (Claim.markFailed (κ := κ) (τ := τ) detail now) where
  address _ := rfl
  requestedAt _ := rfl
  submittedAt _ h := h

/-- An element after a write at `i`: another one as it was, or the written one. -/
theorem getElem?_modify_some {β : Type} {l : List β} {g : β → β} {i c : ℕ} {b : β}
    (h : (l.modify i g)[c]? = some b) :
    ∃ old, l[c]? = some old ∧ b = if c = i then g old else old := by
  rw [List.getElem?_modify] at h
  obtain ⟨old, found, rfl⟩ := Option.map_eq_some_iff.1 h
  refine ⟨old, found, ?_⟩
  by_cases same : i = c
  · rw [if_pos same, if_pos same.symm]
  · rw [if_neg same, if_neg (Ne.symm same)]

theorem Keeps.spelled (keeps : Keeps f) (h : ∀ row ∈ rows, ∃ a, row.address = codec.encode a) :
    ∀ row ∈ rows.modify claimId f, ∃ a, row.address = codec.encode a := by
  intro row mem
  obtain ⟨c, found⟩ := List.mem_iff_getElem?.1 mem
  obtain ⟨old, was, rfl⟩ := getElem?_modify_some found
  obtain ⟨a, spelled⟩ := h old (List.mem_of_getElem? was)
  refine ⟨a, ?_⟩
  split
  · rw [keeps.address, spelled]
  · exact spelled

/-- The written row counted before, so whatever it is now it keeps its distance. -/
theorem Spaced.modify (h : Spaced cooldown rows) (keeps : Keeps f) (at_ : rows[claimId]? = some row)
    (queued : row.status = .queued) : Spaced cooldown (rows.modify claimId f) := by
  have counted : ∀ c old, rows[c]? = some old →
      (if c = claimId then f old else old).countsAsClaimed = true → old.countsAsClaimed = true := by
    intro c old found counts
    split at counts
    · next same =>
      obtain rfl := same
      obtain rfl := Option.some.inj (at_.symm.trans found)
      exact countsAsClaimed_of_queued queued
    · exact counts
  have address : ∀ c old, (if c = claimId then f old else old).address = old.address := by
    intro c old
    split
    · exact keeps.address old
    · rfl
  have requestedAt : ∀ c old, (if c = claimId then f old else old).requestedAt = old.requestedAt := by
    intro c old
    split
    · exact keeps.requestedAt old
    · rfl
  intro c c' r r' found found' ne same counts counts'
  obtain ⟨old, was, rfl⟩ := getElem?_modify_some found
  obtain ⟨old', was', rfl⟩ := getElem?_modify_some found'
  rw [address, address] at same
  rw [requestedAt, requestedAt]
  exact h c c' old old' was was' ne same (counted c old was counts) (counted c' old' was' counts')

theorem Paid.modify (h : Paid codec rows payments) (keeps : Keeps f)
    (at_ : rows[claimId]? = some row)
    (owed : ∀ p ∈ payments, p.claimId = claimId → p.givenUp = false →
      (f row).countsAsClaimed = true) : Paid codec (rows.modify claimId f) payments where
  row p mem := by
    obtain ⟨r, found, address, marked, counts⟩ := h.row p mem
    by_cases same : claimId = p.claimId
    · obtain rfl := Option.some.inj (at_.symm.trans (same ▸ found))
      refine ⟨f row, ?_, (keeps.address row).trans address, keeps.submittedAt row marked, ?_⟩
      · rw [← same, List.getElem?_modify_eq, at_]
        rfl
      · exact owed p mem same.symm
    · exact ⟨r, (List.getElem?_modify_ne f rows same).trans found, address, marked, counts⟩
  once := h.once
  settled := h.settled

/-- The rows keep what stands at an index. -/
def StillAt (rows rows' : List (Claim τ κ)) (c : ℕ) : Prop :=
  ∀ r, rows[c]? = some r → rows'[c]? = some r

theorem stillAt_modify {c : ℕ} (ne : c ≠ claimId) : StillAt rows (rows.modify claimId f) c :=
  fun _ found => (List.getElem?_modify_ne f rows ne.symm).trans found

theorem stillAt_append (rows : List (Claim τ κ)) (c : ℕ) : StillAt rows (rows ++ [new]) c := by
  intro r found
  rw [List.getElem?_append_left (List.getElem?_eq_some_iff.1 found).1, found]

theorem Queued.mono {r : Claim τ κ} (h : Queued codec rows job r)
    (still : StillAt rows rows' job.claimId) : Queued codec rows' job r :=
  ⟨still r h.1, h.2⟩

theorem Waiting.mono (h : Waiting codec rows job) (still : StillAt rows rows' job.claimId) :
    Waiting codec rows' job := by
  obtain ⟨r, queued, unmarked⟩ := h
  exact ⟨r, queued.mono still, unmarked⟩

/-- The queued row of the job a worker holds. -/
theorem Phase.Holds.sending_queued {payment : Option ℕ}
    (h : (Phase.sending job payment).Holds codec rows payments) :
    ∃ row, Queued codec rows job row := by
  cases payment with
  | none =>
    obtain ⟨⟨row, queued, -⟩, -⟩ := h
    exact ⟨row, queued⟩
  | some i => exact h.1

theorem Phase.Holds.returned_queued {result : Except FailureCode ℕ}
    (h : (Phase.returned job result).Holds codec rows payments) :
    ∃ row, Queued codec rows job row := by
  cases result with
  | ok => exact h
  | error => exact h.1

theorem Phase.Holds.exists_row (h : phase.Holds codec rows payments) (mem : claimId ∈ phase.ids) :
    ∃ row, rows[claimId]? = some row ∧ row.status = .queued := by
  cases phase with
  | stopped | idle => cases mem
  | recovering todo =>
    obtain ⟨entry, inTodo, rfl⟩ := List.mem_map.1 mem
    exact ⟨entry.1, h entry inTodo⟩
  | preparing job =>
    obtain rfl := List.mem_singleton.1 mem
    obtain ⟨row, queued, -⟩ := h
    exact ⟨row, queued.1, queued.2.1⟩
  | sending job payment =>
    obtain rfl := List.mem_singleton.1 mem
    obtain ⟨row, queued⟩ := h.sending_queued
    exact ⟨row, queued.1, queued.2.1⟩
  | returned job result =>
    obtain rfl := List.mem_singleton.1 mem
    obtain ⟨row, queued⟩ := h.returned_queued
    exact ⟨row, queued.1, queued.2.1⟩

/-- A phase reads the rows of the claims it has in hand. -/
theorem Phase.Holds.mono (h : phase.Holds codec rows payments)
    (still : ∀ c ∈ phase.ids, StillAt rows rows' c) : phase.Holds codec rows' payments := by
  cases phase with
  | stopped | idle => trivial
  | recovering todo =>
    intro entry mem
    exact ⟨still _ (List.mem_map_of_mem mem) _ (h entry mem).1, (h entry mem).2⟩
  | preparing job => exact Waiting.mono h (still _ List.mem_cons_self)
  | sending job payment =>
    have here := still _ List.mem_cons_self
    cases payment with
    | none =>
      obtain ⟨⟨row, queued, marked⟩, none⟩ := h
      exact ⟨⟨row, queued.mono here, marked⟩, none⟩
    | some i =>
      obtain ⟨⟨row, queued⟩, one⟩ := h
      exact ⟨⟨row, queued.mono here⟩, one⟩
  | returned job result =>
    obtain ⟨row, queued⟩ := h.returned_queued
    have queued := queued.mono (still _ List.mem_cons_self)
    cases result with
    | ok => exact ⟨row, queued⟩
    | error => exact ⟨⟨row, queued⟩, h.2⟩

theorem Phase.Holds.modify (h : phase.Holds codec rows payments) (free : claimId ∉ phase.ids) :
    phase.Holds codec (rows.modify claimId f) payments :=
  h.mono fun _ mem => stillAt_modify fun same => free (same ▸ mem)

/-- A row that was never marked has no payment. -/
theorem Paid.ne_of_new (h : Paid codec rows payments) (at_ : rows[claimId]? = some row)
    (new : row.submittedAt = none) : ∀ p ∈ payments, p.claimId ≠ claimId := by
  rintro p mem rfl
  obtain ⟨r, found, -, marked, -⟩ := h.row p mem
  obtain rfl := Option.some.inj (at_.symm.trans found)
  rw [new] at marked
  cases marked

/-! ### Hands -/

variable {s s' : State α τ κ}

theorem State.Has.waitingHands_pos (h : s.Has job) : 0 < s.waitingHands job.claimId := by
  have pos : ∀ {jobs : List (Job α)}, job ∈ jobs →
      0 < (jobs.map Job.claimId).count job.claimId :=
    fun mem => List.count_pos_iff.2 (List.mem_map_of_mem mem)
  unfold State.waitingHands
  rcases h with mem | mem | mem <;> have := pos mem <;> omega

/-- Taking one job out of a list takes it out of one hand. -/
theorem count_eraseIdx {jobs : List (Job α)} {i : ℕ} (h : jobs[i]? = some job) (c : ℕ) :
    (jobs.map Job.claimId).count c =
      ((jobs.eraseIdx i).map Job.claimId).count c + if job.claimId = c then 1 else 0 := by
  obtain ⟨lt, rfl⟩ := List.getElem?_eq_some_iff.1 h
  have perm := ((List.getElem_cons_eraseIdx_perm lt).map Job.claimId).count_eq c
  rw [List.map_cons, List.count_cons] at perm
  simpa using perm.symm

/-- Only claims with a queued row are in anybody's hands. -/
theorem Inv.row_of_hands (inv : Inv codec config s) (pos : 0 < s.hands claimId) :
    ∃ row, s.rows[claimId]? = some row ∧ row.status = .queued := by
  have waiting : ∀ job, s.Has job → job.claimId = claimId →
      ∃ row, s.rows[claimId]? = some row ∧ row.status = .queued := by
    rintro job has rfl
    obtain ⟨row, ⟨found, queued, -⟩, -⟩ := inv.waiting job has
    exact ⟨row, found, queued⟩
  have listed : ∀ {jobs : List (Job α)}, 0 < (jobs.map Job.claimId).count claimId →
      ∃ job ∈ jobs, job.claimId = claimId :=
    fun pos => List.mem_map.1 (List.count_pos_iff.1 pos)
  by_cases inPhase : claimId ∈ s.phase.ids
  · exact Phase.Holds.exists_row inv.phase inPhase
  · rw [State.hands, List.count_eq_zero.2 inPhase, State.waitingHands] at pos
    by_cases inAccepted : 0 < (s.accepted.map Job.claimId).count claimId
    · obtain ⟨job, mem, same⟩ := listed inAccepted
      exact waiting job (.inl mem) same
    · by_cases inRefused : 0 < (s.refused.map Job.claimId).count claimId
      · obtain ⟨job, mem, same⟩ := listed inRefused
        exact waiting job (.inr (.inl mem)) same
      · obtain ⟨job, mem, same⟩ := listed (by omega : 0 < (s.queue.map Job.claimId).count claimId)
        exact waiting job (.inr (.inr mem)) same

/-- **A write to a row that is in nobody else's hands**, whether it goes through or not. -/
theorem Inv.write (inv : Inv codec config s) (keeps : Keeps f) (at_ : s.rows[claimId]? = some row)
    (queued : row.status = .queued)
    (owed : ∀ p ∈ s.payments, p.claimId = claimId → p.givenUp = false → (f row).countsAsClaimed = true)
    (rows : s'.rows = write written claimId f s.rows) (payments : s'.payments = s.payments)
    (has : ∀ job, s'.Has job → s.Has job) (hands : ∀ c, s'.hands c ≤ s.hands c)
    (alone : s'.waitingHands claimId = 0)
    (phase : s'.phase.Holds codec (write written claimId f s.rows) s.payments) (quiet : s'.Quiet) :
    Inv codec config s' := by
  rw [← rows, ← payments] at phase
  have within : ∀ c, s'.hands c ≤ 1 := fun c => Nat.le_trans (hands c) (inv.hands c)
  cases written with
  | false =>
    rw [Faucet.write, if_neg Bool.false_ne_true] at rows
    refine ⟨rows ▸ inv.spelled, rows ▸ inv.spaced, ?_, within, ?_, phase, quiet⟩
    · rw [rows, payments]
      exact inv.paid
    · intro job hasJob
      rw [rows]
      exact inv.waiting job (has job hasJob)
  | true =>
    rw [Faucet.write, if_pos rfl] at rows
    refine ⟨?_, ?_, ?_, within, ?_, phase, quiet⟩
    · rw [rows]
      exact keeps.spelled inv.spelled
    · rw [rows]
      exact inv.spaced.modify keeps at_ queued
    · rw [rows, payments]
      exact inv.paid.modify keeps at_ owed
    · intro job hasJob
      rw [rows]
      refine (inv.waiting job (has job hasJob)).mono (stillAt_modify ?_)
      rintro rfl
      exact absurd hasJob.waitingHands_pos (by omega)

/-- A step that writes nothing. -/
theorem Inv.move (inv : Inv codec config s) (rows : s'.rows = s.rows)
    (payments : s'.payments = s.payments) (has : ∀ job, s'.Has job → Waiting codec s.rows job)
    (hands : ∀ c, s'.hands c ≤ s.hands c) (phase : s'.phase.Holds codec s.rows s.payments)
    (quiet : s'.Quiet) : Inv codec config s' where
  spelled := rows ▸ inv.spelled
  spaced := rows ▸ inv.spaced
  paid := by
    rw [rows, payments]
    exact inv.paid
  hands c := Nat.le_trans (hands c) (inv.hands c)
  waiting job hasJob := by
    rw [rows]
    exact has job hasJob
  phase := by
    rw [rows, payments]
    exact phase
  quiet := quiet

theorem Phase.Holds.write (h : phase.Holds codec rows payments) (free : claimId ∉ phase.ids) :
    phase.Holds codec (write written claimId f rows) payments := by
  unfold Faucet.write
  split
  · exact h.modify free
  · exact h

/-! ### A new row -/

theorem Paid.append (h : Paid codec rows payments) :
    Paid codec (rows ++ [new]) payments where
  row p mem := by
    obtain ⟨r, found, rest⟩ := h.row p mem
    exact ⟨r, stillAt_append rows _ r found, rest⟩
  once := h.once
  settled := h.settled

/-- A claim that passed the cooldown comes a cooldown after every one that counts. -/
theorem Spaced.append [DecidableEq τ] (h : Spaced cooldown rows)
    (passed : addressCooldown (lastClaimForAddress rows new.address) cooldown new.requestedAt = none) :
    Spaced cooldown (rows ++ [new]) := by
  have later : ∀ r ∈ rows, r.address = new.address → r.countsAsClaimed = true →
      cooldown = 0 ∨ r.requestedAt + cooldown ≤ new.requestedAt := by
    intro r mem same counts
    obtain ⟨last, found, le⟩ := requestedAt_le_last mem counts
    rw [← same, found] at passed
    have := le_of_addressCooldown passed
    omega
  intro c c' r r' found found' ne same counts counts'
  rw [List.getElem?_append] at found found'
  split at found <;> split at found'
  · exact h c c' r r' found found' ne same counts counts'
  · obtain rfl := List.mem_singleton.1 (List.mem_of_getElem? found')
    have := later r (List.mem_of_getElem? found) same counts
    omega
  · obtain rfl := List.mem_singleton.1 (List.mem_of_getElem? found)
    have := later r' (List.mem_of_getElem? found') same.symm counts'
    omega
  · have := (List.getElem?_eq_some_iff.1 found).1
    have := (List.getElem?_eq_some_iff.1 found').1
    simp only [List.length_singleton] at *
    omega

/-! ### Steps -/

/-- The claim the worker has in hand is in nobody else's. -/
theorem Inv.alone (inv : Inv codec config s) (mem : claimId ∈ s.phase.ids) :
    s.waitingHands claimId = 0 := by
  have one := inv.hands claimId
  have pos := List.count_pos_iff.2 mem
  unfold State.hands at one
  omega

theorem State.quiet_of_isServing (h : s.phase.isServing = true) : s.Quiet := by
  unfold State.Quiet
  revert h
  cases s.phase with
  | stopped | recovering => exact fun h => nomatch h
  | idle | preparing | sending | returned => exact fun _ => trivial

/-- A handler with a claim runs in a process that serves. -/
theorem Inv.isServing (inv : Inv codec config s) (mem : job ∈ s.accepted ∨ job ∈ s.refused) :
    s.phase.isServing = true := by
  have quiet := inv.quiet
  unfold State.Quiet at quiet
  revert quiet
  cases s.phase with
  | stopped =>
    rintro ⟨accepted, refused, -⟩
    rw [accepted, refused] at mem
    rcases mem with mem | mem <;> cases mem
  | recovering =>
    rintro ⟨accepted, refused⟩
    rw [accepted, refused] at mem
    rcases mem with mem | mem <;> cases mem
  | idle | preparing | sending | returned => exact fun _ => rfl

/-- A decision that read the last claim accepts only past the cooldown. -/
theorem decideClaim_cases [DecidableEq τ] [DecidableEq κ] (codec : AddressCodec α τ)
    (config : Config) (s : State α τ κ) (recipient : α) (client : κ) (now : ℕ)
    (countRead written : Bool) :
    decideClaim codec config s recipient client now true countRead written = s ∨
      addressCooldown (lastClaimForAddress s.rows (codec.encode recipient)) config.addressCooldown
        now = none ∧
      decideClaim codec config s recipient client now true countRead written =
        s.accept codec config recipient client now := by
  unfold decideClaim
  dsimp only
  generalize (if countRead = true then _ else 0) = count
  rw [if_pos rfl]
  split
  · exact .inl rfl
  · next passed =>
    split
    · exact .inl rfl
    · split
      · exact .inr ⟨Option.not_isSome_iff_eq_none.1 passed, rfl⟩
      · exact .inl rfl

section

variable (inv : Inv codec config s)
include inv

/-- A claim is accepted: its row is new, and its job is in one hand. -/
theorem Inv.accept [DecidableEq τ] {recipient : α} {client : κ} (serving : s.phase.isServing = true)
    (passed : addressCooldown (lastClaimForAddress s.rows (codec.encode recipient)) config.addressCooldown now = none) :
    Inv codec config (s.accept codec config recipient client now) := by
  have fresh : s.hands s.rows.length = 0 := by
    by_contra pos
    obtain ⟨row, found, -⟩ := inv.row_of_hands (Nat.pos_of_ne_zero pos)
    exact absurd (List.getElem?_eq_some_iff.1 found).1 (Nat.lt_irrefl _)
  have new : Waiting codec (s.accept codec config recipient client now).rows
      ⟨s.rows.length, recipient, config.dripQuanta⟩ :=
    ⟨_, ⟨List.getElem?_concat_length, rfl, rfl⟩, rfl⟩
  refine ⟨?_, ?_, inv.paid.append, ?_, ?_, inv.phase.mono fun c _ => stillAt_append _ c, ?_⟩
  · intro row mem
    rcases List.mem_append.1 mem with old | isNew
    · exact inv.spelled row old
    · obtain rfl := List.mem_singleton.1 isNew
      exact ⟨recipient, rfl⟩
  · exact inv.spaced.append passed
  · intro c
    have one := inv.hands c
    simp only [State.accept, State.hands, State.waitingHands, List.map_append, List.count_append,
      List.map_cons, List.map_nil, List.count_cons, List.count_nil, beq_iff_eq] at one fresh ⊢
    split
    · next same =>
      obtain rfl := same
      omega
    · omega
  · rintro job (mem | mem | mem)
    · rcases List.mem_append.1 mem with old | isNew
      · exact (inv.waiting job (.inl old)).mono (stillAt_append _ _)
      · obtain rfl := List.mem_singleton.1 isNew
        exact new
    · exact (inv.waiting job (.inr (.inl mem))).mono (stillAt_append _ _)
    · exact (inv.waiting job (.inr (.inr mem))).mono (stillAt_append _ _)
  · exact State.quiet_of_isServing serving

/-- A job changes hands: it leaves the handler, for the queue or to be refused. -/
theorem Inv.trySend {handler : ℕ} {refused queue : List (Job α)}
    (found : s.accepted[handler]? = some job)
    (passed : (refused ++ queue).Perm (job :: (s.refused ++ s.queue))) :
    Inv codec config { s with
      accepted := s.accepted.eraseIdx handler
      refused := refused
      queue := queue } := by
  have taken := List.mem_of_getElem? found
  refine inv.move rfl rfl ?_ ?_ inv.phase (State.quiet_of_isServing (inv.isServing (.inl taken)))
  · rintro other (mem | mem)
    · exact inv.waiting other (.inl (List.mem_of_mem_eraseIdx mem))
    · rcases List.mem_cons.1 (passed.subset (List.mem_append.2 mem)) with rfl | old
      · exact inv.waiting _ (.inl taken)
      · exact inv.waiting other (.inr (List.mem_append.1 old))
  · intro c
    have gone := count_eraseIdx found c
    have moved := (passed.map Job.claimId).count_eq c
    simp only [List.map_append, List.map_cons, List.count_append, List.count_cons,
      beq_iff_eq] at moved
    simp only [State.hands, State.waitingHands]
    omega

theorem Inv.markRefused {handler now : ℕ} (found : s.refused[handler]? = some job) :
    Inv codec config { s with
      refused := s.refused.eraseIdx handler
      rows := Faucet.write written job.claimId (.markFailed .queueFull now) s.rows } := by
  have mem := List.mem_of_getElem? found
  have serving := inv.isServing (.inr mem)
  obtain ⟨row, ⟨at_, queued, -⟩, new⟩ := inv.waiting job (.inr (.inl mem))
  have count := count_eraseIdx found
  have one := inv.hands job.claimId
  have gone := count job.claimId
  simp only [State.hands, State.waitingHands, if_true] at one gone
  refine inv.write keeps_markFailed at_ queued ?_ rfl rfl ?_ ?_ ?_ ?_
    (State.quiet_of_isServing serving)
  · intro p mem same
    exact absurd same (inv.paid.ne_of_new at_ new p mem)
  · rintro other (mem | mem | mem)
    · exact .inl mem
    · exact .inr (.inl (List.mem_of_mem_eraseIdx mem))
    · exact .inr (.inr mem)
  · intro c
    have := count c
    simp only [State.hands, State.waitingHands]
    omega
  · simp only [State.waitingHands]
    omega
  · refine inv.phase.write fun inPhase => ?_
    have := List.count_pos_iff.2 inPhase
    omega

theorem Inv.receive {rest : List (Job α)} (idle : s.phase = .idle) (queue : s.queue = job :: rest) :
    Inv codec config { s with
      queue := rest
      phase := .preparing job } := by
  refine inv.move rfl rfl ?_ ?_ ?_ trivial
  · rintro other (mem | mem | mem)
    · exact inv.waiting other (.inl mem)
    · exact inv.waiting other (.inr (.inl mem))
    · exact inv.waiting other (.inr (.inr (queue ▸ List.mem_cons_of_mem _ mem)))
  · intro c
    simp only [State.hands, State.waitingHands, idle, queue, Phase.ids, List.map_cons,
      List.count_cons, List.count_nil]
    omega
  · exact inv.waiting job (.inr (.inr (queue ▸ List.mem_cons_self)))

/-- The worker goes on with the claim it has, and writes nothing. -/
theorem Inv.goOn (ids : phase.ids = s.phase.ids)
    (serving : phase.isServing = true) (holds : phase.Holds codec s.rows s.payments) :
    Inv codec config { s with phase := phase } := by
  refine inv.move rfl rfl inv.waiting ?_ holds (State.quiet_of_isServing serving)
  intro c
  simp only [State.hands, State.waitingHands, ids]
  exact Nat.le_refl _

theorem Inv.prepareFailed (preparing : s.phase = .preparing job) :
    Inv codec config { s with phase := .returned job (.error code) } := by
  have holds := inv.phase
  rw [preparing] at holds
  obtain ⟨row, queued, new⟩ := holds
  refine inv.goOn (by rw [preparing]; rfl) rfl ⟨⟨row, queued⟩, ?_⟩
  intro p mem same
  exact absurd same (inv.paid.ne_of_new queued.1 new p mem)

theorem Inv.markSubmitted (preparing : s.phase = .preparing job) (isWritten : written = true) :
    Inv codec config { s with
      rows := Faucet.write written job.claimId (.markSubmitted now) s.rows
      phase := .sending job none } := by
  have holds := inv.phase
  have alone : s.waitingHands job.claimId = 0 := inv.alone (by rw [preparing]; exact List.mem_cons_self)
  rw [preparing] at holds
  obtain ⟨row, ⟨at_, queued, address⟩, new⟩ := holds
  have unpaid := inv.paid.ne_of_new at_ new
  refine inv.write keeps_markSubmitted at_ queued ?_ rfl rfl (fun _ h => h) ?_ alone ?_ trivial
  · intro p mem same
    exact absurd same (unpaid p mem)
  · intro c
    simp only [State.hands, State.waitingHands, preparing, Phase.ids]
    exact Nat.le_refl _
  · refine ⟨⟨row.markSubmitted now, ⟨?_, queued, address⟩, rfl⟩, unpaid⟩
    rw [Faucet.write, if_pos isWritten, List.getElem?_modify_eq, at_]
    rfl

/-- A payment for a row that was marked and has none yet. -/
theorem Inv.submit (sending : s.phase = .sending job none) : Inv codec config { s with
      payments := s.payments ++ [⟨job.claimId, job.address, job.quanta, false, false⟩]
      phase := .sending job (some s.payments.length) } := by
  have holds := inv.phase
  rw [sending] at holds
  obtain ⟨⟨row, queued, marked⟩, unpaid⟩ := holds
  refine ⟨inv.spelled, inv.spaced, ⟨?_, ?_, ?_⟩, ?_, inv.waiting,
    ⟨⟨row, queued⟩, _, List.getElem?_concat_length, rfl⟩, trivial⟩
  · intro p mem
    rcases List.mem_append.1 mem with old | isNew
    · exact inv.paid.row p old
    · obtain rfl := List.mem_singleton.1 isNew
      exact ⟨row, queued.1, queued.2.2, marked, fun _ => countsAsClaimed_of_queued queued.2.1⟩
  · intro i j p q found found' same
    rw [List.getElem?_append] at found found'
    split at found <;> split at found'
    · exact inv.paid.once i j p q found found' same
    · obtain rfl := List.mem_singleton.1 (List.mem_of_getElem? found')
      exact absurd same (unpaid p (List.mem_of_getElem? found))
    · obtain rfl := List.mem_singleton.1 (List.mem_of_getElem? found)
      exact absurd same.symm (unpaid q (List.mem_of_getElem? found'))
    · have := (List.getElem?_eq_some_iff.1 found).1
      have := (List.getElem?_eq_some_iff.1 found').1
      simp only [List.length_singleton] at *
      omega
  · intro p mem settled
    rcases List.mem_append.1 mem with old | isNew
    · exact inv.paid.settled p old settled
    · obtain rfl := List.mem_singleton.1 isNew
      cases settled
  · intro c
    have one := inv.hands c
    simp only [State.hands, State.waitingHands, sending, Phase.ids] at one ⊢
    exact one

theorem Inv.sendOk {payment : Option ℕ} {includedAt : ℕ}
    (sending : s.phase = .sending job payment) :
    Inv codec config { s with phase := .returned job (.ok includedAt) } := by
  have holds := inv.phase
  rw [sending] at holds
  exact inv.goOn (by rw [sending]; rfl) rfl holds.sending_queued

end

/-- Giving a payment up or settling it. -/
theorem Paid.modify_payment {g : Payment α → Payment α} {i : ℕ} (h : Paid codec rows payments)
    (claim : ∀ p, (g p).claimId = p.claimId) (address : ∀ p, (g p).address = p.address)
    (givenUp : ∀ p, (g p).givenUp = false → p.givenUp = false)
    (settled : ∀ p, payments[i]? = some p → (g p).settled = true → (g p).givenUp = false) :
    Paid codec rows (payments.modify i g) where
  row p mem := by
    obtain ⟨c, found⟩ := List.mem_iff_getElem?.1 mem
    obtain ⟨old, was, rfl⟩ := getElem?_modify_some found
    obtain ⟨r, at_, spelled, marked, counts⟩ := h.row old (List.mem_of_getElem? was)
    split
    · refine ⟨r, (claim old).symm ▸ at_, ?_, marked, fun alive => counts (givenUp old alive)⟩
      rw [address, spelled]
    · exact ⟨r, at_, spelled, marked, counts⟩
  once c c' p q found found' same := by
    obtain ⟨old, was, rfl⟩ := getElem?_modify_some found
    obtain ⟨old', was', rfl⟩ := getElem?_modify_some found'
    refine h.once c c' old old' was was' ?_
    have kept : ∀ (k : ℕ) (r : Payment α), (if k = i then g r else r).claimId = r.claimId := by
      intro k r
      split
      · exact claim r
      · rfl
    rwa [kept, kept] at same
  settled p mem isSettled := by
    obtain ⟨c, found⟩ := List.mem_iff_getElem?.1 mem
    obtain ⟨old, was, rfl⟩ := getElem?_modify_some found
    split
    · next same =>
      rw [if_pos same] at isSettled
      exact settled old (same ▸ was) isSettled
    · next ne =>
      rw [if_neg ne] at isSettled
      exact h.settled old (List.mem_of_getElem? was) isSettled

section

variable (inv : Inv codec config s)
include inv

/-- A send that fails gives its payment up, which is the only one of its claim. -/
theorem Inv.sendFailed {payment : ℕ} (sending : s.phase = .sending job (some payment))
    (unsettled : ∀ p, s.payments[payment]? = some p → p.settled = false) :
    Inv codec config { s with
      payments := s.payments.modify payment fun p => { p with givenUp := true }
      phase := .returned job (.error code) } := by
  have holds := inv.phase
  rw [sending] at holds
  obtain ⟨⟨row, queued⟩, p, at_, same⟩ := holds
  refine ⟨inv.spelled, inv.spaced, ?_, ?_, inv.waiting, ⟨⟨row, queued⟩, ?_⟩, trivial⟩
  · refine inv.paid.modify_payment (fun _ => rfl) (fun _ => rfl) (fun _ h => nomatch h) ?_
    intro q found settled
    exact absurd settled (by rw [unsettled q found]; decide)
  · intro c
    have one := inv.hands c
    simp only [State.hands, State.waitingHands, sending, Phase.ids] at one ⊢
    exact one
  · intro q mem ofJob
    obtain ⟨c, found⟩ := List.mem_iff_getElem?.1 mem
    obtain ⟨old, was, rfl⟩ := getElem?_modify_some found
    split
    · rfl
    · next ne =>
      rw [if_neg ne] at ofJob
      exact absurd (inv.paid.once c payment old p was at_ (ofJob.trans same.symm)) ne

theorem Inv.sendFailed_unsubmitted (sending : s.phase = .sending job none) :
    Inv codec config { s with phase := .returned job (.error code) } := by
  have holds := inv.phase
  rw [sending] at holds
  obtain ⟨⟨row, queued, -⟩, unpaid⟩ := holds
  refine inv.goOn (by rw [sending]; rfl) rfl ⟨⟨row, queued⟩, ?_⟩
  intro p mem same
  exact absurd same (unpaid p mem)

/-- The last write of a drip, after which the claim is in nobody's hands. -/
theorem Inv.finish {result : Except FailureCode ℕ} (keeps : Keeps f)
    (returned : s.phase = .returned job result) (at_ : s.rows[job.claimId]? = some row)
    (queued : row.status = .queued)
    (owed : ∀ p ∈ s.payments, p.claimId = job.claimId → p.givenUp = false → (f row).countsAsClaimed = true) :
    Inv codec config { s with
      rows := Faucet.write written job.claimId f s.rows
      phase := .idle } := by
  have alone : s.waitingHands job.claimId = 0 := inv.alone (by rw [returned]; exact List.mem_cons_self)
  refine inv.write keeps at_ queued owed rfl rfl (fun _ h => h) ?_ alone trivial trivial
  intro c
  simp only [State.hands, State.waitingHands, Phase.ids, List.count_nil]
  omega

theorem Inv.finish_sent {includedAt now : ℕ} (returned : s.phase = .returned job (.ok includedAt)) :
    Inv codec config { s with
      rows := Faucet.write written job.claimId (.markSent includedAt now) s.rows
      phase := .idle } := by
  have holds := inv.phase
  rw [returned] at holds
  obtain ⟨row, at_, queued, -⟩ := holds
  exact inv.finish keeps_markSent returned at_ queued fun _ _ _ _ => rfl

theorem Inv.finish_failed (returned : s.phase = .returned job (.error code)) :
    Inv codec config { s with
      rows := Faucet.write written job.claimId (.markFailed (.drip code) now) s.rows
      phase := .idle } := by
  have holds := inv.phase
  rw [returned] at holds
  obtain ⟨⟨row, at_, queued, -⟩, all⟩ := holds
  refine inv.finish keeps_markFailed returned at_ queued fun p mem same alive => ?_
  rw [all p mem same] at alive
  cases alive

/-- A payment settles, which changes no row and no hand. -/
theorem Inv.settle {payment : ℕ} (alive : ∀ p, s.payments[payment]? = some p → p.givenUp = false) :
    Inv codec config { s with
      payments := s.payments.modify payment fun p => { p with settled := true } } := by
  have old : ∀ q ∈ s.payments.modify payment fun p => { p with settled := true },
      ∃ p ∈ s.payments, q.claimId = p.claimId ∧ q.givenUp = p.givenUp := by
    intro q mem
    obtain ⟨c, found⟩ := List.mem_iff_getElem?.1 mem
    obtain ⟨p, was, rfl⟩ := getElem?_modify_some found
    refine ⟨p, List.mem_of_getElem? was, ?_⟩
    split <;> exact ⟨rfl, rfl⟩
  refine ⟨inv.spelled, inv.spaced, ?_, inv.hands, inv.waiting, ?_, inv.quiet⟩
  · exact inv.paid.modify_payment (fun _ => rfl) (fun _ => rfl) (fun _ h => h)
      fun p found _ => alive p found
  · have holds := inv.phase
    dsimp only
    revert holds
    cases s.phase with
    | stopped | idle | recovering | preparing => exact id
    | sending job submitted =>
      cases submitted with
      | none =>
        rintro ⟨row, unpaid⟩
        refine ⟨row, fun q mem => ?_⟩
        obtain ⟨p, was, claim, -⟩ := old q mem
        exact claim ▸ unpaid p was
      | some i =>
        rintro ⟨row, p, found, same⟩
        refine ⟨row, if payment = i then { p with settled := true } else p, ?_, ?_⟩
        · rw [List.getElem?_modify, found]
          rfl
        · split <;> exact same
    | returned job result =>
      cases result with
      | ok => exact id
      | error =>
        rintro ⟨row, all⟩
        refine ⟨row, fun q mem same => ?_⟩
        obtain ⟨p, was, claim, givenUp⟩ := old q mem
        exact givenUp.trans (all p was (claim.symm.trans same))

theorem Inv.crash : Inv codec config { s with
    accepted := []
    refused := []
    queue := []
    phase := .stopped } where
  spelled := inv.spelled
  spaced := inv.spaced
  paid := inv.paid
  hands _ := Nat.zero_le _
  waiting job has := by rcases has with mem | mem | mem <;> cases mem
  phase := trivial
  quiet := ⟨rfl, rfl, rfl⟩

end

theorem mem_queuedClaims {entry : Claim τ κ × ℕ} (h : entry ∈ queuedClaims rows) :
    rows[entry.2]? = some entry.1 ∧ entry.1.status = .queued := by
  obtain ⟨mem, queued⟩ := List.mem_filter.1 h
  exact ⟨List.mem_zipIdx_iff_getElem?.1 mem, eq_of_beq queued⟩

theorem nodup_queuedClaims (rows : List (Claim τ κ)) :
    ((queuedClaims rows).map Prod.snd).Nodup := by
  refine List.Nodup.sublist (List.filter_sublist.map Prod.snd) ?_
  rw [List.zipIdx_map_snd]
  exact List.nodup_range'

theorem Inv.start (inv : Inv codec config s) (stopped : s.phase = .stopped) :
    Inv codec config { s with phase := .recovering (queuedClaims s.rows) } := by
  have quiet := inv.quiet
  rw [State.Quiet, stopped] at quiet
  obtain ⟨accepted, refused, queue⟩ := quiet
  refine ⟨inv.spelled, inv.spaced, inv.paid, ?_, inv.waiting, fun _ => mem_queuedClaims,
    ⟨accepted, refused⟩⟩
  intro c
  simp only [State.hands, State.waitingHands, accepted, refused, queue, List.map_nil,
    List.count_nil, Nat.zero_add]
  exact List.nodup_iff_count_le_one.1 (nodup_queuedClaims s.rows) c

theorem Inv.recovered (inv : Inv codec config s) (recovering : s.phase = .recovering []) :
    Inv codec config { s with phase := .idle } := by
  refine inv.goOn ?_ rfl trivial
  rw [recovering]
  rfl

section Recover

variable {claim : Claim τ κ} {rest : List (Claim τ κ × ℕ)}

theorem hands_of_recovering (recovering : s.phase = .recovering ((claim, claimId) :: rest)) (c : ℕ) :
    s.hands c = s.waitingHands c + (rest.map Prod.snd).count c + if claimId = c then 1 else 0 := by
  simp only [State.hands, recovering, Phase.ids, List.map_cons, List.count_cons, beq_iff_eq]
  omega

/-- Giving up a row of the last run, where the row still counts if a payment of it can settle. -/
theorem Inv.release (inv : Inv codec config s) {detail : Detail}
    (recovering : s.phase = .recovering ((claim, claimId) :: rest))
    (owed : ∀ p ∈ s.payments, p.claimId = claimId → p.givenUp = false → (claim.markFailed detail now).countsAsClaimed = true) :
    Inv codec config (s.release claimId detail rest now written) := by
  have holds := inv.phase
  have quiet := inv.quiet
  have alone : s.waitingHands claimId = 0 := inv.alone (by rw [recovering]; exact List.mem_cons_self)
  rw [State.Quiet, recovering] at quiet
  rw [recovering] at holds
  obtain ⟨⟨at_, queued⟩, later⟩ := List.forall_mem_cons.1 holds
  have hands := hands_of_recovering recovering
  unfold State.release
  split
  · -- The row was written; else the process stops, and nothing is in any hand.
    have free : claimId ∉ rest.map Prod.snd := by
      intro mem
      have := List.count_pos_iff.2 mem
      have one := inv.hands claimId
      rw [hands, if_pos rfl] at one
      omega
    have rows : s.rows.modify claimId (.markFailed detail now) =
        Faucet.write true claimId (.markFailed detail now) s.rows := rfl
    have tail : (Phase.recovering rest : Phase α τ κ).Holds codec s.rows s.payments := later
    refine inv.write keeps_markFailed at_ queued owed rows rfl (fun _ h => h) ?_ alone
      (tail.modify free) quiet
    intro c
    rw [hands c]
    exact Nat.le_add_right ..
  · refine inv.move rfl rfl ?_ ?_ trivial ⟨quiet.1, quiet.2, rfl⟩
    · rintro job (mem | mem | mem)
      · exact inv.waiting job (.inl mem)
      · exact inv.waiting job (.inr (.inl mem))
      · cases mem
    · intro c
      simp only [State.hands, State.waitingHands, Phase.ids, List.map_nil, List.count_nil]
      omega

/-- One queued row of the last run: only a row nothing was submitted for goes to the queue, or is
released. -/
theorem Inv.recoverClaim (inv : Inv codec config s)
    (recovering : s.phase = .recovering ((claim, claimId) :: rest)) :
    Inv codec config (recoverClaim codec config s claim claimId rest now written) := by
  have holds := inv.phase
  have quiet := inv.quiet
  rw [State.Quiet, recovering] at quiet
  rw [recovering] at holds
  obtain ⟨⟨at_, queued⟩, later⟩ := List.forall_mem_cons.1 holds
  obtain ⟨address, spelled⟩ := inv.spelled claim (List.mem_of_getElem? at_)
  have hands := hands_of_recovering recovering
  unfold Faucet.recoverClaim
  rw [spelled, codec.decode_encode]
  dsimp only
  split
  · exact inv.release recovering fun _ _ _ _ => rfl
  · next unmarked =>
    have new : claim.submittedAt = none := Option.not_isSome_iff_eq_none.1 unmarked
    split
    · refine inv.move rfl rfl ?_ ?_ later quiet
      · rintro job (mem | mem | mem)
        · exact inv.waiting job (.inl mem)
        · exact inv.waiting job (.inr (.inl mem))
        · rcases List.mem_append.1 mem with old | isNew
          · exact inv.waiting job (.inr (.inr old))
          · obtain rfl := List.mem_singleton.1 isNew
            exact ⟨claim, ⟨at_, queued, spelled⟩, new⟩
      · intro c
        rw [hands c]
        simp only [State.hands, State.waitingHands, Phase.ids, List.map_append, List.count_append,
          List.map_cons, List.map_nil, List.count_singleton, beq_iff_eq]
        omega
    · refine inv.release recovering fun p mem same => ?_
      exact absurd same (inv.paid.ne_of_new at_ new p mem)

end Recover

/-- **Every sound step keeps the invariant.** -/
theorem Inv.step [DecidableEq τ] [DecidableEq κ] (inv : Inv codec config s) {event : Event α τ κ}
    (sound : event.Sound s) : Inv codec config (step codec config s event) := by
  cases event with
  | claim posted client now admitted lastRead countRead written =>
    obtain rfl : lastRead = true := sound
    dsimp only [Faucet.step]
    split
    · exact inv
    · next recipient _ =>
      split
      · next serving =>
        rcases decideClaim_cases codec config s recipient client now countRead written with
          same | ⟨passed, accepts⟩
        · rwa [same]
        · rw [accepts]
          exact inv.accept (Bool.and_eq_true_iff.1 serving).1 passed
      · exact inv
  | trySend handler =>
    dsimp only [Faucet.step]
    split
    · exact inv
    · next job found =>
      split
      · refine inv.trySend found ?_
        rw [← List.append_assoc]
        exact List.perm_append_singleton ..
      · exact inv.trySend found ((List.perm_append_singleton ..).append_right _)
  | markRefused handler now written =>
    dsimp only [Faucet.step]
    split
    · exact inv
    · next job found => exact inv.markRefused found
  | receive =>
    dsimp only [Faucet.step]
    split
    · next job rest idle queue => exact inv.receive idle queue
    · exact inv
  | prepareFailed code =>
    dsimp only [Faucet.step]
    split
    · next job preparing => exact inv.prepareFailed preparing
    · exact inv
  | markSubmitted now written =>
    dsimp only [Faucet.step]
    split
    · next job preparing => exact inv.markSubmitted preparing sound
    · exact inv
  | submit =>
    dsimp only [Faucet.step]
    split
    · next job sending => exact inv.submit sending
    · exact inv
  | sendOk includedAt =>
    dsimp only [Faucet.step]
    split
    · next job payment sending => exact inv.sendOk sending
    · exact inv
  | sendFailed code =>
    dsimp only [Faucet.step]
    split
    · next job sending => exact inv.sendFailed_unsubmitted sending
    · next job payment sending => exact inv.sendFailed sending (sound job payment sending)
    · exact inv
  | finish now written =>
    dsimp only [Faucet.step]
    split
    · next job includedAt returned => exact inv.finish_sent returned
    · next job code returned => exact inv.finish_failed returned
    · exact inv
  | settle payment => exact inv.settle sound
  | crash found =>
    obtain rfl : found = s.rows := sound
    exact inv.crash
  | start =>
    dsimp only [Faucet.step]
    split
    · next stopped => exact inv.start stopped
    · exact inv
  | recover now written =>
    dsimp only [Faucet.step]
    split
    · next recovering => exact inv.recovered recovering
    · next claim claimId rest recovering => exact inv.recoverClaim recovering
    · exact inv

theorem inv_new : Inv codec config (State.new : State α τ κ) where
  spelled _ mem := by cases mem
  spaced _ _ _ _ found := absurd found (by simp [State.new])
  paid := by
    refine ⟨fun _ mem => ?_, fun _ _ _ _ found => ?_, fun _ mem => ?_⟩
    · cases mem
    · exact absurd found (by simp [State.new])
    · cases mem
  hands _ := Nat.zero_le _
  waiting job has := by rcases has with mem | mem | mem <;> cases mem
  phase := trivial
  quiet := ⟨rfl, rfl, rfl⟩

end Invariant

/-! ## The bound -/

section

variable {α τ κ : Type} [DecidableEq α]

/-- The drips to an address that settled, from claims requested in the cooldown that starts at
`from_`. -/
def drips (s : State α τ κ) (address : α) (cooldown from_ : ℕ) : List (Payment α) :=
  s.payments.filter fun p => p.settled && p.address == address &&
    match s.rows[p.claimId]? with
    | some row => decide (from_ ≤ row.requestedAt ∧ row.requestedAt < from_ + cooldown)
    | none => false

variable {codec : AddressCodec α τ}

/-- A settled drip was not given up, so the row it is paid from counts. -/
theorem Inv.row_of_drip {config : Config} {s : State α τ κ} (inv : Inv codec config s) {address : α}
    {from_ : ℕ} {p : Payment α} (h : p ∈ drips s address config.addressCooldown from_) :
    ∃ row, s.rows[p.claimId]? = some row ∧ row.address = codec.encode address ∧
      row.countsAsClaimed = true ∧ from_ ≤ row.requestedAt ∧
      row.requestedAt < from_ + config.addressCooldown := by
  obtain ⟨mem, selected⟩ := List.mem_filter.1 h
  obtain ⟨row, found, spelled, -, counts⟩ := inv.paid.row p mem
  rw [found] at selected
  simp only [Bool.and_eq_true, beq_iff_eq, decide_eq_true_eq] at selected
  obtain ⟨⟨settled, rfl⟩, window⟩ := selected
  exact ⟨row, found, spelled, counts (inv.paid.settled p mem settled), window⟩

/-- Two settled drips of an address have rows that count, which are a cooldown apart. -/
theorem Inv.length_drips_le {config : Config} {s : State α τ κ} (inv : Inv codec config s)
    (address : α) (from_ : ℕ) : (drips s address config.addressCooldown from_).length ≤ 1 := by
  have apart : (drips s address config.addressCooldown from_).Pairwise
      fun p q => p.claimId ≠ q.claimId := by
    refine List.Pairwise.sublist List.filter_sublist (List.pairwise_iff_getElem.2 ?_)
    intro i j hi hj lt same
    have := inv.paid.once i j _ _ (List.getElem?_eq_getElem hi) (List.getElem?_eq_getElem hj) same
    omega
  cases listed : drips s address config.addressCooldown from_ with
  | nil => exact Nat.zero_le _
  | cons p rest =>
    cases rest with
    | nil => exact Nat.le_refl _
    | cons q rest =>
      rw [listed] at apart
      have ne : p.claimId ≠ q.claimId := (List.pairwise_cons.1 apart).1 q List.mem_cons_self
      obtain ⟨r, found, spelled, counts, window⟩ :=
        inv.row_of_drip (listed ▸ List.mem_cons_self : p ∈ _)
      obtain ⟨r', found', spelled', counts', window'⟩ :=
        inv.row_of_drip (listed ▸ List.mem_cons_of_mem _ List.mem_cons_self : q ∈ _)
      have := inv.spaced _ _ r r' found found' ne (spelled.trans spelled'.symm) counts counts'
      omega

end

section

variable {α τ κ : Type} [DecidableEq α] [DecidableEq τ] [DecidableEq κ]

/-- **One drip a cooldown.** In every run of sound steps, at most one of the payments to an address
whose claims were requested within one cooldown has settled. -/
theorem length_drips_le_one (codec : AddressCodec α τ) (config : Config)
    (events : List (Event α τ κ))
    (sound : Along (step codec config) (fun s event => event.Sound s) .new events) (address : α)
    (from_ : ℕ) :
    (drips (events.foldl (step codec config) .new) address config.addressCooldown from_).length ≤
      1 := by
  have inv : Inv codec config (events.foldl (step codec config) .new) :=
    foldl_invariant (fun _ _ inv sound => inv.step sound) events _ inv_new sound
  exact inv.length_drips_le address from_

end

namespace Sample

def codec : AddressCodec ℕ ℕ := ⟨id, some, fun _ => rfl⟩

def config : Config where
  addressCooldown := 86400
  ipLimit := 3
  ipWindow := 86400
  dripQuanta := 10
  queueDepth := 24

/-- A claim for address seven, from the request to the submission of its payment. -/
def drip (now : ℕ) : List (Event ℕ ℕ ℕ) :=
  [.claim 7 1 now true true true true, .trySend 0, .receive, .markSubmitted now true, .submit]

/-- The first payment is not seen in a block in time and settles afterwards; a minute later the
address claims again. -/
def timedOut : List (Event ℕ ℕ ℕ) :=
  [.start, .recover 0 true] ++ drip 1000 ++ [.sendFailed .sendFailed, .finish 1300 true, .settle 0] ++
    drip 1360 ++ [.settle 1, .sendOk 12, .finish 1480 true]

/-- The same, with the first payment seen in its block. -/
def seen : List (Event ℕ ℕ ℕ) :=
  [.start, .recover 0 true] ++ drip 1000 ++ [.settle 0, .sendOk 10, .finish 1300 true] ++ drip 1360

end Sample

/-- A payment that settles after its send was given up leaves its address free to claim again. -/
theorem drips_timedOut :
    (drips (Sample.timedOut.foldl (step Sample.codec Sample.config) .new) 7
      Sample.config.addressCooldown 1000).length = 2 := by
  decide

/-- The second claim is refused. -/
theorem length_drips_le_one_seen :
    (drips (Sample.seen.foldl (step Sample.codec Sample.config) .new) 7
      Sample.config.addressCooldown 1000).length ≤ 1 ∧
    (Sample.seen.foldl (step Sample.codec Sample.config) .new).payments.length = 1 := by
  refine ⟨length_drips_le_one Sample.codec Sample.config Sample.seen ?_ 7 1000, by decide⟩
  simp only [Along, Sample.seen, Sample.drip, Event.Sound, List.cons_append, List.nil_append,
    true_and, and_true]
  intro p found
  obtain rfl : _ = p := Option.some.inj found
  rfl

end Qnero.Faucet
