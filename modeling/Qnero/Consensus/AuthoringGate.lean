import Qnero.Consensus.Authoring

/-!
# The authoring gate, in every schedule

Three things are asked of the worker: that a build is consumed once, that a paused worker has nothing,
and that the version says whether reads changed. The first holds in every schedule. The two others
hold as long as calls that set the gate do not overlap, and as long as nobody reads inside a pause.
-/

namespace Qnero.Authoring

open Interleaving

variable {s s' : State} {t : ℕ}

/-! ## Invariants of every schedule -/

/-- Who is under the lock holds it. -/
def Locked (s : State) : Prop := ∀ t, (s.threads t).locks = true ↔ s.holder = some t

/-- A closed gate is followed by an empty slot: a pause is about to empty it, or it is empty and
nobody under the lock has seen the gate open. -/
def Closed (s : State) : Prop :=
  s.enabled = false → (∃ u, (s.threads u).preTake = true) ∨
    s.build = none ∧ ∀ u, (s.threads u).entered = false

theorem threads_goto (s : State) (t u : ℕ) (p : Point) :
    (s.goto t p).threads u = if u = t then p else s.threads u := by
  simp [State.goto, Function.update_apply]

theorem Locked.goto {p : Point} (inv : Locked s) (same : p.locks = (s.threads t).locks) :
    Locked (s.goto t p) :=
  forall_update (P := fun u (q : Point) => q.locks = true ↔ s.holder = some u) (same ▸ inv t)
    fun u _ => inv u

theorem Locked.acquire {p : Point} (inv : Locked s) (free : s.holder = none) (locks : p.locks = true) :
    Locked { s.goto t p with holder := some t } := by
  refine forall_update (P := fun u (q : Point) => q.locks = true ↔ some t = some u)
    (iff_of_true locks rfl) fun u ne => ?_
  rw [inv u, free]
  simp [Ne.symm ne]

theorem Locked.release {p : Point} (inv : Locked s) (held : (s.threads t).locks = true)
    (locks : p.locks = false) : Locked { s.goto t p with holder := none } := by
  refine forall_update (P := fun u (q : Point) => q.locks = true ↔ none = some u)
    (iff_of_false (ne_true_of_eq_false locks) nofun) fun u ne => ?_
  rw [inv u, (inv t).1 held]
  simp [Ne.symm ne]

theorem Locked.move (inv : Locked s) (move : Move s t s') : Locked s' := by
  cases move
  case quiet quiet => exact inv.goto quiet.locks
  case lockedBuild point free | lockedSubmit point free => exact inv.acquire free rfl
  case leftBuild point | leftSubmit point | refused point =>
    exact inv.release (by simp [point]) rfl
  all_goals exact inv.goto (by simp [*])

theorem locks_of_entered {p : Point} (h : p.entered = true) : p.locks = true := by
  cases p <;> simp at h ⊢

theorem Locked.not_entered_of_free (inv : Locked s) (free : s.holder = none) (u : ℕ) :
    (s.threads u).entered = false := by
  by_contra entered
  have holds := (inv u).1 (locks_of_entered (Bool.eq_true_of_not_eq_false entered))
  rw [free] at holds
  cases holds

theorem Closed.goto {p : Point} (inv : Closed s) (preTake : p.preTake = (s.threads t).preTake)
    (entered : p.entered = true → (s.threads t).entered = true) : Closed (s.goto t p) := by
  intro closed
  refine (inv closed).imp ?_ ?_
  · rintro ⟨u, pre⟩
    refine ⟨u, ?_⟩
    rw [threads_goto]
    split
    · next eq => rw [preTake, ← eq, pre]
    · exact pre
  · rintro ⟨empty, outside⟩
    refine ⟨empty, forall_update (P := fun _ (q : Point) => q.entered = false) ?_ fun u _ => outside u⟩
    by_contra inside
    exact ne_true_of_eq_false (outside t) (entered (Bool.eq_true_of_not_eq_false inside))

/-- Who has seen the gate open and moves on leaves a pause to come where it is. -/
theorem Closed.pending {p : Point} (inv : Closed s) (entered : (s.threads t).entered = true)
    (closed : s.enabled = false) : ∃ u, ((s.goto t p).threads u).preTake = true := by
  rcases inv closed with ⟨u, pre⟩ | ⟨-, outside⟩
  · refine ⟨u, ?_⟩
    rw [threads_goto, if_neg, pre]
    rintro rfl
    cases h : s.threads u <;> simp [h] at entered pre
  · rw [outside t] at entered
    cases entered

theorem Closed.move (inv : Closed s) (lock : Locked s) (move : Move s t s') : Closed s' := by
  cases move
  case quiet quiet => exact inv.goto quiet.preTake quiet.entered
  case swapped enabled point differs =>
    intro closed
    refine .inl ⟨t, ?_⟩
    have : enabled = false := closed
    simp [State.goto, this]
  case emptied point free =>
    exact fun _ => .inr ⟨rfl, forall_update (P := fun _ (q : Point) => q.entered = false) rfl
      fun u _ => lock.not_entered_of_free free u⟩
  case openedBuild point enabled | openedSubmit point enabled =>
    intro closed
    exact absurd (enabled.symm.trans closed) (by decide)
  case stored point | took point =>
    exact fun closed => .inl (inv.pending (by simp [point]) closed)
  all_goals exact inv.goto (by simp [*]) (by simp [*])

/-! ### Builds -/

/-- The build in the slot is a stored one that no submit took, and none was taken twice. -/
structure Numbered (s : State) : Prop where
  fresh : ∀ build ∈ s.build, build.id < s.stored ∧ build.id ∉ s.consumed
  consumed : ∀ id ∈ s.consumed, id < s.stored
  nodup : s.consumed.Nodup

theorem Numbered.take (inv : Numbered s) :
    (∀ id ∈ (s.build.map Stored.id).toList ++ s.consumed, id < s.stored) ∧
      ((s.build.map Stored.id).toList ++ s.consumed).Nodup := by
  cases held : s.build with
  | none => exact ⟨inv.consumed, inv.nodup⟩
  | some build =>
    obtain ⟨lt, unused⟩ := inv.fresh build held
    refine ⟨fun id mem => ?_, List.nodup_cons.2 ⟨unused, inv.nodup⟩⟩
    rcases List.mem_cons.1 mem with rfl | mem
    · exact lt
    · exact inv.consumed id mem

theorem Numbered.move (inv : Numbered s) (move : Move s t s') : Numbered s' := by
  cases move
  case emptied => exact ⟨nofun, inv.consumed, inv.nodup⟩
  case stored metadata point =>
    refine ⟨?_, fun id mem => Nat.lt_succ_of_lt (inv.consumed id mem), inv.nodup⟩
    rintro _ ⟨⟩
    exact ⟨Nat.lt_succ_self _, fun mem => absurd (inv.consumed _ mem) (Nat.lt_irrefl _)⟩
  case took paused point => exact ⟨nofun, inv.take.1, inv.take.2⟩
  all_goals exact ⟨inv.fresh, inv.consumed, inv.nodup⟩

/-! ### Versions -/

/-- What an answer says is in the slot. -/
def Answer.Shows (build : Option MiningMetadata) : Answer → Prop
  | metadata answer => answer = build
  | bestHash answer => answer = build.map MiningMetadata.bestHash
  | _ => True

/-- Nobody has changed the slot, or is about to empty it, without moving the counter. -/
def Settled (s : State) : Prop :=
  ∀ u, (s.threads u).window = false ∧ (s.threads u).changed = false

/-- **The counter tells what is in the slot**: every answer shows what was there at its count, and in
a settled state that is what is there. -/
structure Versioned (s : State) : Prop where
  counts : s.log.Pairwise fun newer older => older.count ≤ newer.count
  count_le : ∀ entry ∈ s.log, entry.count ≤ s.version
  shown : ∃ shown : ℕ → Option MiningMetadata,
    (∀ entry ∈ s.log, entry.answer.Shows (shown entry.count)) ∧
      (Settled s → shown s.version = s.shown)

theorem window_of_preTake {p : Point} (h : p.preTake = true) : p.window = true := by
  cases p <;> simp_all

theorem not_changed_of_not_entered {p : Point} (h : p.entered = false) : p.changed = false := by
  cases p <;> simp at h ⊢

section

variable {p : Point}

/-- Only the thread that moves changes between settled and not. -/
theorem settled_of_goto (settled : Settled (s.goto t p)) (window : (s.threads t).window = false)
    (changed : (s.threads t).changed = false) : Settled s := by
  intro u
  by_cases eq : u = t
  · subst eq
    exact ⟨window, changed⟩
  · have := settled u
    rwa [threads_goto, if_neg eq] at this

theorem settled_goto (settled : Settled (s.goto t p)) : p.window = false ∧ p.changed = false := by
  have := settled t
  rwa [threads_goto, if_pos rfl] at this

/-- A move that keeps counter and log. -/
theorem Versioned.keep (inv : Versioned s) (log : s'.log = s.log) (version : s'.version = s.version)
    (now : Settled s' → Settled s ∧ s'.shown = s.shown) : Versioned s' := by
  refine ⟨log ▸ inv.counts, fun entry mem => ?_, ?_⟩
  · rw [version]
    exact inv.count_le entry (log ▸ mem)
  · obtain ⟨shown, shows, held⟩ := inv.shown
    refine ⟨shown, fun entry mem => shows entry (log ▸ mem), fun settled => ?_⟩
    rw [version, (now settled).2]
    exact held (now settled).1

/-- A move that keeps the slot as well. -/
theorem Versioned.goto (inv : Versioned s) (threads : s'.threads = (s.goto t p).threads)
    (log : s'.log = s.log) (version : s'.version = s.version) (build : s'.build = s.build)
    (window : p.window = (s.threads t).window) (changed : (s.threads t).changed = false) :
    Versioned s' := by
  refine inv.keep log version fun settled => ?_
  have settled : Settled (s.goto t p) := fun u => threads ▸ settled u
  refine ⟨settled_of_goto settled ?_ changed, by rw [State.shown, State.shown, build]⟩
  rw [← window]
  exact (settled_goto settled).1

/-- The counter moves: what is in the slot now is what the new count shows. -/
theorem Versioned.bump (inv : Versioned s) (log : s'.log = s.log)
    (version : s'.version = s.version + 1) : Versioned s' := by
  refine ⟨log ▸ inv.counts, fun entry mem => ?_, ?_⟩
  · rw [version]
    exact Nat.le_succ_of_le (inv.count_le entry (log ▸ mem))
  · obtain ⟨shown, shows, -⟩ := inv.shown
    refine ⟨Function.update shown s'.version s'.shown, fun entry mem => ?_, fun _ => ?_⟩
    · have := inv.count_le entry (log ▸ mem)
      rw [Function.update_of_ne (by omega)]
      exact shows entry (log ▸ mem)
    · rw [Function.update_self]

/-- An answer is noted: it shows what is there, or nothing. -/
theorem Versioned.note (inv : Versioned s) {paused : Bool} {answer : Answer}
    (threads : s'.threads = (s.goto t p).threads)
    (log : s'.log = ⟨s.version, paused, answer⟩ :: s.log) (version : s'.version = s.version)
    (build : s'.build = s.build) (window : (s.threads t).window = false)
    (changed : (s.threads t).changed = false)
    (right : ∀ build, (Settled s → build = s.shown) → answer.Shows build) : Versioned s' := by
  obtain ⟨shown, shows, held⟩ := inv.shown
  refine ⟨?_, fun entry mem => ?_, shown, fun entry mem => ?_, fun settled => ?_⟩
  · rw [log]
    exact List.pairwise_cons.2 ⟨inv.count_le, inv.counts⟩
  · rw [version]
    rcases List.mem_cons.1 (log ▸ mem) with rfl | mem
    · exact le_rfl
    · exact inv.count_le entry mem
  · rcases List.mem_cons.1 (log ▸ mem) with rfl | mem
    · exact right _ held
    · exact shows entry mem
  · rw [version, State.shown, build]
    have settled : Settled (s.goto t p) := fun u => threads ▸ settled u
    exact held (settled_of_goto settled window changed)

end

/-- The thread is about to answer a read. -/
def Point.answers (enabled : Bool) : Point → Bool
  | readGate _ => !enabled
  | readBuild _ => true
  | _ => false

/-- No read is answered between the flip of the gate by a pause and its increment of the counter. -/
def ReadsApart (s : State) : Action → Prop
  | .call .. => True
  | .advance t .. => (s.threads t).answers s.enabled = true → ∀ u, (s.threads u).window = false

theorem Read.shows_answer (what : Read) (build : Option MiningMetadata) :
    (what.answer build).Shows build := by
  cases what <;> rfl

theorem Versioned.move (inv : Versioned s) (lock : Locked s) (closed : Closed s)
    (apart : (s.threads t).answers s.enabled = true → ∀ u, (s.threads u).window = false)
    (move : Move s t s') : Versioned s' := by
  cases move
  case quiet quiet => exact inv.goto rfl rfl rfl rfl quiet.window quiet.changed
  case swapped enabled point differs =>
    exact inv.keep rfl rfl fun settled =>
      ⟨settled_of_goto settled (by simp [point]) (by simp [point]), rfl⟩
  case emptied point free =>
    exact inv.keep rfl rfl fun settled => nomatch (settled_goto (s := s) settled).1
  case paused point => exact inv.bump rfl rfl
  case stored point | took point =>
    exact inv.keep rfl rfl fun settled => nomatch (settled_goto (s := s) settled).2
  case bumpedBuild point | bumpedSubmit point => exact inv.bump rfl rfl
  case readClosed what point closing =>
    have windows := apart (by simp [point, Point.answers, closing])
    refine inv.note rfl rfl rfl rfl (by simp [point]) (by simp [point]) fun build now => ?_
    obtain ⟨u, pre⟩ | ⟨empty, outside⟩ := closed closing
    · exact absurd (window_of_preTake pre) (ne_true_of_eq_false (windows u))
    · have settled : Settled s := fun u => ⟨windows u, not_changed_of_not_entered (outside u)⟩
      rw [now settled, State.shown, empty]
      exact what.shows_answer none
  case readSlot what point free =>
    refine inv.note rfl rfl rfl rfl (by simp [point]) (by simp [point]) fun build now => ?_
    have windows := apart (by simp [point, Point.answers])
    have settled : Settled s := fun u =>
      ⟨windows u, not_changed_of_not_entered (lock.not_entered_of_free free u)⟩
    rw [now settled]
    exact what.shows_answer s.shown
  case refused point | imported point | notImported point | readVersion point =>
    exact inv.note rfl rfl rfl rfl (by simp [point]) (by simp [point]) fun _ _ => trivial
  all_goals exact inv.goto rfl rfl rfl rfl (by simp [*]) (by simp [*])

/-! ### Pauses -/

/-- No call that sets the gate starts while another one is under way. -/
def SetsApart (s : State) : Action → Prop
  | .call _ (.setAuthoringEnabled _) => ∀ u, (s.threads u).inSet = false
  | _ => True

/-- An answer that a paused worker gives. -/
def Answer.Paused : Answer → Prop
  | version => True
  | metadata answer => answer = none
  | bestHash answer => answer = none
  | submit answer => answer = false

/-- **A paused worker has nothing**: the gate is closed, and who comes finds nothing. -/
structure Rests (s : State) : Prop where
  one : ∀ u v, (s.threads u).inSet = true → (s.threads v).inSet = true → u = v
  closed : s.paused = true → s.enabled = false ∧
    ∀ u, (s.threads u).inSet = true → s.threads u = .setSwap false
  window : ∀ u, (s.threads u).window = true → s.enabled = false
  refuses : ∀ u, (s.threads u).Refuses s.build
  answers : ∀ entry ∈ s.log, entry.paused = true → entry.answer.Paused

theorem Rests.empty (inv : Rests s) (closed : Closed s) (paused : s.paused = true) :
    s.build = none ∧ ∀ u, (s.threads u).entered = false := by
  obtain ⟨closing, sets⟩ := inv.closed paused
  rcases closed closing with ⟨u, pre⟩ | empty
  · cases h : s.threads u <;> simp [h] at pre
    all_goals
      have := sets u (by simp [h])
      simp [h] at this
  · exact empty

theorem inSet_of_window {p : Point} (h : p.window = true) : p.inSet = true := by
  cases p <;> simp at h ⊢

/-- An empty slot refuses more. -/
theorem Point.Refuses.empty {build : Option Stored} {p : Point} (h : p.Refuses build) :
    p.Refuses none := by
  cases p <;> simp_all

/-- Away from the lock the slot does not matter. -/
theorem Point.Refuses.unlocked {build build' : Option Stored} {p : Point} (h : p.Refuses build)
    (locks : p.locks = false) : p.Refuses build' := by
  cases p <;> simp_all

/-- Who is past the first access of a call that sets the gate is not met by a pause. -/
theorem Rests.not_paused (inv : Rests s) (inSet : (s.threads t).inSet = true)
    (ne : s.threads t ≠ .setSwap false) : s.paused = false := by
  by_contra paused
  exact ne ((inv.closed (Bool.eq_true_of_not_eq_false paused)).2 t inSet)

/-- A move of a thread, as far as pauses are concerned. -/
theorem Rests.goto {p : Point} (inv : Rests s) (threads : s'.threads = (s.goto t p).threads)
    (inSet : p.inSet = true → (s.threads t).inSet = true)
    (window : p.window = true → s'.enabled = false)
    (others : ∀ u, u ≠ t → (s.threads u).window = true → s'.enabled = false)
    (closed : s'.paused = true → s'.enabled = false ∧ p.inSet = false ∧
      ∀ u, u ≠ t → (s.threads u).inSet = true → s.threads u = .setSwap false)
    (refuses : p.Refuses s'.build)
    (refusing : ∀ u, u ≠ t → (s.threads u).Refuses s'.build)
    (answers : ∀ entry ∈ s'.log, entry.paused = true → entry.answer.Paused) : Rests s' where
  one u v hu hv := by
    rw [threads, threads_goto] at hu hv
    have back (w : ℕ) (h : (if w = t then p else s.threads w).inSet = true) :
        (s.threads w).inSet = true := by
      split at h
      · next eq => exact eq ▸ inSet h
      · exact h
    exact inv.one u v (back u hu) (back v hv)
  closed paused := by
    obtain ⟨closing, outside, sets⟩ := closed paused
    refine ⟨closing, fun u => ?_⟩
    rw [threads]
    refine forall_update (P := fun _ (q : Point) => q.inSet = true → q = .setSwap false) (fun h => ?_)
      (fun u ne => sets u ne) u
    rw [outside] at h
    cases h
  window u := by
    rw [threads]
    exact forall_update (P := fun _ (q : Point) => q.window = true → s'.enabled = false) window others u
  refuses u := by
    rw [threads]
    exact forall_update (P := fun _ (q : Point) => q.Refuses s'.build) refuses refusing u
  answers := answers

/-- A move that leaves the gate, the slot and the pause. -/
theorem Rests.plain {p : Point} (inv : Rests s) (threads : s'.threads = (s.goto t p).threads)
    (enabled : s'.enabled = s.enabled) (paused : s'.paused = s.paused) (build : s'.build = s.build)
    (inSet : p.inSet = true → (s.threads t).inSet = true ∧ s.threads t ≠ .setSwap false)
    (window : p.window = true → (s.threads t).window = true) (refuses : p.Refuses s.build)
    (answers : ∀ entry ∈ s'.log, entry.paused = true → entry.answer.Paused) : Rests s' := by
  refine inv.goto threads (fun h => (inSet h).1) (fun h => enabled ▸ inv.window t (window h))
    (fun u _ h => enabled ▸ inv.window u h) (fun h => ?_) (build ▸ refuses)
    (fun u _ => build ▸ inv.refuses u) answers
  obtain ⟨closing, sets⟩ := inv.closed (paused ▸ h)
  refine ⟨enabled ▸ closing, ?_, fun u _ => sets u⟩
  by_contra inside
  obtain ⟨here, ne⟩ := inSet (Bool.eq_true_of_not_eq_false inside)
  exact ne (sets t here)

/-- The same, with an answer noted. -/
theorem Rests.note {p : Point} {answered : Bool} {answer : Answer} (inv : Rests s)
    (threads : s'.threads = (s.goto t p).threads) (enabled : s'.enabled = s.enabled)
    (paused : s'.paused = s.paused) (build : s'.build = s.build) (inSet : p.inSet = false)
    (window : p.window = false) (refuses : p.Refuses s.build)
    (log : s'.log = ⟨s.version, answered, answer⟩ :: s.log)
    (right : answered = true → answer.Paused) : Rests s' := by
  refine inv.plain threads enabled paused build (fun h => ?_) (fun h => ?_) refuses fun entry mem => ?_
  · rw [inSet] at h
    cases h
  · rw [window] at h
    cases h
  · rcases List.mem_cons.1 (log ▸ mem) with rfl | mem
    · exact right
    · exact inv.answers entry mem

theorem Read.paused_answer (what : Read) : (what.answer none).Paused := by
  cases what <;> rfl

/-- **Every move keeps it.** The cases written out touch the gate, the slot or an answer. -/
theorem Rests.move (inv : Rests s) (lock : Locked s) (closed : Closed s) (move : Move s t s') :
    Rests s' := by
  -- Under the lock there is one thread, and in a call that sets the gate there is one.
  have unlocked (held : (s.threads t).locks = true) (u : ℕ) (ne : u ≠ t) :
      (s.threads u).locks = false := by
    by_contra locks
    have := (lock u).1 (Bool.eq_true_of_not_eq_false locks)
    rw [(lock t).1 held] at this
    exact ne (Option.some.inj this).symm
  have alone (here : (s.threads t).inSet = true) (u : ℕ) (ne : u ≠ t) :
      (s.threads u).inSet = true → False := fun inside => ne (inv.one u t inside here)
  have refuses := inv.refuses t
  cases move
  case quiet quiet =>
    exact inv.plain rfl rfl rfl rfl (fun h => ⟨quiet.inSet h, quiet.notSwap false⟩)
      (fun h => quiet.window ▸ h) (quiet.refuses refuses) inv.answers
  case unchanged enabled point same =>
    have here : (s.threads t).inSet = true := by simp [point]
    refine inv.goto rfl nofun nofun (fun u ne h => (alone here u ne (inSet_of_window h)).elim)
      (fun paused => ?_) trivial (fun u _ => inv.refuses u) inv.answers
    refine ⟨?_, rfl, fun u ne inside => (alone here u ne inside).elim⟩
    rcases Bool.or_eq_true_iff.1 paused with before | closing
    · exact (inv.closed before).1
    · exact same.trans (by simpa using closing)
  case swapped enabled point differs =>
    have here : (s.threads t).inSet = true := by simp [point]
    have running : s.paused = false := by
      by_contra paused
      obtain ⟨closing, sets⟩ := inv.closed (Bool.eq_true_of_not_eq_false paused)
      have := sets t here
      rw [point, Point.setSwap.injEq] at this
      exact differs (closing.trans this.symm)
    refine inv.goto rfl (fun _ => here) (fun h => by simpa using h)
      (fun u ne h => (alone here u ne (inSet_of_window h)).elim) (fun paused => ?_) trivial
      (fun u _ => inv.refuses u) inv.answers
    exact absurd (running.symm.trans paused) (by decide)
  case emptied point free =>
    have here : (s.threads t).inSet = true := by simp [point]
    have running := inv.not_paused here (by simp [point])
    refine inv.goto rfl (fun _ => here) (fun _ => inv.window t (by simp [point]))
      (fun u ne h => (alone here u ne (inSet_of_window h)).elim) (fun paused => ?_) trivial
      (fun u _ => (inv.refuses u).empty) inv.answers
    exact absurd (running.symm.trans paused) (by decide)
  case paused point =>
    have here : (s.threads t).inSet = true := by simp [point]
    exact inv.goto rfl nofun nofun (fun u ne h => (alone here u ne (inSet_of_window h)).elim)
      (fun _ => ⟨inv.window t (by simp [point]), rfl, fun u ne inside => (alone here u ne inside).elim⟩)
      trivial (fun u _ => inv.refuses u) inv.answers
  case lockedSubmit bytes point free =>
    exact inv.plain rfl rfl rfl rfl nofun nofun (fun paused => (inv.empty closed paused).1) inv.answers
  case openedSubmit bytes paused point enabled =>
    rw [point] at refuses
    exact inv.plain rfl rfl rfl rfl nofun nofun refuses inv.answers
  case stored metadata point =>
    have held : (s.threads t).locks = true := by simp [point]
    refine inv.goto rfl nofun nofun (fun u _ h => inv.window u h)
      (fun paused => ⟨(inv.closed paused).1, rfl, fun u _ => (inv.closed paused).2 u⟩) trivial
      (fun u ne => (inv.refuses u).unlocked (unlocked held u ne)) inv.answers
  case took paused point =>
    rw [point] at refuses
    refine inv.goto rfl nofun nofun (fun u _ h => inv.window u h)
      (fun paused => ⟨(inv.closed paused).1, rfl, fun u _ => (inv.closed paused).2 u⟩) ?_
      (fun u _ => (inv.refuses u).empty) inv.answers
    intro paused
    exact absurd (refuses.symm.trans paused) (by decide)
  case bumpedSubmit took paused point =>
    rw [point] at refuses
    exact inv.plain rfl rfl rfl rfl nofun nofun refuses inv.answers
  case leftSubmit paused point =>
    rw [point] at refuses
    refine inv.plain rfl rfl rfl rfl nofun nofun ?_ inv.answers
    by_contra running
    exact absurd (refuses (Bool.eq_true_of_not_eq_false running)) (by decide)
  case refused paused point => exact inv.note rfl rfl rfl rfl rfl rfl trivial rfl fun _ => rfl
  case readClosed what point closing =>
    exact inv.note rfl rfl rfl rfl rfl rfl trivial rfl fun _ => what.paused_answer
  case readSlot what point free =>
    refine inv.note rfl rfl rfl rfl rfl rfl trivial rfl fun paused => ?_
    rw [State.shown, (inv.empty closed paused).1]
    exact what.paused_answer
  case readVersion point => exact inv.note rfl rfl rfl rfl rfl rfl trivial rfl fun _ => trivial
  case imported paused point =>
    rw [point] at refuses
    exact inv.note rfl rfl rfl rfl rfl rfl trivial rfl fun paused =>
      absurd (refuses.symm.trans paused) (by decide)
  case notImported paused point => exact inv.note rfl rfl rfl rfl rfl rfl trivial rfl fun _ => rfl
  all_goals exact inv.plain rfl rfl rfl rfl nofun nofun trivial inv.answers

/-! ## Schedules -/

variable {action : Action}

/-- A step is the start of a call, or a move. -/
theorem step_cases (h : s.step action = some s') :
    (∃ t call, action = .call t call ∧ s.threads t = .idle ∧ s' = { s.goto t call.entry with
      paused := if call = .setAuthoringEnabled true then false else s.paused }) ∨
    ∃ t verdict bestHash, action = .advance t verdict bestHash ∧ Move s t s' := by
  cases action with
  | call t call =>
    obtain ⟨idle, h⟩ := Option.ite_none_right_eq_some.1 h
    exact .inl ⟨t, call, rfl, idle, (Option.some.inj h).symm⟩
  | advance t verdict bestHash => exact .inr ⟨t, verdict, bestHash, rfl, move_of_advance h⟩

/-- The invariants of every schedule. -/
structure Sound (s : State) : Prop where
  locked : Locked s
  closed : Closed s
  numbered : Numbered s

theorem sound_initial : Sound .initial where
  locked _ := iff_of_false nofun nofun
  closed _ := .inr ⟨rfl, fun _ => rfl⟩
  numbered := ⟨nofun, nofun, List.nodup_nil⟩

theorem Sound.step (inv : Sound s) (h : s.step action = some s') : Sound s' := by
  rcases step_cases h with ⟨t, call, rfl, idle, rfl⟩ | ⟨t, _, _, rfl, move⟩
  · have flags : call.entry.locks = (s.threads t).locks ∧ call.entry.preTake = (s.threads t).preTake ∧
        call.entry.entered = false := by
      rw [idle]
      cases call <;> exact ⟨rfl, rfl, rfl⟩
    obtain ⟨locks, preTake, entered⟩ := flags
    refine ⟨inv.locked.goto locks, inv.closed.goto preTake fun h => ?_,
      ⟨inv.numbered.fresh, inv.numbered.consumed, inv.numbered.nodup⟩⟩
    rw [entered] at h
    cases h
  · exact ⟨inv.locked.move move, inv.closed.move inv.locked move, inv.numbered.move move⟩

theorem Versioned.step (inv : Versioned s) (sound : Sound s) (apart : ReadsApart s action)
    (h : s.step action = some s') : Versioned s' := by
  rcases step_cases h with ⟨t, call, rfl, idle, rfl⟩ | ⟨t, _, _, rfl, move⟩
  · refine inv.goto rfl rfl rfl rfl ?_ (by rw [idle]; rfl)
    rw [idle]
    cases call <;> rfl
  · exact inv.move sound.locked sound.closed apart move

/-- A call that sets the gate starts alone. -/
theorem Rests.start {enabled : Bool} (inv : Rests s) (apart : ∀ u, (s.threads u).inSet = false) :
    Rests { s.goto t (.setSwap enabled) with
      paused := if Call.setAuthoringEnabled enabled = .setAuthoringEnabled true then false
        else s.paused } where
  one u v hu hv := by
    have only (w : ℕ) (h : ((s.goto t (.setSwap enabled)).threads w).inSet = true) : w = t := by
      rw [threads_goto] at h
      split at h
      · next eq => exact eq
      · rw [apart w] at h
        cases h
    exact (only u hu).trans (only v hv).symm
  closed paused := by
    obtain ⟨stays, paused⟩ : enabled = false ∧ s.paused = true := by
      cases enabled <;> simp_all
    subst stays
    refine ⟨(inv.closed paused).1, fun u => ?_⟩
    refine forall_update (P := fun _ (q : Point) => q.inSet = true → q = .setSwap false) (fun _ => rfl)
      (fun u _ h => ?_) u
    rw [apart u] at h
    cases h
  window u := by
    refine forall_update (P := fun _ (q : Point) => q.window = true → s.enabled = false) (fun h => ?_)
      (fun u _ => inv.window u) u
    cases h
  refuses u := by
    refine forall_update (P := fun _ (q : Point) => q.Refuses s.build) ?_ (fun u _ => inv.refuses u) u
    trivial
  answers := inv.answers

theorem Rests.step (inv : Rests s) (sound : Sound s) (apart : SetsApart s action)
    (h : s.step action = some s') : Rests s' := by
  rcases step_cases h with ⟨t, call, rfl, idle, rfl⟩ | ⟨t, _, _, rfl, move⟩
  · cases call
    case setAuthoringEnabled enabled => exact inv.start apart
    all_goals exact inv.plain rfl rfl rfl rfl nofun nofun trivial inv.answers
  · exact inv.move sound.locked sound.closed move

theorem sound_of_reaches {meets : State → Action → Prop}
    (reaches : Reaches State.step meets .initial s) : Sound s :=
  reaches.invariant sound_initial fun _ _ _ inv _ h => inv.step h

theorem rests_of_reaches (reaches : Reaches State.step SetsApart .initial s) : Sound s ∧ Rests s := by
  refine reaches.invariant (P := fun s => Sound s ∧ Rests s) ⟨sound_initial, ?_⟩
    fun _ _ _ inv apart h => ⟨inv.1.step h, inv.2.step inv.1 apart h⟩
  exact ⟨nofun, nofun, nofun, fun _ => trivial, nofun⟩

theorem versioned_of_reaches (reaches : Reaches State.step ReadsApart .initial s) :
    Sound s ∧ Versioned s := by
  refine reaches.invariant (P := fun s => Sound s ∧ Versioned s) ⟨sound_initial, ?_⟩
    fun _ _ _ inv apart h => ⟨inv.1.step h, inv.2.step inv.1 apart h⟩
  exact ⟨.nil, nofun, fun _ => none, nofun, fun _ => rfl⟩

/-- **The contract of the counter**: between two reads of one version, all reads of the slot answer
the same. -/
def VersionContract (log : List Entry) : Prop :=
  ∀ (newer between older : List Entry) (last first : Entry),
    log = newer ++ last :: (between ++ first :: older) → last.answer = .version →
    first.answer = .version → last.version = first.version →
    (∀ a b, .metadata a ∈ between.map Entry.answer → .metadata b ∈ between.map Entry.answer → a = b) ∧
      ∀ a b, .bestHash a ∈ between.map Entry.answer → .bestHash b ∈ between.map Entry.answer → a = b

theorem Versioned.contract (inv : Versioned s) (fits : s.version < 2 ^ 64) : VersionContract s.log := by
  intro newer between older last first log _ _ same
  obtain ⟨shown, shows, -⟩ := inv.shown
  have counts := inv.counts
  have count_le := inv.count_le
  rw [log] at counts shows count_le
  have equal : last.count = first.count := by
    have := count_le last (by simp)
    have := count_le first (by simp)
    rwa [Entry.version, Entry.version, Nat.mod_eq_of_lt (by omega), Nat.mod_eq_of_lt (by omega)] at same
  have shown_between : ∀ entry ∈ between, entry.answer.Shows (shown first.count) := by
    intro entry mem
    have inside := (List.pairwise_append.1 counts).2.1
    have above := (List.pairwise_cons.1 inside).1 entry (by simp [mem])
    have below := (List.pairwise_append.1 (List.pairwise_cons.1 inside).2).2.2 entry mem first (by simp)
    rw [show first.count = entry.count by omega]
    exact shows entry (by simp [mem])
  have agree {α : Type} (wrap : α → Answer) (view : α)
      (read : ∀ a, (wrap a).Shows (shown first.count) → a = view) (a b : α)
      (ha : wrap a ∈ between.map Entry.answer) (hb : wrap b ∈ between.map Entry.answer) : a = b := by
    obtain ⟨entry, mem, eq⟩ := List.mem_map.1 ha
    obtain ⟨entry', mem', eq'⟩ := List.mem_map.1 hb
    rw [read a (eq ▸ shown_between entry mem), read b (eq' ▸ shown_between entry' mem')]
  exact ⟨agree .metadata _ fun _ h => h, agree .bestHash _ fun _ h => h⟩

/-- **The authoring gate.** In every schedule a build is consumed once. If calls that set the gate do
not overlap, a paused worker has no build and answers so. If no read is answered inside a pause, from
the flip of its gate to its increment, the version says whether the answers changed. -/
theorem authoring_gate (s : State) :
    (Reaches State.step (fun _ _ => True) .initial s → s.consumed.Nodup) ∧
    (Reaches State.step SetsApart .initial s →
      (s.paused = true → s.enabled = false ∧ s.build = none) ∧
        ∀ entry ∈ s.log, entry.paused = true → entry.answer.Paused) ∧
    (Reaches State.step ReadsApart .initial s → s.version < 2 ^ 64 → VersionContract s.log) := by
  refine ⟨fun reaches => (sound_of_reaches reaches).numbered.nodup, fun reaches => ?_,
    fun reaches fits => (versioned_of_reaches reaches).2.contract fits⟩
  obtain ⟨sound, rests⟩ := rests_of_reaches reaches
  exact ⟨fun paused => ⟨(rests.closed paused).1, (rests.empty sound.closed paused).1⟩, rests.answers⟩

/-! ## A pause that is overtaken -/

namespace Races

def built : MiningMetadata := ⟨0, 0, 1, 0, 1⟩

def advances (t n : ℕ) : List Action := List.replicate n (.advance t true 0)

/-- The worker is resumed, and a build is stored. -/
def mining : List Action :=
  .call 0 (.setAuthoringEnabled true) :: advances 0 5 ++ .call 1 (.onBuild built) :: advances 1 5

/-- A pause flips the gate; a second one returns. -/
def overlapping : List Action :=
  mining ++ .call 0 (.setAuthoringEnabled false) :: advances 0 1 ++
    .call 1 (.setAuthoringEnabled false) :: advances 1 1

/-- Between two reads of the version the metadata are read twice, before and after the flip. -/
def reading : List Action :=
  mining ++ .call 1 .version :: advances 1 1 ++ .call 1 (.read .metadata) :: advances 1 2 ++
    .call 0 (.setAuthoringEnabled false) :: advances 0 1 ++
    .call 1 (.read .metadata) :: advances 1 1 ++ .call 1 .version :: advances 1 1

end Races

open Races in
/-- **Two races with a pause.** A second pause returns while the build is still there, and a reader
sees the metadata change under one version. -/
theorem pause_races :
    (∃ s, Reaches State.step (fun _ _ => True) .initial s ∧ s.paused = true ∧ s.build ≠ none) ∧
    (∃ s, Reaches State.step (fun _ _ => True) .initial s ∧ s.version < 2 ^ 64 ∧
      ¬ VersionContract s.log) := by
  constructor
  · obtain ⟨s, ran⟩ : ∃ s, run State.step overlapping .initial = some s :=
      Option.isSome_iff_exists.1 (by decide +kernel)
    have final : (run State.step overlapping .initial).map (fun s => (s.paused, s.build.isSome)) =
        some (true, true) := by decide +kernel
    rw [ran, Option.map_some, Option.some.injEq, Prod.mk.injEq] at final
    refine ⟨s, .of_run ran, final.1, fun empty => ?_⟩
    rw [empty] at final
    exact absurd final.2 (by decide)
  · obtain ⟨s, ran⟩ : ∃ s, run State.step reading .initial = some s :=
      Option.isSome_iff_exists.1 (by decide +kernel)
    have final : (run State.step reading .initial).map (fun s => (s.version, s.log)) =
        some (1, [⟨1, false, .version⟩, ⟨1, false, .metadata none⟩,
          ⟨1, false, .metadata (some built)⟩, ⟨1, false, .version⟩]) := by decide +kernel
    rw [ran, Option.map_some, Option.some.injEq, Prod.mk.injEq] at final
    refine ⟨s, .of_run ran, by omega, fun contract => ?_⟩
    have same := (contract [] [⟨1, false, .metadata none⟩, ⟨1, false, .metadata (some built)⟩] [] _ _
      final.2 rfl rfl rfl).1 none (some built) (by simp) (by simp)
    cases same

/-- A move leaves the other threads where they are. -/
theorem Move.threads_eq (move : Move s t s') {u : ℕ} (ne : u ≠ t) : s'.threads u = s.threads u := by
  cases move <;> exact Function.update_of_ne ne ..

namespace Races

/-- An action of one of two threads, which meets both conditions as far as these two go. -/
def apart (s : State) : Action → Bool
  | .call t (.setAuthoringEnabled _) => t < 2 && !(s.threads 0).inSet && !(s.threads 1).inSet
  | .call t _ => t < 2
  | .advance t .. => t < 2 && (!(s.threads t).answers s.enabled ||
      !(s.threads 0).window && !(s.threads 1).window)

theorem apart_of_two (outside : ∀ u, 2 ≤ u → s.threads u = .idle) (h : apart s action = true) :
    SetsApart s action ∧ ReadsApart s action := by
  have below {P : Point → Prop} (zero : P (s.threads 0)) (one : P (s.threads 1)) (idle : P .idle)
      (u : ℕ) : P (s.threads u) := by
    match u with
    | 0 => exact zero
    | 1 => exact one
    | u + 2 => rwa [outside (u + 2) (by omega)]
  cases action with
  | call t call =>
    refine ⟨?_, trivial⟩
    cases call <;> try trivial
    simp only [apart, Bool.and_eq_true, Bool.not_eq_true'] at h
    exact below (P := fun p => p.inSet = false) h.1.2 h.2 rfl
  | advance t verdict bestHash =>
    refine ⟨trivial, fun answers => ?_⟩
    simp only [apart, answers, Bool.and_eq_true, Bool.not_eq_true', Bool.or_eq_true,
      Bool.true_eq_false, false_or] at h
    exact below (P := fun p => p.window = false) h.2.1 h.2.2 rfl

theorem reaches_of_two {schedule : List Action}
    (ran : runMeeting State.step (fun s a => apart s a = true) schedule .initial = some s) :
    Reaches State.step (fun s a => SetsApart s a ∧ ReadsApart s a) .initial s := by
  refine (Reaches.of_runMeeting ran).strengthen (P := fun s => ∀ u, 2 ≤ u → s.threads u = .idle)
    (fun _ _ => rfl) ?_ fun s a outside met => apart_of_two outside met
  intro s a s' outside met h u le
  rcases step_cases h with ⟨t, call, rfl, idle, rfl⟩ | ⟨t, _, _, rfl, move⟩
  · have : t < 2 := by
      cases call <;> simp_all [apart]
    exact (Function.update_of_ne (by omega) ..).trans (outside u le)
  · have : t < 2 := by simp_all [apart]
    exact (move.threads_eq (by omega)).trans (outside u le)

/-- A build is read, mined, and the worker paused and read again. -/
def orderly : List Action :=
  mining ++ .call 1 .version :: advances 1 1 ++ .call 1 (.read .metadata) :: advances 1 2 ++
    .call 1 .version :: advances 1 1 ++ .call 1 (.submit (Seal.encode ⟨7, 0⟩)) :: advances 1 7 ++
    .call 0 (.setAuthoringEnabled false) :: advances 0 4 ++ .call 1 (.read .metadata) :: advances 1 1

end Races

open Races in
/-- A schedule that meets the conditions, to a paused worker. -/
theorem authoring_gate_orderly : ∃ s, Reaches State.step SetsApart .initial s ∧
    Reaches State.step ReadsApart .initial s ∧ s.consumed = [0] ∧ s.paused = true ∧
    s.build = none ∧ VersionContract s.log ∧ s.consumed.Nodup := by
  obtain ⟨s, ran⟩ : ∃ s, runMeeting State.step (fun s a => apart s a = true) orderly .initial =
      some s := Option.isSome_iff_exists.1 (by decide +kernel)
  have final : (runMeeting State.step (fun s a => apart s a = true) orderly .initial).map
      (fun s => (s.consumed, s.paused, s.version)) = some ([0], true, 3) := by decide +kernel
  rw [ran, Option.map_some, Option.some.injEq, Prod.mk.injEq, Prod.mk.injEq] at final
  obtain ⟨consumed, paused, version⟩ := final
  have reaches := reaches_of_two ran
  have sets := reaches.weaken fun _ _ met => met.1
  have reads := reaches.weaken fun _ _ met => met.2
  obtain ⟨once, rests, contract⟩ := authoring_gate s
  exact ⟨s, sets, reads, consumed, paused, ((rests sets).1 paused).2,
    contract reads (by omega), once (reaches.weaken fun _ _ _ => trivial)⟩

end Qnero.Authoring
