import Mathlib.Order.Bounds.Basic
import Qnero.Sorting
import Qnero.Wallet.Spend

/-!
# Note selection

A sender may give two notes one nullifier, and of such a set one note can be spent. `spendable` keeps
the largest of each; `selectNotes` takes the one or two largest of those. That this misses no payment
rests on two facts: a note stands in for every note of its set (`Collapsed`), and of a list in falling
order the first two are the largest pair.

The total is a sum of 64-bit integers that wraps, where a wallet holds more than 64 bits can say.
-/

namespace Qnero

open Machine

/-! ## Conflict sets -/

/-- The balance. -/
def WalletStore.unspentTotal (store : WalletStore) : ℕ := sumU64 store.spendable

section

variable {a b c m n note : StoredNote} {notes notes' best best' : List StoredNote}

theorem not_outranks_iff : ¬ outranks a b ↔
    a.value < b.value ∨ a.value = b.value ∧ b.leafIndex ≤ a.leafIndex := by
  simp only [outranks, decide_eq_true_eq]
  omega

theorem value_le_of_not_outranks (h : ¬ outranks a b) : a.value ≤ b.value := by
  rw [not_outranks_iff] at h
  omega

theorem not_outranks_self (a : StoredNote) : ¬ outranks a a := by
  rw [not_outranks_iff]
  omega

theorem not_outranks_trans (h : ¬ outranks a b) (h' : ¬ outranks b c) : ¬ outranks a c := by
  rw [not_outranks_iff] at h h' ⊢
  omega

theorem not_outranks_of_outranks (h : outranks a b) : ¬ outranks b a := by
  rw [not_outranks_iff]
  simp only [outranks, decide_eq_true_eq] at h
  omega

/-- One note for each nullifier, the best of those that have it. -/
structure Collapsed (notes best : List StoredNote) : Prop where
  sorted : best.Pairwise fun a b => digestBytes a.nullifier < digestBytes b.nullifier
  subset : ∀ n ∈ best, n ∈ notes
  covers : ∀ m ∈ notes, ∃ n ∈ best, n.nullifier = m.nullifier ∧ ¬ outranks m n

theorem mem_insertBest (h : n ∈ insertBest note best) : n = note ∨ n ∈ best := by
  induction best with
  | nil => exact .inl (List.mem_singleton.1 h)
  | cons held rest ih =>
    rw [insertBest] at h
    split at h
    · rcases List.mem_cons.1 h with rfl | h
      · split
        · exact .inl rfl
        · exact .inr (by simp)
      · exact .inr (List.mem_cons_of_mem _ h)
    · split at h
      · exact (List.mem_cons.1 h).imp_right id
      · rcases List.mem_cons.1 h with rfl | h
        · exact .inr (by simp)
        · exact (ih h).imp_right (List.mem_cons_of_mem _)

theorem insertBest_sorted
    (sorted : best.Pairwise fun a b => digestBytes a.nullifier < digestBytes b.nullifier) :
    (insertBest note best).Pairwise fun a b =>
      digestBytes a.nullifier < digestBytes b.nullifier := by
  induction best with
  | nil => exact List.pairwise_singleton ..
  | cons held rest ih =>
    obtain ⟨first, others⟩ := List.pairwise_cons.1 sorted
    rw [insertBest]
    split
    · next same =>
      refine List.pairwise_cons.2 ⟨fun b mem => ?_, others⟩
      split
      · rw [same]
        exact first b mem
      · exact first b mem
    · next other =>
      split
      · next less =>
        refine List.pairwise_cons.2 ⟨fun b mem => ?_, sorted⟩
        rcases List.mem_cons.1 mem with rfl | mem
        · exact less
        · exact less.trans (first b mem)
      · next notLess =>
        refine List.pairwise_cons.2 ⟨fun b mem => ?_, ih others⟩
        rcases mem_insertBest mem with rfl | mem
        · refine lt_of_le_of_ne (not_lt.1 notLess) fun equal => other ?_
          exact (digestBytes_inj.1 equal).symm
        · exact first b mem

/-- Nothing is lost by an insertion: the note, and every note that was there, has its match. -/
theorem insertBest_covers (note : StoredNote) (h : m = note ∨ m ∈ best) :
    ∃ n ∈ insertBest note best, n.nullifier = m.nullifier ∧ ¬ outranks m n := by
  induction best with
  | nil =>
    obtain rfl := h.resolve_right List.not_mem_nil
    exact ⟨m, List.mem_singleton_self m, rfl, not_outranks_self m⟩
  | cons held rest ih =>
    rw [insertBest]
    split
    · next same =>
      -- The better of the two stands for both.
      rcases h with rfl | h
      · split
        · exact ⟨m, by simp, rfl, not_outranks_self m⟩
        · next worse => exact ⟨held, by simp, same.symm, worse⟩
      · rcases List.mem_cons.1 h with rfl | h
        · split
          · next better => exact ⟨note, by simp, same, not_outranks_of_outranks better⟩
          · exact ⟨m, by simp, rfl, not_outranks_self m⟩
        · exact ⟨m, List.mem_cons_of_mem _ h, rfl, not_outranks_self m⟩
    · split
      · exact ⟨m, List.mem_cons.2 h, rfl, not_outranks_self m⟩
      · rcases h with rfl | h
        · obtain ⟨n, mem, stands⟩ := ih (.inl rfl)
          exact ⟨n, List.mem_cons_of_mem _ mem, stands⟩
        · rcases List.mem_cons.1 h with rfl | h
          · exact ⟨m, by simp, rfl, not_outranks_self m⟩
          · obtain ⟨n, mem, stands⟩ := ih (.inr h)
            exact ⟨n, List.mem_cons_of_mem _ mem, stands⟩

theorem Collapsed.insertBest (h : Collapsed notes best) (note : StoredNote) :
    Collapsed (notes ++ [note]) (insertBest note best) where
  sorted := insertBest_sorted h.sorted
  subset n mem := by
    rcases mem_insertBest mem with rfl | mem
    · simp
    · exact List.mem_append_left _ (h.subset n mem)
  covers m mem := by
    rcases List.mem_append.1 mem with mem | mem
    · obtain ⟨held, there, same, worse⟩ := h.covers m mem
      obtain ⟨n, kept, same', worse'⟩ := insertBest_covers note (.inr there)
      exact ⟨n, kept, same'.trans same, not_outranks_trans worse worse'⟩
    · obtain rfl := List.mem_singleton.1 mem
      exact insertBest_covers m (.inl rfl)

theorem collapsed_foldl (h : Collapsed notes best) (more : List StoredNote) :
    Collapsed (notes ++ more) (more.foldl (fun best note => Qnero.insertBest note best) best) := by
  induction more generalizing notes best with
  | nil => simpa using h
  | cons note more ih => simpa using ih (h.insertBest note)

/-- **`spendable` is one note for each nullifier of the unspent ones.** -/
theorem collapsed_spendable (store : WalletStore) : Collapsed store.unspent store.spendable :=
  collapsed_foldl (⟨.nil, nofun, nofun⟩ : Collapsed [] []) store.unspent

theorem Collapsed.nodup (h : Collapsed notes best) : (best.map StoredNote.nullifier).Nodup := by
  rw [List.Nodup, List.pairwise_map]
  exact h.sorted.imp fun less same => less.ne (congrArg digestBytes same)

theorem Collapsed.inj (h : Collapsed notes best) (ha : a ∈ best) (hb : b ∈ best)
    (same : a.nullifier = b.nullifier) : a = b :=
  List.inj_on_of_nodup_map h.nodup ha hb same

/-- With distinct leaves the best of a set is one note. -/
theorem Collapsed.mem_of_mem (h : Collapsed notes best) (h' : Collapsed notes' best')
    (members : ∀ n, n ∈ notes ↔ n ∈ notes')
    (distinct : ∀ a ∈ notes, ∀ b ∈ notes, a.leafIndex = b.leafIndex → a = b) (mem : n ∈ best) :
    n ∈ best' := by
  obtain ⟨n', mem', same, worse⟩ := h'.covers n ((members n).1 (h.subset n mem))
  have there : n' ∈ notes := (members n').2 (h'.subset n' mem')
  obtain ⟨n'', mem'', same', worse'⟩ := h.covers n' there
  obtain rfl := h.inj mem'' mem (same'.trans same)
  have equal : n'' = n' := by
    refine distinct _ (h.subset _ mem'') _ there ?_
    rw [not_outranks_iff] at worse worse'
    omega
  rwa [equal]

/-- **There is one way to collapse**: what is kept, and its order, are those of the notes as a set. -/
theorem Collapsed.eq (h : Collapsed notes best) (h' : Collapsed notes' best')
    (members : ∀ n, n ∈ notes ↔ n ∈ notes')
    (distinct : ∀ a ∈ notes, ∀ b ∈ notes, a.leafIndex = b.leafIndex → a = b) : best = best' := by
  have distinct' : ∀ a ∈ notes', ∀ b ∈ notes', a.leafIndex = b.leafIndex → a = b :=
    fun a ha b hb => distinct a ((members a).2 ha) b ((members b).2 hb)
  have perm : best.Perm best' := (List.perm_ext_iff_of_nodup h.nodup.of_map h'.nodup.of_map).2
    fun n => ⟨h.mem_of_mem h' members distinct, h'.mem_of_mem h (fun n => (members n).symm) distinct'⟩
  exact perm.eq_of_pairwise (fun a b _ _ less less' => absurd less' less.asymm) h.sorted h'.sorted

/-- Sums over distinct keys, each value at most that of its match. -/
theorem sum_value_le (keys : (notes.map StoredNote.nullifier).Nodup)
    (matched : ∀ m ∈ notes, ∃ n ∈ best, n.nullifier = m.nullifier ∧ m.value ≤ n.value) :
    (notes.map StoredNote.value).sum ≤ (best.map StoredNote.value).sum := by
  induction notes generalizing best with
  | nil => exact Nat.zero_le _
  | cons m notes ih =>
    obtain ⟨fresh, keys⟩ := List.nodup_cons.1 keys
    obtain ⟨n, mem, same, le⟩ := matched m (by simp)
    -- The matches of the others are other notes.
    have others : (notes.map StoredNote.value).sum ≤
        ((best.erase n).map StoredNote.value).sum := by
      refine ih keys fun m' mem' => ?_
      obtain ⟨n', there, same', le'⟩ := matched m' (by simp [mem'])
      refine ⟨n', (List.mem_erase_of_ne ?_).2 there, same', le'⟩
      rintro rfl
      exact fresh (List.mem_map.2 ⟨m', mem', same'.symm.trans same⟩)
    have split := ((List.perm_cons_erase mem).map StoredNote.value).sum_eq
    rw [List.map_cons, List.sum_cons] at split ⊢
    omega

/-! ## The selection -/

instance : Std.Total selectionOrder where
  total a b := by
    unfold selectionOrder
    omega

instance : IsTrans StoredNote selectionOrder where
  trans a b c h h' := by
    unfold selectionOrder at *
    omega

/-- What a target takes of the candidates. -/
def firstReaching (target : ℕ) : List StoredNote → Option (List StoredNote)
  | [] => none
  | [a] => if target ≤ a.value then some [a] else none
  | a :: b :: _ =>
    if target ≤ a.value then some [a] else if target ≤ a.value + b.value then some [a, b] else none

theorem reach_eq {target : ℕ} (word : target ≤ u64Max) (candidates : List StoredNote) :
    reach target 0 (candidates.take maxInputs) = firstReaching target candidates := by
  have one : ∀ a : StoredNote, target ≤ satAdd u64Max 0 a.value ↔ target ≤ a.value := by
    intro a
    rw [satAdd]
    omega
  have two : ∀ a b : StoredNote, target ≤ satAdd u64Max (satAdd u64Max 0 a.value) b.value ↔
      target ≤ a.value + b.value := by
    intro a b
    rw [satAdd, satAdd]
    omega
  rcases candidates with _ | ⟨a, _ | ⟨b, rest⟩⟩
  · rfl
  · simp only [maxInputs, List.take, reach, firstReaching, one, Option.map_none]
  · simp only [maxInputs, List.take, reach, firstReaching, one, two, Option.map_none]
    split_ifs <;> rfl

theorem value_le_of_selectionOrder (h : selectionOrder a b) : b.value ≤ a.value := by
  unfold selectionOrder at h
  omega

/-- **The first two reach what any two reach.** -/
theorem firstReaching_isSome_iff {target : ℕ} {candidates : List StoredNote}
    (sorted : candidates.Pairwise selectionOrder) (distinct : candidates.Nodup) :
    (∃ chosen, firstReaching target candidates = some chosen) ↔
      (∃ a ∈ candidates, target ≤ a.value) ∨
        ∃ a ∈ candidates, ∃ b ∈ candidates, a ≠ b ∧ target ≤ a.value + b.value := by
  match candidates with
  | [] => simp [firstReaching]
  | [a] =>
    rw [firstReaching]
    split <;> simp_all
  | a :: b :: rest =>
    have pair : (∃ chosen, firstReaching target (a :: b :: rest) = some chosen) ↔
        target ≤ a.value + b.value := by
      rw [firstReaching]
      split_ifs with single both
      · exact ⟨fun _ => by omega, fun _ => ⟨_, rfl⟩⟩
      · exact ⟨fun _ => both, fun _ => ⟨_, rfl⟩⟩
      · exact ⟨nofun, fun h => absurd h both⟩
    obtain ⟨first, others⟩ := List.pairwise_cons.1 sorted
    have second := (List.pairwise_cons.1 others).1
    -- In this order the first two are a largest pair.
    have below : ∀ x ∈ a :: b :: rest, x ≠ a → x.value ≤ b.value := by
      intro x mem other
      rcases List.mem_cons.1 ((List.mem_cons.1 mem).resolve_left other) with rfl | mem
      · exact le_rfl
      · exact value_le_of_selectionOrder (second x mem)
    have most : ∀ x ∈ a :: b :: rest, x.value ≤ a.value := by
      intro x mem
      rcases List.mem_cons.1 mem with rfl | mem
      · exact le_rfl
      · exact value_le_of_selectionOrder (first x mem)
    rw [pair]
    constructor
    · intro enough
      have other : a ≠ b := fun same => (List.nodup_cons.1 distinct).1 (by simp [same])
      exact .inr ⟨a, by simp, b, by simp, other, enough⟩
    · rintro (⟨x, mem, enough⟩ | ⟨x, mem, y, mem', other, enough⟩)
      · have := most x mem
        omega
      · -- At most one of the two is the first.
        by_cases same : x = a
        · have := below y mem' fun h => other (same.trans h.symm)
          have := most x mem
          omega
        · have := below x mem same
          have := most y mem'
          omega

/-- What is chosen. -/
theorem firstReaching_eq_some {target : ℕ} {candidates chosen : List StoredNote}
    (sorted : candidates.Pairwise selectionOrder)
    (h : firstReaching target candidates = some chosen) :
    chosen.Sublist candidates ∧ chosen.length ≤ maxInputs ∧
      target ≤ (chosen.map StoredNote.value).sum ∧
      ((∃ a ∈ candidates, target ≤ a.value) → chosen.length = 1) := by
  match candidates with
  | [] => cases h
  | [a] =>
    rw [firstReaching] at h
    split at h
    · next enough =>
      obtain rfl := Option.some.inj h
      exact ⟨.refl _, by simp [maxInputs], by simpa using enough, fun _ => rfl⟩
    · cases h
  | a :: b :: rest =>
    rw [firstReaching] at h
    split_ifs at h with single both
    · obtain rfl := Option.some.inj h
      exact ⟨by simp, by simp [maxInputs], by simpa using single, fun _ => rfl⟩
    · obtain rfl := Option.some.inj h
      refine ⟨by simp, by simp [maxInputs], by simpa using both, fun ⟨x, mem, enough⟩ => ?_⟩
      rcases List.mem_cons.1 mem with rfl | mem
      · exact absurd enough single
      · have := value_le_of_selectionOrder ((List.pairwise_cons.1 sorted).1 x mem)
        omega

/-- The selection is a choice among the sorted candidates. -/
theorem selectNotes_eq {target : ℕ} (word : target ≤ u64Max) (notes chosen : List StoredNote) :
    selectNotes notes target = .ok chosen ↔
      firstReaching target (notes.insertionSort selectionOrder) = some chosen := by
  simp only [selectNotes, okOr_ok_iff, reach_eq word]

/-- What a refusal says is held is the sum over all candidates. -/
theorem selectNotes_held {target target' chosen candidates reachable held : ℕ}
    (h : selectNotes notes target = .error (.unreachable target' chosen candidates reachable held)) :
    held = sumU64 notes := by
  obtain ⟨-, said⟩ := okOr_error_iff.1 h
  split at said
  · cases said
  · obtain rfl := (SpendError.unreachable.inj said).2.2.2.2
    rw [sumU64, ((List.perm_insertionSort selectionOrder notes).map _).sum_eq, sumU64]

end

/-! ## The store -/

/-- Notes of which no two can block each other. -/
def WalletStore.Compatible (store : WalletStore) (notes : List StoredNote) : Prop :=
  (∀ n ∈ notes, n ∈ store.unspent) ∧ (notes.map StoredNote.nullifier).Nodup

/-- What the wallet is to make of its notes. -/
structure SelectsNotes (store : WalletStore) : Prop where
  one_each : (store.spendable.map StoredNote.nullifier).Nodup
  largest : ∀ n ∈ store.spendable, n ∈ store.unspent ∧
    ∀ m ∈ store.unspent, m.nullifier = n.nullifier → m.value ≤ n.value
  for_all : ∀ m ∈ store.unspent, ∃ n ∈ store.spendable, n.nullifier = m.nullifier
  /-- A payment is made if two notes or one can make it. -/
  reaches : ∀ target ≤ u64Max, (∃ chosen, selectNotes store.spendable target = .ok chosen) ↔
    (∃ a ∈ store.unspent, target ≤ a.value) ∨ ∃ a ∈ store.unspent, ∃ b ∈ store.unspent,
      a.nullifier ≠ b.nullifier ∧ target ≤ a.value + b.value
  chosen : ∀ target ≤ u64Max, ∀ chosen, selectNotes store.spendable target = .ok chosen →
    store.Compatible chosen ∧ chosen.length ≤ maxInputs ∧
      target ≤ (chosen.map StoredNote.value).sum ∧
      ((∃ a ∈ store.unspent, target ≤ a.value) → chosen.length = 1)
  /-- The store may list its notes in any order. -/
  order_free : ∀ store' : WalletStore, store'.notes.Perm store.notes → ∀ target,
    selectNotes store'.spendable target = selectNotes store.spendable target
  total : IsGreatest {sum | ∃ notes, store.Compatible notes ∧
    sum = (notes.map StoredNote.value).sum} store.unspentTotal
  /-- A refusal names what is held. -/
  told : ∀ target target' chosen candidates reachable held,
    selectNotes store.spendable target =
      .error (.unreachable target' chosen candidates reachable held) →
    held = (store.spendable.map StoredNote.value).sum

section

variable {store : WalletStore}

theorem selectNotes_isOk_iff (store : WalletStore) {target : ℕ} (word : target ≤ u64Max) :
    (∃ chosen, selectNotes store.spendable target = .ok chosen) ↔
      (∃ a ∈ store.unspent, target ≤ a.value) ∨ ∃ a ∈ store.unspent, ∃ b ∈ store.unspent,
        a.nullifier ≠ b.nullifier ∧ target ≤ a.value + b.value := by
  have collapsed := collapsed_spendable store
  have distinct : (store.spendable.insertionSort selectionOrder).Nodup :=
    (List.perm_insertionSort _ _).nodup_iff.2 collapsed.nodup.of_map
  simp only [selectNotes_eq word]
  rw [firstReaching_isSome_iff (List.pairwise_insertionSort ..) distinct]
  simp only [List.mem_insertionSort]
  constructor
  · rintro (⟨a, mem, enough⟩ | ⟨a, mem, b, mem', other, enough⟩)
    · exact .inl ⟨a, collapsed.subset a mem, enough⟩
    · exact .inr ⟨a, collapsed.subset a mem, b, collapsed.subset b mem',
        fun same => other (collapsed.inj mem mem' same), enough⟩
  · rintro (⟨a, mem, enough⟩ | ⟨a, mem, b, mem', other, enough⟩)
    · obtain ⟨n, there, -, worse⟩ := collapsed.covers a mem
      exact .inl ⟨n, there, enough.trans (value_le_of_not_outranks worse)⟩
    · obtain ⟨n, there, same, worse⟩ := collapsed.covers a mem
      obtain ⟨n', there', same', worse'⟩ := collapsed.covers b mem'
      refine .inr ⟨n, there, n', there', ?_, enough.trans
        (Nat.add_le_add (value_le_of_not_outranks worse) (value_le_of_not_outranks worse'))⟩
      rintro rfl
      exact other (same.symm.trans same')

theorem selectNotes_chosen (store : WalletStore) {target : ℕ} (word : target ≤ u64Max)
    {chosen : List StoredNote} (h : selectNotes store.spendable target = .ok chosen) :
    store.Compatible chosen ∧ chosen.length ≤ maxInputs ∧
      target ≤ (chosen.map StoredNote.value).sum ∧
      ((∃ a ∈ store.unspent, target ≤ a.value) → chosen.length = 1) := by
  have collapsed := collapsed_spendable store
  have perm := List.perm_insertionSort selectionOrder store.spendable
  rw [selectNotes_eq word] at h
  obtain ⟨sub, length, enough, single⟩ := firstReaching_eq_some (List.pairwise_insertionSort ..) h
  refine ⟨⟨fun n mem => collapsed.subset n (perm.mem_iff.1 (sub.subset mem)), ?_⟩, length, enough, ?_⟩
  · have keys := (perm.map StoredNote.nullifier).nodup_iff.2 collapsed.nodup
    exact keys.sublist (sub.map _)
  · rintro ⟨a, mem, covered⟩
    obtain ⟨n, there, -, worse⟩ := collapsed.covers a mem
    exact single ⟨n, perm.mem_iff.2 there, covered.trans (value_le_of_not_outranks worse)⟩

theorem spendable_congr {store' : WalletStore} (distinct : (store.notes.map StoredNote.leafIndex).Nodup)
    (perm : store'.notes.Perm store.notes) : store'.spendable = store.spendable := by
  have members : ∀ n, n ∈ store.unspent ↔ n ∈ store'.unspent := by
    intro n
    simp only [WalletStore.unspent, List.mem_filter, perm.mem_iff]
  refine ((collapsed_spendable store).eq (collapsed_spendable store') members ?_).symm
  intro a ha b hb same
  exact List.inj_on_of_nodup_map distinct (List.mem_of_mem_filter ha) (List.mem_of_mem_filter hb) same

/-- The spendable notes are worth most. -/
theorem isGreatest_spendable (store : WalletStore) :
    IsGreatest {sum | ∃ notes, store.Compatible notes ∧ sum = (notes.map StoredNote.value).sum}
      (store.spendable.map StoredNote.value).sum := by
  have collapsed := collapsed_spendable store
  refine ⟨⟨store.spendable, ⟨collapsed.subset, collapsed.nodup⟩, rfl⟩, ?_⟩
  rintro _ ⟨notes, ⟨unspent, keys⟩, rfl⟩
  refine sum_value_le keys fun m mem => ?_
  obtain ⟨n, there, same, worse⟩ := collapsed.covers m (unspent m mem)
  exact ⟨n, there, same, value_le_of_not_outranks worse⟩

end

/-- **Note selection.** With distinct leaves the wallet makes of its notes what it should, exactly if no
set of notes it could spend is worth more than 64 bits can say. -/
theorem note_selection {store : WalletStore}
    (distinct : (store.notes.map StoredNote.leafIndex).Nodup) :
    SelectsNotes store ↔
      ∀ notes, store.Compatible notes → (notes.map StoredNote.value).sum < 2 ^ 64 := by
  have collapsed := collapsed_spendable store
  have greatest := isGreatest_spendable store
  constructor
  · intro selects notes compatible
    have most := selects.total.2 ⟨notes, compatible, rfl⟩
    exact lt_of_le_of_lt most (Nat.mod_lt _ (by decide))
  · intro fits
    have total : store.unspentTotal = (store.spendable.map StoredNote.value).sum :=
      Nat.mod_eq_of_lt (fits _ ⟨collapsed.subset, collapsed.nodup⟩)
    exact {
      one_each := collapsed.nodup
      largest := fun n mem => by
        refine ⟨collapsed.subset n mem, fun m there same => ?_⟩
        obtain ⟨n', mem', same', worse⟩ := collapsed.covers m there
        obtain rfl := collapsed.inj mem' mem (same'.trans same)
        exact value_le_of_not_outranks worse
      for_all := fun m mem => by
        obtain ⟨n, there, same, -⟩ := collapsed.covers m mem
        exact ⟨n, there, same⟩
      reaches := fun target word => selectNotes_isOk_iff store word
      chosen := fun target word chosen h => selectNotes_chosen store word h
      order_free := fun store' perm target => by rw [spendable_congr distinct perm]
      total := total ▸ greatest
      told := fun _ _ _ _ _ _ refused => (selectNotes_held refused).trans total }

namespace Sample

def heldNote (leaf value : ℕ) (nullifier : Digest) : StoredNote :=
  ⟨leaf, some 1, value, 0, nullifier, 0, 0, [], .spend, false, true, none⟩

def holding (notes : List StoredNote) : WalletStore := ⟨none, 1, 3, notes, [], [], ∅, none, []⟩

/-- Two notes with one nullifier, and another. -/
def conflicted : WalletStore := holding [heldNote 0 5 1, heldNote 1 7 1, heldNote 2 4 2]

/-- Five notes of the largest value a note may have. -/
def overflowing : WalletStore := holding
  [heldNote 0 maxValue 1, heldNote 1 maxValue 2, heldNote 2 maxValue 3, heldNote 3 maxValue 4,
    heldNote 4 maxValue 5]

theorem spendable_samples : (conflicted.spendable.map StoredNote.value).sum = 11 ∧
    overflowing.unspentTotal = maxValue - 4 := by
  decide +kernel

end Sample

open Sample in
theorem note_selection_conflicted : SelectsNotes conflicted := by
  refine (note_selection (by decide)).2 fun notes compatible => ?_
  have most := (isGreatest_spendable conflicted).2 ⟨notes, compatible, rfl⟩
  rw [spendable_samples.1] at most
  omega

open Sample in
/-- Five notes, each with a value a note may have, of other nullifiers and leaves: the total is below the
value of one of them, and a refusal reports it. -/
theorem total_wraps :
    (overflowing.notes.map StoredNote.leafIndex).Nodup ∧
    (∀ n ∈ overflowing.notes, n.value ≤ maxValue) ∧ ¬ SelectsNotes overflowing ∧
    selectNotes overflowing.spendable u64Max =
      .error (.unreachable u64Max 2 5 (2 * maxValue) (maxValue - 4)) := by
  refine ⟨by decide, by decide, fun selects => ?_, by rfl⟩
  have most := selects.total.2 ⟨[heldNote 0 maxValue 1], ⟨by decide, by decide⟩, rfl⟩
  rw [spendable_samples.2] at most
  exact absurd most (by decide)

end Qnero
