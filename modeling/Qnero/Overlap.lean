import Qnero.Dispatch
import Qnero.Keyed

/-!
# Items that agree and do not overlap

A check that walks a list once, holds every item to the first and keeps a map of the keys it has met.
An item that does not count is passed over; one that is not allowed, that disagrees with the first or
brings a key a second time ends the walk. `Admits` says this of one step, and `Admits.foldlM_ok_iff`
what a whole walk then decides: all that counts agrees, and no key occurs twice.
-/

namespace Qnero.Overlap

/-! ## A map of new keys -/

section

variable {κ β ε : Type} [DecidableEq κ]

/-- Put an entry in, or say what is there under its key. -/
def insertNew (refuse : β → ε) (seen : List (κ × β)) (entry : κ × β) :
    Except ε (List (κ × β)) :=
  match seen.lookup entry.1 with
  | some previous => .error (refuse previous)
  | none => .ok (entry :: seen)

theorem insertNew_ok_iff {refuse : β → ε} {seen seen' : List (κ × β)} {entry : κ × β} :
    insertNew refuse seen entry = .ok seen' ↔
      entry.1 ∉ seen.map Prod.fst ∧ entry :: seen = seen' := by
  rw [← Keyed.lookup_none_iff, insertNew]
  cases seen.lookup entry.1 <;> simp

/-- Entries go in one after the other exactly if their keys are new and differ. -/
theorem foldlM_insertNew_ok_iff {refuse : κ × β → β → ε} {entries seen seen' : List (κ × β)} :
    entries.foldlM (fun seen entry => insertNew (refuse entry) seen entry) seen = .ok seen' ↔
      (entries.map Prod.fst).Nodup ∧ (∀ k ∈ entries.map Prod.fst, k ∉ seen.map Prod.fst) ∧
        entries.reverse ++ seen = seen' := by
  induction entries generalizing seen with
  | nil => simp [pure, Except.pure]
  | cons entry entries ih =>
    simp only [List.foldlM_cons, bind_ok_iff, insertNew_ok_iff, List.map_cons, List.nodup_cons,
      List.forall_mem_cons, List.reverse_cons, List.append_assoc, List.singleton_append]
    constructor
    · rintro ⟨_, ⟨new, rfl⟩, rest⟩
      obtain ⟨nodup, fresh, whole⟩ := ih.1 rest
      simp only [List.map_cons, List.mem_cons, not_or] at fresh
      exact ⟨⟨fun mem => (fresh _ mem).1 rfl, nodup⟩, ⟨new, fun k mem => (fresh k mem).2⟩, whole⟩
    · rintro ⟨⟨differs, nodup⟩, ⟨new, fresh⟩, whole⟩
      refine ⟨_, ⟨new, rfl⟩, ih.2 ⟨nodup, fun k mem => ?_, whole⟩⟩
      simp only [List.map_cons, List.mem_cons, not_or]
      exact ⟨fun same => differs (same ▸ mem), fresh k mem⟩

end

/-! ## The walk -/

variable {σ α A κ ε : Type} {step : σ → α → Except ε σ} {reference : σ → Option A}
  {seen : σ → List κ} {counts : α → Bool} {allowed : α → Prop} {anchor : α → A}
  {keys : α → List κ} {s s' : σ} {a : α}

/-- What lets an item through. -/
structure Passes (reference : σ → Option A) (seen : σ → List κ) (allowed : α → Prop)
    (anchor : α → A) (keys : α → List κ) (s : σ) (a : α) : Prop where
  allowed : allowed a
  agrees : ∀ r ∈ reference s, anchor a = r
  nodup : (keys a).Nodup
  fresh : ∀ k ∈ keys a, k ∉ seen s

/-- What one step does. -/
structure Admits (step : σ → α → Except ε σ) (reference : σ → Option A) (seen : σ → List κ)
    (counts : α → Bool) (allowed : α → Prop) (anchor : α → A) (keys : α → List κ) : Prop where
  passOver : ∀ s a, counts a = false → step s a = .ok s
  ok_of_passes : ∀ s a, counts a → Passes reference seen allowed anchor keys s a →
    ∃ s', step s a = .ok s'
  of_ok : ∀ s a s', counts a → step s a = .ok s' →
    Passes reference seen allowed anchor keys s a ∧ reference s' = some (anchor a) ∧
      ∀ k, k ∈ seen s' ↔ k ∈ keys a ∨ k ∈ seen s

/-- **What a walk decides.** -/
theorem Admits.foldlM_ok_iff (h : Admits step reference seen counts allowed anchor keys)
    (items : List α) :
    (∃ s', items.foldlM step s = .ok s') ↔
      (∀ a ∈ items.filter counts, allowed a ∧ ∀ r ∈ reference s, anchor a = r) ∧
      (items.filter counts).Pairwise (fun a b => anchor a = anchor b) ∧
      ((items.filter counts).flatMap keys).Nodup ∧
      ∀ k ∈ (items.filter counts).flatMap keys, k ∉ seen s := by
  induction items generalizing s with
  | nil => simp [pure, Except.pure]
  | cons a items ih =>
    simp only [List.foldlM_cons, bind_ok_iff]
    cases real : counts a with
    | false =>
      rw [List.filter_cons_of_neg (by simp [real]), ← ih]
      simp only [h.passOver s a real, Except.ok.injEq, exists_eq_left']
    | true =>
      rw [List.filter_cons_of_pos real]
      simp only [List.forall_mem_cons, List.pairwise_cons, List.flatMap_cons, List.nodup_append,
        List.mem_append]
      constructor
      · rintro ⟨s'', s', here, rest⟩
        obtain ⟨passes, first, met⟩ := h.of_ok s a s' real here
        obtain ⟨others, pairs, nodup, fresh⟩ := ih.1 ⟨s'', rest⟩
        -- The first item that counts sets the reference for all behind it.
        have same : ∀ b ∈ items.filter counts, anchor b = anchor a :=
          fun b mem => (others b mem).2 _ first
        refine ⟨⟨⟨passes.allowed, passes.agrees⟩, fun b mem => ⟨(others b mem).1, ?_⟩⟩,
          ⟨fun b mem => (same b mem).symm, pairs⟩, ⟨passes.nodup, nodup, ?_⟩, ?_⟩
        · intro r mem'
          exact (same b mem).trans (passes.agrees r mem')
        · rintro k here _ mem rfl
          exact fresh k mem ((met k).2 (.inl here))
        · rintro k (here | mem)
          · exact passes.fresh k here
          · exact fun old => fresh k mem ((met k).2 (.inr old))
      · rintro ⟨⟨⟨allowed, agrees⟩, others⟩, ⟨same, pairs⟩, ⟨nodup, rest, disjoint⟩, fresh⟩
        have passes : Passes reference seen _ anchor keys s a :=
          ⟨allowed, agrees, nodup, fun k mem => fresh k (.inl mem)⟩
        obtain ⟨s', here⟩ := h.ok_of_passes s a real passes
        obtain ⟨-, first, met⟩ := h.of_ok s a s' real here
        have walk : ∃ s'', items.foldlM step s' = .ok s'' := by
          refine ih.2 ⟨fun b mem => ⟨(others b mem).1, fun r mem' => ?_⟩, pairs, rest, ?_⟩
          · rw [first] at mem'
            obtain rfl := Option.some.inj mem'
            exact (same b mem).symm
          · intro k mem old
            rcases (met k).1 old with here | old
            · exact disjoint k here k mem rfl
            · exact fresh k (.inr mem) old
        obtain ⟨s'', rest⟩ := walk
        exact ⟨s'', s', here, rest⟩

/-- A walk has a reference behind it exactly if it had one before or has met something. -/
theorem Admits.reference_of_foldlM (h : Admits step reference seen counts allowed anchor keys)
    {items : List α} (walk : items.foldlM step s = .ok s') :
    reference s' = none ↔ reference s = none ∧ items.filter counts = [] := by
  induction items generalizing s with
  | nil =>
    obtain rfl := Except.ok.inj walk
    simp
  | cons a items ih =>
    rw [List.foldlM_cons, bind_ok_iff] at walk
    obtain ⟨next, here, rest⟩ := walk
    rw [ih rest]
    cases real : counts a with
    | false =>
      obtain rfl := Except.ok.inj ((h.passOver s a real).symm.trans here)
      rw [List.filter_cons_of_neg (by simp [real])]
    | true =>
      rw [List.filter_cons_of_pos real, (h.of_ok s a next real here).2.1]
      simp

/-- Items agree one by one exactly if any two do. -/
theorem pairwise_eq_iff {f : α → A} {l : List α} :
    l.Pairwise (fun a b => f a = f b) ↔ ∀ a ∈ l, ∀ b ∈ l, f a = f b := by
  induction l with
  | nil => simp
  | cons a l ih =>
    rw [List.pairwise_cons, ih]
    simp only [List.forall_mem_cons]
    constructor
    · rintro ⟨first, rest⟩
      exact ⟨⟨trivial, first⟩, fun b mem => ⟨(first b mem).symm, rest b mem⟩⟩
    · rintro ⟨⟨-, first⟩, rest⟩
      exact ⟨first, fun b mem => (rest b mem).2⟩

/-! ## A walk over what was read -/

section

variable {β B ι : Type} {step : σ → α × ℕ → Except ε σ} {counts : α × ℕ → Bool}
  {allowed : α × ℕ → Prop} {anchor : α × ℕ → A} {keys : α × ℕ → List κ} {read : β → α}
  {real : β → Bool} {fine : β → Prop} {block : β → B} {names : β → List ι} {e : ι → κ}

/-- What counts does so by what was read, not by its position. -/
theorem exists_positions (counts_eq : ∀ b i, counts (read b, i) = real b) (items : List β) :
    ∃ l : List (β × ℕ), l.map Prod.fst = items.filter real ∧
      (items.map read).zipIdx.filter counts = l.map (Prod.map read id) := by
  refine ⟨items.zipIdx.filter fun entry => real entry.1, ?_, ?_⟩
  · calc (items.zipIdx.filter fun entry => real entry.1).map Prod.fst
        = (items.zipIdx.map Prod.fst).filter real := List.filter_map.symm
      _ = items.filter real := by rw [List.zipIdx_map_fst]
  · rw [List.zipIdx_map, List.filter_map]
    exact congrArg (List.map _) (List.filter_congr fun entry _ => counts_eq entry.1 entry.2)

/-- **What a walk decides of the things that were read**, with the keys under an encoding. -/
theorem Admits.readings_ok_iff (h : Admits step reference seen counts allowed anchor keys)
    (counts_eq : ∀ b i, counts (read b, i) = real b) (allowed_iff : ∀ b i, allowed (read b, i) ↔ fine b)
    (anchor_iff : ∀ b b' i i', anchor (read b, i) = anchor (read b', i') ↔ block b = block b')
    (keys_eq : ∀ b i, keys (read b, i) = (names b).map e) (inj : Function.Injective e)
    (start : reference s = none) (empty : seen s = []) (items : List β) :
    (∃ s', (items.map read).zipIdx.foldlM step s = .ok s') ↔
      (∀ b ∈ items.filter real, fine b) ∧
      (items.filter real).Pairwise (fun b b' => block b = block b') ∧
      ((items.filter real).flatMap names).Nodup := by
  obtain ⟨l, fst, filtered⟩ := exists_positions counts_eq items
  have encoded : l.flatMap (fun entry => (names entry.1).map e) =
      (l.flatMap fun entry => names entry.1).map e := List.map_flatMap.symm
  rw [h.foldlM_ok_iff, filtered, ← fst]
  simp only [List.forall_mem_map, List.pairwise_map, List.flatMap_map, Prod.map, allowed_iff,
    anchor_iff, keys_eq, encoded, List.nodup_map_iff inj, start, empty]
  simp

/-- Something counted exactly if a reference was taken. -/
theorem Admits.reference_of_readings (h : Admits step reference seen counts allowed anchor keys)
    (counts_eq : ∀ b i, counts (read b, i) = real b) (start : reference s = none) {items : List β}
    (walk : (items.map read).zipIdx.foldlM step s = .ok s') :
    reference s' = none ↔ items.filter real = [] := by
  obtain ⟨l, fst, filtered⟩ := exists_positions counts_eq items
  rw [h.reference_of_foldlM walk, filtered, ← fst, List.map_eq_nil_iff, List.map_eq_nil_iff]
  exact and_iff_right start

end

/-! ## A state of a reference and a map -/

/-- What a walk remembers: the first item, and where it met each key. -/
structure Scan (ρ κ β : Type) where
  reference : Option ρ
  seen : List (κ × β)

section

variable {ρ β : Type} [DecidableEq κ]

/-- The first item is the reference, and every later one has to agree with it. -/
def holdToFirst (reference : Option ρ) (first : ρ) (agree : ρ → Except ε Unit) : Except ε ρ :=
  match reference with
  | none => .ok first
  | some reference => do
    agree reference
    .ok reference

/-- An item that counts: held to the first, and its entries put in. -/
def enter (s : Scan ρ κ β) (first : ρ) (agree : ρ → Except ε Unit) (refuse : κ × β → β → ε)
    (entries : List (κ × β)) : Except ε (Scan ρ κ β) := do
  let reference ← holdToFirst s.reference first agree
  let seen ← entries.foldlM (fun seen entry => insertNew (refuse entry) seen entry) s.seen
  .ok ⟨some reference, seen⟩

variable {first : ρ} {block : ρ → A} {agree : ρ → Except ε Unit}

theorem holdToFirst_ok {reference : Option ρ} {r : ρ}
    (agree_iff : ∀ r, agree r = .ok () ↔ block first = block r)
    (h : holdToFirst reference first agree = .ok r) :
    (∀ b ∈ reference.map block, block first = b) ∧ block r = block first := by
  cases reference with
  | none =>
    obtain rfl := Except.ok.inj h
    exact ⟨nofun, rfl⟩
  | some reference =>
    simp only [holdToFirst, bind_ok_iff] at h
    obtain ⟨_, agrees, same⟩ := h
    obtain rfl := Except.ok.inj same
    have same := (agree_iff _).1 agrees
    refine ⟨?_, same.symm⟩
    rintro _ ⟨⟩
    exact same

theorem exists_holdToFirst {reference : Option ρ}
    (agree_iff : ∀ r, agree r = .ok () ↔ block first = block r)
    (agrees : ∀ b ∈ reference.map block, block first = b) :
    ∃ r, holdToFirst reference first agree = .ok r := by
  cases reference with
  | none => exact ⟨first, rfl⟩
  | some reference =>
    refine ⟨reference, ?_⟩
    rw [holdToFirst, (agree_iff reference).2 (agrees _ rfl)]
    rfl

end

/-- **A walk of such steps.** It is enough to say what counts, what is allowed, and when two items
agree. -/
theorem Admits.of_enter {ρ β : Type} [DecidableEq κ] {step : Scan ρ κ β → α → Except ε (Scan ρ κ β)}
    (first : α → ρ) (block : ρ → A) (agree : α → ρ → Except ε Unit) (refuse : κ × β → β → ε)
    (entries : α → List (κ × β))
    (agree_iff : ∀ a r, agree a r = .ok () ↔ block (first a) = block r)
    (passOver : ∀ s a, counts a = false → step s a = .ok s)
    (step_ok_iff : ∀ s a s', counts a → (step s a = .ok s' ↔
      allowed a ∧ enter s (first a) (agree a) refuse (entries a) = .ok s')) :
    Admits step (fun s => s.reference.map block) (fun s => s.seen.map Prod.fst) counts allowed
      (fun a => block (first a)) (fun a => (entries a).map Prod.fst) where
  passOver := passOver
  ok_of_passes s a real passes := by
    obtain ⟨r, held⟩ := exists_holdToFirst (agree_iff a) passes.agrees
    refine ⟨⟨some r, (entries a).reverse ++ s.seen⟩, (step_ok_iff s a _ real).2 ⟨passes.allowed, ?_⟩⟩
    simp only [enter, bind_ok_iff]
    exact ⟨r, held, _, foldlM_insertNew_ok_iff.2 ⟨passes.nodup, passes.fresh, rfl⟩, rfl⟩
  of_ok s a s' real ok := by
    obtain ⟨allowed, admitted⟩ := (step_ok_iff s a s' real).1 ok
    simp only [enter, bind_ok_iff] at admitted
    obtain ⟨r, held, seen', put, done⟩ := admitted
    obtain rfl := Except.ok.inj done
    obtain ⟨agrees, same⟩ := holdToFirst_ok (agree_iff a) held
    obtain ⟨nodup, fresh, rfl⟩ := foldlM_insertNew_ok_iff.1 put
    refine ⟨⟨allowed, agrees, nodup, fresh⟩, congrArg some same, fun k => ?_⟩
    rw [List.map_append, List.mem_append, List.map_reverse, List.mem_reverse]

end Qnero.Overlap
