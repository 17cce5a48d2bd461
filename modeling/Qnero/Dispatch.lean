import Mathlib.Logic.Basic
import Mathlib.Data.List.Forall2

/-!
# Fallible and stateful code

Checks are written in `Except`; a call that writes storage is an `ExceptT` over a state, so that
what it wrote before an error is still there after it. `transactional` is the layer above, which
drops the writes of a failed call. `Along` and `foldl_invariant` are about a state that takes step
after step.

The lemmas peel one statement off a `do` block at a time: the `_ok_iff` lemmas for what a check
that passed has established, `exec_bind_ok` for what a call does next. `foldlM_ok` is the invariant
rule of a loop of checks.
-/

namespace Qnero

variable {ε σ α β : Type}

/-! ## Checks -/

/-- Fail with `e` unless `p`. -/
def ensure (p : Prop) [Decidable p] (e : ε) : Except ε Unit := if p then .ok () else .error e

/-- The value of an option, or fail with `e`. -/
def okOr (o : Option α) (e : ε) : Except ε α :=
  match o with
  | some a => .ok a
  | none => .error e

/-- A sequence passes exactly when its first check does, and the rest on its result. -/
theorem bind_ok_iff (x : Except ε α) (f : α → Except ε β) (b : β) :
    x >>= f = .ok b ↔ ∃ a, x = .ok a ∧ f a = .ok b :=
  match x with
  | .ok a => ⟨fun h => ⟨a, rfl, h⟩, by rintro ⟨_, ⟨⟩, h⟩; exact h⟩
  | .error _ => ⟨nofun, by rintro ⟨_, ⟨⟩, _⟩⟩

theorem bind_of_ok {x : Except ε α} {f : α → Except ε β} {a : α} (h : x = .ok a) :
    x >>= f = f a := by
  rw [h]
  rfl

variable {e : ε} {s s' : σ}

theorem ensure_of {p : Prop} [Decidable p] (h : p) : ensure p e = .ok () := if_pos h

theorem ensure_ok_iff {p : Prop} [Decidable p] {u : Unit} : ensure p e = .ok u ↔ p := by
  unfold ensure
  split <;> simp_all

theorem okOr_ok_iff {o : Option α} {a : α} : okOr o e = .ok a ↔ o = some a := by
  cases o <;> simp [okOr]

/-- A sequence fails where its first check does, or where the rest does. -/
theorem bind_error_iff (x : Except ε α) (f : α → Except ε β) (e : ε) :
    x >>= f = .error e ↔ x = .error e ∨ ∃ a, x = .ok a ∧ f a = .error e := by
  cases x with
  | ok a => simp [bind, Except.bind]
  | error e' => simp [bind, Except.bind]

theorem ensure_error_iff {p : Prop} [Decidable p] {e e' : ε} :
    ensure p e = .error e' ↔ ¬ p ∧ e = e' := by
  unfold ensure
  split <;> simp_all

theorem okOr_error_iff {o : Option α} {e e' : ε} : okOr o e = .error e' ↔ o = none ∧ e = e' := by
  cases o <;> simp [okOr]

theorem map_ok_iff {β : Type} {x : Except ε α} {f : α → β} {b : β} :
    x.map f = .ok b ↔ ∃ a, x = .ok a ∧ f a = b := by
  cases x <;> simp [Except.map]

theorem map_bind_eq {β γ : Type} (x : Except ε α) (f : α → Except ε β) (g : β → γ) :
    (x >>= f).map g = x >>= fun a => (f a).map g := by
  cases x <;> rfl

/-- Under another error type the same checks pass. -/
theorem mapError_ok_iff {ε' : Type} {x : Except ε α} {f : ε → ε'} {a : α} :
    x.mapError f = .ok a ↔ x = .ok a := by
  cases x <;> simp [Except.mapError]

theorem toOption_eq_some_iff {x : Except ε α} {a : α} : x.toOption = some a ↔ x = .ok a := by
  cases x <;> simp [Except.toOption]

/-- A list is mapped exactly if each element is. -/
theorem mapM_ok_iff {f : α → Except ε β} {l : List α} {r : List β} :
    l.mapM f = .ok r ↔ List.Forall₂ (fun a b => f a = .ok b) l r := by
  induction l generalizing r with
  | nil =>
    rw [List.mapM_nil, List.forall₂_nil_left_iff]
    exact ⟨fun h => (Except.ok.inj h).symm, fun h => congrArg _ h.symm⟩
  | cons a l ih =>
    rw [List.mapM_cons, bind_ok_iff, List.forall₂_cons_left_iff]
    constructor
    · rintro ⟨b, head, rest⟩
      obtain ⟨bs, tail, done⟩ := (bind_ok_iff ..).1 rest
      exact ⟨b, bs, head, ih.1 tail, (Except.ok.inj done).symm⟩
    · rintro ⟨b, bs, head, tail, rfl⟩
      exact ⟨b, head, (bind_ok_iff ..).2 ⟨bs, ih.2 tail, rfl⟩⟩

theorem mapM_some_iff {f : α → Option β} {l : List α} {r : List β} :
    l.mapM f = some r ↔ List.Forall₂ (fun a b => f a = some b) l r := by
  induction l generalizing r with
  | nil =>
    rw [List.mapM_nil, List.forall₂_nil_left_iff]
    exact ⟨fun h => (Option.some.inj h).symm, fun h => congrArg _ h.symm⟩
  | cons a l ih =>
    rw [List.mapM_cons, List.forall₂_cons_left_iff]
    simp only [Option.bind_eq_bind, Option.bind_eq_some_iff]
    constructor
    · rintro ⟨b, head, bs, tail, done⟩
      exact ⟨b, bs, head, ih.1 tail, (Option.some.inj done).symm⟩
    · rintro ⟨b, bs, head, tail, rfl⟩
      exact ⟨b, head, bs, ih.2 tail, rfl⟩

theorem forall₂_exists_left {α β : Type} {R : α → β → Prop} {as : List α} {bs : List β}
    (all : List.Forall₂ R as bs) {b : β} (mem : b ∈ bs) : ∃ a ∈ as, R a b := by
  induction all with
  | nil => cases mem
  | cons head _ ih =>
    rcases List.mem_cons.1 mem with rfl | mem
    · exact ⟨_, List.mem_cons_self .., head⟩
    · obtain ⟨a, here, related⟩ := ih mem
      exact ⟨a, List.mem_cons_of_mem _ here, related⟩

theorem forall₂_exists_right {α β : Type} {R : α → β → Prop} {as : List α} {bs : List β}
    (all : List.Forall₂ R as bs) {a : α} (mem : a ∈ as) : ∃ b ∈ bs, R a b :=
  forall₂_exists_left all.flip mem

/-- The rule of a checked loop: what each step extends, the whole loop establishes. -/
theorem foldlM_ok {P : List β → α → Prop} {f : α → β → Except ε α}
    (step : ∀ visited s b s', P visited s → f s b = .ok s' → P (visited ++ [b]) s') :
    ∀ (l visited : List β) (s s' : α), P visited s → l.foldlM f s = .ok s' → P (visited ++ l) s'
  | [], visited, s, s', hs, h => by
    rw [List.foldlM_nil] at h
    obtain rfl := Except.ok.inj h
    rwa [List.append_nil]
  | b :: l, visited, s, s', hs, h => by
    rw [List.foldlM_cons, bind_ok_iff] at h
    obtain ⟨mid, hstep, hrest⟩ := h
    have := foldlM_ok step l (visited ++ [b]) mid s' (step visited s b mid hs hstep) hrest
    rwa [List.append_assoc] at this

/-- A checked loop fails only where one of its steps can. -/
theorem foldlM_ne_error {P : α → Prop} {f : α → β → Except ε α}
    (keep : ∀ s b s', P s → f s b = .ok s' → P s') (step : ∀ s b, P s → f s b ≠ .error e) :
    ∀ (l : List β) (s : α), P s → l.foldlM f s ≠ .error e
  | [], _, _ => nofun
  | b :: l, s, hs => by
    rw [List.foldlM_cons, Ne, bind_error_iff, not_or]
    refine ⟨step s b hs, ?_⟩
    rintro ⟨mid, hmid, h⟩
    exact foldlM_ne_error keep step l mid (keep s b mid hs hmid) h

theorem forM_ne_error {f : β → Except ε Unit} (step : ∀ b, f b ≠ .error e) :
    ∀ l : List β, l.forM f ≠ .error e
  | [] => nofun
  | b :: l => by
    rw [List.forM_eq_forM, List.forM_cons, Ne, bind_error_iff, not_or]
    refine ⟨step b, ?_⟩
    rintro ⟨_, -, h⟩
    exact forM_ne_error step l h

theorem forM_ok_iff {f : β → Except ε Unit} {u : Unit} {l : List β} :
    l.forM f = .ok u ↔ ∀ b ∈ l, f b = .ok () := by
  induction l with
  | nil => simp [List.forM_eq_forM, pure, Except.pure]
  | cons b l ih =>
    rw [List.forM_eq_forM, List.forM_cons, bind_ok_iff, List.forall_mem_cons, ← ih]
    constructor
    · rintro ⟨_, head, rest⟩
      exact ⟨head, rest⟩
    · rintro ⟨head, rest⟩
      exact ⟨(), head, rest⟩

/-- A failed loop of checks has failed at one of them. -/
theorem exists_of_forM_error {f : β → Except ε Unit} {l : List β} (h : l.forM f = .error e) :
    ∃ b ∈ l, f b = .error e := by
  induction l with
  | nil => cases h
  | cons b l ih =>
    rw [List.forM_eq_forM, List.forM_cons, bind_error_iff] at h
    rcases h with h | ⟨_, -, h⟩
    · exact ⟨b, List.mem_cons_self, h⟩
    · obtain ⟨x, hx, hfail⟩ := ih h
      exact ⟨x, List.mem_cons_of_mem _ hx, hfail⟩

/-! ## Calls -/

/-- Code over a state; a failure keeps what was written before it. -/
abbrev Call (ε σ α : Type) := ExceptT ε (StateM σ) α

/-- Run a call. -/
def exec (x : Call ε σ α) (s : σ) : Except ε α × σ := x.run.run s

namespace Call

/-- Read the state. -/
def read : Call ε σ σ := get

/-- A write. -/
def write (f : σ → σ) : Call ε σ Unit := modify f

/-- A check, whose failure is the call's. -/
def lift (x : Except ε α) : Call ε σ α := ExceptT.mk (pure x)

/-- The dispatch layer: a failed call leaves no trace. -/
def transactional (x : Call ε σ α) (s : σ) : Except ε α × σ :=
  match exec x s with
  | (.ok a, s') => (.ok a, s')
  | (.error e, _) => (.error e, s)

end Call

@[simp] theorem exec_pure (a : α) (s : σ) : exec (pure a : Call ε σ α) s = (.ok a, s) := rfl

@[simp] theorem exec_write (f : σ → σ) (s : σ) :
    exec (Call.write f : Call ε σ Unit) s = (.ok (), f s) := rfl

@[simp] theorem exec_lift (x : Except ε α) (s : σ) :
    exec (Call.lift x : Call ε σ α) s = (x, s) := rfl

/-- One statement of a call, then the rest on what it left. -/
theorem exec_bind (x : Call ε σ α) (f : α → Call ε σ β) (s : σ) :
    exec (x >>= f) s = match exec x s with
      | (.ok a, s') => exec (f a) s'
      | (.error e, s') => (.error e, s') := by
  show (ExceptT.run (x >>= f)).run s = _
  rw [ExceptT.run_bind, StateT.run_bind]
  show (match x.run.run s with | (r, s') => _) = _
  rcases h : x.run.run s with ⟨r, s'⟩
  rw [exec, h]
  cases r <;> rfl

variable {f : α → Call ε σ β} {x : Call ε σ α}

theorem exec_bind_ok {a : α} (h : exec x s = (.ok a, s')) : exec (x >>= f) s = exec (f a) s' := by
  rw [exec_bind, h]

theorem exec_bind_error (h : exec x s = (.error e, s')) : exec (x >>= f) s = (.error e, s') := by
  rw [exec_bind, h]

@[simp] theorem exec_read_bind (f : σ → Call ε σ β) (s : σ) :
    exec (Call.read >>= f) s = exec (f s) s := exec_bind_ok rfl

@[simp] theorem exec_write_bind (g : σ → σ) (f : Unit → Call ε σ β) (s : σ) :
    exec (Call.write g >>= f) s = exec (f ()) (g s) := exec_bind_ok rfl

theorem exec_lift_bind_ok {x : Except ε α} {s : σ} {a : α} (h : x = .ok a) :
    exec (Call.lift x >>= f) s = exec (f a) s := exec_bind_ok (by rw [exec_lift, h])

/-- A call that returned has returned from its first statement, and then from the rest. -/
theorem exec_bind_ok_iff {b : β} :
    exec (x >>= f) s = (.ok b, s') ↔
      ∃ a mid, exec x s = (.ok a, mid) ∧ exec (f a) mid = (.ok b, s') := by
  rw [exec_bind]
  rcases exec x s with ⟨_ | a, mid⟩
  · simp
  · constructor
    · exact fun h => ⟨a, mid, rfl, h⟩
    · rintro ⟨_, _, ⟨⟩, h⟩
      exact h

theorem exec_lift_bind_error {x : Except ε α} {s : σ} (h : x = .error e) :
    exec (Call.lift x >>= f) s = (.error e, s) :=
  exec_bind_error (by rw [exec_lift, h])

/-! ## The dispatch layer -/

theorem transactional_ok {a : α} (h : exec x s = (.ok a, s')) :
    Call.transactional x s = (.ok a, s') := by
  rw [Call.transactional, h]

theorem transactional_error (h : exec x s = (.error e, s')) :
    Call.transactional x s = (.error e, s) := by
  rw [Call.transactional, h]

/-- A dispatched call fails without a trace, or does what the call does. -/
theorem transactional_cases (x : Call ε σ α) (s : σ) :
    (∃ e, Call.transactional x s = (.error e, s)) ∨
      ∃ a s', exec x s = (.ok a, s') ∧ Call.transactional x s = (.ok a, s') := by
  rcases h : exec x s with ⟨e | a, s'⟩
  · exact .inl ⟨e, transactional_error h⟩
  · exact .inr ⟨a, s', rfl, transactional_ok h⟩

/-! ## Runs -/

section

variable {ι : Type}

/-- Every step of a run is taken where `A` allows it. -/
def Along (step : σ → ι → σ) (A : σ → ι → Prop) : σ → List ι → Prop
  | _, [] => True
  | s, i :: rest => A s i ∧ Along step A (step s i) rest

/-- What every allowed step keeps, a run keeps. -/
theorem foldl_invariant {step : σ → ι → σ} {A : σ → ι → Prop} {P : σ → Prop}
    (keep : ∀ s i, P s → A s i → P (step s i)) :
    ∀ (l : List ι) (s : σ), P s → Along step A s l → P (l.foldl step s)
  | [], _, hs, _ => hs
  | i :: rest, s, hs, h => foldl_invariant keep rest (step s i) (keep s i hs h.1) h.2

/-- What follows from the invariant where a step is allowed. -/
theorem Along.imp_of_invariant {step : σ → ι → σ} {A B : σ → ι → Prop} {P : σ → Prop}
    (keep : ∀ s i, P s → A s i → P (step s i)) (imp : ∀ s i, P s → A s i → B s i) :
    ∀ {l : List ι} {s : σ}, Along step A s l → P s → Along step B s l
  | [], _, _, _ => trivial
  | _ :: _, _, h, hs => ⟨imp _ _ hs h.1, Along.imp_of_invariant keep imp h.2 (keep _ _ hs h.1)⟩

theorem along_true (step : σ → ι → σ) : ∀ (s : σ) (l : List ι), Along step (fun _ _ => True) s l
  | _, [] => trivial
  | s, i :: rest => ⟨trivial, along_true step (step s i) rest⟩

end

end Qnero
