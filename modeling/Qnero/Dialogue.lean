import Mathlib.Data.List.Infix

/-!
# Dialogues

A computation that learns what it works on by asking, as the tree of its questions: what it does
with an answer is the subtree of that answer. Against a responder, which sees every question so far,
it has one run, and the list of questions asked is the trace the other side is left with.

Two computations are `Alike` if they ask the same as long as neither has failed. It is a relation on
the trees, with a rule for each way they are built, and it says what a responder can tell apart
(`Alike.indistinct`): nothing if both succeed, and otherwise no more than when one of them stopped.
-/

namespace Qnero

/-- A computation that asks. -/
inductive Dialogue (Q A ρ : Type) where
  | done (result : ρ)
  | ask (question : Q) (next : A → Dialogue Q A ρ)

namespace Dialogue

variable {Q A ρ τ : Type}

protected def bind (d : Dialogue Q A ρ) (f : ρ → Dialogue Q A τ) : Dialogue Q A τ :=
  match d with
  | done result => f result
  | ask question next => ask question fun answer => (next answer).bind f

instance : Monad (Dialogue Q A) where
  pure := done
  bind := Dialogue.bind

instance : LawfulMonad (Dialogue Q A) := by
  refine .mk' _ (fun d => ?_) (fun _ _ => rfl) (fun d f g => ?_)
  · induction d with
    | done result => rfl
    | ask question next ih => exact congrArg (ask question) (funext ih)
  · induction d with
    | done result => rfl
    | ask question next ih => exact congrArg (ask question) (funext ih)

/-- The run against a responder, from the questions it has been asked before: the result, and all
questions. -/
def run (respond : List Q → A) : Dialogue Q A ρ → List Q → ρ × List Q
  | done result, asked => (result, asked)
  | ask question next, asked =>
    (next (respond (asked ++ [question]))).run respond (asked ++ [question])

/-- A run only adds questions. -/
theorem prefix_run (respond : List Q → A) (d : Dialogue Q A ρ) (asked : List Q) :
    asked <+: (d.run respond asked).2 := by
  induction d generalizing asked with
  | done result => exact List.prefix_rfl
  | ask question next ih => exact (List.prefix_append ..).trans (ih _ _)

theorem run_bind (respond : List Q → A) (d : Dialogue Q A ρ) (f : ρ → Dialogue Q A τ)
    (asked : List Q) : (d.bind f).run respond asked =
      (f (d.run respond asked).1).run respond (d.run respond asked).2 := by
  induction d generalizing asked with
  | done result => rfl
  | ask question next ih => exact ih _ _

end Dialogue

/-! ## Sessions -/

/-- A dialogue that may fail, with a state of its own that outlives a failure. -/
abbrev Session (Q A σ ε : Type) := ExceptT ε (StateT σ (Dialogue Q A))

namespace Session

variable {Q A σ ε ε' α β : Type}

def ask (question : Q) : Session Q A σ ε A := fun s =>
  .ask question fun answer => .done (.ok answer, s)

/-- A computation that asks nothing. -/
def ofExcept (x : Except ε α) : Session Q A σ ε α := fun s => .done (x, s)

/-- The outcome, a failure included. -/
def outcome (p : Session Q A σ ε α) : Session Q A σ ε (Except ε α) := fun s =>
  (p s).bind fun out => .done (.ok out.1, out.2)

def mapError (f : ε → ε') (p : Session Q A σ ε α) : Session Q A σ ε' α := fun s =>
  (p s).bind fun out => .done (out.1.mapError f, out.2)

/-- What a responder sees of a session: its outcome, and what it was asked. -/
def talk (p : Session Q A σ ε α) (respond : List Q → A) (s : σ) : Except ε α × List Q :=
  let ((outcome, _), asked) := (p s).run respond []
  (outcome, asked)

theorem bind_apply (p : Session Q A σ ε α) (f : α → Session Q A σ ε β) (s : σ) :
    (p >>= f) s = (p s).bind fun out => match out.1 with
      | .ok a => f a out.2
      | .error e => .done (.error e, out.2) := by
  refine congrArg (Dialogue.bind (p s)) (funext fun out => ?_)
  obtain ⟨_ | _, _⟩ := out <;> rfl

/-- A step that succeeds, and what is run behind it. -/
theorem run_bind_ok {p : Session Q A σ ε α} {f : α → Session Q A σ ε β} {respond : List Q → A}
    {s s' : σ} {asked asked' : List Q} {a : α}
    (h : (p s).run respond asked = ((.ok a, s'), asked')) :
    ((p >>= f) s).run respond asked = (f a s').run respond asked' := by
  rw [bind_apply, Dialogue.run_bind, h]

/-- Behind the last question the rest is a computation on the outcome. -/
theorem talk_bind_ofExcept (p : Session Q A σ ε α) (f : α → Except ε β) (respond : List Q → A)
    (s : σ) : ((p >>= fun a => ofExcept (f a)).talk respond s).1 = (p.talk respond s).1 >>= f := by
  rw [talk, talk, bind_apply, Dialogue.run_bind]
  obtain ⟨⟨_ | a, s'⟩, asked⟩ := (p s).run respond [] <;> rfl

end Session

/-! ## Whatever is answered -/

section

variable {Q A ρ σ ε α β : Type}

/-- Every result that answers can lead to satisfies `P`. -/
inductive Dialogue.Always (P : ρ → Prop) : Dialogue Q A ρ → Prop where
  | done {result : ρ} (holds : P result) : Always P (.done result)
  | ask {question : Q} {next : A → Dialogue Q A ρ} (each : ∀ answer, Always P (next answer)) :
      Always P (.ask question next)

theorem Dialogue.Always.run {P : ρ → Prop} {d : Dialogue Q A ρ} (h : d.Always P)
    (respond : List Q → A) (asked : List Q) : P (d.run respond asked).1 := by
  induction h generalizing asked with
  | done holds => exact holds
  | ask each ih => exact ih _ _

/-- What a session returns, if it does, satisfies `P`. -/
def Session.Yields (P : α → Prop) (p : Session Q A σ ε α) : Prop :=
  ∀ s, (p s).Always fun out => ∀ a, out.1 = .ok a → P a

namespace Session.Yields

variable {P : α → Prop} {R : β → Prop} {p : Session Q A σ ε α}

theorem talk (h : p.Yields P) {respond : List Q → A} {s : σ} {a : α}
    (ok : (p.talk respond s).1 = .ok a) : P a :=
  (h s).run respond [] a ok

theorem any (p : Session Q A σ ε α) : p.Yields fun _ => True := by
  have always : ∀ d : Dialogue Q A (Except ε α × σ), d.Always fun out =>
      ∀ a, out.1 = .ok a → True := by
    intro d
    induction d with
    | done result => exact .done fun _ _ => trivial
    | ask question next ih => exact .ask ih
  exact fun s => always (p s)

theorem mono {S : α → Prop} (h : p.Yields P) (weaker : ∀ a, P a → S a) : p.Yields S := by
  intro s
  have always := h s
  generalize p s = d at always
  induction always with
  | done holds => exact .done fun a ok => weaker a (holds a ok)
  | ask each ih => exact .ask ih

theorem pure {a : α} (h : P a) : Session.Yields (Q := Q) (A := A) (σ := σ) (ε := ε) P (Pure.pure a) :=
  fun _ => .done fun _ ok => Except.ok.inj ok ▸ h

theorem throw (e : ε) : Session.Yields P (MonadExcept.throw e : Session Q A σ ε α) :=
  fun _ => .done fun _ ok => nomatch ok

theorem ofExcept {x : Except ε α} (h : ∀ a, x = .ok a → P a) :
    Session.Yields (Q := Q) (A := A) (σ := σ) P (Session.ofExcept x) :=
  fun _ => .done h

/-- **In sequence.** -/
theorem bind {f : α → Session Q A σ ε β} (first : p.Yields P)
    (second : ∀ a, P a → (f a).Yields R) : (p >>= f).Yields R := by
  intro s
  have step := first s
  rw [bind_apply]
  generalize p s = d at step
  induction step with
  | @done result holds =>
    obtain ⟨e | a, s⟩ := result
    · exact .done fun _ ok => nomatch ok
    · exact second a (holds a rfl) s
  | ask each ih => exact .ask ih

/-- Behind a session nothing is known of. -/
theorem bind_any {f : α → Session Q A σ ε β} (second : ∀ a, (f a).Yields R) :
    (p >>= f).Yields R :=
  (any p).bind fun a _ => second a

theorem mapM {T : α → β → Prop} {f : α → Session Q A σ ε β} (items : List α)
    (each : ∀ a ∈ items, (f a).Yields (T a)) : (items.mapM f).Yields (List.Forall₂ T items) := by
  induction items with
  | nil =>
    rw [List.mapM_nil]
    exact pure .nil
  | cons a items ih =>
    rw [List.mapM_cons]
    refine (each a (List.mem_cons_self ..)).bind fun b hb => ?_
    refine (ih fun c mem => each c (List.mem_cons_of_mem a mem)).bind fun rest hrest => ?_
    exact pure (.cons hb hrest)

end Session.Yields

end

/-! ## What a responder can tell apart -/

section

variable {Q A σ ε α β γ δ : Type}

/-- **The same questions**, as long as neither side has failed; if both succeed, with related results
and one state. -/
inductive Dialogue.Alike (R : α → β → Prop) :
    Dialogue Q A (Except ε α × σ) → Dialogue Q A (Except ε β × σ) → Prop where
  | done {a : α} {b : β} (s : σ) (related : R a b) : Alike R (.done (.ok a, s)) (.done (.ok b, s))
  | failedLeft (e : ε) (s : σ) (d : Dialogue Q A (Except ε β × σ)) :
      Alike R (.done (.error e, s)) d
  | failedRight (d : Dialogue Q A (Except ε α × σ)) (e : ε) (s : σ) :
      Alike R d (.done (.error e, s))
  | ask {left : A → Dialogue Q A (Except ε α × σ)} {right : A → Dialogue Q A (Except ε β × σ)}
      (question : Q) (next : ∀ answer, Alike R (left answer) (right answer)) :
      Alike R (.ask question left) (.ask question right)

/-- Sessions that ask the same from every state. -/
def Session.Alike (R : α → β → Prop) (p : Session Q A σ ε α) (q : Session Q A σ ε β) : Prop :=
  ∀ s, Dialogue.Alike R (p s) (q s)

/-- **Two talks a responder cannot tell apart**: equal questions if both succeed, and otherwise the
questions of one are where the other one's begin. -/
structure Indistinct (x : Except ε α × List Q) (y : Except ε β × List Q) : Prop where
  equal : x.1.isOk = true → y.1.isOk = true → x.2 = y.2
  begins : x.2 <+: y.2 ∨ y.2 <+: x.2

theorem Dialogue.Alike.run {R : α → β → Prop} {d : Dialogue Q A (Except ε α × σ)}
    {d' : Dialogue Q A (Except ε β × σ)} (alike : d.Alike R d') (respond : List Q → A)
    (asked : List Q) :
    Indistinct ((d.run respond asked).1.1, (d.run respond asked).2)
      ((d'.run respond asked).1.1, (d'.run respond asked).2) := by
  induction alike generalizing asked with
  | done s related => exact ⟨fun _ _ => rfl, .inl List.prefix_rfl⟩
  | failedLeft e s d => exact ⟨fun ok => (nomatch ok), .inl (prefix_run respond d asked)⟩
  | failedRight d e s => exact ⟨fun _ ok => (nomatch ok), .inr (prefix_run respond d asked)⟩
  | ask question next ih => exact ih _ _

namespace Session.Alike

variable {R : α → β → Prop} {S : γ → δ → Prop} {p : Session Q A σ ε α} {q : Session Q A σ ε β}

theorem indistinct (alike : p.Alike R q) (respond : List Q → A) (s : σ) :
    Indistinct (p.talk respond s) (q.talk respond s) :=
  (alike s).run respond []

/-- A session is like itself. -/
theorem refl (p : Session Q A σ ε α) : p.Alike Eq p := by
  have same : ∀ d : Dialogue Q A (Except ε α × σ), d.Alike Eq d := by
    intro d
    induction d with
    | done result =>
      obtain ⟨e | a, s⟩ := result
      · exact .failedLeft e s _
      · exact .done s rfl
    | ask question next ih => exact .ask question ih
  exact fun s => same (p s)

theorem pure {a : γ} {b : δ} (related : S a b) :
    Session.Alike (Q := Q) (A := A) (σ := σ) (ε := ε) S (Pure.pure a) (Pure.pure b) :=
  fun s => .done s related

/-- Nothing is asked: only what both return is compared. -/
theorem ofExcept {x : Except ε γ} {y : Except ε δ}
    (related : ∀ a b, x = .ok a → y = .ok b → S a b) :
    Session.Alike (Q := Q) (A := A) (σ := σ) S (Session.ofExcept x) (Session.ofExcept y) := by
  intro s
  match x, y with
  | .error e, _ => exact .failedLeft e s _
  | .ok a, .error e => exact .failedRight _ e s
  | .ok a, .ok b => exact .done s (related a b rfl rfl)

/-- **In sequence.** -/
theorem bind {f : α → Session Q A σ ε γ} {g : β → Session Q A σ ε δ} (first : p.Alike R q)
    (second : ∀ a b, R a b → (f a).Alike S (g b)) : (p >>= f).Alike S (q >>= g) := by
  intro s
  have step := first s
  rw [bind_apply, bind_apply]
  generalize p s = d, q s = d' at step
  induction step with
  | done s related => exact second _ _ related s
  | failedLeft e s d => exact .failedLeft e s _
  | failedRight d e s => exact .failedRight _ e s
  | ask question next ih => exact .ask question ih

/-- The same session first, which both sides leave with the same answer. -/
theorem bind_same {f g : α → Session Q A σ ε γ} {T : γ → γ → Prop} (p : Session Q A σ ε α)
    (second : ∀ a, (f a).Alike T (g a)) : (p >>= f).Alike T (p >>= g) :=
  (refl p).bind fun a b same => by
    subst same
    exact second a

end Session.Alike

end

end Qnero
