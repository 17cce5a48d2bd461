import Mathlib.Logic.Relation
import Mathlib.Logic.Function.Basic

/-!
# Interleavings

Threads that share a state, one action after the other: an action names its thread, and a state
refuses the actions that are blocked in it. A schedule is a list of actions. What is proved about all
schedules is proved from the actions one by one (`Reaches.invariant`), under whatever condition each
action meets in the state it is taken in.
-/

namespace Qnero.Interleaving

variable {σ α : Type}

/-- An action that meets the condition. -/
def Next (step : α → σ → Option σ) (meets : σ → α → Prop) (s s' : σ) : Prop :=
  ∃ a, meets s a ∧ step a s = some s'

/-- What schedules lead to, every action of them meeting the condition. -/
def Reaches (step : α → σ → Option σ) (meets : σ → α → Prop) : σ → σ → Prop :=
  Relation.ReflTransGen (Next step meets)

/-- A schedule. -/
def run (step : α → σ → Option σ) : List α → σ → Option σ
  | [], s => some s
  | a :: rest, s => (step a s).bind (run step rest)

/-- One thread moves, and the others are where they were. -/
theorem forall_update {ι : Type} [DecidableEq ι] {threads : ι → α} {t : ι} {point : α}
    {P : ι → α → Prop} (here : P t point) (others : ∀ u, u ≠ t → P u (threads u)) (u : ι) :
    P u (Function.update threads t point u) :=
  (Function.forall_update_iff threads P).2 ⟨here, others⟩ u

variable {step : α → σ → Option σ} {meets : σ → α → Prop} {s s' : σ}

/-- **An invariant of the actions is one of the schedules.** -/
theorem Reaches.invariant {P : σ → Prop} (reaches : Reaches step meets s s') (start : P s)
    (keep : ∀ s a s', P s → meets s a → step a s = some s' → P s') : P s' := by
  induction reaches with
  | refl => exact start
  | tail _ next ih =>
    obtain ⟨a, met, stepped⟩ := next
    exact keep _ a _ ih met stepped

theorem Reaches.weaken {weaker : σ → α → Prop} (reaches : Reaches step meets s s')
    (le : ∀ s a, meets s a → weaker s a) : Reaches step weaker s s' :=
  Relation.ReflTransGen.mono (fun _ _ ⟨a, met, stepped⟩ => ⟨a, le _ a met, stepped⟩) _ _ reaches

/-- What an invariant adds to a condition. -/
theorem Reaches.strengthen {P : σ → Prop} {stronger : σ → α → Prop} (reaches : Reaches step meets s s')
    (start : P s) (keep : ∀ s a s', P s → meets s a → step a s = some s' → P s')
    (stronger_of : ∀ s a, P s → meets s a → stronger s a) : Reaches step stronger s s' := by
  suffices P s' ∧ Reaches step stronger s s' from this.2
  induction reaches with
  | refl => exact ⟨start, .refl⟩
  | tail _ next ih =>
    obtain ⟨a, met, stepped⟩ := next
    exact ⟨keep _ a _ ih.1 met stepped, ih.2.tail ⟨a, stronger_of _ a ih.1 met, stepped⟩⟩

/-- A schedule whose actions meet the condition where they are taken. -/
def runMeeting (step : α → σ → Option σ) (meets : σ → α → Prop) [∀ s a, Decidable (meets s a)] :
    List α → σ → Option σ :=
  run fun a s => if meets s a then step a s else none

theorem Reaches.of_run {schedule : List α} (h : run step schedule s = some s') :
    Reaches step (fun _ _ => True) s s' := by
  induction schedule generalizing s with
  | nil =>
    obtain rfl := Option.some.inj h
    exact .refl
  | cons a rest ih =>
    obtain ⟨mid, stepped, ran⟩ := Option.bind_eq_some_iff.1 h
    exact .head ⟨a, trivial, stepped⟩ (ih ran)

theorem Reaches.of_runMeeting [∀ s a, Decidable (meets s a)] {schedule : List α}
    (h : runMeeting step meets schedule s = some s') : Reaches step meets s s' := by
  refine Relation.ReflTransGen.mono (fun u v ⟨a, _, stepped⟩ => ⟨a, ?_⟩) _ _ (Reaches.of_run h)
  exact Option.ite_none_right_eq_some.1 stepped

end Qnero.Interleaving
