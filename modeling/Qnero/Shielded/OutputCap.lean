import Qnero.Chain.Run
import Qnero.Shielded.Atomic

/-!
# The output cap

A block appends a bounded number of note leaves. The counter is compared with the block number when it
is read and killed when a block opens; it is charged slot by slot for what was checked once for the
whole call. Here it is compared with what it stands for: a count, kept beside the chain, of the leaves
by which shields and settlements have made the tree grow since the block was opened.
-/

namespace Qnero

open Machine

/-- A chain, and the leaves its shields and settlements appended in this block. -/
structure Counted where
  chain : Chain
  leaves : ℕ

section

variable (H : Poseidon2) (cfg : Config)

/-- How many leaves an operation appends. -/
def Chain.appended (c : Chain) (op : Op) : ℕ :=
  (c.step H cfg op).tree.leafCount - c.tree.leafCount

/-- The count goes on within a block, whether the operation is refused or not, and begins again with
the next block. -/
def Counted.step (s : Counted) (op : Op) : Counted where
  chain := s.chain.step H cfg op
  leaves :=
    match op with
    | .shield .. | .settle .. => s.leaves + s.chain.appended H cfg op
    | .collectFee .. | .coinbase .. => s.leaves
    | .endBlock _ => if s.chain.blockNumber + 1 ≤ u32Max then 0 else s.leaves

def Counted.run (s : Counted) (ops : List Op) : Counted := ops.foldl (Counted.step H cfg) s

end

variable {H : Poseidon2} {cfg : Config} {c c' : Chain} {s : Counted} {op : Op}

/-! ## One operation -/

/-- **A block opens with nothing counted**, whatever the counter held. -/
theorem nextBlock_outputsWritten (c : Chain) (env : Environment) :
    (c.nextBlock H cfg env).outputsWritten = 0 := by
  show (if 0 = _ + 1 then 0 else 0) = 0
  exact if_neg (Nat.zero_ne_add_one _)

theorem shielded_counts {balances : Balances} {value : ℕ} {inner commitment : Hash256}
    (checked : ShieldChecked H cfg c value inner commitment) :
    (c.shielded balances value commitment).outputsWritten = c.outputsWritten + 1 ∧
      (c.shielded balances value commitment).tree.leafCount = c.tree.leafCount + 1 := by
  have limit := cfg.maxOutputsPerBlock_lt
  have budget := checked.outputBudget
  constructor
  · exact Chain.outputsWritten_recordOutputs (by show c.outputsWritten + 1 ≤ _; omega)
  · exact (remainingCapacity_append commitment checked.capacity).1

/-- The counter counts the leaves of the block, and they are within the cap. -/
structure Counted.Holds (cfg : Config) (s : Counted) : Prop where
  leaves_eq : s.leaves = s.chain.outputsWritten
  leaves_le : s.leaves ≤ cfg.maxOutputsPerBlock

/-- A refused operation adds nothing. -/
theorem Counted.step_refused (refused : s.chain.step H cfg op = s.chain)
    (within : ∀ env, op ≠ .endBlock env) : s.step H cfg op = s := by
  have none : s.chain.appended H cfg op = 0 := by
    rw [Chain.appended, refused, Nat.sub_self]
  cases op with
  | shield | settle => simp only [Counted.step, refused, none, Nat.add_zero]
  | collectFee | coinbase => simp only [Counted.step, refused]
  | endBlock env => exact absurd rfl (within env)

/-- What an operation that goes through adds to the counter, it appends. -/
theorem Counted.step_applied (effect : Effect H cfg s.chain op (s.chain.step H cfg op))
    (within : ∀ env, op ≠ .endBlock env) :
    ∃ n, (s.chain.step H cfg op).outputsWritten = s.chain.outputsWritten + n ∧
      (s.step H cfg op).leaves = s.leaves + n ∧
      (n = 0 ∨ s.chain.outputsWritten + n ≤ cfg.maxOutputsPerBlock) := by
  have appended : s.chain.appended H cfg op =
      (s.chain.step H cfg op).tree.leafCount - s.chain.tree.leafCount := rfl
  simp only [Counted.step, appended]
  generalize s.chain.step H cfg op = c' at effect
  cases effect with
  | free who => exact ⟨0, rfl, rfl, .inl rfl⟩
  | fee pos taken => exact ⟨0, rfl, rfl, .inl rfl⟩
  | coinbase check => exact ⟨0, rfl, rfl, .inl rfl⟩
  | shield check burn =>
    have checked := shieldCheck_ok check
    obtain ⟨counted, leaf⟩ := shielded_counts checked
    exact ⟨1, counted, by rw [leaf, Nat.add_sub_cancel_left], .inr checked.outputBudget⟩
  | @settle bundle outputs plan check =>
    have planned := checkSettlement_ok check
    have settled := planned.settled
    exact ⟨2 * plan.slots, settled.outputsWritten_eq,
      by rw [settled.leafCount_eq, Nat.add_sub_cancel_left], .inr planned.outputBudget⟩
  | endBlock env number => exact absurd rfl (within env)

/-- **Every operation keeps the count.** -/
theorem Counted.Holds.step (h : s.Holds cfg) (op : Op) : (s.step H cfg op).Holds cfg := by
  obtain ⟨count, cap⟩ := h
  by_cases within : ∀ env, op ≠ .endBlock env
  · rcases step_cases H cfg s.chain op with refused | effect
    · rw [Counted.step_refused refused within]
      exact ⟨count, cap⟩
    · obtain ⟨n, counter, leaves, budget⟩ := Counted.step_applied effect within
      refine ⟨?_, by omega⟩
      rw [leaves, count]
      exact counter.symm
  · obtain ⟨env, rfl⟩ := not_forall_not.1 within
    by_cases number : s.chain.blockNumber + 1 ≤ u32Max
    · have opened : s.step H cfg (.endBlock env) = ⟨s.chain.nextBlock H cfg env, 0⟩ := by
        simp only [Counted.step, Chain.step, Chain.dispatch, if_pos number]
      rw [opened]
      exact ⟨(nextBlock_outputsWritten s.chain env).symm, Nat.zero_le _⟩
    · have last : s.step H cfg (.endBlock env) = s := by
        simp only [Counted.step, Chain.step, Chain.dispatch, if_neg number]
      rw [last]
      exact ⟨count, cap⟩

/-! ## Runs -/

theorem Counted.run_chain (H : Poseidon2) (cfg : Config) (s : Counted) (ops : List Op) :
    (s.run H cfg ops).chain = s.chain.run H cfg ops := by
  induction ops generalizing s with
  | nil => rfl
  | cons op ops ih => exact ih (s.step H cfg op)

theorem Counted.Holds.run (h : s.Holds cfg) (ops : List Op) : (s.run H cfg ops).Holds cfg :=
  foldl_invariant (P := Counted.Holds cfg) (fun _ op held _ => held.step op) ops s h
    (along_true (Counted.step H cfg) s ops)

/-- **The output cap holds in every block.** From a block's start, after any operations, the leaves the
block's shields and settlements have appended are what the counter says and within the cap; a refused
operation leaves the state; and a block opens with nothing counted, whatever came before it. -/
theorem output_cap (H : Poseidon2) (cfg : Config) {c : Chain} (start : c.outputsWritten = 0)
    (ops : List Op) :
    (Counted.run H cfg ⟨c, 0⟩ ops).chain = c.run H cfg ops ∧
    (Counted.run H cfg ⟨c, 0⟩ ops).leaves = (c.run H cfg ops).outputsWritten ∧
    (Counted.run H cfg ⟨c, 0⟩ ops).leaves ≤ cfg.maxOutputsPerBlock ∧
    ((Counted.run H cfg ⟨c, 0⟩ ops).leaves ≠ 0 → (c.run H cfg ops).outputsWrittenThisBlock =
      ((c.run H cfg ops).blockNumber, (Counted.run H cfg ⟨c, 0⟩ ops).leaves)) ∧
    (∀ op e c', (c.run H cfg ops).dispatch H cfg op = (.error e, c') → c' = c.run H cfg ops) ∧
    ∀ (before : Chain) env, (before.nextBlock H cfg env).outputsWritten = 0 := by
  have initial : Counted.Holds cfg ⟨c, 0⟩ := ⟨start.symm, Nat.zero_le _⟩
  have chain := Counted.run_chain H cfg ⟨c, 0⟩ ops
  obtain ⟨count, cap⟩ := initial.run (H := H) ops
  rw [chain] at count
  refine ⟨chain, count, cap, ?_, ?_, nextBlock_outputsWritten⟩
  · intro some
    rw [count, Chain.outputsWritten] at some ⊢
    split at some
    · next here => rw [if_pos here, ← here]
    · exact absurd rfl some
  · intro op e c' refused
    rcases dispatch_cases H cfg (c.run H cfg ops) op with ⟨e', h⟩ | ⟨c'', h, -⟩
    · rw [h] at refused
      exact (Prod.mk.inj refused).2.symm
    · rw [h] at refused
      cases (Prod.mk.inj refused).1

open Sample in
/-- A block with one settlement has two leaves, and the counter says so. -/
theorem output_cap_settling :
    (settling.run sampleSponge runtime [.settle ⟨[segment]⟩ outputsOf]).outputsWritten = 2 ∧
    (Counted.run sampleSponge runtime ⟨settling, 0⟩ [.settle ⟨[segment]⟩ outputsOf]).leaves = 2 := by
  have counter : settling.outputsWritten = 0 ∧
      (settling.run sampleSponge runtime [.settle ⟨[segment]⟩ outputsOf]).outputsWritten = 2 := by
    decide +kernel
  obtain ⟨-, leaves, -⟩ := output_cap sampleSponge runtime counter.1 [.settle ⟨[segment]⟩ outputsOf]
  exact ⟨counter.2, leaves.trans counter.2⟩

end Qnero
