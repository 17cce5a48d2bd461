import Mathlib.Order.Monotone.Basic
import Qnero.Consensus.Work

/-!
# The retarget

After each block the difficulty moves by a number of increments, one up to ninety-nine down, that
depends on how many time buckets the block took. The bucket is `target * ln 2`, an increment is the
2048th part of the difficulty and never zero, and the result is clipped at both ends.

Quotients are of 64 bits and narrowed to a signed integer before they are clamped. For a target of a
second or more the quotient fits (`adjustment_eq`), and the law is one of the number of buckets.
-/

namespace Qnero.QPow

open Machine

/-! ## The pallet -/

def minRetargetBlockTimeMs : ℕ := 500

def retargetLn2Num : ℕ := 693147

def retargetLn2Den : ℕ := 1000000

def retargetIncrementDivisor : ℕ := 2048

def maxRetargetDecreaseUnits : ℤ := 99

def maxRetargetIncreaseUnits : ℤ := 1

/-- The time bucket: `target * ln 2`. -/
def retargetDivisor (targetTimeMs : ℕ) : ℕ :=
  max (satMul u64Max targetTimeMs retargetLn2Num / retargetLn2Den) 1

def getMinDifficulty : ℕ := 128

def getMaxDifficulty : ℕ := u512Max

/-- An integer in 64 bits, signed. -/
def wrapI64 (n : ℤ) : ℤ := n.bmod (2 ^ 64)

/-- The units the difficulty moves by. -/
def adjustment (blockTimeMs targetTimeMs : ℕ) : ℤ :=
  let blockTimeMs := max blockTimeMs minRetargetBlockTimeMs
  let timeFactor := wrapI64 (blockTimeMs / retargetDivisor targetTimeMs : ℕ)
  max (-maxRetargetDecreaseUnits) (min (wrapI64 (1 - timeFactor)) maxRetargetIncreaseUnits)

/-- A unit: never zero, or a chain at the floor could not leave it. -/
def increment (parentDifficulty : ℕ) : ℕ := max (parentDifficulty / retargetIncrementDivisor) 1

def calculateDifficulty (parentDifficulty blockTimeMs targetTimeMs : ℕ) : ℕ :=
  let units := adjustment blockTimeMs targetTimeMs
  let newDifficulty :=
    if 0 ≤ units then
      satAdd u512Max parentDifficulty (satMul u512Max (increment parentDifficulty) units.toNat)
    else parentDifficulty - satMul u512Max (increment parentDifficulty) (-units).toNat
  if newDifficulty < getMinDifficulty then getMinDifficulty
  else if getMaxDifficulty < newDifficulty then getMaxDifficulty
  else newDifficulty

structure Config where
  initialDifficulty : ℕ
  targetBlockTime : ℕ

structure GenesisConfig where
  initialDifficulty : ℕ
  targetBlockTime : ℕ

/-- What the pallet stores. -/
structure State where
  lastBlockTime : ℕ
  lastBlockDuration : ℕ
  currentDifficulty : ℕ
  targetBlockTimeMs : ℕ

/-- The genesis difficulty is in range and the target not zero. -/
def GenesisConfig.build (config : GenesisConfig) : Option State :=
  if (getMinDifficulty ≤ config.initialDifficulty ∧ config.initialDifficulty < getMaxDifficulty) ∧
      0 < config.targetBlockTime then
    some ⟨0, 0, config.initialDifficulty, config.targetBlockTime⟩
  else none

namespace State

variable (cfg : Config)

def getDifficulty (s : State) : ℕ :=
  if s.currentDifficulty = 0 then cfg.initialDifficulty else s.currentDifficulty

def targetBlockTime (s : State) : ℕ :=
  if s.targetBlockTimeMs = 0 then cfg.targetBlockTime else s.targetBlockTimeMs

/-- `adjust_difficulty`: the first block counts as one on target. -/
def adjustDifficulty (blockNumber now : ℕ) (s : State) : State :=
  let duration := now - s.lastBlockTime
  { s with
    lastBlockTime := now
    lastBlockDuration := if 1 < blockNumber then duration else s.lastBlockDuration
    currentDifficulty := calculateDifficulty (s.getDifficulty cfg)
      (if 1 < blockNumber then duration else s.targetBlockTime cfg) (s.targetBlockTime cfg) }

/-- Blocks from a number on, at these timestamps. -/
def run : ℕ → List ℕ → State → State
  | _, [], s => s
  | number, now :: nows, s => run (number + 1) nows (s.adjustDifficulty cfg number now)

end State

/-! ## One retarget -/

variable {D t t' target : ℕ}

theorem adjustment_mem (t target : ℕ) : -99 ≤ adjustment t target ∧ adjustment t target ≤ 1 := by
  unfold adjustment
  simp only [maxRetargetDecreaseUnits, maxRetargetIncreaseUnits]
  omega

theorem one_le_increment (D : ℕ) : 1 ≤ increment D := Nat.le_max_right ..

/-- At a second the bucket is longer than the shortest block. -/
theorem le_retargetDivisor (slow : 1000 ≤ target) : 693 ≤ retargetDivisor target := by
  have product : 693000000 ≤ satMul u64Max target retargetLn2Num := by
    simp only [satMul, u64Max, retargetLn2Num]
    omega
  refine le_trans ?_ (Nat.le_max_left ..)
  rw [Nat.le_div_iff_mul_le (by decide), retargetLn2Den]
  omega

/-- The buckets a block took. -/
def buckets (t target : ℕ) : ℕ := max t minRetargetBlockTimeMs / retargetDivisor target

/-- **Nothing wraps at a target of a second**: a hundred buckets and more count as a hundred. -/
theorem adjustment_eq (fits : t ≤ u64Max) (slow : 1000 ≤ target) :
    adjustment t target = 1 - (min (buckets t target) 100 : ℕ) := by
  have divisor := le_retargetDivisor slow
  have small : buckets t target < 2 ^ 55 := by
    refine (Nat.div_lt_iff_lt_mul (by omega)).2 ?_
    have wide : 2 ^ 55 * 693 ≤ 2 ^ 55 * retargetDivisor target := Nat.mul_le_mul_left _ divisor
    simp only [u64Max] at fits
    simp only [minRetargetBlockTimeMs]
    omega
  have narrow : ∀ n : ℤ, -(2 ^ 63) ≤ n → n < 2 ^ 63 → wrapI64 n = n := fun n low high =>
    Int.bmod_eq_of_le (by omega) (by omega)
  have units : wrapI64 (1 - wrapI64 (buckets t target : ℤ)) = 1 - (buckets t target : ℤ) := by
    rw [narrow (buckets t target) (by omega) (by omega), narrow _ (by omega) (by omega)]
  show max _ (min (wrapI64 (1 - wrapI64 (buckets t target : ℤ))) _) = _
  rw [units, maxRetargetDecreaseUnits, maxRetargetIncreaseUnits]
  omega

/-- The difficulty a number of units away, within the width. -/
def moved (D : ℕ) (units : ℤ) : ℕ :=
  if 0 ≤ units then min (D + increment D * units.toNat) u512Max
  else D - increment D * (-units).toNat

theorem moved_le (le : D ≤ u512Max) (units : ℤ) : moved D units ≤ u512Max := by
  unfold moved
  split
  · exact Nat.min_le_right ..
  · exact le_trans (Nat.sub_le ..) le

/-- **A retarget**: so many units away, and clipped at the floor. -/
theorem calculateDifficulty_eq (le : D ≤ u512Max) :
    calculateDifficulty D t target = max 128 (moved D (adjustment t target)) := by
  have saturated : (if 0 ≤ adjustment t target then
        satAdd u512Max D (satMul u512Max (increment D) (adjustment t target).toNat)
      else D - satMul u512Max (increment D) (-adjustment t target).toNat) =
      moved D (adjustment t target) := by
    unfold moved satAdd satMul
    split
    · generalize increment D * (adjustment t target).toNat = step
      omega
    · generalize increment D * (-adjustment t target).toNat = step
      omega
  have top := moved_le le (adjustment t target)
  unfold calculateDifficulty
  dsimp only
  rw [saturated, getMinDifficulty, getMaxDifficulty]
  split
  · omega
  · rw [if_neg (by omega)]
    omega

theorem moved_mono (le : D ≤ u512Max) {a b : ℤ} (units : a ≤ b) : moved D a ≤ moved D b := by
  unfold moved
  by_cases up : 0 ≤ a
  · rw [if_pos up, if_pos (by omega)]
    have steps := Nat.mul_le_mul_left (increment D) (Int.toNat_le_toNat units)
    omega
  · rw [if_neg up]
    by_cases up' : 0 ≤ b
    · -- From below the difficulty to above it.
      rw [if_pos up']
      exact le_trans (Nat.sub_le ..) (le_min (Nat.le_add_right ..) le)
    · rw [if_neg up']
      have steps := Nat.mul_le_mul_left (increment D)
        (Int.toNat_le_toNat (show -b ≤ -a by omega))
      omega

/-- How far one retarget goes. -/
structure Within (D D' : ℕ) : Prop where
  floor : 128 ≤ D'
  ceiling : D' ≤ u512Max
  up : D' ≤ D + increment D
  down : D - 99 * increment D ≤ D'

theorem floor_le_ceiling : 128 ≤ u512Max := by
  decide +kernel

theorem within_calculateDifficulty (low : 128 ≤ D) (high : D ≤ u512Max) (t target : ℕ) :
    Within D (calculateDifficulty D t target) := by
  obtain ⟨least, most⟩ := adjustment_mem t target
  have top : moved D 1 ≤ D + increment D := by
    show min (D + increment D * 1) u512Max ≤ _
    omega
  have bottom : moved D (-99) = D - 99 * increment D := by
    show D - increment D * 99 = _
    rw [Nat.mul_comm]
  have above := moved_mono high most
  have below := moved_mono high least
  have fits := moved_le high (adjustment t target)
  have clipped := floor_le_ceiling
  rw [calculateDifficulty_eq high]
  exact ⟨by omega, by omega, by omega, by omega⟩

theorem buckets_mono (le : t ≤ t') (target : ℕ) : buckets t target ≤ buckets t' target :=
  Nat.div_le_div_right (max_le_max_right _ le)

/-- **A longer block never raises the difficulty.** -/
theorem calculateDifficulty_antitone (high : D ≤ u512Max) (slow : 1000 ≤ target) (le : t ≤ t')
    (fits : t' ≤ u64Max) : calculateDifficulty D t' target ≤ calculateDifficulty D t target := by
  have more := buckets_mono le target
  have units : adjustment t' target ≤ adjustment t target := by
    rw [adjustment_eq fits slow, adjustment_eq (le_trans le fits) slow]
    omega
  rw [calculateDifficulty_eq high, calculateDifficulty_eq high]
  exact max_le_max_left _ (moved_mono high units)

theorem calculateDifficulty_of_band (low : 128 ≤ D) (high : D ≤ u512Max) (fits : t ≤ u64Max)
    (slow : 1000 ≤ target) (le : retargetDivisor target ≤ max t minRetargetBlockTimeMs)
    (lt : max t minRetargetBlockTimeMs < 2 * retargetDivisor target) :
    calculateDifficulty D t target = D := by
  have one : buckets t target = 1 := Nat.div_eq_of_lt_le (by omega) (by omega)
  have stays : moved D 0 = D := by
    show min (D + increment D * 0) u512Max = D
    omega
  rw [calculateDifficulty_eq high, adjustment_eq fits slow, one]
  show max 128 (moved D 0) = D
  omega

/-- A block within the bucket adds an increment. -/
theorem calculateDifficulty_of_fast (low : 128 ≤ D) (high : D ≤ u512Max) (slow : 1000 ≤ target)
    (fits : t ≤ u64Max) (fast : t < retargetDivisor target) :
    calculateDifficulty D t target = min (D + increment D) u512Max := by
  have bucket := le_retargetDivisor slow
  have none : buckets t target = 0 := by
    refine Nat.div_eq_of_lt ?_
    rw [minRetargetBlockTimeMs]
    omega
  rw [calculateDifficulty_eq high, adjustment_eq fits slow, none]
  show max 128 (min (D + increment D * 1) u512Max) = _
  have clipped := floor_le_ceiling
  omega

/-! ## Runs -/

namespace State

variable {cfg : Config} {s : State} {number now : ℕ} {nows : List ℕ}

/-- What the pallet keeps: a difficulty in range, and the target of the genesis. -/
structure InRange (target : ℕ) (s : State) : Prop where
  low : 128 ≤ s.currentDifficulty
  high : s.currentDifficulty ≤ u512Max
  target_eq : s.targetBlockTimeMs = target
  target_pos : 0 < target

theorem InRange.getDifficulty_eq (inRange : s.InRange target) :
    s.getDifficulty cfg = s.currentDifficulty := by
  have low := inRange.low
  exact if_neg (by omega)

theorem InRange.targetBlockTime_eq (inRange : s.InRange target) :
    s.targetBlockTime cfg = target := by
  have pos := inRange.target_pos
  rw [targetBlockTime, inRange.target_eq]
  exact if_neg (by omega)

/-- One block. -/
theorem InRange.adjustDifficulty (inRange : s.InRange target) (number now : ℕ) :
    Within s.currentDifficulty (s.adjustDifficulty cfg number now).currentDifficulty ∧
      (s.adjustDifficulty cfg number now).InRange target := by
  have within : Within s.currentDifficulty (s.adjustDifficulty cfg number now).currentDifficulty := by
    unfold State.adjustDifficulty
    dsimp only
    rw [inRange.getDifficulty_eq]
    exact within_calculateDifficulty inRange.low inRange.high _ _
  exact ⟨within, within.floor, within.ceiling, inRange.target_eq, inRange.target_pos⟩

/-- All blocks. -/
theorem InRange.run (inRange : s.InRange target) (number : ℕ) (nows : List ℕ) :
    (s.run cfg number nows).InRange target := by
  induction nows generalizing s number with
  | nil => exact inRange
  | cons now nows ih => exact ih (inRange.adjustDifficulty number now).2 (number + 1)

theorem run_append (number : ℕ) (first second : List ℕ) (s : State) :
    s.run cfg number (first ++ second) = (s.run cfg number first).run cfg (number + first.length)
      second := by
  induction first generalizing s number with
  | nil => rfl
  | cons now first ih =>
    rw [List.cons_append, State.run, ih, List.length_cons, Nat.add_assoc, Nat.add_comm 1]
    rfl

theorem lastBlockTime_run (number : ℕ) (nows : List ℕ) (last : ℕ) (s : State) :
    (s.run cfg number (nows ++ [last])).lastBlockTime = last := by
  rw [run_append]
  rfl

/-- Blocks that each took less than the bucket. -/
def Fast (divisor : ℕ) : ℕ → List ℕ → Prop
  | _, [] => True
  | last, now :: nows => now - last < divisor ∧ Fast divisor now nows

/-- **Fast blocks climb**, each by one or more until the width is full. -/
theorem InRange.climb (inRange : s.InRange target) (slow : 1000 ≤ target) (second : 1 < number)
    (fits : ∀ now ∈ nows, now ≤ u64Max)
    (fast : Fast (retargetDivisor target) s.lastBlockTime nows) :
    min (s.currentDifficulty + nows.length) u512Max ≤
      (s.run cfg number nows).currentDifficulty := by
  induction nows generalizing s number with
  | nil => exact Nat.min_le_left ..
  | cons now nows ih =>
    rw [List.forall_mem_cons] at fits
    have kept : (s.adjustDifficulty cfg number now).InRange target :=
      (inRange.adjustDifficulty number now).2
    have step : (s.adjustDifficulty cfg number now).currentDifficulty =
        min (s.currentDifficulty + increment s.currentDifficulty) u512Max := by
      unfold State.adjustDifficulty
      dsimp only
      rw [inRange.getDifficulty_eq, inRange.targetBlockTime_eq, if_pos second]
      exact calculateDifficulty_of_fast inRange.low inRange.high slow
        (le_trans (Nat.sub_le ..) fits.1) fast.1
    have one := one_le_increment s.currentDifficulty
    refine le_trans ?_ (ih kept (Nat.lt_succ_of_lt second) fits.2 fast.2)
    rw [step, List.length_cons]
    omega

theorem inRange_of_build {genesis : GenesisConfig} (built : genesis.build = some s) :
    s.InRange genesis.targetBlockTime := by
  unfold GenesisConfig.build at built
  split at built
  · next accepted =>
    obtain rfl := Option.some.inj built
    obtain ⟨⟨low, high⟩, pos⟩ := accepted
    exact ⟨low, high.le, rfl, pos⟩
  · cases built

end State

/-- **The retarget law.** One retarget stays in range, moves by one increment up to ninety-nine down,
rests in the band of one bucket, rises below it and never rises with the block time. In every run
from an accepted genesis the stored difficulty is in range and moves by no more, and fast blocks at
the floor lift it by one each; block numbers are 32-bit. -/
theorem retarget_law :
    (∀ D t target, 128 ≤ D → D ≤ u512Max → t ≤ u64Max → 1000 ≤ target → target ≤ u64Max →
      Within D (calculateDifficulty D t target) ∧
        (retargetDivisor target ≤ max t minRetargetBlockTimeMs →
          max t minRetargetBlockTimeMs < 2 * retargetDivisor target →
            calculateDifficulty D t target = D) ∧
        (t < retargetDivisor target → D < u512Max → D < calculateDifficulty D t target) ∧
        ∀ t', t ≤ t' → t' ≤ u64Max →
          calculateDifficulty D t' target ≤ calculateDifficulty D t target) ∧
      ∀ (cfg : Config) (genesis : GenesisConfig) (s : State), genesis.build = some s →
        (∀ nows now, 128 ≤ (s.run cfg 1 nows).currentDifficulty ∧
          (s.run cfg 1 nows).currentDifficulty ≤ u512Max ∧
          Within (s.run cfg 1 nows).currentDifficulty
            (s.run cfg 1 (nows ++ [now])).currentDifficulty) ∧
        ∀ before last fast, 1000 ≤ genesis.targetBlockTime →
          (∀ now ∈ before ++ [last] ++ fast, now ≤ u64Max) →
          (before ++ [last] ++ fast).length ≤ u32Max →
          State.Fast (retargetDivisor genesis.targetBlockTime) last fast →
          (s.run cfg 1 (before ++ [last])).currentDifficulty = 128 →
            128 + fast.length ≤ (s.run cfg 1 (before ++ [last] ++ fast)).currentDifficulty := by
  constructor
  · intro D t target low high fits slow _
    refine ⟨within_calculateDifficulty low high t target,
      calculateDifficulty_of_band low high fits slow, fun fast lt => ?_,
      fun t' le fits' => calculateDifficulty_antitone high slow le fits'⟩
    have one := one_le_increment D
    rw [calculateDifficulty_of_fast low high slow fits fast]
    omega
  · intro cfg genesis s built
    have start := State.inRange_of_build built
    constructor
    · intro nows now
      have here : (s.run cfg 1 nows).InRange _ := start.run 1 nows
      rw [State.run_append]
      exact ⟨here.low, here.high, (here.adjustDifficulty _ now).1⟩
    · intro before last fast slow fits length climbs floor
      have here : (s.run cfg 1 (before ++ [last])).InRange _ := start.run 1 (before ++ [last])
      rw [List.forall_mem_append] at fits
      have lifted := @State.InRange.climb _ cfg _ (1 + (before ++ [last]).length) _ here slow
        (by rw [List.length_append]; exact Nat.lt_add_of_pos_right (Nat.succ_pos _)) fits.2
        (by rwa [State.lastBlockTime_run])
      rw [floor] at lifted
      rw [State.run_append 1 (before ++ [last]) fast]
      have room : 128 + u32Max ≤ u512Max := by decide +kernel
      rw [List.length_append] at length
      omega

/-- A chain at the public target, at the floor. -/
theorem retarget_law_public :
    calculateDifficulty 128 0 120000 = 129 ∧ Within 128 (calculateDifficulty 128 0 120000) := by
  have low : 128 ≤ u512Max := floor_le_ceiling
  exact ⟨by decide +kernel, (retarget_law.1 128 0 120000 le_rfl low (by decide) (by decide)
    (by decide)).1⟩

end Qnero.QPow
