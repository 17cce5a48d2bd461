import Qnero.Dispatch
import Qnero.Machine

/-!
# Admission budgets

What a peer can make the node do is paid from a token bucket: so many at once, and one more in every
refill interval. A refill counts the whole intervals since the last one and keeps the rest of the time
for the next, so that no request loses a fraction.

The count of intervals is narrowed twice, to 64 bits and then to 32, and the clock moves on by the
narrowed count. A bucket that was left alone for more than `u32::MAX` intervals is therefore behind
afterwards and fills again on the next call; the bounds are for buckets that are asked in time.
-/

namespace Qnero.Admission

open Machine

/-! ## The bucket -/

/-- The longest duration, in nanoseconds. -/
def durationMax : ℕ := u64Max * 1000000000 + 999999999

/-- Durations and instants are in nanoseconds, instants since some moment before the first. -/
structure TokenBucket where
  capacity : ℕ
  refillEvery : ℕ
  tokens : ℕ
  lastRefill : Option ℕ
  capacity_pos : 0 < capacity
  tokens_le : tokens ≤ capacity

namespace TokenBucket

/-- A full bucket. -/
def new (capacity refillEvery : ℕ) : TokenBucket where
  capacity := max capacity 1
  refillEvery := refillEvery
  tokens := max capacity 1
  lastRefill := none
  capacity_pos := by omega
  tokens_le := le_rfl

def refill (b : TokenBucket) (now : ℕ) : TokenBucket :=
  match b.lastRefill with
  | none => { b with lastRefill := some now }
  | some last =>
    if b.refillEvery = 0 then
      { b with tokens := b.capacity, lastRefill := some now, tokens_le := le_rfl }
    else
      let elapsed := now - last
      let gained := elapsed / max b.refillEvery 1 % 2 ^ 64
      if gained = 0 then b
      else
        -- The remainder is kept: the clock moves by whole intervals.
        let consumed := satMul durationMax b.refillEvery (min gained u32Max)
        { b with
          tokens := min (satAdd u32Max b.tokens (min gained u32Max)) b.capacity
          lastRefill := some (last + consumed)
          tokens_le := min_le_right _ _ }

/-- One token less. -/
def spend (b : TokenBucket) : TokenBucket :=
  { b with tokens := b.tokens - 1, tokens_le := (Nat.sub_le _ _).trans b.tokens_le }

/-- Take one token: how many are left, or the time until the next one. -/
def tryTake (b : TokenBucket) (now : ℕ) : Except ℕ ℕ × TokenBucket :=
  let b := b.refill now
  if 0 < b.tokens then (.ok (b.tokens - 1), b.spend)
  else (.error (b.refillEvery - (now - b.lastRefill.getD now)), b)

/-- `tokens`: how many there are. -/
def available (b : TokenBucket) (now : ℕ) : ℕ × TokenBucket := ((b.refill now).tokens, b.refill now)

end TokenBucket

/-! ## Histories -/

inductive BucketCall where
  | tryTake
  | tokens
deriving DecidableEq

structure Event where
  now : ℕ
  call : BucketCall
  now_le : now ≤ durationMax

namespace TokenBucket

def step (b : TokenBucket) (e : Event) : TokenBucket :=
  match e.call with
  | .tryTake => (b.tryTake e.now).2
  | .tokens => (b.available e.now).2

/-- The event takes a token. -/
def grants (b : TokenBucket) (e : Event) : Bool :=
  match e.call with
  | .tryTake => (b.tryTake e.now).1.isOk
  | .tokens => false

/-- How many tokens are taken from `lo` to `hi`, both included. -/
def granted (lo hi : ℕ) : TokenBucket → List Event → ℕ
  | _, [] => 0
  | b, e :: rest =>
    (if lo ≤ e.now ∧ e.now ≤ hi ∧ b.grants e then 1 else 0) + granted lo hi (b.step e) rest

/-- The clock, if it has been started. -/
def clock (b : TokenBucket) (now : ℕ) : ℕ := b.lastRefill.getD now

/-- The call comes before `u32::MAX` whole intervals are exceeded. -/
def InTime (b : TokenBucket) (now : ℕ) : Prop := (now - b.clock now) / b.refillEvery ≤ u32Max

/-! ## One call -/

variable {b : TokenBucket} {now last : ℕ} {e : Event}

theorem clock_of_started (started : b.lastRefill = some last) : b.clock now = last := by
  rw [clock, started]
  rfl

theorem refill_capacity : (b.refill now).capacity = b.capacity := by
  unfold refill
  split
  · rfl
  · split
    · rfl
    · dsimp only
      split <;> rfl

theorem refill_refillEvery : (b.refill now).refillEvery = b.refillEvery := by
  unfold refill
  split
  · rfl
  · split
    · rfl
    · dsimp only
      split <;> rfl

/-- **What a refill does**: the clock moves by some number of intervals, and never beyond now; at most
so many tokens come in, and some if any interval has passed. In time, it moves by all of them. -/
theorem refill_spec (positive : 0 < b.refillEvery) (behind : b.clock now ≤ now)
    (word : now ≤ durationMax) :
    ∃ n, (b.refill now).lastRefill = some (b.clock now + b.refillEvery * n) ∧
      b.clock now + b.refillEvery * n ≤ now ∧ (b.refill now).tokens ≤ b.tokens + n ∧
      ((b.refill now).tokens = 0 → n = 0) ∧
      (b.InTime now → n = (now - b.clock now) / b.refillEvery) := by
  cases started : b.lastRefill with
  | none =>
    have clock : b.clock now = now := by rw [TokenBucket.clock, started]; rfl
    have same : b.refill now = { b with lastRefill := some now } := by
      rw [refill, started]
    rw [same, clock]
    exact ⟨0, rfl, le_rfl, le_rfl, fun _ => rfl, fun _ => by simp⟩
  | some last =>
    have clock : b.clock now = last := clock_of_started started
    rw [TokenBucket.InTime, clock]
    rw [clock] at behind
    have interval : max b.refillEvery 1 = b.refillEvery := by omega
    have whole : b.refillEvery * ((now - last) / b.refillEvery) ≤ now - last := Nat.mul_div_le ..
    have narrow : (now - last) / b.refillEvery % 2 ^ 64 ≤ (now - last) / b.refillEvery :=
      Nat.mod_le ..
    -- The count is narrowed to 64 bits and then to 32: it may add too few, never too many.
    by_cases none : (now - last) / b.refillEvery % 2 ^ 64 = 0
    · have same : b.refill now = b := by
        simp only [refill, started, if_neg positive.ne', interval, if_pos none]
      rw [same, started]
      refine ⟨0, rfl, by omega, le_rfl, fun _ => rfl, fun inTime => ?_⟩
      have := Nat.mod_eq_of_lt (lt_of_le_of_lt inTime (by decide : u32Max < 2 ^ 64))
      omega
    · generalize count : min ((now - last) / b.refillEvery % 2 ^ 64) u32Max = n
      have below : b.refillEvery * n ≤ now - last :=
        le_trans (Nat.mul_le_mul_left _ (by omega)) whole
      have consumed : satMul durationMax b.refillEvery n = b.refillEvery * n := by
        rw [satMul]
        omega
      have lastRefill : (b.refill now).lastRefill = some (last + b.refillEvery * n) := by
        simp only [refill, started, if_neg positive.ne', interval, if_neg none, count, consumed]
      have tokens : (b.refill now).tokens = min (satAdd u32Max b.tokens n) b.capacity := by
        simp only [refill, started, if_neg positive.ne', interval, if_neg none, count]
      have added : satAdd u32Max b.tokens n = min (b.tokens + n) u32Max := rfl
      have capacity := b.capacity_pos
      have limit : 0 < u32Max := by decide
      refine ⟨n, lastRefill, by omega, by omega, fun empty => by omega, fun inTime => ?_⟩
      have := Nat.mod_eq_of_lt (lt_of_le_of_lt inTime (by decide : u32Max < 2 ^ 64))
      omega

/-- A call is a refill, and a token less if it is granted one. -/
theorem step_spec (b : TokenBucket) (e : Event) :
    (b.step e).lastRefill = (b.refill e.now).lastRefill ∧ (b.step e).refillEvery = b.refillEvery ∧
      (b.step e).capacity = b.capacity ∧
      (if b.grants e then 1 else 0) + (b.step e).tokens = (b.refill e.now).tokens := by
  unfold step grants
  cases e.call with
  | tokens => exact ⟨rfl, refill_refillEvery, refill_capacity, Nat.zero_add _⟩
  | tryTake =>
    dsimp only
    unfold tryTake
    dsimp only
    split
    · next some =>
      refine ⟨rfl, refill_refillEvery, refill_capacity, ?_⟩
      show 1 + ((b.refill e.now).tokens - 1) = _
      omega
    · next none =>
      refine ⟨rfl, refill_refillEvery, refill_capacity, ?_⟩
      exact Nat.zero_add _

/-! ## Windows -/

/-- The instants do not go back. -/
def Sorted (events : List Event) : Prop := events.Pairwise fun e e' => e.now ≤ e'.now

theorem counted_le (lo hi : ℕ) (b : TokenBucket) (e : Event) :
    (if lo ≤ e.now ∧ e.now ≤ hi ∧ b.grants e then 1 else 0) ≤ if b.grants e then 1 else 0 := by
  split
  · next h => rw [if_pos h.2.2]
  · exact Nat.zero_le _

variable {events : List Event}

/-- Nothing is taken in a window that is over. -/
theorem granted_eq_zero {lo hi : ℕ} (past : ∀ e ∈ events, hi < e.now) :
    granted lo hi b events = 0 := by
  induction events generalizing b with
  | nil => rfl
  | cons e rest ih =>
    have late := past e (by simp)
    rw [granted, if_neg (by omega), ih fun e mem => past e (by simp [mem])]

/-- **From a running clock**: the tokens there are, and one for each interval until the end. -/
theorem granted_le (lo hi : ℕ) (positive : 0 < b.refillEvery) (started : b.lastRefill = some last)
    (sorted : Sorted events) (behind : ∀ e ∈ events, last ≤ e.now) :
    granted lo hi b events ≤ b.tokens + (hi - last) / b.refillEvery := by
  induction events generalizing b last with
  | nil => exact Nat.zero_le _
  | cons e rest ih =>
    obtain ⟨first, others⟩ := List.pairwise_cons.1 sorted
    by_cases inside : e.now ≤ hi
    · have clock : b.clock e.now = last := clock_of_started started
      obtain ⟨n, moved, before, tokens, -, -⟩ :=
        refill_spec positive (by rw [clock]; exact behind e (by simp)) e.now_le
      rw [clock] at moved before
      obtain ⟨lastRefill, refillEvery, -, balance⟩ := step_spec b e
      have rest_le := ih (by rw [refillEvery]; exact positive) (lastRefill.trans moved) others
        fun e' mem => before.trans (first e' mem)
      rw [refillEvery, ← Nat.sub_sub, Nat.sub_mul_div] at rest_le
      have intervals : n ≤ (hi - last) / b.refillEvery := by
        rw [Nat.le_div_iff_mul_le positive, Nat.mul_comm]
        omega
      have counted := counted_le lo hi b e
      rw [granted]
      omega
    · have past : ∀ e' ∈ e :: rest, hi < e'.now := by
        intro e' mem
        rcases List.mem_cons.1 mem with rfl | mem
        · omega
        · have := first e' mem
          omega
      rw [granted_eq_zero past]
      exact Nat.zero_le _

/-- **From any state**: at the first call of a window the bucket is at most full and less than an
interval behind. -/
theorem granted_window_le {lo width : ℕ} (positive : 0 < b.refillEvery) (sorted : Sorted events)
    (behind : ∀ e ∈ events, b.clock e.now ≤ e.now)
    (inTime : Along step (fun b e => b.InTime e.now) b events) :
    granted lo (lo + width) b events ≤ b.capacity + width / b.refillEvery + 1 := by
  induction events generalizing b with
  | nil => exact Nat.zero_le _
  | cons e rest ih =>
    obtain ⟨first, others⟩ := List.pairwise_cons.1 sorted
    obtain ⟨n, moved, before, -, -, all⟩ := refill_spec positive (behind e (by simp)) e.now_le
    obtain ⟨lastRefill, refillEvery, capacity, balance⟩ := step_spec b e
    have started := lastRefill.trans moved
    rw [granted]
    by_cases early : e.now < lo
    · rw [if_neg (by omega), Nat.zero_add, ← capacity, ← refillEvery]
      refine ih (by rw [refillEvery]; exact positive) others ?_ inTime.2
      intro e' mem
      rw [clock_of_started started]
      exact before.trans (first e' mem)
    · have rest_le := granted_le lo (lo + width) (by rw [refillEvery]; exact positive) started others
        fun e' mem => before.trans (first e' mem)
      have full := (b.refill e.now).tokens_le
      rw [refill_capacity] at full
      have close : e.now - b.clock e.now < b.refillEvery * n + b.refillEvery := by
        rw [all inTime.1, ← Nat.mul_succ]
        exact Nat.lt_mul_div_succ _ positive
      have intervals : (lo + width - (b.clock e.now + b.refillEvery * n)) / b.refillEvery ≤
          width / b.refillEvery + 1 := by
        rw [← Nat.add_div_right _ positive]
        exact Nat.div_le_div_right (by omega)
      have counted := counted_le lo (lo + width) b e
      rw [refillEvery] at rest_le
      omega

/-! ## Retries -/

/-- Within the interval nothing comes in. -/
theorem refill_within (started : b.lastRefill = some last)
    (within : now - last < b.refillEvery) : b.refill now = b := by
  have positive : b.refillEvery ≠ 0 := by omega
  have interval : max b.refillEvery 1 = b.refillEvery := by omega
  simp only [refill, started, if_neg positive, interval, Nat.div_eq_of_lt within, Nat.zero_mod,
    if_true]

/-- At its end something does. -/
theorem refill_interval (positive : 0 < b.refillEvery) (started : b.lastRefill = some last)
    (elapsed : now - last = b.refillEvery) : 0 < (b.refill now).tokens := by
  have interval : max b.refillEvery 1 = b.refillEvery := by omega
  have one : b.refillEvery / b.refillEvery % 2 ^ 64 = 1 := by
    rw [Nat.div_self positive]
    rfl
  have tokens : (b.refill now).tokens = min (min (b.tokens + 1) u32Max) b.capacity := by
    simp only [refill, started, if_neg positive.ne', interval, elapsed, one, one_ne_zero, if_false]
    rfl
  have capacity := b.capacity_pos
  have limit : 0 < u32Max := by decide
  omega

theorem tryTake_ok (some : 0 < (b.refill now).tokens) :
    (b.tryTake now).1 = .ok ((b.refill now).tokens - 1) := by
  simp only [tryTake, if_pos some]

theorem tryTake_refused (none : (b.refill now).tokens = 0) :
    b.tryTake now = (.error ((b.refill now).refillEvery - (now - (b.refill now).lastRefill.getD now)),
      b.refill now) := by
  simp only [tryTake, if_neg (Nat.not_lt.2 none.le)]

/-- **A refusal says when to come back.** -/
theorem tryTake_error {d : ℕ} (positive : 0 < b.refillEvery) (behind : b.clock now ≤ now)
    (word : now ≤ durationMax) (inTime : b.InTime now) (refused : (b.tryTake now).1 = .error d) :
    (∃ left, ((b.tryTake now).2.tryTake (now + d)).1 = .ok left) ∧
      ∀ later, now ≤ later → later < now + d →
        ∃ retry, ((b.tryTake now).2.tryTake later).1 = .error retry := by
  have none : (b.refill now).tokens = 0 := by
    by_contra some
    rw [tryTake_ok (Nat.pos_of_ne_zero some)] at refused
    cases refused
  obtain ⟨n, moved, before, -, -, all⟩ := refill_spec positive behind word
  generalize sum : b.clock now + b.refillEvery * n = last at moved before
  have close : now - last < b.refillEvery := by
    have := Nat.lt_mul_div_succ (now - b.clock now) positive
    rw [Nat.mul_succ, ← all inTime] at this
    omega
  rw [tryTake_refused none] at refused ⊢
  rw [moved, refill_refillEvery] at refused
  have wait : b.refillEvery - (now - last) = d := Except.error.inj refused
  have every : (b.refill now).refillEvery = b.refillEvery := refill_refillEvery
  dsimp only
  constructor
  · exact ⟨_, tryTake_ok (refill_interval (by omega) moved (by omega))⟩
  · intro later _ early
    have within : later - last < (b.refill now).refillEvery := by omega
    have same := refill_within moved within
    exact ⟨_, congrArg Prod.fst (tryTake_refused (by rw [same]; exact none))⟩

/-! ## Whole histories -/

theorem foldl_settings (b : TokenBucket) (events : List Event) :
    (events.foldl step b).refillEvery = b.refillEvery ∧
      (events.foldl step b).capacity = b.capacity := by
  refine foldl_invariant (P := fun b' : TokenBucket =>
    b'.refillEvery = b.refillEvery ∧ b'.capacity = b.capacity) ?_ events b ⟨rfl, rfl⟩
    (along_true step b events)
  intro b' e ⟨every, full⟩ _
  obtain ⟨-, refillEvery, capacity, -⟩ := step_spec b' e
  exact ⟨refillEvery.trans every, capacity.trans full⟩

/-- The clock of a bucket is not ahead of its history. -/
theorem clock_foldl_le (positive : 0 < b.refillEvery) (sorted : Sorted events)
    (behind : ∀ e ∈ events, b.clock e.now ≤ e.now) (later : ∀ e ∈ events, e.now ≤ now)
    (start : b.clock now ≤ now) : (events.foldl step b).clock now ≤ now := by
  induction events generalizing b with
  | nil => exact start
  | cons e rest ih =>
    obtain ⟨first, others⟩ := List.pairwise_cons.1 sorted
    obtain ⟨n, moved, before, -⟩ := refill_spec positive (behind e (by simp)) e.now_le
    obtain ⟨lastRefill, refillEvery, -⟩ := step_spec b e
    have clock : ∀ t, (b.step e).clock t = b.clock e.now + b.refillEvery * n := fun t =>
      clock_of_started (lastRefill.trans moved)
    refine ih (by rw [refillEvery]; exact positive) others ?_
      (fun e mem => later e (by simp [mem])) ?_
    · intro e' mem
      rw [clock]
      exact before.trans (first e' mem)
    · rw [clock]
      exact before.trans (later e (by simp))

end TokenBucket

open TokenBucket

/-- **The bucket keeps its budget**, asked in time: in every closed window it grants its capacity, one
token for each whole interval of the window, and one for the interval that began before it; there are
never more tokens than the capacity; and a refusal names the first moment a token is there again. -/
theorem token_bucket_keeps_budget {capacity refillEvery : ℕ} (positive : 0 < refillEvery)
    {events : List Event} (sorted : Sorted events)
    (inTime : Along step (fun b e => b.InTime e.now) (new capacity refillEvery) events) :
    (∀ lo width, granted lo (lo + width) (new capacity refillEvery) events ≤
      max capacity 1 + width / refillEvery + 1) ∧
    (∀ now, ((events.foldl step (new capacity refillEvery)).available now).1 ≤ max capacity 1) ∧
    ∀ now d, (∀ e ∈ events, e.now ≤ now) → now ≤ durationMax →
      (events.foldl step (new capacity refillEvery)).InTime now →
      ((events.foldl step (new capacity refillEvery)).tryTake now).1 = .error d →
        (∃ left, (((events.foldl step (new capacity refillEvery)).tryTake now).2.tryTake
          (now + d)).1 = .ok left) ∧
        ∀ later, now ≤ later → later < now + d → ∃ retry,
          (((events.foldl step (new capacity refillEvery)).tryTake now).2.tryTake later).1 =
            .error retry := by
  have behind : ∀ now, (new capacity refillEvery).clock now ≤ now := fun now => le_rfl
  refine ⟨?_, ?_, ?_⟩
  · intro lo width
    exact granted_window_le positive sorted (fun e _ => behind e.now) inTime
  · intro now
    have full := ((events.foldl step (new capacity refillEvery)).refill now).tokens_le
    rw [refill_capacity, (foldl_settings _ events).2] at full
    exact full
  · intro now d later word prompt refused
    refine tryTake_error ?_ ?_ word prompt refused
    · rw [(foldl_settings _ events).1]
      exact positive
    · exact clock_foldl_le positive sorted (fun e _ => behind e.now) later (behind now)

namespace Sample

def take (now : ℕ) (h : now ≤ durationMax) : Event := ⟨now, .tryTake, h⟩

/-- A burst of three on a bucket of two, and one more an interval later. -/
def burst : List Event :=
  [take 0 (by decide), take 0 (by decide), take 0 (by decide), take 4 (by decide)]

/-- A take, a pause of three times as many intervals as 32 bits count, and three takes at once. -/
def paused : List Event :=
  let pause := take (3 * u32Max) (by decide)
  [take 0 (by decide), pause, pause, pause]

end Sample

open Sample in
theorem token_bucket_keeps_budget_burst :
    granted 0 4 (new 2 4) burst = 3 ∧ granted 0 4 (new 2 4) burst ≤ 2 + 4 / 4 + 1 := by
  refine ⟨by decide, ?_⟩
  exact (token_bucket_keeps_budget (by decide) (by simp [Sorted, burst, take])
    (by simp only [burst, Along, InTime]; decide)).1 0 4

open Sample in
/-- Left alone for too long, a bucket of one grants three at one instant; and for longer still, it
refuses and names a moment that is no better. -/
theorem late_bucket_overgrants :
    Sorted paused ∧
    ¬ granted (3 * u32Max) (3 * u32Max + 0) (new 1 1) paused ≤ max 1 1 + 0 / 1 + 1 ∧
    (((take 0 (by decide) :: []).foldl step (new 1 1)).tryTake (2 ^ 64)).1 = .error 0 ∧
    ((((take 0 (by decide) :: []).foldl step (new 1 1)).tryTake (2 ^ 64)).2.tryTake
      (2 ^ 64 + 0)).1 = .error 0 := by
  refine ⟨by simp [Sorted, paused, take], ?_⟩
  decide

end Qnero.Admission
