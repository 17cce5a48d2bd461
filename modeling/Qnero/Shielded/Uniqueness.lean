import Qnero.Shielded.Solvency

/-!
# No two notes share a seed

A note's nullifier comes from its `rho`. Two notes with one `rho` to one recipient have one
nullifier, and only one of them can be spent; a sender who could make such a pair would pay with
nothing. Every leaf has an origin that fixes its `rho`: the nullifiers of the spend that made it,
the entry counter, or the block number. Nullifiers are used once, the counter only grows and a block
mints once, so origins never repeat, and neither does what is hashed from them.
-/

namespace Qnero

open Plonkish Machine Ledger

/-! ## Origins -/

/-- Where a note's `rho` comes from. -/
inductive Origin where
  | output (nf₁ nf₂ : Digest) (index : Fin 2)
  | entry (block index : ℕ)
  | coinbase (block : ℕ)

namespace Origin

/-- The list `rho` is the hash of. -/
def input : Origin → List Felt
  | output nf₁ nf₂ index => rhoInput nf₁ nf₂ index
  | entry block index => entryRhoInput block index
  | coinbase block => coinbaseRhoInput block

def rho (H : Poseidon2) (o : Origin) : Digest := H.hashToFelts o.input

/-- Numbers as wide as the chain's. -/
def Bounded : Origin → Prop
  | output .. => True
  | entry block index => block ≤ u32Max ∧ index ≤ u64Max
  | coinbase block => block ≤ u32Max

end Origin

theorem natCast_inj {a b : ℕ} (ha : a < goldilocks) (hb : b < goldilocks) :
    (a : Felt) = (b : Felt) ↔ a = b := by
  rw [felt_eq_natCast_iff hb, ZMod.val_natCast_of_lt ha]

theorem u32_lt {a : ℕ} (h : a ≤ u32Max) : a < goldilocks := lt_of_le_of_lt h (by decide)

/-- Both halves of an entry index are kept. -/
theorem entryRhoInput_inj {b b' k k' : ℕ} (hb : b ≤ u32Max) (hb' : b' ≤ u32Max) (hk : k ≤ u64Max)
    (hk' : k' ≤ u64Max) : entryRhoInput b k = entryRhoInput b' k' ↔ b = b' ∧ k = k' := by
  have high : ∀ n ≤ u64Max, n >>> 32 ≤ u32Max := fun n hn => by
    rw [Nat.shiftRight_eq_div_pow]
    unfold u64Max at hn
    unfold u32Max
    omega
  have low : ∀ n, n % 2 ^ 32 ≤ u32Max := fun n => by
    unfold u32Max
    omega
  have split : ∀ n : ℕ, n >>> 32 * 2 ^ 32 + n % 2 ^ 32 = n := fun n => by
    rw [Nat.shiftRight_eq_div_pow]
    omega
  simp only [entryRhoInput, feltsInput_inj, true_and, List.flatten_cons, List.flatten_nil,
    List.cons_append, List.nil_append, List.cons.injEq, and_true, List.append_nil,
    natCast_inj (u32_lt hb) (u32_lt hb'), natCast_inj (u32_lt (high k hk)) (u32_lt (high k' hk')),
    natCast_inj (u32_lt (low k)) (u32_lt (low k'))]
  constructor
  · rintro ⟨rfl, hhigh, hlow⟩
    refine ⟨rfl, ?_⟩
    rw [← split k, ← split k', hhigh, hlow]
  · rintro ⟨rfl, rfl⟩
    exact ⟨rfl, rfl, rfl⟩

/-- **Different origins hash different lists**: the tags differ, or the numbers do. -/
theorem Origin.input_inj {o o' : Origin} (ho : o.Bounded) (ho' : o'.Bounded)
    (h : o.input = o'.input) : o = o' := by
  have tags : Domain.rho ≠ Domain.rhoEntry ∧ Domain.rho ≠ Domain.rhoCoinbase ∧
      Domain.rhoEntry ≠ Domain.rhoCoinbase := by decide
  obtain ⟨entry, coinbase, both⟩ := tags
  cases o <;> cases o' <;> simp only [Origin.input, Origin.Bounded] at h ho ho'
  case output.output a b i a' b' i' =>
    obtain ⟨rfl, rfl, hi⟩ := rhoInput_inj.1 h
    have small : ∀ j : Fin 2, (j : ℕ) < goldilocks := fun j => lt_trans j.isLt (by decide)
    obtain rfl := Fin.ext ((natCast_inj (small i) (small i')).1 hi)
    rfl
  case entry.entry =>
    obtain ⟨rfl, rfl⟩ := (entryRhoInput_inj ho.1 ho'.1 ho.2 ho'.2).1 h
    rfl
  case coinbase.coinbase =>
    simp only [coinbaseRhoInput, feltsInput_inj, true_and, List.flatten_singleton,
      List.cons.injEq, and_true] at h
    rw [(natCast_inj (u32_lt ho) (u32_lt ho')).1 h]
  case output.entry => exact absurd (feltsInput_inj.1 h).1 entry
  case entry.output => exact absurd (feltsInput_inj.1 h).1 entry.symm
  case output.coinbase => exact absurd (feltsInput_inj.1 h).1 coinbase
  case coinbase.output => exact absurd (feltsInput_inj.1 h).1 coinbase.symm
  case entry.coinbase => exact absurd (feltsInput_inj.1 h).1 both
  case coinbase.entry => exact absurd (feltsInput_inj.1 h).1 both.symm

/-! ## What honest senders do -/

section

variable (H : Poseidon2) (Q : Set (List Felt))

/-- `inner` hides a note with the `rho` of `origin`. -/
def SeededBy (inner : Hash256) (origin : Origin) : Prop :=
  ∃ pk r, inner = digestBytes (noteInner H pk (origin.rho H) r) ∧
    noteInput pk (origin.rho H) r ∈ Q ∧ origin.input ∈ Q

/-- Shielders and authors derive `rho` from what the chain assigns them: the block and the entry
counter, or the block alone. A spend has no choice. -/
def Honest (c : Chain) : Op → Prop
  | .shield _ _ inner _ => SeededBy H Q inner (.entry c.blockNumber c.entryCount)
  | .coinbase inner _ => SeededBy H Q inner (.coinbase c.blockNumber)
  | .collectFee .. | .settle .. | .endBlock _ => True

/-- A chain in its first block, with its counters at the start. -/
structure FirstBlock (c : Chain) : Prop extends Genesis H Q c where
  entryCount_eq : c.entryCount = 0
  pending_eq : c.pendingCoinbase = none
  number_le : c.blockNumber ≤ u32Max

/-- `leaf` commits to the note `n`. -/
structure IsNote (leaf : Hash256) (n : Note) : Prop where
  note_mem : noteInput n.pk n.rho n.r ∈ Q
  commits : Commits H Q leaf (n.inner H) (n.value : Felt)

/-- `leaf` commits to a note with the `rho` of `origin`. -/
def CreatedFrom (leaf : Hash256) (origin : Origin) : Prop :=
  ∃ pk r value, noteInput pk (origin.rho H) r ∈ Q ∧ origin.input ∈ Q ∧
    Commits H Q leaf (noteInner H pk (origin.rho H) r) value

end

variable {H : Poseidon2} {Q : Set (List Felt)} {cfg : Config} {c c' : Chain} {leaf : Hash256}

/-- Whatever note a leaf commits to has the `rho` of its origin. -/
theorem IsNote.rho_eq (hH : CollisionFree H.hashToFelts Q) {n : Note} (h : IsNote H Q leaf n)
    {origin : Origin} (created : CreatedFrom H Q leaf origin) : n.rho = origin.rho H := by
  obtain ⟨pk, r, value, mem, -, commits⟩ := created
  have inner := (h.commits.unique hH commits).1
  exact (noteInput_inj.1 (hH.inj h.note_mem mem inner)).2.1

/-- A commitment the chain computed over a seeded `inner`. -/
theorem SeededBy.created {inner commitment : Hash256} {origin : Origin} {value : ℕ}
    (h : SeededBy H Q inner origin) (hcm : chainCommitment H inner value = some commitment)
    (mem : ∀ d, bytesToDigest inner = some d → cmInput d (value : Felt) ∈ Q) :
    CreatedFrom H Q commitment origin := by
  obtain ⟨pk, r, rfl, note, input⟩ := h
  obtain ⟨d, hd, rfl⟩ := Option.map_eq_some_iff.1 hcm
  obtain rfl := digestBytes_injective (bytesToDigest_eq_some.1 hd)
  exact ⟨pk, r, _, note, input, mem _ hd, rfl⟩

/-! ## Origins of a slot -/

/-- The origins of the two outputs of a slot. -/
def slotOrigins (slot : RealSlot) : List Origin :=
  [.output (bytesToDigestLossy (slot.nullifiers 0)) (bytesToDigestLossy (slot.nullifiers 1)) 0,
    .output (bytesToDigestLossy (slot.nullifiers 0)) (bytesToDigestLossy (slot.nullifiers 1)) 1]

variable {t : SpendTargets} {outputs : List ShieldedOutput} {bundle : SettlementBundle}

theorem LeafHolds.created (h : LeafHolds H Q t) (i : Fin 2) :
    CreatedFrom H Q (digestBytes (t.commitments i)) (.output (t.nullifiers 0) (t.nullifiers 1) i) :=
  ⟨(t.outputs i).pk, (t.outputs i).r, (t.outputs i).value, (h.outputs i).note_mem,
    (h.outputs i).rho_mem, (h.outputs i).commits⟩

theorem slotOrigins_ofSlot (t : SpendTargets) : slotOrigins (RealSlot.ofSlot t.slot) =
    [.output (t.nullifiers 0) (t.nullifiers 1) 0, .output (t.nullifiers 0) (t.nullifiers 1) 1] := by
  have decoded : ∀ i, bytesToDigestLossy ((RealSlot.ofSlot t.slot).nullifiers i) = t.nullifiers i :=
    fun i => bytesToDigestLossy_digestBytes (t.nullifiers i)
  rw [slotOrigins, decoded, decoded]

/-- The origins of some leaves: each leaf has its own, and an output's nullifiers are used. -/
structure Origins (H : Poseidon2) (Q : Set (List Felt)) (used : Finset Hash256)
    (leaves : List Hash256) (origins : List Origin) : Prop where
  created : List.Forall₂ (CreatedFrom H Q) leaves origins
  nodup : origins.Nodup
  used : ∀ nf₁ nf₂ i, .output nf₁ nf₂ i ∈ origins → digestBytes nf₁ ∈ used

theorem Origins.append {used used' : Finset Hash256} {leaves new : List Hash256}
    {origins more : List Origin} (h : Origins H Q used leaves origins) (grow : used ⊆ used')
    (created : List.Forall₂ (CreatedFrom H Q) new more) (nodup : more.Nodup)
    (fresh : ∀ o ∈ more, o ∉ origins)
    (marked : ∀ nf₁ nf₂ i, .output nf₁ nf₂ i ∈ more → digestBytes nf₁ ∈ used') :
    Origins H Q used' (leaves ++ new) (origins ++ more) where
  created := List.rel_append h.created created
  nodup := List.nodup_append.2
    ⟨h.nodup, nodup, fun _ ha b hb heq => fresh b hb (heq ▸ ha)⟩
  used nf₁ nf₂ i hmem := by
    rcases List.mem_append.1 hmem with old | new
    · exact grow (h.used nf₁ nf₂ i old)
    · exact marked nf₁ nf₂ i new

/-- **Outputs have new origins**, because their nullifiers are new. -/
theorem Origins.slots {used : Finset Hash256} {leaves notes : List Hash256} {origins : List Origin}
    {slots : List RealSlot} (h : Origins H Q used leaves origins)
    (spends : ∀ slot ∈ slots, Spends H Q notes slot) (fresh : Fresh used (nullifiersOf slots)) :
    Origins H Q (used ∪ (nullifiersOf slots).toFinset) (leaves ++ commitmentsOf slots)
      (origins ++ slots.flatMap slotOrigins) := by
  induction slots generalizing used leaves origins with
  | nil => simpa [commitmentsOf, nullifiersOf] using h
  | cons slot slots ih =>
    obtain ⟨⟨t, holds, rfl, -⟩, rest⟩ := List.forall_mem_cons.1 spends
    have cons : nullifiersOf (RealSlot.ofSlot t.slot :: slots) =
        [digestBytes (t.nullifiers 0), digestBytes (t.nullifiers 1)] ++ nullifiersOf slots := rfl
    rw [cons] at fresh ⊢
    -- The first nullifier of a slot is in the origin of both its outputs, and it is new.
    have new : digestBytes (t.nullifiers 0) ∉ used := fresh.unused _ (List.mem_cons_self ..)
    have first : Origins H Q (used ∪ [digestBytes (t.nullifiers 0),
        digestBytes (t.nullifiers 1)].toFinset)
        (leaves ++ [digestBytes (t.commitments 0), digestBytes (t.commitments 1)])
        (origins ++ slotOrigins (RealSlot.ofSlot t.slot)) := by
      rw [slotOrigins_ofSlot]
      refine h.append Finset.subset_union_left
        (.cons (holds.created 0) (.cons (holds.created 1) .nil)) (by simp) ?_ ?_
      · intro o ho hold
        rcases List.mem_pair.1 ho with rfl | rfl
        · exact new (h.used _ _ _ hold)
        · exact new (h.used _ _ _ hold)
      · intro nf₁ nf₂ i hmem
        have : nf₁ = t.nullifiers 0 := by
          rcases List.mem_pair.1 hmem with heq | heq <;> cases heq <;> rfl
        rw [this]
        exact Finset.mem_union_right _ (by simp)
    have all := ih first rest fresh.of_append
    rw [List.append_assoc, List.append_assoc, Finset.union_assoc, ← List.toFinset_append] at all
    exact all

/-! ## Origins along a run -/

variable {p : Pool (leafValue H Q)} {origins : List Origin}

/-- **The invariant**: every leaf has its own origin, and the counters are past all of them. -/
structure Originated (H : Poseidon2) (Q : Set (List Felt)) (c : Chain) (origins : List Origin) :
    Prop extends Origins H Q c.usedNullifiers c.leafList origins where
  entry_lt : ∀ b k, .entry b k ∈ origins → b ≤ c.blockNumber ∧ k < c.entryCount
  coinbase_lt : ∀ b, .coinbase b ∈ origins → b < c.blockNumber
  pending : ∀ payload, c.pendingCoinbase = some payload →
    SeededBy H Q payload.inner (.coinbase c.blockNumber)
  entryCount_le : c.entryCount ≤ c.leafList.length
  number_le : c.blockNumber ≤ u32Max

/-- An operation that appends nothing and moves no counter. -/
theorem Originated.frame (h : Originated H Q c origins) (tree : c'.tree = c.tree)
    (used : c'.usedNullifiers = c.usedNullifiers) (number : c'.blockNumber = c.blockNumber)
    (entries : c'.entryCount = c.entryCount)
    (pending : ∀ payload, c'.pendingCoinbase = some payload →
      SeededBy H Q payload.inner (.coinbase c.blockNumber)) : Originated H Q c' origins := by
  have leaves : c'.leafList = c.leafList := by rw [Chain.leafList, tree, Chain.leafList]
  exact {
    created := leaves ▸ h.created
    nodup := h.nodup
    used := used ▸ h.used
    entry_lt := by rw [number, entries]; exact h.entry_lt
    coinbase_lt := by rw [number]; exact h.coinbase_lt
    pending := by rw [number]; exact pending
    entryCount_le := by rw [entries, leaves]; exact h.entryCount_le
    number_le := by rw [number]; exact h.number_le }

/-- What is appended stands behind what was there. -/
theorem Refines.leafList_append (h : Refines H Q c p) (new : List Hash256)
    (room : new.length ≤ c.tree.remainingCapacity) (tree : c'.tree = c.tree.appendAll new) :
    c'.leafList = c.leafList ++ new := by
  obtain ⟨-, _, folded⟩ := h.append new room
  rw [← tree] at folded
  rw [folded.leafList_eq, h.leafList_eq]

/-- Folding the tree does not change its leaves. -/
theorem Refines.leafList_finalize (h : Refines H Q (c.payRewards H cfg) p) :
    (c.finalize H cfg).leafList = (c.payRewards H cfg).leafList := by
  obtain ⟨_, folded⟩ := h.folded
  have closed : Folded H (c.finalize H cfg).tree p.notes p.notes.length :=
    folded.process (by rw [capacity_circuitMaxTreeDepth]; exact h.room)
  rw [closed.leafList_eq, folded.leafList_eq]

theorem Refines.entryCount_lt (h : Refines H Q c p) (origin : Originated H Q c origins) :
    c.entryCount + 1 ≤ u64Max := by
  have room := h.room
  have count := origin.entryCount_le
  have small : (4 : ℕ) ^ 20 + 1 ≤ u64Max := by decide
  rw [h.leafList_eq] at count
  omega

/-- **A shield takes the next entry.** -/
theorem Originated.shielded (refines : Refines H Q c p) (h : Originated H Q c origins)
    {value : ℕ} {inner commitment : Hash256} {balances : Balances}
    (checked : ShieldChecked H cfg c value inner commitment)
    (mem : ∀ d, bytesToDigest inner = some d → cmInput d ((value / poolStep : ℕ) : Felt) ∈ Q)
    (honest : SeededBy H Q inner (.entry c.blockNumber c.entryCount)) :
    Originated H Q (c.shielded balances value commitment)
      (origins ++ [.entry c.blockNumber c.entryCount]) := by
  have leaves : (c.shielded balances value commitment).leafList = c.leafList ++ [commitment] :=
    refines.leafList_append [commitment] checked.capacity rfl
  have count : (c.shielded balances value commitment).entryCount = c.entryCount + 1 :=
    satAdd_eq (refines.entryCount_lt h)
  have fresh : ∀ o ∈ [Origin.entry c.blockNumber c.entryCount], o ∉ origins := by
    intro o ho hold
    obtain rfl := List.mem_singleton.1 ho
    exact absurd (h.entry_lt _ _ hold).2 (lt_irrefl _)
  have extended := h.toOrigins.append (Finset.Subset.refl _)
    (.cons (honest.created checked.commitment_eq mem) .nil) (List.nodup_singleton _) fresh (by simp)
  refine {
    created := leaves ▸ extended.created
    nodup := extended.nodup
    used := extended.used
    entry_lt := fun b k hmem => ?_
    coinbase_lt := fun b hmem => h.coinbase_lt b (by simpa using hmem)
    pending := h.pending
    entryCount_le := by
      rw [count, leaves, List.length_append, List.length_singleton]
      exact Nat.succ_le_succ h.entryCount_le
    number_le := h.number_le }
  rw [count]
  rcases List.mem_append.1 hmem with old | new
  · exact ⟨(h.entry_lt b k old).1, Nat.lt_succ_of_lt (h.entry_lt b k old).2⟩
  · obtain ⟨rfl, rfl⟩ := Origin.entry.inj (List.mem_singleton.1 new)
    exact ⟨le_rfl, Nat.lt_succ_self _⟩

theorem mem_slotOrigins {slots : List RealSlot} {o : Origin} (h : o ∈ slots.flatMap slotOrigins) :
    ∃ nf₁ nf₂ i, o = .output nf₁ nf₂ i := by
  obtain ⟨slot, -, hmem⟩ := List.mem_flatMap.1 h
  rcases List.mem_pair.1 hmem with rfl | rfl
  · exact ⟨_, _, _, rfl⟩
  · exact ⟨_, _, _, rfl⟩

/-- **A settlement's outputs are seeded by its nullifiers.** -/
theorem Originated.settled (hH : CollisionFree H.hashToFelts Q) (refines : Refines H Q c p)
    (h : Originated H Q c origins) {plan : PlannedSettlement}
    (valid : ∀ segment ∈ bundle.segments, segment.Valid H Q)
    (planned : Planned cfg c bundle outputs plan) :
    Originated H Q (c.settled cfg bundle plan)
      (origins ++ (plan.written bundle).flatMap slotOrigins) := by
  have extended := h.toOrigins.slots (refines.spends hH valid planned.anchored)
    ⟨planned.writable.nodup, planned.fresh⟩
  have leaves : (c.settled cfg bundle plan).leafList =
      c.leafList ++ commitmentsOf (plan.written bundle) :=
    refines.leafList_append _ planned.commitments_le (settled_tree ..)
  have number : (c.settled cfg bundle plan).blockNumber = c.blockNumber :=
    settled_frame Chain.blockNumber (fun _ _ => rfl) (fun _ _ _ => rfl) cfg c bundle plan
  have entries : (c.settled cfg bundle plan).entryCount = c.entryCount :=
    settled_frame Chain.entryCount (fun _ _ => rfl) (fun _ _ _ => rfl) cfg c bundle plan
  have pending : (c.settled cfg bundle plan).pendingCoinbase = c.pendingCoinbase :=
    settled_frame Chain.pendingCoinbase (fun _ _ => rfl) (fun _ _ _ => rfl) cfg c bundle plan
  exact {
    created := leaves ▸ extended.created
    nodup := extended.nodup
    used := by rw [settled_usedNullifiers]; exact extended.used
    entry_lt := fun b k hmem => by
      rw [number, entries]
      rcases List.mem_append.1 hmem with old | new
      · exact h.entry_lt b k old
      · obtain ⟨_, _, _, ⟨⟩⟩ := mem_slotOrigins new
    coinbase_lt := fun b hmem => by
      rw [number]
      rcases List.mem_append.1 hmem with old | new
      · exact h.coinbase_lt b old
      · obtain ⟨_, _, _, ⟨⟩⟩ := mem_slotOrigins new
    pending := by rw [number, pending]; exact h.pending
    entryCount_le := by
      rw [entries, leaves, List.length_append]
      exact le_trans h.entryCount_le (Nat.le_add_right ..)
    number_le := by rw [number]; exact h.number_le }

theorem blockNumber_nextBlock (env : Environment) :
    (c.nextBlock H cfg env).blockNumber = c.blockNumber + 1 :=
  congrArg (· + 1) (payRewards_frame Chain.blockNumber (fun _ _ _ => rfl) (fun _ _ _ => rfl) H cfg c)

theorem entryCount_nextBlock (env : Environment) :
    (c.nextBlock H cfg env).entryCount = c.entryCount :=
  nextBlock_frame Chain.entryCount (fun _ _ _ => rfl) (fun _ _ _ => rfl) (fun _ _ => rfl)
    (fun _ _ _ => rfl) env

/-- A new block starts past the coinbase of the last one. -/
theorem Origins.nextBlock {leaves : List Hash256} (h : Origins H Q c.usedNullifiers leaves origins)
    (entries : ∀ b k, .entry b k ∈ origins → b ≤ c.blockNumber ∧ k < c.entryCount)
    (coinbases : ∀ b, .coinbase b ∈ origins → b ≤ c.blockNumber)
    (count : c.entryCount ≤ leaves.length) (number : c.blockNumber + 1 ≤ u32Max) (env : Environment)
    (hleaves : (c.nextBlock H cfg env).leafList = leaves) :
    Originated H Q (c.nextBlock H cfg env) origins where
  created := hleaves ▸ h.created
  nodup := h.nodup
  used := by
    have same : (c.nextBlock H cfg env).usedNullifiers = c.usedNullifiers :=
      nextBlock_frame Chain.usedNullifiers (fun _ _ _ => rfl) (fun _ _ _ => rfl) (fun _ _ => rfl)
        (fun _ _ _ => rfl) env
    rw [same]
    exact h.used
  entry_lt b k hmem := by
    rw [blockNumber_nextBlock, entryCount_nextBlock]
    exact ⟨Nat.le_succ_of_le (entries b k hmem).1, (entries b k hmem).2⟩
  coinbase_lt b hmem := by
    rw [blockNumber_nextBlock]
    exact Nat.lt_succ_of_le (coinbases b hmem)
  pending _ hpayload := nomatch hpayload
  entryCount_le := by
    rw [entryCount_nextBlock, hleaves]
    exact count
  number_le := by
    rw [blockNumber_nextBlock]
    exact number

/-- **A block mints at most once**, and its coinbase is seeded by its number. -/
theorem Originated.nextBlock (hH : CollisionFree H.hashToFelts Q) (refines : Refines H Q c p)
    (h : Originated H Q c origins) {env : Environment} (hashed : BlockHashed H Q cfg c env)
    (number : c.blockNumber + 1 ≤ u32Max) :
    ∃ origins', Originated H Q (c.nextBlock H cfg env) origins' := by
  obtain ⟨p', -, paid⟩ := refines.payRewards hH hashed.coinbase
  have closed : (c.nextBlock H cfg env).leafList = (c.payRewards H cfg).leafList :=
    paid.leafList_finalize
  have coinbases : ∀ b, .coinbase b ∈ origins → b ≤ c.blockNumber := fun b hmem =>
    le_of_lt (h.coinbase_lt b hmem)
  rcases payRewards_cases H cfg c refines.width with
    ⟨payload, hpay⟩ | ⟨inner, commitment, checked, hpay⟩
  · have leaves : (c.nextBlock H cfg env).leafList = c.leafList := by
      rw [closed, hpay]
      rfl
    exact ⟨origins, h.toOrigins.nextBlock h.entry_lt coinbases h.entryCount_le number env leaves⟩
  · -- The one leaf of this block end, seeded by a number no coinbase before it had.
    have minted : (c.payRewards H cfg).leafList = c.leafList ++ [commitment] := by
      rw [hpay]
      exact refines.leafList_append [commitment] checked.capacity rfl
    obtain ⟨payload, hpayload, rfl⟩ := checked.inner_eq
    have created := (h.pending payload hpayload).created checked.commitment_eq fun d hd =>
      hashed.coinbase payload d hpayload hd
    have fresh : ∀ o ∈ [Origin.coinbase c.blockNumber], o ∉ origins := by
      intro o ho hold
      obtain rfl := List.mem_singleton.1 ho
      exact lt_irrefl _ (h.coinbase_lt _ hold)
    have extended := h.toOrigins.append (Finset.Subset.refl _) (.cons created .nil)
      (List.nodup_singleton _) fresh (by simp)
    refine ⟨_, extended.nextBlock (fun b k hmem => h.entry_lt b k (by simpa using hmem)) ?_ ?_ number
      env (closed.trans minted)⟩
    · intro b hmem
      rcases List.mem_append.1 hmem with old | new
      · exact coinbases b old
      · exact (Origin.coinbase.inj (List.mem_singleton.1 new)).le
    · rw [List.length_append]
      exact le_trans h.entryCount_le (Nat.le_add_right ..)

/-! ## Runs -/

/-- A chain whose leaves back its pool and have their own origins. -/
def Tracked (H : Poseidon2) (Q : Set (List Felt)) (c : Chain) : Prop :=
  (∃ p, Refines H Q c p) ∧ ∃ origins, Originated H Q c origins

theorem Tracked.step (hH : CollisionFree H.hashToFelts Q) (h : Tracked H Q c) {op : Op}
    (allowed : Admissible H Q cfg c op ∧ Honest H Q c op) (effect : Effect H cfg c op c') :
    Tracked H Q c' := by
  obtain ⟨⟨p, refines⟩, origins, origin⟩ := h
  obtain ⟨p', -, refines'⟩ := refines.step hH allowed.1 effect
  refine ⟨⟨p', refines'⟩, ?_⟩
  cases effect with
  | free => exact ⟨origins, origin⟩
  | fee => exact ⟨origins, origin.frame rfl rfl rfl rfl origin.pending⟩
  | shield check burn =>
    exact ⟨_, origin.shielded refines (shieldCheck_ok check) allowed.1 allowed.2⟩
  | settle check => exact ⟨_, origin.settled hH refines allowed.1 (checkSettlement_ok check)⟩
  | coinbase =>
    refine ⟨origins, origin.frame rfl rfl rfl rfl fun payload hpayload => ?_⟩
    obtain rfl := Option.some.inj hpayload
    exact allowed.2
  | endBlock env number => exact origin.nextBlock hH refines allowed.1 number

theorem FirstBlock.tracked (h : FirstBlock H Q c) : Tracked H Q c := by
  obtain ⟨p, refines⟩ := h.toGenesis.refines
  have leaves : c.leafList = [] := by
    rw [Chain.leafList, h.tree_eq]
    rfl
  refine ⟨⟨p, refines⟩, [], {
    created := leaves ▸ .nil
    nodup := List.nodup_nil
    used := by simp
    entry_lt := by simp
    coinbase_lt := by simp
    pending := by simp [h.pending_eq]
    entryCount_le := by rw [h.entryCount_eq]; exact Nat.zero_le _
    number_le := h.number_le }⟩

theorem Originated.bounded (refines : Refines H Q c p) (h : Originated H Q c origins) {o : Origin}
    (ho : o ∈ origins) : o.Bounded := by
  cases o with
  | output => trivial
  | entry b k =>
    obtain ⟨hb, hk⟩ := h.entry_lt b k ho
    have := refines.entryCount_lt h
    exact ⟨le_trans hb h.number_le, by omega⟩
  | coinbase b => exact le_trans (le_of_lt (h.coinbase_lt b ho)) h.number_le

/-- **Notes in different places of the tree have different seeds.** -/
theorem Tracked.rho_ne (hH : CollisionFree H.hashToFelts Q) (h : Tracked H Q c) {i j : ℕ}
    (hij : i ≠ j) {v v' : Hash256} (hi : c.leafList[i]? = some v) (hj : c.leafList[j]? = some v')
    {n n' : Note} (hn : IsNote H Q v n) (hn' : IsNote H Q v' n') : n.rho ≠ n'.rho := by
  obtain ⟨⟨p, refines⟩, origins, origin⟩ := h
  obtain ⟨hilt, rfl⟩ := List.getElem?_eq_some_iff.1 hi
  obtain ⟨hjlt, rfl⟩ := List.getElem?_eq_some_iff.1 hj
  have length := origin.created.length_eq
  have createdAt : ∀ k (hk : k < c.leafList.length),
      CreatedFrom H Q c.leafList[k] (origins.get ⟨k, length ▸ hk⟩) := fun k hk =>
    origin.created.get hk (length ▸ hk)
  have memAt : ∀ k (hk : k < c.leafList.length), origins.get ⟨k, length ▸ hk⟩ ∈ origins :=
    fun k hk => List.get_mem ..
  -- Equal seeds are equal hashes of origins, so equal origins, so one place.
  intro same
  rw [hn.rho_eq hH (createdAt i hilt), hn'.rho_eq hH (createdAt j hjlt)] at same
  obtain ⟨_, _, _, -, inputI, -⟩ := createdAt i hilt
  obtain ⟨_, _, _, -, inputJ, -⟩ := createdAt j hjlt
  have equal := Origin.input_inj (origin.bounded refines (memAt i hilt))
    (origin.bounded refines (memAt j hjlt)) (hH.inj inputI inputJ same)
  exact hij (Fin.mk.inj (origin.nodup.injective_get equal))

/-- A real nullifier is published by a real input, never by a dummy. -/
theorem LeafHolds.real_of_nullifier (hH : CollisionFree H.hashToFelts Q) (h : LeafHolds H Q t)
    {k : Fin 2} {nk rho r : Digest} (mem : nfInput Domain.nf nk rho r ∈ Q)
    (eq : t.nullifiers k = nullifier H nk rho r) : k ∈ t.realInputs ∧ (t.inputs k).rho = rho := by
  obtain ⟨dummy, holds⟩ := h.inputs k
  have lists := hH.inj holds.nf_mem mem (holds.nullifier_eq.symm.trans eq)
  obtain ⟨tag, -, hrho, -⟩ := nfInput_inj.1 lists
  have differ : Domain.nfDummy ≠ Domain.nf := by decide
  -- The tags tell a dummy's nullifier from a real one.
  cases dummy with
  | true => exact absurd tag differ
  | false => exact ⟨by simpa [SpendTargets.realInputs] using holds.isDummy, hrho⟩

theorem InputHolds.isNote {k : Fin 2} {dummy : Bool} (h : InputHolds H Q t k dummy) :
    IsNote H Q (t.inputLeaf H k) ((t.inputs k).note H) where
  note_mem := h.note_mem
  commits := by
    have value : (((t.inputs k).note H).value : Felt) = (t.inputs k).value := by
      simp [InputNoteTargets.note]
    rw [value]
    exact h.opens.commits

/-- **Only a spend of a leaf uses its nullifier.** -/
theorem Tracked.opened (hH : CollisionFree H.hashToFelts Q) (h : Tracked H Q c) {j : ℕ}
    {v : Hash256} (hj : c.leafList[j]? = some v) {n : Note} (hn : IsNote H Q v n) {nk : Digest}
    (mem : nfInput Domain.nf nk n.rho n.r ∈ Q)
    (valid : ∀ segment ∈ bundle.segments, segment.Valid H Q)
    (used : digestBytes (n.nullifier H nk) ∈ (c.step H cfg (.settle bundle outputs)).usedNullifiers) :
    digestBytes (n.nullifier H nk) ∈ c.usedNullifiers ∨
      ∃ slot ∈ bundle.realSlots, ∃ t : SpendTargets, LeafHolds H Q t ∧
        slot = RealSlot.ofSlot t.slot ∧ ∃ k ∈ t.realInputs, t.inputLeaf H k = v := by
  obtain ⟨p, refines⟩ := h.1
  rcases step_cases H cfg c (.settle bundle outputs) with same | effect
  · rw [same] at used
    exact .inl used
  · generalize c.step H cfg (.settle bundle outputs) = c' at effect used
    cases effect with
    | settle check =>
      have planned := checkSettlement_ok check
      rw [settled_usedNullifiers, Finset.mem_union, List.mem_toFinset, mem_nullifiersOf] at used
      refine used.imp_right ?_
      rintro ⟨slot, hslot, k, hk⟩
      obtain ⟨t, leaf, rfl, held⟩ := refines.spends hH valid planned.anchored slot hslot
      obtain ⟨segment, hsegment, hmem⟩ := mem_writtenSlots hslot
      refine ⟨_, List.mem_flatMap.2 ⟨segment, hsegment, hmem⟩, t, leaf, rfl, k, ?_⟩
      obtain ⟨real, hrho⟩ := leaf.real_of_nullifier hH mem (digestBytes_injective hk.symm)
      refine ⟨real, ?_⟩
      -- The opened leaf is somewhere in the tree, and two places have two seeds.
      have inTree := held k real
      rw [← refines.leafList_eq] at inTree
      obtain ⟨i, hi⟩ := List.mem_iff_getElem?.1 inTree
      by_contra differ
      have apart : i ≠ j := by
        rintro rfl
        exact differ (Option.some.inj (hi.symm.trans hj))
      exact h.rho_ne hH apart hi hj (leaf.real real).isNote hn hrho

/-- **Uniqueness of notes.** In every run of honest entries, honest coinbases and proved spends, two
leaves never commit to notes with one `rho`. So two notes never share a nullifier under one key, and
each stays spendable on its own: its nullifier is used only by a spend that opens its leaf. -/
theorem notes_unique (hH : CollisionFree H.hashToFelts Q) (first : FirstBlock H Q c)
    {ops : List Op} (allowed : Along (Chain.step H cfg)
      (fun c op => Admissible H Q cfg c op ∧ Honest H Q c op) c ops) :
    (∀ i j v v', i ≠ j → (c.run H cfg ops).tree.leaves i = some v →
      (c.run H cfg ops).tree.leaves j = some v' → ∀ n n', IsNote H Q v n → IsNote H Q v' n' →
        n.rho ≠ n'.rho ∧
        ∀ nk, nfInput Domain.nf nk n.rho n.r ∈ Q → nfInput Domain.nf nk n'.rho n'.r ∈ Q →
          n.nullifier H nk ≠ n'.nullifier H nk) ∧
    (∀ j v, (c.run H cfg ops).tree.leaves j = some v → ∀ n nk, IsNote H Q v n →
      nfInput Domain.nf nk n.rho n.r ∈ Q →
      ∀ bundle outputs, (∀ segment ∈ bundle.segments, segment.Valid H Q) →
        digestBytes (n.nullifier H nk) ∈
          ((c.run H cfg ops).step H cfg (.settle bundle outputs)).usedNullifiers →
        digestBytes (n.nullifier H nk) ∈ (c.run H cfg ops).usedNullifiers ∨
          ∃ slot ∈ bundle.realSlots, ∃ t : SpendTargets, LeafHolds H Q t ∧
            slot = RealSlot.ofSlot t.slot ∧ ∃ k ∈ t.realInputs, t.inputLeaf H k = v) := by
  have tracked : Tracked H Q (c.run H cfg ops) :=
    run_invariant (P := Tracked H Q) (fun _ _ _ h ha effect => h.step hH ha effect) first.tracked
      allowed
  obtain ⟨p, refines⟩ := tracked.1
  have place : ∀ i, (c.run H cfg ops).tree.leaves i = (c.run H cfg ops).leafList[i]? := by
    intro i
    obtain ⟨_, folded⟩ := refines.folded
    rw [folded.leaf_eq, refines.leafList_eq]
  constructor
  · intro i j v v' hij hi hj n n' hn hn'
    rw [place] at hi hj
    have seeds := tracked.rho_ne hH hij hi hj hn hn'
    refine ⟨seeds, fun nk mem mem' same => seeds ?_⟩
    exact (nfInput_inj.1 (hH.inj mem mem' same)).2.2.1
  · intro j v hj n nk hn mem bundle outputs valid used
    rw [place] at hj
    exact tracked.opened hH hj hn mem valid used

/-! ## The run of the sample spend

Its shield is honest: the note is the first entry of block one. Both outputs go to one key.
-/

theorem OutputHolds.isNote {i : Fin 2} (h : OutputHolds H Q t i) :
    IsNote H Q (digestBytes (t.commitments i)) (t.outputNote H i) where
  note_mem := h.note_mem
  commits := by
    have value : ((t.outputNote H i).value : Felt) = (t.outputs i).value := by
      simp [SpendTargets.outputNote]
    rw [value]
    exact h.commits

namespace Sample

theorem firstBlock : FirstBlock sampleSponge {x | x ∈ hashed} (genesis (10 ^ 13)) where
  toGenesis := genesis_genesis
  entryCount_eq := rfl
  pending_eq := rfl
  number_le := by decide

theorem honest_shield : Honest sampleSponge {x | x ∈ hashed} (genesis (10 ^ 13))
    (.shield 0 (50 * poolStep) inner []) :=
  ⟨derivePk sampleSponge 0 0, 0, rfl, by decide +kernel, by decide +kernel⟩

theorem allowed_ops : Along (Chain.step sampleSponge runtime)
    (fun c op => Admissible sampleSponge {x | x ∈ hashed} runtime c op ∧
      Honest sampleSponge {x | x ∈ hashed} c op) (genesis (10 ^ 13)) ops :=
  ⟨⟨admissible_shield, honest_shield⟩, ⟨blockHashed, trivial⟩,
    ⟨by simpa [Admissible] using valid_segment, trivial⟩, trivial⟩

end Sample

theorem notes_unique_sample :
    (Sample.spend.outputNote sampleSponge 0).nullifier sampleSponge 0 ≠
      (Sample.spend.outputNote sampleSponge 1).nullifier sampleSponge 0 := by
  have unique := (notes_unique Sample.collisionFree Sample.firstBlock Sample.allowed_ops).1
  have outputs := (LeafHolds.of_holds Sample.holds_spend).outputs
  exact (unique 1 2 _ _ (by decide) (by decide +kernel) (by decide +kernel) _ _ (outputs 0).isNote
    (outputs 1).isNote).2 0 (by decide +kernel) (by decide +kernel)

end Qnero
