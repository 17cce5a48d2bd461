import Qnero.Shielded.Gates
import Qnero.Shielded.Payload
import Qnero.Scale
import Qnero.Sorting

/-!
# The pool's tag

Two submissions hold one slot of the pool if they provide one tag: the hash of the segments in order,
each by its slot count and its sorted nullifiers. The preimage reads back as long as the counts fit the
32 bits they are written in, and then it says which nullifiers each segment has and nothing about
their order. A count that wraps shifts the boundary of a segment.

The tag stands behind a prefix that names the call, so a private batch and a public batch never share
a slot.
-/

namespace Qnero

open Machine Scale

/-! ## The preimage -/

/-- The same number of slots and the same nullifiers, in any order. -/
structure Segment.Reorders (a b : Segment) : Prop where
  length_eq : a.slots.length = b.slots.length
  perm : (nullifiersOf a.slots).Perm (nullifiersOf b.slots)

/-- The same number of segments, each a reordering of its counterpart. -/
def SettlementBundle.Reorders (a b : SettlementBundle) : Prop :=
  List.Forall₂ Segment.Reorders a.segments b.segments

/-- The counts fit their prefixes. -/
structure SettlementBundle.Fits (bundle : SettlementBundle) : Prop where
  segments_le : bundle.segments.length ≤ u32Max
  slots_le : ∀ segment ∈ bundle.segments, segment.slots.length ≤ u32Max

@[simp] theorem length_nullifiersOf (slots : List RealSlot) :
    (nullifiersOf slots).length = 2 * slots.length := by
  simp [nullifiersOf, List.length_flatMap, Nat.mul_comm]

/-- The nullifiers of a segment as they are hashed. -/
def Segment.tagNullifiers (segment : Segment) : List Hash256 :=
  (nullifiersOf segment.slots).insertionSort (· ≤ ·)

theorem reorders_iff {a b : Segment} : a.Reorders b ↔ a.tagNullifiers = b.tagNullifiers := by
  have sorted : a.tagNullifiers = b.tagNullifiers ↔ (nullifiersOf a.slots).Perm (nullifiersOf b.slots) :=
    Sorting.insertionSort_eq_iff fun _ _ _ _ => le_antisymm
  refine ⟨fun h => sorted.2 h.perm, fun h => ⟨?_, sorted.1 h⟩⟩
  have length := (sorted.1 h).length_eq
  simp only [length_nullifiersOf] at length
  omega

/-- A count of pairs, and the hashes. -/
def encodePairs (hashes : List Hash256) : List UInt8 :=
  u32LeBytes (hashes.length / 2) ++ hashes.flatMap Hash256.toBytes

theorem encodePairs_tagNullifiers (segment : Segment) : encodePairs segment.tagNullifiers =
    u32LeBytes segment.slots.length ++
      ((nullifiersOf segment.slots).insertionSort (· ≤ ·)).flatMap Hash256.toBytes := by
  have half : segment.tagNullifiers.length / 2 = segment.slots.length := by
    rw [Segment.tagNullifiers, List.length_insertionSort, length_nullifiersOf]
    omega
  rw [encodePairs, half]
  rfl

theorem settlementTagPreimage_eq (bundle : SettlementBundle) : settlementTagPreimage bundle =
    u32LeBytes bundle.segments.length ++
      (bundle.segments.map Segment.tagNullifiers).flatMap encodePairs := by
  rw [settlementTagPreimage, List.flatMap_map]
  simp only [encodePairs_tagNullifiers]

/-! ## Reading it back -/

theorem selfDelimiting_toBytes : SelfDelimiting (fun _ => True) Hash256.toBytes := by
  intro a b x y _ _ h
  obtain ⟨bytes, rest⟩ := List.append_inj h (by simp)
  exact ⟨Hash256.toBytes_injective bytes, rest⟩

theorem selfDelimiting_encodePairs :
    SelfDelimiting (fun hashes => hashes.length % 2 = 0 ∧ hashes.length / 2 ≤ u32Max)
      encodePairs := by
  intro a b x y ha hb h
  rw [encodePairs, encodePairs, List.append_assoc, List.append_assoc] at h
  obtain ⟨count, hashes⟩ := List.append_inj h (by simp)
  have half := u32LeBytes_inj ha.2 hb.2 count
  exact selfDelimiting_toBytes.flatMap (by omega) (fun _ _ => trivial) (fun _ _ => trivial) hashes

/-- **The preimage says the counts and the nullifiers, and no order.** -/
theorem settlementTagPreimage_eq_iff {a b : SettlementBundle} (ha : a.Fits) (hb : b.Fits) :
    settlementTagPreimage a = settlementTagPreimage b ↔ a.Reorders b := by
  have valid : ∀ {bundle : SettlementBundle}, bundle.Fits →
      ∀ hashes ∈ bundle.segments.map Segment.tagNullifiers,
        hashes.length % 2 = 0 ∧ hashes.length / 2 ≤ u32Max := by
    intro bundle fits hashes mem
    obtain ⟨segment, inside, rfl⟩ := List.mem_map.1 mem
    have := fits.slots_le segment inside
    rw [Segment.tagNullifiers, List.length_insertionSort, length_nullifiersOf]
    omega
  have same : a.Reorders b ↔
      a.segments.map Segment.tagNullifiers = b.segments.map Segment.tagNullifiers := by
    have relation : Segment.Reorders = fun a b => a.tagNullifiers = b.tagNullifiers := by
      funext a b
      exact propext reorders_iff
    rw [SettlementBundle.Reorders, ← List.forall₂_eq_eq_eq, List.forall₂_map_left_iff,
      List.forall₂_map_right_iff, relation]
  rw [same, settlementTagPreimage_eq, settlementTagPreimage_eq]
  constructor
  · intro h
    obtain ⟨count, segments⟩ := List.append_inj h (by simp)
    have length := u32LeBytes_inj ha.segments_le hb.segments_le count
    refine (selfDelimiting_encodePairs.flatMap (x := []) (y := []) (by simpa using length) (valid ha)
      (valid hb) ?_).1
    simpa using segments
  · intro h
    have length : a.segments.length = b.segments.length := by
      simpa using congrArg List.length h
    rw [h, length]

/-! ## Admitted submissions -/

variable {v : Verifiers} {H : Poseidon2} {cfg : Config} {c : Chain} {bundle : SettlementBundle}
  {outputs : List ShieldedOutput} {plan : PlannedSettlement} {blake2 : List UInt8 → Hash256}

/-- The positions of a walk stay in a machine word. -/
theorem walk_realSlots_le {segments : List Segment} {s : PlanState}
    (walk : segments.foldlM (planSegment cfg c outputs) PlanState.start = .ok s) :
    s.realSlots ≤ usizeMax := by
  refine foldlM_ok (P := fun _ (s : PlanState) => s.realSlots ≤ usizeMax) ?_ segments [] _ s
    (Nat.zero_le _) walk
  intro _ s segment s' before step
  have skip : ∀ stale, skipSegment s segment stale = .ok s' → s'.realSlots ≤ usizeMax := by
    intro stale skipped
    simp only [skipSegment, bind_ok_iff, okOr_ok_iff, checkedAdd_eq_some, Except.ok.injEq] at skipped
    obtain ⟨_, -, _, -, _, ⟨-, word⟩, rfl⟩ := skipped
    exact word
  simp only [planSegment, bind_ok_iff, ensure_ok_iff, exists_const] at step
  obtain ⟨-, step⟩ := step
  split at step
  · exact skip _ step
  · split at step
    · exact skip _ step
    · refine foldlM_ok (P := fun _ (s : PlanState) => s.realSlots ≤ usizeMax) ?_ segment.slots [] _ s'
        ?_ step
      · intro _ s slot s' _ planned
        simp only [planSlot, bind_ok_iff, ensure_ok_iff, okOr_ok_iff, checkedAdd_eq_some,
          Except.ok.injEq, exists_const] at planned
        obtain ⟨-, -, _, -, _, -, _, -, -, -, _, -, _, -, _, ⟨-, word⟩, rfl⟩ := planned
        exact word
      · exact before

/-- Every segment of a plan has a slot, and every slot a position. -/
theorem fits_of_planSettlement (h : planSettlement cfg c bundle outputs = .ok plan) : bundle.Fits := by
  simp only [planSettlement, bind_ok_iff] at h
  obtain ⟨_, -, _, -, s, walk, -⟩ := h
  have walked := walk_ok walk
  have word : (bundle.segments.map fun segment => segment.slots.length).sum ≤ u32Max := by
    rw [← List.length_flatMap, ← walked.realSlots_eq]
    exact walk_realSlots_le walk
  constructor
  · have some := List.length_le_sum_of_one_le (bundle.segments.map fun segment => segment.slots.length)
      (by simpa [Nat.one_le_iff_ne_zero] using walked.nonempty)
    rw [List.length_map] at some
    exact some.trans word
  · intro segment mem
    exact (List.le_sum_of_mem (List.mem_map_of_mem mem)).trans word

/-- The call is a settlement, and this is the bundle of its verified proof. -/
inductive ShieldedCall.Verifies (v : Verifiers) : ShieldedCall → String → SettlementBundle → Prop where
  | privateBatch {proof : List UInt8} {outputs : List ShieldedOutput} {bundle : SettlementBundle}
      (verified : v.validatePrivateBatch proof = .ok bundle) :
      Verifies v (.submitPrivateBatch proof outputs) "QneroPrivateBatch" bundle
  | publicBatch {proof : List UInt8} {outputs : List ShieldedOutput} {bundle : SettlementBundle}
      (verified : v.validatePublicBatch proof = .ok bundle) :
      Verifies v (.submitPublicBatch proof outputs) "QneroPublicBatch" bundle

/-- What the pool keeps of an admitted submission is the tag of a bundle that was planned. -/
theorem validateUnsigned_ok {call : ShieldedCall} {valid : ValidTransaction}
    (admitted : validateUnsigned v blake2 H cfg c call = .ok valid) :
    ∃ tagPrefix bundle, call.Verifies v tagPrefix bundle ∧ bundle.Fits ∧
      valid.provides = [(tagPrefix, blake2 (settlementTagPreimage bundle))] := by
  cases call with
  | submitPrivateBatch proof outputs =>
    rw [validateUnsigned, bind_ok_iff] at admitted
    obtain ⟨bundle, batch, made⟩ := admitted
    obtain ⟨verified, plan, check⟩ := (admitBatch_ok_iff (v.private_readings proof)).1 batch
    obtain rfl := Except.ok.inj made
    exact ⟨_, bundle, .privateBatch verified, fits_of_planSettlement (checkSettlement_ok_iff.1 check).1,
      rfl⟩
  | submitPublicBatch proof outputs =>
    rw [validateUnsigned, bind_ok_iff] at admitted
    obtain ⟨bundle, batch, made⟩ := admitted
    obtain ⟨verified, plan, check⟩ := (admitBatch_ok_iff (v.public_readings proof)).1 batch
    obtain rfl := Except.ok.inj made
    exact ⟨_, bundle, .publicBatch verified, fits_of_planSettlement (checkSettlement_ok_iff.1 check).1,
      rfl⟩
  | shield value inner ciphertext => cases admitted
  | coinbase inner ciphertext => cases admitted

/-- **The pool's tag is exact.** Preimages whose counts fit are equal exactly for reorderings, segment by
segment. Two admitted submissions, whose counts always fit, hold one slot of the pool exactly if they
are the same call on reordered bundles. -/
theorem pool_tag_exact (v : Verifiers) (blake2 : List UInt8 → Hash256) (H : Poseidon2) (cfg : Config) :
    (∀ a b : SettlementBundle, a.Fits → b.Fits →
      (settlementTagPreimage a = settlementTagPreimage b ↔ a.Reorders b)) ∧
    ∀ c c' call call' valid valid', validateUnsigned v blake2 H cfg c call = .ok valid →
      validateUnsigned v blake2 H cfg c' call' = .ok valid' →
      ∃ tagPrefix a tagPrefix' b, call.Verifies v tagPrefix a ∧ call'.Verifies v tagPrefix' b ∧
        (Set.InjOn blake2 {settlementTagPreimage a, settlementTagPreimage b} →
          (valid.provides = valid'.provides ↔ tagPrefix = tagPrefix' ∧ a.Reorders b)) := by
  refine ⟨fun a b => settlementTagPreimage_eq_iff, ?_⟩
  intro c c' call call' valid valid' admitted admitted'
  obtain ⟨tagPrefix, a, verified, fits, provides⟩ := validateUnsigned_ok admitted
  obtain ⟨tagPrefix', b, verified', fits', provides'⟩ := validateUnsigned_ok admitted'
  refine ⟨tagPrefix, a, tagPrefix', b, verified, verified', fun injective => ?_⟩
  rw [provides, provides', List.cons.injEq, Prod.mk.injEq, ← settlementTagPreimage_eq_iff fits fits',
    injective.eq_iff (.inl rfl) (.inr rfl)]
  simp only [and_true]

namespace Sample

/-- The sample slot with its two nullifiers exchanged. -/
def exchanged : SettlementBundle :=
  ⟨[{ segment with slots := segment.slots.map fun slot =>
    { slot with nullifiers := slot.nullifiers ∘ Fin.rev } }]⟩

theorem reorders_exchanged : SettlementBundle.Reorders ⟨[segment]⟩ exchanged := by
  refine .cons ⟨by simp, ?_⟩ .nil
  decide +kernel

def tagHash (bytes : List UInt8) : Hash256 :=
  digestBytes (sampleSponge.hashToFelts (bytes.map fun byte => (byte.toNat : Plonkish.Felt)))

/-- What the pool makes of a submission of the sample outputs. -/
def pooled (call : List UInt8 → List ShieldedOutput → ShieldedCall) (proof : List UInt8) :
    Except InvalidTransaction ValidTransaction :=
  validateUnsigned verifiers tagHash sampleSponge runtime settling (call proof outputsOf)

theorem pooled_private {proof : List UInt8} {bundle : SettlementBundle} {plan : PlannedSettlement}
    (verified : verifiers.validatePrivateBatch proof = .ok bundle)
    (check : checkSettlement sampleSponge runtime settling bundle outputsOf = .ok plan) :
    pooled .submitPrivateBatch proof = .ok (validSettlement tagHash "QneroPrivateBatch" bundle) := by
  rw [pooled, validateUnsigned,
    bind_of_ok ((admitBatch_ok_iff (verifiers.private_readings proof)).2 ⟨verified, plan, check⟩)]

theorem validate_public : verifiers.validatePublicBatch [] = .ok ⟨[segment]⟩ :=
  toOption_eq_some_iff.1 (by decide +kernel)

theorem pooled_public : pooled .submitPublicBatch [] =
    .ok (validSettlement tagHash "QneroPublicBatch" ⟨[segment]⟩) := by
  rw [pooled, validateUnsigned, bind_of_ok
    ((admitBatch_ok_iff (verifiers.public_readings [])).2 ⟨validate_public, _, check_settling⟩)]

end Sample

open Sample in
/-- Two proofs, the second of the same slot with its nullifiers exchanged: one slot of the pool. -/
theorem pool_tag_exact_sample :
    settlementTagPreimage ⟨[segment]⟩ = settlementTagPreimage exchanged ∧
    ∃ valid valid', pooled .submitPrivateBatch [] = .ok valid ∧
      pooled .submitPrivateBatch [1] = .ok valid' ∧ valid.provides = valid'.provides := by
  obtain ⟨preimages, slots⟩ := pool_tag_exact verifiers tagHash sampleSponge runtime
  have verified : verifiers.validatePrivateBatch [1] = .ok exchanged :=
    toOption_eq_some_iff.1 (by decide +kernel)
  have check : checkSettlement sampleSponge runtime settling exchanged outputsOf =
      .ok ⟨10, 1, 0, 3584, [true]⟩ := by
    decide +kernel
  have same := (preimages ⟨[segment]⟩ exchanged ⟨by decide, by decide⟩ ⟨by decide, by decide⟩).2
    reorders_exchanged
  have first := pooled_private validate_sample check_settling
  have second := pooled_private verified check
  refine ⟨same, _, _, first, second, ?_⟩
  obtain ⟨_, a, _, b, ⟨readsA⟩, ⟨readsB⟩, shares⟩ := slots _ _ _ _ _ _ first second
  obtain rfl := Except.ok.inj (validate_sample.symm.trans readsA)
  obtain rfl := Except.ok.inj (verified.symm.trans readsB)
  refine (shares ?_).2 ⟨rfl, reorders_exchanged⟩
  rw [same, Set.pair_eq_singleton]
  exact Set.injOn_singleton ..

/-! ## Counts that wrap -/

namespace Sample

/-- A slot of zero bytes. -/
def blankSlot : RealSlot := ⟨fun _ => 0, fun _ => 0, 0, 0⟩

def blankSegment (slots : ℕ) : Segment := ⟨0, 0, List.replicate slots blankSlot⟩

theorem tagNullifiers_blank (slots : ℕ) :
    (blankSegment slots).tagNullifiers = List.replicate (2 * slots) 0 := by
  rw [Segment.tagNullifiers, List.eq_replicate_iff, List.length_insertionSort, length_nullifiersOf]
  refine ⟨by simp [blankSegment], fun n mem => ?_⟩
  rw [List.mem_insertionSort, mem_nullifiersOf] at mem
  obtain ⟨slot, inside, i, rfl⟩ := mem
  rw [List.eq_of_mem_replicate inside]
  rfl

/-- A segment whose count wraps to zero is zeros all over, as an empty segment is. -/
theorem encodePairs_blank {slots : ℕ} (wraps : u32LeBytes slots = List.replicate 4 0) :
    encodePairs (blankSegment slots).tagNullifiers = List.replicate (4 + 2 * slots * 32) 0 := by
  have zero : Hash256.toBytes 0 = List.replicate 32 0 := by decide
  rw [encodePairs, tagNullifiers_blank, List.length_replicate, Nat.mul_div_cancel_left _ Nat.two_pos,
    wraps, List.flatMap_replicate, zero, List.flatten_replicate_replicate, List.replicate_add]

/-- A count that wraps can stand on either side of a boundary. -/
theorem settlementTagPreimage_blank {slots : ℕ} (wraps : u32LeBytes slots = List.replicate 4 0) :
    settlementTagPreimage ⟨[blankSegment 0, blankSegment slots]⟩ =
      settlementTagPreimage ⟨[blankSegment slots, blankSegment 0]⟩ := by
  have none : u32LeBytes 0 = List.replicate 4 0 := by decide
  simp only [settlementTagPreimage_eq, List.length_cons, List.length_nil, List.map_cons, List.map_nil,
    List.flatMap_cons, List.flatMap_nil, List.append_nil, encodePairs_blank none,
    encodePairs_blank wraps, List.replicate_append_replicate]
  rw [Nat.add_comm (4 + 2 * 0 * 32)]

end Sample

/-- An empty segment before one of 2³² slots has the preimage of the two the other way round. And a
private batch and a public batch over one segment are both admitted, under different tags. -/
theorem wrapped_counts_share :
    (∃ a b : SettlementBundle,
      settlementTagPreimage a = settlementTagPreimage b ∧ ¬ a.Reorders b) ∧
    ∃ valid valid' bundle, Sample.pooled .submitPrivateBatch [] = .ok valid ∧
      Sample.pooled .submitPublicBatch [] = .ok valid' ∧
      Sample.verifiers.validatePrivateBatch [] = .ok bundle ∧
      Sample.verifiers.validatePublicBatch [] = .ok bundle ∧ valid.provides ≠ valid'.provides := by
  refine ⟨⟨⟨[Sample.blankSegment 0, Sample.blankSegment (2 ^ 32)]⟩, _,
    Sample.settlementTagPreimage_blank ?_, fun reorders => ?_⟩, _, _, _,
    Sample.pooled_private Sample.validate_sample Sample.check_settling, Sample.pooled_public,
    Sample.validate_sample, Sample.validate_public, by simp [validSettlement]⟩
  · exact (by decide : u32LeBytes (2 ^ 32) = List.replicate 4 0)
  · have lengths := (List.forall₂_cons.1 reorders).1.length_eq
    simp only [Sample.blankSegment, List.length_replicate] at lengths
    omega

end Qnero
