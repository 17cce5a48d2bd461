import Qnero.Shielded.Atomic

/-!
# Ciphertexts are bound to their proofs

Every real slot of a submission has a position in the submitted outputs, whether its segment
settles or is skipped. `positions` pairs the two up. Three checks look at a position, each with its
own index: the length rule over all outputs, the walk at the positions of settling slots, and the
digest over all slots again. Together they leave no byte of a submission unbound.

`Walk` is the walk over the segments as a relation, with the flag of each segment; results about
what a plan did to single segments are by induction on it.
-/

namespace Qnero

open Plonkish Machine

/-! ## Positions -/

/-- The slots of the segments flagged `which`, each with the output at its position. -/
def positions (which : Bool) : List Segment → List Bool → List ShieldedOutput →
    List (RealSlot × ShieldedOutput)
  | segment :: segments, settles :: flags, outputs =>
    (if settles = which then segment.slots.zip outputs else []) ++
      positions which segments flags (outputs.drop segment.slots.length)
  | _, _, _ => []

theorem zip_append_left {α β : Type} (a b : List α) (l : List β) :
    (a ++ b).zip l = a.zip l ++ b.zip (l.drop a.length) := by
  induction a generalizing l with
  | nil => simp
  | cons x a ih =>
    cases l with
    | nil => simp
    | cons y l => simp [ih]

/-- Every position is one of a settling or of a skipped slot. -/
theorem mem_zip_iff_positions {segments : List Segment} {flags : List Bool}
    (hlen : flags.length = segments.length) (outputs : List ShieldedOutput)
    (p : RealSlot × ShieldedOutput) :
    p ∈ (segments.flatMap Segment.slots).zip outputs ↔
      p ∈ positions true segments flags outputs ∨ p ∈ positions false segments flags outputs := by
  induction segments generalizing flags outputs with
  | nil => simp [positions]
  | cons segment segments ih =>
    obtain _ | ⟨flag, flags⟩ := flags
    · cases hlen
    rw [List.length_cons, List.length_cons, Nat.succ_inj] at hlen
    rw [List.flatMap_cons, zip_append_left, List.mem_append, ih hlen]
    cases flag <;> simp [positions] <;> tauto

/-- With a position for every slot, the settling positions are those of the written slots. -/
theorem positions_fst {segments : List Segment} {flags : List Bool} {outputs : List ShieldedOutput}
    (hlen : flags.length = segments.length)
    (enough : (segments.flatMap Segment.slots).length ≤ outputs.length) :
    (positions true segments flags outputs).map Prod.fst = writtenSlots segments flags := by
  induction segments generalizing flags outputs with
  | nil => simp [positions, writtenSlots, writtenSegments]
  | cons segment segments ih =>
    obtain _ | ⟨flag, flags⟩ := flags
    · cases hlen
    rw [List.length_cons, List.length_cons, Nat.succ_inj] at hlen
    rw [List.flatMap_cons, List.length_append] at enough
    have left : (segments.flatMap Segment.slots).length ≤
        (outputs.drop segment.slots.length).length := by
      rw [List.length_drop]
      omega
    have rest := ih hlen left
    rw [positions, writtenSlots_cons, List.map_append, rest]
    cases flag with
    | false => rfl
    | true =>
      simp only [if_true]
      rw [List.map_fst_zip (by omega)]

/-! ## The digest check -/

/-- A position carries nothing, or what its slot committed to. -/
def BoundTo (H : Poseidon2) (slot : RealSlot) (output : ShieldedOutput) : Prop :=
  output.isEmpty = true ∨ ctDigest H [output.ct1, output.ct2] = slot.ctDigest

instance (H : Poseidon2) (slot : RealSlot) (output : ShieldedOutput) :
    Decidable (BoundTo H slot output) :=
  inferInstanceAs (Decidable (_ ∨ _))

section

variable {H : Poseidon2} {bundle : SettlementBundle} {outputs : List ShieldedOutput}

theorem bindOutput_ok_iff {slot : RealSlot} {i : ℕ} {u : Unit} :
    bindOutput H outputs (slot, i) = .ok u ↔
      ∃ output, outputs[i]? = some output ∧ BoundTo H slot output := by
  simp only [bindOutput, bind_ok_iff, okOr_ok_iff]
  refine exists_congr fun output => and_congr_right fun _ => ?_
  unfold BoundTo
  split
  · next hempty => simp [hempty]
  · next hfull => simp [ensure_ok_iff, hfull]

/-- **The digest check is over every position**, once there is one for every slot. -/
theorem bindPayload_ok_iff (enough : bundle.realSlots.length ≤ outputs.length) {u : Unit} :
    bindPayload H bundle outputs = .ok u ↔
      ∀ p ∈ bundle.realSlots.zip outputs, BoundTo H p.1 p.2 := by
  rw [bindPayload, forM_ok_iff]
  constructor
  · rintro h ⟨slot, output⟩ hp
    obtain ⟨i, hi⟩ := List.mem_iff_getElem?.1 hp
    obtain ⟨hslot, houtput⟩ := List.getElem?_zip_eq_some.1 hi
    obtain ⟨found, hfound, bound⟩ :=
      bindOutput_ok_iff.1 (h (slot, i) (List.mk_mem_zipIdx_iff_getElem?.2 hslot))
    rw [houtput] at hfound
    obtain rfl := Option.some.inj hfound
    exact bound
  · rintro h ⟨slot, i⟩ hi
    have hslot := List.mk_mem_zipIdx_iff_getElem?.1 hi
    obtain ⟨inside, -⟩ := List.getElem?_eq_some_iff.1 hslot
    have houtput : outputs[i]? = some outputs[i] := List.getElem?_eq_getElem (by omega)
    refine bindOutput_ok_iff.2 ⟨outputs[i], houtput, ?_⟩
    exact h (slot, outputs[i])
      (List.mem_iff_getElem?.2 ⟨i, List.getElem?_zip_eq_some.2 ⟨hslot, houtput⟩⟩)

/-- The digest check has one way to fail. -/
theorem bindPayload_error (enough : bundle.realSlots.length ≤ outputs.length) {e : Error}
    (h : bindPayload H bundle outputs = .error e) : e = .ciphertextDigestMismatch := by
  obtain ⟨⟨slot, i⟩, hi, hbind⟩ := exists_of_forM_error h
  obtain ⟨inside, -⟩ := List.getElem?_eq_some_iff.1 (List.mk_mem_zipIdx_iff_getElem?.1 hi)
  have houtput : outputs[i]? = some outputs[i] := List.getElem?_eq_getElem (by omega)
  rw [bindOutput, houtput] at hbind
  rcases (bind_error_iff ..).1 hbind with hbind | ⟨output, -, hbind⟩
  · cases hbind
  · split at hbind
    · cases hbind
    · exact (ensure_error_iff.1 hbind).2.symm

end

/-! ## The length check -/

/-- A ciphertext of exactly the length its declared suite fixes. -/
def ExactCiphertext (bytes : List UInt8) : Prop :=
  ∃ suite length, declaredCryptoSuite bytes = some suite ∧ ciphertextLen suite = some length ∧
    bytes.length = length

theorem ensureExactCiphertext_ok {bytes : List UInt8} {u : Unit} :
    ensureExactCiphertext bytes = .ok u ↔ ExactCiphertext bytes := by
  simp only [ensureExactCiphertext, bind_ok_iff, okOr_ok_iff, ensure_ok_iff, ExactCiphertext]
  constructor
  · rintro ⟨suite, hsuite, length, hlength, heq⟩
    exact ⟨suite, length, hsuite, hlength, heq⟩
  · rintro ⟨suite, length, hsuite, hlength, heq⟩
    exact ⟨suite, hsuite, length, hlength, heq⟩

/-- A header does not fit in nothing. -/
theorem ExactCiphertext.ne_nil {bytes : List UInt8} (h : ExactCiphertext bytes) : bytes ≠ [] := by
  rintro rfl
  obtain ⟨suite, length, hsuite, -, -⟩ := h
  cases hsuite

/-- This release has one suite, and so one length. -/
theorem ExactCiphertext.length_eq {bytes : List UInt8} (h : ExactCiphertext bytes) :
    bytes.length = suite1CiphertextBytes := by
  obtain ⟨suite, length, -, hlength, heq⟩ := h
  unfold ciphertextLen at hlength
  split at hlength
  · rw [heq, ← Option.some.inj hlength]
  · cases hlength

theorem ensureExactOutput_ok {output : ShieldedOutput} {u : Unit} :
    ensureExactOutput output = .ok u ↔
      output.isEmpty = true ∨ ExactCiphertext output.ct1 ∧ ExactCiphertext output.ct2 := by
  unfold ensureExactOutput
  split
  · next hempty => simp [hempty]
  · next hfull => simp [bind_ok_iff, ensureExactCiphertext_ok, hfull]

/-! ## The walk as a relation -/

section

variable (cfg : Config) (c : Chain) (outputs : List ShieldedOutput)

/-- The state behind a skipped segment. -/
def PlanState.skipped (s : PlanState) (segment : Segment) (stale : Option Error) : PlanState :=
  { s with
    settles := s.settles ++ [false]
    staleAnchor := stale
    skippedSlots := s.skippedSlots + segment.slots.length
    realSlots := s.realSlots + segment.slots.length }

/-- A walk from one state over some segments, under the flags it gives them, to another. -/
inductive Walk : PlanState → List Segment → List Bool → PlanState → Prop where
  | nil (s : PlanState) : Walk s [] [] s
  | skip {s s' : PlanState} {segment : Segment} {segments : List Segment} {flags : List Bool}
      {stale : Option Error} (nonempty : segment.slots ≠ [])
      (why : conflicts c s.claimed segment = true ∨ anchorFailure cfg c segment ≠ none)
      (rest : Walk (s.skipped segment stale) segments flags s') :
      Walk s (segment :: segments) (false :: flags) s'
  | settle {s mid s' : PlanState} {segment : Segment} {segments : List Segment} {flags : List Bool}
      (nonempty : segment.slots ≠ []) (free : conflicts c s.claimed segment = false)
      (anchored : anchorFailure cfg c segment = none)
      (slots : segment.slots.foldlM (planSlot cfg outputs) { s with settles := s.settles ++ [true] } =
        .ok mid)
      (rest : Walk mid segments flags s') : Walk s (segment :: segments) (true :: flags) s'

end

section

variable {cfg : Config} {c : Chain} {outputs : List ShieldedOutput} {s s' : PlanState}
  {segments : List Segment} {flags : List Bool}

theorem skipSegment_ok {segment : Segment} {stale : Option Error}
    (h : skipSegment s segment stale = .ok s') : s' = s.skipped segment stale := by
  simp only [skipSegment, bind_ok_iff, okOr_ok_iff, checkedAdd_eq_some, Except.ok.injEq] at h
  obtain ⟨count, hcount, _, ⟨rfl, -⟩, _, ⟨rfl, -⟩, rfl⟩ := h
  split at hcount
  · obtain rfl := Option.some.inj hcount
    rfl
  · cases hcount

/-- The loop takes such a walk. -/
theorem walk_of_foldlM (h : segments.foldlM (planSegment cfg c outputs) s = .ok s') :
    ∃ flags, Walk cfg c outputs s segments flags s' := by
  induction segments generalizing s with
  | nil =>
    rw [List.foldlM_nil] at h
    obtain rfl := Except.ok.inj h
    exact ⟨[], .nil s⟩
  | cons segment segments ih =>
    rw [List.foldlM_cons, bind_ok_iff] at h
    obtain ⟨mid, hstep, hrest⟩ := h
    obtain ⟨flags, walk⟩ := ih hrest
    simp only [planSegment, bind_ok_iff, ensure_ok_iff, exists_const] at hstep
    obtain ⟨nonempty, hstep⟩ := hstep
    split at hstep
    · next conflict =>
      obtain rfl := skipSegment_ok hstep
      exact ⟨_, .skip nonempty (.inl conflict) walk⟩
    · next free =>
      split at hstep
      · next stale =>
        obtain rfl := skipSegment_ok hstep
        exact ⟨_, .skip nonempty (.inr (by simp [stale])) walk⟩
      · next anchored =>
        exact ⟨_, .settle nonempty (by simpa using free) anchored hstep walk⟩

/-- The flags of a walk are the ones it appends. -/
theorem Walk.settles_eq (h : Walk cfg c outputs s segments flags s') :
    s'.settles = s.settles ++ flags := by
  induction h with
  | nil s => simp
  | skip nonempty why rest ih => simp [ih, PlanState.skipped]
  | settle nonempty free anchored slots rest ih => simp [ih, (planSlots_ok slots).settles_eq]

/-- A plan is made by a walk under its flags. -/
theorem walk_of_plan {bundle : SettlementBundle} {plan : PlannedSettlement}
    (h : planSettlement cfg c bundle outputs = .ok plan) :
    ∃ s, Walk cfg c outputs .start bundle.segments plan.settles s ∧
      outputs.forM ensureExactOutput = .ok () ∧ finishPlan cfg c outputs s = .ok plan := by
  simp only [planSettlement, bind_ok_iff] at h
  obtain ⟨_, -, _, hexact, s, hwalk, hfinish⟩ := h
  obtain ⟨flags, walk⟩ := walk_of_foldlM hwalk
  have settles : plan.settles = flags := by
    simp only [finishPlan, bind_ok_iff, Except.ok.injEq] at hfinish
    obtain ⟨_, -, _, -, _, -, _, -, _, -, _, -, _, -, _, -, rfl⟩ := hfinish
    exact walk.settles_eq
  exact ⟨s, settles ▸ walk, hexact, hfinish⟩

/-- Neither ciphertext of a settling slot is missing. -/
theorem planSlots_nonempty {slots : List RealSlot}
    (h : slots.foldlM (planSlot cfg outputs) s = .ok s') :
    ∀ p ∈ slots.zip (outputs.drop s.realSlots), p.2.ct1 ≠ [] ∧ p.2.ct2 ≠ [] := by
  induction slots generalizing s with
  | nil => simp
  | cons slot slots ih =>
    rw [List.foldlM_cons, bind_ok_iff] at h
    obtain ⟨mid, hstep, hrest⟩ := h
    have next := (planSlot_ok hstep).realSlots_eq
    simp only [planSlot, bind_ok_iff, ensure_ok_iff, okOr_ok_iff, exists_const] at hstep
    obtain ⟨-, -, _, -, _, -, output, houtput, carried, -⟩ := hstep
    obtain ⟨inside, rfl⟩ := List.getElem?_eq_some_iff.1 houtput
    have tail := ih hrest
    rw [next, List.length_singleton] at tail
    rw [List.drop_eq_getElem_cons inside, List.zip_cons_cons, List.forall_mem_cons]
    exact ⟨carried, tail⟩

theorem Walk.nonempty (h : Walk cfg c outputs s segments flags s') :
    ∀ p ∈ positions true segments flags (outputs.drop s.realSlots),
      p.2.ct1 ≠ [] ∧ p.2.ct2 ≠ [] := by
  induction h with
  | nil s => simp [positions]
  | skip nonempty why rest ih =>
    rw [positions, List.drop_drop]
    simpa [PlanState.skipped] using ih
  | settle nonempty free anchored slots rest ih =>
    rw [(planSlots_ok slots).realSlots_eq, ← List.drop_drop] at ih
    have carried := planSlots_nonempty slots
    rw [positions, if_pos rfl, List.forall_mem_append]
    exact ⟨carried, ih⟩

end

/-! ## What a settlement publishes -/

/-- A position that carries both ciphertexts of its slot. -/
structure Carried (H : Poseidon2) (slot : RealSlot) (output : ShieldedOutput) : Prop where
  nonempty₁ : output.ct1 ≠ []
  nonempty₂ : output.ct2 ≠ []
  exact₁ : ExactCiphertext output.ct1
  exact₂ : ExactCiphertext output.ct2
  digest_eq : ctDigest H [output.ct1, output.ct2] = slot.ctDigest

section

variable {H : Poseidon2} {cfg : Config} {c : Chain} {bundle : SettlementBundle}
  {outputs : List ShieldedOutput} {plan : PlannedSettlement}

/-- An output of a checked settlement, at any position: nothing, or what its slot committed to. -/
theorem empty_or_carried (hcheck : checkSettlement H cfg c bundle outputs = .ok plan)
    {p : RealSlot × ShieldedOutput} (hp : p ∈ bundle.realSlots.zip outputs) :
    p.2.isEmpty = true ∨ Carried H p.1 p.2 := by
  have planned := checkSettlement_ok hcheck
  obtain ⟨hplan, hbind⟩ := checkSettlement_ok_iff.1 hcheck
  obtain ⟨-, -, hexact, -⟩ := walk_of_plan hplan
  have lengths := ensureExactOutput_ok.1 (forM_ok_iff.1 hexact p.2 (List.of_mem_zip hp).2)
  have bound := (bindPayload_ok_iff planned.outputs_length.ge).1 hbind p hp
  rcases lengths with hempty | ⟨exact₁, exact₂⟩
  · exact .inl hempty
  · rcases bound with hempty | hdigest
    · exact .inl hempty
    · exact .inr ⟨exact₁.ne_nil, exact₂.ne_nil, exact₁, exact₂, hdigest⟩

theorem settling_carried (hcheck : checkSettlement H cfg c bundle outputs = .ok plan)
    {p : RealSlot × ShieldedOutput}
    (hp : p ∈ positions true bundle.segments plan.settles outputs) : Carried H p.1 p.2 := by
  have planned := checkSettlement_ok hcheck
  have mem := (mem_zip_iff_positions planned.length_eq outputs p).2 (.inl hp)
  rcases empty_or_carried hcheck mem with hempty | carried
  · -- The walk refuses a settling position without bytes.
    obtain ⟨s, walk, -, -⟩ := walk_of_plan (checkSettlement_ok_iff.1 hcheck).1
    have present := (walk.nonempty p hp).1
    simp only [ShieldedOutput.isEmpty, Bool.and_eq_true, List.isEmpty_iff] at hempty
    exact absurd hempty.1 present
  · exact carried

end

/-! ## The preimage of a digest -/

theorem u32LeBytes_inj {a b : ℕ} (ha : a ≤ u32Max) (hb : b ≤ u32Max)
    (h : u32LeBytes a = u32LeBytes b) : a = b := by
  have byte : ∀ k, k < 4 → (a >>> (8 * k)) % 256 = (b >>> (8 * k)) % 256 := by
    intro k hk
    have := List.map_inj_left.1 h k (List.mem_range.2 hk)
    simpa using congrArg UInt8.toNat this
  have max : u32Max = 4294967295 := by decide
  have b0 := byte 0 (by omega)
  have b1 := byte 1 (by omega)
  have b2 := byte 2 (by omega)
  have b3 := byte 3 (by omega)
  simp only [Nat.shiftRight_eq_div_pow] at b0 b1 b2 b3
  omega

@[simp] theorem length_u32LeBytes (n : ℕ) : (u32LeBytes n).length = 4 := by
  simp [u32LeBytes]

/-- **The framing is unambiguous**: every string stands behind its length. -/
theorem ctPreimage_injOn : Set.InjOn ctPreimage
    {cts | cts.length ≤ u32Max ∧ ∀ ct ∈ cts, ct.length ≤ u32Max} := by
  -- Past the counts it remains to read off frame by frame.
  have frames : ∀ a b : List (List UInt8), a.length = b.length →
      (∀ ct ∈ a, ct.length ≤ u32Max) → (∀ ct ∈ b, ct.length ≤ u32Max) →
      (a.flatMap fun ct => u32LeBytes ct.length ++ ct) =
        (b.flatMap fun ct => u32LeBytes ct.length ++ ct) → a = b := by
    intro a
    induction a with
    | nil =>
      intro b hlen _ _ _
      exact (List.length_eq_zero_iff.1 hlen.symm).symm
    | cons x a ih =>
      intro b hlen ha hb h
      obtain _ | ⟨y, b⟩ := b
      · cases hlen
      rw [List.forall_mem_cons] at ha hb
      simp only [List.flatMap_cons, List.append_assoc] at h
      obtain ⟨hcount, hrest⟩ := List.append_inj h (by simp)
      obtain ⟨rfl, htail⟩ := List.append_inj hrest (u32LeBytes_inj ha.1 hb.1 hcount)
      rw [ih b (Nat.succ_inj.1 hlen) ha.2 hb.2 htail]
  rintro a ⟨ha, hat⟩ b ⟨hb, hbt⟩ h
  unfold ctPreimage at h
  rw [List.append_assoc, List.append_assoc] at h
  obtain ⟨hcount, h⟩ := List.append_inj (List.append_cancel_left h) (by simp)
  exact frames a b (u32LeBytes_inj ha hb hcount) hat hbt h

/-- The byte sponge is the field sponge over an injective packing of the bytes. -/
structure BytePacking (H : Poseidon2) : Prop where
  hashBytes_eq : ∀ bytes, H.hashBytes bytes = H.hashToFelts (H.bytesToFelts bytes)
  injective : Function.Injective H.bytesToFelts

/-- **A digest has one preimage** among the lists the hash does not collide on. -/
theorem ctDigest_inj {H : Poseidon2} {Q : Set (List Felt)} (hH : Set.InjOn H.hashToFelts Q)
    (packing : BytePacking H) {a b : List (List UInt8)}
    (ha : a.length ≤ u32Max ∧ ∀ ct ∈ a, ct.length ≤ u32Max)
    (hb : b.length ≤ u32Max ∧ ∀ ct ∈ b, ct.length ≤ u32Max)
    (haQ : H.bytesToFelts (ctPreimage a) ∈ Q) (hbQ : H.bytesToFelts (ctPreimage b) ∈ Q)
    (h : ctDigest H a = ctDigest H b) : a = b := by
  have same : H.hashBytes (ctPreimage a) = H.hashBytes (ctPreimage b) := digestBytes_injective h
  rw [packing.hashBytes_eq, packing.hashBytes_eq] at same
  exact ctPreimage_injOn ha hb (packing.injective (hH haQ hbQ same))

/-- **Every published leaf is bound to its payload.** In a settlement that goes through, both
ciphertexts of a settling slot are there, have the length of their suite and hash to the digest the
proof published; a skipped slot's position carries the same or nothing; and there is one position
per real slot. Where the hash does not collide, no other pair fits the proof. -/
theorem settled_payload_bound (H : Poseidon2) (cfg : Config) (c c' : Chain)
    (bundle : SettlementBundle) (outputs : List ShieldedOutput)
    (accepted : exec (settle H cfg bundle outputs) c = (.ok (), c')) :
    ∃ plan, checkSettlement H cfg c bundle outputs = .ok plan ∧
      outputs.length = bundle.realSlots.length ∧
      (positions true bundle.segments plan.settles outputs).map Prod.fst =
        writtenSlots bundle.segments plan.settles ∧
      (∀ p ∈ positions true bundle.segments plan.settles outputs, Carried H p.1 p.2 ∧
        ∀ Q : Set (List Felt), Set.InjOn H.hashToFelts Q → BytePacking H →
          ∀ ct₁ ct₂ : List UInt8, ct₁.length ≤ u32Max → ct₂.length ≤ u32Max →
            H.bytesToFelts (ctPreimage [p.2.ct1, p.2.ct2]) ∈ Q →
            H.bytesToFelts (ctPreimage [ct₁, ct₂]) ∈ Q →
            ctDigest H [ct₁, ct₂] = p.1.ctDigest → ct₁ = p.2.ct1 ∧ ct₂ = p.2.ct2) ∧
      ∀ p ∈ positions false bundle.segments plan.settles outputs,
        Carried H p.1 p.2 ∨ p.2.ct1 = [] ∧ p.2.ct2 = [] := by
  obtain ⟨plan, hcheck, -⟩ := exec_settle_ok accepted
  have planned := checkSettlement_ok hcheck
  refine ⟨plan, hcheck, planned.outputs_length,
    positions_fst planned.length_eq planned.outputs_length.ge, ?_, ?_⟩
  · intro p hp
    have carried := settling_carried hcheck hp
    refine ⟨carried, ?_⟩
    intro Q hH packing ct₁ ct₂ short₁ short₂ hin hin' hdigest
    have small : suite1CiphertextBytes ≤ u32Max := by decide
    have two : 2 ≤ u32Max := by decide
    have pair : [ct₁, ct₂] = [p.2.ct1, p.2.ct2] := by
      refine ctDigest_inj hH packing ⟨two, by simp [short₁, short₂]⟩ ⟨two, ?_⟩ hin' hin
        (hdigest.trans carried.digest_eq.symm)
      simp [carried.exact₁.length_eq, carried.exact₂.length_eq, small]
    simpa using pair
  · intro p hp
    have mem := (mem_zip_iff_positions planned.length_eq outputs p).2 (.inr hp)
    rcases empty_or_carried hcheck mem with hempty | carried
    · right
      simpa [ShieldedOutput.isEmpty] using hempty
    · exact .inl carried

/-! ## One bound payload

A sponge that packs a byte per element, and a slot that committed to the sample ciphertexts.
-/

namespace Sample

def packedSponge : Poseidon2 where
  hashToFelts input := ![1, (input.length : Felt), 0, 0]
  bytesToFelts bytes := bytes.map fun b => (b.toNat : Felt)
  hashBytes bytes := ![1, ((bytes.map fun b => (b.toNat : Felt)).length : Felt), 0, 0]

theorem bytePacking_packedSponge : BytePacking packedSponge where
  hashBytes_eq _ := rfl
  injective := by
    refine List.map_injective_iff.2 fun a b h => UInt8.toNat_inj.1 ?_
    have small : ∀ x : UInt8, x.toNat < goldilocks := fun x =>
      lt_trans x.toNat_lt (by decide)
    have := congrArg ZMod.val h
    rwa [ZMod.val_natCast_of_lt (small a), ZMod.val_natCast_of_lt (small b)] at this

def packedSlot : RealSlot :=
  { RealSlot.ofSlot spend.slot with ctDigest := ctDigest packedSponge [ciphertext, ciphertext] }

def packedBundle : SettlementBundle := ⟨[⟨digestBytes spend.blockHash, 1, [packedSlot]⟩]⟩

theorem check_packed : checkSettlement packedSponge runtime settling packedBundle outputsOf =
    .ok ⟨10, 1, 0, 3584, [true]⟩ := by
  have plan : planSettlement runtime settling packedBundle outputsOf =
      .ok ⟨10, 1, 0, 3584, [true]⟩ := by decide +kernel
  have bind : bindPayload packedSponge packedBundle outputsOf = .ok () := by
    refine (bindPayload_ok_iff le_rfl).2 ?_
    intro p hp
    obtain rfl := List.mem_singleton.1 hp
    exact .inr rfl
  exact checkSettlement_ok_iff.2 ⟨plan, bind⟩

theorem settle_packed : ∃ c', exec (settle packedSponge runtime packedBundle outputsOf) settling =
    (.ok (), c') := by
  refine ⟨_, exec_settle check_packed ?_⟩
  intro slot hslot i
  obtain rfl := List.mem_singleton.1 hslot
  exact canonical_digestBytes _

theorem length_ciphertext : ciphertext.length = 1792 := by
  rw [ciphertext, List.length_cons, List.length_cons, List.length_replicate]

/-- The preimages of the sample pair and of an empty one. -/
def ctPreimages : Set (List Felt) :=
  {packedSponge.bytesToFelts (ctPreimage [ciphertext, ciphertext]),
    packedSponge.bytesToFelts (ctPreimage [[], []])}

theorem injOn_ctPreimages : Set.InjOn packedSponge.hashToFelts ctPreimages := by
  have framed : ∀ a b, (packedSponge.bytesToFelts (ctPreimage [a, b])).length =
      (a.length + b.length) + (packedSponge.bytesToFelts (ctPreimage [[], []])).length := by
    intro a b
    simp only [packedSponge, ctPreimage, List.length_map, List.length_append, length_u32LeBytes,
      List.flatMap_cons, List.flatMap_nil, List.length_nil]
    omega
  refine Set.injOn_pair.2 fun h => ?_
  -- The hash keeps the length, and the two lengths differ by 3584.
  have same : ((packedSponge.bytesToFelts (ctPreimage [ciphertext, ciphertext])).length : Felt) =
      ((packedSponge.bytesToFelts (ctPreimage [[], []])).length : Felt) := congrFun h 1
  rw [framed, length_ciphertext, Nat.cast_add, add_eq_right] at same
  exact absurd same (by decide)

end Sample

theorem settled_payload_bound_sample :
    Carried Sample.packedSponge Sample.packedSlot ⟨Sample.ciphertext, Sample.ciphertext⟩ ∧
      ctDigest Sample.packedSponge [[], []] ≠ Sample.packedSlot.ctDigest := by
  obtain ⟨c', accepted⟩ := Sample.settle_packed
  obtain ⟨plan, hcheck, -, -, settling, -⟩ := settled_payload_bound Sample.packedSponge runtime
    Sample.settling c' Sample.packedBundle Sample.outputsOf accepted
  rw [Sample.check_packed] at hcheck
  obtain rfl := Except.ok.inj hcheck
  obtain ⟨carried, unique⟩ := settling (Sample.packedSlot, ⟨Sample.ciphertext, Sample.ciphertext⟩)
    List.mem_cons_self
  refine ⟨carried, fun same => ?_⟩
  have pair := unique Sample.ctPreimages Sample.injOn_ctPreimages Sample.bytePacking_packedSponge [] []
    (Nat.zero_le _) (Nat.zero_le _) (.inl rfl) (.inr rfl) same
  exact carried.nonempty₁ pair.1.symm

end Qnero
