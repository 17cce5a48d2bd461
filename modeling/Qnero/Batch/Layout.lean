import Qnero.Leaf.Header
import Mathlib.Data.List.GetD

/-!
# Batch layouts and the verifier's parsers

A private batch publishes one anchor and 21 elements per slot; a public batch publishes an address
and one private-batch vector per inner proof. The circuits write these vectors front to back, the
verifier reads them by computed offsets. `parsePrivate_toFelts` and `parsePublic_flatten` say that
the offsets are right: parsing what was written returns it.
-/

namespace Qnero

open Plonkish

/-! ## Offsets -/

def digestFelts : ℕ := 4

def maxProofCount : ℕ := 64

def blockHashStart : ℕ := 0

def blockNumberIndex : ℕ := blockHashStart + digestFelts

def headerLen : ℕ := blockNumberIndex + 1

def slotNullifierStart : ℕ := 0

def slotCommitmentStart : ℕ := slotNullifierStart + 2 * digestFelts

def slotFeeOffset : ℕ := slotCommitmentStart + 2 * digestFelts

def slotCtDigestStart : ℕ := slotFeeOffset + 1

def slotLen : ℕ := slotCtDigestStart + digestFelts

def slotStart (slot : ℕ) : ℕ := headerLen + slot * slotLen

def slotNullifierIndex (slot i : ℕ) : ℕ := slotStart slot + slotNullifierStart + i * digestFelts

def slotCommitmentIndex (slot j : ℕ) : ℕ := slotStart slot + slotCommitmentStart + j * digestFelts

def slotFeeIndex (slot : ℕ) : ℕ := slotStart slot + slotFeeOffset

def slotCtDigestIndex (slot : ℕ) : ℕ := slotStart slot + slotCtDigestStart

def privateBatchPiLen (numLeaves : ℕ) : ℕ := headerLen + numLeaves * slotLen

def aggregatorAddressStart : ℕ := 0

def publicBatchHeaderLen : ℕ := aggregatorAddressStart + digestFelts

def publicBatchInnerStart (inner numLeaves : ℕ) : ℕ :=
  publicBatchHeaderLen + inner * privateBatchPiLen numLeaves

def publicBatchPiLen (numInner numLeaves : ℕ) : ℕ :=
  publicBatchHeaderLen + numInner * privateBatchPiLen numLeaves

/-! Offsets into a leaf's own 26 elements. -/

def nullifierStart : ℕ := blockNumberIndex + 1

def commitmentStart : ℕ := nullifierStart + 2 * digestFelts

def feeIndex : ℕ := commitmentStart + 2 * digestFelts

def ctDigestStart : ℕ := feeIndex + 1

def nullifierIndex (i : ℕ) : ℕ := nullifierStart + i * digestFelts

def commitmentIndex (j : ℕ) : ℕ := commitmentStart + j * digestFelts

/-- Supported sizes of a batch. -/
def validateProofCount (count : ℕ) : Bool := decide (0 < count ∧ count ≤ maxProofCount)

/-! ## Parsed public inputs -/

/-- Four consecutive elements. -/
def digestAt (pis : List Felt) (start : ℕ) : Digest := fun i => pis.getD (start + i) 0

@[ext] structure BatchLeafSlot where
  nullifiers : Fin 2 → Digest
  commitments : Fin 2 → Digest
  fee : Felt
  ctDigest : Digest

@[ext] structure PrivateBatchPublicInputs where
  blockHash : Digest
  blockNumber : Felt
  slots : List BatchLeafSlot

structure PublicBatchPublicInputs where
  aggregatorAddress : Digest
  batches : List PrivateBatchPublicInputs

/-- Both commitments are zero. -/
def BatchLeafSlot.isPadding (slot : BatchLeafSlot) : Bool :=
  decide (∀ i limb, (slot.commitments i limb).val = 0)

/-- The batch carries the padding sentinel. -/
def PrivateBatchPublicInputs.isPadding (inputs : PrivateBatchPublicInputs) : Bool :=
  decide (∀ limb, (inputs.blockHash limb).val = (paddingBlockHash limb).val)

/-- The segments a chain settles. -/
def PublicBatchPublicInputs.settleableBatches (inputs : PublicBatchPublicInputs) :
    List PrivateBatchPublicInputs :=
  inputs.batches.filter fun batch => !batch.isPadding

def slotAt (pis : List Felt) (slot : ℕ) : BatchLeafSlot where
  nullifiers i := digestAt pis (slotNullifierIndex slot i)
  commitments j := digestAt pis (slotCommitmentIndex slot j)
  fee := pis.getD (slotFeeIndex slot) 0
  ctDigest := digestAt pis (slotCtDigestIndex slot)

/-- The fields of a private-batch vector of the right length. -/
def readPrivateBatch (pis : List Felt) (numLeaves : ℕ) : PrivateBatchPublicInputs where
  blockHash := digestAt pis blockHashStart
  blockNumber := pis.getD blockNumberIndex 0
  slots := (List.range numLeaves).map (slotAt pis)

def parsePrivateBatchPublicInputFelts (pis : List Felt) (numLeaves : ℕ) :
    Except String PrivateBatchPublicInputs :=
  let found := pis.length
  let expected := privateBatchPiLen numLeaves
  if ¬ validateProofCount numLeaves then
    .error s!"a private batch of {numLeaves} leaves is outside the supported range"
  else if found ≠ expected then
    .error (s!"the private-batch proof has {found} public inputs, " ++
      s!"expected {expected} for {numLeaves} leaves")
  else
    .ok (readPrivateBatch pis numLeaves)

def parsePublicBatchPublicInputFelts (pis : List Felt) (numInner numLeaves : ℕ) :
    Except String PublicBatchPublicInputs :=
  let found := pis.length
  let expected := publicBatchPiLen numInner numLeaves
  if ¬ (validateProofCount numInner ∧ validateProofCount numLeaves) then
    .error (s!"a public batch of {numInner} inner proofs over {numLeaves} leaves " ++
      "is outside the supported range")
  else if found ≠ expected then
    .error (s!"the public-batch proof has {found} public inputs, " ++
      s!"expected {expected} for {numInner} inner proofs over {numLeaves} leaves")
  else do
    let batches ← (List.range numInner).mapM fun inner =>
      let start := publicBatchInnerStart inner numLeaves
      parsePrivateBatchPublicInputFelts ((pis.drop start).take (privateBatchPiLen numLeaves))
        numLeaves
    pure ⟨digestAt pis aggregatorAddressStart, batches⟩

/-! ## The vectors, written front to back -/

def BatchLeafSlot.toFelts (slot : BatchLeafSlot) : List Felt :=
  felts (slot.nullifiers 0) ++ (felts (slot.nullifiers 1) ++
    (felts (slot.commitments 0) ++ (felts (slot.commitments 1) ++
      (slot.fee :: felts slot.ctDigest))))

def PrivateBatchPublicInputs.toFelts (inputs : PrivateBatchPublicInputs) : List Felt :=
  felts inputs.blockHash ++ (inputs.blockNumber :: inputs.slots.flatMap BatchLeafSlot.toFelts)

def PublicBatchPublicInputs.toFelts (inputs : PublicBatchPublicInputs) : List Felt :=
  felts inputs.aggregatorAddress ++ inputs.batches.flatMap PrivateBatchPublicInputs.toFelts

/-! ## Reading a vector that was written front to back -/

section Reading

variable {α β : Type}

theorem digestAt_drop (l : List Felt) (a b : ℕ) : digestAt (l.drop a) b = digestAt l (a + b) := by
  funext i
  simp [digestAt, Nat.add_assoc]

theorem getElem_felts (d : Digest) (i : ℕ) (h : i < (felts d).length) :
    (felts d)[i] = d ⟨i, by simpa using h⟩ :=
  List.getElem_ofFn _

@[simp] theorem digestAt_felts (d : Digest) (l : List Felt) : digestAt (felts d ++ l) 0 = d := by
  funext i
  have inside : i.val < (felts d).length := by simp
  rw [digestAt, Nat.zero_add, List.getD_eq_getElem?_getD, List.getElem?_append_left inside,
    List.getElem?_eq_getElem inside, Option.getD_some]
  exact getElem_felts d _ _

@[simp] theorem digestAt_felts_add (d : Digest) (l : List Felt) (n : ℕ) :
    digestAt (felts d ++ l) (n + 4) = digestAt l n := by
  rw [Nat.add_comm, ← digestAt_drop, List.drop_left' (length_felts d)]

@[simp] theorem digestAt_cons_add (x : Felt) (l : List Felt) (n : ℕ) :
    digestAt (x :: l) (n + 1) = digestAt l n := by
  rw [Nat.add_comm, ← digestAt_drop, List.drop_one, List.tail_cons]

@[simp] theorem getD_felts_add (d : Digest) (l : List Felt) (n : ℕ) :
    (felts d ++ l)[n + 4]? = l[n]? := by
  rw [List.getElem?_append_right (by simp)]
  simp

/-- Four elements read as a digest are those four elements. -/
theorem felts_digestAt {l : List Felt} {start : ℕ} (h : start + 4 ≤ l.length) :
    felts (digestAt l start) = (l.drop start).take 4 := by
  refine List.ext_getElem (by simp; omega) fun i hi _ => ?_
  have bound : start + i < l.length := by simp at hi; omega
  rw [List.getElem_take, List.getElem_drop, getElem_felts, digestAt, List.getD_eq_getElem?_getD,
    List.getElem?_eq_getElem bound, Option.getD_some]

variable {l : List β}

/-- Blocks of one length: dropping whole blocks drops elements of the list they came from. -/
theorem drop_flatMap {f : β → List α} {n : ℕ} (h : ∀ b ∈ l, (f b).length = n) (i : ℕ) :
    (l.flatMap f).drop (i * n) = (l.drop i).flatMap f := by
  induction i generalizing l with
  | zero => simp
  | succ i ih =>
    match l with
    | [] => simp
    | b :: l =>
      rw [List.forall_mem_cons] at h
      rw [List.flatMap_cons, List.drop_succ_cons, ← ih h.2, Nat.succ_mul, Nat.add_comm,
        ← List.drop_drop, List.drop_left' h.1]

/-- The blocks of a list, read one after the other, are the list. -/
theorem flatMap_range_block (l : List α) (n k : ℕ) :
    (List.range n).flatMap (fun i => (l.drop (i * k)).take k) = l.take (n * k) := by
  induction n with
  | zero => simp
  | succ n ih => simp [List.range_succ, ih, Nat.succ_mul, List.take_add]

theorem length_flatMap_block {f : β → List α} {n : ℕ} (h : ∀ b ∈ l, (f b).length = n) :
    (l.flatMap f).length = l.length * n := by
  rw [List.length_flatMap, List.map_congr_left h]
  simp

theorem mapM_eq_ok {ε : Type} {f : β → Except ε α} {g : β → α} (h : ∀ b ∈ l, f b = .ok (g b)) :
    l.mapM f = .ok (l.map g) := by
  induction l with
  | nil => rfl
  | cons b l ih =>
    rw [List.forall_mem_cons] at h
    rw [List.mapM_cons, h.1, ih h.2]
    rfl

end Reading

@[simp] theorem BatchLeafSlot.length_toFelts (slot : BatchLeafSlot) :
    slot.toFelts.length = slotLen := by
  simp [BatchLeafSlot.toFelts, slotLen, slotCtDigestStart, slotFeeOffset, slotCommitmentStart,
    slotNullifierStart, digestFelts]

@[simp] theorem PrivateBatchPublicInputs.length_toFelts (inputs : PrivateBatchPublicInputs) :
    inputs.toFelts.length = privateBatchPiLen inputs.slots.length := by
  simp [PrivateBatchPublicInputs.toFelts,
    length_flatMap_block (fun b _ => BatchLeafSlot.length_toFelts b),
    privateBatchPiLen, headerLen, blockNumberIndex, blockHashStart, digestFelts]
  omega

/-- A slot written at `slotStart slot` is the slot read there. -/
theorem slotAt_eq {pis rest : List Felt} {slot : ℕ} {s : BatchLeafSlot}
    (h : pis.drop (slotStart slot) = s.toFelts ++ rest) : slotAt pis slot = s := by
  have read : ∀ n, digestAt pis (slotStart slot + n) = digestAt (s.toFelts ++ rest) n := by
    intro n
    rw [← h, digestAt_drop]
  have readFee : pis[slotStart slot + 16]? = (s.toFelts ++ rest)[16]? := by
    rw [← h, List.getElem?_drop]
  ext1
  · funext i
    match i with
    | 0 => exact (read 0).trans (by simp [BatchLeafSlot.toFelts])
    | 1 => exact (read 4).trans (by simp [BatchLeafSlot.toFelts])
  · funext i
    match i with
    | 0 => exact (read 8).trans (by simp [BatchLeafSlot.toFelts])
    | 1 => exact (read 12).trans (by simp [BatchLeafSlot.toFelts])
  · show pis.getD (slotStart slot + 16) 0 = s.fee
    rw [List.getD_eq_getElem?_getD, readFee]
    simp [BatchLeafSlot.toFelts]
  · exact (read 17).trans (by simp [BatchLeafSlot.toFelts])

/-- **The offsets are right**: reading a written private batch returns it. -/
theorem readPrivateBatch_toFelts (inputs : PrivateBatchPublicInputs) :
    readPrivateBatch inputs.toFelts inputs.slots.length = inputs := by
  ext1
  · simp [readPrivateBatch, PrivateBatchPublicInputs.toFelts, blockHashStart]
  · simp [readPrivateBatch, PrivateBatchPublicInputs.toFelts, blockNumberIndex, blockHashStart,
      digestFelts]
  · refine List.ext_getElem (by simp [readPrivateBatch]) fun i _ hi => ?_
    simp only [readPrivateBatch, List.getElem_map, List.getElem_range]
    apply slotAt_eq
    -- Past the header the vector is the slots, all of one length.
    have header : inputs.toFelts.drop headerLen = inputs.slots.flatMap BatchLeafSlot.toFelts := by
      rw [PrivateBatchPublicInputs.toFelts, List.append_cons]
      exact List.drop_left' (by simp [headerLen, blockNumberIndex, blockHashStart, digestFelts])
    rw [slotStart, ← List.drop_drop, header, drop_flatMap fun b _ => b.length_toFelts,
      List.drop_eq_getElem_cons hi, List.flatMap_cons]

theorem parsePrivate_toFelts {inputs : PrivateBatchPublicInputs}
    (h : validateProofCount inputs.slots.length) :
    parsePrivateBatchPublicInputFelts inputs.toFelts inputs.slots.length = .ok inputs := by
  simp [parsePrivateBatchPublicInputFelts, h, readPrivateBatch_toFelts]

/-! The converse: what is read off a vector of the right length, written again, is the vector. -/

variable {pis : List Felt} {numLeaves : ℕ}

theorem toFelts_slotAt {slot : ℕ} (h : slotStart slot + slotLen ≤ pis.length) :
    (slotAt pis slot).toFelts = (pis.drop (slotStart slot)).take slotLen := by
  -- A slot is four digests, the fee and a fifth digest; cut both sides along them.
  have len : slotLen = 4 + (4 + (4 + (4 + (1 + 4)))) := rfl
  have bound : slotStart slot + 21 ≤ pis.length := h
  have fee : [pis.getD (slotFeeIndex slot) 0] = (pis.drop (slotStart slot + 16)).take 1 := by
    have inside : slotStart slot + 16 < pis.length := by omega
    rw [List.drop_eq_getElem_cons inside, List.take_succ_cons, List.take_zero]
    show [pis.getD (slotStart slot + 16) 0] = _
    rw [List.getD_eq_getElem _ _ inside]
  have digest : ∀ n, n + 4 ≤ 21 → felts (digestAt pis (slotStart slot + n)) =
      (pis.drop (slotStart slot + n)).take 4 := fun n hn => felts_digestAt (by omega)
  rw [len]
  simp only [List.take_add, List.drop_drop]
  rw [← digest 4 (by omega), ← digest 8 (by omega), ← digest 12 (by omega),
    ← digest 17 (by omega), ← fee]
  exact congrArg (· ++ _) (digest 0 (by omega))

theorem toFelts_readPrivateBatch (h : pis.length = privateBatchPiLen numLeaves) :
    (readPrivateBatch pis numLeaves).toFelts = pis := by
  -- The slots, written again, are everything past the header.
  have slots : ((List.range numLeaves).map (slotAt pis)).flatMap BatchLeafSlot.toFelts =
      pis.drop headerLen := by
    have block : ∀ slot ∈ List.range numLeaves, (slotAt pis slot).toFelts =
        ((pis.drop headerLen).drop (slot * slotLen)).take slotLen := by
      intro slot hslot
      rw [List.drop_drop]
      apply toFelts_slotAt
      have := Nat.mul_le_mul_right slotLen (Nat.succ_le_of_lt (List.mem_range.1 hslot))
      rw [h, slotStart, privateBatchPiLen]
      rw [Nat.succ_mul] at this
      omega
    rw [List.flatMap_map, List.flatMap_congr block, flatMap_range_block]
    apply List.take_of_length_le
    rw [List.length_drop, h, privateBatchPiLen]
    omega
  have long : headerLen ≤ pis.length := by rw [h, privateBatchPiLen]; omega
  have inside : 4 < pis.length := long
  show felts (digestAt pis 0) ++ (pis.getD 4 0 :: _) = pis
  rw [readPrivateBatch, slots, felts_digestAt (by omega), List.getD_eq_getElem _ _ inside]
  show (pis.drop 0).take 4 ++ (pis[4] :: pis.drop (4 + 1)) = pis
  rw [← List.drop_eq_getElem_cons inside, List.drop_zero, List.take_append_drop]

theorem parsePrivate_eq_ok (hn : validateProofCount numLeaves)
    (h : pis.length = privateBatchPiLen numLeaves) :
    parsePrivateBatchPublicInputFelts pis numLeaves = .ok (readPrivateBatch pis numLeaves) := by
  simp [parsePrivateBatchPublicInputFelts, hn, h]

/-- Parsing an address and inner vectors of the right length, written one after the other, reads
each of them. -/
theorem parsePublic_flatten {address : Digest} {inners : List (List Felt)}
    (hcount : validateProofCount inners.length) (hn : validateProofCount numLeaves)
    (hlen : ∀ pis ∈ inners, pis.length = privateBatchPiLen numLeaves) :
    parsePublicBatchPublicInputFelts (felts address ++ inners.flatten) inners.length numLeaves =
      .ok ⟨address, inners.map fun pis => readPrivateBatch pis numLeaves⟩ := by
  have total : (felts address ++ inners.flatten).length =
      publicBatchPiLen inners.length numLeaves := by
    rw [List.length_append, length_felts, ← List.flatMap_id', length_flatMap_block hlen]
    rfl
  -- Each window the parser cuts is one inner vector, so each inner parse succeeds.
  have slice : ∀ inner ∈ List.range inners.length,
      parsePrivateBatchPublicInputFelts (((felts address ++ inners.flatten).drop
        (publicBatchInnerStart inner numLeaves)).take (privateBatchPiLen numLeaves)) numLeaves =
      .ok (readPrivateBatch (inners.getD inner []) numLeaves) := by
    intro inner hinner
    have inside := List.mem_range.1 hinner
    have mem := hlen _ (List.getElem_mem inside)
    have read : ((felts address ++ inners.flatten).drop
        (publicBatchInnerStart inner numLeaves)).take (privateBatchPiLen numLeaves) =
        inners[inner] := by
      have address_len : (felts address).length = publicBatchHeaderLen := length_felts _
      rw [publicBatchInnerStart, ← List.drop_drop, List.drop_left' address_len, ← List.flatMap_id',
        drop_flatMap hlen, List.drop_eq_getElem_cons inside, List.flatMap_cons]
      exact List.take_left' mem
    rw [read, List.getD_eq_getElem _ _ inside]
    exact parsePrivate_eq_ok hn mem
  have all : (List.range inners.length).map (fun inner =>
      readPrivateBatch (inners.getD inner []) numLeaves) =
      inners.map fun pis => readPrivateBatch pis numLeaves := by
    refine List.ext_getElem (by simp) fun i _ hi => ?_
    have inside : i < inners.length := by simpa using hi
    simp [List.getElem?_eq_getElem inside]
  rw [parsePublicBatchPublicInputFelts, if_neg (by simp [hcount, hn]),
    if_neg (by simpa using total), mapM_eq_ok slice, all, aggregatorAddressStart, digestAt_felts]
  rfl

end Qnero
