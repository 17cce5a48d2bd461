import Qnero.Leaf.Gadgets

/-!
# The header a leaf binds

A block hash is Poseidon2 of 45 field elements, and a leaf publishes the hash and proves a
preimage. The preimage has a fixed layout, so whoever knows that the sponge does not collide reads
`zk_tree_root` off a block hash; `headerPreimage_inj` is that step.

The padding sentinel is the hash of one fixed preimage whose `zk_tree_root` is zero, the root of
the empty tree. It stands in the circuit as four constants; that they are that hash is pinned by a
test of the source and enters here as the hypothesis `PaddingPinned`.
-/

namespace Qnero

open Plonkish Builder

variable {Q : Set (List Felt)}

/-- The committed fields of a header, in the chain's order. -/
def headerPreimage (parentHash : Digest) (blockNumber : Felt)
    (stateRoot extrinsicsRoot zkTreeRoot : Digest) (digest : List Felt) : List Felt :=
  felts parentHash ++ (blockNumber ::
    (felts stateRoot ++ (felts extrinsicsRoot ++ (felts zkTreeRoot ++ digest))))

theorem headerPreimage_inj {p p' s s' e e' z z' : Digest} {n n' : Felt} {d d' : List Felt} :
    headerPreimage p n s e z d = headerPreimage p' n' s' e' z' d' ↔
      p = p' ∧ n = n' ∧ s = s' ∧ e = e' ∧ z = z' ∧ d = d' := by
  simp [headerPreimage]

/-- Bytes of digest logs carried by a header. -/
def digestLogsSize : ℕ := 110

structure HeaderTargets where
  parentHash : Digest
  /-- The wire of the public block number. -/
  blockNumber : Felt
  stateRoot : Digest
  extrinsicsRoot : Digest
  zkTreeRoot : Digest
  digest : Fin 28 → Felt

def HeaderTargets.preimage (header : HeaderTargets) : List Felt :=
  headerPreimage header.parentHash header.blockNumber header.stateRoot header.extrinsicsRoot
    header.zkTreeRoot (List.ofFn header.digest)

section

variable (H : Poseidon2)

/-- `block_hash == Poseidon2(header preimage)`, and the block number fits 32 bits. -/
def constrainHeader (blockHash : Digest) (header : HeaderTargets) : Wires Unit := do
  rangeCheck header.blockNumber 32
  let computed ← hash H.hashToFelts header.preimage
  connectArrays blockHash computed

@[simp] theorem holds_constrainHeader (blockHash : Digest) (header : HeaderTargets) :
    (constrainHeader H blockHash header).Holds Q ↔ header.blockNumber.val < 2 ^ 32 ∧
      header.preimage ∈ Q ∧ blockHash = H.hashToFelts header.preimage := by
  simp [constrainHeader]

/-! ## Padding -/

def paddingBlockNumber : ℕ := 0

/-- The sentinel, as the circuit constants. -/
def paddingBlockHash : Digest :=
  ![0x2a7010a968e4b434, 0x2eeda5104a12c6e5, 0xbba8fa909e36ea2e, 0x6992931530e84452]

def paddingParentHashDomain : String := "qnero/padding-header"

/-- The preimage of `padding_header()`: a fixed parent, and every other field zero. -/
def paddingPreimage : List Felt :=
  headerPreimage (H.hashBytes paddingParentHashDomain.toUTF8.toList) (paddingBlockNumber : Felt)
    0 0 0 (H.bytesToFelts (List.replicate digestLogsSize 0))

/-- The pinned vector: the sentinel is the hash of the padding header. -/
def PaddingPinned : Prop := H.hashToFelts (paddingPreimage H) = paddingBlockHash

end

/-- Is this the sentinel? Derived from the public block hash, never witnessed. -/
def isPaddingBlockHash (blockHash : Digest) : Wires Felt :=
  digestsAreEqual blockHash paddingBlockHash

@[simp] theorem isPaddingBlockHash_value (blockHash : Digest) :
    (isPaddingBlockHash blockHash).value = ofBool (decide (blockHash = paddingBlockHash)) := by
  simp [isPaddingBlockHash]

@[simp] theorem holds_isPaddingBlockHash (blockHash : Digest) :
    (isPaddingBlockHash blockHash).Holds Q := by
  simp [isPaddingBlockHash]

theorem paddingBlockHash_ne_zero : paddingBlockHash ≠ 0 := by
  intro h
  have := congrFun h 0
  revert this
  decide

variable {H : Poseidon2}

/-- **The sentinel commits to the empty tree.** A header that hashes to it is the padding header,
so its tree root is zero. -/
theorem zkTreeRoot_of_padding (hH : CollisionFree H.hashToFelts Q) (hpin : PaddingPinned H)
    (hpad : paddingPreimage H ∈ Q) {header : HeaderTargets} (hin : header.preimage ∈ Q)
    (h : H.hashToFelts header.preimage = paddingBlockHash) : header.zkTreeRoot = 0 := by
  have same : header.preimage = paddingPreimage H := hH.inj hin hpad (h.trans hpin.symm)
  exact (headerPreimage_inj.1 same).2.2.2.2.1

/-! ## A small sponge

For worked examples: a polynomial digest next to the length and the first element. It is far from
collision free, but on a handful of lists that can be checked by evaluation.
-/

def sampleSponge : Poseidon2 where
  hashToFelts input :=
    if input = List.replicate 45 0 then paddingBlockHash
    else ![1, (input.length : Felt), input.headD 0, input.foldl (fun acc x => acc * 7 + x) 0]
  hashBytes _ := 0
  bytesToFelts _ := List.replicate 28 0

theorem paddingPreimage_sampleSponge : paddingPreimage sampleSponge = List.replicate 45 0 := by
  decide +kernel

theorem paddingPinned_sampleSponge : PaddingPinned sampleSponge := by
  rw [PaddingPinned, paddingPreimage_sampleSponge]
  simp only [sampleSponge, if_true]

theorem sampleSponge_ne_zero (input : List Felt) : sampleSponge.hashToFelts input ≠ 0 := by
  by_cases h : input = List.replicate 45 0
  · simp only [sampleSponge, h, if_true]
    exact paddingBlockHash_ne_zero
  · intro hz
    have := congrFun hz 0
    simp only [sampleSponge, if_neg h] at this
    exact one_ne_zero this

/-- On finitely many lists, collision freedom is a computation. -/
theorem collisionFree_sampleSponge {lists : List (List Felt)}
    (h : ∀ x ∈ lists, ∀ y ∈ lists,
      sampleSponge.hashToFelts x = sampleSponge.hashToFelts y → x = y) :
    CollisionFree sampleSponge.hashToFelts {x | x ∈ lists} where
  injOn x hx y hy := h x hx y hy
  ne_zero x _ := sampleSponge_ne_zero x

end Qnero
