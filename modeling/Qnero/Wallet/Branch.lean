import Qnero.Wallet.Mined
import Qnero.Wallet.Record

/-!
# What an honest node serves

A `Branch` is a chain as a sync sees it through a node that answers truthfully: headers and bodies by
height, leaves by index, and what the state at the head says. Every mined chain is one
(`World.branch`), and branches with one hash at one height agree up to it (`World.bound`).
-/

namespace Qnero

open Plonkish

/-- A chain up to its head. A leaf is dated to the height it was added at. -/
structure Branch where
  head : ℕ
  hash : ℕ → Hash256
  header : ℕ → RawHeader
  /-- The leaves there are at a height. -/
  count : ℕ → ℕ
  record : ℕ → LeafRecord
  body : ℕ → List (List UInt8)
  settled : Finset Hash256
  entries : ℕ
  count_zero : count 0 = 0
  count_mono : Monotone count
  index_eq : ∀ i, (record i).index = i
  dated : ∀ i, i < count head → ∃ d, (record i).blockNumber = some d ∧ ∀ k, d ≤ k ↔ i < count k

namespace Branch

/-- The answers of a node at the head of the branch. -/
def node (C : Branch) : Node where
  storageKnown := true
  genesisHash := some (C.hash 0)
  head := some ⟨C.head, C.hash C.head⟩
  stanceHash k := some (if k ≤ C.head then some (C.hash k) else none)
  leafCount := some (some (C.count C.head))
  usedNullifiers := some C.settled
  entryCount := some (some C.entries)
  leafHash i := some (C.record i).commitment
  chunk top :=
    { topHash := if top ≤ C.head then some (C.hash top) else none
      hashAt := fun k => some (if k ≤ C.head then some (C.hash k) else none)
      header := fun k => if k ≤ C.head then some (C.header k) else none
      leaf := fun i => some
        ⟨(C.record i).commitment, (C.record i).blockNumber, (C.record i).coinbaseValue⟩
      body := fun k => if k ≤ C.head then some (C.body k) else none
      -- Every text starts with `0x`.
      bodySize := fun k => ((C.body k).map fun extrinsic => extrinsic.length + 1).sum }

/-- The branches are the same up to a height. -/
structure Agree (C C' : Branch) (k : ℕ) : Prop where
  hash_eq : ∀ j, j ≤ k → C.hash j = C'.hash j
  count_eq : ∀ j, j ≤ k → C.count j = C'.count j
  body_eq : ∀ j, j ≤ k → C.body j = C'.body j
  record_eq : ∀ i, i < C.count k → C.record i = C'.record i

/-- One genesis block, and one hash at one height is one branch up to it. -/
structure Bound (served : Set Branch) : Prop where
  genesis_eq : ∀ C ∈ served, ∀ C' ∈ served, C.hash 0 = C'.hash 0
  agree : ∀ C ∈ served, ∀ C' ∈ served, ∀ k, k ≤ C.head → k ≤ C'.head → C.hash k = C'.hash k →
    C.Agree C' k

/-- The commitment is a leaf's. -/
def Holds (C : Branch) (i : ℕ) (c : Digest) : Prop :=
  i < C.count C.head ∧ (C.record i).commitment = some (digestBytes c)

end Branch

/-! ## Mined chains are branches -/

namespace World

variable {w : World} {info : CallInfo} {blocks blocks' : List MinedBlock}

/-- The body at a height. -/
def bodyAt (blocks : List MinedBlock) : ℕ → List (List UInt8)
  | 0 => []
  | k + 1 => ((blocks[k]?).map MinedBlock.body).getD []

/-- A mined chain, as it is served at its head. -/
def branch (w : World) {info : CallInfo} {blocks : List MinedBlock} (valid : Valid info blocks) :
    Branch where
  head := blocks.length
  hash := w.hashAt blocks
  header := w.headerAt blocks
  count := w.countAt blocks
  record := (w.grow blocks).leafRecord
  body := bodyAt blocks
  settled := (w.grow blocks).usedNullifiers
  entries := (w.grow blocks).entryCount
  count_zero := countAt_zero
  count_mono := countAt_mono valid
  index_eq _ := rfl
  dated _ hi := leafBlocks_grow valid hi

/-- The branches that are served. -/
def branches (w : World) (info : CallInfo) (served : Set (List MinedBlock)) : Set Branch :=
  {C | ∃ blocks ∈ served, ∃ valid : Valid info blocks, C = w.branch valid}

variable {served : Set (List MinedBlock)} {k : ℕ}

/-- The states at a height that two chains share. -/
theorem grow_take_eq (binding : w.Binding served) (mem : blocks ∈ served) (mem' : blocks' ∈ served)
    (valid : Valid info blocks) (valid' : Valid info blocks') (hk : k ≤ blocks.length)
    (hk' : k ≤ blocks'.length) (same : w.hashAt blocks k = w.hashAt blocks' k) :
    w.countAt blocks k = w.countAt blocks' k ∧
      (∀ i, (w.grow (blocks.take k)).leafRecord i = (w.grow (blocks'.take k)).leafRecord i) ∧
      bodyAt blocks k = bodyAt blocks' k := by
  cases k with
  | zero => exact ⟨countAt_zero.trans countAt_zero.symm, fun _ => rfl, rfl⟩
  | succ k =>
    obtain ⟨-, state, body⟩ := same_step binding mem mem' valid valid' hk hk' same
    have here : blocks[k]? = some blocks[k] := List.getElem?_eq_getElem hk
    have here' : blocks'[k]? = some blocks'[k] := List.getElem?_eq_getElem hk'
    obtain ⟨records, count, -⟩ := grow_succ (w := w) valid here
    obtain ⟨records', count', -⟩ := grow_succ (w := w) valid' here'
    refine ⟨?_, fun i => ?_, ?_⟩
    · rw [count, count', state]
    · rw [records, records', state]
    · rw [bodyAt, bodyAt, here, here']
      exact body

/-- **Mined chains with one hash at one height agree up to it.** -/
theorem bound (binding : w.Binding served) :
    Branch.Bound (w.branches info served) where
  genesis_eq := by
    rintro _ ⟨blocks, -, valid, rfl⟩ _ ⟨blocks', -, valid', rfl⟩
    rfl
  agree := by
    rintro _ ⟨blocks, mem, valid, rfl⟩ _ ⟨blocks', mem', valid', rfl⟩ k hk hk' same
    have below := fun j (hj : j ≤ k) => same_below binding mem mem' valid valid' hk hk' same hj
    have states := fun j (hj : j ≤ k) => grow_take_eq binding mem mem' valid valid'
      (le_trans hj hk) (le_trans hj hk') (below j hj)
    refine ⟨below, fun j hj => (states j hj).1, fun j hj => (states j hj).2.2, fun i hi => ?_⟩
    obtain ⟨count, records, -⟩ := states k le_rfl
    exact (leafRecord_grow valid hk hi).trans
      ((records i).trans (leafRecord_grow valid' hk' (count ▸ hi)).symm)

end World

/-! ## Runs of syncs -/

/-- An ordinary sync against the branch, with its file written. -/
def Wallet.Syncs (W : Wallet) (C : Branch) (store after : WalletStore) : Prop :=
  ∃ report, exec (W.syncWith C.node ⟨false⟩ true) store = (.ok report, after)

theorem Wallet.syncs_of_isOk {W : Wallet} {C : Branch} {store : WalletStore}
    (ok : (exec (W.syncWith C.node ⟨false⟩ true) store).1.isOk = true) :
    W.Syncs C store (exec (W.syncWith C.node ⟨false⟩ true) store).2 := by
  cases ran : (exec (W.syncWith C.node ⟨false⟩ true) store).1 with
  | error e =>
    rw [ran] at ok
    cases ok
  | ok report => exact ⟨report, Prod.ext ran rfl⟩

/-- Syncs one after the other, each where it is allowed, and the branch of the last one. -/
inductive SyncRun (W : Wallet) (Allowed : WalletStore → Branch → Prop) (start : WalletStore) :
    List Branch → WalletStore → Prop where
  | nil : SyncRun W Allowed start [] start
  | snoc {branches : List Branch} {store after : WalletStore} {C : Branch}
      (run : SyncRun W Allowed start branches store) (allowed : Allowed store C)
      (syncs : W.Syncs C store after) : SyncRun W Allowed start (branches ++ [C]) after

end Qnero
