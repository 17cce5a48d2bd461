import Qnero.Chain.Rewards
import Qnero.Leaf.Header

/-!
# Runs of the chain

Everything that moves value, as operations on one state: transaction fees, the calls of the
shielded pallet, and the end of a block, which pays the reward, folds the tree and opens the next
block. A call that fails leaves no trace, by the storage layer around every dispatch.

`dispatch_cases` says once what an operation that succeeds has done; every invariant of a run is
proved from it by cases.
-/

namespace Qnero

open Plonkish Machine

/-! ## Headers -/

/-- A block header. The digest stands in its encoding. -/
structure Header where
  parentHash : Hash256
  number : ℕ
  stateRoot : Hash256
  extrinsicsRoot : Hash256
  zkTreeRoot : Hash256
  digest : List UInt8

/-- The digest logs, cut or padded to the window the hash commits to. -/
def digestWindow (digest : List UInt8) : List UInt8 :=
  (digest ++ List.replicate digestLogsSize 0).take digestLogsSize

section

variable (H : Poseidon2)

def Header.preimage (header : Header) : List Felt :=
  headerPreimage (bytesToDigestLossy header.parentHash) (header.number : Felt)
    (bytesToDigestLossy header.stateRoot) (bytesToDigestLossy header.extrinsicsRoot)
    (bytesToDigestLossy header.zkTreeRoot) (H.bytesToFelts (digestWindow header.digest))

def Header.hash (header : Header) : Hash256 := H.hashToBytes (header.preimage H)

end

/-! ## Operations -/

/-- What a block end takes from outside the runtime: the two trie roots, the digest of this block,
and whether the next block's digest names an author. -/
structure Environment where
  stateRoot : Hash256
  extrinsicsRoot : Hash256
  digest : List UInt8
  nextHasAuthor : Bool

inductive Op where
  | collectFee (who : AccountId) (fee : ℕ)
  | shield (who : AccountId) (value : ℕ) (inner : Hash256) (ciphertext : List UInt8)
  | settle (bundle : SettlementBundle) (outputs : List ShieldedOutput)
  | coinbase (inner : Hash256) (ciphertext : List UInt8)
  | endBlock (env : Environment)

namespace Chain

/-- The header of the block being executed, once its leaves are folded. -/
def header (c : Chain) (env : Environment) : Header where
  parentHash := c.blockHash (c.blockNumber - 1)
  number := c.blockNumber
  stateRoot := env.stateRoot
  extrinsicsRoot := env.extrinsicsRoot
  zkTreeRoot := c.tree.root
  digest := env.digest

/-- The block hashes once the window has moved by a block. The genesis hash is kept. -/
def prunedHashes (cfg : Config) (c : Chain) : ℕ → Hash256 :=
  let toRemove := c.blockNumber - cfg.blockHashCount - 1
  if toRemove = 0 then c.blockHash else Function.update c.blockHash toRemove 0

/-- A hash is kept or gone. -/
theorem prunedHashes_cases (cfg : Config) (c : Chain) (n : ℕ) :
    c.prunedHashes cfg n = c.blockHash n ∨ c.prunedHashes cfg n = 0 := by
  unfold Chain.prunedHashes
  split
  · exact .inl rfl
  · rw [Function.update_apply]
    split
    · exact .inr rfl
    · exact .inl rfl

/-- Open the next block on the hash of this one. -/
def openBlock (cfg : Config) (c : Chain) (hash : Hash256) (hasAuthor : Bool) : Chain :=
  { c with
    blockNumber := c.blockNumber + 1
    blockHash := Function.update (c.prunedHashes cfg) c.blockNumber hash
    hasAuthor := hasAuthor
    pendingCoinbase := none
    outputsWrittenThisBlock := (0, 0) }

def setTree (c : Chain) (tree : ZkTree) : Chain := { c with tree := tree }

variable (H : Poseidon2) (cfg : Config)

/-- The hooks in the order of the runtime: the reward may still append a leaf, then the tree is
folded and its root goes into the header. -/
def finalize (c : Chain) : Chain :=
  let rewarded := c.payRewards H cfg
  rewarded.setTree (rewarded.tree.processPendingLeaves H)

/-- Close this block and open the next. -/
def nextBlock (c : Chain) (env : Environment) : Chain :=
  let closed := c.finalize H cfg
  closed.openBlock cfg ((closed.header env).hash H) env.nextHasAuthor

/-- One operation, and its outcome. Block numbers are 32-bit, and no block follows the last. -/
def dispatch (c : Chain) : Op → Except DispatchError Unit × Chain
  | .collectFee who fee => Call.transactional (collectFee cfg who fee) c
  | .shield who value inner ciphertext =>
    Call.transactional (shield H cfg who value inner ciphertext) c
  | .settle bundle outputs => Call.transactional (settle H cfg bundle outputs) c
  | .coinbase inner ciphertext => Call.transactional (coinbase H inner ciphertext) c
  | .endBlock env =>
    if c.blockNumber + 1 ≤ u32Max then (.ok (), c.nextBlock H cfg env)
    else (.error .blockNumberOverflow, c)

def step (c : Chain) (op : Op) : Chain := (c.dispatch H cfg op).2

def run (c : Chain) (ops : List Op) : Chain := ops.foldl (step H cfg) c

end Chain

/-! ## What an operation does -/

/-- The state a collected fee leaves. -/
def Chain.feeTaken (c : Chain) (balances : Balances) (fee : ℕ) : Chain :=
  Chain.collectTransactionFees { c with balances := balances } fee

def Chain.withPayload (c : Chain) (payload : CoinbasePayload) : Chain :=
  { c with pendingCoinbase := some payload }

/-- The effect of an operation that succeeded: what it had checked, and the state it left. -/
inductive Effect (H : Poseidon2) (cfg : Config) (c : Chain) : Op → Chain → Prop where
  | free (who : AccountId) : Effect H cfg c (.collectFee who 0) c
  | fee {who : AccountId} {fee : ℕ} {balances : Balances} (pos : 0 < fee)
      (taken : c.balances.takeExact cfg.existentialDeposit who fee .preserve = .ok balances) :
      Effect H cfg c (.collectFee who fee) (c.feeTaken balances fee)
  | shield {who : AccountId} {value : ℕ} {inner commitment : Hash256} {ciphertext : List UInt8}
      {balances : Balances} (check : shieldCheck H cfg c value inner ciphertext = .ok commitment)
      (burn : c.balances.burnFrom cfg.existentialDeposit who value .expendable = .ok balances) :
      Effect H cfg c (.shield who value inner ciphertext) (c.shielded balances value commitment)
  | settle {bundle : SettlementBundle} {outputs : List ShieldedOutput} {plan : PlannedSettlement}
      (check : checkSettlement H cfg c bundle outputs = .ok plan) :
      Effect H cfg c (.settle bundle outputs) (c.settled cfg bundle plan)
  | coinbase {inner : Hash256} {ciphertext : List UInt8}
      (check : coinbaseCheck H c inner ciphertext = .ok ()) :
      Effect H cfg c (.coinbase inner ciphertext) (c.withPayload ⟨inner, ciphertext⟩)
  | endBlock (env : Environment) (number : c.blockNumber + 1 ≤ u32Max) :
      Effect H cfg c (.endBlock env) (c.nextBlock H cfg env)

variable {H : Poseidon2} {cfg : Config} {c : Chain}

theorem exec_collectFee_ok {who : AccountId} {fee : ℕ} {u : Unit} {c' : Chain}
    (h : exec (collectFee cfg who fee) c = (.ok u, c')) :
    Effect H cfg c (.collectFee who fee) c' := by
  unfold collectFee at h
  split at h
  · next zero =>
    subst zero
    obtain rfl := (Prod.mk.inj h).2
    exact .free who
  · next hne =>
    rw [exec_read_bind, exec_bind_ok_iff] at h
    obtain ⟨balances, mid, taken, h⟩ := h
    rw [exec_lift] at taken
    obtain ⟨htake, rfl⟩ := Prod.mk.inj taken
    rw [exec_write_bind, exec_write] at h
    obtain rfl := (Prod.mk.inj h).2
    exact .fee (Nat.pos_of_ne_zero hne) (mapError_ok_iff.1 htake)

theorem exec_coinbase_ok {inner : Hash256} {ciphertext : List UInt8} {u : Unit} {c' : Chain}
    (h : exec (coinbase H inner ciphertext) c = (.ok u, c')) :
    Effect H cfg c (.coinbase inner ciphertext) c' := by
  rw [coinbase, exec_read_bind, exec_bind_ok_iff] at h
  obtain ⟨v, mid, check, h⟩ := h
  rw [exec_lift] at check
  obtain ⟨hcheck, rfl⟩ := Prod.mk.inj check
  rw [exec_write] at h
  obtain rfl := (Prod.mk.inj h).2
  exact .coinbase (mapError_ok_iff.1 hcheck)

theorem exec_shield_ok {who : AccountId} {value : ℕ} {inner : Hash256} {ciphertext : List UInt8}
    {u : Unit} {c' : Chain} (h : exec (shield H cfg who value inner ciphertext) c = (.ok u, c')) :
    Effect H cfg c (.shield who value inner ciphertext) c' := by
  rcases exec_shield_cases H cfg c who value inner ciphertext with
    ⟨e, -, refused⟩ | ⟨e, -, refused⟩ | ⟨commitment, balances, check, burn, done⟩
  · rw [refused] at h
    cases (Prod.mk.inj h).1
  · rw [refused] at h
    cases (Prod.mk.inj h).1
  · rw [done] at h
    split at h
    · cases (Prod.mk.inj h).1
    · obtain rfl := (Prod.mk.inj h).2
      exact .shield check burn

/-- **An operation fails without a trace or has its effect.** -/
theorem dispatch_cases (H : Poseidon2) (cfg : Config) (c : Chain) (op : Op) :
    (∃ e, c.dispatch H cfg op = (.error e, c)) ∨
      ∃ c', c.dispatch H cfg op = (.ok (), c') ∧ Effect H cfg c op c' := by
  cases op with
  | collectFee who fee =>
    exact (transactional_cases (collectFee cfg who fee) c).imp_right
      fun ⟨_, c', h, eq⟩ => ⟨c', eq, exec_collectFee_ok h⟩
  | shield who value inner ciphertext =>
    exact (transactional_cases (shield H cfg who value inner ciphertext) c).imp_right
      fun ⟨_, c', h, eq⟩ => ⟨c', eq, exec_shield_ok h⟩
  | settle bundle outputs =>
    -- The bundle is arbitrary here, so its commitments may be refused behind the check.
    refine (transactional_cases (settle H cfg bundle outputs) c).imp_right ?_
    rintro ⟨_, c', h, eq⟩
    obtain ⟨plan, check, rfl⟩ := exec_settle_ok h
    exact ⟨_, eq, .settle check⟩
  | coinbase inner ciphertext =>
    exact (transactional_cases (coinbase H inner ciphertext) c).imp_right
      fun ⟨_, c', h, eq⟩ => ⟨c', eq, exec_coinbase_ok h⟩
  | endBlock env =>
    by_cases number : c.blockNumber + 1 ≤ u32Max
    · exact .inr ⟨_, if_pos number, .endBlock env number⟩
    · exact .inl ⟨_, if_neg number⟩

theorem step_cases (H : Poseidon2) (cfg : Config) (c : Chain) (op : Op) :
    c.step H cfg op = c ∨ Effect H cfg c op (c.step H cfg op) := by
  unfold Chain.step
  rcases dispatch_cases H cfg c op with ⟨e, h⟩ | ⟨c', h, effect⟩
  · exact .inl (by rw [h])
  · rw [h]
    exact .inr effect

/-- A field that no part of a block end changes. -/
theorem nextBlock_frame {α : Type} (f : Chain → α)
    (deferred : ∀ c fees payload, f (c.deferred fees payload) = f c)
    (minted : ∀ c credit commitment, f (c.minted credit commitment) = f c)
    (tree : ∀ c t, f (c.setTree t) = f c)
    (opened : ∀ c hash hasAuthor, f (c.openBlock cfg hash hasAuthor) = f c) (env : Environment) :
    f (c.nextBlock H cfg env) = f c := by
  rw [Chain.nextBlock, opened, Chain.finalize, tree, payRewards_frame f deferred minted]

/-- **The rule of a run**: what every allowed effect keeps holds along the run. -/
theorem run_invariant {P : Chain → Prop} {A : Chain → Op → Prop}
    (keep : ∀ c op c', P c → A c op → Effect H cfg c op c' → P c') {ops : List Op} (hc : P c)
    (allowed : Along (Chain.step H cfg) A c ops) : P (c.run H cfg ops) := by
  refine foldl_invariant (fun c op hc ha => ?_) ops c hc allowed
  rcases step_cases H cfg c op with h | effect
  · rwa [h]
  · exact keep c op _ hc ha effect

end Qnero
