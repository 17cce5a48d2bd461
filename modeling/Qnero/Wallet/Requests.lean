import Qnero.Wallet.Refused
import Qnero.Wallet.Rpc
import Qnero.Wallet.Spend

/-!
# What a wallet asks

The sync pass and the preparation of a spend as sessions with a node, with every request they send.
In between stand the wallet's own computations, which depend on its keys and its notes: leaves are
typed against its miner key, payloads decrypted, notes selected. None of it decides what is asked
next.

Two facts carry this. The chunks of a pass are typed block by block, so the blocks whose bodies are
fetched do not depend on the key (`typeChunk_same`). And a pass sees of its store only what
`WalletStore.syncView` says.
-/

namespace Qnero.Rpc

open Plonkish Machine

/-! ## The sync pass -/

/-- What a read that failed is reported as when a rescan goes on without it. -/
def ClientError.refusal : ClientError → SyncError
  | .sync error => error
  | _ => .rpc

/-- The checkpoint walk, whose refusal a rescan passes by. -/
def stanceOrBypass (options : SyncOptions) (stance : Talk NodeStance) :
    Talk (NodeStance × Option SyncError) := do
  match ← stance.outcome with
  | .ok stance => pure (stance, none)
  | .error refusal =>
    if options.rescan then pure (.current, some refusal.refusal) else throw refusal

/-- The client that asks. Its pass carries the store along. -/
@[simps] def client (H : Poseidon2) (T : StateProofs) :
    ChainClient Talk (StateT WalletStore Talk) where
  checked := offline
  genesisHash := genesisHash
  head := head
  blockHashAtHeight := blockHashAtHeight
  stanceOrBypass := stanceOrBypass
  leafCountAt := leafCountAt H T
  usedNullifiersAt := usedNullifiersAt H T
  entryCountAt := entryCountAt H T
  blockHash := blockHash
  headerChain := headerChain
  leafHashes := leafHashes H T 0
  leavesUpToBlock := leavesUpToBlock H T
  authenticatedBody root _ := authenticatedBody root
  lift := StateT.lift
  store := get
  write := modify

/-- `sync_with`, with the requests it sends. -/
def syncWith (T : StateProofs) (W : Wallet) (storageKnown : Bool) (options : SyncOptions)
    (saved : Bool) (store : WalletStore) : Talk (WalletStore × SyncReport) := do
  let (report, store) ← (W.sync (client W.H T) storageKnown options saved).run store
  pure (store, report)

/-! ## Preparing a spend -/

/-- Why no spend was prepared. -/
inductive SendError where
  | client (error : ClientError)
  | spend (error : SpendError)

/-- The preparation of a spend. -/
abbrev SpendTalk := Session HttpRequest HttpReply RpcClient SendError

def reads {α : Type} (p : Talk α) : SpendTalk α := Session.mapError .client p

def computes {α : Type} (x : Except SpendError α) : SpendTalk α :=
  Session.ofExcept (x.mapError .spend)

section

variable (T : StateProofs) (E : SpendEnv)

/-- The profile in the state of a block is the one of the metadata and of this build. -/
def ensureActiveProfile (block : Option String) : SpendTalk Unit := do
  computes (ensure (E.metadata.protocolProfile = E.supportedProfile) .unsupportedProfile)
  let value ← reads (storage E.H T (T.storagePrefix "Shielded" "ActiveProtocolProfile") block)
  let value ← computes (okOr value .noActiveProfile)
  computes (ensure (value = E.supportedProfile) .unsupportedProfile)
  computes (ensure (value = E.metadata.protocolProfile) .profileDiffers)

/-- `prepare_spend` with locally rebuilt paths. -/
def prepareSpend (storageKnown : Bool) (prover : WalletProver) (key : SpendingKey)
    (order : SpendOrder) (draws : SpendDraws) (store : WalletStore) : SpendTalk PreparedSpend := do
  ensureActiveProfile T E none
  computes (ensure (prover.supported = true) .unsupportedVerifiers)
  reads (offline (ensure (storageKnown = true) .unknownStorage))
  computes (ensureMemoPadFits E.metadata)
  let genesisHash ← reads genesisHash
  reads (offline (ensure (store.foreign genesisHash = false)
    (.otherChain (store.genesisHash.getD genesisHash) genesisHash)))
  let plan ← computes (E.planSpend key order draws store)
  let head ← reads head
  let (header, anchorHash) ← reads (anchorHeader E.H head.number)
  ensureActiveProfile T E (some (hashText anchorHash))
  let tree ← reads (rebuildTree E.H T anchorHash)
  let paths ← computes (localPaths E.H store (key.pk E.H) tree header.zkTreeRoot head.number
    plan.selected)
  computes (E.buildSpend key order draws prover plan header head.number paths)

end

/-! ## What does not show -/

section Typing

variable {H : Poseidon2} {miner miner' : MinerView}

theorem typeRun_blocks {number : ℕ} {labelSaysOurs : Bool} {run : List (LeafRecord × Digest)}
    {typed : List TypedLeaf} (h : typeRun H miner number labelSaysOurs run = .ok typed) :
    typed.map TypedLeaf.blockNumber = run.map fun _ => number := by
  have pairs := typeRun_typedAs h
  clear h
  induction pairs with
  | nil => rfl
  | cons head _ ih => rw [List.map_cons, List.map_cons, head.number_eq, ih]

variable {out out' : TreeFrontier × List LeafRecord × List TypedLeaf} {scanned : List LeafRecord}
    {f : TreeFrontier} {blocks : List VerifiedBlock}

theorem typeBlock_same {parent block : VerifiedBlock}
    (h : typeBlock H miner f parent block scanned = .ok out)
    (h' : typeBlock H miner' f parent block scanned = .ok out') :
    out.1 = out'.1 ∧ out.2.1 = out'.2.1 ∧
      out.2.2.map TypedLeaf.blockNumber = out'.2.2.map TypedLeaf.blockNumber := by
  unfold typeBlock at h h'
  simp only [bind_ok_iff, ensure_ok_iff] at h h'
  obtain ⟨-, -, leaves, parsed, -, -, -, -, typed, ran, ⟨⟩⟩ := h
  obtain ⟨-, -, leaves', parsed', -, -, -, -, typed', ran', ⟨⟩⟩ := h'
  obtain rfl : leaves = leaves' := Except.ok.inj (parsed.symm.trans parsed')
  exact ⟨rfl, rfl, (typeRun_blocks ran).trans (typeRun_blocks ran').symm⟩

theorem typeBlocks_same {parent : VerifiedBlock}
    (h : typeBlocks H miner f parent blocks scanned = .ok out)
    (h' : typeBlocks H miner' f parent blocks scanned = .ok out') :
    out.1 = out'.1 ∧ out.2.1 = out'.2.1 ∧
      out.2.2.map TypedLeaf.blockNumber = out'.2.2.map TypedLeaf.blockNumber := by
  induction blocks generalizing f parent scanned out out' with
  | nil =>
    obtain rfl := Except.ok.inj h
    obtain rfl := Except.ok.inj h'
    exact ⟨rfl, rfl, rfl⟩
  | cons block blocks ih =>
    simp only [typeBlocks, bind_ok_iff] at h h'
    obtain ⟨⟨f₁, left, typed⟩, first, ⟨f₂, rest, more⟩, others, ⟨⟩⟩ := h
    obtain ⟨⟨f₁', left', typed'⟩, first', ⟨f₂', rest', more'⟩, others', ⟨⟩⟩ := h'
    obtain ⟨rfl, rfl, here⟩ := typeBlock_same first first'
    obtain ⟨rfl, rfl, above⟩ := ih others others'
    exact ⟨rfl, rfl, by rw [List.map_append, List.map_append, here, above]⟩

/-- **The blocks that appended do not depend on the key**, and neither does the fold. -/
theorem typeChunk_same {out out' : TreeFrontier × List TypedLeaf}
    (h : typeChunk H miner f blocks scanned = .ok out)
    (h' : typeChunk H miner' f blocks scanned = .ok out') :
    out.1 = out'.1 ∧ out.2.map TypedLeaf.blockNumber = out'.2.map TypedLeaf.blockNumber := by
  cases blocks with
  | nil => exact nomatch h
  | cons anchor blocks =>
    simp only [typeChunk, bind_ok_iff] at h h'
    obtain ⟨-, -, -, -, ⟨f₁, left, typed⟩, done, -, -, ⟨⟩⟩ := h
    obtain ⟨-, -, -, -, ⟨f₁', left', typed'⟩, done', -, -, ⟨⟩⟩ := h'
    obtain ⟨same, -, blocks⟩ := typeBlocks_same done done'
    exact ⟨same, blocks⟩

end Typing

/-- What a pass sees of its store before it asks: the chain it is of, and how far it has got. -/
structure SyncView where
  genesisHash : Option Hash256
  checkpoints : List SyncCheckpoint
  nextLeaf : ℕ
  lastSyncedBlock : ℕ
  birthday : Option SyncCheckpoint
deriving DecidableEq

def syncView (store : WalletStore) : SyncView where
  genesisHash := store.genesisHash
  checkpoints := store.checkpoints
  nextLeaf := store.nextLeaf
  lastSyncedBlock := store.lastSyncedBlock
  birthday := store.birthday

section View

variable {T : StateProofs} {W : Wallet} {options : SyncOptions} {store store' : WalletStore}

/-- Stores of one view differ in notes and nullifiers only. -/
theorem eq_of_syncView (agree : syncView store = syncView store') :
    ∃ notes pending rejected used, store' = { store with
      notes := notes, pending := pending, rejected := rejected, usedNullifiers := used } := by
  cases store
  cases store'
  cases agree
  exact ⟨_, _, _, _, rfl⟩

theorem passGates_same {storageKnown : Bool} (agree : syncView store = syncView store') :
    (client W.H T).passGates storageKnown options store =
      (client W.H T).passGates storageKnown options store' := by
  obtain ⟨notes, pending, rejected, used', rfl⟩ := eq_of_syncView agree
  rfl

theorem applyStance_same {stance : NodeStance} {used : Finset Hash256}
    (agree : syncView store = syncView store') :
    syncView { (store.applyStance stance options).1 with usedNullifiers := used } =
        syncView { (store'.applyStance stance options).1 with usedNullifiers := used } ∧
      (store.applyStance stance options).2 = (store'.applyStance stance options).2 := by
  obtain ⟨notes, pending, rejected, used', rfl⟩ := eq_of_syncView agree
  unfold WalletStore.applyStance
  split
  · exact ⟨rfl, rfl⟩
  · cases stance <;> exact ⟨rfl, rfl⟩

end View

section Alike

variable {T : StateProofs} {W : Wallet} {keys' : WalletKeys}

variable {typed typed' : List TypedLeaf} {store store' : WalletStore}

section Pass

variable {H : Poseidon2} {α β γ δ : Type}

/-- A read of the pass, and what is done behind it. -/
theorem lift_alike {p : Talk α} {q : Talk β} {f : α → StateT WalletStore Talk γ}
    {g : β → StateT WalletStore Talk δ} {R : α → β → Prop} {S : γ × WalletStore → δ × WalletStore → Prop}
    (first : p.Alike R q)
    (second : ∀ a b, R a b → ((f a).run store).Alike S ((g b).run store')) :
    (((client H T).lift p >>= f).run store).Alike S (((client H T).lift q >>= g).run store') := by
  simp only [client_lift, StateT.run_bind, StateT.run_lift, bind_assoc, pure_bind]
  exact first.bind second

theorem run_store_bind (f : WalletStore → StateT WalletStore Talk γ) :
    ((client H T).store >>= f).run store = (f store).run store := by
  simp only [client_store, StateT.run_bind, StateT.run_get, pure_bind]

theorem run_write_bind (g : WalletStore → WalletStore) (f : Unit → StateT WalletStore Talk γ) :
    ((client H T).write g >>= f).run store = (f ()).run (g store) := by
  simp only [client_write, StateT.run_bind, StateT.run_modify, pure_bind]

end Pass

theorem blockReceipts_alike (top : ℕ)
    (same : typed.map TypedLeaf.blockNumber = typed'.map TypedLeaf.blockNumber)
    (block : VerifiedBlock) :
    (W.blockReceipts (client W.H T) top typed block).Alike (fun _ _ => True)
      (Wallet.blockReceipts { W with keys := keys' } (client W.H T) top typed' block) := by
  have any : ∀ l : List TypedLeaf, (l.any fun leaf => leaf.blockNumber = block.number) =
      (l.map TypedLeaf.blockNumber).any (· = block.number) := fun l => by
    rw [List.any_map]
    rfl
  unfold Wallet.blockReceipts
  rw [any, any, same]
  split
  · refine .bind_same _ fun body => ?_
    exact .bind_same _ fun payloads => .pure trivial
  · exact .pure trivial

/-- The bodies of the blocks that appended, whoever reads them. -/
theorem bodyReceipts_alike (top : ℕ)
    (same : typed.map TypedLeaf.blockNumber = typed'.map TypedLeaf.blockNumber)
    (blocks : List VerifiedBlock) :
    (W.bodyReceipts (client W.H T) top typed blocks).Alike (fun _ _ => True)
      (Wallet.bodyReceipts { W with keys := keys' } (client W.H T) top typed' blocks) := by
  induction blocks with
  | nil => exact .pure trivial
  | cons block blocks ih =>
    refine (blockReceipts_alike top same block).bind fun _ _ _ => ?_
    exact .bind ih fun _ _ _ => .pure trivial

theorem scanLeaves_alike (plan : ScanPlan) (scan : Scan) (top : ℕ) (anchor : VerifiedBlock)
    (blocks : List VerifiedBlock) :
    (W.scanLeaves (client W.H T) plan scan top anchor blocks).Alike
      (fun out out' => out.1 = out'.1 ∧ out.2.typed.length = out'.2.typed.length)
      (Wallet.scanLeaves { W with keys := keys' } (client W.H T) plan scan top anchor blocks) := by
  unfold Wallet.scanLeaves
  refine .bind_same _ fun fold => ?_
  refine .bind_same _ fun records => ?_
  refine .bind_same _ fun _ => ?_
  refine .bind (R := fun out out' => out.1 = out'.1 ∧
    out.2.map TypedLeaf.blockNumber = out'.2.map TypedLeaf.blockNumber) ?_ ?_
  · refine .ofExcept fun out out' h h' => ?_
    exact typeChunk_same (mapError_ok_iff.1 (mapError_ok_iff.1 h))
      (mapError_ok_iff.1 (mapError_ok_iff.1 h'))
  · rintro ⟨fold, typed⟩ ⟨fold', typed'⟩ ⟨rfl, same⟩
    refine .bind (R := fun _ _ => True) (.ofExcept fun _ _ _ _ => trivial) fun _ _ _ => ?_
    refine (bodyReceipts_alike top same _).bind fun _ _ _ => .pure ⟨rfl, ?_⟩
    simpa using congrArg List.length same

theorem chunkLeaves_alike (plan : ScanPlan) (scan : Scan) (top : ℕ) (anchor : VerifiedBlock)
    (blocks : List VerifiedBlock) :
    (W.chunkLeaves (client W.H T) plan scan top anchor blocks).Alike
      (fun out out' => out.1 = out'.1 ∧ out.2.typed.length = out'.2.typed.length)
      (Wallet.chunkLeaves { W with keys := keys' } (client W.H T) plan scan top anchor blocks) := by
  unfold Wallet.chunkLeaves
  split
  · exact scanLeaves_alike plan scan top anchor blocks
  · exact .bind_same _ fun _ => .pure ⟨rfl, rfl⟩

/-- **One chunk**: the scans behind it are the same. -/
theorem readChunk_alike (plan : ScanPlan) (scan : Scan) (top : ℕ) :
    (W.readChunk (client W.H T) plan scan top).Alike (fun out out' => out.1 = out'.1)
      (Wallet.readChunk { W with keys := keys' } (client W.H T) plan scan top) := by
  unfold Wallet.readChunk
  refine .bind_same _ fun topHash => ?_
  refine .bind_same _ fun blocks => ?_
  refine .bind_same _ fun anchor => ?_
  refine .bind_same _ fun _ => ?_
  refine (chunkLeaves_alike plan scan top anchor blocks).bind ?_
  rintro ⟨frontier, read⟩ ⟨frontier', read'⟩ ⟨rfl, same⟩
  refine .pure ?_
  dsimp only at same ⊢
  rw [same]

/-- **All chunks**: what is recorded between two of them changes no request. -/
theorem walkChunks_alike (plan : ScanPlan) (entries : ℕ) (collects : Bool) (tops : List ℕ)
    (scan : Scan) (tally tally' : Tally) (store store' : WalletStore) :
    ((W.walkChunks (client W.H T) plan entries collects tops scan tally).run store).Alike
      (fun out out' => out.1.1 = out'.1.1)
      ((Wallet.walkChunks { W with keys := keys' } (client W.H T) plan entries collects tops scan
        tally').run store') := by
  induction tops generalizing scan tally tally' store store' with
  | nil => exact .pure rfl
  | cons top tops ih =>
    refine lift_alike (readChunk_alike plan scan top) ?_
    rintro ⟨scan, read⟩ ⟨scan', read'⟩ rfl
    simp only [run_store_bind, run_write_bind]
    exact ih _ _ _ _ _

theorem scanToHead_alike {options : SyncOptions} {gates : Gates} {rewind : Option ScanRewind}
    (agree : syncView store = syncView store') :
    ((W.scanToHead (client W.H T) options gates rewind).run store).Alike (fun _ _ => True)
      ((Wallet.scanToHead { W with keys := keys' } (client W.H T) options gates rewind).run
        store') := by
  obtain ⟨notes, pending, rejected, used', rfl⟩ := eq_of_syncView agree
  unfold Wallet.scanToHead
  simp only [run_store_bind]
  refine lift_alike (.refl _) ?_
  rintro anchor _ rfl
  refine lift_alike (.refl _) ?_
  rintro entries _ rfl
  rw [StateT.run_bind, StateT.run_bind]
  refine .bind (walkChunks_alike _ _ _ _ _ _ _ _ _) ?_
  rintro ⟨⟨scan, tally⟩, store⟩ ⟨⟨scan', tally'⟩, store'⟩ rfl
  refine lift_alike (.refl _) fun _ _ _ => ?_
  simp only [run_store_bind, run_write_bind]
  exact .pure trivial

theorem sync_alike {storageKnown : Bool} {options : SyncOptions} {saved saved' : Bool}
    (agree : syncView store = syncView store') :
    ((W.sync (client W.H T) storageKnown options saved).run store).Alike (fun _ _ => True)
      ((Wallet.sync { W with keys := keys' } (client W.H T) storageKnown options saved').run
        store') := by
  unfold Wallet.sync
  simp only [run_store_bind]
  rw [passGates_same agree]
  refine lift_alike (.refl _) ?_
  rintro gates _ rfl
  simp only [run_write_bind]
  refine lift_alike (.refl _) ?_
  rintro used _ rfl
  simp only [run_write_bind]
  obtain ⟨opened, rewinds⟩ := @applyStance_same options store store' gates.stance used agree
  rw [rewinds, StateT.run_bind, StateT.run_bind]
  refine (scanToHead_alike opened).bind fun _ _ _ => ?_
  exact lift_alike (R := fun _ _ => True) (.ofExcept fun _ _ _ _ => trivial) fun _ _ _ => .pure trivial

theorem syncWith_alike {storageKnown : Bool} {options : SyncOptions} {saved saved' : Bool}
    (agree : syncView store = syncView store') :
    (syncWith T W storageKnown options saved store).Alike (fun _ _ => True)
      (syncWith T { W with keys := keys' } storageKnown options saved' store') :=
  (sync_alike agree).bind fun _ _ _ => .pure trivial

variable {E : SpendEnv}

/-- A computation of the wallet's own asks nothing. -/
theorem computes_alike {α β γ δ : Type} {x : Except SpendError α} {y : Except SpendError β}
    {f : α → SpendTalk γ} {g : β → SpendTalk δ} {R : γ → δ → Prop}
    (next : ∀ a b, (f a).Alike R (g b)) : (computes x >>= f).Alike R (computes y >>= g) :=
  .bind (R := fun _ _ => True) (.ofExcept fun _ _ _ _ => trivial) fun a b _ => next a b

theorem prepareSpend_alike {storageKnown : Bool} {prover prover' : WalletProver}
    {key key' : SpendingKey} {order order' : SpendOrder} {draws draws' : SpendDraws}
    (agree : store.genesisHash = store'.genesisHash) :
    (prepareSpend T E storageKnown prover key order draws store).Alike (fun _ _ => True)
      (prepareSpend T E storageKnown prover' key' order' draws' store') := by
  have foreign : store.foreign = store'.foreign := by
    unfold WalletStore.foreign
    rw [agree]
  unfold prepareSpend
  refine .bind_same _ fun _ => ?_
  refine computes_alike fun _ _ => ?_
  refine .bind_same _ fun _ => ?_
  refine .bind_same _ fun _ => ?_
  refine .bind_same _ fun genesisHash => ?_
  rw [foreign, agree]
  refine .bind_same _ fun _ => ?_
  refine computes_alike fun plan plan' => ?_
  refine .bind_same _ fun head => ?_
  refine .bind_same _ fun anchor => ?_
  refine .bind_same _ fun _ => ?_
  refine .bind_same _ fun tree => ?_
  refine computes_alike fun paths paths' => ?_
  exact .ofExcept fun _ _ _ _ => trivial

end Alike

/-- **A node learns nothing**, neither from a sync nor from the preparation of a spend: whatever it
answers, two wallets that have read the same chain this far ask it for the same, up to where one of
them stops. -/
theorem requests_indistinct {store store' : WalletStore} (agree : syncView store = syncView store')
    (T : StateProofs) (respond : List HttpRequest → HttpReply) (client : RpcClient) :
    (∀ (W : Wallet) (keys' : WalletKeys) (storageKnown : Bool) (options : SyncOptions)
        (saved saved' : Bool),
      Indistinct ((syncWith T W storageKnown options saved store).talk respond client)
        ((syncWith T { W with keys := keys' } storageKnown options saved' store').talk
          respond client)) ∧
      ∀ (E : SpendEnv) (storageKnown : Bool) (prover prover' : WalletProver)
        (key key' : SpendingKey) (order order' : SpendOrder) (draws draws' : SpendDraws),
        Indistinct ((prepareSpend T E storageKnown prover key order draws store).talk respond client)
          ((prepareSpend T E storageKnown prover' key' order' draws' store').talk respond client) := by
  constructor
  · intro W keys' storageKnown options saved saved'
    exact (syncWith_alike agree).indistinct respond client
  · intro E storageKnown prover prover' key key' order order' draws draws'
    have genesis : store.genesisHash = store'.genesisHash := congrArg SyncView.genesisHash agree
    exact (prepareSpend_alike genesis).indistinct respond client

/-- A wallet that holds a note, and one on the same block that holds none and waits for another: they
sync alike, and prepare alike what they spend. -/
theorem requests_indistinct_of_holder :
    let other := { Sample.branchStore with notes := [], pending := [⟨9⟩] }
    syncView Sample.branchStore = syncView other ∧ Sample.branchStore ≠ other ∧
      ∀ (T : StateProofs) (respond : List HttpRequest → HttpReply),
        Indistinct
          ((syncWith T Sample.emptyWallet true ⟨false⟩ true Sample.branchStore).talk respond .new)
          ((syncWith T { Sample.emptyWallet with keys := ⟨4, 5, 6, fun _ => none⟩ } true ⟨false⟩ true
            other).talk respond .new) ∧
        ∀ (E : SpendEnv) (prover : WalletProver) (key key' : SpendingKey) (order order' : SpendOrder)
          (draws : SpendDraws),
          Indistinct ((prepareSpend T E true prover key order draws Sample.branchStore).talk respond .new)
            ((prepareSpend T E true prover key' order' draws other).talk respond .new) := by
  intro other
  have agree : syncView Sample.branchStore = syncView other := rfl
  refine ⟨agree, fun same => ?_, fun T respond => ?_⟩
  · exact absurd (congrArg (List.length ∘ WalletStore.notes) same) (by decide)
  · obtain ⟨syncs, spends⟩ := requests_indistinct agree T respond .new
    exact ⟨syncs Sample.emptyWallet _ true ⟨false⟩ true true,
      fun E prover key key' order order' draws =>
        spends E true prover prover key key' order order' draws draws⟩

end Qnero.Rpc
