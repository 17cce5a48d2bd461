import Qnero.Consensus.SealedHeader
import Qnero.Interleaving

/-!
# The authoring gate

A mining worker keeps a gate, a slot for the build that is being mined, a request for the next one, and
a counter that moves when the slot does. Its calls come from many threads, and each is followed here
from one access of a shared cell to the next: an access that is under a lock from its beginning to its
end is one step, and where a call does more under the lock of the slot, taking and leaving it are steps
of their own.

A pause flips the gate first, empties the slot later and moves the counter last. Two things follow from
that order: a second pause, which finds the gate closed, returns before the slot is empty; and between
the flip and the counter, readers see the slot gone under an unchanged version.
-/

namespace Qnero.Authoring

open Interleaving

/-! ## The worker -/

structure MiningMetadata where
  bestHash : Hash256
  preHash : Hash256
  height : ℕ
  seedHash : Hash256
  difficulty : ℕ
deriving DecidableEq

/-- A build in the slot, numbered by when it was stored. -/
structure Stored where
  id : ℕ
  metadata : MiningMetadata
deriving DecidableEq

/-- What a read asks for. -/
inductive Read where
  | metadata
  | bestHash
deriving DecidableEq

inductive Call where
  | setAuthoringEnabled (enabled : Bool)
  | requestRebuild
  | onBuild (metadata : MiningMetadata)
  | version
  | read (what : Read)
  | submit (bytes : List UInt8)
deriving DecidableEq

/-- Where a thread is in its call: the access it does next. -/
inductive Point where
  | idle
  /-- `set_authoring_enabled`. -/
  | setSwap (enabled : Bool)
  | setPending (enabled : Bool)
  | setTake
  | setBump
  /-- `request_rebuild`, in a call that sets the gate or not. -/
  | rebuildGate (inSet : Bool)
  | rebuildInfo (inSet : Bool)
  | rebuildStore (inSet : Bool) (bestHash : Hash256)
  /-- `on_build`; from the gate on, under the lock of the slot. -/
  | buildLock (metadata : MiningMetadata)
  | buildGate (metadata : MiningMetadata)
  | buildStore (metadata : MiningMetadata)
  | buildBump
  | buildUnlock
  /-- `metadata` and `best_hash`. -/
  | readGate (what : Read)
  | readBuild (what : Read)
  | versionLoad
  /-- `submit`; from the gate on, under the lock of the slot. `paused` says whether the worker was
  paused when the lock was taken. -/
  | submitLock (bytes : List UInt8)
  | submitGate (bytes : List UInt8) (paused : Bool)
  | submitCheck (bytes : List UInt8) (paused : Bool)
  | submitTake (paused : Bool)
  | submitBump (took paused : Bool)
  | submitUnlock (took paused : Bool)
  | submitImport (paused : Bool)
deriving DecidableEq

/-- What a call answered. -/
inductive Answer where
  | version
  | metadata (answer : Option MiningMetadata)
  | bestHash (answer : Option Hash256)
  | submit (answer : Bool)
deriving DecidableEq

/-- An answer, with the increments of the counter before it, and whether the worker was paused when it
was given, or when the lock was taken for it. -/
structure Entry where
  count : ℕ
  paused : Bool
  answer : Answer
deriving DecidableEq

structure State where
  enabled : Bool
  build : Option Stored
  /-- Who is under the lock of the slot. -/
  holder : Option ℕ
  pendingBuild : Option Hash256
  /-- The increments of the counter so far. -/
  version : ℕ
  threads : ℕ → Point
  /-- The builds that were stored, and those that a submit took. -/
  stored : ℕ
  consumed : List ℕ
  /-- A pause has returned, and no call to resume has started since. -/
  paused : Bool
  /-- The answers, newest first. -/
  log : List Entry

/-- The worker of a new node. -/
def State.initial : State where
  enabled := false
  build := none
  holder := none
  pendingBuild := none
  version := 0
  threads := fun _ => .idle
  stored := 0
  consumed := []
  paused := false
  log := []

/-- An action: a thread starts a call, or does the next access of its call. What the access learns from
elsewhere comes with it: whether a seal passes or an import succeeds, and the best block. -/
inductive Action where
  | call (thread : ℕ) (call : Call)
  | advance (thread : ℕ) (verdict : Bool) (bestHash : Hash256)
deriving DecidableEq

/-- The counter has 64 bits. -/
def Entry.version (entry : Entry) : ℕ := entry.count % 2 ^ 64

def Call.entry : Call → Point
  | setAuthoringEnabled enabled => .setSwap enabled
  | requestRebuild => .rebuildGate false
  | onBuild metadata => .buildLock metadata
  | version => .versionLoad
  | read what => .readGate what
  | submit bytes => .submitLock bytes

def Read.answer (what : Read) (build : Option MiningMetadata) : Answer :=
  match what with
  | metadata => .metadata build
  | bestHash => .bestHash (build.map MiningMetadata.bestHash)

namespace State

def goto (s : State) (thread : ℕ) (point : Point) : State :=
  { s with threads := Function.update s.threads thread point }

def shown (s : State) : Option MiningMetadata := s.build.map Stored.metadata

def answered (s : State) (paused : Bool) (answer : Answer) : State :=
  { s with log := ⟨s.version, paused, answer⟩ :: s.log }

/-- The next access of a thread; `none` where a lock keeps it waiting. -/
def advance (s : State) (t : ℕ) (verdict : Bool) (bestHash : Hash256) : Option State :=
  match s.threads t with
  | .idle => none
  | .setSwap enabled =>
    if s.enabled = enabled then some { s.goto t .idle with paused := s.paused || !enabled }
    else some { s.goto t (.setPending enabled) with enabled := enabled }
  | .setPending enabled =>
    some { s.goto t (if enabled then .rebuildGate true else .setTake) with pendingBuild := none }
  | .setTake => if s.holder = none then some { s.goto t .setBump with build := none } else none
  | .setBump => some { s.goto t .idle with version := s.version + 1, paused := true }
  | .rebuildGate inSet => some (s.goto t (if s.enabled then .rebuildInfo inSet else .idle))
  | .rebuildInfo inSet => some (s.goto t (.rebuildStore inSet bestHash))
  | .rebuildStore _ bestHash => some { s.goto t .idle with pendingBuild := some bestHash }
  | .buildLock metadata =>
    if s.holder = none then some { s.goto t (.buildGate metadata) with holder := some t } else none
  | .buildGate metadata => some (s.goto t (if s.enabled then .buildStore metadata else .buildUnlock))
  | .buildStore metadata =>
    some { s.goto t .buildBump with build := some ⟨s.stored, metadata⟩, stored := s.stored + 1 }
  | .buildBump => some { s.goto t .buildUnlock with version := s.version + 1 }
  | .buildUnlock => some { s.goto t .idle with holder := none }
  | .readGate what =>
    if s.enabled then some (s.goto t (.readBuild what))
    else some ((s.goto t .idle).answered s.paused (what.answer none))
  | .readBuild what =>
    if s.holder = none then some ((s.goto t .idle).answered s.paused (what.answer s.shown)) else none
  | .versionLoad => some ((s.goto t .idle).answered s.paused .version)
  | .submitLock bytes =>
    if s.holder = none then some { s.goto t (.submitGate bytes s.paused) with holder := some t }
    else none
  | .submitGate bytes paused =>
    some (s.goto t (if s.enabled then .submitCheck bytes paused else .submitUnlock false paused))
  | .submitCheck bytes paused =>
    -- A build, the shape of the seal, and the work.
    if s.build.isSome ∧ (Seal.decode bytes).isOk ∧ verdict then some (s.goto t (.submitTake paused))
    else some (s.goto t (.submitUnlock false paused))
  | .submitTake paused =>
    some { s.goto t (.submitBump s.build.isSome paused) with
      build := none
      consumed := (s.build.map Stored.id).toList ++ s.consumed }
  | .submitBump took paused =>
    some { s.goto t (.submitUnlock took paused) with version := s.version + 1 }
  | .submitUnlock took paused =>
    if took then some { s.goto t (.submitImport paused) with holder := none }
    else some { (s.goto t .idle).answered paused (.submit false) with holder := none }
  | .submitImport paused =>
    if verdict then some ((s.goto t .idle).answered paused (.submit true))
    else some ((s.goto t (.rebuildGate false)).answered paused (.submit false))

def step (action : Action) (s : State) : Option State :=
  match action with
  | .call t call =>
    if s.threads t = .idle then
      some { s.goto t call.entry with
        paused := if call = .setAuthoringEnabled true then false else s.paused }
    else none
  | .advance t verdict bestHash => s.advance t verdict bestHash

end State

/-! ## Where threads are -/

namespace Point

/-- In a call that sets the gate. -/
@[simp] def inSet : Point → Bool
  | setSwap _ | setPending _ | setTake | setBump => true
  | rebuildGate inSet | rebuildInfo inSet | rebuildStore inSet _ => inSet
  | _ => false

/-- In a pause that has flipped the gate and not yet moved the counter. -/
@[simp] def window : Point → Bool
  | setPending enabled => !enabled
  | setTake | setBump => true
  | _ => false

/-- In a pause that has flipped the gate and not yet emptied the slot. -/
@[simp] def preTake : Point → Bool
  | setPending enabled => !enabled
  | setTake => true
  | _ => false

/-- Under the lock of the slot. -/
@[simp] def locks : Point → Bool
  | buildGate _ | buildStore _ | buildBump | buildUnlock => true
  | submitGate .. | submitCheck .. | submitTake _ | submitBump .. | submitUnlock .. => true
  | _ => false

/-- Under the lock, past an open gate. -/
@[simp] def entered : Point → Bool
  | buildStore _ | buildBump | submitCheck .. | submitTake _ | submitBump .. => true
  | _ => false

/-- The slot was changed, and the counter not yet moved. -/
@[simp] def changed : Point → Bool
  | buildBump | submitBump .. => true
  | _ => false

/-- A submit that took the lock while the worker was paused finds the slot empty. -/
@[simp] def Refuses (build : Option Stored) : Point → Prop
  | submitGate _ paused | submitCheck _ paused => paused = true → build = none
  | submitTake paused | submitImport paused => paused = false
  | submitBump took paused | submitUnlock took paused => paused = true → took = false
  | _ => True

/-- A move to here changes nothing that is shared but the request. -/
structure Quiet (build : Option Stored) (before after : Point) : Prop where
  locks : after.locks = before.locks
  window : after.window = before.window
  preTake : after.preTake = before.preTake
  changed : before.changed = false
  entered : after.entered = true → before.entered = true
  inSet : after.inSet = true → before.inSet = true
  notSwap : ∀ enabled, before ≠ setSwap enabled
  refuses : before.Refuses build → after.Refuses build

end Point

/-! ## Moves -/

/-- What the access of a thread can do. -/
inductive Move (s : State) (t : ℕ) : State → Prop where
  | quiet {p : Point} {pending : Option Hash256} (quiet : (s.threads t).Quiet s.build p) :
      Move s t { s.goto t p with pendingBuild := pending }
  | unchanged {enabled : Bool} (point : s.threads t = .setSwap enabled)
      (same : s.enabled = enabled) :
      Move s t { s.goto t .idle with paused := s.paused || !enabled }
  | swapped {enabled : Bool} (point : s.threads t = .setSwap enabled)
      (differs : s.enabled ≠ enabled) :
      Move s t { s.goto t (.setPending enabled) with enabled := enabled }
  | emptied (point : s.threads t = .setTake) (free : s.holder = none) :
      Move s t { s.goto t .setBump with build := none }
  | paused (point : s.threads t = .setBump) :
      Move s t { s.goto t .idle with version := s.version + 1, paused := true }
  | lockedBuild {metadata : MiningMetadata} (point : s.threads t = .buildLock metadata)
      (free : s.holder = none) :
      Move s t { s.goto t (.buildGate metadata) with holder := some t }
  | lockedSubmit {bytes : List UInt8} (point : s.threads t = .submitLock bytes)
      (free : s.holder = none) :
      Move s t { s.goto t (.submitGate bytes s.paused) with holder := some t }
  | openedBuild {metadata : MiningMetadata} (point : s.threads t = .buildGate metadata)
      (enabled : s.enabled = true) : Move s t (s.goto t (.buildStore metadata))
  | openedSubmit {bytes : List UInt8} {paused : Bool}
      (point : s.threads t = .submitGate bytes paused) (enabled : s.enabled = true) :
      Move s t (s.goto t (.submitCheck bytes paused))
  | stored {metadata : MiningMetadata} (point : s.threads t = .buildStore metadata) :
      Move s t { s.goto t .buildBump with
        build := some ⟨s.stored, metadata⟩
        stored := s.stored + 1 }
  | took {paused : Bool} (point : s.threads t = .submitTake paused) :
      Move s t { s.goto t (.submitBump s.build.isSome paused) with
        build := none
        consumed := (s.build.map Stored.id).toList ++ s.consumed }
  | bumpedBuild (point : s.threads t = .buildBump) :
      Move s t { s.goto t .buildUnlock with version := s.version + 1 }
  | bumpedSubmit {took paused : Bool} (point : s.threads t = .submitBump took paused) :
      Move s t { s.goto t (.submitUnlock took paused) with version := s.version + 1 }
  | leftBuild (point : s.threads t = .buildUnlock) :
      Move s t { s.goto t .idle with holder := none }
  | leftSubmit {paused : Bool} (point : s.threads t = .submitUnlock true paused) :
      Move s t { s.goto t (.submitImport paused) with holder := none }
  | refused {paused : Bool} (point : s.threads t = .submitUnlock false paused) :
      Move s t { (s.goto t .idle).answered paused (.submit false) with holder := none }
  | readClosed {what : Read} (point : s.threads t = .readGate what) (closed : s.enabled = false) :
      Move s t ((s.goto t .idle).answered s.paused (what.answer none))
  | readSlot {what : Read} (point : s.threads t = .readBuild what) (free : s.holder = none) :
      Move s t ((s.goto t .idle).answered s.paused (what.answer s.shown))
  | readVersion (point : s.threads t = .versionLoad) :
      Move s t ((s.goto t .idle).answered s.paused .version)
  | imported {paused : Bool} (point : s.threads t = .submitImport paused) :
      Move s t ((s.goto t .idle).answered paused (.submit true))
  | notImported {paused : Bool} (point : s.threads t = .submitImport paused) :
      Move s t ((s.goto t (.rebuildGate false)).answered paused (.submit false))

variable {s s' : State} {t : ℕ}

theorem Move.goto {p : Point} (quiet : (s.threads t).Quiet s.build p) : Move s t (s.goto t p) :=
  (.quiet quiet : Move s t { s.goto t p with pendingBuild := s.pendingBuild })

/-- **A step of a thread is one of the moves.** -/
theorem move_of_advance {verdict : Bool} {bestHash : Hash256}
    (h : s.advance t verdict bestHash = some s') : Move s t s' := by
  unfold State.advance at h
  split at h
  case h_1 => cases h
  -- The calls that set the gate.
  case h_2 enabled point =>
    split at h <;> obtain rfl := Option.some.inj h
    · next same => exact .unchanged point same
    · next differs => exact .swapped point differs
  case h_3 enabled point =>
    obtain rfl := Option.some.inj h
    refine .quiet ?_
    rw [point]
    cases enabled <;> constructor <;> simp
  case h_4 point =>
    obtain ⟨free, h⟩ := Option.ite_none_right_eq_some.1 h
    obtain rfl := Option.some.inj h
    exact .emptied point free
  case h_5 point =>
    obtain rfl := Option.some.inj h
    exact .paused point
  case h_6 inSet point =>
    obtain rfl := Option.some.inj h
    refine .goto ?_
    rw [point]
    split <;> constructor <;> simp
  case h_7 inSet point =>
    obtain rfl := Option.some.inj h
    refine .goto ?_
    rw [point]
    constructor <;> simp
  case h_8 inSet hash point =>
    obtain rfl := Option.some.inj h
    refine .quiet ?_
    rw [point]
    constructor <;> simp
  -- A rebuild.
  case h_9 metadata point =>
    obtain ⟨free, h⟩ := Option.ite_none_right_eq_some.1 h
    obtain rfl := Option.some.inj h
    exact .lockedBuild point free
  case h_10 metadata point =>
    obtain rfl := Option.some.inj h
    split
    · next enabled => exact .openedBuild point enabled
    · refine .goto ?_
      rw [point]
      constructor <;> simp
  case h_11 metadata point =>
    obtain rfl := Option.some.inj h
    exact .stored point
  case h_12 point =>
    obtain rfl := Option.some.inj h
    exact .bumpedBuild point
  case h_13 point =>
    obtain rfl := Option.some.inj h
    exact .leftBuild point
  -- The reads.
  case h_14 what point =>
    split at h <;> obtain rfl := Option.some.inj h
    · refine .goto ?_
      rw [point]
      constructor <;> simp
    · next closed => exact .readClosed point (Bool.eq_false_of_not_eq_true closed)
  case h_15 what point =>
    obtain ⟨free, h⟩ := Option.ite_none_right_eq_some.1 h
    obtain rfl := Option.some.inj h
    exact .readSlot point free
  case h_16 point =>
    obtain rfl := Option.some.inj h
    exact .readVersion point
  -- A submit.
  case h_17 bytes point =>
    obtain ⟨free, h⟩ := Option.ite_none_right_eq_some.1 h
    obtain rfl := Option.some.inj h
    exact .lockedSubmit point free
  case h_18 bytes paused point =>
    obtain rfl := Option.some.inj h
    split
    · next enabled => exact .openedSubmit point enabled
    · refine .goto ?_
      rw [point]
      constructor <;> simp
  case h_19 bytes paused point =>
    split at h <;> obtain rfl := Option.some.inj h <;> refine .goto ?_ <;> rw [point]
    · next passed =>
      obtain ⟨build, held⟩ := Option.isSome_iff_exists.1 passed.1
      constructor <;> simp [held]
    · constructor <;> simp
  case h_20 paused point =>
    obtain rfl := Option.some.inj h
    exact .took point
  case h_21 took paused point =>
    obtain rfl := Option.some.inj h
    exact .bumpedSubmit point
  case h_22 took paused point =>
    cases took <;> obtain rfl := Option.some.inj h
    · exact .refused point
    · exact .leftSubmit point
  case h_23 paused point =>
    split at h <;> obtain rfl := Option.some.inj h
    · exact .imported point
    · exact .notImported point

end Qnero.Authoring
