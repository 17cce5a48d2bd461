import Mathlib.Data.List.Nodup
import Mathlib.Data.List.Perm.Basic
import Qnero.Digest
import Qnero.Interleaving

/-!
# The seed caches

A verifier hashes under seeds, and for each seed it needs a cache of 256 MiB. Two seeds are pinned, the
one it hashes under and the next; the caches of others are in a queue that drops the oldest. The
table is behind a short lock, and a cache is filled without it, under a lock that fills take one
after the other: while a fill runs, its seed may be pinned, unpinned or pinned again.
-/

namespace Qnero.CacheTable

open Interleaving

/-! ## The table -/

/-- A filled cache: its seed, and which fill it is from. -/
structure Cache where
  seed : Hash256
  fill : ℕ
deriving DecidableEq

/-- A pinned seed, whether its cache is there or not. -/
structure PinnedSlot where
  seed : Hash256
  cache : Option Cache
deriving DecidableEq

/-- The slots that are named, two at most, and the queue, the oldest first. -/
structure Table where
  pinned : List PinnedSlot
  lru : List (Hash256 × Cache)
deriving DecidableEq

namespace Table

def pinnedLookup (table : Table) (seed : Hash256) : Option Cache :=
  (table.pinned.find? fun slot => slot.seed = seed).bind PinnedSlot.cache

def isPinnedIdentity (table : Table) (seed : Hash256) : Bool :=
  table.pinned.any fun slot => slot.seed = seed

/-- The entry of a seed, and the queue without it. -/
def takeFromLru (lru : List (Hash256 × Cache)) (seed : Hash256) :
    Option Cache × List (Hash256 × Cache) :=
  ((lru.find? fun entry => entry.1 = seed).map Prod.snd, lru.eraseP fun entry => entry.1 = seed)

def touchLru (table : Table) (seed : Hash256) : Option (Cache × Table) :=
  match takeFromLru table.lru seed with
  | (some cache, rest) => some (cache, { table with lru := rest ++ [(seed, cache)] })
  | (none, _) => none

def pushLru (table : Table) (maxCaches : ℕ) (seed : Hash256) (cache : Cache) : Table :=
  let lru := table.lru ++ [(seed, cache)]
  { table with lru := lru.drop (lru.length - maxCaches) }

/-- How many caches are there. -/
def resident (table : Table) : ℕ :=
  (table.pinned.filter fun slot => slot.cache.isSome).length + table.lru.length

/-- The slots of the wanted seeds: one that is kept, or a new one, with the cache that the queue has.
The wanted seeds differ, so a slot is asked for once. -/
def promote (kept : List PinnedSlot) : List Hash256 → List (Hash256 × Cache) →
    List PinnedSlot × List (Hash256 × Cache)
  | [], lru => ([], lru)
  | seed :: wanted, lru =>
    match kept.find? fun slot => slot.seed = seed with
    | some slot =>
      let (slots, lru) := promote kept wanted lru
      (slot :: slots, lru)
    | none =>
      let (cache, lru) := takeFromLru lru seed
      let (slots, lru) := promote kept wanted lru
      (⟨seed, cache⟩ :: slots, lru)

/-- A slot that is given up: its cache goes to the back of the queue. -/
def demote (maxCaches : ℕ) (table : Table) (slot : PinnedSlot) : Table :=
  match slot.cache with
  | some cache => table.pushLru maxCaches slot.seed cache
  | none => table

def wanted (live next : Hash256) : List Hash256 := if live = next then [live] else [live, next]

def pinSeeds (maxCaches : ℕ) (live next : Hash256) (table : Table) : Table :=
  if table.pinned.length = (wanted live next).length ∧
      ∀ seed ∈ wanted live next, seed ∈ table.pinned.map PinnedSlot.seed then table
  else
    let kept := table.pinned.filter fun slot => slot.seed ∈ wanted live next
    let demoted := table.pinned.filter fun slot => slot.seed ∉ wanted live next
    let (slots, lru) := promote kept (wanted live next) table.lru
    demoted.foldl (demote maxCaches) ⟨slots, lru⟩

/-- The first slot of the seed gets the cache. -/
def fillSlot (seed : Hash256) (cache : Cache) : List PinnedSlot → List PinnedSlot
  | [] => []
  | slot :: slots =>
    if slot.seed = seed then { slot with cache := some cache } :: slots
    else slot :: fillSlot seed cache slots

/-- A cache that was filled: into the slot of its seed, as the table is now, or into the queue. -/
def insert (table : Table) (maxCaches : ℕ) (seed : Hash256) (cache : Cache) : Table :=
  if table.isPinnedIdentity seed then
    { table with pinned := fillSlot seed cache table.pinned }
  else table.pushLru maxCaches seed cache

end Table

/-! ## The engine -/

/-- A machine, and the cache it reads. -/
structure PooledVm where
  seed : Hash256
  cache : Cache
deriving DecidableEq

/-- What a cache is asked for: to be there, or for a machine. -/
inductive Use where
  | warm
  | acquire
deriving DecidableEq

inductive Call where
  | pinSeeds (live next : Hash256)
  | warm (seed : Hash256)
  | hash (seed : Hash256)
deriving DecidableEq

/-- Where a thread is in its call: the access it does next. -/
inductive Point where
  | idle
  | pin (live next : Hash256)
  /-- `cache_for`; from the second lookup on, under the lock of the fills. -/
  | lookup (seed : Hash256) (use : Use)
  | buildLock (seed : Hash256) (use : Use)
  | recheck (seed : Hash256) (use : Use)
  | fill (seed : Hash256) (use : Use)
  | insert (seed : Hash256) (cache : Cache) (use : Use)
  | unlock (seed : Hash256) (result : Option Cache) (use : Use)
  /-- `acquire`, the hash, and the release of the machine. -/
  | popIdle (seed : Hash256)
  | attach (seed : Hash256) (cache : Cache)
  | leased (vm : PooledVm)
deriving DecidableEq

structure Settings where
  maxCaches : ℕ
  maxIdleVms : ℕ

structure State where
  table : Table
  /-- Who fills. -/
  building : Option ℕ
  idle : List PooledVm
  threads : ℕ → Point
  cacheInitialisations : ℕ
  /-- The answers of `cache_for`. -/
  returned : List (Hash256 × Cache)

def State.initial : State where
  table := ⟨[], []⟩
  building := none
  idle := []
  threads := fun _ => .idle
  cacheInitialisations := 0
  returned := []

/-- A thread starts a call, or does the next access of its call; a fill, and giving a cache to a
machine, may fail. -/
inductive Action where
  | call (thread : ℕ) (call : Call)
  | advance (thread : ℕ) (succeeds : Bool)
deriving DecidableEq

def Call.entry : Call → Point
  | pinSeeds live next => .pin live next
  | warm seed => .lookup seed .warm
  | hash seed => .popIdle seed

namespace State

def goto (s : State) (thread : ℕ) (point : Point) : State :=
  { s with threads := Function.update s.threads thread point }

/-- `cache_for` returns. -/
def answer (s : State) (thread : ℕ) (seed : Hash256) (result : Option Cache) (use : Use) : State :=
  match result with
  | none => s.goto thread .idle
  | some cache =>
    { s.goto thread (match use with | .warm => .idle | .acquire => .attach seed cache) with
      returned := (seed, cache) :: s.returned }

/-- A cache that is there, wherever; one of the queue becomes its newest. -/
def find (table : Table) (seed : Hash256) : Option (Cache × Table) :=
  match table.pinnedLookup seed with
  | some cache => some (cache, table)
  | none => table.touchLru seed

def advance (settings : Settings) (s : State) (t : ℕ) (succeeds : Bool) : Option State :=
  match s.threads t with
  | .idle => none
  | .pin live next =>
    some { s.goto t .idle with table := s.table.pinSeeds settings.maxCaches live next }
  | .lookup seed use =>
    match find s.table seed with
    | some (cache, table) => some { s.answer t seed (some cache) use with table := table }
    | none => some (s.goto t (.buildLock seed use))
  | .buildLock seed use =>
    if s.building = none then some { s.goto t (.recheck seed use) with building := some t } else none
  | .recheck seed use =>
    match find s.table seed with
    | some (cache, table) => some { s.goto t (.unlock seed (some cache) use) with table := table }
    | none => some (s.goto t (.fill seed use))
  | .fill seed use =>
    if succeeds then
      some { s.goto t (.insert seed ⟨seed, s.cacheInitialisations⟩ use) with
        cacheInitialisations := s.cacheInitialisations + 1 }
    else some (s.goto t (.unlock seed none use))
  | .insert seed cache use =>
    some { s.goto t (.unlock seed (some cache) use) with
      table := s.table.insert settings.maxCaches seed cache }
  | .unlock seed result use => some { s.answer t seed result use with building := none }
  | .popIdle seed =>
    match s.idle.getLast? with
    | some vm =>
      some { s.goto t (if vm.seed = seed then .leased vm else .lookup seed .acquire) with
        idle := s.idle.dropLast }
    | none => some (s.goto t (.lookup seed .acquire))
  | .attach seed cache => some (s.goto t (if succeeds then .leased ⟨seed, cache⟩ else .idle))
  | .leased vm =>
    some { s.goto t .idle with
      idle := if s.idle.length < settings.maxIdleVms then s.idle ++ [vm] else s.idle }

def step (settings : Settings) (action : Action) (s : State) : Option State :=
  match action with
  | .call t call => if s.threads t = .idle then some (s.goto t call.entry) else none
  | .advance t succeeds => s.advance settings t succeeds

end State

/-! ## What the table holds -/

namespace Table

variable {maxCaches : ℕ} {table table' : Table} {seed seed' : Hash256} {cache cache' : Cache}

/-- The cache is there for the seed, in a slot or in the queue. -/
def Holds (table : Table) (seed : Hash256) (cache : Cache) : Prop :=
  ⟨seed, some cache⟩ ∈ table.pinned ∨ (seed, cache) ∈ table.lru

/-- The seeds of the slots and of the queue. -/
def seeds (table : Table) : List Hash256 :=
  table.pinned.map PinnedSlot.seed ++ table.lru.map Prod.fst

/-- **A table in order**: no seed is there twice, and each cache is the one of its seed. -/
structure Ok (maxCaches : ℕ) (table : Table) : Prop where
  nodup : table.seeds.Nodup
  slots : table.pinned.length ≤ 2
  queue : table.lru.length ≤ maxCaches
  built : ∀ seed cache, table.Holds seed cache → cache.seed = seed

theorem Ok.resident_le (ok : table.Ok maxCaches) : table.resident ≤ 2 + maxCaches :=
  Nat.add_le_add (le_trans (List.length_filter_le ..) ok.slots) ok.queue

/-- One seed, one slot. -/
theorem Ok.slot_unique (ok : table.Ok maxCaches) {slot slot' : PinnedSlot} (mem : slot ∈ table.pinned)
    (mem' : slot' ∈ table.pinned) (same : slot.seed = slot'.seed) : slot = slot' :=
  List.inj_on_of_nodup_map (List.Nodup.of_append_left ok.nodup) mem mem' same

variable {slot : PinnedSlot} {lru rest : List (Hash256 × Cache)}

theorem find?_slot (ok : table.Ok maxCaches) (mem : slot ∈ table.pinned) :
    (table.pinned.find? fun held => held.seed = slot.seed) = some slot := by
  cases found : table.pinned.find? fun held => held.seed = slot.seed with
  | none =>
    have := List.find?_eq_none.1 found slot mem
    simp at this
  | some held =>
    have here := List.mem_of_find?_eq_some found
    have same := List.find?_some found
    exact congrArg some (ok.slot_unique here mem (of_decide_eq_true same))

theorem pinnedLookup_eq_some (ok : table.Ok maxCaches) :
    table.pinnedLookup seed = some cache ↔ ⟨seed, some cache⟩ ∈ table.pinned := by
  constructor
  · intro h
    obtain ⟨slot, found, held⟩ := Option.bind_eq_some_iff.1 h
    have mem := List.mem_of_find?_eq_some found
    have same := List.find?_some found
    obtain ⟨slotSeed, slotCache⟩ := slot
    obtain rfl : slotSeed = seed := of_decide_eq_true same
    obtain rfl : slotCache = some cache := held
    exact mem
  · intro mem
    rw [pinnedLookup, find?_slot ok mem]
    rfl

/-! ### Touching and pushing -/

/-- What is taken from the queue was there once. -/
theorem takeFromLru_perm (h : takeFromLru lru seed = (some cache, rest)) :
    lru.Perm ((seed, cache) :: rest) := by
  obtain ⟨found, erased⟩ := Prod.mk.inj h
  obtain ⟨entry, met, rfl⟩ := Option.map_eq_some_iff.1 found
  obtain ⟨here, before, after, rfl, unmet⟩ := List.find?_eq_some_iff_append.1 met
  have here : entry.1 = seed := of_decide_eq_true here
  subst erased here
  rw [List.eraseP_append_right _ (by simpa using unmet), List.eraseP_cons_of_pos (by simp)]
  exact List.perm_middle

theorem takeFromLru_none (h : takeFromLru lru seed = (none, rest)) :
    seed ∉ lru.map Prod.fst ∧ rest = lru := by
  obtain ⟨found, erased⟩ := Prod.mk.inj h
  have unmet := List.find?_eq_none.1 (Option.map_eq_none_iff.1 found)
  constructor
  · intro mem
    obtain ⟨entry, mem, same⟩ := List.mem_map.1 mem
    exact unmet entry mem (decide_eq_true same)
  · rw [← erased, List.eraseP_of_forall_not unmet]

/-- Taking a seed from a queue that has no seed twice. -/
theorem takeFromLru_spec (seed : Hash256) (nodup : (lru.map Prod.fst).Nodup) :
    (takeFromLru lru seed).2.Sublist lru ∧ seed ∉ (takeFromLru lru seed).2.map Prod.fst ∧
      ∀ cache ∈ (takeFromLru lru seed).1, (seed, cache) ∈ lru := by
  refine ⟨List.eraseP_sublist, ?_⟩
  match h : takeFromLru lru seed with
  | (some cache, rest) =>
    have perm := takeFromLru_perm h
    have grown := (perm.map Prod.fst).nodup_iff.1 nodup
    refine ⟨(List.nodup_cons.1 grown).1, ?_⟩
    rintro _ ⟨⟩
    exact perm.mem_iff.2 (List.mem_cons_self ..)
  | (none, rest) =>
    obtain ⟨absent, rfl⟩ := takeFromLru_none h
    exact ⟨absent, nofun⟩

theorem Ok.perm (ok : table.Ok maxCaches) (perm : lru.Perm table.lru) :
    Ok maxCaches { table with lru := lru } where
  nodup := (List.Perm.append_left _ (perm.map Prod.fst)).nodup_iff.2 ok.nodup
  slots := ok.slots
  queue := perm.length_eq ▸ ok.queue
  built seed cache h := ok.built seed cache (h.imp_right perm.mem_iff.1)

/-- A seed that is new to the table is pushed to the queue. -/
theorem Ok.pushLru (ok : table.Ok maxCaches) (fresh : seed ∉ table.seeds) (built : cache.seed = seed) :
    (table.pushLru maxCaches seed cache).Ok maxCaches := by
  have sub : (table.pushLru maxCaches seed cache).lru.Sublist (table.lru ++ [(seed, cache)]) :=
    List.drop_sublist ..
  refine ⟨?_, ok.slots, ?_, ?_⟩
  · have grown : (table.seeds ++ [seed]).Nodup := by
      rw [List.nodup_append_comm]
      exact List.nodup_cons.2 ⟨fresh, ok.nodup⟩
    refine List.Nodup.sublist ?_ grown
    rw [seeds, seeds, List.append_assoc]
    exact (List.Sublist.refl _).append (by simpa using sub.map Prod.fst)
  · simp only [Table.pushLru, List.length_drop]
    omega
  · rintro other held (slot | queued)
    · exact ok.built other held (.inl slot)
    · rcases List.mem_append.1 (sub.subset queued) with mem | mem
      · exact ok.built other held (.inr mem)
      · obtain ⟨rfl, rfl⟩ := Prod.mk.inj (List.mem_singleton.1 mem)
        exact built

theorem Holds.of_pushLru (h : (table.pushLru maxCaches seed cache).Holds seed' cache') :
    table.Holds seed' cache' ∨ seed' = seed ∧ cache' = cache := by
  rcases h with slot | queued
  · exact .inl (.inl slot)
  · rcases List.mem_append.1 (List.mem_of_mem_drop queued) with mem | mem
    · exact .inl (.inr mem)
    · exact .inr (Prod.mk.inj (List.mem_singleton.1 mem))

theorem seeds_pushLru (h : seed' ∈ (table.pushLru maxCaches seed cache).seeds) :
    seed' ∈ table.seeds ∨ seed' = seed := by
  rcases List.mem_append.1 h with slot | queued
  · exact .inl (List.mem_append.2 (.inl slot))
  · obtain ⟨entry, mem, rfl⟩ := List.mem_map.1 queued
    rcases List.mem_append.1 (List.mem_of_mem_drop mem) with mem | mem
    · exact .inl (List.mem_append.2 (.inr (List.mem_map_of_mem mem)))
    · exact .inr (congrArg Prod.fst (List.mem_singleton.1 mem))

/-! ### Pinning -/

/-- The slots are those of the wanted seeds, kept or with what the queue had, which is then gone
from it. -/
structure Promoted (kept : List PinnedSlot) (wanted : List Hash256) (lru : List (Hash256 × Cache))
    (slots : List PinnedSlot) (rest : List (Hash256 × Cache)) : Prop where
  named : slots.map PinnedSlot.seed = wanted
  sublist : rest.Sublist lru
  gone : ∀ seed ∈ wanted, (∀ slot ∈ kept, slot.seed ≠ seed) → seed ∉ rest.map Prod.fst
  source : ∀ slot ∈ slots, slot ∈ kept ∨ ∀ cache ∈ slot.cache, (slot.seed, cache) ∈ lru
  kept : ∀ seed ∈ wanted, ∀ slot, (kept.find? fun held => held.seed = seed) = some slot →
    slot ∈ slots

/-- One wanted seed after the other: a kept slot stays, any other is filled from the queue. -/
theorem promoted (kept : List PinnedSlot) (wanted : List Hash256) (lru : List (Hash256 × Cache))
    (nodup : (lru.map Prod.fst).Nodup) :
    Promoted kept wanted lru (promote kept wanted lru).1 (promote kept wanted lru).2 := by
  induction wanted generalizing lru with
  | nil => exact ⟨rfl, .refl _, nofun, nofun, nofun⟩
  | cons seed wanted ih =>
    simp only [promote]
    cases found : kept.find? fun slot => slot.seed = seed with
    | some slot =>
      have inv := ih lru nodup
      have mem := List.mem_of_find?_eq_some found
      have same := List.find?_some found
      have same : slot.seed = seed := of_decide_eq_true same
      refine ⟨?_, inv.sublist, ?_, ?_, ?_⟩
      · rw [List.map_cons, inv.named, same]
      · intro other mem' unkept
        rcases List.mem_cons.1 mem' with rfl | mem'
        · exact absurd same (unkept slot mem)
        · exact inv.gone other mem' unkept
      · intro held mem'
        rcases List.mem_cons.1 mem' with rfl | mem'
        · exact .inl mem
        · exact inv.source held mem'
      · intro other mem' held found'
        rcases List.mem_cons.1 mem' with rfl | mem'
        · obtain rfl := Option.some.inj (found.symm.trans found')
          exact List.mem_cons_self ..
        · exact List.mem_cons_of_mem _ (inv.kept other mem' held found')
    | none =>
      obtain ⟨sub, gone, source⟩ := takeFromLru_spec seed nodup
      have inv := ih _ (sub.map Prod.fst |>.nodup nodup)
      refine ⟨?_, inv.sublist.trans sub, ?_, ?_, ?_⟩
      · rw [List.map_cons, inv.named]
      · intro other mem unkept
        rcases List.mem_cons.1 mem with rfl | mem
        · exact fun queued => gone ((inv.sublist.map Prod.fst).subset queued)
        · exact inv.gone other mem unkept
      · intro held mem
        rcases List.mem_cons.1 mem with rfl | mem
        · exact .inr source
        · exact (inv.source held mem).imp_right fun taken cache here => sub.subset (taken cache here)
      · intro other mem held found'
        rcases List.mem_cons.1 mem with rfl | mem
        · rw [found] at found'
          cases found'
        · exact List.mem_cons_of_mem _ (inv.kept other mem held found')

/-- Slots that are given up one after the other. -/
theorem demoteAll (demoted : List PinnedSlot) (ok : table.Ok maxCaches)
    (fresh : ∀ slot ∈ demoted, slot.seed ∉ table.seeds)
    (nodup : (demoted.map PinnedSlot.seed).Nodup)
    (built : ∀ slot ∈ demoted, ∀ cache ∈ slot.cache, cache.seed = slot.seed) :
    (demoted.foldl (demote maxCaches) table).Ok maxCaches ∧
      (demoted.foldl (demote maxCaches) table).pinned = table.pinned ∧
      ∀ seed cache, (demoted.foldl (demote maxCaches) table).Holds seed cache →
        table.Holds seed cache ∨ ⟨seed, some cache⟩ ∈ demoted := by
  induction demoted generalizing table with
  | nil => exact ⟨ok, rfl, fun _ _ h => .inl h⟩
  | cons slot demoted ih =>
    rw [List.map_cons, List.nodup_cons] at nodup
    obtain ⟨slotSeed, slotCache⟩ := slot
    have here := fresh _ (List.mem_cons_self ..)
    have later : ∀ slot ∈ demoted, slot.seed ∉ table.seeds :=
      fun slot mem => fresh slot (List.mem_cons_of_mem _ mem)
    have builts : ∀ slot ∈ demoted, ∀ cache ∈ slot.cache, cache.seed = slot.seed :=
      fun slot mem => built slot (List.mem_cons_of_mem _ mem)
    rw [List.foldl_cons]
    cases slotCache with
    | none =>
      obtain ⟨ok', pinned, holds⟩ := ih ok later nodup.2 builts
      exact ⟨ok', pinned, fun seed cache h => (holds seed cache h).imp_right
        (List.mem_cons_of_mem _)⟩
    | some cache =>
      have pushed := ok.pushLru here (built _ (List.mem_cons_self ..) cache rfl)
      have unmet : ∀ slot ∈ demoted, slot.seed ∉ (table.pushLru maxCaches slotSeed cache).seeds := by
        intro slot mem inside
        rcases seeds_pushLru inside with old | same
        · exact later slot mem old
        · exact nodup.1 (List.mem_map.2 ⟨slot, mem, same⟩)
      obtain ⟨ok', pinned, holds⟩ := ih pushed unmet nodup.2 builts
      refine ⟨ok', pinned, fun seed held h => ?_⟩
      rcases holds seed held h with old | mem
      · rcases old.of_pushLru with older | ⟨rfl, rfl⟩
        · exact .inl older
        · exact .inr (List.mem_cons_self ..)
      · exact .inr (List.mem_cons_of_mem _ mem)

theorem nodup_wanted (live next : Hash256) : (wanted live next).Nodup := by
  unfold wanted
  split
  · exact List.nodup_singleton _
  · next ne => simpa using ne

theorem length_wanted_le (live next : Hash256) : (wanted live next).length ≤ 2 := by
  unfold wanted
  split <;> simp

/-- **Pinning keeps the table in order**, brings nothing that was not there, and leaves a filled slot
that stays pinned as it is. -/
theorem Ok.pinSeeds (ok : table.Ok maxCaches) (live next : Hash256) :
    (table.pinSeeds maxCaches live next).Ok maxCaches ∧
      (∀ seed cache, (table.pinSeeds maxCaches live next).Holds seed cache → table.Holds seed cache) ∧
      ∀ seed cache, ⟨seed, some cache⟩ ∈ table.pinned →
        (table.pinSeeds maxCaches live next).isPinnedIdentity seed = true →
        ⟨seed, some cache⟩ ∈ (table.pinSeeds maxCaches live next).pinned := by
  unfold Table.pinSeeds
  split
  · exact ⟨ok, fun _ _ h => h, fun _ _ h _ => h⟩
  obtain ⟨nodupSlots, nodupQueue, disjoint⟩ := List.nodup_append'.1 ok.nodup
  set kept := table.pinned.filter fun slot => slot.seed ∈ wanted live next with hkept
  have inv := promoted kept (wanted live next) table.lru nodupQueue
  have held_of : ∀ seed cache, Holds ⟨(promote kept (wanted live next) table.lru).1,
      (promote kept (wanted live next) table.lru).2⟩ seed cache → table.Holds seed cache := by
    rintro seed cache (slot | queued)
    · rcases inv.source _ slot with mem | taken
      · exact .inl (List.mem_of_mem_filter mem)
      · exact .inr (taken cache rfl)
    · exact .inr (inv.sublist.subset queued)
  -- Nothing is pinned and queued at once: what is promoted left the queue.
  have promotedOk : Ok maxCaches ⟨(promote kept (wanted live next) table.lru).1,
      (promote kept (wanted live next) table.lru).2⟩ := by
    refine ⟨?_, ?_, le_trans inv.sublist.length_le ok.queue,
      fun seed cache h => ok.built seed cache (held_of seed cache h)⟩
    · rw [seeds, inv.named]
      refine List.nodup_append'.2 ⟨nodup_wanted live next,
        (inv.sublist.map Prod.fst).nodup nodupQueue, fun seed named queued => ?_⟩
      by_cases unkept : ∀ slot ∈ kept, slot.seed ≠ seed
      · exact inv.gone seed named unkept queued
      · push Not at unkept
        obtain ⟨slot, mem, rfl⟩ := unkept
        exact disjoint (List.mem_map_of_mem (List.mem_of_mem_filter mem))
          ((inv.sublist.map Prod.fst).subset queued)
    · have := congrArg List.length inv.named
      rw [List.length_map] at this
      exact this ▸ length_wanted_le live next
  -- A slot that is given up is not among the wanted seeds, so its push is a new entry.
  have fresh : ∀ slot ∈ table.pinned.filter fun slot => slot.seed ∉ wanted live next,
      slot.seed ∉ seeds ⟨(promote kept (wanted live next) table.lru).1,
        (promote kept (wanted live next) table.lru).2⟩ := by
    intro slot mem inside
    obtain ⟨mem, unwanted⟩ := List.mem_filter.1 mem
    rcases List.mem_append.1 inside with named | queued
    · exact of_decide_eq_true unwanted (inv.named ▸ named)
    · exact disjoint (List.mem_map_of_mem mem) ((inv.sublist.map Prod.fst).subset queued)
  obtain ⟨ok', pinned, holds⟩ := demoteAll _ promotedOk fresh
    ((List.filter_sublist.map _).nodup nodupSlots)
    fun slot mem cache held => ok.built slot.seed cache
      (.inl (by rw [← show slot.cache = some cache from held]; exact List.mem_of_mem_filter mem))
  refine ⟨ok', fun seed cache h => ?_, fun seed cache mem named => ?_⟩
  · rcases holds seed cache h with held | mem
    · exact held_of seed cache held
    · exact .inl (List.mem_of_mem_filter mem)
  · rw [isPinnedIdentity, pinned] at named
    rw [pinned]
    obtain ⟨slot, mem', same⟩ := List.any_eq_true.1 named
    obtain rfl : slot.seed = seed := of_decide_eq_true same
    have inWanted : slot.seed ∈ wanted live next := inv.named ▸ List.mem_map_of_mem mem'
    refine inv.kept slot.seed inWanted _ ?_
    have found := find?_slot ok mem
    rw [hkept, List.find?_filter, ← found]
    refine List.find?_congr fun held _ => ?_
    by_cases same : held.seed = slot.seed <;> simp [same, inWanted]

/-! ### Filling and finding -/

theorem map_seed_fillSlot (seed : Hash256) (cache : Cache) (slots : List PinnedSlot) :
    (fillSlot seed cache slots).map PinnedSlot.seed = slots.map PinnedSlot.seed := by
  induction slots with
  | nil => rfl
  | cons slot slots ih =>
    rw [fillSlot]
    split
    · rfl
    · rw [List.map_cons, List.map_cons, ih]

theorem mem_fillSlot {slots : List PinnedSlot} (h : slot ∈ fillSlot seed cache slots) :
    slot ∈ slots ∨ slot = ⟨seed, some cache⟩ := by
  induction slots with
  | nil => cases h
  | cons first slots ih =>
    rw [fillSlot] at h
    split at h
    next same =>
      rcases List.mem_cons.1 h with rfl | mem
      · exact .inr (same ▸ rfl)
      · exact .inl (List.mem_cons_of_mem _ mem)
    · rcases List.mem_cons.1 h with rfl | mem
      · exact .inl (List.mem_cons_self ..)
      · exact (ih mem).imp_left (List.mem_cons_of_mem _)

theorem mem_fillSlot_of_ne {slots : List PinnedSlot} (mem : slot ∈ slots) (ne : slot.seed ≠ seed) :
    slot ∈ fillSlot seed cache slots := by
  induction slots with
  | nil => cases mem
  | cons first slots ih =>
    rw [fillSlot]
    split
    next same =>
      rcases List.mem_cons.1 mem with rfl | mem
      · exact absurd same ne
      · exact List.mem_cons_of_mem _ mem
    · rcases List.mem_cons.1 mem with rfl | mem
      · exact List.mem_cons_self ..
      · exact List.mem_cons_of_mem _ (ih mem)

/-- **A cache that was not there** is put in order, and takes no other from its slot. -/
theorem Ok.insert (ok : table.Ok maxCaches) (cold : ∀ cache, ¬ table.Holds seed cache)
    (built : cache.seed = seed) :
    (table.insert maxCaches seed cache).Ok maxCaches ∧
      ∀ seed' cache', ⟨seed', some cache'⟩ ∈ table.pinned →
        ⟨seed', some cache'⟩ ∈ (table.insert maxCaches seed cache).pinned := by
  unfold Table.insert
  split
  next named =>
    refine ⟨⟨?_, ?_, ok.queue, ?_⟩, ?_⟩
    · rw [seeds, map_seed_fillSlot]
      exact ok.nodup
    · have := congrArg List.length (map_seed_fillSlot seed cache table.pinned)
      rw [List.length_map, List.length_map] at this
      exact this ▸ ok.slots
    · rintro seed' cache' (slot | queued)
      · rcases mem_fillSlot slot with mem | same
        · exact ok.built seed' cache' (.inl mem)
        · obtain ⟨rfl, h⟩ := PinnedSlot.mk.inj same
          exact Option.some.inj h ▸ built
      · exact ok.built seed' cache' (.inr queued)
    · intro seed' cache' mem
      refine mem_fillSlot_of_ne mem ?_
      rintro rfl
      exact cold cache' (.inl mem)
  next unnamed =>
    have fresh : seed ∉ table.seeds := by
      intro mem
      rcases List.mem_append.1 mem with slot | queued
      · obtain ⟨held, here, rfl⟩ := List.mem_map.1 slot
        exact unnamed (List.any_eq_true.2 ⟨held, here, decide_eq_true rfl⟩)
      · obtain ⟨⟨_, held⟩, here, rfl⟩ := List.mem_map.1 queued
        exact cold held (.inr here)
    exact ⟨ok.pushLru fresh built, fun _ _ h => h⟩

theorem Holds.perm (perm : lru.Perm table.lru) :
    Holds { table with lru := lru } seed cache ↔ table.Holds seed cache :=
  or_congr_right perm.mem_iff

/-- What is found is there, and finding it moves it in the queue at most. -/
theorem find_some (ok : table.Ok maxCaches) (h : State.find table seed = some (cache, table')) :
    table.Holds seed cache ∧ ∃ lru, lru.Perm table.lru ∧ table' = { table with lru := lru } := by
  unfold State.find at h
  split at h
  next held eq =>
    obtain ⟨rfl, rfl⟩ := Prod.mk.inj (Option.some.inj h)
    exact ⟨.inl ((pinnedLookup_eq_some ok).1 eq), table.lru, .refl _, rfl⟩
  · unfold touchLru at h
    split at h
    next held rest taken =>
      obtain ⟨rfl, rfl⟩ := Prod.mk.inj (Option.some.inj h)
      have perm := takeFromLru_perm taken
      exact ⟨.inr (perm.mem_iff.2 (List.mem_cons_self ..)), _,
        (List.perm_append_singleton ..).trans perm.symm, rfl⟩
    · cases h

/-- What is not found is not there. -/
theorem find_none (ok : table.Ok maxCaches) (h : State.find table seed = none) (cache : Cache) :
    ¬ table.Holds seed cache := by
  unfold State.find at h
  split at h
  · cases h
  next missing =>
    rintro (slot | queued)
    · rw [(pinnedLookup_eq_some ok).2 slot] at missing
      cases missing
    · unfold touchLru at h
      split at h
      · cases h
      next rest taken => exact (takeFromLru_none taken).1 (List.mem_map_of_mem queued)

end Table

/-! ## What the threads are doing -/

/-- The thread has the lock of the fills. -/
def Point.Builds : Point → Prop
  | .recheck .. | .fill .. | .insert .. | .unlock .. => True
  | _ => False

/-- The seed that the thread fills a cache for, until the cache is in the table. -/
def Point.filling : Point → Option Hash256
  | .fill seed _ | .insert seed _ _ => some seed
  | _ => none

/-- The caches that the thread has, with the seeds it has them for. -/
def Point.carries : Point → List (Hash256 × Cache)
  | .insert seed cache _ | .unlock seed (some cache) _ | .attach seed cache => [(seed, cache)]
  | .leased vm => [(vm.seed, vm.cache)]
  | _ => []

theorem Point.builds_of_filling {point : Point} {seed : Hash256} (h : point.filling = some seed) :
    point.Builds := by
  cases point <;> trivial

/-- **What holds between two accesses**: who fills has the lock, and fills what is not there. -/
structure Sound (settings : Settings) (s : State) : Prop where
  table : s.table.Ok settings.maxCaches
  builder : ∀ t, (s.threads t).Builds → s.building = some t
  cold : ∀ t seed, (s.threads t).filling = some seed → ∀ cache, ¬ s.table.Holds seed cache
  right : ∀ t, ∀ entry ∈ (s.threads t).carries, entry.2.seed = entry.1
  idle : ∀ vm ∈ s.idle, vm.cache.seed = vm.seed
  returned : ∀ entry ∈ s.returned, entry.2.seed = entry.1

namespace Sound

variable {settings : Settings} {s s' : State} {t u : ℕ} {point : Point}

theorem initial (settings : Settings) : Sound settings .initial where
  table := ⟨List.nodup_nil, Nat.zero_le _, Nat.zero_le _, by rintro seed cache (h | h) <;> cases h⟩
  builder _ h := h.elim
  cold _ _ h := nomatch h
  right _ _ h := nomatch h
  idle := nofun
  returned := nofun

section

variable (sound : Sound settings s)
include sound

theorem alone (ht : (s.threads t).Builds) (hu : (s.threads u).Builds) : t = u :=
  Option.some.inj ((sound.builder t ht).symm.trans (sound.builder u hu))

/-- One thread moves: what it leaves behind, and what it has at the point it moves to. -/
theorem moved (threads : s'.threads = Function.update s.threads t point)
    (table : s'.table.Ok settings.maxCaches)
    (grown : ∀ seed cache, s'.table.Holds seed cache →
      s.table.Holds seed cache ∨ (s.threads t).Builds)
    (others : ∀ u, u ≠ t → (s.threads u).Builds → s'.building = some u)
    (self : point.Builds → s'.building = some t)
    (cold : ∀ seed, point.filling = some seed → ∀ cache, ¬ s'.table.Holds seed cache)
    (right : ∀ entry ∈ point.carries, entry.2.seed = entry.1)
    (idle : ∀ vm ∈ s'.idle, vm.cache.seed = vm.seed)
    (returned : ∀ entry ∈ s'.returned, entry.2.seed = entry.1) : Sound settings s' where
  table := table
  builder := threads ▸ forall_update (P := fun u (q : Point) => q.Builds → s'.building = some u)
    self others
  cold := by
    rw [threads]
    refine forall_update (P := fun _ (q : Point) => ∀ seed, q.filling = some seed →
      ∀ cache, ¬ s'.table.Holds seed cache) cold ?_
    intro u ne seed filling cache held
    rcases grown seed cache held with old | builds
    · exact sound.cold u seed filling cache old
    · exact ne (sound.alone (Point.builds_of_filling filling) builds)
  right := threads ▸ forall_update (P := fun _ (q : Point) => ∀ entry ∈ q.carries,
    entry.2.seed = entry.1) right fun u _ => sound.right u
  idle := idle
  returned := returned

/-- A thread moves and leaves the rest as it is. -/
theorem goto (self : point.Builds → (s.threads t).Builds)
    (cold : ∀ seed, point.filling = some seed → ∀ cache, ¬ s.table.Holds seed cache)
    (right : ∀ entry ∈ point.carries, entry.2.seed = entry.1) : Sound settings (s.goto t point) :=
  sound.moved rfl sound.table (fun _ _ h => .inl h) (fun u _ h => sound.builder u h)
    (fun h => sound.builder t (self h)) cold right sound.idle sound.returned

/-- The table changes in order, and no more is there than before. -/
theorem retable {table : Table} (ok : table.Ok settings.maxCaches)
    (grown : ∀ seed cache, table.Holds seed cache → s.table.Holds seed cache) :
    Sound settings { s with table := table } where
  table := ok
  builder := sound.builder
  cold t seed h cache held := sound.cold t seed h cache (grown seed cache held)
  right := sound.right
  idle := sound.idle
  returned := sound.returned

/-- `cache_for` returns what is right. -/
theorem answer {seed : Hash256} {result : Option Cache} {use : Use}
    (right : ∀ cache ∈ result, cache.seed = seed) : Sound settings (s.answer t seed result use) := by
  unfold State.answer
  cases result with
  | none => exact sound.goto False.elim nofun nofun
  | some cache =>
    have moves : ∀ point : Point, ¬ point.Builds → point.filling = none →
        (∀ entry ∈ point.carries, entry = (seed, cache)) →
        Sound settings { s.goto t point with returned := (seed, cache) :: s.returned } := by
      intro point apart unfilled carries
      refine sound.moved rfl sound.table (fun _ _ h => .inl h) (fun u _ h => sound.builder u h)
        (fun h => (apart h).elim) (fun _ h => ?_) ?_ sound.idle ?_
      · rw [unfilled] at h
        cases h
      · intro entry mem
        obtain rfl := carries entry mem
        exact right cache rfl
      · intro entry mem
        rcases List.mem_cons.1 mem with rfl | mem
        · exact right cache rfl
        · exact sound.returned entry mem
    cases use with
    | warm => exact moves .idle id rfl nofun
    | acquire => exact moves (.attach seed cache) id rfl fun entry mem => List.mem_singleton.1 mem

end

theorem answer_threads (s : State) (t : ℕ) (seed : Hash256) (result : Option Cache) (use : Use) :
    ∃ point : Point, ¬ point.Builds ∧
      (s.answer t seed result use).threads = Function.update s.threads t point := by
  cases result with
  | none => exact ⟨.idle, id, rfl⟩
  | some cache => cases use <;> exact ⟨_, id, rfl⟩

/-- The lock of the fills is given back. -/
theorem release (sound : Sound settings s) (builds : (s.threads t).Builds) {seed : Hash256}
    {result : Option Cache} {use : Use} (right : ∀ cache ∈ result, cache.seed = seed) :
    Sound settings { s.answer t seed result use with building := none } := by
  have answered : Sound settings (s.answer t seed result use) := sound.answer right
  obtain ⟨point, apart, threads⟩ := answer_threads s t seed result use
  refine ⟨answered.table, ?_, answered.cold, answered.right, answered.idle, answered.returned⟩
  show ∀ u, ((s.answer t seed result use).threads u).Builds → none = some u
  rw [threads]
  exact forall_update (P := fun u (q : Point) => q.Builds → none = some u) (fun h => (apart h).elim)
    fun u ne h => (ne (sound.alone h builds)).elim

theorem answer_table (s : State) (t : ℕ) (seed : Hash256) (result : Option Cache) (use : Use) :
    (s.answer t seed result use).table = s.table := by
  cases result <;> rfl

/-- **One access.** What is put in the table is what was filled for, under the lock; a filled slot is
as it was while its seed is pinned. -/
theorem advance (sound : Sound settings s) {succeeds : Bool}
    (h : s.advance settings t succeeds = some s') :
    Sound settings s' ∧ ∀ seed cache, ⟨seed, some cache⟩ ∈ s.table.pinned →
      s'.table.isPinnedIdentity seed = true → ⟨seed, some cache⟩ ∈ s'.table.pinned := by
  unfold State.advance at h
  split at h
  case h_1 => cases h
  case h_2 live next at_ =>
    obtain rfl := Option.some.inj h
    -- Pinning, by a thread that has nothing in hand.
    obtain ⟨ok, grown, stays⟩ := sound.table.pinSeeds live next
    have moved : Sound settings (s.goto t .idle) := sound.goto False.elim nofun nofun
    exact ⟨moved.retable ok grown, stays⟩
  -- The lookup without the build lock. A hit only moves its entry in the queue.
  case h_3 seed use at_ =>
    split at h
    next cache table found =>
      obtain rfl := Option.some.inj h
      obtain ⟨held, lru, perm, rfl⟩ := Table.find_some sound.table found
      have answered : Sound settings (s.answer t seed (some cache) use) :=
        sound.answer fun _ same => Option.some.inj same ▸ sound.table.built seed cache held
      exact ⟨answered.retable (sound.table.perm perm) fun _ _ => (Table.Holds.perm perm).1,
        fun _ _ mem _ => mem⟩
    · obtain rfl := Option.some.inj h
      exact ⟨sound.goto False.elim nofun nofun, fun _ _ mem _ => mem⟩
  -- The build lock is taken while nobody builds.
  case h_4 seed use at_ =>
    split at h
    next free =>
      obtain rfl := Option.some.inj h
      refine ⟨sound.moved rfl sound.table (fun _ _ h => .inl h) (fun u _ builds => ?_)
        (fun _ => rfl) nofun nofun sound.idle sound.returned, fun _ _ mem _ => mem⟩
      exact absurd (sound.builder u builds) (by simp [free])
    · cases h
  -- The second lookup, under the lock: behind a miss the seed stays cold.
  case h_5 seed use at_ =>
    have builds : (s.threads t).Builds := by rw [at_]; trivial
    split at h
    next cache table found =>
      obtain rfl := Option.some.inj h
      obtain ⟨held, lru, perm, rfl⟩ := Table.find_some sound.table found
      have right := sound.table.built seed cache held
      have moved : Sound settings (s.goto t (.unlock seed (some cache) use)) :=
        sound.goto (fun _ => builds) nofun fun entry mem => List.mem_singleton.1 mem ▸ right
      exact ⟨moved.retable (sound.table.perm perm) fun _ _ => (Table.Holds.perm perm).1,
        fun _ _ mem _ => mem⟩
    next missing =>
      obtain rfl := Option.some.inj h
      refine ⟨sound.goto (fun _ => builds) (fun _ same => ?_) nofun, fun _ _ mem _ => mem⟩
      exact Option.some.inj same ▸ Table.find_none sound.table missing
  -- The fill, which may fail.
  case h_6 seed use at_ =>
    have builds : (s.threads t).Builds := by rw [at_]; trivial
    have cold := sound.cold t seed (by rw [at_]; rfl)
    split at h
    · obtain rfl := Option.some.inj h
      refine ⟨sound.moved rfl sound.table (fun _ _ h => .inl h) (fun u _ => sound.builder u)
        (fun _ => sound.builder t builds) (fun _ same => Option.some.inj same ▸ cold)
        (fun entry mem => ?_) sound.idle sound.returned, fun _ _ mem _ => mem⟩
      obtain rfl := List.mem_singleton.1 mem
      rfl
    · obtain rfl := Option.some.inj h
      exact ⟨sound.goto (fun _ => builds) nofun nofun, fun _ _ mem _ => mem⟩
  -- The insert. Only the holder of the lock could have put the seed in before.
  case h_7 seed cache use at_ =>
    obtain rfl := Option.some.inj h
    have builds : (s.threads t).Builds := by rw [at_]; trivial
    have right : cache.seed = seed := sound.right t (seed, cache) (by rw [at_]; exact .head _)
    obtain ⟨ok, stays⟩ := sound.table.insert (sound.cold t seed (by rw [at_]; rfl)) right
    refine ⟨sound.moved rfl ok (fun _ _ _ => .inr builds) (fun u _ => sound.builder u)
      (fun _ => sound.builder t builds) nofun (fun entry mem => ?_) sound.idle sound.returned,
      fun _ _ mem _ => stays _ _ mem⟩
    obtain rfl := List.mem_singleton.1 mem
    exact right
  case h_8 seed result use at_ =>
    obtain rfl := Option.some.inj h
    refine ⟨sound.release (by rw [at_]; trivial) fun cache held => ?_, fun _ _ mem _ => ?_⟩
    · obtain rfl : result = some cache := held
      exact sound.right t (seed, cache) (by rw [at_]; exact .head _)
    · exact (answer_table s t seed result use).symm ▸ mem
  -- A VM of the pool is taken for its own seed alone.
  case h_9 seed at_ =>
    split at h
    next vm last =>
      obtain rfl := Option.some.inj h
      have popped : ∀ vm ∈ s.idle.dropLast, vm.cache.seed = vm.seed :=
        fun vm mem => sound.idle vm (List.mem_of_mem_dropLast mem)
      refine ⟨?_, fun _ _ mem _ => mem⟩
      split
      · refine sound.moved rfl sound.table (fun _ _ h => .inl h) (fun u _ => sound.builder u)
          False.elim nofun (fun entry mem => ?_) popped sound.returned
        obtain rfl := List.mem_singleton.1 mem
        exact sound.idle vm (List.mem_of_getLast? last)
      · exact sound.moved rfl sound.table (fun _ _ h => .inl h) (fun u _ => sound.builder u)
          False.elim nofun nofun popped sound.returned
    · obtain rfl := Option.some.inj h
      exact ⟨sound.goto False.elim nofun nofun, fun _ _ mem _ => mem⟩
  case h_10 seed cache at_ =>
    obtain rfl := Option.some.inj h
    refine ⟨?_, fun _ _ mem _ => mem⟩
    split
    · exact sound.goto False.elim nofun fun entry mem => sound.right t entry (by rwa [at_])
    · exact sound.goto False.elim nofun nofun
  case h_11 vm at_ =>
    obtain rfl := Option.some.inj h
    refine ⟨sound.moved rfl sound.table (fun _ _ h => .inl h) (fun u _ => sound.builder u)
      False.elim nofun nofun (fun held mem => ?_) sound.returned, fun _ _ mem _ => mem⟩
    have mem : held ∈ s.idle ++ [vm] := by
      split at mem
      · exact mem
      · exact List.mem_append_left _ mem
    rcases List.mem_append.1 mem with mem | mem
    · exact sound.idle held mem
    · obtain rfl := List.mem_singleton.1 mem
      exact sound.right t (held.seed, held.cache) (by rw [at_]; exact .head _)

theorem step (sound : Sound settings s) {action : Action} (h : s.step settings action = some s') :
    Sound settings s' ∧ ∀ seed cache, ⟨seed, some cache⟩ ∈ s.table.pinned →
      s'.table.isPinnedIdentity seed = true → ⟨seed, some cache⟩ ∈ s'.table.pinned := by
  cases action with
  | advance t succeeds => exact sound.advance h
  | call t call =>
    obtain ⟨-, h⟩ := Option.ite_none_right_eq_some.1 h
    obtain rfl := Option.some.inj h
    refine ⟨?_, fun _ _ mem _ => mem⟩
    cases call <;> exact sound.goto False.elim nofun nofun

end Sound

/-! ## Every schedule -/

/-- The action leaves the seed pinned. -/
def KeepsPinned (settings : Settings) (seed : Hash256) (s : State) (action : Action) : Prop :=
  ∀ s', s.step settings action = some s' → s'.table.isPinnedIdentity seed = true

variable {settings : Settings} {s s' : State}

theorem Sound.of_reaches {meets : State → Action → Prop} (sound : Sound settings s)
    (reached : Reaches (fun action s => s.step settings action) meets s s') : Sound settings s' :=
  reached.invariant sound fun _ _ _ sound _ h => (sound.step h).1

/-- While its seed is pinned, a filled slot keeps its cache. -/
theorem Sound.stays {seed : Hash256} {cache : Cache} (sound : Sound settings s)
    (mem : ⟨seed, some cache⟩ ∈ s.table.pinned)
    (reached : Reaches (fun action s => s.step settings action) (KeepsPinned settings seed) s s') :
    ⟨seed, some cache⟩ ∈ s'.table.pinned :=
  (reached.invariant (P := fun s => Sound settings s ∧ ⟨seed, some cache⟩ ∈ s.table.pinned)
    ⟨sound, mem⟩ fun _ _ s' before keeps h =>
      ⟨(before.1.step h).1, (before.1.step h).2 seed cache before.2 (keeps s' h)⟩).2

/-- **In every schedule**, whatever is pinned, asked for and hashed, and whichever fills fail: no seed
is in the table twice; the queue is within its bound, and two more caches are there at most; fills
are one at a time, and of a seed whose cache is not there; the answers of `cache_for` are caches of
the seeds that were asked for; and a pinned seed keeps its cache, and is not filled again, as long as
it is pinned. -/
theorem seed_caches (settings : Settings) {s : State}
    (reached : Reaches (fun action s => State.step settings action s) (fun _ _ => True) .initial s) :
    s.table.seeds.Nodup ∧
      s.table.lru.length ≤ settings.maxCaches ∧
      s.table.resident ≤ 2 + settings.maxCaches ∧
      (∀ t u seed seed', (s.threads t).filling = some seed → (s.threads u).filling = some seed' →
        t = u) ∧
      (∀ t seed, (s.threads t).filling = some seed → ∀ cache, ¬ s.table.Holds seed cache) ∧
      (∀ entry ∈ s.returned, entry.2.seed = entry.1) ∧
      ∀ seed cache, ⟨seed, some cache⟩ ∈ s.table.pinned → ∀ s',
        Reaches (fun action s => State.step settings action s) (KeepsPinned settings seed) s s' →
        ⟨seed, some cache⟩ ∈ s'.table.pinned ∧ ∀ t, (s'.threads t).filling ≠ some seed := by
  have sound := (Sound.initial settings).of_reaches reached
  refine ⟨sound.table.nodup, sound.table.queue, sound.table.resident_le, ?_, sound.cold,
    sound.returned, ?_⟩
  · intro t u seed seed' ht hu
    exact sound.alone (Point.builds_of_filling ht) (Point.builds_of_filling hu)
  · intro seed cache mem s' later
    have still := sound.stays mem later
    exact ⟨still, fun t fills => (sound.of_reaches later).cold t seed fills cache (.inl still)⟩

namespace Churn

def seed (n : UInt64) : Hash256 := ⟨fun _ => n⟩

def advances (t n : ℕ) : List Action := List.replicate n (.advance t true)

/-- A seed is pinned while it is filled, and two others are then hashed under, by a table with room
for one in its queue. -/
def schedule : List Action :=
  .call 0 (.warm (seed 1)) :: advances 0 4 ++ .call 1 (.pinSeeds (seed 1) (seed 2)) :: advances 1 1 ++
    advances 0 2 ++ .call 1 (.hash (seed 3)) :: advances 1 9 ++ .call 0 (.hash (seed 4)) :: advances 0 9

end Churn

open Churn in
/-- The table at the end of a schedule. -/
theorem seed_caches_churn : ∃ s, Reaches (fun action s => State.step ⟨1, 1⟩ action s)
    (fun _ _ => True) .initial s ∧
    s.table.pinned = [⟨seed 1, some ⟨seed 1, 0⟩⟩, ⟨seed 2, none⟩] ∧
    s.table.lru = [(seed 4, ⟨seed 4, 2⟩)] ∧ s.returned.length = 3 ∧
    s.table.seeds.Nodup ∧ ∀ entry ∈ s.returned, entry.2.seed = entry.1 := by
  obtain ⟨s, ran⟩ : ∃ s, run (fun action s => State.step ⟨1, 1⟩ action s) schedule .initial =
      some s := Option.isSome_iff_exists.1 (by decide +kernel)
  have final : (run (fun action s => State.step ⟨1, 1⟩ action s) schedule .initial).map
      (fun s => (s.table, s.returned.length)) =
        some (⟨[⟨seed 1, some ⟨seed 1, 0⟩⟩, ⟨seed 2, none⟩], [(seed 4, ⟨seed 4, 2⟩)]⟩, 3) := by
    decide +kernel
  rw [ran] at final
  obtain ⟨table, length⟩ := Prod.mk.inj (Option.some.inj final)
  have reached := Reaches.of_run ran
  obtain ⟨nodup, -, -, -, -, right, -⟩ := seed_caches ⟨1, 1⟩ reached
  exact ⟨s, reached, congrArg Table.pinned table, congrArg Table.lru table, length, nodup, right⟩

end Qnero.CacheTable
