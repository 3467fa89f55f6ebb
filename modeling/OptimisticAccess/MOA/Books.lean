import OptimisticAccess.Lib.Linked
import OptimisticAccess.Lib.Slots
import OptimisticAccess.MOA.List

/-!
# Where objects and caches are

The bookkeeping of the proof. Every object has one `Spot` and every cache one `Place`; the places
of a cache come in one order, so no cache comes back to where it was. For each thread `since` are
the objects that were in the list at some time after the thread last cleared its dirty bit: as long
as the bit is clear, none of them has been given back for reuse. `Shape` is the invariant, `Trans`
what any step of a thread does, as the other threads see it.
-/

namespace OptimisticAccess.MOA

open Conc

variable {n : Nat}

/-! ## Caches -/

/-- A cache is filled by a thread, hangs on `reclaim`, belongs to the batch that is frozen or on
`toProcess`, is gone through in `Recycle`, lies on `global->head`, and is used up by a thread. The
batch `due` is that of version `due` of `toProcess`; in `Recycle` the objects below `kept` have
been cleared and those from `idx` on are to be looked at. -/
inductive Place (n : Nat) where
  | raw
  | free (i : Fin n)
  | fill
  | batch (due : Nat)
  | work (i : Fin n) (due idx kept : Nat)
  | head
  | alloc (i : Fin n)
  | gone

namespace Place

def rank : Place n → Nat
  | raw => 0
  | free _ => 1
  | fill => 2
  | batch _ => 3
  | work _ _ _ _ => 4
  | head => 5
  | alloc _ => 6
  | gone => 7

def owner : Place n → Option (Fin n)
  | free i => some i
  | work i _ _ _ => some i
  | alloc i => some i
  | _ => none

def due : Place n → Option Nat
  | batch d => some d
  | work _ d _ _ => some d
  | _ => none

/-- Its objects wait to be cleared. -/
def Waits : Place n → Prop
  | free _ => True
  | fill => True
  | batch _ => True
  | work _ _ _ _ => True
  | _ => False

def InUse : Place n → Prop
  | raw => False
  | gone => False
  | _ => True

def lo : Place n → Nat
  | work _ _ x _ => x
  | _ => 0

def kept : Place n → Nat
  | work _ _ _ k => k
  | _ => 0

end Place

/-! ## Objects -/

/-- `mine`: handed out to a thread. `hand`: unlinked by a thread that has it in `pfree`. `kept`: in
a cache in `Recycle`, and cleared. -/
inductive Spot (n : Nat) where
  | away
  | mine (i : Fin n)
  | linked
  | hand (i : Fin n)
  | cached (e : Nat)
  | kept (e : Nat)

def Spot.owner : Spot n → Option (Fin n)
  | mine i => some i
  | hand i => some i
  | _ => none

structure Ghost (n : Nat) where
  place : Nat → Place n
  spot : Nat → Spot n
  fill : List Nat
  batch : List Nat
  pool : List Nat
  since : Fin n → Set Nat
  /-- An object of `since` has been cleared for reuse. -/
  spoiled : Fin n → Prop
  /-- The last batch whose freezing a warning came after. -/
  warned : Fin n → Nat
  /-- Between `FENCE_CHECK` and the compare-and-swap. -/
  window : Fin n → Prop

namespace Ghost

variable (g : Ghost n)

def linked : Set Nat := {a | g.spot a = .linked}

def retired : Set Nat := {a | (∃ i, g.spot a = .hand i) ∨ ∃ e, g.spot a = .cached e ∧ (g.place e).Waits}

def live : Set Nat := g.linked ∪ g.retired

/-- `a` belongs to a batch up to `b`. -/
def Due (a b : Nat) : Prop := ∃ e d, g.spot a = .cached e ∧ (g.place e).due = some d ∧ d ≤ b

def mine (i : Fin n) : Set Nat := {a | g.spot a = .mine i}

/-- The pointers to the objects of a spot. -/
def objects (x : Spot n) : Set Ptr := {p | p.tag = false ∧ g.spot p.addr = x}

def move (a : Nat) (x : Spot n) : Ghost n := { g with spot := Function.update g.spot a x }

def file (e : Nat) (p : Place n) : Ghost n := { g with place := Function.update g.place e p }

end Ghost

/-- The last batch that has been frozen. -/
def level (reclaim : VerEntry) : Nat := (reclaim.ver + 1) / 2 * 2

/-! ## The invariant -/

/-- A word that is part of the list. -/
def Counts (linked : Set Nat) : Word → Prop
  | .head _ => True
  | .next a => a ∈ linked

/-- The words of the list lead to objects of the list, no two words to one object, and the word of
a retired object is marked. -/
structure Net (word : Word → Ptr) (linked retired : Set Nat) : Prop where
  headTag : ∀ b, (word (.head b)).tag = false
  target : ∀ l, Counts linked l → (word l).addr ≠ 0 → (word l).addr ∈ linked
  inj : ∀ l l', Counts linked l → Counts linked l' → (word l).addr = (word l').addr → (word l).addr ≠ 0 → l = l'
  tagged : ∀ a ∈ retired, (word (.next a)).tag = true

structure Clock (reclaim toProcess : VerEntry) (localVer : Fin n → Nat) (place : Nat → Place n) : Prop where
  even : toProcess.ver % 2 = 0
  near : reclaim.ver = toProcess.ver ∨ reclaim.ver = toProcess.ver + 1 ∨ reclaim.ver + 1 = toProcess.ver
  local_le : ∀ i, localVer i ≤ reclaim.ver
  local_even : ∀ i, localVer i % 2 = 0
  batch : ∀ e d, place e = .batch d → d = level reclaim
  work : ∀ e i d x k, place e = .work i d x k → d ≤ localVer i

/-- The caches of the three shared lists. A frozen batch hangs on `reclaim` until it is `toProcess`. -/
structure Queues (reclaim toProcess : VerEntry) (head : Option Nat) (next : Nat → Option Nat)
    (place : Nat → Place n) (fill batch pool : List Nat) : Prop where
  link_fill : reclaim.ver % 2 = 0 → Linked next reclaim.head fill
  fill_nil : reclaim.ver % 2 = 1 → fill = []
  link_batch : reclaim.ver ≠ toProcess.ver + 1 → Linked next toProcess.head batch
  link_frozen : reclaim.ver = toProcess.ver + 1 → Linked next reclaim.head batch ∧ toProcess.head = none
  link_pool : Linked next head pool
  nodup_fill : fill.Nodup
  nodup_batch : batch.Nodup
  nodup_pool : pool.Nodup
  mem_fill : ∀ e, e ∈ fill ↔ place e = .fill
  mem_batch : ∀ e, e ∈ batch ↔ ∃ d, place e = .batch d
  mem_pool : ∀ e, e ∈ pool ↔ place e = .head

/-- A thread leaves an allocation cache behind only when it is spent. -/
structure Owners (alloc_cache free_cache : Fin n → Option Nat) (brk : Nat) (free : Nat → Nat)
    (place : Nat → Place n) : Prop where
  filling : ∀ i e, place e = .free i ↔ free_cache i = some e
  serving : ∀ i e, alloc_cache i = some e → place e = .alloc i
  spent : ∀ i e, place e = .alloc i → alloc_cache i = some e ∨ free e = 0
  raw : ∀ e, place e = .raw ↔ brk ≤ e

/-- The slots of a cache hold its objects, each once. -/
structure Stock (free : Nat → Nat) (ptrs : Nat → Nat → Ptr) (g : Ghost n) : Prop where
  size : ∀ e, g.place e ≠ .raw → free e ≤ entriesPerCache
  bounds : ∀ e i d x k, g.place e = .work i d x k → k ≤ x ∧ x ≤ free e
  cached : ∀ e, (g.place e).InUse → Slots (ptrs e) (g.place e).lo (free e) (g.objects (.cached e))
  kept : ∀ e, Slots (ptrs e) 0 (g.place e).kept (g.objects (.kept e))
  inUse : ∀ e a, g.spot a = .cached e → (g.place e).InUse

/-- The objects of `since` are the thread's to read while its dirty bit is clear. -/
structure Guard (word : Word → Ptr) (linked retired : Set Nat) (due : Nat → Nat → Prop) (since : Set Nat)
    (spoiled dirty : Prop) (warned : Nat) : Prop where
  covers : linked ⊆ since
  closed : ∀ a ∈ since, a ∈ linked ∪ retired → (word (.next a)).addr ≠ 0 → (word (.next a)).addr ∈ since
  whole : ¬ spoiled → since ⊆ linked ∪ retired
  alert : ∀ a ∈ since, due a warned → dirty
  marred : spoiled → dirty

structure Stamped (dirtyNphase warned : Nat) (reclaim : VerEntry) : Prop where
  stamp : dirtyNphase / 2 ^ 8 ≤ warned
  level : warned ≤ level reclaim

/-- The hazard pointers point to objects of `S`. -/
def Shield (HPs : Nat → Ptr) (S : Set Nat) : Prop :=
  ∀ k < 3, HPs k ≠ NULL → (HPs k).tag = false ∧ (HPs k).addr ∈ S

structure Supply (spare : Nat → Nat) (spares : Nat) (spot : Nat → Spot n) : Prop where
  zero : spot 0 = .away
  away : ∀ k, spares ≤ k → spot (spare k) = .away

structure Shape (s : Mem n) (g : Ghost n) : Prop where
  net : Net s.word g.linked g.retired
  clock : Clock s.reclaim s.toProcess s.localVer g.place
  queues : Queues s.reclaim s.toProcess s.head s.next g.place g.fill g.batch g.pool
  owners : Owners s.alloc_cache s.free_cache s.brk s.free g.place
  stock : Stock s.free s.ptrs g
  guard : ∀ j, Guard s.word g.linked g.retired g.Due (g.since j) (g.spoiled j) (s.dirty j) (g.warned j)
  stamps : ∀ j, Stamped (s.dirtyNphase j) (g.warned j) s.reclaim
  shield : ∀ j, g.window j → Shield (s.HPs j) (g.live ∪ g.mine j)
  supply : Supply s.spare s.spares g.spot

/-! ## What a step may do -/

/-- What belongs to thread `j` alone. -/
structure Private (j : Fin n) (s : Mem n) (g : Ghost n) (s' : Mem n) (g' : Ghost n) : Prop where
  alloc_cache : s'.alloc_cache j = s.alloc_cache j
  free_cache : s'.free_cache j = s.free_cache j
  localVer : s'.localVer j = s.localVer j
  hps : s'.hps j = s.hps j
  HPs : s'.HPs j = s.HPs j
  window : g'.window j = g.window j
  spot : ∀ a, (g.spot a).owner = some j ∨ (g'.spot a).owner = some j → g'.spot a = g.spot a
  word : ∀ a, g.spot a = .mine j → s'.nextEntry a = s.nextEntry a
  place : ∀ e, (g.place e).owner = some j ∨ (g'.place e).owner = some j → g'.place e = g.place e
  next : ∀ e, (g.place e).owner = some j → s'.next e = s.next e
  free : ∀ e, (g.place e).owner = some j → s'.free e = s.free e
  ptrs : ∀ e, (g.place e).owner = some j → s'.ptrs e = s.ptrs e
  since : g.since j ⊆ g'.since j
  spoiled : g.spoiled j → g'.spoiled j

/-- A step of thread `i`. -/
structure Trans (i : Fin n) (s : Mem n) (g : Ghost n) (s' : Mem n) (g' : Ghost n) : Prop where
  priv : ∀ j, j ≠ i → Private j s g s' g'
  own : (s.dirty i = true → s'.dirty i = true) → g.since i ⊆ g'.since i ∧ (g.spoiled i → g'.spoiled i)
  rank : ∀ e, (g.place e).rank ≤ (g'.place e).rank
  next : ∀ e, (g.place e).owner = none → (g'.place e).rank = (g.place e).rank → g.place e ≠ .raw → s'.next e = s.next e
  reclaim : s.reclaim.ver ≤ s'.reclaim.ver
  frozen : s.reclaim.ver % 2 = 1 → s'.reclaim.ver = s.reclaim.ver → s'.reclaim = s.reclaim
  toProcess : s.toProcess.ver ≤ s'.toProcess.ver
  drained : s'.toProcess.ver = s.toProcess.ver → s.toProcess.head = none → s'.toProcess.head = none
  warned : ∀ j, g.warned j ≤ g'.warned j
  stamp : ∀ j, s'.dirtyNphase j = s.dirtyNphase j ∨ s'.dirtyNphase j = s.dirtyNphase j / 2 ^ 8 * 2 ^ 8 ∨
    level s'.reclaim ≤ g'.warned j
  marked : ∀ a ∈ g.live, a ∈ g'.live → (s.nextEntry a).tag = true → s'.nextEntry a = s.nextEntry a
  due : ∀ a b, g'.Due a b → g.Due a b ∨ s.reclaim.ver < b
  window : ∀ j, g'.window j → (g.window j ∧ s'.HPs j = s.HPs j) ∨
    (¬ g.window j ∧ ∀ k < 3, s'.HPs j k ≠ NULL → ¬ g'.Due (s'.HPs j k).addr (g.warned j))

end OptimisticAccess.MOA
