import OptimisticAccess.AOA.List

/-!
# The allocator from its start

The state that `init_allocator` and the registration of the roots leave, and threads that use the
allocator in any way: they allocate, answer warnings, and write to the data structure and to their
hazard pointers as they please.
-/

namespace OptimisticAccess.AOA

open Conc Prog

/-- What `posix_memalign` returns for the chunks. -/
structure Heap (heapmem : List Nat) : Prop where
  aligned : ∀ c ∈ heapmem, c % chunkSize = 0
  ne_zero : ∀ c ∈ heapmem, c ≠ 0
  nodup : heapmem.Nodup
  length_le : heapmem.length ≤ maxChunks

/-- The `k`-th descriptor that `createEntry` gets from `malloc`. -/
def mallocEntry (k : Nat) : Nat := allocationEntriesCacheSize + k

def createEntry (mem size : Nat) (next : Option Nat) : AllocEntry where
  next := next
  free := entriesPerCache
  ptrs j := ⟨mem + j * size, false⟩

/-- The objects of a chunk, in pieces of a full cache. -/
def chunkCaches (curheap : Nat) : List Nat :=
  (List.range (payloadSize / (entriesPerCache * nodeSize))).map fun k =>
    curheap + headerSize + k * (entriesPerCache * nodeSize)

variable {n : Nat}

/-- Pushes the `k`-th cache. -/
def pushInit (s : Mem n) (mem k : Nat) : Mem n :=
  { s with
    entries := Function.update s.entries (mallocEntry k) (createEntry mem s.entrySize s.head.head)
    head := ⟨some (mallocEntry k), s.head.ver⟩ }

/-- `memset(.., 0, ..)` for all that is allocated; mark stacks start in a finished state. -/
def zeroMem (n : Nat) (heapmem rootLen : List Nat) : Mem n where
  heapmem := heapmem
  node _ := ⟨0, NULL⟩
  marks _ := 0
  roots _ _ := NULL
  rootLen := rootLen
  arr_marktable _ _ := 0
  phase := 0
  head := ⟨none, 0⟩
  sweep_counter := 0
  entrySize := nodeSize
  dirties _ := ⟨0, fun _ => NULL⟩
  locals _ := ⟨none, 0, fun k => if k = 0 then ⟨0, true⟩ else NULL, none⟩
  entries _ := ⟨none, 0, fun _ => NULL⟩
  allocationEntriesCacheHead := 0

/-- `init_allocator` with the chunks it got, and the roots registered. -/
def init_allocator (n : Nat) (heapmem rootLen : List Nat) : Mem n :=
  (heapmem.flatMap chunkCaches).zipIdx.foldl (fun s x => pushInit s x.1 x.2) (zeroMem n heapmem rootLen)

/-- What a thread may do with the allocator. -/
inductive Request where
  | palloc
  | helpCollection
  | CHECK
  | FENCE_CHECK (newEntry : Option Ptr)
  | cleanDirty
  | setHP (k : Nat) (p : Ptr)
  | setWord (w : Word) (p : Ptr)
  | setKeyData (a : Nat) (kd : BitVec 64)

def serve (i : Fin n) (fuel : Nat) : Request → P n Unit
  | .palloc => do
    let _ ← palloc i fuel
  | .helpCollection => helpCollection i fuel
  | .CHECK => do
    let _ ← CHECK i fuel
  | .FENCE_CHECK newEntry => do
    let _ ← FENCE_CHECK i fuel newEntry
  | .cleanDirty => cleanDirty i none
  | .setHP k p => setHP i k p
  | .setWord w p => store (·.setWord w p)
  | .setKeyData a kd => store (·.setKeyData a kd)

def mutator (i : Fin n) (fuel : Nat) (requests : List Request) : P n Unit :=
  forEach (serve i fuel) requests

/-- The threads at their start. -/
def initCfg (n : Nat) (heapmem rootLen : List Nat) (fuel : Fin n → Nat) (requests : Fin n → List Request) :
    Cfg (Fin n) (Mem n) Ev :=
  .init (init_allocator n heapmem rootLen) fun i => mutator i (fuel i) (requests i)

/-- The pool apart, `init_allocator` leaves zeroed memory. -/
theorem init_allocator_eq (heapmem rootLen : List Nat) : ∃ entries head,
    init_allocator n heapmem rootLen =
      { zeroMem n heapmem rootLen with entries := entries, head := ⟨head, 0⟩ } := by
  unfold init_allocator
  suffices ∀ (l : List (Nat × Nat)) (s : Mem n),
      (∃ entries head, s = { zeroMem n heapmem rootLen with entries := entries, head := ⟨head, 0⟩ }) →
      ∃ entries head, l.foldl (fun s x => pushInit s x.1 x.2) s =
        { zeroMem n heapmem rootLen with entries := entries, head := ⟨head, 0⟩ } from
    this _ _ ⟨_, _, rfl⟩
  intro l
  induction l with
  | nil => exact fun s h => h
  | cons x l ih =>
    rintro s ⟨entries, head, rfl⟩
    exact ih _ ⟨_, _, rfl⟩

end OptimisticAccess.AOA
