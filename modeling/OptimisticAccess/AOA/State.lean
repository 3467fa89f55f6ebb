import Mathlib.Data.Fin.Basic
import OptimisticAccess.AOA.Heap
import OptimisticAccess.Conc.System

/-!
# The shared memory of list and allocator

One record holds what the threads share and what each of them keeps for itself, so that the
steps of all threads act on one state. Objects, mark words and cache descriptors are different
memories: the first two lie in disjoint parts of each chunk and are found by their addresses,
the descriptors are numbered, those of `allocationEntriesCache` first.
-/

namespace OptimisticAccess.AOA

open Conc

/-- `dirty` is the lowest byte of `dirtyNphase`. -/
structure DirtyRecord where
  dirtyNphase : U64
  HPs : Nat → Ptr

def DirtyRecord.dirty (d : DirtyRecord) : Bool := d.dirtyNphase.setWidth 8 ≠ 0#8

/-- `dty->dirty = 0`: the other bytes of the word stay. -/
def DirtyRecord.clean (d : DirtyRecord) : DirtyRecord :=
  { d with dirtyNphase := d.dirtyNphase &&& 0xFFFFFFFFFFFFFF00#64 }

/-- A cache descriptor. `size` is written and never read. -/
structure AllocEntry where
  next : Option Nat
  free : Nat
  ptrs : Nat → Ptr

structure VerEntry where
  head : Option Nat
  ver : Int
  deriving DecidableEq

structure LocalAlloc where
  alloc_cache : Option Nat
  localVer : Nat
  markstack : Nat → Ptr
  entriesLocalFreeList : Option Nat

/-- The memory of `n` threads. The registered roots are those below `rootLen.length`; a root is
an array of `rootLen` words, `arr_marktable` has the synchronization counter in word 0. -/
structure Mem (n : Nat) where
  heapmem : List Nat
  node : Nat → Entry
  marks : Nat → U64
  roots : Nat → Nat → Ptr
  rootLen : List Nat
  arr_marktable : Nat → Nat → U64
  phase : Nat
  head : VerEntry
  sweep_counter : U64
  entrySize : Nat
  dirties : Fin n → DirtyRecord
  locals : Fin n → LocalAlloc
  entries : Nat → AllocEntry
  allocationEntriesCacheHead : Nat

/-- The word a list pointer lives in: a word of a root or the `nextEntry` of an object. -/
inductive Word where
  | root (r k : Nat)
  | next (a : Nat)
  deriving DecidableEq, Repr

/-- The assertions of the allocator, in the order of the source files. -/
inductive Assertion where
  | gscPhase
  | noCache
  | outOfMemory
  | entriesLeft
  | sweepPhase
  | hazardPointer
  | alignedWord
  | nodeSize
  | powerOfTwo
  deriving DecidableEq

/-- What an observer sees. The first six are events of the list, the others of the allocator. -/
inductive Ev where
  | call (op : Op)
  | ret (op : Op) (result : Bool)
  | inserted (key : CInt)
  | deleted (key : CInt)
  /-- `CHECK` has read a clear dirty bit and goes on. -/
  | checked
  /-- `FENCE_CHECK` has found the dirty bit clear; `newEntry` is what `ListInsert` is about to link. -/
  | fenced (newEntry : Option Ptr)
  /-- The write `dty->dirty = 0` that follows `helpCollection`. -/
  | cleaned
  /-- `Reclamation` has read a hazard pointer. -/
  | hazard
  /-- `Reclamation` answers something other than `-1`. -/
  | reclaimed
  | published (cur : Ptr)
  | bitSet (h_ptr : Nat) (mask : U64)
  /-- A call on the mark table for phase `phaseNum`, of a thread that makes nothing else. -/
  | marking (phaseNum : Nat)
  /-- `clearMarks` has returned. -/
  | cleared (phaseNum : Nat)
  /-- `CheckFinish` has read a slot above 0 of the stack of thread `ai`. -/
  | scanned (ai : Nat) (ptr : Ptr)
  | finished (localVer : Nat)
  | signed (root word bit : Nat) (localSweep : U64)
  | arrTraced (root : Nat) (localSweep : U64)
  | claimed (page_number phase : Nat)
  /-- A descriptor that was never in use leaves `allocationEntriesCache`. -/
  | taken (e : Nat)
  | pushed (e : Nat) (ver : Int)
  | popped (e : Nat) (ver : Int)
  | served (ret : Ptr) (localVer : Nat)
  | assertFailed (a : Assertion)
  deriving DecidableEq

namespace Mem

variable {n : Nat}

def word (s : Mem n) : Word → Ptr
  | .root r k => s.roots r k
  | .next a => (s.node a).nextEntry

def setWord (s : Mem n) : Word → Ptr → Mem n
  | .root r k, p => { s with roots := Function.update s.roots r (Function.update (s.roots r) k p) }
  | .next a, p => { s with node := Function.update s.node a { s.node a with nextEntry := p } }

def setKeyData (s : Mem n) (a : Nat) (kd : BitVec 64) : Mem n :=
  { s with node := Function.update s.node a { s.node a with keyData := kd } }

def setMarks (s : Mem n) (h_ptr : Nat) (w : U64) : Mem n :=
  { s with marks := Function.update s.marks h_ptr w }

def setTable (s : Mem n) (r k : Nat) (w : U64) : Mem n :=
  { s with arr_marktable := Function.update s.arr_marktable r (Function.update (s.arr_marktable r) k w) }

def setDirty (s : Mem n) (i : Fin n) (f : DirtyRecord → DirtyRecord) : Mem n :=
  { s with dirties := Function.update s.dirties i (f (s.dirties i)) }

def setLocal (s : Mem n) (i : Fin n) (f : LocalAlloc → LocalAlloc) : Mem n :=
  { s with locals := Function.update s.locals i (f (s.locals i)) }

def setEntry (s : Mem n) (e : Nat) (f : AllocEntry → AllocEntry) : Mem n :=
  { s with entries := Function.update s.entries e (f (s.entries e)) }

/-- `markstack[k] = p`. -/
def setSlot (s : Mem n) (i : Fin n) (k : Nat) (p : Ptr) : Mem n :=
  s.setLocal i fun l => { l with markstack := Function.update l.markstack k p }

def setHP (s : Mem n) (i : Fin n) (k : Nat) (p : Ptr) : Mem n :=
  s.setDirty i fun d => { d with HPs := Function.update d.HPs k p }

variable {s : Mem n} {i j : Fin n} {e d : Nat}

theorem setMarks_self (w : U64) : (s.setMarks e w).marks e = w := Function.update_self ..

theorem setMarks_of_ne (w : U64) (h : d ≠ e) : (s.setMarks e w).marks d = s.marks d := Function.update_of_ne h ..

theorem setLocal_self (f : LocalAlloc → LocalAlloc) : (s.setLocal i f).locals i = f (s.locals i) :=
  Function.update_self ..

theorem setLocal_of_ne (f : LocalAlloc → LocalAlloc) (h : j ≠ i) : (s.setLocal i f).locals j = s.locals j :=
  Function.update_of_ne h ..

theorem setEntry_self (f : AllocEntry → AllocEntry) : (s.setEntry e f).entries e = f (s.entries e) :=
  Function.update_self ..

theorem setEntry_of_ne (f : AllocEntry → AllocEntry) (h : d ≠ e) : (s.setEntry e f).entries d = s.entries d :=
  Function.update_of_ne h ..

end Mem

/-- Programs of the threads. -/
abbrev P (n : Nat) (α : Type) := Prog (Mem n) Ev α

end OptimisticAccess.AOA
