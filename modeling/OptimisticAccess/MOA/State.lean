import Mathlib.Algebra.Ring.Nat
import Mathlib.Data.Fin.Basic
import OptimisticAccess.MOA.SimpleSet

/-!
# The shared memory of list and manual allocator

One record holds what the threads share and what each of them keeps for itself. A field of a C
structure is a function of the structure: of the thread for `DirtyRecord`, `localAlloc` and the
thread variable `hps`, of the object for `Entry`, of the descriptor for `allocEntry`. Descriptors
are numbered as `malloc` hands them out, and nothing is ever given back to `malloc`.

`dirty` is the lowest byte of `dirtyNphase`. Versions grow by 2 with a collection, and their
arithmetic is that of an `int`, so they stay below `2 ^ 31` and no shift loses a bit.
-/

namespace OptimisticAccess.MOA

open Conc

def entriesPerCache : Nat := 126

def nodeSize : Nat := 32

structure VerEntry where
  head : Option Nat
  ver : Nat
  deriving DecidableEq

/-- The heads of the lists are words of one array; the list mode uses word 0. -/
inductive Word where
  | head (b : Nat)
  | next (a : Nat)
  deriving DecidableEq, Repr

structure Mem (n : Nat) where
  entryHead : Nat → Ptr
  keyData : Nat → BitVec 64
  nextEntry : Nat → Ptr
  reclaim : VerEntry
  toProcess : VerEntry
  head : Option Nat
  numHPEntries : Nat
  dirtyNphase : Fin n → Nat
  HPs : Fin n → Nat → Ptr
  alloc_cache : Fin n → Option Nat
  free_cache : Fin n → Option Nat
  localVer : Fin n → Nat
  hps : Fin n → Option HashTable
  next : Nat → Option Nat
  free : Nat → Nat
  ptrs : Nat → Nat → Ptr
  /-- The descriptors handed out so far. -/
  brk : Nat
  /-- What `malloc(alc->entrySize)` returns, call by call, and the number of these calls. -/
  spare : Nat → Nat
  spares : Nat
  stop : Bool

inductive Assertion where
  | set (a : SetAssertion)
  /-- `assert(0)` of `pop`. -/
  | popNext
  | outOfMemory
  deriving DecidableEq

/-- What an observer sees. -/
inductive Ev where
  | call (op : Op)
  | ret (op : Op) (result : Bool)
  /-- `FENCE_CHECK` has found the dirty bit clear, has found it set. -/
  | fenced
  | restarted
  /-- The three compare-and-swaps of the list; `unlinked` goes to `pfree`. -/
  | unlinked (a : Nat)
  | linked (a : Nat)
  | marked (a : Nat)
  | casFailed
  /-- `pfree` has put an object into a free cache. -/
  | freed (a : Nat)
  /-- `reclaim` was frozen, became `toProcess`. -/
  | frozen
  | moved
  | popped (e : Nat)
  /-- `Recycle` passes an object of the cache to `pfree`, keeps one, has set `free`, has pushed the cache. -/
  | taken (e a : Nat)
  | kept (e : Nat)
  | sifted (e : Nat)
  | returned (e : Nat)
  /-- `palloc` returns an object of a cache, one of `malloc`; `pReturnAlloc` has put an object back. -/
  | served (a : Nat)
  | spared (a : Nat)
  | givenBack (a : Nat)
  | assertFailed (a : Assertion)
  deriving DecidableEq

namespace Mem

variable {n : Nat}

def word (s : Mem n) : Word → Ptr
  | .head b => s.entryHead b
  | .next a => s.nextEntry a

def setWord (s : Mem n) : Word → Ptr → Mem n
  | .head b, p => { s with entryHead := Function.update s.entryHead b p }
  | .next a, p => { s with nextEntry := Function.update s.nextEntry a p }

def setKeyData (s : Mem n) (a : Nat) (kd : BitVec 64) : Mem n := { s with keyData := Function.update s.keyData a kd }

def dirty (s : Mem n) (i : Fin n) : Bool := s.dirtyNphase i % 2 ^ 8 ≠ 0

def setDirtyNphase (s : Mem n) (i : Fin n) (w : Nat) : Mem n :=
  { s with dirtyNphase := Function.update s.dirtyNphase i w }

/-- `dty->dirty = 0`: the other bytes of the word stay. -/
def clean (s : Mem n) (i : Fin n) : Mem n := s.setDirtyNphase i (s.dirtyNphase i / 2 ^ 8 * 2 ^ 8)

def setHP (s : Mem n) (i : Fin n) (k : Nat) (p : Ptr) : Mem n :=
  { s with HPs := Function.update s.HPs i (Function.update (s.HPs i) k p) }

def setNext (s : Mem n) (e : Nat) (d : Option Nat) : Mem n := { s with next := Function.update s.next e d }

def setFree (s : Mem n) (e m : Nat) : Mem n := { s with free := Function.update s.free e m }

def setPtr (s : Mem n) (e j : Nat) (p : Ptr) : Mem n :=
  { s with ptrs := Function.update s.ptrs e (Function.update (s.ptrs e) j p) }

def setAllocCache (s : Mem n) (i : Fin n) (e : Option Nat) : Mem n :=
  { s with alloc_cache := Function.update s.alloc_cache i e }

def setFreeCache (s : Mem n) (i : Fin n) (e : Option Nat) : Mem n :=
  { s with free_cache := Function.update s.free_cache i e }

def setHps (s : Mem n) (i : Fin n) (set : HashTable) : Mem n := { s with hps := Function.update s.hps i (some set) }

/-- `malloc` of a descriptor, with one object `obj` in it. -/
def malloc (s : Mem n) (obj : Ptr) : Mem n := { (s.setFree s.brk 1).setPtr s.brk 0 obj with brk := s.brk + 1 }

/-- `ptrs[free++] = obj`. -/
def append (s : Mem n) (e : Nat) (obj : Ptr) : Mem n := (s.setPtr e (s.free e) obj).setFree e (s.free e + 1)

end Mem

/-- Programs of the threads. -/
abbrev P (n : Nat) (α : Type) := Prog (Mem n) Ev α

end OptimisticAccess.MOA
