import OptimisticAccess.AOA.InitHeap
import OptimisticAccess.Conc.Simulate
import OptimisticAccess.NoRecl.List

/-!
# `allocatorNR.c`

The allocator that never takes an object back, and `lfl-NoOrDelayRecl.c` on top of it. The caches
of the chunks are a stack that only shrinks; a thread that finds it empty goes to `malloc`. Loads,
stores and compare-and-swaps of shared words are single steps; the writes to a descriptor fresh
from `malloc` go with the step before them.
-/

namespace OptimisticAccess.NR

open Conc Prog
open AOA (AllocEntry VerEntry Popped entriesPerCache nodeSize chunkSize headerSize)

/-- The words of the list, the allocator, and what each thread keeps for itself. Descriptors are
numbered as `malloc` hands them out; `malloc k` is the block of objects that the `k`-th call gets,
of which there were `mallocs`. -/
structure Mem (n : Nat) where
  entryHead : Ptr
  node : Nat → Entry
  head : VerEntry
  entries : Nat → AllocEntry
  brk : Nat
  alloc_cache : Fin n → Option Nat
  localVer : Fin n → Int
  malloc : Nat → Nat
  mallocs : Nat

inductive Ev where
  | list (e : NoRecl.Ev)
  /-- The thread has taken a cache off the stack, has made one. -/
  | popped (e : Nat)
  | created (e : Nat)
  | served (ret : Ptr)
  deriving DecidableEq, Repr

variable {n : Nat}

abbrev P (n : Nat) (α : Type) := Prog (Mem n) Ev α

def Mem.setEntry (s : Mem n) (e : Nat) (f : AllocEntry → AllocEntry) : Mem n :=
  { s with entries := Function.update s.entries e (f (s.entries e)) }

def Mem.setCache (s : Mem n) (i : Fin n) (e : Nat) : Mem n :=
  { s with alloc_cache := Function.update s.alloc_cache i (some e) }

/-- `createEntry`; the descriptor is `brk`. -/
def Mem.createEntry (s : Mem n) (mem size : Nat) : Mem n :=
  { s with
    entries := Function.update s.entries s.brk ⟨none, entriesPerCache, fun j => ⟨mem + j * size, false⟩⟩
    brk := s.brk + 1 }

section Updates

variable {s : Mem n} {i j : Fin n} {e d : Nat}

theorem Mem.setEntry_self (f : AllocEntry → AllocEntry) : (s.setEntry e f).entries e = f (s.entries e) :=
  Function.update_self ..

theorem Mem.setEntry_of_ne (f : AllocEntry → AllocEntry) (h : d ≠ e) : (s.setEntry e f).entries d = s.entries d :=
  Function.update_of_ne h ..

theorem Mem.setCache_self : (s.setCache i e).alloc_cache i = some e := Function.update_self ..

theorem Mem.setCache_of_ne (h : j ≠ i) : (s.setCache i e).alloc_cache j = s.alloc_cache j := Function.update_of_ne h ..

theorem Mem.createEntry_new (mem size : Nat) :
    (s.createEntry mem size).entries s.brk = ⟨none, entriesPerCache, fun j => ⟨mem + j * size, false⟩⟩ :=
  Function.update_self ..

theorem Mem.createEntry_old (mem size : Nat) (h : d < s.brk) : (s.createEntry mem size).entries d = s.entries d :=
  Function.update_of_ne (Nat.ne_of_lt h) ..

end Updates

/-! ## Allocation -/

def pop (fuel : Nat) (ver : Int) : P n Popped :=
  iter (fun _ => do
    let head ← load (·.head.head)
    let oldVer ← load (·.head.ver)
    if oldVer ≠ ver then return .inr .recycleNeeded
    else
      match head with
      | none => return .inr .null
      | some e =>
        let next ← load fun s => (s.entries e).next
        if ← cas (·.head = ⟨some e, oldVer⟩) ({ · with head := ⟨next, oldVer⟩ }) (some (.popped e)) then
          return .inr (.entry e)
        else return .inl ()) fuel ()

/-- The body of the `do` loop, which goes back to `start` at once. -/
def refill (i : Fin n) (fuel : Nat) : P n Unit := do
  let localVer ← load (·.localVer i)
  match ← pop fuel localVer with
  | .entry e =>
    store (·.setCache i e)
    store (·.setEntry e ({ · with next := none }))
  | _ =>
    let mem ← atomic (fun s => s.malloc s.mallocs) fun s => { s with mallocs := s.mallocs + 1 }
    let e ← step (fun s => some (.created s.brk)) (·.createEntry mem nodeSize) fun s => ret s.brk
    store (·.setCache i e)

def palloc (i : Fin n) (fuel : Nat) : P n Ptr :=
  iter (fun _ => do
    match ← load (·.alloc_cache i) with
    | none =>
      refill i fuel
      return .inl ()
    | some e =>
      let free ← load fun s => (s.entries e).free
      if free > 0 then
        let top := fun s : Mem n => (s.entries e).ptrs ((s.entries e).free - 1)
        let obj ← step (fun s => some (.served (top s))) (·.setEntry e fun c => { c with free := c.free - 1 })
          fun s => ret (top s)
        return .inr obj
      else
        refill i fuel
        return .inl ()) fuel ()

/-! ## The list -/

/-- The words of the list, for the functions that do not allocate. -/
def Mem.list (s : Mem n) : NoRecl.Mem := ⟨s.entryHead, s.node, fun _ => 0, 0⟩

def Mem.setList (l : NoRecl.Mem) (s : Mem n) : Mem n := { s with entryHead := l.entryHead, node := l.node }

def onList {α : Type} (p : Prog NoRecl.Mem NoRecl.Ev α) : P n α := p.within Mem.list Mem.setList .list

def listInsert (i : Fin n) (fuel : Nat) (key _data : CInt) : P n Bool :=
  iter (fun _ => do
    let (found, fres) ← onList (NoRecl.find fuel key)
    if found then return .inr false
    else
      let newEntry ← palloc i fuel
      onList (store fun s => s.setKeyData newEntry.addr (keyWord key))
      onList (store fun s => s.setWord (.next newEntry.addr) fres.cur)
      if ← onList (NoRecl.casWord fres.prev fres.cur newEntry (some (.inserted key))) then return .inr true
      else return .inl ()) fuel ()

def perform (hashOp : Bool) (i : Fin n) (fuel : Nat) : Op → P n Bool
  | .insert key data => listInsert i fuel key data
  | .delete key => onList (NoRecl.listDelete hashOp fuel key)
  | .search key => onList (NoRecl.listSearch fuel key)

def client (hashOp : Bool) (i : Fin n) (fuel : Nat) (ops : List Op) : P n Unit :=
  forEach (fun op => do
    emit (.list (.call op))
    let b ← perform hashOp i fuel op
    emit (.list (.ret op b))) ops

/-! ## `init_allocator` -/

/-- One round of the loop over a chunk: `head` is the new descriptor, its `next` the old head. -/
def Mem.pushEntry (s : Mem n) (curheap : Nat) : Mem n :=
  { (s.createEntry curheap nodeSize).setEntry s.brk ({ · with next := s.head.head }) with
    head := ⟨some s.brk, s.head.ver⟩ }

theorem nodeSize_pos : 0 < nodeSize := by decide

/-- The addresses passed to `createEntry`; `memalign k` is the `k`-th chunk. -/
def carved (memalign : Nat → Nat) (numEntries : Nat) : List Nat :=
  (List.range (AOA.Pool.numChunks nodeSize numEntries)).flatMap fun k =>
    AOA.Pool.carve nodeSize nodeSize_pos (memalign k + chunkSize) (memalign k + headerSize)

/-- An empty list, and an allocator that has nothing. -/
def zeroMem (n : Nat) (malloc : Nat → Nat) (node : Nat → Entry) : Mem n where
  entryHead := NULL
  node := node
  head := ⟨none, 0⟩
  entries _ := ⟨none, 0, fun _ => NULL⟩
  brk := 0
  alloc_cache _ := none
  localVer _ := 0
  malloc := malloc
  mallocs := 0

def init_allocator (n : Nat) (memalign malloc : Nat → Nat) (numEntries : Nat) (node : Nat → Entry) : Mem n :=
  (carved memalign numEntries).foldl Mem.pushEntry (zeroMem n malloc node)

end OptimisticAccess.NR
