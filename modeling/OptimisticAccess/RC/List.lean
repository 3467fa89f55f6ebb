import OptimisticAccess.Conc.System
import OptimisticAccess.Entry

/-!
# `refcount.c` and `lfl-RC.c`

The lock-free list with reference-counted entries. A `refcount` holds twice the number of
references and, in its lowest bit, whether the entry has been given up. `palloc` is the
allocator that never hands an entry out twice; an entry that is given up goes to the `freeList`
of the thread that gave it up, and `newRC` looks there first. Every load, store, fetch-and-add
and compare-and-swap is one step.

The code does not say which `safeRead` a `release` answers. The events do: `acquired` is a
`safeRead` that its second load has validated, `released` the decrement that gives such a
reference back, and decrements for a link that went away are silent.
-/

namespace OptimisticAccess.RC

open Conc Prog

structure Node extends Entry where
  refcount : Int
  deriving DecidableEq, Repr

/-- The shared memory, and `freeList` of every thread. The allocator's results form a fixed
stream `pool`, of which `brk` have been handed out. -/
structure Mem (n : Nat) where
  entryHead : Ptr
  node : Nat → Node
  freeList : Fin n → Ptr
  pool : Nat → Nat
  brk : Nat

inductive Ev where
  | call (op : Op)
  | ret (op : Op) (result : Bool)
  | initialised (a : Nat)
  | acquired (a : Nat)
  | released (a : Nat)
  | linked (a : Nat)
  | assertFailed
  deriving DecidableEq, Repr

variable {n : Nat}

def Mem.word (s : Mem n) : Loc → Ptr
  | .head => s.entryHead
  | .next a => (s.node a).nextEntry

def Mem.setNode (s : Mem n) (a : Nat) (e : Node) : Mem n := { s with node := Function.update s.node a e }

def Mem.setNext (s : Mem n) (a : Nat) (p : Ptr) : Mem n := s.setNode a { s.node a with nextEntry := p }

def Mem.setKeyData (s : Mem n) (a : Nat) (kd : BitVec 64) : Mem n := s.setNode a { s.node a with keyData := kd }

def Mem.setRefcount (s : Mem n) (a : Nat) (r : Int) : Mem n := s.setNode a { s.node a with refcount := r }

def Mem.setWord (s : Mem n) : Loc → Ptr → Mem n
  | .head, p => { s with entryHead := p }
  | .next a, p => s.setNext a p

def Mem.setFreeList (s : Mem n) (i : Fin n) (p : Ptr) : Mem n :=
  { s with freeList := Function.update s.freeList i p }

/-- `CAS(loc, old, new)` on a pointer word. -/
def casWord (loc : Loc) (old new : Ptr) (e : Option Ev) : Prog (Mem n) Ev Bool :=
  cas (fun s => s.word loc = old) (fun s => s.setWord loc new) e

/-- `CAS(&ptr->refcount, old, new)`. -/
def casRefcount (a : Nat) (old new : Int) (e : Option Ev) : Prog (Mem n) Ev Bool :=
  cas (fun s => (s.node a).refcount = old) (fun s => s.setRefcount a new) e

/-- `__sync_fetch_and_add(&q->refcount, 2L)`, whose result is not used. -/
def addRef (a : Nat) (e : Option Ev) : Prog (Mem n) Ev Unit :=
  step (fun _ => e) (fun s => s.setRefcount a ((s.node a).refcount + 2)) fun _ => ret ()

/-! ## `refcount.c` -/

def decrementAndTestAndSet (fuel : Nat) (a : Nat) (e : Option Ev) : Prog (Mem n) Ev Int :=
  iter (fun _ => do
    let old ← load fun s => (s.node a).refcount
    let new := if old - 2 = 0 then 1 else old - 2
    if ← casRefcount a old new e then return .inr ((old - new) % 2)
    else return .inl ()) fuel ()

def clearLowestBit (fuel : Nat) (a : Nat) : Prog (Mem n) Ev Unit :=
  iter (fun _ => do
    let old ← load fun s => (s.node a).refcount
    if ← casRefcount a old (old - 1) none then return .inr ()
    else return .inl ()) fuel ()

/-- `assert(freeList == clearDeleted(freeList))`. -/
def assertFreeList (i : Fin n) : Prog (Mem n) Ev Unit := do
  let f ← load (·.freeList i)
  check (f = clearDeleted f) .assertFailed

def reclaim (i : Fin n) (a : Nat) : Prog (Mem n) Ev Unit := do
  assertFreeList i
  let f ← load (·.freeList i)
  store (·.setNext a f)
  store (·.setFreeList i ⟨a, false⟩)
  assertFreeList i

/-- `held` tells a reference of a local variable from the count of a link. The recursion is on
the fuel; it releases the count of the link of `p`. -/
def release (i : Fin n) : Nat → Bool → Ptr → Prog (Mem n) Ev Unit
  | 0, _, _ => halt
  | fuel + 1, held, q => do
    let p := clearDeleted q
    if p = NULL then return ()
    else
      let last ← decrementAndTestAndSet fuel p.addr (if held then some (.released p.addr) else none)
      if last = 0 then return ()
      else
        let next ← load fun s => (s.node p.addr).nextEntry
        release i fuel false next
        reclaim i p.addr

/-- `safeRead` of a shared word. -/
def safeRead (i : Fin n) (fuel : Nat) (loc : Loc) : Prog (Mem n) Ev Ptr :=
  iter (fun _ => do
    let q ← load (·.word loc)
    if clearDeleted q = NULL then return .inr q
    else
      addRef q.addr none
      let q' ← watch (·.word loc) fun q' => if q = q' then some (.acquired q.addr) else none
      if q = q' then return .inr q
      else
        release i fuel false q
        return .inl ()) fuel ()

/-- `safeRead(&q)` of a local variable, which no other thread writes. -/
def safeReadLocal (q : Ptr) (e : Option Ev) : Prog (Mem n) Ev Unit :=
  if clearDeleted q = NULL then return () else addRef q.addr e

def palloc : Prog (Mem n) Ev Ptr :=
  atomic (fun s => ⟨s.pool s.brk, false⟩) fun s => { s with brk := s.brk + 1 }

def newRC (i : Fin n) (fuel : Nat) : Prog (Mem n) Ev Ptr := do
  assertFreeList i
  let p ← load (·.freeList i)
  if p = NULL then
    let p ← palloc
    step (fun _ => some (.initialised p.addr)) (·.setRefcount p.addr 2) fun _ => ret p
  else
    assertFreeList i
    let next ← load fun s => (s.node p.addr).nextEntry
    store (·.setFreeList i next)
    assertFreeList i
    safeReadLocal p (some (.acquired p.addr))
    clearLowestBit fuel p.addr
    return p

/-! ## `lfl-RC.c` -/

structure ThreadLocal where
  prev : Loc
  cur : Ptr
  next : Ptr

/-- `if(fres.prev != NULL && fres.prev != entryHead) release(entPtr(fres.prev))`. -/
def releasePrev (i : Fin n) (fuel : Nat) : Loc → Prog (Mem n) Ev Unit
  | .head => return ()
  | .next a => release i fuel true ⟨a, false⟩

/-- The releases on every way out of an operation. -/
def releaseAll (i : Fin n) (fuel : Nat) (fres : ThreadLocal) : Prog (Mem n) Ev Unit := do
  release i fuel true fres.cur
  release i fuel true fres.next
  releasePrev i fuel fres.prev

/-- One round of `find`: `none` is the label `try_again`, `some fres` the head of the loop. -/
def findRound (i : Fin n) (fuel : Nat) (key : CInt) :
    Option ThreadLocal → Prog (Mem n) Ev (Option ThreadLocal ⊕ Bool × ThreadLocal)
  | none => do
    let cur ← safeRead i fuel .head
    return .inl (some ⟨.head, cur, NULL⟩)
  | some fres =>
    if fres.cur = NULL then return .inr (false, fres)
    else do
      let next ← safeRead i fuel (.next fres.cur.addr)
      if isDeleted next then
        if ← casWord fres.prev fres.cur (clearDeleted next) none then
          release i fuel false fres.cur
          safeReadLocal next none
          release i fuel true fres.cur
          return .inl (some ⟨fres.prev, clearDeleted next, next⟩)
        else
          releaseAll i fuel ⟨fres.prev, fres.cur, next⟩
          return .inl none
      else
        let kd ← load fun s => (s.node fres.cur.addr).keyData
        let ckey := getKey kd
        let p ← load (·.word fres.prev)
        if p ≠ fres.cur then
          releaseAll i fuel ⟨fres.prev, fres.cur, next⟩
          return .inl none
        else if ckey.toInt ≥ key.toInt then return .inr (ckey == key, ⟨fres.prev, fres.cur, next⟩)
        else
          releasePrev i fuel fres.prev
          return .inl (some ⟨.next fres.cur.addr, next, next⟩)

def find (i : Fin n) (fuel : Nat) (key : CInt) : Prog (Mem n) Ev (Bool × ThreadLocal) :=
  iter (findRound i fuel key) fuel none

def listSearch (i : Fin n) (fuel : Nat) (key : CInt) : Prog (Mem n) Ev Bool := do
  let (found, fres) ← find i fuel key
  if found then
    let _ ← load fun s => getData (s.node fres.cur.addr).keyData
    releaseAll i fuel fres
    return true
  else
    releaseAll i fuel fres
    return false

/-- `data` is not read: the code stores the key only. -/
def listInsert (i : Fin n) (fuel : Nat) (key _data : CInt) : Prog (Mem n) Ev Bool :=
  iter (fun _ => do
    let (found, fres) ← find i fuel key
    if found then
      releaseAll i fuel fres
      return .inr false
    else
      let newEntry ← newRC i fuel
      store (·.setKeyData newEntry.addr (keyWord key))
      store (·.setNext newEntry.addr fres.cur)
      safeReadLocal fres.cur none
      if ← casWord fres.prev fres.cur newEntry (some (.linked newEntry.addr)) then
        release i fuel false fres.cur
        release i fuel true fres.next
        release i fuel true fres.cur
        releasePrev i fuel fres.prev
        return .inr true
      else
        release i fuel true newEntry
        release i fuel true fres.next
        release i fuel true fres.cur
        releasePrev i fuel fres.prev
        return .inl ()) fuel ()

/-- `hashOp` is the macro `HASH_OP`. -/
def listDelete (hashOp : Bool) (i : Fin n) (fuel : Nat) (key : CInt) : Prog (Mem n) Ev Bool :=
  iter (fun _ => do
    let (found, fres) ← find i fuel key
    if found = false then
      releaseAll i fuel fres
      return .inr false
    else
      if ← casWord (.next fres.cur.addr) fres.next (markDeleted fres.next) none then
        releaseAll i fuel fres
        if hashOp then
          let (_, fres) ← find i fuel key
          releaseAll i fuel fres
          return .inr true
        else return .inr true
      else
        releaseAll i fuel fres
        return .inl ()) fuel ()

def perform (hashOp : Bool) (i : Fin n) (fuel : Nat) : Op → Prog (Mem n) Ev Bool
  | .insert key data => listInsert i fuel key data
  | .delete key => listDelete hashOp i fuel key
  | .search key => listSearch i fuel key

/-- A thread: the operations `ops`, one after the other. -/
def client (hashOp : Bool) (i : Fin n) (fuel : Nat) (ops : List Op) : Prog (Mem n) Ev Unit :=
  forEach (fun op => do
    emit (.call op)
    let b ← perform hashOp i fuel op
    emit (.ret op b)) ops

end OptimisticAccess.RC
