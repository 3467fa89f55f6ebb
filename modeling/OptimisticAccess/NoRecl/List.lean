import OptimisticAccess.Conc.System
import OptimisticAccess.Entry

/-!
# `lfl-NoOrDelayRecl.c`

The lock-free list on top of an allocator that never hands an entry out twice. Every load,
store and compare-and-swap of a shared word is one step.
-/

namespace OptimisticAccess.NoRecl

open Conc Prog

/-- The shared memory. The allocator's results form a fixed stream `pool`, of which `brk`
have been handed out. -/
structure Mem where
  entryHead : Ptr
  node : Nat → Entry
  pool : Nat → Nat
  brk : Nat

/-- What an observer sees: calls and returns, and the two compare-and-swaps that change the set. -/
inductive Ev where
  | call (op : Op)
  | ret (op : Op) (result : Bool)
  | inserted (key : CInt)
  | marked (key : CInt)
  deriving DecidableEq, Repr

def Mem.word (s : Mem) : Loc → Ptr
  | .head => s.entryHead
  | .next a => (s.node a).nextEntry

def Mem.setWord (s : Mem) : Loc → Ptr → Mem
  | .head, p => { s with entryHead := p }
  | .next a, p => { s with node := Function.update s.node a { s.node a with nextEntry := p } }

def Mem.setKeyData (s : Mem) (a : Nat) (kd : BitVec 64) : Mem :=
  { s with node := Function.update s.node a { s.node a with keyData := kd } }

structure ThreadLocal where
  prev : Loc
  cur : Ptr
  next : Ptr

/-- `CAS(loc, old, new)` on a pointer word. -/
def casWord (loc : Loc) (old new : Ptr) (e : Option Ev) : Prog Mem Ev Bool :=
  cas (fun s => s.word loc = old) (fun s => s.setWord loc new) e

/-- One round of `find`: `none` is the label `try_again`, `some fres` the head of the loop.
`next` is not set before the first round. -/
def findRound (key : CInt) :
    Option ThreadLocal → Prog Mem Ev (Option ThreadLocal ⊕ Bool × ThreadLocal)
  | none => do
    let cur ← load (·.word .head)
    return .inl (some ⟨.head, cur, NULL⟩)
  | some fres =>
    if fres.cur = NULL then return .inr (false, fres)
    else do
      let next ← load fun s => (s.node fres.cur.addr).nextEntry
      if isDeleted next then
        if ← casWord fres.prev fres.cur (clearDeleted next) none then
          return .inl (some ⟨fres.prev, clearDeleted next, next⟩)
        else return .inl none
      else
        let kd ← load fun s => (s.node fres.cur.addr).keyData
        let ckey := getKey kd
        let p ← load (·.word fres.prev)
        if p ≠ fres.cur then return .inl none
        else if ckey.toInt ≥ key.toInt then return .inr (ckey == key, ⟨fres.prev, fres.cur, next⟩)
        else return .inl (some ⟨.next fres.cur.addr, next, next⟩)

def find (fuel : Nat) (key : CInt) : Prog Mem Ev (Bool × ThreadLocal) :=
  iter (findRound key) fuel none

/-- `ALLOC`. -/
def palloc : Prog Mem Ev Ptr :=
  atomic (fun s => ⟨s.pool s.brk, false⟩) fun s => { s with brk := s.brk + 1 }

def listSearch (fuel : Nat) (key : CInt) : Prog Mem Ev Bool := do
  let (found, fres) ← find fuel key
  if found then
    let _ ← load fun s => getData (s.node fres.cur.addr).keyData
    return true
  else return false

/-- `data` is not read: the code stores the key only. -/
def listInsert (fuel : Nat) (key _data : CInt) : Prog Mem Ev Bool :=
  iter (fun _ => do
    let (found, fres) ← find fuel key
    if found then return .inr false
    else
      let newEntry ← palloc
      store fun s => s.setKeyData newEntry.addr (keyWord key)
      store fun s => s.setWord (.next newEntry.addr) fres.cur
      if ← casWord fres.prev fres.cur newEntry (some (.inserted key)) then return .inr true
      else return .inl ()) fuel ()

/-- `hashOp` is the macro `HASH_OP`. -/
def listDelete (hashOp : Bool) (fuel : Nat) (key : CInt) : Prog Mem Ev Bool :=
  iter (fun _ => do
    let (found, fres) ← find fuel key
    if found = false then return .inr false
    else
      if ← casWord (.next fres.cur.addr) fres.next (markDeleted fres.next) (some (.marked key)) then
        if hashOp then
          let _ ← find fuel key
          return .inr true
        else return .inr true
      else return .inl ()) fuel ()

def perform (hashOp : Bool) (fuel : Nat) : Op → Prog Mem Ev Bool
  | .insert key data => listInsert fuel key data
  | .delete key => listDelete hashOp fuel key
  | .search key => listSearch fuel key

/-- A thread: the operations `ops`, one after the other. -/
def client (hashOp : Bool) (fuel : Nat) (ops : List Op) : Prog Mem Ev Unit :=
  forEach (fun op => do
    emit (.call op)
    let b ← perform hashOp fuel op
    emit (.ret op b)) ops

end OptimisticAccess.NoRecl
