import OptimisticAccess.AOA.Alloc

/-!
# `lfl-RoF.c`, `lfhash.c` and the start of a test

The lock-free list with optimistic reads. Objects are recycled by collections, so what a thread
reads from an object is worth nothing until `CHECK` has found the dirty bit clear.
-/

namespace OptimisticAccess.AOA

open Conc Prog

variable {n : Nat}

structure ThreadLocal where
  prev : Word
  cur : Ptr
  next : Ptr

/-! ## Restarts -/

/-- `dty->HPs[k]=p`. -/
def setHP (i : Fin n) (k : Nat) (p : Ptr) : P n Unit := store (·.setHP i k p)

/-- `dty->HPs[0]=dty->HPs[1]=dty->HPs[2]=NULL`, from right to left. -/
def clearHPs (i : Fin n) : P n Unit := do
  setHP i 2 NULL
  setHP i 1 NULL
  setHP i 0 NULL

/-- `dty->dirty=0`. -/
def cleanDirty (i : Fin n) (ev : Option Ev) : P n Unit :=
  step (fun _ => ev) (·.setDirty i (·.clean)) fun _ => ret ()

/-- `CHECK`: whether the thread has to restart. -/
def CHECK (i : Fin n) (fuel : Nat) : P n Bool := do
  if ← watch (fun s => (s.dirties i).dirty) fun dirty => if dirty then none else some .checked then
    cleanDirty i none
    helpCollection i fuel
    cleanDirty i (some .cleaned)
    return true
  else return false

/-- `FENCE_CHECK`: whether the thread has to restart. -/
def FENCE_CHECK (i : Fin n) (fuel : Nat) (newEntry : Option Ptr) : P n Bool := do
  if ← step (fun s => if (s.dirties i).dirty then none else some (.fenced newEntry))
      (·.setDirty i (·.clean)) (fun s => ret (s.dirties i).dirty) then
    clearHPs i
    helpCollection i fuel
    cleanDirty i (some .cleaned)
    return true
  else return false

/-! ## The list -/

/-- `CAS(loc, old, new)` on a pointer word. -/
def casWord (loc : Word) (old new : Ptr) (e : Option Ev) : P n Bool :=
  cas (fun s => s.word loc = old) (fun s => s.setWord loc new) e

/-- `(prev!=entryHead)?entPtr(prev):NULL`; `entPtr` of the word `nextEntry` of an object. -/
def prevHP (entryHead prev : Word) : Ptr :=
  if prev ≠ entryHead then
    match prev with
    | .next a => ⟨a, false⟩
    | .root _ _ => NULL
  else NULL

/-- One round of `find`: `none` is the label `try_again`, `some fres` the head of the loop. -/
def findRound (i : Fin n) (fuel : Nat) (entryHead : Word) (key : CInt) :
    Option ThreadLocal → P n (Option ThreadLocal ⊕ Bool × ThreadLocal × BitVec 64)
  | none => do
    let cur ← load (·.word entryHead)
    return .inl (some ⟨entryHead, cur, NULL⟩)
  | some fres =>
    if fres.cur = NULL then return .inr (false, fres, 0)
    else do
      let nxt ← load fun s => (s.node fres.cur.addr).nextEntry
      if ← CHECK i fuel then return .inl none
      else if isDeleted nxt then
        setHP i 0 (prevHP entryHead fres.prev)
        setHP i 1 fres.cur
        setHP i 2 (clearDeleted nxt)
        if ← FENCE_CHECK i fuel none then return .inl none
        else if ← casWord fres.prev fres.cur (clearDeleted nxt) none then
          clearHPs i
          return .inl (some ⟨fres.prev, clearDeleted nxt, nxt⟩)
        else
          clearHPs i
          return .inl none
      else
        let kd ← load fun s => (s.node fres.cur.addr).keyData
        let ckey := getKey kd
        let revalidatePrev ← load (·.word fres.prev)
        if ← CHECK i fuel then return .inl none
        else if revalidatePrev ≠ fres.cur then return .inl none
        else if ckey.toInt ≥ key.toInt then return .inr (ckey == key, ⟨fres.prev, fres.cur, nxt⟩, kd)
        else return .inl (some ⟨.next fres.cur.addr, nxt, nxt⟩)

/-- The answer, `*fres` and `*keyData`. -/
def find (i : Fin n) (fuel : Nat) (entryHead : Word) (key : CInt) : P n (Bool × ThreadLocal × BitVec 64) :=
  iter (findRound i fuel entryHead key) fuel none

/-- The answer and `*data`. -/
def ListSearch (i : Fin n) (fuel : Nat) (entryHead : Word) (key : CInt) : P n (Bool × CInt) := do
  let (found, _, kd) ← find i fuel entryHead key
  if found then return (true, kd.setWidth 32) else return (false, 0)

/-- `data` is not read: the code stores the key only. -/
def ListInsert (i : Fin n) (fuel : Nat) (entryHead : Word) (key _data : CInt) : P n Bool :=
  iter (fun _ => do
    let (found, fres, _) ← find i fuel entryHead key
    if found then return .inr false
    else
      let newEntry ← palloc i fuel
      setHP i 0 (prevHP entryHead fres.prev)
      setHP i 1 fres.cur
      setHP i 2 newEntry
      if ← FENCE_CHECK i fuel (some newEntry) then return .inl ()
      else
        store (·.setKeyData newEntry.addr (keyWord key))
        store (·.setWord (.next newEntry.addr) fres.cur)
        if ← casWord fres.prev fres.cur newEntry (some (.inserted key)) then
          clearHPs i
          return .inr true
        else
          clearHPs i
          return .inl ()) fuel ()

/-- `hashOp` is the macro `HASH_OP`. -/
def ListDelete (hashOp : Bool) (i : Fin n) (fuel : Nat) (entryHead : Word) (key : CInt) : P n Bool :=
  iter (fun _ => do
    let (found, fres, _) ← find i fuel entryHead key
    if found = false then return .inr false
    else
      setHP i 0 fres.cur
      setHP i 1 fres.next
      if ← FENCE_CHECK i fuel none then return .inl ()
      else if ← casWord (.next fres.cur.addr) fres.next (markDeleted fres.next) (some (.deleted key)) then
        if hashOp then
          let _ ← find i fuel entryHead key
          clearHPs i
          return .inr true
        else
          clearHPs i
          return .inr true
      else
        clearHPs i
        return .inl ()) fuel ()

/-- An operation on the list with head `entryHead`. -/
def perform (hashOp : Bool) (i : Fin n) (fuel : Nat) (entryHead : Word) : Op → P n Bool
  | .insert key data => ListInsert i fuel entryHead key data
  | .delete key => ListDelete hashOp i fuel entryHead key
  | .search key => do
    let (found, _) ← ListSearch i fuel entryHead key
    return found

/-- `HASH(key, logS)`. -/
def hashBucket (logS : Nat) (key : CInt) : Nat := ((key * 2654435761#32) >>> (32 - logS)).toNat

/-- The operations `ops`, one after the other; `headOf` is the list an operation works on. -/
def client (hashOp : Bool) (headOf : CInt → Word) (i : Fin n) (fuel : Nat) (ops : List Op) : P n Unit :=
  forEach (fun op => do
    emit (.call op)
    let b ← perform hashOp i fuel (headOf op.key) op
    emit (.ret op b)) ops

end OptimisticAccess.AOA
