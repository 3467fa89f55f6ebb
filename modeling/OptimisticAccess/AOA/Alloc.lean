import OptimisticAccess.AOA.Sweep

/-!
# `allocator.c`

Starting a phase, collecting and allocating.
-/

namespace OptimisticAccess.AOA

open Conc Prog

variable {n : Nat}

/-- The warning of thread `j`: two attempts. -/
def warn (dNp dNpd : U64) (j : Fin n) : P n Unit := do
  let dNpTi ← load fun s => (s.dirties j).dirtyNphase
  if dNpTi ≥ dNp then ret ()
  else
    let _ ← casDirty dNpTi
    let dNpTi ← load fun s => (s.dirties j).dirtyNphase
    if dNpTi ≥ dNp then ret ()
    else
      let _ ← casDirty dNpTi
      ret ()
where
  casDirty (old : U64) : P n Bool :=
    cas (fun s => (s.dirties j).dirtyNphase = old) (·.setDirty j ({ · with dirtyNphase := dNpd })) none

/-- The three hazard pointers of thread `j` that are not `NULL`. -/
def readHPs (HPlocal : List Ptr) (j : Fin n) : P n (List Ptr) := do
  let hptr0 ← watch (fun s => (s.dirties j).HPs 0) fun _ => some .hazard
  let hptr1 ← watch (fun s => (s.dirties j).HPs 1) fun _ => some .hazard
  let hptr2 ← watch (fun s => (s.dirties j).HPs 2) fun _ => some .hazard
  return HPlocal ++ [hptr0, hptr1, hptr2].filter (· ≠ NULL)

/-- Drops what is left of the old pool. -/
def resetHead (i : Fin n) (fuel : Nat) (newhead : VerEntry) : P n Unit := do
  let oldhead ← readHead
  iter (fun oldhead => do
    let localVer ← load fun s => (s.locals i).localVer
    if oldhead.ver = (localVer : Int) then
      let _ ← cas (·.head = oldhead) ({ · with head := newhead }) none
      let oldhead ← readHead
      return .inl oldhead
    else return .inr ()) fuel oldhead

/-- `none` is the answer `-1`: someone already started the next phase. Otherwise `HPlocal`. -/
def Reclamation (i : Fin n) (fuel : Nat) : P n (Option (List Ptr)) := do
  let localVer ← load fun s => (s.locals i).localVer
  let _ ← cas (·.phase = localVer) ({ · with phase := localVer + 2 }) none
  -- the sum is computed as an `int`, which must not overflow
  defined (localVer + 2 < 2 ^ 31)
  resetHead i fuel ⟨none, toInt32 (localVer + 2)⟩
  store (·.setLocal i fun l => { l with localVer := l.localVer + 2 })
  let localVer ← load fun s => (s.locals i).localVer
  let phase ← load (·.phase)
  if phase ≠ localVer then return none
  else
    let dNp : U64 := BitVec.ofNat 64 localVer <<< 8
    forEach (warn dNp (dNp ||| 1#64)) (List.finRange n)
    let HPlocal ← foldEach readHPs [] (List.finRange n)
    emit .reclaimed
    return some HPlocal

def triggerCollection (i : Fin n) (fuel : Nat) : P n Unit := do
  match ← load fun s => (s.locals i).alloc_cache with
  | some p => freeAllocCache i p
  | none => ret ()
  match ← Reclamation i fuel with
  | none => ret ()
  | some HPlocal =>
    let localVer ← load fun s => (s.locals i).localVer
    clearMarks i fuel localVer
    clearRootsMark i fuel
    trace i fuel HPlocal
    let gsc ← load (·.sweep_counter)
    check (phaseOf gsc ≥ localVer) (.assertFailed .gscPhase)
    sweep i fuel

def helpCollection (i : Fin n) (fuel : Nat) : P n Unit := do
  let localVer ← load fun s => (s.locals i).localVer
  let phase ← load (·.phase)
  if localVer < phase then triggerCollection i fuel else ret ()

/-- What `pop` answers: `RECYCLE_NEEDED`, `NULL` or an entry. -/
inductive Popped where
  | recycleNeeded
  | null
  | entry (e : Nat)

def pop (fuel : Nat) (ver : Nat) : P n Popped :=
  iter (fun _ => do
    let old ← readHead
    if old.ver ≠ ver then return .inr .recycleNeeded
    else
      match old.head with
      | none => return .inr .null
      | some e =>
        let next ← load fun s => (s.entries e).next
        if ← cas (·.head = old) ({ · with head := ⟨next, old.ver⟩ }) (some (.popped e old.ver)) then
          return .inr (.entry e)
        else return .inl ()) fuel ()

/-- `palloc` from the label `start` with a cache: an object, or `none` when the cache is spent. -/
def pallocCached (i : Fin n) : P n (Option Ptr) := do
  match ← load fun s => (s.locals i).alloc_cache with
  | none => return none
  | some e =>
    let free ← load fun s => (s.entries e).free
    if free > 0 then
      let localVer ← load fun s => (s.locals i).localVer
      let top := fun s : Mem n => (s.entries e).ptrs ((s.entries e).free - 1)
      let obj ← step (fun s => some (.served (top s) localVer))
        (·.setEntry e fun c => { c with free := c.free - 1 }) fun s => ret (top s)
      return some obj
    else
      freeAllocCache i e
      return none

/-- The `do` loop of `palloc`: `none` goes back to `start`, `some ret` is returned. -/
def pallocRefill (i : Fin n) (fuel : Nat) : P n (Option Ptr) :=
  iter (fun iter => do
    let localVer ← load fun s => (s.locals i).localVer
    match ← pop fuel localVer with
    | .entry e =>
      store (·.setLocal i ({ · with alloc_cache := some e }))
      store (·.setEntry e ({ · with next := none }))
      return .inr none
    | _ =>
      triggerCollection i fuel
      if ← load fun s => (s.dirties i).dirty then return .inr (some NULL)
      else
        let cache ← load fun s => (s.locals i).alloc_cache
        check (cache = none) (.assertFailed .noCache)
        check (iter < 100) (.assertFailed .outOfMemory)
        return .inl (iter + 1)) fuel 0

def palloc (i : Fin n) (fuel : Nat) : P n Ptr :=
  iter (fun _ => do
    match ← pallocCached i with
    | some obj => return .inr obj
    | none =>
      match ← pallocRefill i fuel with
      | some obj => return .inr obj
      | none => return .inl ()) fuel ()

end OptimisticAccess.AOA
