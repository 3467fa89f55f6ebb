import OptimisticAccess.MOA.State

/-!
# `allocatorOA.c`

A thread that changes the collection freezes the `reclaim` list, makes it the `toProcess` list and
resets `reclaim`; any mix of threads may take these steps. `Recycle` hands protected objects back to
`pfree`, which may start the next collection, so `pfree` is the recursive function here; the fuel
bounds the depth. Loads and stores of fields that other threads access are single steps; writes to
a descriptor fresh from `malloc`, and to the thread's own record after a compare-and-swap, go with
the step before them.
-/

namespace OptimisticAccess.MOA

open Conc Prog

variable {n : Nat}

/-! ## `Reclamation` -/

/-- The loop that makes the version of `reclaim` odd; it returns the last value of `reclaim`. -/
def freeze (fuel localVer : Nat) (reclaim : VerEntry) : P n VerEntry :=
  iter (fun reclaim =>
    if reclaim.ver = localVer then do
      if ← cas (·.reclaim = reclaim) ({ · with reclaim := ⟨reclaim.head, localVer + 1⟩ }) (some .frozen) then
        return .inr ⟨reclaim.head, localVer + 1⟩
      else
        let reclaim ← load (·.reclaim)
        return .inl reclaim
    else return .inr reclaim) fuel reclaim

/-- The loop that replaces `toProcess`. The sum is computed as an `int`, which must not overflow. -/
def handOver (fuel localVer : Nat) (head : Option Nat) : P n Unit := do
  let process ← load (·.toProcess)
  iter (fun process =>
    if process.ver = localVer then do
      defined (localVer + 2 < 2 ^ 31)
      if ← cas (·.toProcess = process) ({ · with toProcess := ⟨head, localVer + 2⟩ }) (some .moved) then
        return .inr ()
      else
        let process ← load (·.toProcess)
        return .inl process
    else return .inr ()) fuel process

/-- The loop that empties `reclaim`. -/
def resetReclaim (fuel localVer : Nat) : P n Unit := do
  let reclaim ← load (·.reclaim)
  iter (fun reclaim =>
    if reclaim.ver = localVer + 1 then do
      defined (localVer + 2 < 2 ^ 31)
      if ← cas (·.reclaim = reclaim) ({ · with reclaim := ⟨none, localVer + 2⟩ }) none then return .inr ()
      else
        let reclaim ← load (·.reclaim)
        return .inl reclaim
    else return .inr ()) fuel reclaim

/-- The warning of thread `j`: two attempts. -/
def warn (dNp dNpd : Nat) (j : Fin n) : P n Unit := do
  let dNpTi ← load (·.dirtyNphase j)
  if dNpTi ≥ dNp then ret ()
  else
    let _ ← casDirty dNpTi
    let dNpTi ← load (·.dirtyNphase j)
    if dNpTi ≥ dNp then ret ()
    else
      let _ ← casDirty dNpTi
      ret ()
where
  casDirty (old : Nat) : P n Bool :=
    cas (fun s => s.dirtyNphase j = old) (·.setDirtyNphase j dNpd) none

/-- The conversion of a pointer to `int`. -/
def lowWord (p : Ptr) : CInt := BitVec.ofNat 32 (p.addr + p.tag.toNat)

/-- `setAddP`, on the set of thread `i`. -/
def setAddP (i : Fin n) (fuel : Nat) (addr : Ptr) : P n Unit := do
  match ← load (·.hps i) with
  | none => halt
  | some set =>
    let set ← setAdd (fun a => .assertFailed (.set a)) fuel set (lowWord addr)
    store (·.setHps i set)

def setContainsP (i : Fin n) (fuel : Nat) (addr : Ptr) : P n Bool := do
  match ← load (·.hps i) with
  | none => halt
  | some set => setContains (fun a => .assertFailed (.set a)) fuel set (lowWord addr)

/-- The three hazard pointers of thread `j` that are not `NULL`. -/
def readHPs (i : Fin n) (fuel : Nat) (j : Fin n) : P n Unit := do
  let hptr0 ← load (·.HPs j 0)
  let hptr1 ← load (·.HPs j 1)
  let hptr2 ← load (·.HPs j 2)
  forEach (fun hptr => if hptr ≠ NULL then setAddP i fuel hptr else ret ()) [hptr0, hptr1, hptr2]

/-- `hps=setInit(global->numHPEntries*2)` or `setReset(hps)`. -/
def clearSet (i : Fin n) : P n Unit :=
  store fun s => s.setHps i <| match s.hps i with
    | none => setInit (BitVec.ofNat 32 s.numHPEntries * 2)
    | some set => setReset set

def Reclamation (i : Fin n) (fuel : Nat) : P n Unit := do
  let reclaim ← load (·.reclaim)
  let localVer ← load (·.localVer i)
  let reclaim ← freeze fuel localVer reclaim
  if reclaim.ver = localVer + 1 then
    handOver fuel localVer reclaim.head
    resetReclaim fuel localVer
  else ret ()
  store fun s => { s with localVer := Function.update s.localVer i (s.localVer i + 2) }
  let localVer ← load (·.localVer i)
  let dNp := localVer * 2 ^ 8
  forEach (warn dNp (dNp + 1)) (List.finRange n)
  clearSet i
  forEach (readHPs i fuel) (List.finRange n)

/-! ## `Recycle` -/

/-- What `pop` answers: `RECYCLE_NEEDED`, `NULL` or an entry. -/
inductive Popped where
  | recycleNeeded
  | null
  | entry (e : Nat)

/-- The entry `pop` has taken is cut off the list: `new.head` is `next`. -/
def cutOff (e : Nat) (next : Option Nat) : P n Unit := do
  let first ← load (·.next e)
  if first = next then store (·.setNext e none)
  else
    match first with
    | none => halt
    | some d =>
      let second ← load (·.next d)
      if second = next then store (·.setNext d none)
      else check False (.assertFailed .popNext)

def pop (fuel ver : Nat) : P n Popped :=
  iter (fun _ => do
    let old ← load (·.toProcess)
    if old.ver ≠ ver then return .inr .recycleNeeded
    else
      match old.head with
      | none => return .inr .null
      | some e =>
        let next ← load (·.next e)
        if ← cas (·.toProcess = old) ({ · with toProcess := ⟨next, old.ver⟩ }) (some (.popped e)) then
          cutOff e next
          return .inr (.entry e)
        else return .inl ()) fuel ()

/-- The `for` loop of `Recycle`: returns `k`. -/
def sift (pfree : Ptr → P n Unit) (i : Fin n) (fuel e : Nat) : P n Nat :=
  iter (fun x => do
    let free ← load (·.free e)
    if x.1 < free then
      let ptr ← load (·.ptrs e x.1)
      if ← setContainsP i fuel ptr then
        emit (.taken e ptr.addr)
        pfree ptr
        return .inl (x.1 + 1, x.2)
      else
        step (fun _ => some (.kept e)) (·.setPtr e x.2 ptr) fun _ => ret ()
        return .inl (x.1 + 1, x.2 + 1)
    else return .inr x.2) fuel (0, 0)

/-- Pushes an entry to `global->head`. -/
def pushHead (fuel e : Nat) : P n Unit :=
  iter (fun _ => do
    let tmp ← load (·.head)
    store (·.setNext e tmp)
    if ← cas (·.head = tmp) ({ · with head := some e }) (some (.returned e)) then return .inr ()
    else return .inl ()) fuel ()

/-- The inner loop of `Recycle`. -/
def recycleEntries (pfree : Ptr → P n Unit) (i : Fin n) (fuel e : Nat) : P n Unit :=
  iter (fun entry =>
    match entry with
    | none => return .inr ()
    | some e => do
      let nxt ← load (·.next e)
      let k ← sift pfree i fuel e
      step (fun _ => some (.sifted e)) (·.setFree e k) fun _ => ret ()
      if k > 0 then
        pushHead fuel e
        return .inl nxt
      else return .inl nxt) fuel (some e)

def Recycle (pfree : Ptr → P n Unit) (i : Fin n) (fuel : Nat) : P n Unit :=
  iter (fun _ => do
    let localVer ← load (·.localVer i)
    match ← pop fuel localVer with
    | .entry e =>
      recycleEntries pfree i fuel e
      return .inl ()
    | _ => return .inr ()) fuel ()

/-- `triggerCollection`, given `pfree` for the objects that are protected. -/
def triggerWith (pfree : Ptr → P n Unit) (i : Fin n) (fuel : Nat) : P n Unit := do
  Reclamation i fuel
  Recycle pfree i fuel

/-! ## `pfree` -/

/-- `pfree` with a full free cache `tofree`: whether it went to `reclaim`, and `obj` to a new cache. -/
def pushFull (i : Fin n) (fuel tofree : Nat) (obj : Ptr) : P n Bool :=
  iter (fun _ => do
    let reclaim ← load (·.reclaim)
    let localVer ← load (·.localVer i)
    if reclaim.ver ≠ localVer then return .inr false
    else
      store (·.setNext tofree reclaim.head)
      if ← cas (·.reclaim = reclaim)
          (fun s => ({ s with reclaim := ⟨some tofree, localVer⟩ }.malloc obj).setFreeCache i (some s.brk))
          (some (.freed obj.addr)) then return .inr true
      else return .inl ()) fuel ()

/-- `pfree` from the label `restart`; `trigger` is `triggerCollection`. -/
def pfreeRound (trigger : P n Unit) (i : Fin n) (fuel : Nat) (obj : Ptr) : P n (Unit ⊕ Unit) := do
  match ← load (·.free_cache i) with
  | none =>
    step (fun _ => some (.freed obj.addr)) (fun s => (s.malloc obj).setFreeCache i (some s.brk)) fun _ => ret ()
    return .inr ()
  | some e =>
    let free ← load (·.free e)
    if free < entriesPerCache then
      step (fun _ => some (.freed obj.addr)) (·.append e obj) fun _ => ret ()
      return .inr ()
    else if ← pushFull i fuel e obj then return .inr ()
    else
      trigger
      return .inl ()

def pfree (i : Fin n) : Nat → Ptr → P n Unit
  | 0, _ => halt
  | fuel + 1, obj =>
    if obj = NULL then ret ()
    else iter (fun _ => pfreeRound (triggerWith (pfree i fuel) i fuel) i fuel obj) fuel ()

def triggerCollection (i : Fin n) (fuel : Nat) : P n Unit := triggerWith (pfree i fuel) i fuel

/-! ## `palloc` -/

/-- `memset(ret, 0, local->global->entrySize)`. -/
def zero (a : Nat) : P n Unit := do
  store (·.setKeyData a 0)
  store (·.setWord (.next a) NULL)

/-- `palloc` from the label `start` with a cache: an object, or `none` when the cache is spent. -/
def pallocCached (i : Fin n) : P n (Option Ptr) := do
  match ← load (·.alloc_cache i) with
  | none => return none
  | some e =>
    let free ← load (·.free e)
    if free > 0 then
      let top := fun s : Mem n => s.ptrs e (s.free e - 1)
      let obj ← step (fun s => some (.served (top s).addr)) (fun s => s.setFree e (s.free e - 1)) fun s => ret (top s)
      zero obj.addr
      return some obj
    else return none

/-- Pops a cache from `alc->head`: whether there was one. -/
def popHead (i : Fin n) (fuel : Nat) : P n Bool :=
  iter (fun _ => do
    match ← load (·.head) with
    | none => return .inr false
    | some curhead =>
      let next ← load (·.next curhead)
      if ← cas (·.head = some curhead) (fun s => { s with head := next }.setAllocCache i (some curhead)) none then
        store (·.setNext curhead none)
        return .inr true
      else return .inl ()) fuel ()

/-- The outer `do` loop of `palloc`: `none` goes back to `start`, `some ret` is returned. -/
def pallocRefill (i : Fin n) (fuel : Nat) : P n (Option Ptr) :=
  iter (fun _ => do
    if ← popHead i fuel then return .inr none
    else
      triggerCollection i fuel
      if ← load (·.stop) then
        if ← load (·.stop) then
          let obj ← step (fun s => some (.spared (s.spare s.spares))) (fun s => { s with spares := s.spares + 1 })
            fun s => ret ⟨s.spare s.spares, false⟩
          return .inr (some obj)
        else
          check False (.assertFailed .outOfMemory)
          halt
      else return .inl ()) fuel ()

def palloc (i : Fin n) (fuel : Nat) : P n Ptr :=
  iter (fun _ => do
    match ← pallocCached i with
    | some obj => return .inr obj
    | none =>
      match ← pallocRefill i fuel with
      | some obj => return .inr obj
      | none => return .inl ()) fuel ()

/-- Pushes the full allocation cache `toalloc`, and `obj` goes to a new one. -/
def pushAlloc (i : Fin n) (fuel toalloc : Nat) (obj : Ptr) : P n Unit :=
  iter (fun _ => do
    let curalloc ← load (·.head)
    store (·.setNext toalloc curalloc)
    if ← cas (·.head = curalloc)
        (fun s => (({ s with head := some toalloc }.malloc obj).setNext s.brk none).setAllocCache i (some s.brk))
        (some (.givenBack obj.addr)) then return .inr ()
    else return .inl ()) fuel ()

def pReturnAlloc (i : Fin n) (fuel : Nat) (obj : Ptr) : P n Unit := do
  match ← load (·.alloc_cache i) with
  | none =>
    step (fun _ => some (.givenBack obj.addr)) (fun s => ((s.malloc obj).setNext s.brk none).setAllocCache i (some s.brk))
      fun _ => ret ()
  | some e =>
    let free ← load (·.free e)
    if free < entriesPerCache then step (fun _ => some (.givenBack obj.addr)) (·.append e obj) fun _ => ret ()
    else pushAlloc i fuel e obj

end OptimisticAccess.MOA
