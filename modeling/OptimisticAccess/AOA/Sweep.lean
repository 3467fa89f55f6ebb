import OptimisticAccess.AOA.Trace

/-!
# `trace.c`: sweeping and clearing, `allocator.c`: cache descriptors

A cache descriptor belongs to one thread from the moment it leaves the shared stack `head` until
it is pushed again, so what its owner does to `free` and `ptrs` needs no interleaving; its `next`
word is read by other threads.
-/

namespace OptimisticAccess.AOA

open Conc Prog

variable {n : Nat}

/-! ## `allocEntry` management -/

/-- `freeAllocEntry(local->alloc_cache); local->alloc_cache=NULL`. The two words of the thread
change in one step, nobody else reads them. -/
def freeAllocCache (i : Fin n) (p : Nat) : P n Unit := do
  store fun s => s.setEntry p fun e => { e with next := (s.locals i).entriesLocalFreeList }
  store (·.setLocal i fun l => { l with entriesLocalFreeList := some p, alloc_cache := none })

/-- The length of `allocationEntriesCache`. -/
def allocationEntriesCacheSize : Nat := 100000

def getAllocEntry (i : Fin n) : P n Nat := do
  match ← load fun s => (s.locals i).entriesLocalFreeList with
  | some p =>
    store fun s => s.setLocal i fun l => { l with entriesLocalFreeList := (s.entries p).next }
    return p
  | none =>
    let aec ← step (fun s => if s.allocationEntriesCacheHead < allocationEntriesCacheSize then
        some (.taken s.allocationEntriesCacheHead) else none)
      (fun s => { s with allocationEntriesCacheHead := s.allocationEntriesCacheHead + 1 })
      fun s => ret s.allocationEntriesCacheHead
    check (aec < allocationEntriesCacheSize) (.assertFailed .entriesLeft)
    return aec

/-! ## The shared stack of caches -/

/-- A copy of `alc->head`: its two words are read one after the other. -/
def readHead : P n VerEntry := do
  let head ← load (·.head.head)
  let ver ← load (·.head.ver)
  return ⟨head, ver⟩

/-- Pushes `toalloc`, the cache of thread `i`. The write `local->alloc_cache=NULL` belongs to the
successful step. -/
def pReturnCache (i : Fin n) (fuel : Nat) (toalloc : Nat) : P n Bool :=
  iter (fun _ => do
    let old ← readHead
    let localVer ← load fun s => (s.locals i).localVer
    if old.ver ≠ localVer then
      store (·.setEntry toalloc ({ · with free := 1 }))
      return .inr false
    else
      store (·.setEntry toalloc ({ · with next := old.head }))
      if ← cas (·.head = old)
          (fun s => { s.setLocal i ({ · with alloc_cache := none }) with head := ⟨some toalloc, localVer⟩ })
          (some (.pushed toalloc localVer)) then return .inr true
      else return .inl ()) fuel ()

/-- The part of `setAsFree` that takes a new cache for `obj`. -/
def startCache (i : Fin n) (obj : Ptr) : P n Unit := do
  let e ← getAllocEntry i
  store fun s => (s.setLocal i ({ · with alloc_cache := some e })).setEntry e
    fun c => { c with free := 1, ptrs := Function.update c.ptrs 0 obj }

def setAsFree (i : Fin n) (fuel : Nat) (obj : Ptr) : P n Unit := do
  match ← load fun s => (s.locals i).alloc_cache with
  | some e =>
    let free ← load fun s => (s.entries e).free
    if free < entriesPerCache then
      store (·.setEntry e fun c => { c with ptrs := Function.update c.ptrs c.free obj, free := c.free + 1 })
    else
      let _ ← pReturnCache i fuel e
      startCache i obj
  | none => startCache i obj

/-! ## Sweep -/

/-- The objects of one mark word: the object of bit `k` is `obj + k * OBJ_SIZE`. -/
def sweepWord (i : Fin n) (fuel : Nat) (h_ptr obj objSize : Nat) : P n Unit := do
  let mark_bits ← load (·.marks h_ptr)
  forEach (fun k =>
    if mark_bits &&& Stamp.bit k = 0#64 then setAsFree i fuel ⟨obj + k * objSize, false⟩ else ret ())
    (List.range 32)

/-- Both cases of `DALLOW_SMALL_SP` coincide here: `HEADER_SIZE` is at least `MEM_PER_BYTE*8`. -/
def process_sweep_page (i : Fin n) (fuel : Nat) (page_number : Nat) : P n Unit := do
  let page ← load fun s =>
    s.heapmem.getD (page_number / sweepPagesPerChunk) 0 + page_number % sweepPagesPerChunk * sweepPage
  let base := page / chunkSize * chunkSize
  let h_ptr := base + page % chunkSize / memPerByte
  check (h_ptr % wordSize = 0) (.assertFailed .alignedWord)
  let objSize ← load (·.entrySize)
  check (objSize = nodeSize) (.assertFailed .nodeSize)
  check (objSize &&& (objSize - 1) = 0) (.assertFailed .powerOfTwo)
  let u64ignores := if page = base then headerSize / (memPerByte * wordSize) else 0
  let obj := if page = base ∧ u64ignores ≠ 0 then page + headerSize else page
  let h_ptr := h_ptr + wordSize * u64ignores
  forEach (fun k => sweepWord i fuel (h_ptr + wordSize * k) (obj + 32 * objSize * k) objSize)
    (List.range ((page + sweepPage - obj) / (32 * objSize)))

/-- Takes one sweep page; `none` means that there is none left in this phase. -/
def takeSweepPage (i : Fin n) (fuel : Nat) (num_sweep_pages phase : Nat) : P n (Option Nat) :=
  iter (fun _ => do
    let lsweep ← load (·.sweep_counter)
    if phaseOf lsweep ≠ phase ∨ scounter lsweep ≥ num_sweep_pages then
      match ← load fun s => (s.locals i).alloc_cache with
      | some e =>
        let _ ← pReturnCache i fuel e
        store (·.setLocal i ({ · with alloc_cache := none }))
        return .inr none
      | none => return .inr none
    else if ← cas (·.sweep_counter = lsweep) ({ · with sweep_counter := lsweep + 1 })
        (some (.claimed (scounter lsweep) phase)) then return .inr (some (scounter lsweep))
    else return .inl ()) fuel ()

def sweep (i : Fin n) (fuel : Nat) : P n Unit := do
  store (·.setLocal i ({ · with alloc_cache := none }))
  let num_sweep_pages ← load fun s => s.heapmem.length * sweepPagesPerChunk
  let phase ← load fun s => (s.locals i).localVer % 2 ^ 32
  iter (fun _ => do
    match ← takeSweepPage i fuel num_sweep_pages phase with
    | none => return .inr ()
    | some page_number =>
      process_sweep_page i fuel page_number
      return .inl ()) fuel ()

/-! ## Clearing -/

/-- `do{ old=*h; if(old>=phaseNum) break; }while(!CAS(h, old, phaseNum))`. -/
def clearWord (fuel : Nat) (get : Mem n → U64) (set : U64 → Mem n → Mem n) (phaseNum : U64) : P n Unit :=
  iter (fun _ => do
    let old ← load get
    if old ≥ phaseNum then return .inr ()
    else if ← cas (get · = old) (set phaseNum) none then return .inr ()
    else return .inl ()) fuel ()

/-- The words of the mark table of array root `r`, the synchronization counter included. -/
def clearArrMarks (fuel : Nat) (phaseNum r words : Nat) : P n Unit :=
  forEach (fun k => clearWord fuel (·.arr_marktable r k) (fun w s => s.setTable r k w)
    (Stamp.empty phaseNum)) (List.range words)

/-- Every array root is cleared through `arr_marktable[0]`. -/
def clearRootsMark (i : Fin n) (fuel : Nat) : P n Unit := do
  let rootLen ← load (·.rootLen)
  forEach (fun len => do
    if len ≠ 1 then
      let localVer ← load fun s => (s.locals i).localVer
      clearArrMarks fuel localVer 0 ((len + entriesPerWord - 1) / entriesPerWord + 1)
    else ret ()) rootLen

/-- Thread `i` starts at its own part of each header and goes round. -/
def clearMarks (i : Fin n) (fuel : Nat) (phaseNum : Nat) : P n Unit := do
  let tot_quota := headerSize / wordSize
  let quota := tot_quota / n
  let chunks ← load (·.heapmem)
  forEach (fun curheap =>
    forEach (fun k =>
      let h := curheap + wordSize * ((i.val * quota + k) % tot_quota)
      clearWord fuel (·.marks h) (fun w s => s.setMarks h w) (Stamp.empty phaseNum))
      (List.range tot_quota)) chunks

end OptimisticAccess.AOA
