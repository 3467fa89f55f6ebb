import OptimisticAccess.AOA.State

/-!
# `trace.c`: marking

The cooperative trace of a collection, with one child to an object. `fuel` bounds each loop that
the source leaves unbounded.
-/

namespace OptimisticAccess.AOA

open Conc Prog

variable {n : Nat}

/-! ## Mark bits -/

def isMarked (ptr : Ptr) : P n Bool :=
  load fun s => s.marks (markWord ptr.addr) &&& markMask ptr.addr != 0#64

/-- `CAS(h_ptr, old, old|mask)`. -/
def casMark (h_ptr : Nat) (mask old : U64) : P n Bool :=
  cas (fun s => s.marks h_ptr = old) (fun s => s.setMarks h_ptr (old ||| mask)) (some (.bitSet h_ptr mask))

/-- `__mark`. -/
def mark (fuel : Nat) (h_ptr : Nat) (mask old localPhase : U64) : P n Bool := do
  if !isCurPhase old localPhase then return false
  else if ← casMark h_ptr mask old then return true
  else
    iter (fun _ => do
      let old ← load (·.marks h_ptr)
      if old &&& mask != 0#64 then return .inr false
      else if !isCurPhase old localPhase then return .inr false
      else if ← casMark h_ptr mask old then return .inr true
      else return .inl ()) fuel ()

/-! ## The mark stack -/

def setSlot (i : Fin n) (k : Nat) (p : Ptr) : P n Unit := store (·.setSlot i k p)

def slot (i : Fin n) (k : Nat) : P n Ptr := load fun s => (s.locals i).markstack k

/-- `markstack[0] = (void*)((long)markstack[0]|1)`. -/
def finishSlot (i : Fin n) : P n Unit := do
  let p ← slot i 0
  setSlot i 0 { p with tag := true }

/-- Returns `*pcounter`. -/
def traceObj (i : Fin n) (fuel : Nat) (cur : Ptr) (counter : Nat) (localSweep : U64) : P n Nat := do
  let h_ptr := markWord cur.addr
  let mask := markMask cur.addr
  let old ← load (·.marks h_ptr)
  if old &&& mask != 0#64 then return counter
  else
    step (fun _ => some (.published cur)) (·.setSlot i 0 cur) fun _ => ret ()
    let nxt ← load fun s => clearPtr (s.node cur.addr).nextEntry
    if nxt = NULL then
      let _ ← mark fuel h_ptr mask old localSweep
      return counter
    else
      setSlot i (counter + 1) nxt
      if ← mark fuel h_ptr mask old localSweep then return counter + 1
      else
        setSlot i (counter + 1) NULL
        return counter

def traceMarkstack (i : Fin n) (fuel : Nat) (counter : Nat) (localSweep : U64) : P n Unit :=
  iter (fun counter =>
    if counter ≥ 1 then do
      let cur ← slot i counter
      let counter ← traceObj i fuel cur (counter - 1) localSweep
      return .inl counter
    else return .inr ()) fuel counter

/-! ## Roots that are arrays -/

/-- Returns `*pcounter`. -/
def copyPartOfArr (i : Fin n) (r begin : Nat) : P n Nat :=
  foldEach (fun counter k => do
    let ptr ← load fun s => s.roots r (begin + k)
    if ptr = NULL then return counter
    else
      setSlot i (counter + 1) ptr
      return counter + 1) 0 (List.range arrEntriesPerBit)

/-- `(unsigned)ctr*ARR_ENTRIES_PER_BIT>=len`. -/
def beyond (ctr : U64) (len : Nat) : Bool := scounter ctr * arrEntriesPerBit % 2 ^ 32 ≥ len

/-- `none` is the answer `-1`. -/
def get_arr_chunk (r len : Nat) (localSweep : U64) : P n (Option Nat) := do
  let ctr ← load (·.arr_marktable r 0)
  if beyond ctr len then return none
  else if !isCurPhase ctr localSweep then return none
  else
    let ctr ← atomic (·.arr_marktable r 0) fun s => s.setTable r 0 (s.arr_marktable r 0 + 1)
    if beyond ctr len then return none
    else if !isCurPhase ctr localSweep then return none
    else return some (ctr.toNat % 2 ^ 31)

/-- Word `w` of `bits` is word `w + 1` of the table. -/
def sign_bit (fuel : Nat) (r w bit : Nat) (localSweep : U64) : P n Bool :=
  let mask := Stamp.bit bit
  iter (fun _ => do
    let old ← load (·.arr_marktable r (w + 1))
    if !isCurPhase old localSweep then return .inr false
    else if old &&& mask != 0#64 then return .inr false
    else if ← cas (fun s => s.arr_marktable r (w + 1) = old) (·.setTable r (w + 1) (old ||| mask))
        (some (.signed r w bit localSweep)) then return .inr true
    else return .inl ()) fuel ()

/-- What `traceArr` and `finishTraceArr` do with a chunk. -/
def traceChunk (i : Fin n) (fuel : Nat) (r w bit : Nat) (localSweep : U64) : P n Unit := do
  let counter ← copyPartOfArr i r ((w * 32 + bit) * arrEntriesPerBit)
  let top ← slot i counter
  setSlot i 0 top
  if ← sign_bit fuel r w bit localSweep then
    traceMarkstack i fuel counter localSweep
    finishSlot i
  else finishSlot i

def finishTraceArr (i : Fin n) (fuel : Nat) (r len : Nat) (localSweep : U64) : P n Unit := do
  let num_markwords := len / arrEntriesPerBit / 32
  let _ ← anyEach (fun w => do
    let val ← load (·.arr_marktable r (w + 1))
    if !isCurPhase val localSweep then return true
    else if scounter val = 0xFFFFFFFF then return false
    else
      forEach (fun bit =>
        if val &&& Stamp.bit bit = 0#64 then traceChunk i fuel r w bit localSweep
        else ret ()) (List.range 32)
      return false) (List.range num_markwords)

/-- The loop of `traceArr`: chunks as the counter hands them out. -/
def traceChunks (i : Fin n) (fuel : Nat) (r len : Nat) (localSweep : U64) : P n Unit :=
  iter (fun _ => do
    match ← get_arr_chunk r len localSweep with
    | none => return .inr ()
    | some ctr =>
      traceChunk i fuel r (ctr / 32) (ctr % 32) localSweep
      return .inl ()) fuel ()

def traceArr (i : Fin n) (fuel : Nat) (r len : Nat) : P n Unit := do
  let localVer ← load fun s => (s.locals i).localVer
  let localSweep := makeSC 0 localVer
  traceChunks i fuel r len localSweep
  finishTraceArr i fuel r len localSweep
  emit (.arrTraced r localSweep)

/-- Returns `*pcounter`. -/
def traceRoots (i : Fin n) (fuel : Nat) (counter : Nat) : P n Nat := do
  let rootLen ← load (·.rootLen)
  foldEach (fun counter (r, len) => do
    if len ≠ 1 then
      traceArr i fuel r len
      return counter
    else
      let child ← load fun s => clearPtr (s.roots r 0)
      if child = NULL then return counter
      else
        setSlot i (counter + 1) child
        return counter + 1) counter ((List.range rootLen.length).zip rootLen)

/-! ## Termination -/

def resetSweepCounter (i : Fin n) (fuel : Nat) : P n Unit := do
  let localVer ← load fun s => (s.locals i).localVer
  iter (fun _ => do
    let sweep_ctr ← load (·.sweep_counter)
    if phaseOf sweep_ctr ≥ localVer then return .inr ()
    else
      check ((phaseOf sweep_ctr : Int) = localVer - 2) (.assertFailed .sweepPhase)
      if ← cas (·.sweep_counter = sweep_ctr) ({ · with sweep_counter := makeSC 0 localVer }) none then
        return .inr ()
      else return .inl ()) fuel ()

/-- The scan of the slots of thread `ai` above slot 0. Returns `counter`. -/
def scanSlots (i : Fin n) (fuel : Nat) (ai : Fin n) (counter : Nat) : P n Nat :=
  iter (fun (j, counter) => do
    let ptr ← watch (fun s => (s.locals ai).markstack j) fun ptr => some (.scanned ai ptr)
    if ptr = NULL then return .inr counter
    else
      let marked ← isMarked ptr
      if marked = false ∧ counter < 10 then
        setSlot i (counter + 1) ptr
        return .inl (j + 1, counter + 1)
      else return .inl (j + 1, counter)) fuel (1, counter)

/-- One round of the first loop of `CheckFinish`. `seen` holds `curPhases` and `tracing` of the
threads scanned so far. -/
def scanThread (i : Fin n) (fuel : Nat) (localVer : Nat) (acc : Nat × List (Fin n × Int × Ptr)) (ai : Fin n) :
    P n (Nat × List (Fin n × Int × Ptr)) := do
  let (counter, seen) := acc
  let curPhase ← load fun s => toInt32 (s.locals ai).localVer
  let trptr ← slot ai 0
  let seen := seen ++ [(ai, curPhase, trptr)]
  if trptr.tag ∨ curPhase ≠ localVer then return (counter, seen)
  else
    let counter ← scanSlots i fuel ai counter
    if ← isMarked trptr then return (counter, seen)
    else
      setSlot i (counter + 1) trptr
      return (counter + 1, seen)

/-- `for(int i=1; markstack[i]!=NULL; ++i) markstack[i]=NULL`. -/
def clearStack (i : Fin n) (fuel : Nat) : P n Unit :=
  iter (fun k => do
    let p ← slot i k
    if p = NULL then return .inr ()
    else
      setSlot i k NULL
      return .inl (k + 1)) fuel 1

/-- The answer and `*counterPtr`. -/
def CheckFinish (i : Fin n) (fuel : Nat) : P n (Bool × Nat) := do
  let localVer ← load fun s => (s.locals i).localVer
  iter (fun _ => do
    let (counter, seen) ← foldEach (scanThread i fuel localVer) (0, []) (List.finRange n)
    if counter ≥ 1 then
      let phase ← load (·.phase)
      if localVer ≠ phase then
        clearStack i fuel
        return .inr (true, counter)
      else return .inr (false, counter)
    else
      let changed ← anyEach (fun (ai, curPhase, tracing) => do
        let trptr ← slot ai 0
        if trptr ≠ tracing then return true
        else
          let ver ← load fun s => (s.locals ai).localVer
          return (ver : Int) != curPhase) seen
      if changed then return .inl () else return .inr (true, counter)) fuel ()

/-- The part of `trace` after the mark stack has been filled. -/
def traceToEnd (i : Fin n) (fuel : Nat) (counter : Nat) (localVer : Nat) : P n Unit := do
  traceMarkstack i fuel counter (makeSC 0 localVer)
  finishSlot i
  iter (fun _ => do
    let (finish, counter) ← CheckFinish i fuel
    if finish then
      emit (.finished localVer)
      return .inr ()
    else
      traceMarkstack i fuel counter (makeSC 0 localVer)
      finishSlot i
      return .inl ()) fuel ()

def trace (i : Fin n) (fuel : Nat) (HPs : List Ptr) : P n Unit := do
  let localVer ← load fun s => (s.locals i).localVer
  let counter ← traceRoots i fuel 0
  let counter ← foldEach (fun counter p => do
    check (p ≠ NULL ∧ clearPtr p = p) (.assertFailed .hazardPointer)
    setSlot i (counter + 1) p
    return counter + 1) counter HPs
  traceToEnd i fuel counter localVer
  resetSweepCounter i fuel

end OptimisticAccess.AOA
