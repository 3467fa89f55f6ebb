import OptimisticAccess.AOA.Alloc
import OptimisticAccess.Conc.Frame

/-!
# What the parts of a collection can touch

One inductive relation for each part lists the atomic actions its steps are made of. The proofs
about a component take these lists as their case analysis and never look into the loops.
-/

namespace OptimisticAccess.AOA

open Conc Prog

variable {n : Nat}

/-- The events of tracing that go with no change of the mark words. -/
def Ev.isTrace : Option Ev → Bool
  | none | some (.published _) | some (.scanned ..) | some (.finished _) => true
  | _ => false

/-- An action of thread `i` while it traces in the phase of `localSweep`. -/
inductive TraceStep (i : Fin n) (localSweep : U64) : Mem n → Option Ev → Mem n → Prop
  | silent {s : Mem n} {e : Option Ev} (he : Ev.isTrace e) : TraceStep i localSweep s e s
  | slot {s : Mem n} {e : Option Ev} (he : Ev.isTrace e) (k : Nat) (p : Ptr) :
    TraceStep i localSweep s e (s.setSlot i k p)
  | mark {s : Mem n} (h k : Nat) (hk : k < 32) (hcur : isCurPhase (s.marks h) localSweep) :
    TraceStep i localSweep s (some (.bitSet h (Stamp.bit k))) (s.setMarks h (s.marks h ||| Stamp.bit k))

section Trace

variable {i : Fin n} {localSweep : U64} {fuel : Nat}

theorem TraceStep.phase {s s' : Mem n} {e : Option Ev} (h : TraceStep i localSweep s e s') : s'.phase = s.phase := by
  cases h <;> rfl

theorem TraceStep.load {α : Type} {f : Mem n → α} : Obeys (TraceStep i localSweep) (load f) :=
  obeys_load fun _ => .silent rfl

theorem obeys_setSlot (k : Nat) (p : Ptr) : Obeys (TraceStep i localSweep) (setSlot i k p) :=
  obeys_store fun _ => .slot rfl k p

theorem obeys_finishSlot : Obeys (TraceStep i localSweep) (finishSlot i) :=
  obeys_bind TraceStep.load fun _ => obeys_setSlot 0 _

theorem obeys_casMark {h k : Nat} (hk : k < 32) {old : U64} (hcur : isCurPhase old localSweep) :
    Obeys (TraceStep i localSweep) (casMark h (Stamp.bit k) old) := by
  refine obeys_cas (fun _ => .silent rfl) fun s hs => ?_
  subst hs
  exact .mark h k hk hcur

theorem obeys_mark {h k : Nat} (hk : k < 32) {old : U64} :
    Obeys (TraceStep i localSweep) (mark fuel h (Stamp.bit k) old localSweep) := by
  unfold mark
  refine obeys_ite (fun _ => trivial) fun hcur => ?_
  refine obeys_bind (obeys_casMark hk (by simpa using hcur)) fun _ => ?_
  refine obeys_ite (fun _ => trivial) fun _ => obeys_iter (fun _ => ?_) _ _
  refine obeys_bind TraceStep.load fun old => obeys_ite (fun _ => trivial) fun _ => ?_
  refine obeys_ite (fun _ => trivial) fun hcur => ?_
  refine obeys_bind (obeys_casMark hk (by simpa using hcur)) fun _ => ?_
  exact obeys_ite (fun _ => trivial) fun _ => trivial

theorem obeys_traceObj {cur : Ptr} {counter : Nat} :
    Obeys (TraceStep i localSweep) (traceObj i fuel cur counter localSweep) := by
  unfold traceObj
  have hbit := markBit_lt cur.addr
  refine obeys_bind TraceStep.load fun old => obeys_ite (fun _ => trivial) fun _ => ?_
  refine obeys_bind (obeys_step (fun _ => .slot rfl 0 cur) fun _ => trivial) fun _ => ?_
  refine obeys_bind TraceStep.load fun nxt => obeys_ite (fun _ => ?_) fun _ => ?_
  · exact obeys_bind (obeys_mark hbit) fun _ => trivial
  · refine obeys_bind (obeys_setSlot _ _) fun _ => obeys_bind (obeys_mark hbit) fun _ => ?_
    exact obeys_ite (fun _ => trivial) fun _ => obeys_bind (obeys_setSlot _ _) fun _ => trivial

theorem obeys_traceMarkstack {counter : Nat} :
    Obeys (TraceStep i localSweep) (traceMarkstack i fuel counter localSweep) := by
  refine obeys_iter (fun counter => ?_) _ _
  refine obeys_ite (fun _ => ?_) fun _ => trivial
  exact obeys_bind TraceStep.load fun cur => obeys_bind obeys_traceObj fun _ => trivial

theorem obeys_copyPartOfArr {r begin : Nat} :
    Obeys (TraceStep i localSweep) (copyPartOfArr i r begin) := by
  refine obeys_foldEach (fun counter k => ?_) _ _
  refine obeys_bind TraceStep.load fun ptr => obeys_ite (fun _ => trivial) fun _ => ?_
  exact obeys_bind (obeys_setSlot _ _) fun _ => trivial

theorem obeys_isMarked {p : Ptr} : Obeys (TraceStep i localSweep) (isMarked p) := TraceStep.load

theorem obeys_scanSlots {ai : Fin n} {counter : Nat} :
    Obeys (TraceStep i localSweep) (scanSlots i fuel ai counter) := by
  refine obeys_iter (fun (j, counter) => ?_) _ _
  refine obeys_bind (obeys_watch fun _ => .silent rfl) fun ptr => obeys_ite (fun _ => trivial) fun _ => ?_
  refine obeys_bind obeys_isMarked fun _ => obeys_ite (fun _ => ?_) fun _ => trivial
  exact obeys_bind (obeys_setSlot _ _) fun _ => trivial

theorem obeys_scanThread {localVer : Nat} {acc : Nat × List (Fin n × Int × Ptr)} {ai : Fin n} :
    Obeys (TraceStep i localSweep) (scanThread i fuel localVer acc ai) := by
  refine obeys_bind TraceStep.load fun _ => obeys_bind TraceStep.load fun trptr => ?_
  refine obeys_ite (fun _ => trivial) fun _ => obeys_bind obeys_scanSlots fun counter => ?_
  refine obeys_bind obeys_isMarked fun _ => obeys_ite (fun _ => trivial) fun _ => ?_
  exact obeys_bind (obeys_setSlot _ _) fun _ => trivial

theorem obeys_clearStack : Obeys (TraceStep i localSweep) (clearStack i fuel) := by
  refine obeys_iter (fun k => ?_) _ _
  refine obeys_bind TraceStep.load fun _ => obeys_ite (fun _ => trivial) fun _ => ?_
  exact obeys_bind (obeys_setSlot _ _) fun _ => trivial

theorem obeys_CheckFinish : Obeys (TraceStep i localSweep) (CheckFinish i fuel) := by
  refine obeys_bind TraceStep.load fun localVer => obeys_iter (fun _ => ?_) _ _
  refine obeys_bind (obeys_foldEach (fun _ _ => obeys_scanThread) _ _) fun r => ?_
  refine obeys_ite (fun _ => ?_) fun _ => ?_
  · refine obeys_bind TraceStep.load fun _ => obeys_ite (fun _ => ?_) fun _ => trivial
    exact obeys_bind obeys_clearStack fun _ => trivial
  · refine obeys_bind (obeys_anyEach (fun _ => ?_) _) fun _ => obeys_ite (fun _ => trivial) fun _ => trivial
    refine obeys_bind TraceStep.load fun _ => obeys_ite (fun _ => trivial) fun _ => ?_
    exact obeys_bind TraceStep.load fun _ => trivial

theorem obeys_traceToEnd {counter localVer : Nat} :
    Obeys (TraceStep i (makeSC 0 localVer)) (traceToEnd i fuel counter localVer) := by
  refine obeys_bind obeys_traceMarkstack fun _ => obeys_bind obeys_finishSlot fun _ => ?_
  refine obeys_iter (fun _ => obeys_bind obeys_CheckFinish fun r => obeys_ite (fun _ => ?_) fun _ => ?_) _ _
  · exact obeys_bind (obeys_emit fun _ => .silent rfl) fun _ => trivial
  · exact obeys_bind obeys_traceMarkstack fun _ => obeys_bind obeys_finishSlot fun _ => trivial

end Trace

/-- The events of the mark table of an array root. -/
def Ev.isTable : Option Ev → Bool
  | none | some (.signed ..) | some (.arrTraced ..) => true
  | _ => false

/-- An action of thread `i` in `trace` before `resetSweepCounter`. -/
inductive RootStep (i : Fin n) : Mem n → Option Ev → Mem n → Prop
  | trace {s s' : Mem n} {e : Option Ev} {localSweep : U64} (h : TraceStep i localSweep s e s') : RootStep i s e s'
  | told {s : Mem n} {e : Option Ev} (he : Ev.isTable e) : RootStep i s e s
  | table {s : Mem n} {e : Option Ev} (he : Ev.isTable e) (r k : Nat) (w : U64) : RootStep i s e (s.setTable r k w)

section Roots

variable {i : Fin n} {fuel : Nat}

theorem RootStep.phase {s s' : Mem n} {e : Option Ev} (h : RootStep i s e s') : s'.phase = s.phase := by
  cases h with
  | trace h => exact h.phase
  | told => rfl
  | table => rfl

theorem RootStep.load {α : Type} {f : Mem n → α} : Obeys (RootStep i) (load f) :=
  obeys_load fun _ => .told rfl

theorem obeys_root {α : Type} {p : P n α} (localSweep : U64) (h : p.Obeys (TraceStep i localSweep)) :
    p.Obeys (RootStep i) :=
  h.mono fun _ _ _ => .trace

theorem obeys_get_arr_chunk {r len : Nat} {localSweep : U64} :
    Obeys (RootStep i) (get_arr_chunk (n := n) r len localSweep) := by
  refine obeys_bind RootStep.load fun ctr => ?_
  refine obeys_ite (fun _ => trivial) fun _ => obeys_ite (fun _ => trivial) fun _ => ?_
  refine obeys_bind (obeys_atomic fun _ => .table rfl r 0 _) fun ctr => ?_
  exact obeys_ite (fun _ => trivial) fun _ => obeys_ite (fun _ => trivial) fun _ => trivial

theorem obeys_sign_bit {r w bit : Nat} {localSweep : U64} :
    Obeys (RootStep i) (sign_bit (n := n) fuel r w bit localSweep) := by
  refine obeys_iter (fun _ => obeys_bind RootStep.load fun old => ?_) _ _
  refine obeys_ite (fun _ => trivial) fun _ => obeys_ite (fun _ => trivial) fun _ => ?_
  refine obeys_bind (obeys_cas (fun _ => .told rfl) fun _ _ => .table rfl r (w + 1) _) fun _ => ?_
  exact obeys_ite (fun _ => trivial) fun _ => trivial

theorem obeys_traceChunk {r w bit : Nat} {localSweep : U64} :
    Obeys (RootStep i) (traceChunk i fuel r w bit localSweep) := by
  refine obeys_bind (obeys_root localSweep obeys_copyPartOfArr) fun counter => ?_
  refine obeys_bind RootStep.load fun top => ?_
  refine obeys_bind (obeys_root localSweep (obeys_setSlot 0 top)) fun _ => ?_
  refine obeys_bind obeys_sign_bit fun _ => obeys_ite (fun _ => ?_) fun _ => ?_
  · refine obeys_bind (obeys_root localSweep obeys_traceMarkstack) fun _ => ?_
    exact obeys_root localSweep obeys_finishSlot
  · exact obeys_root localSweep obeys_finishSlot

theorem obeys_traceArr {r len : Nat} : Obeys (RootStep i) (traceArr i fuel r len) := by
  refine obeys_bind RootStep.load fun localVer => obeys_bind ?_ fun _ => obeys_bind ?_ fun _ => ?_
  · refine obeys_iter (fun _ => obeys_bind obeys_get_arr_chunk fun ctr => ?_) _ _
    cases ctr with
    | none => trivial
    | some ctr => exact obeys_bind obeys_traceChunk fun _ => trivial
  · refine obeys_bind (obeys_anyEach (fun w => obeys_bind RootStep.load fun val => ?_) _) fun _ => trivial
    refine obeys_ite (fun _ => trivial) fun _ => obeys_ite (fun _ => trivial) fun _ => ?_
    refine obeys_bind (obeys_forEach fun bit _ => ?_) fun _ => trivial
    exact obeys_ite (fun _ => obeys_traceChunk) fun _ => trivial
  · exact obeys_emit fun _ => .told rfl

theorem obeys_traceRoots {counter : Nat} : Obeys (RootStep i) (traceRoots i fuel counter) := by
  refine obeys_bind RootStep.load fun rootLen => obeys_foldEach (fun counter (r, len) => ?_) _ _
  refine obeys_ite (fun _ => obeys_bind obeys_traceArr fun _ => trivial) fun _ => ?_
  refine obeys_bind RootStep.load fun child => obeys_ite (fun _ => trivial) fun _ => ?_
  exact obeys_bind (obeys_root 0 (obeys_setSlot _ _)) fun _ => trivial

theorem obeys_clearRootsMark : Obeys (RootStep i) (clearRootsMark i fuel) := by
  refine obeys_bind RootStep.load fun rootLen => obeys_forEach fun len _ => obeys_ite (fun _ => ?_) fun _ => trivial
  refine obeys_bind RootStep.load fun localVer => obeys_forEach fun k _ => obeys_iter (fun _ => ?_) _ _
  refine obeys_bind RootStep.load fun old => obeys_ite (fun _ => trivial) fun _ => ?_
  refine obeys_bind (obeys_cas (fun _ => .told rfl) fun _ _ => .table rfl 0 k _) fun _ => ?_
  exact obeys_ite (fun _ => trivial) fun _ => trivial

end Roots

end OptimisticAccess.AOA
