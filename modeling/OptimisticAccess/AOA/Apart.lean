import OptimisticAccess.AOA.Footprint

/-!
# A collection stays apart from the data

Collecting neither reads the keys nor writes to the objects or the roots, and none of its steps is an
event of the client or of an allocation.
-/

namespace OptimisticAccess.AOA

open Conc Prog

variable {n : Nat} {i : Fin n} {fuel : Nat}

/-- The events of a client, of what it is given, and of a heap that has run out. -/
def Ev.isClient : Option Ev → Bool
  | some (.call _) | some (.ret ..) | some (.inserted _) | some (.deleted _) | some (.fenced _) | some (.served ..)
  | some (.assertFailed .outOfMemory) => true
  | _ => false

structure Apart (s : Mem n) (e : Option Ev) (s' : Mem n) : Prop where
  event : Ev.isClient e = false
  node : s'.node = s.node
  roots : s'.roots = s.roots

namespace Apart

theorem refl {e : Option Ev} (he : Ev.isClient e = false) (s : Mem n) : Apart s e s := ⟨he, rfl, rfl⟩

theorem load {α : Type} {f : Mem n → α} : Obeys Apart (Prog.load f : P n α) := obeys_load fun s => refl rfl s

theorem root {s s' : Mem n} {e : Option Ev} (h : RootStep i s e s') : Apart s e s' := by
  have htable : ∀ {e : Option Ev}, Ev.isTable e → Ev.isClient e = false := by
    intro e he
    unfold Ev.isTable at he
    split at he <;> first | rfl | cases he
  have htrace : ∀ {e : Option Ev}, Ev.isTrace e → Ev.isClient e = false := by
    intro e he
    unfold Ev.isTrace at he
    split at he <;> first | rfl | cases he
  cases h with
  | told he => exact refl (htable he) s
  | table he r k w => exact ⟨htable he, rfl, rfl⟩
  | trace h =>
    cases h with
    | silent he => exact refl (htrace he) s
    | slot he k p => exact ⟨htrace he, rfl, rfl⟩
    | mark h k hk _ => exact ⟨rfl, rfl, rfl⟩

theorem of_root {α : Type} {p : P n α} (h : p.Obeys (RootStep i)) : p.Obeys Apart := h.mono fun _ _ _ => root

theorem clearMarks {phaseNum : Nat} : Obeys Apart (clearMarks i fuel phaseNum) := by
  unfold AOA.clearMarks
  generalize headerSize / wordSize = t
  refine obeys_bind load fun chunks => obeys_forEach fun c _ => obeys_forEach fun k _ => obeys_iter (fun _ => ?_) _ _
  refine obeys_bind load fun old => obeys_ite (fun _ => trivial) fun _ => ?_
  refine obeys_bind (obeys_cas (fun s => refl rfl s) fun s _ => ⟨rfl, rfl, rfl⟩) fun _ => ?_
  exact obeys_ite (fun _ => trivial) fun _ => trivial

theorem resetSweepCounter : Obeys Apart (resetSweepCounter i fuel) := by
  refine obeys_bind load fun localVer => obeys_iter (fun _ => obeys_bind load fun ctr => ?_) _ _
  refine obeys_ite (fun _ => trivial) fun _ => obeys_bind (obeys_check fun s => refl rfl s) fun _ => ?_
  refine obeys_bind (obeys_cas (fun s => refl rfl s) fun s _ => ⟨rfl, rfl, rfl⟩) fun _ => ?_
  exact obeys_ite (fun _ => trivial) fun _ => trivial

theorem trace {HPs : List Ptr} : Obeys Apart (trace i fuel HPs) := by
  refine obeys_bind load fun localVer => obeys_bind (of_root obeys_traceRoots) fun counter => ?_
  refine obeys_bind (obeys_foldEach (fun counter p => ?_) _ _) fun counter => ?_
  · refine obeys_bind (obeys_check fun s => refl rfl s) fun _ => ?_
    exact obeys_bind (of_root (obeys_root 0 (obeys_setSlot _ _))) fun _ => trivial
  · exact obeys_bind (of_root (obeys_root _ obeys_traceToEnd)) fun _ => resetSweepCounter

/-! ## Sweeping -/

theorem freeAllocCache {p : Nat} : Obeys Apart (freeAllocCache i p) :=
  obeys_bind (obeys_store fun _ => ⟨rfl, rfl, rfl⟩) fun _ => obeys_store fun _ => ⟨rfl, rfl, rfl⟩

theorem readHead : Obeys Apart (readHead : P n VerEntry) := obeys_bind load fun _ => obeys_bind load fun _ => trivial

theorem pReturnCache {e : Nat} : Obeys Apart (pReturnCache i fuel e) := by
  refine obeys_iter (fun _ => obeys_bind readHead fun old => obeys_bind load fun localVer => ?_) _ _
  refine obeys_ite (fun _ => ?_) fun _ => ?_
  · exact obeys_bind (obeys_store fun _ => ⟨rfl, rfl, rfl⟩) fun _ => trivial
  · refine obeys_bind (obeys_store fun _ => ⟨rfl, rfl, rfl⟩) fun _ => ?_
    refine obeys_bind (obeys_cas (fun s => refl rfl s) fun _ _ => ⟨rfl, rfl, rfl⟩) fun _ => ?_
    exact obeys_ite (fun _ => trivial) fun _ => trivial

theorem startCache {obj : Ptr} : Obeys Apart (startCache i obj) := by
  refine obeys_bind (obeys_bind load fun p => ?_) fun e => obeys_store fun _ => ⟨rfl, rfl, rfl⟩
  cases p with
  | some p => exact obeys_bind (obeys_store fun _ => ⟨rfl, rfl, rfl⟩) fun _ => trivial
  | none =>
    refine obeys_bind (obeys_step (fun s => ⟨?_, rfl, rfl⟩) fun _ => trivial) fun aec => ?_
    · split <;> rfl
    · exact obeys_bind (obeys_check fun s => refl rfl s) fun _ => trivial

theorem setAsFree {obj : Ptr} : Obeys Apart (setAsFree i fuel obj) := by
  refine obeys_bind load fun cache => ?_
  cases cache with
  | some e =>
    refine obeys_bind load fun free => obeys_ite (fun _ => ?_) fun _ => ?_
    · exact obeys_store fun _ => ⟨rfl, rfl, rfl⟩
    · exact obeys_bind pReturnCache fun _ => startCache
  | none => exact startCache

theorem process_sweep_page {page_number : Nat} : Obeys Apart (process_sweep_page i fuel page_number) := by
  refine obeys_bind load fun page => obeys_bind (obeys_check fun s => refl rfl s) fun _ => ?_
  refine obeys_bind load fun objSize => obeys_bind (obeys_check fun s => refl rfl s) fun _ => ?_
  refine obeys_bind (obeys_check fun s => refl rfl s) fun _ => obeys_forEach fun k _ => ?_
  refine obeys_bind load fun mark_bits => obeys_forEach fun k _ => ?_
  exact obeys_ite (fun _ => setAsFree) fun _ => trivial

theorem takeSweepPage {num_sweep_pages phase : Nat} : Obeys Apart (takeSweepPage i fuel num_sweep_pages phase) := by
  refine obeys_iter (fun _ => obeys_bind load fun lsweep => obeys_ite (fun _ => ?_) fun _ => ?_) _ _
  · refine obeys_bind load fun cache => ?_
    cases cache with
    | some e => exact obeys_bind pReturnCache fun _ => obeys_bind (obeys_store fun _ => ⟨rfl, rfl, rfl⟩) fun _ => trivial
    | none => trivial
  · refine obeys_bind (obeys_cas (fun s => refl rfl s) fun _ _ => ⟨rfl, rfl, rfl⟩) fun _ => ?_
    exact obeys_ite (fun _ => trivial) fun _ => trivial

theorem sweep : Obeys Apart (sweep i fuel) := by
  refine obeys_bind (obeys_store fun _ => ⟨rfl, rfl, rfl⟩) fun _ => obeys_bind load fun num => obeys_bind load fun phase => ?_
  refine obeys_iter (fun _ => obeys_bind takeSweepPage fun page => ?_) _ _
  cases page with
  | none => trivial
  | some page => exact obeys_bind process_sweep_page fun _ => trivial

/-! ## Collecting -/

theorem casDirty {dNpd old : U64} {j : Fin n} : Obeys Apart (warn.casDirty dNpd j old) :=
  obeys_cas (fun s => refl rfl s) fun _ _ => ⟨rfl, rfl, rfl⟩

theorem warn {dNp dNpd : U64} {j : Fin n} : Obeys Apart (warn dNp dNpd j) := by
  refine obeys_bind load fun _ => obeys_ite (fun _ => trivial) fun _ => obeys_bind casDirty fun _ => ?_
  exact obeys_bind load fun _ => obeys_ite (fun _ => trivial) fun _ => obeys_bind casDirty fun _ => trivial

theorem readHPs {HPlocal : List Ptr} {j : Fin n} : Obeys Apart (readHPs HPlocal j) :=
  obeys_bind (obeys_watch fun s => refl rfl s) fun _ => obeys_bind (obeys_watch fun s => refl rfl s) fun _ =>
    obeys_bind (obeys_watch fun s => refl rfl s) fun _ => trivial

theorem Reclamation : Obeys Apart (Reclamation i fuel) := by
  refine obeys_bind load fun localVer => obeys_bind (obeys_cas (fun s => refl rfl s) fun _ _ => ⟨rfl, rfl, rfl⟩) fun _ => ?_
  refine obeys_bind obeys_defined fun _ => obeys_bind (obeys_bind readHead fun old => obeys_iter (fun old => ?_) _ _) fun _ => ?_
  · refine obeys_bind load fun localVer => obeys_ite (fun _ => ?_) fun _ => trivial
    refine obeys_bind (obeys_cas (fun s => refl rfl s) fun _ _ => ⟨rfl, rfl, rfl⟩) fun _ => ?_
    exact obeys_bind readHead fun _ => trivial
  · refine obeys_bind (obeys_store fun _ => ⟨rfl, rfl, rfl⟩) fun _ => obeys_bind load fun localVer => obeys_bind load fun phase => ?_
    refine obeys_ite (fun _ => trivial) fun _ => obeys_bind (obeys_forEach fun j _ => warn) fun _ => ?_
    refine obeys_bind (obeys_foldEach (fun _ _ => readHPs) _ _) fun _ => ?_
    exact obeys_bind (obeys_emit fun s => refl rfl s) fun _ => trivial

theorem collect : Obeys Apart (do
    match ← AOA.Reclamation i fuel with
    | none => ret ()
    | some HPlocal =>
      let localVer ← Prog.load fun s => (s.locals i).localVer
      AOA.clearMarks i fuel localVer
      clearRootsMark i fuel
      AOA.trace i fuel HPlocal
      let gsc ← Prog.load (·.sweep_counter)
      check (phaseOf gsc ≥ localVer) (.assertFailed .gscPhase)
      AOA.sweep i fuel) := by
  refine obeys_bind Reclamation fun HPlocal => ?_
  cases HPlocal with
  | none => trivial
  | some HPlocal =>
    refine obeys_bind load fun localVer => obeys_bind clearMarks fun _ => obeys_bind (of_root obeys_clearRootsMark) fun _ => ?_
    refine obeys_bind trace fun _ => obeys_bind load fun gsc => ?_
    exact obeys_bind (obeys_check fun s => refl rfl s) fun _ => sweep

theorem triggerCollection : Obeys Apart (triggerCollection i fuel) := by
  refine obeys_bind load fun cache => ?_
  cases cache with
  | some p => exact obeys_bind freeAllocCache fun _ => collect
  | none => exact collect

theorem helpCollection : Obeys Apart (helpCollection i fuel) :=
  obeys_bind load fun _ => obeys_bind load fun _ => obeys_ite (fun _ => triggerCollection) fun _ => trivial

theorem pop {ver : Nat} : Obeys Apart (pop fuel ver : P n Popped) := by
  refine obeys_iter (fun _ => obeys_bind readHead fun old => obeys_ite (fun _ => obeys_ret _) fun _ => ?_) _ _
  cases old.head with
  | none => exact obeys_ret _
  | some e =>
    refine obeys_bind load fun next => ?_
    refine obeys_bind (obeys_cas (fun s => refl rfl s) fun _ _ => ⟨rfl, rfl, rfl⟩) fun _ => ?_
    exact obeys_ite (fun _ => trivial) fun _ => trivial

end Apart

end OptimisticAccess.AOA
