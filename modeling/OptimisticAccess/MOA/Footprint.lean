import OptimisticAccess.Conc.Frame
import OptimisticAccess.MOA.Nodes

/-!
# The allocator leaves the lists alone

The steps of the allocator touch no word of an object and no list head, and clear no dirty bit; only
`palloc` zeroes the object it returns.
-/

namespace OptimisticAccess.MOA

open Conc Prog

variable {n : Nat} {i : Fin n} {α : Type}

/-- An event that is not one of the lists. -/
def Ev.plain : Option Ev → Bool
  | some (.call _) => false
  | some (.ret _ _) => false
  | some (.linked _) => false
  | some (.unlinked _) => false
  | some (.marked _) => false
  | _ => true

structure Aloof (s : Mem n) (ev : Option Ev) (s' : Mem n) : Prop where
  plain : Ev.plain ev
  entryHead : s'.entryHead = s.entryHead
  keyData : s'.keyData = s.keyData
  nextEntry : s'.nextEntry = s.nextEntry
  alert : ∀ j, s.dirty j = true → s'.dirty j = true

namespace Aloof

variable {s s' : Mem n} {ev : Option Ev} {e : Ev}

/-- What an aloof step does not write, the dirty bits apart. -/
def tables (s : Mem n) := (s.entryHead, s.keyData, s.nextEntry, s.dirtyNphase)

theorem tables_malloc {p : Ptr} : tables (s.malloc p) = tables s := rfl

theorem tables_setNext {e : Nat} {d : Option Nat} : tables (s.setNext e d) = tables s := rfl

theorem tables_setFreeCache {d : Option Nat} : tables (s.setFreeCache i d) = tables s := rfl

theorem tables_setAllocCache {d : Option Nat} : tables (s.setAllocCache i d) = tables s := rfl

theorem same (hev : Ev.plain ev) (h : tables s' = tables s) : Aloof s ev s' := by
  obtain ⟨h1, h⟩ := Prod.mk.inj h
  obtain ⟨h2, h⟩ := Prod.mk.inj h
  obtain ⟨h3, h4⟩ := Prod.mk.inj h
  refine ⟨hev, h1, h2, h3, fun j hj => ?_⟩
  unfold Mem.dirty
  rw [h4]
  exact hj

theorem refl (hev : Ev.plain ev) : Aloof s ev s := same hev rfl

theorem load {f : Mem n → α} : Obeys Aloof (Prog.load f : P n α) := obeys_load fun _ => refl rfl

theorem store {upd : Mem n → Mem n} (h : ∀ s, tables (upd s) = tables s) : Obeys Aloof (Prog.store upd : P n Unit) :=
  obeys_store fun s => same rfl (h s)

theorem setNext {e : Nat} {d : Option Nat} : Obeys Aloof (Prog.store (·.setNext e d) : P n Unit) := store fun _ => rfl

theorem emit (h : Ev.plain (some e)) : Obeys Aloof (Prog.emit e : P n Unit) := obeys_emit fun _ => refl h

theorem check {c : Prop} [Decidable c] {a : Assertion} : Obeys Aloof (Prog.check c (.assertFailed a) : P n Unit) :=
  obeys_check fun _ => refl rfl

theorem cas {ok : Mem n → Prop} [DecidablePred ok] {upd : Mem n → Mem n} (hev : Ev.plain ev) (h : ∀ s, tables (upd s) = tables s) :
    Obeys Aloof (Prog.cas ok upd ev : P n Bool) := obeys_cas (fun _ => refl rfl) fun s _ => same hev (h s)

theorem step {e : Mem n → Ev} {upd : Mem n → Mem n} {f : Mem n → α} (hev : ∀ s, Ev.plain (some (e s))) (h : ∀ s, tables (upd s) = tables s) :
    Obeys Aloof (Prog.step (fun s => some (e s)) upd fun s => Prog.ret (f s) : P n α) :=
  obeys_step (fun s => same (hev s) (h s)) fun _ => trivial

end Aloof

/-! ## Collections -/

variable {fuel : Nat}

theorem aloof_setAdd {set : HashTable} {data : CInt} :
    Obeys Aloof (setAdd (fun a => .assertFailed (.set a)) fuel set data : P n HashTable) :=
  obeys_bind Aloof.check fun _ => obeys_bind Aloof.check fun _ => obeys_iter (fun _ =>
    obeys_bind (obeys_bind Aloof.check fun _ => obeys_ret _) fun _ => obeys_ite (fun _ => obeys_ret _) fun _ =>
      obeys_ite (fun _ => obeys_ret _) fun _ => obeys_ret _) _ _

theorem aloof_setContainsP {ptr : Ptr} : Obeys Aloof (setContainsP i fuel ptr) := by
  refine obeys_bind Aloof.load fun set => ?_
  cases set with
  | none => trivial
  | some set =>
    exact obeys_iter (fun _ => obeys_bind (obeys_bind Aloof.check fun _ => obeys_ret _) fun _ => obeys_ite (fun _ => obeys_ret _) fun _ =>
      obeys_ite (fun _ => obeys_ret _) fun _ => obeys_ret _) _ _

theorem aloof_freeze {localVer : Nat} {reclaim : VerEntry} : Obeys Aloof (freeze fuel localVer reclaim : P n VerEntry) := by
  refine obeys_iter (fun _ => obeys_ite (fun _ => ?_) fun _ => obeys_ret _) _ _
  refine obeys_bind (Aloof.cas rfl fun _ => rfl) fun _ => obeys_ite (fun _ => obeys_ret _) fun _ => ?_
  exact obeys_bind Aloof.load fun _ => obeys_ret _

theorem aloof_handOver {localVer : Nat} {head : Option Nat} : Obeys Aloof (handOver fuel localVer head : P n Unit) := by
  refine obeys_bind Aloof.load fun _ => obeys_iter (fun _ => obeys_ite (fun _ => obeys_bind obeys_defined fun _ => ?_) fun _ => obeys_ret _) _ _
  refine obeys_bind (Aloof.cas rfl fun _ => rfl) fun _ => obeys_ite (fun _ => obeys_ret _) fun _ => ?_
  exact obeys_bind Aloof.load fun _ => obeys_ret _

theorem aloof_resetReclaim {localVer : Nat} : Obeys Aloof (resetReclaim fuel localVer : P n Unit) := by
  refine obeys_bind Aloof.load fun _ => obeys_iter (fun _ => obeys_ite (fun _ => obeys_bind obeys_defined fun _ => ?_) fun _ => obeys_ret _) _ _
  refine obeys_bind (Aloof.cas rfl fun _ => rfl) fun _ => obeys_ite (fun _ => obeys_ret _) fun _ => ?_
  exact obeys_bind Aloof.load fun _ => obeys_ret _

/-- A warning sets the dirty bit. -/
theorem aloof_casDirty {dNp old : Nat} {j : Fin n} (hdNp : dNp % 2 ^ 8 = 0) : Obeys Aloof (warn.casDirty (dNp + 1) j old) := by
  refine obeys_cas (fun _ => .refl rfl) fun s _ => ⟨rfl, rfl, rfl, rfl, fun k hk => ?_⟩
  by_cases h : k = j
  · rw [h, dirty_set_self, decide_eq_true_eq]
    omega
  · rwa [dirty_set_of_ne h]

theorem aloof_warn {dNp : Nat} {j : Fin n} (hdNp : dNp % 2 ^ 8 = 0) : Obeys Aloof (warn dNp (dNp + 1) j) := by
  refine obeys_bind Aloof.load fun _ => obeys_ite (fun _ => obeys_ret _) fun _ => obeys_bind (aloof_casDirty hdNp) fun _ => ?_
  exact obeys_bind Aloof.load fun _ => obeys_ite (fun _ => obeys_ret _) fun _ => obeys_bind (aloof_casDirty hdNp) fun _ => obeys_ret _

theorem aloof_readHPs {j : Fin n} : Obeys Aloof (readHPs i fuel j) := by
  refine obeys_bind Aloof.load fun _ => obeys_bind Aloof.load fun _ => obeys_bind Aloof.load fun _ => obeys_forEach fun p _ => ?_
  refine obeys_ite (fun _ => obeys_bind Aloof.load fun set => ?_) fun _ => obeys_ret _
  cases set with
  | none => trivial
  | some set => exact obeys_bind aloof_setAdd fun _ => Aloof.store fun _ => rfl

theorem aloof_Reclamation : Obeys Aloof (Reclamation i fuel) := by
  have hscan : ∀ localVer, Obeys Aloof (do
      forEach (warn (localVer * 2 ^ 8) (localVer * 2 ^ 8 + 1)) (List.finRange n)
      clearSet i
      forEach (readHPs i fuel) (List.finRange n) : P n Unit) := fun localVer =>
    obeys_bind (obeys_forEach fun _ _ => aloof_warn (by omega)) fun _ => obeys_bind (Aloof.store fun _ => rfl) fun _ =>
      obeys_forEach fun _ _ => aloof_readHPs
  unfold Reclamation
  refine obeys_bind Aloof.load fun _ => obeys_bind Aloof.load fun _ => obeys_bind aloof_freeze fun _ => obeys_ite (fun _ => ?_) fun _ => ?_
  · refine obeys_bind aloof_handOver fun _ => obeys_bind aloof_resetReclaim fun _ => ?_
    exact obeys_bind (Aloof.store fun _ => rfl) fun _ => obeys_bind Aloof.load fun _ => hscan _
  · exact obeys_bind (obeys_ret _) fun _ => obeys_bind (Aloof.store fun _ => rfl) fun _ => obeys_bind Aloof.load fun _ => hscan _

theorem aloof_cutOff {e : Nat} {next : Option Nat} : Obeys Aloof (cutOff e next : P n Unit) := by
  refine obeys_bind Aloof.load fun first => obeys_ite (fun _ => Aloof.store fun _ => rfl) fun _ => ?_
  cases first with
  | none => trivial
  | some d => exact obeys_bind Aloof.load fun _ => obeys_ite (fun _ => Aloof.store fun _ => rfl) fun _ => Aloof.check

theorem aloof_pop {ver : Nat} : Obeys Aloof (pop fuel ver : P n Popped) := by
  refine obeys_iter (fun _ => obeys_bind Aloof.load fun old => obeys_ite (fun _ => obeys_ret _) fun _ => ?_) _ _
  cases old.head with
  | none => trivial
  | some e =>
    refine obeys_bind Aloof.load fun _ => obeys_bind (Aloof.cas rfl fun _ => rfl) fun _ => obeys_ite (fun _ => ?_) fun _ => obeys_ret _
    exact obeys_bind aloof_cutOff fun _ => obeys_ret _

section Recycle

variable {pfree : Ptr → P n Unit} {e : Nat}

theorem aloof_sift (hp : ∀ obj, Obeys Aloof (pfree obj)) : Obeys Aloof (sift pfree i fuel e) := by
  refine obeys_iter (fun x => ?_) _ _
  refine obeys_bind Aloof.load fun _ => obeys_ite (fun _ => obeys_bind Aloof.load fun ptr => ?_) fun _ => obeys_ret _
  refine obeys_bind aloof_setContainsP fun _ => obeys_ite (fun _ => ?_) fun _ => ?_
  · exact obeys_bind (Aloof.emit rfl) fun _ => obeys_bind (hp ptr) fun _ => obeys_ret _
  · exact obeys_bind (Aloof.step (fun _ => rfl) fun _ => rfl) fun _ => obeys_ret _

theorem aloof_pushHead : Obeys Aloof (pushHead fuel e : P n Unit) := by
  refine obeys_iter (fun _ => obeys_bind Aloof.load fun _ => obeys_bind Aloof.setNext fun _ => ?_) _ _
  exact obeys_bind (Aloof.cas rfl fun _ => rfl) fun _ => obeys_ite (fun _ => obeys_ret _) fun _ => obeys_ret _

theorem aloof_recycleEntries (hp : ∀ obj, Obeys Aloof (pfree obj)) : Obeys Aloof (recycleEntries pfree i fuel e) := by
  refine obeys_iter (fun entry => ?_) _ _
  cases entry with
  | none => trivial
  | some e =>
    refine obeys_bind Aloof.load fun _ => obeys_bind (aloof_sift hp) fun _ => obeys_bind (Aloof.step (fun _ => rfl) fun _ => rfl) fun _ => ?_
    exact obeys_ite (fun _ => obeys_bind aloof_pushHead fun _ => obeys_ret _) fun _ => obeys_ret _

theorem aloof_triggerWith (hp : ∀ obj, Obeys Aloof (pfree obj)) : Obeys Aloof (triggerWith pfree i fuel) := by
  refine obeys_bind aloof_Reclamation fun _ => obeys_iter (fun _ => obeys_bind Aloof.load fun _ => obeys_bind aloof_pop fun popped => ?_) _ _
  cases popped with
  | entry e => exact obeys_bind (aloof_recycleEntries hp) fun _ => obeys_ret _
  | recycleNeeded => trivial
  | null => trivial

end Recycle

/-! ## `pfree` -/

theorem aloof_pushFull {tofree : Nat} {obj : Ptr} : Obeys Aloof (pushFull i fuel tofree obj) := by
  refine obeys_iter (fun _ => obeys_bind Aloof.load fun _ => obeys_bind Aloof.load fun _ => obeys_ite (fun _ => obeys_ret _) fun _ => ?_) _ _
  refine obeys_bind Aloof.setNext fun _ => obeys_bind (Aloof.cas rfl fun s => ?_) fun _ => obeys_ite (fun _ => obeys_ret _) fun _ => obeys_ret _
  rw [Aloof.tables_setFreeCache, Aloof.tables_malloc]
  rfl

theorem aloof_pfree (obj : Ptr) : Obeys Aloof (pfree i fuel obj) := by
  induction fuel generalizing obj with
  | zero => trivial
  | succ fuel ih =>
    refine obeys_ite (fun _ => obeys_ret _) fun _ => obeys_iter (fun _ => obeys_bind Aloof.load fun cache => ?_) _ _
    cases cache with
    | none =>
      refine obeys_bind (Aloof.step (fun _ => rfl) fun s => ?_) fun _ => obeys_ret _
      rw [Aloof.tables_setFreeCache, Aloof.tables_malloc]
    | some e =>
      refine obeys_bind Aloof.load fun _ => obeys_ite (fun _ => obeys_bind (Aloof.step (fun _ => rfl) fun _ => rfl) fun _ => obeys_ret _) fun _ => ?_
      refine obeys_bind aloof_pushFull fun _ => obeys_ite (fun _ => obeys_ret _) fun _ => obeys_bind (aloof_triggerWith ih) fun _ => obeys_ret _

theorem aloof_triggerCollection : Obeys Aloof (triggerCollection i fuel) := aloof_triggerWith aloof_pfree

/-! ## `palloc` and `pReturnAlloc` -/

theorem aloof_popHead : Obeys Aloof (popHead i fuel) := by
  refine obeys_iter (fun _ => obeys_bind Aloof.load fun head => ?_) _ _
  cases head with
  | none => trivial
  | some e =>
    refine obeys_bind Aloof.load fun _ => obeys_bind (Aloof.cas rfl fun _ => rfl) fun _ => obeys_ite (fun _ => ?_) fun _ => trivial
    exact obeys_bind (Aloof.store fun _ => rfl) fun _ => trivial

theorem aloof_pallocRefill : Obeys Aloof (pallocRefill i fuel) := by
  refine obeys_iter (fun _ => obeys_bind aloof_popHead fun _ => obeys_ite (fun _ => obeys_ret _) fun _ => ?_) _ _
  refine obeys_bind aloof_triggerCollection fun _ => obeys_bind Aloof.load fun _ => obeys_ite (fun _ => ?_) fun _ => obeys_ret _
  refine obeys_bind Aloof.load fun _ => obeys_ite (fun _ => ?_) fun _ => ?_
  · exact obeys_bind (Aloof.step (fun _ => rfl) fun _ => rfl) fun _ => obeys_ret _
  · exact obeys_bind Aloof.check fun _ => obeys_halt

theorem aloof_pushAlloc {e : Nat} {obj : Ptr} : Obeys Aloof (pushAlloc i fuel e obj) := by
  refine obeys_iter (fun _ => obeys_bind Aloof.load fun _ => obeys_bind Aloof.setNext fun _ => ?_) _ _
  refine obeys_bind (Aloof.cas rfl fun s => ?_) fun _ => obeys_ite (fun _ => obeys_ret _) fun _ => obeys_ret _
  rw [Aloof.tables_setAllocCache, Aloof.tables_setNext, Aloof.tables_malloc]
  rfl

theorem aloof_pReturnAlloc {obj : Ptr} : Obeys Aloof (pReturnAlloc i fuel obj) := by
  refine obeys_bind Aloof.load fun cache => ?_
  cases cache with
  | none =>
    refine Aloof.step (fun _ => rfl) fun s => ?_
    rw [Aloof.tables_setAllocCache, Aloof.tables_setNext, Aloof.tables_malloc]
  | some e =>
    exact obeys_bind Aloof.load fun _ => obeys_ite (fun _ => Aloof.step (fun _ => rfl) fun _ => rfl) fun _ => aloof_pushAlloc

theorem aloof_setHP {k : Nat} {p : Ptr} : Obeys Aloof (setHP i k p) := Aloof.store fun _ => rfl

theorem aloof_clearHPs : Obeys Aloof (clearHPs i) := obeys_bind aloof_setHP fun _ => obeys_bind aloof_setHP fun _ => aloof_setHP

end OptimisticAccess.MOA
