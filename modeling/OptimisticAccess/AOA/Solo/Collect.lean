import OptimisticAccess.AOA.Solo.Sweep

/-!
# A collection with one thread

On an empty pool a collection ends. It marks what is reachable from the roots that are honoured and the
hazard pointers, and leaves a pool of everything else.
-/

namespace OptimisticAccess.AOA.Solo

open Conc Prog
open Pool (stored)

variable {heapmem rootLen : List Nat} {s₀ s s' : Mem 1} {i : Fin 1} {v fuel : Nat} {p q : Ptr} {L F : List Nat} {R : Ptr → Prop}

/-! ## One collection -/

/-- Rounds that are enough for every loop of a collection. -/
def collectFuel (heapmem rootLen : List Nat) : Nat := traceFuel heapmem rootLen 3

/-- What a collection for phase `v` leaves. -/
structure Collected (heapmem rootLen : List Nat) (s : Mem 1) (v : Nat) (s' : Mem 1) : Prop extends Phase heapmem rootLen v s' where
  stamped : ∀ p, Obj heapmem p → Stamp.hi (s'.marks (markWord p.addr)) = v
  marked : ∀ p, Obj heapmem p → (Marked s' p ↔ Reachable s (Honoured s (hazards s)) p)
  pool : ∃ L F, Shelves heapmem L none F s' ∧ (∀ e ∈ L, 0 < (s'.entries e).free) ∧ (stored s' L).Nodup ∧
    ∀ x, x ∈ stored s' L ↔ Obj heapmem x ∧ ¬ Marked s' x
  node : s'.node = s.node
  roots : s'.roots = s.roots
  HPs : ∀ i, (s'.dirties i).HPs = (s.dirties i).HPs
  warned : ∀ i, (s'.dirties i).dirty = true
  finished : (slots s' 0).tag = true

theorem length_hazards : (hazards s).length ≤ 3 := List.length_filter_le ..

theorem ends_triggerCollection (hheap : Heap heapmem) (hlens : Lens rootLen) (h : Phase heapmem rootLen v s) (hp : Pointers heapmem s)
    (hshelves : Shelves heapmem [] none F s) (hv : v + 2 < 2 ^ 31) (hfuel : collectFuel heapmem rootLen < fuel) :
    Ends (triggerCollection i fuel) s fun _ s' => Collected heapmem rootLen s (v + 2) s' := by
  have hlength := length_hazards (s := s)
  have hobjects := length_sweepObjects heapmem
  have hpages : sweepPagesPerChunk = 8 := by decide
  unfold collectFuel traceFuel at hfuel
  refine ends_bind.2 (ends_load.2 ?_)
  rw [hshelves.cache]
  refine ends_bind.2 (ends_ret.2 (ends_bind.2 ((ends_Reclamation h hv (by omega)).mono fun r s₁ hs₁ => ?_)))
  obtain ⟨rfl, rfl⟩ := hs₁
  refine ends_bind.2 (ends_load.2 ?_)
  change Ends (clearMarks i fuel (v + 2) >>= _) _ _
  refine ends_bind.2 ((ends_bind.1 (ends_prepare (chunks_of_heap hheap) h hlens hp (by omega) (by omega))).mono fun _ s₁ hs₁ =>
    ends_bind.2 (hs₁.mono fun _ s₂ hs₂ => ends_bind.2 ?_))
  obtain ⟨marks, table, hframe⟩ := hs₂.frame
  have hsweep : phaseOf s₂.sweep_counter + 2 = v + 2 := by
    rw [hframe]
    exact congrArg (· + 2) h.sweep
  have hgraph : Graph heapmem s₂ := by
    rw [hframe]
    exact ⟨hp.graph.child⟩
  have hrootLen : s₂.rootLen = rootLen := by
    rw [hframe]
    exact h.rootLen_eq
  refine (ends_trace (chunks_of_heap hheap) hgraph hv hs₂.rooted hs₂.cleared hsweep (by rw [hrootLen, traceFuel]; omega)).mono fun _ s₃ hs₃ => ?_
  obtain ⟨marks', table', stack, hframe₃⟩ := hs₃.frame
  have hver : ∀ i, (s₃.locals i).localVer = v + 2 := fun i => by
    rw [hframe₃, hframe]
    rfl
  have hphase : phaseOf s₃.sweep_counter = v + 2 := by
    rw [hframe₃]
    change phaseOf (makeSC 0 (v + 2)) = v + 2
    rw [makeSC_zero, phaseOf_eq, Stamp.hi_empty, Nat.mod_eq_of_lt (by omega)]
  have hshelves₃ : Shelves heapmem [] none F s₃ := by
    rw [hframe₃, hframe]
    exact ⟨rfl, hshelves.cache, hshelves.spent, hshelves.nodup, hshelves.known, hshelves.count, hshelves.few⟩
  refine ends_bind.2 (ends_load.2 (ends_bind.2 (ends_check hphase.ge ?_)))
  refine (ends_sweep hheap hver (by omega) ?_ ?_ hshelves₃ ?_ ?_ (by rw [hpages]; omega)).mono fun _ s₄ hs₄ => ?_
  · rw [hframe₃, hframe]
    exact h.heapmem_eq
  · rw [hframe₃, hframe]
    exact h.entrySize
  · rw [hframe₃, hframe]
    rfl
  · rw [hframe₃]
  obtain ⟨entries, head, k, cache, spent, sweep, hframe₄⟩ := hs₄.frame
  have hmarks : s₄.marks = s₃.marks := by
    rw [hframe₄]
    rfl
  have htables : s₄.arr_marktable = s₃.arr_marktable := by
    rw [hframe₄]
    rfl
  have hnode : s₂.node = s.node := by
    rw [hframe]
    rfl
  have hdirty : ∀ i, s₄.dirties i = { s.dirties i with dirtyNphase := BitVec.ofNat 64 (v + 2) <<< 8 ||| 1#64 } := fun i => by
    rw [hframe₄, hframe₃, hframe]
    rfl
  have hmarked : ∀ p, Marked s₄ p ↔ Marked s₃ p := fun p => marked_congr hmarks
  refine { heapmem_eq := ?_, rootLen_eq := ?_, entrySize := ?_, phase := ?_, ver := hs₄.ver, localVer := fun i => ?_, sweep := hs₄.sweep,
           dirty := fun i => ?_, marks := fun p hp => ?_, table := fun k => ?_, others := fun r hr k => ?_, stamped := fun p hp => ?_, marked := fun p hp => ?_, pool := ?_,
           node := ?_, roots := ?_, HPs := fun i => ?_, warned := fun i => ?_, finished := ?_ }
  · rw [hframe₄, hframe₃, hframe]
    exact h.heapmem_eq
  · rw [hframe₄, hframe₃, hframe]
    exact h.rootLen_eq
  · rw [hframe₄, hframe₃, hframe]
    exact h.entrySize
  · rw [hframe₄, hframe₃, hframe]
    rfl
  · rw [hframe₄]
    exact hver i
  · rw [hdirty, Stamps.toNat_dNpd hv]
    omega
  · rw [hmarks]
    exact (hs₃.stamped p hp).le
  · rw [htables, hs₃.tables]
    exact hs₂.table k
  · have hother : s₄.arr_marktable r = s.arr_marktable r := by
      rw [htables, hframe₃]
      change Function.update s₂.arr_marktable 0 table' r = _
      rw [Function.update_of_ne hr, hframe]
      change Function.update s.arr_marktable 0 table r = _
      rw [Function.update_of_ne hr]
    rw [hother]
    exact h.others r hr k
  · rw [hmarks]
    exact hs₃.stamped p hp
  · rw [hmarked, hs₃.marked p hp, hframe]
    exact Iff.rfl
  · obtain ⟨L, F, hL, hpos, honce, hmem⟩ := hs₄.shelves
    exact ⟨L, F, hL, hpos, honce, fun x => by rw [hmem, hmarked]⟩
  · rw [hframe₄, hframe₃]
    exact hnode
  · rw [hframe₄, hframe₃, hframe]
    rfl
  · rw [hdirty]
  · rw [hdirty]
    exact Stamps.dirty_dNpd
  · rw [hframe₄]
    exact hs₃.finished

end OptimisticAccess.AOA.Solo
