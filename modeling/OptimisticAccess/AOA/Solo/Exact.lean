import OptimisticAccess.AOA.Solo.Quiescent

/-!
# A collection is exact

With one thread and one root, what `palloc` gets from an empty pool is a collection that marks what is
reachable and frees all the rest. A pool is emptied by allocations alone.
-/

namespace OptimisticAccess.AOA.Solo

open Conc Prog
open Pool (stored)

variable {heapmem rootLen : List Nat} {s s' s₁ : Mem 1} {i : Fin 1} {v fuel len : Nat} {p : Ptr}

theorem Framed.phase (h : Framed s s') : s'.phase = s.phase := by
  obtain ⟨entries, head, k, cache, spent, rfl⟩ := h
  rfl

/-! ## An empty pool -/

theorem exists_pool (h : Rest heapmem rootLen v s) : ∃ l : List Ptr, ∀ x, x ∈ l ↔ Pooled s x := by
  obtain ⟨L, cur, F, hs⟩ := h.stock
  exact ⟨_, fun x => (hs.pooled x).symm⟩

/-- Allocations empty the pool. -/
theorem Quiescent.drain (hheap : Heap heapmem) (hlens : Lens rootLen) (h : Quiescent heapmem rootLen s) (hphase : s.phase + 2 < 2 ^ 31) :
    ∃ s', Quiescent heapmem rootLen s' ∧ Framed s s' ∧ ∀ x, ¬ Pooled s' x := by
  obtain ⟨l, hl⟩ := exists_pool (h.rest hheap hlens)
  induction hn : l.length using Nat.strong_induction_on generalizing l s with
  | _ n ih =>
    have hrest := h.rest hheap hlens
    have henough : Enough heapmem rootLen s.phase (collectFuel heapmem rootLen + 1) := ⟨hheap, hlens, hphase, Nat.lt_succ_self _⟩
    obtain ⟨ret, s', hrun, halloc⟩ := ends_palloc (i := ⟨0, Nat.one_pos⟩) henough hrest
    obtain ⟨hrest', hframe, hpooled, hrem⟩ | ⟨-, hempty, -, -⟩ := halloc
    · have hserve : (AOA.serve ⟨0, Nat.one_pos⟩ (collectFuel heapmem rootLen + 1) .palloc).run s = some ((), s') := by
        rw [AOA.serve, run_bind, hrun]
        rfl
      have hphase' : s'.phase = s.phase := hrest'.phase
      have hlt : (l.filter (· ≠ ret)).length < n := by
        rw [← hn]
        exact List.length_filter_lt_length_iff_exists.2 ⟨ret, (hl ret).2 hpooled, by simp⟩
      obtain ⟨s'', hs'', hframe', hempty⟩ := ih _ hlt (h.serve hphase (Nat.lt_succ_self _) (show Permitted heapmem rootLen .palloc from trivial) hserve) (by rw [hphase']; exact hphase)
        (l.filter (· ≠ ret)) (fun x => by rw [List.mem_filter, hl, hrem, decide_eq_true_iff]) rfl
      exact ⟨s'', hs'', hframe.trans hframe', hempty⟩
    · exact ⟨s, h, Framed.refl s, hempty⟩

/-- Then the cache is spent and the stack is empty. -/
theorem Rest.spent_of_empty (h : Rest heapmem rootLen v s) (hempty : ∀ x, ¬ Pooled s x) :
    ∃ s₁, (pallocCached i).run s = some (none, s₁) ∧ s₁.head.head = none := by
  obtain ⟨r, s₁, hrun, hcached⟩ := ends_pallocCached (i := i) h
  cases r with
  | some obj => exact absurd (hcached.served obj rfl).1 (hempty obj)
  | none =>
    obtain ⟨hcache, hsame⟩ := hcached.spent rfl
    obtain ⟨L, cur, F, hs⟩ := hcached.rest.stock
    refine ⟨s₁, hrun, ?_⟩
    cases L with
    | nil => exact hs.shared
    | cons e L =>
      have hmem : (s₁.entries e).ptrs 0 ∈ stored s₁ (cur.toList ++ e :: L) :=
        Pool.mem_stored.2 ⟨e, List.mem_append_right _ List.mem_cons_self, 0, hs.pos e List.mem_cons_self, rfl⟩
      exact absurd ((hsame _).1 ((hs.pooled _).2 hmem)) (hempty _)

/-! ## The collection -/

/-- The mark of `p` is set, and it is that of phase `v`. -/
def MarkedIn (s : Mem 1) (v : Nat) (p : Ptr) : Prop := isCurPhase (s.marks (markWord p.addr)) (Stamp.empty v) = true ∧ Marked s p

/-- What is reachable in `s` is marked in `s'`, and everything else is in the pool of phase `v`, once. -/
structure Exactly (heapmem : List Nat) (s : Mem 1) (v : Nat) (s' : Mem 1) : Prop where
  marked : ∀ p, Obj heapmem p → (MarkedIn s' v p ↔ Reachable s (IsRoot s (hazards s)) p)
  ver : s'.head.ver = v
  pool : ∃ L, Linked (Pool.next s') s'.head.head L ∧ (stored s' L).Nodup ∧ ∀ x, x ∈ stored s' L ↔ Obj heapmem x ∧ ¬ MarkedIn s' v x

theorem Collected.markedIn (h : Collected heapmem rootLen s v s') (hv : v < 2 ^ 32) (hp : Obj heapmem p) : MarkedIn s' v p ↔ Marked s' p :=
  and_iff_right (isCurPhase_of_hi hv (h.stamped p hp))

/-- What a collection does that is started with an empty pool. -/
theorem ends_collection (hheap : Heap heapmem) (hlens : Lens rootLen) (hs : Quiescent heapmem rootLen s) (hphase : s.phase + 2 < 2 ^ 31)
    (hspent : (pallocCached i).run s = some (none, s₁)) (hempty : s₁.head.head = none) (hfuel : collectFuel heapmem rootLen < fuel) :
    Ends (triggerCollection i fuel) s₁ fun _ s' => Framed s s₁ ∧ s₁.rootLen = rootLen ∧ Collected heapmem rootLen s₁ (s.phase + 2) s' := by
  obtain ⟨r, s₁', hrun, hcached⟩ := ends_pallocCached (i := i) (hs.rest hheap hlens)
  rw [hspent] at hrun
  obtain ⟨rfl, rfl⟩ := Prod.mk.inj (Option.some.inj hrun)
  obtain ⟨L, cur, F, hstock⟩ := hcached.rest.stock
  obtain rfl : cur = none := (hstock.cache i).symm.trans ((hcached.spent rfl).1 i)
  obtain rfl : L = [] := hstock.shared.unique hempty
  exact (ends_triggerCollection hheap hlens hcached.rest.toPhase hcached.rest.toPointers hstock.toShelves hphase hfuel).mono
    fun _ s' hs' => ⟨hcached.frame, hcached.rest.rootLen_eq, hs'⟩

/-- One root is honoured. -/
theorem honoured_iff {HPs : List Ptr} (h : ∀ r len, s.rootLen[r]? = some len → len ≠ 1 → r = 0) : Honoured s HPs p ↔ IsRoot s HPs p := by
  constructor
  · rintro (hp | ⟨hne, r, len, hget, -, hword⟩)
    · exact .inl hp
    · exact .inr ⟨hne, r, len, hget, hword⟩
  · rintro (hp | ⟨hne, r, len, hget, hword⟩)
    · exact .inl hp
    · exact .inr ⟨hne, r, len, hget, h r len hget, hword⟩

/-- A collection that is started with an empty pool, in any state a client with one thread and one root can bring about. -/
theorem collection_exact (hheap : Heap heapmem) (hlen : len = 1 ∨ len % arrEntriesPerBit = 0 ∧ len < 2 ^ 31)
    (hs : Quiescent heapmem [len] s) (hphase : s.phase + 2 < 2 ^ 31) (hspent : (pallocCached i).run s = some (none, s₁)) (hempty : s₁.head.head = none) :
    ∃ bound, ∀ fuel, bound < fuel → Ends (triggerCollection i fuel) s₁ fun _ s' => Exactly heapmem s₁ (s.phase + 2) s' := by
  have hlens : Lens [len] := fun l hl h1 => by
    obtain rfl := List.mem_singleton.1 hl
    exact hlen.resolve_left h1
  refine ⟨collectFuel heapmem [len], fun fuel hfuel => ?_⟩
  refine (ends_collection hheap hlens hs hphase hspent hempty hfuel).mono fun _ s' hs' => ?_
  obtain ⟨-, hrootLen, hs'⟩ := hs'
  have hone : ∀ r l, s₁.rootLen[r]? = some l → l ≠ 1 → r = 0 := fun r l hget _ => by
    rw [hrootLen] at hget
    exact Nat.lt_one_iff.1 (List.getElem?_eq_some_iff.1 hget).1
  have hroot : Honoured s₁ (hazards s₁) = IsRoot s₁ (hazards s₁) := funext fun q => propext (honoured_iff hone)
  obtain ⟨L, F', hshelves, -, honce, hmem⟩ := hs'.pool
  refine ⟨fun p hp => ?_, hs'.ver, L, hshelves.shared, honce, fun x => ?_⟩
  · rw [hs'.markedIn (by omega) hp, hs'.marked p hp, hroot]
  · rw [hmem]
    exact and_congr_right fun hx => not_congr (hs'.markedIn (by omega) hx).symm

theorem heap_one : Heap [chunkSize] := ⟨by decide, by decide, by decide, by decide⟩

/-- A heap of one chunk whose objects have all been allocated. -/
theorem collection_exact_one : ∃ s s₁ : Mem 1, Quiescent [chunkSize] [1] s ∧ (pallocCached ⟨0, Nat.one_pos⟩).run s = some (none, s₁) ∧
    ∃ bound, ∀ fuel, bound < fuel → Ends (triggerCollection ⟨0, Nat.one_pos⟩ fuel) s₁ fun _ s' => Exactly [chunkSize] s₁ (s.phase + 2) s' := by
  have hlens : Lens [1] := fun l hl h1 => absurd (List.mem_singleton.1 hl) h1
  have hinit := rest_init heap_one [1]
  have hzero : (init_allocator 1 [chunkSize] [1]).phase + 2 < 2 ^ 31 := by
    rw [hinit.phase]
    decide
  obtain ⟨s, hs, hframe, hempty⟩ := Quiescent.drain heap_one hlens .init hzero
  obtain ⟨s₁, hspent, hhead⟩ := (hs.rest heap_one hlens).spent_of_empty (i := ⟨0, Nat.one_pos⟩) hempty
  have hphase : s.phase + 2 < 2 ^ 31 := by
    rw [hframe.phase]
    exact hzero
  exact ⟨s, s₁, hs, hspent, collection_exact heap_one (.inl rfl) hs hphase hspent hhead⟩

end OptimisticAccess.AOA.Solo
