import OptimisticAccess.AOA.Solo.Collect

/-!
# One thread and its allocator

The states between the requests of a client that has one thread. Its pointers are `NULL` or lead to
objects of the heap; what it does with them is its own affair.
-/

namespace OptimisticAccess.AOA.Solo

open Conc Prog
open Pool (stored)

variable {heapmem rootLen : List Nat} {s s' : Mem 1} {i : Fin 1} {v fuel e : Nat} {p q : Ptr} {L F : List Nat} {cur : Option Nat}

/-! ## The invariant -/

/-- The pool: caches with objects of the heap, each in one place. -/
structure Stock (heapmem : List Nat) (L : List Nat) (cur : Option Nat) (F : List Nat) (s : Mem 1) : Prop extends Shelves heapmem L cur F s where
  pos : ∀ e ∈ L, 0 < (s.entries e).free
  once : (stored s (cur.toList ++ L)).Nodup
  obj : ∀ x ∈ stored s (cur.toList ++ L), Obj heapmem x

/-- What holds between two requests. -/
structure Rest (heapmem rootLen : List Nat) (v : Nat) (s : Mem 1) : Prop extends Phase heapmem rootLen v s, Pointers heapmem s where
  stock : ∃ L cur F, Stock heapmem L cur F s

/-- The objects that can be allocated without a collection. -/
def Pooled (s : Mem 1) (x : Ptr) : Prop :=
  ∃ l, Linked (Pool.next s) s.head.head l ∧ x ∈ stored s ((s.locals ⟨0, Nat.one_pos⟩).alloc_cache.toList ++ l)

theorem Shelves.pooled (h : Shelves heapmem L cur F s) (x : Ptr) : Pooled s x ↔ x ∈ stored s (cur.toList ++ L) := by
  rw [Pooled, h.cache]
  constructor
  · rintro ⟨l, hl, hx⟩
    rwa [hl.unique h.shared] at hx
  · exact fun hx => ⟨L, h.shared, hx⟩

theorem Rest.obj_of_pooled (h : Rest heapmem rootLen v s) (hp : Pooled s p) : Obj heapmem p := by
  obtain ⟨L, cur, F, hs⟩ := h.stock
  exact hs.obj p ((hs.pooled p).1 hp)

/-- The start. -/
theorem rest_init (hheap : Heap heapmem) (rootLen : List Nat) : Rest heapmem rootLen 0 (init_allocator 1 heapmem rootLen) := by
  have hlinked := (Pool.init_filled (n := 1) hheap rootLen).1
  have hplaced := @Pool.init_placed 1 heapmem hheap rootLen
  have honce := Pool.init_stored_nodup (n := 1) hheap rootLen
  have hfree : ∀ e ∈ Pool.initStack (Pool.initCaches heapmem).length, 0 < ((init_allocator 1 heapmem rootLen).entries e).free := fun e he => by
    obtain ⟨m, -, h, hentry⟩ := Pool.init_entries (n := 1) heapmem rootLen he
    rw [hentry]
    exact Nat.succ_pos _
  obtain ⟨entries, head, hinit⟩ := init_allocator_eq (n := 1) heapmem rootLen
  rw [hinit] at hlinked hplaced honce hfree ⊢
  have hzero : Stamp.hi 0 = 0 := by decide
  have hphase : phaseOf 0 = 0 := by decide
  have hdirty : BitVec.toNat (0 : U64) < (0 + 2) * 2 ^ 8 := by decide
  have hcount : (Pool.initStack (Pool.initCaches heapmem).length).length = 129 * heapmem.length := by
    rw [Pool.initStack, List.length_map, List.length_reverse, List.length_range, Pool.length_initCaches]
  refine { heapmem_eq := rfl, rootLen_eq := rfl, entrySize := rfl, phase := rfl, ver := rfl, localVer := fun _ => rfl, sweep := hphase,
           dirty := fun _ => hdirty, marks := fun _ _ => hzero.le, table := fun _ => hzero.le, others := fun _ _ _ => hzero,
           graph := ⟨fun _ _ => .inl rfl⟩, root := fun p hp => ?_, stock := ⟨Pool.initStack (Pool.initCaches heapmem).length, none, [], ?_⟩ }
  · obtain hp | ⟨hne, r, len, -, -, ⟨-, rfl⟩ | ⟨-, k, -, rfl⟩⟩ := hp
    · exact absurd hp List.not_mem_nil
    · exact absurd rfl hne
    · exact absurd rfl hne
  · refine ⟨⟨hlinked, fun _ => rfl, fun _ => rfl, ?_, fun e he => ?_, ?_, Nat.zero_le _⟩, hfree, honce, fun x hx => ?_⟩
    · rw [List.append_nil]
      exact (List.nodup_reverse.2 List.nodup_range).map fun _ _ => Pool.mallocEntry_inj
    · rw [List.append_nil] at he
      obtain ⟨k, -, rfl⟩ := Pool.mem_initStack.1 he
      exact .inr (Nat.le_add_right _ _)
    · rw [List.append_nil]
      exact hcount
    · obtain ⟨htag, halign, c, hc, hlo, hhi⟩ := hplaced hx
      exact ⟨htag, c, hc, hlo, hhi, halign⟩

/-! ## Allocation -/

/-- Only the pool has changed. -/
def Framed (s s' : Mem 1) : Prop := ∃ entries head k cache spent, s' = swept s entries head k cache spent

theorem Framed.trans {s'' : Mem 1} (h : Framed s s') (h' : Framed s' s'') : Framed s s'' := by
  obtain ⟨entries, head, k, cache, spent, rfl⟩ := h
  obtain ⟨entries', head', k', cache', spent', rfl⟩ := h'
  exact ⟨entries', head', k', cache', spent', rfl⟩

theorem Rest.framed (h : Rest heapmem rootLen v s) (hf : Framed s s') (hver : s'.head.ver = s.head.ver) (hstock : Stock heapmem L cur F s') :
    Rest heapmem rootLen v s' := by
  obtain ⟨entries, head, k, cache, spent, rfl⟩ := hf
  exact { h with
    ver := hver.trans h.ver
    graph := ⟨h.graph.child⟩
    root := h.root
    stock := ⟨L, cur, F, hstock⟩ }

theorem framed_pool (s : Mem 1) (entries : Nat → AllocEntry) (head : VerEntry) : Framed s { s with entries := entries, head := head } := by
  refine ⟨entries, head, s.allocationEntriesCacheHead, (s.locals ⟨0, Nat.one_pos⟩).alloc_cache, (s.locals ⟨0, Nat.one_pos⟩).entriesLocalFreeList, ?_⟩
  have hlocals : s.locals = fun j => { s.locals j with
      alloc_cache := (s.locals ⟨0, Nat.one_pos⟩).alloc_cache
      entriesLocalFreeList := (s.locals ⟨0, Nat.one_pos⟩).entriesLocalFreeList } := by
    funext j
    rw [Subsingleton.elim j ⟨0, Nat.one_pos⟩]
  rw [swept, ← hlocals]

theorem Framed.refl (s : Mem 1) : Framed s s := framed_pool s s.entries s.head

/-- The last object of the cache is taken. -/
def took (s : Mem 1) (e : Nat) : Mem 1 := s.setEntry e fun c => { c with free := c.free - 1 }

/-- The cache is spent. -/
def spentCache (s : Mem 1) (e : Nat) : Mem 1 :=
  { s with
    entries := Function.update s.entries e { s.entries e with next := (s.locals ⟨0, Nat.one_pos⟩).entriesLocalFreeList }
    locals := fun i => { s.locals i with alloc_cache := none, entriesLocalFreeList := some e } }

theorem took_self : (took s e).entries e = { s.entries e with free := (s.entries e).free - 1 } := Mem.setEntry_self _

theorem took_of_ne {d : Nat} (h : d ≠ e) : (took s e).entries d = s.entries d := Mem.setEntry_of_ne _ h

theorem next_took {d : Nat} : Pool.next (took s e) d = Pool.next s d := by
  by_cases h : d = e
  · subst h
    rw [Pool.next, took_self]
    rfl
  · exact congrArg AllocEntry.next (took_of_ne h)

theorem Shelves.cur_ne (h : Shelves heapmem L (some e) F s) : (∀ d ∈ L, d ≠ e) ∧ ∀ d ∈ F, d ≠ e := by
  have hnodup : (e :: (L ++ F)).Nodup := h.nodup
  obtain ⟨he, -⟩ := List.nodup_cons.1 hnodup
  exact ⟨fun d hd hde => he (hde ▸ List.mem_append_left _ hd), fun d hd hde => he (hde ▸ List.mem_append_right _ hd)⟩

/-- The object that is served is in the cache no more. -/
theorem Stock.took (h : Stock heapmem L (some e) F s) (hfree : 0 < (s.entries e).free) :
    Stock heapmem L (some e) F (took s e) ∧ (stored s ((some e).toList ++ L)).Perm
      ((s.entries e).ptrs ((s.entries e).free - 1) :: stored (Solo.took s e) ((some e).toList ++ L)) := by
  have hrest : stored (Solo.took s e) L = stored s L := stored_congr fun d hd => by
    rw [took_of_ne (h.cur_ne.1 d hd)]
    exact ⟨rfl, rfl⟩
  have hperm : (stored s ((some e).toList ++ L)).Perm
      ((s.entries e).ptrs ((s.entries e).free - 1) :: stored (Solo.took s e) ((some e).toList ++ L)) := by
    change (stored s (e :: L)).Perm (_ :: stored (Solo.took s e) (e :: L))
    rw [stored_cons, stored_cons, took_self, hrest]
    dsimp only
    obtain ⟨m, hm⟩ : ∃ m, (s.entries e).free = m + 1 := ⟨(s.entries e).free - 1, by omega⟩
    rw [hm, Nat.add_sub_cancel, List.range_succ, List.map_append, List.map_singleton, List.append_assoc]
    exact List.perm_middle
  refine ⟨{ shared := ?_, cache := h.cache, spent := fun i => ?_, nodup := h.nodup, known := h.known, count := h.count, few := h.few,
            pos := fun d hd => ?_, once := ?_, obj := fun x hx => ?_ }, hperm⟩
  · exact h.shared.congr fun d _ => next_took
  · exact (h.spent i).congr fun d _ => next_took
  · rw [took_of_ne (h.cur_ne.1 d hd)]
    exact h.pos d hd
  · exact (List.nodup_cons.1 (hperm.nodup_iff.1 h.once)).2
  · exact h.obj x (hperm.mem_iff.2 (List.mem_cons_of_mem _ hx))

theorem spentCache_self : (spentCache s e).entries e = { s.entries e with next := (s.locals ⟨0, Nat.one_pos⟩).entriesLocalFreeList } :=
  Function.update_self ..

theorem spentCache_of_ne {d : Nat} (h : d ≠ e) : (spentCache s e).entries d = s.entries d := Function.update_of_ne h ..

theorem next_spentCache {d : Nat} (h : d ≠ e) : Pool.next (spentCache s e) d = Pool.next s d := congrArg AllocEntry.next (spentCache_of_ne h)

/-- A cache without objects is spent. -/
theorem Stock.spend (h : Stock heapmem L (some e) F s) (hfree : (s.entries e).free = 0) :
    Stock heapmem L none (e :: F) (spentCache s e) ∧ stored (spentCache s e) L = stored s ((some e).toList ++ L) := by
  have hrest : stored (spentCache s e) L = stored s L := stored_congr fun d hd => by
    rw [spentCache_of_ne (h.cur_ne.1 d hd)]
    exact ⟨rfl, rfl⟩
  have hstored : stored (spentCache s e) L = stored s ((some e).toList ++ L) := by
    change _ = stored s (e :: L)
    rw [hrest, stored_cons, hfree]
    rfl
  have hperm : (L ++ e :: F).Perm (e :: (L ++ F)) := List.perm_middle
  refine ⟨{ shared := ?_, cache := fun _ => rfl, spent := fun i => ?_, nodup := hperm.nodup_iff.2 h.nodup,
            known := fun d hd => h.known d (hperm.mem_iff.1 hd), count := hperm.length_eq.trans h.count, few := h.few,
            pos := fun d hd => ?_, once := ?_, obj := fun x hx => ?_ }, hstored⟩
  · exact h.shared.congr fun d hd => next_spentCache (h.cur_ne.1 d hd)
  · refine ((h.spent ⟨0, Nat.one_pos⟩).congr fun d hd => next_spentCache (h.cur_ne.2 d hd)).push ?_
    rw [Pool.next, spentCache_self]
  · rw [spentCache_of_ne (h.cur_ne.1 d hd)]
    exact h.pos d hd
  · exact hstored.symm ▸ h.once
  · exact h.obj x (hstored ▸ hx)

/-- What `pallocCached` does. -/
structure Cached (heapmem rootLen : List Nat) (v : Nat) (s : Mem 1) (r : Option Ptr) (s' : Mem 1) : Prop where
  rest : Rest heapmem rootLen v s'
  frame : Framed s s'
  served : ∀ obj, r = some obj → Pooled s obj ∧ ∀ x, Pooled s' x ↔ Pooled s x ∧ x ≠ obj
  spent : r = none → (∀ i, (s'.locals i).alloc_cache = none) ∧ ∀ x, Pooled s' x ↔ Pooled s x
  empty : r = none → ∀ e, (∀ i, (s.locals i).alloc_cache = some e) → (s.entries e).free = 0

theorem ends_pallocCached (h : Rest heapmem rootLen v s) : Ends (pallocCached i) s (Cached heapmem rootLen v s) := by
  obtain ⟨L, cur, F, hs⟩ := h.stock
  refine ends_bind.2 (ends_load.2 ?_)
  rw [hs.cache]
  cases cur with
  | none => exact ends_ret.2 ⟨h, Framed.refl s, nofun, fun _ => ⟨hs.cache, fun _ => Iff.rfl⟩,
      fun _ e he => absurd ((hs.cache i).symm.trans (he i)) (Option.some_ne_none e).symm⟩
  | some e =>
    refine ends_bind.2 (ends_load.2 ?_)
    by_cases hfree : (s.entries e).free > 0
    · rw [if_pos hfree]
      refine ends_bind.2 (ends_load.2 (ends_bind.2 (ends_step.2 (ends_ret.2 (ends_ret.2 ?_)))))
      obtain ⟨hstock, hperm⟩ := hs.took hfree
      have hframe : Framed s (took s e) := framed_pool s _ s.head
      refine ⟨h.framed hframe rfl hstock, hframe, fun obj hobj => ?_, nofun, nofun⟩
      obtain rfl := Option.some.inj hobj
      have honce := List.nodup_cons.1 (hperm.nodup_iff.1 hs.once)
      refine ⟨(hs.pooled _).2 (hperm.mem_iff.2 List.mem_cons_self), fun x => ?_⟩
      change Pooled (took s e) x ↔ Pooled s x ∧ x ≠ (s.entries e).ptrs ((s.entries e).free - 1)
      rw [hstock.pooled, hs.pooled, hperm.mem_iff, List.mem_cons]
      constructor
      · intro hx
        exact ⟨.inr hx, fun he => honce.1 (he ▸ hx)⟩
      · rintro ⟨hx, hne⟩
        exact hx.resolve_left hne
    · rw [if_neg hfree]
      obtain ⟨hstock, hstored⟩ := hs.spend (Nat.eq_zero_of_not_pos hfree)
      refine ends_bind.2 (ends_bind.2 (ends_store.2 (ends_store.2 (ends_ret.2 ?_))))
      have hspent : ((s.setEntry e fun c => { c with next := (s.locals i).entriesLocalFreeList }).setLocal i fun l =>
          { l with entriesLocalFreeList := some e, alloc_cache := none }) = spentCache s e := by
        rw [setLocal_eq, Subsingleton.elim i ⟨0, Nat.one_pos⟩]
        rfl
      rw [hspent]
      have hframe : Framed s (spentCache s e) := ⟨_, _, _, _, _, rfl⟩
      refine ⟨h.framed hframe rfl hstock, hframe, nofun, fun _ => ⟨hstock.cache, fun x => ?_⟩, fun _ d hd => ?_⟩
      rotate_left
      · obtain rfl := Option.some.inj ((hs.cache i).symm.trans (hd i))
        exact Nat.eq_zero_of_not_pos hfree
      rw [hstock.pooled, hs.pooled, ← hstored]
      rfl

/-- A cache is taken from the stack. -/
def popped (s : Mem 1) (e : Nat) : Mem 1 :=
  { s with
    entries := Function.update s.entries e { s.entries e with next := none }
    head := ⟨Pool.next s e, s.head.ver⟩
    locals := fun i => { s.locals i with alloc_cache := some e } }

theorem popped_self : (popped s e).entries e = { s.entries e with next := none } := Function.update_self ..

theorem popped_of_ne {d : Nat} (h : d ≠ e) : (popped s e).entries d = s.entries d := Function.update_of_ne h ..

theorem next_popped {d : Nat} (h : d ≠ e) : Pool.next (popped s e) d = Pool.next s d := congrArg AllocEntry.next (popped_of_ne h)

theorem entries_popped (d : Nat) : ((popped s e).entries d).free = (s.entries d).free ∧ ((popped s e).entries d).ptrs = (s.entries d).ptrs := by
  by_cases h : d = e
  · subst h
    rw [popped_self]
    exact ⟨rfl, rfl⟩
  · rw [popped_of_ne h]
    exact ⟨rfl, rfl⟩

theorem Stock.pop (h : Stock heapmem (e :: L) none F s) :
    Stock heapmem L (some e) F (popped s e) ∧ stored (popped s e) ((some e).toList ++ L) = stored s (none.toList ++ e :: L) := by
  have hnodup : (e :: (L ++ F)).Nodup := h.nodup
  obtain ⟨he, -⟩ := List.nodup_cons.1 hnodup
  have hstored : stored (popped s e) ((some e).toList ++ L) = stored s (none.toList ++ e :: L) := stored_congr fun d _ => entries_popped d
  refine ⟨{ shared := ?_, cache := fun _ => rfl, spent := fun i => ?_, nodup := hnodup, known := h.known, count := h.count, few := h.few,
            pos := fun d hd => ?_, once := hstored ▸ h.once, obj := fun x hx => h.obj x (hstored ▸ hx) }, hstored⟩
  · exact h.shared.2.congr fun d hd => next_popped fun hde => he (hde ▸ List.mem_append_left _ hd)
  · exact (h.spent i).congr fun d hd => next_popped fun hde => he (hde ▸ List.mem_append_right _ hd)
  · rw [(entries_popped d).1]
    exact h.pos d (List.mem_cons_of_mem _ hd)

theorem ends_pop (hver : s.head.ver = v) (hfuel : 0 < fuel) {Q : Popped → Mem 1 → Prop} (hnull : s.head.head = none → Q .null s)
    (hentry : ∀ e, s.head.head = some e → Q (.entry e) { s with head := ⟨Pool.next s e, s.head.ver⟩ }) : Ends (pop fuel v) s Q := by
  obtain ⟨fuel, rfl⟩ := Nat.exists_eq_add_of_lt hfuel
  rw [Nat.zero_add, pop, iter]
  refine ends_bind.2 (ends_bind.2 (ends_readHead.mono fun old s₁ hs₁ => ?_))
  obtain ⟨rfl, rfl⟩ := hs₁
  rw [if_neg (not_not.2 hver)]
  cases hhead : s₁.head.head with
  | none => exact ends_ret.2 (ends_ret.2 (hnull hhead))
  | some e =>
    refine ends_bind.2 (ends_load.2 (ends_bind.2 (ends_cas (fun _ => ?_) fun hne => absurd rfl hne)))
    rw [if_pos rfl]
    exact ends_ret.2 (ends_ret.2 (hentry e hhead))

/-- After a collection the pool is that of the new phase. -/
theorem Collected.rest (h : Collected heapmem rootLen s v s') (hp : Pointers heapmem s) (hrootLen : s.rootLen = rootLen) : Rest heapmem rootLen v s' := by
  obtain ⟨L, F, hshelves, hpos, honce, hmem⟩ := h.pool
  have hhazards : hazards s' = hazards s := by
    rw [hazards, h.HPs]
    rfl
  refine { h.toPhase with
           graph := ⟨fun p hobj => ?_⟩
           root := fun p hroot => hp.root p ?_
           stock := ⟨L, none, F, { hshelves with pos := hpos, once := honce, obj := fun x hx => ((hmem x).1 hx).1 }⟩ }
  · rw [child, h.node]
    exact hp.graph.child p hobj
  · unfold Honoured RootWord at hroot ⊢
    rwa [hhazards, h.roots, h.rootLen_eq, ← hrootLen] at hroot

theorem Collected.framed {s₁ : Mem 1} (h : Collected heapmem rootLen s₁ v s') (hf : Framed s s₁) : Collected heapmem rootLen s v s' := by
  obtain ⟨entries, head, k, cache, spent, rfl⟩ := hf
  exact { h with
    marked := h.marked
    node := h.node
    roots := h.roots
    HPs := h.HPs }

/-- An allocation: an object of the pool, or `NULL` after a collection. -/
inductive Allocated (heapmem rootLen : List Nat) (v : Nat) (s : Mem 1) (ret : Ptr) (s' : Mem 1) : Prop where
  | served (hrest : Rest heapmem rootLen v s') (hframe : Framed s s') (hpooled : Pooled s ret) (hrem : ∀ x, Pooled s' x ↔ Pooled s x ∧ x ≠ ret)
  | collected (hnull : ret = NULL) (hempty : ∀ x, ¬ Pooled s x) (hcollected : Collected heapmem rootLen s (v + 2) s')
      (hrest : Rest heapmem rootLen (v + 2) s')

/-- What the collector needs, for collections of the phase after `v`. -/
structure Enough (heapmem rootLen : List Nat) (v fuel : Nat) : Prop where
  heap : Heap heapmem
  lens : Lens rootLen
  phase : v + 2 < 2 ^ 31
  fuel : collectFuel heapmem rootLen < fuel

theorem Enough.fuel_pos (h : Enough heapmem rootLen v fuel) : 1 < fuel := by
  have hfuel := h.fuel
  unfold collectFuel traceFuel at hfuel
  omega

/-- What is left when the cache is spent: a cache from the stack, or a collection. -/
inductive Refilled (heapmem rootLen : List Nat) (v : Nat) (s : Mem 1) (r : Option Ptr) (s' : Mem 1) : Prop where
  | popped (hr : r = none) (hrest : Rest heapmem rootLen v s') (hframe : Framed s s') (hsame : ∀ x, Pooled s' x ↔ Pooled s x)
      (hcache : ∃ e, (∀ i, (s'.locals i).alloc_cache = some e) ∧ 0 < (s'.entries e).free)
  | collected (hr : r = some NULL) (hempty : ∀ x, ¬ Pooled s x) (hcollected : Collected heapmem rootLen s (v + 2) s')
      (hrest : Rest heapmem rootLen (v + 2) s')

theorem refilled_of_pop (h : Rest heapmem rootLen v s) (hs : Stock heapmem (e :: L) none F s) : Refilled heapmem rootLen v s none (popped s e) := by
  obtain ⟨hstock, hstored⟩ := hs.pop
  have hframe : Framed s (popped s e) := by
    obtain ⟨entries, head, k, cache, spent, hs'⟩ := framed_pool s (popped s e).entries (popped s e).head
    exact ⟨entries, head, k, some e, spent, by rw [popped]; exact congrArg (fun m : Mem 1 => { m with locals := fun i => { m.locals i with alloc_cache := some e } }) hs'⟩
  refine .popped rfl (h.framed hframe rfl hstock) hframe (fun x => ?_) ⟨e, hstock.cache, ?_⟩
  · rw [hstock.pooled, hs.pooled, hstored]
  · rw [(entries_popped e).1]
    exact hs.pos e List.mem_cons_self

theorem ends_pallocRefill (henough : Enough heapmem rootLen v fuel) (h : Rest heapmem rootLen v s) (hcache : ∀ i, (s.locals i).alloc_cache = none) :
    Ends (pallocRefill i fuel) s (Refilled heapmem rootLen v s) := by
  obtain ⟨L, cur, F, hs⟩ := h.stock
  obtain rfl : cur = none := (hs.cache i).symm.trans (hcache i)
  have hpos := henough.fuel_pos
  have hfuel := henough.fuel
  obtain ⟨fuel, rfl⟩ := Nat.exists_eq_add_of_lt (Nat.zero_lt_of_lt hpos)
  rw [Nat.zero_add] at hfuel hpos ⊢
  rw [pallocRefill, iter]
  refine ends_bind.2 (ends_bind.2 (ends_load.2 (ends_bind.2 ?_)))
  rw [h.localVer]
  refine ends_pop h.ver (Nat.zero_lt_of_lt hpos) (fun hnull => ?_) fun e he => ?_
  · -- the pool is empty
    obtain rfl : L = [] := by
      cases L with
      | nil => rfl
      | cons e L => exact absurd (hnull.symm.trans hs.shared.1) (Option.some_ne_none e).symm
    refine ends_bind.2 ((ends_triggerCollection henough.heap henough.lens h.toPhase h.toPointers hs.toShelves henough.phase hfuel).mono fun _ s' hs' => ?_)
    refine ends_bind.2 (ends_load.2 ?_)
    rw [if_pos (hs'.warned i)]
    refine ends_ret.2 (ends_ret.2 (.collected rfl (fun x hx => ?_) hs' (hs'.rest h.toPointers h.rootLen_eq)))
    exact absurd ((hs.pooled x).1 hx) List.not_mem_nil
  · obtain ⟨L, rfl⟩ : ∃ L', L = e :: L' := by
      obtain ⟨L', rfl, -⟩ := (he ▸ hs.shared).top
      exact ⟨L', rfl⟩
    have hpopped : ({ s with head := ⟨Pool.next s e, s.head.ver⟩ }.setLocal i ({ · with alloc_cache := some e })).setEntry e ({ · with next := none }) =
        popped s e := by
      rw [setLocal_eq]
      rfl
    refine ends_bind.2 (ends_store.2 (ends_bind.2 (ends_store.2 (ends_ret.2 (ends_ret.2 ?_)))))
    rw [hpopped]
    exact refilled_of_pop h hs

/-- An allocation ends, with an object of the pool or with a collection. -/
theorem ends_palloc (henough : Enough heapmem rootLen v fuel) (h : Rest heapmem rootLen v s) :
    Ends (palloc i fuel) s (Allocated heapmem rootLen v s) := by
  have hpos := henough.fuel_pos
  obtain ⟨m, rfl⟩ : ∃ m, fuel = m + 1 + 1 := ⟨fuel - 2, by omega⟩
  rw [palloc, iter]
  refine ends_bind.2 (ends_bind.2 ((ends_pallocCached h).mono fun r s₁ hs₁ => ?_))
  cases r with
  | some obj =>
    obtain ⟨hpooled, hrem⟩ := hs₁.served obj rfl
    exact ends_ret.2 (ends_ret.2 (.served hs₁.rest hs₁.frame hpooled hrem))
  | none =>
    obtain ⟨hcache, hsame⟩ := hs₁.spent rfl
    refine ends_bind.2 ((ends_pallocRefill henough hs₁.rest hcache).mono fun r s₂ hs₂ => ?_)
    obtain ⟨rfl, hrest, hframe, hsame', e, hcache', hfree⟩ | ⟨rfl, hempty, hcollected, hrest⟩ := hs₂
    · -- the new cache is not empty
      refine ends_ret.2 ?_
      dsimp only
      rw [iter]
      refine ends_bind.2 (ends_bind.2 ((ends_pallocCached hrest).mono fun r s₃ hs₃ => ?_))
      cases r with
      | some obj =>
        obtain ⟨hpooled, hrem⟩ := hs₃.served obj rfl
        refine ends_ret.2 (ends_ret.2 (.served hs₃.rest ((hs₁.frame.trans hframe).trans hs₃.frame) ?_ fun x => ?_))
        · rwa [hsame', hsame] at hpooled
        · rw [hrem, hsame', hsame]
      | none => exact absurd (hs₃.empty rfl e hcache') hfree.ne'
    · exact ends_ret.2 (ends_ret.2 (.collected rfl (fun x hx => hempty x ((hsame x).2 hx)) (hcollected.framed hs₁.frame) hrest))

/-! ## Requests -/

/-- The pointers a client writes: hazard pointers and words of arrays are `NULL` or lead to an object, all other words may be marked as well. -/
def Permitted (heapmem rootLen : List Nat) : Request → Prop
  | .setHP _ p => p = NULL ∨ Obj heapmem p
  | .setWord (.next _) p => clearPtr p = NULL ∨ Obj heapmem (clearPtr p)
  | .setWord (.root r _) p => ∀ len, rootLen[r]? = some len →
      (len = 1 → clearPtr p = NULL ∨ Obj heapmem (clearPtr p)) ∧ (len ≠ 1 → p = NULL ∨ Obj heapmem p)
  | _ => True

/-- The states between the requests of a client. -/
inductive Quiescent (heapmem rootLen : List Nat) : Mem 1 → Prop where
  | init : Quiescent heapmem rootLen (init_allocator 1 heapmem rootLen)
  | serve {s s' : Mem 1} {i : Fin 1} {fuel : Nat} {req : Request} (hs : Quiescent heapmem rootLen s) (hphase : s.phase + 2 < 2 ^ 31)
      (hfuel : collectFuel heapmem rootLen < fuel) (hreq : Permitted heapmem rootLen req) (hrun : (serve i fuel req).run s = some ((), s')) :
      Quiescent heapmem rootLen s'

/-- A client writes to its data and its hazard pointers, and its dirty bit is cleared. -/
theorem Rest.client {node : Nat → Entry} {roots : Nat → Nat → Ptr} {dirties : Fin 1 → DirtyRecord} (h : Rest heapmem rootLen v s)
    (hdirty : ∀ i, (dirties i).dirtyNphase.toNat ≤ (s.dirties i).dirtyNphase.toNat)
    (hp : Pointers heapmem { s with node := node, roots := roots, dirties := dirties }) :
    Rest heapmem rootLen v { s with node := node, roots := roots, dirties := dirties } := by
  obtain ⟨L, cur, F, hs⟩ := h.stock
  have hphase : Phase heapmem rootLen v { s with node := node, roots := roots, dirties := dirties } :=
    { h.toPhase with dirty := fun i => (hdirty i).trans_lt (h.dirty i) }
  have hshelves : Shelves heapmem L cur F { s with node := node, roots := roots, dirties := dirties } := { hs.toShelves with }
  exact { hphase, hp with stock := ⟨L, cur, F, { hshelves with pos := hs.pos, once := hs.once, obj := hs.obj }⟩ }

theorem mem_hazards {p : Ptr} : p ∈ hazards s ↔ p ≠ NULL ∧ ∃ k < 3, p = (s.dirties ⟨0, Nat.one_pos⟩).HPs k := by
  simp only [hazards, List.mem_filter, List.mem_cons, List.not_mem_nil, or_false, decide_eq_true_eq]
  constructor
  · rintro ⟨rfl | rfl | rfl, hne⟩
    · exact ⟨hne, 0, by omega, rfl⟩
    · exact ⟨hne, 1, by omega, rfl⟩
    · exact ⟨hne, 2, by omega, rfl⟩
  · rintro ⟨hne, k, hk, rfl⟩
    refine ⟨?_, hne⟩
    obtain rfl | rfl | rfl : k = 0 ∨ k = 1 ∨ k = 2 := by omega
    · exact .inl rfl
    · exact .inr (.inl rfl)
    · exact .inr (.inr rfl)

theorem Rest.setHP (h : Rest heapmem rootLen v s) {k : Nat} (hp : p = NULL ∨ Obj heapmem p) : Rest heapmem rootLen v (s.setHP i k p) := by
  rw [Mem.setHP, setDirty_eq]
  refine h.client (fun _ => le_rfl) ⟨⟨h.graph.child⟩, fun q hq => ?_⟩
  obtain hq | hq := hq
  · obtain ⟨hne, k', hk', rfl⟩ := mem_hazards.1 hq
    by_cases he : k' = k
    · subst he
      dsimp only at hne ⊢
      rw [Function.update_self] at hne ⊢
      exact hp.resolve_left hne
    · dsimp only at hne ⊢
      rw [Function.update_of_ne he] at hne ⊢
      exact h.root _ (.inl (mem_hazards.2 ⟨hne, k', hk', rfl⟩))
  · exact h.root q (.inr hq)

theorem Rest.clean (h : Rest heapmem rootLen v s) : Rest heapmem rootLen v (s.setDirty i (·.clean)) := by
  rw [setDirty_eq]
  refine h.client (fun j => ?_) ⟨⟨h.graph.child⟩, h.root⟩
  rw [DirtyRecord.clean, BitVec.toNat_and]
  exact Nat.and_le_left

/-- A word of the client's data is written. -/
theorem Rest.setWord (h : Rest heapmem rootLen v s) {w : Word} (hw : Permitted heapmem rootLen (.setWord w p)) :
    Rest heapmem rootLen v (s.setWord w p) := by
  cases w with
  | next a =>
    refine h.client (fun _ => le_rfl) ⟨⟨fun (q : Ptr) hq => ?_⟩, h.root⟩
    rw [child]
    by_cases he : q.addr = a
    · subst he
      dsimp only
      rw [Function.update_self]
      exact hw
    · dsimp only
      rw [Function.update_of_ne he]
      exact h.graph.child q hq
  | root r k =>
    refine h.client (fun _ => le_rfl) ⟨⟨h.graph.child⟩, fun q hq => ?_⟩
    obtain hq | ⟨hne, r', len, hget, h0, hword⟩ := hq
    · exact h.root q (.inl hq)
    have hold : RootWord s r' len q → Obj heapmem q := fun hold => h.root q (.inr ⟨hne, r', len, hget, h0, hold⟩)
    unfold RootWord at hword hold
    dsimp only at hword
    by_cases hr : r' = r
    · subst hr
      rw [Function.update_self] at hword
      obtain ⟨h1, hw1⟩ := hw len (h.rootLen_eq ▸ hget)
      obtain ⟨hlen, rfl⟩ | ⟨hlen, k', hk', rfl⟩ := hword
      · by_cases hk : (0 : Nat) = k
        · subst hk
          rw [Function.update_self] at hne ⊢
          exact (h1 hlen).resolve_left hne
        · rw [Function.update_of_ne hk] at hne ⊢
          exact h.root _ (.inr ⟨hne, r', len, hget, h0, .inl ⟨hlen, rfl⟩⟩)
      · by_cases hk : k' = k
        · subst hk
          rw [Function.update_self] at hne ⊢
          exact (hw1 hlen).resolve_left hne
        · rw [Function.update_of_ne hk] at hne ⊢
          exact h.root _ (.inr ⟨hne, r', len, hget, h0, .inr ⟨hlen, k', hk', rfl⟩⟩)
    · rw [Function.update_of_ne hr] at hword
      exact hold hword

theorem Rest.setKeyData (h : Rest heapmem rootLen v s) {a : Nat} {kd : BitVec 64} : Rest heapmem rootLen v (s.setKeyData a kd) := by
  refine h.client (fun _ => le_rfl) ⟨⟨fun q hq => ?_⟩, h.root⟩
  have hchild : child { s with node := Function.update s.node a { s.node a with keyData := kd } } q = child s q := by
    rw [child, child]
    by_cases he : q.addr = a
    · subst he
      dsimp only
      rw [Function.update_self]
    · dsimp only
      rw [Function.update_of_ne he]
  have hgoal := h.graph.child q hq
  rw [← hchild] at hgoal
  exact hgoal

/-- Nobody else collects. -/
theorem ends_helpCollection (h : Rest heapmem rootLen v s) : Ends (helpCollection i fuel) s fun _ s' => s' = s := by
  refine ends_bind.2 (ends_load.2 (ends_bind.2 (ends_load.2 ?_)))
  rw [h.localVer, h.phase, if_neg (Nat.lt_irrefl v)]
  exact ends_ret.2 rfl

theorem ends_cleanDirty {ev : Option Ev} : Ends (cleanDirty i ev) s fun _ s' => s' = s.setDirty i (·.clean) := ends_step.2 (ends_ret.2 rfl)

theorem ends_CHECK (h : Rest heapmem rootLen v s) : Ends (CHECK i fuel) s fun r s' => r = (s.dirties i).dirty ∧ Rest heapmem rootLen v s' := by
  refine ends_bind.2 (ends_watch.2 ?_)
  cases hdirty : (s.dirties i).dirty with
  | false =>
    rw [if_neg Bool.false_ne_true]
    exact ends_ret.2 ⟨rfl, h⟩
  | true =>
    rw [if_pos rfl]
    refine ends_bind.2 (ends_cleanDirty.mono fun _ s₁ hs₁ => ?_)
    subst hs₁
    refine ends_bind.2 ((ends_helpCollection h.clean).mono fun _ s₂ hs₂ => ?_)
    subst hs₂
    refine ends_bind.2 (ends_cleanDirty.mono fun _ s₃ hs₃ => ?_)
    subst hs₃
    exact ends_ret.2 ⟨rfl, h.clean.clean⟩

theorem ends_clearHPs (h : Rest heapmem rootLen v s) : Ends (clearHPs i) s fun _ s' => Rest heapmem rootLen v s' :=
  ends_bind.2 (ends_store.2 (ends_bind.2 (ends_store.2 (ends_store.2 ((h.setHP (.inl rfl)).setHP (.inl rfl) |>.setHP (.inl rfl))))))

theorem ends_FENCE_CHECK {newEntry : Option Ptr} (h : Rest heapmem rootLen v s) :
    Ends (FENCE_CHECK i fuel newEntry) s fun r s' => r = (s.dirties i).dirty ∧ Rest heapmem rootLen v s' := by
  refine ends_bind.2 (ends_step.2 (ends_ret.2 ?_))
  cases hdirty : (s.dirties i).dirty with
  | false =>
    rw [if_neg Bool.false_ne_true]
    exact ends_ret.2 ⟨rfl, h.clean⟩
  | true =>
    rw [if_pos rfl]
    refine ends_bind.2 ((ends_clearHPs h.clean).mono fun _ s₁ hs₁ => ?_)
    refine ends_bind.2 ((ends_helpCollection hs₁).mono fun _ s₂ hs₂ => ?_)
    subst hs₂
    refine ends_bind.2 (ends_cleanDirty.mono fun _ s₃ hs₃ => ?_)
    subst hs₃
    exact ends_ret.2 ⟨rfl, hs₁.clean⟩

theorem ends_serve {req : Request} (henough : Enough heapmem rootLen v fuel) (h : Rest heapmem rootLen v s) (hreq : Permitted heapmem rootLen req) :
    Ends (serve i fuel req) s fun _ s' => Rest heapmem rootLen v s' ∨ Rest heapmem rootLen (v + 2) s' := by
  cases req with
  | palloc =>
    refine ends_bind.2 ((ends_palloc henough h).mono fun ret s' hs' => ends_ret.2 ?_)
    obtain ⟨hrest, -, -, -⟩ | ⟨-, -, -, hrest⟩ := hs'
    · exact .inl hrest
    · exact .inr hrest
  | helpCollection => exact (ends_helpCollection h).mono fun _ s' hs' => .inl (hs' ▸ h)
  | CHECK => exact ends_bind.2 ((ends_CHECK h).mono fun _ s' hs' => ends_ret.2 (.inl hs'.2))
  | FENCE_CHECK newEntry => exact ends_bind.2 ((ends_FENCE_CHECK h).mono fun _ s' hs' => ends_ret.2 (.inl hs'.2))
  | cleanDirty => exact ends_cleanDirty.mono fun _ s' hs' => .inl (hs' ▸ h.clean)
  | setHP k p => exact ends_store.2 (.inl (h.setHP hreq))
  | setWord w p => exact ends_store.2 (.inl (h.setWord hreq))
  | setKeyData a kd => exact ends_store.2 (.inl h.setKeyData)

/-- The invariant of a client with one thread. -/
theorem Quiescent.rest (hheap : Heap heapmem) (hlens : Lens rootLen) (h : Quiescent heapmem rootLen s) : Rest heapmem rootLen s.phase s := by
  induction h with
  | init =>
    have hinit := rest_init hheap rootLen
    rwa [hinit.phase]
  | serve hs hphase hfuel hreq hrun ih =>
    obtain ⟨a, s', hrun', hrest⟩ := ends_serve ⟨hheap, hlens, hphase, hfuel⟩ ih hreq
    rw [hrun] at hrun'
    obtain ⟨-, rfl⟩ := Prod.mk.inj (Option.some.inj hrun')
    obtain hrest | hrest := hrest
    · rwa [hrest.phase]
    · rwa [hrest.phase]

end OptimisticAccess.AOA.Solo
