import OptimisticAccess.AOA.InitHeap
import OptimisticAccess.AOA.Solo.Clear

/-!
# Sweeping with one thread

The descriptors of the thread are on the shared stack, in its cache or spent. A sweep takes the spent
ones first, and what it fills are full caches, so it takes at most one that was never used before.
-/

namespace OptimisticAccess.AOA.Solo

open Conc Prog
open Pool (stored)

variable {heapmem rootLen : List Nat} {s₀ s : Mem 1} {i : Fin 1} {v fuel e : Nat} {p q obj : Ptr} {L F : List Nat} {cur : Option Nat}

/-! ## Descriptors -/

/-- Where the descriptors are: on the stack, in the cache of the thread, in its free list. -/
structure Shelves (heapmem : List Nat) (L : List Nat) (cur : Option Nat) (F : List Nat) (s : Mem 1) : Prop where
  shared : Linked (Pool.next s) s.head.head L
  cache : ∀ i, (s.locals i).alloc_cache = cur
  spent : ∀ i, Linked (Pool.next s) (s.locals i).entriesLocalFreeList F
  nodup : (cur.toList ++ L ++ F).Nodup
  known : ∀ e ∈ cur.toList ++ L ++ F, e < s.allocationEntriesCacheHead ∨ allocationEntriesCacheSize ≤ e
  count : (cur.toList ++ L ++ F).length = 129 * heapmem.length + s.allocationEntriesCacheHead
  few : s.allocationEntriesCacheHead ≤ 1

/-- The parts of the memory that a sweep writes to. -/
def swept (s : Mem 1) (entries : Nat → AllocEntry) (head : VerEntry) (k : Nat) (cache spent : Option Nat) : Mem 1 :=
  { s with
    entries := entries
    head := head
    allocationEntriesCacheHead := k
    locals := fun i => { s.locals i with alloc_cache := cache, entriesLocalFreeList := spent } }

/-- What a sweep has put into caches is `X`. -/
structure Filling (heapmem : List Nat) (s₀ : Mem 1) (v : Nat) (L : List Nat) (cur : Option Nat) (F : List Nat) (X : Ptr → Prop) (s : Mem 1) :
    Prop extends Shelves heapmem L cur F s where
  frame : ∃ entries head k cache spent, s = swept s₀ entries head k cache spent
  ver : s.head.ver = v
  full : ∀ e ∈ L, (s.entries e).free = entriesPerCache
  part : ∀ e, cur = some e → 0 < (s.entries e).free ∧ (s.entries e).free ≤ entriesPerCache
  once : (stored s (cur.toList ++ L)).Nodup
  mem : ∀ x, x ∈ stored s (cur.toList ++ L) ↔ X x
  obj : ∀ x, X x → Obj heapmem x

/-- A sweep between two objects. -/
def Sweeping (heapmem : List Nat) (s₀ : Mem 1) (v : Nat) (X : Ptr → Prop) (s : Mem 1) : Prop :=
  ∃ L cur F, Filling heapmem s₀ v L cur F X s

theorem stored_cons : stored s (e :: L) = (List.range (s.entries e).free).map (s.entries e).ptrs ++ stored s L := List.flatMap_cons ..

theorem stored_congr {s s' : Mem 1} (h : ∀ e ∈ L, (s'.entries e).free = (s.entries e).free ∧ (s'.entries e).ptrs = (s.entries e).ptrs) :
    stored s' L = stored s L := by
  rw [stored, stored, List.flatMap_def, List.flatMap_def]
  congr 1
  refine List.map_congr_left fun e he => ?_
  rw [(h e he).1, (h e he).2]

/-! ## The number of objects -/

theorem length_objects (c a b : Nat) : (repository.objects c a b).length = b - a := by
  rw [Sizes.objects, List.length_map, List.length_range']

/-- The objects of page `r` of a chunk. -/
def perPage (r : Nat) : Nat := 32 * ((r + 1) * repository.wordsPerPage) - 32 * repository.firstWord r

theorem length_pageObjects (page : Nat) : (repository.pageObjects heapmem page).length = perPage (page % repository.sweepPagesPerChunk) := by
  rw [Sizes.pageObjects, length_objects, perPage]

theorem length_sweepObjects (heapmem : List Nat) : (repository.sweepObjects heapmem).length = 16256 * heapmem.length := by
  have hpages : repository.sweepPagesPerChunk = 8 := by decide
  rw [Sizes.sweepObjects, List.length_flatMap, hpages]
  simp only [length_pageObjects, hpages]
  generalize heapmem.length = m
  induction m with
  | zero => rfl
  | succ m ih =>
    have hchunk : (List.range 8).map (fun r => perPage ((m * 8 + r) % 8)) = (List.range 8).map perPage :=
      List.map_congr_left fun r hr => by
        rw [List.mem_range] at hr
        rw [Nat.mul_comm, Nat.mul_add_mod, Nat.mod_eq_of_lt hr]
    rw [Nat.succ_mul, List.range_add, List.map_append, List.sum_append, ih, List.map_map]
    change _ + ((List.range 8).map fun r => perPage ((m * 8 + r) % 8)).sum = _
    rw [hchunk, show ((List.range 8).map perPage).sum = 16256 by decide]
    omega

/-- Objects that differ from each other and from one more. -/
theorem length_lt {l : List Ptr} (hheap : Chunks heapmem) (hl : l.Nodup) (hobj : ∀ x ∈ l, Obj heapmem x) (hp : Obj heapmem p) (hpl : p ∉ l) :
    l.length < 16256 * heapmem.length := by
  have hall : ∀ x ∈ p :: l, Obj heapmem x := fun x hx => by
    obtain rfl | hx := List.mem_cons.1 hx
    · exact hp
    · exact hobj x hx
  have hnodup : ((p :: l).map Ptr.addr).Nodup :=
    (List.nodup_cons.2 ⟨hpl, hl⟩).map_on fun x hx y hy h => Ptr.eq_of_addr (hall x hx).tag (hall y hy).tag h
  have hsub : (p :: l).map Ptr.addr ⊆ repository.sweepObjects heapmem := fun a ha => by
    obtain ⟨x, hx, rfl⟩ := List.mem_map.1 ha
    exact (hall x hx).payload.mem_sweepObjects hheap
  have hle := (hnodup.subperm hsub).length_le
  rw [List.length_map, List.length_cons, length_sweepObjects] at hle
  omega

/-! ## One object -/

/-- Descriptor `e` is pushed, as the cache of the thread. -/
def pushed (s : Mem 1) (e : Nat) : Mem 1 :=
  { s with
    entries := Function.update s.entries e { s.entries e with next := s.head.head }
    head := ⟨some e, s.head.ver⟩
    locals := fun i => { s.locals i with alloc_cache := none } }

theorem ends_pReturnCache (hver : s.head.ver = (s.locals i).localVer) (hfuel : 0 < fuel) :
    Ends (pReturnCache i fuel e) s fun r s' => r = true ∧ s' = pushed s e := by
  obtain ⟨fuel, rfl⟩ := Nat.exists_eq_add_of_lt hfuel
  rw [Nat.zero_add, pReturnCache, iter]
  refine ends_bind.2 (ends_bind.2 (ends_readHead.mono fun old s₁ hs₁ => ?_))
  obtain ⟨rfl, rfl⟩ := hs₁
  refine ends_bind.2 (ends_load.2 ?_)
  rw [if_neg (not_not.2 hver)]
  refine ends_bind.2 (ends_store.2 (ends_bind.2 (ends_cas (fun _ => ?_) fun hne => absurd rfl hne)))
  rw [if_pos rfl, ← hver, setLocal_eq]
  exact ends_ret.2 (ends_ret.2 ⟨rfl, rfl⟩)

theorem pushed_self : (pushed s e).entries e = { s.entries e with next := s.head.head } := Function.update_self ..

theorem pushed_of_ne {d : Nat} (h : d ≠ e) : (pushed s e).entries d = s.entries d := Function.update_of_ne h ..

theorem entries_pushed (d : Nat) : ((pushed s e).entries d).free = (s.entries d).free ∧ ((pushed s e).entries d).ptrs = (s.entries d).ptrs := by
  by_cases h : d = e
  · subst h
    rw [pushed_self]
    exact ⟨rfl, rfl⟩
  · rw [pushed_of_ne h]
    exact ⟨rfl, rfl⟩

theorem next_pushed {d : Nat} (h : d ≠ e) : Pool.next (pushed s e) d = Pool.next s d := congrArg AllocEntry.next (pushed_of_ne h)

theorem Shelves.push (h : Shelves heapmem L (some e) F s) : Shelves heapmem (e :: L) none F (pushed s e) := by
  have hnodup : (e :: (L ++ F)).Nodup := h.nodup
  obtain ⟨he, -⟩ := List.nodup_cons.1 hnodup
  have hne : ∀ d ∈ L ++ F, d ≠ e := fun d hd hde => he (hde ▸ hd)
  refine ⟨?_, fun _ => rfl, fun i => ?_, hnodup, h.known, h.count, h.few⟩
  · refine (h.shared.congr fun d hd => next_pushed (hne d (List.mem_append_left _ hd))).push ?_
    rw [Pool.next, pushed_self]
  · exact (h.spent i).congr fun d hd => next_pushed (hne d (List.mem_append_right _ hd))

/-- Descriptor `e` becomes the cache of the thread, with `obj` in it. -/
def started (s : Mem 1) (e : Nat) (obj : Ptr) (k : Nat) (spent : Option Nat) : Mem 1 :=
  { s with
    entries := Function.update s.entries e { s.entries e with free := 1, ptrs := Function.update (s.entries e).ptrs 0 obj }
    allocationEntriesCacheHead := k
    locals := fun i => { s.locals i with alloc_cache := some e, entriesLocalFreeList := spent } }

/-- A spent descriptor is taken, or one that was never used. -/
theorem ends_startCache_spent {F : List Nat} (h : Linked (Pool.next s) (s.locals i).entriesLocalFreeList (e :: F)) :
    Ends (startCache i obj) s fun _ s' => s' = started s e obj s.allocationEntriesCacheHead (Pool.next s e) := by
  refine ends_bind.2 (ends_bind.2 (ends_load.2 ?_))
  rw [h.1]
  refine ends_bind.2 (ends_store.2 (ends_ret.2 (ends_store.2 ?_)))
  rw [setLocal_eq, setLocal_eq]
  rfl

theorem ends_startCache_fresh (h : (s.locals i).entriesLocalFreeList = none) (hlt : s.allocationEntriesCacheHead < allocationEntriesCacheSize) :
    Ends (startCache i obj) s fun _ s' =>
      s' = started s s.allocationEntriesCacheHead obj (s.allocationEntriesCacheHead + 1) none := by
  refine ends_bind.2 (ends_bind.2 (ends_load.2 ?_))
  rw [h]
  refine ends_bind.2 (ends_step.2 (ends_ret.2 (ends_bind.2 (ends_check hlt (ends_ret.2 (ends_store.2 ?_))))))
  rw [setLocal_eq]
  have hlocals : (fun j => { s.locals j with alloc_cache := some s.allocationEntriesCacheHead }) =
      fun j => { s.locals j with alloc_cache := some s.allocationEntriesCacheHead, entriesLocalFreeList := none } := by
    funext j
    rw [Subsingleton.elim j i, ← h]
  exact congrArg (fun l => { started s s.allocationEntriesCacheHead obj (s.allocationEntriesCacheHead + 1) none with locals := l }) hlocals

theorem started_self {k : Nat} {spent : Option Nat} : (started s e obj k spent).entries e =
    { s.entries e with free := 1, ptrs := Function.update (s.entries e).ptrs 0 obj } := Function.update_self ..

theorem started_of_ne {k d : Nat} {spent : Option Nat} (h : d ≠ e) : (started s e obj k spent).entries d = s.entries d :=
  Function.update_of_ne h ..

theorem next_started {k d : Nat} {spent : Option Nat} : Pool.next (started s e obj k spent) d = Pool.next s d := by
  by_cases h : d = e
  · subst h
    rw [Pool.next, started_self]
    rfl
  · exact congrArg AllocEntry.next (started_of_ne h)

variable {X Y : Ptr → Prop}

theorem Filling.congr (h : Filling heapmem s₀ v L cur F X s) (hXY : ∀ x, X x ↔ Y x) : Filling heapmem s₀ v L cur F Y s :=
  { h with
    mem := fun x => (h.mem x).trans (hXY x)
    obj := fun x hx => h.obj x ((hXY x).2 hx) }

/-- A full cache is pushed. -/
theorem Filling.push (h : Filling heapmem s₀ v L (some e) F X s) (hfull : (s.entries e).free = entriesPerCache) :
    Filling heapmem s₀ v (e :: L) none F X (pushed s e) where
  toShelves := h.toShelves.push
  frame := by
    obtain ⟨entries, head, k, cache, spent, rfl⟩ := h.frame
    exact ⟨_, _, _, _, _, rfl⟩
  ver := h.ver
  full := fun d hd => by
    rw [(entries_pushed d).1]
    obtain rfl | hd := List.mem_cons.1 hd
    · exact hfull
    · exact h.full d hd
  part := fun d hd => absurd hd (Option.some_ne_none d).symm
  once := by
    rw [stored_congr fun d _ => entries_pushed d]
    exact h.once
  mem := fun x => by
    rw [stored_congr fun d _ => entries_pushed d]
    exact h.mem x
  obj := h.obj

/-- A cache is started for an object. -/
theorem Filling.start {k : Nat} {spent : Option Nat} {F' : List Nat} (h : Filling heapmem s₀ v L none F X s) (hobj : Obj heapmem obj) (hX : ¬ X obj)
    (hspent : Linked (Pool.next s) spent F') (hnodup : (e :: (L ++ F')).Nodup)
    (hknown : ∀ d ∈ e :: (L ++ F'), d < k ∨ allocationEntriesCacheSize ≤ d)
    (hcount : (e :: (L ++ F')).length = 129 * heapmem.length + k) (hk : k ≤ 1) :
    Filling heapmem s₀ v L (some e) F' (fun x => X x ∨ x = obj) (started s e obj k spent) := by
  have hne : ∀ d ∈ L, d ≠ e := fun d hd hde => (List.nodup_cons.1 hnodup).1 (hde ▸ List.mem_append_left _ hd)
  have hstored : stored (started s e obj k spent) ((some e).toList ++ L) = obj :: stored s (none.toList ++ L) := by
    have hrest : stored (started s e obj k spent) L = stored s L := stored_congr fun d hd => by
      rw [started_of_ne (hne d hd)]
      exact ⟨rfl, rfl⟩
    change stored _ (e :: L) = obj :: stored s L
    rw [stored_cons, started_self, hrest]
    change Function.update (s.entries e).ptrs 0 obj 0 :: stored s L = _
    rw [Function.update_self]
  refine { shared := ?_, cache := fun _ => rfl, spent := fun i => ?_, nodup := hnodup, known := hknown, count := hcount, few := hk, frame := ?_,
           ver := h.ver, full := fun d hd => ?_, part := fun d hd => ?_, once := ?_, mem := fun x => ?_, obj := fun x hx => ?_ }
  · exact h.shared.congr fun d _ => next_started
  · exact hspent.congr fun d _ => next_started
  · obtain ⟨entries, head, k', cache, spent', rfl⟩ := h.frame
    exact ⟨_, _, _, _, _, rfl⟩
  · rw [started_of_ne (hne d hd)]
    exact h.full d hd
  · obtain rfl := Option.some.inj hd
    rw [started_self]
    exact ⟨Nat.one_pos, show 1 ≤ 126 by decide⟩
  · rw [hstored]
    exact List.nodup_cons.2 ⟨fun hmem => hX ((h.mem obj).1 hmem), h.once⟩
  · rw [hstored, List.mem_cons, h.mem, or_comm]
  · obtain hx | rfl := hx
    · exact h.obj x hx
    · exact hobj

theorem length_stored_full (h : ∀ e ∈ L, (s.entries e).free = entriesPerCache) : (stored s L).length = 126 * L.length := by
  induction L with
  | nil => rfl
  | cons e L ih =>
    rw [stored_cons, List.length_append, List.length_map, List.length_range, h e List.mem_cons_self, ih fun d hd => h d (List.mem_cons_of_mem _ hd),
      List.length_cons, show entriesPerCache = 126 from rfl]
    omega

theorem ends_startCache (hheap : Chunks heapmem) (hlen : heapmem.length ≤ maxChunks) (h : Filling heapmem s₀ v L none F X s)
    (hobj : Obj heapmem obj) (hX : ¬ X obj) :
    Ends (startCache i obj) s fun _ s' => Sweeping heapmem s₀ v (fun x => X x ∨ x = obj) s' := by
  cases F with
  | cons e F =>
    have hperm : (e :: (L ++ F)).Perm (L ++ e :: F) := List.perm_middle.symm
    refine (ends_startCache_spent (h.spent i)).mono fun _ s' hs' => ⟨L, some e, F, ?_⟩
    subst hs'
    exact h.start hobj hX (h.spent i).2 (hperm.nodup_iff.2 h.nodup) (fun d hd => h.known d (hperm.mem_iff.1 hd))
      (hperm.length_eq.trans h.count) h.few
  | nil =>
    -- the caches on the stack are full, so there are not many
    have hlt := length_lt hheap h.once (fun x hx => h.obj x ((h.mem x).1 hx)) hobj fun hmem => hX ((h.mem obj).1 hmem)
    have hstored : (stored s L).length = 126 * L.length := length_stored_full h.full
    have hcount : (L ++ []).length = 129 * heapmem.length + s.allocationEntriesCacheHead := h.count
    have hzero : s.allocationEntriesCacheHead = 0 := by
      change (stored s L).length < _ at hlt
      rw [List.append_nil] at hcount
      rw [show maxChunks = 20 from rfl] at hlen
      omega
    refine (ends_startCache_fresh (h.spent i) (by rw [hzero]; decide)).mono fun _ s' hs' => ⟨L, some s.allocationEntriesCacheHead, [], ?_⟩
    subst hs'
    refine h.start hobj hX rfl (List.nodup_cons.2 ⟨fun hmem => ?_, h.nodup⟩) (fun d hd => ?_) (by rw [List.length_cons, hcount]; rfl) (by omega)
    · obtain hlt | hle := h.known _ hmem
      · exact absurd hlt (Nat.lt_irrefl _)
      · rw [hzero] at hle
        exact absurd hle (by decide)
    · obtain rfl | hd := List.mem_cons.1 hd
      · exact .inl (Nat.lt_succ_self _)
      · exact (h.known d hd).imp_left fun hlt => hlt.trans (Nat.lt_succ_self _)

/-- The cache of the thread gets one more object. -/
def appended (s : Mem 1) (e : Nat) (obj : Ptr) : Mem 1 :=
  s.setEntry e fun c => { c with ptrs := Function.update c.ptrs c.free obj, free := c.free + 1 }

theorem appended_self : (appended s e obj).entries e =
    { s.entries e with ptrs := Function.update (s.entries e).ptrs (s.entries e).free obj, free := (s.entries e).free + 1 } := Mem.setEntry_self _

theorem appended_of_ne {d : Nat} (h : d ≠ e) : (appended s e obj).entries d = s.entries d := Mem.setEntry_of_ne _ h

theorem next_appended {d : Nat} : Pool.next (appended s e obj) d = Pool.next s d := by
  by_cases h : d = e
  · subst h
    rw [Pool.next, appended_self]
    rfl
  · exact congrArg AllocEntry.next (appended_of_ne h)

theorem Filling.append (h : Filling heapmem s₀ v L (some e) F X s) (hfree : (s.entries e).free < entriesPerCache) (hobj : Obj heapmem obj) (hX : ¬ X obj) :
    Filling heapmem s₀ v L (some e) F (fun x => X x ∨ x = obj) (appended s e obj) := by
  have hne : ∀ d ∈ L, d ≠ e := fun d hd hde => by
    have hnodup : (e :: (L ++ F)).Nodup := h.nodup
    exact (List.nodup_cons.1 hnodup).1 (hde ▸ List.mem_append_left _ hd)
  have hstored : (stored (appended s e obj) ((some e).toList ++ L)).Perm (obj :: stored s ((some e).toList ++ L)) := by
    have hrest : stored (appended s e obj) L = stored s L := stored_congr fun d hd => by
      rw [appended_of_ne (hne d hd)]
      exact ⟨rfl, rfl⟩
    have hold : (List.range (s.entries e).free).map (Function.update (s.entries e).ptrs (s.entries e).free obj) =
        (List.range (s.entries e).free).map (s.entries e).ptrs :=
      List.map_congr_left fun k hk => Function.update_of_ne (List.mem_range.1 hk).ne ..
    change (stored _ (e :: L)).Perm (obj :: stored s (e :: L))
    rw [stored_cons, stored_cons, appended_self, hrest]
    dsimp only
    rw [List.range_succ, List.map_append, hold, List.map_singleton, Function.update_self, List.append_assoc]
    exact List.perm_middle
  refine { shared := ?_, cache := h.cache, spent := fun i => ?_, nodup := h.nodup, known := h.known, count := h.count, few := h.few, frame := ?_,
           ver := h.ver, full := fun d hd => ?_, part := fun d hd => ?_, once := ?_, mem := fun x => ?_, obj := fun x hx => ?_ }
  · exact h.shared.congr fun d _ => next_appended
  · exact (h.spent i).congr fun d _ => next_appended
  · obtain ⟨entries, head, k', cache, spent', rfl⟩ := h.frame
    exact ⟨_, _, _, _, _, rfl⟩
  · rw [appended_of_ne (hne d hd)]
    exact h.full d hd
  · obtain rfl := Option.some.inj hd
    rw [appended_self]
    exact ⟨Nat.succ_pos _, hfree⟩
  · exact hstored.nodup_iff.2 (List.nodup_cons.2 ⟨fun hmem => hX ((h.mem obj).1 hmem), h.once⟩)
  · rw [hstored.mem_iff, List.mem_cons, h.mem, or_comm]
  · obtain hx | rfl := hx
    · exact h.obj x hx
    · exact hobj

theorem Filling.localVer (h : Filling heapmem s₀ v L cur F X s) : (s.locals i).localVer = (s₀.locals i).localVer := by
  obtain ⟨entries, head, k, cache, spent, rfl⟩ := h.frame
  rfl

theorem ends_setAsFree (hheap : Chunks heapmem) (hlen : heapmem.length ≤ maxChunks) (hver : ∀ i, (s₀.locals i).localVer = v) (hfuel : 0 < fuel)
    (h : Sweeping heapmem s₀ v X s) (hobj : Obj heapmem obj) (hX : ¬ X obj) :
    Ends (setAsFree i fuel obj) s fun _ s' => Sweeping heapmem s₀ v (fun x => X x ∨ x = obj) s' := by
  obtain ⟨L, cur, F, h⟩ := h
  refine ends_bind.2 (ends_load.2 ?_)
  rw [h.cache]
  cases cur with
  | none => exact ends_startCache hheap hlen h hobj hX
  | some e =>
    refine ends_bind.2 (ends_load.2 ?_)
    obtain ⟨-, hle⟩ := h.part e rfl
    by_cases hfree : (s.entries e).free < entriesPerCache
    · rw [if_pos hfree]
      exact ends_store.2 ⟨L, some e, F, h.append hfree hobj hX⟩
    · rw [if_neg hfree]
      refine ends_bind.2 ((ends_pReturnCache (h.ver.trans (by rw [h.localVer, hver])) hfuel).mono fun _ s' hs' => ?_)
      obtain ⟨-, rfl⟩ := hs'
      exact ends_startCache hheap hlen (h.push (le_antisymm hle (Nat.not_lt.1 hfree))) hobj hX

/-! ## Pages -/

theorem chunks_of_heap (h : Heap heapmem) : Chunks heapmem := ⟨h.aligned, h.nodup⟩

/-- What is in caches when the pages before `page` are swept, and of this page the objects below `lo`. -/
structure Done (heapmem : List Nat) (s₀ : Mem 1) (page lo : Nat) (x : Ptr) : Prop where
  obj : Obj heapmem x
  unmarked : ¬ Marked s₀ x
  place : (∃ page' < page, Pool.InPage heapmem page' x) ∨ Pool.InPage heapmem page x ∧ x.addr < lo

theorem done_of_page {page : Nat} (hheap : Heap heapmem) (hpage : page < heapmem.length * sweepPagesPerChunk) {lo : Nat} (hx : Pool.InPage heapmem page p) :
    Done heapmem s₀ page lo p ↔ Obj heapmem p ∧ ¬ Marked s₀ p ∧ p.addr < lo := by
  constructor
  · rintro ⟨hobj, hm, ⟨page', hlt, hx'⟩ | ⟨-, hlo⟩⟩
    · exact absurd (Pool.inPage_unique hheap (hlt.trans hpage) hpage hx' hx) hlt.ne
    · exact ⟨hobj, hm, hlo⟩
  · rintro ⟨hobj, hm, hlo⟩
    exact ⟨hobj, hm, .inr ⟨hx, hlo⟩⟩

/-- One object further. -/
theorem done_succ (s₀ : Mem 1) {page a : Nat} (ha : a % nodeSize = 0) (hx : Pool.InPage heapmem page ⟨a, false⟩) (hobj : Obj heapmem ⟨a, false⟩) (x : Ptr) :
    Done heapmem s₀ page (a + nodeSize) x ↔ Done heapmem s₀ page a x ∨ x = ⟨a, false⟩ ∧ ¬ Marked s₀ ⟨a, false⟩ := by
  constructor
  · rintro ⟨hxobj, hm, hpage | ⟨hin, hlt⟩⟩
    · exact .inl ⟨hxobj, hm, .inl hpage⟩
    · by_cases hlo : x.addr < a
      · exact .inl ⟨hxobj, hm, .inr ⟨hin, hlo⟩⟩
      · obtain ⟨-, -, -, -, halign⟩ := hxobj.payload
        have halign : x.addr % 32 = 0 := halign
        rw [show nodeSize = 32 from rfl] at ha hlt
        have haddr : x.addr = a := by omega
        obtain rfl : x = ⟨a, false⟩ := Ptr.eq_of_addr hxobj.tag rfl haddr
        exact .inr ⟨rfl, hm⟩
  · rintro (⟨hxobj, hm, hpage⟩ | ⟨rfl, hm⟩)
    · exact ⟨hxobj, hm, hpage.imp_right fun ⟨hin, hlt⟩ => ⟨hin, by omega⟩⟩
    · exact ⟨hobj, hm, .inr ⟨hx, show a < a + 32 by omega⟩⟩

theorem Sweeping.congr (h : Sweeping heapmem s₀ v X s) (hXY : ∀ x, X x ↔ Y x) : Sweeping heapmem s₀ v Y s := by
  obtain ⟨L, cur, F, h⟩ := h
  exact ⟨L, cur, F, h.congr hXY⟩

theorem Sweeping.marks (h : Sweeping heapmem s₀ v X s) : s.marks = s₀.marks := by
  obtain ⟨L, cur, F, h⟩ := h
  obtain ⟨entries, head, k, cache, spent, rfl⟩ := h.frame
  rfl

/-- The objects of mark word `w` of chunk `c`. -/
theorem ends_sweepWord {page c w : Nat} (hheap : Heap heapmem) (hver : ∀ i, (s₀.locals i).localVer = v) (hfuel : 0 < fuel)
    (hpage : page < heapmem.length * sweepPagesPerChunk) (hc : c ∈ heapmem) (hlo : 4 ≤ w) (hhi : w < 512)
    (hin : ∀ k < 32, Pool.InPage heapmem page ⟨c + 1024 * w + k * nodeSize, false⟩)
    (h : Sweeping heapmem s₀ v (Done heapmem s₀ page (c + 1024 * w)) s) :
    Ends (sweepWord i fuel (c + wordSize * w) (c + 1024 * w) nodeSize) s fun _ s' =>
      Sweeping heapmem s₀ v (Done heapmem s₀ page (c + 1024 * (w + 1))) s' := by
  refine ends_bind.2 (ends_load.2 ?_)
  have hmod : c % 524288 = 0 := hheap.aligned c hc
  rw [h.marks]
  refine (ends_forRange (fun k s' => Sweeping heapmem s₀ v (Done heapmem s₀ page (c + 1024 * w + k * nodeSize)) s') (fun k hk s' hs' => ?_)
    (h.congr fun x => by rw [Nat.zero_mul, Nat.add_zero])).mono fun _ s' hs' => hs'.congr fun x => ?_
  · have hsize : nodeSize = 32 := rfl
    have hobj : Obj heapmem ⟨c + 1024 * w + k * nodeSize, false⟩ := by
      refine ⟨rfl, c, hc, ?_, ?_, ?_⟩
      · rw [show repository.headerSize = 4096 by decide, hsize]
        dsimp only
        omega
      · rw [show repository.nodeSize = 32 from rfl, show repository.chunkSize = 524288 from rfl, hsize]
        dsimp only
        omega
      · rw [show repository.nodeSize = 32 from rfl, hsize]
        dsimp only
        omega
    have hmarked : Marked s₀ ⟨c + 1024 * w + k * nodeSize, false⟩ ↔ s₀.marks (c + wordSize * w) &&& Stamp.bit k ≠ 0#64 := by
      have hword : markWord (c + 1024 * w + k * nodeSize) = c + wordSize * w := by
        rw [markWord, show chunkSize = 524288 from rfl, hsize, show wordSize = 8 from rfl]
        omega
      have hbit : markBit (c + 1024 * w + k * nodeSize) = k := by
        rw [markBit, show chunkSize = 524288 from rfl, hsize]
        omega
      rw [Stamp.and_bit_ne_zero (by omega), Marked, hword, hbit]
    have hnext := done_succ s₀ (by rw [hsize]; omega) (hin k hk) hobj
    rw [show c + 1024 * w + (k + 1) * nodeSize = c + 1024 * w + k * nodeSize + nodeSize by rw [hsize]; omega]
    by_cases hbit : s₀.marks (c + wordSize * w) &&& Stamp.bit k = 0#64
    · rw [if_pos hbit]
      refine (ends_setAsFree (chunks_of_heap hheap) hheap.length_le hver hfuel hs' hobj fun hd => ?_).mono fun _ s'' hs'' => hs''.congr fun x => ?_
      · exact absurd ((done_of_page hheap hpage (hin k hk)).1 hd).2.2 (Nat.lt_irrefl _)
      · rw [hnext, and_iff_left fun hm => hmarked.1 hm hbit]
    · rw [if_neg hbit]
      exact ends_ret.2 (hs'.congr fun x => by rw [hnext, or_iff_left fun h => h.2 (hmarked.2 hbit)])
  · rw [show nodeSize = 32 from rfl, show c + 1024 * w + 32 * 32 = c + 1024 * (w + 1) by omega]

/-- The first mark word that is looked at of page `r` of a chunk. -/
def firstWord (r : Nat) : Nat := if r = 0 then 4 else 64 * r

theorem Sweeping.heapmem_eq (h : Sweeping heapmem s₀ v X s) : s.heapmem = s₀.heapmem ∧ s.entrySize = s₀.entrySize := by
  obtain ⟨L, cur, F, h⟩ := h
  obtain ⟨entries, head, k, cache, spent, rfl⟩ := h.frame
  exact ⟨rfl, rfl⟩

/-- A page: the assertions hold, and the header is skipped. -/
theorem ends_process_sweep_page {page : Nat} (hheap : Heap heapmem) (hver : ∀ i, (s₀.locals i).localVer = v) (hmem : s₀.heapmem = heapmem)
    (hsize : s₀.entrySize = nodeSize) (hfuel : 0 < fuel) (hpage : page < heapmem.length * sweepPagesPerChunk)
    (h : Sweeping heapmem s₀ v (Done heapmem s₀ page 0) s) :
    Ends (process_sweep_page i fuel page) s fun _ s' => Sweeping heapmem s₀ v (Done heapmem s₀ (page + 1) 0) s' := by
  have hpages : sweepPagesPerChunk = 8 := by decide
  have hq : page / 8 < heapmem.length := by
    rw [hpages] at hpage
    omega
  obtain ⟨c, hc, hget⟩ : ∃ c ∈ heapmem, heapmem.getD (page / sweepPagesPerChunk) 0 = c :=
    ⟨_, List.getElem_mem hq, by rw [hpages, List.getD_eq_getElem _ _ hq]⟩
  have hmod : c % 524288 = 0 := hheap.aligned c hc
  obtain ⟨r, hr, hrlt⟩ : ∃ r, page % sweepPagesPerChunk = r ∧ r < 8 := ⟨_, rfl, by rw [hpages]; omega⟩
  have hpageAddr : Pool.pageAddr heapmem page = c + r * 65536 := by
    rw [Pool.pageAddr, hget, hr]
    rfl
  have hin : ∀ {x : Ptr}, Pool.InPage heapmem page x ↔ c + r * 65536 ≤ x.addr ∧ x.addr < c + r * 65536 + 65536 := by
    intro x
    rw [Pool.InPage, hpageAddr]
    rfl
  refine ends_bind.2 (ends_load.2 ?_)
  rw [h.heapmem_eq.1, hmem, hget, hr, show sweepPage = 65536 from rfl, show chunkSize = 524288 from rfl]
  have hbase : (c + r * 65536) / 524288 * 524288 = c := by omega
  have hoffset : (c + r * 65536) % 524288 / memPerByte = 512 * r := by
    rw [show memPerByte = 128 from rfl]
    omega
  dsimp only
  rw [hbase, hoffset]
  refine ends_bind.2 (ends_check (by rw [show wordSize = 8 from rfl]; omega) (ends_bind.2 (ends_load.2 ?_)))
  rw [h.heapmem_eq.2, hsize]
  refine ends_bind.2 (ends_check rfl (ends_bind.2 (ends_check (by decide) ?_)))
  have hword : c + 512 * r + wordSize * (if c + r * 65536 = c then headerSize / (memPerByte * wordSize) else 0) = c + wordSize * firstWord r := by
    rw [firstWord, show headerSize / (memPerByte * wordSize) = 4 by decide, show wordSize = 8 from rfl]
    split <;> split <;> omega
  have hobj : (if c + r * 65536 = c ∧ (if c + r * 65536 = c then headerSize / (memPerByte * wordSize) else 0) ≠ 0 then c + r * 65536 + headerSize
      else c + r * 65536) = c + 1024 * firstWord r := by
    rw [firstWord, show headerSize / (memPerByte * wordSize) = 4 by decide, show headerSize = 4096 from rfl]
    by_cases h0 : r = 0
    · have he : c + r * 65536 = c := by omega
      rw [if_pos h0, if_pos he, if_pos ⟨he, by decide⟩]
      omega
    · have hne : c + r * 65536 ≠ c := by omega
      rw [if_neg h0, if_neg fun h => hne h.1]
      omega
  rw [hword, hobj]
  have hfirst : 4 ≤ firstWord r ∧ 64 * r ≤ firstWord r ∧ firstWord r ≤ 64 * (r + 1) := by
    rw [firstWord]
    split <;> omega
  have hcount : (c + r * 65536 + 65536 - (c + 1024 * firstWord r)) / (32 * nodeSize) = 64 * (r + 1) - firstWord r := by
    rw [show 32 * nodeSize = 1024 from rfl]
    omega
  rw [hcount]
  refine (ends_forRange (fun k s' => Sweeping heapmem s₀ v (Done heapmem s₀ page (c + 1024 * (firstWord r + k))) s') (fun k hk s' hs' => ?_)
    (h.congr fun x => ?_)).mono fun _ s' hs' => hs'.congr fun x => ?_
  · rw [show 32 * nodeSize * k = 1024 * k from rfl, Nat.add_assoc c, ← Nat.mul_add, Nat.add_assoc c, ← Nat.mul_add, ← Nat.add_assoc (firstWord r)]
    refine ends_sweepWord hheap hver hfuel hpage hc (by omega) (by omega) (fun j hj => hin.2 ?_) hs'
    rw [show nodeSize = 32 from rfl]
    dsimp only
    omega
  · -- no object lies below the first word
    constructor
    · rintro ⟨hobj, hm, hpage | ⟨-, hlt⟩⟩
      · exact ⟨hobj, hm, .inl hpage⟩
      · exact absurd hlt (Nat.not_lt_zero _)
    · rintro ⟨hobj, hm, hpage | ⟨hx, hlt⟩⟩
      · exact ⟨hobj, hm, .inl hpage⟩
      · obtain ⟨c', hc', hlo, hhi, -⟩ := hobj.payload
        have hmod' : c' % 524288 = 0 := hheap.aligned c' hc'
        rw [show repository.headerSize = 4096 by decide] at hlo
        rw [show repository.nodeSize = 32 from rfl, show repository.chunkSize = 524288 from rfl] at hhi
        have hx := hin.1 hx
        rw [firstWord] at hlt
        split at hlt <;> omega
  · have hend : c + 1024 * (firstWord r + (64 * (r + 1) - firstWord r)) = c + r * 65536 + 65536 := by omega
    rw [hend]
    constructor
    · rintro ⟨hobj, hm, ⟨page', hlt, hx⟩ | ⟨hx, -⟩⟩
      · exact ⟨hobj, hm, .inl ⟨page', hlt.trans (Nat.lt_succ_self _), hx⟩⟩
      · exact ⟨hobj, hm, .inl ⟨page, Nat.lt_succ_self _, hx⟩⟩
    · rintro ⟨hobj, hm, ⟨page', hlt, hx⟩ | ⟨-, hlt⟩⟩
      · obtain hlt | rfl := Nat.lt_succ_iff_lt_or_eq.1 hlt
        · exact ⟨hobj, hm, .inl ⟨page', hlt, hx⟩⟩
        · exact ⟨hobj, hm, .inr ⟨hx, (hin.1 hx).2⟩⟩
      · exact absurd hlt (Nat.not_lt_zero _)

/-! ## The sweep -/

/-- What a sweep leaves: the pool holds the objects without a mark, each once. -/
structure Stocked (heapmem : List Nat) (s₀ : Mem 1) (v : Nat) (s : Mem 1) : Prop where
  frame : ∃ entries head k cache spent sweep, s = { swept s₀ entries head k cache spent with sweep_counter := sweep }
  ver : s.head.ver = v
  sweep : phaseOf s.sweep_counter = v
  shelves : ∃ L F, Shelves heapmem L none F s ∧ (∀ e ∈ L, 0 < (s.entries e).free) ∧ (stored s L).Nodup ∧
    ∀ x, x ∈ stored s L ↔ Obj heapmem x ∧ ¬ Marked s₀ x

/-- The pages are claimed in turn. -/
theorem ends_takeSweepPage_some {page : Nat} (hfuel : 0 < fuel) (hphase : phaseOf s.sweep_counter = v) (hcount : scounter s.sweep_counter = page)
    (hlt : page < heapmem.length * sweepPagesPerChunk) :
    Ends (takeSweepPage i fuel (heapmem.length * sweepPagesPerChunk) v) s fun r s' =>
      r = some page ∧ s' = { s with sweep_counter := s.sweep_counter + 1 } := by
  obtain ⟨fuel, rfl⟩ := Nat.exists_eq_add_of_lt hfuel
  rw [Nat.zero_add, takeSweepPage, iter]
  refine ends_bind.2 (ends_bind.2 (ends_load.2 ?_))
  rw [if_neg (not_or.2 ⟨not_not.2 hphase, by omega⟩)]
  refine ends_bind.2 (ends_cas (fun _ => ?_) fun hne => absurd rfl hne)
  rw [if_pos rfl, hcount]
  exact ends_ret.2 (ends_ret.2 ⟨rfl, rfl⟩)

theorem Filling.sweeping (h : Filling heapmem s₀ v L cur F X s) : Sweeping heapmem s₀ v X s := ⟨L, cur, F, h⟩

theorem Sweeping.claim (h : Sweeping heapmem s₀ v X s) (sweep : U64) :
    Sweeping heapmem { s₀ with sweep_counter := sweep } v X { s with sweep_counter := sweep } := by
  obtain ⟨L, cur, F, h⟩ := h
  obtain ⟨entries, head, k, cache, spent, hframe⟩ := h.frame
  have hshelves : Shelves heapmem L cur F { s with sweep_counter := sweep } := { h.toShelves with }
  refine ⟨L, cur, F, { h with toShelves := hshelves, frame := ⟨entries, head, k, cache, spent, ?_⟩ }⟩
  rw [hframe]
  rfl

/-- The counter does not matter for what is to be freed. -/
theorem done_claim {page lo : Nat} {sweep : U64} : Done heapmem { s₀ with sweep_counter := sweep } page lo p ↔ Done heapmem s₀ page lo p :=
  ⟨fun ⟨hobj, hm, hplace⟩ => ⟨hobj, hm, hplace⟩, fun ⟨hobj, hm, hplace⟩ => ⟨hobj, hm, hplace⟩⟩

theorem Sweeping.counter (h : Sweeping heapmem s₀ v X s) : s.sweep_counter = s₀.sweep_counter := by
  obtain ⟨L, cur, F, h⟩ := h
  obtain ⟨entries, head, k, cache, spent, rfl⟩ := h.frame
  rfl

/-- Every object is in a page. -/
theorem exists_page (hheap : Heap heapmem) (h : Obj heapmem p) : ∃ page < heapmem.length * sweepPagesPerChunk, Pool.InPage heapmem page p := by
  obtain ⟨c, hc, hlo, hhi, -⟩ := h.payload
  obtain ⟨q, hq, rfl⟩ := List.getElem_of_mem hc
  have hmod : heapmem[q] % 524288 = 0 := hheap.aligned _ hc
  have hpages : sweepPagesPerChunk = 8 := by decide
  rw [show repository.headerSize = 4096 by decide] at hlo
  rw [show repository.nodeSize = 32 from rfl, show repository.chunkSize = 524288 from rfl] at hhi
  refine ⟨8 * q + (p.addr - heapmem[q]) / 65536, by rw [hpages]; omega, ?_⟩
  have hdiv : (8 * q + (p.addr - heapmem[q]) / 65536) / 8 = q := by omega
  have hrem : (8 * q + (p.addr - heapmem[q]) / 65536) % 8 = (p.addr - heapmem[q]) / 65536 := by omega
  rw [Pool.InPage, Pool.pageAddr, hpages, hdiv, hrem, List.getD_eq_getElem _ _ hq, show sweepPage = 65536 from rfl]
  omega

theorem done_all (hheap : Heap heapmem) (x : Ptr) :
    Done heapmem s₀ (heapmem.length * sweepPagesPerChunk) 0 x ↔ Obj heapmem x ∧ ¬ Marked s₀ x :=
  ⟨fun ⟨hobj, hm, _⟩ => ⟨hobj, hm⟩, fun ⟨hobj, hm⟩ => ⟨hobj, hm, .inl (exists_page hheap hobj)⟩⟩

/-- At the end the last cache is pushed. -/
theorem ends_takeSweepPage_none {num : Nat} (hver : ∀ i, (s₀.locals i).localVer = v) (hfuel : 0 < fuel) (hphase : phaseOf s.sweep_counter = v)
    (hcount : num ≤ scounter s.sweep_counter) (h : Sweeping heapmem s₀ v (fun x => Obj heapmem x ∧ ¬ Marked s₀ x) s) :
    Ends (takeSweepPage i fuel num v) s fun r s' => r = none ∧ Stocked heapmem s₀ v s' := by
  obtain ⟨L, cur, F, h⟩ := h
  obtain ⟨entries, head, k, cache, spent, hframe⟩ := h.frame
  obtain ⟨fuel, rfl⟩ := Nat.exists_eq_add_of_lt hfuel
  rw [Nat.zero_add, takeSweepPage, iter]
  refine ends_bind.2 (ends_bind.2 (ends_load.2 ?_))
  rw [if_pos (.inr hcount)]
  refine ends_bind.2 (ends_load.2 ?_)
  rw [h.cache]
  have hfull : ∀ e ∈ L, 0 < (s.entries e).free := fun e he => by
    rw [h.full e he]
    decide
  cases cur with
  | none => exact ends_ret.2 (ends_ret.2 ⟨rfl, ⟨entries, head, k, cache, spent, s₀.sweep_counter, hframe⟩, h.ver, hphase, L, F, h.toShelves, hfull, h.once, h.mem⟩)
  | some e =>
    refine ends_bind.2 ((ends_pReturnCache (h.ver.trans (by rw [h.localVer, hver])) (Nat.succ_pos _)).mono fun _ s' hs' => ?_)
    obtain ⟨-, rfl⟩ := hs'
    refine ends_bind.2 (ends_store.2 (ends_ret.2 (ends_ret.2 ⟨rfl, ?_, h.ver, hphase, e :: L, F, ?_, fun d hd => ?_, ?_, fun x => ?_⟩)))
    · rw [setLocal_eq, hframe]
      exact ⟨_, _, _, _, _, s₀.sweep_counter, rfl⟩
    · have hpush := h.toShelves.push
      rw [setLocal_eq]
      exact { hpush with }
    · change 0 < ((pushed s e).entries d).free
      rw [(entries_pushed d).1]
      obtain rfl | hd := List.mem_cons.1 hd
      · exact (h.part d rfl).1
      · exact hfull d hd
    · rw [show stored ((pushed s e).setLocal i _) (e :: L) = stored (pushed s e) (e :: L) from rfl, stored_congr fun d _ => entries_pushed d]
      exact h.once
    · rw [show stored ((pushed s e).setLocal i _) (e :: L) = stored (pushed s e) (e :: L) from rfl, stored_congr fun d _ => entries_pushed d]
      exact h.mem x

theorem ends_sweep (hheap : Heap heapmem) (hver : ∀ i, (s.locals i).localVer = v) (hv : v < 2 ^ 32) (hmem : s.heapmem = heapmem)
    (hsize : s.entrySize = nodeSize) (hshelves : Shelves heapmem [] none F s) (hhead : s.head.ver = v) (hsweep : s.sweep_counter = makeSC 0 v)
    (hfuel : heapmem.length * sweepPagesPerChunk < fuel) : Ends (sweep i fuel) s fun _ s' => Stocked heapmem s v s' := by
  have hlen := hheap.length_le
  have hpages : sweepPagesPerChunk = 8 := by decide
  have hpos : 0 < fuel := by omega
  have hcache : (s.setLocal i ({ · with alloc_cache := none })) = s := by
    rw [setLocal_eq]
    have hlocals : (fun j => { s.locals j with alloc_cache := none }) = s.locals := by
      funext j
      rw [← hshelves.cache j]
    rw [hlocals]
  refine ends_bind.2 (ends_store.2 (ends_bind.2 (ends_load.2 (ends_bind.2 (ends_load.2 ?_)))))
  rw [hcache, hver, Nat.mod_eq_of_lt hv, hmem]
  have hstart : Sweeping heapmem s v (Done heapmem s 0 0) s := by
    refine ⟨[], none, F, hshelves, ?_, hhead, fun d hd => absurd hd List.not_mem_nil, fun d hd => absurd hd (Option.some_ne_none d).symm,
      List.nodup_nil, fun x => ⟨fun hx => absurd hx List.not_mem_nil, fun hx => ?_⟩, fun x hx => hx.obj⟩
    · refine ⟨s.entries, s.head, s.allocationEntriesCacheHead, none, (s.locals i).entriesLocalFreeList, ?_⟩
      have hlocals : s.locals = fun j => { s.locals j with alloc_cache := none, entriesLocalFreeList := (s.locals i).entriesLocalFreeList } := by
        funext j
        rw [← hshelves.cache j, Subsingleton.elim j i]
      rw [swept, ← hlocals]
    · obtain ⟨page', hlt, -⟩ | ⟨-, hlt⟩ := hx.place
      · exact absurd hlt (Nat.not_lt_zero _)
      · exact absurd hlt (Nat.not_lt_zero _)
  refine ends_iter (fun _ s' => ∃ page ≤ heapmem.length * sweepPagesPerChunk,
      Sweeping heapmem { s with sweep_counter := s'.sweep_counter } v (Done heapmem s page 0) s' ∧
        phaseOf s'.sweep_counter = v ∧ scounter s'.sweep_counter = page)
    (fun _ s' => heapmem.length * sweepPagesPerChunk - scounter s'.sweep_counter) (fun _ s' hJ => ?_) ((Nat.sub_le ..).trans_lt hfuel)
    ⟨0, Nat.zero_le _, hstart, ?_, ?_⟩
  · obtain ⟨page, hle, hsweeping, hphase, hcount⟩ := hJ
    by_cases hlt : page < heapmem.length * sweepPagesPerChunk
    · refine ends_bind.2 ((ends_takeSweepPage_some hpos hphase hcount hlt).mono fun r s₁ hs₁ => ?_)
      obtain ⟨rfl, rfl⟩ := hs₁
      have hsmall : page < 2 ^ 31 := by
        rw [hpages] at hlt
        rw [show maxChunks = 20 from rfl] at hlen
        omega
      obtain ⟨hhi, hcount'⟩ := ArrayRoot.scounter_succ (hcount.trans_lt hsmall)
      have hclaimed : Sweeping heapmem { s with sweep_counter := s'.sweep_counter + 1 } v
          (Done heapmem { s with sweep_counter := s'.sweep_counter + 1 } page 0) { s' with sweep_counter := s'.sweep_counter + 1 } :=
        (hsweeping.claim (s'.sweep_counter + 1)).congr fun x => done_claim.symm
      have hver' : ∀ j, (({ s with sweep_counter := s'.sweep_counter + 1 } : Mem 1).locals j).localVer = v := hver
      refine ends_bind.2 ((ends_process_sweep_page hheap hver' hmem hsize hpos hlt hclaimed).mono fun _ s₂ hs₂ => ends_ret.2 ?_)
      have hcounter : s₂.sweep_counter = s'.sweep_counter + 1 := hs₂.counter
      refine ⟨⟨page + 1, hlt, ?_, ?_, ?_⟩, ?_⟩
      · rw [hcounter]
        exact hs₂.congr fun x => done_claim
      · rw [hcounter, phaseOf_eq, hhi, ← phaseOf_eq, hphase]
      · rw [hcounter, hcount', hcount]
      · rw [hcounter, hcount', hcount]
        omega
    · obtain rfl : page = heapmem.length * sweepPagesPerChunk := by omega
      have hall : Sweeping heapmem { s with sweep_counter := s'.sweep_counter } v
          (fun x => Obj heapmem x ∧ ¬ Marked { s with sweep_counter := s'.sweep_counter } x) s' := hsweeping.congr fun x => done_all hheap x
      have hver' : ∀ j, (({ s with sweep_counter := s'.sweep_counter } : Mem 1).locals j).localVer = v := hver
      refine ends_bind.2 ((ends_takeSweepPage_none hver' hpos hphase hcount.ge hall).mono fun r s₁ hs₁ => ?_)
      obtain ⟨rfl, hs₁⟩ := hs₁
      obtain ⟨entries, head, k, cache, spent, sweep, hframe⟩ := hs₁.frame
      exact ends_ret.2 ⟨⟨entries, head, k, cache, spent, sweep, hframe⟩, hs₁.ver, hs₁.sweep, hs₁.shelves⟩
  · rw [hsweep, makeSC_zero, phaseOf_eq, Stamp.hi_empty, Nat.mod_eq_of_lt hv]
  · rw [hsweep, makeSC_zero, scounter, Stamp.toNat_empty]
    omega

end OptimisticAccess.AOA.Solo
