import OptimisticAccess.MOA.Operations

/-!
# `init_allocator`

The allocator before the threads start: one list of full caches, and everything else empty. `mem k`
is what the `k`-th `malloc` of a block of objects returns.
-/

namespace OptimisticAccess.MOA

open Conc Prog

variable {n : Nat} {s : Mem n} {mem : Nat → Nat} {m : Nat}

def HPsPerThread : Nat := 3

/-- `INIT_PHASE`. -/
def initPhase : Nat := 0

def totalSize : Nat := nodeSize * entriesPerCache

/-- `allocEntry`: the new descriptor is number `s.brk`, its objects lie from `mem` on and are zeroed. -/
def allocEntry (s : Mem n) (mem : Nat) : Mem n :=
  { s with
    keyData := fun a => if mem ≤ a ∧ a < mem + totalSize then 0 else s.keyData a
    nextEntry := fun a => if mem ≤ a ∧ a < mem + totalSize then NULL else s.nextEntry a
    ptrs := Function.update s.ptrs s.brk fun j => ⟨mem + j * nodeSize, false⟩
    free := Function.update s.free s.brk entriesPerCache
    next := Function.update s.next s.brk none
    brk := s.brk + 1 }

/-- The loop of `initAllocator`, with its variable `head`. -/
def allocEntries (mem : Nat → Nat) (s : Mem n) (numCaches : Nat) : Mem n × Option Nat :=
  (List.range numCaches).foldl (fun r i => ((allocEntry r.1 (mem i)).setNext r.1.brk r.2, some r.1.brk)) (s, none)

def initAllocator (mem : Nat → Nat) (numEntries : Nat) (s : Mem n) : Mem n :=
  let r := allocEntries mem { s with numHPEntries := n * HPsPerThread, reclaim := ⟨none, 2⟩, toProcess := ⟨none, 2⟩ }
    (1 + numEntries / entriesPerCache)
  { r.1 with head := r.2 }

/-- `init_allocator`: `initAllocator`, and `initLocalAllocator` for every thread. -/
def init_allocator (mem : Nat → Nat) (numEntries : Nat) (s : Mem n) : Mem n :=
  { initAllocator mem numEntries s with
    HPs := fun _ _ => NULL
    alloc_cache := fun _ => none
    free_cache := fun _ => none
    localVer := fun _ => initPhase
    dirtyNphase := fun _ => initPhase * 2 ^ 8 }

/-- The memory a program starts with: static and thread variables are zero, nothing has been allocated. -/
structure Blank (s : Mem n) : Prop where
  entryHead : ∀ b, s.entryHead b = NULL
  hps : ∀ i, s.hps i = none
  brk : s.brk = 0
  spares : s.spares = 0

/-- Blocks from `malloc` are not `NULL` and do not overlap. -/
structure Blocks (mem spare : Nat → Nat) : Prop where
  ne_zero : ∀ k, mem k ≠ 0
  apart : ∀ k l, k ≠ l → mem k + totalSize ≤ mem l ∨ mem l + totalSize ≤ mem k
  mallocs : Mallocs spare
  spare_apart : ∀ k l, spare k + nodeSize ≤ mem l ∨ mem l + totalSize ≤ spare k

/-! ## The loop -/

structure Allocated (mem : Nat → Nat) (s : Mem n) (m : Nat) (r : Mem n × Option Nat) : Prop where
  brk : r.1.brk = m
  head : Linked r.1.next r.2 (List.range m).reverse
  free : ∀ e < m, r.1.free e = entriesPerCache
  ptrs : ∀ e < m, ∀ j, r.1.ptrs e j = ⟨mem e + j * nodeSize, false⟩
  entryHead : r.1.entryHead = s.entryHead
  hps : r.1.hps = s.hps
  spare : r.1.spare = s.spare
  spares : r.1.spares = s.spares
  reclaim : r.1.reclaim = s.reclaim
  toProcess : r.1.toProcess = s.toProcess

theorem allocated (mem : Nat → Nat) (hs : s.brk = 0) (m : Nat) : Allocated mem s m (allocEntries mem s m) := by
  induction m with
  | zero => exact ⟨hs, rfl, fun _ h => absurd h (Nat.not_lt_zero _), fun _ h => absurd h (Nat.not_lt_zero _), rfl, rfl, rfl, rfl, rfl, rfl⟩
  | succ m ih =>
    unfold allocEntries at ih ⊢
    rw [List.range_succ, List.foldl_append]
    generalize (List.range m).foldl (fun r i => ((allocEntry r.1 (mem i)).setNext r.1.brk r.2, some r.1.brk)) (s, none) = r at ih
    have hb := ih.brk
    refine ⟨congrArg (· + 1) hb, ?_, fun e he => ?_, fun e he j => ?_, ih.entryHead, ih.hps, ih.spare, ih.spares, ih.reclaim, ih.toProcess⟩
    · rw [List.range_succ, List.reverse_append]
      refine ⟨congrArg some hb, ?_⟩
      change Linked (Function.update (Function.update r.1.next r.1.brk none) r.1.brk r.2)
        (Function.update (Function.update r.1.next r.1.brk none) r.1.brk r.2 m) (List.range m).reverse
      rw [hb, Function.update_self]
      refine ih.head.congr fun e he => ?_
      have hne : e ≠ m := by
        have := List.mem_range.1 (List.mem_reverse.1 he)
        omega
      rw [Function.update_of_ne hne, Function.update_of_ne hne]
    · change Function.update r.1.free r.1.brk entriesPerCache e = _
      rw [hb]
      by_cases h : e = m
      · rw [h, Function.update_self]
      · rw [Function.update_of_ne h, ih.free e (by omega)]
    · change Function.update r.1.ptrs r.1.brk (fun j => ⟨mem m + j * nodeSize, false⟩) e j = _
      rw [hb]
      by_cases h : e = m
      · rw [h, Function.update_self]
      · rw [Function.update_of_ne h, ih.ptrs e (by omega)]

/-! ## The bookkeeping before the first step -/

/-- The object `a` lies in block `e`. -/
def InBlock (mem : Nat → Nat) (m e a : Nat) : Prop := e < m ∧ ∃ j < entriesPerCache, mem e + j * nodeSize = a

theorem InBlock.bounds {e a : Nat} (h : InBlock mem m e a) : mem e ≤ a ∧ a + nodeSize ≤ mem e + totalSize := by
  obtain ⟨-, j, hj, rfl⟩ := h
  have : j + 1 ≤ 126 := hj
  refine ⟨Nat.le_add_right _ _, ?_⟩
  unfold totalSize nodeSize entriesPerCache
  omega

theorem InBlock.unique {spare : Nat → Nat} (hb : Blocks mem spare) {d e a : Nat} (h : InBlock mem m d a) (h' : InBlock mem m e a) : d = e := by
  by_contra hne
  have h1 := h.bounds
  have h2 := h'.bounds
  have h3 := hb.apart d e hne
  unfold nodeSize at h1 h2
  omega

open Classical in
/-- Every object is in its cache, every cache on `global->head`. -/
noncomputable def startGhost (n : Nat) (mem : Nat → Nat) (m : Nat) : Ghost n where
  place e := if e < m then .head else .raw
  spot a := if h : ∃ e, InBlock mem m e a then .cached h.choose else .away
  fill := []
  batch := []
  pool := (List.range m).reverse
  since := fun _ => ∅
  spoiled := fun _ => False
  warned := fun _ => 0
  window := fun _ => False

theorem start_spot {spare : Nat → Nat} (hb : Blocks mem spare) (a : Nat) (y : Spot n) :
    (startGhost n mem m).spot a = y ↔ (∃ e, y = .cached e ∧ InBlock mem m e a) ∨ (y = .away ∧ ∀ e, ¬ InBlock mem m e a) := by
  classical
  change (if h : ∃ e, InBlock mem m e a then Spot.cached h.choose else .away) = y ↔ _
  by_cases h : ∃ e, InBlock mem m e a
  · rw [dif_pos h]
    have hspec := h.choose_spec
    refine ⟨fun e => .inl ⟨_, e.symm, hspec⟩, ?_⟩
    rintro (⟨e, rfl, he⟩ | ⟨-, hnone⟩)
    · rw [hspec.unique hb he]
    · exact absurd hspec (hnone _)
  · rw [dif_neg h]
    refine ⟨fun e => .inr ⟨e.symm, fun e he => h ⟨e, he⟩⟩, ?_⟩
    rintro (⟨e, -, he⟩ | ⟨rfl, -⟩)
    · exact absurd ⟨e, he⟩ h
    · rfl

theorem start_place (mem : Nat → Nat) (m e : Nat) : (e < m ∧ (startGhost n mem m).place e = .head) ∨ (m ≤ e ∧ (startGhost n mem m).place e = .raw) := by
  obtain h | h := Nat.lt_or_ge e m
  · exact .inl ⟨h, if_pos h⟩
  · exact .inr ⟨h, if_neg (by omega)⟩

theorem start_stock (hb : Blocks mem s.spare) {free : Nat → Nat} {ptrs : Nat → Nat → Ptr} (hfree : ∀ e < m, free e = entriesPerCache)
    (hptrs : ∀ e < m, ∀ j, ptrs e j = ⟨mem e + j * nodeSize, false⟩) : Stock free ptrs (startGhost n mem m) := by
  have hspot := start_spot (n := n) (m := m) hb
  refine ⟨fun e he => ?_, fun e i d x k he => ?_, fun e he => ?_, fun e => ?_, fun e a ha => ?_⟩
  · obtain ⟨hlt, -⟩ | ⟨-, hp⟩ := start_place (n := n) mem m e
    · exact (hfree e hlt).le
    · exact absurd hp he
  · obtain ⟨-, hp⟩ | ⟨-, hp⟩ := start_place (n := n) mem m e <;> cases hp.symm.trans he
  · obtain ⟨hlt, hp⟩ | ⟨-, hp⟩ := start_place (n := n) mem m e
    · rw [hp, hfree e hlt]
      refine .mk (fun j _ hj => ⟨by rw [hptrs e hlt], ?_⟩) (fun j k _ _ _ _ h => ?_) fun p hp => ?_
      · rw [hptrs e hlt]
        exact (hspot _ _).2 (.inl ⟨e, rfl, hlt, j, hj, rfl⟩)
      · rw [hptrs e hlt, hptrs e hlt] at h
        have := congrArg Ptr.addr h
        simp only [nodeSize] at this
        omega
      · obtain ⟨htag, hp⟩ := hp
        obtain ⟨e', he', -, j, hj, ha⟩ | ⟨h, -⟩ := (hspot _ _).1 hp
        · obtain rfl := Spot.cached.inj he'
          exact ⟨j, Nat.zero_le j, hj, (hptrs e hlt j).trans (Ptr.eq_of_addr rfl htag ha)⟩
        · cases h
    · rw [hp] at he
      exact he.elim
  · have hkept : (startGhost n mem m).objects (.kept e) = ∅ := Set.eq_empty_of_forall_notMem fun p hp => by
      obtain ⟨e', h, -⟩ | ⟨h, -⟩ := (hspot _ _).1 hp.2 <;> cases h
    obtain ⟨-, hp⟩ | ⟨-, hp⟩ := start_place (n := n) mem m e
    · rw [hp, hkept]
      exact .empty (le_refl 0)
    · rw [hp, hkept]
      exact .empty (le_refl 0)
  · obtain ⟨e', he', hlt, -⟩ | ⟨h, -⟩ := (hspot _ _).1 ha
    · obtain rfl := Spot.cached.inj he'
      rw [show (startGhost n mem m).place e = .head from if_pos hlt]
      trivial
    · cases h

theorem start_born {spare : Nat → Nat} (hb : Blocks mem spare) (hbrk : s.brk = m) (hfree : ∀ e < m, s.free e = entriesPerCache)
    (hptrs : ∀ e < m, ∀ j, s.ptrs e j = ⟨mem e + j * nodeSize, false⟩) (a : Nat) : born s a = ((startGhost n mem m).spot a).life := by
  have hiff : (∃ e < s.brk, ∃ x < s.free e, s.ptrs e x = ⟨a, false⟩) ↔ ∃ e, InBlock mem m e a := by
    refine exists_congr fun e => ?_
    rw [hbrk]
    refine and_congr_right fun he => exists_congr fun x => ?_
    rw [hfree e he, hptrs e he]
    exact and_congr_right fun _ => ⟨congrArg Ptr.addr, fun h => Ptr.eq_of_addr rfl rfl h⟩
  unfold born
  by_cases h : ∃ e, InBlock mem m e a
  · obtain ⟨e, he⟩ := h
    rw [if_pos (hiff.2 ⟨e, he⟩), (start_spot (n := n) hb a (.cached e)).2 (.inl ⟨e, rfl, he⟩)]
    rfl
  · rw [if_neg fun h' => h (hiff.1 h'), (start_spot (n := n) hb a .away).2 (.inr ⟨rfl, fun e he => h ⟨e, he⟩⟩)]
    rfl

/-- The bookkeeping fits the memory that `init_allocator` leaves. -/
theorem start_shape (hs : Blank s) (hb : Blocks mem s.spare) (numEntries : Nat) :
    Shape (init_allocator mem numEntries s) (startGhost n mem (1 + numEntries / entriesPerCache)) := by
  have hspot := start_spot (n := n) (m := 1 + numEntries / entriesPerCache) hb
  have hplace := start_place (n := n) mem (1 + numEntries / entriesPerCache)
  have ha := allocated (n := n) (s := { s with numHPEntries := n * HPsPerThread, reclaim := ⟨none, 2⟩, toProcess := ⟨none, 2⟩ })
    mem hs.brk (1 + numEntries / entriesPerCache)
  unfold init_allocator initAllocator
  generalize 1 + numEntries / entriesPerCache = m at hspot hplace ha
  generalize allocEntries mem _ m = r at ha
  have hlinked : (startGhost n mem m).linked = ∅ := Set.eq_empty_of_forall_notMem fun a h => by
    obtain ⟨e', h, -⟩ | ⟨h, -⟩ := (hspot _ _).1 h <;> cases h
  have hretired : (startGhost n mem m).retired = ∅ := Set.eq_empty_of_forall_notMem fun a h => by
    obtain ⟨i, h⟩ | ⟨e, h, hw⟩ := h
    · obtain ⟨e', h, -⟩ | ⟨h, -⟩ := (hspot _ _).1 h <;> cases h
    · obtain ⟨-, hp⟩ | ⟨-, hp⟩ := hplace e <;> (rw [hp] at hw; exact hw)
  have hne : ∀ {e : Nat} {y : Place n}, y ≠ .head → y ≠ .raw → (startGhost n mem m).place e ≠ y := by
    rintro e y h1 h2 rfl
    obtain ⟨-, hp⟩ | ⟨-, hp⟩ := hplace e
    · exact h1 hp
    · exact h2 hp
  have hdue : ∀ a b, ¬ (startGhost n mem m).Due a b := by
    rintro a b ⟨e, d, -, h, -⟩
    obtain ⟨-, hp⟩ | ⟨-, hp⟩ := hplace e <;> (rw [hp] at h; cases h)
  have hr : r.1.reclaim = ⟨none, 2⟩ := ha.reclaim
  have ht : r.1.toProcess = ⟨none, 2⟩ := ha.toProcess
  have hclock : Clock r.1.reclaim r.1.toProcess (fun _ => initPhase) (startGhost n mem m).place := by
    rw [hr, ht]
    exact ⟨rfl, .inl rfl, fun _ => Nat.zero_le 2, fun _ => rfl, fun e d h => absurd h (hne (by simp) (by simp)),
      fun e i d x k h => absurd h (hne (by simp) (by simp))⟩
  have hqueues : Queues r.1.reclaim r.1.toProcess r.2 r.1.next (startGhost n mem m).place [] [] (List.range m).reverse := by
    rw [hr, ht]
    refine ⟨fun _ => rfl, fun _ => rfl, fun _ => rfl, fun h => absurd h (by decide), ha.head, .nil, .nil, List.nodup_reverse.2 List.nodup_range,
      fun e => ?_, fun e => ?_, fun e => ?_⟩
    · exact ⟨fun h => absurd h List.not_mem_nil, fun h => absurd h (hne (by simp) (by simp))⟩
    · exact ⟨fun h => absurd h List.not_mem_nil, fun ⟨d, h⟩ => absurd h (hne (by simp) (by simp))⟩
    · rw [List.mem_reverse, List.mem_range]
      obtain ⟨h, hp⟩ | ⟨h, hp⟩ := hplace e
      · exact ⟨fun _ => hp, fun _ => h⟩
      · exact ⟨fun h' => absurd h' (by omega), fun h' => by cases hp.symm.trans h'⟩
  have howners : Owners (fun _ => none) (fun _ => none) r.1.brk r.1.free (startGhost n mem m).place := by
    refine ⟨fun i e => ⟨fun h => absurd h (hne (by simp) (by simp)), fun h => by cases h⟩, fun i e h => (by cases h),
      fun i e h => absurd h (hne (by simp) (by simp)), fun e => ?_⟩
    rw [ha.brk]
    obtain ⟨h, hp⟩ | ⟨h, hp⟩ := hplace e
    · exact ⟨(fun h' => by cases hp.symm.trans h'), fun h' => absurd h' (by omega)⟩
    · exact ⟨fun _ => h, fun _ => hp⟩
  refine ⟨?_, hclock, hqueues, howners, start_stock hb ha.free ha.ptrs, fun j => ?_, fun j => ⟨?_, Nat.zero_le _⟩, fun j h => h.elim, ?_⟩
  · rw [hlinked, hretired]
    have hhead : ∀ b, r.1.entryHead b = NULL := fun b => by rw [ha.entryHead]; exact hs.entryHead b
    refine ⟨fun b => congrArg Ptr.tag (hhead b), fun l hl h => ?_, fun l l' hl hl' _ h => ?_, fun a h => h.elim⟩
    · cases l with
      | head b => exact absurd (congrArg Ptr.addr (hhead b)) h
      | next a => exact hl.elim
    · cases l with
      | head b => exact absurd (congrArg Ptr.addr (hhead b)) h
      | next a => exact hl.elim
  · rw [hlinked, hretired]
    exact ⟨le_refl _, fun a h => h.elim, fun _ => Set.empty_subset _, fun a h => h.elim, False.elim⟩
  · change initPhase * 2 ^ 8 / 2 ^ 8 ≤ 0
    decide
  · refine ⟨(hspot _ _).2 (.inr ⟨rfl, fun e h => ?_⟩), fun k _ => (hspot _ _).2 (.inr ⟨rfl, fun e h => ?_⟩)⟩
    · have := h.bounds
      have := hb.ne_zero e
      omega
    · change InBlock mem m e (r.1.spare k) at h
      rw [ha.spare] at h
      have h1 := h.bounds
      have h2 := hb.spare_apart k e
      change s.spare k + nodeSize ≤ mem e ∨ _ ≤ s.spare k at h2
      unfold nodeSize at h1 h2
      change mem e ≤ s.spare k ∧ s.spare k + 32 ≤ mem e + totalSize at h1
      omega

/-- Nothing has happened yet. -/
theorem start_inv (hs : Blank s) (hb : Blocks mem s.spare) (numEntries : Nat) :
    Inv ⟨init_allocator mem numEntries s, [], startGhost n mem (1 + numEntries / entriesPerCache)⟩ := by
  have hS := start_shape hs hb numEntries
  have hspot := start_spot (n := n) (m := 1 + numEntries / entriesPerCache) hb
  have hplace := start_place (n := n) mem (1 + numEntries / entriesPerCache)
  have ha := allocated (n := n) (s := { s with numHPEntries := n * HPsPerThread, reclaim := ⟨none, 2⟩, toProcess := ⟨none, 2⟩ })
    mem hs.brk (1 + numEntries / entriesPerCache)
  refine ⟨hS, ?_, fun a => congrArg some ?_, fun i a => ⟨False.elim, fun h => ?_⟩, fun e => ?_, fun a h => h.elim, fun i h => h.elim, ?_⟩
  · change Mallocs (allocEntries mem _ _).1.spare
    rw [ha.spare]
    exact hb.mallocs
  · exact start_born hb (s := init_allocator mem numEntries s) ha.brk ha.free ha.ptrs a
  · obtain ⟨e', h, -⟩ | ⟨h, -⟩ := (hspot _ _).1 h <;> cases h
  · change none = ((startGhost n mem _).place e).desk
    obtain ⟨-, hp⟩ | ⟨-, hp⟩ := hplace e <;> (rw [hp]; rfl)
  · have hr : (init_allocator mem numEntries s).reclaim = ⟨none, 2⟩ := ha.reclaim
    have ht : (init_allocator mem numEntries s).toProcess = ⟨none, 2⟩ := ha.toProcess
    refine ⟨trivial, ht ▸ le_refl 2, fun h => ?_, fun v => ?_, fun e => .inl rfl, fun r hr => absurd hr List.not_mem_nil,
      fun r hr => absurd hr List.not_mem_nil⟩
    · rw [hr] at h
      cases h
    · rw [ht]
      change 0 = if v % 2 = 0 ∧ 2 < v ∧ v ≤ 2 then 1 else 0
      rw [if_neg (by omega)]

/-- The lists are empty. -/
theorem start_chains (hs : Blank s) (hb : Blocks mem s.spare) (numEntries : Nat) (headOf : CInt → Nat) :
    Chains headOf (init_allocator mem numEntries s) (startGhost n mem (1 + numEntries / entriesPerCache)).linked ∧
      (init_allocator mem numEntries s).keys headOf = ∅ := by
  have ha := allocated (n := n) (s := { s with numHPEntries := n * HPsPerThread, reclaim := ⟨none, 2⟩, toProcess := ⟨none, 2⟩ })
    mem hs.brk (1 + numEntries / entriesPerCache)
  have hhead : ∀ b, (init_allocator mem numEntries s).entryHead b = NULL := fun b => (congrFun ha.entryHead b).trans (hs.entryHead b)
  have hlinked : (startGhost n mem (1 + numEntries / entriesPerCache)).linked = ∅ := Set.eq_empty_of_forall_notMem fun a h => by
    obtain ⟨e', h, -⟩ | ⟨h, -⟩ := (start_spot hb _ _).1 h <;> cases h
  have hc : Chains headOf (init_allocator mem numEntries s) (startGhost n mem (1 + numEntries / entriesPerCache)).linked := by
    refine ⟨fun _ => [], ⟨fun b => congrArg Ptr.tag (hhead b), fun b => congrArg Ptr.addr (hhead b), fun b => List.pairwise_singleton _ _,
      fun b a h => absurd h List.not_mem_nil⟩, fun b a => ?_⟩
    rw [hlinked]
    exact iff_of_false List.not_mem_nil fun h => h.1
  refine ⟨hc, Set.eq_empty_of_forall_notMem fun k hk => ?_⟩
  obtain ⟨a, ha, -⟩ := hc.mem_keys.1 hk
  rw [hlinked] at ha
  exact ha

/-- A thread before its first task. -/
theorem start_idle (hs : Blank s) (hb : Blocks mem s.spare) (numEntries : Nat) (i : Fin n) :
    Idle i True ∅ (init_allocator mem numEntries s) (startGhost n mem (1 + numEntries / entriesPerCache)) := by
  have hS := start_shape hs hb numEntries
  have ha := allocated (n := n) (s := { s with numHPEntries := n * HPsPerThread, reclaim := ⟨none, 2⟩, toProcess := ⟨none, 2⟩ })
    mem hs.brk (1 + numEntries / entriesPerCache)
  have hr : (init_allocator mem numEntries s).reclaim = ⟨none, 2⟩ := ha.reclaim
  refine ⟨fun _ => NULL, fun _ _ _ => rfl, ?_, fun a => ⟨fun h => ?_, False.elim⟩, rfl, id, .inr (Set.empty_subset _), False.elim, False.elim,
    fun _ => .inl ?_⟩
  · funext e
    exact sheet_eq_none (by
      obtain ⟨-, hp⟩ | ⟨-, hp⟩ := start_place (n := n) mem (1 + numEntries / entriesPerCache) e <;> (rw [hp]; simp [Place.owner]))
  · obtain ⟨e', h, -⟩ | ⟨h, -⟩ := (start_spot hb _ _).1 h <;> cases h
  · rw [hr]
    exact Nat.zero_lt_two

end OptimisticAccess.MOA
