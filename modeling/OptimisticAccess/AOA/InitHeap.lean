import OptimisticAccess.AOA.Once

/-!
# `initAllocator`: the heap that was asked for

The number of chunks is computed from their payload, of 16256 objects each, but a chunk is carved
into full caches, of 16254 objects.
-/

namespace OptimisticAccess.AOA.Pool

open Conc Prog

variable {n : Nat}

/-- For a heap of at most `maxChunks` chunks the product fits an `int`. -/
def numChunks (entrySize numEntries : Nat) : Nat := 1 + numEntries * entrySize / payloadSize

/-- The `while` loop over a chunk: the addresses passed to `createEntry`. -/
def carve (entrySize : Nat) (hsize : 0 < entrySize) (endchunk curheap : Nat) : List Nat :=
  if curheap + entriesPerCache * entrySize ≤ endchunk then
    curheap :: carve entrySize hsize endchunk (curheap + entriesPerCache * entrySize)
  else []
termination_by endchunk - curheap
decreasing_by
  have hstep : 0 < entriesPerCache * entrySize := Nat.mul_pos (by decide) hsize
  omega

/-- `memalign i` is the `i`-th chunk that `posix_memalign` returns. -/
def initAllocator (n : Nat) (memalign : Nat → Nat) (numEntries : Nat) (rootLen : List Nat) : Mem n :=
  init_allocator n ((List.range (numChunks nodeSize numEntries)).map memalign) rootLen

theorem carve_eq (entrySize : Nat) (hsize : 0 < entrySize) (endchunk curheap m : Nat)
    (hlo : curheap + m * (entriesPerCache * entrySize) ≤ endchunk)
    (hhi : endchunk < curheap + (m + 1) * (entriesPerCache * entrySize)) :
    carve entrySize hsize endchunk curheap = (List.range m).map fun k => curheap + k * (entriesPerCache * entrySize) := by
  induction m generalizing curheap with
  | zero =>
    rw [carve, if_neg (by omega)]
    rfl
  | succ m ih =>
    rw [Nat.add_mul m 1] at hlo
    rw [Nat.add_mul (m + 1) 1, Nat.add_mul m 1] at hhi
    rw [carve, if_pos (by omega), ih _ (by omega) (by rw [Nat.add_mul]; omega), List.range_succ_eq_map, List.map_cons, List.map_map,
      Nat.zero_mul, Nat.add_zero]
    congr 1
    refine List.map_congr_left fun k _ => ?_
    simp only [Function.comp_apply, Nat.succ_eq_add_one, Nat.add_mul, Nat.one_mul]
    omega

/-- The carved addresses are the caches of the model. -/
theorem carve_chunk (c : Nat) : carve nodeSize (by decide) (c + chunkSize) (c + headerSize) = chunkCaches c :=
  carve_eq nodeSize _ _ _ (payloadSize / (entriesPerCache * nodeSize))
    (by simp only [show payloadSize / (entriesPerCache * nodeSize) * (entriesPerCache * nodeSize) = 520128 by decide,
      show chunkSize = 524288 from rfl, show headerSize = 4096 from rfl]; omega)
    (by simp only [show (payloadSize / (entriesPerCache * nodeSize) + 1) * (entriesPerCache * nodeSize) = 524160 by decide,
      show chunkSize = 524288 from rfl, show headerSize = 4096 from rfl]; omega)

/-- The objects in the caches of a list. -/
def stored (s : Mem n) (l : List Nat) : List Ptr := l.flatMap fun e => (List.range (s.entries e).free).map (s.entries e).ptrs

/-- The caches `l` on `head` hold `numEntries` objects, each aligned, in the payload of a chunk, and clear of the others. -/
structure Provides (s : Mem n) (numEntries : Nat) (l : List Nat) : Prop where
  linked : Linked (next s) s.head.head l
  enough : numEntries ≤ (stored s l).length
  placed : ∀ x ∈ stored s l, x.addr % nodeSize = 0 ∧
    ∃ c ∈ s.heapmem, c + headerSize ≤ x.addr ∧ x.addr + nodeSize ≤ c + chunkSize
  disjoint : (stored s l).Pairwise fun x y => x.addr + nodeSize ≤ y.addr ∨ y.addr + nodeSize ≤ x.addr

variable {heapmem rootLen : List Nat}

theorem mem_stored {s : Mem n} {l : List Nat} {x : Ptr} : x ∈ stored s l ↔ ∃ e ∈ l, ∃ k, Content s e k x := by
  simp only [stored, List.mem_flatMap, List.mem_map, List.mem_range, Content]

/-- The content of the first caches. -/
theorem init_entries (heapmem rootLen : List Nat) {e : Nat} (he : e ∈ initStack (initCaches heapmem).length) :
    ∃ m ∈ initCaches heapmem, ∃ h, (init_allocator n heapmem rootLen).entries e = createEntry m nodeSize h := by
  obtain ⟨t, ht, rfl⟩ := mem_initStack.1 he
  obtain ⟨-, -, hentries⟩ := init_pool (n := n) (initCaches heapmem) (zeroMem n heapmem rootLen) rfl rfl
  obtain ⟨h, hentry⟩ := hentries t _ (List.getElem?_eq_getElem ht)
  exact ⟨_, List.getElem_mem ht, h, hentry⟩

theorem init_placed (hheap : Heap heapmem) (rootLen : List Nat) {x : Ptr}
    (hx : x ∈ stored (init_allocator n heapmem rootLen) (initStack (initCaches heapmem).length)) :
    x.tag = false ∧ x.addr % nodeSize = 0 ∧ ∃ c ∈ heapmem, c + headerSize ≤ x.addr ∧ x.addr + nodeSize ≤ c + chunkSize := by
  obtain ⟨e, he, k, hk, rfl⟩ := mem_stored.1 hx
  obtain ⟨m, hm, h, hentry⟩ := init_entries (n := n) heapmem rootLen he
  obtain ⟨c, hc, hm⟩ := List.mem_flatMap.1 hm
  obtain ⟨t, ht, rfl⟩ := mem_chunkCaches.1 hm
  have ha := hheap.aligned c hc
  rw [hentry] at hk ⊢
  simp only [createEntry, show entriesPerCache = 126 from rfl] at hk
  simp only [show chunkSize = 524288 from rfl] at ha
  simp only [createEntry, show nodeSize = 32 from rfl, show headerSize = 4096 from rfl, show chunkSize = 524288 from rfl]
  exact ⟨trivial, by omega, c, hc, by omega, by omega⟩

theorem init_stored_nodup (hheap : Heap heapmem) (rootLen : List Nat) :
    (stored (init_allocator n heapmem rootLen) (initStack (initCaches heapmem).length)).Nodup := by
  obtain ⟨-, hfilled⟩ := init_filled (n := n) hheap rootLen
  have hinj : ∀ e ∈ initStack (initCaches heapmem).length, ∀ e' ∈ initStack (initCaches heapmem).length, ∀ k k' x,
      Content (init_allocator n heapmem rootLen) e k x → Content (init_allocator n heapmem rootLen) e' k' x → e = e' ∧ k = k' := by
    intro e he e' he' k k' x hx hx'
    have h := (hfilled e he k x hx).symm.trans (hfilled e' he' k' x hx')
    injection h with h
    injection h with he hk
    exact ⟨he, hk⟩
  have hnodup : (initStack (initCaches heapmem).length).Nodup :=
    (List.nodup_reverse.2 List.nodup_range).map fun _ _ => mallocEntry_inj
  refine List.nodup_flatMap.2 ⟨fun e he => ?_, hnodup.imp_of_mem fun {e e'} he he' hne => ?_⟩
  · refine List.nodup_range.map_on fun k hk k' hk' h => ?_
    exact (hinj e he e he k k' _ ⟨List.mem_range.1 hk, rfl⟩ ⟨List.mem_range.1 hk', h.symm⟩).2
  · intro x hx hx'
    obtain ⟨k, hk, rfl⟩ := List.mem_map.1 hx
    obtain ⟨k', hk', h⟩ := List.mem_map.1 hx'
    exact hne (hinj e he e' he' k k' _ ⟨List.mem_range.1 hk, rfl⟩ ⟨List.mem_range.1 hk', h⟩).1

theorem length_initCaches (heapmem : List Nat) : (initCaches heapmem).length = 129 * heapmem.length := by
  induction heapmem with
  | nil => rfl
  | cons c heapmem ih =>
    have hc : (chunkCaches c).length = 129 := by rw [chunkCaches, List.length_map, List.length_range]; decide
    rw [initCaches] at ih
    rw [initCaches, List.flatMap_cons, List.length_append, ih, hc, List.length_cons]
    omega

theorem length_init_stored (heapmem rootLen : List Nat) :
    (stored (init_allocator n heapmem rootLen) (initStack (initCaches heapmem).length)).length = 16254 * heapmem.length := by
  have hfree : ∀ e ∈ initStack (initCaches heapmem).length,
      ((List.range ((init_allocator n heapmem rootLen).entries e).free).map
        ((init_allocator n heapmem rootLen).entries e).ptrs).length = 126 := by
    intro e he
    obtain ⟨m, -, h, hentry⟩ := init_entries (n := n) heapmem rootLen he
    rw [List.length_map, List.length_range, hentry]
    rfl
  rw [stored, List.length_flatMap, List.map_congr_left hfree, List.map_const', List.sum_replicate_nat]
  simp only [initStack, List.length_map, List.length_reverse, List.length_range, length_initCaches]
  omega

theorem init_disjoint (hheap : Heap heapmem) (rootLen : List Nat) :
    (stored (init_allocator n heapmem rootLen) (initStack (initCaches heapmem).length)).Pairwise
      fun x y => x.addr + nodeSize ≤ y.addr ∨ y.addr + nodeSize ≤ x.addr := by
  refine (init_stored_nodup (n := n) hheap rootLen).imp_of_mem fun {x y} hx hy hne => ?_
  obtain ⟨htx, hax, -⟩ := init_placed (n := n) hheap rootLen hx
  obtain ⟨hty, hay, -⟩ := init_placed (n := n) hheap rootLen hy
  have haddr : x.addr ≠ y.addr := fun h => hne (Ptr.eq_of_addr htx hty h)
  simp only [show nodeSize = 32 from rfl] at hax hay ⊢
  omega

theorem heapmem_init_allocator (heapmem rootLen : List Nat) : (init_allocator n heapmem rootLen).heapmem = heapmem := by
  obtain ⟨entries, head, h⟩ := init_allocator_eq (n := n) heapmem rootLen
  rw [h]
  rfl

/-- The heap provides as many objects as the full caches of its chunks hold. -/
theorem exists_provides (hheap : Heap heapmem) (rootLen : List Nat) (numEntries : Nat) :
    (∃ l, Provides (init_allocator n heapmem rootLen) numEntries l) ↔ numEntries ≤ 16254 * heapmem.length := by
  have hlinked := (init_filled (n := n) hheap rootLen).1
  rw [← length_init_stored (n := n) heapmem rootLen]
  constructor
  · rintro ⟨l, hl⟩
    obtain rfl := hl.linked.unique hlinked
    exact hl.enough
  · intro henough
    refine ⟨_, hlinked, henough, fun x hx => ?_, init_disjoint hheap rootLen⟩
    obtain ⟨-, hplaced⟩ := init_placed (n := n) hheap rootLen hx
    rwa [heapmem_init_allocator]

/-- What `posix_memalign` promises of the first `m` chunks. -/
structure Memalign (memalign : Nat → Nat) (m : Nat) : Prop where
  aligned : ∀ i < m, memalign i % chunkSize = 0
  ne_zero : ∀ i < m, memalign i ≠ 0
  distinct : ∀ i < m, ∀ j < m, memalign i = memalign j → i = j

theorem Memalign.heap {memalign : Nat → Nat} {m : Nat} (h : Memalign memalign m) (hm : m ≤ maxChunks) :
    Heap ((List.range m).map memalign) where
  aligned c hc := by
    obtain ⟨i, hi, rfl⟩ := List.mem_map.1 hc
    exact h.aligned i (List.mem_range.1 hi)
  ne_zero c hc := by
    obtain ⟨i, hi, rfl⟩ := List.mem_map.1 hc
    exact h.ne_zero i (List.mem_range.1 hi)
  nodup := List.nodup_range.map_on fun i hi j hj => h.distinct i (List.mem_range.1 hi) j (List.mem_range.1 hj)
  length_le := by rwa [List.length_map, List.length_range]

/-- The heap has the capacity that was asked for unless the request comes close to a multiple of the payload. -/
theorem provides_iff (n : Nat) (memalign : Nat → Nat) (numEntries : Nat) (rootLen : List Nat)
    (hchunks : numChunks nodeSize numEntries ≤ maxChunks) (hmem : Memalign memalign (numChunks nodeSize numEntries)) :
    (∃ l, Provides (initAllocator n memalign numEntries rootLen) numEntries l) ↔
      numEntries % 16256 + 2 * (numEntries / 16256) ≤ 16254 := by
  have hdiv : numChunks nodeSize numEntries = 1 + numEntries / 16256 := by
    rw [numChunks, show payloadSize = 16256 * nodeSize by decide, Nat.mul_div_mul_right _ _ (by decide)]
  rw [initAllocator, exists_provides (hmem.heap hchunks), List.length_map, List.length_range, hdiv]
  omega

theorem memalign_mul (m : Nat) : Memalign (fun i => (i + 1) * chunkSize) m where
  aligned i _ := Nat.mul_mod_left _ _
  ne_zero i _ := Nat.mul_ne_zero (Nat.succ_ne_zero i) (by decide)
  distinct i _ j _ h := Nat.succ_inj.1 (Nat.eq_of_mul_eq_mul_right (by decide) h)

/-- The largest request that one chunk serves. -/
theorem provides_iff_one : ∃ l, Provides (initAllocator 1 (fun i => (i + 1) * chunkSize) 16254 [1]) 16254 l :=
  (provides_iff 1 (fun i => (i + 1) * chunkSize) 16254 [1] (by decide) (memalign_mul _)).2 (by decide)

/-- One object more still gets one chunk only. -/
theorem not_provides : ¬ ∀ (n : Nat) (memalign : Nat → Nat) (numEntries : Nat) (rootLen : List Nat),
    numChunks nodeSize numEntries ≤ maxChunks → Memalign memalign (numChunks nodeSize numEntries) →
      ∃ l, Provides (initAllocator n memalign numEntries rootLen) numEntries l := by
  intro hall
  have h := hall 1 (fun i => (i + 1) * chunkSize) 16255 [1] (by decide) (memalign_mul _)
  rw [initAllocator, exists_provides ((memalign_mul _).heap (by decide)), List.length_map, List.length_range] at h
  exact absurd h (by decide)

end OptimisticAccess.AOA.Pool
