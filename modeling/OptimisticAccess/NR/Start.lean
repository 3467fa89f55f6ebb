import Mathlib.Algebra.Order.BigOperators.Group.List
import OptimisticAccess.NR.Refine

/-!
# The runs of the list over `allocatorNR.c`

`init_allocator` carves the chunks into blocks of a full cache each. From there on every object
is handed out at most once, none is lost, and the list behaves as it does over an allocator that
hands out a fixed stream of objects.
-/

namespace OptimisticAccess.NR

open Conc Prog
open AOA (AllocEntry VerEntry Popped entriesPerCache nodeSize chunkSize headerSize)

variable {n : Nat}

/-! ## The first memory -/

/-- What pushing the blocks of `l` onto the empty stack of `s₀` makes of it. -/
structure Pushed (s₀ : Mem n) (l : List Nat) (s : Mem n) : Prop where
  brk : s.brk = l.length
  linked : Linked (next s) s.head.head (List.range l.length).reverse
  entry : ∀ e b, l[e]? = some b → ∃ d, s.entries e = ⟨d, entriesPerCache, fun j => ⟨b + j * nodeSize, false⟩⟩
  ver : s.head.ver = s₀.head.ver
  rest : s = { s₀ with head := s.head, entries := s.entries, brk := s.brk }

theorem Pushed.push {s₀ s : Mem n} {l : List Nat} (h : Pushed s₀ l s) (b : Nat) : Pushed s₀ (l ++ [b]) (s.pushEntry b) := by
  have hnew : (s.pushEntry b).entries s.brk = ⟨s.head.head, entriesPerCache, fun j => ⟨b + j * nodeSize, false⟩⟩ := by
    simp only [Mem.pushEntry, Mem.setEntry_self, Mem.createEntry_new]
  have hold : ∀ e < l.length, (s.pushEntry b).entries e = s.entries e := by
    intro e he
    rw [← h.brk] at he
    simp only [Mem.pushEntry, Mem.setEntry_of_ne _ (Nat.ne_of_lt he), Mem.createEntry_old _ _ he]
  refine ⟨?_, ?_, ?_, h.ver, ?_⟩
  · rw [List.length_append, ← h.brk]
    rfl
  · rw [List.length_append, List.length_singleton, List.range_succ, List.reverse_append]
    refine ⟨congrArg some h.brk, ?_⟩
    have hnext : next (s.pushEntry b) l.length = s.head.head := by rw [next, ← h.brk, hnew]
    rw [hnext]
    refine h.linked.congr fun e he => congrArg AllocEntry.next (hold e ?_)
    exact List.mem_range.1 (List.mem_reverse.1 he)
  · intro e c hc
    rcases Nat.lt_or_ge e l.length with hlt | hge
    · rw [List.getElem?_append_left hlt] at hc
      rw [hold e hlt]
      exact h.entry e c hc
    · rw [List.getElem?_append_right hge] at hc
      obtain ⟨he, hbc⟩ := List.getElem?_eq_some_iff.1 hc
      obtain rfl : e = s.brk := by
        simp only [List.length_singleton] at he
        have hbrk := h.brk
        omega
      simp only [List.getElem_singleton] at hbc
      exact ⟨s.head.head, hbc ▸ hnew⟩
  · have hrest := h.rest
    rw [hrest]
    rfl

theorem pushed_foldl (s₀ : Mem n) (hbrk : s₀.brk = 0) (hhead : s₀.head.head = none) (l : List Nat) :
    Pushed s₀ l (l.foldl Mem.pushEntry s₀) := by
  induction l using List.reverseRecOn with
  | nil => exact ⟨hbrk, hhead, fun _ _ h => absurd (List.getElem?_nil.symm.trans h) (Option.some_ne_none _).symm, rfl, rfl⟩
  | append_singleton l b ih =>
    rw [List.foldl_append]
    exact ih.push b

def blockSize : Nat := entriesPerCache * nodeSize

/-- Two pieces of memory of `size` bytes do not overlap. -/
def Clear (size a b : Nat) : Prop := a + size ≤ b ∨ b + size ≤ a

/-- What `posix_memalign` and `malloc` promise: the pieces of memory they return do not overlap. -/
structure Fresh (memalign malloc : Nat → Nat) (numEntries : Nat) : Prop where
  chunks : ∀ k < AOA.Pool.numChunks nodeSize numEntries, ∀ l < AOA.Pool.numChunks nodeSize numEntries, k ≠ l →
    Clear chunkSize (memalign k) (memalign l)
  blocks : ∀ k l, k ≠ l → Clear blockSize (malloc k) (malloc l)
  cross : ∀ k < AOA.Pool.numChunks nodeSize numEntries, ∀ l,
    memalign k + chunkSize ≤ malloc l ∨ malloc l + blockSize ≤ memalign k
  malloc_ne : ∀ k, malloc k ≠ 0

/-- The blocks in the order they are divided: those of the chunks, then what `malloc` returns. -/
def blockAddr (l : List Nat) (malloc : Nat → Nat) (b : Nat) : Nat := l[b]?.getD (malloc (b - l.length))

variable {memalign malloc : Nat → Nat} {numEntries : Nat}

theorem carved_eq : carved memalign numEntries =
    (List.range (AOA.Pool.numChunks nodeSize numEntries)).flatMap fun k => AOA.chunkCaches (memalign k) :=
  congrArg (List.flatMap · _) (funext fun k => AOA.Pool.carve_chunk (memalign k))

theorem mem_carved {b : Nat} : b ∈ carved memalign numEntries ↔
    ∃ k < AOA.Pool.numChunks nodeSize numEntries, ∃ t < 129, b = memalign k + 4096 + t * 4032 := by
  simp only [carved_eq, List.mem_flatMap, List.mem_range, AOA.Pool.mem_chunkCaches]

theorem Fresh.carved_clear (h : Fresh memalign malloc numEntries) : (carved memalign numEntries).Pairwise (Clear blockSize) := by
  rw [carved_eq]
  refine List.pairwise_flatMap.2 ⟨fun k _ => ?_, List.pairwise_lt_range.imp_of_mem fun {k l} hk hl hlt x hx y hy => ?_⟩
  · refine List.pairwise_map.2 (List.pairwise_lt_range.imp fun {s t} hst => .inl ?_)
    simp only [blockSize, show entriesPerCache * nodeSize = 4032 from rfl]
    omega
  · have hclear := h.chunks k (List.mem_range.1 hk) l (List.mem_range.1 hl) (Nat.ne_of_lt hlt)
    obtain ⟨s, hs, rfl⟩ := AOA.Pool.mem_chunkCaches.1 hx
    obtain ⟨t, ht, rfl⟩ := AOA.Pool.mem_chunkCaches.1 hy
    simp only [Clear, blockSize, show chunkSize = 524288 from rfl, show entriesPerCache * nodeSize = 4032 from rfl] at hclear ⊢
    omega

theorem Clear.symm {size a b : Nat} (h : Clear size a b) : Clear size b a := Or.symm h

theorem blockAddr_lt {l : List Nat} {b : Nat} (h : b < l.length) : blockAddr l malloc b = l[b] := by
  rw [blockAddr, List.getElem?_eq_getElem h, Option.getD_some]

theorem blockAddr_ge {l : List Nat} {b : Nat} (h : l.length ≤ b) : blockAddr l malloc b = malloc (b - l.length) := by
  rw [blockAddr, List.getElem?_eq_none h, Option.getD_none]

theorem Fresh.clear (h : Fresh memalign malloc numEntries) {b c : Nat} (hbc : b < c) :
    Clear blockSize (blockAddr (carved memalign numEntries) malloc b) (blockAddr (carved memalign numEntries) malloc c) := by
  rcases Nat.lt_or_ge c (carved memalign numEntries).length with hc | hc
  · rw [blockAddr_lt (hbc.trans hc), blockAddr_lt hc]
    exact List.pairwise_iff_getElem.1 h.carved_clear b c _ hc hbc
  · rw [blockAddr_ge hc]
    rcases Nat.lt_or_ge b (carved memalign numEntries).length with hb | hb
    · rw [blockAddr_lt hb]
      obtain ⟨k, hk, t, ht, he⟩ := mem_carved.1 (List.getElem_mem hb)
      have hcross := h.cross k hk (c - (carved memalign numEntries).length)
      simp only [Clear, blockSize, he, show chunkSize = 524288 from rfl, show entriesPerCache * nodeSize = 4032 from rfl] at hcross ⊢
      omega
    · rw [blockAddr_ge hb]
      exact h.blocks _ _ (by omega)

theorem Fresh.apart (h : Fresh memalign malloc numEntries) : Apart (blockAddr (carved memalign numEntries) malloc) := by
  intro b c hbc
  rcases Nat.lt_or_gt_of_ne hbc with hlt | hlt
  · exact h.clear hlt
  · exact (h.clear hlt).symm

theorem Fresh.ne_zero (h : Fresh memalign malloc numEntries) (b : Nat) : blockAddr (carved memalign numEntries) malloc b ≠ 0 := by
  rcases Nat.lt_or_ge b (carved memalign numEntries).length with hb | hb
  · rw [blockAddr_lt hb]
    obtain ⟨k, -, t, -, he⟩ := mem_carved.1 (List.getElem_mem hb)
    omega
  · rw [blockAddr_ge hb]
    exact h.malloc_ne _

theorem pushed_init (n : Nat) (memalign malloc : Nat → Nat) (numEntries : Nat) (node : Nat → Entry) :
    Pushed (zeroMem n malloc node) (carved memalign numEntries) (init_allocator n memalign malloc numEntries node) :=
  pushed_foldl (zeroMem n malloc node) rfl rfl (carved memalign numEntries)

/-- The ghost state at the start: block `b` belongs to descriptor `b`. -/
def startGhost (n m : Nat) : Ghost n := ⟨(List.range m).reverse, fun _ => none, id, fun _ => none⟩

theorem start_inv (memalign malloc : Nat → Nat) (numEntries : Nat) (node : Nat → Entry) :
    Inv (blockAddr (carved memalign numEntries) malloc) (carved memalign numEntries).length
      (⟨init_allocator n memalign malloc numEntries node, [], startGhost n (carved memalign numEntries).length⟩ : W n) := by
  have h := pushed_init n memalign malloc numEntries node
  have hbrk := h.brk
  have hcaches : (init_allocator n memalign malloc numEntries node).alloc_cache = fun _ => none := congrArg Mem.alloc_cache h.rest
  have hmallocs : (init_allocator n memalign malloc numEntries node).mallocs = 0 := congrArg Mem.mallocs h.rest
  have hmalloc : (init_allocator n memalign malloc numEntries node).malloc = malloc := congrArg Mem.malloc h.rest
  have hentry : ∀ e < (carved memalign numEntries).length, ((init_allocator n memalign malloc numEntries node).entries e).free = entriesPerCache ∧
      ∀ k, ((init_allocator n memalign malloc numEntries node).entries e).ptrs k = object (blockAddr (carved memalign numEntries) malloc) e k := by
    intro e he
    obtain ⟨d, hd⟩ := h.entry e _ (List.getElem?_eq_getElem he)
    rw [hd]
    exact ⟨rfl, fun k => by rw [object, blockAddr_lt he]⟩
  refine ⟨h.ver, fun i => congrFun (congrArg Mem.localVer h.rest) i, fun k => ?_, h.linked, List.nodup_reverse.2 List.nodup_range, fun e => ?_, fun e i he => ?_,
    fun i e he => ?_, fun e he => ?_, fun e he k _ => ?_, fun e he => ?_, fun e _ d _ hed => hed, fun b i hb => ?_, fun b hb => ?_,
    fun _ => hmallocs, fun e i he => ?_, List.nodup_nil, fun x => ?_⟩
  · rw [hmalloc, blockAddr_ge (Nat.le_add_right ..), Nat.add_sub_cancel_left]
  · simp [startGhost, hbrk]
  · cases he
  · rw [hcaches] at he
    cases he
  · exact (hentry e (hbrk ▸ he)).1.le
  · exact (hentry e (hbrk ▸ he)).2 k
  · exact Nat.lt_add_right _ (hbrk ▸ he)
  · cases hb
  · exact ⟨b, hbrk.symm ▸ hb, rfl⟩
  · cases he
  · refine ⟨fun hx => absurd hx List.not_mem_nil, fun hx => ?_⟩
    obtain ⟨e, he, k, hk, hk', -⟩ := hx
    rw [(hentry e (hbrk ▸ he)).1] at hk
    exact absurd hk' (Nat.not_lt.2 hk)

/-! ## The stream of a run -/

/-- A stream that starts with `l`. -/
def extend (l : List Nat) (k : Nat) : Nat := l[k]?.getD (l.sum + 1 + k)

theorem extend_lt {l : List Nat} {k : Nat} (h : k < l.length) : extend l k = l[k] := by
  rw [extend, List.getElem?_eq_getElem h, Option.getD_some]

theorem extend_ge {l : List Nat} {k : Nat} (h : l.length ≤ k) : extend l k = l.sum + 1 + k := by
  rw [extend, List.getElem?_eq_none h, Option.getD_none]

theorem extend_injective {l : List Nat} (hl : l.Nodup) : Function.Injective (extend l) := by
  intro j k h
  rcases Nat.lt_or_ge j l.length with hj | hj <;> rcases Nat.lt_or_ge k l.length with hk | hk
  · rw [extend_lt hj, extend_lt hk] at h
    exact (hl.getElem_inj_iff).1 h
  · rw [extend_lt hj, extend_ge hk] at h
    have hle := List.le_sum_of_mem (List.getElem_mem hj)
    omega
  · rw [extend_ge hj, extend_lt hk] at h
    have hle := List.le_sum_of_mem (List.getElem_mem hk)
    omega
  · rw [extend_ge hj, extend_ge hk] at h
    omega

theorem extend_ne {l : List Nat} (hl : 0 ∉ l) (k : Nat) : extend l k ≠ 0 := by
  rcases Nat.lt_or_ge k l.length with hk | hk
  · rw [extend_lt hk]
    exact fun h => hl (h ▸ List.getElem_mem hk)
  · rw [extend_ge hk]
    omega

/-- The addresses handed out, the first one first. -/
def stream (log : Log n) : List Nat := (served log).reverse.map Ptr.addr

/-- A run serves what a stream that starts with its addresses says. -/
theorem along_serves {pool : Nat → Nat} {log : Log n} (h : ∀ k a, (stream log)[k]? = some a → pool k = a) :
    Along (Serves pool) log := by
  induction log with
  | nil => trivial
  | cons r log ih =>
    by_cases hr : ∃ x, r.ev = some (.served x)
    · obtain ⟨x, hx⟩ := hr
      have hstream : stream (r :: log) = stream log ++ [x.addr] := by
        rw [stream, served_cons_some hx, List.reverse_cons, List.map_append, stream, List.map_singleton]
      rw [hstream] at h
      refine ⟨ih fun k a hk => h k a ?_, fun y hy => ?_⟩
      · rw [List.getElem?_append_left (List.getElem?_eq_some_iff.1 hk).1]
        exact hk
      · obtain rfl : x = y := by
          rw [hx] at hy
          injection hy with hy
          injection hy
        refine h _ _ ?_
        have hlen : (stream log).length = (served log).length := by rw [stream, List.length_map, List.length_reverse]
        rw [← hlen, List.getElem?_append_right (Nat.le_refl _), Nat.sub_self]
        rfl
    · have hnone : r.ev.bind Ev.servedObj = none := by
        obtain ⟨i, s, ev, s'⟩ := r
        cases ev with
        | none => rfl
        | some e =>
          cases e with
          | served x => exact absurd ⟨x, rfl⟩ hr
          | _ => rfl
      refine ⟨ih ?_, fun x hx => absurd ⟨x, hx⟩ hr⟩
      rwa [stream, served_cons hnone] at h

/-! ## Runs -/

section Runs

variable (node : Nat → Entry) (hashOp : Bool) (fuel : Fin n → Nat) (ops : Fin n → List Op) {c : Cfg (Fin n) (Mem n) Ev}

/-- A run keeps the invariant of the pool and has the history of a run over the stream of what it served. -/
theorem reach_simulated (hfresh : Fresh memalign malloc numEntries)
    (hc : Cfg.Reach (.init (init_allocator n memalign malloc numEntries node) fun i => client hashOp i (fuel i) (ops i)) c) :
    ∃ g a, Inv (blockAddr (carved memalign numEntries) malloc) (carved memalign numEntries).length ⟨c.mem, c.log, g⟩ ∧
      Cfg.Reach (.init ⟨NULL, node, extend (stream c.log), 0⟩ fun i => NoRecl.client hashOp (fuel i) (ops i)) a ∧
      a.mem = ⟨c.mem.entryHead, c.mem.node, extend (stream c.log), (served c.log).length⟩ ∧
      history Ev.ofList c.log = history some a.log := by
  have hrest := (pushed_init n memalign malloc numEntries node).rest
  have hthr : ∀ i, (simulation (blockAddr (carved memalign numEntries) malloc) (carved memalign numEntries).length (extend (stream c.log))
      (.init ⟨NULL, node, extend (stream c.log), 0⟩ fun i => NoRecl.client hashOp (fuel i) (ops i))).Refines i (Ready i)
      (client hashOp i (fuel i) (ops i)) (NoRecl.client hashOp (fuel i) (ops i)) fun _ _ => True :=
    fun i => (client_refines hfresh.apart hashOp (fuel i) (ops i)).post fun _ _ _ => trivial
  have hrel : (⟨NULL, node, extend (stream c.log), 0⟩ : NoRecl.Mem) =
      ⟨(init_allocator n memalign malloc numEntries node).entryHead, (init_allocator n memalign malloc numEntries node).node,
        extend (stream c.log), 0⟩ :=
    congrArg₂ (fun head node => NoRecl.Mem.mk head node (extend (stream c.log)) 0) (congrArg Mem.entryHead hrest).symm
      (congrArg Mem.node hrest).symm
  have hready : ∀ i, Ready i (⟨init_allocator n memalign malloc numEntries node, [],
      startGhost n (carved memalign numEntries).length⟩ : W n) :=
    fun i => (congrFun (congrArg Mem.alloc_cache hrest) i).symm
  have hserves : Along (Serves (extend (stream c.log))) c.log := along_serves fun k a hk => by rw [extend, hk, Option.getD_some]
  exact Simulation.adequacy (S := simulation _ _ (extend (stream c.log)) (.init ⟨NULL, node, extend (stream c.log), 0⟩
    fun i => NoRecl.client hashOp (fuel i) (ops i))) hc hserves (start_inv memalign malloc numEntries node) hrel rfl hready hthr

/-- Cache `e` is on the stack, or a thread works with it or is about to. -/
def Held (c : Cfg (Fin n) (Mem n) Ev) (e : Nat) : Prop :=
  (∃ stack, Linked (next c.mem) c.mem.head.head stack ∧ e ∈ stack) ∨ ∃ i, c.mem.alloc_cache i = some e ∨ got i c.log = some e

/-- What became of the objects of the blocks `l`: no two that were handed out overlap, each lies in a block of
`l` or in one of `malloc`, and an object of `l` that was not handed out is still in a cache that can be reached.
`malloc` is called on an empty stack only. -/
structure Conserved (l : List Nat) (c : Cfg (Fin n) (Mem n) Ev) : Prop where
  once : (served c.log).Pairwise fun x y => Clear nodeSize x.addr y.addr
  valid : ∀ x ∈ served c.log, x.tag = false ∧ ∃ b, (b ∈ l ∨ ∃ j < c.mem.mallocs, b = c.mem.malloc j) ∧
    ∃ k < entriesPerCache, x.addr = b + k * nodeSize
  kept : ∀ b ∈ l, ∀ k < entriesPerCache, (⟨b + k * nodeSize, false⟩ : Ptr) ∉ served c.log →
    ∃ e, Held c e ∧ ∃ j < (c.mem.entries e).free, (c.mem.entries e).ptrs j = ⟨b + k * nodeSize, false⟩
  dry : c.mem.head.head ≠ none → c.mem.mallocs = 0

theorem Apart.object_clear {addr : Nat → Nat} {b c k l : Nat} (h : Apart addr) (hk : k < entriesPerCache) (hl : l < entriesPerCache)
    (hne : object addr b k ≠ object addr c l) : Clear nodeSize (object addr b k).addr (object addr c l).addr := by
  simp only [object, Clear, show entriesPerCache = 126 from rfl, show nodeSize = 32 from rfl] at hk hl hne ⊢
  by_cases hbc : b = c
  · subst hbc
    have hkl : k ≠ l := fun h => hne (by rw [h])
    omega
  · have hap := h b c hbc
    simp only [show entriesPerCache = 126 from rfl, show nodeSize = 32 from rfl] at hap
    omega

theorem Inv.conserved {l : List Nat} {g : Ghost n} (hapart : Apart (blockAddr l malloc))
    (hI : Inv (blockAddr l malloc) l.length ⟨c.mem, c.log, g⟩) : Conserved l c := by
  refine ⟨hI.once.imp_of_mem fun {x y} hx hy hne => ?_, fun x hx => ?_, fun b hb k hk hx => ?_, hI.dry⟩
  · obtain ⟨e, -, j, -, hj, rfl⟩ := (hI.spent x).1 hx
    obtain ⟨d, -, k, -, hk, rfl⟩ := (hI.spent y).1 hy
    exact hapart.object_clear hj hk hne
  · obtain ⟨e, he, k, -, hk, rfl⟩ := (hI.spent x).1 hx
    refine ⟨rfl, _, ?_, k, hk, rfl⟩
    rcases Nat.lt_or_ge (g.block e) l.length with hlt | hge
    · rw [blockAddr_lt hlt]
      exact .inl (List.getElem_mem hlt)
    · have hblock := hI.block e he
      refine .inr ⟨g.block e - l.length, by simp only at hblock; omega, ?_⟩
      rw [hI.malloc, Nat.add_sub_cancel' hge]
  · obtain ⟨t, ht, rfl⟩ := List.getElem_of_mem hb
    obtain ⟨e, he, rfl⟩ := hI.divided t ht
    have hobj : (⟨l[g.block e] + k * nodeSize, false⟩ : Ptr) = object (blockAddr l malloc) (g.block e) k := by
      rw [object, blockAddr_lt ht]
    have hlt : k < (c.mem.entries e).free := by
      by_contra hge
      exact hx ((hI.spent _).2 ⟨e, he, k, Nat.not_lt.1 hge, hk, hobj⟩)
    refine ⟨e, ?_, k, hlt, (hI.ptrs e he k hk).trans hobj.symm⟩
    cases howner : g.owner e with
    | none => exact .inl ⟨g.stack, hI.linked, (hI.stack e).2 ⟨he, howner⟩⟩
    | some i =>
      rcases hI.kept e i howner with h | h | h
      · exact absurd hlt (h ▸ Nat.not_lt_zero k)
      · exact .inr ⟨i, .inl h⟩
      · exact .inr ⟨i, .inr h⟩

theorem stream_nodup {addr : Nat → Nat} {m : Nat} {g : Ghost n} (hI : Inv addr m ⟨c.mem, c.log, g⟩) : (stream c.log).Nodup := by
  refine (List.nodup_reverse.2 hI.once).map_on fun x hx y hy h => ?_
  obtain ⟨e, -, j, -, -, rfl⟩ := (hI.spent x).1 (List.mem_reverse.1 hx)
  obtain ⟨d, -, k, -, -, rfl⟩ := (hI.spent y).1 (List.mem_reverse.1 hy)
  exact Ptr.eq_of_addr rfl rfl h

theorem stream_ne {addr : Nat → Nat} {m : Nat} {g : Ghost n} (hI : Inv addr m ⟨c.mem, c.log, g⟩) (hne : ∀ b, addr b ≠ 0) :
    0 ∉ stream c.log := by
  intro h
  obtain ⟨x, hx, hx0⟩ := List.mem_map.1 h
  obtain ⟨e, -, k, -, -, rfl⟩ := (hI.spent x).1 (List.mem_reverse.1 hx)
  have h0 := hne (g.block e)
  simp only [object] at hx0
  omega

/-- **No object is handed out twice, and none is lost**, in every state of every run. -/
theorem reach_conserved (hfresh : Fresh memalign malloc numEntries)
    (hc : Cfg.Reach (.init (init_allocator n memalign malloc numEntries node) fun i => client hashOp i (fuel i) (ops i)) c) :
    Conserved (carved memalign numEntries) c := by
  obtain ⟨g, -, hI, -⟩ := reach_simulated node hashOp fuel ops hfresh hc
  exact hI.conserved hfresh.apart

/-- One chunk, followed by the blocks of `malloc`. -/
theorem fresh_chunk : Fresh (fun _ => chunkSize) (fun j => (2 * chunkSize) + j * blockSize) 100 where
  chunks k hk l hl hne := by
    simp only [show AOA.Pool.numChunks nodeSize 100 = 1 by decide] at hk hl
    omega
  blocks k l hne := by
    simp only [Clear, show blockSize = 4032 from rfl]
    omega
  cross k _ l := .inl (by omega)
  malloc_ne k := by simp only [show chunkSize = 524288 from rfl]; omega

theorem reach_conserved_two :
    Conserved (carved (fun _ => chunkSize) 100)
      ((Cfg.init (init_allocator 2 (fun _ => chunkSize) (fun j => (2 * chunkSize) + j * blockSize) 100 fun _ => ⟨0, NULL⟩) fun i =>
        client true i 9 (if i = 0 then [.insert 3 7, .delete 3] else [.insert 3 7])).exec [0, 1, 0, 0, 1, 0, 1, 1, 1, 1]) :=
  reach_conserved _ true (fun _ => 9) (fun i => if i = 0 then [.insert 3 7, .delete 3] else [.insert 3 7]) fresh_chunk ⟨_, rfl⟩

/-- Over some stream of objects that are all different, the list of `lfl-NoOrDelayRecl.c` has a run with the history and the
list of `c`, and that run is linearizable. -/
def LikeStream (node : Nat → Entry) (hashOp : Bool) (fuel : Fin n → Nat) (ops : Fin n → List Op) (c : Cfg (Fin n) (Mem n) Ev) : Prop :=
  ∃ (pool : Nat → Nat) (a : Cfg (Fin n) NoRecl.Mem NoRecl.Ev), NoRecl.Start ⟨NULL, node, pool, 0⟩ ∧
    Cfg.Reach (.init ⟨NULL, node, pool, 0⟩ fun i => NoRecl.client hashOp (fuel i) (ops i)) a ∧
    history Ev.ofList c.log = history some a.log ∧ a.mem.entryHead = c.mem.entryHead ∧ a.mem.node = c.mem.node ∧
    NoRecl.Linearizable a

/-- **The list over this allocator is a linearizable sorted set**: every run has the history and the list of a
run over a stream of objects that are all different. -/
theorem reach_refines (hfresh : Fresh memalign malloc numEntries)
    (hc : Cfg.Reach (.init (init_allocator n memalign malloc numEntries node) fun i => client hashOp i (fuel i) (ops i)) c) :
    LikeStream node hashOp fuel ops c := by
  obtain ⟨g, a, hI, ha, hmem, hhist⟩ := reach_simulated node hashOp fuel ops hfresh hc
  have hstart : NoRecl.Start ⟨NULL, node, extend (stream c.log), 0⟩ :=
    ⟨rfl, ⟨[], rfl, List.pairwise_singleton _ _, fun _ _ => List.not_mem_nil⟩, extend_injective (stream_nodup hI),
      extend_ne (stream_ne hI hfresh.ne_zero)⟩
  refine ⟨_, a, hstart, ha, hhist, congrArg NoRecl.Mem.entryHead hmem, congrArg NoRecl.Mem.node hmem, ?_⟩
  obtain ⟨g0, h0⟩ := hstart.inv (n := n)
  obtain ⟨g, hI⟩ := Proto.adequacy h0 (fun i => NoRecl.client_spec hstart.fresh hstart.pool_ne hashOp (fuel i) (ops i)) ha
    ((NoRecl.proto n _).allowed_of_forall (fun _ _ => trivial) _)
  obtain ⟨l, hw, hso, -⟩ := hI.shape.chain
  exact ⟨⟨l, hw, hso⟩, fun b hb hd => hI.shape.reach_of_linked (hI.inserted b hb) hd, hI.steps⟩

theorem reach_refines_two :
    LikeStream (fun _ => ⟨0, NULL⟩) true (fun _ => 9) (fun _ => [.insert 3 7])
      ((Cfg.init (init_allocator 2 (fun _ => chunkSize) (fun j => (2 * chunkSize) + j * blockSize) 100 fun _ => ⟨0, NULL⟩) fun i =>
        client true i 9 [.insert 3 7]).exec [0, 1, 0, 0, 1]) :=
  reach_refines _ true (fun _ => 9) (fun _ => [.insert 3 7]) fresh_chunk ⟨_, rfl⟩

end Runs

end OptimisticAccess.NR
