import OptimisticAccess.Lib.Linked
import OptimisticAccess.NR.Alloc

/-!
# The pool of `allocatorNR.c`

The memory of the objects comes in blocks of a full cache each: `addr b` is the address of block
`b`, and the blocks below `m` are those of the chunks. Every descriptor divides a block of its own,
and it serves the block from the last object down, so the objects that have been handed out are
those at or above `free`. The stack only shrinks, which is why its head shows at once that a
descriptor has been there all along and that its `next` is the one read before.
-/

namespace OptimisticAccess.NR

open Conc Prog
open AOA (AllocEntry VerEntry Popped entriesPerCache nodeSize)

variable {n : Nat}

abbrev Log (n : Nat) := List (Rec (Fin n) (Mem n) Ev)

def Ev.servedObj : Ev → Option Ptr
  | .served x => some x
  | _ => none

def Ev.gotEntry : Ev → Option Nat
  | .popped e => some e
  | .created e => some e
  | _ => none

/-- The objects handed out, the last one first. -/
def served (log : Log n) : List Ptr := log.filterMap fun r => r.ev.bind Ev.servedObj

/-- The last cache that thread `i` has taken off the stack or made. -/
def got (i : Fin n) : Log n → Option Nat
  | [] => none
  | r :: log => if r.tid = i then (r.ev.bind Ev.gotEntry).or (got i log) else got i log

def object (addr : Nat → Nat) (b k : Nat) : Ptr := ⟨addr b + k * nodeSize, false⟩

def next (s : Mem n) (e : Nat) : Option Nat := (s.entries e).next

/-- `owner` is the thread that took the descriptor off the stack or made it, `block` the block it
divides, `taker` the thread that got a block from `malloc`. -/
structure Ghost (n : Nat) where
  stack : List Nat
  owner : Nat → Option (Fin n)
  block : Nat → Nat
  taker : Nat → Option (Fin n)

abbrev W (n : Nat) := World (Fin n) (Mem n) Ev (Ghost n)

/-- `x` has been taken out of its descriptor. -/
def Spent (addr : Nat → Nat) (w : W n) (x : Ptr) : Prop :=
  ∃ e < w.mem.brk, ∃ k, (w.mem.entries e).free ≤ k ∧ k < entriesPerCache ∧ x = object addr (w.ghost.block e) k

structure Inv (addr : Nat → Nat) (m : Nat) (w : W n) : Prop where
  ver : w.mem.head.ver = 0
  localVer : ∀ i, w.mem.localVer i = 0
  malloc : ∀ k, w.mem.malloc k = addr (m + k)
  linked : Linked (next w.mem) w.mem.head.head w.ghost.stack
  nodup : w.ghost.stack.Nodup
  stack : ∀ e, e ∈ w.ghost.stack ↔ e < w.mem.brk ∧ w.ghost.owner e = none
  owned : ∀ e i, w.ghost.owner e = some i → e < w.mem.brk
  cache : ∀ i e, w.mem.alloc_cache i = some e → w.ghost.owner e = some i
  free : ∀ e < w.mem.brk, (w.mem.entries e).free ≤ entriesPerCache
  ptrs : ∀ e < w.mem.brk, ∀ k < entriesPerCache, (w.mem.entries e).ptrs k = object addr (w.ghost.block e) k
  block : ∀ e < w.mem.brk, w.ghost.block e < m + w.mem.mallocs
  alone : ∀ e < w.mem.brk, ∀ d < w.mem.brk, w.ghost.block e = w.ghost.block d → e = d
  taken : ∀ b i, w.ghost.taker b = some i → b < m + w.mem.mallocs
  divided : ∀ b < m, ∃ e < w.mem.brk, w.ghost.block e = b
  dry : w.mem.head.head ≠ none → w.mem.mallocs = 0
  kept : ∀ e i, w.ghost.owner e = some i → (w.mem.entries e).free = 0 ∨ w.mem.alloc_cache i = some e ∨ got i w.log = some e
  once : (served w.log).Nodup
  spent : ∀ x, x ∈ served w.log ↔ Spent addr w x

/-- What thread `j` sees of a step of another thread. -/
structure Keeps (j : Fin n) (w w' : W n) : Prop where
  cache : w'.mem.alloc_cache j = w.mem.alloc_cache j
  got : got j w'.log = got j w.log
  owner : ∀ e, w.ghost.owner e = some j → w'.ghost.owner e = some j
  entry : ∀ e, w.ghost.owner e = some j → w'.mem.entries e = w.mem.entries e
  stack : ∀ e ∈ w'.ghost.stack, e ∈ w.ghost.stack ∧ w'.mem.entries e = w.mem.entries e
  taker : ∀ b, w.ghost.taker b = some j → w'.ghost.taker b = some j
  unused : ∀ b, w.ghost.taker b = some j → (∀ e < w.mem.brk, w.ghost.block e ≠ b) →
    ∀ e < w'.mem.brk, w'.ghost.block e ≠ b

/-- `allow` is what is assumed of the runs. -/
def proto (addr : Nat → Nat) (m : Nat) (allow : Log n → Rec (Fin n) (Mem n) Ev → Prop) :
    Proto (Fin n) (Mem n) Ev (Ghost n) where
  inv := Inv addr m
  act i w w' := ∀ j, j ≠ i → Keeps j w w'
  allow := allow

section Log

variable {i j : Fin n} {r : Rec (Fin n) (Mem n) Ev} {log : Log n}

theorem served_cons (h : r.ev.bind Ev.servedObj = none) : served (r :: log) = served log := by
  exact List.filterMap_cons_none h

theorem served_cons_some {x : Ptr} (h : r.ev = some (.served x)) : served (r :: log) = x :: served log := by
  exact List.filterMap_cons_some (by rw [h]; rfl)

theorem got_cons_of_ne (h : j ≠ r.tid) : got j (r :: log) = got j log := if_neg fun e => h e.symm

theorem got_cons (h : r.ev.bind Ev.gotEntry = none) : got j (r :: log) = got j log := by
  rw [got, h, Option.none_or, ite_self]

theorem got_cons_some {e : Nat} (htid : r.tid = j) (h : r.ev.bind Ev.gotEntry = some e) : got j (r :: log) = some e := by
  rw [got, if_pos htid, h, Option.some_or]

end Log

section Steps

variable {addr : Nat → Nat} {m : Nat} {w : W n} {i j : Fin n} {e : Nat}

/-- What a thread has cannot be on the stack. -/
theorem Inv.not_stack (hI : Inv addr m w) (he : w.ghost.owner e = some i) : e ∉ w.ghost.stack :=
  fun h => Option.some_ne_none i (he.symm.trans ((hI.stack e).1 h).2)

theorem Inv.empty (hI : Inv addr m w) (h : w.mem.head.head = none) : w.ghost.stack = [] :=
  (h ▸ hI.linked).unique (Linked.nil_iff.2 rfl)

/-- A step that the allocator does not see. -/
structure Quiet (s : Mem n) (e : Option Ev) (s' : Mem n) : Prop where
  serves : e.bind Ev.servedObj = none
  gets : e.bind Ev.gotEntry = none
  rest : s' = { s with entryHead := s'.entryHead, node := s'.node }

/-- Of thread `i`: the invariant holds again, and the other threads see nothing that matters to them. -/
def Acts (addr : Nat → Nat) (m : Nat) (i : Fin n) (w w' : W n) : Prop := Inv addr m w' ∧ ∀ j, j ≠ i → Keeps j w w'

theorem Quiet.acts {ev : Option Ev} {s' : Mem n} (h : Quiet w.mem ev s') (hI : Inv addr m w) :
    Inv addr m (w.next i ev s' w.ghost) ∧ ∀ j, Keeps j w (w.next i ev s' w.ghost) := by
  obtain ⟨hserves, hgets, hrest⟩ := h
  have hs : served (w.next i ev s' w.ghost).log = served w.log := served_cons hserves
  have hg : ∀ j, got j (w.next i ev s' w.ghost).log = got j w.log := fun j => got_cons hgets
  rw [hrest] at hs hg ⊢
  refine ⟨⟨hI.ver, hI.localVer, hI.malloc, hI.linked, hI.nodup, hI.stack, hI.owned, hI.cache, hI.free, hI.ptrs, hI.block,
    hI.alone, hI.taken, hI.divided, hI.dry, ?_, hs ▸ hI.once, ?_⟩, fun j => ⟨rfl, hg j, fun _ h => h, fun _ _ => rfl,
    fun _ h => ⟨h, rfl⟩, fun _ h => h, fun _ _ h => h⟩⟩
  · intro e j he
    rw [hg j]
    exact hI.kept e j he
  · intro x
    rw [hs]
    exact hI.spent x

/-- The compare-and-swap of `pop`. -/
theorem Inv.pop (hI : Inv addr m w) (hhead : w.mem.head.head = some e)
    (hkeep : ∀ d, got i w.log = some d → w.mem.alloc_cache i = some d ∨ (w.mem.entries d).free = 0) :
    ∃ g, Acts addr m i w (w.next i (some (.popped e)) { w.mem with head := ⟨next w.mem e, 0⟩ } g) ∧ g.owner e = some i := by
  obtain ⟨rest, hstack, hrest⟩ := (hhead ▸ hI.linked).top
  have he := (hI.stack e).1 (hstack ▸ List.mem_cons_self)
  have hnodup := List.nodup_cons.1 (hstack ▸ hI.nodup)
  refine ⟨{ w.ghost with stack := rest, owner := Function.update w.ghost.owner e (some i) },
    ⟨⟨rfl, hI.localVer, hI.malloc, hrest, hnodup.2, ?_, ?_, ?_, hI.free, hI.ptrs, hI.block, hI.alone, hI.taken,
      hI.divided, fun _ => hI.dry (by simp [hhead]), ?_, ?_, ?_⟩, ?_⟩, Function.update_self ..⟩
  · intro d
    by_cases hd : d = e
    · subst hd
      simp [hnodup.1]
    · have h := hI.stack d
      rw [hstack, List.mem_cons, or_iff_right hd] at h
      simpa [hd] using h
  · intro d j hj
    by_cases hd : d = e
    · exact hd ▸ he.1
    · exact hI.owned d j (by simpa [hd] using hj)
  · intro j d hd
    have hown := hI.cache j d hd
    have hne : d ≠ e := by
      rintro rfl
      exact Option.some_ne_none j (hown.symm.trans he.2)
    simpa [hne] using hown
  · intro d j hj
    by_cases hd : d = e
    · subst hd
      obtain rfl : i = j := by simpa using hj
      exact .inr (.inr (got_cons_some rfl rfl))
    · rcases hI.kept d j (by simpa [hd] using hj) with h | h | h
      · exact .inl h
      · exact .inr (.inl h)
      · by_cases hji : j = i
        · subst hji
          exact (hkeep d h).elim (fun h => .inr (.inl h)) .inl
        · exact .inr (.inr ((got_cons_of_ne hji).trans h))
  · rw [World.next_log, served_cons rfl]
    exact hI.once
  · intro x
    rw [World.next_log, served_cons rfl]
    exact hI.spent x
  · intro j hj
    refine ⟨rfl, got_cons_of_ne hj, fun d hd => ?_, fun _ _ => rfl, fun d hd => ⟨?_, rfl⟩, fun _ h => h, fun _ _ h => h⟩
    · have hne : d ≠ e := by
        rintro rfl
        exact Option.some_ne_none j (hd.symm.trans he.2)
      simpa [hne] using hd
    · rw [hstack]
      exact List.mem_cons_of_mem _ hd

/-- The cache that was taken or made is installed. -/
theorem Inv.install (hI : Inv addr m w) (he : w.ghost.owner e = some i) (hgot : got i w.log = some e)
    (hold : ∀ d, w.mem.alloc_cache i = some d → (w.mem.entries d).free = 0) :
    Acts addr m i w (w.next i none (w.mem.setCache i e) w.ghost) := by
  refine ⟨⟨hI.ver, hI.localVer, hI.malloc, hI.linked, hI.nodup, hI.stack, hI.owned, ?_, hI.free, hI.ptrs, hI.block,
    hI.alone, hI.taken, hI.divided, hI.dry, ?_, hI.once, hI.spent⟩, fun j hj => ⟨Mem.setCache_of_ne hj, ?_,
    fun _ h => h, fun _ _ => rfl, fun _ h => ⟨h, rfl⟩, fun _ h => h, fun _ _ h => h⟩⟩
  · intro j d hd
    by_cases hj : j = i
    · subst hj
      obtain rfl : e = d := by simpa [Mem.setCache] using hd
      exact he
    · exact hI.cache j d (by simpa [Mem.setCache, hj] using hd)
  · intro d j hd
    rw [World.next_log, got_cons rfl]
    by_cases hj : j = i
    · subst hj
      rcases hI.kept d j hd with h | h | h
      · exact .inl h
      · exact .inl (hold d h)
      · obtain rfl : e = d := Option.some.inj (hgot.symm.trans h)
        exact .inr (.inl Mem.setCache_self)
    · simpa [Mem.setCache, hj] using hI.kept d j hd
  · rw [World.next_log, got_cons rfl]

/-- `local->alloc_cache->next=NULL`. -/
theorem Inv.unlink (hI : Inv addr m w) (he : w.ghost.owner e = some i) :
    Acts addr m i w (w.next i none (w.mem.setEntry e ({ · with next := none })) w.ghost) := by
  have hother : ∀ d, d ≠ e → (w.mem.setEntry e ({ · with next := none })).entries d = w.mem.entries d :=
    fun d hd => Mem.setEntry_of_ne _ hd
  have hfree : ∀ d, ((w.mem.setEntry e ({ · with next := none })).entries d).free = (w.mem.entries d).free := by
    intro d
    by_cases hd : d = e
    · subst hd
      simp [Mem.setEntry]
    · rw [hother d hd]
  have hptrs : ∀ d, ((w.mem.setEntry e ({ · with next := none })).entries d).ptrs = (w.mem.entries d).ptrs := by
    intro d
    by_cases hd : d = e
    · subst hd
      simp [Mem.setEntry]
    · rw [hother d hd]
  have hstack : ∀ d ∈ w.ghost.stack, d ≠ e := fun d hd hde => hI.not_stack he (hde ▸ hd)
  refine ⟨⟨hI.ver, hI.localVer, hI.malloc, ?_, hI.nodup, hI.stack, hI.owned, hI.cache, ?_, ?_, hI.block,
    hI.alone, hI.taken, hI.divided, hI.dry, ?_, hI.once, ?_⟩, fun j hj => ⟨rfl, got_cons rfl, fun _ h => h, ?_,
    fun d hd => ⟨hd, hother d (hstack d hd)⟩, fun _ h => h, fun _ _ h => h⟩⟩
  · exact hI.linked.congr fun d hd => congrArg AllocEntry.next (hother d (hstack d hd))
  · intro d hd
    rw [World.next_mem, hfree]
    exact hI.free d hd
  · intro d hd k hk
    rw [World.next_mem, hptrs]
    exact hI.ptrs d hd k hk
  · intro d j hd
    rw [World.next_mem, hfree, World.next_log, got_cons rfl]
    exact hI.kept d j hd
  · intro x
    refine (hI.spent x).trans ?_
    simp only [Spent, World.next_mem, hfree]
    rfl
  · intro d hd
    refine hother d ?_
    rintro rfl
    exact hj (Option.some.inj (hd.symm.trans he))

/-- A block from `malloc`. -/
theorem Inv.malloc_step (hI : Inv addr m w) (hempty : w.ghost.stack = []) :
    ∃ g b, Acts addr m i w (w.next i none { w.mem with mallocs := w.mem.mallocs + 1 } g) ∧
      w.mem.malloc w.mem.mallocs = addr b ∧ m ≤ b ∧ g.taker b = some i ∧ ∀ e < w.mem.brk, g.block e ≠ b := by
  have hfresh : ∀ e < w.mem.brk, w.ghost.block e ≠ m + w.mem.mallocs := fun e he => Nat.ne_of_lt (hI.block e he)
  refine ⟨{ w.ghost with taker := Function.update w.ghost.taker (m + w.mem.mallocs) (some i) }, m + w.mem.mallocs,
    ⟨⟨hI.ver, hI.localVer, hI.malloc, hI.linked, hI.nodup, hI.stack, hI.owned, hI.cache, hI.free, hI.ptrs, ?_, hI.alone, ?_,
      hI.divided, ?_, ?_, hI.once, hI.spent⟩, fun j hj => ⟨rfl, got_cons rfl, fun _ h => h, fun _ _ => rfl,
      fun _ h => ⟨h, rfl⟩, ?_, fun _ _ h => h⟩⟩, hI.malloc _, Nat.le_add_right .., Function.update_self .., hfresh⟩
  · exact fun e he => Nat.lt_succ_of_lt (hI.block e he)
  · intro b j hb
    by_cases hbm : b = m + w.mem.mallocs
    · rw [hbm]
      exact Nat.lt_succ_self _
    · exact Nat.lt_succ_of_lt (hI.taken b j (by simpa [hbm] using hb))
  · intro hhead
    have hl := hI.linked
    rw [hempty] at hl
    exact absurd hl hhead
  · intro d j hd
    rw [World.next_log, got_cons rfl]
    exact hI.kept d j hd
  · intro b hb
    have hne : b ≠ m + w.mem.mallocs := Nat.ne_of_lt (hI.taken b j hb)
    simpa [hne] using hb

/-- A descriptor for a block that no other descriptor divides. -/
theorem Inv.create {b : Nat} (hI : Inv addr m w) (htaker : w.ghost.taker b = some i) (hunused : ∀ e < w.mem.brk, w.ghost.block e ≠ b)
    (hkeep : ∀ d, got i w.log = some d → w.mem.alloc_cache i = some d ∨ (w.mem.entries d).free = 0) :
    ∃ g, Acts addr m i w (w.next i (some (.created w.mem.brk)) (w.mem.createEntry (addr b) nodeSize) g) ∧
      g.owner w.mem.brk = some i := by
  have hold : ∀ d < w.mem.brk, (w.mem.createEntry (addr b) nodeSize).entries d = w.mem.entries d :=
    fun d hd => Mem.createEntry_old _ _ hd
  have hnew := Mem.createEntry_new (s := w.mem) (addr b) nodeSize
  have hblock : ∀ d < w.mem.brk, Function.update w.ghost.block w.mem.brk b d = w.ghost.block d :=
    fun d hd => Function.update_of_ne (Nat.ne_of_lt hd) ..
  have hstack : ∀ d ∈ w.ghost.stack, d < w.mem.brk := fun d hd => ((hI.stack d).1 hd).1
  have howner : ∀ d j, w.ghost.owner d = some j → Function.update w.ghost.owner w.mem.brk (some i) d = some j :=
    fun d j hd => (Function.update_of_ne (Nat.ne_of_lt (hI.owned d j hd)) ..).trans hd
  refine ⟨{ w.ghost with owner := Function.update w.ghost.owner w.mem.brk (some i), block := Function.update w.ghost.block w.mem.brk b },
    ⟨⟨hI.ver, hI.localVer, hI.malloc, ?_, hI.nodup, ?_, ?_, ?_, ?_, ?_, ?_, ?_, hI.taken, ?_, hI.dry, ?_, ?_, ?_⟩, ?_⟩,
    Function.update_self ..⟩
  · exact hI.linked.congr fun d hd => congrArg AllocEntry.next (hold d (hstack d hd))
  · intro d
    refine (hI.stack d).trans ?_
    by_cases hd : d = w.mem.brk
    · subst hd
      simp
    · simp only [World.next_mem, World.next_ghost, Mem.createEntry, Function.update_of_ne hd]
      exact and_congr_left fun _ => ⟨Nat.lt_succ_of_lt, fun h => Nat.lt_of_le_of_ne (Nat.le_of_lt_succ h) hd⟩
  · intro d j hj
    by_cases hd : d = w.mem.brk
    · rw [hd]
      exact Nat.lt_succ_self _
    · exact Nat.lt_succ_of_lt (hI.owned d j (by simpa [hd] using hj))
  · exact fun j d hd => howner d j (hI.cache j d hd)
  · intro d hd
    rcases Nat.lt_succ_iff_lt_or_eq.1 hd with hd | rfl
    · rw [World.next_mem, hold d hd]
      exact hI.free d hd
    · rw [World.next_mem, hnew]
  · intro d hd k hk
    rcases Nat.lt_succ_iff_lt_or_eq.1 hd with hd | rfl
    · simp only [World.next_mem, World.next_ghost, hold d hd, hblock d hd]
      exact hI.ptrs d hd k hk
    · simp only [World.next_mem, World.next_ghost, hnew, Function.update_self, object]
  · intro d hd
    rcases Nat.lt_succ_iff_lt_or_eq.1 hd with hd | rfl
    · simp only [World.next_ghost, hblock d hd]
      exact hI.block d hd
    · simp only [World.next_ghost, Function.update_self]
      exact hI.taken b i htaker
  · intro d hd d' hd' h
    rcases Nat.lt_succ_iff_lt_or_eq.1 hd with hd | rfl <;> rcases Nat.lt_succ_iff_lt_or_eq.1 hd' with hd' | rfl
    · simp only [World.next_ghost, hblock d hd, hblock d' hd'] at h
      exact hI.alone d hd d' hd' h
    · simp only [World.next_ghost, hblock d hd, Function.update_self] at h
      exact absurd h (hunused d hd)
    · simp only [World.next_ghost, hblock d' hd', Function.update_self] at h
      exact absurd h.symm (hunused d' hd')
    · rfl
  · intro c hc
    obtain ⟨d, hd, h⟩ := hI.divided c hc
    exact ⟨d, Nat.lt_succ_of_lt hd, (hblock d hd).trans h⟩
  · intro d j hj
    by_cases hd : d = w.mem.brk
    · subst hd
      obtain rfl : i = j := by simpa using hj
      exact .inr (.inr (got_cons_some rfl rfl))
    · have hj' : w.ghost.owner d = some j := by simpa [hd] using hj
      rw [World.next_mem, hold d (hI.owned d j hj')]
      rcases hI.kept d j hj' with h | h | h
      · exact .inl h
      · exact .inr (.inl h)
      · by_cases hji : j = i
        · subst hji
          exact (hkeep d h).elim (fun h => .inr (.inl h)) .inl
        · exact .inr (.inr ((got_cons_of_ne hji).trans h))
  · rw [World.next_log, served_cons rfl]
    exact hI.once
  · intro x
    rw [World.next_log, served_cons rfl]
    refine (hI.spent x).trans ⟨?_, ?_⟩
    · rintro ⟨d, hd, k, hk, hk', rfl⟩
      refine ⟨d, Nat.lt_succ_of_lt hd, k, ?_, hk', ?_⟩
      · rw [World.next_mem, hold d hd]
        exact hk
      · simp only [World.next_ghost, hblock d hd]
    · rintro ⟨d, hd, k, hk, hk', rfl⟩
      rcases Nat.lt_succ_iff_lt_or_eq.1 hd with hd | rfl
      · rw [World.next_mem, hold d hd] at hk
        simp only [World.next_ghost, hblock d hd]
        exact ⟨d, hd, k, hk, hk', rfl⟩
      · rw [World.next_mem, hnew] at hk
        exact absurd hk' (Nat.not_lt.2 hk)
  · intro j hj
    refine ⟨rfl, got_cons_of_ne hj, fun d hd => howner d j hd, fun d hd => hold d (hI.owned d j hd),
      fun d hd => ⟨hd, hold d (hstack d hd)⟩, fun _ h => h, fun c hc huse d hd => ?_⟩
    rcases Nat.lt_succ_iff_lt_or_eq.1 hd with hd | rfl
    · simp only [World.next_ghost, hblock d hd]
      exact huse d hd
    · simp only [World.next_ghost, Function.update_self]
      rintro rfl
      exact hj (Option.some.inj (hc.symm.trans htaker))

/-- Blocks do not overlap. -/
def Apart (addr : Nat → Nat) : Prop :=
  ∀ b c, b ≠ c → addr b + entriesPerCache * nodeSize ≤ addr c ∨ addr c + entriesPerCache * nodeSize ≤ addr b

theorem Apart.object_inj {b c k l : Nat} (h : Apart addr) (hk : k < entriesPerCache) (hl : l < entriesPerCache)
    (ho : object addr b k = object addr c l) : b = c ∧ k = l := by
  have ha : addr b + k * nodeSize = addr c + l * nodeSize := congrArg Ptr.addr ho
  simp only [show entriesPerCache = 126 from rfl, show nodeSize = 32 from rfl] at hk hl ha
  by_cases hbc : b = c
  · subst hbc
    exact ⟨rfl, by omega⟩
  · have hap := h b c hbc
    simp only [show entriesPerCache = 126 from rfl, show nodeSize = 32 from rfl] at hap
    omega

/-- The topmost object of the thread's cache. -/
theorem Inv.serve (hI : Inv addr m w) (hapart : Apart addr) (hcache : w.mem.alloc_cache i = some e) (hfree : 0 < (w.mem.entries e).free) :
    Acts addr m i w (w.next i (some (.served ((w.mem.entries e).ptrs ((w.mem.entries e).free - 1))))
      (w.mem.setEntry e fun c => { c with free := c.free - 1 }) w.ghost) := by
  have hown := hI.cache i e hcache
  have hlt := hI.owned e i hown
  have hle := hI.free e hlt
  have htop := hI.ptrs e hlt ((w.mem.entries e).free - 1) (by omega)
  rw [htop]
  have hother : ∀ d, d ≠ e → (w.mem.setEntry e fun c => { c with free := c.free - 1 }).entries d = w.mem.entries d :=
    fun d hd => Mem.setEntry_of_ne _ hd
  have hself : (w.mem.setEntry e fun c => { c with free := c.free - 1 }).entries e =
      { w.mem.entries e with free := (w.mem.entries e).free - 1 } := Mem.setEntry_self _
  have hstack : ∀ d ∈ w.ghost.stack, d ≠ e := fun d hd hde => hI.not_stack hown (hde ▸ hd)
  have hnew : object addr (w.ghost.block e) ((w.mem.entries e).free - 1) ∉ served w.log := by
    intro h
    obtain ⟨d, hd, k, hk, hk', ho⟩ := (hI.spent _).1 h
    obtain ⟨hb, rfl⟩ := hapart.object_inj (by omega) hk' ho
    obtain rfl := hI.alone e hlt d hd hb
    omega
  refine ⟨⟨hI.ver, hI.localVer, hI.malloc, ?_, hI.nodup, hI.stack, hI.owned, hI.cache, ?_, ?_, hI.block,
    hI.alone, hI.taken, hI.divided, hI.dry, ?_, ?_, ?_⟩, fun j hj => ⟨rfl, got_cons rfl, fun _ h => h, ?_,
    fun d hd => ⟨hd, hother d (hstack d hd)⟩, fun _ h => h, fun _ _ h => h⟩⟩
  · exact hI.linked.congr fun d hd => congrArg AllocEntry.next (hother d (hstack d hd))
  · intro d hd
    rw [World.next_mem]
    by_cases hde : d = e
    · subst hde
      rw [hself]
      exact (Nat.sub_le ..).trans hle
    · rw [hother d hde]
      exact hI.free d hd
  · intro d hd k hk
    rw [World.next_mem]
    by_cases hde : d = e
    · subst hde
      rw [hself]
      exact hI.ptrs d hd k hk
    · rw [hother d hde]
      exact hI.ptrs d hd k hk
  · intro d j hj
    rw [World.next_mem, World.next_log, got_cons rfl]
    by_cases hde : d = e
    · subst hde
      obtain rfl : i = j := Option.some.inj (hown.symm.trans hj)
      exact .inr (.inl hcache)
    · rw [hother d hde]
      exact hI.kept d j hj
  · rw [World.next_log, served_cons_some rfl]
    exact List.nodup_cons.2 ⟨hnew, hI.once⟩
  · intro x
    rw [World.next_log, served_cons_some rfl, List.mem_cons, hI.spent x]
    constructor
    · rintro (rfl | ⟨d, hd, k, hk, hk', rfl⟩)
      · exact ⟨e, hlt, _, by rw [World.next_mem, hself], by omega, rfl⟩
      · refine ⟨d, hd, k, ?_, hk', rfl⟩
        rw [World.next_mem]
        by_cases hde : d = e
        · subst hde
          rw [hself]
          exact (Nat.sub_le ..).trans hk
        · rw [hother d hde]
          exact hk
    · rintro ⟨d, hd, k, hk, hk', rfl⟩
      rw [World.next_mem] at hk
      by_cases hde : d = e
      · subst hde
        rw [hself] at hk
        rcases Nat.lt_or_ge k (w.mem.entries d).free with hlow | hhigh
        · obtain rfl : k = (w.mem.entries d).free - 1 := by
            simp only at hk
            omega
          exact .inl rfl
        · exact .inr ⟨d, hd, k, hhigh, hk', rfl⟩
      · rw [hother d hde] at hk
        exact .inr ⟨d, hd, k, hk, hk', rfl⟩
  · intro d hd
    refine hother d ?_
    rintro rfl
    exact hj (Option.some.inj (hd.symm.trans hown))

end Steps

end OptimisticAccess.NR
