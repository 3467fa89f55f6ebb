import Mathlib.Data.Finset.Card
import OptimisticAccess.AOA.Graph
import OptimisticAccess.AOA.SweepBits
import OptimisticAccess.AOA.Trace
import OptimisticAccess.Conc.Alone

/-!
# Marking with one thread

What is marked is reachable, and what a marked object points to is marked or pending. The mark stack
is what is pending, and each turn of `traceMarkstack` marks an object or takes one off the stack.
-/

namespace OptimisticAccess.AOA.Solo

open Conc Prog

/-! ## The state of a trace -/

/-- An object of the heap. -/
structure Obj (heapmem : List Nat) (p : Ptr) : Prop where
  tag : p.tag = false
  payload : repository.Payload heapmem p.addr

theorem Obj.isObj {heapmem : List Nat} {p : Ptr} (h : Obj heapmem p) : IsObj p := by
  obtain ⟨c, -, hlo, -, halign⟩ := h.payload
  refine ⟨fun hnull => ?_, h.tag, halign⟩
  rw [hnull] at hlo
  have hheader : repository.headerSize = 4096 := by decide
  rw [hheader] at hlo
  change c + 4096 ≤ 0 at hlo
  omega

/-- The parts of the memory that a trace writes to. -/
def traced (s : Mem 1) (marks : Nat → U64) (table : Nat → U64) (stack : Nat → Ptr) : Mem 1 :=
  { s with marks := marks, arr_marktable := Function.update s.arr_marktable 0 table, locals := fun i => { s.locals i with markstack := stack } }

variable {heapmem : List Nat} {s₀ s : Mem 1} {i : Fin 1} {R P P' : Ptr → Prop} {v fuel counter k : Nat} {p q cur : Ptr}

theorem setLocal_eq (f : LocalAlloc → LocalAlloc) : s.setLocal i f = { s with locals := fun j => f (s.locals j) } := by
  have hlocals : Function.update s.locals i (f (s.locals i)) = fun j => f (s.locals j) := by
    funext j
    rw [Subsingleton.elim j i, Function.update_self]
  rw [Mem.setLocal, hlocals]

/-- What the slots hold. -/
def slots (s : Mem 1) : Nat → Ptr := (s.locals ⟨0, Nat.one_pos⟩).markstack

theorem slots_eq (i : Fin 1) : slots s = (s.locals i).markstack := by
  rw [Subsingleton.elim i ⟨0, Nat.one_pos⟩]
  rfl

theorem slots_setSlot : slots (s.setSlot i k p) = Function.update (slots s) k p := by
  rw [Mem.setSlot, setLocal_eq]
  rfl

/-- Of the objects, those in `P` are pending. -/
structure Tracing (heapmem : List Nat) (s₀ : Mem 1) (R : Ptr → Prop) (v : Nat) (P : Ptr → Prop) (s : Mem 1) : Prop where
  frame : ∃ marks table stack, s = traced s₀ marks table stack
  stamped : ∀ p, Obj heapmem p → Stamp.hi (s.marks (markWord p.addr)) = v
  tables : ∀ k, Stamp.hi (s.arr_marktable 0 k) = Stamp.hi (s₀.arr_marktable 0 k)
  pending : ∀ p, P p → Obj heapmem p ∧ Reachable s₀ R p
  sound : ∀ p, Obj heapmem p → Marked s p → Reachable s₀ R p
  closed : ∀ p, Obj heapmem p → Marked s p → child s₀ p = NULL ∨ Marked s (child s₀ p) ∨ P (child s₀ p)

/-- The objects in slots `1 .. counter`. -/
def OnStack (counter : Nat) (s : Mem 1) (p : Ptr) : Prop := ∃ k, 1 ≤ k ∧ k ≤ counter ∧ slots s k = p

/-- Pointers lead to objects. -/
structure Graph (heapmem : List Nat) (s : Mem 1) : Prop where
  child : ∀ p, Obj heapmem p → child s p = NULL ∨ Obj heapmem (child s p)

theorem Tracing.repend (h : Tracing heapmem s₀ R v P s) (hP : ∀ p, P p → P' p ∨ Marked s p)
    (hP' : ∀ p, P' p → Obj heapmem p ∧ Reachable s₀ R p) : Tracing heapmem s₀ R v P' s where
  frame := h.frame
  stamped := h.stamped
  tables := h.tables
  pending := hP'
  sound := h.sound
  closed := fun p hp hm => by
    obtain h | h | h := h.closed p hp hm
    · exact .inl h
    · exact .inr (.inl h)
    · obtain h | h := hP _ h
      · exact .inr (.inr h)
      · exact .inr (.inl h)

theorem Tracing.child_eq (h : Tracing heapmem s₀ R v P s) : child s = child s₀ := by
  obtain ⟨marks, table, stack, rfl⟩ := h.frame
  rfl

/-- A write to the mark stack. -/
theorem Tracing.setSlot (h : Tracing heapmem s₀ R v P s) (k : Nat) (p : Ptr) : Tracing heapmem s₀ R v P (s.setSlot i k p) := by
  obtain ⟨marks, table, stack, rfl⟩ := h.frame
  refine ⟨⟨marks, table, Function.update stack k p, ?_⟩, h.stamped, h.tables, h.pending, h.sound, h.closed⟩
  rw [Mem.setSlot, setLocal_eq]
  rfl

/-- A pending object is marked, and its child becomes pending. -/
theorem Tracing.setMark (h : Tracing heapmem s₀ R v P s) (hgraph : Graph heapmem s₀) (hcur : P cur)
    (hP : ∀ p, P p → p = cur ∨ P' p) (hP' : ∀ p, P' p → Edge s₀ cur p ∨ P p)
    (hchild : child s₀ cur = NULL ∨ P' (child s₀ cur)) : Tracing heapmem s₀ R v P' (s.setMark cur) := by
  obtain ⟨hobj, hreach⟩ := h.pending cur hcur
  have hmarked : ∀ p, Obj heapmem p → (Marked (s.setMark cur) p ↔ p = cur ∨ Marked s p) :=
    fun p hp => marked_setMark hobj.isObj hp.isObj
  refine ⟨?_, fun p hp => ?_, h.tables, fun p hp => ?_, fun p hp hm => ?_, fun p hp hm => ?_⟩
  · obtain ⟨marks, table, stack, rfl⟩ := h.frame
    exact ⟨_, table, stack, rfl⟩
  · rw [hi_setMark]
    exact h.stamped p hp
  · obtain he | hp := hP' p hp
    · have hpobj : Obj heapmem p := he.2 ▸ (hgraph.child cur hobj).resolve_left fun e => he.1 (he.2.trans e)
      obtain ⟨r, hr, hpath⟩ := hreach
      exact ⟨hpobj, r, hr, hpath.tail he⟩
    · exact h.pending p hp
  · obtain rfl | hm := (hmarked p hp).1 hm
    · exact hreach
    · exact h.sound p hp hm
  · obtain rfl | hm := (hmarked p hp).1 hm
    · exact hchild.imp_right .inr
    · obtain hc | hc | hc := h.closed p hp hm
      · exact .inl hc
      · exact .inr (.inl (hc.setMark cur))
      · obtain hc | hc := hP _ hc
        · rw [hc]
          exact .inr (.inl (marked_setMark_self s cur))
        · exact .inr (.inr hc)

/-! ## Turns -/

/-- The number of objects without a mark. -/
def unmarked (heapmem : List Nat) (s : Mem 1) : Nat :=
  ((repository.sweepObjects heapmem).toFinset.filter fun x => ¬ Marked s ⟨x, false⟩).card

/-- The heap has been laid out in chunks. -/
abbrev Chunks (heapmem : List Nat) : Prop := repository.Chunks heapmem

theorem unmarked_setSlot : unmarked heapmem (s.setSlot i k p) = unmarked heapmem s := rfl

theorem unmarked_setMark (hheap : Chunks heapmem) (hp : Obj heapmem p) (hm : ¬ Marked s p) :
    unmarked heapmem (s.setMark p) < unmarked heapmem s := by
  refine Finset.card_lt_card ⟨fun x hx => ?_, fun hle => ?_⟩
  · rw [Finset.mem_filter] at hx ⊢
    exact ⟨hx.1, fun h => hx.2 (h.setMark p)⟩
  · have hmem : p.addr ∈ (repository.sweepObjects heapmem).toFinset := List.mem_toFinset.2 (hp.payload.mem_sweepObjects hheap)
    have hpeq : (⟨p.addr, false⟩ : Ptr) = p := by rw [← hp.tag]
    have hin := hle (Finset.mem_filter.2 ⟨hmem, by rw [hpeq]; exact hm⟩)
    rw [Finset.mem_filter, hpeq] at hin
    exact hin.2 (marked_setMark_self s p)

/-- What a turn keeps. -/
structure Grows (s s' : Mem 1) : Prop where
  marked : ∀ p, Marked s p → Marked s' p
  tables : s'.arr_marktable = s.arr_marktable

theorem Grows.refl (s : Mem 1) : Grows s s := ⟨fun _ h => h, rfl⟩

theorem Grows.trans {s s' s'' : Mem 1} (h : Grows s s') (h' : Grows s' s'') : Grows s s'' :=
  ⟨fun p hp => h'.marked p (h.marked p hp), h'.tables.trans h.tables⟩

theorem unmarked_le {s s' : Mem 1} (h : ∀ p, Marked s p → Marked s' p) : unmarked heapmem s' ≤ unmarked heapmem s :=
  Finset.card_le_card fun x hx => by
    rw [Finset.mem_filter] at hx ⊢
    exact ⟨hx.1, fun hm => hx.2 (h _ hm)⟩

theorem marked_congr {s s' : Mem 1} (h : s'.marks = s.marks) : Marked s' p ↔ Marked s p := by
  rw [Marked, h]
  rfl

theorem unmarked_congr {s s' : Mem 1} (h : s'.marks = s.marks) : unmarked heapmem s' = unmarked heapmem s :=
  le_antisymm (unmarked_le fun _ => (marked_congr h).2) (unmarked_le fun _ => (marked_congr h).1)

theorem isCurPhase_of_hi {w : U64} (hv : v < 2 ^ 32) (h : Stamp.hi w = v) : isCurPhase w (Stamp.empty v) = true := by
  rw [isCurPhase_empty, h, Nat.mod_eq_of_lt hv]

/-- The mark of an object that has none is set at the first try. -/
theorem ends_mark {Q : Bool → Mem 1 → Prop} (hv : v < 2 ^ 32) (hstamp : Stamp.hi (s.marks (markWord p.addr)) = v) (h : Q true (s.setMark p)) :
    Ends (mark fuel (markWord p.addr) (markMask p.addr) (s.marks (markWord p.addr)) (Stamp.empty v)) s Q := by
  rw [mark, isCurPhase_of_hi hv hstamp, Bool.not_true, if_neg Bool.false_ne_true, ends_bind]
  refine ends_cas (fun _ => ?_) fun hne => absurd rfl hne
  rw [if_pos rfl, pure_eq, ends_ret]
  exact h

theorem onStack_setSlot_zero : OnStack counter (s.setSlot i 0 p) q ↔ OnStack counter s q := by
  constructor
  · rintro ⟨k, h1, h2, h3⟩
    rw [slots_setSlot, Function.update_of_ne (by omega)] at h3
    exact ⟨k, h1, h2, h3⟩
  · rintro ⟨k, h1, h2, h3⟩
    refine ⟨k, h1, h2, ?_⟩
    rw [slots_setSlot, Function.update_of_ne (by omega)]
    exact h3

theorem onStack_push : OnStack (counter + 1) (s.setSlot i (counter + 1) p) q ↔ q = p ∨ OnStack counter s q := by
  constructor
  · rintro ⟨k, h1, h2, h3⟩
    by_cases hk : k = counter + 1
    · subst hk
      rw [slots_setSlot, Function.update_self] at h3
      exact .inl h3.symm
    · rw [slots_setSlot, Function.update_of_ne hk] at h3
      exact .inr ⟨k, h1, by omega, h3⟩
  · rintro (rfl | ⟨k, h1, h2, h3⟩)
    · exact ⟨counter + 1, by omega, le_refl _, by rw [slots_setSlot, Function.update_self]⟩
    · exact ⟨k, h1, by omega, by rw [slots_setSlot, Function.update_of_ne (by omega)]; exact h3⟩

theorem onStack_pop (h : 1 ≤ counter) : OnStack counter s q ↔ q = slots s counter ∨ OnStack (counter - 1) s q := by
  constructor
  · rintro ⟨k, h1, h2, h3⟩
    by_cases hk : k = counter
    · exact .inl (by rw [← h3, hk])
    · exact .inr ⟨k, h1, by omega, h3⟩
  · rintro (rfl | ⟨k, h1, h2, h3⟩)
    · exact ⟨counter, h, le_refl _, rfl⟩
    · exact ⟨k, h1, by omega, h3⟩

theorem marked_iff : (s.marks (markWord p.addr) &&& markMask p.addr != 0#64) = true ↔ Marked s p := by
  rw [and_markMask]
  rfl

/-- One turn: `cur` is marked, and its child is on the stack. -/
theorem ends_traceObj (hheap : Chunks heapmem) (hgraph : Graph heapmem s₀) (hv : v < 2 ^ 32)
    (h : Tracing heapmem s₀ R v (fun q => q = cur ∨ OnStack counter s q) s) :
    Ends (traceObj i fuel cur counter (Stamp.empty v)) s fun counter' s' =>
      Tracing heapmem s₀ R v (OnStack counter' s') s' ∧ Grows s s' ∧ Marked s' cur ∧ (∀ q, OnStack counter s q → OnStack counter' s' q) ∧
        2 * unmarked heapmem s' + counter' < 2 * unmarked heapmem s + counter + 1 := by
  have hcur := (h.pending cur (.inl rfl)).1
  have hstamp := h.stamped cur hcur
  unfold traceObj
  refine ends_bind.2 (ends_load.2 ?_)
  by_cases hm : Marked s cur
  · rw [if_pos (marked_iff.2 hm), pure_eq, ends_ret]
    refine ⟨h.repend (fun q hq => ?_) fun q hq => h.pending q (.inr hq), .refl s, hm, fun _ h => h, by omega⟩
    obtain rfl | hq := hq
    · exact .inr hm
    · exact .inl hq
  rw [if_neg fun hm' => hm (marked_iff.1 hm')]
  refine ends_bind.2 (ends_step.2 (ends_ret.2 (ends_bind.2 (ends_load.2 ?_))))
  have h0 := h.setSlot (i := i) 0 cur
  have hchild : clearPtr ((s.setSlot i 0 cur).node cur.addr).nextEntry = child s₀ cur := congrFun h.child_eq cur
  rw [hchild]
  by_cases hnull : child s₀ cur = NULL
  · rw [if_pos hnull]
    refine ends_bind.2 (ends_mark (s := s.setSlot i 0 cur) hv hstamp (ends_ret.2 ⟨?_, ?_, marked_setMark_self _ _,
      fun q hq => onStack_setSlot_zero.2 hq, ?_⟩))
    · refine h0.setMark hgraph (.inl rfl) (fun q hq => ?_) (fun q hq => .inr (.inr ?_)) (.inl hnull)
      · exact hq.imp_right onStack_setSlot_zero.2
      · exact onStack_setSlot_zero.1 hq
    · exact ⟨fun q hq => Marked.setMark hq cur, rfl⟩
    · have hlt := unmarked_setMark (s := s.setSlot i 0 cur) hheap hcur hm
      rw [unmarked_setSlot] at hlt
      omega
  · rw [if_neg hnull]
    have h1 := h0.setSlot (i := i) (counter + 1) (child s₀ cur)
    refine ends_bind.2 (ends_store.2 (ends_bind.2 (ends_mark (s := (s.setSlot i 0 cur).setSlot i (counter + 1) (child s₀ cur)) hv hstamp ?_)))
    rw [if_pos rfl, pure_eq, ends_ret]
    have hstack : ∀ q, OnStack (counter + 1) (((s.setSlot i 0 cur).setSlot i (counter + 1) (child s₀ cur)).setMark cur) q ↔
        q = child s₀ cur ∨ OnStack counter s q := fun q => onStack_push.trans (or_congr_right onStack_setSlot_zero)
    refine ⟨h1.setMark hgraph (.inl rfl) (fun q hq => ?_) (fun q hq => ?_) (.inr ((hstack _).2 (.inl rfl))), ?_, marked_setMark_self _ _,
      fun q hq => (hstack q).2 (.inr hq), ?_⟩
    · exact hq.imp_right fun hq => (hstack q).2 (.inr hq)
    · obtain rfl | hq := (hstack q).1 hq
      · exact .inl ⟨hnull, rfl⟩
      · exact .inr (.inr hq)
    · exact ⟨fun q hq => Marked.setMark hq cur, rfl⟩
    · have hlt := unmarked_setMark (s := (s.setSlot i 0 cur).setSlot i (counter + 1) (child s₀ cur)) hheap hcur hm
      rw [unmarked_setSlot, unmarked_setSlot] at hlt
      omega

/-- The stack is emptied. -/
theorem ends_traceMarkstack (hheap : Chunks heapmem) (hgraph : Graph heapmem s₀) (hv : v < 2 ^ 32)
    (h : Tracing heapmem s₀ R v (OnStack counter s) s) (hfuel : 2 * unmarked heapmem s + counter < fuel) :
    Ends (traceMarkstack i fuel counter (Stamp.empty v)) s fun _ s' =>
      Tracing heapmem s₀ R v (fun _ => False) s' ∧ Grows s s' ∧ ∀ q, OnStack counter s q → Marked s' q := by
  refine ends_iter (fun counter' s' => Tracing heapmem s₀ R v (OnStack counter' s') s' ∧ Grows s s' ∧
      ∀ q, OnStack counter s q → Marked s' q ∨ OnStack counter' s' q)
    (fun counter' s' => 2 * unmarked heapmem s' + counter') (fun counter' s' hJ => ?_) hfuel
    ⟨h, .refl s, fun q hq => .inr hq⟩
  obtain ⟨hT, hgrow, hcover⟩ := hJ
  by_cases hc : counter' ≥ 1
  · rw [if_pos hc]
    refine ends_bind.2 (ends_load.2 ?_)
    rw [← slots_eq]
    have hpop : Tracing heapmem s₀ R v (fun q => q = slots s' counter' ∨ OnStack (counter' - 1) s' q) s' :=
      hT.repend (fun q hq => .inl ((onStack_pop hc).1 hq)) fun q hq => hT.pending q ((onStack_pop hc).2 hq)
    refine ends_bind.2 ((ends_traceObj hheap hgraph hv hpop).mono fun c s'' hs => ends_ret.2 ?_)
    obtain ⟨hT', hgrow', hm, hkeep, hlt⟩ := hs
    refine ⟨⟨hT', hgrow.trans hgrow', fun q hq => ?_⟩, by omega⟩
    obtain hq | hq := hcover q hq
    · exact .inl (hgrow'.marked q hq)
    · obtain rfl | hq := (onStack_pop hc).1 hq
      · exact .inl hm
      · exact .inr (hkeep q hq)
  · rw [if_neg hc]
    have hempty : ∀ q, ¬ OnStack counter' s' q := fun q ⟨k, h1, h2, _⟩ => by omega
    exact ends_ret.2 ⟨hT.repend (fun q hq => absurd hq (hempty q)) fun q hq => hq.elim, hgrow,
      fun q hq => (hcover q hq).resolve_right (hempty q)⟩

end OptimisticAccess.AOA.Solo
