import OptimisticAccess.AOA.Footprint
import OptimisticAccess.AOA.MarkStack

/-!
# Termination of the trace

Threads that trace a heap in one phase and start the next. What `CheckFinish` concludes from its
two passes is right in every run in which no owner marks an object between a scanner's load of the
slot it is in and the scanner's test of its mark bit, and in which slot 0 does not get back to the
value it had at the start.
-/

namespace OptimisticAccess.AOA.Finish

open Conc Prog MarkStack

variable {n : Nat}

/-- A thread that traces and goes on to start the next phase. -/
def tracer (i : Fin n) (fuel : Nat) (HPs : List Ptr) : P n Unit := do
  trace i fuel HPs
  let _ ← Reclamation i fuel

/-- What the trace of a thread starts from. -/
def IsRoot (s : Mem n) (HPs : List Ptr) (p : Ptr) : Prop :=
  p ∈ HPs ∨ p ≠ NULL ∧ ∃ r < s.rootLen.length, p = clearPtr (s.roots r 0)

/-- When `CheckFinish` returns 1 and the phase is still that of the trace, all is marked. -/
def Sound (v : Nat) (HPs : Fin n → List Ptr) (r : Rec (Fin n) (Mem n) Ev) : Prop :=
  r.ev = some (.finished v) → r.pre.phase = v →
    ∀ q, Reachable r.pre (IsRoot r.pre (HPs r.tid)) q → Marked r.pre q

/-- The event of the last step of thread `i`. -/
def lastEv (i : Fin n) (log : List (Rec (Fin n) (Mem n) Ev)) : Option Ev :=
  (log.find? (·.tid = i)).bind (·.ev)

/-- What a step must not do for the trace to be sound. -/
structure Undisturbed (s0 : Mem n) (log : List (Rec (Fin n) (Mem n) Ev)) (r : Rec (Fin n) (Mem n) Ev) : Prop where
  /-- No thread marks what another one has read from its stack and is about to test. -/
  tested : ∀ i ptr, lastEv i log = some (.scanned r.tid ptr) →
    r.ev ≠ some (.bitSet (markWord ptr.addr) (markMask ptr.addr))
  /-- No thread publishes what its slot 0 held, tagged, at the start. -/
  fresh : ∀ cur, r.ev = some (.published cur) → markDeleted cur ≠ (s0.locals r.tid).markstack 0

/-- The condition, computed. -/
def undisturbed (s0 : Mem n) (log : List (Rec (Fin n) (Mem n) Ev)) (r : Rec (Fin n) (Mem n) Ev) : Bool :=
  ((List.finRange n).all fun i =>
    match lastEv i log with
    | some (.scanned ai ptr) => decide (ai = r.tid.val → r.ev ≠ some (.bitSet (markWord ptr.addr) (markMask ptr.addr)))
    | _ => true) &&
  match r.ev with
  | some (.published cur) => decide (markDeleted cur ≠ (s0.locals r.tid).markstack 0)
  | _ => true

theorem undisturbed_iff {s0 : Mem n} {log : List (Rec (Fin n) (Mem n) Ev)} {r : Rec (Fin n) (Mem n) Ev} :
    undisturbed s0 log r = true ↔ Undisturbed s0 log r := by
  rw [undisturbed, Bool.and_eq_true, List.all_eq_true]
  constructor
  · rintro ⟨h1, h2⟩
    refine ⟨fun i ptr e => ?_, fun cur e => ?_⟩
    · have h := h1 i (List.mem_finRange i)
      rw [e] at h
      exact of_decide_eq_true h rfl
    · rw [e] at h2
      exact of_decide_eq_true h2
  · rintro ⟨h1, h2⟩
    refine ⟨fun i _ => ?_, ?_⟩
    · split
      · next ai ptr e => exact decide_eq_true fun hai => h1 i ptr (hai ▸ e)
      · rfl
    · split
      · next cur e => exact decide_eq_true (h2 cur e)
      · rfl

instance (s0 : Mem n) (log : List (Rec (Fin n) (Mem n) Ev)) (r : Rec (Fin n) (Mem n) Ev) :
    Decidable (Undisturbed s0 log r) :=
  decidable_of_iff _ undisturbed_iff

/-- Threads of phase `v` with roots that are single words, and nothing marked yet. -/
structure Start (v : Nat) (HPs : Fin n → List Ptr) (s : Mem n) : Prop where
  phase : s.phase = v
  localVer : ∀ i, (s.locals i).localVer = v
  rootLen : ∀ len ∈ s.rootLen, len = 1
  heap : ∀ p, IsObj p → child s p ≠ NULL → IsObj (child s p)
  roots : ∀ i p, IsRoot s (HPs i) p → IsObj p
  marks : ∀ p, IsObj p → s.marks (markWord p.addr) = Stamp.empty v
  finished : ∀ i, ((s.locals i).markstack 0).tag = true
  slots : ∀ i l, 1 ≤ l → (s.locals i).markstack l = NULL ∨ IsObj ((s.locals i).markstack l)

/-! ## The protocol -/

abbrev Ghost (n : Nat) := Fin n → Task

abbrev W (n : Nat) := World (Fin n) (Mem n) Ev (Ghost n)

def stk (s : Mem n) (i : Fin n) : Nat → Ptr := (s.locals i).markstack

def markedSet (s : Mem n) : Set Ptr := {q | IsObj q ∧ Marked s q}

/-- What every state of phase `v` has. -/
structure Good (s0 : Mem n) (v : Nat) (s : Mem n) (t : Ghost n) : Prop where
  node : s.node = s0.node
  roots : s.roots = s0.roots
  rootLen : s.rootLen = s0.rootLen
  localVer : ∀ i, (s.locals i).localVer = v
  stamp : ∀ p, IsObj p → Stamp.hi (s.marks (markWord p.addr)) = v % 2 ^ 32
  ok : ∀ i, Ok (child s0) (stk s0 i 0) (stk s i) (markedSet s) (t i)
  covered : ∀ p ∈ markedSet s, child s0 p ≠ NULL → child s0 p ∈ markedSet s ∨ ∃ i, Duty (stk s i) (t i) (child s0 p)

/-- A step of thread `i` on the memory is one of its mark stack. -/
structure Moves (s0 : Mem n) (i : Fin n) (e : Option Ev) (s : Mem n) (t : Task) (s' : Mem n) (t' : Task) : Prop where
  step : Step (child s0) (stk s0 i 0) (stk s i) (markedSet s) t (stk s' i) (markedSet s') t'
  others : ∀ j, j ≠ i → stk s' j = stk s j
  told : ∀ q ∈ markedSet s', q ∉ markedSet s → e = some (.bitSet (markWord q.addr) (markMask q.addr))
  node : s'.node = s.node
  roots : s'.roots = s.roots
  rootLen : s'.rootLen = s.rootLen
  localVer : ∀ j, (s'.locals j).localVer = (s.locals j).localVer
  stamp : ∀ h, Stamp.hi (s'.marks h) = Stamp.hi (s.marks h)

/-- A step of thread `i` in phase `v`. -/
structure Acts (s0 : Mem n) (i : Fin n) (e : Option Ev) (w w' : W n) : Prop where
  log : w'.log = ⟨i, w.mem, e, w'.mem⟩ :: w.log
  moves : Moves s0 i e w.mem (w.ghost i) w'.mem (w'.ghost i)
  ghost : ∀ j, j ≠ i → w'.ghost j = w.ghost j
  tested : ∀ j ptr, lastEv j w.log = some (.scanned i ptr) →
    e ≠ some (.bitSet (markWord ptr.addr) (markMask ptr.addr))

variable {s0 : Mem n} {v : Nat} {HPs : Fin n → List Ptr} {i : Fin n}

theorem Good.step {s s' : Mem n} {t t' : Ghost n} {e : Option Ev} (hg : Good s0 v s t)
    (hheap : ∀ p, IsObj p → child s0 p ≠ NULL → IsObj (child s0 p)) (h : Moves s0 i e s (t i) s' (t' i))
    (ht : ∀ j, j ≠ i → t' j = t j) : Good s0 v s' t' where
  node := h.node.trans hg.node
  roots := h.roots.trans hg.roots
  rootLen := h.rootLen.trans hg.rootLen
  localVer := fun j => (h.localVer j).trans (hg.localVer j)
  stamp := fun p hp => (h.stamp _).trans (hg.stamp p hp)
  ok := by
    intro j
    by_cases e : j = i
    · subst e
      exact h.step.ok (hg.ok j) hheap
    · rw [h.others j e, ht j e]
      exact (hg.ok j).mono h.step.marks
  covered := by
    intro p hp hne
    by_cases hold : p ∈ markedSet s
    · rcases hg.covered p hold hne with hm | ⟨j, hd⟩
      · exact .inl (h.step.marks hm)
      · by_cases e : j = i
        · subst e
          exact (h.step.duty (hg.ok j) hd).imp_right fun hd => ⟨j, hd⟩
        · exact .inr ⟨j, by rw [h.others j e, ht j e]; exact hd⟩
    · exact .inr ⟨i, h.step.newDuty (hg.ok i) hp hold hne⟩

/-- With nobody at work, what is marked is closed. -/
theorem Good.closed {s : Mem n} {t : Ghost n} (hg : Good s0 v s t) {R : Ptr → Prop}
    (hroot : ∀ p, R p → p ∈ markedSet s) (hduty : ∀ i q, Duty (stk s i) (t i) q → q ∈ markedSet s) {q : Ptr}
    (hq : Reachable s0 R q) : q ∈ markedSet s := by
  refine hq.induction hroot ?_
  rintro p _ hp ⟨hne, rfl⟩
  rcases hg.covered p hp hne with hm | ⟨i, hd⟩
  · exact hm
  · exact hduty i _ hd

def proto (s0 : Mem n) (v : Nat) (HPs : Fin n → List Ptr) : Proto (Fin n) (Mem n) Ev (Ghost n) where
  inv w := v ≤ w.mem.phase ∧ (w.mem.phase = v → Good s0 v w.mem w.ghost) ∧ Along (fun _ => Sound v HPs) w.log
  act i w w' := w.mem.phase ≤ w'.mem.phase ∧ (w'.mem.phase = v → ∃ e, Acts s0 i e w w')
  allow := Undisturbed s0

/-- An assertion about phase `v`. -/
def While (v : Nat) (A : W n → Prop) (w : W n) : Prop := w.mem.phase = v → A w

/-- Steps of other threads keep `A`. -/
def Steady (s0 : Mem n) (v : Nat) (i : Fin n) (A : W n → Prop) : Prop :=
  ∀ j e w w', j ≠ i → Good s0 v w.mem w.ghost → Acts s0 j e w w' → A w → A w'

/-- Steps of every thread keep `F`. -/
def Kept (s0 : Mem n) (v : Nat) (F : W n → Prop) : Prop :=
  ∀ j e w w', Good s0 v w.mem w.ghost → Acts s0 j e w w' → F w → F w'

variable {A A' F : W n → Prop} {w : W n}

theorem Kept.steady (hF : Kept s0 v F) : Steady s0 v i F := fun j e w w' _ hg ha h => hF j e w w' hg ha h

theorem kept_const (p : Prop) : Kept s0 v (fun _ : W n => p) := fun _ _ _ _ _ _ h => h

theorem Kept.imp (hF : Kept s0 v F) (p : Prop) : Kept s0 v fun w => p → F w :=
  fun j e w w' hg ha h hp => hF j e w w' hg ha (h hp)

theorem Steady.and (hA : Steady s0 v i A) (hA' : Steady s0 v i A') : Steady s0 v i fun w => A w ∧ A' w :=
  fun j e w w' hj hg ha h => ⟨hA j e w w' hj hg ha h.1, hA' j e w w' hj hg ha h.2⟩

theorem steady_const (p : Prop) : Steady s0 v i (fun _ : W n => p) := fun _ _ _ _ _ _ _ h => h

theorem stable_while (hA : Steady s0 v i A) : (proto s0 v HPs).Stable i (While v A) := by
  intro j w w' hj hI _ hact hw hv
  have hphase : w.mem.phase = v := le_antisymm (hact.1.trans hv.le) hI.1
  obtain ⟨e, ha⟩ := hact.2 hv
  exact hA j e w w' hj (hI.2.1 hphase) ha (hw hphase)

/-- The step rule. -/
theorem wp_act (hs0 : Start v HPs s0) {α : Type} {f : Mem n → α}
    {ev : Mem n → Option Ev} {upd : Mem n → Mem n} {B : α → W n → Prop} (hA : Steady s0 v i A)
    (hphase : ∀ s, s.phase ≤ (upd s).phase) (hev : ∀ s, ev s ≠ some (.finished v))
    (h : ∀ w, A w → Good s0 v w.mem w.ghost → Undisturbed s0 w.log ⟨i, w.mem, ev w.mem, upd w.mem⟩ →
      (upd w.mem).phase = v → ∃ t', Moves s0 i (ev w.mem) w.mem (w.ghost i) (upd w.mem) t' ∧
        ∀ w', Acts s0 i (ev w.mem) w w' → w'.mem = upd w.mem → w'.ghost i = t' → B (f w.mem) w') (hw : While v A w) :
    (proto s0 v HPs).wp i (step ev upd fun s => ret (f s)) (fun a => While v (B a)) w := by
  refine Proto.wp_step _ hw (stable_while hA) fun w hw hI hok => ?_
  have hle : v ≤ (upd w.mem).phase := hI.1.trans (hphase w.mem)
  have hsound : Sound v HPs ⟨i, w.mem, ev w.mem, upd w.mem⟩ := fun e => absurd e (hev w.mem)
  by_cases hv : (upd w.mem).phase = v
  · have hv0 : w.mem.phase = v := le_antisymm ((hphase w.mem).trans hv.le) hI.1
    obtain ⟨t', hm, hB⟩ := h w (hw hv0) (hI.2.1 hv0) hok hv
    have hact : Acts s0 i (ev w.mem) w (w.next i (ev w.mem) (upd w.mem) (Function.update w.ghost i t')) :=
      ⟨rfl, by simpa only [World.next, Function.update_self] using hm, fun j hj => Function.update_of_ne hj ..,
        hok.tested⟩
    refine ⟨Function.update w.ghost i t', ⟨hle, fun _ => ?_, hI.2.2, hsound⟩, ⟨hphase w.mem, fun _ => ⟨_, hact⟩⟩,
      fun _ => hB _ hact rfl (Function.update_self ..)⟩
    exact (hI.2.1 hv0).step hs0.heap hact.moves hact.ghost
  · exact ⟨w.ghost, ⟨hle, fun e => absurd e hv, hI.2.2, hsound⟩, ⟨hphase w.mem, fun e => absurd e hv⟩,
      fun e => absurd e hv⟩

/-- Once the phase is over nothing matters. -/
theorem wp_over {α : Type} {p : P n α} (hp : p.Obeys fun s _ s' => s.phase ≤ s'.phase) {B : α → W n → Prop}
    (hw : While v (fun _ => False) w) : (proto s0 v HPs).wp i p (fun a => While v (B a)) w := by
  refine Proto.wp_mono (Proto.wp_obeys hp (While v fun _ => False) hw (stable_while (steady_const _))
    fun w e s' hw hI _ hle => ⟨w.ghost, ⟨?_, ?_, hI.2.2, fun _ hv => absurd hv hw⟩, ⟨hle, ?_⟩, ?_⟩) fun _ _ h hv => (h hv).elim
  all_goals have hlt : v < w.mem.phase := lt_of_le_of_ne hI.1 fun e => hw e.symm
  · exact hI.1.trans hle
  · intro hv
    exact absurd hv (hlt.trans_le hle).ne'
  · intro hv
    exact absurd hv (hlt.trans_le hle).ne'
  · intro hv
    exact absurd hv (hlt.trans_le hle).ne'

/-! ## Steps of the memory -/

/-- Nothing changes that the trace depends on. -/
structure Same (s s' : Mem n) : Prop where
  node : s'.node = s.node
  roots : s'.roots = s.roots
  rootLen : s'.rootLen = s.rootLen
  marks : s'.marks = s.marks
  stk : ∀ j, stk s' j = stk s j
  localVer : ∀ j, (s'.locals j).localVer = (s.locals j).localVer

theorem Same.refl (s : Mem n) : Same s s := ⟨rfl, rfl, rfl, rfl, fun _ => rfl, fun _ => rfl⟩

theorem markedSet_congr {s s' : Mem n} (h : s'.marks = s.marks) : markedSet s' = markedSet s := by
  simp only [markedSet, Marked, h]

theorem stk_setSlot (s : Mem n) (i j : Fin n) (k : Nat) (p : Ptr) :
    stk (s.setSlot i k p) j = if j = i then Function.update (stk s i) k p else stk s j := by
  simp only [stk, Mem.setSlot, Mem.setLocal, Function.update_apply]
  by_cases e : j = i
  · subst e; simp
  · simp [e]

theorem localVer_setSlot (s : Mem n) (i j : Fin n) (k : Nat) (p : Ptr) :
    ((s.setSlot i k p).locals j).localVer = (s.locals j).localVer := by
  simp only [Mem.setSlot, Mem.setLocal, Function.update_apply]
  split <;> simp_all

theorem markedSet_setMark {s : Mem n} {c : Ptr} (hc : IsObj c) : markedSet (s.setMark c) = insert c (markedSet s) := by
  ext q
  rw [Set.mem_insert_iff]
  constructor
  · rintro ⟨hq, hm⟩
    exact ((marked_setMark hc hq).1 hm).imp_right fun hm => ⟨hq, hm⟩
  · rintro (rfl | ⟨hq, hm⟩)
    · exact ⟨hc, marked_setMark_self s q⟩
    · exact ⟨hq, hm.setMark c⟩

theorem moves_same {s s' : Mem n} {t t' : Task} {e : Option Ev} (h : Same s s')
    (hstep : Step (child s0) (stk s0 i 0) (stk s i) (markedSet s) t (stk s i) (markedSet s) t') :
    Moves s0 i e s t s' t' := by
  have hM := markedSet_congr h.marks
  refine ⟨by rw [h.stk i, hM]; exact hstep, fun j _ => h.stk j, fun q hq hn => ?_, h.node, h.roots, h.rootLen,
    h.localVer, fun k => by rw [h.marks]⟩
  exact absurd (hM ▸ hq) hn

theorem moves_setSlot {s : Mem n} {t t' : Task} {e : Option Ev} {k : Nat} {p : Ptr}
    (hstep : Step (child s0) (stk s0 i 0) (stk s i) (markedSet s) t (Function.update (stk s i) k p) (markedSet s) t') :
    Moves s0 i e s t (s.setSlot i k p) t' := by
  have hM : markedSet (s.setSlot i k p) = markedSet s := markedSet_congr rfl
  refine ⟨by rw [stk_setSlot, if_pos rfl, hM]; exact hstep, fun j hj => by rw [stk_setSlot, if_neg hj],
    fun q hq hn => absurd (hM ▸ hq) hn, rfl, rfl, rfl, (localVer_setSlot s i · k p), fun _ => rfl⟩

theorem moves_setMark {s : Mem n} {t t' : Task} {c : Ptr} (hc : IsObj c)
    (hstep : Step (child s0) (stk s0 i 0) (stk s i) (markedSet s) t (stk s i) (insert c (markedSet s)) t') :
    Moves s0 i (some (.bitSet (markWord c.addr) (markMask c.addr))) s t (s.setMark c) t' := by
  have hM := markedSet_setMark (s := s) hc
  refine ⟨by rw [hM]; exact hstep, fun j _ => rfl, fun q hq hn => ?_, rfl, rfl, rfl, fun _ => rfl, hi_setMark s c⟩
  rw [hM] at hq
  rw [(Set.mem_insert_iff.1 hq).resolve_right hn]

/-! ## What a thread knows of itself -/

/-- Thread `i` works for phase `lv`, at `c` slots and stage `st`; the roots it is to trace are
marked or on its stack, but for those in `rest`. -/
structure Own (s0 : Mem n) (v : Nat) (HPs : Fin n → List Ptr) (i : Fin n) (lv c : Nat) (st : Stage)
    (rest : Ptr → Prop) (w : W n) : Prop where
  ver : lv = v
  cnt : (w.ghost i).cnt = c
  stage : (w.ghost i).stage = st
  seen : ∀ p, IsRoot s0 (HPs i) p → rest p ∨ p ∈ markedSet w.mem ∨ Held (stk w.mem i) (w.ghost i) p

variable {lv c c' : Nat} {st st' : Stage} {rest rest' : Ptr → Prop}

theorem steady_own : Steady s0 v i (Own s0 v HPs i lv c st rest) := by
  intro j e w w' hj _ ha h
  have hi := ha.ghost i fun e => hj e.symm
  refine ⟨h.ver, hi ▸ h.cnt, hi ▸ h.stage, fun p hp => ?_⟩
  rw [hi, ha.moves.others i fun e => hj e.symm]
  exact (h.seen p hp).imp_right fun h => h.imp_left fun hm => ha.moves.step.marks hm

/-- A step of its own. -/
theorem Own.next {w' : W n} {e : Option Ev} {t' : Task} (h : Own s0 v HPs i lv c st rest w) (ha : Acts s0 i e w w')
    (ht : w'.ghost i = t') (hcnt : t'.cnt = c') (hst : t'.stage = st') : Own s0 v HPs i lv c' st' rest w' := by
  refine ⟨h.ver, ht ▸ hcnt, ht ▸ hst, fun p hp => (h.seen p hp).imp_right ?_⟩
  rintro (hm | hh)
  · exact .inl (ha.moves.step.marks hm)
  · exact ha.moves.step.held hh

theorem Own.seen_all (h : Own s0 v HPs i lv 0 .idle (fun _ => False) w) {p : Ptr} (hp : IsRoot s0 (HPs i) p) :
    p ∈ markedSet w.mem :=
  ((h.seen p hp).resolve_left id).resolve_right (not_held h.stage h.cnt p)

/-- Slot 0 of thread `i` says that it is not at work. -/
def Resting (i : Fin n) (w : W n) : Prop := (stk w.mem i 0).tag = true

theorem steady_resting : Steady s0 v i (Resting i) := by
  intro j e w w' hj _ ha h
  rw [Resting, ha.moves.others i fun e => hj e.symm]
  exact h

/-! ## Tracing one object -/

/-- A load that moves nothing. -/
theorem wp_load (hs0 : Start v HPs s0) {α : Type} {f : Mem n → α} {B : α → W n → Prop} (hA : Steady s0 v i A)
    (h : ∀ w, A w → Good s0 v w.mem w.ghost →
      ∀ w', Acts s0 i none w w' → w'.mem = w.mem → w'.ghost i = w.ghost i → B (f w.mem) w') (hw : While v A w) :
    (proto s0 v HPs).wp i (load f) (fun a => While v (B a)) w :=
  wp_act hs0 hA (fun _ => le_rfl) (fun _ e => (by cases e))
    (fun w hA hg _ _ => ⟨w.ghost i, moves_same (.refl _) .keep, h w hA hg⟩) hw

/-- A compare-and-swap. -/
theorem wp_cas (hs0 : Start v HPs s0) {ok : Mem n → Prop} [DecidablePred ok] {upd : Mem n → Mem n} {e : Option Ev}
    {B : Bool → W n → Prop} (hA : Steady s0 v i A) (hphase : ∀ s, ok s → s.phase ≤ (upd s).phase)
    (hev : e ≠ some (.finished v))
    (hyes : ∀ w, A w → Good s0 v w.mem w.ghost → ok w.mem → (upd w.mem).phase = v →
      ∃ t', Moves s0 i e w.mem (w.ghost i) (upd w.mem) t' ∧
        ∀ w', Acts s0 i e w w' → w'.mem = upd w.mem → w'.ghost i = t' → B true w')
    (hno : ∀ w, A w → Good s0 v w.mem w.ghost → ¬ ok w.mem → w.mem.phase = v →
      ∀ w', Acts s0 i none w w' → w'.mem = w.mem → w'.ghost i = w.ghost i → B false w') (hw : While v A w) :
    (proto s0 v HPs).wp i (cas ok upd e) (fun b => While v (B b)) w := by
  refine wp_act hs0 hA (fun s => ?_) (fun s => ?_) (fun w hA hg _ hv => ?_) hw
  · split
    · next h => exact hphase s h
    · exact le_rfl
  · split
    · exact hev
    · exact fun e => (by cases e)
  · by_cases h : ok w.mem
    · simp only [if_pos h, decide_eq_true h] at hv ⊢
      exact hyes w hA hg h hv
    · simp only [if_neg h, decide_eq_false h] at hv ⊢
      exact ⟨_, moves_same (.refl _) .keep, hno w hA hg h hv⟩

/-- The object at work is published, and `c'` slots are in use once it is marked. -/
inductive Commits (C : Ptr → Ptr) (cur : Ptr) (c : Nat) : Stage → Nat → Prop
  | leaf (h : C cur = NULL) : Commits C cur c (.opened cur) c
  | node (h : C cur ≠ NULL) : Commits C cur c (.ready cur) (c + 1)

variable {cur : Ptr} {fuel : Nat}

theorem Commits.stage_cur (h : Commits (child s0) cur c st c') : st.cur = some cur := by
  cases h <;> rfl

theorem Own.isObj_cur (h : Own s0 v HPs i lv c st rest w) (hg : Good s0 v w.mem w.ghost) (hcur : st.cur = some cur) :
    IsObj cur :=
  (hg.ok i).isObj_cur (by rw [h.stage]; exact hcur)

theorem clear_iff {s : Mem n} (hc : IsObj cur) :
    (s.marks (markWord cur.addr)).getLsbD (markBit cur.addr) = false ↔ cur ∉ markedSet s := by
  rw [← Bool.not_eq_true]
  exact not_congr ⟨fun h => ⟨hc, h⟩, fun h => h.2⟩

/-- The compare-and-swap that marks `cur`. -/
theorem casMark_spec (hs0 : Start v HPs s0) {old : U64} (hold : old.getLsbD (markBit cur.addr) = false)
    (hw : While v (fun w => Own s0 v HPs i lv c st rest w ∧ Commits (child s0) cur c st c') w) :
    (proto s0 v HPs).wp i (casMark (markWord cur.addr) (markMask cur.addr) old)
      (fun b => While v fun w => if b then Own s0 v HPs i lv c' .idle rest w
        else Own s0 v HPs i lv c st rest w ∧ Commits (child s0) cur c st c') w := by
  refine wp_cas hs0 (steady_own.and (steady_const _)) (fun _ _ => le_rfl) (fun e => (by cases e))
    (fun w hA hg hok _ => ?_) (fun w hA _ _ _ w' ha _ ht => ⟨hA.1.next ha ht hA.1.cnt hA.1.stage, hA.2⟩) hw
  subst hok
  obtain ⟨ho, hcom⟩ := hA
  have hc := ho.isObj_cur hg hcom.stage_cur
  cases hcom with
  | leaf hnull =>
    exact ⟨_, moves_setMark hc (.markLeaf ho.stage hnull), fun w' ha _ ht => ho.next ha ht ho.cnt rfl⟩
  | node hne =>
    exact ⟨_, moves_setMark hc (.markNode ho.stage ((clear_iff hc).1 hold)), fun w' ha _ ht =>
      ho.next ha ht (congrArg (· + 1) ho.cnt) rfl⟩

/-- The word read is in phase. -/
theorem Good.isCurPhase {s : Mem n} {t : Ghost n} (hg : Good s0 v s t) (hc : IsObj cur) :
    isCurPhase (s.marks (markWord cur.addr)) (makeSC 0 v) = true := by
  rw [makeSC_zero, isCurPhase_empty]
  exact hg.stamp cur hc

/-- The load of a mark word by a thread at work on an object: if the object is marked, that is it. -/
theorem loadMark_spec (hs0 : Start v HPs s0) (φ : Prop) (hcur : φ → st.cur = some cur)
    (hw : While v (fun w => Own s0 v HPs i lv c st rest w ∧ φ) w) :
    (proto s0 v HPs).wp i (load (·.marks (markWord cur.addr)))
      (fun old => While v fun w => if old.getLsbD (markBit cur.addr) then Own s0 v HPs i lv c .idle rest w
        else Own s0 v HPs i lv c st rest w ∧ φ ∧ isCurPhase old (makeSC 0 lv) = true ∧
          ∀ d, st = .popped d → cur ∉ (w.ghost i).past ∧ cur ≠ stk w.mem i 0) w := by
  refine wp_act (f := fun s : Mem n => s.marks (markWord cur.addr)) hs0 (steady_own.and (steady_const _))
    (fun _ => le_rfl) (fun _ e => (by cases e)) (fun w hA hg _ _ => ?_) hw
  obtain ⟨ho, hφ⟩ := hA
  have hc := ho.isObj_cur hg (hcur hφ)
  by_cases hm : cur ∈ markedSet w.mem
  · refine ⟨_, moves_same (.refl _) (.drop (by rw [ho.stage]; exact hcur hφ) hm), fun w' ha _ ht => ?_⟩
    rw [if_pos (show (w.mem.marks _).getLsbD _ = true from hm.2)]
    exact ho.next ha ht ho.cnt rfl
  · refine ⟨_, moves_same (.refl _) .keep, fun w' ha hmem ht => ?_⟩
    rw [if_neg (by rw [(clear_iff hc).2 hm]; exact Bool.false_ne_true)]
    refine ⟨ho.next ha ht ho.cnt ho.stage, hφ, ho.ver ▸ hg.isCurPhase hc, fun d hd => ⟨fun hp => hm ?_, fun e => hm ?_⟩⟩
    · rw [ht] at hp
      exact (hg.ok i).past_marked cur hp hc.tag
    · rw [show w'.mem = w.mem from hmem] at e
      have htop := (hg.ok i).top_marked (e ▸ hc.tag) (.inr ⟨d, ho.stage.trans hd⟩)
      rwa [← e] at htop

/-- `__mark`: in the end `cur` is marked, by this thread or by another. -/
theorem mark_spec (hs0 : Start v HPs s0) {old : U64} (hold : old.getLsbD (markBit cur.addr) = false)
    (hw : While v (fun w => Own s0 v HPs i lv c st rest w ∧ Commits (child s0) cur c st c' ∧
      isCurPhase old (makeSC 0 lv) = true) w) :
    (proto s0 v HPs).wp i (mark fuel (markWord cur.addr) (markMask cur.addr) old (makeSC 0 lv))
      (fun b => While v (Own s0 v HPs i lv (if b then c' else c) .idle rest)) w := by
  unfold mark
  by_cases hcur : isCurPhase old (makeSC 0 lv) = true
  · rw [if_neg (by simp [hcur]), Proto.wp_bind]
    refine Proto.wp_mono (casMark_spec hs0 hold fun hv => ⟨(hw hv).1, (hw hv).2.1⟩) fun b w hw => ?_
    cases b with
    | true => exact hw
    | false =>
      refine Proto.wp_iter (fun _ => While v fun w => Own s0 v HPs i lv c st rest w ∧ Commits (child s0) cur c st c')
        (fun _ w hw => ?_) fuel () hw
      rw [Proto.wp_bind]
      refine Proto.wp_mono (loadMark_spec hs0 _ (fun h => h.stage_cur) hw) fun old w hw => ?_
      rw [and_markMask]
      cases hb : old.getLsbD (markBit cur.addr) with
      | true =>
        simp only [hb, if_true] at hw ⊢
        exact hw
      | false =>
        simp only [hb, if_false, Bool.false_eq_true] at hw ⊢
        by_cases hcur : isCurPhase old (makeSC 0 lv) = true
        · rw [if_neg (by simp [hcur]), Proto.wp_bind]
          refine Proto.wp_mono (casMark_spec hs0 hb fun hv => ⟨(hw hv).1, (hw hv).2.1⟩) fun b w hw => ?_
          cases b with
          | true => exact hw
          | false => exact hw
        · rw [if_pos (by simp [hcur])]
          exact fun hv => absurd (hw hv).2.2.1 hcur
  · rw [if_pos (by simp [hcur])]
    exact fun hv => absurd (hw hv).2.2 hcur

/-- A store to a slot. -/
theorem setSlot_spec (hs0 : Start v HPs s0) {k : Nat} {p : Ptr} {B : W n → Prop} (hA : Steady s0 v i A)
    (h : ∀ w, A w → Good s0 v w.mem w.ghost → ∃ t',
      Step (child s0) (stk s0 i 0) (stk w.mem i) (markedSet w.mem) (w.ghost i)
        (Function.update (stk w.mem i) k p) (markedSet w.mem) t' ∧
      ∀ w', Acts s0 i none w w' → w'.mem = w.mem.setSlot i k p → w'.ghost i = t' → B w') (hw : While v A w) :
    (proto s0 v HPs).wp i (setSlot i k p) (fun _ => While v B) w := by
  refine wp_act (B := fun _ => B) hs0 hA (fun _ => le_rfl) (fun _ e => (by cases e)) (fun w hA hg _ _ => ?_) hw
  obtain ⟨t', hstep, hB⟩ := h w hA hg
  exact ⟨t', moves_setSlot hstep, hB⟩

/-- `traceObj` with its object in hand. -/
theorem traceObj_spec (hs0 : Start v HPs s0) (hw : While v (Own s0 v HPs i lv c (.popped cur) rest) w) :
    (proto s0 v HPs).wp i (traceObj i fuel cur c (makeSC 0 lv))
      (fun c' => While v (Own s0 v HPs i lv c' .idle rest)) w := by
  unfold traceObj
  rw [Proto.wp_bind]
  refine Proto.wp_mono (loadMark_spec hs0 True (fun _ => rfl) fun hv => ⟨hw hv, trivial⟩) fun old w hw => ?_
  rw [and_markMask]
  cases hb : old.getLsbD (markBit cur.addr) with
  | true =>
    simp only [hb, if_true] at hw ⊢
    exact hw
  | false =>
    simp only [hb, if_false, Bool.false_eq_true] at hw ⊢
    -- publish
    rw [Proto.wp_bind]
    refine Proto.wp_mono (wp_act (f := fun _ => ())
      (B := fun _ w => Own s0 v HPs i lv c (.opened cur) rest w ∧ isCurPhase old (makeSC 0 lv) = true)
      (A := fun w => Own s0 v HPs i lv c (.popped cur) rest w ∧ isCurPhase old (makeSC 0 lv) = true ∧
        cur ∉ (w.ghost i).past ∧ cur ≠ stk w.mem i 0) hs0 ?_ (fun _ => le_rfl)
      (fun _ e => (by cases e)) (fun w hA hg hok _ => ?_) fun hv => ?_) fun _ w hw => ?_
    · refine steady_own.and ((steady_const _).and ?_)
      intro j e w w' hj _ ha h
      rw [ha.ghost i fun e => hj e.symm, ha.moves.others i fun e => hj e.symm]
      exact h
    · obtain ⟨ho, hcur, hpast, htop⟩ := hA
      exact ⟨_, moves_setSlot (.publish ho.stage hpast htop (hok.fresh cur rfl)), fun w' ha _ ht =>
        ⟨ho.next ha ht ho.cnt rfl, hcur⟩⟩
    · exact ⟨(hw hv).1, (hw hv).2.2.1, (hw hv).2.2.2 cur rfl⟩
    -- the child
    rw [Proto.wp_bind]
    refine Proto.wp_mono (wp_load (f := fun s => clearPtr (s.node cur.addr).nextEntry)
      (B := fun nxt w => Own s0 v HPs i lv c (.opened cur) rest w ∧ isCurPhase old (makeSC 0 lv) = true ∧
        nxt = child s0 cur) hs0 (steady_own.and (steady_const _)) (fun w hA hg w' ha hmem ht => ?_) hw) fun nxt w hw => ?_
    · refine ⟨hA.1.next ha ht hA.1.cnt hA.1.stage, hA.2, ?_⟩
      rw [child, hg.node]
    by_cases hnull : nxt = NULL
    · subst hnull
      rw [if_pos rfl, Proto.wp_bind]
      have hleaf : While v (fun w => Own s0 v HPs i lv c (.opened cur) rest w ∧
          Commits (child s0) cur c (.opened cur) c ∧ isCurPhase old (makeSC 0 lv) = true) w := by
        intro hv
        obtain ⟨ho, hcur, hnxt⟩ := hw hv
        exact ⟨ho, .leaf hnxt.symm, hcur⟩
      refine Proto.wp_mono (mark_spec hs0 hb hleaf) fun b w hw => ?_
      rw [ite_self] at hw
      exact hw
    · rw [if_neg hnull, Proto.wp_bind]
      refine Proto.wp_mono (setSlot_spec (B := fun w => Own s0 v HPs i lv c (.ready cur) rest w ∧
        Commits (child s0) cur c (.ready cur) (c + 1) ∧ isCurPhase old (makeSC 0 lv) = true) hs0
        (steady_own.and (steady_const _)) (fun w hA hg => ?_) hw) fun _ w hw => ?_
      · obtain ⟨ho, hcur, rfl⟩ := hA
        have hstep : Step _ (stk s0 i 0) (stk w.mem i) (markedSet w.mem) _ _ _ _ := .write ho.stage hnull
        rw [ho.cnt] at hstep
        exact ⟨_, hstep, fun w' ha _ ht => ⟨ho.next ha ht rfl rfl, .node hnull, hcur⟩⟩
      rw [Proto.wp_bind]
      refine Proto.wp_mono (mark_spec hs0 hb hw) fun b w hw => ?_
      cases b with
      | true => exact hw
      | false =>
        rw [if_neg Bool.false_ne_true, Proto.wp_bind]
        rw [if_neg Bool.false_ne_true] at hw
        refine setSlot_spec hs0 steady_own (fun w ho hg => ?_) hw
        have hstep : Step (child s0) (stk s0 i 0) (stk w.mem i) (markedSet w.mem) _ _ _ _ := .scratch ho.stage
        rw [ho.cnt] at hstep
        exact ⟨_, hstep, fun w' ha _ ht => ho.next ha ht ho.cnt ho.stage⟩

/-- The stack is worked off. -/
theorem traceMarkstack_spec (hs0 : Start v HPs s0) (hw : While v (Own s0 v HPs i lv c .idle rest) w) :
    (proto s0 v HPs).wp i (traceMarkstack i fuel c (makeSC 0 lv))
      (fun _ => While v (Own s0 v HPs i lv 0 .idle rest)) w := by
  refine Proto.wp_iter (fun c => While v (Own s0 v HPs i lv c .idle rest)) (fun c w hw => ?_) fuel c hw
  by_cases hc : c ≥ 1
  · rw [if_pos hc, Proto.wp_bind]
    obtain ⟨k, rfl⟩ : ∃ k, c = k + 1 := ⟨c - 1, by omega⟩
    refine Proto.wp_mono (wp_act (f := fun s => (s.locals i).markstack (k + 1))
      (B := fun cur => Own s0 v HPs i lv k (.popped cur) rest) hs0 steady_own (fun _ => le_rfl)
      (fun _ e => (by cases e)) (fun w ho hg _ _ => ?_) hw) fun cur w hw => ?_
    · exact ⟨_, moves_same (.refl _) (.pop ho.stage ho.cnt), fun w' ha _ ht => ho.next ha ht rfl rfl⟩
    · rw [Nat.add_sub_cancel, Proto.wp_bind]
      exact Proto.wp_mono (traceObj_spec hs0 hw) fun c w hw => hw
  · rw [if_neg hc]
    obtain rfl : c = 0 := by omega
    exact hw

/-- The thread reports that it has nothing to do. -/
theorem finishSlot_spec (hs0 : Start v HPs s0) (hw : While v (Own s0 v HPs i lv 0 .idle rest) w) :
    (proto s0 v HPs).wp i (finishSlot i) (fun _ => While v fun w => Own s0 v HPs i lv 0 .idle rest w ∧ Resting i w) w := by
  unfold finishSlot
  rw [Proto.wp_bind]
  refine Proto.wp_mono (wp_load (f := fun s => (s.locals i).markstack 0)
    (B := fun p w => Own s0 v HPs i lv 0 .idle rest w ∧ stk w.mem i 0 = p) hs0 steady_own
    (fun w ho hg w' ha hmem ht => ?_) hw) fun p w hw => ?_
  · exact ⟨ho.next ha ht ho.cnt ho.stage, by rw [hmem]; rfl⟩
  · refine setSlot_spec hs0 (steady_own.and ?_) (fun w hA hg => ?_) hw
    · intro j e w w' hj _ ha h
      rw [ha.moves.others i fun e => hj e.symm]
      exact h
    · obtain ⟨ho, rfl⟩ := hA
      have hrest : ∀ w' : W n, w'.mem = w.mem.setSlot i 0 (markDeleted (stk w.mem i 0)) → Resting i w' := by
        intro w' hmem
        rw [Resting, hmem, stk_setSlot, if_pos rfl, Function.update_self]
        rfl
      cases htag : (stk w.mem i 0).tag with
      | true =>
        have hsame : (⟨(stk w.mem i 0).addr, true⟩ : Ptr) = stk w.mem i 0 := by rw [← htag]
        refine ⟨w.ghost i, ?_, fun w' ha hmem ht => ⟨ho.next ha ht ho.cnt ho.stage, hrest w' hmem⟩⟩
        rw [hsame, Function.update_eq_self]
        exact .keep
      | false =>
        exact ⟨_, .finish ho.stage ho.cnt htag, fun w' ha hmem ht => ⟨ho.next ha ht ho.cnt ho.stage, hrest w' hmem⟩⟩

/-! ## Filling the stack -/

/-- Pushes `p` while at rest. -/
theorem push_spec (hs0 : Start v HPs s0) {p : Ptr} (hF : Kept s0 v F) (hrest : ∀ q, rest q → q = p ∨ rest' q)
    (hw : While v (fun w => (Own s0 v HPs i lv c .idle rest w ∧ Resting i w) ∧ IsObj p ∧ F w) w) :
    (proto s0 v HPs).wp i (setSlot i (c + 1) p)
      (fun _ => While v fun w => (Own s0 v HPs i lv (c + 1) .idle rest' w ∧ Resting i w) ∧ F w) w := by
  refine setSlot_spec hs0 ((steady_own.and steady_resting).and ((steady_const _).and hF.steady)) (fun w hA hg => ?_) hw
  obtain ⟨⟨ho, htop⟩, hp, hf⟩ := hA
  have hstep : Step (child s0) (stk s0 i 0) _ (markedSet w.mem) _ _ _ _ := .push ho.stage htop hp
  rw [ho.cnt] at hstep
  refine ⟨_, hstep, fun w' ha hmem ht => ⟨⟨⟨ho.ver, ht ▸ rfl, ht ▸ ho.stage, fun q hq => ?_⟩, ?_⟩, hF _ _ w w' hg ha hf⟩⟩
  · rcases ho.seen q hq with hr | hm | hh
    · rcases hrest q hr with rfl | hr
      · refine .inr (.inr (.inl ⟨c + 1, Nat.le_add_left .., ht ▸ le_rfl, ?_⟩))
        rw [hmem, stk_setSlot, if_pos rfl, Function.update_self]
      · exact .inl hr
    · exact .inr (.inl (ha.moves.step.marks hm))
    · exact .inr (ha.moves.step.held hh)
  · rw [Resting, hmem, stk_setSlot, if_pos rfl, Function.update_of_ne (Nat.succ_ne_zero c).symm]
    exact htop

/-- `rest` can shrink to what has to be traced. -/
theorem Own.rest_mono (h : Own s0 v HPs i lv c st rest w) (hrest : ∀ p, IsRoot s0 (HPs i) p → rest p → rest' p) :
    Own s0 v HPs i lv c st rest' w :=
  ⟨h.ver, h.cnt, h.stage, fun p hp => (h.seen p hp).imp_left (hrest p hp)⟩

/-- The roots that are left. -/
def RootsLeft (s0 : Mem n) (HPs : List Ptr) (l : List (Nat × Nat)) (p : Ptr) : Prop :=
  p ∈ HPs ∨ ∃ x ∈ l, p = clearPtr (s0.roots x.1 0)

/-- One round of the loop of `traceRoots`. -/
theorem traceRoot_spec (hs0 : Start v HPs s0) (c : Nat) (x : Nat × Nat) (bs : List (Nat × Nat)) (w : W n)
    (hw : While v (fun w => (Own s0 v HPs i lv c .idle (RootsLeft s0 (HPs i) (x :: bs)) w ∧ Resting i w) ∧
      ∀ y ∈ x :: bs, y.2 = 1 ∧ y.1 < s0.rootLen.length) w) :
    (proto s0 v HPs).wp i (if x.2 ≠ 1 then do
          traceArr i fuel x.1 x.2
          return c
        else do
          let child ← load fun s => clearPtr (s.roots x.1 0)
          if child = NULL then return c
          else do
            setSlot i (c + 1) child
            return c + 1)
      (fun c => While v fun w => (Own s0 v HPs i lv c .idle (RootsLeft s0 (HPs i) bs) w ∧ Resting i w) ∧
        ∀ y ∈ bs, y.2 = 1 ∧ y.1 < s0.rootLen.length) w := by
  by_cases hlen : x.2 ≠ 1
  · rw [if_pos hlen, Proto.wp_bind]
    have hover : While v (fun _ => False) w := fun hv => hlen ((hw hv).2 _ List.mem_cons_self).1
    refine Proto.wp_mono (wp_over (B := fun _ _ => False) (obeys_traceArr.mono fun s e s' h => h.phase.ge) hover) ?_
    exact fun _ w hw hv => (hw hv).elim
  rw [if_neg hlen, Proto.wp_bind]
  refine Proto.wp_mono (wp_load (f := fun s => clearPtr (s.roots x.1 0)) (B := fun p w =>
    (Own s0 v HPs i lv c .idle (RootsLeft s0 (HPs i) (x :: bs)) w ∧ Resting i w) ∧
      (p = clearPtr (s0.roots x.1 0) ∧ ∀ y ∈ x :: bs, y.2 = 1 ∧ y.1 < s0.rootLen.length)) hs0
    ((steady_own.and steady_resting).and (steady_const _)) (fun w hA hg w' ha hmem ht => ?_) hw) fun p w hw => ?_
  · refine ⟨⟨hA.1.1.next ha ht hA.1.1.cnt hA.1.1.stage, by rw [Resting, hmem]; exact hA.1.2⟩, ?_, hA.2⟩
    rw [hg.roots]
  by_cases hnull : p = NULL
  · rw [if_pos hnull]
    intro hv
    obtain ⟨⟨ho, hr⟩, rfl, hl⟩ := hw hv
    refine ⟨⟨ho.rest_mono fun q hq => ?_, hr⟩, fun y hy => hl y (List.mem_cons_of_mem _ hy)⟩
    rintro (h | ⟨y, hy, rfl⟩)
    · exact .inl h
    · rcases List.mem_cons.1 hy with rfl | hy
      · exact absurd hnull (hs0.roots i _ hq).ne
      · exact .inr ⟨y, hy, rfl⟩
  · rw [if_neg hnull, Proto.wp_bind]
    have hpush : While v (fun w => (Own s0 v HPs i lv c .idle (fun q => q = p ∨ RootsLeft s0 (HPs i) bs q) w ∧
        Resting i w) ∧ IsObj p ∧ ∀ y ∈ bs, y.2 = 1 ∧ y.1 < s0.rootLen.length) w := by
      intro hv
      obtain ⟨⟨ho, hr⟩, rfl, hl⟩ := hw hv
      refine ⟨⟨ho.rest_mono fun q hq => ?_, hr⟩, ?_, fun y hy => hl y (List.mem_cons_of_mem _ hy)⟩
      · rintro (h | ⟨y, hy, rfl⟩)
        · exact .inr (.inl h)
        · rcases List.mem_cons.1 hy with rfl | hy
          · exact .inl rfl
          · exact .inr (.inr ⟨y, hy, rfl⟩)
      · exact hs0.roots i _ (.inr ⟨hnull, x.1, (hl x List.mem_cons_self).2, rfl⟩)
    exact Proto.wp_mono (push_spec hs0 (kept_const _) (fun q hq => hq) hpush) fun _ w hw => hw

theorem traceRoots_spec (hs0 : Start v HPs s0)
    (hw : While v (fun w => Own s0 v HPs i lv 0 .idle (IsRoot s0 (HPs i)) w ∧ Resting i w) w) :
    (proto s0 v HPs).wp i (traceRoots i fuel 0)
      (fun c => While v fun w => Own s0 v HPs i lv c .idle (· ∈ HPs i) w ∧ Resting i w) w := by
  unfold traceRoots
  rw [Proto.wp_bind]
  refine Proto.wp_mono (wp_load (f := fun s => s.rootLen) (B := fun l w => (Own s0 v HPs i lv 0 .idle (IsRoot s0 (HPs i)) w ∧
    Resting i w) ∧ l = s0.rootLen) hs0 (steady_own.and steady_resting) (fun w hA hg w' ha hmem ht => ?_) hw) fun l w hw => ?_
  · exact ⟨⟨hA.1.next ha ht hA.1.cnt hA.1.stage, by rw [Resting, hmem]; exact hA.2⟩, hg.rootLen⟩
  refine Proto.wp_mono (Proto.wp_foldEach (fun c bs => While v fun w =>
    (Own s0 v HPs i lv c .idle (RootsLeft s0 (HPs i) bs) w ∧ Resting i w) ∧
      ∀ x ∈ bs, x.2 = 1 ∧ x.1 < s0.rootLen.length) (fun c x bs w hw => traceRoot_spec hs0 c x bs w hw) _ 0 ?_) ?_
  · intro hv
    obtain ⟨⟨ho, hr⟩, rfl⟩ := hw hv
    refine ⟨⟨ho.rest_mono fun p _ hp => hp.imp_right ?_, hr⟩, fun x hx => ?_⟩
    · rintro ⟨-, r, hr, rfl⟩
      refine ⟨(r, s0.rootLen[r]), List.mem_iff_getElem.2 ⟨r, by simpa using hr, ?_⟩, rfl⟩
      rw [List.getElem_zip, List.getElem_range]
    · have hmem := List.of_mem_zip (show (x.1, x.2) ∈ _ from hx)
      exact ⟨hs0.rootLen _ hmem.2, List.mem_range.1 hmem.1⟩
  · intro c w hw hv
    refine ⟨(hw hv).1.1.rest_mono fun p _ hp => ?_, (hw hv).1.2⟩
    exact hp.resolve_right fun ⟨x, hx, _⟩ => List.not_mem_nil hx

/-- The list of hazard pointers follows. -/
theorem pushHPs_spec (hs0 : Start v HPs s0)
    (hw : While v (fun w => Own s0 v HPs i lv c .idle (· ∈ HPs i) w ∧ Resting i w) w) :
    (proto s0 v HPs).wp i (foldEach (fun counter p => do
        check (p ≠ NULL ∧ clearPtr p = p) (.assertFailed .hazardPointer)
        setSlot i (counter + 1) p
        return counter + 1) c (HPs i))
      (fun c => While v fun w => Own s0 v HPs i lv c .idle (fun _ => False) w ∧ Resting i w) w := by
  refine Proto.wp_mono (Proto.wp_foldEach (fun c bs w => (∀ p ∈ bs, IsObj p) ∧
    While v (fun w => Own s0 v HPs i lv c .idle (· ∈ bs) w ∧ Resting i w) w) ?_ (HPs i) c
    ⟨fun p hp => hs0.roots i p (.inl hp), hw⟩)
    fun c w h hv => ⟨((h.2 hv).1.rest_mono fun p _ => List.not_mem_nil), (h.2 hv).2⟩
  rintro c p bs w ⟨hobj, hw⟩
  have hp := hobj p List.mem_cons_self
  rw [Proto.wp_bind, check, if_pos ⟨hp.ne, clearPtr_of_tag hp.tag⟩, Proto.wp_ret, Proto.wp_bind]
  refine Proto.wp_mono (push_spec (F := fun _ => True) hs0 (kept_const _)
    (fun q hq => List.mem_cons.1 hq) fun hv => ⟨hw hv, hp, trivial⟩) fun _ w hw => ?_
  exact ⟨fun q hq => hobj q (List.mem_cons_of_mem _ hq), fun hv => (hw hv).1⟩

/-! ## What a scan knows of another thread -/

/-- Slot 0 of thread `ai` held `tr`, and no longer does or `P` is true. -/
def Since (ai : Fin n) (tr : Ptr) (P : (Nat → Ptr) → Set Ptr → Task → Prop) (w : W n) : Prop :=
  tr ∈ (w.ghost ai).past ∨ stk w.mem ai 0 = tr ∧ P (stk w.mem ai) (markedSet w.mem) (w.ghost ai)

variable {ai j : Fin n} {tr ptr : Ptr} {P P' : (Nat → Ptr) → Set Ptr → Task → Prop} {e : Option Ev} {w' : W n}

/-- What a step of thread `j` leaves of it. -/
theorem Since.acts (h : Since ai tr P w) (hg : Good s0 v w.mem w.ghost) (ha : Acts s0 j e w w')
    (hmono : ∀ K M M' t, M ⊆ M' → P K M t → P K M' t)
    (hown : j = ai → ∀ {K M t K' M' t'}, Step (child s0) (stk s0 ai 0) K M t K' M' t' →
      Ok (child s0) (stk s0 ai 0) K M t → (∀ q ∈ M', q ∉ M → e = some (.bitSet (markWord q.addr) (markMask q.addr))) →
      K 0 = tr → P K M t → K 0 ∈ t'.past ∨ P K' M' t') : Since ai tr P w' := by
  by_cases hj : ai = j
  · subst hj
    rcases h with hp | ⟨htr, hP⟩
    · exact .inl (ha.moves.step.past hp)
    · rcases hown rfl ha.moves.step (hg.ok ai) ha.moves.told htr hP with hp | hP'
      · exact .inl (htr ▸ hp)
      · rcases ha.moves.step.top with hp | e
        · exact .inl (htr ▸ hp)
        · exact .inr ⟨e.trans htr, hP'⟩
  · rw [Since, ha.moves.others ai hj, ha.ghost ai hj]
    exact h.imp_right fun h => ⟨h.1, hmono _ _ _ _ ha.moves.step.marks h.2⟩

/-- The slots of `ai` below `k` are seen. -/
def Scanned (s0 : Mem n) (ai : Fin n) (tr : Ptr) (k : Nat) : W n → Prop :=
  Since ai tr fun K M t => Examined (child s0) K M t k

theorem Scanned.acts {k : Nat} (h : Scanned s0 ai tr k w) (htag : tr.tag = false) (hg : Good s0 v w.mem w.ghost)
    (ha : Acts s0 j e w w') : Scanned s0 ai tr k w' :=
  Since.acts h hg ha (fun _ _ _ _ hM h => h.mono hM)
    fun _ _ _ _ _ _ _ hstep hok _ htr h => hstep.examined hok (htr ▸ htag) h

/-- Slot `k` of `ai` is read and about to be tested. -/
def InHand (s0 : Mem n) (ai : Fin n) (tr : Ptr) (k : Nat) (ptr : Ptr) : W n → Prop :=
  Since ai tr fun K M t => Examined (child s0) K M t k ∧ Holding (child s0) K t k ptr

theorem InHand.acts {k : Nat} (h : InHand s0 ai tr k ptr w) (htag : tr.tag = false) (hg : Good s0 v w.mem w.ghost)
    (ha : Acts s0 j e w w') (hlast : lastEv i w.log = some (.scanned ai ptr)) : InHand s0 ai tr k ptr w' := by
  refine Since.acts h hg ha (fun _ _ _ _ hM h => ⟨h.1.mono hM, h.2⟩) ?_
  rintro rfl K M t K' M' t' hstep hok htold htr ⟨he, hh⟩
  rcases hstep.examined hok (htr ▸ htag) he with hp | he'
  · exact .inl hp
  · refine (hstep.holding hok (htr ▸ htag) hh fun hptr => ?_).imp_right fun hh' => ⟨he', hh'⟩
    -- the owner does not mark what the scanner is about to test
    by_contra hnew
    exact ha.tested i ptr hlast (htold ptr hptr hnew)

/-- The whole stack of `ai` above slot 0 is seen. -/
def ScannedAll (s0 : Mem n) (ai : Fin n) (tr : Ptr) (w : W n) : Prop := ∀ k, Scanned s0 ai tr k w

/-- What the first pass has found out about thread `x.1`: its phase was `x.2.1` and its slot 0 held `x.2.2`. -/
def Stale (v : Nat) (w : W n) (x : Fin n × Int × Ptr) : Prop := x.2.1 ≠ v ∨ x.2.2 ∈ (w.ghost x.1).past

/-- Thread `ai` has nothing left to do. -/
def AtRest (w : W n) (ai : Fin n) : Prop :=
  (stk w.mem ai 0).tag = true ∨ NoDuty (stk w.mem ai) (markedSet w.mem) (w.ghost ai)

def Passed (v : Nat) (w : W n) (x : Fin n × Int × Ptr) : Prop :=
  Stale v w x ∨ stk w.mem x.1 0 = x.2.2 ∧ AtRest w x.1

theorem Stale.acts {x : Fin n × Int × Ptr} (h : Stale v w x) (ha : Acts s0 j e w w') : Stale v w' x := by
  refine h.imp_right fun hp => ?_
  by_cases hj : x.1 = j
  · subst hj
    exact ha.moves.step.past hp
  · rw [ha.ghost _ hj]
    exact hp

theorem Passed.acts {x : Fin n × Int × Ptr} (h : Passed v w x) (hg : Good s0 v w.mem w.ghost)
    (ha : Acts s0 j e w w') : Passed v w' x := by
  rcases h with hs | ⟨htop, hrest⟩
  · exact .inl (hs.acts ha)
  · have hsince : Since x.1 x.2.2 (fun K M t => (K 0).tag = true ∨ NoDuty K M t) w := .inr ⟨htop, hrest⟩
    refine (hsince.acts hg ha (fun _ _ _ _ hM h => h.imp_right fun h => h.mono hM) ?_).imp_left .inr
    rintro - K M t K' M' t' hstep hok - - h
    by_cases htag : (K 0).tag = true
    · refine hstep.top.imp_right fun e => .inl ?_
      rw [e]
      exact htag
    · exact (hstep.noDuty hok (by simpa using htag) (h.resolve_left htag)).imp_right .inr

/-! ## CheckFinish -/

/-- Thread `i` has `c` slots filled and is not at work. -/
def Idle (s0 : Mem n) (v : Nat) (HPs : Fin n → List Ptr) (i : Fin n) (lv c : Nat) (w : W n) : Prop :=
  Own s0 v HPs i lv c .idle (fun _ => False) w ∧ Resting i w

theorem steady_idle : Steady s0 v i (Idle s0 v HPs i lv c) := steady_own.and steady_resting

/-- A step that leaves the thread's own stack alone. -/
theorem Idle.next (h : Idle s0 v HPs i lv c w) (ha : Acts s0 i e w w') (hmem : w'.mem = w.mem)
    (ht : w'.ghost i = w.ghost i) : Idle s0 v HPs i lv c w' :=
  ⟨h.1.next ha ht h.1.cnt h.1.stage, by rw [Resting, hmem]; exact h.2⟩

theorem lastEv_other {log : List (Rec (Fin n) (Mem n) Ev)} {r : Rec (Fin n) (Mem n) Ev} (h : r.tid ≠ i) :
    lastEv i (r :: log) = lastEv i log := by
  simp [lastEv, h]

theorem lastEv_self {log : List (Rec (Fin n) (Mem n) Ev)} {r : Rec (Fin n) (Mem n) Ev} (h : r.tid = i) :
    lastEv i (r :: log) = r.ev := by
  simp [lastEv, h]

theorem kept_scanned {k : Nat} (htag : tr.tag = false) : Kept s0 v (Scanned s0 ai tr k) :=
  fun _ _ _ _ hg ha h => h.acts htag hg ha

theorem kept_scannedAll (htag : tr.tag = false) : Kept s0 v (ScannedAll s0 ai tr) :=
  fun _ _ _ _ hg ha h k => (h k).acts htag hg ha

theorem kept_passed (seen : List (Fin n × Int × Ptr)) : Kept s0 v fun w => ∀ x ∈ seen, Passed v w x :=
  fun _ _ _ _ hg ha h x hx => (h x hx).acts hg ha

theorem Kept.and {F' : W n → Prop} (hF : Kept s0 v F) (hF' : Kept s0 v F') : Kept s0 v fun w => F w ∧ F' w :=
  fun j e w w' hg ha h => ⟨hF j e w w' hg ha h.1, hF' j e w w' hg ha h.2⟩

/-- The slot that is being tested: `ptr` was read from slot `k` of thread `ai`. -/
def Testing (s0 : Mem n) (i ai : Fin n) (tr : Ptr) (k c : Nat) (ptr : Ptr) (w : W n) : Prop :=
  lastEv i w.log = some (.scanned ai ptr) ∧ (c = 0 → InHand s0 ai tr k ptr w)

theorem steady_testing {k : Nat} (htag : tr.tag = false) : Steady s0 v i (Testing s0 i ai tr k c ptr) := by
  rintro j e w w' hj hg ha ⟨hlast, h⟩
  refine ⟨?_, fun hc => (h hc).acts htag hg ha hlast⟩
  rw [ha.log, lastEv_other (fun e : j = i => hj e)]
  exact hlast

/-- One slot of another thread. -/
theorem scanSlot_spec (hs0 : Start v HPs s0) (htag : tr.tag = false) (hF : Kept s0 v F) {k : Nat} (hk : 1 ≤ k)
    (hw : While v (fun w => Idle s0 v HPs i lv c w ∧ F w ∧ (c = 0 → Scanned s0 ai tr k w)) w) :
    (proto s0 v HPs).wp i (watch (fun s => (s.locals ai).markstack k) fun ptr => some (.scanned ai ptr))
      (fun ptr => While v fun w => Idle s0 v HPs i lv c w ∧ F w ∧ (ptr = NULL ∨ IsObj ptr) ∧
        if ptr = NULL then c = 0 → ScannedAll s0 ai tr w else Testing s0 i ai tr k c ptr w) w := by
  have hkeep : Kept s0 v fun w => c = 0 → Scanned s0 ai tr k w := (kept_scanned htag).imp _
  refine wp_act (f := fun s => (s.locals ai).markstack k) hs0 (steady_idle.and (hF.steady.and hkeep.steady))
    (fun _ => le_rfl) (fun _ e => (by cases e)) (fun w hA hg _ _ => ⟨_, moves_same (.refl _) .keep, fun w' ha hmem ht => ?_⟩) hw
  have hgood := hg.step hs0.heap ha.moves ha.ghost
  have hstk : stk w'.mem ai = stk w.mem ai := by rw [hmem]; rfl
  have hscan := hkeep _ _ w w' hg ha hA.2.2
  have hslot : (w.mem.locals ai).markstack k = stk w'.mem ai k := by rw [hstk]; rfl
  refine ⟨hA.1.next ha hmem ht, hF _ _ w w' hg ha hA.2.1, (hg.ok ai).slots k hk, ?_⟩
  rw [hslot]
  by_cases hnull : stk w'.mem ai k = NULL
  · rw [if_pos hnull]
    exact fun hc k' => (hscan hc).imp_right fun h => ⟨h.1, h.2.all (hgood.ok ai) hk hnull k'⟩
  · rw [if_neg hnull]
    refine ⟨?_, fun hc => ?_⟩
    · rw [ha.log]
      exact (lastEv_self rfl).trans (congrArg (fun p => some (Ev.scanned ai p)) hslot)
    · exact (hscan hc).imp_right fun h => ⟨h.1, h.2, (hgood.ok ai).holding k⟩

/-- The test of the pointer in hand. -/
theorem testSlot_spec (hs0 : Start v HPs s0) (htag : tr.tag = false) (hF : Kept s0 v F) {k : Nat}
    (hw : While v (fun w => Idle s0 v HPs i lv c w ∧ F w ∧ (ptr = NULL ∨ IsObj ptr) ∧
      Testing s0 i ai tr k c ptr w) w) (hne : ptr ≠ NULL) :
    (proto s0 v HPs).wp i (isMarked ptr)
      (fun b => While v fun w => Idle s0 v HPs i lv c w ∧ F w ∧ IsObj ptr ∧
        (c = 0 → b = true → Scanned s0 ai tr (k + 1) w)) w := by
  refine wp_load (f := fun s => s.marks (markWord ptr.addr) &&& markMask ptr.addr != 0#64)
    (B := fun b w => Idle s0 v HPs i lv c w ∧ F w ∧ IsObj ptr ∧ (c = 0 → b = true → Scanned s0 ai tr (k + 1) w))
    hs0 (steady_idle.and (hF.steady.and ((steady_const _).and (steady_testing htag))))
    (fun w hA hg w' ha hmem ht => ?_) hw
  obtain ⟨hidle, hf, hobj, hlast, hhand⟩ := hA
  have hptr := hobj.resolve_left hne
  refine ⟨hidle.next ha hmem ht, hF _ _ w w' hg ha hf, hptr, fun hc hb => ?_⟩
  rw [and_markMask] at hb
  have hm : ptr ∈ markedSet w'.mem := by rw [hmem]; exact ⟨hptr, hb⟩
  exact ((hhand hc).acts htag hg ha hlast).imp_right fun h => ⟨h.1, h.2.1.succ h.2.2 hm⟩

/-- The scan of the slots of one thread. -/
theorem scanSlots_spec (hs0 : Start v HPs s0) (htag : tr.tag = false) (hF : Kept s0 v F)
    (hw : While v (fun w => Idle s0 v HPs i lv c w ∧ F w ∧ (c = 0 → Scanned s0 ai tr 1 w)) w) :
    (proto s0 v HPs).wp i (scanSlots i fuel ai c)
      (fun c' w => c ≤ c' ∧ While v (fun w => Idle s0 v HPs i lv c' w ∧ F w ∧ (c' = 0 → ScannedAll s0 ai tr w)) w) w := by
  refine Proto.wp_iter (fun (x : Nat × Nat) w => (1 ≤ x.1 ∧ c ≤ x.2) ∧ While v (fun w => Idle s0 v HPs i lv x.2 w ∧
    F w ∧ (x.2 = 0 → Scanned s0 ai tr x.1 w)) w) ?_ fuel (1, c) ⟨⟨le_rfl, le_rfl⟩, hw⟩
  rintro ⟨k, c'⟩ w ⟨⟨hk, hc⟩, hw⟩
  dsimp only at hk hc hw ⊢
  rw [Proto.wp_bind]
  refine Proto.wp_mono (scanSlot_spec hs0 htag hF hk hw) fun ptr w hw => ?_
  by_cases hnull : ptr = NULL
  · rw [if_pos hnull]
    simp only [if_pos hnull] at hw
    exact ⟨hc, fun hv => ⟨(hw hv).1, (hw hv).2.1, (hw hv).2.2.2⟩⟩
  · rw [if_neg hnull, Proto.wp_bind]
    simp only [if_neg hnull] at hw
    refine Proto.wp_mono (testSlot_spec hs0 htag hF hw hnull) fun b w hw => ?_
    by_cases hb : b = false ∧ c' < 10
    · rw [if_pos hb, Proto.wp_bind]
      have hpush : While v (fun w => (Own s0 v HPs i lv c' .idle (fun q => q = ptr ∨ False) w ∧ Resting i w) ∧
          IsObj ptr ∧ F w) w := by
        intro hv
        exact ⟨⟨(hw hv).1.1.rest_mono fun _ _ h => h.elim, (hw hv).1.2⟩, (hw hv).2.2.1, (hw hv).2.1⟩
      refine Proto.wp_mono (push_spec hs0 hF (fun q hq => hq) hpush) fun _ w hw => ?_
      exact ⟨⟨by omega, by simp only; omega⟩, fun hv => ⟨(hw hv).1, (hw hv).2, fun hc => absurd hc (Nat.succ_ne_zero _)⟩⟩
    · rw [if_neg hb]
      refine ⟨⟨by simp only; omega, hc⟩, fun hv => ⟨(hw hv).1, (hw hv).2.1, fun hc0 => (hw hv).2.2.2 hc0 ?_⟩⟩
      have hc0 : c' = 0 := hc0
      cases b with
      | true => rfl
      | false => exact absurd ⟨rfl, by omega⟩ hb

/-- What the first pass of a thread that traces for `lv` knows: unless it has found something, the
threads in `seen` have passed. -/
def FirstPass (v lv c : Nat) (seen : List (Fin n × Int × Ptr)) (w : W n) : Prop :=
  lv = v ∧ (c = 0 → ∀ x ∈ seen, Passed v w x)

theorem kept_firstPass (lv c : Nat) (seen : List (Fin n × Int × Ptr)) : Kept s0 v (FirstPass v lv c seen) :=
  (kept_const _).and ((kept_passed seen).imp _)

/-- One thread passes. -/
theorem FirstPass.snoc {seen : List (Fin n × Int × Ptr)} {x : Fin n × Int × Ptr} (h : FirstPass v lv c seen w)
    (hle : c ≤ c') (hx : c' = 0 → Passed v w x) : FirstPass v lv c' (seen ++ [x]) w := by
  refine ⟨h.1, fun hc y hy => ?_⟩
  rcases List.mem_append.1 hy with hy | hy
  · exact h.2 (by omega) y hy
  · rw [List.mem_singleton.1 hy]
    exact hx hc

/-- A thread whose stack and slot 0 are all marked has passed. -/
theorem ScannedAll.passed {cp : Int} (h : ScannedAll s0 ai tr w) (hg : Good s0 v w.mem w.ghost)
    (hm : tr ∈ markedSet w.mem) : Passed v w (ai, cp, tr) := by
  by_cases hp : tr ∈ (w.ghost ai).past
  · exact .inl (.inr hp)
  · have hall : ∀ k, stk w.mem ai 0 = tr ∧ Examined (child s0) (stk w.mem ai) (markedSet w.mem) (w.ghost ai) k :=
      fun k => (h k).resolve_left hp
    exact .inr ⟨(hall 0).1, .inr (Examined.noDuty (fun k => (hall k).2) (hg.ok ai) ((hall 0).1 ▸ hm))⟩

/-- One round of the first pass. -/
theorem scanThread_spec {lv' : Nat} (hs0 : Start v HPs s0) (seen : List (Fin n × Int × Ptr)) (ai : Fin n)
    (hw : While v (fun w => Idle s0 v HPs i lv c w ∧ FirstPass v lv' c seen w) w) :
    (proto s0 v HPs).wp i (scanThread i fuel lv (c, seen) ai)
      (fun acc w => (∃ x, x.1 = ai ∧ acc.2 = seen ++ [x]) ∧
        While v (fun w => Idle s0 v HPs i lv acc.1 w ∧ FirstPass v lv' acc.1 acc.2 w) w) w := by
  unfold scanThread
  dsimp only
  have hkeep : Kept s0 v (FirstPass v lv' c seen) := kept_firstPass lv' c seen
  rw [Proto.wp_bind]
  refine Proto.wp_mono (wp_load (B := fun _ w => Idle s0 v HPs i lv c w ∧ FirstPass v lv' c seen w) hs0
    (steady_idle.and hkeep.steady) (fun w hA hg w' ha hmem ht => ⟨hA.1.next ha hmem ht, hkeep _ _ w w' hg ha hA.2⟩) hw)
    fun cp w hw => ?_
  rw [Proto.wp_bind]
  refine Proto.wp_mono (wp_load (f := fun s => (s.locals ai).markstack 0)
    (B := fun tr w => Idle s0 v HPs i lv c w ∧ FirstPass v lv' c seen w ∧ stk w.mem ai 0 = tr ∧
      (tr.tag = false → IsObj tr)) hs0 (steady_idle.and hkeep.steady)
    (fun w hA hg w' ha hmem ht => ⟨hA.1.next ha hmem ht, hkeep _ _ w w' hg ha hA.2, by rw [hmem]; rfl,
      fun htag => ((hg.ok ai).top htag).1⟩) hw) fun tr w hw => ?_
  by_cases hskip : tr.tag = true ∨ cp ≠ lv
  · rw [if_pos hskip]
    refine ⟨⟨_, rfl, rfl⟩, fun hv => ?_⟩
    obtain ⟨hidle, hf, htop, -⟩ := hw hv
    refine ⟨hidle, hf.snoc le_rfl fun _ => ?_⟩
    rcases hskip with htag | hcp
    · exact .inr ⟨htop, .inl (htop ▸ htag)⟩
    · exact .inl (.inl (hidle.1.ver ▸ hcp))
  · rw [if_neg hskip, Proto.wp_bind]
    have htag : tr.tag = false := by
      cases h : tr.tag with
      | true => exact absurd (.inl h) hskip
      | false => rfl
    have hscan : While v (fun w => Idle s0 v HPs i lv c w ∧ (FirstPass v lv' c seen w ∧ IsObj tr) ∧
        (c = 0 → Scanned s0 ai tr 1 w)) w := by
      intro hv
      obtain ⟨hidle, hf, htop, hobj⟩ := hw hv
      exact ⟨hidle, ⟨hf, hobj htag⟩, fun _ => .inr ⟨htop, Examined.one⟩⟩
    refine Proto.wp_mono (scanSlots_spec hs0 htag (hkeep.and (kept_const _)) hscan) fun c' w h => ?_
    obtain ⟨hle, hw⟩ := h
    rw [Proto.wp_bind]
    refine Proto.wp_mono (wp_load (f := fun s => s.marks (markWord tr.addr) &&& markMask tr.addr != 0#64)
      (B := fun b w => Idle s0 v HPs i lv c' w ∧ FirstPass v lv' c seen w ∧ IsObj tr ∧
        (c' = 0 → b = true → Passed v w (ai, cp, tr))) hs0
      (steady_idle.and ((hkeep.and (kept_const _)).steady.and ((kept_scannedAll htag).imp _).steady))
      (fun w hA hg w' ha hmem ht => ?_) hw) fun b w hw => ?_
    · obtain ⟨hidle, ⟨hf, hobj⟩, hall⟩ := hA
      refine ⟨hidle.next ha hmem ht, hkeep _ _ w w' hg ha hf, hobj, fun hc hb => ?_⟩
      rw [and_markMask] at hb
      exact ((hall hc).passed hg ⟨hobj, hb⟩).acts hg ha
    · cases b with
      | true =>
        refine ⟨⟨_, rfl, rfl⟩, fun hv => ?_⟩
        obtain ⟨hidle, hf, -, hp⟩ := hw hv
        exact ⟨hidle, hf.snoc hle fun hc => hp hc rfl⟩
      | false =>
        rw [if_neg Bool.false_ne_true, Proto.wp_bind]
        have hpush : While v (fun w => (Own s0 v HPs i lv c' .idle (fun q => q = tr ∨ False) w ∧ Resting i w) ∧
            IsObj tr ∧ lv' = v) w := by
          intro hv
          exact ⟨⟨(hw hv).1.1.rest_mono fun _ _ h => h.elim, (hw hv).1.2⟩, (hw hv).2.2.1, (hw hv).2.1.1⟩
        refine Proto.wp_mono (push_spec hs0 (kept_const _) (fun q hq => hq) hpush) fun _ w hw => ?_
        exact ⟨⟨_, rfl, rfl⟩, fun hv => ⟨(hw hv).1, (hw hv).2, fun hc => absurd hc (Nat.succ_ne_zero _)⟩⟩

/-- Everything that thread `i` has to trace is marked. -/
def Settled (s0 : Mem n) (v : Nat) (HPs : Fin n → List Ptr) (i : Fin n) (w : W n) : Prop :=
  Good s0 v w.mem w.ghost → ∀ q, Reachable s0 (IsRoot s0 (HPs i)) q → q ∈ markedSet w.mem

theorem kept_settled : Kept s0 v (Settled s0 v HPs i) :=
  fun _ _ _ _ hg ha h _ q hq => ha.moves.step.marks (h hg q hq)

/-- What the first pass that found nothing is good for. -/
theorem FirstPass.settled {lv' : Nat} {seen : List (Fin n × Int × Ptr)} (h : FirstPass v lv' 0 seen w)
    (hidle : Idle s0 v HPs i lv 0 w) (hall : ∀ j, ∃ x ∈ seen, x.1 = j) :
    Settled s0 v HPs i w ∨ ∃ x ∈ seen, Stale v w x := by
  by_cases hstale : ∃ x ∈ seen, Stale v w x
  · exact .inr hstale
  · refine .inl fun hg q hq => hg.closed (fun p hp => hidle.1.seen_all hp) (fun j q hd => ?_) hq
    obtain ⟨x, hx, rfl⟩ := hall j
    have hrest := ((h.2 rfl x hx).resolve_left fun hs => hstale ⟨x, hx, hs⟩).2
    exact (hrest.resolve_left (by rw [hd.1]; exact Bool.false_ne_true)).mem hd

/-- What is left to compare in the second pass. -/
def SecondPass (s0 : Mem n) (v : Nat) (HPs : Fin n → List Ptr) (i : Fin n) (bs : List (Fin n × Int × Ptr)) (w : W n) : Prop :=
  Settled s0 v HPs i w ∨ ∃ x ∈ bs, Stale v w x

theorem kept_secondPass (bs : List (Fin n × Int × Ptr)) : Kept s0 v (SecondPass s0 v HPs i bs) := by
  rintro j e w w' hg ha (hs | ⟨x, hx, hst⟩)
  · exact .inl (kept_settled _ _ w w' hg ha hs)
  · exact .inr ⟨x, hx, hst.acts ha⟩

/-- One round of the second pass. -/
theorem compare_spec (hs0 : Start v HPs s0) (φ : Prop) (x : Fin n × Int × Ptr) (bs : List (Fin n × Int × Ptr))
    (hw : While v (fun w => Idle s0 v HPs i lv c w ∧ φ ∧ SecondPass s0 v HPs i (x :: bs) w) w) :
    (proto s0 v HPs).wp i (do
        let trptr ← slot x.1 0
        if trptr ≠ x.2.2 then return true
        else
          let ver ← load fun s => (s.locals x.1).localVer
          return (ver : Int) != x.2.1)
      (fun r w => if r then While v (fun w => Idle s0 v HPs i lv c w ∧ φ) w
        else While v (fun w => Idle s0 v HPs i lv c w ∧ φ ∧ SecondPass s0 v HPs i bs w) w) w := by
  rw [Proto.wp_bind]
  have hkept : Kept s0 v fun w => SecondPass s0 v HPs i bs w ∨ x.2.1 ≠ v := by
    rintro j e w w' hg ha (h | h)
    · exact .inl (kept_secondPass bs _ _ w w' hg ha h)
    · exact .inr h
  refine Proto.wp_mono (wp_load (f := fun s => (s.locals x.1).markstack 0)
    (B := fun tr w => (Idle s0 v HPs i lv c w ∧ φ) ∧ (tr = x.2.2 → SecondPass s0 v HPs i bs w ∨ x.2.1 ≠ v)) hs0
    (steady_idle.and ((steady_const _).and (kept_secondPass _).steady)) (fun w hA hg w' ha hmem ht => ?_) hw)
    fun tr w hw => ?_
  · obtain ⟨hidle, hφ, hsecond⟩ := hA
    refine ⟨⟨hidle.next ha hmem ht, hφ⟩, fun htr => ?_⟩
    -- a value that slot 0 has left behind does not come back
    have hfresh : x.2.2 ∉ (w.ghost x.1).past := fun hp => (hg.ok x.1).fresh (show stk w.mem x.1 0 ∈ _ by
      rw [show stk w.mem x.1 0 = x.2.2 from htr]; exact hp)
    rcases hsecond with hs | ⟨y, hy, hst⟩
    · exact .inl (kept_secondPass bs _ _ w w' hg ha (.inl hs))
    · rcases List.mem_cons.1 hy with rfl | hy
      · exact .inr (hst.resolve_right hfresh)
      · exact .inl (kept_secondPass bs _ _ w w' hg ha (.inr ⟨y, hy, hst⟩))
  · by_cases htr : tr ≠ x.2.2
    · rw [if_pos htr]
      exact fun hv => (hw hv).1
    · rw [if_neg htr, Proto.wp_bind]
      rw [not_not] at htr
      refine Proto.wp_mono (wp_load (f := fun s => (s.locals x.1).localVer) (B := fun ver w => (Idle s0 v HPs i lv c w ∧ φ) ∧
        ((ver : Int) = x.2.1 → SecondPass s0 v HPs i bs w)) hs0 ((steady_idle.and (steady_const _)).and
        (hkept.imp (tr = x.2.2)).steady) (fun w hA hg w' ha hmem ht => ?_) hw) fun ver w hw => ?_
      · obtain ⟨⟨hidle, hφ⟩, h⟩ := hA
        refine ⟨⟨hidle.next ha hmem ht, hφ⟩, fun hver => ?_⟩
        rcases hkept _ _ w w' hg ha (h htr) with h | h
        · exact h
        · rw [hg.localVer] at hver
          exact absurd hver.symm h
      · rw [Prog.pure_eq, Proto.wp_ret]
        by_cases hver : (ver : Int) = x.2.1
        · rw [if_neg (by simpa using hver)]
          exact fun hv => ⟨(hw hv).1.1, (hw hv).1.2, (hw hv).2 hver⟩
        · rw [if_pos (by simpa using hver)]
          exact fun hv => (hw hv).1

/-- **CheckFinish.** When it answers 1 in its phase, all is marked; when it answers 0, the thread
has what it found on its stack. -/
theorem CheckFinish_spec (hs0 : Start v HPs s0) (hw : While v (Idle s0 v HPs i lv 0) w) :
    (proto s0 v HPs).wp i (CheckFinish i fuel)
      (fun r => While v fun w => if r.1 then Settled s0 v HPs i w else Idle s0 v HPs i lv r.2 w) w := by
  unfold CheckFinish
  rw [Proto.wp_bind]
  refine Proto.wp_mono (wp_load (f := fun s => (s.locals i).localVer)
    (B := fun lv' w => Idle s0 v HPs i lv' 0 w ∧ lv = v) hs0 steady_idle (fun w hA hg w' ha hmem ht => ?_) hw)
    fun lv' w hw => ?_
  · have h := hA.next ha hmem ht
    exact ⟨⟨⟨hg.localVer i, h.1.cnt, h.1.stage, h.1.seen⟩, h.2⟩, hA.1.ver⟩
  refine Proto.wp_iter (fun _ => While v fun w => Idle s0 v HPs i lv' 0 w ∧ lv = v) (fun _ w hw => ?_) fuel () hw
  rw [Proto.wp_bind]
  refine Proto.wp_mono (Proto.wp_foldEach (fun acc bs w => (∀ j, j ∈ bs ∨ ∃ x ∈ acc.2, x.1 = j) ∧
    While v (fun w => Idle s0 v HPs i lv' acc.1 w ∧ FirstPass v lv acc.1 acc.2 w) w) ?_ (List.finRange n) (0, [])
    ⟨fun j => .inl (List.mem_finRange j), fun hv => ⟨(hw hv).1, (hw hv).2, fun _ x hx => absurd hx List.not_mem_nil⟩⟩) ?_
  · rintro ⟨c, seen⟩ ai bs w ⟨hall, hw⟩
    refine Proto.wp_mono (scanThread_spec hs0 seen ai hw) ?_
    rintro ⟨c', seen'⟩ w ⟨⟨x, rfl, rfl⟩, hw⟩
    refine ⟨fun j => ?_, hw⟩
    rcases hall j with hj | ⟨y, hy, rfl⟩
    · rcases List.mem_cons.1 hj with rfl | hj
      · exact .inr ⟨x, List.mem_append_right _ List.mem_cons_self, rfl⟩
      · exact .inl hj
    · exact .inr ⟨y, List.mem_append_left _ hy, rfl⟩
  · rintro ⟨c, seen⟩ w ⟨hall, hw⟩
    dsimp only at hall hw ⊢
    by_cases hc : c ≥ 1
    · rw [if_pos hc, Proto.wp_bind]
      refine Proto.wp_mono (wp_act (f := fun s : Mem n => s.phase)
        (B := fun phase w => (Idle s0 v HPs i lv' c w ∧ lv = v) ∧ phase = v) hs0
        (steady_idle.and (kept_firstPass lv c seen).steady) (fun _ => le_rfl) (fun _ e => (by cases e))
        (fun w hA hg _ hv => ⟨_, moves_same (.refl _) .keep, fun w' ha hmem ht =>
          ⟨⟨hA.1.next ha hmem ht, hA.2.1⟩, hv⟩⟩) hw) fun phase w hw => ?_
      by_cases hphase : lv' ≠ phase
      · rw [if_pos hphase, Proto.wp_bind]
        have hover : While v (fun _ => False) w := fun hv => hphase ((hw hv).1.1.1.ver.trans (hw hv).2.symm)
        exact Proto.wp_mono (wp_over (B := fun _ _ => False)
          (obeys_clearStack.mono fun s e s' (h : TraceStep i 0#64 s e s') => h.phase.ge) hover)
          fun _ w hw hv => (hw hv).elim
      · rw [if_neg hphase]
        intro hv
        obtain ⟨⟨⟨ho, hr⟩, hlv⟩, -⟩ := hw hv
        exact ⟨⟨hlv, ho.cnt, ho.stage, ho.seen⟩, hr⟩
    · rw [if_neg hc, Proto.wp_bind]
      obtain rfl : c = 0 := by omega
      refine Proto.wp_mono (Proto.wp_anyEach
        (fun bs => While v fun w => Idle s0 v HPs i lv' 0 w ∧ lv = v ∧ SecondPass s0 v HPs i bs w)
        (While v fun w => Idle s0 v HPs i lv' 0 w ∧ lv = v)
        (fun x bs w hw => compare_spec hs0 _ x bs hw) seen fun hv => ?_) fun r w hw => ?_
      · obtain ⟨hidle, hfirst⟩ := hw hv
        exact ⟨hidle, hfirst.1, hfirst.settled hidle fun j => (hall j).resolve_left List.not_mem_nil⟩
      · cases r with
        | true => exact hw
        | false =>
          intro hv
          exact (hw hv).2.2.resolve_right fun ⟨x, hx, _⟩ => List.not_mem_nil hx

/-! ## The whole of a thread -/

theorem isRoot_congr {s : Mem n} {t : Ghost n} (hg : Good s0 v s t) {R : List Ptr} : IsRoot s R = IsRoot s0 R := by
  funext p
  simp only [IsRoot, hg.rootLen, hg.roots]

theorem reachable_congr {s : Mem n} {t : Ghost n} (hg : Good s0 v s t) {R : Ptr → Prop} {q : Ptr} :
    Reachable s R q ↔ Reachable s0 R q := by
  have h : Edge s = Edge s0 := by
    funext p q
    simp only [Edge, child, hg.node]
  rw [Reachable, Reachable, h]

/-- The answer is right. -/
theorem emit_spec (lv : Nat) (hw : While v (Settled s0 v HPs i) w) :
    (proto s0 v HPs).wp i (emit (.finished lv)) (fun _ _ => True) w := by
  refine Proto.wp_step _ hw (stable_while kept_settled.steady) fun w hw hI _ => ?_
  have hsound : Sound v HPs ⟨i, w.mem, some (.finished lv), w.mem⟩ := by
    intro _ hv q hq
    have hg := hI.2.1 hv
    rw [isRoot_congr hg, reachable_congr hg] at hq
    exact (hw hv hg q hq).2
  refine ⟨w.ghost, ⟨hI.1, hI.2.1, hI.2.2, hsound⟩, ⟨le_rfl, fun hv => ?_⟩, trivial⟩
  refine ⟨some (.finished lv), rfl, moves_same (.refl _) .keep, fun _ _ => rfl, fun _ _ _ e => (by cases e)⟩

/-- A step that does not concern the trace. -/
structure Quiet (s : Mem n) (e : Option Ev) (s' : Mem n) : Prop where
  same : Same s s'
  phase : s'.phase = s.phase
  ev : e = none ∨ ∃ a, e = some (.assertFailed a)

theorem wp_quiet (hs0 : Start v HPs s0) {α : Type} {p : Prog (Mem n) Ev α} (hp : p.Obeys Quiet) :
    (proto s0 v HPs).wp i p (fun _ _ => True) w := by
  refine Proto.wp_obeys hp (fun _ => True) trivial (Proto.stable_const True) fun w e s' _ hI _ h => ?_
  have hev : ∀ x, e = some x → ∃ a, x = .assertFailed a := by
    rintro x rfl
    obtain ⟨a, ha⟩ := h.ev.resolve_left (Option.some_ne_none x)
    exact ⟨a, Option.some.inj ha⟩
  have hm : Moves s0 i e w.mem (w.ghost i) s' (w.ghost i) := moves_same h.same .keep
  refine ⟨w.ghost, ⟨h.phase ▸ hI.1, fun hv => ?_, hI.2.2, fun e => ?_⟩, ⟨h.phase.ge, fun hv => ?_⟩, trivial⟩
  · exact (hI.2.1 (h.phase ▸ hv)).step hs0.heap hm fun _ _ => rfl
  · obtain ⟨a, ha⟩ := hev _ e
    cases ha
  · exact ⟨e, rfl, hm, fun _ _ => rfl, fun _ _ _ e => (by obtain ⟨a, ha⟩ := hev _ e; cases ha)⟩

theorem obeys_resetSweepCounter : (resetSweepCounter i fuel).Obeys Quiet := by
  have hload : ∀ {α : Type} (f : Mem n → α), Obeys Quiet (load f) :=
    fun f => obeys_load fun s => ⟨.refl s, rfl, .inl rfl⟩
  refine obeys_bind (hload _) fun localVer => obeys_iter (fun _ => obeys_bind (hload _) fun sweep_ctr => ?_) _ _
  refine obeys_ite (fun _ => trivial) fun _ => obeys_bind (obeys_check fun s => ⟨.refl s, rfl, .inr ⟨_, rfl⟩⟩) fun _ => ?_
  refine obeys_bind (obeys_cas (fun s => ⟨.refl s, rfl, .inl rfl⟩) fun s _ => ?_) fun _ =>
    obeys_ite (fun _ => trivial) fun _ => trivial
  exact ⟨⟨rfl, rfl, rfl, rfl, fun _ => rfl, fun _ => rfl⟩, rfl, .inl rfl⟩

/-- The rest of the trace of a thread whose stack is filled. -/
theorem traceToEnd_spec (hs0 : Start v HPs s0) (hw : While v (Idle s0 v HPs i lv c) w) :
    (proto s0 v HPs).wp i (traceToEnd i fuel c lv) (fun _ _ => True) w := by
  unfold traceToEnd
  rw [Proto.wp_bind]
  refine Proto.wp_mono (traceMarkstack_spec hs0 fun hv => (hw hv).1) fun _ w hw => ?_
  rw [Proto.wp_bind]
  refine Proto.wp_mono (finishSlot_spec hs0 hw) fun _ w hw => ?_
  refine Proto.wp_iter (fun _ => While v (Idle s0 v HPs i lv 0)) (fun _ w hw => ?_) fuel () hw
  rw [Proto.wp_bind]
  refine Proto.wp_mono (CheckFinish_spec hs0 hw) ?_
  rintro ⟨finish, c⟩ w hw
  cases finish with
  | true =>
    dsimp only
    rw [if_pos rfl, Proto.wp_bind]
    exact Proto.wp_mono (emit_spec lv hw) fun _ _ _ => trivial
  | false =>
    dsimp only
    rw [if_neg Bool.false_ne_true, Proto.wp_bind]
    refine Proto.wp_mono (traceMarkstack_spec hs0 fun hv => (hw hv).1) fun _ w hw => ?_
    rw [Proto.wp_bind]
    exact Proto.wp_mono (finishSlot_spec hs0 hw) fun _ w hw => hw

/-- What follows the change of the phase in `Reclamation`. -/
theorem obeys_afterChange {localVer : Nat} : Obeys (fun s _ s' => s.phase ≤ s'.phase) (do
    defined (localVer + 2 < 2 ^ 31)
    resetHead i fuel ⟨none, toInt32 (localVer + 2)⟩
    store (·.setLocal i fun l => { l with localVer := l.localVer + 2 })
    let localVer ← load fun s => (s.locals i).localVer
    let phase ← load (·.phase)
    if phase ≠ localVer then return none
    else
      let dNp : U64 := BitVec.ofNat 64 localVer <<< 8
      forEach (warn dNp (dNp ||| 1#64)) (List.finRange n)
      let HPlocal ← foldEach readHPs [] (List.finRange n)
      emit .reclaimed
      return some HPlocal) := by
  have hload : ∀ {α : Type} (f : Mem n → α), Obeys (fun s (_ : Option Ev) s' => s.phase ≤ s'.phase) (load f) :=
    fun f => obeys_load fun s => le_rfl
  have hhead : Obeys (fun (s : Mem n) (_ : Option Ev) s' => s.phase ≤ s'.phase) readHead :=
    obeys_bind (hload _) fun _ => obeys_bind (hload _) fun _ => trivial
  refine obeys_bind obeys_defined fun _ => obeys_bind (obeys_bind hhead fun _ => obeys_iter (fun _ => ?_) _ _) fun _ => ?_
  · refine obeys_bind (hload _) fun _ => obeys_ite (fun _ => ?_) fun _ => trivial
    exact obeys_bind (obeys_cas (fun _ => le_rfl) fun _ _ => le_rfl) fun _ => obeys_bind hhead fun _ => trivial
  refine obeys_bind (obeys_store fun _ => le_rfl) fun _ => obeys_bind (hload _) fun localVer => ?_
  refine obeys_bind (hload _) fun phase => obeys_ite (fun _ => trivial) fun _ => ?_
  refine obeys_bind (obeys_forEach fun j _ => ?_) fun _ => obeys_bind (obeys_foldEach (fun _ j => ?_) _ _) fun _ =>
    obeys_bind (obeys_emit fun _ => le_rfl) fun _ => trivial
  · refine obeys_bind (hload _) fun _ => obeys_ite (fun _ => trivial) fun _ => ?_
    refine obeys_bind (obeys_cas (fun _ => le_rfl) fun _ _ => le_rfl) fun _ => obeys_bind (hload _) fun _ => ?_
    refine obeys_ite (fun _ => trivial) fun _ => ?_
    exact obeys_bind (obeys_cas (fun _ => le_rfl) fun _ _ => le_rfl) fun _ => trivial
  · refine obeys_bind (obeys_watch fun _ => le_rfl) fun _ => obeys_bind (obeys_watch fun _ => le_rfl) fun _ => ?_
    exact obeys_bind (obeys_watch fun _ => le_rfl) fun _ => trivial

/-- The phase ends with the first step of `Reclamation`, whoever takes it. -/
theorem Reclamation_spec (hs0 : Start v HPs s0) : (proto s0 v HPs).wp i (Reclamation i fuel) (fun _ _ => True) w := by
  unfold Reclamation
  rw [Proto.wp_bind]
  refine Proto.wp_mono (wp_load (f := fun s => (s.locals i).localVer) (B := fun lv _ => lv = v) hs0 (steady_const True)
    (fun w _ hg w' _ _ _ => hg.localVer i) fun _ => trivial) fun lv w hw => ?_
  rw [Proto.wp_bind]
  refine Proto.wp_mono (wp_cas (B := fun _ _ => False) hs0 (steady_const _) (fun s hs => ?_) (fun e => (by cases e))
    (fun w hA hg hok hv => ?_) (fun w hA hg hno hv w' ha hmem _ => hno (hv.trans hA.symm)) hw) fun _ w hw => ?_
  · simp only at hs ⊢
    omega
  · have hA : lv = v := hA
    simp only at hv
    omega
  · exact Proto.wp_mono (wp_over (B := fun _ _ => True) obeys_afterChange hw) fun _ _ _ => trivial

theorem tracer_spec (hs0 : Start v HPs s0)
    (hw : While v (fun w => Own s0 v HPs i v 0 .idle (IsRoot s0 (HPs i)) w ∧ Resting i w) w) :
    (proto s0 v HPs).wp i (tracer i fuel (HPs i)) (fun _ _ => True) w := by
  unfold tracer trace
  simp only [bind_assoc]
  rw [Proto.wp_bind]
  refine Proto.wp_mono (wp_load (f := fun s => (s.locals i).localVer)
    (B := fun lv w => Own s0 v HPs i lv 0 .idle (IsRoot s0 (HPs i)) w ∧ Resting i w) hs0
    (steady_own.and steady_resting) (fun w hA hg w' ha hmem ht => ?_) hw) fun lv w hw => ?_
  · have h := hA.1.next ha ht hA.1.cnt hA.1.stage
    exact ⟨⟨hg.localVer i, h.cnt, h.stage, h.seen⟩, by rw [Resting, hmem]; exact hA.2⟩
  rw [Proto.wp_bind]
  refine Proto.wp_mono (traceRoots_spec hs0 hw) fun c w hw => ?_
  rw [Proto.wp_bind]
  refine Proto.wp_mono (pushHPs_spec hs0 hw) fun c w hw => ?_
  rw [Proto.wp_bind]
  refine Proto.wp_mono (traceToEnd_spec hs0 hw) fun _ w _ => ?_
  rw [Proto.wp_bind]
  refine Proto.wp_mono (wp_quiet hs0 obeys_resetSweepCounter) fun _ w _ => ?_
  rw [Proto.wp_bind]
  exact Proto.wp_mono (Reclamation_spec hs0) fun _ _ _ => trivial

/-- Before the first step. -/
def task0 : Task := ⟨0, .idle, []⟩

theorem Start.unmarked (hs0 : Start v HPs s0) (p : Ptr) : p ∉ markedSet s0 := by
  rintro ⟨hp, hm⟩
  rw [Marked, hs0.marks p hp, Stamp.getLsbD_empty (markBit_lt _)] at hm
  cases hm

theorem Start.good (hs0 : Start v HPs s0) : Good s0 v s0 fun _ => task0 where
  node := rfl
  roots := rfl
  rootLen := rfl
  localVer := hs0.localVer
  stamp := fun p hp => by rw [hs0.marks p hp, Stamp.hi_empty]
  ok := fun i => by
    refine ⟨hs0.slots i, fun l h1 hl => absurd (h1.trans hl) (by decide), trivial, fun ht => ?_, List.not_mem_nil,
      fun p hp => absurd hp List.not_mem_nil, fun p hp ht => ?_⟩
    · exact absurd ((hs0.finished i).symm.trans ht) Bool.noConfusion
    · exact .inl (hp.resolve_right List.not_mem_nil)
  covered := fun p hp => absurd hp (hs0.unmarked p)

/-- **Termination detection.** In every undisturbed run, whoever gets the answer 1 from
`CheckFinish` while the phase lasts finds everything marked. -/
theorem along_sound (hs0 : Start v HPs s0) (fuel : Fin n → Nat) {c : Cfg (Fin n) (Mem n) Ev}
    (hc : Cfg.Reach (.init s0 fun i => tracer i (fuel i) (HPs i)) c) (hok : Along (Undisturbed s0) c.log) :
    Along (fun _ => Sound v HPs) c.log := by
  have hinv : (proto s0 v HPs).inv ⟨s0, [], fun _ => task0⟩ := ⟨hs0.phase.ge, fun _ => hs0.good, trivial⟩
  have hthr : ∀ i, (proto s0 v HPs).wp i (tracer i (fuel i) (HPs i)) (fun _ _ => True) ⟨s0, [], fun _ => task0⟩ :=
    fun i => tracer_spec hs0 fun _ => ⟨⟨rfl, rfl, rfl, fun p hp => .inl hp⟩, hs0.finished i⟩
  have hok : (proto s0 v HPs).Allowed c.log := hok
  obtain ⟨g, hg⟩ := Proto.adequacy hinv hthr hc hok
  exact hg.2.2

/-! ## A race

Three objects in a row. The second thread is about to write the child of the middle one to its
stack when the first reads the slot; it marks the middle one before the first tests it. -/

def chain3 (a : Nat) : Ptr := if a = 32 then ⟨64, false⟩ else if a = 64 then ⟨96, false⟩ else NULL

/-- Phase 2, one root. -/
def chainMem (n : Nat) : Mem n where
  heapmem := []
  node a := ⟨0, chain3 a⟩
  marks _ := Stamp.empty 2
  roots _ _ := ⟨32, false⟩
  rootLen := [1]
  arr_marktable _ _ := 0
  phase := 2
  head := ⟨none, 2⟩
  sweep_counter := 0
  entrySize := nodeSize
  dirties _ := ⟨0, fun _ => NULL⟩
  locals _ := ⟨none, 2, fun k => if k = 0 then ⟨0, true⟩ else NULL, none⟩
  entries _ := ⟨none, 0, fun _ => NULL⟩
  allocationEntriesCacheHead := 0

theorem start_chainMem (n : Nat) : Start 2 (fun _ => []) (chainMem n) := by
  have hobj : ∀ a, IsObj (chain3 a) ∨ chain3 a = NULL := by
    intro a
    unfold chain3
    split
    · exact .inl ⟨by decide, rfl, by decide⟩
    · split
      · exact .inl ⟨by decide, rfl, by decide⟩
      · exact .inr rfl
  refine ⟨rfl, fun _ => rfl, fun len h => List.mem_singleton.1 h, fun p _ hne => ?_, ?_, fun _ _ => rfl, fun _ => rfl,
    fun i l h => .inl (if_neg (by omega))⟩
  · rcases hobj p.addr with h | h
    · exact ⟨hne, rfl, h.aligned⟩
    · refine absurd ?_ hne
      simp only [child, chainMem, h]
      rfl
  · rintro i p (h | ⟨hne, r, -, rfl⟩)
    · exact absurd h List.not_mem_nil
    · exact ⟨hne, rfl, show 32 % 32 = 0 by decide⟩

/-- `n` threads of `chainMem`. -/
def chainCfg (n : Nat) : Cfg (Fin n) (Mem n) Ev := .init (chainMem n) fun i => tracer i 9 []

/-- The first thread helps the second, which is stopped after it has read the child of the middle
object. -/
theorem along_sound_chain : Along (fun _ => Sound 2 fun _ => []) ((chainCfg 2).exec (.replicate 14 1 ++ .replicate 49 0)).log :=
  along_sound (start_chainMem 2) (fun _ => 9) ⟨_, rfl⟩ (by decide +kernel)

/-- The interleaving of the race. -/
def race : List (Fin 2) := .replicate 14 1 ++ .replicate 14 0 ++ .replicate 2 1 ++ .replicate 8 0

/-- The last step of the race: the answer 1, and the state it is given in. -/
theorem race_log : (((chainCfg 2).exec race).log.head?.map fun r =>
    ((r.ev, r.pre.phase, r.pre.rootLen, r.pre.roots 0 0), (child r.pre ⟨32, false⟩, child r.pre ⟨64, false⟩),
      decide (Marked r.pre ⟨96, false⟩))) =
    some ((some (.finished 2), 2, [1], ⟨32, false⟩), (⟨64, false⟩, ⟨96, false⟩), false) := by
  decide +kernel

theorem not_along_sound : ¬ ∀ (n v : Nat) (HPs : Fin n → List Ptr) (s0 : Mem n) (fuel : Fin n → Nat)
    (c : Cfg (Fin n) (Mem n) Ev), Start v HPs s0 → Cfg.Reach (.init s0 fun i => tracer i (fuel i) (HPs i)) c →
    Along (fun _ => Sound v HPs) c.log := by
  intro h
  have hall := h 2 2 (fun _ => []) (chainMem 2) (fun _ => 9) _ (start_chainMem 2) ⟨race, rfl⟩
  have hlog := race_log
  rw [chainCfg] at hlog
  generalize ((Cfg.init (chainMem 2) fun i : Fin 2 => tracer i 9 []).exec race).log = log at hall hlog
  cases log with
  | nil => cases hlog
  | cons r rs =>
    simp only [List.head?_cons, Option.map_some, Option.some.injEq, Prod.mk.injEq, decide_eq_false_iff_not] at hlog
    obtain ⟨⟨hev, hphase, hlen, hroot⟩, ⟨h1, h2⟩, hunmarked⟩ := hlog
    refine hunmarked (hall.2 hev hphase _ ⟨⟨32, false⟩, .inr ⟨by decide, 0, ?_, ?_⟩, ?_⟩)
    · rw [hlen]
      decide
    · rw [hroot]
      rfl
    · exact .tail (.single ⟨by decide, h1.symm⟩) ⟨by decide, h2.symm⟩

end OptimisticAccess.AOA.Finish
