import Mathlib.Logic.Function.Basic
import OptimisticAccess.Conc.Prog

/-!
# Interleavings

A configuration is the shared state, what is left of every thread's program, and the log of
the steps taken so far, newest first. A schedule is a list of thread names; every list is a
schedule, so a thread may be stopped at any point and for any time.
-/

namespace Conc

/-- One step of a run: who took it, the states around it, and the event it emitted. -/
structure Rec (ι σ ε : Type) where
  tid : ι
  pre : σ
  ev : Option ε
  post : σ

structure Cfg (ι σ ε : Type) where
  mem : σ
  thr : ι → Prog σ ε Unit
  log : List (Rec ι σ ε)

namespace Cfg

variable {ι σ ε : Type} [DecidableEq ι]

/-- Before the first step. -/
def init (mem : σ) (thr : ι → Prog σ ε Unit) : Cfg ι σ ε := ⟨mem, thr, []⟩

/-- The next step of thread `i`; a thread that returned or stopped stutters. -/
def fire (c : Cfg ι σ ε) (i : ι) : Cfg ι σ ε :=
  match c.thr i with
  | .step ev upd k =>
    { mem := upd c.mem
      thr := Function.update c.thr i (k c.mem)
      log := ⟨i, c.mem, ev c.mem, upd c.mem⟩ :: c.log }
  | _ => c

/-- The configuration after a schedule. -/
def exec (c : Cfg ι σ ε) (sched : List ι) : Cfg ι σ ε := sched.foldl fire c

@[simp] theorem exec_nil (c : Cfg ι σ ε) : c.exec [] = c := rfl

@[simp] theorem exec_cons (c : Cfg ι σ ε) (i : ι) (is : List ι) :
    c.exec (i :: is) = (c.fire i).exec is := rfl

theorem exec_append (c : Cfg ι σ ε) (is js : List ι) :
    c.exec (is ++ js) = (c.exec is).exec js := by
  simp [exec]

/-- `c` lies on some run from `c0`. -/
def Reach (c0 c : Cfg ι σ ε) : Prop := ∃ sched, c0.exec sched = c

theorem Reach.refl (c : Cfg ι σ ε) : Reach c c := ⟨[], rfl⟩

theorem Reach.trans {a b c : Cfg ι σ ε} (h : Reach a b) (h' : Reach b c) : Reach a c := by
  obtain ⟨is, rfl⟩ := h
  obtain ⟨js, rfl⟩ := h'
  exact ⟨is ++ js, exec_append a is js⟩

theorem Reach.fire (c : Cfg ι σ ε) (i : ι) : Reach c (c.fire i) := ⟨[i], rfl⟩

/-- An invariant of single steps holds along every run. -/
theorem reach_induction {c0 : Cfg ι σ ε} {P : Cfg ι σ ε → Prop} (h0 : P c0)
    (hstep : ∀ c i, Reach c0 c → P c → P (c.fire i)) {c : Cfg ι σ ε} (h : Reach c0 c) : P c := by
  obtain ⟨sched, rfl⟩ := h
  suffices ∀ c, Reach c0 c → P c → P (c.exec sched) from this c0 (Reach.refl _) h0
  induction sched with
  | nil => intro c _ hc; exact hc
  | cons i is ih => intro c hr hc; exact ih _ (hr.trans (Reach.fire c i)) (hstep c i hr hc)

end Cfg

section History

variable {ι σ ε ω : Type}

/-- Every step of a log meets `P`, which also sees the steps before it. -/
def Along (P : List (Rec ι σ ε) → Rec ι σ ε → Prop) : List (Rec ι σ ε) → Prop
  | [] => True
  | r :: rs => Along P rs ∧ P rs r

instance instDecidableAlong {P : List (Rec ι σ ε) → Rec ι σ ε → Prop} [∀ rs r, Decidable (P rs r)] :
    (log : List (Rec ι σ ε)) → Decidable (Along P log)
  | [] => isTrue trivial
  | r :: rs =>
    have := instDecidableAlong (P := P) rs
    inferInstanceAs (Decidable (Along P rs ∧ P rs r))

/-- The states of a log fit together: it leads from `s0` to `s`. -/
def Chain (s0 : σ) : List (Rec ι σ ε) → σ → Prop
  | [], s => s = s0
  | r :: rs, s => r.post = s ∧ Chain s0 rs r.pre

theorem Cfg.Reach.chain [DecidableEq ι] {mem : σ} {thr : ι → Prog σ ε Unit} {c : Cfg ι σ ε}
    (h : Cfg.Reach (Cfg.init mem thr) c) : Chain mem c.log c.mem := by
  refine Cfg.reach_induction (P := fun c => Chain mem c.log c.mem) ?_ (fun c i _ ih => ?_) h
  · exact rfl
  unfold Cfg.fire
  split
  · exact ⟨rfl, ih⟩
  · exact ih

theorem Along.mono {P Q : List (Rec ι σ ε) → Rec ι σ ε → Prop} {log : List (Rec ι σ ε)} (h : Along P log)
    (hPQ : ∀ rs r, P rs r → Q rs r) : Along Q log := by
  induction log with
  | nil => trivial
  | cons r rs ih => exact ⟨ih h.1, hPQ rs r h.2⟩

theorem Along.of_forall {P : Rec ι σ ε → Prop} {log : List (Rec ι σ ε)} (h : ∀ r ∈ log, P r) : Along (fun _ r => P r) log := by
  induction log with
  | nil => trivial
  | cons r rs ih => exact ⟨ih fun r' hr => h r' (List.mem_cons_of_mem r hr), h r List.mem_cons_self⟩

/-- A condition that does not look back. -/
theorem Along.of_mem {P : Rec ι σ ε → Prop} {log : List (Rec ι σ ε)} (h : Along (fun _ r => P r) log) {r : Rec ι σ ε}
    (hr : r ∈ log) : P r := by
  induction log with
  | nil => exact absurd hr List.not_mem_nil
  | cons r' rs ih =>
    rcases List.mem_cons.1 hr with rfl | hr
    · exact h.2
    · exact ih h.1 hr

variable [DecidableEq ι] (callOf : ε → Option ω)

/-- The last call thread `i` made. -/
def lastCall (i : ι) : List (Rec ι σ ε) → Option ω
  | [] => none
  | r :: rs => if r.tid = i then (r.ev.bind callOf).or (lastCall i rs) else lastCall i rs

/-- The steps, of any thread, since the last call of thread `i`. -/
def window (i : ι) : List (Rec ι σ ε) → List (Rec ι σ ε)
  | [] => []
  | r :: rs => if r.tid = i ∧ (r.ev.bind callOf).isSome then [] else r :: window i rs

/-- The steps with an event that thread `i` took since its last call. -/
def effects (i : ι) (log : List (Rec ι σ ε)) : List (Rec ι σ ε) :=
  (window callOf i log).filter fun r => decide (r.tid = i) && r.ev.isSome

variable {callOf} {i : ι} {r : Rec ι σ ε} {rs : List (Rec ι σ ε)}

theorem lastCall_cons_of_ne (h : r.tid ≠ i) : lastCall callOf i (r :: rs) = lastCall callOf i rs :=
  if_neg h

theorem window_cons_of_ne (h : r.tid ≠ i) : window callOf i (r :: rs) = r :: window callOf i rs :=
  if_neg fun h' => h h'.1

theorem effects_cons_of_ne (h : r.tid ≠ i) : effects callOf i (r :: rs) = effects callOf i rs := by
  simp [effects, window_cons_of_ne h, h]

theorem lastCall_cons_of_none (h : r.ev.bind callOf = none) :
    lastCall callOf i (r :: rs) = lastCall callOf i rs := by
  simp [lastCall, h]

theorem window_cons_of_none (h : r.ev.bind callOf = none) :
    window callOf i (r :: rs) = r :: window callOf i rs := by
  simp [window, h]

theorem effects_cons_of_silent (h : r.ev = none) : effects callOf i (r :: rs) = effects callOf i rs := by
  rw [effects, window_cons_of_none (by rw [h]; rfl)]
  simp [effects, h]

end History

end Conc
