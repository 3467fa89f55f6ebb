import OptimisticAccess.Conc.Alone
import OptimisticAccess.Conc.Frame

/-!
# A thread that is watched

`Watched T I p s Q`: scheduled without interruption from `s`, program `p` takes only steps that meet
`I`; where it comes to its end, that is in `Q`, and where it stops early `T` holds. With `T` false it
has to end, with `T` true every prefix of a run is covered, whatever becomes of the rest.
-/

namespace Conc

namespace Prog

variable {σ ε α β γ : Type} {T : Prop} {I J : σ → Option ε → σ → Prop}

def Watched (T : Prop) (I : σ → Option ε → σ → Prop) : Prog σ ε α → σ → (α → σ → Prop) → Prop
  | ret a, s, Q => Q a s
  | halt, _, _ => T
  | step ev upd k, s, Q => I s (ev s) (upd s) ∧ Watched T I (k s) (upd s) Q

/-- Scheduled without interruption from `s`, the program comes to a step that emits `e`. -/
def Emits (e : ε) : Prog σ ε α → σ → Prop
  | ret _, _ => False
  | halt, _ => False
  | step ev upd k, s => ev s = some e ∨ Emits e (k s) (upd s)

section Rules

variable {s : σ} {Q Q' : α → σ → Prop}

theorem watched_ret {a : α} : Watched T I (ret a) s Q ↔ Q a s := Iff.rfl

theorem watched_step {ev : σ → Option ε} {upd : σ → σ} {k : σ → Prog σ ε α} :
    Watched T I (step ev upd k) s Q ↔ I s (ev s) (upd s) ∧ Watched T I (k s) (upd s) Q := Iff.rfl

theorem Watched.mono {p : Prog σ ε α} (h : Watched T I p s Q) (hQ : ∀ a s, Q a s → Q' a s) : Watched T I p s Q' := by
  induction p generalizing s with
  | ret a => exact hQ a s h
  | halt => exact h
  | step ev upd k ih => exact ⟨h.1, ih s h.2⟩

theorem Watched.weaken {T' : Prop} {p : Prog σ ε α} (h : Watched T I p s Q) (hT : T → T') : Watched T' I p s Q := by
  induction p generalizing s with
  | ret a => exact h
  | halt => exact hT h
  | step ev upd k ih => exact ⟨h.1, ih s h.2⟩

theorem watched_bind {p : Prog σ ε β} {f : β → Prog σ ε α} :
    Watched T I (p >>= f) s Q ↔ Watched T I p s fun b s => Watched T I (f b) s Q := by
  induction p generalizing s with
  | ret b => exact Iff.rfl
  | halt => exact Iff.rfl
  | step ev upd k ih => exact and_congr_right fun _ => ih s

theorem watched_load {f : σ → α} (hI : I s none s) (h : Q (f s) s) : Watched T I (load f) s Q := ⟨hI, h⟩

theorem watched_watch {f : σ → α} {ev : α → Option ε} (hI : I s (ev (f s)) s) (h : Q (f s) s) : Watched T I (watch f ev) s Q := ⟨hI, h⟩

theorem watched_store {upd : σ → σ} {Q : Unit → σ → Prop} (hI : I s none (upd s)) (h : Q () (upd s)) : Watched T I (store upd) s Q := ⟨hI, h⟩

theorem watched_emit {e : ε} {Q : Unit → σ → Prop} (hI : I s (some e) s) (h : Q () s) : Watched T I (emit e) s Q := ⟨hI, h⟩

/-- A compare-and-swap that finds what it expects. -/
theorem watched_cas {ok : σ → Prop} [DecidablePred ok] {upd : σ → σ} {e : Option ε} {Q : Bool → σ → Prop} (hok : ok s)
    (hI : I s e (upd s)) (h : Q true (upd s)) : Watched T I (cas ok upd e) s Q := by
  rw [cas, watched_step, watched_ret, if_pos hok, if_pos hok, decide_eq_true hok]
  exact ⟨hI, h⟩

/-- A program that ends and is watched besides. -/
theorem Ends.watched {p : Prog σ ε α} (h : Ends p s Q) (hI : Watched True I p s fun _ _ => True) : Watched False I p s Q := by
  induction p generalizing s with
  | ret a => exact (ends_ret.1 h : Q a s)
  | halt =>
    obtain ⟨a, s', hrun, -⟩ := h
    cases hrun
  | step ev upd k ih => exact ⟨hI.1, ih s h hI.2⟩

theorem Watched.ends {p : Prog σ ε α} (h : Watched False I p s Q) : Ends p s Q := by
  induction p generalizing s with
  | ret a => exact ends_ret.2 h
  | halt => exact h.elim
  | step ev upd k ih => exact ih s h.2

theorem Watched.run {p : Prog σ ε α} (h : Watched T I p s Q) {a : α} {s' : σ} (hrun : p.run s = some (a, s')) : Q a s' := by
  induction p generalizing s with
  | ret b =>
    obtain ⟨rfl, rfl⟩ := Prod.mk.inj (Option.some.inj hrun)
    exact h
  | halt => cases hrun
  | step ev upd k ih => exact ih s h.2 hrun

theorem Watched.not_emits {p : Prog σ ε α} {e : ε} (h : Watched T I p s Q) (hI : ∀ s s', ¬ I s (some e) s') : ¬ Emits e p s := by
  induction p generalizing s with
  | ret a => exact id
  | halt => exact id
  | step ev upd k ih =>
    rintro (he | he)
    · exact hI s (upd s) (he ▸ h.1)
    · exact ih s h.2 he

/-- The end of a run is known from elsewhere. -/
theorem Watched.of_run {p : Prog σ ε α} (h : Watched T I p s Q) (hrun : ∀ a s', p.run s = some (a, s') → Q' a s') : Watched T I p s Q' := by
  induction p generalizing s with
  | ret a => exact hrun a s rfl
  | halt => exact h
  | step ev upd k ih => exact ⟨h.1, ih s h.2 hrun⟩

/-- A program all of whose steps meet `I`, whatever the states. -/
theorem Obeys.watched {p : Prog σ ε α} (h : Obeys I p) : Watched True I p s fun _ _ => True := by
  induction p generalizing s with
  | ret a => trivial
  | halt => trivial
  | step ev upd k ih => exact ⟨(h s).1, ih s (h s).2⟩

/-- A loop that may go round for ever. -/
theorem watched_iter {body : β → Prog σ ε (β ⊕ α)} (K : β → σ → Prop)
    (hbody : ∀ b s, K b s → Watched True I (body b) s fun r s' => Sum.elim (fun b' => K b' s') (Q · s') r) {fuel : Nat} {b : β} (h : K b s) :
    Watched True I (iter body fuel b) s Q := by
  induction fuel generalizing b s with
  | zero => trivial
  | succ fuel ih =>
    rw [iter, watched_bind]
    refine (hbody b s h).mono fun r s' hr => ?_
    cases r with
    | inl b' => exact ih hr
    | inr a => exact hr

end Rules

end Prog

/-- One thread alone: what the steps of `p` keep true of memory and log holds as long as it is in `p`. -/
theorem Prog.Watched.reach {σ ε α : Type} {I : σ → Option ε → σ → Prop} {J : σ → List (Rec (Fin 1) σ ε) → Prop}
    {c₀ c : Cfg (Fin 1) σ ε} {i : Fin 1} {p : Prog σ ε α} {f : α → Prog σ ε Unit} {Q : α → σ → Prop} (h : Watched True I p c₀.mem Q)
    (hthr : c₀.thr i = p >>= f) (hlog : J c₀.mem c₀.log) (hJ : ∀ rs r, I r.pre r.ev r.post → J r.pre rs → J r.post (r :: rs)) (hreach : Cfg.Reach c₀ c) :
    J c.mem c.log ∨ ∃ a c', Cfg.Reach c' c ∧ Q a c'.mem ∧ c'.thr i = f a ∧ J c'.mem c'.log := by
  obtain ⟨sched, rfl⟩ := hreach
  induction sched generalizing p c₀ with
  | nil => exact .inl hlog
  | cons j js ih =>
    obtain rfl : j = i := Subsingleton.elim j i
    rw [Cfg.exec_cons]
    cases p with
    | ret a => exact .inr ⟨a, c₀, ⟨j :: js, rfl⟩, h, hthr, hlog⟩
    | halt =>
      have hfire : c₀.fire j = c₀ := by simp only [Cfg.fire, hthr, halt_bind]
      rw [hfire]
      exact ih h hthr hlog
    | step ev upd k =>
      have hfire : c₀.fire j =
          ⟨upd c₀.mem, Function.update c₀.thr j (k c₀.mem >>= f), ⟨j, c₀.mem, ev c₀.mem, upd c₀.mem⟩ :: c₀.log⟩ := by
        simp only [Cfg.fire, hthr, step_bind]
      rw [hfire]
      exact ih h.2 (Function.update_self ..) (hJ _ ⟨j, c₀.mem, ev c₀.mem, upd c₀.mem⟩ h.1 hlog)

/-- One thread alone that has returned. -/
theorem Cfg.Reach.of_ret {σ ε : Type} {c₀ c : Cfg (Fin 1) σ ε} {i : Fin 1} (hthr : c₀.thr i = Prog.ret ()) (hreach : Cfg.Reach c₀ c) : c = c₀ := by
  obtain ⟨sched, rfl⟩ := hreach
  induction sched with
  | nil => rfl
  | cons j js ih =>
    obtain rfl : j = i := Subsingleton.elim j i
    have hfire : c₀.fire j = c₀ := by simp only [Cfg.fire, hthr]
    rw [Cfg.exec_cons, hfire]
    exact ih

end Conc
