import OptimisticAccess.Conc.System

/-!
# A thread that runs alone

`Ends p s Q`: scheduled without interruption from `s`, program `p` comes to its end, in `Q`. The
rules follow the program text; a loop needs a measure below its fuel.
-/

namespace Conc

namespace Prog

variable {σ ε α β γ : Type}

def Ends (p : Prog σ ε α) (s : σ) (Q : α → σ → Prop) : Prop := ∃ a s', p.run s = some (a, s') ∧ Q a s'

section Rules

variable {s : σ} {Q Q' : α → σ → Prop}

@[simp] theorem ends_ret {a : α} : Ends (ret a : Prog σ ε α) s Q ↔ Q a s := by
  constructor
  · rintro ⟨b, s', h, hQ⟩
    injection h with h
    injection h with h1 h2
    subst h1; subst h2
    exact hQ
  · exact fun h => ⟨a, s, rfl, h⟩

@[simp] theorem ends_step {ev : σ → Option ε} {upd : σ → σ} {k : σ → Prog σ ε α} :
    Ends (step ev upd k) s Q ↔ Ends (k s) (upd s) Q := Iff.rfl

theorem Ends.mono {p : Prog σ ε α} (h : Ends p s Q) (hQ : ∀ a s, Q a s → Q' a s) : Ends p s Q' := by
  obtain ⟨a, s', hr, h⟩ := h
  exact ⟨a, s', hr, hQ a s' h⟩

@[simp] theorem ends_bind {p : Prog σ ε β} {f : β → Prog σ ε α} :
    Ends (p >>= f) s Q ↔ Ends p s fun b s => Ends (f b) s Q := by
  constructor
  · rintro ⟨a, s', hr, hQ⟩
    rw [run_bind] at hr
    cases hp : p.run s with
    | none => rw [hp] at hr; cases hr
    | some r =>
      obtain ⟨b, s1⟩ := r
      rw [hp] at hr
      exact ⟨b, s1, hp, a, s', hr, hQ⟩
  · rintro ⟨b, s1, hp, a, s', hr, hQ⟩
    refine ⟨a, s', ?_, hQ⟩
    rw [run_bind, hp]
    exact hr

@[simp] theorem ends_load {f : σ → α} : Ends (load f : Prog σ ε α) s Q ↔ Q (f s) s := by
  rw [load, ends_step, ends_ret]; rfl

@[simp] theorem ends_watch {f : σ → α} {ev : α → Option ε} : Ends (watch f ev) s Q ↔ Q (f s) s := by
  rw [watch, ends_step, ends_ret]; rfl

@[simp] theorem ends_store {upd : σ → σ} {Q : Unit → σ → Prop} :
    Ends (store upd : Prog σ ε Unit) s Q ↔ Q () (upd s) := by
  rw [store, ends_step, ends_ret]

@[simp] theorem ends_atomic {f : σ → α} {upd : σ → σ} :
    Ends (atomic f upd : Prog σ ε α) s Q ↔ Q (f s) (upd s) := by
  rw [atomic, ends_step, ends_ret]

@[simp] theorem ends_emit {e : ε} {Q : Unit → σ → Prop} : Ends (emit e) s Q ↔ Q () s := by
  rw [emit, ends_step, ends_ret]; rfl

theorem ends_check {c : Prop} [Decidable c] {e : ε} {Q : Unit → σ → Prop} (hc : c) (h : Q () s) :
    Ends (check c e) s Q := by
  rw [check, if_pos hc]
  exact ends_ret.2 h

theorem ends_cas {ok : σ → Prop} [DecidablePred ok] {upd : σ → σ} {e : Option ε} {Q : Bool → σ → Prop}
    (hyes : ok s → Q true (upd s)) (hno : ¬ ok s → Q false s) : Ends (cas ok upd e) s Q := by
  rw [cas, ends_step, ends_ret]
  by_cases h : ok s
  · simpa only [if_pos h, decide_eq_true h] using hyes h
  · simpa only [if_neg h, decide_eq_false h] using hno h

/-- The loop rule: `μ` bounds the number of rounds that are left. -/
theorem ends_iter {body : β → Prog σ ε (β ⊕ α)} (J : β → σ → Prop) (μ : β → σ → Nat)
    (hbody : ∀ b s, J b s → Ends (body b) s fun r s' =>
      Sum.elim (fun b' => J b' s' ∧ μ b' s' < μ b s) (Q · s') r)
    {fuel : Nat} {b : β} (hfuel : μ b s < fuel) (h : J b s) : Ends (iter body fuel b) s Q := by
  induction fuel generalizing b s with
  | zero => exact absurd hfuel (Nat.not_lt_zero _)
  | succ fuel ih =>
    rw [iter, ends_bind]
    refine (hbody b s h).mono fun r s' hr => ?_
    cases r with
    | inl b' => exact ih (by have := hr.2; omega) hr.1
    | inr a => exact ends_ret.2 hr

/-- A loop that is left in its first round. -/
theorem ends_iter_once {body : β → Prog σ ε (β ⊕ α)} {b : β} {fuel : Nat} (hfuel : 0 < fuel)
    (h : Ends (body b) s fun r s' => ∃ a, r = .inr a ∧ Q a s') : Ends (iter body fuel b) s Q := by
  cases fuel with
  | zero => exact absurd hfuel (Nat.not_lt_zero _)
  | succ fuel =>
    rw [iter, ends_bind]
    apply h.mono
    rintro r s' ⟨a, rfl, ha⟩
    exact ends_ret.2 ha

/-- A loop that goes round whatever the fuel comes to no end. -/
theorem run_iter_none {body : β → Prog σ ε (β ⊕ α)} (J : β → σ → Prop)
    (hbody : ∀ b s, J b s → Ends (body b) s fun r s' => ∃ b', r = .inl b' ∧ J b' s') (fuel : Nat) {b : β} (h : J b s) :
    (iter body fuel b).run s = none := by
  induction fuel generalizing b s with
  | zero => rfl
  | succ fuel ih =>
    obtain ⟨r, s', hrun, b', rfl, h'⟩ := hbody b s h
    rw [iter, run_bind, hrun]
    exact ih h'

theorem ends_forEach {body : β → Prog σ ε Unit} (J : List β → σ → Prop)
    (hbody : ∀ b bs s, J (b :: bs) s → Ends (body b) s fun _ s' => J bs s') (bs : List β) (h : J bs s) :
    Ends (forEach body bs) s fun _ s' => J [] s' := by
  induction bs generalizing s with
  | nil => exact ends_ret.2 h
  | cons b bs ih =>
    rw [forEach, ends_bind]
    exact (hbody b bs s h).mono fun _ s' h' => ih h'

/-- A loop over `0 .. m - 1`. -/
theorem ends_forRange {body : Nat → Prog σ ε Unit} {m : Nat} (J : Nat → σ → Prop)
    (hbody : ∀ k < m, ∀ s, J k s → Ends (body k) s fun _ s' => J (k + 1) s') (h : J 0 s) :
    Ends (forEach body (List.range m)) s fun _ s' => J m s' := by
  suffices ∀ l k s, k + l = m → J k s → Ends (forEach body (List.range' k l)) s fun _ s' => J m s' by
    rw [List.range_eq_range']
    exact this m 0 s (Nat.zero_add m) h
  intro l
  induction l with
  | zero => rintro k s rfl h; exact ends_ret.2 h
  | succ l ih =>
    intro k s hk h
    rw [List.range'_succ, forEach, ends_bind]
    exact (hbody k (by omega) s h).mono fun _ s' h' => ih (k + 1) s' (by omega) h'

/-- A loop with a local variable. -/
theorem ends_foldEach {body : γ → β → Prog σ ε γ} (J : List β → γ → σ → Prop)
    (hbody : ∀ b bs c s, J (b :: bs) c s → Ends (body c b) s fun c' s' => J bs c' s') {bs : List β} {c : γ} (h : J bs c s) :
    Ends (foldEach body c bs) s fun c' s' => J [] c' s' := by
  induction bs generalizing c s with
  | nil => exact ends_ret.2 h
  | cons b bs ih =>
    rw [foldEach, ends_bind]
    exact (hbody b bs c s h).mono fun _ s' h' => ih h'

/-- A search that comes to its end. -/
theorem ends_anyEach {body : β → Prog σ ε Bool} (J : List β → σ → Prop)
    (hbody : ∀ b bs s, J (b :: bs) s → Ends (body b) s fun r s' => r = false ∧ J bs s') {bs : List β} (h : J bs s) :
    Ends (anyEach body bs) s fun r s' => r = false ∧ J [] s' := by
  induction bs generalizing s with
  | nil => exact ends_ret.2 ⟨rfl, h⟩
  | cons b bs ih =>
    rw [anyEach, ends_bind]
    refine (hbody b bs s h).mono ?_
    rintro r s' ⟨rfl, h'⟩
    exact ih h'

/-- A loop over `0 .. m - 1` with a local variable. -/
theorem ends_foldRange {body : γ → Nat → Prog σ ε γ} {m : Nat} (J : Nat → γ → σ → Prop)
    (hbody : ∀ k < m, ∀ c s, J k c s → Ends (body c k) s fun c' s' => J (k + 1) c' s') {c : γ} (h : J 0 c s) :
    Ends (foldEach body c (List.range m)) s fun c' s' => J m c' s' := by
  suffices ∀ l k c s, k + l = m → J k c s →
      Ends (foldEach body c (List.range' k l)) s fun c' s' => J m c' s' by
    rw [List.range_eq_range']
    exact this m 0 c s (Nat.zero_add m) h
  intro l
  induction l with
  | zero => rintro k c s rfl h; exact ends_ret.2 h
  | succ l ih =>
    intro k c s hk h
    rw [List.range'_succ, foldEach, ends_bind]
    exact (hbody k (by omega) c s h).mono fun c' s' h' => ih (k + 1) c' s' (by omega) h'

end Rules

end Prog

/-- Thread `i`, scheduled until `p` has ended. -/
theorem Prog.Ends.exec {ι σ ε α : Type} [DecidableEq ι] {c : Cfg ι σ ε} {i : ι} {p : Prog σ ε α}
    {f : α → Prog σ ε Unit} {Q : α → σ → Prop} (hthr : c.thr i = p >>= f) (h : Ends p c.mem Q) :
    ∃ a c', Cfg.Reach c c' ∧ Q a c'.mem ∧ c'.thr = Function.update c.thr i (f a) := by
  induction p generalizing c with
  | ret a =>
    refine ⟨a, c, .refl c, ends_ret.1 h, ?_⟩
    rw [show f a = c.thr i from hthr.symm, Function.update_eq_self]
  | halt => obtain ⟨a, s', hr, -⟩ := h; cases hr
  | step ev upd k ih =>
    have hfire : c.fire i = ⟨upd c.mem, Function.update c.thr i (k c.mem >>= f), ⟨i, c.mem, ev c.mem, upd c.mem⟩ :: c.log⟩ := by
      simp only [Cfg.fire, hthr, step_bind]
    obtain ⟨a, c', hreach, hQ, hthr'⟩ := ih c.mem (c := c.fire i)
      (by rw [hfire]; exact Function.update_self ..) (by rw [hfire]; exact h)
    refine ⟨a, c', (Cfg.Reach.fire c i).trans hreach, hQ, ?_⟩
    rw [hthr', hfire]
    exact Function.update_idem ..

end Conc
