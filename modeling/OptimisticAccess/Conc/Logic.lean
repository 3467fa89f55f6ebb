import Mathlib.Logic.Relation
import OptimisticAccess.Conc.System

/-!
# A rely-guarantee logic for atomic steps

Each thread is verified on its own against a `Proto`: an invariant of the shared world, the
changes each thread may make, and the condition a run is assumed to meet. The world carries
the log of the run, so an assertion can speak of the past, and a ghost component that the
program never reads and a proof updates at its steps. `wp L i p Q w` says that from world
`w`, with the other threads free to act between any two steps, program `p` of thread `i`
keeps to the protocol and ends in `Q`. `adequacy` turns one `wp` for each thread into a fact
about every run.
-/

namespace Conc

/-- What assertions speak of: the shared state, the log, and the proof's ghost state. -/
structure World (ι σ ε γ : Type) where
  mem : σ
  log : List (Rec ι σ ε)
  ghost : γ

/-- The world after a step of `i`. -/
def World.next {ι σ ε γ : Type} (w : World ι σ ε γ) (i : ι) (ev : Option ε) (mem : σ) (ghost : γ) :
    World ι σ ε γ :=
  ⟨mem, ⟨i, w.mem, ev, mem⟩ :: w.log, ghost⟩

section Next

variable {ι σ ε γ : Type} (w : World ι σ ε γ) (i : ι) (ev : Option ε) (mem : σ) (ghost : γ)

@[simp] theorem World.next_mem : (w.next i ev mem ghost).mem = mem := rfl

@[simp] theorem World.next_ghost : (w.next i ev mem ghost).ghost = ghost := rfl

@[simp] theorem World.next_log : (w.next i ev mem ghost).log = ⟨i, w.mem, ev, mem⟩ :: w.log := rfl

end Next

/-- The protocol of a proof. `allow` is the condition the theorem puts on the steps of a run;
it sees the step and the log before it only. -/
structure Proto (ι σ ε γ : Type) where
  inv : World ι σ ε γ → Prop
  act : ι → World ι σ ε γ → World ι σ ε γ → Prop
  allow : List (Rec ι σ ε) → Rec ι σ ε → Prop := fun _ _ => True

namespace Proto

variable {ι σ ε γ α β δ : Type} (L : Proto ι σ ε γ)

/-- One step of some thread other than `i`. -/
def Env (i : ι) (w w' : World ι σ ε γ) : Prop :=
  L.inv w ∧ L.inv w' ∧ ∃ j, j ≠ i ∧ L.act j w w'

/-- Any number of steps of the other threads. -/
def Rely (i : ι) : World ι σ ε γ → World ι σ ε γ → Prop := Relation.ReflTransGen (L.Env i)

/-- No step of another thread breaks `P`. -/
def Stable (i : ι) (P : World ι σ ε γ → Prop) : Prop :=
  ∀ j w w', j ≠ i → L.inv w → L.inv w' → L.act j w w' → P w → P w'

def wp (i : ι) : Prog σ ε α → (α → World ι σ ε γ → Prop) → World ι σ ε γ → Prop
  | .ret a, Q, w => Q a w
  | .halt, _, _ => True
  | .step ev upd k, Q, w => ∀ w', L.Rely i w w' → L.inv w' →
      L.allow w'.log ⟨i, w'.mem, ev w'.mem, upd w'.mem⟩ →
      ∃ g, L.inv (w'.next i (ev w'.mem) (upd w'.mem) g) ∧
        L.act i w' (w'.next i (ev w'.mem) (upd w'.mem) g) ∧
        wp i (k w'.mem) Q (w'.next i (ev w'.mem) (upd w'.mem) g)

section Rules

variable {L} {i : ι} {w : World ι σ ε γ}

theorem Stable.rely {P : World ι σ ε γ → Prop} (hs : L.Stable i P) {w' : World ι σ ε γ}
    (hr : L.Rely i w w') (hP : P w) : P w' := by
  induction hr with
  | refl => exact hP
  | tail _ hstep ih =>
    obtain ⟨hi, hi', j, hj, ha⟩ := hstep
    exact hs j _ _ hj hi hi' ha ih

theorem Stable.and {P Q : World ι σ ε γ → Prop} (hP : L.Stable i P) (hQ : L.Stable i Q) :
    L.Stable i fun w => P w ∧ Q w :=
  fun j w w' hj hi hi' ha h => ⟨hP j w w' hj hi hi' ha h.1, hQ j w w' hj hi hi' ha h.2⟩

theorem stable_const (p : Prop) : L.Stable i fun _ => p := fun _ _ _ _ _ _ _ h => h

@[simp] theorem wp_ret (a : α) (Q : α → World ι σ ε γ → Prop) : L.wp i (.ret a) Q w ↔ Q a w :=
  Iff.rfl

@[simp] theorem wp_halt (Q : α → World ι σ ε γ → Prop) : L.wp i .halt Q w := trivial

theorem wp_mono {p : Prog σ ε α} {Q Q' : α → World ι σ ε γ → Prop} (h : L.wp i p Q w)
    (hQ : ∀ a w, Q a w → Q' a w) : L.wp i p Q' w := by
  induction p generalizing w with
  | ret a => exact hQ a w h
  | halt => trivial
  | step ev upd k ih =>
    intro w' hr hi hc
    obtain ⟨g, hinv, hact, hk⟩ := h w' hr hi hc
    exact ⟨g, hinv, hact, ih _ hk⟩

theorem wp_bind {p : Prog σ ε α} {f : α → Prog σ ε β} {Q : β → World ι σ ε γ → Prop} :
    L.wp i (p >>= f) Q w ↔ L.wp i p (fun a => L.wp i (f a) Q) w := by
  induction p generalizing w with
  | ret a => rfl
  | halt => rfl
  | step ev upd k ih => simp only [Prog.step_bind, wp, ih]

/-- The step rule: a stable assertion holds where the step fires. -/
theorem wp_step {ev : σ → Option ε} {upd : σ → σ} {k : σ → Prog σ ε α}
    {Q : α → World ι σ ε γ → Prop} (P : World ι σ ε γ → Prop) (hP : P w) (hs : L.Stable i P)
    (h : ∀ w, P w → L.inv w → L.allow w.log ⟨i, w.mem, ev w.mem, upd w.mem⟩ →
      ∃ g, L.inv (w.next i (ev w.mem) (upd w.mem) g) ∧
        L.act i w (w.next i (ev w.mem) (upd w.mem) g) ∧
        L.wp i (k w.mem) Q (w.next i (ev w.mem) (upd w.mem) g)) :
    L.wp i (.step ev upd k) Q w :=
  fun w' hr hi hc => h w' (hs.rely hr hP) hi hc

/-- The rule of `cas`: success and failure apart. -/
theorem wp_cas {ok : σ → Prop} [DecidablePred ok] {upd : σ → σ} {e : Option ε}
    {Q : Bool → World ι σ ε γ → Prop} (P : World ι σ ε γ → Prop) (hP : P w) (hs : L.Stable i P)
    (hyes : ∀ w, P w → L.inv w → ok w.mem → L.allow w.log ⟨i, w.mem, e, upd w.mem⟩ →
      ∃ g, L.inv (w.next i e (upd w.mem) g) ∧ L.act i w (w.next i e (upd w.mem) g) ∧
        Q true (w.next i e (upd w.mem) g))
    (hno : ∀ w, P w → L.inv w → ¬ ok w.mem → L.allow w.log ⟨i, w.mem, none, w.mem⟩ →
      ∃ g, L.inv (w.next i none w.mem g) ∧ L.act i w (w.next i none w.mem g) ∧
        Q false (w.next i none w.mem g)) :
    L.wp i (Prog.cas ok upd e) Q w := by
  refine wp_step P hP hs fun w hP hI hok => ?_
  by_cases h : ok w.mem
  · simp only [if_pos h, decide_eq_true h] at hok ⊢
    exact hyes w hP hI h hok
  · simp only [if_neg h, decide_eq_false h] at hok ⊢
    exact hno w hP hI h hok

/-- The loop rule. `J` need only hold at the loop head. -/
theorem wp_iter {body : β → Prog σ ε (β ⊕ α)} {Q : α → World ι σ ε γ → Prop}
    (J : β → World ι σ ε γ → Prop)
    (hbody : ∀ b w, J b w → L.wp i (body b) (fun r w => Sum.elim (J · w) (Q · w) r) w)
    (n : Nat) (b : β) (hJ : J b w) : L.wp i (Prog.iter body n b) Q w := by
  induction n generalizing b w with
  | zero => trivial
  | succ n ih =>
    rw [Prog.iter, wp_bind]
    refine wp_mono (hbody b w hJ) fun r w' hr => ?_
    cases r with
    | inl b' => exact ih b' hr
    | inr a => exact hr

theorem wp_forEach {body : β → Prog σ ε Unit} (J : List β → World ι σ ε γ → Prop)
    (hbody : ∀ b bs w, J (b :: bs) w → L.wp i (body b) (fun _ w => J bs w) w) (bs : List β)
    (hJ : J bs w) : L.wp i (Prog.forEach body bs) (fun _ w => J [] w) w := by
  induction bs generalizing w with
  | nil => exact hJ
  | cons b bs ih =>
    rw [Prog.forEach, wp_bind]
    exact wp_mono (hbody b bs w hJ) fun _ w' h => ih h

/-- A loop over `0 .. m - 1`. -/
theorem wp_forRange {body : Nat → Prog σ ε Unit} {m : Nat} (J : Nat → World ι σ ε γ → Prop)
    (hbody : ∀ k < m, ∀ w, J k w → L.wp i (body k) (fun _ w => J (k + 1) w) w) (hJ : J 0 w) :
    L.wp i (Prog.forEach body (List.range m)) (fun _ w => J m w) w := by
  suffices ∀ l k w, k + l = m → J k w →
      L.wp i (Prog.forEach body (List.range' k l)) (fun _ w => J m w) w by
    rw [List.range_eq_range']
    exact this m 0 w (Nat.zero_add m) hJ
  intro l
  induction l with
  | zero => rintro k w rfl h; exact h
  | succ l ih =>
    intro k w hk h
    rw [List.range'_succ, Prog.forEach, wp_bind]
    exact wp_mono (hbody k (by omega) w h) fun _ w' h' => ih (k + 1) w' (by omega) h'

/-- A loop that carries a local variable. -/
theorem wp_foldEach {body : δ → β → Prog σ ε δ} (J : δ → List β → World ι σ ε γ → Prop)
    (hbody : ∀ c b bs w, J c (b :: bs) w → L.wp i (body c b) (fun c' w => J c' bs w) w) (bs : List β) (c : δ)
    (hJ : J c bs w) : L.wp i (Prog.foldEach body c bs) (fun c' w => J c' [] w) w := by
  induction bs generalizing c w with
  | nil => exact hJ
  | cons b bs ih =>
    rw [Prog.foldEach, wp_bind]
    exact wp_mono (hbody c b bs w hJ) fun c' w' h => ih c' h

/-- A search of a list: it stops in `E`, or goes through. -/
theorem wp_anyEach {body : β → Prog σ ε Bool} (J : List β → World ι σ ε γ → Prop) (E : World ι σ ε γ → Prop)
    (hbody : ∀ b bs w, J (b :: bs) w → L.wp i (body b) (fun r w => if r then E w else J bs w) w) (bs : List β)
    (hJ : J bs w) : L.wp i (Prog.anyEach body bs) (fun r w => if r then E w else J [] w) w := by
  induction bs generalizing w with
  | nil =>
    rw [Prog.anyEach, wp_ret, if_neg Bool.false_ne_true]
    exact hJ
  | cons b bs ih =>
    rw [Prog.anyEach, wp_bind]
    refine wp_mono (hbody b bs w hJ) fun r w' h' => ?_
    cases r with
    | true => exact h'
    | false => exact ih h'

end Rules

/-! ## Triples -/

/-- From every world with `A`, program `p` of thread `i` keeps to the protocol and ends in `B`. -/
def Triple (i : ι) (A : World ι σ ε γ → Prop) (p : Prog σ ε α) (B : α → World ι σ ε γ → Prop) : Prop :=
  ∀ w, A w → L.wp i p B w

section Triple

variable {L} {i : ι} {A A' : World ι σ ε γ → Prop} {B B' : α → World ι σ ε γ → Prop} {C : β → World ι σ ε γ → Prop}

theorem Triple.ret {a : α} (h : ∀ w, A w → B a w) : L.Triple i A (.ret a) B := fun w hw => h w hw

theorem Triple.halt : L.Triple i A (.halt : Prog σ ε α) B := fun _ _ => trivial

theorem Triple.mono {p : Prog σ ε α} (h : L.Triple i A p B) (hA : ∀ w, A' w → A w) (hB : ∀ a w, B a w → B' a w) :
    L.Triple i A' p B' :=
  fun w hw => wp_mono (h w (hA w hw)) hB

theorem Triple.pre {p : Prog σ ε α} (h : L.Triple i A p B) (hA : ∀ w, A' w → A w) : L.Triple i A' p B :=
  fun w hw => h w (hA w hw)

theorem Triple.post {p : Prog σ ε α} (h : L.Triple i A p B) (hB : ∀ a w, B a w → B' a w) : L.Triple i A p B' :=
  fun w hw => wp_mono (h w hw) hB

theorem Triple.bind {p : Prog σ ε α} {f : α → Prog σ ε β} (hp : L.Triple i A p B)
    (hf : ∀ a, L.Triple i (B a) (f a) C) : L.Triple i A (p >>= f) C :=
  fun w hw => wp_bind.2 (wp_mono (hp w hw) fun a w' h => hf a w' h)

theorem Triple.ite {c : Prop} [Decidable c] {p p' : Prog σ ε α} (hp : c → L.Triple i A p B)
    (hp' : ¬ c → L.Triple i A p' B) : L.Triple i A (if c then p else p') B := by
  split
  · next h => exact hp h
  · next h => exact hp' h

theorem Triple.defined {c : Prop} [Decidable c] :
    L.Triple i A (Prog.defined c) fun _ w => c ∧ A w := by
  unfold Prog.defined
  split
  · next h => exact .ret fun _ hw => ⟨h, hw⟩
  · exact .halt

/-- What the precondition says of the program's values may be used at once. -/
theorem Triple.fact {p : Prog σ ε α} {c : Prop} (hc : ∀ w, A w → c) (h : c → L.Triple i A p B) : L.Triple i A p B :=
  fun w hw => h (hc w hw) w hw

theorem Triple.exists {p : Prog σ ε α} {A : δ → World ι σ ε γ → Prop} (h : ∀ x, L.Triple i (A x) p B) :
    L.Triple i (fun w => ∃ x, A x w) p B :=
  fun w ⟨x, hx⟩ => h x w hx

theorem Triple.iter {body : β → Prog σ ε (β ⊕ α)} {J : β → World ι σ ε γ → Prop}
    (hbody : ∀ b, L.Triple i (J b) (body b) fun x w => Sum.elim (J · w) (B · w) x) (fuel : Nat) (b : β) :
    L.Triple i (J b) (Prog.iter body fuel b) B :=
  fun _ hw => wp_iter J (fun b w hw => hbody b w hw) fuel b hw

theorem Triple.forEach {body : β → Prog σ ε Unit} {J : List β → World ι σ ε γ → Prop}
    (hbody : ∀ b bs, L.Triple i (J (b :: bs)) (body b) fun _ => J bs) (bs : List β) :
    L.Triple i (J bs) (Prog.forEach body bs) fun _ => J [] :=
  fun _ hw => wp_forEach J (fun b bs w hw => hbody b bs w hw) bs hw

theorem Triple.forRange {body : Nat → Prog σ ε Unit} {m : Nat} {J : Nat → World ι σ ε γ → Prop}
    (hbody : ∀ k < m, L.Triple i (J k) (body k) fun _ => J (k + 1)) :
    L.Triple i (J 0) (Prog.forEach body (List.range m)) fun _ => J m :=
  fun _ hw => wp_forRange J (fun k hk w hw => hbody k hk w hw) hw

theorem Triple.foldEach {body : δ → β → Prog σ ε δ} {J : δ → List β → World ι σ ε γ → Prop}
    (hbody : ∀ c b bs, L.Triple i (J c (b :: bs)) (body c b) fun c' => J c' bs) (c : δ) (bs : List β) :
    L.Triple i (J c bs) (Prog.foldEach body c bs) fun c' => J c' [] :=
  fun _ hw => wp_foldEach J (fun c b bs w hw => hbody c b bs w hw) bs c hw

end Triple

/-- Every thread is at some point of a verified program. -/
def Verified (c : Cfg ι σ ε) (g : γ) : Prop :=
  L.inv ⟨c.mem, c.log, g⟩ ∧
    ∀ i, ∃ w, L.Rely i w ⟨c.mem, c.log, g⟩ ∧ L.wp i (c.thr i) (fun _ _ => True) w

/-- The steps of a log all meet the condition of the protocol. -/
def Allowed : List (Rec ι σ ε) → Prop := Along L.allow

theorem allowed_of_forall (h : ∀ log r, L.allow log r) (log : List (Rec ι σ ε)) : L.Allowed log := by
  induction log with
  | nil => trivial
  | cons r rs ih => exact ⟨ih, h ..⟩

variable {L} [DecidableEq ι]

/-- One step of one thread keeps every thread verified. -/
theorem Verified.fire {c : Cfg ι σ ε} {g : γ} (h : L.Verified c g) (i : ι)
    (hok : L.Allowed (c.fire i).log) : ∃ g', L.Verified (c.fire i) g' := by
  obtain ⟨hinv, hthr⟩ := h
  obtain ⟨w, hr, hwp⟩ := hthr i
  cases hp : c.thr i with
  | ret a => exact ⟨g, by simpa only [Cfg.fire, hp] using ⟨hinv, hthr⟩⟩
  | halt => exact ⟨g, by simpa only [Cfg.fire, hp] using ⟨hinv, hthr⟩⟩
  | step ev upd k =>
    rw [hp] at hwp
    simp only [Cfg.fire, hp] at hok ⊢
    obtain ⟨g', hinv', hact, hk⟩ := hwp _ hr hinv hok.2
    refine ⟨g', hinv', fun j => ?_⟩
    by_cases hj : j = i
    · subst hj
      exact ⟨_, .refl, by dsimp only; rw [Function.update_self]; exact hk⟩
    · obtain ⟨wj, hrj, hwpj⟩ := hthr j
      refine ⟨wj, hrj.tail ⟨hinv, hinv', i, fun e => hj e.symm, hact⟩, ?_⟩
      simpa only [Function.update_of_ne hj] using hwpj

/-- The log only grows. -/
theorem log_fire (c : Cfg ι σ ε) (i : ι) : (c.fire i).log = c.log ∨ ∃ r, (c.fire i).log = r :: c.log := by
  unfold Cfg.fire
  split
  · exact .inr ⟨_, rfl⟩
  · exact .inl rfl

theorem Allowed.of_fire {c : Cfg ι σ ε} {i : ι} (h : L.Allowed (c.fire i).log) : L.Allowed c.log := by
  rcases log_fire c i with e | ⟨r, e⟩
  · rwa [e] at h
  · rw [e] at h; exact h.1

/-- **Adequacy.** If every thread is verified from the start, the invariant holds in every
configuration of every run whose steps are allowed. -/
theorem adequacy {c0 : Cfg ι σ ε} {g0 : γ} (hinv : L.inv ⟨c0.mem, c0.log, g0⟩)
    (hthr : ∀ i, L.wp i (c0.thr i) (fun _ _ => True) ⟨c0.mem, c0.log, g0⟩) {c : Cfg ι σ ε}
    (hreach : Cfg.Reach c0 c) (hok : L.Allowed c.log) : ∃ g, L.inv ⟨c.mem, c.log, g⟩ := by
  suffices L.Allowed c.log → ∃ g, L.Verified c g from
    let ⟨g, h⟩ := this hok; ⟨g, h.1⟩
  refine Cfg.reach_induction (P := fun c => L.Allowed c.log → ∃ g, L.Verified c g) ?_ ?_ hreach
  · exact fun _ => ⟨g0, hinv, fun i => ⟨_, .refl, hthr i⟩⟩
  · intro c i _ ih hok
    obtain ⟨g, h⟩ := ih hok.of_fire
    exact h.fire i hok

end Proto

end Conc
