import OptimisticAccess.Conc.Logic

/-!
# What a program can do at all

`Obeys R p` bounds the single steps of `p`, whatever the states they fire in: `R s e s'` relates
the state before a step, its event and the state after it. A program that obeys `R` keeps every
assertion that `R` steps keep, which disposes of the parts of a program a proof is not about.
-/

namespace Conc

namespace Prog

variable {σ ε α β γ : Type} {R R' : σ → Option ε → σ → Prop}

def Obeys (R : σ → Option ε → σ → Prop) : Prog σ ε α → Prop
  | ret _ => True
  | halt => True
  | step ev upd k => ∀ s, R s (ev s) (upd s) ∧ Obeys R (k s)

theorem Obeys.mono {p : Prog σ ε α} (h : Obeys R p) (hR : ∀ s e s', R s e s' → R' s e s') :
    Obeys R' p := by
  induction p with
  | ret a => trivial
  | halt => trivial
  | step ev upd k ih => exact fun s => ⟨hR _ _ _ (h s).1, ih s (h s).2⟩

@[simp] theorem obeys_ret (a : α) : Obeys R (ret a) := trivial

@[simp] theorem obeys_halt : Obeys R (halt : Prog σ ε α) := trivial

theorem obeys_bind {p : Prog σ ε α} {f : α → Prog σ ε β} (hp : Obeys R p)
    (hf : ∀ a, Obeys R (f a)) : Obeys R (p >>= f) := by
  induction p with
  | ret a => exact hf a
  | halt => trivial
  | step ev upd k ih => exact fun s => ⟨(hp s).1, ih s (hp s).2⟩

theorem obeys_step {ev : σ → Option ε} {upd : σ → σ} {k : σ → Prog σ ε α}
    (h : ∀ s, R s (ev s) (upd s)) (hk : ∀ s, Obeys R (k s)) : Obeys R (step ev upd k) :=
  fun s => ⟨h s, hk s⟩

theorem obeys_load {f : σ → α} (h : ∀ s, R s none s) : Obeys R (load f) := fun s => ⟨h s, trivial⟩

theorem obeys_watch {f : σ → α} {ev : α → Option ε} (h : ∀ s, R s (ev (f s)) s) :
    Obeys R (watch f ev) := fun s => ⟨h s, trivial⟩

theorem obeys_store {upd : σ → σ} (h : ∀ s, R s none (upd s)) : Obeys R (store upd) :=
  fun s => ⟨h s, trivial⟩

theorem obeys_atomic {f : σ → α} {upd : σ → σ} (h : ∀ s, R s none (upd s)) :
    Obeys R (atomic f upd) := fun s => ⟨h s, trivial⟩

theorem obeys_emit {e : ε} (h : ∀ s, R s (some e) s) : Obeys R (emit e) := fun s => ⟨h s, trivial⟩

theorem obeys_check {c : Prop} [Decidable c] {e : ε} (h : ∀ s, R s (some e) s) :
    Obeys R (check c e) := by
  unfold check
  split
  · trivial
  · exact fun s => ⟨h s, trivial⟩

theorem obeys_defined {c : Prop} [Decidable c] : Obeys R (defined c) := by
  unfold defined
  split <;> trivial

theorem obeys_cas {ok : σ → Prop} [DecidablePred ok] {upd : σ → σ} {e : Option ε}
    (h : ∀ s, R s none s) (hyes : ∀ s, ok s → R s e (upd s)) : Obeys R (cas ok upd e) := by
  intro s
  refine ⟨?_, trivial⟩
  dsimp only
  split
  · next hs => exact hyes s hs
  · exact h s

theorem obeys_ite {c : Prop} [Decidable c] {p q : Prog σ ε α} (hp : c → Obeys R p)
    (hq : ¬ c → Obeys R q) : Obeys R (if c then p else q) := by
  split
  · next h => exact hp h
  · next h => exact hq h

theorem obeys_iter {body : β → Prog σ ε (β ⊕ α)} (h : ∀ b, Obeys R (body b)) (fuel : Nat) (b : β) :
    Obeys R (iter body fuel b) := by
  induction fuel generalizing b with
  | zero => trivial
  | succ fuel ih =>
    refine obeys_bind (h b) fun r => ?_
    cases r with
    | inl b' => exact ih b'
    | inr a => trivial

theorem obeys_forEach {body : β → Prog σ ε Unit} {l : List β} (h : ∀ b ∈ l, Obeys R (body b)) :
    Obeys R (forEach body l) := by
  induction l with
  | nil => trivial
  | cons b l ih =>
    exact obeys_bind (h b List.mem_cons_self) fun _ => ih fun b hb => h b (List.mem_cons_of_mem _ hb)

theorem obeys_foldEach {body : γ → β → Prog σ ε γ} (h : ∀ c b, Obeys R (body c b)) (c : γ)
    (l : List β) : Obeys R (foldEach body c l) := by
  induction l generalizing c with
  | nil => trivial
  | cons b l ih => exact obeys_bind (h c b) fun c' => ih c'

theorem obeys_anyEach {body : β → Prog σ ε Bool} (h : ∀ b, Obeys R (body b)) (l : List β) :
    Obeys R (anyEach body l) := by
  induction l with
  | nil => trivial
  | cons b l ih => exact obeys_bind (h b) fun _ => obeys_ite (fun _ => trivial) fun _ => ih

end Prog

/-- A program that is frame to an assertion keeps it. -/
theorem Proto.wp_obeys {ι σ ε γ α : Type} {L : Proto ι σ ε γ} {i : ι} {w : World ι σ ε γ}
    {R : σ → Option ε → σ → Prop} {p : Prog σ ε α} (hp : p.Obeys R) (F : World ι σ ε γ → Prop)
    (hF : F w) (hs : L.Stable i F)
    (hstep : ∀ w ev s', F w → L.inv w → L.allow w.log ⟨i, w.mem, ev, s'⟩ → R w.mem ev s' →
      ∃ g, L.inv (w.next i ev s' g) ∧ L.act i w (w.next i ev s' g) ∧ F (w.next i ev s' g)) :
    L.wp i p (fun _ => F) w := by
  induction p generalizing w with
  | ret a => exact hF
  | halt => trivial
  | step ev upd k ih =>
    refine wp_step F hF hs fun w' hF' hI hok => ?_
    obtain ⟨g, hinv, hact, hF''⟩ := hstep w' _ _ hF' hI hok (hp w'.mem).1
    exact ⟨g, hinv, hact, ih w'.mem (hp w'.mem).2 hF''⟩

/-- A program that keeps to a protocol keeps to a stronger one, if the steps that `R` allows it do, and with it to the assertions
that these steps keep. -/
theorem Proto.wp_strengthen {ι σ ε γ α : Type} {L L' : Proto ι σ ε γ} {i : ι} {w : World ι σ ε γ} {R : σ → Option ε → σ → Prop}
    {p : Prog σ ε α} {Q : α → World ι σ ε γ → Prop} (hinv : ∀ w, L'.inv w → L.inv w) (hact : ∀ j w w', L'.act j w w' → L.act j w w')
    (hallow : ∀ log r, L.allow log r) (F : World ι σ ε γ → Prop) (hs : L'.Stable i F)
    (hstep : ∀ w ev s' g, F w → L'.inv w → R w.mem ev s' → L.inv (w.next i ev s' g) → L.act i w (w.next i ev s' g) →
      L'.inv (w.next i ev s' g) ∧ L'.act i w (w.next i ev s' g) ∧ F (w.next i ev s' g))
    (hp : p.Obeys R) (h : L.wp i p Q w) (hF : F w) : L'.wp i p (fun a w => Q a w ∧ F w) w := by
  have hrely : ∀ {w w'}, L'.Rely i w w' → L.Rely i w w' := by
    intro w w' hr
    induction hr with
    | refl => exact .refl
    | tail _ hstep ih =>
      obtain ⟨h1, h2, j, hj, ha⟩ := hstep
      exact ih.tail ⟨hinv _ h1, hinv _ h2, j, hj, hact _ _ _ ha⟩
  induction p generalizing w with
  | ret a => exact ⟨h, hF⟩
  | halt => trivial
  | step ev upd k ih =>
    intro w' hr hI _
    obtain ⟨g, hI', ha, hk⟩ := h w' (hrely hr) (hinv _ hI) (hallow ..)
    obtain ⟨hI'', ha', hF'⟩ := hstep w' _ _ g (hs.rely hr hF) hI (hp w'.mem).1 hI' ha
    exact ⟨g, hI'', ha', ih w'.mem (hp w'.mem).2 hk hF'⟩

end Conc
