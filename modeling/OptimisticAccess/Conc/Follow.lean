import OptimisticAccess.Conc.System

/-!
# The order of a thread's events

`Follows next p m Q`: the events of program `p` are moves of the automaton `next` from state `m`, whatever
memory its steps read, and it returns in states that meet `Q`. A thread says nothing about the memory
this way, so the other threads do not matter.
-/

namespace Conc

namespace Prog

variable {σ ε α β M : Type} (next : M → ε → Option M)

/-- Only events move the automaton. -/
def advance (m : M) : Option ε → Option M
  | none => some m
  | some e => next m e

def Follows : Prog σ ε α → M → (α → M → Prop) → Prop
  | ret a, m, Q => Q a m
  | halt, _, _ => True
  | step ev _ k, m, Q => ∀ s, ∃ m', advance next m (ev s) = some m' ∧ Follows (k s) m' Q

section Rules

variable {next} {m : M} {Q Q' : α → M → Prop}

theorem Follows.mono {p : Prog σ ε α} (h : Follows next p m Q) (hQ : ∀ a m, Q a m → Q' a m) : Follows next p m Q' := by
  induction p generalizing m with
  | ret a => exact hQ a m h
  | halt => trivial
  | step ev upd k ih =>
    intro s
    obtain ⟨m', hm', hk⟩ := h s
    exact ⟨m', hm', ih s hk⟩

theorem follows_bind {p : Prog σ ε β} {f : β → Prog σ ε α} (h : Follows next p m fun b m' => Follows next (f b) m' Q) :
    Follows next (p >>= f) m Q := by
  induction p generalizing m with
  | ret b => exact h
  | halt => trivial
  | step ev upd k ih =>
    intro s
    obtain ⟨m', hm', hk⟩ := h s
    exact ⟨m', hm', ih s hk⟩

theorem follows_load {f : σ → α} (h : ∀ s, Q (f s) m) : Follows next (load f) m Q := fun s => ⟨m, rfl, h s⟩

theorem follows_store {upd : σ → σ} {Q : Unit → M → Prop} (h : Q () m) : Follows next (store upd) m Q := fun _ => ⟨m, rfl, h⟩

theorem follows_atomic {f : σ → α} {upd : σ → σ} (h : ∀ s, Q (f s) m) : Follows next (atomic f upd) m Q := fun s => ⟨m, rfl, h s⟩

theorem follows_emit {e : ε} {m' : M} {Q : Unit → M → Prop} (hm : next m e = some m') (h : Q () m') :
    Follows next (emit e : Prog σ ε Unit) m Q := fun _ => ⟨m', hm, h⟩

theorem follows_cas {ok : σ → Prop} [DecidablePred ok] {upd : σ → σ} {e : Option ε} {m' : M} {Q : Bool → M → Prop}
    (hm : advance next m e = some m') (hyes : Q true m') (hno : Q false m) : Follows next (cas ok upd e) m Q := by
  intro s
  change ∃ m', advance next m (if ok s then e else none) = some m' ∧ Q (decide (ok s)) m'
  by_cases h : ok s
  · rw [if_pos h, decide_eq_true h]
    exact ⟨m', hm, hyes⟩
  · rw [if_neg h, decide_eq_false h]
    exact ⟨m, rfl, hno⟩

/-- A loop whose rounds end where they began. -/
theorem follows_iter {body : β → Prog σ ε (β ⊕ α)}
    (hbody : ∀ b, Follows next (body b) m fun r m' => m' = m ∧ ∀ a, r = .inr a → Q a m) (fuel : Nat) (b : β) :
    Follows next (iter body fuel b) m Q := by
  induction fuel generalizing b with
  | zero => trivial
  | succ fuel ih =>
    apply follows_bind
    apply (hbody b).mono
    rintro r m' ⟨rfl, hr⟩
    cases r with
    | inl b' => exact ih b'
    | inr a => exact hr a rfl

theorem follows_forEach {body : β → Prog σ ε Unit} (bs : List β) (hbody : ∀ b ∈ bs, Follows next (body b) m fun _ m' => m' = m) :
    Follows next (forEach body bs) m fun _ m' => m' = m := by
  induction bs with
  | nil => rfl
  | cons b bs ih =>
    apply follows_bind
    apply (hbody b List.mem_cons_self).mono
    rintro _ m' rfl
    exact ih fun b' hb' => hbody b' (List.mem_cons_of_mem b hb')

end Rules

end Prog

open Prog

variable {ι σ ε M : Type} [DecidableEq ι] (next : M → ε → Option M) (start : M)

/-- Where the events of thread `i` have led. -/
def position (i : ι) : List (Rec ι σ ε) → Option M
  | [] => some start
  | r :: rs => if r.tid = i then (position i rs).bind fun m => advance next m r.ev else position i rs

variable {next start}

/-- A program that follows the automaton does so in any company. -/
theorem Prog.Follows.reach {mem : σ} {thr : ι → Prog σ ε Unit} {Q : Unit → M → Prop} (h : ∀ i, Follows next (thr i) start Q)
    {c : Cfg ι σ ε} (hc : Cfg.Reach (.init mem thr) c) (i : ι) :
    ∃ m, position next start i c.log = some m ∧ Follows next (c.thr i) m Q := by
  refine Cfg.reach_induction (P := fun c => ∀ i, ∃ m, position next start i c.log = some m ∧ Follows next (c.thr i) m Q)
    (fun i => ⟨start, rfl, h i⟩) (fun c j _ ih => ?_) hc i
  unfold Cfg.fire
  split
  · rename_i ev upd k hthr
    intro i
    obtain ⟨m, hm, hi⟩ := ih i
    by_cases hij : i = j
    · subst hij
      rw [hthr] at hi
      obtain ⟨m', hm', hk⟩ := hi c.mem
      refine ⟨m', ?_, ?_⟩
      · rw [position, if_pos rfl, hm]
        exact hm'
      · dsimp only
        rwa [Function.update_self]
    · refine ⟨m, ?_, ?_⟩
      · rwa [position, if_neg fun he => hij he.symm]
      · dsimp only
        rwa [Function.update_of_ne hij]
  · exact ih

end Conc
