import OptimisticAccess.Conc.Frame

/-!
# Simulation of one system by another

A proof about a system carries, as part of its ghost state, a configuration of a simpler one, the
`spec`, that a run of the spec reaches. `Refines i A p q B` says that while thread `i` runs `p` its
counterpart in the spec runs `q`: a step of `p` is matched by a step of `q` or by none, and the
two end together, with the same value. `Simulation.adequacy` turns one refinement for each thread
into a run of the spec for every run of the system, with the same history.
-/

namespace Conc

namespace Prog

variable {σ τ ε δ α β : Type}

/-- A program of one component of a larger state. -/
def within (get : τ → σ) (put : σ → τ → τ) (emb : ε → δ) : Prog σ ε α → Prog τ δ α
  | ret a => ret a
  | halt => halt
  | step ev upd k =>
    step (fun t => (ev (get t)).map emb) (fun t => put (upd (get t)) t) fun t => within get put emb (k (get t))

/-- `p` does the same in states that `same` relates. -/
def Respects (same : σ → σ → Prop) : Prog σ ε α → Prop
  | ret _ => True
  | halt => True
  | step ev upd k => ∀ s s', same s s' → ev s = ev s' ∧ same (upd s) (upd s') ∧ k s = k s' ∧ Respects same (k s)

variable {same : σ → σ → Prop}

theorem respects_load {f : σ → α} (hf : ∀ s s', same s s' → f s = f s') : Respects same (load f : Prog σ ε α) :=
  fun s s' h => ⟨rfl, h, congrArg ret (hf s s' h), trivial⟩

theorem respects_store {upd : σ → σ} (hupd : ∀ s s', same s s' → same (upd s) (upd s')) :
    Respects same (store upd : Prog σ ε Unit) :=
  fun s s' h => ⟨rfl, hupd s s' h, rfl, trivial⟩

theorem respects_cas {ok : σ → Prop} [DecidablePred ok] {upd : σ → σ} {e : Option ε}
    (hok : ∀ s s', same s s' → (ok s ↔ ok s')) (hupd : ∀ s s', same s s' → same (upd s) (upd s')) :
    Respects same (cas ok upd e) := by
  intro s s' h
  have hiff := hok s s' h
  by_cases hs : ok s
  · simp only [hiff, if_pos (hiff.1 hs), true_and]
    exact ⟨hupd s s' h, trivial⟩
  · simp only [hiff, if_neg (fun h' => hs (hiff.2 h')), true_and]
    exact ⟨h, trivial⟩

theorem respects_bind {p : Prog σ ε α} {f : α → Prog σ ε β} (hp : Respects same p) (hf : ∀ a, Respects same (f a)) :
    Respects same (p >>= f) := by
  induction p with
  | ret a => exact hf a
  | halt => trivial
  | step ev upd k ih =>
    intro s s' h
    obtain ⟨hev, hupd, hk, hr⟩ := hp s s' h
    exact ⟨hev, hupd, congrArg (bind · f) hk, ih s hr⟩

theorem respects_ite {c : Prop} [Decidable c] {p q : Prog σ ε α} (hp : Respects same p) (hq : Respects same q) :
    Respects same (if c then p else q) := by
  split
  · exact hp
  · exact hq

theorem respects_iter {body : β → Prog σ ε (β ⊕ α)} (h : ∀ b, Respects same (body b)) (fuel : Nat) (b : β) :
    Respects same (iter body fuel b) := by
  induction fuel generalizing b with
  | zero => trivial
  | succ fuel ih =>
    refine respects_bind (h b) fun r => ?_
    cases r with
    | inl b' => exact ih b'
    | inr a => trivial

end Prog

/-- The visible events of a log with the threads they are of, newest first. -/
def history {ι τ δ ε : Type} (vis : δ → Option ε) (log : List (Rec ι τ δ)) : List (ι × ε) :=
  log.filterMap fun r => (r.ev.bind vis).map (r.tid, ·)

/-- A system that is verified against `base` and the system it is compared with: `rel` relates
the states, `vis` the events. -/
structure Simulation (ι τ δ γ σ ε : Type) where
  base : Proto ι τ δ γ
  spec : Cfg ι σ ε
  rel : τ → List (Rec ι τ δ) → σ → Prop
  vis : δ → Option ε

section History

variable {ι τ δ ε : Type} {vis : δ → Option ε} {log : List (Rec ι τ δ)} {r : Rec ι τ δ}

theorem history_cons_none (h : r.ev.bind vis = none) : history vis (r :: log) = history vis log := by
  rw [history, List.filterMap_cons_none (by rw [h, Option.map_none]), history]

theorem history_cons_some {e : ε} (h : r.ev.bind vis = some e) :
    history vis (r :: log) = (r.tid, e) :: history vis log := by
  rw [history, List.filterMap_cons_some (b := (r.tid, e)) (by rw [h, Option.map_some]), history]

/-- Two steps of one thread with the same visible event. -/
theorem history_cons_congr {σ : Type} {log' : List (Rec ι σ ε)} {r' : Rec ι σ ε} (htid : r'.tid = r.tid)
    (hev : r.ev.bind vis = r'.ev) (h : history vis log = history some log') :
    history vis (r :: log) = history some (r' :: log') := by
  cases he : r'.ev with
  | none => rw [history_cons_none (hev.trans he), history_cons_none (by rw [he]; rfl), h]
  | some e => rw [history_cons_some (hev.trans he), history_cons_some (by rw [he]; rfl), h, htid]

end History

namespace Simulation

variable {ι τ δ γ σ ε α β : Type} [DecidableEq ι] (S : Simulation ι τ δ γ σ ε)

/-- The world without the spec. -/
def impl (w : World ι τ δ (γ × Cfg ι σ ε)) : World ι τ δ γ := ⟨w.mem, w.log, w.ghost.1⟩

/-- The protocol of the system and the spec together: a thread moves its own counterpart only. -/
def proto : Proto ι τ δ (γ × Cfg ι σ ε) where
  inv w := S.base.inv (impl w) ∧ Cfg.Reach S.spec w.ghost.2 ∧ S.rel w.mem w.log w.ghost.2.mem ∧
    history S.vis w.log = history some w.ghost.2.log
  act i w w' := S.base.act i (impl w) (impl w') ∧ ∀ j, j ≠ i → w'.ghost.2.thr j = w.ghost.2.thr j
  allow := S.base.allow

/-- While thread `i` runs `p`, its counterpart runs `q`. -/
def Refines (i : ι) (A : World ι τ δ γ → Prop) (p : Prog τ δ α) (q : Prog σ ε α)
    (B : α → World ι τ δ γ → Prop) : Prop :=
  ∀ k : α → Prog σ ε Unit, S.proto.Triple i (fun w => A (impl w) ∧ w.ghost.2.thr i = q >>= k) p
    fun a w => B a (impl w) ∧ w.ghost.2.thr i = k a

/-- A step that the spec does not notice. -/
def Silent (t : τ) (e : Option δ) (t' : τ) : Prop :=
  e.bind S.vis = none ∧ ∀ log i s, S.rel t log s → S.rel t' (⟨i, t, e, t'⟩ :: log) s

variable {S} {i : ι} {A A' : World ι τ δ γ → Prop} {B B' : α → World ι τ δ γ → Prop} {C : β → World ι τ δ γ → Prop}

theorem stable (hA : S.base.Stable i A) (q : Prog σ ε Unit) :
    S.proto.Stable i fun w => A (impl w) ∧ w.ghost.2.thr i = q :=
  fun j _ _ hj hi hi' ha h => ⟨hA j _ _ hj hi.1 hi'.1 ha.1 h.1, (ha.2 i fun e => hj e.symm).trans h.2⟩

/-- The other threads do to the system what they may, and leave the counterpart alone. -/
theorem rely {w w' : World ι τ δ (γ × Cfg ι σ ε)} (h : S.proto.Rely i w w') :
    S.base.Rely i (impl w) (impl w') ∧ w'.ghost.2.thr i = w.ghost.2.thr i := by
  induction h with
  | refl => exact ⟨.refl, rfl⟩
  | tail _ hstep ih =>
    obtain ⟨hi, hi', j, hj, ha⟩ := hstep
    exact ⟨ih.1.tail ⟨hi.1, hi'.1, j, hj, ha.1⟩, (ha.2 i fun e => hj e.symm).trans ih.2⟩

/-- The spec after a step of thread `i`. -/
theorem fire_step {a : Cfg ι σ ε} {ev : σ → Option ε} {upd : σ → σ} {k : σ → Prog σ ε Unit} (h : a.thr i = .step ev upd k) :
    a.fire i = ⟨upd a.mem, Function.update a.thr i (k a.mem), ⟨i, a.mem, ev a.mem, upd a.mem⟩ :: a.log⟩ := by
  simp only [Cfg.fire, h]

/-! ## Rules -/

theorem Refines.ret {a : α} (h : ∀ w, A w → B a w) : S.Refines i A (.ret a) (.ret a) B :=
  fun _ w hw => ⟨h (impl w) hw.1, hw.2⟩

/-- A thread that stops stops anywhere in the spec. -/
theorem Refines.halt {q : Prog σ ε α} : S.Refines i A .halt q B := fun _ _ _ => trivial

theorem Refines.pre {p : Prog τ δ α} {q : Prog σ ε α} (h : S.Refines i A p q B) (hA : ∀ w, A' w → A w) :
    S.Refines i A' p q B :=
  fun k => (h k).pre fun w hw => ⟨hA (impl w) hw.1, hw.2⟩

theorem Refines.post {p : Prog τ δ α} {q : Prog σ ε α} (h : S.Refines i A p q B) (hB : ∀ a w, B a w → B' a w) :
    S.Refines i A p q B' :=
  fun k => (h k).post fun a w hw => ⟨hB a (impl w) hw.1, hw.2⟩

theorem Refines.bind {p : Prog τ δ α} {q : Prog σ ε α} {f : α → Prog τ δ β} {g : α → Prog σ ε β}
    (hp : S.Refines i A p q B) (hf : ∀ a, S.Refines i (B a) (f a) (g a) C) : S.Refines i A (p >>= f) (q >>= g) C :=
  fun k => ((hp fun a => g a >>= k).pre fun _ hw => ⟨hw.1, hw.2.trans (Prog.bind_assoc q g k)⟩).bind fun a => hf a k

theorem Refines.ite {c : Prop} [Decidable c] {p p' : Prog τ δ α} {q q' : Prog σ ε α} (hp : c → S.Refines i A p q B)
    (hp' : ¬ c → S.Refines i A p' q' B) : S.Refines i A (if c then p else p') (if c then q else q') B := by
  split
  · next h => exact hp h
  · next h => exact hp' h

theorem Refines.iter {body : β → Prog τ δ (β ⊕ α)} {body' : β → Prog σ ε (β ⊕ α)} {J : β → World ι τ δ γ → Prop}
    (hbody : ∀ b, S.Refines i (J b) (body b) (body' b) fun x w => Sum.elim (J · w) (B · w) x) (fuel : Nat) (b : β) :
    S.Refines i (J b) (Prog.iter body fuel b) (Prog.iter body' fuel b) B := by
  induction fuel generalizing b with
  | zero => exact .halt
  | succ fuel ih =>
    refine (hbody b).bind fun x => ?_
    cases x with
    | inl b' => exact ih b'
    | inr a => exact .ret fun _ hw => hw

theorem Refines.forEach {body : β → Prog τ δ Unit} {body' : β → Prog σ ε Unit}
    (hbody : ∀ b, S.Refines i A (body b) (body' b) fun _ => A) (bs : List β) :
    S.Refines i A (Prog.forEach body bs) (Prog.forEach body' bs) fun _ => A := by
  induction bs with
  | nil => exact .ret fun _ hw => hw
  | cons b bs ih => exact (hbody b).bind fun _ => ih

/-- A program of the system alone, while the spec waits. -/
theorem Refines.silent {p : Prog τ δ α} {f : α → Prog τ δ β} {q : Prog σ ε β} (hp : S.base.Triple i A p B)
    (hs : p.Obeys S.Silent) (hf : ∀ a, S.Refines i (B a) (f a) q C) : S.Refines i A (p >>= f) q C := by
  intro k
  refine Proto.Triple.bind (B := fun a w => B a (impl w) ∧ w.ghost.2.thr i = q >>= k) (fun w hw => ?_) fun a => hf a k
  obtain ⟨hwp, hthr⟩ := hw
  replace hwp := hp (impl w) hwp
  clear hp hf
  induction p generalizing w with
  | ret a => exact ⟨hwp, hthr⟩
  | halt => trivial
  | step ev upd m ih =>
    intro w' hr hi hok
    obtain ⟨hrely, hsame⟩ := rely hr
    obtain ⟨hbase, hreach, hrel, hhist⟩ := hi
    obtain ⟨g, hinv, hact, hk⟩ := hwp (impl w') hrely hbase hok
    obtain ⟨⟨hvis, hkeep⟩, hrest⟩ := hs w'.mem
    refine ⟨(g, w'.ghost.2), ⟨hinv, hreach, hkeep _ _ _ hrel, ?_⟩, ⟨hact, fun _ _ => rfl⟩, ?_⟩
    · exact (history_cons_none hvis).trans hhist
    · exact ih w'.mem hrest _ (hsame.trans hthr) hk

/-- A step of the system and a step of the spec. -/
theorem Refines.step {ev : τ → Option δ} {upd : τ → τ} {m : τ → Prog τ δ α} {ev' : σ → Option ε} {upd' : σ → σ}
    {m' : σ → Prog σ ε α} (hA : S.base.Stable i A)
    (h : ∀ w s, A w → S.base.inv w → S.rel w.mem w.log s → S.base.allow w.log ⟨i, w.mem, ev w.mem, upd w.mem⟩ →
      ∃ g, S.base.inv (w.next i (ev w.mem) (upd w.mem) g) ∧ S.base.act i w (w.next i (ev w.mem) (upd w.mem) g) ∧
        S.rel (upd w.mem) (w.next i (ev w.mem) (upd w.mem) g).log (upd' s) ∧ (ev w.mem).bind S.vis = ev' s ∧
        S.Refines i (· = w.next i (ev w.mem) (upd w.mem) g) (m w.mem) (m' s) B) :
    S.Refines i A (.step ev upd m) (.step ev' upd' m') B := by
  intro k w hw
  refine Proto.wp_step _ hw (stable hA _) fun w hw hi hok => ?_
  obtain ⟨hAw, hthr⟩ := hw
  obtain ⟨hbase, hreach, hrel, hhist⟩ := hi
  obtain ⟨g, hinv, hact, hrel', hev, hm⟩ := h (impl w) w.ghost.2.mem hAw hbase hrel hok
  rw [Prog.step_bind] at hthr
  have hfire := fire_step hthr
  have hnext : impl (w.next i (ev w.mem) (upd w.mem) (g, w.ghost.2.fire i)) = (impl w).next i (ev w.mem) (upd w.mem) g := rfl
  refine ⟨(g, w.ghost.2.fire i), ⟨hnext ▸ hinv, hreach.trans (Cfg.Reach.fire _ i), ?_, ?_⟩, ⟨hnext ▸ hact, ?_⟩, ?_⟩
  · simp only [World.next_ghost, hfire]
    exact hrel'
  · simp only [World.next_ghost, World.next_log, hfire]
    exact history_cons_congr rfl hev hhist
  · intro j hj
    simp only [World.next_ghost, hfire]
    exact Function.update_of_ne hj _ _
  · refine hm k _ ⟨hnext, ?_⟩
    simp only [World.next_ghost, hfire]
    exact Function.update_self ..

/-- A program of one component is refined by that program: `keep` is what it leaves alone. -/
theorem Refines.within {get : τ → σ} {put : σ → τ → τ} {emb : ε → δ} {same keep : σ → σ → Prop} {p : Prog σ ε α}
    (hp : p.Respects same) (hk : p.Obeys fun s _ s' => keep s s') (hA : S.base.Stable i A) (hemb : ∀ e, S.vis (emb e) = some e)
    (hsame : ∀ w s, S.base.inv w → S.rel w.mem w.log s → same (get w.mem) s)
    (hstep : ∀ w s x x' e, A w → S.base.inv w → S.rel w.mem w.log s → same x x' → keep s x' →
      ∃ g, S.base.inv (w.next i (Option.map emb e) (put x w.mem) g) ∧
        S.base.act i w (w.next i (Option.map emb e) (put x w.mem) g) ∧
        S.rel (put x w.mem) (w.next i (Option.map emb e) (put x w.mem) g).log x' ∧
        A (w.next i (Option.map emb e) (put x w.mem) g)) :
    S.Refines i A (p.within get put emb) p fun _ => A := by
  induction p with
  | ret a => exact .ret fun _ hw => hw
  | halt => exact .halt
  | step ev upd k ih =>
    refine .step hA fun w s hw hI hrel _ => ?_
    obtain ⟨hev, hupd, hks, hrest⟩ := hp _ _ (hsame w s hI hrel)
    obtain ⟨g, hinv, hact, hrel', hA'⟩ := hstep w s _ _ (ev (get w.mem)) hw hI hrel hupd (hk s).1
    refine ⟨g, hinv, hact, hrel', ?_, ?_⟩
    · rw [← hev]
      cases ev (get w.mem) with
      | none => rfl
      | some e => exact hemb e
    · rw [← hks]
      exact (ih (get w.mem) hrest (hk _).2).pre fun w' hw' => hw' ▸ hA'

/-- A loop of the system whose last round alone the spec notices. -/
theorem Refines.loop {body : β → Prog τ δ (β ⊕ α)} {q : Prog σ ε α} {J : β → World ι τ δ γ → Prop}
    (hbody : ∀ b (rest : β ⊕ α → Prog τ δ α), (∀ b', S.Refines i (J b') (rest (.inl b')) q B) →
      (∀ a, rest (.inr a) = .ret a) → S.Refines i (J b) (body b >>= rest) q B) (fuel : Nat) (b : β) :
    S.Refines i (J b) (Prog.iter body fuel b) q B := by
  induction fuel generalizing b with
  | zero => exact .halt
  | succ fuel ih => exact hbody b _ ih fun _ => rfl

/-! ## Runs -/

/-- **Adequacy.** Every run of the system whose steps are allowed has the history of a run of the spec. -/
theorem adequacy {c0 c : Cfg ι τ δ} {g0 : γ} {A : ι → World ι τ δ γ → Prop} (hreach : Cfg.Reach c0 c) (hok : S.base.Allowed c.log)
    (hinv : S.base.inv ⟨c0.mem, c0.log, g0⟩) (hrel : S.rel c0.mem c0.log S.spec.mem)
    (hlog : history S.vis c0.log = history some S.spec.log) (hA : ∀ i, A i ⟨c0.mem, c0.log, g0⟩)
    (hthr : ∀ i, S.Refines i (A i) (c0.thr i) (S.spec.thr i) fun _ _ => True) :
    ∃ g a, S.base.inv ⟨c.mem, c.log, g⟩ ∧ Cfg.Reach S.spec a ∧ S.rel c.mem c.log a.mem ∧
      history S.vis c.log = history some a.log := by
  have h0 : S.proto.inv ⟨c0.mem, c0.log, (g0, S.spec)⟩ := ⟨hinv, .refl _, hrel, hlog⟩
  obtain ⟨⟨g, a⟩, h⟩ := Proto.adequacy h0 (fun i => Proto.wp_mono
    (hthr i .ret _ ⟨hA i, (Prog.bind_ret _).symm⟩) fun _ _ _ => trivial) hreach hok
  exact ⟨g, a, h⟩

end Simulation

end Conc
