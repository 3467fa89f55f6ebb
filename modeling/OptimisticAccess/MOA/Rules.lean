import OptimisticAccess.MOA.Ledger

/-!
# Specifications of the threads' programs

`Spec i A p B`: from a state with `A`, thread `i` keeps to the protocol in `p`, and ends in `B`. The
assertions speak of the shared memory and the bookkeeping; `Steady` ones survive the steps of the
other threads.
-/

namespace OptimisticAccess.MOA

open Conc Prog

variable {n : Nat}

def proto (n : Nat) : Proto (Fin n) (Mem n) Ev (Ghost n) where
  inv := Inv
  act i w w' := Trans i w.mem w.ghost w'.mem w'.ghost

abbrev Assert (n : Nat) := Mem n → Ghost n → Prop

variable {i j : Fin n} {α β γ : Type} {A A' F : Assert n} {B B' : α → Assert n} {C : β → Assert n} {s s' : Mem n} {g g' : Ghost n}

/-- No step that leaves the records of thread `i` alone breaks `A`: no step of another thread, and few of its own. -/
def Steady (i : Fin n) (A : Assert n) : Prop :=
  ∀ j s g s' g', Private i s g s' g' → Shape s g → Shape s' g' → Trans j s g s' g' → A s g → A s' g'

theorem Steady.stable (h : Steady i A) : (proto n).Stable i fun w => A w.mem w.ghost :=
  fun j w w' hj hI hI' hT => h j w.mem w.ghost w'.mem w'.ghost (hT.priv i hj.symm) hI.shape hI'.shape hT

theorem Steady.and (hA : Steady i A) (hF : Steady i F) : Steady i fun s g => A s g ∧ F s g :=
  fun j s g s' g' hp hS hS' hT h => ⟨hA j s g s' g' hp hS hS' hT h.1, hF j s g s' g' hp hS hS' hT h.2⟩

theorem Steady.or (hA : Steady i A) (hF : Steady i F) : Steady i fun s g => A s g ∨ F s g :=
  fun j s g s' g' hp hS hS' hT h => h.imp (hA j s g s' g' hp hS hS' hT) (hF j s g s' g' hp hS hS' hT)

theorem Steady.fact (c : Prop) : Steady i fun (_ : Mem n) (_ : Ghost n) => c := fun _ _ _ _ _ _ _ _ _ h => h

theorem Steady.imp (c : Prop) (hA : Steady i A) : Steady i fun s g => c → A s g :=
  fun j s g s' g' hp hS hS' hT h hc => hA j s g s' g' hp hS hS' hT (h hc)

theorem Steady.all {ι : Type} {A : ι → Assert n} (h : ∀ x, Steady i (A x)) : Steady i fun s g => ∀ x, A x s g :=
  fun j s g s' g' hp hS hS' hT hA x => h x j s g s' g' hp hS hS' hT (hA x)

theorem Steady.priv (h : ∀ s g s' g', Private i s g s' g' → A s g → A s' g') : Steady i A :=
  fun _ s g s' g' hp _ _ _ => h s g s' g' hp

theorem Steady.trans (h : ∀ j s g s' g', Trans j s g s' g' → A s g → A s' g') : Steady i A :=
  fun j s g s' g' _ _ _ hT => h j s g s' g' hT

/-! ## Rules -/

abbrev Spec (i : Fin n) (A : Assert n) (p : P n α) (B : α → Assert n) : Prop :=
  (proto n).Triple i (fun w => A w.mem w.ghost) p fun a w => B a w.mem w.ghost

theorem Spec.ret {a : α} (h : ∀ s g, A s g → B a s g) : Spec i A (Prog.ret a) B := Proto.Triple.ret fun w hw => h w.mem w.ghost hw

theorem Spec.halt : Spec i A (Prog.halt : P n α) B := Proto.Triple.halt

theorem Spec.pre {p : P n α} (h : Spec i A p B) (hA : ∀ s g, A' s g → A s g) : Spec i A' p B :=
  Proto.Triple.pre h fun w hw => hA w.mem w.ghost hw

theorem Spec.post {p : P n α} (h : Spec i A p B) (hB : ∀ a s g, B a s g → B' a s g) : Spec i A p B' :=
  Proto.Triple.post h fun a w hw => hB a w.mem w.ghost hw

theorem Spec.bind {p : P n α} {f : α → P n β} (hp : Spec i A p B) (hf : ∀ a, Spec i (B a) (f a) C) : Spec i A (p >>= f) C :=
  Proto.Triple.bind hp hf

theorem Spec.ite {c : Prop} [Decidable c] {p p' : P n α} (hp : c → Spec i A p B) (hp' : ¬ c → Spec i A p' B) :
    Spec i A (if c then p else p') B :=
  Proto.Triple.ite hp hp'

theorem Spec.fact {p : P n α} {c : Prop} (hc : ∀ s g, A s g → c) (h : c → Spec i A p B) : Spec i A p B :=
  Proto.Triple.fact (fun w hw => hc w.mem w.ghost hw) h

theorem Spec.exists {p : P n α} {A : γ → Assert n} (h : ∀ x, Spec i (A x) p B) : Spec i (fun s g => ∃ x, A x s g) p B :=
  Proto.Triple.exists h

theorem Spec.defined {c : Prop} [Decidable c] : Spec i A (Prog.defined c) fun _ s g => c ∧ A s g := Proto.Triple.defined

theorem Spec.iter {body : β → P n (β ⊕ α)} {J : β → Assert n}
    (hbody : ∀ b, Spec i (J b) (body b) fun x s g => Sum.elim (J · s g) (B · s g) x) (fuel : Nat) (b : β) :
    Spec i (J b) (Prog.iter body fuel b) B :=
  Proto.Triple.iter hbody fuel b

theorem Spec.forEach {body : β → P n Unit} {J : List β → Assert n} (hbody : ∀ b bs, Spec i (J (b :: bs)) (body b) fun _ => J bs)
    (bs : List β) : Spec i (J bs) (Prog.forEach body bs) fun _ => J [] :=
  Proto.Triple.forEach (J := fun bs w => J bs w.mem w.ghost) hbody bs

/-- The step rule: a writing step keeps `Shape` and is accounted for. -/
theorem Spec.step {ev : Mem n → Option Ev} {upd : Mem n → Mem n} {k : Mem n → P n α} (hA : Steady i A)
    (h : ∀ w : W n, A w.mem w.ghost → Inv w → ∃ g', Shape (upd w.mem) g' ∧ Trans i w.mem w.ghost (upd w.mem) g' ∧
      Booked i w.mem w.ghost (ev w.mem) (upd w.mem) g' ∧
      (proto n).wp i (k w.mem) (fun a w => B a w.mem w.ghost) (w.next i (ev w.mem) (upd w.mem) g')) :
    Spec i A (Prog.step ev upd k) B := by
  intro w hw
  refine Proto.wp_step (fun w => A w.mem w.ghost) hw hA.stable fun w hw hI _ => ?_
  obtain ⟨g', hS, hT, hB, hk⟩ := h w hw hI
  exact ⟨g', hI.next hS hT hB, hT, hk⟩

/-- A step that returns what it read. -/
theorem Spec.act {ev : Mem n → Option Ev} {upd : Mem n → Mem n} {f : Mem n → α} (hA : Steady i A)
    (h : ∀ s g, A s g → Shape s g → Mallocs s.spare → ∃ g', (Shape (upd s) g' ∧ Trans i s g (upd s) g') ∧
      Booked i s g (ev s) (upd s) g' ∧ B (f s) (upd s) g') : Spec i A (Prog.step ev upd fun s => Prog.ret (f s)) B :=
  .step hA fun w hw hI => by
    obtain ⟨g', ⟨hS, hT⟩, hB, hk⟩ := h w.mem w.ghost hw hI.shape hI.mallocs
    exact ⟨g', hS, hT, hB, hk⟩

theorem Spec.cas {ok : Mem n → Prop} [DecidablePred ok] {upd : Mem n → Mem n} {e : Option Ev} {B : Bool → Assert n}
    (hA : Steady i A)
    (hyes : ∀ s g, A s g → Shape s g → ok s → ∃ g', (Shape (upd s) g' ∧ Trans i s g (upd s) g') ∧
      Booked i s g e (upd s) g' ∧ B true (upd s) g')
    (hno : ∀ s g, A s g → Shape s g → ¬ ok s → B false s g) : Spec i A (Prog.cas ok upd e) B := by
  refine .act hA fun s g hs hS _ => ?_
  by_cases h : ok s
  · simp only [if_pos h, decide_eq_true h]
    exact hyes s g hs hS h
  · simp only [if_neg h, decide_eq_false h]
    exact ⟨g, ⟨hS, .refl ..⟩, .refl .., hno s g hs hS h⟩

theorem Spec.publicCas {ok : Mem n → Prop} [DecidablePred ok] {upd : Mem n → Mem n} {e : Option Ev} {B : Bool → Assert n}
    (hA : Steady i A)
    (hyes : ∀ s g, A s g → Shape s g → ok s → ∃ g', (Shape (upd s) g' ∧ Trans i s g (upd s) g') ∧ Private i s g (upd s) g' ∧
      Booked i s g e (upd s) g' ∧ (A (upd s) g' → B true (upd s) g'))
    (hno : ∀ s g, A s g → Shape s g → ¬ ok s → B false s g) : Spec i A (Prog.cas ok upd e) B := by
  refine .cas hA (fun s g hs hS h => ?_) hno
  obtain ⟨g', ⟨hS', hT⟩, hp, hB, hk⟩ := hyes s g hs hS h
  exact ⟨g', ⟨hS', hT⟩, hB, hk (hA i s g _ g' hp hS hS' hT hs)⟩

/-- A load: what it reads holds of the state it reads. -/
theorem Spec.load {f : Mem n → α} (hA : Steady i A) (h : ∀ s g, A s g → Shape s g → B (f s) s g) : Spec i A (Prog.load f) B :=
  .act hA fun s g hs hS _ => ⟨g, ⟨hS, .refl ..⟩, .refl .., h s g hs hS⟩

end OptimisticAccess.MOA
