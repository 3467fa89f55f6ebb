import OptimisticAccess.Conc.Logic
import OptimisticAccess.RC.Steps

/-!
# What a thread has in hand

The protocol of the counted list: `Shape`, and a log that agrees with the hands. `Own` says all
there is to know of a thread's hand and of the entries that are its own; what else a thread
relies on is `Steady` in the references it holds on to, since a live entry with a reference
stays live.
-/

namespace OptimisticAccess.RC

open Conc Prog

variable {n : Nat}

abbrev Log (n : Nat) := List (Rec (Fin n) (Mem n) Ev)

abbrev W (n : Nat) := World (Fin n) (Mem n) Ev (Ghost n)

/-- What an event adds to the references of `a` that its thread holds. -/
def gain (a : Nat) : Option Ev → Int
  | some (.initialised b) => if b = a then 1 else 0
  | some (.acquired b) => if b = a then 1 else 0
  | some (.released b) => if b = a then -1 else 0
  | some (.linked b) => if b = a then -1 else 0
  | _ => 0

/-- The references to `a` that thread `i` holds: acquired or initialised, and neither released nor
given to a link. -/
def holds (i : Fin n) (a : Nat) : Log n → Int
  | [] => 0
  | r :: rs => (if r.tid = i then gain a r.ev else 0) + holds i a rs

/-- Thread `i` is in the middle of an operation. -/
def Busy (i : Fin n) : Log n → Prop
  | [] => False
  | r :: rs =>
    if r.tid = i then
      match r.ev with
      | some (.call _) => True
      | some (.ret _ _) => False
      | _ => Busy i rs
    else Busy i rs

instance instDecidableBusy (i : Fin n) : (log : Log n) → Decidable (Busy i log)
  | [] => isFalse id
  | r :: rs =>
    have := instDecidableBusy i rs
    have : Decidable (match r.ev with
      | some (.call _) => True
      | some (.ret _ _) => False
      | _ => Busy i rs) := by split <;> infer_instance
    inferInstanceAs (Decidable (if r.tid = i then _ else Busy i rs))

/-- `a` was in the list at the start or came from `newRC`. -/
def Known (first : Set Nat) (log : Log n) (a : Nat) : Prop := a ∈ first ∨ ∃ r ∈ log, r.ev = some (.initialised a)

/-- A stage in which the entry is in the hands of thread `i` alone. -/
def Stage.mine (i : Fin n) : Stage n → Option (Stage n)
  | .raw j => if j = i then some (.raw j) else none
  | .fresh j => if j = i then some (.fresh j) else none
  | .dead j => if j = i then some (.dead j) else none
  | _ => none

@[simp] theorem Stage.mine_raw (i : Fin n) : (Stage.raw i).mine i = some (.raw i) := if_pos rfl

@[simp] theorem Stage.mine_fresh (i : Fin n) : (Stage.fresh i).mine i = some (.fresh i) := if_pos rfl

@[simp] theorem Stage.mine_dead (i : Fin n) : (Stage.dead i).mine i = some (.dead i) := if_pos rfl

theorem Stage.eq_of_mine {i : Fin n} {st st' : Stage n} (h : st.mine i = some st') : st = st' := by
  cases st <;> simp_all [Stage.mine]

theorem Stage.mine_of_owner {i : Fin n} {st : Stage n} (h : st.owner ≠ some i) : st.mine i = none := by
  cases st <;> simp_all [Stage.mine, Stage.owner]

def Hand.empty : Hand := ⟨0, 0, none⟩

/-- Thread `i` holds nothing. -/
structure Idle (i : Fin n) (g : Ghost n) : Prop where
  hand : g.hand i = .empty
  mine : ∀ a, (g.stage a).mine i = none

structure Inv (pool : Nat → Nat) (first : Set Nat) (w : W n) : Prop where
  shape : Shape pool w.mem w.ghost
  held : ∀ i a, holds i a w.log = Multiset.count a (w.ghost.hand i).held
  known : ∀ a, Known first w.log a ↔ (w.ghost.stage a).Born
  idle : ∀ i, ¬ Busy i w.log → Idle i w.ghost
  asserts : ∀ r ∈ w.log, r.ev ≠ some .assertFailed

def proto (n : Nat) (pool : Nat → Nat) (first : Set Nat) : Proto (Fin n) (Mem n) Ev (Ghost n) where
  inv := Inv pool first
  act i w w' := Trans i w.mem w.ghost w'.mem w'.ghost ∧ ∃ r, r.tid = i ∧ w'.log = r :: w.log

/-- The event of a step is what the step does to the hand of its thread. -/
structure Booked (i : Fin n) (w : W n) (ev : Option Ev) (g' : Ghost n) : Prop where
  held : ∀ a, (Multiset.count a (g'.hand i).held : Int) = gain a ev + Multiset.count a (w.ghost.hand i).held
  born : ∀ a, (g'.stage a).Born ↔ (w.ghost.stage a).Born ∨ ev = some (.initialised a)
  noFail : ev ≠ some .assertFailed
  idle : ¬ Busy i (w.next i ev w.mem g').log → Idle i g'

variable {pool : Nat → Nat} {first : Set Nat} {i j : Fin n} {w w' : W n} {α β : Type}

theorem Trans.mine {s s' : Mem n} {g g' : Ghost n} (h : Trans i s g s' g') (hj : j ≠ i) (a : Nat) :
    (g'.stage a).mine j = (g.stage a).mine j := by
  by_cases ho : (g.stage a).owner = some j ∨ (g'.stage a).owner = some j
  · rw [h.stage j hj a ho]
  · obtain ⟨h1, h2⟩ := not_or.1 ho
    rw [Stage.mine_of_owner h1, Stage.mine_of_owner h2]

theorem Inv.next (hI : Inv pool first w) {ev : Option Ev} {s' : Mem n} {g' : Ghost n} (hS : Shape pool s' g')
    (hT : Trans i w.mem w.ghost s' g') (hB : Booked i w ev g') : Inv pool first (w.next i ev s' g') := by
  refine ⟨hS, fun j a => ?_, fun a => ?_, fun j hj => ?_, fun r hr => ?_⟩
  · change (if i = j then gain a ev else 0) + holds j a w.log = _
    by_cases hj : j = i
    · subst hj
      rw [if_pos rfl, hI.held]
      exact (hB.held a).symm
    · rw [if_neg fun e => hj e.symm, hI.held, zero_add]
      change _ = ((Multiset.count a (g'.hand j).held : Nat) : Int)
      rw [hT.hand j hj]
  · refine Iff.trans ?_ (hB.born a).symm
    rw [← hI.known]
    simp only [Known, World.next, List.mem_cons, exists_eq_or_imp]
    rw [or_left_comm, or_comm]
  · by_cases hji : j = i
    · subst hji; exact hB.idle hj
    · have hold : ¬ Busy j w.log := by
        intro hb
        apply hj
        change if i = j then _ else Busy j w.log
        rwa [if_neg fun e => hji e.symm]
      obtain ⟨h1, h2⟩ := hI.idle j hold
      exact ⟨(hT.hand j hji).trans h1, fun a => (hT.mine hji a).trans (h2 a)⟩
  · obtain rfl | hr := List.mem_cons.1 hr
    · exact hB.noFail
    · exact hI.asserts r hr

theorem Booked.silent {g' : Ghost n} (hbusy : Busy i w.log) (hheld : (g'.hand i).held = (w.ghost.hand i).held)
    (hborn : ∀ a, (g'.stage a).Born ↔ (w.ghost.stage a).Born) : Booked i w none g' := by
  refine ⟨fun a => ?_, fun a => ?_, by simp, fun h => absurd ?_ h⟩
  · rw [hheld]; exact (zero_add _).symm
  · simp [hborn]
  · change if i = i then _ else _
    rw [if_pos rfl]; exact hbusy

/-- Thread `i` takes a reference into use. -/
theorem Booked.gains {g' : Ghost n} {a : Nat} (hbusy : Busy i w.log)
    (hheld : (g'.hand i).held = a ::ₘ (w.ghost.hand i).held)
    (hborn : ∀ b, (g'.stage b).Born ↔ (w.ghost.stage b).Born) : Booked i w (some (.acquired a)) g' := by
  refine ⟨fun b => ?_, fun b => ?_, by simp, fun h => absurd ?_ h⟩
  · rw [hheld, Multiset.count_cons]
    simp only [gain]
    by_cases hb : b = a
    · subst hb; simp only [if_true]; omega
    · rw [if_neg hb, if_neg fun e => hb e.symm]; omega
  · simp [hborn]
  · change if i = i then _ else _
    rw [if_pos rfl]; exact hbusy

/-- Thread `i` gives a reference up, to a link or for good. -/
theorem Booked.loses {g' : Ghost n} {a : Nat} {ev : Ev} (hev : ev = .released a ∨ ev = .linked a)
    (hbusy : Busy i w.log) (hheld : (w.ghost.hand i).held = a ::ₘ (g'.hand i).held)
    (hborn : ∀ b, (g'.stage b).Born ↔ (w.ghost.stage b).Born) : Booked i w (some ev) g' := by
  refine ⟨fun b => ?_, fun b => ?_, ?_, fun h => absurd ?_ h⟩
  · rw [hheld, Multiset.count_cons]
    have hgain : gain b (some ev) = if a = b then -1 else 0 := by
      obtain rfl | rfl := hev
      · rfl
      · rfl
    rw [hgain]
    by_cases hb : b = a
    · subst hb; simp only [if_true]; omega
    · rw [if_neg hb, if_neg fun e => hb e.symm]; omega
  · obtain rfl | rfl := hev
    · simp [hborn]
    · simp [hborn]
  · obtain rfl | rfl := hev
    · simp
    · simp
  · change if i = i then _ else _
    rw [if_pos rfl]
    obtain rfl | rfl := hev
    · exact hbusy
    · exact hbusy

/-! ## Assertions -/

/-- The hand of thread `i`, and the entries that are in its hands alone. -/
structure Own (i : Fin n) (h : Hand) (K : Nat → Option (Stage n)) (w : W n) : Prop where
  busy : Busy i w.log
  hand : w.ghost.hand i = h
  mine : ∀ a, (w.ghost.stage a).mine i = K a

/-- No entry of its own. -/
def bare : Nat → Option (Stage n) := fun _ => none

/-- The entries of `R` that are live stay so, under their keys, and with the marks they have. -/
structure Calm (R : Multiset Nat) (w w' : W n) : Prop where
  born : ∀ a, (w.ghost.stage a).Born → (w'.ghost.stage a).Born
  live : ∀ a ∈ R, w.ghost.stage a = .live → Lives a w.mem w'.mem w'.ghost

/-- An assertion about entries of `R`. -/
def Steady (R : Multiset Nat) (F : W n → Prop) : Prop := ∀ w w', Calm R w w' → F w → F w'

theorem Calm.mono {R R' : Multiset Nat} (h : Calm R' w w') (hR : R ≤ R') : Calm R w w' :=
  ⟨h.born, fun a ha => h.live a (Multiset.mem_of_le hR ha)⟩

theorem Steady.mono {R R' : Multiset Nat} {F : W n → Prop} (h : Steady R F) (hR : R ≤ R') : Steady R' F :=
  fun w w' hc => h w w' (hc.mono hR)

theorem Steady.and {R : Multiset Nat} {F G : W n → Prop} (hF : Steady R F) (hG : Steady R G) :
    Steady R fun w => F w ∧ G w :=
  fun w w' hc h => ⟨hF w w' hc h.1, hG w w' hc h.2⟩

theorem steady_const {R : Multiset Nat} (p : Prop) : Steady R fun _ : W n => p := fun _ _ _ h => h

/-- A step is calm for what any hand still refers to after it. -/
theorem Trans.calm (h : Trans i w.mem w.ghost w'.mem w'.ghost) {R : Multiset Nat} (j : Fin n)
    (hR : R ≤ (w'.ghost.hand j).refs) : Calm R w w' := by
  refine ⟨h.born, fun a ha hlive => ?_⟩
  obtain hl | hgone := h.keep a hlive
  · exact hl
  · exact absurd (Multiset.mem_of_le hR ha) (hgone j)

/-- Kept by the other threads and by the loads of thread `i`. -/
structure Still (pool : Nat → Nat) (first : Set Nat) (i : Fin n) (P : W n → Prop) : Prop where
  stable : (proto n pool first).Stable i P
  silent : ∀ w, P w → P (w.next i none w.mem w.ghost)

theorem Still.and {P Q : W n → Prop} (hP : Still pool first i P) (hQ : Still pool first i Q) :
    Still pool first i fun w => P w ∧ Q w :=
  ⟨hP.stable.and hQ.stable, fun w h => ⟨hP.silent w h.1, hQ.silent w h.2⟩⟩

theorem Still.fact (p : Prop) : Still pool first i fun _ : W n => p := ⟨Proto.stable_const p, fun _ h => h⟩

theorem busy_cons_of_ne {r : Rec (Fin n) (Mem n) Ev} {log : Log n} (h : r.tid ≠ i) :
    Busy i (r :: log) ↔ Busy i log := by
  rw [Busy, if_neg h]

theorem busy_next {ev : Option Ev} {s' : Mem n} {g' : Ghost n} (hb : Busy i w.log)
    (hev : ∀ op b, ev ≠ some (.ret op b)) : Busy i (w.next i ev s' g').log := by
  change if i = i then _ else _
  rw [if_pos rfl]
  cases ev with
  | none => exact hb
  | some e => cases e with
    | call op => trivial
    | ret op b => exact absurd rfl (hev op b)
    | _ => exact hb

theorem Own.silent {h : Hand} {K : Nat → Option (Stage n)} {F : W n → Prop} (hF : Steady h.refs F)
    (hw : Own i h K w ∧ F w) : Own i h K (w.next i none w.mem w.ghost) ∧ F (w.next i none w.mem w.ghost) :=
  ⟨⟨busy_next hw.1.busy (by simp), hw.1.hand, hw.1.mine⟩,
    hF w _ ⟨fun _ h => h, fun _ _ h => ⟨h, rfl, fun _ => rfl⟩⟩ hw.2⟩

theorem Still.own {h : Hand} {K : Nat → Option (Stage n)} {F : W n → Prop} (hF : Steady h.refs F) :
    Still pool first i fun w => Own i h K w ∧ F w := by
  constructor
  · rintro j w w' hj - - ⟨hT, r, hr, hlog⟩ ⟨hown, hf⟩
    have hne : i ≠ j := fun e => hj e.symm
    have hhand := (hT.hand i hne).trans hown.hand
    refine ⟨⟨?_, hhand, fun a => (hT.mine hne a).trans (hown.mine a)⟩, ?_⟩
    · rw [hlog, busy_cons_of_ne (by rw [hr]; exact hj)]
      exact hown.busy
    · exact hF w w' (hT.calm i (by rw [hhand])) hf
  · intro w hw
    exact Own.silent hF hw

/-- What thread `i` wrote to an entry of its own. -/
def Wrote (i : Fin n) (a : Nat) (φ : Entry → Prop) (w : W n) : Prop :=
  (w.ghost.stage a).owner = some i ∧ φ (w.mem.node a).toEntry

theorem Still.wrote (a : Nat) (φ : Entry → Prop) : Still pool first i (Wrote i a φ) := by
  constructor
  · rintro j w w' hj - - ⟨hT, -⟩ ⟨ho, hφ⟩
    have hne : i ≠ j := fun e => hj e.symm
    refine ⟨?_, ?_⟩
    · rw [hT.stage i hne a (.inl ho)]; exact ho
    · rw [hT.node i hne a ho]; exact hφ
  · intro w h
    exact h

/-- The value of `freeList` of thread `i`. -/
def Top (i : Fin n) (f : Ptr) (w : W n) : Prop := w.mem.freeList i = f

theorem Still.top (f : Ptr) : Still pool first i (Top i f) := by
  constructor
  · rintro j w w' hj - - ⟨hT, -⟩ h
    exact (hT.freeList i fun e => hj e.symm).trans h
  · intro w h
    exact h

/-! ## Rules -/

abbrev Spec (pool : Nat → Nat) (first : Set Nat) (i : Fin n) (A : W n → Prop) (p : Prog (Mem n) Ev α)
    (B : α → W n → Prop) : Prop :=
  (proto n pool first).Triple i A p B

variable {A P : W n → Prop} {B : α → W n → Prop}

/-- The step rule: a writing step keeps `Shape` and is accounted for. -/
theorem Spec.step {ev : Mem n → Option Ev} {upd : Mem n → Mem n} {k : Mem n → Prog (Mem n) Ev α}
    (hA : (proto n pool first).Stable i A)
    (h : ∀ w, A w → Inv pool first w → ∃ g, Shape pool (upd w.mem) g ∧ Trans i w.mem w.ghost (upd w.mem) g ∧
      Booked i w (ev w.mem) g ∧ (proto n pool first).wp i (k w.mem) B (w.next i (ev w.mem) (upd w.mem) g)) :
    Spec pool first i A (Prog.step ev upd k) B := by
  intro w hw
  refine Proto.wp_step A hw hA fun w hw hI _ => ?_
  obtain ⟨g, hS, hT, hB, hk⟩ := h w hw hI
  exact ⟨g, hI.next hS hT hB, ⟨hT, _, rfl, rfl⟩, hk⟩

/-- A load: what it reads holds of the state after it. -/
theorem Spec.load {f : Mem n → α} (hA : Still pool first i A) (hbusy : ∀ w, A w → Busy i w.log)
    (h : ∀ w, A w → Inv pool first w → B (f w.mem) w) (hB : ∀ a w, B a w → B a (w.next i none w.mem w.ghost)) :
    Spec pool first i A (Prog.load f) B :=
  .step hA.stable fun w hw hI => ⟨w.ghost, hI.shape, .refl .., .silent (hbusy w hw) rfl fun _ => Iff.rfl,
    hB _ w (h w hw hI)⟩

theorem Spec.cas {ok : Mem n → Prop} [DecidablePred ok] {upd : Mem n → Mem n} {e : Option Ev} {B : Bool → W n → Prop}
    (hA : (proto n pool first).Stable i A)
    (hyes : ∀ w, A w → Inv pool first w → ok w.mem → ∃ g, Shape pool (upd w.mem) g ∧
      Trans i w.mem w.ghost (upd w.mem) g ∧ Booked i w e g ∧ B true (w.next i e (upd w.mem) g))
    (hno : ∀ w, A w → Inv pool first w → ¬ ok w.mem → ∃ g, Shape pool w.mem g ∧
      Trans i w.mem w.ghost w.mem g ∧ Booked i w none g ∧ B false (w.next i none w.mem g)) :
    Spec pool first i A (Prog.cas ok upd e) B := by
  apply Spec.step hA
  intro w hw hI
  by_cases h : ok w.mem
  · simp only [if_pos h, decide_eq_true h]
    exact hyes w hw hI h
  · simp only [if_neg h, decide_eq_false h]
    exact hno w hw hI h

end OptimisticAccess.RC
