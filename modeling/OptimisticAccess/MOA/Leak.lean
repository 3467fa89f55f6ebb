import Mathlib.Data.List.Count
import Mathlib.Data.List.Infix
import OptimisticAccess.Conc.Frame
import OptimisticAccess.MOA.List

/-!
# What `ListInsert` does with the objects of `palloc`

An object from `palloc` is linked, or goes back through `pReturnAlloc`; where the `FENCE_CHECK` that
follows `palloc` restarts the loop it does neither. The account of a call is a matter of the events of its
thread alone: `Tells` is a specification about these, and no assertion looks at the memory.
-/

namespace OptimisticAccess.MOA.Leak

open Conc Prog

variable {n : Nat}

/-! ## The account of a call -/

def callOf : Ev → Option Op
  | .call op => some op
  | _ => none

/-- What thread `i` has done since its last call, the newest event first. -/
def deeds (i : Fin n) (log : List (Rec (Fin n) (Mem n) Ev)) : List Ev := (effects callOf i log).filterMap (·.ev)

/-- The object that `palloc` returns. -/
def obtained : Ev → Option Nat
  | .served a => some a
  | .spared a => some a
  | _ => none

def links : Ev → Bool
  | .linked _ => true
  | _ => false

/-- Every object that `palloc` returned was linked or given back, and one was linked if the result is `TRUE`. -/
structure Accounted (result : Bool) (es : List Ev) : Prop where
  each : ∀ a, es.countP (obtained · = some a) = es.count (.linked a) + es.count (.givenBack a)
  once : es.countP links = if result then 1 else 0

/-- A `FENCE_CHECK` right after `palloc` has found the dirty bit set. -/
def Dropped (es : List Ev) : Prop := ∃ e a, obtained e = some a ∧ [.restarted, e] <:+: es

/-- A return from `ListInsert` finds that nothing has leaked. -/
def Tight (rs : List (Rec (Fin n) (Mem n) Ev)) (r : Rec (Fin n) (Mem n) Ev) : Prop :=
  ∀ key data result, r.ev = some (.ret (.insert key data) result) → Accounted result (deeds r.tid rs)

/-- A return from `ListInsert` finds that nothing has leaked if and only if nothing was dropped in the call. -/
def Settles (rs : List (Rec (Fin n) (Mem n) Ev)) (r : Rec (Fin n) (Mem n) Ev) : Prop :=
  ∀ key data result, r.ev = some (.ret (.insert key data) result) →
    (Accounted result (deeds r.tid rs) ↔ ¬ Dropped (deeds r.tid rs))

/-! ## Keeping the account -/

/-- How often `a` was dropped. -/
def lost (a : Nat) : List Ev → Nat
  | [] => 0
  | e :: es => lost a es + if e = .restarted ∧ es.head?.bind obtained = some a then 1 else 0

/-- `k` objects are linked, and `out` is the one that the thread still has. -/
structure Tally (k : Nat) (out : Option Nat) (es : List Ev) : Prop where
  each : ∀ a, es.countP (obtained · = some a) =
    es.count (.linked a) + es.count (.givenBack a) + lost a es + if out = some a then 1 else 0
  once : es.countP links = k

/-- The last deed was not `palloc`. -/
def Calm (es : List Ev) : Prop := es.head?.bind obtained = none

/-- `palloc` has just returned `a`. -/
structure Fresh (a : Nat) (es : List Ev) : Prop where
  tally : Tally 0 (some a) es
  head : es.head?.bind obtained = some a

/-- An event that the account passes over. -/
def idle : Ev → Bool
  | .served _ => false
  | .spared _ => false
  | .linked _ => false
  | .givenBack _ => false
  | .call _ => false
  | .ret _ _ => false
  | _ => true

section Account

variable {a b k : Nat} {e : Ev} {es : List Ev} {out : Option Nat}

theorem lost_cons_of_ne (h : e ≠ .restarted) : lost a (e :: es) = lost a es := by
  rw [lost, if_neg fun h' => h h'.1, Nat.add_zero]

theorem Calm.lost_cons (h : Calm es) (e : Ev) : lost a (e :: es) = lost a es := by
  rw [lost, if_neg fun h' => by rw [show es.head?.bind obtained = none from h] at h'; exact absurd h'.2 (by simp), Nat.add_zero]

theorem tally_nil : Tally 0 none [] := ⟨fun _ => rfl, rfl⟩

/-- Other events may come in between. -/
theorem Tally.idle (h : Tally k out es) (hcalm : Calm es) (he : idle e) : Tally k out (e :: es) ∧ Calm (e :: es) := by
  have hobt : obtained e = none := by cases e <;> first | rfl | cases he
  have hlink : links e = false := by cases e <;> first | rfl | cases he
  have hlinked : ∀ a, e ≠ .linked a := by
    rintro a rfl
    cases he
  have hgiven : ∀ a, e ≠ .givenBack a := by
    rintro a rfl
    cases he
  refine ⟨⟨fun a => ?_, ?_⟩, hobt⟩
  · rw [hcalm.lost_cons, List.count_cons_of_ne (hlinked a), List.count_cons_of_ne (hgiven a), List.countP_cons_of_neg (by simp [hobt])]
    exact h.each a
  · rw [List.countP_cons_of_neg (by simp [hlink])]
    exact h.once

theorem Tally.obtain (h : Tally 0 none es) (hcalm : Calm es) (he : obtained e = some a) : Fresh a (e :: es) := by
  have hlink : links e = false := by cases e <;> first | rfl | cases he
  have hlinked : ∀ b, e ≠ .linked b := by
    rintro b rfl
    cases he
  have hgiven : ∀ b, e ≠ .givenBack b := by
    rintro b rfl
    cases he
  refine ⟨⟨fun b => ?_, ?_⟩, he⟩
  · rw [hcalm.lost_cons, List.count_cons_of_ne (hlinked b), List.count_cons_of_ne (hgiven b), List.countP_cons, he, h.each b]
    simp
  · rw [List.countP_cons_of_neg (by simp [hlink])]
    exact h.once

/-- `FENCE_CHECK` restarts: the object is dropped. -/
theorem Fresh.restarted (h : Fresh a es) : Tally 0 none (.restarted :: es) ∧ Calm (.restarted :: es) := by
  refine ⟨⟨fun b => ?_, ?_⟩, rfl⟩
  · have heach := h.tally.each b
    simpa [lost, h.head, obtained, Nat.add_assoc] using heach
  · simpa [links] using h.tally.once

/-- `FENCE_CHECK` passes. -/
theorem Fresh.fenced (h : Fresh a es) : Tally 0 (some a) (.fenced :: es) ∧ Calm (.fenced :: es) := by
  refine ⟨⟨fun b => ?_, ?_⟩, rfl⟩
  · have heach := h.tally.each b
    simpa [lost, obtained] using heach
  · simpa [links] using h.tally.once

theorem Tally.link (h : Tally 0 (some a) es) : Tally 1 none (.linked a :: es) := by
  refine ⟨fun b => ?_, ?_⟩
  · have heach := h.each b
    have hgiven : List.count (.givenBack b) (.linked a :: es) = List.count (.givenBack b) es := List.count_cons_of_ne (by simp)
    rw [lost_cons_of_ne (by simp), hgiven, List.count_cons, List.countP_cons_of_neg (by simp [obtained]), heach]
    simp only [Option.some.injEq, beq_iff_eq, Ev.linked.injEq, reduceCtorEq, if_false]
    omega
  · rw [List.countP_cons_of_pos rfl, h.once]

theorem Tally.giveBack (h : Tally k (some a) es) : Tally k none (.givenBack a :: es) := by
  refine ⟨fun b => ?_, ?_⟩
  · have heach := h.each b
    have hlinked : List.count (.linked b) (.givenBack a :: es) = List.count (.linked b) es := List.count_cons_of_ne (by simp)
    rw [lost_cons_of_ne (by simp), hlinked, List.count_cons, List.countP_cons_of_neg (by simp [obtained]), heach]
    simp only [Option.some.injEq, beq_iff_eq, Ev.givenBack.injEq, reduceCtorEq, if_false]
    omega
  · rw [List.countP_cons_of_neg (by simp [links]), h.once]

theorem dropped_cons : Dropped (e :: es) ↔ (e = .restarted ∧ ∃ a, es.head?.bind obtained = some a) ∨ Dropped es := by
  constructor
  · rintro ⟨d, a, hd, hin⟩
    obtain hpre | hin := List.infix_cons_iff.1 hin
    · obtain ⟨rfl, htail⟩ := List.cons_prefix_cons.1 hpre
      obtain ⟨t, rfl⟩ := htail
      exact .inl ⟨rfl, a, hd⟩
    · exact .inr ⟨d, a, hd, hin⟩
  · rintro (⟨rfl, a, hhead⟩ | ⟨d, a, hd, hin⟩)
    · obtain ⟨d, hes, hd⟩ := Option.bind_eq_some_iff.1 hhead
      obtain ⟨t, rfl⟩ := List.head?_eq_some_iff.1 hes
      exact ⟨d, a, hd, [], t, rfl⟩
    · exact ⟨d, a, hd, hin.trans (List.infix_cons (List.infix_refl es))⟩

/-- What is missing in the account was dropped. -/
theorem dropped_iff : Dropped es ↔ ∃ a, lost a es ≠ 0 := by
  induction es with
  | nil => simp [Dropped, lost]
  | cons e es ih =>
    have hcons : ∀ a, lost a (e :: es) ≠ 0 ↔ (e = .restarted ∧ es.head?.bind obtained = some a) ∨ lost a es ≠ 0 := by
      intro a
      rw [lost]
      split <;> simp [*]
    simp only [dropped_cons, ih, hcons, exists_or, exists_and_left]

theorem Tally.accounted_iff {result : Bool} (h : Tally (if result then 1 else 0) none es) : Accounted result es ↔ ¬ Dropped es := by
  have heach : ∀ a, es.countP (obtained · = some a) = es.count (.linked a) + es.count (.givenBack a) + lost a es := h.each
  rw [dropped_iff]
  constructor
  · rintro hacc ⟨a, ha⟩
    have h1 := hacc.each a
    have h2 := heach a
    omega
  · intro hno
    refine ⟨fun a => ?_, h.once⟩
    have h2 := heach a
    have h3 : lost a es = 0 := by_contra fun ha => hno ⟨a, ha⟩
    omega

end Account

/-! ## Specifications about the events of a thread -/

/-- The ghost state has nothing in it. -/
def proto (n : Nat) : Proto (Fin n) (Mem n) Ev Unit where
  inv w := Along Settles w.log
  act i w w' := ∃ r, r.tid = i ∧ w'.log = r :: w.log

variable {i j : Fin n} {α β : Type} {A : List Ev → Prop} {B B' : α → List Ev → Prop}

abbrev Tells (i : Fin n) (A : List Ev → Prop) (p : P n α) (B : α → List Ev → Prop) : Prop :=
  (proto n).Triple i (fun w => A (deeds i w.log)) p fun a w => B a (deeds i w.log)

theorem stable_deeds (A : List Ev → Prop) : (proto n).Stable i fun w => A (deeds i w.log) := by
  rintro j w w' hj - - ⟨r, rfl, hlog⟩ hA
  rw [hlog, deeds, effects_cons_of_ne hj]
  exact hA

/-- An event in the middle of a call. -/
def inner : Option Ev → Bool
  | some (.call _) => false
  | some (.ret _ _) => false
  | _ => true

theorem inner_of_idle {e : Ev} (h : idle e) : inner (some e) := by
  cases e <;> first | rfl | cases h

theorem deeds_cons {s s' : Mem n} {ev : Option Ev} {rs : List (Rec (Fin n) (Mem n) Ev)} (h : inner ev) :
    deeds i (⟨i, s, ev, s'⟩ :: rs) = ev.toList ++ deeds i rs := by
  cases ev with
  | none =>
    rw [deeds, effects_cons_of_silent rfl]
    rfl
  | some e =>
    have hcall : callOf e = none := by cases e <;> first | rfl | cases h
    have hwindow : window callOf i (⟨i, s, some e, s'⟩ :: rs) = ⟨i, s, some e, s'⟩ :: window callOf i rs := window_cons_of_none hcall
    simp [deeds, effects, hwindow]

theorem settles_of_inner {r : Rec (Fin n) (Mem n) Ev} (h : inner r.ev) (rs : List (Rec (Fin n) (Mem n) Ev)) : Settles rs r := by
  intro key data result hev
  rw [hev] at h
  cases h

/-- One step in the middle of a call. -/
theorem Tells.step {ev : Mem n → Option Ev} {upd : Mem n → Mem n} {f : Mem n → α}
    (h : ∀ s es, A es → inner (ev s) ∧ B (f s) ((ev s).toList ++ es)) : Tells i A (Prog.step ev upd fun s => Prog.ret (f s)) B := by
  intro w hw
  refine Proto.wp_step (fun w => A (deeds i w.log)) hw (stable_deeds A) fun w hw hI _ => ?_
  obtain ⟨hin, hB⟩ := h w.mem _ hw
  refine ⟨(), ⟨hI, settles_of_inner hin _⟩, ⟨_, rfl, rfl⟩, ?_⟩
  change B _ (deeds i (⟨i, w.mem, ev w.mem, upd w.mem⟩ :: w.log))
  rwa [deeds_cons hin]

theorem Tells.load {f : Mem n → α} : Tells i A (Prog.load f) fun _ => A := .step fun _ _ h => ⟨rfl, h⟩

theorem Tells.store {upd : Mem n → Mem n} : Tells i A (Prog.store upd) fun _ => A := .step fun _ _ h => ⟨rfl, h⟩

/-- The account passes over the event, if there is one. -/
def Idle (_ : Mem n) (ev : Option Ev) (_ : Mem n) : Prop := ∀ e ∈ ev, idle e

theorem Tells.obeys {p : P n α} (hp : p.Obeys Idle) (hA : ∀ e es, idle e → A es → A (e :: es)) : Tells i A p fun _ => A := by
  intro w hw
  refine Proto.wp_obeys hp (fun w => A (deeds i w.log)) hw (stable_deeds A) fun w ev s' hw hI _ hev => ?_
  have hin : inner ev := by
    cases ev with
    | none => rfl
    | some e => exact inner_of_idle (hev e rfl)
  refine ⟨(), ⟨hI, settles_of_inner hin _⟩, ⟨_, rfl, rfl⟩, ?_⟩
  change A (deeds i (⟨i, w.mem, ev, s'⟩ :: w.log))
  rw [deeds_cons hin]
  cases ev with
  | none => exact hw
  | some e => exact hA e _ (hev e rfl) hw

/-! ## The allocator -/

section Allocator

variable {fuel : Nat}

theorem Idle.load {f : Mem n → α} : Obeys Idle (Prog.load f : P n α) := obeys_load fun _ _ h => by cases h

theorem Idle.store {upd : Mem n → Mem n} : Obeys Idle (Prog.store upd : P n Unit) := obeys_store fun _ _ h => by cases h

theorem Idle.emit {e : Ev} (h : idle e) : Obeys Idle (Prog.emit e : P n Unit) := obeys_emit fun _ d hd => by
  obtain rfl := Option.some.inj hd
  exact h

theorem Idle.check {c : Prop} [Decidable c] {a : Assertion} : Obeys Idle (Prog.check c (.assertFailed a) : P n Unit) :=
  obeys_check fun _ d hd => by
    obtain rfl := Option.some.inj hd
    rfl

theorem Idle.cas {ok : Mem n → Prop} [DecidablePred ok] {upd : Mem n → Mem n} {e : Option Ev} (h : ∀ d ∈ e, idle d) :
    Obeys Idle (Prog.cas ok upd e : P n Bool) := obeys_cas (fun _ _ h => by cases h) fun _ _ => h

theorem Idle.step {ev : Mem n → Option Ev} {upd : Mem n → Mem n} {f : Mem n → α} (h : ∀ s, ∀ d ∈ ev s, idle d) :
    Obeys Idle (Prog.step ev upd fun s => Prog.ret (f s) : P n α) := obeys_step h fun _ => trivial

theorem idle_setAdd {set : HashTable} {data : CInt} :
    Obeys Idle (setAdd (fun a => .assertFailed (.set a)) fuel set data : P n HashTable) :=
  obeys_bind Idle.check fun _ => obeys_bind Idle.check fun _ => obeys_iter (fun _ =>
    obeys_bind (obeys_bind Idle.check fun _ => obeys_ret _) fun _ => obeys_ite (fun _ => obeys_ret _) fun _ =>
      obeys_ite (fun _ => obeys_ret _) fun _ => obeys_ret _) _ _

theorem idle_setContains {set : HashTable} {key : CInt} :
    Obeys Idle (setContains (fun a => .assertFailed (.set a)) fuel set key : P n Bool) :=
  obeys_iter (fun _ => obeys_bind (obeys_bind Idle.check fun _ => obeys_ret _) fun _ => obeys_ite (fun _ => obeys_ret _) fun _ =>
    obeys_ite (fun _ => obeys_ret _) fun _ => obeys_ret _) _ _

theorem idle_freeze {localVer : Nat} {reclaim : VerEntry} : Obeys Idle (freeze fuel localVer reclaim : P n VerEntry) := by
  refine obeys_iter (fun _ => obeys_ite (fun _ => ?_) fun _ => obeys_ret _) _ _
  refine obeys_bind (Idle.cas (by rintro d ⟨⟩; rfl)) fun _ => obeys_ite (fun _ => obeys_ret _) fun _ => ?_
  exact obeys_bind Idle.load fun _ => obeys_ret _

theorem idle_handOver {localVer : Nat} {head : Option Nat} : Obeys Idle (handOver fuel localVer head : P n Unit) := by
  refine obeys_bind Idle.load fun _ => obeys_iter (fun _ => obeys_ite (fun _ => obeys_bind obeys_defined fun _ => ?_) fun _ => obeys_ret _) _ _
  refine obeys_bind (Idle.cas (by rintro d ⟨⟩; rfl)) fun _ => obeys_ite (fun _ => obeys_ret _) fun _ => ?_
  exact obeys_bind Idle.load fun _ => obeys_ret _

theorem idle_resetReclaim {localVer : Nat} : Obeys Idle (resetReclaim fuel localVer : P n Unit) := by
  refine obeys_bind Idle.load fun _ => obeys_iter (fun _ => obeys_ite (fun _ => obeys_bind obeys_defined fun _ => ?_) fun _ => obeys_ret _) _ _
  refine obeys_bind (Idle.cas (by rintro d ⟨⟩)) fun _ => obeys_ite (fun _ => obeys_ret _) fun _ => ?_
  exact obeys_bind Idle.load fun _ => obeys_ret _

theorem idle_warn {dNp dNpd : Nat} {j : Fin n} : Obeys Idle (warn dNp dNpd j) := by
  have hcas : ∀ old, Obeys Idle (warn.casDirty dNpd j old) := fun _ => Idle.cas (by rintro d ⟨⟩)
  refine obeys_bind Idle.load fun _ => obeys_ite (fun _ => obeys_ret _) fun _ => obeys_bind (hcas _) fun _ => ?_
  exact obeys_bind Idle.load fun _ => obeys_ite (fun _ => obeys_ret _) fun _ => obeys_bind (hcas _) fun _ => obeys_ret _

theorem idle_readHPs {j : Fin n} : Obeys Idle (readHPs i fuel j) := by
  refine obeys_bind Idle.load fun _ => obeys_bind Idle.load fun _ => obeys_bind Idle.load fun _ => obeys_forEach fun p _ => ?_
  refine obeys_ite (fun _ => obeys_bind Idle.load fun set => ?_) fun _ => obeys_ret _
  cases set with
  | none => trivial
  | some set => exact obeys_bind idle_setAdd fun _ => Idle.store

theorem idle_Reclamation : Obeys Idle (Reclamation i fuel) := by
  have hscan : ∀ dNp, Obeys Idle (do
      forEach (warn dNp (dNp + 1)) (List.finRange n)
      clearSet i
      forEach (readHPs i fuel) (List.finRange n) : P n Unit) := fun _ =>
    obeys_bind (obeys_forEach fun _ _ => idle_warn) fun _ => obeys_bind Idle.store fun _ => obeys_forEach fun _ _ => idle_readHPs
  unfold Reclamation
  refine obeys_bind Idle.load fun _ => obeys_bind Idle.load fun _ => obeys_bind idle_freeze fun _ => obeys_ite (fun _ => ?_) fun _ => ?_
  · refine obeys_bind idle_handOver fun _ => obeys_bind idle_resetReclaim fun _ => ?_
    exact obeys_bind Idle.store fun _ => obeys_bind Idle.load fun _ => hscan _
  · exact obeys_bind (obeys_ret _) fun _ => obeys_bind Idle.store fun _ => obeys_bind Idle.load fun _ => hscan _

theorem idle_pop {ver : Nat} : Obeys Idle (pop fuel ver : P n Popped) := by
  refine obeys_iter (fun _ => obeys_bind Idle.load fun old => obeys_ite (fun _ => obeys_ret _) fun _ => ?_) _ _
  cases old.head with
  | none => trivial
  | some e =>
    refine obeys_bind Idle.load fun _ => obeys_bind (Idle.cas (by rintro d ⟨⟩; rfl)) fun _ => obeys_ite (fun _ => ?_) fun _ => obeys_ret _
    refine obeys_bind (obeys_bind Idle.load fun first => obeys_ite (fun _ => Idle.store) fun _ => ?_) fun _ => obeys_ret _
    cases first with
    | none => trivial
    | some d => exact obeys_bind Idle.load fun _ => obeys_ite (fun _ => Idle.store) fun _ => Idle.check

theorem idle_recycleEntries {pfree : Ptr → P n Unit} (hp : ∀ obj, Obeys Idle (pfree obj)) {e : Nat} :
    Obeys Idle (recycleEntries pfree i fuel e) := by
  refine obeys_iter (fun entry => ?_) _ _
  cases entry with
  | none => trivial
  | some e =>
    refine obeys_bind Idle.load fun _ => obeys_bind (obeys_iter (fun x => ?_) _ _) fun _ =>
      obeys_bind (Idle.step (by rintro s d ⟨⟩; rfl)) fun _ => obeys_ite (fun _ => ?_) fun _ => obeys_ret _
    · refine obeys_bind Idle.load fun _ => obeys_ite (fun _ => obeys_bind Idle.load fun ptr => ?_) fun _ => obeys_ret _
      refine obeys_bind (obeys_bind Idle.load fun set => ?_) fun _ => obeys_ite (fun _ => ?_) fun _ => ?_
      · cases set with
        | none => trivial
        | some set => exact idle_setContains
      · exact obeys_bind (Idle.emit rfl) fun _ => obeys_bind (hp ptr) fun _ => obeys_ret _
      · exact obeys_bind (Idle.step (by rintro s d ⟨⟩; rfl)) fun _ => obeys_ret _
    · refine obeys_bind (obeys_iter (fun _ => obeys_bind Idle.load fun _ => obeys_bind Idle.store fun _ => ?_) _ _) fun _ => obeys_ret _
      exact obeys_bind (Idle.cas (by rintro d ⟨⟩; rfl)) fun _ => obeys_ite (fun _ => obeys_ret _) fun _ => obeys_ret _

theorem idle_triggerWith {pfree : Ptr → P n Unit} (hp : ∀ obj, Obeys Idle (pfree obj)) : Obeys Idle (triggerWith pfree i fuel) := by
  refine obeys_bind idle_Reclamation fun _ => obeys_iter (fun _ => obeys_bind Idle.load fun _ => obeys_bind idle_pop fun popped => ?_) _ _
  cases popped with
  | entry e => exact obeys_bind (idle_recycleEntries hp) fun _ => obeys_ret _
  | recycleNeeded => trivial
  | null => trivial

theorem idle_pfree (obj : Ptr) : Obeys Idle (pfree i fuel obj) := by
  induction fuel generalizing obj with
  | zero => trivial
  | succ fuel ih =>
    refine obeys_ite (fun _ => obeys_ret _) fun _ => obeys_iter (fun _ => obeys_bind Idle.load fun cache => ?_) _ _
    cases cache with
    | none => exact obeys_bind (Idle.step (by rintro s d ⟨⟩; rfl)) fun _ => obeys_ret _
    | some e =>
      refine obeys_bind Idle.load fun _ => obeys_ite (fun _ => obeys_bind (Idle.step (by rintro s d ⟨⟩; rfl)) fun _ => obeys_ret _) fun _ => ?_
      refine obeys_bind ?_ fun _ => obeys_ite (fun _ => obeys_ret _) fun _ => obeys_bind (idle_triggerWith ih) fun _ => obeys_ret _
      refine obeys_iter (fun _ => obeys_bind Idle.load fun _ => obeys_bind Idle.load fun _ => obeys_ite (fun _ => obeys_ret _) fun _ => ?_) _ _
      refine obeys_bind Idle.store fun _ => obeys_bind (Idle.cas (by rintro d ⟨⟩; rfl)) fun _ => ?_
      exact obeys_ite (fun _ => obeys_ret _) fun _ => obeys_ret _

theorem idle_triggerCollection : Obeys Idle (triggerCollection i fuel) := idle_triggerWith idle_pfree

/-! ## `palloc` and `pReturnAlloc` -/

/-- Nothing is linked, and nothing is held. -/
def Even (es : List Ev) : Prop := Tally 0 none es ∧ Calm es

theorem even_idle (e : Ev) (es : List Ev) (he : idle e) (h : Even es) : Even (e :: es) := h.1.idle h.2 he

theorem Tells.obtain {ev : Mem n → Ev} {upd : Mem n → Mem n} {f : Mem n → Ptr} (h : ∀ s, obtained (ev s) = some (f s).addr) :
    Tells i Even (Prog.step (fun s => some (ev s)) upd fun s => Prog.ret (f s)) fun obj => Fresh obj.addr :=
  .step fun s es hes => by
    have hin : inner (some (ev s)) := by
      have hobt := h s
      cases he : ev s <;> rw [he] at hobt <;> first | rfl | cases hobt
    exact ⟨hin, hes.1.obtain hes.2 (h s)⟩

/-- What a round of `palloc` has come to. -/
def Served (obj : Option Ptr) (es : List Ev) : Prop := obj.elim (Even es) fun obj => Fresh obj.addr es

theorem tells_pallocCached : Tells i Even (pallocCached i) Served := by
  refine Proto.Triple.bind Tells.load fun cache => ?_
  cases cache with
  | none => exact .ret fun _ h => h
  | some e =>
    refine .bind Tells.load fun free => .ite (fun _ => ?_) fun _ => .ret fun _ h => h
    refine .bind (Tells.obtain fun _ => rfl) fun obj => .bind ?_ fun _ => .ret fun _ h => h
    exact .bind Tells.store fun _ => Tells.store

theorem tells_pallocRefill : Tells i Even (pallocRefill i fuel) Served := by
  refine Proto.Triple.iter (J := fun _ w => Even (deeds i w.log)) (fun _ => ?_) _ _
  refine .bind (Tells.obeys (A := Even) ?_ even_idle) fun found => .ite (fun _ => .ret fun _ h => h) fun _ => ?_
  · refine obeys_iter (fun _ => obeys_bind Idle.load fun head => ?_) _ _
    cases head with
    | none => trivial
    | some e =>
      refine obeys_bind Idle.load fun _ => obeys_bind (Idle.cas (by rintro d ⟨⟩)) fun _ => obeys_ite (fun _ => ?_) fun _ => trivial
      exact obeys_bind Idle.store fun _ => trivial
  · refine .bind (Tells.obeys idle_triggerCollection even_idle) fun _ => .bind Tells.load fun stop => .ite (fun _ => ?_) fun _ => ?_
    · refine .bind Tells.load fun stop => .ite (fun _ => ?_) fun _ => ?_
      · exact .bind (Tells.obtain fun _ => rfl) fun obj => .ret fun _ h => h
      · exact .bind (Tells.obeys Idle.check even_idle) fun _ => .halt
    · exact .ret fun _ h => h

theorem tells_palloc : Tells i Even (palloc i fuel) fun obj => Fresh obj.addr := by
  refine Proto.Triple.iter (J := fun _ w => Even (deeds i w.log)) (fun _ => ?_) _ _
  refine .bind tells_pallocCached fun obj => ?_
  cases obj with
  | some obj => exact .ret fun _ h => h
  | none =>
    refine .bind tells_pallocRefill fun obj => ?_
    cases obj with
    | some obj => exact .ret fun _ h => h
    | none => exact .ret fun _ h => h

/-- Nothing is linked, and the thread holds `a`. -/
def Holding (a : Nat) (es : List Ev) : Prop := Tally 0 (some a) es ∧ Calm es

theorem tells_pReturnAlloc {obj : Ptr} : Tells i (Holding obj.addr) (pReturnAlloc i fuel obj) fun _ => Even := by
  have hback : ∀ es, Holding obj.addr es → Even (.givenBack obj.addr :: es) := fun es h => ⟨h.1.giveBack, rfl⟩
  refine Proto.Triple.bind Tells.load fun cache => ?_
  cases cache with
  | none => exact Tells.step fun s es h => ⟨rfl, hback es h⟩
  | some e =>
    refine .bind Tells.load fun free => .ite (fun _ => Tells.step fun s es h => ⟨rfl, hback es h⟩) fun _ => ?_
    refine Proto.Triple.iter (J := fun _ w => Holding obj.addr (deeds i w.log)) (fun _ => ?_) _ _
    refine .bind Tells.load fun head => .bind Tells.store fun _ => .bind (?_ : Tells i (Holding obj.addr) _
      fun ok es => if ok then Even es else Holding obj.addr es) fun ok => ?_
    · refine Tells.step fun s es h => ?_
      by_cases hs : s.head = head
      · simp only [if_pos hs, decide_eq_true hs, if_true]
        exact ⟨rfl, hback es h⟩
      · simp only [if_neg hs, decide_eq_false hs, Bool.false_eq_true, if_false]
        exact ⟨rfl, h⟩
    · cases ok with
      | true => exact .ret fun _ h => h
      | false => exact .ret fun _ h => h

/-! ## The list -/

theorem idle_clearHPs : Obeys Idle (clearHPs i) := obeys_bind Idle.store fun _ => obeys_bind Idle.store fun _ => Idle.store

theorem idle_CHECK : Obeys Idle (CHECK i) :=
  obeys_bind Idle.load fun _ => obeys_ite (fun _ => obeys_bind Idle.store fun _ => obeys_ret _) fun _ => obeys_ret _

theorem idle_FENCE_CHECK : Obeys Idle (FENCE_CHECK i) := by
  refine obeys_bind (Idle.step fun s d hd => ?_) fun _ => obeys_ite (fun _ => ?_) fun _ => obeys_ret _
  · obtain rfl := Option.some.inj hd
    split <;> rfl
  · exact obeys_bind idle_clearHPs fun _ => obeys_bind Idle.store fun _ => obeys_ret _

theorem idle_casWord {loc : Word} {old new : Ptr} {e : Ev} (he : idle e) : Obeys Idle (casWord loc old new e : P n Bool) :=
  Idle.step fun s d hd => by
    obtain rfl := Option.some.inj hd
    split
    · exact he
    · rfl

theorem idle_findRound {entryHead : Word} {key : CInt} (fres : Option ThreadLocal) : Obeys Idle (findRound i fuel entryHead key fres) := by
  cases fres with
  | none => exact obeys_bind Idle.load fun _ => obeys_ret _
  | some fres =>
    refine obeys_ite (fun _ => obeys_ret _) fun _ => obeys_bind Idle.load fun nxt => obeys_bind idle_CHECK fun _ =>
      obeys_ite (fun _ => obeys_ret _) fun _ => obeys_ite (fun _ => ?_) fun _ => ?_
    · refine obeys_bind Idle.store fun _ => obeys_bind Idle.store fun _ => obeys_bind Idle.store fun _ => ?_
      refine obeys_bind idle_FENCE_CHECK fun _ => obeys_ite (fun _ => obeys_ret _) fun _ => ?_
      refine obeys_bind (idle_casWord rfl) fun _ => obeys_ite (fun _ => ?_) fun _ => obeys_bind idle_clearHPs fun _ => obeys_ret _
      exact obeys_bind idle_clearHPs fun _ => obeys_bind (idle_pfree _) fun _ => obeys_ret _
    · refine obeys_bind Idle.load fun _ => obeys_bind Idle.load fun _ => obeys_bind idle_CHECK fun _ => ?_
      refine obeys_ite (fun _ => obeys_ret _) fun _ => obeys_ite (fun _ => obeys_ret _) fun _ => ?_
      exact obeys_ite (fun _ => obeys_ret _) fun _ => obeys_ret _

theorem idle_find {entryHead : Word} {key : CInt} : Obeys Idle (find i fuel entryHead key) := obeys_iter idle_findRound _ _

/-- `FENCE_CHECK` after `palloc`. -/
theorem tells_FENCE_CHECK {a : Nat} : Tells i (Fresh a) (FENCE_CHECK i) fun restart es => if restart then Even es else Holding a es := by
  refine .bind (?_ : Tells i (Fresh a) _ fun restart es => if restart then Even es else Holding a es) fun restart => ?_
  · refine Tells.step fun s es h => ?_
    by_cases hs : s.dirty i
    · simp only [hs, if_true]
      exact ⟨rfl, h.restarted⟩
    · simp only [hs, Bool.false_eq_true, if_false]
      exact ⟨rfl, h.fenced⟩
  · cases restart with
    | false => exact .ret fun _ h => h
    | true =>
      refine .bind (Tells.obeys (A := Even) idle_clearHPs even_idle) fun _ => ?_
      exact .bind Tells.store fun _ => .ret fun _ h => h

/-- The result of `ListInsert` and its account. -/
theorem tells_ListInsert {entryHead : Word} {key data : CInt} :
    Tells i Even (ListInsert i fuel entryHead key data) fun result => Tally (if result then 1 else 0) none := by
  refine Proto.Triple.iter (J := fun _ w => Even (deeds i w.log)) (fun _ => ?_) _ _
  refine .bind (Tells.obeys idle_find even_idle) fun (found, fres, kd) => .ite (fun _ => .ret fun _ h => h.1) fun _ => ?_
  refine .bind tells_palloc fun obj => .bind Tells.store fun _ => .bind Tells.store fun _ => .bind Tells.store fun _ => ?_
  refine .bind tells_FENCE_CHECK fun restart => ?_
  cases restart with
  | true => exact .ret fun _ h => h
  | false =>
    refine .bind (Tells.store (A := Holding obj.addr)) fun _ => .bind Tells.store fun _ => .bind (?_ : Tells i (Holding obj.addr) _
      fun ok es => if ok then Tally 1 none es else Holding obj.addr es) fun ok => ?_
    · refine Tells.step fun s es h => ?_
      by_cases hs : s.word fres.prev = fres.cur
      · simp only [if_pos hs, decide_eq_true hs, if_true]
        exact ⟨rfl, h.1.link⟩
      · simp only [if_neg hs, decide_eq_false hs, Bool.false_eq_true, if_false]
        exact ⟨rfl, h.1.idle h.2 rfl⟩
    · cases ok with
      | true =>
        have hstore : ∀ p k, Tells i (Tally 1 none) (setHP i k p) fun _ => Tally 1 none := fun _ _ => Tells.store
        exact .bind (.bind (hstore _ _) fun _ => .bind (hstore _ _) fun _ => hstore _ _) fun _ => .ret fun _ h => h
      | false =>
        refine .bind tells_pReturnAlloc fun _ => ?_
        exact .bind (Tells.obeys idle_clearHPs even_idle) fun _ => .ret fun _ h => h

end Allocator

/-! ## Runs -/

theorem tells_search_delete {hashOp : Bool} {fuel : Nat} {entryHead : Word} {op : Op} (h : ∀ key data, op ≠ .insert key data) :
    Tells i (fun _ => True) (perform hashOp i fuel entryHead op) fun _ _ => True := by
  refine Tells.obeys ?_ fun _ _ _ _ => trivial
  cases op with
  | insert key data => exact absurd rfl (h key data)
  | search key =>
    exact obeys_bind (obeys_bind idle_find fun _ => obeys_ite (fun _ => obeys_ret _) fun _ => obeys_ret _) fun _ => obeys_ret _
  | delete key =>
    refine obeys_iter (fun _ => obeys_bind idle_find fun _ => obeys_ite (fun _ => obeys_ret _) fun _ => ?_) _ _
    refine obeys_bind Idle.store fun _ => obeys_bind Idle.store fun _ => obeys_bind idle_FENCE_CHECK fun _ =>
      obeys_ite (fun _ => obeys_ret _) fun _ => obeys_bind (idle_casWord rfl) fun _ => obeys_ite (fun _ => ?_) fun _ => ?_
    · refine obeys_ite (fun _ => obeys_bind idle_find fun _ => ?_) fun _ => ?_
      · exact obeys_bind idle_clearHPs fun _ => obeys_ret _
      · exact obeys_bind idle_clearHPs fun _ => obeys_ret _
    · exact obeys_bind idle_clearHPs fun _ => obeys_ret _

/-- What a return finds in the log. -/
def Ready (op : Op) (result : Bool) (es : List Ev) : Prop :=
  ∀ key data, op = .insert key data → Tally (if result then 1 else 0) none es

theorem tells_perform {hashOp : Bool} {fuel : Nat} {entryHead : Word} {op : Op} :
    Tells i (· = []) (perform hashOp i fuel entryHead op) fun result => Ready op result := by
  cases op with
  | insert key data =>
    have hinsert : Tells i Even (ListInsert i fuel entryHead key data) _ := tells_ListInsert
    refine hinsert.mono (fun w h => ?_) fun _ _ h _ _ _ => h
    rw [show deeds i w.log = [] from h]
    exact ⟨tally_nil, rfl⟩
  | search key => exact (tells_search_delete (by simp)).mono (fun _ _ => trivial) fun _ _ _ _ _ h => by cases h
  | delete key => exact (tells_search_delete (by simp)).mono (fun _ _ => trivial) fun _ _ _ _ _ h => by cases h

theorem tells_client {hashOp : Bool} {headOf : CInt → Nat} {fuel : Nat} {tasks : List Task} :
    (proto n).Triple i (fun _ => True) (client hashOp headOf i fuel tasks) fun _ _ => True := by
  refine Proto.Triple.forEach (J := fun _ _ => True) (fun task _ => ?_) tasks
  cases task with
  | stop => exact (Tells.store (A := fun _ => True))
  | op op =>
    refine .bind (B := fun _ w => deeds i w.log = []) (fun w _ => ?_) fun _ => .bind tells_perform fun result w hw => ?_
    · refine Proto.wp_step (fun _ => True) trivial (Proto.stable_const True) fun w _ hI _ => ⟨(), ⟨hI, ?_⟩, ⟨_, rfl, rfl⟩, ?_⟩
      · exact fun key data result h => by cases h
      · simp [deeds, effects, window, callOf]
    · refine Proto.wp_step (fun w => Ready op result (deeds i w.log)) hw (stable_deeds _) fun w hw hI _ => ⟨(), ⟨hI, ?_⟩, ⟨_, rfl, rfl⟩, trivial⟩
      intro key data result' h
      obtain ⟨rfl, rfl⟩ := Ev.ret.inj (Option.some.inj h)
      exact (hw key data rfl).accounted_iff

/-- **The leak of `ListInsert`**: at every return, in every run from any state, the objects that `palloc` returned
in the call were linked or given back if and only if no `FENCE_CHECK` after a `palloc` restarted the call. -/
theorem reach_settles (s : Mem n) (hashOp : Bool) (headOf : CInt → Nat) (fuel : Fin n → Nat) (tasks : Fin n → List Task)
    {c : Cfg (Fin n) (Mem n) Ev} (hc : Cfg.Reach (.init s fun i => client hashOp headOf i (fuel i) (tasks i)) c) :
    Along Settles c.log := by
  have hallow := (proto n).allowed_of_forall (fun _ _ => trivial) c.log
  have hstart : (proto n).inv ⟨s, [], ()⟩ := trivial
  obtain ⟨_, hI⟩ := Proto.adequacy hstart (fun i => tells_client _ trivial) hc hallow
  exact hI

/-- Two threads, an empty list and one full cache of the pool. -/
def oneCache : Mem 2 where
  entryHead := fun _ => NULL
  keyData := fun _ => 0
  nextEntry := fun _ => NULL
  reclaim := ⟨none, 2⟩
  toProcess := ⟨none, 2⟩
  head := some 0
  numHPEntries := 6
  dirtyNphase := fun _ => 0
  HPs := fun _ _ => NULL
  alloc_cache := fun _ => none
  free_cache := fun _ => none
  localVer := fun _ => 2
  hps := fun _ => none
  next := fun _ => none
  free := fun _ => entriesPerCache
  ptrs := fun _ k => ⟨nodeSize * (k + 1), false⟩
  brk := 1
  spare := fun k => nodeSize * (k + entriesPerCache + 1)
  spares := 0
  stop := false

/-- Both threads insert. The first takes the cache, and between its `palloc` and its `FENCE_CHECK` the second one
finds the pool empty and warns it. -/
def warned : Cfg (Fin 2) (Mem 2) Ev :=
  (Cfg.init oneCache fun i => client false (fun _ => 0) i 9 [.op (.insert (if i.val = 0 then 5 else 7) 0)]).exec
    (List.replicate 11 ⟨0, by decide⟩ ++ List.replicate 24 ⟨1, by decide⟩ ++ List.replicate 30 ⟨0, by decide⟩)

theorem reach_settles_warned : Along Settles warned.log :=
  reach_settles oneCache false (fun _ => 0) (fun _ => 9) (fun i => [.op (.insert (if i.val = 0 then 5 else 7) 0)]) ⟨_, rfl⟩

theorem not_tight : ¬ Along Tight warned.log := by
  have hret : warned.log.head?.map (·.ev) = some (some (.ret (.insert 5 0) true)) := by decide +kernel
  have htid : warned.log.head?.map (·.tid) = some 0 := by decide +kernel
  have hdeeds : deeds 0 warned.log.tail = [.linked 4000, .fenced, .served 4000, .restarted, .served 4032] := by decide +kernel
  intro h
  obtain ⟨r, hr⟩ : ∃ r, warned.log.head? = some r := Option.isSome_iff_exists.1 (by decide +kernel)
  obtain ⟨rs, hrs⟩ := List.head?_eq_some_iff.1 hr
  rw [hr] at hret htid
  rw [hrs] at h hdeeds
  have hacc := h.2 5 0 true (Option.some.inj hret)
  rw [show r.tid = 0 from Option.some.inj htid, show deeds 0 rs = _ from hdeeds] at hacc
  have hlost := hacc.each 4032
  revert hlost
  decide

end OptimisticAccess.MOA.Leak
