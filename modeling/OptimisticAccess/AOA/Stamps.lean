import OptimisticAccess.AOA.Mutator
import OptimisticAccess.AOA.Clear
import OptimisticAccess.AOA.Footprint

/-!
# The numbers of a phase

Five kinds of words carry the number of the phase they belong to. Each is brought up to date by
whichever thread comes first, and a thread may be any number of phases late. What keeps them
together is that a thread leaves a collection only when every word has at least its number, so
that the thread that starts the next phase finds none of them further behind than one.
-/

namespace OptimisticAccess.AOA.Stamps

open Conc Prog

variable {n : Nat}

/-- The words with a number. -/
inductive Which (n : Nat) where
  | head
  | sweep
  | dirty (j : Fin n)
  | mark (h : Nat)

def Which.Counted (heapmem : List Nat) : Which n → Prop
  | .mark h => IsHeader heapmem h
  | _ => True

def stamp (s : Mem n) : Which n → Nat
  | .head => s.head.ver.toNat
  | .sweep => Stamp.hi s.sweep_counter
  | .dirty j => (s.dirties j).dirtyNphase.toNat / 2 ^ 8
  | .mark h => Stamp.hi (s.marks h)

/-- `x` is the number of phase `p` or of the phase before. -/
def Near (p x : Nat) : Prop := x = p ∨ x + 2 = p

/-! ## The invariant -/

structure Inv (heapmem : List Nat) (s : Mem n) : Prop where
  chunks : s.heapmem = heapmem
  small : ∀ i, (s.locals i).localVer < 2 ^ 31
  even : s.phase % 2 = 0
  ver : 0 ≤ s.head.ver
  near : ∀ x : Which n, x.Counted heapmem → Near s.phase (stamp s x)
  localVer_le : ∀ i, (s.locals i).localVer ≤ s.phase
  localVer_le_head : ∀ i, (s.locals i).localVer ≤ stamp s .head
  localVer_even : ∀ i, (s.locals i).localVer % 2 = 0

/-- What becomes of the numbers over time. A warning is written in the current phase only. -/
structure Rises (s s' : Mem n) : Prop where
  phase : s.phase ≤ s'.phase
  stamp : ∀ x : Which n, stamp s x ≤ stamp s' x
  dirty : ∀ j, (s'.dirties j).dirtyNphase = (s.dirties j).dirtyNphase ∨
    (s'.dirties j).dirtyNphase = ((s.dirties j).clean).dirtyNphase ∨
    (s'.dirties j).dirty = true ∧ s'.phase ≤ Stamps.stamp s' (.dirty j)

/-- The assertions about numbers. -/
def Ev.isStale : Option Ev → Bool
  | some (.assertFailed .sweepPhase) | some (.assertFailed .gscPhase) => true
  | _ => false

/-- The events of `Reclamation` after the warnings. -/
def Ev.isWarned : Option Ev → Bool
  | some .hazard | some .reclaimed => true
  | _ => false

/-- A step of thread `i`. -/
structure Moves (heapmem : List Nat) (i : Fin n) (s : Mem n) (e : Option Ev) (s' : Mem n) : Prop where
  event : Ev.isStale e = false
  warned : Ev.isWarned e = true → 0 < (s.locals i).localVer ∧ ∀ j, (s.locals i).localVer ≤ stamp s (.dirty j)
  inv : Inv heapmem s'
  rises : Rises s s'
  others : ∀ j, j ≠ i → (s'.locals j).localVer = (s.locals j).localVer

def proto (heapmem : List Nat) : Proto (Fin n) (Mem n) Ev Unit where
  inv w := Inv heapmem w.mem ∧ Along (fun _ r => Inv heapmem r.pre ∧ Moves heapmem r.tid r.pre r.ev r.post) w.log
  act i w w' := Rises w.mem w'.mem ∧ ∀ j, j ≠ i → (w'.mem.locals j).localVer = (w.mem.locals j).localVer

variable {heapmem : List Nat} {s s' : Mem n} {i : Fin n} {q r : Nat}

/-- A number behind `r` is one phase behind, and `r` is the phase. -/
theorem Inv.behind (h : Inv heapmem s) {x : Which n} (hx : x.Counted heapmem) (hr : r ≤ s.phase) (hr2 : r % 2 = 0)
    (hlt : stamp s x < r) : r = s.phase ∧ stamp s x + 2 = r := by
  have heven := h.even
  rcases h.near x hx with e | e <;> omega

/-- A number that has left `q` behind has reached `q + 2`. -/
theorem Inv.past (h : Inv heapmem s) {x : Which n} (hx : x.Counted heapmem) (hq : q % 2 = 0) (hphase : q + 2 ≤ s.phase)
    (hne : stamp s x ≠ q) : q + 2 ≤ stamp s x := by
  have heven := h.even
  rcases h.near x hx with e | e <;> omega

/-! ## Steps that leave the numbers alone -/

structure Still (s : Mem n) (e : Option Ev) (s' : Mem n) : Prop where
  event : Ev.isStale e = false
  warned : Ev.isWarned e = false
  chunks : s'.heapmem = s.heapmem
  phase : s'.phase = s.phase
  ver : s'.head.ver = s.head.ver
  sweep : Stamp.hi s'.sweep_counter = Stamp.hi s.sweep_counter
  marks : ∀ h, Stamp.hi (s'.marks h) = Stamp.hi (s.marks h)
  dirty : ∀ j, (s'.dirties j).dirtyNphase = (s.dirties j).dirtyNphase ∨
    (s'.dirties j).dirtyNphase = ((s.dirties j).clean).dirtyNphase
  localVer : ∀ j, (s'.locals j).localVer = (s.locals j).localVer

/-- Clearing the dirty bit leaves the number of the phase. -/
theorem toNat_clean (d : DirtyRecord) : d.clean.dirtyNphase.toNat / 2 ^ 8 = d.dirtyNphase.toNat / 2 ^ 8 := by
  have h : d.clean.dirtyNphase >>> 8 = d.dirtyNphase >>> 8 := by
    have hM : 0xFFFFFFFFFFFFFF00#64 = BitVec.allOnes 64 <<< 8 := by decide
    refine BitVec.eq_of_getLsbD_eq fun k hk => ?_
    rw [DirtyRecord.clean, hM, BitVec.getLsbD_ushiftRight, BitVec.getLsbD_ushiftRight, BitVec.getLsbD_and,
      BitVec.getLsbD_shiftLeft, BitVec.getLsbD_allOnes]
    by_cases h64 : 8 + k < 64
    · simp [h64, hk]
    · rw [BitVec.getLsbD_of_ge _ _ (by omega), Bool.false_and]
  have := congrArg BitVec.toNat h
  rwa [BitVec.toNat_ushiftRight, BitVec.toNat_ushiftRight, Nat.shiftRight_eq_div_pow, Nat.shiftRight_eq_div_pow] at this

theorem Still.stamp {e : Option Ev} (h : Still s e s') (x : Which n) : stamp s' x = stamp s x := by
  cases x with
  | head => exact congrArg Int.toNat h.ver
  | sweep => exact h.sweep
  | mark a => exact h.marks a
  | dirty j =>
    rcases h.dirty j with e | e
    · exact congrArg (fun w : U64 => w.toNat / 2 ^ 8) e
    · exact (congrArg (fun w : U64 => w.toNat / 2 ^ 8) e).trans (toNat_clean _)

theorem Still.moves {e : Option Ev} (h : Still s e s') (hI : Inv heapmem s) : Moves heapmem i s e s' where
  event := h.event
  warned := fun hw => absurd (h.warned.symm.trans hw) Bool.false_ne_true
  inv := {
    chunks := h.chunks.trans hI.chunks
    small := fun j => by rw [h.localVer]; exact hI.small j
    even := h.phase ▸ hI.even
    ver := h.ver ▸ hI.ver
    near := fun x hx => by rw [h.phase, h.stamp]; exact hI.near x hx
    localVer_le := fun j => by rw [h.phase, h.localVer]; exact hI.localVer_le j
    localVer_le_head := fun j => by rw [h.stamp, h.localVer]; exact hI.localVer_le_head j
    localVer_even := fun j => by rw [h.localVer]; exact hI.localVer_even j }
  rises := {
    phase := h.phase.ge
    stamp := fun x => (h.stamp x).ge
    dirty := fun j => (h.dirty j).imp_right .inl }
  others := fun j _ => h.localVer j

theorem Still.refl {e : Option Ev} (he : Ev.isStale e = false) (hw : Ev.isWarned e = false) (s : Mem n) : Still s e s :=
  ⟨he, hw, rfl, rfl, rfl, rfl, fun _ => rfl, fun _ => .inl rfl, fun _ => rfl⟩

theorem Still.setLocal {e : Option Ev} (he : Ev.isStale e = false) (hw : Ev.isWarned e = false) (s : Mem n) {f : LocalAlloc → LocalAlloc}
    (hf : ∀ l, (f l).localVer = l.localVer := by exact fun _ => rfl) : Still s e (s.setLocal i f) := by
  refine ⟨he, hw, rfl, rfl, rfl, rfl, fun _ => rfl, fun _ => .inl rfl, fun j => ?_⟩
  by_cases e : j = i
  · subst e
    simp only [Mem.setLocal, Function.update_self, hf]
  · simp only [Mem.setLocal, Function.update_of_ne e]

theorem Still.setEntry {e : Option Ev} (h : Still s e s') (p : Nat) (f : AllocEntry → AllocEntry) :
    Still s e (s'.setEntry p f) := { h with }

theorem Still.setHead {e : Option Ev} (h : Still s e s') {v : VerEntry} (hv : v.ver = s.head.ver) :
    Still s e { s' with head := v } := { h with ver := hv }

theorem Still.setDirty {e : Option Ev} (he : Ev.isStale e = false) (hw : Ev.isWarned e = false) (s : Mem n) {f : DirtyRecord → DirtyRecord}
    (hf : (f (s.dirties i)).dirtyNphase = (s.dirties i).dirtyNphase ∨
      (f (s.dirties i)).dirtyNphase = ((s.dirties i).clean).dirtyNphase) : Still s e (s.setDirty i f) := by
  refine ⟨he, hw, rfl, rfl, rfl, rfl, fun _ => rfl, fun j => ?_, fun _ => rfl⟩
  by_cases e : j = i
  · subst e
    simpa only [Mem.setDirty, Function.update_self] using hf
  · exact .inl (by simp only [Mem.setDirty, Function.update_of_ne e])

/-- Tracing sets bits and writes the thread's stack. -/
theorem Still.root {e : Option Ev} (h : RootStep i s e s') : Still s e s' := by
  have htable : ∀ {e : Option Ev}, Ev.isTable e → Ev.isStale e = false ∧ Ev.isWarned e = false := by
    intro e he
    unfold Ev.isTable at he
    split at he <;> first | exact ⟨rfl, rfl⟩ | cases he
  have htrace : ∀ {e : Option Ev}, Ev.isTrace e → Ev.isStale e = false ∧ Ev.isWarned e = false := by
    intro e he
    unfold Ev.isTrace at he
    split at he <;> first | exact ⟨rfl, rfl⟩ | cases he
  cases h with
  | told he => exact .refl (htable he).1 (htable he).2 s
  | table he r k w => exact { Still.refl (htable he).1 (htable he).2 s with }
  | trace h =>
    cases h with
    | silent he => exact .refl (htrace he).1 (htrace he).2 s
    | slot he k p => exact .setLocal (htrace he).1 (htrace he).2 s
    | mark h k hk _ =>
      refine ⟨rfl, rfl, rfl, rfl, rfl, rfl, fun a => ?_, fun _ => .inl rfl, fun _ => rfl⟩
      by_cases ha : a = h
      · subst ha
        simp only [Mem.setMarks, Function.update_self, Stamp.hi_or_bit hk]
      · simp only [Mem.setMarks, Function.update_of_ne ha]

/-! ## Rules -/

/-- Facts that no step of any thread undoes. -/
def Rising (heapmem : List Nat) (A : Mem n → Prop) : Prop :=
  ∀ s s', Inv heapmem s' → Rises s s' → A s → A s'

/-- Thread `i` works for phase `q` and knows `A`. -/
def At (i : Fin n) (q : Nat) (A : Mem n → Prop) (w : World (Fin n) (Mem n) Ev Unit) : Prop :=
  (w.mem.locals i).localVer = q ∧ A w.mem

/-- From phase `q` and `A`, program `p` of thread `i` comes to phase `q'` and `B`. -/
def Spec (heapmem : List Nat) (i : Fin n) (q : Nat) (A : Mem n → Prop) {α : Type} (p : P n α) (q' : Nat)
    (B : α → Mem n → Prop) : Prop :=
  ∀ w, At i q A w → (proto heapmem).wp i p (fun a => At i q' (B a)) w

variable {A A' : Mem n → Prop} {α β : Type} {q' : Nat} {B : α → Mem n → Prop} {C : β → Mem n → Prop}

theorem stable_at (hA : Rising heapmem A) : (proto heapmem).Stable i (At i q A) :=
  fun _ w w' hj _ hI hact h => ⟨(hact.2 i fun e => hj e.symm).trans h.1, hA w.mem w'.mem hI.1 hact.1 h.2⟩

theorem Spec.ret {a : α} (h : ∀ s, A s → B a s) : Spec heapmem i q A (Prog.ret a) q B :=
  fun _ hw => ⟨hw.1, h _ hw.2⟩

theorem Spec.halt : Spec heapmem i q A (Prog.halt : P n α) q' B := fun _ _ => trivial

theorem Spec.mono {p : P n α} {B' : α → Mem n → Prop} (h : Spec heapmem i q A p q' B) (hA : ∀ s, A' s → A s)
    (hB : ∀ a s, B a s → B' a s) : Spec heapmem i q A' p q' B' :=
  fun w hw => Proto.wp_mono (h w ⟨hw.1, hA _ hw.2⟩) fun _ _ h' => ⟨h'.1, hB _ _ h'.2⟩

theorem Spec.bind {p : P n α} {f : α → P n β} {m : Nat} (hp : Spec heapmem i q A p m B)
    (hf : ∀ a, Spec heapmem i m (B a) (f a) q' C) : Spec heapmem i q A (p >>= f) q' C :=
  fun w hw => Proto.wp_bind.2 (Proto.wp_mono (hp w hw) fun a w' h => hf a w' h)

theorem Spec.fact {p : P n α} {c : Prop} (hc : ∀ s, A s → c) (h : c → Spec heapmem i q A p q' B) :
    Spec heapmem i q A p q' B :=
  fun w hw => h (hc _ hw.2) w hw

theorem Spec.ite {c : Prop} [Decidable c] {p p' : P n α} (hp : c → Spec heapmem i q A p q' B)
    (hp' : ¬ c → Spec heapmem i q A p' q' B) : Spec heapmem i q A (if c then p else p') q' B := by
  split
  · next h => exact hp h
  · next h => exact hp' h

/-- The step rule. -/
theorem Spec.step {ev : Mem n → Option Ev} {upd : Mem n → Mem n} {k : Mem n → P n α} (hA : Rising heapmem A)
    (h : ∀ s, Inv heapmem s → (s.locals i).localVer = q → A s →
      Moves heapmem i s (ev s) (upd s) ∧ ∀ w, w.mem = upd s → (proto heapmem).wp i (k s) (fun a => At i q' (B a)) w) :
    Spec heapmem i q A (Prog.step ev upd k) q' B := by
  intro w hw
  refine Proto.wp_step _ hw (stable_at hA) fun w hw hI _ => ?_
  obtain ⟨hm, hk⟩ := h w.mem hI.1 hw.1 hw.2
  exact ⟨(), ⟨hm.inv, hI.2, hI.1, hm⟩, ⟨hm.rises, hm.others⟩, hk _ rfl⟩

theorem Spec.load {f : Mem n → α} (hA : Rising heapmem A)
    (h : ∀ s, Inv heapmem s → (s.locals i).localVer = q → A s → B (f s) s) : Spec heapmem i q A (Prog.load f) q B := by
  refine .step hA fun s hI hv ha => ⟨(Still.refl rfl rfl s).moves hI, fun w e => ?_⟩
  have e : w.mem = s := e
  exact ⟨e ▸ hv, e ▸ h s hI hv ha⟩

theorem Spec.localVer {k : Nat → P n α} (hA : Rising heapmem A) (h : Spec heapmem i q A (k q) q' B) :
    Spec heapmem i q A (Prog.load (fun s => (s.locals i).localVer) >>= k) q' B := by
  refine .step hA fun s hI hv ha => ⟨(Still.refl rfl rfl s).moves hI, fun w e => ?_⟩
  have e : w.mem = s := e
  subst e
  simp only [hv]
  exact h w ⟨hv, ha⟩

theorem Spec.cas {ok : Mem n → Prop} [DecidablePred ok] {upd : Mem n → Mem n} {e : Option Ev}
    {B : Bool → Mem n → Prop} (hA : Rising heapmem A)
    (hyes : ∀ s, Inv heapmem s → (s.locals i).localVer = q → A s → ok s →
      Moves heapmem i s e (upd s) ∧ ((upd s).locals i).localVer = q ∧ B true (upd s))
    (hno : ∀ s, Inv heapmem s → (s.locals i).localVer = q → A s → ¬ ok s → B false s) :
    Spec heapmem i q A (Prog.cas ok upd e) q B := by
  refine .step hA fun s hI hv ha => ?_
  by_cases h : ok s
  · simp only [if_pos h, decide_eq_true h]
    obtain ⟨hm, hv', hB⟩ := hyes s hI hv ha h
    exact ⟨hm, fun w e => ⟨e ▸ hv', e ▸ hB⟩⟩
  · simp only [if_neg h, decide_eq_false h]
    exact ⟨(Still.refl rfl rfl s).moves hI, fun w e => ⟨e ▸ hv, e ▸ hno s hI hv ha h⟩⟩

/-- Code that leaves the numbers alone keeps what the thread knows. -/
theorem Spec.still {p : P n α} (hp : p.Obeys Still) (hA : Rising heapmem A) :
    Spec heapmem i q A p q fun _ => A := by
  intro w hw
  refine Proto.wp_obeys hp (At i q A) hw (stable_at hA) fun w e s' hw hI _ hs => ?_
  have hm : Moves heapmem i w.mem e s' := hs.moves hI.1
  exact ⟨(), ⟨hm.inv, hI.2, hI.1, hm⟩, ⟨hm.rises, hm.others⟩, (hs.localVer i).trans hw.1, hA w.mem s' hm.inv hm.rises hw.2⟩

theorem Spec.iter {body : β → P n (β ⊕ α)} {J : β → Mem n → Prop}
    (hbody : ∀ b, Spec heapmem i q (J b) (body b) q fun x s => Sum.elim (J · s) (B · s) x) (fuel : Nat) (b : β) :
    Spec heapmem i q (J b) (Prog.iter body fuel b) q B := by
  intro w hw
  refine Proto.wp_iter (fun b => At i q (J b)) (fun b w hw => ?_) fuel b hw
  refine Proto.wp_mono (hbody b w hw) fun x w' h => ?_
  cases x with
  | inl b => exact h
  | inr a => exact h

theorem Spec.forEach {body : β → P n Unit} {J : List β → Mem n → Prop}
    (hbody : ∀ b bs, Spec heapmem i q (J (b :: bs)) (body b) q fun _ => J bs) (bs : List β) :
    Spec heapmem i q (J bs) (Prog.forEach body bs) q fun _ => J [] :=
  fun _ hw => Proto.wp_forEach (fun bs => At i q (J bs)) (fun b bs w hw => hbody b bs w hw) bs hw

theorem Spec.defined {c : Prop} [Decidable c] : Spec heapmem i q A (Prog.defined c) q fun _ s => c ∧ A s := by
  unfold Prog.defined
  split
  · next h => exact .ret fun _ ha => ⟨h, ha⟩
  · exact .halt

theorem Spec.check {c : Prop} [Decidable c] {e : Ev} (hc : c) :
    Spec heapmem i q A (Prog.check c e) q fun _ => A := by
  rw [Prog.check, if_pos hc]
  exact .ret fun _ h => h

/-! ## Reached -/

/-- The phase and the numbers of the words `X` are at least `r`. -/
def Reached (r : Nat) (X : Which n → Prop) (s : Mem n) : Prop :=
  r ≤ s.phase ∧ ∀ x, X x → r ≤ stamp s x

variable {X Y : Which n → Prop}

theorem rising_reached (r : Nat) (X : Which n → Prop) : Rising heapmem (Reached r X) :=
  fun _ _ _ h ha => ⟨ha.1.trans h.phase, fun x hx => (ha.2 x hx).trans (h.stamp x)⟩

theorem Reached.mono (h : Reached r X s) (hY : ∀ x, Y x → X x) : Reached r Y s :=
  ⟨h.1, fun x hx => h.2 x (hY x hx)⟩

/-- The phase two ahead brings every word along. -/
theorem Inv.reached (h : Inv heapmem s) (hr : r + 2 ≤ s.phase) : Reached r (Which.Counted heapmem) s := by
  refine ⟨by omega, fun x hx => ?_⟩
  rcases h.near x hx with e | e <;> omega

/-- One word is brought up to date. -/
theorem Inv.renew (h : Inv heapmem s) (x : Which n) (e : Option Ev) (s' : Mem n) (hx : x.Counted heapmem) (hr : Reached r X s)
    (hr2 : r % 2 = 0) (hlt : stamp s x < r) (he : Ev.isStale e = false) (hw : Ev.isWarned e = false) (hchunks : s'.heapmem = s.heapmem)
    (hphase : s'.phase = s.phase) (hlocals : s'.locals = s.locals) (hver : 0 ≤ s'.head.ver) (hself : stamp s' x = r)
    (hother : ∀ y, y ≠ x → stamp s' y = stamp s y)
    (hdirty : ∀ j, Which.dirty j ≠ x → (s'.dirties j).dirtyNphase = (s.dirties j).dirtyNphase)
    (hwarn : ∀ j, Which.dirty j = x → (s'.dirties j).dirty = true) :
    Moves heapmem i s e s' ∧ Reached r (fun y => X y ∨ y = x) s' := by
  obtain ⟨hp, -⟩ := h.behind hx hr.1 hr2 hlt
  have hstamp : ∀ y, stamp s y ≤ stamp s' y := fun y => by
    by_cases e : y = x
    · subst e; omega
    · exact (hother y e).ge
  refine ⟨⟨he, fun hw' => absurd (hw.symm.trans hw') Bool.false_ne_true,
    ⟨hchunks.trans h.chunks, hlocals ▸ h.small, hphase ▸ h.even, hver, fun y hy => ?_, ?_, ?_, ?_⟩,
    ⟨hphase.ge, hstamp, fun j => ?_⟩, fun j _ => by rw [hlocals]⟩, hphase ▸ hr.1, ?_⟩
  · by_cases e : y = x
    · subst e; exact .inl (by omega)
    · rw [hother y e, hphase]; exact h.near y hy
  · intro j; rw [hlocals, hphase]; exact h.localVer_le j
  · intro j; rw [hlocals]; exact (h.localVer_le_head j).trans (hstamp _)
  · intro j; rw [hlocals]; exact h.localVer_even j
  · by_cases e : Which.dirty j = x
    · exact .inr (.inr ⟨hwarn j e, by rw [e]; omega⟩)
    · exact .inl (hdirty j e)
  · rintro y (hy | rfl)
    · exact (hr.2 y hy).trans (hstamp y)
    · exact hself.ge

/-! ## The parts of a collection -/

section Collection

variable {fuel : Nat}

theorem Still.load {f : Mem n → α} : Obeys Still (Prog.load f : P n α) := obeys_load fun s => .refl rfl rfl s

theorem still_root {p : P n α} (h : p.Obeys (RootStep i)) : p.Obeys Still := h.mono fun _ _ _ => .root

theorem spec_readHead (hq : q % 2 = 0) :
    Spec heapmem i q (Reached (q + 2) X) readHead q fun old =>
      Reached (q + 2) fun x => X x ∨ x = .head ∧ old.ver ≠ q := by
  refine (Spec.still Still.load (rising_reached _ _)).bind fun head => ?_
  refine Spec.bind (B := fun (ver : Int) => Reached (q + 2) fun x => X x ∨ x = .head ∧ ver ≠ q)
    (Spec.load (rising_reached _ _) fun s hI _ ha => ⟨ha.1, ?_⟩) fun ver => .ret fun _ h => h
  rintro x (hx | ⟨rfl, hne⟩)
  · exact ha.2 x hx
  · refine hI.past (x := .head) trivial hq ha.1 fun e => hne ?_
    rw [← e]
    exact (Int.toNat_of_nonneg hI.ver).symm

/-- The number of a phase fits the `int` it is computed in. -/
theorem toInt32_eq {r : Nat} (h : r < 2 ^ 31) : toInt32 r = r := by
  have hr : (BitVec.ofNat 32 r).toNat = r := Nat.mod_eq_of_lt (by omega)
  rw [toInt32, BitVec.toInt_eq_toNat_of_lt (by omega), hr]

theorem spec_resetHead (hq : q % 2 = 0) (hsmall : q + 2 < 2 ^ 31) :
    Spec heapmem i q (Reached (q + 2) fun _ => False) (resetHead i fuel ⟨none, toInt32 (q + 2)⟩) q fun _ =>
      Reached (q + 2) (· = .head) := by
  refine (spec_readHead hq).bind fun old => ?_
  refine Spec.iter (J := fun old : VerEntry => Reached (q + 2) fun x => False ∨ x = .head ∧ old.ver ≠ q)
    (fun old => .localVer (rising_reached _ _) (.ite (fun hver => ?_) fun hver => ?_)) _ _
  · refine Spec.bind (B := fun _ => Reached (q + 2) fun _ => False)
      (.cas (rising_reached _ _) (fun s hI hv ha hok => ?_) fun s _ _ ha _ => ha.mono fun _ => False.elim) fun _ =>
      (spec_readHead hq).bind fun old => .ret fun _ h => h
    have hlt : stamp s .head < q + 2 := by
      simp only [stamp, hok, hver]
      omega
    obtain ⟨hp, -⟩ := hI.behind (x := .head) trivial ha.1 (by omega) hlt
    have hint : toInt32 (q + 2) = (q : Int) + 2 := toInt32_eq hsmall
    obtain ⟨hm, hr⟩ := hI.renew .head none { s with head := ⟨none, toInt32 (q + 2)⟩ } trivial ha (by omega)
      hlt rfl rfl rfl rfl rfl (by dsimp only; omega) (by simp only [stamp, hint]; omega)
      (fun y hy => by cases y <;> first | rfl | exact absurd rfl hy) (fun _ _ => rfl) fun _ => nofun
    exact ⟨hm, hv, hr.mono fun _ => False.elim⟩
  · refine .ret fun s h => h.mono ?_
    rintro x rfl
    exact .inr ⟨rfl, hver⟩

/-- `(unsigned long)local->localVer<<8`, with and without the dirty bit. -/
theorem toNat_dNp {r : Nat} (h : r < 2 ^ 31) : (BitVec.ofNat 64 r <<< 8).toNat = r * 2 ^ 8 := by
  rw [BitVec.toNat_shiftLeft, BitVec.toNat_ofNat, Nat.shiftLeft_eq]
  omega

theorem toNat_dNpd {r : Nat} (h : r < 2 ^ 31) : (BitVec.ofNat 64 r <<< 8 ||| 1#64).toNat = r * 2 ^ 8 + 1 := by
  rw [BitVec.toNat_or, toNat_dNp h, mul_comm]
  exact (Nat.two_pow_add_eq_or_of_lt (i := 8) (b := 1) (by decide) r).symm

theorem dirty_dNpd {w : U64} : decide ((w <<< 8 ||| 1#64).setWidth 8 ≠ 0#8) = true := by
  refine decide_eq_true fun h => ?_
  have hbit : ((w <<< 8 ||| 1#64).setWidth 8).getLsbD 0 = true := by
    simp
  rw [h] at hbit
  cases hbit

/-- The number in the word of thread `j` is that of phase `r`, or the word is one of `ws`. -/
def Warning (r : Nat) (j : Fin n) (ws : Set U64) (s : Mem n) : Prop :=
  r ≤ stamp s (.dirty j) ∨ (s.dirties j).dirtyNphase ∈ ws

theorem rising_warning {j : Fin n} {ws : Set U64} (hws : ∀ w ∈ ws, w &&& 0xFFFFFFFFFFFFFF00#64 ∈ ws) :
    Rising heapmem fun s => Reached r X s ∧ Warning r j ws s := by
  refine fun s s' hI hr ⟨ha, hw⟩ => ⟨rising_reached _ _ s s' hI hr ha, ?_⟩
  rcases hw with hw | hw
  · exact .inl (hw.trans (hr.stamp _))
  · rcases hr.dirty j with e | e | e
    · exact .inr (e ▸ hw)
    · exact .inr (e ▸ hws _ hw)
    · exact .inl ((ha.1.trans hr.phase).trans e.2)

theorem Warning.mono {j : Fin n} {ws ws' : Set U64} (h : Warning r j ws s)
    (hws : ∀ w ∈ ws, w ∈ ws' ∨ r ≤ w.toNat / 2 ^ 8) : Warning r j ws' s := by
  rcases h with h | h
  · exact .inl h
  · exact (hws _ h).symm.imp id id

theorem Reached.warned {j : Fin n} (h : Reached r X s) (hw : Warning r j ∅ s) : Reached r (fun x => X x ∨ x = .dirty j) s := by
  refine ⟨h.1, ?_⟩
  rintro x (hx | rfl)
  · exact h.2 x hx
  · exact hw.resolve_right (Set.notMem_empty _)

/-- An attempt fails on a word that is up to date or that its owner has cleaned. -/
theorem spec_casDirty (j : Fin n) (ws : Set U64) (old : U64) (hr : r % 2 = 0)
    (hws : ∀ w ∈ ws, w &&& 0xFFFFFFFFFFFFFF00#64 ∈ ws) (hold : old.toNat / 2 ^ 8 < r) :
    Spec heapmem i r (fun s => Reached r X s ∧ Warning r j ws s)
      (warn.casDirty (BitVec.ofNat 64 r <<< 8 ||| 1#64) j old) r
      fun _ s => Reached r X s ∧ Warning r j {w | w ∈ ws ∧ w ≠ old} s := by
  refine .cas (rising_warning hws) (fun s hI hv ⟨ha, _⟩ hok => ?_) fun s _ _ ⟨ha, hw⟩ hno => ?_
  · subst hok
    have hsmall : r < 2 ^ 31 := hv ▸ hI.small i
    have hdirty : ((s.setDirty j ({ · with dirtyNphase := BitVec.ofNat 64 r <<< 8 ||| 1#64 })).dirties j).dirty = true := by
      simp only [DirtyRecord.dirty, Mem.setDirty, Function.update_self, dirty_dNpd]
    have hself : stamp (s.setDirty j ({ · with dirtyNphase := BitVec.ofNat 64 r <<< 8 ||| 1#64 })) (.dirty j) = r := by
      simp only [stamp, Mem.setDirty, Function.update_self, toNat_dNpd hsmall]
      omega
    have hother : ∀ k, k ≠ j →
        (s.setDirty j ({ · with dirtyNphase := BitVec.ofNat 64 r <<< 8 ||| 1#64 })).dirties k = s.dirties k :=
      fun k hk => Function.update_of_ne hk ..
    obtain ⟨hm, hr'⟩ := hI.renew (.dirty j) none
      (s.setDirty j ({ · with dirtyNphase := BitVec.ofNat 64 r <<< 8 ||| 1#64 })) trivial ha hr hold rfl rfl rfl rfl rfl
      hI.ver hself (fun y hy => by
        cases y with
        | dirty k => simp only [stamp, hother k fun e => hy (e ▸ rfl)]
        | _ => rfl) (fun k hk => by rw [hother k fun e => hk (e ▸ rfl)]) fun k hk => by
          obtain rfl : k = j := by injection hk
          exact hdirty
    exact ⟨hm, hv, hr'.mono fun _ => .inl, .inl hself.ge⟩
  · exact ⟨ha, hw.imp_right fun h => ⟨h, hno⟩⟩

/-- The second attempt cannot fail for good: only the first clear of the bit changes the word. -/
theorem spec_warn (j : Fin n) (hr : r % 2 = 0) (hsmall : r < 2 ^ 31) :
    Spec heapmem i r (Reached r X) (warn (BitVec.ofNat 64 r <<< 8) (BitVec.ofNat 64 r <<< 8 ||| 1#64) j) r fun _ =>
      Reached r fun x => X x ∨ x = .dirty j := by
  have hge (old : U64) : old ≥ BitVec.ofNat 64 r <<< 8 ↔ r ≤ old.toNat / 2 ^ 8 := by
    rw [ge_iff_le, BitVec.le_def, toNat_dNp hsmall]
    omega
  have hclean (w : U64) : w &&& 0xFFFFFFFFFFFFFF00#64 &&& 0xFFFFFFFFFFFFFF00#64 = w &&& 0xFFFFFFFFFFFFFF00#64 := by
    rw [BitVec.and_assoc, BitVec.and_self]
  have hstamp (w : U64) : (w &&& 0xFFFFFFFFFFFFFF00#64).toNat / 2 ^ 8 = w.toNat / 2 ^ 8 :=
    toNat_clean ⟨w, fun _ => NULL⟩
  unfold warn
  refine Spec.bind (B := fun old s => Reached r X s ∧ Warning r j {old, old &&& 0xFFFFFFFFFFFFFF00#64} s)
    (Spec.load (rising_reached _ _) fun s _ _ ha => ⟨ha, .inr (.inl rfl)⟩) fun old => ?_
  refine .ite (fun h => .ret fun s ⟨ha, hw⟩ => ha.warned (hw.mono ?_)) fun h => ?_
  · rintro w (rfl | rfl)
    · exact .inr ((hge w).1 h)
    · exact .inr ((hstamp old).symm ▸ (hge old).1 h)
  -- the first attempt leaves nothing but the word as its owner cleans it
  refine (spec_casDirty j {old, old &&& 0xFFFFFFFFFFFFFF00#64} old hr ?_ (not_le.1 fun h' => h ((hge old).2 h'))).bind
    fun _ => ?_
  · rintro w (rfl | rfl)
    · exact .inr rfl
    · exact .inr (hclean old)
  have hleft : ∀ w ∈ ({old, old &&& 0xFFFFFFFFFFFFFF00#64} : Set U64), w ≠ old → w = old &&& 0xFFFFFFFFFFFFFF00#64 :=
    fun w hw hne => hw.resolve_left hne
  have hcleaned : Rising heapmem fun s : Mem n => Reached r X s ∧ Warning r j {old &&& 0xFFFFFFFFFFFFFF00#64} s := by
    refine rising_warning ?_
    rintro w rfl
    exact hclean old
  refine Spec.bind (B := fun next s => Reached r X s ∧ Warning r j {w | w = old &&& 0xFFFFFFFFFFFFFF00#64 ∧ w = next} s)
    (Spec.mono (Spec.load hcleaned fun s _ _ ⟨ha, hw⟩ => ⟨ha, hw.imp_right fun h => ⟨h, rfl⟩⟩)
      (fun s ⟨ha, hw⟩ => ⟨ha, hw.mono fun w hw => .inl (hleft w hw.1 hw.2)⟩) fun _ _ h => h) fun next => ?_
  refine .ite (fun h => .ret fun s ⟨ha, hw⟩ => ha.warned (hw.mono ?_)) fun h => ?_
  · rintro w ⟨-, rfl⟩
    exact .inr ((hge w).1 h)
  refine (spec_casDirty j {w | w = old &&& 0xFFFFFFFFFFFFFF00#64 ∧ w = next} next hr ?_
    (not_le.1 fun h' => h ((hge next).2 h'))).bind fun _ => .ret fun s ⟨ha, hw⟩ => ha.warned (hw.mono ?_)
  · rintro w ⟨rfl, rfl⟩
    exact ⟨hclean old, hclean old⟩
  · rintro w ⟨⟨-, rfl⟩, hne⟩
    exact absurd rfl hne

theorem spec_warnAll (hr : r % 2 = 0) (hsmall : r < 2 ^ 31) :
    Spec heapmem i r (Reached r X) (Prog.forEach (warn (BitVec.ofNat 64 r <<< 8) (BitVec.ofNat 64 r <<< 8 ||| 1#64))
      (List.finRange n)) r fun _ => Reached r fun x => X x ∨ ∃ j, x = .dirty j := by
  refine (Spec.forEach (J := fun js => Reached r fun x => X x ∨ ∃ j ∉ js, x = .dirty j) (fun j js => ?_)
    (List.finRange n)).mono (fun s h => h.mono ?_) fun _ s h => h.mono ?_
  · refine (spec_warn j hr hsmall).mono (fun _ h => h) fun _ s h => h.mono ?_
    rintro x (hx | ⟨k, hk, rfl⟩)
    · exact .inl (.inl hx)
    · by_cases e : k = j
      · exact .inr (e ▸ rfl)
      · exact .inl (.inr ⟨k, fun hmem => hk ((List.mem_cons.1 hmem).resolve_left e), rfl⟩)
  · rintro x (hx | ⟨j, hj, rfl⟩)
    · exact hx
    · exact absurd (List.mem_finRange j) hj
  · rintro x (hx | ⟨j, rfl⟩)
    · exact .inl hx
    · exact .inr ⟨j, List.not_mem_nil, rfl⟩

/-- A step that changes nothing, of a thread whose warnings have arrived. -/
theorem spec_warned {ev : Option Ev} {f : Mem n → α} (hev : Ev.isStale ev = false) (hr : 0 < r) (hX : ∀ j, X (.dirty j)) :
    Spec heapmem i r (Reached r X) (Prog.step (fun _ => ev) id fun s => Prog.ret (f s)) r fun _ => Reached r X := by
  refine .step (rising_reached _ _) fun s hI hv ha => ⟨⟨hev, fun _ => ⟨hv ▸ hr, fun j => hv ▸ ha.2 _ (hX j)⟩, hI,
    ⟨le_rfl, fun _ => le_rfl, fun _ => .inl rfl⟩, fun _ _ => rfl⟩, fun w e => ?_⟩
  have e : w.mem = s := e
  exact ⟨e ▸ hv, e ▸ ha⟩

theorem spec_readHPs {HPlocal : List Ptr} {j : Fin n} (hr : 0 < r) (hX : ∀ j, X (.dirty j)) :
    Spec heapmem i r (Reached r X) (readHPs HPlocal j) r fun _ => Reached r X :=
  (spec_warned rfl hr hX).bind fun _ => (spec_warned rfl hr hX).bind fun _ => (spec_warned rfl hr hX).bind fun _ =>
    .ret fun _ h => h

/-- What `Reclamation` leaves: on an early exit every number, otherwise those of the head and the warnings. -/
def Reclaimed (heapmem : List Nat) (r : Nat) : Option (List Ptr) → Mem n → Prop
  | none => Reached r (Which.Counted heapmem)
  | some _ => fun s => r < 2 ^ 31 ∧ Reached r (fun x => x = .head ∨ ∃ j, x = .dirty j) s

theorem spec_Reclamation (hq : q % 2 = 0) :
    Spec heapmem i q (Reached q (Which.Counted heapmem)) (Reclamation i fuel) (q + 2) (Reclaimed heapmem (q + 2)) := by
  unfold Reclamation
  refine .localVer (rising_reached _ _) ?_
  refine Spec.bind (m := q) (B := fun _ => Reached (q + 2) fun _ => False) ?_ fun _ =>
    Spec.defined.bind fun _ => .fact (fun s h => h.1) fun hsmall => .mono (A := Reached (q + 2) fun _ => False) ?_
      (fun s h => h.2) fun _ _ h => h
  · refine .cas (rising_reached _ _) (fun s hI hv ha hok => ?_) fun s hI hv ha hno => ?_
    · have hall : ∀ x : Which n, x.Counted heapmem → stamp s x = q := fun x hx => by
        have hle := ha.2 x hx
        rcases hI.near x hx with e | e <;> omega
      refine ⟨⟨rfl, nofun, ⟨hI.chunks, hI.small, ?_, hI.ver, fun x hx => ?_, fun j => ?_, hI.localVer_le_head,
        hI.localVer_even⟩, ⟨?_, fun x => ?_, fun j => .inl rfl⟩, fun _ _ => rfl⟩, hv, le_rfl, fun _ => False.elim⟩
      · dsimp only
        omega
      · have hx' : stamp { s with phase := q + 2 } x = stamp s x := by cases x <;> rfl
        exact .inr (by rw [hx', hall x hx])
      · exact (hI.localVer_le j).trans (by dsimp only; omega)
      · dsimp only
        omega
      · cases x <;> exact le_rfl
    · have hle := hI.localVer_le i
      have heven := hI.even
      exact ⟨by omega, fun _ => False.elim⟩
  refine (spec_resetHead hq hsmall).bind fun _ => ?_
  refine Spec.bind (m := q + 2) (B := fun _ => Reached (q + 2) (· = .head)) ?_ fun _ => ?_
  · refine .step (rising_reached _ _) fun s hI hv ha => ?_
    have hself : ((s.setLocal i fun l => { l with localVer := l.localVer + 2 }).locals i).localVer = q + 2 := by
      simp only [Mem.setLocal, Function.update_self, hv]
    have hother : ∀ j, j ≠ i →
        (s.setLocal i fun l => { l with localVer := l.localVer + 2 }).locals j = s.locals j :=
      fun j hj => Function.update_of_ne hj ..
    refine ⟨⟨rfl, nofun, ⟨hI.chunks, fun j => ?_, hI.even, hI.ver, hI.near, fun j => ?_, fun j => ?_, fun j => ?_⟩,
      ⟨le_rfl, fun _ => le_rfl, fun _ => .inl rfl⟩, fun j hj => by rw [hother j hj]⟩, fun w e => ⟨e ▸ hself, e ▸ ha⟩⟩
    · by_cases hj : j = i
      · rw [hj, hself]
        exact hsmall
      · rw [hother j hj]
        exact hI.small j
    · by_cases hj : j = i
      · rw [hj, hself]
        exact ha.1
      · rw [hother j hj]
        exact hI.localVer_le j
    · by_cases hj : j = i
      · rw [hj, hself]
        exact ha.2 .head rfl
      · rw [hother j hj]
        exact hI.localVer_le_head j
    · by_cases hj : j = i
      · rw [hj, hself]
        omega
      · rw [hother j hj]
        exact hI.localVer_even j
  refine .localVer (rising_reached _ _) ?_
  refine Spec.bind (m := q + 2) (B := fun phase s => (phase ≠ q + 2 → Reached (q + 2) (Which.Counted heapmem) s) ∧
    Reached (q + 2) (· = .head) s) ?_ fun phase => .ite (fun hne => ?_) fun heq => ?_
  · refine .load (rising_reached _ _) fun s hI _ ha => ⟨fun hne => hI.reached ?_, ha⟩
    have heven := hI.even
    have hle := ha.1
    omega
  · exact .ret fun s h => h.1 hne
  · refine Spec.bind (m := q + 2) (B := fun _ => Reached (q + 2) fun x => x = .head ∨ ∃ j, x = .dirty j)
      (.mono (spec_warnAll (by omega) hsmall) (fun s h => h.2) fun _ _ h => h) fun _ => ?_
    have hX (j : Fin n) : Which.dirty j = .head ∨ ∃ k, Which.dirty j = .dirty k := .inr ⟨j, rfl⟩
    refine Spec.bind (m := q + 2) (fun w hw => Proto.wp_foldEach (fun _ _ => At i (q + 2) (Reached (q + 2) _))
      (fun _ j _ w hw => spec_readHPs (Nat.succ_pos _) hX w hw) _ _ hw) fun HPlocal => ?_
    exact (spec_warned (f := fun _ => ()) rfl (Nat.succ_pos _) hX).bind fun _ => .ret fun _ h => ⟨hsmall, h⟩

theorem stamp_setMarks (s : Mem n) (h : Nat) (v : Nat) : stamp (s.setMarks h (Stamp.empty v)) (.mark h) = v % 2 ^ 32 := by
  simp only [stamp, Mem.setMarks, Function.update_self, Stamp.hi_empty]

theorem spec_clearWord {h : Nat} (hh : IsHeader heapmem h) (hr : r % 2 = 0) (hsmall : r < 2 ^ 31) :
    Spec heapmem i r (Reached r X)
      (clearWord fuel (·.marks h) (fun w s => s.setMarks h w) (Stamp.empty r)) r fun _ =>
      Reached r fun x => X x ∨ x = .mark h := by
  have hmod : r % 2 ^ 32 = r := Nat.mod_eq_of_lt (by omega)
  refine Spec.iter (J := fun _ => Reached r X) (fun _ => ?_) _ ()
  refine Spec.bind (m := r) (B := fun old s => Reached r X s ∧ Stamp.hi old ≤ stamp s (.mark h))
    (.load (rising_reached _ _) fun s _ _ ha => ⟨ha, le_rfl⟩) fun old => .ite (fun hge => ?_) fun hlt => ?_
  · refine .ret fun s ⟨ha, hle⟩ => ⟨ha.1, ?_⟩
    have hge := Stamp.empty_le_iff.1 hge
    rintro x (hx | rfl)
    · exact ha.2 x hx
    · omega
  · refine Spec.bind (m := r) (B := fun ok : Bool => Reached r fun x => X x ∨ ok ∧ x = .mark h)
      (.cas ?_ (fun s hI hv ⟨ha, _⟩ hok => ?_) fun s _ _ ⟨ha, _⟩ _ => ha.mono fun x hx => ?_) fun ok => ?_
    · exact fun s s' hI hr h => ⟨rising_reached _ _ s s' hI hr h.1, h.2.trans (hr.stamp _)⟩
    · rw [ge_iff_le, Stamp.empty_le_iff, hmod] at hlt
      obtain ⟨hm, hr'⟩ := hI.renew (.mark h) none (s.setMarks h (Stamp.empty r)) hh ha hr
        (by simp only [stamp, hok]; omega) rfl rfl rfl rfl rfl hI.ver ((stamp_setMarks s h r).trans hmod)
        (fun y hy => by
          cases y with
          | mark k =>
            have hk : k ≠ h := fun e => hy (e ▸ rfl)
            simp only [stamp, Mem.setMarks, Function.update_of_ne hk]
          | _ => rfl) (fun _ _ => rfl) fun _ => nofun
      exact ⟨hm, hv, hr'.mono fun x hx => hx.imp_right And.right⟩
    · exact hx.resolve_right fun h => Bool.false_ne_true h.1
    · refine .ite (fun hok => .ret fun s h => h.mono fun x hx => hx.imp_right fun e => ⟨hok, e⟩) fun _ => ?_
      exact .ret fun s h => h.mono fun x hx => .inl hx

theorem spec_clearMarks (hr : r % 2 = 0) (hsmall : r < 2 ^ 31) :
    Spec heapmem i r (Reached r X) (clearMarks i fuel r) r fun _ =>
      Reached r fun x => X x ∨ ∃ h, IsHeader heapmem h ∧ x = .mark h := by
  let Q (Y : Nat → Prop) : World (Fin n) (Mem n) Ev Unit → Prop := At i r (Reached r fun x => X x ∨ ∃ h, Y h ∧ x = .mark h)
  have hclear : (proto heapmem).Triple i (Q fun _ => False) (clearMarks i fuel r) fun _ =>
      Q fun h => False ∨ IsHeader heapmem h := by
    refine triple_clearMarks (fun Y Z w hYZ hw => ⟨hw.1, hw.2.mono ?_⟩) (fun w hw => ?_) fun h hh Y => ?_
    · rintro x (hx | ⟨h, hh, rfl⟩)
      · exact .inl hx
      · exact .inr ⟨h, hYZ h hh, rfl⟩
    · have hload := Spec.load (q := r) (i := i) (f := (·.heapmem)) (B := fun chunks s => chunks = heapmem ∧
        Reached r (fun x => X x ∨ ∃ h, False ∧ x = .mark h) s) (rising_reached _ _) fun s hI _ ha => ⟨hI.chunks, ha⟩
      exact Proto.wp_mono (hload w hw) fun _ w hw => ⟨hw.2.1, hw.1, hw.2.2⟩
    · refine Proto.Triple.post (spec_clearWord hh hr hsmall) fun _ w hw => ⟨hw.1, hw.2.mono ?_⟩
      rintro x (hx | ⟨h', hh' | rfl, rfl⟩)
      · exact .inl (.inl hx)
      · exact .inl (.inr ⟨h', hh', rfl⟩)
      · exact .inr rfl
  refine fun w hw => Proto.wp_mono (hclear w ⟨hw.1, hw.2.mono ?_⟩) fun _ w hw => ⟨hw.1, hw.2.mono ?_⟩
  · rintro x (hx | ⟨h, hh, -⟩)
    · exact hx
    · cases hh
  · rintro x (hx | ⟨h, hh, rfl⟩)
    · exact .inl hx
    · exact .inr ⟨h, .inr hh, rfl⟩

theorem spec_resetSweepCounter (hr : r % 2 = 0) (hsmall : r < 2 ^ 31) :
    Spec heapmem i r (Reached r X) (resetSweepCounter i fuel) r fun _ => Reached r fun x => X x ∨ x = .sweep := by
  refine .localVer (rising_reached _ _) ?_
  refine Spec.iter (J := fun _ => Reached r X) (fun _ => ?_) _ ()
  refine Spec.bind (m := r) (B := fun old s => Reached r X s ∧ Stamp.hi old ≤ stamp s .sweep ∧
    (Stamp.hi old < r → Stamp.hi old + 2 = r)) (.load (rising_reached _ _) fun s hI _ ha =>
    ⟨ha, le_rfl, fun hlt => (hI.behind (x := .sweep) trivial ha.1 hr hlt).2⟩) fun old => ?_
  rw [phaseOf_eq]
  refine .ite (fun hge => .ret fun s ⟨ha, hle, _⟩ => ⟨ha.1, ?_⟩) fun hlt => .fact (fun s h => h.2.2) fun hbehind => ?_
  · rintro x (hx | rfl)
    · exact ha.2 x hx
    · exact le_trans hge hle
  have hlt : Stamp.hi old < r := not_le.1 hlt
  have hcheck : (Stamp.hi old : Int) = r - 2 := by
    have := hbehind hlt
    omega
  refine (Spec.check hcheck).bind fun _ => ?_
  refine Spec.bind (m := r) (B := fun ok : Bool => Reached r fun x => X x ∨ ok ∧ x = .sweep)
    (.cas ?_ (fun s hI hv ⟨ha, _⟩ hok => ?_) fun s _ _ ⟨ha, _⟩ _ => ha.mono fun x hx => ?_) fun ok => ?_
  · exact fun s s' hI hr h => ⟨rising_reached _ _ s s' hI hr h.1, h.2.1.trans (hr.stamp _), h.2.2⟩
  · have hself : stamp { s with sweep_counter := makeSC 0 r } .sweep = r := by
      simp only [stamp, makeSC_zero, Stamp.hi_empty]
      omega
    obtain ⟨hm, hr'⟩ := hI.renew .sweep none { s with sweep_counter := makeSC 0 r } trivial ha hr
      (by simp only [stamp, hok]; omega) rfl rfl rfl rfl rfl hI.ver hself
      (fun y hy => by cases y <;> first | rfl | exact absurd rfl hy) (fun _ _ => rfl) fun _ => nofun
    exact ⟨hm, hv, hr'.mono fun x hx => hx.imp_right And.right⟩
  · exact hx.resolve_right fun h => Bool.false_ne_true h.1
  · refine .ite (fun hok => .ret fun s h => h.mono fun x hx => hx.imp_right fun e => ⟨hok, e⟩) fun _ => ?_
    exact .ret fun s h => h.mono fun x hx => .inl hx

theorem spec_trace {HPs : List Ptr} (hr : r % 2 = 0) (hsmall : r < 2 ^ 31) :
    Spec heapmem i r (Reached r X) (trace i fuel HPs) r fun _ => Reached r fun x => X x ∨ x = .sweep := by
  refine .localVer (rising_reached _ _) ?_
  refine (Spec.still (still_root obeys_traceRoots) (rising_reached _ _)).bind fun counter => ?_
  refine (Spec.still (obeys_foldEach (fun counter p => ?_) _ _) (rising_reached _ _)).bind fun counter => ?_
  · refine obeys_bind (obeys_check fun s => .refl rfl rfl s) fun _ => ?_
    exact obeys_bind (still_root (obeys_root 0 (obeys_setSlot _ _))) fun _ => trivial
  refine (Spec.still (still_root (obeys_root _ obeys_traceToEnd)) (rising_reached _ _)).bind fun _ => ?_
  exact spec_resetSweepCounter hr hsmall

/-! ## The pool -/

theorem still_freeAllocCache {p : Nat} : Obeys Still (freeAllocCache i p) :=
  obeys_bind (obeys_store fun s => (Still.refl rfl rfl s).setEntry p _) fun _ =>
    obeys_store fun s => .setLocal rfl rfl s

theorem still_readHead : Obeys Still (readHead : P n VerEntry) :=
  obeys_bind Still.load fun _ => obeys_bind Still.load fun _ => trivial

theorem still_pReturnCache {e : Nat} : Obeys Still (pReturnCache i fuel e) := by
  refine obeys_iter (fun _ => obeys_bind still_readHead fun old => obeys_bind Still.load fun localVer => ?_) _ _
  refine obeys_ite (fun _ => ?_) fun hver => ?_
  · exact obeys_bind (obeys_store fun s => (Still.refl rfl rfl s).setEntry e _) fun _ => trivial
  refine obeys_bind (obeys_store fun s => (Still.refl rfl rfl s).setEntry e _) fun _ => ?_
  refine obeys_bind (obeys_cas (fun s => .refl rfl rfl s) fun s hs => ?_) fun ok => obeys_ite (fun _ => trivial) fun _ => trivial
  subst hs
  exact (Still.setLocal rfl rfl s).setHead (v := ⟨some e, localVer⟩) (not_not.1 hver).symm

theorem still_startCache {obj : Ptr} : Obeys Still (startCache i obj) := by
  refine obeys_bind (obeys_bind Still.load fun p => ?_) fun e =>
    obeys_store fun s => (Still.setLocal rfl rfl s).setEntry e _
  cases p with
  | some p => exact obeys_bind (obeys_store fun s => .setLocal rfl rfl s) fun _ => trivial
  | none =>
    refine obeys_bind (obeys_step (fun s => ?_) fun _ => trivial) fun aec => ?_
    · split <;> exact { (Still.refl rfl rfl s : Still s none s) with event := rfl, warned := rfl }
    exact obeys_bind (obeys_check fun s => .refl rfl rfl s) fun _ => trivial

theorem still_setAsFree {obj : Ptr} : Obeys Still (setAsFree i fuel obj) := by
  refine obeys_bind Still.load fun cache => ?_
  cases cache with
  | some e =>
    refine obeys_bind Still.load fun free => obeys_ite (fun _ => ?_) fun _ => ?_
    · exact obeys_store fun s => (Still.refl rfl rfl s).setEntry e _
    · exact obeys_bind still_pReturnCache fun _ => still_startCache
  | none => exact still_startCache

theorem still_process_sweep_page {page_number : Nat} : Obeys Still (process_sweep_page i fuel page_number) := by
  refine obeys_bind Still.load fun page => obeys_bind (obeys_check fun s => .refl rfl rfl s) fun _ => ?_
  refine obeys_bind Still.load fun objSize => obeys_bind (obeys_check fun s => .refl rfl rfl s) fun _ => ?_
  refine obeys_bind (obeys_check fun s => .refl rfl rfl s) fun _ => obeys_forEach fun k _ => ?_
  refine obeys_bind Still.load fun mark_bits => obeys_forEach fun k _ => ?_
  exact obeys_ite (fun _ => still_setAsFree) fun _ => trivial

/-- Counting a page leaves the phase of the counter. -/
theorem hi_succ {w : U64} {m : Nat} (hw : scounter w < m) (hm : m < 2 ^ 32) : Stamp.hi (w + 1) = Stamp.hi w := by
  have := w.isLt
  simp only [scounter] at hw
  have hone : (w + 1).toNat = w.toNat + 1 := by
    rw [BitVec.toNat_add, show (1 : U64).toNat = 1 from rfl]
    omega
  rw [Stamp.hi, Stamp.hi, hone]
  omega

theorem still_takeSweepPage {num_sweep_pages phase : Nat} (hnum : num_sweep_pages < 2 ^ 32) :
    Obeys Still (takeSweepPage i fuel num_sweep_pages phase) := by
  refine obeys_iter (fun _ => obeys_bind Still.load fun lsweep => obeys_ite (fun _ => ?_) fun hleft => ?_) _ _
  · refine obeys_bind Still.load fun cache => ?_
    cases cache with
    | some e =>
      refine obeys_bind still_pReturnCache fun _ => ?_
      exact obeys_bind (obeys_store fun s => .setLocal rfl rfl s) fun _ => trivial
    | none => trivial
  · refine obeys_bind (obeys_cas (fun s => .refl rfl rfl s) fun s hs => ?_) fun _ => obeys_ite (fun _ => trivial) fun _ => trivial
    subst hs
    have hlt : scounter s.sweep_counter < num_sweep_pages := by
      rw [not_or, not_le] at hleft
      exact hleft.2
    exact { (Still.refl rfl rfl s : Still s none s) with event := rfl, warned := rfl, sweep := hi_succ hlt hnum }

theorem spec_sweep (hlen : heapmem.length ≤ maxChunks) (hA : Rising heapmem A) :
    Spec heapmem i q A (sweep i fuel) q fun _ => A := by
  refine (Spec.still (obeys_store fun s => .setLocal rfl rfl s) hA).bind fun _ => ?_
  refine Spec.bind (m := q) (B := fun num s => num < 2 ^ 32 ∧ A s) (.load hA fun s hI _ ha => ⟨?_, ha⟩) fun num =>
    .fact (fun s h => h.1) fun hnum => ?_
  · have hpages : sweepPagesPerChunk = 8 := by decide
    have hmax : maxChunks = 20 := rfl
    rw [hI.chunks, hpages]
    omega
  refine (Spec.still ?_ hA).mono (fun s h => h.2) fun _ _ h => h
  refine obeys_bind Still.load fun phase => obeys_iter (fun _ => obeys_bind (still_takeSweepPage hnum) fun page => ?_) _ _
  cases page with
  | none => trivial
  | some page => exact obeys_bind still_process_sweep_page fun _ => trivial

/-- The part of a collection after `Reclamation`. -/
theorem spec_reclaimed (hlen : heapmem.length ≤ maxChunks) (hr : r % 2 = 0) (HPlocal : Option (List Ptr)) :
    Spec heapmem i r (Reclaimed heapmem r HPlocal) (match HPlocal with
      | none => Prog.ret ()
      | some HPlocal => do
        let localVer ← Prog.load fun s => (s.locals i).localVer
        clearMarks i fuel localVer
        clearRootsMark i fuel
        trace i fuel HPlocal
        let gsc ← Prog.load (·.sweep_counter)
        Prog.check (phaseOf gsc ≥ localVer) (.assertFailed .gscPhase)
        sweep i fuel) r fun _ => Reached r (Which.Counted heapmem) := by
  cases HPlocal with
  | none => exact .ret fun _ h => h
  | some HPlocal =>
    refine .fact (fun s h => h.1) fun hsmall => .mono (A := Reached r _) ?_ (fun s h => h.2) fun _ _ h => h
    refine .localVer (rising_reached _ _) ?_
    refine (spec_clearMarks hr hsmall).bind fun _ => ?_
    refine (Spec.still (still_root obeys_clearRootsMark) (rising_reached _ _)).bind fun _ => ?_
    refine (spec_trace hr hsmall).bind fun _ => ?_
    refine Spec.bind (m := r) (B := fun gsc s => phaseOf gsc ≥ r ∧ Reached r (Which.Counted heapmem) s)
      (.load (rising_reached _ _) fun s _ _ ha => ⟨?_, ha.mono ?_⟩) fun gsc => .fact (fun s h => h.1) fun hgsc => ?_
    · rw [phaseOf_eq]
      exact ha.2 .sweep (.inr rfl)
    · intro x hx
      cases x with
      | head => exact .inl (.inl (.inl rfl))
      | sweep => exact .inr rfl
      | dirty j => exact .inl (.inl (.inr ⟨j, rfl⟩))
      | mark h => exact .inl (.inr ⟨h, hx, rfl⟩)
    · refine (Spec.check hgsc).bind fun _ => ?_
      exact (spec_sweep hlen (rising_reached _ _)).mono (fun s h => h.2) fun _ _ h => h

/-- A thread leaves a collection with every number at least its own. -/
theorem spec_triggerCollection (hlen : heapmem.length ≤ maxChunks) (hq : q % 2 = 0) :
    Spec heapmem i q (Reached q (Which.Counted heapmem)) (triggerCollection i fuel) (q + 2) fun _ =>
      Reached (q + 2) (Which.Counted heapmem) := by
  have hr : (q + 2) % 2 = 0 := by omega
  refine (Spec.still Still.load (rising_reached _ _)).bind fun cache => ?_
  cases cache with
  | some p =>
    refine (Spec.still still_freeAllocCache (rising_reached _ _)).bind fun _ => ?_
    exact (spec_Reclamation hq).bind (spec_reclaimed hlen hr)
  | none => exact (spec_Reclamation hq).bind (spec_reclaimed hlen hr)

/-! ## Between collections -/

/-- No number is behind that of thread `i`. -/
def Ready (heapmem : List Nat) (i : Fin n) (w : World (Fin n) (Mem n) Ev Unit) : Prop :=
  ∃ q, q % 2 = 0 ∧ At i q (Reached q (Which.Counted heapmem)) w

def Serves (heapmem : List Nat) (i : Fin n) (p : P n α) : Prop :=
  ∀ w, Ready heapmem i w → (proto heapmem).wp i p (fun _ => Ready heapmem i) w

theorem Serves.ret {a : α} : Serves heapmem i (Prog.ret a : P n α) := fun _ h => h

theorem Serves.still {p : P n α} (hp : p.Obeys Still) : Serves heapmem i p := by
  rintro w ⟨q, hq, hw⟩
  exact Proto.wp_mono (Spec.still hp (rising_reached _ _) w hw) fun _ _ h => ⟨q, hq, h⟩

theorem Serves.bind {p : P n α} {f : α → P n β} (hp : Serves heapmem i p) (hf : ∀ a, Serves heapmem i (f a)) :
    Serves heapmem i (p >>= f) :=
  fun w hw => Proto.wp_bind.2 (Proto.wp_mono (hp w hw) fun a w' h => hf a w' h)

theorem Serves.ite {c : Prop} [Decidable c] {p p' : P n α} (hp : Serves heapmem i p) (hp' : Serves heapmem i p') :
    Serves heapmem i (if c then p else p') := by
  split
  · exact hp
  · exact hp'

theorem Serves.iter {body : β → P n (β ⊕ α)} (h : ∀ b, Serves heapmem i (body b)) (fuel : Nat) (b : β) :
    Serves heapmem i (Prog.iter body fuel b) := by
  intro w hw
  refine Proto.wp_iter (fun _ => Ready heapmem i) (fun b w hw => ?_) fuel b hw
  refine Proto.wp_mono (h b w hw) fun x w' h => ?_
  cases x with
  | inl b => exact h
  | inr a => exact h

theorem Serves.forEach {body : β → P n Unit} (h : ∀ b, Serves heapmem i (body b)) (bs : List β) :
    Serves heapmem i (Prog.forEach body bs) :=
  fun _ hw => Proto.wp_forEach (fun _ => Ready heapmem i) (fun b _ w hw => h b w hw) bs hw

theorem serves_triggerCollection (hlen : heapmem.length ≤ maxChunks) : Serves heapmem i (triggerCollection i fuel) := by
  rintro w ⟨q, hq, hw⟩
  exact Proto.wp_mono (spec_triggerCollection hlen hq w hw) fun _ _ h => ⟨q + 2, by omega, h⟩

theorem serves_helpCollection (hlen : heapmem.length ≤ maxChunks) : Serves heapmem i (helpCollection i fuel) := by
  refine (Serves.still Still.load).bind fun localVer => (Serves.still Still.load).bind fun phase => ?_
  exact .ite (serves_triggerCollection hlen) .ret

theorem still_pop {ver : Nat} : Obeys Still (pop fuel ver : P n Popped) := by
  refine obeys_iter (fun _ => obeys_bind still_readHead fun ⟨head, v⟩ => ?_) _ _
  refine obeys_ite (fun _ => trivial) fun _ => ?_
  cases head with
  | none => trivial
  | some e =>
    refine obeys_bind Still.load fun next => ?_
    refine obeys_bind (obeys_cas (fun s => .refl rfl rfl s) fun s hs => ?_) fun _ => obeys_ite (fun _ => trivial) fun _ => trivial
    exact (Still.refl rfl rfl s).setHead (congrArg VerEntry.ver hs).symm

theorem still_pallocCached : Obeys Still (pallocCached i) := by
  refine obeys_bind Still.load fun cache => ?_
  cases cache with
  | none => trivial
  | some e =>
    refine obeys_bind Still.load fun free => obeys_ite (fun _ => ?_) fun _ => ?_
    · refine obeys_bind Still.load fun localVer => obeys_bind (obeys_step (fun s => ?_) fun _ => trivial) fun _ => trivial
      exact (Still.refl rfl rfl s).setEntry e _
    · exact obeys_bind still_freeAllocCache fun _ => trivial

theorem serves_pallocRefill (hlen : heapmem.length ≤ maxChunks) : Serves heapmem i (pallocRefill i fuel) := by
  have htrigger (iter : Nat) : Serves heapmem i (do
      triggerCollection i fuel
      if ← Prog.load fun s => (s.dirties i).dirty then return .inr (some NULL)
      else
        let cache ← Prog.load fun s => (s.locals i).alloc_cache
        Prog.check (cache = none) (.assertFailed .noCache)
        Prog.check (iter < 100) (.assertFailed .outOfMemory)
        return .inl (iter + 1) : P n (Nat ⊕ Option Ptr)) := by
    refine (serves_triggerCollection hlen).bind fun _ => (Serves.still Still.load).bind fun dirty => .ite .ret ?_
    refine (Serves.still Still.load).bind fun cache => ?_
    refine (Serves.still (obeys_check fun s => .refl rfl rfl s)).bind fun _ => ?_
    exact (Serves.still (obeys_check fun s => .refl rfl rfl s)).bind fun _ => .ret
  refine .iter (fun iter => (Serves.still Still.load).bind fun localVer => (Serves.still still_pop).bind fun r => ?_) _ _
  cases r with
  | entry e =>
    refine (Serves.still (obeys_store fun s => .setLocal rfl rfl s)).bind fun _ => ?_
    exact (Serves.still (obeys_store fun s => (Still.refl rfl rfl s).setEntry e _)).bind fun _ => .ret
  | recycleNeeded => exact htrigger iter
  | null => exact htrigger iter

theorem serves_palloc (hlen : heapmem.length ≤ maxChunks) : Serves heapmem i (palloc i fuel) := by
  refine .iter (fun _ => (Serves.still still_pallocCached).bind fun obj => ?_) _ _
  cases obj with
  | some obj => exact .ret
  | none =>
    refine (serves_pallocRefill hlen).bind fun obj => ?_
    cases obj with
    | some obj => exact .ret
    | none => exact .ret

theorem still_cleanDirty {e : Option Ev} (he : Ev.isStale e = false) (hw : Ev.isWarned e = false) :
    Obeys Still (cleanDirty i e) :=
  obeys_step (fun s => .setDirty he hw s (.inr rfl)) fun _ => trivial

theorem serves_serve (hlen : heapmem.length ≤ maxChunks) (request : Request) : Serves heapmem i (serve i fuel request) := by
  cases request with
  | palloc => exact (serves_palloc hlen).bind fun _ => .ret
  | helpCollection => exact serves_helpCollection hlen
  | cleanDirty => exact .still (still_cleanDirty rfl rfl)
  | CHECK =>
    refine Serves.bind (.bind (.still (obeys_watch fun s => ?_)) fun dirty => .ite ?_ .ret) fun _ => .ret
    · split <;> exact .refl rfl rfl s
    · exact (Serves.still (still_cleanDirty rfl rfl)).bind fun _ => (serves_helpCollection hlen).bind fun _ =>
        (Serves.still (still_cleanDirty rfl rfl)).bind fun _ => .ret
  | FENCE_CHECK newEntry =>
    refine Serves.bind (.bind (.still (obeys_step (fun s => ?_) fun _ => trivial)) fun dirty => .ite ?_ .ret) fun _ => .ret
    · split <;> exact .setDirty rfl rfl s (.inr rfl)
    · have hHP (k : Nat) : Obeys Still (setHP i k NULL) := obeys_store fun s => .setDirty rfl rfl s (.inl rfl)
      refine (Serves.still (obeys_bind (hHP 2) fun _ => obeys_bind (hHP 1) fun _ => hHP 0)).bind fun _ => ?_
      exact (serves_helpCollection hlen).bind fun _ => (Serves.still (still_cleanDirty rfl rfl)).bind fun _ => .ret
  | setHP k p => exact .still (obeys_store fun s => .setDirty rfl rfl s (.inl rfl))
  | setWord w p =>
    refine .still (obeys_store fun s => ?_)
    cases w with
    | root r k => exact { (Still.refl rfl rfl s : Still s none s) with }
    | next a => exact { (Still.refl rfl rfl s : Still s none s) with }
  | setKeyData a kd => exact .still (obeys_store fun s => { (Still.refl rfl rfl s : Still s none s) with })

end Collection

/-! ## Every run -/

/-- `x` lies in `{p - 2, p}`, and is 0 while `p` is. -/
def Close (p x : Int) : Prop := (x = p - 2 ∨ x = p) ∧ (p = 0 → x = 0)

structure Together (s : Mem n) : Prop where
  head : Close s.phase s.head.ver
  sweep : Close s.phase (phaseOf s.sweep_counter)
  dirty : ∀ j, Close s.phase ((s.dirties j).dirtyNphase >>> 8).toNat
  marks : ∀ h, IsHeader s.heapmem h → Close s.phase (s.marks h >>> 32).toNat
  localVer : ∀ i, (s.locals i).localVer ≤ s.phase

theorem Near.close {p x : Nat} (h : Near p x) : Close p x := by
  unfold Close
  rcases h with e | e <;> omega

theorem Inv.together (h : Inv heapmem s) : Together s where
  head := by
    have hver := Int.toNat_of_nonneg h.ver
    exact hver ▸ (h.near .head trivial).close
  sweep := by
    rw [phaseOf_eq]
    exact (h.near .sweep trivial).close
  dirty := fun j => by
    rw [BitVec.toNat_ushiftRight, Nat.shiftRight_eq_div_pow]
    exact (h.near (.dirty j) trivial).close
  marks := fun a ha => by
    rw [BitVec.toNat_ushiftRight, Nat.shiftRight_eq_div_pow]
    exact (h.near (.mark a) (h.chunks ▸ ha)).close
  localVer := h.localVer_le

theorem inv_init (heapmem rootLen : List Nat) : Inv heapmem (init_allocator n heapmem rootLen) := by
  obtain ⟨entries, head, e⟩ := init_allocator_eq (n := n) heapmem rootLen
  rw [e]
  refine ⟨rfl, fun _ => Nat.two_pow_pos 31, rfl, le_rfl, fun x _ => .inl ?_, fun _ => le_rfl, fun _ => le_rfl, fun _ => rfl⟩
  cases x <;> simp [stamp, zeroMem, Stamp.hi]

variable {rootLen : List Nat} {fuel : Fin n → Nat} {requests : Fin n → List Request} {c : Cfg (Fin n) (Mem n) Ev}

/-- The invariant holds before and after every step of every run. -/
theorem reach_inv (hlen : heapmem.length ≤ maxChunks)
    (hreach : Cfg.Reach (initCfg n heapmem rootLen fuel requests) c) :
    Inv heapmem c.mem ∧ Along (fun _ r => Inv heapmem r.pre ∧ Moves heapmem r.tid r.pre r.ev r.post) c.log := by
  have hthr (i : Fin n) : (proto heapmem).wp i (mutator i (fuel i) (requests i)) (fun _ _ => True)
      ⟨init_allocator n heapmem rootLen, [], ()⟩ := by
    refine Proto.wp_mono (Serves.forEach (serves_serve hlen) (requests i) _ ⟨0, rfl, ?_, ?_⟩) fun _ _ _ => trivial
    · obtain ⟨entries, head, e⟩ := init_allocator_eq (n := n) heapmem rootLen
      rw [e]
      rfl
    · exact ⟨Nat.zero_le _, fun _ _ => Nat.zero_le _⟩
  have hinit : (proto (n := n) heapmem).inv ⟨init_allocator n heapmem rootLen, [], ()⟩ := ⟨inv_init heapmem rootLen, trivial⟩
  obtain ⟨_, h⟩ := Proto.adequacy hinit hthr hreach (Proto.allowed_of_forall _ (fun _ _ => trivial) c.log)
  exact h

/-- In every run of any number of threads the numbers stay within one collection of the phase, and
no thread fails an assertion about them. -/
theorem reach_together (hlen : heapmem.length ≤ maxChunks)
    (hreach : Cfg.Reach (initCfg n heapmem rootLen fuel requests) c) :
    Together c.mem ∧
      ∀ r ∈ c.log, r.ev ≠ some (.assertFailed .sweepPhase) ∧ r.ev ≠ some (.assertFailed .gscPhase) := by
  obtain ⟨hI, hlog⟩ := reach_inv hlen hreach
  refine ⟨hI.together, fun r hr => ?_⟩
  have hevent := (hlog.of_mem hr).2.event
  refine ⟨fun e => ?_, fun e => ?_⟩
  · rw [e] at hevent
    cases hevent
  · rw [e] at hevent
    cases hevent

/-- Two threads that allocate in turn from a heap of one chunk. -/
theorem reach_together_palloc :
    Together ((initCfg 2 [chunkSize] [1] (fun _ => 9) fun _ => [.palloc, .helpCollection]).exec
      (List.finRange 2 ++ List.finRange 2 ++ List.finRange 2 ++ List.finRange 2)).mem :=
  (reach_together (by decide) ⟨_, rfl⟩).1

end OptimisticAccess.AOA.Stamps
