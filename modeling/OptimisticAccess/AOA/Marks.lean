import OptimisticAccess.AOA.Clear
import OptimisticAccess.AOA.Mutator
import OptimisticAccess.Conc.Frame

/-!
# The mark table

Threads that clear and mark as they please, for any phases and from any state of the table. Each
word only grows, a call leaves the words of newer phases alone, and a bit is set once in a phase.
-/

namespace OptimisticAccess.AOA.Marks

open Conc Prog

variable {n : Nat}

/-- `mark`; what is `mark` here is `__mark` there. -/
def markPtr (fuel : Nat) (ptr : Ptr) (localPhase : U64) : P n Bool := do
  let h_ptr := markWord ptr.addr
  let mask := markMask ptr.addr
  let old ← load (·.marks h_ptr)
  if old &&& mask != 0#64 then return false
  else mark fuel h_ptr mask old localPhase

/-- The calls that write the mark table. -/
inductive Call (n : Nat) where
  | clearMarks (tid : Fin n) (phaseNum : Nat)
  | mark (ptr : Ptr) (phaseNum : Nat)
  | traceObj (tid : Fin n) (cur : Ptr) (counter : Nat) (phaseNum : Nat)

def Call.phaseNum : Call n → Nat
  | clearMarks _ v | mark _ v | traceObj _ _ _ v => v

def make (fuel : Nat) (call : Call n) : P n Unit := do
  emit (.marking call.phaseNum)
  match call with
  | .clearMarks tid v => do
    clearMarks tid fuel v
    emit (.cleared v)
  | .mark ptr v => do
    let _ ← markPtr fuel ptr (makeSC 0 v)
  | .traceObj tid cur counter v => do
    let _ ← traceObj tid fuel cur counter (makeSC 0 v)

/-- The threads at their start, in any state of the memory. -/
def initCfg (mem : Mem n) (fuel : Fin n → Nat) (calls : Fin n → List (Call n)) : Cfg (Fin n) (Mem n) Ev :=
  .init mem fun i => forEach (make (fuel i)) (calls i)

/-- The phase of a call. -/
def phaseOfCall : Ev → Option Nat
  | .marking v => some v
  | _ => none

/-- What a step does to the table, seen with the steps before it. -/
structure Stamped (heapmem : List Nat) (log : List (Rec (Fin n) (Mem n) Ev)) (r : Rec (Fin n) (Mem n) Ev) : Prop where
  grows : ∀ h, r.pre.marks h ≤ r.post.marks h
  newer : ∀ h, r.post.marks h ≠ r.pre.marks h →
    ∃ v, lastCall phaseOfCall r.tid log = some v ∧ Stamp.hi (r.pre.marks h) ≤ v
  cleared : ∀ v, r.ev = some (.cleared v) → ∀ h, IsHeader heapmem h → v ≤ Stamp.hi (r.pre.marks h)
  once : ∀ h mask, r.ev = some (.bitSet h mask) →
    lastCall phaseOfCall r.tid log = some (Stamp.hi (r.pre.marks h)) ∧
    ∀ r' ∈ log, r'.ev = some (.bitSet h mask) → Stamp.hi (r'.pre.marks h) ≠ Stamp.hi (r.pre.marks h)
  stays : ∀ r' ∈ r :: log, ∀ h mask, r'.ev = some (.bitSet h mask) →
    Stamp.hi (r.post.marks h) = Stamp.hi (r'.pre.marks h) → r.post.marks h &&& mask ≠ 0#64

/-! ## Steps -/

/-- The events of a call itself. -/
def Ev.isCall : Option Ev → Bool
  | some (.marking _) | some (.cleared _) | some (.bitSet ..) => true
  | _ => false

/-- A step within a call for phase `v`. -/
inductive Step (v : Nat) : Mem n → Option Ev → Mem n → Prop
  | same {s s' : Mem n} {e : Option Ev} (he : Ev.isCall e = false) (hmarks : s'.marks = s.marks)
    (hchunks : s'.heapmem = s.heapmem) : Step v s e s'
  | set {s : Mem n} (h k : Nat) (hk : k < 32) (hphase : Stamp.hi (s.marks h) = v)
    (hclear : (s.marks h).getLsbD k = false) :
    Step v s (some (.bitSet h (Stamp.bit k))) (s.setMarks h (s.marks h ||| Stamp.bit k))
  | renew {s : Mem n} (h : Nat) (hold : ¬ Stamp.empty v ≤ s.marks h) : Step v s none (s.setMarks h (Stamp.empty v))

section Obeys

variable {v : Nat} {i : Fin n} {fuel : Nat} {α : Type}

theorem Step.load {f : Mem n → α} : Obeys (Step v) (load f) := obeys_load fun _ => .same rfl rfl rfl

theorem obeys_setSlot {k : Nat} {p : Ptr} : Obeys (Step v) (setSlot i k p) := obeys_store fun _ => .same rfl rfl rfl

theorem obeys_casMark {h k : Nat} (hk : k < 32) {old : U64} (hv : v < 2 ^ 32) (hphase : isCurPhase old (makeSC 0 v))
    (hclear : old &&& Stamp.bit k = 0#64) : Obeys (Step v) (casMark (n := n) h (Stamp.bit k) old) := by
  refine obeys_cas (fun _ => .same rfl rfl rfl) fun s hs => ?_
  subst hs
  rw [makeSC_zero, isCurPhase_empty, Nat.mod_eq_of_lt hv] at hphase
  exact .set h k hk hphase ((Stamp.and_bit_eq_zero (by omega)).1 hclear)

/-- `__mark` of a word that did not have the bit. -/
theorem obeys_mark {h k : Nat} (hk : k < 32) {old : U64} (hv : v < 2 ^ 32) (hclear : old &&& Stamp.bit k = 0#64) :
    Obeys (Step v) (mark (n := n) fuel h (Stamp.bit k) old (makeSC 0 v)) := by
  unfold mark
  refine obeys_ite (fun _ => trivial) fun hcur => ?_
  refine obeys_bind (obeys_casMark hk hv (by simpa using hcur) hclear) fun _ => ?_
  refine obeys_ite (fun _ => trivial) fun _ => obeys_iter (fun _ => ?_) _ _
  refine obeys_bind Step.load fun old => obeys_ite (fun _ => trivial) fun hclear => ?_
  refine obeys_ite (fun _ => trivial) fun hcur => ?_
  refine obeys_bind (obeys_casMark hk hv (by simpa using hcur) (by simpa using hclear)) fun _ => ?_
  exact obeys_ite (fun _ => trivial) fun _ => trivial

theorem obeys_traceObj {cur : Ptr} {counter : Nat} (hv : v < 2 ^ 32) :
    Obeys (Step v) (traceObj i fuel cur counter (makeSC 0 v)) := by
  unfold traceObj
  have hbit := markBit_lt cur.addr
  refine obeys_bind Step.load fun old => obeys_ite (fun _ => trivial) fun hclear => ?_
  have hclear : old &&& Stamp.bit (markBit cur.addr) = 0#64 := by simpa [markMask] using hclear
  refine obeys_bind (obeys_step (fun _ => .same rfl rfl rfl) fun _ => trivial) fun _ => ?_
  refine obeys_bind Step.load fun nxt => obeys_ite (fun _ => ?_) fun _ => ?_
  · exact obeys_bind (obeys_mark hbit hv hclear) fun _ => trivial
  · refine obeys_bind obeys_setSlot fun _ => obeys_bind (obeys_mark hbit hv hclear) fun _ => ?_
    exact obeys_ite (fun _ => trivial) fun _ => obeys_bind obeys_setSlot fun _ => trivial

end Obeys

/-! ## The invariant -/

abbrev W (n : Nat) := World (Fin n) (Mem n) Ev Unit

/-- What has become of the bits that were set. -/
def Kept (w : W n) : Prop :=
  ∀ r ∈ w.log, ∀ h mask, r.ev = some (.bitSet h mask) →
    ∃ k < 32, mask = Stamp.bit k ∧ Stamp.Grow (r.pre.marks h ||| mask) (w.mem.marks h)

def proto (heapmem : List Nat) : Proto (Fin n) (Mem n) Ev Unit where
  inv w := w.mem.heapmem = heapmem ∧ Along (Stamped heapmem) w.log ∧ Kept w
  act i w w' := (∀ h, Stamp.Grow (w.mem.marks h) (w'.mem.marks h)) ∧
    ∀ j, j ≠ i → lastCall phaseOfCall j w'.log = lastCall phaseOfCall j w.log

/-- Thread `i` is in a call for phase `v`, and the words `X` have come to `v`. -/
def In (i : Fin n) (v : Nat) (X : Nat → Prop) (w : W n) : Prop :=
  lastCall phaseOfCall i w.log = some v ∧ ∀ h, X h → v ≤ Stamp.hi (w.mem.marks h)

variable {heapmem : List Nat} {i : Fin n} {v : Nat} {X : Nat → Prop} {w : W n} {fuel : Nat} {e : Option Ev} {s' : Mem n}

theorem In.mono {Y : Nat → Prop} (h : In i v X w) (hY : ∀ x, Y x → X x) : In i v Y w := ⟨h.1, fun x hx => h.2 x (hY x hx)⟩

theorem Kept.stays (h : Kept w) {r : Rec (Fin n) (Mem n) Ev} (hr : r ∈ w.log) {a : Nat} {mask : U64}
    (hev : r.ev = some (.bitSet a mask)) (hhi : Stamp.hi (w.mem.marks a) = Stamp.hi (r.pre.marks a)) :
    w.mem.marks a &&& mask ≠ 0#64 := by
  obtain ⟨k, hk, rfl, hgrow⟩ := h r hr a mask hev
  rw [Stamp.and_bit_ne_zero (by omega)]
  refine hgrow.2 ((Stamp.hi_or_bit hk).trans hhi.symm) k hk ?_
  rw [Stamp.getLsbD_or_bit (by omega)]
  simp

/-- A step keeps the invariant if the table grows and its event fits. -/
theorem acts (e : Option Ev) (s' : Mem n) (hI : (proto heapmem).inv w) (hchunks : s'.heapmem = w.mem.heapmem) (hgrow : ∀ h, Stamp.Grow (w.mem.marks h) (s'.marks h))
    (hle : ∀ h, w.mem.marks h ≤ s'.marks h)
    (hnewer : ∀ h, s'.marks h ≠ w.mem.marks h → ∃ v, lastCall phaseOfCall i w.log = some v ∧ Stamp.hi (w.mem.marks h) ≤ v)
    (hcleared : ∀ v, e = some (.cleared v) → ∀ h, IsHeader heapmem h → v ≤ Stamp.hi (w.mem.marks h))
    (hset : ∀ h mask, e = some (.bitSet h mask) → lastCall phaseOfCall i w.log = some (Stamp.hi (w.mem.marks h)) ∧
      ∃ k < 32, mask = Stamp.bit k ∧ (w.mem.marks h).getLsbD k = false ∧ s'.marks h = w.mem.marks h ||| mask) :
    (proto heapmem).inv (w.next i e s' ()) ∧ (proto heapmem).act i w (w.next i e s' ()) := by
  have hkept : Kept (w.next i e s' ()) := by
    intro r hr h mask hev
    rcases List.mem_cons.1 hr with rfl | hr
    · obtain ⟨-, k, hk, hmask, -, hpost⟩ := hset h mask hev
      exact ⟨k, hk, hmask, hpost ▸ Stamp.Grow.refl _⟩
    · obtain ⟨k, hk, hmask, hold⟩ := hI.2.2 r hr h mask hev
      exact ⟨k, hk, hmask, hold.trans (hgrow h)⟩
  refine ⟨⟨hchunks.trans hI.1, ⟨hI.2.1, hle, hnewer, hcleared, fun h mask hev => ?_, fun r hr h mask hev hhi => ?_⟩, hkept⟩, hgrow,
    fun j hj => lastCall_cons_of_ne fun e => hj e.symm⟩
  · obtain ⟨hcall, k, hk, rfl, hclear, -⟩ := hset h mask hev
    refine ⟨hcall, fun r hr hev' hhi => ?_⟩
    have hbit := hI.2.2.stays hr hev' hhi.symm
    rw [Stamp.and_bit_ne_zero (by omega), hclear] at hbit
    cases hbit
  · exact hkept.stays hr hev hhi

/-- Setting a bit or a newer phase makes a word greater. -/
theorem le_or (w b : U64) : w ≤ w ||| b := by
  rw [BitVec.le_def, BitVec.toNat_or]
  exact Nat.left_le_or

theorem empty_le_or_lt {w : U64} (h : ¬ Stamp.empty v ≤ w) : w ≤ Stamp.empty v := by
  rw [BitVec.le_def, not_le] at h
  exact h.le

/-- One word is written. -/
theorem write_word {R : U64 → U64 → Prop} (hrefl : ∀ w, R w w) {s : Mem n} {a : Nat} {x : U64} (hx : R (s.marks a) x) (h : Nat) :
    R (s.marks h) ((s.setMarks a x).marks h) := by
  by_cases e : h = a
  · subst e
    rw [Mem.setMarks_self]
    exact hx
  · rw [Mem.setMarks_of_ne _ e]
    exact hrefl _

theorem word_of_changed {s : Mem n} {a h : Nat} {x : U64} (hne : (s.setMarks a x).marks h ≠ s.marks h) : h = a := by
  by_contra e
  rw [Mem.setMarks_of_ne _ e] at hne
  exact hne rfl

theorem Step.acts (hs : Step v w.mem e s') (hI : (proto heapmem).inv w) (hw : In i v X w) :
    (proto heapmem).inv (w.next i e s' ()) ∧ (proto heapmem).act i w (w.next i e s' ()) ∧ In i v X (w.next i e s' ()) := by
  have hcall : Ev.isCall e = false ∨ ∃ h mask, e = some (.bitSet h mask) := by
    cases hs with
    | same he => exact .inl he
    | set h k => exact .inr ⟨h, _, rfl⟩
    | renew h => exact .inl rfl
  have hlast : lastCall phaseOfCall i (w.next i e s' ()).log = lastCall phaseOfCall i w.log := by
    refine lastCall_cons_of_none ?_
    rcases hcall with he | ⟨h, mask, rfl⟩
    · cases e with
      | none => rfl
      | some e => cases e <;> first | rfl | cases he
    · rfl
  have hcleared : ∀ u, e ≠ some (.cleared u) := by
    rintro u rfl
    rcases hcall with he | ⟨h, mask, he⟩ <;> cases he
  suffices h : (∀ h, Stamp.Grow (w.mem.marks h) (s'.marks h)) ∧ (proto heapmem).inv (w.next i e s' ()) ∧
      (proto heapmem).act i w (w.next i e s' ()) from
    ⟨h.2.1, h.2.2, hlast.trans hw.1, fun a ha => (hw.2 a ha).trans (h.1 a).1⟩
  cases hs with
  | same he hmarks hchunks =>
    have hgrow : ∀ h, Stamp.Grow (w.mem.marks h) (s'.marks h) := fun h => hmarks ▸ Stamp.Grow.refl _
    refine ⟨hgrow, Marks.acts _ _ hI hchunks hgrow (fun h => hmarks ▸ BitVec.le_refl _) (fun h hne => absurd (congrFun hmarks h) hne)
      (fun u hu => absurd hu (hcleared u)) fun h mask hev => ?_⟩
    rw [hev] at he
    cases he
  | set a k hk hphase hclear =>
    have hgrow := write_word (s := w.mem) (a := a) (R := Stamp.Grow) Stamp.Grow.refl (Stamp.Grow.set hk)
    refine ⟨hgrow, Marks.acts _ _ hI rfl hgrow (write_word BitVec.le_refl (le_or _ _)) (fun h hne => ?_)
      (fun u hu => absurd hu (hcleared u)) fun h mask hev => ?_⟩
    · obtain rfl := word_of_changed hne
      exact ⟨v, hw.1, hphase.le⟩
    · cases hev
      exact ⟨hphase ▸ hw.1, k, hk, rfl, hclear, Function.update_self ..⟩
  | renew a hold =>
    have hgrow := write_word (s := w.mem) (a := a) (R := Stamp.Grow) Stamp.Grow.refl (Stamp.Grow.renew hold)
    refine ⟨hgrow, Marks.acts _ _ hI rfl hgrow (write_word BitVec.le_refl (empty_le_or_lt hold)) (fun h hne => ?_)
      (fun u hu => absurd hu (hcleared u)) fun h mask => nofun⟩
    obtain rfl := word_of_changed hne
    rw [Stamp.empty_le_iff, not_le] at hold
    exact ⟨v, hw.1, hold.le.trans (Nat.mod_le _ _)⟩

/-! ## Calls -/

end OptimisticAccess.AOA.Marks
