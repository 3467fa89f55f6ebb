import Mathlib.Algebra.BigOperators.Fin
import Mathlib.Algebra.Order.BigOperators.Group.Finset
import OptimisticAccess.Conc.Alone
import OptimisticAccess.Conc.Logic
import OptimisticAccess.Entry

/-!
# The barrier of `worker.c`

All threads count their arrivals in one word `br` that is never reset: the quotient of `br` by the
number of threads is the generation, and each thread compares it with the number `cttr` of its own
calls.
-/

namespace OptimisticAccess.Bench.Barrier

open Conc Prog

/-- The globals `br` and `stop`. -/
structure Mem where
  br : BitVec 64
  stop : Bool

/-- The assertions of `barrier`, in the order of the source. -/
inductive Assertion where
  | generation
  | advanced
  | counted
  deriving DecidableEq

inductive Ev where
  | enter
  /-- The fetch-and-add on `br`. -/
  | arrive
  | leave
  | failed (a : Assertion)
  deriving DecidableEq

abbrev P := Prog Mem Ev

/-- `br/num_threads`: the `int` is converted to `unsigned long`. -/
def quotient (br : BitVec 64) (num_threads : CInt) : BitVec 64 := br / num_threads.signExtend 64

/-- What is done only while `stop` is clear. -/
def unlessStop (p : P Unit) : P Unit := load Mem.stop >>= fun stop => if stop then ret () else p

/-- The thread's `cttr` is an argument and its new value the result. -/
def barrier (fuel : Nat) (num_threads : CInt) (cttr : BitVec 64) : P (BitVec 64) := do
  emit .enter
  unlessStop do
    let br ← load Mem.br
    check (quotient br num_threads = cttr) (.failed .generation)
  let ares ← step (fun _ => some .arrive) (fun s => { s with br := s.br + 1 }) fun s => ret s.br
  let res := quotient ares num_threads
  iter (fun _ : Unit => do
    let br ← load Mem.br
    if quotient br num_threads = res then
      let stop ← load Mem.stop
      if stop then return .inr () else return .inl ()
    else return .inr ()) fuel ()
  let cttr := cttr + 1
  unlessStop do
    let br ← load Mem.br
    check (quotient br num_threads = res + 1) (.failed .advanced)
    let br ← load Mem.br
    check (quotient br num_threads = cttr) (.failed .counted)
  emit .leave
  return cttr

/-- A thread that calls `barrier` again and again, `calls` times at most. -/
def worker (fuel : Nat) (num_threads : CInt) (calls : Nat) (cttr : BitVec 64) : P Unit :=
  iter (fun cttr => do
    let cttr ← barrier fuel num_threads cttr
    return .inl cttr) calls cttr

/-! ## Rounds -/

/-- How often a thread has entered, arrived and left. -/
structure Pos where
  enters : Nat
  arrivals : Nat
  leaves : Nat

def Pos.bump (p : Pos) : Ev → Pos
  | .enter => { p with enters := p.enters + 1 }
  | .arrive => { p with arrivals := p.arrivals + 1 }
  | .leave => { p with leaves := p.leaves + 1 }
  | .failed _ => p

section

variable {n : Nat}

abbrev Tally (n : Nat) := Fin n → Pos

def Tally.bump (t : Tally n) (i : Fin n) (e : Ev) : Tally n := Function.update t i ((t i).bump e)

def tally : List (Rec (Fin n) Mem Ev) → Tally n
  | [] => fun _ => ⟨0, 0, 0⟩
  | r :: rs => r.ev.elim (tally rs) fun e => (tally rs).bump r.tid e

/-- Nobody returns from a call before all have entered theirs, nor enters the next but one before all have
returned; no assertion fails. -/
structure Separated (log : List (Rec (Fin n) Mem Ev)) : Prop where
  returned : ∀ i j k, k ≤ (tally log i).leaves → k ≤ (tally log j).enters
  reentered : ∀ i j k, k + 2 ≤ (tally log i).enters → k ≤ (tally log j).leaves
  passes : ∀ r ∈ log, ∀ a, r.ev ≠ some (.failed a)

/-- A thread enters, arrives and leaves in turn. -/
structure Pos.Sound (p : Pos) : Prop where
  left : p.leaves ≤ p.arrivals
  arrived : p.arrivals ≤ p.enters
  entered : p.enters ≤ p.leaves + 1

/-- Nobody has left a round that not everybody has arrived in. -/
structure Ordered (t : Tally n) : Prop where
  sound : ∀ i, (t i).Sound
  together : ∀ i j, (t i).leaves ≤ (t j).arrivals

/-- `br` counts the arrivals. -/
structure Adds (s : Mem) (t : Tally n) : Prop where
  running : s.stop = false
  br : s.br.toNat = ∑ j, (t j).arrivals

variable {t : Tally n} {i j : Fin n} {k : Nat} {e : Ev}

theorem Tally.bump_self : t.bump i e i = (t i).bump e := Function.update_self ..

theorem Tally.bump_of_ne (h : j ≠ i) : t.bump i e j = t j := Function.update_of_ne h ..

theorem Pos.arrivals_le_bump (p : Pos) (e : Ev) : p.arrivals ≤ (p.bump e).arrivals := by
  cases e with
  | arrive => exact Nat.le_succ _
  | enter | leave | failed => exact Nat.le_refl _

theorem Tally.arrivals_le_bump (t : Tally n) (i : Fin n) (e : Ev) (j : Fin n) : (t j).arrivals ≤ (t.bump i e j).arrivals := by
  by_cases hj : j = i
  · subst hj
    rw [bump_self]
    exact (t j).arrivals_le_bump e
  · rw [bump_of_ne hj]

theorem Ordered.zero : Ordered (fun _ => ⟨0, 0, 0⟩ : Tally n) where
  sound _ := ⟨Nat.le_refl 0, Nat.le_refl 0, Nat.zero_le _⟩
  together _ _ := Nat.le_refl 0

/-- A step keeps the order if the thread's own numbers are in order after it. -/
theorem Ordered.bump (h : Ordered t) (hs : ((t i).bump e).Sound) (hl : ∀ j, ((t i).bump e).leaves ≤ (t.bump i e j).arrivals) :
    Ordered (t.bump i e) where
  sound := (Function.forall_update_iff t fun _ p => p.Sound).2 ⟨hs, fun j _ => h.sound j⟩
  together j j' := by
    revert j
    refine (Function.forall_update_iff t fun _ p => p.leaves ≤ (t.bump i e j').arrivals).2 ⟨hl j', fun j _ => ?_⟩
    exact (h.together j j').trans (t.arrivals_le_bump i e j')

/-- Nobody arrives twice before all have arrived. -/
theorem Ordered.apart (h : Ordered t) (i j : Fin n) : (t j).arrivals ≤ (t i).arrivals + 1 := by
  have h1 := (h.sound j).arrived
  have h2 := (h.sound j).entered
  have h3 := h.together j i
  omega

/-- Where a thread is about to arrive in round `k`, nobody has left that round. -/
theorem Ordered.round (h : Ordered t) (hl : (t i).leaves = k) (ha : (t i).arrivals = k) (j : Fin n) :
    k ≤ (t j).arrivals ∧ (t j).arrivals ≤ k + 1 := by
  have h1 := h.together i j
  have h2 := h.apart i j
  omega

theorem sum_arrivals_lt {m : Nat} (h : ∀ j, (t j).arrivals ≤ m) (hi : (t i).arrivals < m) :
    ∑ j, (t j).arrivals < n * m := by
  calc ∑ j, (t j).arrivals < ∑ _j : Fin n, m := Finset.sum_lt_sum (fun j _ => h j) ⟨i, Finset.mem_univ i, hi⟩
    _ = n * m := by simp

theorem le_sum_arrivals {m : Nat} (h : ∀ j, m ≤ (t j).arrivals) : n * m ≤ ∑ j, (t j).arrivals := by
  calc n * m = ∑ _j : Fin n, m := by simp
    _ ≤ ∑ j, (t j).arrivals := Finset.sum_le_sum fun j _ => h j

/-- The quotient of the arrivals is the round of the slowest thread. -/
theorem sum_arrivals_div (h : ∀ j, k ≤ (t j).arrivals ∧ (t j).arrivals ≤ k + 1) (hi : (t i).arrivals = k) :
    (∑ j, (t j).arrivals) / n = k := by
  have hlo := le_sum_arrivals fun j => (h j).1
  have hhi := sum_arrivals_lt (fun j => (h j).2) (by omega : (t i).arrivals < k + 1)
  exact Nat.div_eq_of_lt_le (by rw [Nat.mul_comm]; exact hlo) (by rw [Nat.mul_comm]; exact hhi)

/-- Once the quotient has passed `k`, everybody has arrived in round `k`. -/
theorem Ordered.all_arrived (h : Ordered t) (hk : k < (∑ j, (t j).arrivals) / n) (j : Fin n) : k < (t j).arrivals := by
  by_contra hj
  have hle : ∀ j', (t j').arrivals ≤ k + 1 := fun j' => (h.apart j j').trans (by omega)
  have hlt := sum_arrivals_lt hle (by omega : (t j).arrivals < k + 1)
  exact absurd (Nat.div_lt_of_lt_mul hlt) (by omega)

theorem Adds.mark {s : Mem} (h : Adds s t) (he : e ≠ .arrive) : Adds s (t.bump i e) where
  running := h.running
  br := by
    rw [h.br]
    refine Finset.sum_congr rfl fun j _ => ?_
    by_cases hj : j = i
    · subst hj
      rw [Tally.bump_self]
      cases e with
      | arrive => exact absurd rfl he
      | enter | leave | failed => rfl
    · rw [Tally.bump_of_ne hj]

theorem Adds.arrive {s : Mem} (h : Adds s t) (hbr : s.br.toNat + 1 < 2 ^ 64) :
    Adds { s with br := s.br + 1 } (t.bump i .arrive) where
  running := h.running
  br := by
    have hne : ∀ j ∈ Finset.univ.erase i, (t.bump i .arrive j).arrivals = (t j).arrivals :=
      fun j hj => by rw [Tally.bump_of_ne (Finset.ne_of_mem_erase hj)]
    have hself : (t.bump i .arrive i).arrivals = (t i).arrivals + 1 := by rw [Tally.bump_self]; rfl
    rw [← Finset.add_sum_erase _ _ (Finset.mem_univ i), Finset.sum_congr rfl hne, hself]
    have hsum := Finset.add_sum_erase Finset.univ (fun j => (t j).arrivals) (Finset.mem_univ i)
    have hval : (s.br + 1).toNat = s.br.toNat + 1 := by
      rw [BitVec.toNat_add]
      exact Nat.mod_eq_of_lt hbr
    rw [hval, h.br, ← hsum]
    omega

end

/-! ## Every run -/

section

variable {n : Nat} {i : Fin n} {α : Type}

/-- The invariant of a run. -/
structure Inv (w : World (Fin n) Mem Ev Unit) : Prop where
  adds : Adds w.mem (tally w.log)
  ordered : Ordered (tally w.log)
  passes : ∀ r ∈ w.log, ∀ a, r.ev ≠ some (.failed a)

/-- No fetch-and-add of the run wraps `br` around. -/
def NoWrap (r : Rec (Fin n) Mem Ev) : Prop := r.ev = some .arrive → r.pre.br.toNat + 1 < 2 ^ 64

def proto (n : Nat) : Proto (Fin n) Mem Ev Unit where
  inv := Inv
  act i w w' := ∃ ev mem, w' = w.next i ev mem ()
  allow _ r := NoWrap r

/-- Triples whose assertions speak of the rounds. -/
abbrev Spec (i : Fin n) (A : Tally n → Prop) (p : P α) (B : α → Tally n → Prop) : Prop :=
  (proto n).Triple i (fun w => A (tally w.log)) p fun a w => B a (tally w.log)

/-- No other thread breaks `A`. -/
def Keeps (i : Fin n) (A : Tally n → Prop) : Prop := ∀ t j e, j ≠ i → A t → A (t.bump j e)

theorem Keeps.stable {A : Tally n → Prop} (h : Keeps i A) : (proto n).Stable i fun w => A (tally w.log) := by
  rintro j w w' hj - - ⟨ev, mem, rfl⟩ hA
  cases ev with
  | none => exact hA
  | some e => exact h _ j e hj hA

theorem Keeps.and {A B : Tally n → Prop} (hA : Keeps i A) (hB : Keeps i B) : Keeps i fun t => A t ∧ B t :=
  fun t j e hj h => ⟨hA t j e hj h.1, hB t j e hj h.2⟩

theorem keeps_own (p : Pos) : Keeps i fun t => t i = p := fun _ _ _ hj h => (Tally.bump_of_ne hj.symm).trans h

theorem keeps_arrived (k : Nat) : Keeps i fun t => ∀ j, k < (t j).arrivals :=
  fun t j e _ h j' => (h j').trans_le (t.arrivals_le_bump j e j')

theorem load_spec {A : Tally n → Prop} {B : α → Tally n → Prop} (f : Mem → α) (hA : Keeps i A)
    (h : ∀ s t, A t → Ordered t → Adds s t → B (f s) t) : Spec i A (load f) B := by
  intro w hw
  refine Proto.wp_step _ hw hA.stable fun w hA hI _ => ⟨(), ⟨hI.adds, hI.ordered, ?_⟩, ⟨_, _, rfl⟩, ?_⟩
  · refine List.forall_mem_cons.2 ⟨fun a h => ?_, hI.passes⟩
    cases h
  · exact h _ _ hA hI.ordered hI.adds

/-- A step with an event. -/
theorem step_spec {A : Tally n → Prop} {B : α → Tally n → Prop} {e : Ev} {upd : Mem → Mem} (f : Mem → α) (hA : Keeps i A)
    (hpass : ∀ a, e ≠ .failed a)
    (h : ∀ s t, A t → Ordered t → Adds s t → (e = .arrive → s.br.toNat + 1 < 2 ^ 64) →
      Ordered (t.bump i e) ∧ Adds (upd s) (t.bump i e) ∧ B (f s) (t.bump i e)) :
    Spec i A (step (fun _ => some e) upd fun s => ret (f s)) B := by
  intro w hw
  refine Proto.wp_step _ hw hA.stable fun w hA hI hok => ?_
  obtain ⟨hO, hS, hB⟩ := h _ _ hA hI.ordered hI.adds fun he => hok (congrArg some he)
  refine ⟨(), ⟨hS, hO, ?_⟩, ⟨_, _, rfl⟩, hB⟩
  refine List.forall_mem_cons.2 ⟨fun a h => ?_, hI.passes⟩
  exact hpass a (Option.some.inj h)

theorem check_spec {A : Tally n → Prop} {c : Prop} [Decidable c] {e : Ev} (hc : c) : Spec i A (check c e) fun _ => A := by
  rw [check, if_pos hc]
  exact Proto.Triple.ret fun _ h => h

theorem unlessStop_spec {A B : Tally n → Prop} {p : P Unit} (hA : Keeps i A) (h : Spec i A p fun _ => B) :
    Spec i A (unlessStop p) fun _ => B := by
  refine Proto.Triple.bind (load_spec (B := fun stop t => stop = false ∧ A t) Mem.stop hA fun s t h _ hs => ⟨hs.running, h⟩)
    fun stop => Proto.Triple.fact (fun w hw => hw.1) ?_
  rintro rfl
  exact Proto.Triple.pre h fun w hw => hw.2

end

section

variable {num_threads : CInt} {i : Fin num_threads.toNat} {k : Nat}

theorem toNat_quotient (h : 0 < num_threads.toInt) (br : BitVec 64) :
    (quotient br num_threads).toNat = br.toNat / num_threads.toNat := by
  have hmsb : num_threads.msb = false := by
    rw [BitVec.msb_eq_toInt]
    exact decide_eq_false (by omega)
  rw [quotient, BitVec.toNat_udiv, BitVec.signExtend_eq_setWidth_of_msb_false hmsb, BitVec.toNat_setWidth]
  congr 1
  exact Nat.mod_eq_of_lt (num_threads.isLt.trans (by decide))

/-- The quotient read while no thread is more than a round ahead of `i`. -/
theorem quotient_eq (h : 0 < num_threads.toInt) {s : Mem} {t : Tally num_threads.toNat} (hs : Adds s t)
    (hk : ∀ j, k ≤ (t j).arrivals ∧ (t j).arrivals ≤ k + 1) (hi : (t i).arrivals = k) :
    quotient s.br num_threads = BitVec.ofNat 64 k := by
  have hq : (quotient s.br num_threads).toNat = k := by rw [toNat_quotient h, hs.br, sum_arrivals_div hk hi]
  rw [← hq, BitVec.ofNat_toNat, BitVec.setWidth_eq]

theorem enter_spec : Spec i (fun t => t i = ⟨k, k, k⟩) (emit .enter) fun _ t => t i = ⟨k + 1, k, k⟩ := by
  refine step_spec (e := .enter) (fun _ => ()) (keeps_own _) (fun _ h => by cases h) fun s t hA hO hS _ => ?_
  have hself : t.bump i .enter i = ⟨k + 1, k, k⟩ := by rw [Tally.bump_self, hA]; rfl
  refine ⟨hO.bump ?_ fun j => ?_, hS.mark (fun h => by cases h), hself⟩
  · rw [hA]
    exact ⟨Nat.le_refl k, Nat.le_succ k, Nat.le_refl (k + 1)⟩
  · rw [hA]
    have hj := hO.together i j
    rw [hA] at hj
    exact hj.trans (t.arrivals_le_bump i .enter j)

theorem arrive_spec (h : 0 < num_threads.toInt) :
    Spec i (fun t => t i = ⟨k + 1, k, k⟩)
      (step (fun _ => some .arrive) (fun s => { s with br := s.br + 1 }) fun s => ret s.br) fun ares t =>
      quotient ares num_threads = BitVec.ofNat 64 k ∧ t i = ⟨k + 1, k + 1, k⟩ := by
  refine step_spec (e := .arrive) Mem.br (keeps_own _) (fun _ h => by cases h) fun s t hA hO hS hbr => ?_
  have hself : t.bump i .arrive i = ⟨k + 1, k + 1, k⟩ := by rw [Tally.bump_self, hA]; rfl
  refine ⟨hO.bump ?_ fun j => ?_, hS.arrive (hbr rfl), ?_, hself⟩
  · rw [hA]
    exact ⟨Nat.le_succ k, Nat.le_refl (k + 1), Nat.le_refl (k + 1)⟩
  · rw [hA]
    have hj := hO.together i j
    rw [hA] at hj
    exact hj.trans (t.arrivals_le_bump i .arrive j)
  · exact quotient_eq h hS (hO.round (by rw [hA]) (by rw [hA])) (by rw [hA])

/-- A thread may leave when everybody has arrived. -/
theorem leave_spec :
    Spec i (fun t => t i = ⟨k + 1, k + 1, k⟩ ∧ ∀ j, k < (t j).arrivals) (emit .leave) fun _ t => t i = ⟨k + 1, k + 1, k + 1⟩ := by
  refine step_spec (e := .leave) (fun _ => ()) ((keeps_own _).and (keeps_arrived k)) (fun _ h => by cases h)
    fun s t hA hO hS _ => ?_
  have hself : t.bump i .leave i = ⟨k + 1, k + 1, k + 1⟩ := by rw [Tally.bump_self, hA.1]; rfl
  refine ⟨hO.bump ?_ fun j => ?_, hS.mark (fun h => by cases h), hself⟩
  · rw [hA.1]
    exact ⟨Nat.le_refl (k + 1), Nat.le_refl (k + 1), Nat.le_succ (k + 1)⟩
  · rw [hA.1]
    exact Nat.le_trans (hA.2 j) (t.arrivals_le_bump i .leave j)

/-- The loop is left when everybody has arrived. -/
theorem wait_spec (h : 0 < num_threads.toInt) (fuel : Nat) :
    Spec i (fun t => t i = ⟨k + 1, k + 1, k⟩)
      (iter (fun _ : Unit => do
        let br ← load Mem.br
        if quotient br num_threads = BitVec.ofNat 64 k then
          let stop ← load Mem.stop
          if stop then return .inr () else return .inl ()
        else return .inr ()) fuel ()) fun _ t => t i = ⟨k + 1, k + 1, k⟩ ∧ ∀ j, k < (t j).arrivals := by
  refine Proto.Triple.iter (J := fun _ w => tally w.log i = ⟨k + 1, k + 1, k⟩) (fun _ => ?_) fuel ()
  refine Proto.Triple.bind (load_spec (B := fun br t => t i = ⟨k + 1, k + 1, k⟩ ∧
    (quotient br num_threads ≠ BitVec.ofNat 64 k → ∀ j, k < (t j).arrivals)) Mem.br (keeps_own _)
    fun s t hA hO hS => ⟨hA, fun hne => ?_⟩) fun br => Proto.Triple.ite (fun _ => ?_) fun hne => ?_
  · -- as long as somebody has not arrived, the quotient is `k`
    by_contra hlate
    obtain ⟨j, hj⟩ := not_forall.1 hlate
    have hk : ∀ j, k ≤ (t j).arrivals := by
      intro j'
      have htog := hO.together i j'
      rwa [hA] at htog
    have hjk : (t j).arrivals = k := Nat.le_antisymm (Nat.le_of_not_lt hj) (hk j)
    exact hne (quotient_eq h hS (fun j' => ⟨hk j', hjk ▸ hO.apart j j'⟩) hjk)
  · have hstop : Spec i (fun t => t i = ⟨k + 1, k + 1, k⟩) (load Mem.stop) fun stop t => stop = false ∧ t i = ⟨k + 1, k + 1, k⟩ :=
      load_spec Mem.stop (keeps_own _) fun s t hA _ hS => ⟨hS.running, hA⟩
    refine Proto.Triple.bind (Proto.Triple.pre hstop fun w hw => hw.1) fun stop => Proto.Triple.fact (fun w hw => hw.1) ?_
    rintro rfl
    exact Proto.Triple.ret fun w hw => hw.2
  · exact Proto.Triple.ret fun w hw => ⟨hw.1, hw.2 hne⟩

/-- An assertion on the quotient in a round that everybody has arrived in. -/
theorem checkQuotient_spec {A : Tally num_threads.toNat → Prop} {q : BitVec 64} {e : Ev} (hA : Keeps i A)
    (h : ∀ s t, A t → Ordered t → Adds s t → quotient s.br num_threads = q) :
    Spec i A (load Mem.br >>= fun br => check (quotient br num_threads = q) e) fun _ => A :=
  Proto.Triple.bind (load_spec (B := fun br t => quotient br num_threads = q ∧ A t) Mem.br hA
    fun s t hAt hO hS => ⟨h s t hAt hO hS, hAt⟩) fun _ =>
      Proto.Triple.fact (fun _ hw => hw.1) fun hq => Proto.Triple.pre (check_spec (A := A) hq) fun _ hw => hw.2

/-- One call: round `k` of thread `i`. -/
theorem barrier_spec (h : 0 < num_threads.toInt) (fuel : Nat) :
    Spec i (fun t => t i = ⟨k, k, k⟩) (barrier fuel num_threads (BitVec.ofNat 64 k)) fun cttr t =>
      cttr = BitVec.ofNat 64 (k + 1) ∧ t i = ⟨k + 1, k + 1, k + 1⟩ := by
  have hin : ∀ s t, t i = ⟨k + 1, k, k⟩ → Ordered t → Adds s t → quotient s.br num_threads = BitVec.ofNat 64 k :=
    fun s t ht hO hS => quotient_eq h hS (hO.round (by rw [ht]) (by rw [ht])) (by rw [ht])
  have hout : ∀ s t, (t i = ⟨k + 1, k + 1, k⟩ ∧ ∀ j, k < (t j).arrivals) → Ordered t → Adds s t →
      quotient s.br num_threads = BitVec.ofNat 64 (k + 1) := by
    intro s t ht hO hS
    have hi : (t i).arrivals = k + 1 := by rw [ht.1]
    exact quotient_eq h hS (fun j => ⟨ht.2 j, hi ▸ hO.apart i j⟩) hi
  have hopen : Keeps i fun t => t i = ⟨k + 1, k + 1, k⟩ ∧ ∀ j, k < (t j).arrivals := (keeps_own _).and (keeps_arrived k)
  refine Proto.Triple.bind enter_spec fun _ => ?_
  refine Proto.Triple.bind (unlessStop_spec (keeps_own _) (checkQuotient_spec (keeps_own _) hin)) fun _ => ?_
  refine Proto.Triple.bind (arrive_spec h) fun ares => Proto.Triple.fact (fun _ hw => hw.1) fun hres => ?_
  rw [hres, BitVec.ofNat_add]
  refine Proto.Triple.bind (Proto.Triple.pre (wait_spec h fuel) fun _ hw => hw.2) fun _ => ?_
  have hchecks : Spec i (fun t => t i = ⟨k + 1, k + 1, k⟩ ∧ ∀ j, k < (t j).arrivals) (unlessStop do
      let br ← load Mem.br
      check (quotient br num_threads = BitVec.ofNat 64 k + BitVec.ofNat 64 1) (.failed .advanced)
      let br ← load Mem.br
      check (quotient br num_threads = BitVec.ofNat 64 k + 1) (.failed .counted))
      fun _ t => t i = ⟨k + 1, k + 1, k⟩ ∧ ∀ j, k < (t j).arrivals := by
    refine unlessStop_spec hopen ?_
    rw [← LawfulMonad.bind_assoc]
    rw [BitVec.ofNat_add] at hout
    exact Proto.Triple.bind (checkQuotient_spec hopen hout) fun _ => checkQuotient_spec hopen hout
  exact Proto.Triple.bind hchecks fun _ => Proto.Triple.bind leave_spec fun _ => .ret fun _ hw => ⟨rfl, hw⟩

/-- Thread `i` from the start of a round on. -/
theorem worker_spec (h : 0 < num_threads.toInt) (fuel calls : Nat) :
    Spec i (fun t => t i = ⟨0, 0, 0⟩) (worker fuel num_threads calls 0) fun _ _ => True := by
  refine Proto.Triple.pre (Proto.Triple.iter (J := fun cttr w => ∃ k, cttr = BitVec.ofNat 64 k ∧ tally w.log i = ⟨k, k, k⟩)
    (fun cttr => ?_) calls 0) fun w hw => ⟨0, rfl, hw⟩
  refine Proto.Triple.exists fun k => Proto.Triple.fact (fun _ hw => hw.1) ?_
  rintro rfl
  exact Proto.Triple.bind (Proto.Triple.pre (barrier_spec h fuel) fun _ hw => hw.2) fun cttr => .ret fun _ hw => ⟨k + 1, hw⟩

end

/-- `n` threads that call `barrier`, thread `i` at most `calls i` times. -/
def start (num_threads : CInt) (fuel : Nat) (calls : Fin num_threads.toNat → Nat) : Cfg (Fin num_threads.toNat) Mem Ev :=
  Cfg.init ⟨0, false⟩ fun i => worker fuel num_threads (calls i) 0

/-- As long as `br` does not wrap around, the calls of the threads are separated, whatever the interleaving. -/
theorem separated (num_threads : CInt) (h : 0 < num_threads.toInt) (fuel : Nat) (calls : Fin num_threads.toNat → Nat)
    (c : Cfg (Fin num_threads.toNat) Mem Ev) (hreach : Cfg.Reach (start num_threads fuel calls) c)
    (hwrap : ∀ r ∈ c.log, NoWrap r) : Separated c.log := by
  have hallow : (proto num_threads.toNat).Allowed c.log := Along.of_forall hwrap
  have hinv : (proto num_threads.toNat).inv ⟨⟨0, false⟩, [], ()⟩ :=
    ⟨⟨rfl, Finset.sum_const_zero.symm⟩, Ordered.zero, fun r hr => absurd hr List.not_mem_nil⟩
  obtain ⟨_, hI⟩ := Proto.adequacy hinv (fun i => worker_spec h fuel (calls i) _ rfl) hreach hallow
  refine ⟨fun i j k hk => ?_, fun i j k hk => ?_, hI.passes⟩
  · exact hk.trans ((hI.ordered.together i j).trans (hI.ordered.sound j).arrived)
  · have h1 := (hI.ordered.sound i).entered
    have h2 := hI.ordered.together i j
    have h3 := (hI.ordered.sound j).arrived
    have h4 := (hI.ordered.sound j).entered
    dsimp only at h1 h2 h3 h4 hk
    omega

instance {n : Nat} (r : Rec (Fin n) Mem Ev) : Decidable (NoWrap r) := inferInstanceAs (Decidable (_ → _))

/-- Two threads, the first of which has returned. -/
def twoThreads : Cfg (Fin (2 : CInt).toNat) Mem Ev :=
  (start 2 1 fun _ => 1).exec ([0, 0, 0, 0, 1, 1, 1, 1, 0, 0, 0, 0, 0].map fun i => ⟨i % 2, Nat.mod_lt i (by decide)⟩)

theorem separated_two : (tally twoThreads.log ⟨0, by decide⟩).leaves = 1 ∧ Separated twoThreads.log :=
  ⟨by decide +kernel, separated 2 (by decide) 1 (fun _ => 1) twoThreads ⟨_, rfl⟩ (by decide +kernel)⟩

/-! ## The wrap of `br`

Three threads in step come to the last value of `br`, which the quotient by three does not survive. -/

section

variable {num_threads : CInt} {cttr ares : BitVec 64} {s : Mem}

/-- `barrier` up to its fetch-and-add. -/
def arriving (num_threads : CInt) (cttr : BitVec 64) : P (BitVec 64) := do
  emit .enter
  unlessStop do
    let br ← load Mem.br
    check (quotient br num_threads = cttr) (.failed .generation)
  step (fun _ => some .arrive) (fun s => { s with br := s.br + 1 }) fun s => ret s.br

/-- What follows in a call that has read `ares`. -/
def leaving (fuel : Nat) (num_threads : CInt) (cttr ares : BitVec 64) : P (BitVec 64) := do
  iter (fun _ : Unit => do
    let br ← load Mem.br
    if quotient br num_threads = quotient ares num_threads then
      let stop ← load Mem.stop
      if stop then return .inr () else return .inl ()
    else return .inr ()) fuel ()
  unlessStop do
    let br ← load Mem.br
    check (quotient br num_threads = quotient ares num_threads + 1) (.failed .advanced)
    let br ← load Mem.br
    check (quotient br num_threads = cttr + 1) (.failed .counted)
  emit .leave
  return cttr + 1

/-- The thread in its call, with `calls` more calls to make. -/
def resume (fuel : Nat) (num_threads : CInt) (calls : Nat) (cttr ares : BitVec 64) : P Unit :=
  leaving fuel num_threads cttr ares >>= worker fuel num_threads calls

theorem barrier_eq (fuel : Nat) :
    barrier fuel num_threads cttr = arriving num_threads cttr >>= leaving fuel num_threads cttr := by
  simp only [barrier, arriving, LawfulMonad.bind_assoc, step_bind, ret_bind]
  rfl

theorem worker_succ (fuel calls : Nat) :
    worker fuel num_threads (calls + 1) cttr = arriving num_threads cttr >>= resume fuel num_threads calls cttr := by
  rw [worker, iter, barrier_eq]
  simp only [LawfulMonad.bind_assoc, pure_eq, ret_bind]
  rfl

theorem ends_arriving (hstop : s.stop = false) (hq : quotient s.br num_threads = cttr) :
    Ends (arriving num_threads cttr) s fun ares s' => ares = s.br ∧ s' = { s with br := s.br + 1 } := by
  simp [arriving, unlessStop, hstop, hq, check]

theorem ends_leaving (hstop : s.stop = false) (hq : quotient s.br num_threads = cttr + 1)
    (hares : quotient ares num_threads = cttr) :
    Ends (leaving 1 num_threads cttr ares) s fun cttr' s' => cttr' = cttr + 1 ∧ s' = s := by
  simp [leaving, iter, unlessStop, hstop, hq, hares, check]

end

section

variable {cttr : BitVec 64}

abbrev three : CInt := 3

/-- All three threads are between two calls, after `r` rounds. -/
structure Gathered (calls r : Nat) (c : Cfg (Fin three.toNat) Mem Ev) : Prop where
  mem : c.mem = ⟨BitVec.ofNat 64 (3 * r), false⟩
  thr : c.thr = fun _ => worker 1 three calls (BitVec.ofNat 64 r)

theorem ofNat_succ (m : Nat) : BitVec.ofNat 64 (m + 1) = BitVec.ofNat 64 m + 1 := BitVec.ofNat_add m 1

theorem quotient_three {m r : Nat} (hm : m < 2 ^ 64) (hr : m / 3 = r) : quotient (BitVec.ofNat 64 m) three = BitVec.ofNat 64 r := by
  apply BitVec.eq_of_toNat_eq
  rw [toNat_quotient (by decide), BitVec.toNat_ofNat, BitVec.toNat_ofNat, Nat.mod_eq_of_lt hm]
  change m / 3 = _
  omega

/-- The next thread arrives. -/
theorem exec_arriving {c : Cfg (Fin three.toNat) Mem Ev} {i : Fin three.toNat} {calls m r : Nat}
    (hmem : c.mem = ⟨BitVec.ofNat 64 m, false⟩) (hthr : c.thr i = worker 1 three (calls + 1) (BitVec.ofNat 64 r))
    (hm : m < 2 ^ 64) (hr : m / 3 = r) :
    ∃ c', Cfg.Reach c c' ∧ c'.mem = ⟨BitVec.ofNat 64 (m + 1), false⟩ ∧
      c'.thr = Function.update c.thr i (resume 1 three calls (BitVec.ofNat 64 r) (BitVec.ofNat 64 m)) := by
  rw [worker_succ] at hthr
  obtain ⟨ares, c', hreach, ⟨rfl, hmem'⟩, hthr'⟩ := Ends.exec hthr
    (ends_arriving (by rw [hmem]) (by rw [hmem]; exact quotient_three hm hr))
  rw [hmem] at hmem' hthr'
  exact ⟨c', hreach, hmem'.trans (by rw [ofNat_succ]), hthr'⟩

/-- The next thread leaves a round that all have arrived in. -/
theorem exec_leaving {c : Cfg (Fin three.toNat) Mem Ev} {i : Fin three.toNat} {calls m r : Nat}
    (hmem : c.mem = ⟨BitVec.ofNat 64 (3 * (r + 1)), false⟩)
    (hthr : c.thr i = resume 1 three calls (BitVec.ofNat 64 r) (BitVec.ofNat 64 m)) (hlast : 3 * (r + 1) < 2 ^ 64)
    (hr : m / 3 = r) :
    ∃ c', Cfg.Reach c c' ∧ c'.mem = c.mem ∧ c'.thr = Function.update c.thr i (worker 1 three calls (BitVec.ofNat 64 (r + 1))) := by
  obtain ⟨cttr, c', hreach, ⟨rfl, hmem'⟩, hthr'⟩ := Ends.exec hthr
    (ends_leaving (by rw [hmem]) (by rw [hmem, ← ofNat_succ]; exact quotient_three hlast (by omega))
      (quotient_three (by omega) hr))
  exact ⟨c', hreach, hmem', by rw [hthr', ofNat_succ]⟩

/-- One more round. -/
theorem Gathered.round {c : Cfg (Fin three.toNat) Mem Ev} {calls r : Nat} (h : Gathered (calls + 1) r c)
    (hlast : 3 * (r + 1) < 2 ^ 64) : ∃ c', Cfg.Reach c c' ∧ Gathered calls (r + 1) c' := by
  let t0 : Fin three.toNat := ⟨0, by decide⟩
  let t1 : Fin three.toNat := ⟨1, by decide⟩
  let t2 : Fin three.toNat := ⟨2, by decide⟩
  obtain ⟨c1, h1, hm1, ht1⟩ := exec_arriving (i := t0) h.mem (by rw [h.thr]) (by omega) (by omega)
  obtain ⟨c2, h2, hm2, ht2⟩ := exec_arriving (i := t1) hm1 (by rw [ht1, h.thr]; rfl) (by omega) (by omega)
  obtain ⟨c3, h3, hm3, ht3⟩ := exec_arriving (i := t2) hm2 (by rw [ht2, ht1, h.thr]; rfl) (by omega) (by omega)
  obtain ⟨c4, h4, hm4, ht4⟩ := exec_leaving (i := t0) (m := 3 * r) (r := r) hm3
    (by rw [ht3, ht2, ht1, h.thr]; rfl) hlast (by omega)
  rw [hm3] at hm4
  obtain ⟨c5, h5, hm5, ht5⟩ := exec_leaving (i := t1) (m := 3 * r + 1) (r := r) hm4
    (by rw [ht4, ht3, ht2, ht1, h.thr]; rfl) hlast (by omega)
  rw [hm4] at hm5
  obtain ⟨c6, h6, hm6, ht6⟩ := exec_leaving (i := t2) (m := 3 * r + 1 + 1) (r := r) hm5
    (by rw [ht5, ht4, ht3, ht2, ht1, h.thr]; rfl) hlast (by omega)
  refine ⟨c6, h1.trans (h2.trans (h3.trans (h4.trans (h5.trans h6)))), hm6.trans hm5, ?_⟩
  have hall : ∀ i : Fin three.toNat, i = t0 ∨ i = t1 ∨ i = t2 := by decide
  funext i
  rw [ht6, ht5, ht4]
  rcases hall i with rfl | rfl | rfl <;> rfl

theorem Gathered.rounds {c : Cfg (Fin three.toNat) Mem Ev} {calls m : Nat} (h : Gathered (calls + m) 0 c)
    (hlast : 3 * m < 2 ^ 64) : ∃ c', Cfg.Reach c c' ∧ Gathered calls m c' := by
  suffices ∀ r l, r + l = m → ∃ c', Cfg.Reach c c' ∧ Gathered (calls + l) r c' from this m 0 rfl
  intro r
  induction r with
  | zero =>
    rintro l hl
    rw [Nat.zero_add] at hl
    exact ⟨c, .refl c, hl ▸ h⟩
  | succ r ih =>
    intro l hl
    obtain ⟨c1, h1, hg1⟩ := ih (l + 1) (by omega)
    obtain ⟨c2, h2, hg2⟩ := hg1.round (by omega)
    exact ⟨c2, h1.trans h2, hg2⟩

/-- A call that finds `br` past the next round. -/
theorem exec_failing {n : Nat} {c : Cfg (Fin n) Mem Ev} {i : Fin n} {num_threads : CInt} {calls : Nat}
    {br cttr ares : BitVec 64} (hmem : c.mem = ⟨br, false⟩) (hthr : c.thr i = resume 1 num_threads calls cttr ares)
    (h0 : quotient br num_threads ≠ quotient ares num_threads) (h1 : quotient br num_threads ≠ quotient ares num_threads + 1#64) :
    ∃ c', Cfg.Reach c c' ∧ ∃ r ∈ c'.log, r.ev = some (.failed .advanced) := by
  refine ⟨_, ⟨[i, i, i, i], rfl⟩, ?_⟩
  simp [Cfg.fire, hmem, hthr, resume, leaving, iter, unlessStop, load, check, h0, h1]

end

/-- With three threads and `2 ^ 64` calls in all, the assertion after the loop fails. -/
theorem not_separated :
    ¬ ∀ (num_threads : CInt), 0 < num_threads.toInt → ∀ (fuel : Nat) (calls : Fin num_threads.toNat → Nat)
      (c : Cfg (Fin num_threads.toNat) Mem Ev), Cfg.Reach (start num_threads fuel calls) c → Separated c.log := by
  intro hall
  have hstart : Gathered (1 + 6148914691236517205) 0 (start three 1 fun _ => 1 + 6148914691236517205) := ⟨rfl, rfl⟩
  obtain ⟨c, h, hg⟩ := hstart.rounds (by decide)
  obtain ⟨c1, h1, hm1, ht1⟩ := exec_arriving (i := ⟨0, by decide⟩) hg.mem (by rw [hg.thr]) (by decide) (by decide)
  obtain ⟨c2, h2, r, hr, hev⟩ := exec_failing (i := ⟨0, by decide⟩) hm1 (by rw [ht1]; exact Function.update_self ..)
    (by decide) (by decide)
  exact (hall three (by decide) 1 _ c2 (h.trans (h1.trans h2))).passes r hr _ hev

end OptimisticAccess.Bench.Barrier
