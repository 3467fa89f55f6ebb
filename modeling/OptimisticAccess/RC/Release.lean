import OptimisticAccess.RC.Ledger

/-!
# `refcount.c` keeps the ledger

One lemma for each function: the hand before it, the hand after it, and any assertion about the
references that the thread keeps across the call.
-/

namespace OptimisticAccess.RC

open Conc Prog

variable {n : Nat} {pool : Nat → Nat} {first : Set Nat} {i : Fin n} {w : W n} {h : Hand} {K : Nat → Option (Stage n)}
  {F : W n → Prop} {R H : Multiset Nat} {l : Option (Nat × Nat)} {a : Nat}

theorem Own.stage (hw : Own i h K w) {st : Stage n} (ha : K a = some st) : w.ghost.stage a = st :=
  Stage.eq_of_mine ((hw.mine a).trans ha)

theorem Own.not_fresh (hw : Own i h K w) (hK : ∀ b, K b ≠ some (.fresh i)) (b : Nat) : w.ghost.stage b ≠ .fresh i := by
  intro e
  apply hK b
  rw [← hw.mine b, e, Stage.mine, if_pos rfl]

/-- A step after which the hand still refers to `h.refs` keeps what is steady in them. -/
theorem Steady.step (hF : Steady R F) (hf : F w) {ev : Option Ev} {s' : Mem n} {g' : Ghost n}
    (hT : Trans i w.mem w.ghost s' g') (hR : R ≤ (g'.hand i).refs) : F (w.next i ev s' g') :=
  hF w (w.next i ev s' g') (Trans.calm hT i hR) hf

/-- The hand after a step that leaves the stages alone. -/
theorem Own.setHand (hw : Own i h K w) {h' : Hand} {ev : Option Ev} {s' : Mem n} (hev : ∀ op b, ev ≠ some (.ret op b)) :
    Own i h' K (w.next i ev s' (w.ghost.setHand i h')) :=
  ⟨busy_next hw.busy hev, setHand_self h', hw.mine⟩

theorem mine_update {st st' : Stage n} {g : Ghost n} (hw : ∀ b, (g.stage b).mine i = K b)
    (hst : st.mine i = some st') (b : Nat) :
    ((g.setStage a st).stage b).mine i = Function.update K a (some st') b := by
  by_cases hb : b = a
  · subst hb; rw [setStage_self, hst, Function.update_self]
  · rw [setStage_of_ne st hb, Function.update_of_ne hb, hw]

theorem Hand.Ok.more {p : Multiset Nat} (hok : (⟨R, H, l⟩ : Hand).Ok) : (⟨p + R, H, l⟩ : Hand).Ok := by
  refine ⟨hok.held.trans ?_, fun a q e => Multiset.mem_add.2 (.inr (hok.lender a q e))⟩
  exact add_le_add_left (Multiset.le_add_left R p) _

/-! ## `DecrementAndTestAndSet` -/

/-- What the decrement of a reference of `a` leaves: either that is all, or it was the last one
and the count of the link of `a` is in the hand. -/
def Dropped (i : Fin n) (a : Nat) (R H : Multiset Nat) (l : Option (Nat × Nat)) (K : Nat → Option (Stage n))
    (F : W n → Prop) (last : Int) (w : W n) : Prop :=
  last = 0 ∧ Own i ⟨R, H, l⟩ K w ∧ F w ∨
    last ≠ 0 ∧ K a = none ∧ a ∉ R ∧ ∃ nx, (Own i ⟨own nx + R, H, l⟩ (Function.update K a (some (.dead i))) w ∧ F w) ∧
      Wrote i a (fun e => e.nextEntry = nx) w

/-- The references in use, with the one that a `release` gives back. -/
def inUse (held : Bool) (p : Multiset Nat) (H : Multiset Nat) : Multiset Nat := if held then p + H else H

theorem le_inUse (held : Bool) (p : Multiset Nat) : H ≤ inUse held p H := by
  cases held with
  | true => exact Multiset.le_add_left H p
  | false => exact le_rfl

theorem booked_release {held : Bool} {g' : Ghost n} (hbusy : Busy i w.log)
    (hold : (w.ghost.hand i).held = inUse held {a} (g'.hand i).held)
    (hborn : ∀ b, (g'.stage b).Born ↔ (w.ghost.stage b).Born) :
    Booked i w (if held then some (.released a) else none) g' := by
  cases held with
  | true => exact .loses (.inl rfl) hbusy hold hborn
  | false => exact .silent hbusy hold.symm hborn

theorem Dropped.last (hI : Inv pool first w) {held : Bool} (hok : (⟨R, H, l⟩ : Hand).Ok) (hF : Steady R F)
    (hK : ∀ b, K b ≠ some (.fresh i)) (hw : Own i ⟨a ::ₘ R, inUse held {a} H, l⟩ K w) (hf : F w)
    (hr : (w.mem.node a).refcount = 2) :
    ∃ g, Shape pool (w.mem.setRefcount a 1) g ∧ Trans i w.mem w.ghost (w.mem.setRefcount a 1) g ∧
      Booked i w (if held then some (.released a) else none) g ∧
      Dropped i a R H l K F 1 (w.next i (if held then some (.released a) else none) (w.mem.setRefcount a 1) g) := by
  have hhand := hw.hand
  have hrefs : (w.ghost.hand i).refs = a ::ₘ R := congrArg Hand.refs hhand
  have hnf := hw.not_fresh hK
  have hsole := hI.shape.sole (hnf a) (by rw [hrefs]; exact Multiset.mem_cons_self a R) hr
  have honce := hsole.once
  rw [hrefs, Multiset.count_cons_self] at honce
  have hmine : K a = none := by rw [← hw.mine a, hsole.live]; rfl
  obtain ⟨nx, hnx⟩ : ∃ nx, (w.mem.node a).nextEntry = nx := ⟨_, rfl⟩
  have hT := Trans.bury (h := ⟨own nx + R, H, l⟩) hI.shape hsole hrefs (by rw [hnx])
  refine ⟨w.ghost.bury i a ⟨own nx + R, H, l⟩, ?_, hT, ?_, ?_⟩
  · apply hI.shape.bury hsole hok.more hrefs
    · rw [hnx]
    · rw [hhand]
    · rw [hhand]; exact le_inUse held {a}
    · exact hnf
  · apply booked_release hw.busy
    · rw [hhand, bury_hand_self]
    · intro b
      refine ⟨fun hb => ?_, bury_born⟩
      by_cases hba : b = a
      · subst hba; rw [hsole.live]; trivial
      · rwa [bury_stage_of_ne hba] at hb
  · refine .inr ⟨Int.one_ne_zero, hmine, Multiset.count_eq_zero.1 (by omega), nx, ⟨⟨?_, ?_, ?_⟩, ?_⟩, ?_, ?_⟩
    · apply busy_next hw.busy
      intro op b
      cases held <;> simp
    · exact bury_hand_self
    · exact mine_update hw.mine (Stage.mine_dead i)
    · refine hF.step hf hT ?_
      rw [bury_hand_self]
      exact Multiset.le_add_left R _
    · change ((w.ghost.bury i a _).stage a).owner = some i
      rw [bury_stage_self]; rfl
    · exact (congrArg Entry.nextEntry (setRefcount_toEntry 1)).trans hnx

theorem Dropped.more (hI : Inv pool first w) {held : Bool} (hok : (⟨R, H, l⟩ : Hand).Ok) (hF : Steady R F)
    (hK : ∀ b, K b ≠ some (.fresh i)) (hw : Own i ⟨a ::ₘ R, inUse held {a} H, l⟩ K w) (hf : F w)
    (hr : (w.mem.node a).refcount ≠ 2) :
    ∃ g, Shape pool (w.mem.setRefcount a ((w.mem.node a).refcount - 2)) g ∧
      Trans i w.mem w.ghost (w.mem.setRefcount a ((w.mem.node a).refcount - 2)) g ∧
      Booked i w (if held then some (.released a) else none) g ∧
      Dropped i a R H l K F 0 (w.next i (if held then some (.released a) else none)
        (w.mem.setRefcount a ((w.mem.node a).refcount - 2)) g) := by
  have hhand := hw.hand
  have hT := Trans.count (s := w.mem) (g := w.ghost) i a ((w.mem.node a).refcount - 2) ⟨R, H, l⟩
  refine ⟨w.ghost.setHand i ⟨R, H, l⟩, ?_, hT, ?_, .inl ⟨rfl, ?_, ?_⟩⟩
  · apply hI.shape.dropRef hok
    · rw [hhand]
    · rw [hhand]
    · rw [hhand]; exact le_inUse held {a}
    · exact hw.not_fresh hK
    · exact hr
  · apply booked_release hw.busy
    · rw [hhand, setHand_self]
    · exact fun _ => Iff.rfl
  · apply hw.setHand
    intro op b
    cases held <;> simp
  · refine hF.step hf hT ?_
    rw [setHand_self]

theorem decrementAndTestAndSet_spec (held : Bool) (hok : (⟨R, H, l⟩ : Hand).Ok) (hF : Steady R F)
    (hK : ∀ b, K b ≠ some (.fresh i)) (fuel : Nat) :
    Spec pool first i (fun w => Own i ⟨a ::ₘ R, inUse held {a} H, l⟩ K w ∧ F w)
      (decrementAndTestAndSet fuel a (if held then some (.released a) else none)) (Dropped i a R H l K F) := by
  have hstill : Still pool first i fun w => Own i ⟨a ::ₘ R, inUse held {a} H, l⟩ K w ∧ F w :=
    .own (hF.mono (Multiset.le_cons_self R a))
  apply Proto.Triple.iter (J := fun _ w => Own i ⟨a ::ₘ R, inUse held {a} H, l⟩ K w ∧ F w)
  intro _
  apply Proto.Triple.bind (Spec.load hstill (fun w hw => hw.1.busy) (fun _ hw _ => hw) fun _ => hstill.silent)
  intro old
  apply Proto.Triple.bind (B := fun ok w => if ok = true then
    Dropped i a R H l K F ((old - if old - 2 = 0 then 1 else old - 2) % 2) w
    else Own i ⟨a ::ₘ R, inUse held {a} H, l⟩ K w ∧ F w)
  · apply Spec.cas hstill.stable
    · rintro w ⟨hw, hf⟩ hI rfl
      simp only [if_true]
      by_cases hr : (w.mem.node a).refcount = 2
      · have hlast := Dropped.last hI hok hF hK hw hf hr
        have hz : (w.mem.node a).refcount - 2 = 0 := by omega
        have hodd : ((w.mem.node a).refcount - 1) % 2 = 1 := by omega
        simpa only [if_pos hz, hodd] using hlast
      · have hmore := Dropped.more hI hok hF hK hw hf hr
        have hne : ¬ (w.mem.node a).refcount - 2 = 0 := by omega
        have hodd : ((w.mem.node a).refcount - ((w.mem.node a).refcount - 2)) % 2 = 0 := by omega
        simpa only [if_neg hne, hodd] using hmore
    · intro w hw hI _
      refine ⟨w.ghost, hI.shape, .refl .., .silent hw.1.busy rfl fun _ => Iff.rfl, ?_⟩
      rw [if_neg Bool.false_ne_true]
      exact hstill.silent w hw
  · intro ok
    cases ok with
    | true => exact Proto.Triple.ret fun _ hw => hw
    | false => exact Proto.Triple.ret fun _ hw => hw

/-! ## `reclaim` and `release` -/

theorem assertFreeList_spec {A : W n → Prop} (hA : Still pool first i A) (hbusy : ∀ w, A w → Busy i w.log) :
    Spec pool first i A (assertFreeList i) fun _ => A := by
  apply Proto.Triple.bind (B := fun f w => f = clearDeleted f ∧ A w)
  · apply Spec.load hA hbusy
    · intro w hw hI
      exact ⟨Ptr.eq_of_addr (hI.shape.frees.headTag i) rfl rfl, hw⟩
    · exact fun _ w hw => ⟨hw.1, hA.silent w hw.2⟩
  · intro f
    apply Proto.Triple.fact (fun _ hw => hw.1)
    intro hf
    rw [check, if_pos hf]
    exact Proto.Triple.ret fun _ hw => hw.2

/-- Loads of `freeList`, which no other thread writes. -/
theorem loadFreeList_spec {A : W n → Prop} (hA : Still pool first i A) (hbusy : ∀ w, A w → Busy i w.log) :
    Spec pool first i A (load (·.freeList i)) fun f w => A w ∧ Top i f w :=
  Spec.load hA hbusy (fun _ hw _ => ⟨hw, rfl⟩) fun f => (hA.and (.top f)).silent

theorem pushFree_spec {f : Ptr} (ha : a ∉ h.refs) (hK : K a = none) (hF : Steady h.refs F) :
    Spec pool first i (fun w => ((Own i h (Function.update K a (some (.dead i))) w ∧ F w) ∧ Top i f w) ∧
        Wrote i a (fun e => e.nextEntry = f) w)
      (store (·.setFreeList i ⟨a, false⟩)) fun _ w => Own i h K w ∧ F w := by
  have hstill : Still pool first i fun w => ((Own i h (Function.update K a (some (.dead i))) w ∧ F w) ∧ Top i f w) ∧
      Wrote i a (fun e => e.nextEntry = f) w := ((Still.own hF).and (.top f)).and (.wrote a _)
  apply Spec.step hstill.stable
  rintro w ⟨⟨⟨hw, hf⟩, htop⟩, -, hnext⟩ hI
  have hdead := hw.stage (Function.update_self a (some (.dead i)) K)
  have hheld : a ∉ (w.ghost.hand i).held := by
    intro hmem
    obtain hmem | ⟨l, hl, hmem⟩ := hI.shape.mem_of_held hmem
    · rw [hw.hand] at hmem
      exact ha hmem
    · have hlive := hI.shape.live_of_word hl hmem
      rw [hdead] at hlive
      cases hlive
  have hT := Trans.freeList_write (s := w.mem) (.free i) ⟨a, false⟩ (a :: w.ghost.frees i)
    (by rw [hdead]; rfl : (w.ghost.stage a).owner = some i) rfl fun _ => trivial
  refine ⟨_, hI.shape.pushFree hdead hheld (hnext.trans htop.symm), hT, ?_, ⟨?_, hw.hand, ?_⟩, ?_⟩
  · refine .silent hw.busy rfl fun b => ?_
    change ((w.ghost.setStage a (.free i)).stage b).Born ↔ _
    by_cases hba : b = a
    · subst hba; rw [setStage_self, hdead]; exact Iff.rfl
    · rw [setStage_of_ne _ hba]
  · exact busy_next hw.busy (by simp)
  · intro b
    change ((w.ghost.setStage a (.free i)).stage b).mine i = K b
    by_cases hba : b = a
    · subst hba; rw [setStage_self, hK]; rfl
    · rw [setStage_of_ne _ hba, hw.mine, Function.update_of_ne hba]
  · refine hF.step hf hT ?_
    change h.refs ≤ (w.ghost.hand i).refs
    rw [hw.hand]

theorem reclaim_spec (ha : a ∉ h.refs) (hK : K a = none) (hF : Steady h.refs F) :
    Spec pool first i (fun w => Own i h (Function.update K a (some (.dead i))) w ∧ F w) (reclaim i a)
      fun _ w => Own i h K w ∧ F w := by
  have hstill : Still pool first i fun w => Own i h (Function.update K a (some (.dead i))) w ∧ F w := .own hF
  apply Proto.Triple.bind (assertFreeList_spec hstill fun w hw => hw.1.busy)
  intro _
  apply Proto.Triple.bind (loadFreeList_spec hstill fun w hw => hw.1.busy)
  intro f
  apply Proto.Triple.bind (B := fun _ w => ((Own i h (Function.update K a (some (.dead i))) w ∧ F w) ∧ Top i f w) ∧
    Wrote i a (fun e => e.nextEntry = f) w)
  · apply Spec.step (hstill.and (.top f)).stable
    rintro w ⟨⟨hw, hf⟩, htop⟩ hI
    have hdead := hw.stage (Function.update_self a (some (.dead i)) K)
    have hscr : Scribble i a w.ghost w.mem (w.mem.setNext a f) :=
      .setNext f (by rw [hdead]; rfl) fun j e => by rw [hdead] at e; cases e
    refine ⟨w.ghost, hscr.shape hI.shape, hscr.trans, .silent hw.busy rfl fun _ => Iff.rfl,
      ⟨⟨⟨busy_next hw.busy (by simp), hw.hand, hw.mine⟩, ?_⟩, htop⟩, hscr.owner, setNext_self⟩
    exact hF.step hf hscr.trans (by rw [hw.hand])
  intro _
  apply Proto.Triple.bind (pushFree_spec ha hK hF)
  intro _
  exact assertFreeList_spec (.own hF) fun w hw => hw.1.busy

/-- `release` gives one reference back. Whatever entries it reclaims on its way, the other
references of the hand stay, and with them what is steady in them. -/
theorem release_spec (fuel : Nat) (held : Bool) (q : Ptr) (hok : (⟨R, H, l⟩ : Hand).Ok) (hF : Steady R F)
    (hK : ∀ b, K b ≠ some (.fresh i)) :
    Spec pool first i (fun w => Own i ⟨own q + R, inUse held (own q) H, l⟩ K w ∧ F w) (release i fuel held q)
      fun _ w => Own i ⟨R, H, l⟩ K w ∧ F w := by
  induction fuel generalizing held q K with
  | zero => exact Proto.Triple.halt
  | succ fuel ih =>
    unfold release
    apply Proto.Triple.ite
    · intro hnull
      have h0 : q.addr = 0 := congrArg Ptr.addr hnull
      apply Proto.Triple.ret
      rintro w ⟨hw, hf⟩
      cases held with
      | true => simp only [own_eq_zero h0, inUse, zero_add, if_true] at hw; exact ⟨hw, hf⟩
      | false => simp only [own_eq_zero h0, inUse, zero_add, Bool.false_eq_true, if_false] at hw; exact ⟨hw, hf⟩
    · intro hnull
      have h0 : q.addr ≠ 0 := fun e => hnull (Ptr.eq_null rfl e)
      rw [own_of_ne h0, Multiset.singleton_add]
      apply Proto.Triple.bind (decrementAndTestAndSet_spec held hok hF hK fuel)
      intro last
      apply Proto.Triple.ite
      · intro hlast
        apply Proto.Triple.ret
        rintro w (⟨-, hw⟩ | ⟨hne, -⟩)
        · exact hw
        · exact absurd hlast hne
      · intro hlast
        apply Proto.Triple.bind (B := fun next w => K q.addr = none ∧ q.addr ∉ R ∧
          Own i ⟨own next + R, inUse false (own next) H, l⟩ (Function.update K q.addr (some (.dead i))) w ∧ F w)
        · apply Proto.Triple.pre (A := fun w => ∃ nx, (K q.addr = none ∧ q.addr ∉ R) ∧
            (Own i ⟨own nx + R, H, l⟩ (Function.update K q.addr (some (.dead i))) w ∧ F w) ∧
            Wrote i q.addr (fun e => e.nextEntry = nx) w)
          · apply Proto.Triple.exists
            intro nx
            have hstill : Still pool first i fun w =>
                Own i ⟨own nx + R, H, l⟩ (Function.update K q.addr (some (.dead i))) w ∧ F w :=
              .own (hF.mono (Multiset.le_add_left R _))
            apply Spec.load ((Still.fact _).and (hstill.and (.wrote q.addr _)))
            · exact fun w hw => hw.2.1.1.busy
            · rintro w ⟨⟨hk, hR⟩, hw, -, hnext⟩ -
              simp only [clearDeleted_addr, hnext]
              exact ⟨hk, hR, hw⟩
            · rintro next w ⟨hk, hR, hw, hf⟩
              exact ⟨hk, hR, Own.silent (hF.mono (Multiset.le_add_left R _)) ⟨hw, hf⟩⟩
          · rintro w (⟨heq, -⟩ | ⟨-, hk, hR, nx, hw, hwrote⟩)
            · exact absurd heq hlast
            · exact ⟨nx, ⟨hk, hR⟩, hw, hwrote⟩
        intro next
        apply Proto.Triple.fact (c := K q.addr = none ∧ q.addr ∉ R) (fun w hw => ⟨hw.1, hw.2.1⟩)
        rintro ⟨hk, hR⟩
        have hK' : ∀ b, Function.update K q.addr (some (.dead i)) b ≠ some (.fresh i) := by
          intro b
          by_cases hb : b = q.addr
          · subst hb; rw [Function.update_self]; simp
          · rw [Function.update_of_ne hb]; exact hK b
        apply Proto.Triple.bind
        · exact (ih false next hK').pre fun w hw => hw.2.2
        · intro _
          exact reclaim_spec (h := ⟨R, H, l⟩) hR hk hF

/-! ## `safeRead` -/

theorem addRef_spec {A B : W n → Prop} (took : Bool) {l' : Option (Nat × Nat)}
    (hok : (⟨a ::ₘ R, inUse took {a} H, l'⟩ : Hand).Ok) (hl : l' = none ∨ l' = l)
    (hA : (proto n pool first).Stable i A) (hown : ∀ w, A w → Own i ⟨R, H, l⟩ K w)
    (hborn : ∀ w, A w → Inv pool first w → (w.ghost.stage a).Born) (htook : took = true → K a = some (.dead i))
    (hB : ∀ w w', A w → Inv pool first w → Calm (a ::ₘ R) w w' → w'.ghost.stage = w.ghost.stage →
      (∀ b, (w'.mem.node b).toEntry = (w.mem.node b).toEntry) → B w') :
    Spec pool first i A (addRef a (if took then some (.acquired a) else none))
      fun _ w => Own i ⟨a ::ₘ R, inUse took {a} H, l'⟩ K w ∧ B w := by
  apply Spec.step hA
  intro w hA hI
  have hw := hown w hA
  have hT := Trans.count (s := w.mem) (g := w.ghost) i a ((w.mem.node a).refcount + 2)
    ⟨a ::ₘ R, inUse took {a} H, l'⟩
  refine ⟨_, hI.shape.addRef (hborn w hA hI) hok ?_ ?_ ?_, hT, ?_, ?_, ?_⟩
  · rw [hw.hand]
  · rw [hw.hand]; exact hl
  · intro b hb
    have hheld := hI.shape.hands.held i b
    rw [hw.hand] at hheld
    cases took with
    | true =>
      obtain rfl | hb := Multiset.mem_cons.1 hb
      · rw [hw.stage (htook rfl)]; rfl
      · exact hheld hb
    | false => exact hheld hb
  · cases took with
    | true =>
      apply Booked.gains hw.busy
      · rw [setHand_self, hw.hand]; rfl
      · exact fun _ => Iff.rfl
    | false =>
      apply Booked.silent hw.busy
      · rw [setHand_self, hw.hand]; rfl
      · exact fun _ => Iff.rfl
  · apply hw.setHand
    intro op b
    cases took <;> simp
  · refine hB w _ hA hI (Trans.calm hT i ?_) rfl fun b => setRefcount_toEntry _
    rw [World.next_ghost, setHand_self]

/-- `safeRead(&q)` of a local variable that points to a counted entry. -/
theorem safeReadLocal_spec {A B : W n → Prop} {q : Ptr} {l' : Option (Nat × Nat)}
    (hok : (⟨own q + R, H, l'⟩ : Hand).Ok) (hl : l' = none ∨ l' = l) (hnull : q.addr = 0 → l' = l ∧ ∀ w, A w → B w)
    (hA : (proto n pool first).Stable i A) (hown : ∀ w, A w → Own i ⟨R, H, l⟩ K w)
    (hborn : ∀ w, A w → Inv pool first w → q.addr ≠ 0 → (w.ghost.stage q.addr).Born)
    (hB : ∀ w w', A w → Inv pool first w → Calm (own q + R) w w' → w'.ghost.stage = w.ghost.stage →
      (∀ b, (w'.mem.node b).toEntry = (w.mem.node b).toEntry) → B w') :
    Spec pool first i A (safeReadLocal q none) fun _ w => Own i ⟨own q + R, H, l'⟩ K w ∧ B w := by
  apply Proto.Triple.ite
  · intro h
    have h0 : q.addr = 0 := congrArg Ptr.addr h
    apply Proto.Triple.ret
    intro w hw
    rw [own_eq_zero h0, zero_add, (hnull h0).1]
    exact ⟨hown w hw, (hnull h0).2 w hw⟩
  · intro h
    have h0 : q.addr ≠ 0 := fun e => h (Ptr.eq_null rfl e)
    rw [own_of_ne h0, Multiset.singleton_add] at hok hB ⊢
    exact addRef_spec false hok hl hA hown (fun w hw hI => hborn w hw hI h0) (by simp) hB

/-- What a load of a counted word has shown. A mark stays. -/
structure Glimpse (loc : Loc) (q : Ptr) (w : W n) : Prop where
  counts : w.ghost.Counts loc
  born : q.addr ≠ 0 → (w.ghost.stage q.addr).Born
  head : loc = .head → q.tag = false
  marked : q.tag = true → w.mem.word loc = q

def Alive (q : Ptr) (w : W n) : Prop := q.addr ≠ 0 → w.ghost.stage q.addr = .live

/-- The entry of the word is among the references of `R`. -/
def Within (R : Multiset Nat) : Loc → Prop
  | .head => True
  | .next a => a ∈ R

theorem steady_counts {loc : Loc} (hloc : Within R loc) : Steady (n := n) R fun w => w.ghost.Counts loc := by
  intro w w' hc h
  cases loc with
  | head => trivial
  | next a => exact (hc.live a hloc h).live

theorem steady_glimpse {loc : Loc} (hloc : Within R loc) (q : Ptr) : Steady (n := n) R (Glimpse loc q) := by
  intro w w' hc h
  refine ⟨steady_counts hloc w w' hc h.counts, fun h0 => hc.born _ (h.born h0), h.head, fun ht => ?_⟩
  have hmark := h.marked ht
  cases loc with
  | head => rw [h.head rfl] at ht; cases ht
  | next a => exact ((hc.live a hloc h.counts).frozen (by rw [show (w.mem.node a).nextEntry = q from hmark, ht])).trans hmark

theorem steady_alive {q : Ptr} (hq : own q ≤ R) : Steady (n := n) R (Alive q) := by
  intro w w' hc h h0
  exact (hc.live _ (Multiset.mem_of_le hq (mem_own.2 ⟨rfl, h0⟩)) (h h0)).live

theorem Inv.glimpse (hI : Inv pool first w) {loc : Loc} (hloc : w.ghost.Counts loc) :
    Glimpse loc (w.mem.word loc) w ∧ Alive (w.mem.word loc) w := by
  have hl := (hI.shape.net.mem_locs loc).2 hloc
  have halive : Alive (w.mem.word loc) w := fun h0 => (hI.shape.net.target loc hl h0).1
  refine ⟨⟨hloc, fun h0 => ?_, ?_, fun _ => rfl⟩, halive⟩
  · rw [halive h0]; trivial
  · rintro rfl
    exact hI.shape.net.headTag

/-- The second load of `safeRead`: when it reads the same pointer, the count taken is a
reference to a live entry. -/
theorem validate_spec {loc : Loc} {q : Ptr} (h0 : q.addr ≠ 0) (hH : H ≤ R) (hloc : Within R loc) (hF : Steady R F) :
    Spec pool first i (fun w => Own i ⟨own q + R, H, none⟩ K w ∧ F w ∧ Glimpse loc q w)
      (watch (·.word loc) fun q' => if q = q' then some (.acquired q.addr) else none)
      fun q' w => Own i ⟨own q + R, inUse (decide (q = q')) (own q) H, none⟩ K w ∧ F w ∧ Glimpse loc q w ∧
        (q = q' → Alive q w) := by
  have hsteady : Steady R fun w => F w ∧ Glimpse loc q w := hF.and (steady_glimpse hloc q)
  have hle : R ≤ own q + R := Multiset.le_add_left R _
  apply Spec.step (Still.own (hsteady.mono hle)).stable
  rintro w ⟨hw, hf, hg⟩ hI
  by_cases hq : q = w.mem.word loc
  · have hlive := (hI.glimpse hg.counts).2
    rw [← hq] at hlive
    have hT := Trans.rehand (s := w.mem) (g := w.ghost) (i := i) ⟨own q + R, own q + H, none⟩
    simp only [if_pos hq]
    refine ⟨_, hI.shape.rehand ⟨?_, fun _ _ e => by cases e⟩ ?_ (.inl rfl) ?_, hT, ?_, ?_, ?_, ?_, fun _ => hlive⟩
    · exact (add_le_add_right hH _).trans (Multiset.le_add_right _ _)
    · rw [hw.hand]
    · intro b hb
      obtain hb | hb := Multiset.mem_add.1 hb
      · obtain ⟨rfl, -⟩ := mem_own.1 hb
        rw [hlive h0]; trivial
      · have hheld := hI.shape.hands.held i b
        rw [hw.hand] at hheld
        exact hheld hb
    · apply Booked.gains hw.busy
      · rw [setHand_self, hw.hand, own_of_ne h0]; rfl
      · exact fun _ => Iff.rfl
    · simp only [decide_eq_true hq]
      exact hw.setHand (by simp)
    · refine hF.step hf hT ?_
      rw [setHand_self]; exact hle
    · refine (steady_glimpse hloc q).step hg hT ?_
      rw [setHand_self]; exact hle
  · simp only [if_neg hq]
    refine ⟨w.ghost, hI.shape, .refl .., .silent hw.busy rfl fun _ => Iff.rfl, ?_⟩
    have hd : decide (q = w.mem.word loc) = false := decide_eq_false hq
    obtain ⟨h1, h2, h3⟩ := Own.silent (hsteady.mono hle) ⟨hw, hf, hg⟩
    refine ⟨?_, h2, h3, fun e => absurd e hq⟩
    rw [hd]
    exact h1

/-- `safeRead` of a counted word. -/
theorem safeRead_spec (loc : Loc) (hH : H ≤ R) (hloc : Within R loc) (hF : Steady R F)
    (hK : ∀ b, K b ≠ some (.fresh i)) (fuel : Nat) :
    Spec pool first i (fun w => Own i ⟨R, H, none⟩ K w ∧ F w ∧ w.ghost.Counts loc) (safeRead i fuel loc)
      fun q w => Own i ⟨own q + R, own q + H, none⟩ K w ∧ F w ∧ Glimpse loc q w ∧ Alive q w := by
  have hok : ∀ p : Multiset Nat, (⟨p + R, H, none⟩ : Hand).Ok := fun p =>
    Hand.Ok.more ⟨by rw [show (⟨R, H, none⟩ : Hand).loan = 0 from rfl, add_zero]; exact hH, fun _ _ e => by cases e⟩
  apply Proto.Triple.iter (J := fun _ w => Own i ⟨R, H, none⟩ K w ∧ F w ∧ w.ghost.Counts loc)
  intro _
  apply Proto.Triple.bind (B := fun q w => Own i ⟨R, H, none⟩ K w ∧ (F w ∧ Glimpse loc q w) ∧ (q.addr = 0 → Alive q w))
  · apply Spec.load (Still.own (hF.and (steady_counts hloc))) fun w hw => hw.1.busy
    · rintro w ⟨hw, hf, hc⟩ hI
      exact ⟨hw, ⟨hf, (hI.glimpse hc).1⟩, fun _ => (hI.glimpse hc).2⟩
    · rintro q w ⟨hw, hf, hnull⟩
      obtain ⟨h1, h2⟩ := Own.silent (hF.and (steady_glimpse hloc q)) ⟨hw, hf⟩
      exact ⟨h1, h2, hnull⟩
  intro q
  apply Proto.Triple.ite
  · intro h
    have h0 : q.addr = 0 := congrArg Ptr.addr h
    apply Proto.Triple.ret
    rintro w ⟨hw, ⟨hf, hg⟩, hnull⟩
    refine ⟨?_, hf, hg, hnull h0⟩
    rw [own_eq_zero h0, zero_add, zero_add]
    exact hw
  · intro h
    have h0 : q.addr ≠ 0 := fun e => h (Ptr.eq_null rfl e)
    apply Proto.Triple.bind (B := fun _ w => Own i ⟨own q + R, H, none⟩ K w ∧ F w ∧ Glimpse loc q w)
    · rw [own_of_ne h0, Multiset.singleton_add]
      have hok' := hok {q.addr}
      rw [Multiset.singleton_add] at hok'
      have hsteady : Steady R fun w => F w ∧ Glimpse loc q w := hF.and (steady_glimpse hloc q)
      apply Proto.Triple.pre (A := fun w => Own i ⟨R, H, none⟩ K w ∧ F w ∧ Glimpse loc q w)
      · apply addRef_spec (l := none) false hok' (.inl rfl) (Still.own hsteady).stable fun w hw => hw.1
        · exact fun w hw _ => hw.2.2.born h0
        · simp
        · exact fun w w' hw _ hc _ _ => hsteady.mono (Multiset.le_cons_self R _) w w' hc hw.2
      · exact fun w hw => ⟨hw.1, hw.2.1⟩
    intro _
    apply Proto.Triple.bind (validate_spec h0 hH hloc hF)
    intro q'
    apply Proto.Triple.ite
    · intro hq
      apply Proto.Triple.ret
      rintro w ⟨hw, hf, hg, ha⟩
      simp only [decide_eq_true hq] at hw
      exact ⟨hw, hf, hg, ha hq⟩
    · intro hq
      rw [decide_eq_false hq]
      apply Proto.Triple.bind (B := fun _ w => Own i ⟨R, H, none⟩ K w ∧ F w ∧ w.ghost.Counts loc)
      · apply Proto.Triple.pre (release_spec (l := none) fuel false q ?_ (hF.and (steady_counts hloc)) hK)
        · rintro w ⟨hw, hf, hg, -⟩
          exact ⟨hw, hf, hg.counts⟩
        · have hzero := hok 0
          rwa [zero_add] at hzero
      · intro _
        exact Proto.Triple.ret fun _ hw => hw

/-! ## `newRC` -/

/-- Thread `i` alone has `a`, at stage `st`. -/
def alone (a : Nat) (st : Stage n) : Nat → Option (Stage n) := Function.update bare a (some st)

theorem own_restage {s' : Mem n} {ev : Option Ev} {st st' : Stage n} {g' : Ghost n} (hw : Own i h (alone a st) w)
    (hev : ∀ op b, ev ≠ some (.ret op b)) (hhand : g'.hand i = h)
    (hstage : g'.stage = (w.ghost.setStage a st').stage) (hst : st'.mine i = some st') :
    Own i h (alone a st') (w.next i ev s' g') := by
  refine ⟨busy_next hw.busy hev, hhand, fun b => ?_⟩
  rw [World.next_ghost, hstage, mine_update hw.mine hst, alone, Function.update_idem, alone]

theorem palloc_spec (hinj : Function.Injective pool) (hz : ∀ k, pool k ≠ 0) (hF : Steady h.refs F) :
    Spec pool first i (fun w => Own i h bare w ∧ F w) palloc
      fun p w => p.tag = false ∧ Own i h (alone p.addr (.raw i)) w ∧ F w := by
  apply Spec.step (Still.own hF).stable
  rintro w ⟨hw, hf⟩ hI
  have hstage := hI.shape.supply.unborn w.mem.brk le_rfl
  have hpool := hI.shape.supply.pool_eq
  have hrestage : Trans i w.mem w.ghost w.mem (w.ghost.setStage (pool w.mem.brk) (.raw i)) := by
    apply Trans.restage
    · intro j _ e
      rw [hstage] at e; cases e
    · rw [hstage]; intro e; cases e
    · exact fun j hj e => hj (Option.some.inj e).symm
    · intro hb
      rw [hstage] at hb
      exact hb.elim
  have hT : Trans i w.mem w.ghost { w.mem with brk := w.mem.brk + 1 } (w.ghost.setStage (pool w.mem.brk) (.raw i)) :=
    ⟨hrestage.hand, hrestage.freeList, hrestage.stage, hrestage.node, hrestage.born, fun b hb =>
      (hrestage.keep b hb).imp_left fun hl => ⟨hl.live, rfl, fun _ => rfl⟩⟩
  refine ⟨_, hI.shape.palloc hinj hz, hT, .silent hw.busy rfl fun b => ?_, rfl, ?_, ?_⟩
  · by_cases hb : b = pool w.mem.brk
    · subst hb; rw [setStage_self, hstage]; exact Iff.rfl
    · rw [setStage_of_ne _ hb]
  · change Own i h (alone (w.mem.pool w.mem.brk) (.raw i)) _
    rw [congrFun hpool]
    exact ⟨busy_next hw.busy (by simp), hw.hand, mine_update hw.mine (Stage.mine_raw i)⟩
  · refine hF.step hf hT ?_
    change h.refs ≤ (w.ghost.hand i).refs
    rw [hw.hand]

theorem initialise_spec {p : Ptr} (hH : H ≤ R) (hF : Steady R F) :
    Spec pool first i (fun w => Own i ⟨R, H, none⟩ (alone p.addr (.raw i)) w ∧ F w)
      (step (fun _ => some (.initialised p.addr)) (·.setRefcount p.addr 2) fun _ => ret p)
      fun q w => q = p ∧ Own i ⟨p.addr ::ₘ R, p.addr ::ₘ H, none⟩ (alone p.addr (.fresh i)) w ∧ F w := by
  apply Spec.step (Still.own hF).stable
  rintro w ⟨hw, hf⟩ hI
  have hraw : w.ghost.stage p.addr = .raw i := hw.stage (Function.update_self ..)
  have hT := Trans.initialise (s := w.mem) (i := i) hraw 2 ⟨p.addr ::ₘ R, p.addr ::ₘ H, none⟩
  have hown : Own i ⟨p.addr ::ₘ R, p.addr ::ₘ H, none⟩ (alone p.addr (.fresh i)) (w.next i (some (.initialised p.addr))
      (w.mem.setRefcount p.addr 2)
      ((w.ghost.setStage p.addr (.fresh i)).setHand i ⟨p.addr ::ₘ R, p.addr ::ₘ H, none⟩)) :=
    ⟨busy_next hw.busy (by simp), setHand_self _, fun b => by
      rw [show alone p.addr (Stage.fresh i) = Function.update (alone p.addr (.raw i)) p.addr (some (.fresh i)) by
        unfold alone; rw [Function.update_idem]]
      exact mine_update hw.mine (Stage.mine_fresh i) b⟩
  refine ⟨_, hI.shape.initialise hraw ⟨?_, fun _ _ e => by cases e⟩ ?_ ?_ ?_, hT, ⟨fun b => ?_, fun b => ?_, by simp,
    fun hno => absurd hown.busy hno⟩, rfl, hown, ?_⟩
  · exact (Multiset.cons_le_cons p.addr hH).trans (Multiset.le_add_right _ _)
  · rw [hw.hand]
  · rw [hw.hand]
  · rw [hw.hand]
  · rw [setHand_self, hw.hand, Multiset.count_cons]
    simp only [gain]
    by_cases hb : b = p.addr
    · subst hb; simp only [if_true]; omega
    · rw [if_neg hb, if_neg fun e => hb e.symm]; omega
  · change ((w.ghost.setStage p.addr (.fresh i)).stage b).Born ↔ _
    by_cases hb : b = p.addr
    · subst hb; rw [setStage_self, hraw]; simp [Stage.Born]
    · rw [setStage_of_ne _ hb]
      simp [Ne.symm hb]
  · refine hF.step hf hT ?_
    rw [setHand_self]
    exact Multiset.le_cons_self R _

theorem popFree_spec {p next : Ptr} (hp : p ≠ NULL) (hF : Steady h.refs F) :
    Spec pool first i (fun w => ((Own i h bare w ∧ F w) ∧ Top i p w) ∧ Wrote i p.addr (fun e => e.nextEntry = next) w)
      (store (·.setFreeList i next)) fun _ w => Own i h (alone p.addr (.dead i)) w ∧ F w := by
  apply Spec.step (((Still.own hF).and (.top p)).and (.wrote p.addr _)).stable
  rintro w ⟨⟨⟨hw, hf⟩, htop⟩, howner, hnext⟩ hI
  have hne : w.mem.freeList i ≠ NULL := by rw [show w.mem.freeList i = p from htop]; exact hp
  have hfree : w.ghost.stage p.addr = .free i := by
    obtain hnull | ⟨hstage, -⟩ := hI.shape.frees_cases i
    · exact absurd hnull hne
    · rw [← hstage, show w.mem.freeList i = p from htop]
  obtain ⟨F', hS⟩ := hI.shape.popFree (a := p.addr) hne (by rw [show w.mem.freeList i = p from htop])
  rw [show (w.mem.node p.addr).nextEntry = next from hnext] at hS
  have hT := Trans.freeList_write (s := w.mem) (.dead i) next F' howner rfl fun _ => trivial
  refine ⟨_, hS, hT, .silent hw.busy rfl fun b => ?_, ⟨busy_next hw.busy (by simp), hw.hand, ?_⟩, ?_⟩
  · change ((w.ghost.setStage p.addr (.dead i)).stage b).Born ↔ _
    by_cases hb : b = p.addr
    · subst hb; rw [setStage_self, hfree]; exact Iff.rfl
    · rw [setStage_of_ne _ hb]
  · exact mine_update hw.mine (Stage.mine_dead i)
  · refine hF.step hf hT ?_
    change h.refs ≤ (w.ghost.hand i).refs
    rw [hw.hand]

theorem clearLowestBit_spec (ha : a ∈ h.refs) (hF : Steady h.refs F) (fuel : Nat) :
    Spec pool first i (fun w => Own i h (alone a (.dead i)) w ∧ F w) (clearLowestBit fuel a)
      fun _ w => Own i h (alone a (.fresh i)) w ∧ F w := by
  have hstill : Still pool first i fun w => Own i h (alone a (.dead i)) w ∧ F w := .own hF
  apply Proto.Triple.iter (J := fun _ w => Own i h (alone a (.dead i)) w ∧ F w)
  intro _
  apply Proto.Triple.bind (Spec.load hstill (fun w hw => hw.1.busy) (fun _ hw _ => hw) fun _ => hstill.silent)
  intro old
  apply Proto.Triple.bind (B := fun ok w => if ok = true then Own i h (alone a (.fresh i)) w ∧ F w
    else Own i h (alone a (.dead i)) w ∧ F w)
  · apply Spec.cas hstill.stable
    · rintro w ⟨hw, hf⟩ hI rfl
      have hdead : w.ghost.stage a = .dead i := hw.stage (Function.update_self ..)
      have hT := Trans.clearBit (s := w.mem) hdead ((w.mem.node a).refcount - 1)
      refine ⟨_, hI.shape.clearBit hdead (by rw [hw.hand]; exact ha), hT, .silent hw.busy rfl fun b => ?_, ?_⟩
      · by_cases hb : b = a
        · subst hb; rw [setStage_self, hdead]; exact Iff.rfl
        · rw [setStage_of_ne _ hb]
      · rw [if_pos rfl]
        refine ⟨own_restage hw (by simp) hw.hand rfl (Stage.mine_fresh i), hF.step hf hT ?_⟩
        change h.refs ≤ (w.ghost.hand i).refs
        rw [hw.hand]
    · intro w hw hI _
      refine ⟨w.ghost, hI.shape, .refl .., .silent hw.1.busy rfl fun _ => Iff.rfl, ?_⟩
      rw [if_neg Bool.false_ne_true]
      exact hstill.silent w hw
  · intro ok
    cases ok with
    | true => exact Proto.Triple.ret fun _ hw => hw
    | false => exact Proto.Triple.ret fun _ hw => hw

/-- `newRC` hands out an entry that no one else refers to, with a single reference. -/
theorem newRC_spec (hinj : Function.Injective pool) (hz : ∀ k, pool k ≠ 0) (hH : H ≤ R) (hF : Steady R F)
    (fuel : Nat) :
    Spec pool first i (fun w => Own i ⟨R, H, none⟩ bare w ∧ F w) (newRC i fuel)
      fun p w => p.tag = false ∧ Own i ⟨p.addr ::ₘ R, p.addr ::ₘ H, none⟩ (alone p.addr (.fresh i)) w ∧ F w := by
  have hstill : Still pool first i fun w => Own i ⟨R, H, none⟩ bare w ∧ F w := .own hF
  apply Proto.Triple.bind (assertFreeList_spec hstill fun w hw => hw.1.busy)
  intro _
  apply Proto.Triple.bind (B := fun p w => (p.tag = false ∧ Own i ⟨R, H, none⟩ bare w ∧ F w) ∧ Top i p w)
  · apply Spec.load hstill fun w hw => hw.1.busy
    · exact fun w hw hI => ⟨⟨hI.shape.frees.headTag i, hw⟩, rfl⟩
    · exact fun p w hw => ⟨⟨hw.1.1, hstill.silent w hw.1.2⟩, hw.2⟩
  intro p
  apply Proto.Triple.fact (fun w hw => hw.1.1)
  intro htag
  apply Proto.Triple.ite
  · intro _
    apply Proto.Triple.bind ((palloc_spec (h := ⟨R, H, none⟩) hinj hz hF).pre fun w hw => hw.1.2)
    intro p
    apply Proto.Triple.fact (fun w hw => hw.1)
    intro htag
    refine ((initialise_spec hH hF).pre fun w hw => hw.2).post ?_
    rintro q w ⟨rfl, hw⟩
    exact ⟨htag, hw⟩
  · intro hp
    have htop : Still pool first i fun w => (Own i ⟨R, H, none⟩ bare w ∧ F w) ∧ Top i p w := hstill.and (.top p)
    apply Proto.Triple.bind ((assertFreeList_spec htop fun w hw => hw.1.1.busy).pre fun w hw => ⟨hw.1.2, hw.2⟩)
    intro _
    apply Proto.Triple.bind (B := fun next w => ((Own i ⟨R, H, none⟩ bare w ∧ F w) ∧ Top i p w) ∧
      Wrote i p.addr (fun e => e.nextEntry = next) w)
    · apply Spec.load htop fun w hw => hw.1.1.busy
      · rintro w ⟨hw, ht⟩ hI
        refine ⟨⟨hw, ht⟩, ?_, rfl⟩
        obtain hnull | ⟨hstage, -⟩ := hI.shape.frees_cases i
        · exact absurd ((show w.mem.freeList i = p from ht).symm.trans hnull) hp
        · rw [show w.mem.freeList i = p from ht] at hstage
          rw [hstage]; rfl
      · exact fun next => (htop.and (.wrote p.addr _)).silent
    intro next
    apply Proto.Triple.bind (popFree_spec (h := ⟨R, H, none⟩) hp hF)
    intro _
    apply Proto.Triple.bind (assertFreeList_spec (.own hF) fun w hw => hw.1.busy)
    intro _
    have h0 : p.addr ≠ 0 := fun e => hp (Ptr.eq_null htag e)
    have hok : (⟨p.addr ::ₘ R, p.addr ::ₘ H, none⟩ : Hand).Ok :=
      ⟨(Multiset.cons_le_cons p.addr hH).trans (Multiset.le_add_right _ _), fun _ _ e => by cases e⟩
    apply Proto.Triple.bind (B := fun _ w => Own i ⟨p.addr ::ₘ R, p.addr ::ₘ H, none⟩ (alone p.addr (.dead i)) w ∧ F w)
    · rw [safeReadLocal, if_neg fun e => h0 (congrArg Ptr.addr e)]
      apply addRef_spec (l := none) true hok (.inl rfl) (Still.own hF).stable fun w hw => hw.1
      · intro w hw _
        rw [hw.1.stage (Function.update_self ..)]; trivial
      · exact fun _ => Function.update_self ..
      · exact fun w w' hw _ hc _ _ => hF.mono (Multiset.le_cons_self R _) w w' hc hw.2
    intro _
    apply Proto.Triple.bind (clearLowestBit_spec (h := ⟨p.addr ::ₘ R, p.addr ::ₘ H, none⟩)
      (Multiset.mem_cons_self p.addr R) (hF.mono (Multiset.le_cons_self R _)) fuel)
    intro _
    exact Proto.Triple.ret fun w hw => ⟨htag, hw⟩

end OptimisticAccess.RC
