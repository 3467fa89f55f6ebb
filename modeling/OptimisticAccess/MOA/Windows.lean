import OptimisticAccess.MOA.Lists
import OptimisticAccess.MOA.Serve

/-!
# Hazard pointers and the compare-and-swap they protect

In the list a thread has no cache in work and no object in `pfree`. Between a `FENCE_CHECK` that
passes and the compare-and-swap that follows, the objects its hazard pointers point to stay where
they are, keys and all; `Aimed` says so for the thread itself.
-/

namespace OptimisticAccess.MOA

open Conc Prog

variable {n : Nat} {i j : Fin n} {s s' : Mem n} {g g' : Ghost n} {a b k : Nat} {p q : Ptr} {H : Nat → Ptr} {S : Set Nat} {A C : Assert n} {o : Prop}
  {w w' : W n} {headOf : CInt → Nat} {key : CInt} {κ : Nat → CInt} {l : Word} {F G K : W n → Prop}

/-! ## In the list -/

/-- What a thread keeps in the list: its hazard pointers `H`, and the objects `S` it may read. -/
def outer (H : Nat → Ptr) (S : Set Nat) : Files := ⟨fun _ => none, ∅, H, S, False, False, True⟩

/-- Outside of a window; with `o`, no hazard pointer is set. -/
def Idle (i : Fin n) (o : Prop) (S : Set Nat) : Assert n := fun s g => ∃ H, (o → ∀ k < 3, H k = NULL) ∧ Holds i (outer H S) s g

theorem steady_idle : Steady i (Idle i o S) := fun j s g s' g' hp hS hS' hT h => by
  obtain ⟨H, h0, h⟩ := h
  exact ⟨H, h0, steady_holds j s g s' g' hp hS hS' hT h⟩

/-- The object is the thread's to read. -/
def Seen (i : Fin n) (a : Nat) : Assert n := fun _ g => g.spoiled i ∨ a ∈ g.since i

theorem Holds.see (h : Holds i (outer H S) s g) (ha : Seen i a s g) : Holds i (outer H (insert a S)) s g := by
  refine ⟨h.desk, h.hands, h.HPs, h.outside, ?_, h.spent, h.scan, h.ready⟩
  obtain ha | ha := ha
  · exact .inl ha
  · exact h.seen.imp_right fun hs => Set.insert_subset ha hs

theorem Holds.shrink {T : Set Nat} (h : Holds i (outer H S) s g) (hT : T ⊆ S) : Holds i (outer H T) s g :=
  ⟨h.desk, h.hands, h.HPs, h.outside, h.seen.imp_right fun hs => hT.trans hs, h.spent, h.scan, h.ready⟩

theorem Holds.seen_of (h : Holds i (outer H S) s g) (ha : a ∈ S) : Seen i a s g := h.seen.imp_right fun hs => hs ha

/-- A word of the list, or of an object seen. -/
def Known (S : Set Nat) : Word → Prop
  | .head _ => True
  | .next a => a ∈ S

/-- What a known word leads to is seen. -/
theorem seen_target {l : Word} (hS : Shape s g) (h : Holds i (outer H S) s g) (hl : Known S l) (h0 : (s.word l).addr ≠ 0) :
    Seen i (s.word l).addr s g := by
  have hg := hS.guard i
  cases l with
  | head b => exact .inr (hg.covers (hS.net.target (.head b) trivial h0))
  | next a =>
    by_cases hsp : g.spoiled i
    · exact .inl hsp
    · have ha := (h.seen_of hl).resolve_left hsp
      exact .inr (hg.closed a ha (hg.whole hsp ha) h0)

/-! ## Setting hazard pointers -/

/-- The assertion does not speak of hazard pointers or the window. -/
structure Blind (i : Fin n) (A : Assert n) : Prop where
  setHP : ∀ s g k p, A s g → A (s.setHP i k p) g
  setWindow : ∀ s g o, A s g → A s (g.setWindow i o)

theorem Blind.and (hA : Blind i A) (hC : Blind i C) : Blind i fun s g => A s g ∧ C s g :=
  ⟨fun s g k p h => ⟨hA.setHP s g k p h.1, hC.setHP s g k p h.2⟩, fun s g c h => ⟨hA.setWindow s g c h.1, hC.setWindow s g c h.2⟩⟩

theorem Blind.true : Blind i fun (_ : Mem n) (_ : Ghost n) => True := ⟨fun _ _ _ _ h => h, fun _ _ _ h => h⟩

theorem setHP_spec {F : Files} (hA : Steady i A) (hb : Blind i A) (k : Nat) (p : Ptr) :
    Spec i (fun s g => Holds i F s g ∧ A s g) (setHP i k p) fun _ s g => Holds i { F with HPs := Function.update F.HPs k p } s g ∧ A s g := by
  refine .act (steady_holds.and hA) fun s g h hS _ => ?_
  obtain ⟨h, hA⟩ := h
  obtain ⟨hS', hT⟩ := hS.setHP (i := i) (k := k) (p := p) h.outside
  refine ⟨g, ⟨hS', hT⟩, .of_quiet rfl rfl (fun _ => rfl) (fun _ => rfl) (fun _ h => h) (fun _ _ h => h) (fun _ => rfl) rfl, ?_,
    hb.setHP s g k p hA⟩
  refine ⟨h.desk, h.hands, ?_, h.outside, h.seen, h.spent, fun hs => (h.scan hs).trans hS hT rfl rfl, fun hr => (h.ready hr).trans hS hT rfl⟩
  change Function.update s.HPs i (Function.update (s.HPs i) k p) i = Function.update F.HPs k p
  rw [Function.update_self, h.HPs]

theorem clearHPs_spec {F : Files} (hA : Steady i A) (hb : Blind i A) :
    Spec i (fun s g => Holds i F s g ∧ A s g) (clearHPs i) fun _ s g => ∃ H, (∀ k < 3, H k = NULL) ∧ Holds i { F with HPs := H } s g ∧ A s g := by
  refine .bind (setHP_spec hA hb 2 NULL) fun _ => .bind (setHP_spec hA hb 1 NULL) fun _ => (setHP_spec hA hb 0 NULL).post fun _ s g h =>
    ⟨Function.update (Function.update (Function.update F.HPs 2 NULL) 1 NULL) 0 NULL, fun k hk => ?_, h⟩
  obtain rfl | rfl | rfl : k = 0 ∨ k = 1 ∨ k = 2 := by omega
  · exact Function.update_self ..
  · rw [Function.update_of_ne (by omega), Function.update_self]
  · rw [Function.update_of_ne (by omega), Function.update_of_ne (by omega), Function.update_self]

/-- The thread has taken its hazard pointers back. -/
theorem retreat_told (hF : Lasting headOf i F) : Told headOf i (Both (Holds i (outer H S)) F) (clearHPs i) fun _ => Both (Idle i o S) F := by
  have hclear : Spec i (Holds i (outer H S)) (clearHPs i) fun _ => Idle i o S :=
    ((clearHPs_spec (A := fun _ _ => True) (.fact _) .true).pre fun s g h => ⟨h, trivial⟩).post fun _ s g h => by
      obtain ⟨H', h0, h, -⟩ := h
      exact ⟨H', fun _ => h0, h⟩
  exact hclear.told aloof_clearHPs hF

/-! ## `CHECK` -/

/-- The dirty bit is cleared: the thread starts afresh. -/
theorem Idle.clean (h : Idle i o S s g) (hS : Shape s g) :
    ∃ g', (Shape (s.clean i) g' ∧ Trans i s g (s.clean i) g') ∧ Booked i s g none (s.clean i) g' ∧ Idle i o ∅ (s.clean i) g' := by
  obtain ⟨H, h0, h⟩ := h
  by_cases hd : s.dirty i = true
  swap
  · rw [clean_of_not_dirty (Bool.eq_false_iff.2 hd)]
    exact ⟨g, ⟨hS, .refl ..⟩, .refl .., H, h0, h.shrink (Set.empty_subset S)⟩
  obtain ⟨hS', hT⟩ := hS.clean hd
  refine ⟨g.clean i, ⟨hS', hT⟩, ?_, H, h0, h.desk, h.hands, h.HPs, h.outside, .inr (Set.empty_subset _), False.elim, False.elim,
    fun hr => (h.ready hr).trans hS hT rfl⟩
  exact .of_quiet rfl rfl (fun _ => rfl) (fun _ => rfl) (fun _ h => h) (fun _ _ h => h) (fun _ => rfl) rfl

theorem clean_told (hG : Logged i G) : Told headOf i (Both (Idle i o S) G) (store (·.clean i)) fun _ => Both (Idle i o ∅) G := by
  refine .aside (steady_idle.lists.and hG.lasting.stable) (fun _ => rfl) fun w hw hO => ?_
  obtain ⟨g', hS, hB, hidle⟩ := hw.1.clean hO.inv.shape
  exact ⟨g', hS, hB, fun _ _ => rfl, rfl, fun _ _ => rfl, fun _ => ⟨hidle, hG _ _ (.next rfl) hw.2⟩⟩

/-- A `CHECK` that passes vouches for what was read before it. -/
theorem CHECK_told (hF : Lasting headOf i F) (hG : Logged i G) (hsound : ∀ w, F w → ¬ w.ghost.spoiled i → K w) :
    Told headOf i (Both (Idle i o S) fun w => F w ∧ G w) (CHECK i) fun b w =>
      if b then Both (Idle i o ∅) G w else Both (Idle i o S) (fun w => K w ∧ G w) w := by
  refine .bind (B := fun d w => if d then Both (Idle i o S) G w else Both (Idle i o S) (fun w => K w ∧ G w) w)
    (Told.load steady_idle (hF.and hG.lasting) fun w hA _ hO hw' => ?_) fun d => .ite (fun hd => ?_) fun hd => .ret fun w h => by rwa [if_neg hd] at h
  · cases hd : w.mem.dirty i with
    | true => exact ⟨hA, hw'.2⟩
    | false =>
      have hsound' : ¬ w.ghost.spoiled i := fun h => by
        have := (hO.inv.shape.guard i).marred h
        rw [hd] at this
        cases this
      exact ⟨hA, hsound _ hw'.1 hsound', hw'.2⟩
  · refine .bind ((clean_told (S := S) hG).pre fun w h => ?_) fun _ => .ret fun w h => h
    rwa [if_pos hd] at h

/-! ## `FENCE_CHECK` -/

/-- Between `FENCE_CHECK` and the compare-and-swap. -/
structure Guarded (i : Fin n) (H : Nat → Ptr) (S : Set Nat) (s : Mem n) (g : Ghost n) : Prop where
  desk : sheet i s g = fun _ => none
  hands : ∀ a, g.spot a ≠ .hand i
  HPs : s.HPs i = H
  window : g.window i
  seen : g.spoiled i ∨ S ⊆ g.since i
  other : ∀ a ∈ S, g.spot a ≠ .mine i
  ready : Ready i s

theorem steady_guarded : Steady i (Guarded i H S) := fun _ s g s' g' hp hS _ hT h => by
  refine ⟨hp.sheet_eq.trans h.desk, fun a ha => h.hands a ((hp.hand_iff a).1 ha), hp.HPs.trans h.HPs, ?_, h.seen.imp hp.spoiled fun hs => hs.trans hp.since,
    fun a ha hm => h.other a ha ?_, h.ready.trans hS hT hp.localVer⟩
  · rw [hp.window]
    exact h.window
  · exact (hp.spot a (.inr (by rw [hm]; rfl))).symm.trans hm

/-- An object under a hazard pointer is in the list, or on its way to be cleared. -/
theorem Guarded.live (h : Guarded i H S s g) (hS : Shape s g) (hk : k < 3) (hH : H k = ⟨a, false⟩) (h0 : a ≠ 0) (ha : a ∈ S) : a ∈ g.live := by
  have hshield := hS.shield i h.window k hk
  rw [h.HPs, hH] at hshield
  exact (hshield fun e => h0 (congrArg Ptr.addr e)).2.resolve_right (h.other a ha)

theorem Guarded.close (h : Guarded i H S s g) (hHPs : s'.HPs i = H) (hsheet : sheet i s' g' = sheet i s g)
    (hhand : ∀ a, g'.spot a = .hand i ↔ g.spot a = .hand i) (hspoiled : g.spoiled i → g'.spoiled i) (hsince : g.since i ⊆ g'.since i)
    (hw : ¬ g'.window i) (hr : Ready i s') : Holds i (outer H S) s' g' :=
  ⟨hsheet.trans h.desk, fun a => (hhand a).trans ⟨fun ha => absurd ha (h.hands a), False.elim⟩, hHPs, hw,
    h.seen.imp hspoiled fun hs => hs.trans hsince, False.elim, False.elim, fun _ => hr⟩

/-- In the window the keys of the objects under the hazard pointers are fixed. -/
structure Aimed (i : Fin n) (H : Nat → Ptr) (S : Set Nat) (κ : Nat → CInt) (w : W n) : Prop where
  guarded : Guarded i H S w.mem w.ghost
  key : ∀ k < 3, ∀ a ∈ S, H k = ⟨a, false⟩ → a ≠ 0 → w.mem.key a = κ a

theorem stable_aimed : (lists n headOf).Stable i (Aimed i H S κ) := fun j w w' hj hw hw' hd h => by
  refine ⟨steady_guarded.lists j w w' hj hw hw' hd h.guarded, fun k hk a ha hH h0 => ?_⟩
  rw [(hd.drift hj hw hw').key a (h.guarded.live hw.inv.shape hk hH h0 ha)]
  exact h.key k hk a ha hH h0

theorem Aimed.before (h : Aimed i H S κ w) (hk : Before headOf key κ l) (hl : Known S l) (hH : ∀ b, l = .next b → H 0 = ⟨b, false⟩)
    (h0 : 0 ∉ S) : Before headOf key w.mem.key l := by
  cases l with
  | head b => exact hk
  | next b =>
    have hb : b ≠ 0 := by
      rintro rfl
      exact h0 hl
    change headOf (w.mem.key b) = headOf key ∧ (w.mem.key b).toInt < key.toInt
    rw [h.key 0 (by omega) b hl (hH b rfl) hb]
    exact hk

theorem booked_fenced : Booked i s g (some .fenced) s (g.setWindow i True) := by
  refine ⟨rfl, fun _ => rfl, fun e => rfl, fun j h => ?_, fun e d h => .inl h, fun e h => (by cases h),
    .other (by simp) (by simp) (fun _ => rfl) rfl, by simp⟩
  · by_cases hj : j = i
    · rw [hj, setWindow_self]
      trivial
    · rw [setWindow_of_ne hj]
      exact (h.resolve_left fun h => hj h.1.symm).2

/-- `FENCE_CHECK` with every hazard pointer on an object that was seen, or that the thread has. When it passes, no object
seen has been cleared, and what was known of the objects as long as none was holds of the keys they keep from here on. -/
theorem FENCE_CHECK_told {P : (Nat → CInt) → Prop} (hA : Steady i A) (hF : Lasting headOf i F) (hG : Logged i G)
    (hH : ∀ s g, A s g → ∀ k < 3, H k ≠ NULL → (H k).tag = false ∧ ((H k).addr ∈ S ∨ (H k).addr ∈ g.mine i))
    (hpass : ∀ w, A w.mem w.ghost → F w → ¬ w.ghost.spoiled i → S ⊆ w.ghost.live → C w.mem w.ghost ∧ P w.mem.key)
    (hC : ∀ s g o, C s g → C s (g.setWindow i o)) :
    Told headOf i (Both (fun s g => Holds i (outer H S) s g ∧ A s g) fun w => F w ∧ G w) (FENCE_CHECK i) fun b w =>
      if b then Both (Idle i o ∅) G w else ∃ κ, P κ ∧ Aimed i H S κ w ∧ C w.mem w.ghost ∧ F w ∧ G w := by
  refine .bind (B := fun b w => if b then Both (Holds i (outer H ∅)) G w else ∃ κ, P κ ∧ Aimed i H S κ w ∧ C w.mem w.ghost ∧ F w ∧ G w)
    (Told.aside ((steady_holds.and hA).lists.and (hF.and hG.lasting).stable) (fun s => ?_) fun w hw hO => ?_)
    fun b => .ite (fun hb => ?_) fun hb => .ret fun w h => by rwa [if_neg hb] at h
  · cases s.dirty i <;> rfl
  · obtain ⟨⟨h, hA⟩, hF', hG'⟩ := hw
    have hS : Shape w.mem w.ghost := hO.inv.shape
    cases hd : w.mem.dirty i with
    | true =>
      obtain ⟨hS', hT⟩ := hS.clean hd
      refine ⟨w.ghost.clean i, ⟨hS', hT⟩, .of_quiet rfl rfl (fun _ => rfl) (fun _ => rfl) (fun _ h => h)
        (fun _ _ h => h) (fun _ => rfl) rfl, fun _ _ => rfl, rfl, fun _ _ => rfl, fun _ => ⟨?_, hG _ _ (.next rfl) hG'⟩⟩
      exact ⟨h.desk, h.hands, h.HPs, h.outside, .inr (Set.empty_subset _), False.elim, False.elim, fun hr => (h.ready hr).trans hS hT rfl⟩
    | false =>
      have hHPs : w.mem.HPs i = H := h.HPs
      obtain ⟨hS', hT, -⟩ := hS.fence h.outside hd fun k hk h0 => by
        rw [hHPs] at h0 ⊢
        obtain ⟨htag, hin⟩ := hH w.mem w.ghost hA k hk h0
        refine ⟨htag, ?_⟩
        obtain hin | hin := hin
        · exact (h.seen_of hin).imp_right .inl
        · exact .inr (.inr hin)
      rw [clean_of_not_dirty hd] at hS' hT ⊢
      have hg := hS.guard i
      have hsound : ¬ w.ghost.spoiled i := fun h' => by
        have := hg.marred h'
        rw [hd] at this
        cases this
      have hlive : S ⊆ w.ghost.live := (h.seen.resolve_left hsound).trans (hg.whole hsound)
      obtain ⟨hC', hP⟩ := hpass w hA hF' hsound hlive
      refine ⟨w.ghost.setWindow i True, ⟨hS', hT⟩, booked_fenced, fun _ _ => rfl, rfl, fun _ _ => rfl, fun hO' => ?_⟩
      have hguarded : Guarded i H S w.mem (w.ghost.setWindow i True) := by
        refine ⟨h.desk, fun a ha => (h.hands a).1 ha, hHPs, setWindow_self.symm ▸ trivial, h.seen, fun a ha hm => not_live_of_mine hm (hlive ha),
          h.ready trivial⟩
      exact ⟨w.mem.key, hP, ⟨hguarded, fun _ _ _ _ _ _ => rfl⟩, hC w.mem w.ghost True hC',
        hF _ _ (hO.drift hO' hT id (fun _ _ => rfl) rfl) hF', hG _ _ (.next rfl) hG'⟩
  · subst hb
    exact .bind (retreat_told hG.lasting) fun _ => .bind (clean_told hG) fun _ => .ret fun w h => h

/-! ## The compare-and-swaps of the list -/

theorem turn_of_closes {ev : Option Ev} (h : closes ev) (e : Nat) (d : Option (Desk n)) : turn e i d ev = d := by
  cases ev with
  | none => cases h
  | some ev => cases ev <;> first | rfl | cases h

/-- A compare-and-swap on the list closes the window, and passes at most the object it unlinks to the thread. -/
theorem booked_closes {ev : Option Ev} (hev : closes ev) (hmem : s'.spare = s.spare ∧ s'.reclaim = s.reclaim ∧ s'.toProcess = s.toProcess)
    (hplace : g'.place = g.place) (hlife : ∀ a, (g.spot a).life.after a i ev = some (g'.spot a).life) (hwindow : ∀ j, j ≠ i → g'.window j = g.window j) :
    Booked i s g ev s' g' := by
  have hne : ∀ {x : Ev}, closes (some x) = false → ev ≠ some x := by
    rintro x hx rfl
    rw [hev] at hx
    cases hx
  refine ⟨hmem.1, hlife, fun e => ?_, fun j h => ?_, fun e d h => .inl ?_,
    fun e h => absurd h (hne rfl), .other (hne rfl) (hne rfl) (fun _ => hmem.2.1) (by rw [hmem.2.2]), hne rfl⟩
  · rw [hplace, turn_of_closes hev]
  · have hj : j ≠ i := by
      rintro rfl
      obtain h | h := h
      · exact hne (x := .fenced) rfl h.2
      · exact h.1 ⟨rfl, hev⟩
    rw [hwindow j hj]
    exact (h.resolve_left fun h' => hj h'.1.symm).2
  · rw [hplace]
    exact h

theorem casWord_told {e : Ev} {A : W n → Prop} {B : Bool → W n → Prop} (hA : (lists n headOf).Stable i A) (hF : Lasting headOf i F)
    (hheld : ∀ w, A w → Guarded i H S w.mem w.ghost)
    (hyes : ∀ w, A w → F w → Orderly headOf w → w.mem.word l = p → ∃ g', (Shape (w.mem.setWord l q) g' ∧ Trans i w.mem w.ghost (w.mem.setWord l q) g') ∧
      Booked i w.mem w.ghost (some e) (w.mem.setWord l q) g' ∧ Chains headOf (w.mem.setWord l q) g'.linked ∧
      EvOk headOf w.log i w.mem (some e) (w.mem.setWord l q) ∧
      (Orderly headOf (w.next i (some e) (w.mem.setWord l q) g') → B true (w.next i (some e) (w.mem.setWord l q) g')))
    (hno : ∀ w w', A w → w'.mem = w.mem → w'.ghost = w.ghost.setWindow i False → Holds i (outer H S) w'.mem w'.ghost → F w' → B false w') :
    Told headOf i (fun w => A w ∧ F w) (casWord l p q e) B := by
  refine .step (hA.and hF.stable) fun w hw hO => ?_
  by_cases hword : w.mem.word l = p
  · simp only [if_pos hword, decide_eq_true hword]
    obtain ⟨g', hS, hB, hc, hev, hQ⟩ := hyes w hw.1 hw.2 hO hword
    exact ⟨g', hS, hB, fun a _ => congrFun setWord_keyData a, hc, hev, hQ (hO.next hS.1 hS.2 hB hc hev)⟩
  · simp only [if_neg hword, decide_eq_false hword]
    obtain ⟨hS, hT⟩ := hO.inv.shape.close (i := i)
    have hh := hheld w hw.1
    have hB : Booked i w.mem w.ghost (some .casFailed) w.mem (w.ghost.setWindow i False) :=
      booked_closes rfl ⟨rfl, rfl, rfl⟩ rfl (fun _ => rfl) fun j hj => setWindow_of_ne hj
    have hev : EvOk headOf w.log i w.mem (some .casFailed) w.mem := rfl
    have hO' : Orderly headOf (w.next i (some .casFailed) w.mem (w.ghost.setWindow i False)) := hO.next hS hT hB hO.chains hev
    refine ⟨w.ghost.setWindow i False, ⟨hS, hT⟩, hB, fun _ _ => trivial, hO.chains, hev, hno w _ hw.1 rfl rfl ?_ ?_⟩
    · exact hh.close hh.HPs rfl (fun _ => Iff.rfl) id (le_refl _) (fun h => by rwa [World.next_ghost, setWindow_self] at h) hh.ready
    · exact hF _ _ (hO.drift hO' hT id (fun _ _ => rfl) rfl) hw.2

/-- The word of the list that the thread is to write. -/
theorem Guarded.counts {l : Word} (h : Guarded i H S s g) (hS : Shape s g) (hl : Known S l) (hH : ∀ b, l = .next b → H 0 = ⟨b, false⟩)
    (h0 : 0 ∉ S) (htag : (s.word l).tag = false) : Counts g.linked l := by
  cases l with
  | head b => trivial
  | next b =>
    have hb : b ≠ 0 := by
      rintro rfl
      exact h0 hl
    obtain hlinked | hretired := h.live hS (by omega) (hH b rfl) hb hl
    · exact hlinked
    · -- the word of a retired object is marked
      rw [hS.net.tagged b hretired] at htag
      cases htag

end OptimisticAccess.MOA
