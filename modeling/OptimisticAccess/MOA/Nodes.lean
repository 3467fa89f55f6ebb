import OptimisticAccess.MOA.Stacks

/-!
# Steps on the list, and steps that a reader of the list is told of

The three compare-and-swaps of the list, the hazard pointers and the dirty bit. An object that
`Recycle` clears for reuse belongs here too: it may still be an object of `since` of a thread, whose
dirty bit is set then.
-/

namespace OptimisticAccess.MOA

open Conc

variable {n : Nat} {s s' : Mem n} {g g' : Ghost n} {i j : Fin n} {a b e d v x k : Nat} {l : Word} {p q : Ptr}

/-! ## Words -/

theorem word_setWord : (s.setWord l p).word = Function.update s.word l p := by
  funext l'
  cases l with
  | head b =>
    cases l' with
    | head c =>
      change Function.update s.entryHead b p c = _
      by_cases h : c = b
      · rw [h, Function.update_self, Function.update_self]
      · rw [Function.update_of_ne h, Function.update_of_ne fun e => h (Word.head.inj e)]
        rfl
    | next c =>
      rw [Function.update_of_ne (by simp)]
      rfl
  | next b =>
    cases l' with
    | head c =>
      rw [Function.update_of_ne (by simp)]
      rfl
    | next c =>
      change Function.update s.nextEntry b p c = _
      by_cases h : c = b
      · rw [h, Function.update_self, Function.update_self]
      · rw [Function.update_of_ne h, Function.update_of_ne fun e => h (Word.next.inj e)]
        rfl

@[simp] theorem setWord_HPs : (s.setWord l p).HPs = s.HPs := by cases l <;> rfl

@[simp] theorem setWord_dirtyNphase : (s.setWord l p).dirtyNphase = s.dirtyNphase := by cases l <;> rfl

@[simp] theorem setWord_dirty : (s.setWord l p).dirty = s.dirty := by cases l <;> rfl

theorem nextEntry_setWord_of_ne (h : Word.next a ≠ l) : (s.setWord l p).nextEntry a = s.nextEntry a := by
  change (s.setWord l p).word (.next a) = _
  rw [word_setWord, Function.update_of_ne h]
  rfl

/-! ## What these steps leave alone -/

/-- The caches, and the allocator's own records, stay as they are. -/
structure Aside (s : Mem n) (g : Ghost n) (s' : Mem n) (g' : Ghost n) : Prop where
  mem : s' = { s with entryHead := s'.entryHead, nextEntry := s'.nextEntry, dirtyNphase := s'.dirtyNphase, HPs := s'.HPs }
  ghost : g' = { g with spot := g'.spot, since := g'.since, spoiled := g'.spoiled, warned := g'.warned, window := g'.window }

theorem Aside.touch (h : Aside s g s' g') {A : Set Nat} (hspot : ∀ a ∉ A, g'.spot a = g.spot a)
    (hA : ∀ a ∈ A, ∀ j, j ≠ i → (g.spot a).owner ≠ some j ∧ (g'.spot a).owner ≠ some j) : Touch i ∅ A s g s' g' := by
  refine ⟨?_, ?_, ?_, ?_, hspot, fun _ h => h.elim, hA, ?_, ?_, ?_, ?_⟩
  · rw [h.ghost]; exact fun _ _ => rfl
  all_goals rw [h.mem]; exact fun _ _ => rfl

theorem Aside.trans (h : Aside s g s' g') (hpriv : ∀ j, j ≠ i → Private j s g s' g')
    (hown : (s.dirty i = true → s'.dirty i = true) → g.since i ⊆ g'.since i ∧ (g.spoiled i → g'.spoiled i)) (hwarned : ∀ j, g.warned j ≤ g'.warned j)
    (hstamp : ∀ j, s'.dirtyNphase j = s.dirtyNphase j ∨ s'.dirtyNphase j = s.dirtyNphase j / 2 ^ 8 * 2 ^ 8 ∨
      level s.reclaim ≤ g'.warned j)
    (hmarked : ∀ a ∈ g.live, a ∈ g'.live → (s.nextEntry a).tag = true → s'.nextEntry a = s.nextEntry a)
    (hdue : ∀ a b, g'.Due a b → g.Due a b ∨ s.reclaim.ver < b)
    (hwindow : ∀ j, g'.window j → (g.window j ∧ s'.HPs j = s.HPs j) ∨
      (¬ g.window j ∧ ∀ k < 3, s'.HPs j k ≠ NULL → ¬ g'.Due (s'.HPs j k).addr (g.warned j))) : Trans i s g s' g' := by
  have hreclaim : s'.reclaim = s.reclaim := by rw [h.mem]
  have htoProcess : s'.toProcess = s.toProcess := by rw [h.mem]
  have hplace : g'.place = g.place := by rw [h.ghost]
  refine ⟨hpriv, hown, fun e => by rw [hplace], fun e _ _ _ => by rw [h.mem], by rw [hreclaim], fun _ _ => hreclaim, by rw [htoProcess],
    fun _ h => by rwa [htoProcess], hwarned, fun j => by rw [hreclaim]; exact hstamp j, hmarked, hdue, hwindow⟩

theorem Aside.shape (h : Aside s g s' g') (hs : Shape s g) (hnet : Net s'.word g'.linked g'.retired)
    (hstock : Stock s.free s.ptrs g')
    (hguard : ∀ j, Guard s'.word g'.linked g'.retired g'.Due (g'.since j) (g'.spoiled j) (s'.dirty j) (g'.warned j))
    (hstamps : ∀ j, Stamped (s'.dirtyNphase j) (g'.warned j) s.reclaim)
    (hshield : ∀ j, g'.window j → Shield (s'.HPs j) (g'.live ∪ g'.mine j))
    (hsupply : Supply s.spare s.spares g'.spot) : Shape s' g' := by
  have hc := hs.clock
  have hq := hs.queues
  have ho := hs.owners
  refine ⟨hnet, ?_, ?_, ?_, ?_, hguard, fun j => ?_, hshield, ?_⟩
  · rw [h.mem, h.ghost]; exact hc
  · rw [h.mem, h.ghost]; exact hq
  · rw [h.mem, h.ghost]; exact ho
  · rw [h.mem]; exact hstock
  · rw [show s'.reclaim = s.reclaim by rw [h.mem]]
    exact hstamps j
  · rw [h.mem]; exact hsupply

/-! ## Warnings -/

theorem dirtyNphase_set_self : (s.setDirtyNphase j v).dirtyNphase j = v := Function.update_self ..

theorem dirtyNphase_set_of_ne {j' : Fin n} (h : j' ≠ j) : (s.setDirtyNphase j v).dirtyNphase j' = s.dirtyNphase j' :=
  Function.update_of_ne h ..

theorem dirty_set_self : (s.setDirtyNphase j v).dirty j = decide (v % 2 ^ 8 ≠ 0) := by
  unfold Mem.dirty
  rw [dirtyNphase_set_self]

theorem dirty_set_of_ne {j' : Fin n} (h : j' ≠ j) : (s.setDirtyNphase j v).dirty j' = s.dirty j' := by
  unfold Mem.dirty
  rw [dirtyNphase_set_of_ne h]

def Ghost.warn (g : Ghost n) (j : Fin n) (b : Nat) : Ghost n := { g with warned := Function.update g.warned j b }

/-- The warning of thread `j` covers every batch frozen so far. -/
theorem Shape.warn (hs : Shape s g) (hv : v ≤ level s.reclaim) :
    Shape (s.setDirtyNphase j (v * 2 ^ 8 + 1)) (g.warn j (level s.reclaim)) ∧
      Trans i s g (s.setDirtyNphase j (v * 2 ^ 8 + 1)) (g.warn j (level s.reclaim)) := by
  have ha : Aside s g (s.setDirtyNphase j (v * 2 ^ 8 + 1)) (g.warn j (level s.reclaim)) := ⟨rfl, rfl⟩
  have htouch : Touch i ∅ ∅ s g (s.setDirtyNphase j (v * 2 ^ 8 + 1)) (g.warn j (level s.reclaim)) :=
    ha.touch (fun _ _ => rfl) fun _ h => h.elim
  have hwarned : ∀ j', g.warned j' ≤ (g.warn j (level s.reclaim)).warned j' := by
    intro j'
    by_cases h : j' = j
    · subst h
      exact (hs.stamps j').level.trans (Function.update_self (f := g.warned) ..).symm.le
    · exact (Function.update_of_ne h ..).symm.le
  refine ⟨ha.shape hs hs.net (hs.stock.ghost rfl rfl) (fun j' => ?_) (fun j' => ?_) hs.shield hs.supply,
    ha.trans (fun j' hj => htouch.priv_of hj rfl rfl (fun _ _ => rfl) (le_refl _) id) (fun _ => ⟨le_refl _, id⟩) hwarned (fun j' => ?_) (fun _ _ _ _ => rfl)
      (fun _ _ h => .inl h) fun _ h => .inl ⟨h, rfl⟩⟩
  · have hg := hs.guard j'
    by_cases h : j' = j
    · subst h
      have hdirty : (s.setDirtyNphase j' (v * 2 ^ 8 + 1)).dirty j' = true := by
        rw [dirty_set_self, decide_eq_true_eq]
        omega
      exact ⟨hg.covers, hg.closed, hg.whole, fun _ _ _ => hdirty, fun _ => hdirty⟩
    · rw [dirty_set_of_ne h, show (g.warn j (level s.reclaim)).warned j' = g.warned j' from Function.update_of_ne h ..]
      exact hg
  · have hst := hs.stamps j'
    by_cases h : j' = j
    · subst h
      rw [dirtyNphase_set_self, show (g.warn j' (level s.reclaim)).warned j' = level s.reclaim from Function.update_self ..]
      exact ⟨by omega, le_refl _⟩
    · rw [dirtyNphase_set_of_ne h, show (g.warn j (level s.reclaim)).warned j' = g.warned j' from Function.update_of_ne h ..]
      exact hst
  · by_cases h : j' = j
    · subst h
      exact .inr (.inr (Function.update_self (f := g.warned) ..).symm.le)
    · exact .inl (dirtyNphase_set_of_ne h)

/-- The thread starts afresh from the list as it is. -/
def Ghost.clean (g : Ghost n) (i : Fin n) : Ghost n :=
  { g with since := Function.update g.since i g.linked, spoiled := Function.update g.spoiled i False }

/-- `dty->dirty = 0` on a bit that is set. -/
theorem Shape.clean (hs : Shape s g) (hdirty : s.dirty i = true) : Shape (s.clean i) (g.clean i) ∧ Trans i s g (s.clean i) (g.clean i) := by
  have ha : Aside s g (s.clean i) (g.clean i) := ⟨rfl, rfl⟩
  have htouch : Touch i ∅ ∅ s g (s.clean i) (g.clean i) := ha.touch (fun _ _ => rfl) fun _ h => h.elim
  have hsince : ∀ j, j ≠ i → (g.clean i).since j = g.since j := fun j hj => Function.update_of_ne hj ..
  have hspoiled : ∀ j, j ≠ i → (g.clean i).spoiled j = g.spoiled j := fun j hj => Function.update_of_ne hj ..
  refine ⟨ha.shape hs hs.net (hs.stock.ghost rfl rfl) (fun j => ?_) (fun j => ?_) hs.shield hs.supply,
    ha.trans (fun j hj => htouch.priv_of hj rfl rfl (fun _ _ => rfl) (hsince j hj).symm.le (by rw [hspoiled j hj]; exact id))
      (fun h => absurd (h hdirty) (by rw [Mem.clean, dirty_set_self, decide_eq_true_eq]; omega)) (fun _ => le_refl _) (fun j => ?_) (fun _ _ _ _ => rfl) (fun _ _ h => .inl h) fun _ h => .inl ⟨h, rfl⟩⟩
  · by_cases h : j = i
    · subst h
      rw [show (g.clean j).since j = g.linked from Function.update_self ..,
        show (g.clean j).spoiled j = False from Function.update_self ..]
      refine ⟨le_refl _, fun a hl _ => hs.net.target (.next a) hl, fun _ => Set.subset_union_left, fun a hl hd => ?_, False.elim⟩
      obtain ⟨c, d, hc, -⟩ := hd
      have hlinked : g.spot a = .linked := hl
      have hcached : g.spot a = .cached c := hc
      rw [hlinked] at hcached
      cases hcached
    · rw [hsince j h, hspoiled j h, Mem.clean, dirty_set_of_ne h]
      exact hs.guard j
  · have hst := hs.stamps j
    by_cases h : j = i
    · subst h
      rw [Mem.clean, dirtyNphase_set_self]
      refine ⟨?_, hst.level⟩
      rw [Nat.mul_div_cancel _ (by omega)]
      exact hst.stamp
    · rw [Mem.clean, dirtyNphase_set_of_ne h]
      exact hst
  · by_cases h : j = i
    · subst h
      exact .inr (.inl dirtyNphase_set_self)
    · exact .inl (dirtyNphase_set_of_ne h)

theorem clean_of_not_dirty (h : s.dirty i = false) : s.clean i = s := by
  have hzero : s.dirtyNphase i / 2 ^ 8 * 2 ^ 8 = s.dirtyNphase i := by
    simp only [Mem.dirty, ne_eq, decide_eq_false_iff_not, not_not] at h
    omega
  unfold Mem.clean Mem.setDirtyNphase
  rw [hzero, Function.update_eq_self]

/-! ## Hazard pointers -/

theorem Shape.setHP (hs : Shape s g) (hw : ¬ g.window i) :
    Shape (s.setHP i k p) g ∧ Trans i s g (s.setHP i k p) g := by
  have ha : Aside s g (s.setHP i k p) g := ⟨rfl, rfl⟩
  have htouch : Touch i ∅ ∅ s g (s.setHP i k p) g := ha.touch (fun _ _ => rfl) fun _ h => h.elim
  have hHPs : ∀ j, j ≠ i → (s.setHP i k p).HPs j = s.HPs j := fun j hj => Function.update_of_ne hj ..
  have hne : ∀ j, g.window j → j ≠ i := by
    rintro j hj rfl
    exact hw hj
  refine ⟨ha.shape hs hs.net hs.stock hs.guard hs.stamps (fun j hj => ?_) hs.supply,
    ha.trans (fun j hj => htouch.priv_of hj (hHPs j hj) rfl (fun _ _ => rfl) (le_refl _) id) (fun _ => ⟨le_refl _, id⟩) (fun _ => le_refl _)
      (fun _ => .inl rfl) (fun _ _ _ _ => rfl) (fun _ _ h => .inl h) fun j hj => .inl ⟨hj, hHPs j (hne j hj)⟩⟩
  rw [hHPs j (hne j hj)]
  exact hs.shield j hj

def Ghost.setWindow (g : Ghost n) (i : Fin n) (o : Prop) : Ghost n := { g with window := Function.update g.window i o }

theorem setWindow_of_ne {o : Prop} (h : j ≠ i) : (g.setWindow i o).window j = g.window j := Function.update_of_ne h ..

theorem setWindow_self {o : Prop} : (g.setWindow i o).window i = o := Function.update_self ..

/-- `FENCE_CHECK` passes: what the hazard pointers point to has not been given back, and will not be. -/
theorem Shape.fence (hs : Shape s g) (hw : ¬ g.window i) (hdirty : s.dirty i = false)
    (hHPs : ∀ k < 3, s.HPs i k ≠ NULL → (s.HPs i k).tag = false ∧
      (g.spoiled i ∨ (s.HPs i k).addr ∈ g.since i ∨ (s.HPs i k).addr ∈ g.mine i)) :
    Shape (s.clean i) (g.setWindow i True) ∧ Trans i s g (s.clean i) (g.setWindow i True) ∧ Shield (s.HPs i) (g.live ∪ g.mine i) := by
  rw [clean_of_not_dirty hdirty]
  have hg := hs.guard i
  have hwhole : ¬ g.spoiled i := fun h => by
    have := hg.marred h
    rw [hdirty] at this
    cases this
  have hshield : Shield (s.HPs i) (g.live ∪ g.mine i) := by
    intro k hk hne
    obtain ⟨htag, h⟩ := hHPs k hk hne
    refine ⟨htag, ?_⟩
    obtain h | h | h := h
    · exact absurd h hwhole
    · exact .inl (hg.whole hwhole h)
    · exact .inr h
  have ha : Aside s g s (g.setWindow i True) := ⟨rfl, rfl⟩
  have htouch : Touch i ∅ ∅ s g s (g.setWindow i True) := ha.touch (fun _ _ => rfl) fun _ h => h.elim
  refine ⟨ha.shape hs hs.net (hs.stock.ghost rfl rfl) hs.guard hs.stamps
      (fun j hj => ?_) hs.supply,
    ha.trans (fun j hj => htouch.priv_of hj rfl (setWindow_of_ne hj) (fun _ _ => rfl) (le_refl _) id) (fun _ => ⟨le_refl _, id⟩) (fun _ => le_refl _)
      (fun _ => .inl rfl) (fun _ _ _ _ => rfl) (fun _ _ h => .inl h) fun j hj => ?_, hshield⟩
  · by_cases h : j = i
    · subst h
      exact hshield
    · rw [setWindow_of_ne h] at hj
      exact hs.shield j hj
  · by_cases h : j = i
    · subst h
      refine .inr ⟨hw, fun k hk hne hd => ?_⟩
      have hd' : g.Due (s.HPs j k).addr (g.warned j) := hd
      obtain ⟨-, h | h | h⟩ := hHPs k hk hne
      · exact hwhole h
      · have := hg.alert _ h hd'
        rw [hdirty] at this
        cases this
      · obtain ⟨c, d, hc, -⟩ := hd'
        rw [show g.spot (s.HPs j k).addr = .mine j from h] at hc
        cases hc
    · rw [setWindow_of_ne h] at hj
      exact .inl ⟨hj, rfl⟩

/-! ## The words of the list -/

section Net

variable {word : Word → Ptr} {linked retired : Set Nat}

/-- Writing to an object that is neither in the list nor retired. -/
theorem Net.write (hn : Net word linked retired) (h1 : a ∉ linked) (h2 : a ∉ retired) :
    Net (Function.update word (.next a) p) linked retired := by
  have hold : ∀ l, Counts linked l → Function.update word (.next a) p l = word l := fun l hl =>
    Function.update_of_ne (fun e => h1 (by rw [e] at hl; exact hl)) ..
  refine ⟨fun b => ?_, fun l hl => ?_, fun l l' hl hl' => ?_, fun b hb => ?_⟩
  · rw [hold (.head b) trivial]; exact hn.headTag b
  · rw [hold l hl]; exact hn.target l hl
  · rw [hold l hl, hold l' hl']; exact hn.inj l l' hl hl'
  · rw [Function.update_of_ne fun e => h2 (by rwa [Word.next.inj e] at hb)]
    exact hn.tagged b hb

/-- The mark does not change where a word leads to. -/
theorem Net.mark (hn : Net word linked retired) : Net (Function.update word (.next a) (markDeleted (word (.next a)))) linked retired := by
  have haddr : ∀ l, (Function.update word (.next a) (markDeleted (word (.next a))) l).addr = (word l).addr := by
    intro l
    by_cases h : l = .next a
    · rw [h, Function.update_self]
      rfl
    · rw [Function.update_of_ne h]
  refine ⟨fun b => ?_, fun l hl => ?_, fun l l' hl hl' => ?_, fun b hb => ?_⟩
  · rw [Function.update_of_ne (by simp)]; exact hn.headTag b
  · rw [haddr]; exact hn.target l hl
  · rw [haddr, haddr]; exact hn.inj l l' hl hl'
  · by_cases h : b = a
    · rw [h, Function.update_self]
      rfl
    · rw [Function.update_of_ne fun e => h (Word.next.inj e)]
      exact hn.tagged b hb

theorem Net.unlink (hn : Net word linked retired) (hl : Counts linked l) (hw : word l = ⟨a, false⟩) (h0 : a ≠ 0)
    (ht : (word (.next a)).tag = true) :
    Net (Function.update word l (clearDeleted (word (.next a)))) (linked \ {a}) (insert a retired) := by
  have ha : a ∈ linked := by
    have := hn.target l hl
    rw [hw] at this
    exact this h0
  have hne : l ≠ .next a := by
    rintro rfl
    rw [hw] at ht
    cases ht
  have hcounts : ∀ {l'}, Counts (linked \ {a}) l' → Counts linked l' ∧ l' ≠ .next a := by
    intro l' h
    cases l' with
    | head b => exact ⟨trivial, by simp⟩
    | next b => exact ⟨h.1, fun e => h.2 (Word.next.inj e)⟩
  -- only `l` leads to `a`
  have hsole : ∀ l', Counts linked l' → (word l').addr = a → l' = l := fun l' hl' e =>
    hn.inj l' l hl' hl (by rw [e, hw]) (by rw [e]; exact h0)
  have hother : ∀ l', Counts linked l' → l' ≠ l → (word l').addr ≠ 0 → (word l').addr ∈ linked \ {a} := fun l' hl' h hz =>
    ⟨hn.target l' hl' hz, fun e => h (hsole l' hl' e)⟩
  have hself : Function.update word l (clearDeleted (word (.next a))) l = clearDeleted (word (.next a)) := Function.update_self ..
  have hold : ∀ l', l' ≠ l → Function.update word l (clearDeleted (word (.next a))) l' = word l' := fun l' h => Function.update_of_ne h ..
  refine ⟨fun b => ?_, fun l' hl' hz => ?_, fun l₁ l₂ h₁ h₂ e hz => ?_, fun b hb => ?_⟩
  · by_cases h : Word.head b = l
    · rw [h, hself]
      rfl
    · rw [hold _ h]
      exact hn.headTag b
  · obtain ⟨hc, -⟩ := hcounts hl'
    by_cases h : l' = l
    · rw [h, hself] at hz ⊢
      exact hother (.next a) ha hne.symm hz
    · rw [hold l' h] at hz ⊢
      exact hother l' hc h hz
  · -- the word that has been written stands for the word of `a`
    have hvia : ∀ l', (Function.update word l (clearDeleted (word (.next a))) l').addr = (word (if l' = l then .next a else l')).addr := by
      intro l'
      by_cases h : l' = l
      · rw [if_pos h, h, hself]
        rfl
      · rw [if_neg h, hold l' h]
    have hvia_counts : ∀ l', Counts (linked \ {a}) l' → Counts linked (if l' = l then .next a else l') := by
      intro l' h
      by_cases hl' : l' = l
      · rw [if_pos hl']; exact ha
      · rw [if_neg hl']; exact (hcounts h).1
    rw [hvia, hvia] at e
    rw [hvia] at hz
    have heq := hn.inj _ _ (hvia_counts l₁ h₁) (hvia_counts l₂ h₂) e hz
    by_cases e₁ : l₁ = l
    · by_cases e₂ : l₂ = l
      · rw [e₁, e₂]
      · rw [if_pos e₁, if_neg e₂] at heq
        exact absurd heq.symm (hcounts h₂).2
    · by_cases e₂ : l₂ = l
      · rw [if_neg e₁, if_pos e₂] at heq
        exact absurd heq (hcounts h₁).2
      · rwa [if_neg e₁, if_neg e₂] at heq
  · have hb' : (word (.next b)).tag = true := by
      obtain rfl | hb := Set.mem_insert_iff.1 hb
      · exact ht
      · exact hn.tagged b hb
    rw [hold]
    · exact hb'
    · rintro rfl
      rw [hw] at hb'
      cases hb'

theorem Net.link (hn : Net word linked retired) (hl : Counts linked l) (hw : word l = p) (hp : p.tag = false)
    (ha : a ∉ linked) (h0 : a ≠ 0) (hnext : word (.next a) = p) :
    Net (Function.update word l ⟨a, false⟩) (insert a linked) retired := by
  have hne : Word.next a ≠ l := by
    rintro rfl
    exact ha hl
  have hself : Function.update word l ⟨a, false⟩ l = ⟨a, false⟩ := Function.update_self ..
  have hold : ∀ l', l' ≠ l → Function.update word l ⟨a, false⟩ l' = word l' := fun l' h => Function.update_of_ne h ..
  have hcounts : ∀ {l'}, Counts (insert a linked) l' → l' = .next a ∨ Counts linked l' := by
    intro l' h
    cases l' with
    | head b => exact .inr trivial
    | next b => exact h.imp_left (congrArg Word.next)
  have hfresh : ∀ l', Counts linked l' → (word l').addr ≠ a := fun l' hl' e =>
    ha (e ▸ hn.target l' hl' (by rw [e]; exact h0))
  -- the word of `a` stands for the old word of `l`
  have hvia : ∀ l', Counts (insert a linked) l' → l' ≠ l → ∃ l'', Counts linked l'' ∧
      (Function.update word l ⟨a, false⟩ l').addr = (word l'').addr ∧ (l' = .next a ∧ l'' = l ∨ l' ≠ .next a ∧ l'' = l') := by
    intro l' hl' h
    by_cases e : l' = .next a
    · exact ⟨l, hl, by rw [hold l' h, e, hnext, hw], .inl ⟨e, rfl⟩⟩
    · exact ⟨l', (hcounts hl').resolve_left e, by rw [hold l' h], .inr ⟨e, rfl⟩⟩
  refine ⟨fun b => ?_, fun l' hl' hz => ?_, fun l₁ l₂ h₁ h₂ e hz => ?_, fun b hb => ?_⟩
  · by_cases h : Word.head b = l
    · rw [h, hself]
    · rw [hold _ h]
      exact hn.headTag b
  · by_cases h : l' = l
    · rw [h, hself]
      exact Set.mem_insert a linked
    · obtain ⟨l'', hc, e, -⟩ := hvia l' hl' h
      rw [e] at hz ⊢
      exact Set.mem_insert_of_mem a (hn.target l'' hc hz)
  · by_cases e₁ : l₁ = l
    · by_cases e₂ : l₂ = l
      · rw [e₁, e₂]
      · obtain ⟨l'', hc, e', -⟩ := hvia l₂ h₂ e₂
        rw [e₁, hself, e'] at e
        exact absurd e.symm (hfresh l'' hc)
    · obtain ⟨l₁', hc₁, e₁', h₁'⟩ := hvia l₁ h₁ e₁
      by_cases e₂ : l₂ = l
      · rw [e₂, hself, e₁'] at e
        exact absurd e (hfresh l₁' hc₁)
      · obtain ⟨l₂', hc₂, e₂', h₂'⟩ := hvia l₂ h₂ e₂
        rw [e₁', e₂'] at e
        rw [e₁'] at hz
        have heq := hn.inj l₁' l₂' hc₁ hc₂ e hz
        obtain ⟨ha₁, hl₁⟩ | ⟨-, hl₁⟩ := h₁'
        · obtain ⟨ha₂, -⟩ | ⟨-, hl₂⟩ := h₂'
          · rw [ha₁, ha₂]
          · exact absurd (hl₂.symm.trans (heq.symm.trans hl₁)) e₂
        · obtain ⟨-, hl₂⟩ | ⟨-, hl₂⟩ := h₂'
          · exact absurd (hl₁.symm.trans (heq.trans hl₂)) e₁
          · rw [← hl₁, ← hl₂, heq]
  · rw [hold]
    · exact hn.tagged b hb
    · rintro rfl
      have := hn.tagged b hb
      rw [hw, hp] at this
      cases this

end Net

/-! ## The compare-and-swaps of the list -/

theorem not_live_of_mine (ha : g.spot a = .mine j) : a ∉ g.live := by
  rintro (h | ⟨i, h⟩ | ⟨e, h, -⟩)
  · cases ha.symm.trans (show g.spot a = .linked from h)
  · cases ha.symm.trans h
  · cases ha.symm.trans h

theorem not_due_of_linked (ha : g.spot a = .linked) : ¬ g.Due a b := by
  rintro ⟨e, d, h, -⟩
  cases ha.symm.trans h

/-- A thread writes the `nextEntry` of an object it has. -/
theorem Shape.write (hs : Shape s g) (ha : g.spot a = .mine i) :
    Shape (s.setWord (.next a) p) g ∧ Trans i s g (s.setWord (.next a) p) g := by
  have hlive := not_live_of_mine ha
  have h1 : a ∉ g.linked := fun h => hlive (.inl h)
  have h2 : a ∉ g.retired := fun h => hlive (.inr h)
  have hside : Aside s g (s.setWord (.next a) p) g := ⟨rfl, rfl⟩
  have htouch : Touch i ∅ ∅ s g (s.setWord (.next a) p) g := hside.touch (fun _ _ => rfl) fun _ h => h.elim
  have hne : ∀ b, b ≠ a → (s.setWord (.next a) p).nextEntry b = s.nextEntry b := fun b hb => Function.update_of_ne hb ..
  have hword : (s.setWord (.next a) p).word = Function.update s.word (.next a) p := word_setWord
  refine ⟨hside.shape hs ?_ hs.stock (fun j => ?_) hs.stamps hs.shield hs.supply,
    hside.trans (fun j hj => htouch.priv_of hj rfl rfl (fun b hb => hne b ?_) (le_refl _) id) (fun _ => ⟨le_refl _, id⟩) (fun _ => le_refl _)
      (fun _ => .inl rfl) (fun b hb _ _ => hne b fun e => hlive (e ▸ hb)) (fun _ _ h => .inl h) fun _ hj => .inl ⟨hj, rfl⟩⟩
  · rw [hword]
    exact hs.net.write h1 h2
  · have hg := hs.guard j
    refine ⟨hg.covers, fun b hb hb' => ?_, hg.whole, hg.alert, hg.marred⟩
    change ((s.setWord (.next a) p).nextEntry b).addr ≠ 0 → ((s.setWord (.next a) p).nextEntry b).addr ∈ g.since j
    rw [hne b fun e => hlive (e ▸ hb')]
    exact hg.closed b hb hb'
  · rintro rfl
    exact hj (Spot.mine.inj (hb.symm.trans ha))

theorem window_of_close (hj : (g.setWindow i False).window j) : g.window j := by
  by_cases h : j = i
  · rw [h, setWindow_self] at hj
    exact hj.elim
  · rwa [setWindow_of_ne h] at hj

/-- A compare-and-swap fails. -/
theorem Shape.close (hs : Shape s g) : Shape s (g.setWindow i False) ∧ Trans i s g s (g.setWindow i False) := by
  have hside : Aside s g s (g.setWindow i False) := ⟨rfl, rfl⟩
  have htouch : Touch i ∅ ∅ s g s (g.setWindow i False) := hside.touch (fun _ _ => rfl) fun _ h => h.elim
  exact ⟨hside.shape hs hs.net (hs.stock.ghost rfl rfl) hs.guard hs.stamps (fun j hj => hs.shield j (window_of_close hj)) hs.supply,
    hside.trans (fun j hj => htouch.priv_of hj rfl (setWindow_of_ne hj) (fun _ _ => rfl) (le_refl _) id) (fun _ => ⟨le_refl _, id⟩) (fun _ => le_refl _)
      (fun _ => .inl rfl) (fun _ _ _ _ => rfl) (fun _ _ h => .inl h) fun j hj => .inl ⟨window_of_close hj, rfl⟩⟩

/-- The mark on a node that has not been given back. -/
theorem Shape.mark (hs : Shape s g) (ha : a ∈ g.live) (ht : (s.nextEntry a).tag = false) :
    Shape (s.setWord (.next a) (markDeleted (s.nextEntry a))) (g.setWindow i False) ∧
      Trans i s g (s.setWord (.next a) (markDeleted (s.nextEntry a))) (g.setWindow i False) := by
  have hside : Aside s g (s.setWord (.next a) (markDeleted (s.nextEntry a))) (g.setWindow i False) := ⟨rfl, rfl⟩
  have htouch : Touch i ∅ ∅ s g (s.setWord (.next a) (markDeleted (s.nextEntry a))) (g.setWindow i False) :=
    hside.touch (fun _ _ => rfl) fun _ h => h.elim
  have hne : ∀ b, b ≠ a → (s.setWord (.next a) (markDeleted (s.nextEntry a))).nextEntry b = s.nextEntry b := fun b hb =>
    Function.update_of_ne hb ..
  have haddr : ∀ b, ((s.setWord (.next a) (markDeleted (s.nextEntry a))).nextEntry b).addr = (s.nextEntry b).addr := by
    intro b
    by_cases h : b = a
    · subst h
      change (Function.update s.nextEntry b (markDeleted (s.nextEntry b)) b).addr = _
      rw [Function.update_self]
      rfl
    · rw [hne b h]
  refine ⟨hside.shape hs ?_ (hs.stock.ghost rfl rfl) (fun j => ?_) hs.stamps (fun j hj => hs.shield j (window_of_close hj)) hs.supply,
    hside.trans (fun j hj => htouch.priv_of hj rfl (setWindow_of_ne hj) (fun b hb => hne b ?_) (le_refl _) id) (fun _ => ⟨le_refl _, id⟩) (fun _ => le_refl _)
      (fun _ => .inl rfl) (fun b _ _ htb => hne b ?_) (fun _ _ h => .inl h) fun _ hj => .inl ⟨window_of_close hj, rfl⟩⟩
  · rw [word_setWord]
    exact hs.net.mark
  · have hg := hs.guard j
    refine ⟨hg.covers, fun b hb hb' => ?_, hg.whole, hg.alert, hg.marred⟩
    change ((s.setWord (.next a) _).nextEntry b).addr ≠ 0 → ((s.setWord (.next a) _).nextEntry b).addr ∈ g.since j
    rw [haddr]
    exact hg.closed b hb hb'
  · rintro rfl
    exact not_live_of_mine hb ha
  · rintro rfl
    rw [ht] at htb
    cases htb

/-- The bookkeeping of an unlink. -/
def Ghost.unlink (g : Ghost n) (i : Fin n) (a : Nat) : Ghost n := (g.move a (.hand i)).setWindow i False

theorem linked_unlink : (g.unlink i a).linked = g.linked \ {a} := by
  ext b
  change (g.move a (.hand i)).spot b = .linked ↔ g.spot b = .linked ∧ b ≠ a
  by_cases h : b = a
  · subst h
    rw [move_spot_self]
    simp
  · rw [move_spot_of_ne h]
    simp [h]

/-- A marked node is taken out of the list. -/
theorem Shape.unlink (hs : Shape s g) (hl : Counts g.linked l) (hw : s.word l = ⟨a, false⟩) (h0 : a ≠ 0)
    (ht : (s.nextEntry a).tag = true) :
    Shape (s.setWord l (clearDeleted (s.nextEntry a))) (g.unlink i a) ∧
      Trans i s g (s.setWord l (clearDeleted (s.nextEntry a))) (g.unlink i a) ∧ g.spot a = .linked := by
  have ha : g.spot a = .linked := by
    have := hs.net.target l hl
    rw [hw] at this
    exact this h0
  have hside : Aside s g (s.setWord l (clearDeleted (s.nextEntry a))) (g.unlink i a) := by
    refine ⟨?_, rfl⟩
    cases l <;> rfl
  have htouch : Touch i ∅ {a} s g (s.setWord l (clearDeleted (s.nextEntry a))) (g.unlink i a) := by
    refine hside.touch (fun b hb => move_spot_of_ne hb) ?_
    rintro b rfl j hj
    refine ⟨by rw [ha]; exact fun h => (by cases h), fun h => ?_⟩
    rw [show (g.unlink i b).spot b = .hand i from move_spot_self] at h
    exact hj (Option.some.inj h).symm
  have hretired : (g.unlink i a).retired = insert a g.retired := by
    ext b
    rw [Set.mem_insert_iff, mem_retired, mem_retired]
    change (g.move a (.hand i)).Retires ((g.move a (.hand i)).spot b) ↔ _
    by_cases h : b = a
    · subst h
      rw [move_spot_self]
      exact ⟨fun _ => .inl rfl, fun _ => .inl ⟨i, rfl⟩⟩
    · rw [move_spot_of_ne h]
      exact ⟨.inr, fun h' => h'.resolve_left h⟩
  have hlive : (g.unlink i a).live = g.live := by
    rw [Ghost.live, Ghost.live, linked_unlink, hretired]
    ext b
    simp only [Set.mem_union, Set.mem_sdiff, Set.mem_singleton_iff, Set.mem_insert_iff]
    by_cases h : b = a
    · subst h
      exact ⟨fun _ => .inl ha, fun _ => .inr (.inl rfl)⟩
    · simp [h]
  have hmine : ∀ j, (g.unlink i a).mine j = g.mine j := fun j => mine_move (by simp) (by rw [ha]; simp)
  have hdue : ∀ b c, (g.unlink i a).Due b c → g.Due b c := fun b c h => due_move (by simp) h
  have hword : (s.setWord l (clearDeleted (s.nextEntry a))).word = Function.update s.word l (clearDeleted (s.word (.next a))) :=
    word_setWord
  -- the word that changes is not marked
  have htagged : ∀ b, (s.nextEntry b).tag = true → (s.setWord l (clearDeleted (s.nextEntry a))).nextEntry b = s.nextEntry b := by
    refine fun b hb => nextEntry_setWord_of_ne ?_
    rintro rfl
    change s.nextEntry b = _ at hw
    rw [hw] at hb
    cases hb
  refine ⟨hside.shape hs ?_ (Stock.ghost (g := g.move a (.hand i)) (hs.stock.move (by simp) (by rw [ha]; simp)) rfl rfl) (fun j => ?_)
      (by rw [setWord_dirtyNphase]; exact hs.stamps) (fun j hj => ?_) (hs.supply.frame fun b hb => ?_),
    hside.trans (fun j hj => htouch.priv_of hj (by rw [setWord_HPs]) (setWindow_of_ne (g := g.move a (.hand i)) hj) (fun b hb => ?_)
        (le_refl _) id)
      (fun _ => ⟨le_refl _, id⟩) (fun _ => le_refl _) (fun _ => .inl (by rw [setWord_dirtyNphase])) (fun b _ _ htb => htagged b htb)
      (fun b c h => .inl (hdue b c h)) fun j hj => .inl ⟨window_of_close (g := g.move a (.hand i)) hj, by rw [setWord_HPs]⟩, ha⟩
  · rw [hword, linked_unlink, hretired]
    exact hs.net.unlink hl hw h0 ht
  · have hg := hs.guard j
    have hlive' : (g.unlink i a).linked ∪ (g.unlink i a).retired = g.linked ∪ g.retired := hlive
    rw [setWord_dirty]
    refine ⟨?_, fun b hb hb' => ?_, fun h => ?_, fun b hb hd => hg.alert b hb (hdue b _ hd), hg.marred⟩
    · rw [linked_unlink]
      exact Set.sdiff_subset.trans hg.covers
    · rw [hlive'] at hb'
      by_cases h : Word.next b = l
      · rw [hword, h, Function.update_self]
        exact hg.closed a (hg.covers ha) (.inl ha)
      · rw [hword, Function.update_of_ne h]
        exact hg.closed b hb hb'
    · rw [hlive']
      exact hg.whole h
  · rw [hlive, hmine, setWord_HPs]
    exact hs.shield j (window_of_close (g := g.move a (.hand i)) hj)
  · change (g.move a (.hand i)).spot b = _
    rw [move_spot_of_ne]
    · exact hb
    · rintro rfl
      rw [ha] at hb
      cases hb
  · refine nextEntry_setWord_of_ne ?_
    rintro rfl
    rw [show g.spot b = .linked from hl] at hb
    cases hb

/-- The bookkeeping of an insertion: every thread that starts afresh from now on may come across the node. -/
def Ghost.link (g : Ghost n) (i : Fin n) (a : Nat) : Ghost n :=
  { g.move a .linked with since := fun j => insert a (g.since j) }.setWindow i False

theorem linked_link : (g.link i a).linked = insert a g.linked := by
  ext b
  change (g.move a .linked).spot b = .linked ↔ b = a ∨ g.spot b = .linked
  by_cases h : b = a
  · subst h
    rw [move_spot_self]
    simp
  · rw [move_spot_of_ne h]
    simp [h]

/-- A node is put into the list. -/
theorem Shape.link (hs : Shape s g) (hl : Counts g.linked l) (hw : s.word l = p) (hp : p.tag = false) (ha : g.spot a = .mine i)
    (hnext : s.nextEntry a = p) :
    Shape (s.setWord l ⟨a, false⟩) (g.link i a) ∧ Trans i s g (s.setWord l ⟨a, false⟩) (g.link i a) := by
  have hlive := not_live_of_mine ha
  have h0 : a ≠ 0 := by
    rintro rfl
    cases ha.symm.trans hs.supply.zero
  have hside : Aside s g (s.setWord l ⟨a, false⟩) (g.link i a) := by
    refine ⟨?_, rfl⟩
    cases l <;> rfl
  have hself : (g.link i a).spot a = .linked := move_spot_self
  have htouch : Touch i ∅ {a} s g (s.setWord l ⟨a, false⟩) (g.link i a) := by
    refine hside.touch (fun b hb => move_spot_of_ne hb) ?_
    rintro b rfl j hj
    rw [ha, hself]
    exact ⟨fun h => hj (Option.some.inj h).symm, fun h => by cases h⟩
  have hretired : (g.link i a).retired = g.retired := retired_move (g := g) (by rw [ha]; simp [Ghost.Retires])
  have hmine : ∀ j, j ≠ i → (g.link i a).mine j = g.mine j := fun j hj =>
    mine_move (g := g) (by simp) (by rw [ha]; exact fun h => hj (Spot.mine.inj h).symm)
  have hdue : ∀ b c, (g.link i a).Due b c → g.Due b c := fun b c h => due_move (by simp) h
  have hword : (s.setWord l ⟨a, false⟩).word = Function.update s.word l ⟨a, false⟩ := word_setWord
  -- the word that changes is not marked
  have htagged : ∀ b, (s.nextEntry b).tag = true → (s.setWord l ⟨a, false⟩).nextEntry b = s.nextEntry b := by
    refine fun b hb => nextEntry_setWord_of_ne ?_
    rintro rfl
    rw [show s.nextEntry b = p from hw, hp] at hb
    cases hb
  have hne : Word.next a ≠ l := by
    rintro rfl
    exact hlive (.inl hl)
  refine ⟨hside.shape hs ?_ (Stock.ghost (g := g.move a .linked) (hs.stock.move (by simp) (by rw [ha]; simp)) rfl rfl) (fun j => ?_)
      (by rw [setWord_dirtyNphase]; exact hs.stamps) (fun j hj => ?_) (hs.supply.frame fun b hb => ?_),
    hside.trans (fun j hj => htouch.priv_of hj (by rw [setWord_HPs]) (setWindow_of_ne hj) (fun b hb => ?_)
        (Set.subset_insert ..) id)
      (fun _ => ⟨Set.subset_insert .., id⟩) (fun _ => le_refl _) (fun _ => .inl (by rw [setWord_dirtyNphase])) (fun b _ _ htb => htagged b htb)
      (fun b c h => .inl (hdue b c h)) fun j hj => .inl ⟨window_of_close hj, by rw [setWord_HPs]⟩⟩
  · rw [hword, linked_link, hretired]
    exact hs.net.link hl hw hp (fun h => hlive (.inl h)) h0 hnext
  · have hg := hs.guard j
    rw [setWord_dirty, linked_link, hretired, hword]
    refine ⟨Set.insert_subset_insert hg.covers, fun b hb hb' hz => ?_, fun h => ?_, fun b hb hd => ?_, hg.marred⟩
    · change _ ∈ insert a (g.since j)
      by_cases hba : b = a
      · subst hba
        rw [Function.update_of_ne hne] at hz ⊢
        rw [show s.word (.next b) = p from hnext, ← hw] at hz ⊢
        exact .inr (hg.covers (hs.net.target l hl hz))
      · by_cases h : Word.next b = l
        · rw [h, Function.update_self]
          exact .inl rfl
        · rw [Function.update_of_ne h] at hz ⊢
          exact .inr (hg.closed b (hb.resolve_left hba) (hb'.imp_left fun h => h.resolve_left hba) hz)
    · rintro b (rfl | hb)
      · exact .inl (.inl rfl)
      · exact (hg.whole h hb).imp_left .inr
    · obtain rfl | hb := hb
      · exact absurd hd (not_due_of_linked hself)
      · exact hg.alert b hb (hdue b _ hd)
  · have hji : j ≠ i := by
      rintro rfl
      rw [show (g.link j a).window j = False from setWindow_self] at hj
      exact hj
    rw [Ghost.live, linked_link, hretired, hmine j hji, setWord_HPs]
    intro k hk hk'
    obtain ⟨htag, h⟩ := hs.shield j (window_of_close hj) k hk hk'
    refine ⟨htag, ?_⟩
    obtain (h | h) | h := h
    · exact .inl (.inl (.inr h))
    · exact .inl (.inr h)
    · exact .inr h
  · change (g.move a .linked).spot b = _
    rw [move_spot_of_ne]
    · exact hb
    · rintro rfl
      rw [ha] at hb
      cases hb
  · refine nextEntry_setWord_of_ne ?_
    rintro rfl
    rw [show g.spot b = .linked from hl] at hb
    cases hb

/-! ## `Recycle` keeps an object -/

/-- The bookkeeping of an object that is cleared: whoever may still come across it has been warned. -/
def Ghost.keep (g : Ghost n) (i : Fin n) (e d x k a : Nat) : Ghost n :=
  { (g.file e (.work i d (x + 1) (k + 1))).move a (.kept e) with spoiled := fun j => g.spoiled j ∨ a ∈ g.since j }

theorem Shape.keep (hs : Shape s g) (hp : g.place e = .work i d x k) (hx : x < s.free e) (hwarned : ∀ j, d ≤ g.warned j)
    (hsafe : ∀ j, g.window j → ∀ m < 3, s.HPs j m ≠ s.ptrs e x) :
    Shape (s.setPtr e k (s.ptrs e x)) (g.keep i e d x k (s.ptrs e x).addr) ∧
      Trans i s g (s.setPtr e k (s.ptrs e x)) (g.keep i e d x k (s.ptrs e x).addr) := by
  have hst := hs.stock
  obtain ⟨hq, hspot⟩ := hst.cached_of_slot (e := e) (m := x) (by rw [hp]; trivial) (by rw [hp]; exact le_refl x) hx
  generalize ha : (s.ptrs e x).addr = a at hq hspot
  obtain ⟨hkx, -⟩ := hst.bounds e i d x k hp
  have hplace : (g.keep i e d x k a).place e = .work i d (x + 1) (k + 1) := file_place_self
  have hne : ∀ c ∉ ({e} : Set Nat), (g.keep i e d x k a).place c = g.place c := fun c hc => file_place_of_ne hc
  have hself : (g.keep i e d x k a).spot a = .kept e := move_spot_self
  have hold : ∀ b, b ≠ a → (g.keep i e d x k a).spot b = g.spot b := fun b hb => move_spot_of_ne hb
  have hother : ∀ y : Spot n, y ≠ .kept e → y ≠ .cached e → (g.keep i e d x k a).objects y = g.objects y := fun y h1 h2 =>
    objects_move_of_ne (g := g.file e (.work i d (x + 1) (k + 1))) h1.symm (by rw [file_spot, hspot]; exact h2.symm)
  have hwaits : (g.file e (.work i d (x + 1) (k + 1))).retired = g.retired := retired_file (by rw [hp]; exact Iff.rfl)
  have hlinked : (g.keep i e d x k a).linked = g.linked := linked_move (by simp) (by rw [file_spot, hspot]; simp)
  have hretired : (g.keep i e d x k a).retired = g.retired \ {a} := by
    rw [← hwaits]
    ext b
    rw [Set.mem_sdiff, Set.mem_singleton_iff, mem_retired, mem_retired]
    by_cases h : b = a
    · subst h
      rw [hself]
      simp [Ghost.Retires]
    · rw [hold b h]
      exact ⟨fun hb => ⟨hb, h⟩, And.left⟩
  have hmine : ∀ j, (g.keep i e d x k a).mine j = g.mine j := fun j => mine_move (by simp) (by rw [file_spot, hspot]; simp)
  have hdue : ∀ b c, (g.keep i e d x k a).Due b c → g.Due b c := fun b c h =>
    due_file (e := e) (p := .work i d (x + 1) (k + 1)) (by rw [hp]; exact fun _ h => h) (due_move (by simp) h)
  have hcleared : g.Due a d := ⟨e, d, hspot, by rw [hp]; rfl, le_refl d⟩
  have htouch : Touch i {e} {a} s g (s.setPtr e k (s.ptrs e x)) (g.keep i e d x k a) := by
    refine ⟨hne, fun _ _ => rfl, fun _ _ => rfl, fun c hc => Function.update_of_ne hc .., hold, ?_, ?_, fun _ _ => rfl,
      fun _ _ => rfl, fun _ _ => rfl, fun _ _ => rfl⟩
    · rintro c rfl j hj
      rw [hplace, hp]
      exact ⟨fun h => hj (Option.some.inj h).symm, fun h => hj (Option.some.inj h).symm⟩
    · rintro b rfl j _
      rw [hself, hspot]
      exact ⟨fun h => (by cases h), fun h => by cases h⟩
  have hstock : Stock s.free (s.setPtr e k (s.ptrs e x)).ptrs (g.keep i e d x k a) := by
    have hptrs : (s.setPtr e k (s.ptrs e x)).ptrs e = Function.update (s.ptrs e) k (s.ptrs e x) := Function.update_self ..
    refine hst.frame (E := {e}) hne (fun _ _ => rfl) (fun c hc => Function.update_of_ne hc ..)
      (fun c hc => hother _ (by simp) fun h => hc (Spot.cached.inj h)) (fun c hc => hother _ (fun h => hc (Spot.kept.inj h)) (by simp))
      ?_ ?_ ?_ ?_ ?_
    · rintro c rfl -
      exact hst.size c (by rw [hp]; simp)
    · rintro c rfl j d' x' k' h
      rw [hplace] at h
      cases h
      omega
    · rintro c rfl -
      have hslots := (hst.cached c (by rw [hp]; trivial)).shift (by rw [hp]; exact hx)
      rw [hp] at hslots
      have hout : (g.keep i c d x k a).objects (.cached c) = g.objects (.cached c) \ {s.ptrs c x} := by
        rw [hq]
        exact objects_move_out (by simp)
      rw [hplace, hptrs, hout]
      refine hslots.congr fun j hj _ => Function.update_of_ne ?_ ..
      change x + 1 ≤ j at hj
      omega
    · rintro c rfl
      have hslots := hst.kept c
      rw [hp] at hslots
      have hin : (g.keep i c d x k a).objects (.kept c) = insert (s.ptrs c x) (g.objects (.kept c)) := by
        rw [hq]
        exact objects_move_in
      rw [hplace, hptrs, hin]
      refine hslots.push (Nat.zero_le k) fun hmem => ?_
      rw [mem_objects, ha, hspot] at hmem
      cases hmem.2
    · rintro c rfl b _
      rw [hplace]
      trivial
  have hqueues : Queues s.reclaim s.toProcess s.head s.next (g.keep i e d x k a).place g.fill g.batch g.pool := by
    refine hs.queues.frame (E := {e}) ?_ hne fun _ _ => rfl
    rintro c rfl
    rw [hplace, hp]
    exact ⟨id, id⟩
  have hclock : Clock s.reclaim s.toProcess s.localVer (g.keep i e d x k a).place := by
    refine hs.clock.frame (E := {e}) ?_ ?_ hne
    · rintro c rfl d' h
      rw [hplace] at h
      cases h
    · rintro c rfl j d' x' k' h
      rw [hplace] at h
      cases h
      exact hs.clock.work c i d x k hp
  have howners : Owners s.alloc_cache s.free_cache s.brk s.free (g.keep i e d x k a).place := by
    refine hs.owners.frame (E := {e}) ?_ ?_ ?_ (fun _ _ h => h) hne fun _ _ => rfl
    · rintro c rfl j
      rw [hplace, hp]
      simp
    · rintro c rfl j
      rw [hplace, hp]
      simp
    · rintro c rfl
      rw [hplace, hp]
      simp
  have hlive : ∀ b ∈ g.live, b ≠ a → b ∈ (g.keep i e d x k a).live := by
    rintro b hb h
    rw [Ghost.live, hlinked, hretired]
    exact hb.imp_right fun hb => ⟨hb, h⟩
  refine ⟨⟨?_, hclock, hqueues, howners, hstock, fun j => ?_, hs.stamps, fun j hj m hm hm' => ?_, hs.supply.frame fun b hb => ?_⟩,
    ⟨fun j hj => htouch.priv_of hj rfl rfl (fun _ _ => rfl) (le_refl _) .inl, fun _ => ⟨le_refl _, .inl⟩, fun c => ?_, fun c _ _ _ => rfl, le_refl _,
      fun _ _ => rfl, le_refl _, fun _ h => h, fun _ => le_refl _, fun _ => .inl rfl, fun _ _ _ _ => rfl,
      fun b c h => .inl (hdue b c h), fun j hj => .inl ⟨hj, rfl⟩⟩⟩
  · have hn := hs.net
    rw [hlinked, hretired]
    exact ⟨hn.headTag, hn.target, hn.inj, fun b hb => hn.tagged b hb.1⟩
  · have hg := hs.guard j
    rw [hlinked, hretired]
    refine ⟨hg.covers, fun b hb hb' => hg.closed b hb (hb'.imp_right And.left), fun h b hb => ?_,
      fun b hb hd => hg.alert b hb (hdue b _ hd), fun h => ?_⟩
    · obtain h' | h' := hg.whole (fun h' => h (.inl h')) hb
      · exact .inl h'
      · exact .inr ⟨h', fun e' => h (.inr (e' ▸ hb))⟩
    · obtain h | h := h
      · exact hg.marred h
      · obtain ⟨c, d', h1, h2, h3⟩ := hcleared
        exact hg.alert a h ⟨c, d', h1, h2, h3.trans (hwarned j)⟩
  · obtain ⟨htag, h⟩ := hs.shield j hj m hm hm'
    refine ⟨htag, h.imp (fun h => hlive _ h fun e' => ?_) (fun h => ?_)⟩
    · exact hsafe j hj m hm (by rw [hq]; exact Ptr.eq_of_addr htag rfl e')
    · rw [hmine]
      exact h
  · rw [hold]
    · exact hb
    · rintro rfl
      rw [hspot] at hb
      cases hb
  · by_cases hc : c = e
    · rw [hc, hplace, hp]
      exact le_refl _
    · rw [hne c hc]

end OptimisticAccess.MOA
