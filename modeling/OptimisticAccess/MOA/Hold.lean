import OptimisticAccess.MOA.Rules

/-!
# What a thread relies on

`Holds i F` lists what thread `i` knows when it calls into the allocator, and finds unchanged when
the call returns: the caches it goes through in a `Recycle` further up, the objects it has in
`pfree`, its hazard pointers, the objects it may read. A nested collection keeps all of it.
-/

namespace OptimisticAccess.MOA

open Conc Prog

variable {n : Nat} {i j t : Fin n} {s s' : Mem n} {g g' : Ghost n} {a b e d v k : Nat} {p : Ptr}

/-! ## The caches in work -/

/-- A cache in `Recycle`, with all that its thread knows of it. -/
structure Sheet where
  due : Nat
  idx : Nat
  kept : Nat
  next : Option Nat
  free : Nat
  ptrs : Nat → Ptr

def sheet (i : Fin n) (s : Mem n) (g : Ghost n) (e : Nat) : Option Sheet :=
  match g.place e with
  | .work j d x k => if j = i then some ⟨d, x, k, s.next e, s.free e, s.ptrs e⟩ else none
  | _ => none

theorem sheet_of_work {x : Nat} (h : g.place e = .work i d x k) : sheet i s g e = some ⟨d, x, k, s.next e, s.free e, s.ptrs e⟩ := by
  simp [sheet, h]

theorem work_of_sheet {t : Sheet} (h : sheet i s g e = some t) :
    g.place e = .work i t.due t.idx t.kept ∧ s.next e = t.next ∧ s.free e = t.free ∧ s.ptrs e = t.ptrs := by
  unfold sheet at h
  split at h
  · next j d x k hp =>
    split at h
    · next hj =>
      subst hj
      obtain rfl := Option.some.inj h
      exact ⟨hp, rfl, rfl, rfl⟩
    · cases h
  · cases h

theorem sheet_eq_none (h : (g.place e).owner ≠ some i) : sheet i s g e = none := by
  unfold sheet
  split
  · next j d x k hp =>
    rw [hp] at h
    exact if_neg fun hj => h (congrArg some hj)
  · rfl

/-- The sheet of a cache depends on the cache. -/
theorem sheet_congr (hp : g'.place e = g.place e) (hnext : s'.next e = s.next e) (hfree : s'.free e = s.free e)
    (hptrs : s'.ptrs e = s.ptrs e) : sheet i s' g' e = sheet i s g e := by
  unfold sheet
  rw [hp, hnext, hfree, hptrs]

theorem Private.sheet_eq (h : Private i s g s' g') : sheet i s' g' = sheet i s g := by
  funext e
  by_cases ho : (g.place e).owner = some i
  · exact sheet_congr (h.place e (.inl ho)) (h.next e ho) (h.free e ho) (h.ptrs e ho)
  · by_cases ho' : (g'.place e).owner = some i
    · exact absurd (h.place e (.inr ho') ▸ ho') ho
    · rw [sheet_eq_none ho, sheet_eq_none ho']

/-! ## Hazard pointers that have been read -/

/-- The table has the hazard pointer `p`. -/
def Found (t : Option HashTable) (p : Ptr) : Prop := ∃ set, t = some set ∧ lowWord p ≠ 0 ∧ set.Finds (lowWord p)

/-- What thread `i` might clear while hazard pointer `k` of thread `j` protects it meets `R`. -/
def Caught (i j : Fin n) (k : Nat) (R : Ptr → Prop) : Assert n := fun s g =>
  g.window j → s.HPs j k ≠ NULL → g.Due (s.HPs j k).addr (s.localVer i) → R (s.HPs j k)

theorem due_mono (h : g.Due a b) (hle : b ≤ d) : g.Due a d := by
  obtain ⟨e, c, h1, h2, h3⟩ := h
  exact ⟨e, c, h1, h2, h3.trans hle⟩

theorem Caught.trans {R : Ptr → Prop} (h : Caught i j k R s g) (hk : k < 3) (hS : Shape s g) (hT : Trans t s g s' g')
    (hv : s'.localVer i = s.localVer i) (hw : s.localVer i ≤ g.warned j) : Caught i j k R s' g' := by
  intro hwin hne hdue
  rw [hv] at hdue
  obtain ⟨hold, hHPs⟩ | ⟨-, hnew⟩ := hT.window j hwin
  · rw [hHPs] at hne hdue ⊢
    obtain hd | hlt := hT.due _ _ hdue
    · exact h hold hne hd
    · have := hS.clock.local_le i
      omega
  · exact absurd (due_mono hdue hw) (hnew k hk hne)

/-- The table of thread `i` has every hazard pointer that protects an object it might clear. -/
structure Scanned (i : Fin n) (s : Mem n) (g : Ghost n) : Prop where
  warned : ∀ j, s.localVer i ≤ g.warned j
  found : ∀ j, ∀ k < 3, Caught i j k (Found (s.hps i)) s g

theorem Scanned.trans (h : Scanned i s g) (hS : Shape s g) (hT : Trans t s g s' g') (hv : s'.localVer i = s.localVer i)
    (hhps : s'.hps i = s.hps i) : Scanned i s' g' := by
  refine ⟨fun j => ?_, fun j k hk => ?_⟩
  · rw [hv]
    exact (h.warned j).trans (hT.warned j)
  · rw [hhps]
    exact (h.found j k hk).trans hk hS hT hv (h.warned j)

/-! ## Versions -/

/-- Thread `i` may start the next collection: it has emptied `toProcess`, or is late anyway. -/
def Ready (i : Fin n) (s : Mem n) : Prop :=
  s.localVer i < s.reclaim.ver ∨ (s.toProcess.ver = s.localVer i → s.toProcess.head = none)

theorem local_le_toProcess (hS : Shape s g) : s.localVer i ≤ s.toProcess.ver := by
  have h1 := hS.clock.near
  have h2 := hS.clock.even
  have h3 := hS.clock.local_le i
  have h4 := hS.clock.local_even i
  omega

theorem Ready.trans (h : Ready i s) (hS : Shape s g) (hT : Trans t s g s' g') (hv : s'.localVer i = s.localVer i) : Ready i s' := by
  have hle := local_le_toProcess (i := i) hS
  have hto := hT.toProcess
  unfold Ready
  rw [hv]
  obtain h | h := h
  · exact .inl (h.trans_le hT.reclaim)
  · refine .inr fun h' => ?_
    have hsame : s.toProcess.ver = s.localVer i := by omega
    exact hT.drained (by omega) (h hsame)

/-- The allocation cache has nothing more to give. -/
def Spent (i : Fin n) (s : Mem n) : Prop := ∀ e, s.alloc_cache i = some e → s.free e = 0

/-! ## The assertion -/

/-- What a thread keeps through a call of the allocator. -/
structure Files where
  desk : Nat → Option Sheet
  hands : Set Nat
  HPs : Nat → Ptr
  seen : Set Nat
  spent : Prop
  scan : Prop
  ready : Prop

structure Holds (i : Fin n) (F : Files) (s : Mem n) (g : Ghost n) : Prop where
  desk : sheet i s g = F.desk
  hands : ∀ a, g.spot a = .hand i ↔ a ∈ F.hands
  HPs : s.HPs i = F.HPs
  outside : ¬ g.window i
  seen : g.spoiled i ∨ F.seen ⊆ g.since i
  spent : F.spent → Spent i s
  scan : F.scan → Scanned i s g
  ready : F.ready → Ready i s

variable {F : Files} {D : Nat → Option Sheet} {H : Set Nat}

/-- A step of thread `i` in the allocator: it changes the caches in work and the objects in hand. -/
structure Calm (i : Fin n) (s : Mem n) (g : Ghost n) (s' : Mem n) (g' : Ghost n) : Prop where
  trans : ∃ t, Trans t s g s' g'
  HPs : s'.HPs i = s.HPs i
  window : g'.window i = g.window i
  localVer : s'.localVer i = s.localVer i
  hps : s'.hps i = s.hps i
  since : g.since i ⊆ g'.since i
  spoiled : g.spoiled i → g'.spoiled i
  spent : Spent i s → Spent i s'

theorem Holds.calm (h : Holds i F s g) (hS : Shape s g) (hc : Calm i s g s' g') (hD : sheet i s' g' = D)
    (hH : ∀ a, g'.spot a = .hand i ↔ a ∈ H) : Holds i { F with desk := D, hands := H } s' g' := by
  obtain ⟨t, hT⟩ := hc.trans
  exact ⟨hD, hH, hc.HPs.trans h.HPs, by rw [hc.window]; exact h.outside, h.seen.imp hc.spoiled fun hs => hs.trans hc.since,
    fun hs => hc.spent (h.spent hs), fun hs => (h.scan hs).trans hS hT hc.localVer hc.hps, fun hs => (h.ready hs).trans hS hT hc.localVer⟩

theorem Private.calm (h : Private i s g s' g') (hS : Shape s g) (hT : Trans t s g s' g') : Calm i s g s' g' := by
  refine ⟨⟨t, hT⟩, h.HPs, h.window, h.localVer, h.hps, h.since, h.spoiled, fun hs e he => ?_⟩
  rw [h.alloc_cache] at he
  have ho : (g.place e).owner = some i := by rw [hS.owners.serving i e he]; rfl
  rw [h.free e ho]
  exact hs e he

theorem Private.hand_iff (h : Private i s g s' g') (a : Nat) : g'.spot a = .hand i ↔ g.spot a = .hand i := by
  refine ⟨fun ha => ?_, fun ha => ?_⟩
  · exact (h.spot a (.inr (by rw [ha]; rfl))).symm.trans ha
  · exact (h.spot a (.inl (by rw [ha]; rfl))).trans ha

theorem steady_holds : Steady i (Holds i F) := fun _ _ _ _ _ hp hS _ hT h =>
  h.calm hS (hp.calm hS hT) (hp.sheet_eq.trans h.desk) fun a => (hp.hand_iff a).trans (h.hands a)

/-- `F` with what a collection needs left out. -/
def Files.blind (F : Files) : Files := { F with scan := False, ready := False }

theorem Holds.blind (h : Holds i F s g) : Holds i F.blind s g :=
  ⟨h.desk, h.hands, h.HPs, h.outside, h.seen, h.spent, False.elim, False.elim⟩

end OptimisticAccess.MOA
