import OptimisticAccess.AOA.Solo.Exact

/-!
# How long packed phases last

Phase numbers are `long`s that grow by two. They are compared after having been cut: to the upper half
of a mark word, an array counter or the sweep counter, to the bytes of `dirtyNphase` above the lowest,
and to the `int`s of `curPhases`. The last of these gives out first.
-/

namespace OptimisticAccess.AOA

open Conc Prog

/-! ## Packing -/

theorem toNat_makeSC {cnt v : Nat} (hcnt : cnt < 2 ^ 32) : (makeSC cnt v).toNat = 2 ^ 32 * (v % 2 ^ 32) + cnt := by
  rw [makeSC, BitVec.toNat_or, Stamp.toNat_empty, BitVec.toNat_ofNat, Nat.mod_eq_of_lt (a := cnt) (by omega), mul_comm]
  exact (Nat.two_pow_add_eq_or_of_lt hcnt _).symm

theorem hi_makeSC {cnt v : Nat} (hcnt : cnt < 2 ^ 32) : Stamp.hi (makeSC cnt v) = v % 2 ^ 32 := by
  rw [Stamp.hi, toNat_makeSC hcnt]
  omega

/-- The phase in `dirtyNphase`, below which lies the dirty byte. -/
theorem toNat_dirtyNphase {v byte : Nat} (hv : v < 2 ^ 31) (hbyte : byte < 2 ^ 8) :
    (BitVec.ofNat 64 v <<< 8 ||| BitVec.ofNat 64 byte).toNat = v * 2 ^ 8 + byte := by
  rw [BitVec.toNat_or, Stamps.toNat_dNp hv, BitVec.toNat_ofNat, Nat.mod_eq_of_lt (a := byte) (by omega), mul_comm]
  exact (Nat.two_pow_add_eq_or_of_lt hbyte v).symm

namespace Solo

variable {heapmem rootLen : List Nat} {s s' s₁ : Mem 1} {i : Fin 1} {v k a b cnt byte fuel : Nat}

/-! ## `CheckFinish` -/

/-- A phase that is no `int`: what is in `curPhases` is never the `localVer` it was read from. -/
theorem checkFinish_stuck (hver : (s.locals i).localVer = v) (hint : toInt32 v ≠ v) : (CheckFinish i fuel).run s = none := by
  have hi : i = ⟨0, Nat.one_pos⟩ := Subsingleton.elim _ _
  subst hi hver
  change (iter _ fuel ()).run s = none
  refine run_iter_none (fun _ s' => s' = s) (fun _ s' hs' => ?_) fuel rfl
  subst hs'
  refine ends_bind.2 (ends_foldEach_finRange (ends_bind.2 (ends_load.2 (ends_bind.2 (ends_load.2 ?_)))))
  rw [if_pos (.inr hint)]
  refine ends_ret.2 ?_
  dsimp only
  rw [if_neg (by omega), List.nil_append, anyEach]
  refine ends_bind.2 (ends_bind.2 (ends_bind.2 (ends_load.2 ?_)))
  rw [if_neg (not_not.2 rfl)]
  refine ends_bind.2 (ends_load.2 (ends_ret.2 ?_))
  rw [if_pos (bne_iff_ne.2 hint.symm)]
  refine ends_ret.2 ?_
  rw [if_pos rfl]
  exact ends_ret.2 ⟨(), rfl, rfl⟩

theorem ends_CheckFinish_iff (hver : (s.locals i).localVer = v) (htag : (slots s 0).tag = true) (hfuel : 0 < fuel) :
    Ends (CheckFinish i fuel) s (fun r _ => r.1 = true) ↔ v < 2 ^ 31 := by
  rw [← toInt32_eq_iff]
  constructor
  · rintro ⟨r, s', hrun, -⟩
    by_contra hint
    rw [checkFinish_stuck hver hint] at hrun
    exact Option.some_ne_none _ hrun.symm
  · intro hint
    refine (ends_CheckFinish hver hint htag hfuel).mono fun r _ hr => ?_
    rw [hr.1]

/-! ## Faithful phases -/

/-- What a collection for phase `v` that is started in `s` leaves: every mark word is that of the phase, and what is marked is what is reachable. -/
def Renewed (heapmem : List Nat) (s : Mem 1) (v : Nat) (s' : Mem 1) : Prop :=
  ∀ p, Obj heapmem p → isCurPhase (s'.marks (markWord p.addr)) (makeSC 0 v) = true ∧ (Marked s' p ↔ Reachable s (Honoured s (hazards s)) p)

/-- In the phases of the first `k` collections, each comparison of a packed phase answers as the phases themselves would, and
a collection with one thread comes to its end. -/
structure Faithful (k : Nat) : Prop where
  current : ∀ a ≤ k, ∀ b ≤ k, ∀ cnt < 2 ^ 32, isCurPhase (makeSC cnt (2 * a)) (makeSC 0 (2 * b)) = true ↔ 2 * a = 2 * b
  cleared : ∀ a ≤ k, ∀ b ≤ k, ∀ cnt < 2 ^ 32, makeSC cnt (2 * a) ≥ Stamp.empty (2 * b) ↔ 2 * a ≥ 2 * b
  warned : ∀ a ≤ k, ∀ b ≤ k, ∀ byte < 2 ^ 8,
    BitVec.ofNat 64 (2 * a) <<< 8 ||| BitVec.ofNat 64 byte ≥ BitVec.ofNat 64 (2 * b) <<< 8 ↔ 2 * a ≥ 2 * b
  begun : ∀ a ≤ k, ∀ b ≤ k, ∀ cnt < 2 ^ 32, phaseOf (makeSC cnt (2 * a)) ≥ 2 * b ↔ 2 * a ≥ 2 * b
  previous : ∀ a ≤ k, ∀ b ≤ k, ∀ cnt < 2 ^ 32, (phaseOf (makeSC cnt (2 * a)) : Int) = (2 * b : Nat) - 2 ↔ ((2 * a : Nat) : Int) = (2 * b : Nat) - 2
  claimed : ∀ a ≤ k, ∀ b ≤ k, ∀ cnt < 2 ^ 32, phaseOf (makeSC cnt (2 * a)) = 2 * b % 2 ^ 32 ↔ 2 * a = 2 * b
  scanned : ∀ a ≤ k, ∀ b ≤ k, toInt32 (2 * a) = (2 * b : Nat) ↔ 2 * a = 2 * b
  finishes : ∀ b ≤ k, ∀ (s : Mem 1) (i : Fin 1) (fuel : Nat), (s.locals i).localVer = 2 * b → (slots s 0).tag = true → 0 < fuel →
    Ends (CheckFinish i fuel) s fun r _ => r.1 = true
  collects : ∀ b ≤ k, ∀ (heapmem rootLen : List Nat) (s s₁ : Mem 1) (i : Fin 1), Heap heapmem → Lens rootLen → Quiescent heapmem rootLen s →
    s.phase + 2 = 2 * b → (pallocCached i).run s = some (none, s₁) → s₁.head.head = none →
    ∃ bound, ∀ fuel, bound < fuel → Ends (triggerCollection i fuel) s₁ fun _ s' => Renewed heapmem s₁ (2 * b) s'

theorem phaseOf_makeSC (hcnt : cnt < 2 ^ 32) (hv : v < 2 ^ 31) : phaseOf (makeSC cnt v) = v := by
  rw [phaseOf_eq, hi_makeSC hcnt]
  omega

theorem toInt32_of_lt (hv : v < 2 ^ 31) : toInt32 v = v := toInt32_eq_iff.2 hv

/-- The phases below `2^31`, the 31 bits of an `int`, and no others. -/
theorem faithful_iff : Faithful k ↔ 2 * k < 2 ^ 31 := by
  constructor
  · intro h
    exact toInt32_eq_iff.1 ((h.scanned k le_rfl k le_rfl).2 rfl)
  · intro hk
    have hlt : ∀ a ≤ k, 2 * a < 2 ^ 31 := fun a ha => by omega
    refine { current := fun a ha b hb cnt hcnt => ?_, cleared := fun a ha b hb cnt hcnt => ?_, warned := fun a ha b hb byte hbyte => ?_,
             begun := fun a ha b hb cnt hcnt => ?_, previous := fun a ha b hb cnt hcnt => ?_, claimed := fun a ha b hb cnt hcnt => ?_,
             scanned := fun a ha b hb => ?_, finishes := fun b hb s i fuel hver htag hfuel => ?_, collects := ?_ }
    · have := hlt a ha
      have := hlt b hb
      rw [makeSC_zero, isCurPhase_empty, hi_makeSC hcnt]
      omega
    · have := hlt a ha
      have := hlt b hb
      rw [ge_iff_le, Stamp.empty_le_iff, hi_makeSC hcnt]
      omega
    · rw [ge_iff_le, BitVec.le_def, toNat_dirtyNphase (hlt a ha) hbyte, Stamps.toNat_dNp (hlt b hb)]
      omega
    · rw [phaseOf_makeSC hcnt (hlt a ha)]
    · rw [phaseOf_makeSC hcnt (hlt a ha)]
    · have := hlt b hb
      rw [phaseOf_makeSC hcnt (hlt a ha)]
      omega
    · rw [toInt32_of_lt (hlt a ha)]
      exact Nat.cast_inj
    · exact (ends_CheckFinish_iff hver htag hfuel).2 (hlt b hb)
    · intro b hb heapmem rootLen s s₁ i hheap hlens hs hphase hspent hempty
      have hb' := hlt b hb
      refine ⟨collectFuel heapmem rootLen, fun fuel hfuel => ?_⟩
      refine (ends_collection hheap hlens hs (by omega) hspent hempty hfuel).mono fun _ s' hs' p hp => ?_
      obtain ⟨-, -, hs'⟩ := hs'
      have hstamp : Stamp.hi (s'.marks (markWord p.addr)) = 2 * b := hphase ▸ hs'.stamped p hp
      exact ⟨by rw [makeSC_zero]; exact isCurPhase_of_hi (by omega) hstamp, hs'.marked p hp⟩

/-- After `2^30 - 1` collections the next one has the phase `2^31`, which `curPhases` holds as `-2^31`. -/
theorem not_faithful : ¬ ∀ k, Faithful k := by
  intro h
  have hscanned : toInt32 (2 * 2 ^ 30) = (2 * 2 ^ 30 : Nat) := ((h (2 ^ 30)).scanned (2 ^ 30) le_rfl (2 ^ 30) le_rfl).2 rfl
  exact absurd (toInt32_eq_iff.1 hscanned) (by decide)

end Solo

end OptimisticAccess.AOA
