import OptimisticAccess.AOA.Solo.Exact

/-!
# Registered roots

All array roots are cleared through the table of the first root. A table that is not cleared keeps the
number 0 for ever, and the array it belongs to is passed over.
-/

namespace OptimisticAccess.AOA.Solo

open Conc Prog

variable {heapmem rootLen : List Nat} {s s' s₁ : Mem 1} {i : Fin 1} {p : Ptr}

def maxNumberOfRoots : Nat := 10

/-- The registrations of `addGlobalRoot`: single words and arrays. -/
structure Registered (rootLen : List Nat) : Prop where
  length_le : rootLen.length ≤ maxNumberOfRoots
  len : ∀ len ∈ rootLen, len = 1 ∨ len % arrEntriesPerBit = 0 ∧ 0 < len ∧ len < 2 ^ 31

/-- After every collection what is reachable from a registered root is marked. -/
def HonoursAll (rootLen : List Nat) : Prop :=
  ∀ (heapmem : List Nat) (s s₁ : Mem 1) (i : Fin 1), Heap heapmem → Quiescent heapmem rootLen s → s.phase + 2 < 2 ^ 31 →
    (pallocCached i).run s = some (none, s₁) → s₁.head.head = none →
      ∃ bound, ∀ fuel, bound < fuel → Ends (triggerCollection i fuel) s₁ fun _ s' =>
        ∀ p, Obj heapmem p → Reachable s₁ (IsRoot s₁ (hazards s₁)) p → MarkedIn s' (s.phase + 2) p

theorem Registered.lens (h : Registered rootLen) : Lens rootLen := fun len hlen h1 => by
  obtain ⟨hdvd, -, hlt⟩ := (h.len len hlen).resolve_left h1
  exact ⟨hdvd, hlt⟩

theorem Framed.client (h : Framed s s') : s'.roots = s.roots ∧ s'.dirties = s.dirties := by
  obtain ⟨entries, head, k, cache, spent, rfl⟩ := h
  exact ⟨rfl, rfl⟩

theorem init_client (heapmem rootLen : List Nat) : (init_allocator 1 heapmem rootLen).phase = 0 ∧
    (init_allocator 1 heapmem rootLen).roots = (fun _ _ => NULL) ∧ (init_allocator 1 heapmem rootLen).dirties = fun _ => ⟨0, fun _ => NULL⟩ := by
  obtain ⟨entries, head, hinit⟩ := init_allocator_eq (n := 1) heapmem rootLen
  rw [hinit]
  exact ⟨rfl, rfl, rfl⟩

/-- The first object of a heap of one chunk. -/
def firstObj : Ptr := ⟨chunkSize + headerSize, false⟩

theorem obj_firstObj : Obj [chunkSize] firstObj := ⟨rfl, chunkSize, List.mem_cons_self, le_rfl, by decide, by decide⟩

/-- The pool is empty, and of all roots the array `r` alone points to an object. -/
theorem exists_array_state {r len : Nat} (hreg : Registered rootLen) (hget : rootLen[r]? = some len) (h1 : len ≠ 1) :
    ∃ s s₁ : Mem 1, Quiescent [chunkSize] rootLen s ∧ s.phase + 2 < 2 ^ 31 ∧ (pallocCached ⟨0, Nat.one_pos⟩).run s = some (none, s₁) ∧ s₁.head.head = none ∧
      hazards s₁ = [] ∧ ∀ r' k, s₁.roots r' k = if r' = r ∧ k = 0 then firstObj else NULL := by
  obtain ⟨hphase, hroots, hdirties⟩ := init_client [chunkSize] rootLen
  obtain ⟨s', hs', hframe, hempty⟩ := Quiescent.drain heap_one hreg.lens .init (by rw [hphase]; decide)
  have hphase' : s'.phase + 2 < 2 ^ 31 := by
    rw [hframe.phase, hphase]
    decide
  have hpermitted : Permitted [chunkSize] rootLen (.setWord (.root r 0) firstObj) := fun l hl => by
    obtain rfl := Option.some.inj (hget.symm.trans hl)
    exact ⟨fun h => absurd h h1, fun _ => .inr obj_firstObj⟩
  have hs : Quiescent [chunkSize] rootLen (s'.setWord (.root r 0) firstObj) :=
    hs'.serve (i := ⟨0, Nat.one_pos⟩) hphase' (Nat.lt_succ_self _) hpermitted rfl
  obtain ⟨s₁, hspent, hhead⟩ := (hs.rest heap_one hreg.lens).spent_of_empty (i := ⟨0, Nat.one_pos⟩) hempty
  obtain ⟨a, s₁', hrun, hcached⟩ := ends_pallocCached (i := ⟨0, Nat.one_pos⟩) (hs.rest heap_one hreg.lens)
  rw [hspent] at hrun
  obtain ⟨rfl, rfl⟩ := Prod.mk.inj (Option.some.inj hrun)
  obtain ⟨hroots₁, hdirties₁⟩ := hcached.frame.client
  refine ⟨_, s₁, hs, hphase', hspent, hhead, ?_, fun r' k => ?_⟩
  · have hdirty : s₁.dirties = fun _ => ⟨0, fun _ => NULL⟩ := (hdirties₁.trans hframe.client.2).trans hdirties
    rw [hazards, hdirty]
    rfl
  · have hold : s'.roots = fun _ _ => NULL := hframe.client.1.trans hroots
    rw [hroots₁]
    change Function.update s'.roots r (Function.update (s'.roots r) 0 firstObj) r' k = _
    rw [hold]
    by_cases hr : r' = r
    · subst hr
      rw [Function.update_self]
      by_cases hk : k = 0
      · rw [hk, Function.update_self, if_pos ⟨rfl, rfl⟩]
      · rw [Function.update_of_ne hk, if_neg fun h => hk h.2]
    · rw [Function.update_of_ne hr, if_neg fun h => hr h.1]

/-- The object of an array that is not the first root is freed. -/
theorem not_honoursAll_of_array {r len : Nat} (hreg : Registered rootLen) (hget : rootLen[r]? = some len) (h1 : len ≠ 1) (h0 : r ≠ 0) :
    ¬ HonoursAll rootLen := by
  intro hall
  obtain ⟨s, s₁, hs, hphase, hspent, hempty, hhazards, hroots⟩ := exists_array_state hreg hget h1
  obtain ⟨bound, hbound⟩ := hall [chunkSize] s s₁ _ heap_one hs hphase hspent hempty
  obtain ⟨a, s', hrun, hmarked⟩ := hbound (max bound (collectFuel [chunkSize] rootLen) + 1) (by omega)
  obtain ⟨a', s'', hrun', -, hrootLen, hcollected⟩ := ends_collection heap_one hreg.lens hs hphase hspent hempty
    (show collectFuel [chunkSize] rootLen < max bound (collectFuel [chunkSize] rootLen) + 1 by omega)
  rw [hrun] at hrun'
  obtain ⟨-, rfl⟩ := Prod.mk.inj (Option.some.inj hrun')
  have hpos := ((hreg.len len (List.mem_of_getElem? hget)).resolve_left h1).2.1
  have hroot : IsRoot s₁ (hazards s₁) firstObj :=
    .inr ⟨by decide, r, len, hrootLen ▸ hget, .inr ⟨h1, 0, hpos, by rw [hroots, if_pos ⟨rfl, rfl⟩]⟩⟩
  have hm := (hmarked _ obj_firstObj ⟨_, hroot, .refl⟩).2
  obtain ⟨q, hq, -⟩ := (hcollected.marked _ obj_firstObj).1 hm
  -- nothing else is a root
  obtain hq | ⟨hne, r', len', hget', h0', hword⟩ := hq
  · rw [hhazards] at hq
    exact absurd hq List.not_mem_nil
  · by_cases hr : r' = r
    · subst hr
      rw [hrootLen, hget] at hget'
      obtain rfl := Option.some.inj hget'
      exact h0 (h0' h1)
    · obtain ⟨-, rfl⟩ | ⟨-, k, -, rfl⟩ := hword
      · rw [hroots, if_neg fun h => hr h.1] at hne
        exact hne rfl
      · rw [hroots, if_neg fun h => hr h.1] at hne
        exact hne rfl

/-- Every root is honoured if and only if no array but the first root is registered. -/
theorem honoursAll_iff (hreg : Registered rootLen) : HonoursAll rootLen ↔ ∀ r len, rootLen[r]? = some len → len ≠ 1 → r = 0 := by
  constructor
  · intro hall r len hget h1
    by_contra h0
    exact not_honoursAll_of_array hreg hget h1 h0 hall
  · intro hfirst heapmem s s₁ i hheap hs hphase hspent hempty
    refine ⟨collectFuel heapmem rootLen, fun fuel hfuel => (ends_collection hheap hreg.lens hs hphase hspent hempty hfuel).mono fun _ s' hs' => ?_⟩
    obtain ⟨-, hrootLen, hcollected⟩ := hs'
    intro p hp hreach
    have hroot : Honoured s₁ (hazards s₁) = IsRoot s₁ (hazards s₁) := funext fun q => propext (honoured_iff (hrootLen ▸ hfirst))
    rw [hcollected.markedIn (by omega) hp, hcollected.marked p hp, hroot]
    exact hreach

theorem registered_two : Registered [64, 64] := ⟨by decide, by decide⟩

/-- Two arrays. -/
theorem honoursAll_iff_two : HonoursAll [64, 64] ↔ ∀ r len, [64, 64][r]? = some len → len ≠ 1 → r = 0 := honoursAll_iff registered_two

theorem not_honoursAll : ¬ ∀ rootLen, Registered rootLen → HonoursAll rootLen :=
  fun hall => not_honoursAll_of_array (r := 1) registered_two rfl (by decide) (by decide) (hall _ registered_two)

end OptimisticAccess.AOA.Solo
