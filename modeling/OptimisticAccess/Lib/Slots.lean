import Mathlib.Data.Set.Function
import Mathlib.Order.Interval.Set.Basic

/-!
# A segment of an array as a set

`Slots f lo hi S`: the cells `lo .. hi - 1` of the array `f` hold the elements of `S`, each in one
cell. A cell is filled or emptied at the upper end, or emptied at the lower end.
-/

variable {α : Type*} {f g : Nat → α} {lo hi j k : Nat} {S : Set α} {a : α}

def Slots (f : Nat → α) (lo hi : Nat) (S : Set α) : Prop := Set.BijOn f (Set.Ico lo hi) S

namespace Slots

theorem mem (h : Slots f lo hi S) (h1 : lo ≤ j) (h2 : j < hi) : f j ∈ S := h.mapsTo ⟨h1, h2⟩

theorem inj (h : Slots f lo hi S) (hj : lo ≤ j ∧ j < hi) (hk : lo ≤ k ∧ k < hi) (e : f j = f k) : j = k :=
  h.injOn hj hk e

theorem exists_slot (h : Slots f lo hi S) (ha : a ∈ S) : ∃ j, lo ≤ j ∧ j < hi ∧ f j = a := by
  obtain ⟨j, hj, e⟩ := h.surjOn ha
  exact ⟨j, hj.1, hj.2, e⟩

theorem mk (hmem : ∀ j, lo ≤ j → j < hi → f j ∈ S)
    (hinj : ∀ j k, lo ≤ j → j < hi → lo ≤ k → k < hi → f j = f k → j = k)
    (hsurj : ∀ a ∈ S, ∃ j, lo ≤ j ∧ j < hi ∧ f j = a) : Slots f lo hi S := by
  refine ⟨fun j hj => hmem j hj.1 hj.2, fun j hj k hk => hinj j k hj.1 hj.2 hk.1 hk.2, fun a ha => ?_⟩
  obtain ⟨j, h1, h2, e⟩ := hsurj a ha
  exact ⟨j, ⟨h1, h2⟩, e⟩

theorem empty (h : hi ≤ lo) : Slots f lo hi ∅ :=
  mk (fun j _ _ => by omega) (fun j _ _ _ => by omega) fun a ha => absurd ha (Set.notMem_empty a)

/-- Cells outside the segment do not matter. -/
theorem congr (h : Slots f lo hi S) (hfg : ∀ j, lo ≤ j → j < hi → g j = f j) : Slots g lo hi S :=
  mk (fun j h1 h2 => by rw [hfg j h1 h2]; exact h.mem h1 h2)
    (fun j k h1 h2 h3 h4 e => h.inj ⟨h1, h2⟩ ⟨h3, h4⟩ (by rwa [hfg j h1 h2, hfg k h3 h4] at e))
    fun a ha => by
      obtain ⟨j, h1, h2, e⟩ := h.exists_slot ha
      exact ⟨j, h1, h2, (hfg j h1 h2).trans e⟩

/-- The cells of a segment determine the set. -/
theorem unique {T : Set α} (h : Slots f lo hi S) (h' : Slots f lo hi T) : S = T :=
  h.image_eq.symm.trans h'.image_eq

theorem push (h : Slots f lo hi S) (hle : lo ≤ hi) (ha : a ∉ S) :
    Slots (Function.update f hi a) lo (hi + 1) (insert a S) := by
  have hold : ∀ j, j < hi → Function.update f hi a j = f j := fun j hj => Function.update_of_ne (by omega) ..
  have hnew : Function.update f hi a hi = a := Function.update_self ..
  have hcases : ∀ j, j < hi + 1 → j < hi ∨ j = hi := fun j hj => by omega
  refine mk (fun j h1 h2 => ?_) (fun j k h1 h2 h3 h4 e => ?_) fun b hb => ?_
  · obtain hj | rfl := hcases j h2
    · rw [hold j hj]
      exact Set.mem_insert_of_mem a (h.mem h1 hj)
    · rw [hnew]
      exact Set.mem_insert a S
  · obtain hj | rfl := hcases j h2
    · obtain hk | rfl := hcases k h4
      · rw [hold j hj, hold k hk] at e
        exact h.inj ⟨h1, hj⟩ ⟨h3, hk⟩ e
      · rw [hold j hj, hnew] at e
        exact absurd (e ▸ h.mem h1 hj) ha
    · obtain hk | rfl := hcases k h4
      · rw [hold k hk, hnew] at e
        exact absurd (e ▸ h.mem h3 hk) ha
      · rfl
  · obtain rfl | hb := Set.mem_insert_iff.1 hb
    · exact ⟨hi, hle, Nat.lt_succ_self hi, hnew⟩
    · obtain ⟨j, h1, h2, e⟩ := h.exists_slot hb
      exact ⟨j, h1, Nat.lt_succ_of_lt h2, (hold j h2).trans e⟩

/-- All cells but one. -/
private theorem erase {lo' hi' m : Nat} (h : Slots f lo hi S) (hm : lo ≤ m ∧ m < hi)
    (hseg : ∀ j, lo' ≤ j ∧ j < hi' ↔ (lo ≤ j ∧ j < hi) ∧ j ≠ m) : Slots f lo' hi' (S \ {f m}) := by
  refine mk (fun j h1 h2 => ?_) (fun j k h1 h2 h3 h4 e => ?_) fun a ha => ?_
  · obtain ⟨hj, hne⟩ := (hseg j).1 ⟨h1, h2⟩
    exact ⟨h.mem hj.1 hj.2, fun e => hne (h.inj hj hm e)⟩
  · exact h.inj ((hseg j).1 ⟨h1, h2⟩).1 ((hseg k).1 ⟨h3, h4⟩).1 e
  · obtain ⟨j, h1, h2, rfl⟩ := h.exists_slot ha.1
    obtain ⟨h3, h4⟩ := (hseg j).2 ⟨⟨h1, h2⟩, fun e => ha.2 (congrArg f e)⟩
    exact ⟨j, h3, h4, rfl⟩

theorem pop (h : Slots f lo hi S) (hlt : lo < hi) : Slots f lo (hi - 1) (S \ {f (hi - 1)}) :=
  h.erase (by omega) fun j => by omega

theorem shift (h : Slots f lo hi S) (hlt : lo < hi) : Slots f (lo + 1) hi (S \ {f lo}) :=
  h.erase (by omega) fun j => by omega

end Slots
