import Mathlib.Algebra.BigOperators.Group.Finset.Basic
import Mathlib.Algebra.Order.BigOperators.Group.Finset
import Mathlib.Algebra.Order.Group.Multiset

/-!
# References spread over holders

Each holder `i ∈ s` holds a multiset `f i` of references to objects; `∑ i ∈ s, f i` is all of
them. A reference that changes hands leaves the sum as it is, and an object with a single
reference has a single holder.
-/

namespace Holdings

variable {ι M α : Type*} {s : Finset ι} {i j : ι}

section Change

variable [DecidableEq ι]

/-- The sum after the share of `i` has changed. -/
theorem sum_change [AddCommMonoid M] (f f' : ι → M) (hi : i ∈ s) (h : ∀ j ∈ s, j ≠ i → f' j = f j) :
    f i + ∑ j ∈ s, f' j = f' i + ∑ j ∈ s, f j := by
  have hrest : ∑ j ∈ s.erase i, f' j = ∑ j ∈ s.erase i, f j :=
    Finset.sum_congr rfl fun j hj => h j (Finset.mem_of_mem_erase hj) (Finset.ne_of_mem_erase hj)
  rw [← Finset.add_sum_erase s f' hi, ← Finset.add_sum_erase s f hi, hrest]
  exact add_left_comm ..

end Change

variable {f : ι → Multiset α} {a : α}

theorem le_sum (hi : i ∈ s) : f i ≤ ∑ j ∈ s, f j :=
  Finset.single_le_sum (fun j _ => Multiset.zero_le (f j)) hi

variable [DecidableEq α]

theorem mem_sum : a ∈ ∑ j ∈ s, f j ↔ ∃ j ∈ s, a ∈ f j := by
  constructor
  · intro h
    by_contra hno
    simp only [not_exists, not_and] at hno
    have : Multiset.count a (∑ j ∈ s, f j) = 0 := by
      rw [Multiset.count_sum']
      exact Finset.sum_eq_zero fun j hj => Multiset.count_eq_zero_of_notMem (hno j hj)
    exact Multiset.count_eq_zero.1 this h
  · rintro ⟨j, hj, ha⟩
    exact Multiset.mem_of_le (le_sum hj) ha

/-- Two holders of an object hold two references. -/
theorem two_le_count [DecidableEq ι] (hi : i ∈ s) (hj : j ∈ s) (hij : i ≠ j) (ha : a ∈ f i) (ha' : a ∈ f j) :
    2 ≤ Multiset.count a (∑ k ∈ s, f k) := by
  rw [Multiset.count_sum', ← Finset.add_sum_erase s _ hi]
  have h1 := Multiset.count_pos.2 ha
  have h2 : Multiset.count a (f j) ≤ ∑ k ∈ s.erase i, Multiset.count a (f k) :=
    Finset.single_le_sum (f := fun k => Multiset.count a (f k)) (fun _ _ => Nat.zero_le _)
      (Finset.mem_erase.2 ⟨hij.symm, hj⟩)
  have h3 := Multiset.count_pos.2 ha'
  omega

end Holdings
