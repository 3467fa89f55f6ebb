import Mathlib.Data.List.Nodup

/-!
# Singly linked stacks

`Linked next h l`: from the head `h` the links `next` lead through the cells of `l`, top first, and
end there. A cell outside `l` may be written at will; pushing and popping are the only two ways a
stack changes.
-/

variable {α : Type} {next next' : α → Option α} {h : Option α} {a b : α} {l l' : List α}

def Linked (next : α → Option α) : Option α → List α → Prop
  | h, [] => h = none
  | h, a :: l => h = some a ∧ Linked next (next a) l

namespace Linked

@[simp] theorem nil_iff : Linked next h [] ↔ h = none := Iff.rfl

@[simp] theorem cons_iff : Linked next h (a :: l) ↔ h = some a ∧ Linked next (next a) l := Iff.rfl

/-- Links of other cells do not matter. -/
theorem congr (hl : Linked next h l) (hnext : ∀ a ∈ l, next' a = next a) : Linked next' h l := by
  induction l generalizing h with
  | nil => exact hl
  | cons a l ih =>
    refine ⟨hl.1, ?_⟩
    rw [hnext a List.mem_cons_self]
    exact ih hl.2 fun b hb => hnext b (List.mem_cons_of_mem a hb)

theorem unique (hl : Linked next h l) (hl' : Linked next h l') : l = l' := by
  induction l generalizing h l' with
  | nil =>
    cases l' with
    | nil => rfl
    | cons b l' => exact absurd (hl.symm.trans hl'.1) (Option.some_ne_none b).symm
  | cons a l ih =>
    cases l' with
    | nil => exact absurd (hl.1.symm.trans hl') (Option.some_ne_none a)
    | cons b l' =>
      obtain rfl : a = b := Option.some.inj (hl.1.symm.trans hl'.1)
      rw [ih hl.2 hl'.2]

/-- The cell at the head is the top of the stack. -/
theorem top (hl : Linked next (some a) l) : ∃ r, l = a :: r ∧ Linked next (next a) r := by
  cases l with
  | nil => exact absurd hl (Option.some_ne_none a)
  | cons b r =>
    obtain rfl : a = b := Option.some.inj hl.1
    exact ⟨r, rfl, hl.2⟩

theorem mem_of_some (hl : Linked next (some a) l) : a ∈ l := by
  obtain ⟨r, rfl, -⟩ := hl.top
  exact List.mem_cons_self

theorem push (hl : Linked next h l) (ha : next a = h) : Linked next (some a) (a :: l) := ⟨rfl, ha ▸ hl⟩

end Linked
