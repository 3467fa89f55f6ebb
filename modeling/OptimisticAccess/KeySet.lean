import Mathlib.Data.Finset.Insert
import Mathlib.Data.Finset.Erase
import OptimisticAccess.Conc.System
import OptimisticAccess.Entry

/-!
# Lists as sets of keys

What the operations of a list are for: they act on a finite set of keys.
-/

namespace OptimisticAccess

open Conc

/-- The answer of an operation. -/
def Op.answer (S : Finset CInt) : Op → Bool
  | .insert key _ => key ∉ S
  | .delete key => key ∈ S
  | .search key => key ∈ S

/-- The set after an operation. -/
def Op.after (S : Finset CInt) : Op → Finset CInt
  | .insert key _ => Insert.insert key S
  | .delete key => S.erase key
  | .search _ => S

variable {ι σ ε : Type} (returned : ε → Option (Op × Bool))

/-- The set after the operations that have returned. -/
def contents : List (Rec ι σ ε) → Finset CInt
  | [] => ∅
  | r :: rs =>
    match r.ev.bind returned with
    | some (op, _) => op.after (contents rs)
    | none => contents rs

/-- The operation that returns has the answer of the set. -/
def Answers (rs : List (Rec ι σ ε)) (r : Rec ι σ ε) : Prop := ∀ op b, r.ev.bind returned = some (op, b) → b = op.answer (contents returned rs)

variable {returned} {r : Rec ι σ ε} {rs : List (Rec ι σ ε)}

theorem contents_of_none (h : r.ev.bind returned = none) : contents returned (r :: rs) = contents returned rs := by
  rw [contents, h]

theorem Answers.of_none (h : r.ev.bind returned = none) : Answers returned rs r := fun op b hret => by
  rw [h] at hret
  cases hret

end OptimisticAccess
