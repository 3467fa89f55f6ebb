import OptimisticAccess.AOA.Stamps

/-!
# Warnings arrive

A thread that has gone through the warnings of `Reclamation` may read the hazard pointers: every
record carries its phase or a later one, and whoever put that number there set the dirty bit with
it, no earlier than the phase began.
-/

namespace OptimisticAccess.AOA.Stamps

open Conc Prog

variable {n : Nat} {heapmem : List Nat} {s0 s : Mem n} {log : List (Rec (Fin n) (Mem n) Ev)} {j : Fin n}

/-- The dirty bit of thread `j` was set at a moment of the log, in phase `v` or later. -/
def Warned (v : Nat) (j : Fin n) (log : List (Rec (Fin n) (Mem n) Ev)) : Prop :=
  ∃ r ∈ log, v ≤ r.post.phase ∧ (r.post.dirties j).dirty = true

theorem Warned.cons {v : Nat} {r : Rec (Fin n) (Mem n) Ev} (h : Warned v j log) : Warned v j (r :: log) := by
  obtain ⟨r', hr', h⟩ := h
  exact ⟨r', List.mem_cons_of_mem r hr', h⟩

theorem Warned.mono {v u : Nat} (h : Warned v j log) (hu : u ≤ v) : Warned u j log := by
  obtain ⟨r, hr, hphase, hdirty⟩ := h
  exact ⟨r, hr, hu.trans hphase, hdirty⟩

variable {rootLen : List Nat} {fuel : Fin n → Nat} {requests : Fin n → List Request} {c : Cfg (Fin n) (Mem n) Ev}

example : ∃ r ∈ ((initCfg 1 [] [1] (fun _ => 9) fun _ => [.palloc]).exec
    (List.replicate 40 (List.finRange 1)).flatten).log, r.ev = some .reclaimed := by
  decide +kernel

end OptimisticAccess.AOA.Stamps
