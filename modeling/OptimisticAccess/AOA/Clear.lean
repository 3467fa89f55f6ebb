import OptimisticAccess.AOA.Alloc
import OptimisticAccess.Conc.Logic

/-!
# Every mark word is cleared

Each thread starts `clearMarks` at its own part of a header and goes round, so it comes to every
word of every chunk, whatever the number of threads. What is known of a word once `clearWord` is
through with it is left open.
-/

namespace OptimisticAccess.AOA

open Conc Prog

variable {n : Nat} {γ : Type} {L : Proto (Fin n) (Mem n) Ev γ} {i tid : Fin n} {fuel phaseNum : Nat}

/-- A mark word in the header of a chunk. -/
def IsHeader (heapmem : List Nat) (h : Nat) : Prop :=
  ∃ c ∈ heapmem, ∃ k < headerSize / wordSize, h = c + wordSize * k

/-- `m, m + 1, ..` comes to every residue in one round. -/
theorem exists_turn {t m k : Nat} (hk : k < t) : ∃ l < t, (m + l) % t = k := by
  refine ⟨(k + t - m % t) % t, Nat.mod_lt _ (by omega), ?_⟩
  have hm := Nat.mod_lt m (show t > 0 by omega)
  rw [← Nat.mod_add_mod, Nat.add_mod_mod, show m % t + (k + t - m % t) = k + t by omega, Nat.add_mod_right,
    Nat.mod_eq_of_lt hk]

/-- `clearWord` of the mark word `h` makes it one of the words known to be done. -/
def ClearsWord (L : Proto (Fin n) (Mem n) Ev γ) (i : Fin n) (fuel phaseNum : Nat)
    (Q : (Nat → Prop) → World (Fin n) (Mem n) Ev γ → Prop) (h : Nat) : Prop :=
  ∀ X, L.Triple i (Q X) (clearWord fuel (·.marks h) (fun w s => s.setMarks h w) (Stamp.empty phaseNum))
    fun _ => Q fun x => X x ∨ x = h

variable {Q : (Nat → Prop) → World (Fin n) (Mem n) Ev γ → Prop} {X : Nat → Prop} {heapmem : List Nat}

/-- The `t` words of one header. -/
theorem triple_clearChunk {c t m : Nat} (hmono : ∀ X Y w, (∀ h, Y h → X h) → Q X w → Q Y w) (ht : 0 < t)
    (hword : ∀ k < t, ClearsWord L i fuel phaseNum Q (c + wordSize * k)) :
    L.Triple i (Q X) (forEach (fun k =>
      clearWord fuel (·.marks (c + wordSize * ((m + k) % t))) (fun w s => s.setMarks (c + wordSize * ((m + k) % t)) w)
        (Stamp.empty phaseNum)) (List.range t)) fun _ => Q fun x => X x ∨ ∃ k < t, x = c + wordSize * k := by
  refine Proto.Triple.mono (Proto.Triple.forEach (J := fun ks => Q fun x => X x ∨
    ∃ k < t, k ∉ ks ∧ x = c + wordSize * ((m + k) % t)) (fun k ks => ?_) (List.range t))
    (fun w hw => hmono _ _ w ?_ hw) fun _ w hw => hmono _ _ w ?_ hw
  · refine (hword _ (Nat.mod_lt _ ht) _).post fun _ w hw => hmono _ _ w ?_ hw
    rintro x (hx | ⟨l, hl, hn, rfl⟩)
    · exact .inl (.inl hx)
    · by_cases e : l = k
      · exact .inr (e ▸ rfl)
      · exact .inl (.inr ⟨l, hl, fun hmem => hn ((List.mem_cons.1 hmem).resolve_left e), rfl⟩)
  · rintro x (hx | ⟨k, hk, hn, -⟩)
    · exact hx
    · exact absurd (List.mem_range.2 hk) hn
  · rintro x (hx | ⟨k, hk, rfl⟩)
    · exact .inl hx
    · obtain ⟨l, hl, hturn⟩ := exists_turn (m := m) hk
      exact .inr ⟨l, hl, List.not_mem_nil, by rw [hturn]⟩

/-- All words of all chunks. -/
theorem triple_clearMarks (hmono : ∀ X Y w, (∀ h, Y h → X h) → Q X w → Q Y w)
    (hchunks : L.Triple i (Q X) (load (·.heapmem)) fun chunks w => chunks = heapmem ∧ Q X w)
    (hword : ∀ h, IsHeader heapmem h → ClearsWord L i fuel phaseNum Q h) :
    L.Triple i (Q X) (clearMarks tid fuel phaseNum) fun _ => Q fun x => X x ∨ IsHeader heapmem x := by
  unfold clearMarks
  unfold IsHeader at hword ⊢
  have ht : 0 < headerSize / wordSize := by decide
  revert hword ht
  generalize headerSize / wordSize = t
  intro hword ht
  refine Proto.Triple.bind hchunks fun chunks => Proto.Triple.fact (fun w h => h.1) fun e => ?_
  subst e
  -- a word is done when its chunk is no longer in the list
  refine Proto.Triple.mono (Proto.Triple.forEach (J := fun cs w => cs ⊆ chunks ∧ Q (fun x => X x ∨
    ∃ c ∈ chunks, c ∉ cs ∧ ∃ k < t, x = c + wordSize * k) w) (fun c cs => ?_) chunks)
    (fun w hw => ⟨List.Subset.refl chunks, hmono _ _ w ?_ hw.2⟩) fun _ w hw => hmono _ _ w ?_ hw.2
  · refine Proto.Triple.fact (fun w h => h.1) fun hsub => ?_
    have hc : c ∈ chunks := hsub List.mem_cons_self
    refine Proto.Triple.mono (triple_clearChunk hmono ht fun k hk => hword _ ⟨c, hc, k, hk, rfl⟩) (fun w hw => hw.2)
      fun _ w hw => ⟨fun _ h => hsub (List.mem_cons_of_mem c h), hmono _ _ w ?_ hw⟩
    rintro x (hx | ⟨d, hd, hn, k, hk, rfl⟩)
    · exact .inl (.inl hx)
    · by_cases e : d = c
      · exact .inr ⟨k, hk, e ▸ rfl⟩
      · exact .inl (.inr ⟨d, hd, fun hmem => hn ((List.mem_cons.1 hmem).resolve_left e), k, hk, rfl⟩)
  · rintro x (hx | ⟨c, hc, hn, -⟩)
    · exact hx
    · exact absurd hc hn
  · rintro x (hx | ⟨c, hc, k, hk, rfl⟩)
    · exact .inl hx
    · exact .inr ⟨c, hc, List.not_mem_nil, k, hk, rfl⟩

end OptimisticAccess.AOA
