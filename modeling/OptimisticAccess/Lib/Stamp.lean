import Mathlib.Data.Nat.Bits
import Mathlib.Tactic.Linarith

/-!
# Stamped words

A 64-bit word whose upper half is a stamp and whose lower half is a bit set. Words change in two
ways: a bit is set, or the word is replaced by an empty one with a newer stamp. Both are steps of
`Grow`, which never forgets a bit while the stamp stays.
-/

namespace Stamp

/-- The upper half. -/
def hi (w : BitVec 64) : Nat := w.toNat / 2 ^ 32

/-- The empty word with stamp `v`. -/
def empty (v : Nat) : BitVec 64 := BitVec.ofNat 64 v <<< 32

/-- Bit `k` is in the set. -/
def bit (k : Nat) : BitVec 64 := 1#64 <<< k

variable {w w' w'' : BitVec 64} {k j v : Nat}

theorem hi_lt (w : BitVec 64) : hi w < 2 ^ 32 := by
  have := w.isLt
  unfold hi
  omega

theorem toNat_empty (v : Nat) : (empty v).toNat = v % 2 ^ 32 * 2 ^ 32 := by
  simp only [empty, BitVec.toNat_shiftLeft, BitVec.toNat_ofNat, Nat.shiftLeft_eq]
  omega

@[simp] theorem hi_empty (v : Nat) : hi (empty v) = v % 2 ^ 32 := by
  rw [hi, toNat_empty]
  omega

theorem le_hi (h : empty v ≤ w) : v % 2 ^ 32 ≤ hi w := by
  rw [BitVec.le_def, toNat_empty] at h
  unfold hi
  omega

theorem empty_le_iff : empty v ≤ w ↔ v % 2 ^ 32 ≤ hi w := by
  refine ⟨le_hi, fun h => ?_⟩
  rw [BitVec.le_def, toNat_empty]
  unfold hi at h
  omega

theorem getLsbD_bit (k j : Nat) : (bit k).getLsbD j = (decide (j < 64) && decide (j = k)) := by
  unfold bit
  rw [BitVec.getLsbD_shiftLeft]
  by_cases hj : j < 64
  · by_cases hk : j < k
    · have : j ≠ k := by omega
      simp [hk, this]
    · by_cases e : j = k
      · subst e; simp [hj]
      · have : j - k ≠ 0 := by omega
        simp [hj, hk, e, this]
  · simp [hj]

theorem getLsbD_or_bit (hj : j < 64) : (w ||| bit k).getLsbD j = (w.getLsbD j || decide (j = k)) := by
  rw [BitVec.getLsbD_or, getLsbD_bit]
  simp [hj]

theorem and_bit_ne_zero (hk : k < 64) : w &&& bit k ≠ 0#64 ↔ w.getLsbD k = true := by
  constructor
  · intro h
    by_contra hw
    refine h (BitVec.eq_of_getLsbD_eq fun i hi => ?_)
    rw [BitVec.getLsbD_and, getLsbD_bit]
    by_cases e : i = k
    · subst e; simp [hw]
    · simp [e]
  · intro h e
    have : (w &&& bit k).getLsbD k = false := by rw [e]; simp
    rw [BitVec.getLsbD_and, getLsbD_bit, h] at this
    simp [hk] at this

theorem and_bit_eq_zero (hk : k < 64) : w &&& bit k = 0#64 ↔ w.getLsbD k = false := by
  rw [← Bool.not_eq_true, ← and_bit_ne_zero hk, not_not]

theorem hi_or_bit (hk : k < 32) : hi (w ||| bit k) = hi w := by
  have h : w >>> 32 = (w ||| bit k) >>> 32 := by
    refine BitVec.eq_of_getLsbD_eq fun i hi => ?_
    rw [BitVec.getLsbD_ushiftRight, BitVec.getLsbD_ushiftRight, BitVec.getLsbD_or, getLsbD_bit]
    have : 32 + i ≠ k := by omega
    simp [this]
  have := congrArg BitVec.toNat h
  rw [BitVec.toNat_ushiftRight, BitVec.toNat_ushiftRight, Nat.shiftRight_eq_div_pow,
    Nat.shiftRight_eq_div_pow] at this
  exact this.symm

theorem getLsbD_empty (hj : j < 32) : (empty v).getLsbD j = false := by
  simp [empty, hj]

/-- Clearing the lower half leaves the empty word of the same stamp. -/
theorem and_upper (w : BitVec 64) : w &&& 0xFFFFFFFF00000000#64 = empty (hi w) := by
  have hM : 0xFFFFFFFF00000000#64 = BitVec.allOnes 64 <<< 32 := by decide
  refine BitVec.eq_of_getLsbD_eq fun i hi64 => ?_
  rw [hM, BitVec.getLsbD_and, empty, BitVec.getLsbD_shiftLeft, BitVec.getLsbD_shiftLeft]
  by_cases hi32 : i < 32
  · simp [hi32]
  · have hlt : i - 32 < 64 := by omega
    simp only [hi64, decide_true, hi32, decide_false, Bool.not_false, Bool.true_and,
      BitVec.getLsbD_allOnes, hlt, Bool.and_true, BitVec.getLsbD_ofNat, hi, Nat.testBit_div_two_pow]
    rw [BitVec.getLsbD, show i - 32 + 32 = i by omega]

/-- What happens to a word over time. -/
def Grow (w w' : BitVec 64) : Prop :=
  hi w ≤ hi w' ∧ (hi w = hi w' → ∀ k < 32, w.getLsbD k = true → w'.getLsbD k = true)

theorem Grow.refl (w : BitVec 64) : Grow w w := ⟨le_rfl, fun _ _ _ h => h⟩

theorem Grow.trans (h : Grow w w') (h' : Grow w' w'') : Grow w w'' := by
  refine ⟨h.1.trans h'.1, fun e k hk hw => ?_⟩
  have e1 : hi w = hi w' := le_antisymm h.1 (e ▸ h'.1)
  exact h'.2 (e1 ▸ e) k hk (h.2 e1 k hk hw)

theorem Grow.set (hk : k < 32) : Grow w (w ||| bit k) := by
  refine ⟨(hi_or_bit hk).ge, fun _ j hj hw => ?_⟩
  rw [getLsbD_or_bit (by omega), hw]
  rfl

theorem Grow.renew (h : ¬ empty v ≤ w) : Grow w (empty v) := by
  rw [empty_le_iff, not_le] at h
  exact ⟨by rw [hi_empty]; exact h.le, fun e => by rw [hi_empty] at e; omega⟩

attribute [irreducible] empty bit

end Stamp
