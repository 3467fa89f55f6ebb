import Mathlib.Logic.Relation
import OptimisticAccess.AOA.State

/-!
# The object graph

Objects are the nodes of a graph with one edge out of each, `nextEntry` with the deleted flag
cleared. A collection computes in the mark bits what is reachable in it from the roots.
-/

namespace OptimisticAccess.AOA

open Relation (ReflTransGen)

variable {n : Nat} {s s' : Mem n} {p q : Ptr}

/-- `getChild(obj, CHILD1_OFFSET)`. -/
def child (s : Mem n) (p : Ptr) : Ptr := clearPtr (s.node p.addr).nextEntry

def Edge (s : Mem n) (p q : Ptr) : Prop := q ≠ NULL ∧ q = child s p

def Reachable (s : Mem n) (R : Ptr → Prop) (q : Ptr) : Prop := ∃ p, R p ∧ ReflTransGen (Edge s) p q

/-- The value of `is_marked(p)`. -/
def Marked (s : Mem n) (p : Ptr) : Prop := (s.marks (markWord p.addr)).getLsbD (markBit p.addr) = true

instance (s : Mem n) (p : Ptr) : Decidable (Marked s p) := inferInstanceAs (Decidable (_ = true))

/-- An untagged pointer to an aligned object. -/
structure IsObj (p : Ptr) : Prop where
  ne : p ≠ NULL
  tag : p.tag = false
  aligned : p.addr % nodeSize = 0

theorem clearPtr_of_tag (h : p.tag = false) : clearPtr p = p := by
  cases p
  simp_all [clearPtr, clearDeleted]

/-- Whatever is closed under edges and holds of the roots holds of all that is reachable. -/
theorem Reachable.induction {R P : Ptr → Prop} (h : Reachable s R q) (hroot : ∀ p, R p → P p)
    (hedge : ∀ p q, P p → Edge s p q → P q) : P q := by
  obtain ⟨p, hp, hpq⟩ := h
  induction hpq with
  | refl => exact hroot p hp
  | tail _ he ih => exact hedge _ _ ih he

/-! ## Mark bits -/

/-- Objects have a mark bit each. -/
theorem mark_params_injective {a b : Nat} (ha : a % nodeSize = 0) (hb : b % nodeSize = 0)
    (hword : markWord a = markWord b) (hbit : markBit a = markBit b) : a = b := by
  simp only [nodeSize, markWord, markBit, chunkSize, wordSize] at *
  omega

theorem IsObj.eq (hp : IsObj p) (hq : IsObj q) (hword : markWord p.addr = markWord q.addr)
    (hbit : markBit p.addr = markBit q.addr) : p = q :=
  Ptr.eq_of_addr hp.tag hq.tag (mark_params_injective hp.aligned hq.aligned hword hbit)

theorem and_markMask (w : U64) (a : Nat) : (w &&& markMask a != 0#64) = w.getLsbD (markBit a) := by
  have h := Stamp.and_bit_ne_zero (w := w) (k := markBit a) (by have := markBit_lt a; omega)
  rw [Bool.eq_iff_iff, bne_iff_ne]
  exact h

/-- The memory after the mark bit of `p` was set. -/
def Mem.setMark (s : Mem n) (p : Ptr) : Mem n :=
  s.setMarks (markWord p.addr) (s.marks (markWord p.addr) ||| markMask p.addr)

theorem marked_setMark_self (s : Mem n) (p : Ptr) : Marked (s.setMark p) p := by
  simp only [Marked, Mem.setMark, Mem.setMarks, Function.update_self, markMask]
  rw [Stamp.getLsbD_or_bit (by have := markBit_lt p.addr; omega)]
  simp

theorem Marked.setMark (h : Marked s q) (p : Ptr) : Marked (s.setMark p) q := by
  simp only [Marked, Mem.setMark, Mem.setMarks, markMask] at *
  by_cases e : markWord q.addr = markWord p.addr
  · rw [e, Function.update_self, Stamp.getLsbD_or_bit (by have := markBit_lt q.addr; omega), ← e, h]
    rfl
  · rw [Function.update_of_ne e]
    exact h

/-- Setting a mark bit marks one object. -/
theorem marked_setMark (hp : IsObj p) (hq : IsObj q) : Marked (s.setMark p) q ↔ q = p ∨ Marked s q := by
  constructor
  · intro h
    simp only [Marked, Mem.setMark, Mem.setMarks, markMask] at h
    by_cases e : markWord q.addr = markWord p.addr
    · rw [e, Function.update_self, Stamp.getLsbD_or_bit (by have := markBit_lt q.addr; omega),
        Bool.or_eq_true, decide_eq_true_eq] at h
      rcases h with h | h
      · exact .inr (by rw [Marked, e]; exact h)
      · exact .inl (hq.eq hp e h)
    · rw [Function.update_of_ne e] at h
      exact .inr h
  · rintro (rfl | h)
    · exact marked_setMark_self s q
    · exact h.setMark p

/-- Setting mark bits leaves the stamps alone. -/
theorem hi_setMark (s : Mem n) (p : Ptr) (h : Nat) :
    Stamp.hi ((s.setMark p).marks h) = Stamp.hi (s.marks h) := by
  simp only [Mem.setMark, Mem.setMarks, markMask]
  by_cases e : h = markWord p.addr
  · rw [e, Function.update_self, Stamp.hi_or_bit (markBit_lt _)]
  · rw [Function.update_of_ne e]

end OptimisticAccess.AOA
