import Mathlib.Logic.Function.Basic
import Mathlib.Data.List.Nodup

/-!
# Null-terminated chains in memory

`Walk nx p l` says that following `nx` from cell `p` visits exactly the cells of `l`, in order,
and then reads null. The start `p` is a cell whose successor is the first element, so a list
head is the successor of a sentinel and every link of the chain has the same form.
-/

variable {nx nx' : Nat → Nat} {p q a b : Nat} {l k : List Nat}

def Walk (nx : Nat → Nat) : Nat → List Nat → Prop
  | p, [] => nx p = 0
  | p, a :: l => nx p = a ∧ a ≠ 0 ∧ Walk nx a l

namespace Walk

@[simp] theorem nil_iff : Walk nx p [] ↔ nx p = 0 := Iff.rfl

@[simp] theorem cons_iff : Walk nx p (a :: l) ↔ nx p = a ∧ a ≠ 0 ∧ Walk nx a l := Iff.rfl

/-- Memory determines the chain. -/
theorem unique (h : Walk nx p l) (h' : Walk nx p k) : l = k := by
  induction l generalizing p k with
  | nil =>
    cases k with
    | nil => rfl
    | cons b k => exact absurd (h'.1.symm.trans h) h'.2.1
  | cons a l ih =>
    cases k with
    | nil => exact absurd (h.1.symm.trans h') h.2.1
    | cons b k =>
      obtain rfl : a = b := h.1.symm.trans h'.1
      rw [ih h.2.2 h'.2.2]

theorem ne_zero (h : Walk nx p l) (ha : a ∈ l) : a ≠ 0 := by
  induction l generalizing p with
  | nil => cases ha
  | cons b l ih =>
    rcases List.mem_cons.1 ha with rfl | ha
    · exact h.2.1
    · exact ih h.2.2 ha

/-- From a cell of the chain the walk goes on to the rest of it. -/
theorem split (h : Walk nx p l) (hq : q ∈ p :: l) : ∃ m k, p :: l = m ++ q :: k ∧ Walk nx q k := by
  induction l generalizing p with
  | nil =>
    obtain rfl : q = p := by simpa using hq
    exact ⟨[], [], rfl, h⟩
  | cons a l ih =>
    rcases List.mem_cons.1 hq with rfl | hq
    · exact ⟨[], a :: l, rfl, h⟩
    · obtain ⟨m, k, e, hw⟩ := ih h.2.2 hq
      exact ⟨p :: m, k, by rw [e]; rfl, hw⟩

/-- Every cell of the chain points on into it or is the last. -/
theorem succ_mem (h : Walk nx p l) (hq : q ∈ p :: l) : nx q = 0 ∨ nx q ∈ l := by
  induction l generalizing p with
  | nil =>
    obtain rfl : q = p := by simpa using hq
    exact .inl h
  | cons a l ih =>
    rcases List.mem_cons.1 hq with rfl | hq
    · exact .inr (h.1 ▸ List.mem_cons_self)
    · exact (ih h.2.2 hq).imp_right (List.mem_cons_of_mem a)

/-- A finite chain does not come back. -/
theorem nodup (h : Walk nx p l) : (p :: l).Nodup := by
  induction l generalizing p with
  | nil => simp
  | cons a l ih =>
    refine List.nodup_cons.2 ⟨fun hp => ?_, ih h.2.2⟩
    obtain ⟨m, k, e, hw⟩ := h.2.2.split hp
    have hl := congrArg List.length e
    have hk := congrArg List.length (hw.unique h)
    simp only [List.length_append, List.length_cons] at hl hk
    omega

theorem frame (h : Walk nx p l) (he : ∀ b ∈ p :: l, nx' b = nx b) : Walk nx' p l := by
  induction l generalizing p with
  | nil => exact (he p (List.mem_singleton_self p)).trans h
  | cons a l ih =>
    refine ⟨(he p List.mem_cons_self).trans h.1, h.2.1, ih h.2.2 fun b hb => ?_⟩
    exact he b (List.mem_cons_of_mem _ hb)

/-- Replacing what follows one cell of the chain, the part before it unchanged. -/
theorem splice {m : List Nat} {k' : List Nat} (h : Walk nx p l) (e : p :: l = m ++ q :: k)
    (he : ∀ b ∈ m, nx' b = nx b) (hk : Walk nx' q k') :
    ∃ l', p :: l' = m ++ q :: k' ∧ Walk nx' p l' := by
  induction m generalizing p l with
  | nil =>
    obtain ⟨rfl, rfl⟩ := List.cons.inj e
    exact ⟨k', rfl, hk⟩
  | cons b m ih =>
    obtain ⟨rfl, e'⟩ := List.cons.inj e
    cases l with
    | nil => simp at e'
    | cons a l =>
      obtain ⟨l', hl', hw⟩ := ih h.2.2 e' fun c hc => he c (List.mem_cons_of_mem _ hc)
      refine ⟨a :: l', by rw [hl']; rfl, ?_, h.2.1, hw⟩
      exact (he p List.mem_cons_self).trans h.1

/-- Linking `n` behind a cell `q` of the chain. -/
theorem insert {n : Nat} (h : Walk nx p l) (hq : q ∈ p :: l) (hz : n ≠ 0)
    (hqn : nx' q = n) (hnq : nx' n = nx q) (he : ∀ b ∈ p :: l, b ≠ q → nx' b = nx b) :
    ∃ m k l', p :: l = m ++ q :: k ∧ p :: l' = m ++ q :: n :: k ∧ Walk nx q k ∧ Walk nx' p l' := by
  obtain ⟨m, k, e, hw⟩ := h.split hq
  have hnd : (m ++ q :: k).Nodup := e ▸ h.nodup
  have hm : ∀ b ∈ m, nx' b = nx b := fun b hb =>
    he b (e ▸ List.mem_append_left _ hb) fun hbq =>
      (List.disjoint_of_nodup_append hnd) hb (hbq ▸ List.mem_cons_self)
  have hk : Walk nx' n k := by
    have hkq : ∀ b ∈ k, b ≠ q := fun b hb hbq =>
      (List.nodup_cons.1 (List.nodup_append.1 hnd).2.1).1 (hbq ▸ hb)
    have hmem : ∀ b ∈ k, b ∈ p :: l := fun b hb => by simp [e, hb]
    cases k with
    | nil => exact hnq.trans hw
    | cons c k =>
      refine ⟨hnq.trans hw.1, hw.2.1, hw.2.2.frame fun b hb => ?_⟩
      exact he b (hmem b hb) (hkq b hb)
  obtain ⟨l', hl', hw'⟩ := h.splice e hm (show Walk nx' q (n :: k) from ⟨hqn, hz, hk⟩)
  exact ⟨m, k, l', e, hl', hw, hw'⟩

/-- Unlinking the successor `a` of a cell `q` of the chain. -/
theorem erase (h : Walk nx p l) (hq : q ∈ p :: l) (ha : nx q = a) (hz : a ≠ 0)
    (hqa : nx' q = nx a) (he : ∀ b ∈ p :: l, b ≠ q → nx' b = nx b) :
    ∃ m k l', p :: l = m ++ q :: a :: k ∧ p :: l' = m ++ q :: k ∧ Walk nx a k ∧ Walk nx' p l' := by
  obtain ⟨m, k, e, hw⟩ := h.split hq
  have hnd : (m ++ q :: k).Nodup := e ▸ h.nodup
  have hm : ∀ b ∈ m, nx' b = nx b := fun b hb =>
    he b (e ▸ List.mem_append_left _ hb) fun hbq =>
      (List.disjoint_of_nodup_append hnd) hb (hbq ▸ List.mem_cons_self)
  cases k with
  | nil => exact absurd (ha.symm.trans hw) hz
  | cons c k =>
    obtain rfl : a = c := ha.symm.trans hw.1
    have hkq : ∀ b ∈ a :: k, b ≠ q := fun b hb hbq =>
      (List.nodup_cons.1 (List.nodup_append.1 hnd).2.1).1 (hbq ▸ hb)
    have hmem : ∀ b ∈ a :: k, b ∈ p :: l := fun b hb => by
      rw [e]; exact List.mem_append_right _ (List.mem_cons_of_mem _ hb)
    have hk : Walk nx' q k := by
      cases k with
      | nil => exact hqa.trans hw.2.2
      | cons d k =>
        refine ⟨hqa.trans hw.2.2.1, hw.2.2.2.1, hw.2.2.2.2.frame fun b hb => ?_⟩
        exact he b (hmem b (List.mem_cons_of_mem _ hb)) (hkq b (List.mem_cons_of_mem _ hb))
    obtain ⟨l', hl', hw'⟩ := h.splice e hm hk
    exact ⟨m, k, l', e, hl', hw.2.2, hw'⟩

end Walk
