import Mathlib.Data.Set.Basic
import Mathlib.Data.Int.Order.Basic
import OptimisticAccess.Lib.Walk

/-!
# Sorted chains as sets of keys

A memory of cells, each with a successor, a key and a mark that says the cell is logically
deleted. The chain hangs off the sentinel `0`, which is also the null address. When its keys
increase, the live cells of the chain represent a set, and linking, unlinking and marking a
cell act on that set.
-/

/-- Cells of a linked set. Cell `0` is the sentinel; its key and mark are not used. -/
structure Cells where
  succ : Nat → Nat
  dead : Nat → Bool
  key : Nat → Int

namespace Cells

variable {c c' : Cells} {l : List Nat} {q a b n : Nat} {k : Int}

/-- `a` stands before `b` in the order of the keys, the sentinel before every cell. -/
def Below (c : Cells) (a b : Nat) : Prop := b ≠ 0 ∧ (a = 0 ∨ c.key a < c.key b)

/-- The keys increase along `l`. -/
def Sorted (c : Cells) (l : List Nat) : Prop := (0 :: l).Pairwise c.Below

/-- The keys of the live cells on the chain. -/
def keys (c : Cells) : Set Int :=
  {k | ∃ l, Walk c.succ 0 l ∧ ∃ a ∈ l, c.dead a = false ∧ c.key a = k}

theorem Below.trans {d : Nat} (h : c.Below a b) (h' : c.Below b d) : c.Below a d := by
  obtain ⟨hb, hab⟩ := h
  obtain ⟨hd, hbd⟩ := h'
  refine ⟨hd, ?_⟩
  rcases hab with ha | hab
  · exact .inl ha
  · rcases hbd with hb0 | hbd
    · exact absurd hb0 hb
    · exact .inr (hab.trans hbd)

theorem mem_keys (h : Walk c.succ 0 l) : k ∈ c.keys ↔ ∃ a ∈ l, c.dead a = false ∧ c.key a = k := by
  constructor
  · rintro ⟨l', h', ha⟩
    rwa [h'.unique h] at ha
  · exact fun ha => ⟨l, h, ha⟩

theorem Sorted.of_key (h : c.Sorted l) (hkey : ∀ b ∈ l, c'.key b = c.key b) : c'.Sorted l := by
  refine List.Pairwise.imp_of_mem (fun {a b} ha hb hab => ⟨hab.1, ?_⟩) h
  rcases List.mem_cons.1 ha with rfl | ha
  · exact .inl rfl
  · have hb := (List.mem_cons.1 hb).resolve_left hab.1
    rw [hkey a ha, hkey b hb]; exact hab.2

/-- Two cells of a sorted chain with one key are one cell. -/
theorem Sorted.key_inj (h : c.Sorted l) (ha : a ∈ l) (hb : b ∈ l) (e : c.key a = c.key b) : a = b := by
  by_contra hne
  have hp := (List.pairwise_cons.1 h).2
  have ha0 := ((List.pairwise_cons.1 h).1 a ha).1
  have hb0 := ((List.pairwise_cons.1 h).1 b hb).1
  rcases List.pairwise_iff_getElem.1 hp with hp
  obtain ⟨i, hi, rfl⟩ := List.getElem_of_mem ha
  obtain ⟨j, hj, rfl⟩ := List.getElem_of_mem hb
  rcases Nat.lt_trichotomy i j with hij | rfl | hij
  · have := hp i j hi hj hij; simp only [Below] at this; omega
  · exact hne rfl
  · have := hp j i hj hi hij; simp only [Below] at this; omega

/-- Around a cell `q`: what precedes it lies below it, what follows lies above it. -/
theorem Sorted.around {m r : List Nat} (h : c.Sorted l) (e : 0 :: l = m ++ q :: r) :
    (∀ a ∈ m, c.Below a q) ∧ (∀ b ∈ r, c.Below q b) := by
  rw [Sorted, e] at h
  obtain ⟨-, hr, hm⟩ := List.pairwise_append.1 h
  exact ⟨fun a ha => hm a ha q List.mem_cons_self, (List.pairwise_cons.1 hr).1⟩

/-- No key of the chain lies in the gap behind `q`. -/
theorem Sorted.not_mem_keys (h : c.Sorted l) (hw : Walk c.succ 0 l) (hq : q ∈ 0 :: l)
    (hlt : q = 0 ∨ c.key q < k) (hgt : c.succ q = 0 ∨ k < c.key (c.succ q)) : k ∉ c.keys := by
  rw [mem_keys hw]
  rintro ⟨a, ha, -, rfl⟩
  obtain ⟨m, r, e, hwr⟩ := hw.split hq
  obtain ⟨hm, -⟩ := h.around e
  have ha' : a ∈ m ++ q :: r := e ▸ List.mem_cons_of_mem 0 ha
  rcases List.mem_append.1 ha' with ham | har
  · have := hm a ham
    have := hw.ne_zero ha
    simp only [Below] at *
    omega
  · rcases List.mem_cons.1 har with rfl | har
    · have := hw.ne_zero ha
      omega
    · cases r with
      | nil => cases har
      | cons b r =>
        obtain ⟨hb, hb0, -⟩ := hwr
        rw [hb] at hgt
        rcases List.mem_cons.1 har with rfl | har
        · omega
        · have e' : 0 :: l = (m ++ [q]) ++ b :: r := by rw [e]; simp
          have := (h.around e').2 a har
          simp only [Below] at this
          omega

/-- Linking a new cell `n` behind `q`, where its key fits. -/
theorem Sorted.link (h : c.Sorted l) (hw : Walk c.succ 0 l) (hq : q ∈ 0 :: l) (hz : n ≠ 0)
    (hn : n ∉ l) (hqn : c'.succ q = n) (hnq : c'.succ n = c.succ q)
    (hs : ∀ b ∈ 0 :: l, b ≠ q → c'.succ b = c.succ b) (hkey : ∀ b ∈ l, c'.key b = c.key b)
    (hlt : q = 0 ∨ c.key q < c'.key n) (hgt : c.succ q = 0 ∨ c'.key n < c.key (c.succ q)) :
    ∃ l', Walk c'.succ 0 l' ∧ c'.Sorted l' ∧ ∀ b, b ∈ l' ↔ b = n ∨ b ∈ l := by
  obtain ⟨m, r, l', e, e', hwr, hw'⟩ := hw.insert hq hz hqn hnq hs
  have hmem : ∀ b, b ∈ l' ↔ b = n ∨ b ∈ l := by
    intro b
    have hb : b ∈ 0 :: l' ↔ b = n ∨ b ∈ 0 :: l := by
      rw [e, e']; simp only [List.mem_append, List.mem_cons]; tauto
    have h0 : 0 ∉ l' := fun h0 => hw'.ne_zero h0 rfl
    have h1 : 0 ∉ l := fun h1 => hw.ne_zero h1 rfl
    by_cases hb0 : b = 0
    · subst hb0
      exact ⟨fun h => absurd h h0, fun h => h.elim (fun h => absurd h.symm hz) fun h => absurd h h1⟩
    · simpa [hb0] using hb
  refine ⟨l', hw', ?_, hmem⟩
  have hs' : c'.Sorted l := h.of_key hkey
  obtain ⟨hm, hr⟩ := hs'.around e
  have hqn' : c'.Below q n := by
    refine ⟨hz, ?_⟩
    rcases List.mem_cons.1 hq with rfl | hq
    · exact .inl rfl
    · rw [hkey q hq]; exact hlt
  have hnr : ∀ b ∈ r, c'.Below n b := by
    intro b hb
    cases r with
    | nil => cases hb
    | cons d r =>
      obtain ⟨hd, hd0, -⟩ := hwr
      have hdl : d ∈ l := (List.mem_cons.1 (e ▸ by simp : d ∈ 0 :: l)).resolve_left hd0
      have hnd : c'.Below n d := by
        rw [hd] at hgt
        exact ⟨hd0, .inr (by rw [hkey d hdl]; exact hgt.resolve_left hd0)⟩
      rcases List.mem_cons.1 hb with rfl | hb
      · exact hnd
      · have e2 : 0 :: l = (m ++ [q]) ++ d :: r := by rw [e]; simp
        exact hnd.trans ((hs'.around e2).2 b hb)
  rw [Sorted, e] at hs'
  rw [Sorted, e']
  obtain ⟨hpm, hpr, hpx⟩ := List.pairwise_append.1 hs'
  obtain ⟨hq', hpr⟩ := List.pairwise_cons.1 hpr
  refine List.pairwise_append.2 ⟨hpm, ?_, ?_⟩
  · refine List.pairwise_cons.2 ⟨?_, List.pairwise_cons.2 ⟨hnr, hpr⟩⟩
    intro b hb
    rcases List.mem_cons.1 hb with rfl | hb
    · exact hqn'
    · exact hq' b hb
  · intro a ha b hb
    rcases List.mem_cons.1 hb with rfl | hb
    · exact hm a ha
    · rcases List.mem_cons.1 hb with rfl | hb
      · exact (hm a ha).trans hqn'
      · exact hpx a ha b (List.mem_cons_of_mem _ hb)

/-- Unlinking the cell `a` behind `q`. -/
theorem Sorted.unlink (h : c.Sorted l) (hw : Walk c.succ 0 l) (hq : q ∈ 0 :: l) (hz : a ≠ 0)
    (ha : c.succ q = a) (hqa : c'.succ q = c.succ a)
    (hs : ∀ b ∈ 0 :: l, b ≠ q → c'.succ b = c.succ b) (hkey : ∀ b ∈ l, c'.key b = c.key b) :
    ∃ l', Walk c'.succ 0 l' ∧ c'.Sorted l' ∧ ∀ b, b ∈ l' ↔ b ≠ a ∧ b ∈ l := by
  obtain ⟨m, r, l', e, e', -, hw'⟩ := hw.erase hq ha hz hqa hs
  have hnd : (m ++ q :: a :: r).Nodup := e ▸ hw.nodup
  have hsub : (0 :: l').Sublist (0 :: l) := by
    rw [e, e']; exact List.Sublist.append_left ((List.sublist_cons_self a r).cons_cons q) m
  refine ⟨l', hw', ?_, fun b => ?_⟩
  · exact List.Pairwise.sublist hsub (h.of_key hkey)
  · have hb : b ∈ 0 :: l' ↔ b ≠ a ∧ b ∈ 0 :: l := by
      rw [e, e']
      have hne : a ∉ m ++ q :: r := by
        intro hmem
        obtain ⟨-, hqar, hdis⟩ := List.nodup_append.1 hnd
        rcases List.mem_append.1 hmem with hm | hr
        · exact hdis a hm a (by simp) rfl
        · simp only [List.nodup_cons, List.mem_cons] at hqar
          rcases List.mem_cons.1 hr with rfl | hr
          · exact hqar.1 (.inl rfl)
          · exact hqar.2.1 hr
      constructor
      · intro hb
        refine ⟨fun hba => hne (hba ▸ hb), ?_⟩
        simp only [List.mem_append, List.mem_cons] at hb ⊢
        tauto
      · rintro ⟨hba, hb⟩
        simp only [List.mem_append, List.mem_cons] at hb ⊢
        tauto
    have h0 : 0 ∉ l' := fun h0 => hw'.ne_zero h0 rfl
    by_cases hb0 : b = 0
    · subst hb0
      exact ⟨fun h => absurd h h0, fun h => absurd rfl (hw.ne_zero h.2)⟩
    · simpa [hb0] using hb

end Cells
