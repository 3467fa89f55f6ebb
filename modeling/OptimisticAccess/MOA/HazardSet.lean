import Mathlib.Data.Finset.Card
import Mathlib.Data.Fintype.Basic
import Mathlib.Data.List.Infix
import Mathlib.Data.Nat.ModEq
import OptimisticAccess.Conc.Alone
import OptimisticAccess.MOA.SimpleSet

/-!
# The hash table is a set

A table for `n` hazard pointers has `2 * n` cells, so probing meets an empty cell: the `n + 1` cells
before the sum of key and try wraps are different, or else the first `n + 1` cells after it are.
-/

namespace OptimisticAccess.MOA

open Conc Prog

/-- The table holds the elements of `S`, each in one cell that probing comes to. -/
structure HashTable.Holds (n : Nat) (set : HashTable) (S : Finset CInt) : Prop where
  max : set.max = BitVec.ofNat 32 (2 * n)
  count : set.number_of_elements = BitVec.ofNat 32 S.card
  nonzero : 0 ∉ S
  finds : ∀ key ∈ S, set.Finds key
  cells : ∀ h < 2 * n, set.elements h ≠ 0 → set.elements h ∈ S
  once : ∀ h < 2 * n, ∀ h' < 2 * n, set.elements h ≠ 0 → set.elements h = set.elements h' → h = h'

variable {n : Nat} {set : HashTable} {S : Finset CInt} {key data : CInt}

theorem toNat_max (hn : 2 * n < 2 ^ 31) : (BitVec.ofNat 32 (2 * n)).toNat = 2 * n := by
  rw [BitVec.toNat_ofNat]
  exact Nat.mod_eq_of_lt (by omega)

theorem toInt_max (hn : 2 * n < 2 ^ 31) {max : CInt} (h : max = BitVec.ofNat 32 (2 * n)) : max.toInt = 2 * n := by
  rw [BitVec.toInt_eq_toNat_of_lt (by rw [h, toNat_max hn]; omega), h, toNat_max hn]
  omega

theorem toNat_probe (hn : 2 * n < 2 ^ 31) (key : CInt) (try_ : Nat) :
    (probe (BitVec.ofNat 32 (2 * n)) key try_).toNat = (key.toNat + try_) % 2 ^ 32 % (2 * n) := by
  rw [probe, BitVec.toNat_umod, toNat_max hn, BitVec.toNat_add, BitVec.toNat_ofNat, Nat.add_mod_mod]

theorem toNat_probe_lt (hn1 : 1 ≤ n) (hn : 2 * n < 2 ^ 31) (key : CInt) (try_ : Nat) :
    (probe (BitVec.ofNat 32 (2 * n)) key try_).toNat < 2 * n := by
  rw [toNat_probe hn]
  exact Nat.mod_lt _ (by omega)

namespace HashTable

/-- `n + 1` consecutive tries on different cells come to an empty one. -/
theorem Holds.empty_of_distinct (h : set.Holds n S) (hn1 : 1 ≤ n) (hn : 2 * n < 2 ^ 31) (hS : S.card ≤ n) (key : CInt) (t : Nat)
    (hne : ∀ a ≤ n, ∀ b ≤ n, (probe set.max key (t + a)).toNat = (probe set.max key (t + b)).toNat → a = b) :
    ∃ m ≤ t + n, set.elements (probe set.max key m).toNat = 0 := by
  by_contra hfull
  have hfull : ∀ a ≤ n, set.elements (probe set.max key (t + a)).toNat ≠ 0 :=
    fun a ha h0 => hfull ⟨t + a, by omega, h0⟩
  have hlt : ∀ m, (probe set.max key m).toNat < 2 * n := fun m => h.max ▸ toNat_probe_lt hn1 hn key m
  have hcard : (Finset.range (n + 1)).card ≤ S.card := by
    refine Finset.card_le_card_of_injOn (fun a => set.elements (probe set.max key (t + a)).toNat) (fun a ha => ?_)
      fun a ha b hb e => ?_
    · exact h.cells _ (hlt _) (hfull a (by simpa [Nat.lt_succ_iff] using ha))
    · rw [Finset.mem_coe, Finset.mem_range, Nat.lt_succ_iff] at ha hb
      exact hne a ha b hb (h.once _ (hlt _) _ (hlt _) (hfull a ha) e)
  rw [Finset.card_range] at hcard
  omega

/-- Probing meets an empty cell at the `2 * n`-th try at the latest. -/
theorem Holds.exists_empty (h : set.Holds n S) (hn1 : 1 ≤ n) (hn : 2 * n < 2 ^ 31) (hS : S.card ≤ n) (key : CInt) :
    ∃ m ≤ 2 * n, set.elements (probe set.max key m).toNat = 0 := by
  have hk := key.isLt
  obtain hw | hw := Nat.lt_or_ge (key.toNat + n) (2 ^ 32)
  · obtain ⟨m, hm, h0⟩ := h.empty_of_distinct hn1 hn hS key 0 fun a ha b hb e => by
      rw [h.max, toNat_probe hn, toNat_probe hn, Nat.mod_eq_of_lt (by omega : key.toNat + (0 + a) < 2 ^ 32),
        Nat.mod_eq_of_lt (by omega : key.toNat + (0 + b) < 2 ^ 32), Nat.zero_add, Nat.zero_add] at e
      have hab : Nat.ModEq (2 * n) a b := Nat.ModEq.add_left_cancel' key.toNat e
      exact hab.eq_of_lt_of_lt (by omega) (by omega)
    exact ⟨m, by omega, h0⟩
  · -- the tries from the wrap on
    obtain ⟨m, hm, h0⟩ := h.empty_of_distinct hn1 hn hS key (2 ^ 32 - key.toNat) fun a ha b hb e => by
      have hwrap : ∀ x ≤ n, (key.toNat + (2 ^ 32 - key.toNat + x)) % 2 ^ 32 % (2 * n) = x := by
        intro x hx
        have hx' : key.toNat + (2 ^ 32 - key.toNat + x) = 2 ^ 32 + x := by omega
        rw [hx', Nat.add_mod_left, Nat.mod_eq_of_lt (by omega : x < 2 ^ 32), Nat.mod_eq_of_lt (by omega)]
      rwa [h.max, toNat_probe hn, toNat_probe hn, hwrap a ha, hwrap b hb] at e
    exact ⟨m, by omega, h0⟩

theorem Holds.setInit (n : Nat) : (MOA.setInit (BitVec.ofNat 32 (2 * n))).Holds n ∅ where
  max := rfl
  count := rfl
  nonzero := Finset.notMem_empty 0
  finds _ hkey := absurd hkey (Finset.notMem_empty _)
  cells _ _ h := absurd rfl h
  once _ _ _ _ h := absurd rfl h

theorem Holds.setReset (h : set.Holds n S) : (MOA.setReset set).Holds n ∅ where
  max := h.max
  count := rfl
  nonzero := Finset.notMem_empty 0
  finds _ hkey := absurd hkey (Finset.notMem_empty _)
  cells _ _ h := absurd rfl h
  once _ _ _ _ h := absurd rfl h

/-- An empty cell after cells without `key`: `key` is not there. -/
theorem Holds.not_mem_of_empty (h : set.Holds n S) {m : Nat} (hm : set.elements (probe set.max key m).toNat = 0)
    (hl : ∀ l < m, set.elements (probe set.max key l).toNat ≠ key) : key ∉ S := by
  intro hkey
  obtain ⟨m', hm', hl'⟩ := h.finds key hkey
  obtain hlt | rfl | hgt := Nat.lt_trichotomy m' m
  · exact hl m' hlt hm'
  · exact h.nonzero (hm.symm.trans hm' ▸ hkey)
  · exact hl' m hgt hm

theorem Holds.fill (h : set.Holds n S) {m : Nat} (hdata : data ≠ 0) (hnew : data ∉ S)
    (hm : set.elements (probe set.max data m).toNat = 0)
    (hl : ∀ l < m, set.elements (probe set.max data l).toNat ≠ 0) :
    (set.fill (probe set.max data m).toNat data).Holds n (insert data S) where
  max := h.max
  count := by
    rw [Finset.card_insert_of_notMem hnew, BitVec.ofNat_add, ← h.count]
    rfl
  nonzero hz := by
    obtain e | hz := Finset.mem_insert.1 hz
    · exact hdata e.symm
    · exact h.nonzero hz
  finds key hkey := by
    obtain rfl | hkey := Finset.mem_insert.1 hkey
    · refine ⟨m, Function.update_self .., fun l hlm => ?_⟩
      have hne : (probe set.max key l).toNat ≠ (probe set.max key m).toNat := fun e => hl l hlm (e ▸ hm)
      exact fun h0 => hl l hlm ((Function.update_of_ne hne ..).symm.trans h0)
    · exact (h.finds key hkey).fill (fun e => h.nonzero (e ▸ hkey)) hdata hm
  cells c hc hne := by
    change Function.update set.elements _ data c ∈ _
    change Function.update set.elements _ data c ≠ 0 at hne
    by_cases e : c = (probe set.max data m).toNat
    · subst e
      rw [Function.update_self]
      exact Finset.mem_insert_self data S
    · rw [Function.update_of_ne e] at hne ⊢
      exact Finset.mem_insert_of_mem (h.cells c hc hne)
  once c hc c' hc' hne heq := by
    change Function.update set.elements _ data c ≠ 0 at hne
    change Function.update set.elements _ data c = Function.update set.elements _ data c' at heq
    by_cases e : c = (probe set.max data m).toNat
    · by_cases e' : c' = (probe set.max data m).toNat
      · exact e.trans e'.symm
      · rw [e, Function.update_self, Function.update_of_ne e'] at heq
        exact absurd (heq ▸ h.cells c' hc' (heq ▸ hdata)) hnew
    · rw [Function.update_of_ne e] at hne heq
      by_cases e' : c' = (probe set.max data m).toNat
      · rw [e', Function.update_self] at heq
        exact absurd (heq ▸ h.cells c hc hne) hnew
      · rw [Function.update_of_ne e'] at heq
        exact h.once c hc c' hc' hne heq

end HashTable

section

variable {σ ε : Type} (failed : SetAssertion → ε) {s : σ}

theorem ends_hash_fun {Q : Nat → σ → Prop} (hn1 : 1 ≤ n) (hn : 2 * n < 2 ^ 31) (hmax : set.max = BitVec.ofNat 32 (2 * n))
    (try_ : Nat) (h : Q (probe set.max key try_).toNat s) : Ends (hash_fun failed key try_ set.max) s Q := by
  have hmax' := toInt_max hn hmax
  have hlt := toNat_probe_lt hn1 hn key try_
  rw [← hmax] at hlt
  have hres : (probe set.max key try_).toInt = (probe set.max key try_).toNat :=
    BitVec.toInt_eq_toNat_of_lt (by omega)
  refine ends_bind.2 (ends_check ⟨by omega, by omega⟩ ?_)
  exact ends_ret.2 h

/-- The loops of the table: `exit` says when a cell ends them; an empty one always does. -/
theorem ends_probing {α : Type} {body : Nat → Prog σ ε (Nat ⊕ α)} {Q : α → σ → Prop} (h : set.Holds n S) (hn1 : 1 ≤ n)
    (hn : 2 * n < 2 ^ 31) (hS : S.card ≤ n) (key : CInt) {fuel : Nat} (hfuel : 2 * n < fuel)
    (hbody : ∀ try_, (∀ l < try_, set.elements (probe set.max key l).toNat ≠ 0 ∧ set.elements (probe set.max key l).toNat ≠ key) →
      Ends (body try_) s fun r s' => s' = s ∧ Sum.elim (fun try' => try' = try_ + 1 ∧
        set.elements (probe set.max key try_).toNat ≠ 0 ∧ set.elements (probe set.max key try_).toNat ≠ key) (Q · s) r) :
    Ends (iter body fuel 0) s fun a s' => s' = s ∧ Q a s := by
  obtain ⟨m, hm, hempty⟩ := h.exists_empty hn1 hn hS key
  refine ends_iter (fun try_ s' => s' = s ∧ ∀ l < try_, set.elements (probe set.max key l).toNat ≠ 0 ∧
    set.elements (probe set.max key l).toNat ≠ key) (fun try_ _ => m - try_) (fun try_ s' hJ => ?_) (by omega)
    ⟨rfl, fun l hl => absurd hl (Nat.not_lt_zero l)⟩
  obtain ⟨rfl, hseen⟩ := hJ
  refine (hbody try_ hseen).mono fun r s' hr => ?_
  obtain ⟨rfl, hr⟩ := hr
  cases r with
  | inr a => exact ⟨rfl, hr⟩
  | inl try' =>
    obtain ⟨rfl, hne⟩ := hr
    have hseen' : ∀ l < try_ + 1, set.elements (probe set.max key l).toNat ≠ 0 ∧
        set.elements (probe set.max key l).toNat ≠ key := by
      intro l hl
      obtain hl | rfl := Nat.lt_succ_iff_lt_or_eq.1 hl
      · exact hseen l hl
      · exact hne
    have hlt : try_ < m := by
      by_contra hge
      exact (hseen' m (by omega)).1 hempty
    exact ⟨⟨rfl, hseen'⟩, by omega⟩

/-- A nonzero `int` is added within `2 * n + 1` tries. -/
theorem ends_setAdd (h : set.Holds n S) (hn1 : 1 ≤ n) (hn : 2 * n < 2 ^ 31) (hS : S.card ≤ n) (hdata : data ≠ 0)
    {fuel : Nat} (hfuel : 2 * n < fuel) :
    Ends (setAdd failed fuel set data) s fun set' s' => s' = s ∧ set'.Holds n (insert data S) := by
  have hroom : ¬ set.number_of_elements.toInt > set.max.toInt.tdiv 2 := by
    have hcount : set.number_of_elements.toInt = S.card := by
      have hnat : set.number_of_elements.toNat = S.card := by
        rw [h.count, BitVec.toNat_ofNat]
        exact Nat.mod_eq_of_lt (by omega)
      rw [BitVec.toInt_eq_toNat_of_lt (by omega), hnat]
    rw [hcount, toInt_max hn h.max, Int.mul_tdiv_cancel_left _ (by decide)]
    omega
  refine ends_bind.2 (ends_check hdata (ends_bind.2 (ends_check hroom ?_)))
  refine ends_probing (Q := fun (set' : HashTable) _ => set'.Holds n (insert data S)) h hn1 hn hS data hfuel fun try_ hseen => ends_bind.2 (ends_hash_fun failed hn1 hn h.max try_ ?_)
  split
  · next hm =>
    have hnew := h.not_mem_of_empty hm fun l hl => (hseen l hl).2
    exact ends_ret.2 ⟨rfl, h.fill hdata hnew hm fun l hl => (hseen l hl).1⟩
  · next hm =>
    split
    · next he =>
      have hmem : data ∈ S := he ▸ h.cells _ (h.max ▸ toNat_probe_lt hn1 hn data try_) hm
      exact ends_ret.2 ⟨rfl, by rwa [Finset.insert_eq_of_mem hmem]⟩
    · next he => exact ends_ret.2 ⟨rfl, rfl, hm, he⟩

/-- Any `int` is looked up within `2 * n + 1` tries, and found if and only if it is there. -/
theorem ends_setContains (h : set.Holds n S) (hn1 : 1 ≤ n) (hn : 2 * n < 2 ^ 31) (hS : S.card ≤ n) (key : CInt)
    {fuel : Nat} (hfuel : 2 * n < fuel) :
    Ends (setContains failed fuel set key) s fun found s' => s' = s ∧ found = decide (key ∈ S) := by
  refine ends_probing (Q := fun found _ => found = decide (key ∈ S)) h hn1 hn hS key hfuel fun try_ hseen =>
    ends_bind.2 (ends_hash_fun failed hn1 hn h.max try_ ?_)
  split
  · next hm =>
    have hnot := h.not_mem_of_empty hm fun l hl => (hseen l hl).2
    exact ends_ret.2 ⟨rfl, (decide_eq_false hnot).symm⟩
  · next hm =>
    split
    · next he =>
      have hmem : key ∈ S := he ▸ h.cells _ (h.max ▸ toNat_probe_lt hn1 hn key try_) hm
      exact ends_ret.2 ⟨rfl, (decide_eq_true hmem).symm⟩
    · next he => exact ends_ret.2 ⟨rfl, rfl, hm, he⟩

end

/-! ## Histories -/

inductive SetOp where
  | reset
  | add (data : CInt)
  deriving DecidableEq

/-- What has been added since the last reset, repetitions included. -/
def SetOp.added : List CInt → List SetOp → List CInt
  | l, [] => l
  | _, .reset :: ops => added [] ops
  | l, .add data :: ops => added (data :: l) ops

/-- At most `n` additions since the last reset, at any time; only nonzero `int`s are added. -/
structure SetOp.Fits (n : Nat) (ops : List SetOp) : Prop where
  room : ∀ pre, pre <+: ops → (added [] pre).length ≤ n
  nonzero : .add 0 ∉ ops

section

variable {σ ε : Type} (failed : SetAssertion → ε)

def SetOp.run (fuel : Nat) : List SetOp → HashTable → Prog σ ε HashTable
  | [], set => ret set
  | .reset :: ops, set => run fuel ops (setReset set)
  | .add data :: ops, set => setAdd failed fuel set data >>= run fuel ops

theorem SetOp.ends_run (hn1 : 1 ≤ n) (hn : 2 * n < 2 ^ 31) {fuel : Nat} (hfuel : 2 * n < fuel) (s : σ) (ops : List SetOp)
    (l : List CInt) (set : HashTable) (h : set.Holds n l.toFinset) (hroom : ∀ pre, pre <+: ops → (added l pre).length ≤ n)
    (hnz : .add 0 ∉ ops) :
    Ends (SetOp.run failed fuel ops set) s fun set' s' => s' = s ∧ set'.Holds n (added l ops).toFinset := by
  have hcard : l.toFinset.card ≤ n := (List.toFinset_card_le l).trans (hroom [] (List.nil_prefix))
  induction ops generalizing l set with
  | nil => exact ends_ret.2 ⟨rfl, h⟩
  | cons op ops ih =>
    have hnz' : .add 0 ∉ ops := fun hmem => hnz (List.mem_cons_of_mem op hmem)
    have hroom' : ∀ pre, pre <+: ops → (added l (op :: pre)).length ≤ n :=
      fun pre hpre => hroom (op :: pre) (List.cons_prefix_cons.2 ⟨rfl, hpre⟩)
    cases op with
    | reset => exact ih [] (setReset set) h.setReset hroom' hnz' (Nat.zero_le n)
    | add data =>
      have hcard' : (data :: l).toFinset.card ≤ n := (List.toFinset_card_le _).trans (hroom' [] List.nil_prefix)
      have hdata : data ≠ 0 := fun e => hnz (e ▸ List.mem_cons_self)
      refine ends_bind.2 ((ends_setAdd failed h hn1 hn hcard hdata hfuel).mono ?_)
      rintro set' s' ⟨rfl, h'⟩
      rw [← List.toFinset_cons] at h'
      exact ih (data :: l) set' h' hroom' hnz' hcard'

/-- The set of a collection of `n` hazard pointers is exact: no assertion fails, every call ends within `2 * n + 1`
tries, and what is found is what has been added since the last reset. -/
theorem setContains_exact (n : Nat) (hn1 : 1 ≤ n) (hn : 2 * n < 2 ^ 31) (ops : List SetOp) (hops : SetOp.Fits n ops)
    (fuel : Nat) (hfuel : 2 * n < fuel) (s : σ) :
    ∃ set, (SetOp.run failed fuel ops (setInit (BitVec.ofNat 32 (2 * n)))).run s = some (set, s) ∧
      ∀ key, (setContains failed fuel set key).run s = some (decide (key ∈ SetOp.added [] ops), s) := by
  obtain ⟨set, s', hrun, rfl, h⟩ := SetOp.ends_run failed hn1 hn hfuel s ops [] _ (HashTable.Holds.setInit n)
    hops.room hops.nonzero
  have hcard : (SetOp.added [] ops).toFinset.card ≤ n := (List.toFinset_card_le _).trans (hops.room ops (List.prefix_refl ops))
  refine ⟨set, hrun, fun key => ?_⟩
  obtain ⟨found, s', hrun', rfl, rfl⟩ := ends_setContains failed (s := s') h hn1 hn hcard key hfuel
  rw [hrun']
  simp only [List.mem_toFinset]

end

/-- Two keys with the same first cell; the second one goes on from cell 0, where its sum wraps. -/
def wrapping : List SetOp := [.add 2, .reset, .add (-7), .add (-1), .add (-1)]

theorem setContains_exact_wrapping :
    ∃ set, (SetOp.run id 7 wrapping (setInit (BitVec.ofNat 32 (2 * 3)))).run () = some (set, ()) ∧
      ∀ key, (setContains id 7 set key).run () = some (decide (key ∈ SetOp.added [] wrapping), ()) := by
  have hroom : ∀ pre ∈ wrapping.inits, (SetOp.added [] pre).length ≤ 3 := by decide
  exact setContains_exact id 3 (by decide) (by decide) wrapping
    ⟨fun pre hpre => hroom pre ((List.mem_inits pre _).2 hpre), by decide⟩ 7 (by decide) ()

end OptimisticAccess.MOA
