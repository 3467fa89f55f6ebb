import OptimisticAccess.Conc.Logic
import OptimisticAccess.Entry

/-!
# `simpleSet.c`

The set of hazard pointers of a collection: a hash table of `int`s with linear probing. `0` marks
an empty cell. A table belongs to one thread, so its loads and stores are no steps.
-/

namespace OptimisticAccess.MOA

open Conc Prog

structure HashTable where
  max : CInt
  number_of_elements : CInt
  elements : Nat → CInt

/-- The assertions of the hash table. -/
inductive SetAssertion where
  | hashInRange
  | nonzero
  | full
  deriving DecidableEq

/-- `create_hash`. -/
def setInit (maxSize : CInt) : HashTable := ⟨maxSize, 0, fun _ => 0⟩

/-- `clean_hash`. -/
def setReset (set : HashTable) : HashTable := { set with number_of_elements := 0, elements := fun _ => 0 }

/-- The remainder `hash_fun` computes: of `unsigned`s, so the sum wraps. -/
def probe (max key : CInt) (try_ : Nat) : CInt := (key + BitVec.ofNat 32 try_) % max

section

variable {σ ε : Type} (failed : SetAssertion → ε)

def hash_fun (key : CInt) (try_ : Nat) (max : CInt) : Prog σ ε Nat := do
  let res := probe max key try_
  check (0 ≤ res.toInt ∧ res.toInt < max.toInt) (failed .hashInRange)
  return res.toNat

/-- `hash_insert`; `max/2` is a division of `int`s. -/
def setAdd (fuel : Nat) (set : HashTable) (data : CInt) : Prog σ ε HashTable := do
  check (data ≠ 0) (failed .nonzero)
  check (¬ set.number_of_elements.toInt > set.max.toInt.tdiv 2) (failed .full)
  iter (fun try_ => do
    let hash ← hash_fun failed data try_ set.max
    if set.elements hash = 0 then
      return .inr { set with
        number_of_elements := set.number_of_elements + 1
        elements := Function.update set.elements hash data }
    else if set.elements hash = data then return .inr set
    else return .inl (try_ + 1)) fuel 0

/-- `hash_retrieve`. -/
def setContains (fuel : Nat) (set : HashTable) (key : CInt) : Prog σ ε Bool :=
  iter (fun try_ => do
    let hash ← hash_fun failed key try_ set.max
    if set.elements hash = 0 then return .inr false
    else if set.elements hash = key then return .inr true
    else return .inl (try_ + 1)) fuel 0

end

/-! ## What has been added is found -/

/-- Probing for `key` comes to `key` before any empty cell. -/
def HashTable.Finds (set : HashTable) (key : CInt) : Prop :=
  ∃ m, set.elements (probe set.max key m).toNat = key ∧ ∀ l < m, set.elements (probe set.max key l).toNat ≠ 0

/-- An empty cell is filled with `data`. -/
def HashTable.fill (set : HashTable) (hash : Nat) (data : CInt) : HashTable :=
  { set with
    number_of_elements := set.number_of_elements + 1
    elements := Function.update set.elements hash data }

theorem HashTable.Finds.fill {set : HashTable} {key data : CInt} {hash : Nat} (h : set.Finds key) (hkey : key ≠ 0)
    (hdata : data ≠ 0) (hempty : set.elements hash = 0) : (set.fill hash data).Finds key := by
  obtain ⟨m, hm, hl⟩ := h
  refine ⟨m, ?_, fun l hlm => ?_⟩
  · have hne : (probe set.max key m).toNat ≠ hash := by
      rintro e
      rw [e, hempty] at hm
      exact hkey hm.symm
    exact (Function.update_of_ne hne ..).trans hm
  · by_cases e : (probe set.max key l).toNat = hash
    · change Function.update set.elements hash data (probe set.max key l).toNat ≠ 0
      rw [e, Function.update_self]
      exact hdata
    · change Function.update set.elements hash data (probe set.max key l).toNat ≠ 0
      rw [Function.update_of_ne e]
      exact hl l hlm

section Rules

variable {ι σ ε γ : Type} {L : Proto ι σ ε γ} {i : ι} {A : World ι σ ε γ → Prop} {failed : SetAssertion → ε}

/-- A failing assertion is a step that keeps to the protocol. -/
def MayFail (L : Proto ι σ ε γ) (i : ι) (A : World ι σ ε γ → Prop) (e : ε) : Prop :=
  L.Triple i A (step (fun _ => some e) id fun _ => (halt : Prog σ ε Unit)) fun _ _ => False

theorem Triple.check {c : Prop} [Decidable c] {e : ε} (h : MayFail L i A e) :
    L.Triple i A (check c e) fun _ w => c ∧ A w := by
  unfold Prog.check
  refine Proto.Triple.ite (fun hc => .ret fun w hw => ⟨hc, hw⟩) fun _ => ?_
  exact h.post fun _ w hw => hw.elim

theorem hash_fun_spec (hfail : ∀ e, MayFail L i A (failed e)) (key max : CInt) (try_ : Nat) :
    L.Triple i A (hash_fun failed key try_ max) fun hash w => hash = (probe max key try_).toNat ∧ A w :=
  .bind (Triple.check (hfail _)) fun _ => .ret fun _ hw => ⟨rfl, hw.2⟩

theorem setAdd_spec (hfail : ∀ e, MayFail L i A (failed e)) (fuel : Nat) (set : HashTable) (data : CInt) :
    L.Triple i A (setAdd failed fuel set data) fun set' w =>
      (data ≠ 0 ∧ set'.Finds data ∧ ∀ key ≠ 0, set.Finds key → set'.Finds key) ∧ A w := by
  refine .bind (Triple.check (hfail _)) fun _ => Proto.Triple.fact (fun w hw => hw.1) fun hdata => ?_
  refine .bind (Proto.Triple.pre (Triple.check (A := A) (hfail _)) fun w hw => hw.2) fun _ => ?_
  -- the cells probed so far are taken
  refine Proto.Triple.pre (A := fun w => (∀ l < 0, set.elements (probe set.max data l).toNat ≠ 0) ∧ A w)
    (Proto.Triple.iter (J := fun try_ w => (∀ l < try_, set.elements (probe set.max data l).toNat ≠ 0) ∧ A w)
      (fun try_ => ?_) fuel 0) fun w hw => ⟨fun l hl => absurd hl (Nat.not_lt_zero l), hw.2⟩
  refine Proto.Triple.fact (fun w hw => hw.1) fun htaken => ?_
  refine .bind (Proto.Triple.pre (hash_fun_spec (A := A) hfail data set.max try_) fun w hw => hw.2) fun hash => ?_
  refine Proto.Triple.fact (fun w hw => hw.1) fun e => ?_
  subst e
  refine .ite (fun hempty => .ret fun w hw => ⟨⟨hdata, ?_, fun key hkey h => h.fill hkey hdata hempty⟩, hw.2⟩) fun hne =>
    .ite (fun heq => .ret fun w hw => ⟨⟨hdata, ⟨try_, heq, htaken⟩, fun _ _ h => h⟩, hw.2⟩) fun _ => .ret fun w hw => ⟨?_, hw.2⟩
  · refine ⟨try_, Function.update_self .., fun l hl => ?_⟩
    change Function.update set.elements _ data (probe set.max data l).toNat ≠ 0
    by_cases e : (probe set.max data l).toNat = (probe set.max data try_).toNat
    · rw [e, Function.update_self]
      exact hdata
    · rw [Function.update_of_ne e]
      exact htaken l hl
  · intro l hl
    obtain hl | rfl := Nat.lt_succ_iff_lt_or_eq.1 hl
    · exact htaken l hl
    · exact hne

theorem setContains_spec (hfail : ∀ e, MayFail L i A (failed e)) (fuel : Nat) (set : HashTable) (key : CInt) :
    L.Triple i A (setContains failed fuel set key) fun found w => (key ≠ 0 → set.Finds key → found = true) ∧ A w := by
  -- an empty cell has not been met
  refine Proto.Triple.pre (A := fun w => (∀ l < 0, set.elements (probe set.max key l).toNat ≠ key) ∧ A w)
    (Proto.Triple.iter (J := fun try_ w => (∀ l < try_, set.elements (probe set.max key l).toNat ≠ key) ∧ A w)
      (fun try_ => ?_) fuel 0) fun w hw => ⟨fun l hl => absurd hl (Nat.not_lt_zero l), hw⟩
  refine Proto.Triple.fact (fun w hw => hw.1) fun hseen => ?_
  refine .bind (Proto.Triple.pre (hash_fun_spec (A := A) hfail key set.max try_) fun w hw => hw.2) fun hash => ?_
  refine Proto.Triple.fact (fun w hw => hw.1) fun e => ?_
  subst e
  refine .ite (fun hempty => .ret fun w hw => ⟨?_, hw.2⟩) fun _ =>
    .ite (fun _ => .ret fun w hw => ⟨fun _ _ => rfl, hw.2⟩) fun hne => .ret fun w hw => ⟨fun l hl => ?_, hw.2⟩
  · rintro hkey ⟨m, hm, hl⟩
    obtain hlt | hge := Nat.lt_or_ge m try_
    · exact absurd hm (hseen m hlt)
    obtain hlt | rfl := Nat.lt_or_eq_of_le hge
    · exact absurd hempty (hl try_ hlt)
    · exact absurd (hempty.symm.trans hm).symm hkey
  · obtain hl | rfl := Nat.lt_succ_iff_lt_or_eq.1 hl
    · exact hseen l hl
    · exact hne

end Rules

end OptimisticAccess.MOA
