import Mathlib.Algebra.Order.BigOperators.Group.List
import OptimisticAccess.AOA.Solo.Arrays

/-!
# A trace with one thread

After `trace` an object is marked if and only if it is reachable from the roots and the hazard
pointers. The one thread finds in `CheckFinish` that it has itself finished.
-/

namespace OptimisticAccess.AOA.Solo

open Conc Prog

variable {heapmem HP : List Nat} {s₀ s : Mem 1} {i : Fin 1} {R P : Ptr → Prop} {v fuel counter len : Nat} {p q : Ptr} {HPs : List Ptr}

/-! ## Roots -/

/-- What root `r` of `len` words points to. -/
def RootWord (s : Mem 1) (r len : Nat) (p : Ptr) : Prop :=
  len = 1 ∧ p = clearPtr (s.roots r 0) ∨ len ≠ 1 ∧ ∃ k < len, p = s.roots r k

/-- What a collection is to keep. -/
def IsRoot (s : Mem 1) (HPs : List Ptr) (p : Ptr) : Prop :=
  p ∈ HPs ∨ p ≠ NULL ∧ ∃ r len, s.rootLen[r]? = some len ∧ RootWord s r len p

/-- What a collection starts from: of the arrays only the first root is one whose table is ever cleared. -/
def Honoured (s : Mem 1) (HPs : List Ptr) (p : Ptr) : Prop :=
  p ∈ HPs ∨ p ≠ NULL ∧ ∃ r len, s.rootLen[r]? = some len ∧ (len ≠ 1 → r = 0) ∧ RootWord s r len p

/-- Words of bits in the table of an array of `len` words. -/
def tableBits (len : Nat) : Nat := (len + entriesPerWord - 1) / entriesPerWord

/-- What a trace finds: pointers that lead to objects, the table of the first root cleared, and the other tables as they were. -/
structure Rooted (heapmem : List Nat) (s : Mem 1) (HPs : List Ptr) (v : Nat) : Prop where
  obj : ∀ p, Honoured s HPs p → Obj heapmem p
  len : ∀ len ∈ s.rootLen, len ≠ 1 → len % 64 = 0 ∧ len < 2 ^ 31
  table : ∀ len, s.rootLen[0]? = some len → len ≠ 1 →
    Taken v 0 (s.arr_marktable 0) ∧ Signed v 0 (tableBits len) (s.arr_marktable 0)
  others : ∀ r, r ≠ 0 → ∀ k, Stamp.hi (s.arr_marktable r k) ≠ v

theorem Rooted.arrayRoot (h : Rooted heapmem s HPs v) (h0 : s.rootLen[0]? = some len) (hlen : len ≠ 1) :
    ArrayRoot heapmem s (Honoured s HPs) len (tableBits len) := by
  obtain ⟨hdvd, hlt⟩ := h.len len (List.mem_of_getElem? h0) hlen
  refine ⟨fun k hk => ?_, hdvd, hlt, ?_⟩
  · by_cases hnull : s.roots 0 k = NULL
    · exact .inl hnull
    · have hroot : Honoured s HPs (s.roots 0 k) := .inr ⟨hnull, 0, len, h0, fun _ => rfl, .inr ⟨hlen, k, hk, rfl⟩⟩
      exact .inr ⟨h.obj _ hroot, hroot⟩
  · rw [tableBits, show entriesPerWord = 2048 from rfl]
    omega

/-- Root `r` is dealt with. -/
def Covered (s₀ : Mem 1) (counter : Nat) (s : Mem 1) (r len : Nat) : Prop :=
  (len = 1 → clearPtr (s₀.roots r 0) = NULL ∨ Marked s (clearPtr (s₀.roots r 0)) ∨ OnStack counter s (clearPtr (s₀.roots r 0))) ∧
    (len ≠ 1 → r = 0 → ∀ k < len, s₀.roots r k = NULL ∨ Marked s (s₀.roots r k))

/-- The stack grows. -/
theorem Covered.push {r : Nat} (h : Covered s₀ counter s r len) (p : Ptr) :
    Covered s₀ (counter + 1) (s.setSlot i (counter + 1) p) r len :=
  ⟨fun h1 => (h.1 h1).imp_right fun hc => hc.imp_right fun hs => onStack_push.2 (.inr hs), h.2⟩

theorem onStack_zero : ¬ OnStack 0 s q := fun ⟨k, h1, h2, _⟩ => by omega

theorem Tracing.none (h : Tracing heapmem s₀ R v (OnStack 0 s) s) : Tracing heapmem s₀ R v (fun _ => False) s :=
  h.repend (fun _ hq => absurd hq onStack_zero) fun _ hq => hq.elim

theorem Tracing.zero (h : Tracing heapmem s₀ R v (fun _ => False) s) : Tracing heapmem s₀ R v (OnStack 0 s) s :=
  h.repend (fun _ hq => hq.elim) fun _ hq => absurd hq onStack_zero

/-- An object is pushed. -/
theorem Tracing.push (h : Tracing heapmem s₀ R v (OnStack counter s) s) (hp : Obj heapmem p) (hR : R p) :
    Tracing heapmem s₀ R v (OnStack (counter + 1) (s.setSlot i (counter + 1) p)) (s.setSlot i (counter + 1) p) :=
  (h.setSlot (counter + 1) p).repend (fun q hq => .inl (onStack_push.2 (.inr hq))) fun q hq => by
    obtain rfl | hq := onStack_push.1 hq
    · exact ⟨hp, _, hR, .refl⟩
    · exact h.pending q hq

theorem Tracing.localVer (h : Tracing heapmem s₀ R v P s) : (s.locals i).localVer = (s₀.locals i).localVer := by
  obtain ⟨marks, table, stack, rfl⟩ := h.frame
  rfl

theorem Tracing.roots (h : Tracing heapmem s₀ R v P s) : s.roots = s₀.roots := by
  obtain ⟨marks, table, stack, rfl⟩ := h.frame
  rfl

theorem Tracing.table_eq {r : Nat} (h : Tracing heapmem s₀ R v P s) (hr : r ≠ 0) : s.arr_marktable r = s₀.arr_marktable r := by
  obtain ⟨marks, table, stack, rfl⟩ := h.frame
  exact Function.update_of_ne hr table s₀.arr_marktable

/-- The state in which a trace starts. -/
structure Cleared (heapmem : List Nat) (s : Mem 1) (v : Nat) : Prop where
  marks : ∀ p, Obj heapmem p → s.marks (markWord p.addr) = Stamp.empty v
  localVer : ∀ i, (s.locals i).localVer = v

theorem Cleared.tracing (h : Cleared heapmem s v) (hv : v < 2 ^ 32) : Tracing heapmem s R v (fun _ => False) s := by
  have hclear : ∀ p, Obj heapmem p → ¬ Marked s p := fun p hp hm => by
    rw [Marked, h.marks p hp, Stamp.getLsbD_empty (markBit_lt _)] at hm
    cases hm
  refine ⟨⟨s.marks, s.arr_marktable 0, slots s, ?_⟩, fun p hp => ?_, fun _ => rfl, fun _ hp => hp.elim, fun p hp hm => absurd hm (hclear p hp),
    fun p hp hm => absurd hm (hclear p hp)⟩
  · have hlocals : s.locals = fun i => { s.locals i with markstack := slots s } := by
      funext i
      rw [slots_eq i]
    rw [traced, Function.update_eq_self, ← hlocals]
  · rw [h.marks p hp, Stamp.hi_empty, Nat.mod_eq_of_lt hv]

theorem getElem?_range {m k r : Nat} (h : (List.range m)[k]? = some r) : k = r := by
  obtain ⟨hk, rfl⟩ := List.getElem?_eq_some_iff.1 h
  exact List.getElem_range hk |>.symm

theorem mem_roots {rootLen : List Nat} {r : Nat} : (r, len) ∈ (List.range rootLen.length).zip rootLen ↔ rootLen[r]? = some len := by
  rw [List.mem_iff_getElem?]
  constructor
  · rintro ⟨k, hk⟩
    obtain ⟨h1, h2⟩ := List.getElem?_zip_eq_some.1 hk
    obtain rfl := getElem?_range h1
    exact h2
  · intro h
    exact ⟨r, List.getElem?_zip_eq_some.2 ⟨List.getElem?_range (List.getElem?_eq_some_iff.1 h).1, h⟩⟩

/-- An array whose table has the number of another phase is passed over. -/
theorem ends_traceArr_other {r : Nat} (hv : v < 2 ^ 32) (hver : (s.locals i).localVer = v) (hfuel : 0 < fuel)
    (hother : ∀ k, Stamp.hi (s.arr_marktable r k) ≠ v) : Ends (traceArr i fuel r len) s fun _ s' => s' = s := by
  have hcur : ∀ k, isCurPhase (s.arr_marktable r k) (Stamp.empty v) = false := fun k => by
    rw [Bool.eq_false_iff, ne_eq, isCurPhase_empty, Nat.mod_eq_of_lt hv]
    exact hother k
  obtain ⟨fuel, rfl⟩ := Nat.exists_eq_add_of_lt hfuel
  refine ends_bind.2 (ends_load.2 ?_)
  rw [hver, makeSC_zero, Nat.zero_add]
  refine ends_bind.2 (Ends.mono (Q := fun _ s' => s' = s) ?_ fun _ s' he => ?_)
  · -- the counter is of another phase
    rw [traceChunks, iter, ends_bind, get_arr_chunk, ends_bind, ends_bind, ends_load]
    split
    · exact ends_ret.2 (ends_ret.2 (ends_ret.2 rfl))
    · rw [if_pos (by rw [hcur]; rfl)]
      exact ends_ret.2 (ends_ret.2 (ends_ret.2 rfl))
  · subst he
    refine ends_bind.2 (Ends.mono (Q := fun _ s'' => s'' = s') (ends_bind.2 ?_) fun _ s'' he => ends_emit.2 he)
    cases hws : List.range (len / arrEntriesPerBit / 32) with
    | nil => exact ends_ret.2 (ends_ret.2 rfl)
    | cons w ws =>
      rw [anyEach, ends_bind, ends_bind, ends_load, if_pos (by rw [hcur]; rfl)]
      exact ends_ret.2 (ends_ret.2 (ends_ret.2 rfl))

/-- The roots in turn. -/
theorem ends_traceRoots (hheap : Chunks heapmem) (hgraph : Graph heapmem s₀) (hv : v < 2 ^ 32) (hroot : Rooted heapmem s₀ HPs v)
    (h : Cleared heapmem s₀ v) (hfuel : 2 * unmarked heapmem s₀ + 64 < fuel) (hlen : ∀ len ∈ s₀.rootLen, len / 64 < fuel) :
    Ends (traceRoots i fuel 0) s₀ fun counter s => Tracing heapmem s₀ (Honoured s₀ HPs) v (OnStack counter s) s ∧
      counter ≤ s₀.rootLen.length ∧ ∀ r len, s₀.rootLen[r]? = some len → Covered s₀ counter s r len := by
  refine ends_bind.2 (ends_load.2 ?_)
  refine (ends_foldEach (fun rest counter s => ∃ pre, (List.range s₀.rootLen.length).zip s₀.rootLen = pre ++ rest ∧
      Tracing heapmem s₀ (Honoured s₀ HPs) v (OnStack counter s) s ∧ counter ≤ pre.length ∧
      (pre = [] → s = s₀ ∧ counter = 0) ∧ ∀ x ∈ pre, Covered s₀ counter s x.1 x.2)
    (fun x rest counter s hJ => ?_) ⟨[], rfl, (h.tracing hv).zero, le_refl _, fun _ => ⟨rfl, rfl⟩, fun _ hx => absurd hx List.not_mem_nil⟩).mono
    fun counter s hJ => ?_
  · obtain ⟨pre, hpre, hT, hle, hfirst, hcov⟩ := hJ
    obtain ⟨r, len⟩ := x
    have hget : s₀.rootLen[r]? = some len := mem_roots.1 (hpre ▸ List.mem_append_right _ List.mem_cons_self)
    have hr : r = pre.length := by
      have hk : ((List.range s₀.rootLen.length).zip s₀.rootLen)[pre.length]? = some (r, len) := by
        rw [hpre, List.getElem?_append_right (le_refl _), Nat.sub_self]
        rfl
      exact (getElem?_range (List.getElem?_zip_eq_some.1 hk).1).symm
    have hpre' : (List.range s₀.rootLen.length).zip s₀.rootLen = (pre ++ [(r, len)]) ++ rest := by
      rw [hpre, List.append_assoc]
      rfl
    have hlength : (pre ++ [(r, len)]).length = pre.length + 1 := List.length_append
    have hcons : ∀ {c s'}, (∀ x ∈ pre, Covered s₀ c s' x.1 x.2) → Covered s₀ c s' r len → ∀ x ∈ pre ++ [(r, len)], Covered s₀ c s' x.1 x.2 := by
      intro c s' h1 h2 x hx
      obtain hx | hx := List.mem_append.1 hx
      · exact h1 x hx
      · rw [List.mem_singleton.1 hx]
        exact h2
    have hnil : pre ++ [(r, len)] ≠ [] := List.append_ne_nil_of_right_ne_nil _ (List.cons_ne_nil _ _)
    by_cases h1 : len = 1
    · -- a single word
      dsimp only
      rw [if_neg (not_not.2 h1)]
      refine ends_bind.2 (ends_load.2 ?_)
      rw [hT.roots]
      by_cases hnull : clearPtr (s₀.roots r 0) = NULL
      · rw [if_pos hnull]
        refine ends_ret.2 ⟨_, hpre', hT, by omega, fun e => absurd e hnil, hcons hcov ⟨fun _ => .inl hnull, fun h => absurd h1 h⟩⟩
      · rw [if_neg hnull]
        have hisroot : Honoured s₀ HPs (clearPtr (s₀.roots r 0)) := .inr ⟨hnull, r, len, hget, fun h => absurd h1 h, .inl ⟨h1, rfl⟩⟩
        refine ends_bind.2 (ends_store.2 (ends_ret.2 ⟨_, hpre', hT.push (hroot.obj _ hisroot) hisroot, by omega, fun e => absurd e hnil,
          hcons (fun x hx => (hcov x hx).push _) ⟨fun _ => .inr (.inr (onStack_push.2 (.inl rfl))), fun h => absurd h1 h⟩⟩))
    dsimp only
    rw [if_pos h1]
    by_cases h0 : r = 0
    · -- an array, which comes first, when the mark stack is empty
      subst h0
      have hempty : pre = [] := List.length_eq_zero_iff.1 hr.symm
      obtain ⟨rfl, rfl⟩ := hfirst hempty
      have harr := hroot.arrayRoot hget h1
      obtain ⟨htaken, hsigned⟩ := hroot.table len hget h1
      refine ends_bind.2 ((ends_traceArr hheap hgraph hv harr (h.localVer i) ⟨hT.none, hsigned, fun k hk => absurd hk (by omega)⟩ htaken
        hfuel (hlen len (List.mem_of_getElem? hget))).mono fun _ s' hs => ends_ret.2 ?_)
      exact ⟨_, hpre', hs.1.zero, by omega, fun e => absurd e hnil, hcons (fun x hx => absurd hx (hempty ▸ List.not_mem_nil))
        ⟨fun h => absurd h h1, fun _ _ => hs.2⟩⟩
    · -- an array whose table is never cleared
      have hother : ∀ k, Stamp.hi (s.arr_marktable r k) ≠ v := by
        rw [hT.table_eq h0]
        exact hroot.others r h0
      refine ends_bind.2 ((ends_traceArr_other hv (hT.localVer.trans (h.localVer i)) (by omega) hother).mono fun _ s' hs => ends_ret.2 ?_)
      subst hs
      exact ⟨_, hpre', hT, by omega, fun e => absurd e hnil, hcons hcov ⟨fun h => absurd h h1, fun _ h => absurd h h0⟩⟩
  · obtain ⟨pre, hpre, hT, hle, -, hcov⟩ := hJ
    rw [List.append_nil] at hpre
    refine ⟨hT, ?_, fun r len hget => hcov (r, len) (hpre ▸ mem_roots.2 hget)⟩
    rw [← hpre, List.length_zip, List.length_range, Nat.min_self] at hle
    exact hle

/-! ## The end of a trace -/

/-- The thread has finished itself. -/
theorem ends_CheckFinish (hver : (s.locals i).localVer = v) (hint : toInt32 v = v) (htag : (slots s 0).tag = true) (hfuel : 0 < fuel) :
    Ends (CheckFinish i fuel) s fun r s' => r = (true, 0) ∧ s' = s := by
  obtain ⟨fuel, rfl⟩ := Nat.exists_eq_add_of_lt hfuel
  refine ends_bind.2 (ends_load.2 ?_)
  rw [Nat.zero_add, hver, iter, ends_bind, ends_bind]
  refine (ends_foldEach (fun _ acc s' => acc.1 = 0 ∧ s' = s ∧ ∀ x ∈ acc.2, x.2.1 = (v : Int) ∧ x.2.2 = slots s 0)
    (fun ai _ acc s' hJ => ?_) ⟨rfl, rfl, fun _ hx => absurd hx List.not_mem_nil⟩).mono fun acc s' hJ => ?_
  · obtain ⟨h0, rfl, hseen⟩ := hJ
    have hai : (s'.locals ai).localVer = v := by rw [Subsingleton.elim ai i, hver]
    refine ends_bind.2 (ends_load.2 (ends_bind.2 (ends_load.2 ?_)))
    rw [hai, hint, ← slots_eq, if_pos (.inl htag)]
    refine ends_ret.2 ⟨h0, rfl, fun x hx => ?_⟩
    obtain hx | hx := List.mem_append.1 hx
    · exact hseen x hx
    · rw [List.mem_singleton.1 hx]
      exact ⟨rfl, rfl⟩
  · obtain ⟨h0, rfl, hseen⟩ := hJ
    obtain ⟨counter, seen⟩ := acc
    obtain rfl : counter = 0 := h0
    dsimp only
    rw [if_neg (by omega), ends_bind]
    refine (ends_anyEach (fun xs s'' => (∀ x ∈ xs, x.2.1 = (v : Int) ∧ x.2.2 = slots s' 0) ∧ s'' = s') (fun x xs s'' hJ => ?_) ⟨hseen, rfl⟩).mono
      fun r s'' hs => ?_
    · obtain ⟨hxs, rfl⟩ := hJ
      obtain ⟨hphase, htracing⟩ := hxs x List.mem_cons_self
      have hai : (s''.locals x.1).localVer = v := by rw [Subsingleton.elim x.1 i, hver]
      refine ends_bind.2 (ends_load.2 ?_)
      rw [htracing, ← slots_eq, if_neg (not_not.2 rfl)]
      refine ends_bind.2 (ends_load.2 (ends_ret.2 ⟨?_, fun x hx => hxs x (List.mem_cons_of_mem _ hx), rfl⟩))
      rw [hai, hphase]
      exact bne_self_eq_false _
    · obtain ⟨rfl, -, rfl⟩ := hs
      exact ends_ret.2 (ends_ret.2 ⟨rfl, rfl⟩)

theorem toInt32_eq_iff : toInt32 v = v ↔ v < 2 ^ 31 := by
  rw [toInt32, BitVec.toInt_ofNat', Int.bmod_def]
  split <;> omega

theorem ends_traceToEnd (hheap : Chunks heapmem) (hgraph : Graph heapmem s₀) (hv : v < 2 ^ 31)
    (h : Tracing heapmem s₀ R v (OnStack counter s) s) (hver : (s.locals i).localVer = v)
    (hfuel : 2 * unmarked heapmem s + counter < fuel) :
    Ends (traceToEnd i fuel counter v) s fun _ s' => Tracing heapmem s₀ R v (fun _ => False) s' ∧
      (∀ p, Marked s p → Marked s' p) ∧ (∀ p, OnStack counter s p → Marked s' p) ∧ (slots s' 0).tag = true := by
  have hv' : v < 2 ^ 32 := by omega
  have hfuel' : 0 < fuel := by omega
  refine ends_bind.2 ?_
  rw [makeSC_zero]
  refine (ends_traceMarkstack hheap hgraph hv' h hfuel).mono fun _ s₁ hs => ends_bind.2 (ends_finishSlot ?_)
  obtain ⟨hT, hgrow, hall⟩ := hs
  generalize hs₂ : s₁.setSlot i 0 { slots s₁ 0 with tag := true } = s₂
  have htag : (slots s₂ 0).tag = true := by
    rw [← hs₂, slots_setSlot, Function.update_self]
  have hT₂ : Tracing heapmem s₀ R v (fun _ => False) s₂ := hs₂ ▸ hT.setSlot 0 _
  have hmarks : ∀ p, Marked s₁ p → Marked s₂ p := fun p hp => by
    rw [← hs₂]
    exact hp
  have hver₂ : (s₂.locals i).localVer = v := by rw [hT₂.localVer, ← h.localVer, hver]
  obtain ⟨fuel, rfl⟩ := Nat.exists_eq_add_of_lt hfuel'
  rw [Nat.zero_add, iter, ends_bind, ends_bind]
  refine (ends_CheckFinish hver₂ (toInt32_eq_iff.2 hv) htag (by omega)).mono fun r s₃ hr => ?_
  obtain ⟨rfl, rfl⟩ := hr
  dsimp only
  rw [if_pos rfl]
  exact ends_bind.2 (ends_emit.2 (ends_ret.2 (ends_ret.2 ⟨hT₂, fun p hp => hmarks p (hgrow.marked p hp), fun p hp => hmarks p (hall p hp), htag⟩)))

/-- The sweep counter is moved to the phase of the trace. -/
theorem ends_resetSweepCounter (hver : (s.locals i).localVer = v) (hsweep : phaseOf s.sweep_counter + 2 = v) (hfuel : 0 < fuel) :
    Ends (resetSweepCounter i fuel) s fun _ s' => s' = { s with sweep_counter := makeSC 0 v } := by
  obtain ⟨fuel, rfl⟩ := Nat.exists_eq_add_of_lt hfuel
  refine ends_bind.2 (ends_load.2 ?_)
  rw [Nat.zero_add, hver, iter, ends_bind, ends_bind, ends_load, if_neg (by omega), ends_bind]
  refine ends_check (by omega) (ends_bind.2 (ends_cas (fun _ => ?_) fun hne => absurd rfl hne))
  rw [if_pos rfl]
  exact ends_ret.2 (ends_ret.2 rfl)

/-- The hazard pointers are pushed. -/
theorem ends_pushHPs (h : Tracing heapmem s₀ R v (OnStack counter s) s) (hobj : ∀ p ∈ HPs, Obj heapmem p ∧ R p) :
    Ends (foldEach (fun counter p => do
      check (p ≠ NULL ∧ clearPtr p = p) (.assertFailed .hazardPointer)
      setSlot i (counter + 1) p
      return counter + 1) counter HPs) s fun counter' s' => Tracing heapmem s₀ R v (OnStack counter' s') s' ∧
        counter' = counter + HPs.length ∧ (∀ p, Marked s p → Marked s' p) ∧ unmarked heapmem s' = unmarked heapmem s ∧
        (∀ q, OnStack counter s q → OnStack counter' s' q) ∧ ∀ p ∈ HPs, OnStack counter' s' p := by
  induction HPs generalizing counter s with
  | nil => exact ends_ret.2 ⟨h, rfl, fun _ h => h, rfl, fun _ h => h, fun _ hp => absurd hp List.not_mem_nil⟩
  | cons p HPs ih =>
    obtain ⟨hp, hR⟩ := hobj p List.mem_cons_self
    refine ends_bind.2 (ends_bind.2 (ends_check ⟨hp.isObj.ne, clearPtr_of_tag hp.tag⟩ (ends_bind.2 (ends_store.2 (ends_ret.2 ?_)))))
    refine (ih (h.push hp hR) fun q hq => hobj q (List.mem_cons_of_mem _ hq)).mono fun counter' s' hs => ?_
    obtain ⟨hT, hc, hm, hu, hkeep, hall⟩ := hs
    refine ⟨hT, ?_, fun q hq => hm q hq, hu.trans unmarked_setSlot, fun q hq => hkeep q (onStack_push.2 (.inr hq)), fun q hq => ?_⟩
    · rw [hc, List.length_cons]
      omega
    · obtain rfl | hq := List.mem_cons.1 hq
      · exact hkeep _ (onStack_push.2 (.inl rfl))
      · exact hall q hq

/-- Rounds that are enough for every loop of a trace. -/
def traceFuel (heapmem rootLen : List Nat) (hps : Nat) : Nat :=
  2 * (repository.sweepObjects heapmem).length + rootLen.length + rootLen.sum + hps + 64

theorem unmarked_le_length (heapmem : List Nat) (s : Mem 1) : unmarked heapmem s ≤ (repository.sweepObjects heapmem).length :=
  (Finset.card_filter_le ..).trans (List.toFinset_card_le _)

/-- What a trace leaves. -/
structure Exact (heapmem : List Nat) (s₀ : Mem 1) (HPs : List Ptr) (v : Nat) (s : Mem 1) : Prop where
  frame : ∃ marks table stack, s = { traced s₀ marks table stack with sweep_counter := makeSC 0 v }
  stamped : ∀ p, Obj heapmem p → Stamp.hi (s.marks (markWord p.addr)) = v
  tables : ∀ k, Stamp.hi (s.arr_marktable 0 k) = Stamp.hi (s₀.arr_marktable 0 k)
  marked : ∀ p, Obj heapmem p → (Marked s p ↔ Reachable s₀ (Honoured s₀ HPs) p)
  finished : (slots s 0).tag = true

/-- When nothing is pending, all that is reachable is marked. -/
theorem Tracing.exact (h : Tracing heapmem s₀ R v (fun _ => False) s) (hroot : ∀ p, R p → Obj heapmem p ∧ Marked s p)
    (hgraph : Graph heapmem s₀) (hp : Obj heapmem p) : Marked s p ↔ Reachable s₀ R p := by
  refine ⟨h.sound p hp, fun hr => ?_⟩
  have hall : Obj heapmem p ∧ Marked s p := hr.induction hroot fun a b ha he => by
    obtain ⟨hne, rfl⟩ := he
    exact ⟨(hgraph.child a ha.1).resolve_left hne, ((h.closed a ha.1 ha.2).resolve_left hne).resolve_right id⟩
  exact hall.2

/-- With one thread a trace ends, and marks what is reachable from the roots that are honoured. -/
theorem ends_trace (hheap : Chunks heapmem) (hgraph : Graph heapmem s₀) (hv : v < 2 ^ 31) (hroot : Rooted heapmem s₀ HPs v)
    (h : Cleared heapmem s₀ v) (hsweep : phaseOf s₀.sweep_counter + 2 = v) (hfuel : traceFuel heapmem s₀.rootLen HPs.length < fuel) :
    Ends (trace i fuel HPs) s₀ fun _ s => Exact heapmem s₀ HPs v s := by
  have hunmarked := unmarked_le_length heapmem s₀
  unfold traceFuel at hfuel
  have hpos : 0 < fuel := by omega
  refine ends_bind.2 (ends_load.2 (ends_bind.2 ?_))
  rw [h.localVer i]
  refine (ends_traceRoots hheap hgraph (by omega) hroot h (by omega) fun len hlen => ?_).mono fun counter s₁ hs₁ => ends_bind.2 ?_
  · have := List.single_le_sum (fun _ _ => Nat.zero_le _) len hlen
    omega
  obtain ⟨hT₁, hle, hcov⟩ := hs₁
  refine (ends_pushHPs hT₁ fun p hp => ⟨hroot.obj p (.inl hp), .inl hp⟩).mono fun counter' s₂ hs₂ => ends_bind.2 ?_
  obtain ⟨hT₂, rfl, hm₂, hu₂, hkeep, hHPs⟩ := hs₂
  have hunmarked₂ := unmarked_le_length heapmem s₂
  refine (ends_traceToEnd hheap hgraph hv hT₂ (hT₂.localVer.trans (h.localVer i)) (by omega)).mono fun _ s₃ hs₃ => ?_
  obtain ⟨hT₃, hm₃, hall, htag⟩ := hs₃
  obtain ⟨marks, table, stack, rfl⟩ := hT₃.frame
  refine (ends_resetSweepCounter (s := traced s₀ marks table stack) (h.localVer i) hsweep hpos).mono fun _ s₄ hs₄ => ?_
  subst hs₄
  refine ⟨⟨marks, table, stack, rfl⟩, hT₃.stamped, hT₃.tables, fun p hp => hT₃.exact (fun q hq => ⟨hroot.obj q hq, ?_⟩) hgraph hp, htag⟩
  obtain hq | ⟨hne, r, len, hget, h0, hword⟩ := hq
  · exact hall q (hHPs q hq)
  · have hc := hcov r len hget
    obtain ⟨h1, rfl⟩ | ⟨h1, k, hk, rfl⟩ := hword
    · obtain hc | hc | hc := hc.1 h1
      · exact absurd hc hne
      · exact hm₃ _ (hm₂ _ hc)
      · exact hall _ (hkeep _ hc)
    · exact hm₃ _ (hm₂ _ ((hc.2 h1 (h0 h1) k hk).resolve_left hne))

end OptimisticAccess.AOA.Solo
