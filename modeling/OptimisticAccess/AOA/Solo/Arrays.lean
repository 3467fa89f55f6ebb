import OptimisticAccess.AOA.ArrayRoot
import OptimisticAccess.AOA.Solo.Mark

/-!
# Roots that are arrays, with one thread

The counter of the table hands out the chunks in turn, and the bit of a chunk is set before the next
chunk is taken. Nothing is left for the helping pass.
-/

namespace OptimisticAccess.AOA.Solo

open Conc Prog

variable {heapmem : List Nat} {s₀ s : Mem 1} {i : Fin 1} {R P : Ptr → Prop} {v fuel len N W : Nat} {t : Nat → U64} {q : Ptr}

/-! ## The table -/

/-- Of the `W` words of bits those of the first `N` chunks are set. -/
def Signed (v N W : Nat) (t : Nat → U64) : Prop :=
  ∀ w < W, Stamp.hi (t (w + 1)) = v ∧ ∀ bit < 32, (t (w + 1)).getLsbD bit = decide (32 * w + bit < N)

/-- `N` chunks were taken. -/
structure Taken (v N : Nat) (t : Nat → U64) : Prop where
  stamp : Stamp.hi (t 0) = v
  count : scounter (t 0) = N

theorem Taken.succ (h : Taken v N t) (hN : N < 2 ^ 31) : Taken v (N + 1) (Function.update t 0 (t 0 + 1)) := by
  obtain ⟨hhi, hcount⟩ := ArrayRoot.scounter_succ (h.count.trans_lt hN)
  exact ⟨by rw [Function.update_self, hhi, h.stamp], by rw [Function.update_self, hcount, h.count]⟩

theorem Taken.sign (h : Taken v N t) (w : Nat) (x : U64) : Taken v N (Function.update t (w + 1) x) :=
  ⟨by rw [Function.update_of_ne (by omega)]; exact h.stamp, by rw [Function.update_of_ne (by omega)]; exact h.count⟩

theorem Signed.take (h : Signed v N W t) (x : U64) : Signed v N W (Function.update t 0 x) := fun w hw => by
  rw [Function.update_of_ne (by omega)]
  exact h w hw

/-- The bit of chunk `N` is set. -/
theorem Signed.sign (h : Signed v N W t) :
    Signed v (N + 1) W (Function.update t (N / 32 + 1) (t (N / 32 + 1) ||| Stamp.bit (N % 32))) := by
  intro w hw
  obtain ⟨hhi, hbits⟩ := h w hw
  by_cases hword : w = N / 32
  · subst hword
    rw [Function.update_self, Stamp.hi_or_bit (Nat.mod_lt _ (by omega))]
    refine ⟨hhi, fun bit hb => ?_⟩
    rw [Stamp.getLsbD_or_bit (by omega), hbits bit hb, Bool.eq_iff_iff]
    simp only [Bool.or_eq_true, decide_eq_true_eq]
    omega
  · rw [Function.update_of_ne (by omega)]
    refine ⟨hhi, fun bit hb => ?_⟩
    rw [hbits bit hb, decide_eq_decide]
    omega

/-- A word whose 32 chunks are done. -/
theorem Signed.full (h : Signed v N W t) {w : Nat} (hw : w < W) (hN : 32 * (w + 1) ≤ N) : scounter (t (w + 1)) = 0xFFFFFFFF := by
  have hbits := (h w hw).2
  have hall : (t (w + 1)).setWidth 32 = BitVec.allOnes 32 := by
    refine BitVec.eq_of_getLsbD_eq fun bit hb => ?_
    rw [BitVec.getLsbD_setWidth, hbits bit hb, BitVec.getLsbD_allOnes]
    simp only [hb, decide_true, Bool.true_and, decide_eq_true_eq]
    omega
  have hnat := congrArg BitVec.toNat hall
  rwa [BitVec.toNat_setWidth] at hnat

/-! ## Chunks -/

theorem setTable_eq (k : Nat) (x : U64) : (s.setTable 0 k x).arr_marktable 0 = Function.update (s.arr_marktable 0) k x :=
  ArrayRoot.setTable_zero s k x

theorem Tracing.setTable (h : Tracing heapmem s₀ R v P s) {k : Nat} {x : U64} (hx : Stamp.hi x = Stamp.hi (s.arr_marktable 0 k)) :
    Tracing heapmem s₀ R v P (s.setTable 0 k x) := by
  have htables : ∀ k', Stamp.hi ((s.setTable 0 k x).arr_marktable 0 k') = Stamp.hi (s₀.arr_marktable 0 k') := fun k' => by
    rw [setTable_eq]
    by_cases hk : k' = k
    · subst hk
      rw [Function.update_self, hx, h.tables]
    · rw [Function.update_of_ne hk, h.tables]
  obtain ⟨marks, table, stack, rfl⟩ := h.frame
  have htable : Function.update (Function.update s₀.arr_marktable 0 table) 0
      (Function.update (Function.update s₀.arr_marktable 0 table 0) k x) = Function.update s₀.arr_marktable 0 (Function.update table k x) := by
    rw [Function.update_self, Function.update_idem]
  exact ⟨⟨marks, Function.update table k x, stack, congrArg (fun t => { traced s₀ marks table stack with arr_marktable := t }) htable⟩,
    h.stamped, htables, h.pending, h.sound, h.closed⟩

/-- The bit is set at the first try. -/
theorem ends_sign_bit {Q : Bool → Mem 1 → Prop} {w bit : Nat} (hv : v < 2 ^ 32) (hfuel : 0 < fuel) (hb : bit < 32)
    (hstamp : Stamp.hi (s.arr_marktable 0 (w + 1)) = v) (hbit : (s.arr_marktable 0 (w + 1)).getLsbD bit = false)
    (h : Q true (s.setTable 0 (w + 1) (s.arr_marktable 0 (w + 1) ||| Stamp.bit bit))) :
    Ends (sign_bit fuel 0 w bit (Stamp.empty v)) s Q := by
  obtain ⟨fuel, rfl⟩ := Nat.exists_eq_add_of_lt hfuel
  have hcur := isCurPhase_of_hi hv hstamp
  have hclear : s.arr_marktable 0 (w + 1) &&& Stamp.bit bit = 0#64 := (Stamp.and_bit_eq_zero (by omega)).2 hbit
  rw [Nat.zero_add, sign_bit, iter, ends_bind, ends_bind, ends_load, if_neg (by simp [hcur]), if_neg (by simp [hclear]), ends_bind]
  exact ends_cas (fun _ => ends_ret.2 (ends_ret.2 h)) fun hne => absurd rfl hne

/-- The words of the array from `begin` on are pending. -/
theorem ends_copyPartOfArr {begin : Nat} (h : Tracing heapmem s₀ R v (fun _ => False) s)
    (hroot : ∀ k < 64, s₀.roots 0 (begin + k) = NULL ∨ (Obj heapmem (s₀.roots 0 (begin + k)) ∧ R (s₀.roots 0 (begin + k)))) :
    Ends (copyPartOfArr i 0 begin) s fun counter s' => Tracing heapmem s₀ R v (OnStack counter s') s' ∧ counter ≤ 64 ∧
      (∀ k < 64, s₀.roots 0 (begin + k) = NULL ∨ OnStack counter s' (s₀.roots 0 (begin + k))) ∧
      s'.marks = s.marks ∧ s'.arr_marktable = s.arr_marktable := by
  refine (ends_foldRange (fun m counter s' => Tracing heapmem s₀ R v (OnStack counter s') s' ∧ counter ≤ m ∧
      (∀ k < m, s₀.roots 0 (begin + k) = NULL ∨ OnStack counter s' (s₀.roots 0 (begin + k))) ∧
      s'.marks = s.marks ∧ s'.arr_marktable = s.arr_marktable) (fun k hk counter s' hJ => ?_)
    ⟨h.repend (fun _ hq => hq.elim) fun q ⟨k, h1, h2, _⟩ => absurd h1 (by omega), le_refl _, fun k hk => absurd hk (by omega), rfl, rfl⟩).mono
    fun _ _ h => h
  obtain ⟨hT, hle, hdone, hmarks, htable⟩ := hJ
  refine ends_bind.2 (ends_load.2 ?_)
  have hroots : s'.roots = s₀.roots := by
    obtain ⟨marks, table, stack, rfl⟩ := hT.frame
    rfl
  rw [hroots]
  by_cases hnull : s₀.roots 0 (begin + k) = NULL
  · rw [if_pos hnull]
    refine ends_ret.2 ⟨hT, by omega, fun k' hk' => ?_, hmarks, htable⟩
    obtain rfl | hlt := Nat.lt_succ_iff_lt_or_eq.1 hk' |>.symm
    · exact .inl hnull
    · exact hdone k' hlt
  · rw [if_neg hnull]
    obtain ⟨hobj, hR⟩ := (hroot k hk).resolve_left hnull
    refine ends_bind.2 (ends_store.2 (ends_ret.2 ⟨?_, by omega, fun k' hk' => ?_, hmarks, htable⟩))
    · refine (hT.setSlot (counter + 1) (s₀.roots 0 (begin + k))).repend (fun q hq => .inl (onStack_push.2 (.inr hq))) fun q hq => ?_
      obtain rfl | hq := onStack_push.1 hq
      · exact ⟨hobj, _, hR, .refl⟩
      · exact hT.pending q hq
    · obtain rfl | hlt := Nat.lt_succ_iff_lt_or_eq.1 hk' |>.symm
      · exact .inr (onStack_push.2 (.inl rfl))
      · exact (hdone k' hlt).imp_right fun hq => onStack_push.2 (.inr hq)

/-- What is known between two chunks: the words of the first `N` chunks are dealt with. -/
structure Between (heapmem : List Nat) (s₀ : Mem 1) (R : Ptr → Prop) (v N W : Nat) (s : Mem 1) : Prop where
  tracing : Tracing heapmem s₀ R v (fun _ => False) s
  signed : Signed v N W (s.arr_marktable 0)
  done : ∀ k < 64 * N, s₀.roots 0 k = NULL ∨ Marked s (s₀.roots 0 k)

/-- The array has `len` words, its table `W` words of bits. -/
structure ArrayRoot (heapmem : List Nat) (s₀ : Mem 1) (R : Ptr → Prop) (len W : Nat) : Prop where
  words : ∀ k < len, s₀.roots 0 k = NULL ∨ (Obj heapmem (s₀.roots 0 k) ∧ R (s₀.roots 0 k))
  dvd : len % 64 = 0
  lt : len < 2 ^ 31
  table : len ≤ 2048 * W

theorem ends_finishSlot {Q : Unit → Mem 1 → Prop} (h : Q () (s.setSlot i 0 { slots s 0 with tag := true })) : Ends (finishSlot i) s Q := by
  refine ends_bind.2 (ends_load.2 (ends_store.2 ?_))
  rw [← slots_eq]
  exact h

theorem Between.setSlot_zero (h : Between heapmem s₀ R v N W s) (p : Ptr) : Between heapmem s₀ R v N W (s.setSlot i 0 p) :=
  ⟨h.tracing.setSlot 0 p, h.signed, h.done⟩

/-- A chunk is copied, signed and traced. -/
theorem ends_traceChunk (hheap : Chunks heapmem) (hgraph : Graph heapmem s₀) (hv : v < 2 ^ 32) (harr : ArrayRoot heapmem s₀ R len W)
    (hN : 64 * N < len) (h : Between heapmem s₀ R v N W s) (hfuel : 2 * unmarked heapmem s + 64 < fuel) :
    Ends (traceChunk i fuel 0 (N / 32) (N % 32) (Stamp.empty v)) s fun _ s' => Between heapmem s₀ R v (N + 1) W s' ∧
      unmarked heapmem s' ≤ unmarked heapmem s ∧ s'.arr_marktable 0 0 = s.arr_marktable 0 0 := by
  have hdvd := harr.dvd
  have hbegin : (N / 32 * 32 + N % 32) * arrEntriesPerBit = 64 * N := by
    rw [show arrEntriesPerBit = 64 from rfl]
    omega
  have hword : N / 32 < W := by
    have := harr.table
    omega
  rw [traceChunk, hbegin]
  refine ends_bind.2 ((ends_copyPartOfArr h.tracing fun k hk => harr.words _ (by omega)).mono fun counter s₁ hcopy => ?_)
  obtain ⟨hT, hle, hcover, hmarks, htable⟩ := hcopy
  refine ends_bind.2 (ends_load.2 (ends_bind.2 (ends_store.2 (ends_bind.2 ?_))))
  generalize ((s₁.locals i).markstack counter) = top
  have hsigned : Signed v N W ((s₁.setSlot i 0 top).arr_marktable 0) := by
    rw [show (s₁.setSlot i 0 top).arr_marktable = s₁.arr_marktable from rfl, htable]
    exact h.signed
  have hbits := hsigned (N / 32) hword
  refine ends_sign_bit hv (by omega) (Nat.mod_lt _ (by omega)) hbits.1 ?_ ?_
  · rw [hbits.2 _ (Nat.mod_lt _ (by omega))]
    exact decide_eq_false (by omega)
  rw [if_pos rfl]
  generalize hs₂ : (s₁.setSlot i 0 top).setTable 0 (N / 32 + 1) _ = s₂
  have hstack : ∀ q, OnStack counter s₂ q ↔ OnStack counter s₁ q := by
    intro q
    rw [← hs₂]
    exact onStack_setSlot_zero
  have hT₂ : Tracing heapmem s₀ R v (OnStack counter s₂) s₂ := by
    have := (hT.setSlot (i := i) 0 top).setTable (k := N / 32 + 1) (Stamp.hi_or_bit (Nat.mod_lt N (show 0 < 32 by decide)))
    rw [hs₂] at this
    exact this.repend (fun q hq => .inl ((hstack q).2 hq)) fun q hq => this.pending q ((hstack q).1 hq)
  have hmarks₂ : s₂.marks = s.marks := by
    rw [← hs₂]
    exact hmarks
  have hunmarked : unmarked heapmem s₂ = unmarked heapmem s := unmarked_congr hmarks₂
  refine ends_bind.2 ((ends_traceMarkstack hheap hgraph hv hT₂ (by omega)).mono fun _ s₃ htrace => ends_finishSlot ?_)
  obtain ⟨hT₃, hgrow, hall⟩ := htrace
  refine ⟨Between.setSlot_zero ⟨hT₃, ?_, fun k hk => ?_⟩ _, ?_, ?_⟩
  · rw [hgrow.tables, ← hs₂, setTable_eq]
    exact hsigned.sign
  · by_cases hlt : k < 64 * N
    · exact (h.done k hlt).imp_right fun hm => hgrow.marked _ ((marked_congr hmarks₂).2 hm)
    · have hk' : 64 * N + (k - 64 * N) = k := by omega
      have := hcover (k - 64 * N) (by omega)
      rw [hk'] at this
      exact this.imp_right fun hq => hall _ ((hstack _).2 hq)
  · rw [unmarked_setSlot, ← hunmarked]
    exact unmarked_le hgrow.marked
  · change s₃.arr_marktable 0 0 = _
    rw [hgrow.tables, ← hs₂, setTable_eq, Function.update_of_ne (by omega)]
    exact congrFun (congrFun htable 0) 0

theorem beyond_iff {x : U64} (hN : scounter x = N) (hlt : 64 * N < 2 ^ 32) : beyond x len = true ↔ len ≤ 64 * N := by
  rw [beyond, decide_eq_true_iff, hN, show arrEntriesPerBit = 64 from rfl, ge_iff_le, Nat.mod_eq_of_lt (by omega), Nat.mul_comm]

/-- All chunks in turn. -/
theorem ends_traceChunks (hheap : Chunks heapmem) (hgraph : Graph heapmem s₀) (hv : v < 2 ^ 32) (harr : ArrayRoot heapmem s₀ R len W)
    (h : Between heapmem s₀ R v 0 W s) (ht : Taken v 0 (s.arr_marktable 0))
    (hfuel : 2 * unmarked heapmem s + 64 < fuel) (hfuel' : len / 64 < fuel) :
    Ends (traceChunks i fuel 0 len (Stamp.empty v)) s fun _ s' => Between heapmem s₀ R v (len / 64) W s' := by
  have hdvd := harr.dvd
  have hlen := harr.lt
  refine ends_iter (fun _ s' => ∃ N, 64 * N ≤ len ∧ Between heapmem s₀ R v N W s' ∧ Taken v N (s'.arr_marktable 0) ∧
      unmarked heapmem s' ≤ unmarked heapmem s) (fun _ s' => len / 64 - scounter (s'.arr_marktable 0 0))
    (fun _ s' hJ => ?_) (by omega) ⟨0, by omega, h, ht, le_refl _⟩
  obtain ⟨N, hle, hB, htaken, hu⟩ := hJ
  have hcur := isCurPhase_of_hi hv htaken.stamp
  refine ends_bind.2 ?_
  rw [get_arr_chunk]
  refine ends_bind.2 (ends_load.2 ?_)
  by_cases hend : len ≤ 64 * N
  · rw [if_pos ((beyond_iff htaken.count (by omega)).2 hend)]
    refine ends_ret.2 (ends_ret.2 ?_)
    obtain rfl : N = len / 64 := by omega
    exact hB
  · have hb : ¬ beyond (s'.arr_marktable 0 0) len = true := fun hb => hend ((beyond_iff htaken.count (by omega)).1 hb)
    rw [if_neg hb, if_neg (by simp [hcur])]
    refine ends_bind.2 (ends_atomic.2 ?_)
    rw [if_neg hb, if_neg (by simp [hcur])]
    have hchunk : (s'.arr_marktable 0 0).toNat % 2 ^ 31 = N := by
      have hcount := htaken.count
      unfold scounter at hcount
      omega
    refine ends_ret.2 ?_
    simp only [hchunk]
    have hB' : Between heapmem s₀ R v N W (s'.setTable 0 0 (s'.arr_marktable 0 0 + 1)) := by
      refine ⟨hB.tracing.setTable (ArrayRoot.scounter_succ (by rw [htaken.count]; omega)).1, ?_, hB.done⟩
      rw [setTable_eq]
      exact hB.signed.take _
    have htaken' : Taken v (N + 1) ((s'.setTable 0 0 (s'.arr_marktable 0 0 + 1)).arr_marktable 0) := by
      rw [setTable_eq]
      exact htaken.succ (by omega)
    have hu' : unmarked heapmem (s'.setTable 0 0 (s'.arr_marktable 0 0 + 1)) ≤ unmarked heapmem s := hu
    refine ends_bind.2 ((ends_traceChunk hheap hgraph hv harr (by omega) hB' (by omega)).mono fun _ s'' hs => ends_ret.2 ?_)
    obtain ⟨hB'', hu'', hcounter⟩ := hs
    have htaken'' : Taken v (N + 1) (s''.arr_marktable 0) := ⟨by rw [hcounter]; exact htaken'.stamp, by rw [hcounter]; exact htaken'.count⟩
    refine ⟨⟨N + 1, by omega, hB'', htaken'', hu''.trans hu'⟩, ?_⟩
    rw [htaken.count, htaken''.count]
    omega

/-- The helping pass finds nothing to do. -/
theorem ends_finishTraceArr (hv : v < 2 ^ 32) (hW : len ≤ 2048 * W) (h : Signed v (len / 64) W (s.arr_marktable 0)) :
    Ends (finishTraceArr i fuel 0 len (Stamp.empty v)) s fun _ s' => s' = s := by
  refine ends_bind.2 ((ends_anyEach (fun ws s' => (∀ w ∈ ws, w < len / 64 / 32) ∧ s' = s) (fun w ws s' hJ => ?_)
    ⟨fun w hw => List.mem_range.1 hw, rfl⟩).mono fun _ s' h => ends_ret.2 h.2.2)
  obtain ⟨hws, rfl⟩ := hJ
  have hw := hws w List.mem_cons_self
  have hfull := h.full (w := w) (by omega) (by omega)
  refine ends_bind.2 (ends_load.2 ?_)
  rw [if_neg (by simp [isCurPhase_of_hi hv (h w (by omega)).1]), if_pos hfull]
  exact ends_ret.2 ⟨rfl, fun w' hw' => hws w' (List.mem_cons_of_mem w hw'), rfl⟩

/-- Everything the array points to is marked. -/
theorem ends_traceArr (hheap : Chunks heapmem) (hgraph : Graph heapmem s₀) (hv : v < 2 ^ 32) (harr : ArrayRoot heapmem s₀ R len W)
    (hver : (s.locals i).localVer = v) (h : Between heapmem s₀ R v 0 W s) (ht : Taken v 0 (s.arr_marktable 0))
    (hfuel : 2 * unmarked heapmem s + 64 < fuel) (hfuel' : len / 64 < fuel) :
    Ends (traceArr i fuel 0 len) s fun _ s' => Tracing heapmem s₀ R v (fun _ => False) s' ∧
      ∀ k < len, s₀.roots 0 k = NULL ∨ Marked s' (s₀.roots 0 k) := by
  refine ends_bind.2 (ends_load.2 ?_)
  rw [hver, makeSC_zero]
  refine ends_bind.2 ((ends_traceChunks hheap hgraph hv harr h ht hfuel hfuel').mono fun _ s' hs => ?_)
  refine ends_bind.2 ((ends_finishTraceArr hv harr.table hs.signed).mono fun _ s'' he => ends_emit.2 ?_)
  subst he
  have hdvd := harr.dvd
  exact ⟨hs.tracing, fun k hk => hs.done k (by omega)⟩

end OptimisticAccess.AOA.Solo
