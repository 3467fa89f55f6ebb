import OptimisticAccess.AOA.Clear
import OptimisticAccess.AOA.Solo.Trace
import OptimisticAccess.AOA.Stamps

/-!
# The start of a phase with one thread

The thread is the one that starts the phase, so `Reclamation` does not answer `-1`, and it clears
every mark word and every word of the table of the first root.
-/

namespace OptimisticAccess.AOA.Solo

open Conc Prog

variable {heapmem rootLen : List Nat} {s₀ s : Mem 1} {i : Fin 1} {v fuel len : Nat} {p q : Ptr}

/-! ## Mark words -/

theorem Obj.isHeader (hheap : Chunks heapmem) (h : Obj heapmem p) : IsHeader heapmem (markWord p.addr) := by
  obtain ⟨c, hc, j, hj, -, hlt⟩ := h.payload.exists_index hheap
  have hword := (Sizes.mark_index (hheap.aligned c hc) hlt).1
  rw [← hj, (repository_mark p.addr).1] at hword
  refine ⟨c, hc, j / 32, ?_, hword⟩
  have hle := Sizes.word_lt_header hlt
  rw [show headerSize = repository.headerSize from rfl]
  unfold wordSize at hle ⊢
  omega

/-- A family of stamped words in the memory. -/
structure Words where
  get : Mem 1 → Nat → U64
  put : Mem 1 → (Nat → U64) → Mem 1
  get_put : ∀ s ws, get (put s ws) = ws
  put_put : ∀ s ws ws', put (put s ws) ws' = put s ws'
  put_get : ∀ s, put s (get s) = s

def markWords : Words where
  get s := s.marks
  put s ws := { s with marks := ws }
  get_put _ _ := rfl
  put_put _ _ _ := rfl
  put_get _ := rfl

/-- The table of the first root. -/
def rootTable : Words where
  get s := s.arr_marktable 0
  put s ws := { s with arr_marktable := Function.update s.arr_marktable 0 ws }
  get_put s ws := Function.update_self 0 ws s.arr_marktable
  put_put s _ _ := congrArg (fun t => { s with arr_marktable := t }) (Function.update_idem ..)
  put_get s := congrArg (fun t => { s with arr_marktable := t }) (Function.update_eq_self ..)

theorem rootTable_of_ne {r : Nat} {ws : Nat → U64} (hr : r ≠ 0) : (rootTable.put s ws).arr_marktable r = s.arr_marktable r := by
  change Function.update s.arr_marktable 0 ws r = _
  rw [Function.update_of_ne hr]

/-- Those words of `X` that had the number of an earlier phase are empty. -/
structure Emptied (W : Words) (s₀ : Mem 1) (v : Nat) (X : Nat → Prop) (s : Mem 1) : Prop where
  frame : ∃ ws, s = W.put s₀ ws
  same : ∀ h, W.get s h = W.get s₀ h ∨ W.get s h = Stamp.empty v
  done : ∀ h, X h → Stamp.hi (W.get s₀ h) < v → W.get s h = Stamp.empty v

variable {W : Words} {X Y : Nat → Prop}

theorem Emptied.refl : Emptied W s v (fun _ => False) s :=
  ⟨⟨W.get s, (W.put_get s).symm⟩, fun _ => .inl rfl, fun _ h => h.elim⟩

theorem Emptied.mono (h : Emptied W s₀ v X s) (hXY : ∀ h, Y h → X h) : Emptied W s₀ v Y s :=
  ⟨h.frame, h.same, fun a ha => h.done a (hXY a ha)⟩

/-- One word. -/
theorem Emptied.word (hv : v < 2 ^ 32) (h : Emptied W s₀ v X s) (a : Nat) (hfuel : 0 < fuel) :
    Ends (clearWord fuel (W.get · a) (fun w s => W.put s (Function.update (W.get s) a w)) (Stamp.empty v)) s
      fun _ => Emptied W s₀ v fun h => X h ∨ h = a := by
  refine ArrayRoot.ends_clearWord hfuel (fun hle => ⟨h.frame, h.same, fun b hb hlt => ?_⟩) fun hle => ⟨?_, fun b => ?_, fun b hb hlt => ?_⟩
  · obtain hb | rfl := hb
    · exact h.done b hb hlt
    · refine (h.same b).resolve_left fun he => ?_
      rw [he, Stamp.empty_le_iff, Nat.mod_eq_of_lt hv] at hle
      omega
  · obtain ⟨ws, rfl⟩ := h.frame
    exact ⟨_, W.put_put ..⟩
  · rw [W.get_put]
    by_cases hb : b = a
    · subst hb
      exact .inr (Function.update_self ..)
    · rw [Function.update_of_ne hb]
      exact h.same b
  · rw [W.get_put]
    by_cases hba : b = a
    · subst hba
      exact Function.update_self ..
    · rw [Function.update_of_ne hba]
      exact h.done b (hb.resolve_right hba) hlt

/-- Every word of every header is emptied. -/
theorem ends_clearMarks (hv : v < 2 ^ 32) (hheapmem : s.heapmem = heapmem) (hfuel : 0 < fuel) :
    Ends (clearMarks i fuel v) s fun _ => Emptied markWords s v (IsHeader heapmem) := by
  refine ends_bind.2 (ends_load.2 ?_)
  rw [hheapmem]
  have hturn : ∀ k < headerSize / wordSize, (i.val * (headerSize / wordSize / 1) + k) % (headerSize / wordSize) = k := fun k hk => by
    rw [Nat.lt_one_iff.1 i.isLt, Nat.zero_mul, Nat.zero_add, Nat.mod_eq_of_lt hk]
  unfold IsHeader
  revert hturn
  generalize headerSize / wordSize = t
  intro hturn
  refine (ends_forEach (fun cs s' => Emptied markWords s v (fun h => ∃ c ∈ heapmem, c ∉ cs ∧ ∃ k < t, h = c + wordSize * k) s')
    (fun c cs s' hs' => ?_) heapmem (Emptied.refl.mono fun h hh => ?_)).mono fun _ s' hs' => hs'.mono fun h hh => ?_
  · refine (ends_forRange (fun m s' => Emptied markWords s v (fun h => (∃ c' ∈ heapmem, c' ∉ c :: cs ∧ ∃ k < t, h = c' + wordSize * k) ∨
      ∃ k < m, h = c + wordSize * k) s') (fun k hk s'' hs'' => ?_) (hs'.mono fun h hh => ?_)).mono fun _ s'' hs'' => hs''.mono fun h hh => ?_
    · rw [hturn k hk]
      refine (hs''.word hv _ hfuel).mono fun _ s''' hs''' => hs'''.mono fun h hh => ?_
      obtain hh | ⟨k', hk', rfl⟩ := hh
      · exact .inl (.inl hh)
      · obtain hlt | rfl := Nat.lt_succ_iff_lt_or_eq.1 hk'
        · exact .inl (.inr ⟨k', hlt, rfl⟩)
        · exact .inr rfl
    · exact hh.resolve_right fun ⟨k, hk, _⟩ => absurd hk (Nat.not_lt_zero k)
    · obtain ⟨c', hc', hn, k, hk, rfl⟩ := hh
      by_cases he : c' = c
      · exact .inr ⟨k, hk, he ▸ rfl⟩
      · exact .inl ⟨c', hc', fun hmem => hn ((List.mem_cons.1 hmem).resolve_left he), k, hk, rfl⟩
  · obtain ⟨c, hc, hn, -⟩ := hh
    exact absurd hc hn
  · obtain ⟨c, hc, k, hk, rfl⟩ := hh
    exact ⟨c, hc, List.not_mem_nil, k, hk, rfl⟩

/-! ## The table of the first root -/

/-- Whichever arrays there are, what is emptied is the table of the first root. -/
theorem ends_clearRootsMark (hv : v < 2 ^ 32) (hver : (s.locals i).localVer = v) (hfuel : 0 < fuel) :
    Ends (clearRootsMark i fuel) s fun _ => Emptied rootTable s v fun k => ∃ len ∈ s.rootLen, len ≠ 1 ∧ k ≤ tableBits len := by
  refine ends_bind.2 (ends_load.2 ?_)
  -- an array is done when its length is no longer in the list
  refine (ends_forEach (fun lens => Emptied rootTable s v fun k => ∃ len ∈ s.rootLen, len ∉ lens ∧ len ≠ 1 ∧ k ≤ tableBits len)
    (fun len lens s' hs' => ?_) s.rootLen (Emptied.refl.mono ?_)).mono fun _ s' hs' => hs'.mono ?_
  · have hrest : ∀ {len' : Nat}, len' ∉ lens → len' ≠ len → len' ∉ len :: lens := fun hn hne hmem => hn ((List.mem_cons.1 hmem).resolve_left hne)
    by_cases h1 : len = 1
    · rw [if_neg (not_not.2 h1)]
      refine ends_ret.2 (hs'.mono ?_)
      rintro k ⟨len', hmem, hn, h1', hk⟩
      exact ⟨len', hmem, hrest hn fun e => h1' (e.trans h1), h1', hk⟩
    · rw [if_pos h1]
      have hver' : (s'.locals i).localVer = v := by
        obtain ⟨ws, rfl⟩ := hs'.frame
        exact hver
      refine ends_bind.2 (ends_load.2 ?_)
      rw [hver']
      refine (ends_forRange (fun m => Emptied rootTable s v fun k =>
          (∃ len' ∈ s.rootLen, len' ∉ len :: lens ∧ len' ≠ 1 ∧ k ≤ tableBits len') ∨ k < m)
        (fun k hk s₁ hs₁ => (hs₁.word hv k hfuel).mono fun _ s₂ hs₂ => hs₂.mono fun j hj => ?_) (hs'.mono fun j hj => ?_)).mono fun _ s₁ hs₁ =>
        hs₁.mono fun j hj => ?_
      · obtain hj | hj := hj
        · exact .inl (.inl hj)
        · obtain hlt | rfl := Nat.lt_succ_iff_lt_or_eq.1 hj
          · exact .inl (.inr hlt)
          · exact .inr rfl
      · exact hj.resolve_right (Nat.not_lt_zero j)
      · obtain ⟨len', hmem, hn, h1', hj⟩ := hj
        by_cases he : len' = len
        · exact .inr (Nat.lt_succ_of_le (he ▸ hj))
        · exact .inl ⟨len', hmem, hrest hn he, h1', hj⟩
  · rintro k ⟨len, hmem, hn, -⟩
    exact hn hmem
  · rintro k ⟨len, hmem, h1, hk⟩
    exact ⟨len, hmem, List.not_mem_nil, h1, hk⟩

/-! ## `Reclamation` -/

/-- The numbers of a quiescent allocator in phase `v`. -/
structure Phase (heapmem rootLen : List Nat) (v : Nat) (s : Mem 1) : Prop where
  heapmem_eq : s.heapmem = heapmem
  rootLen_eq : s.rootLen = rootLen
  entrySize : s.entrySize = nodeSize
  phase : s.phase = v
  ver : s.head.ver = v
  localVer : ∀ i, (s.locals i).localVer = v
  sweep : phaseOf s.sweep_counter = v
  dirty : ∀ i, (s.dirties i).dirtyNphase.toNat < (v + 2) * 2 ^ 8
  marks : ∀ p, Obj heapmem p → Stamp.hi (s.marks (markWord p.addr)) ≤ v
  table : ∀ k, Stamp.hi (s.arr_marktable 0 k) ≤ v
  others : ∀ r, r ≠ 0 → ∀ k, Stamp.hi (s.arr_marktable r k) = 0

/-- The hazard pointers that are set. -/
def hazards (s : Mem 1) : List Ptr :=
  [(s.dirties ⟨0, Nat.one_pos⟩).HPs 0, (s.dirties ⟨0, Nat.one_pos⟩).HPs 1, (s.dirties ⟨0, Nat.one_pos⟩).HPs 2].filter (· ≠ NULL)

/-- The memory in which the collection for phase `v` works. -/
def reclaimed (s : Mem 1) (v : Nat) : Mem 1 :=
  { s with
    phase := v
    head := ⟨none, v⟩
    dirties := fun i => { s.dirties i with dirtyNphase := BitVec.ofNat 64 v <<< 8 ||| 1#64 }
    locals := fun i => { s.locals i with localVer := v } }

theorem setDirty_eq (f : DirtyRecord → DirtyRecord) : s.setDirty i f = { s with dirties := fun j => f (s.dirties j) } := by
  have hdirties : Function.update s.dirties i (f (s.dirties i)) = fun j => f (s.dirties j) := by
    funext j
    rw [Subsingleton.elim j i, Function.update_self]
  rw [Mem.setDirty, hdirties]

theorem ends_readHead : Ends (readHead : P 1 VerEntry) s fun r s' => r = s.head ∧ s' = s :=
  ends_bind.2 (ends_load.2 (ends_bind.2 (ends_load.2 (ends_ret.2 ⟨rfl, rfl⟩))))

/-- The old pool is dropped at the first try. -/
theorem ends_resetHead {newhead : VerEntry} (hver : s.head.ver = (s.locals i).localVer) (hnew : newhead.ver ≠ (s.locals i).localVer)
    (hfuel : 1 < fuel) : Ends (resetHead i fuel newhead) s fun _ s' => s' = { s with head := newhead } := by
  obtain ⟨fuel, rfl⟩ : ∃ m, fuel = m + 1 + 1 := ⟨fuel - 2, by omega⟩
  refine ends_bind.2 (ends_readHead.mono fun oldhead s₁ hs₁ => ?_)
  obtain ⟨rfl, rfl⟩ := hs₁
  rw [iter]
  refine ends_bind.2 (ends_bind.2 (ends_load.2 ?_))
  rw [if_pos hver]
  refine ends_bind.2 (ends_cas (fun _ => ends_bind.2 (ends_readHead.mono ?_)) fun hne => absurd rfl hne)
  rintro _ _ ⟨rfl, rfl⟩
  refine ends_ret.2 ?_
  dsimp only
  rw [iter]
  refine ends_bind.2 (ends_bind.2 (ends_load.2 ?_))
  rw [if_neg hnew]
  exact ends_ret.2 (ends_ret.2 rfl)

theorem ends_foldEach_finRange {γ : Type} {body : γ → Fin 1 → P 1 γ} {c : γ} {Q : γ → Mem 1 → Prop} (h : Ends (body c ⟨0, Nat.one_pos⟩) s Q) :
    Ends (foldEach body c (List.finRange 1)) s Q := by
  have hrange : List.finRange 1 = [⟨0, Nat.one_pos⟩] := by decide
  rw [hrange]
  exact ends_bind.2 (h.mono fun _ _ hQ => ends_ret.2 hQ)

theorem ends_forEach_finRange {body : Fin 1 → P 1 Unit} {Q : Unit → Mem 1 → Prop} (h : Ends (body ⟨0, Nat.one_pos⟩) s Q) :
    Ends (forEach body (List.finRange 1)) s Q := by
  have hrange : List.finRange 1 = [⟨0, Nat.one_pos⟩] := by decide
  rw [hrange]
  exact ends_bind.2 (h.mono fun _ _ hQ => ends_ret.2 hQ)

/-- The thread that starts a phase warns itself. -/
theorem ends_warn {dNp dNpd : U64} (hlt : ¬ dNp ≤ (s.dirties i).dirtyNphase) (hle : dNp ≤ dNpd) :
    Ends (warn dNp dNpd i) s fun _ s' => s' = s.setDirty i ({ · with dirtyNphase := dNpd }) := by
  refine ends_bind.2 (ends_load.2 ?_)
  rw [if_neg hlt]
  refine ends_bind.2 (ends_cas (fun _ => ends_bind.2 (ends_load.2 ?_)) fun hne => absurd rfl hne)
  rw [if_pos]
  · exact ends_ret.2 rfl
  · rw [setDirty_eq]
    exact hle

theorem ends_readHPs : Ends (readHPs [] ⟨0, Nat.one_pos⟩) s fun r s' => r = hazards s ∧ s' = s :=
  ends_bind.2 (ends_watch.2 (ends_bind.2 (ends_watch.2 (ends_bind.2 (ends_watch.2 (ends_ret.2 ⟨rfl, rfl⟩))))))

theorem ends_Reclamation (h : Phase heapmem rootLen v s) (hv : v + 2 < 2 ^ 31) (hfuel : 1 < fuel) :
    Ends (Reclamation i fuel) s fun r s' => r = some (hazards s) ∧ s' = reclaimed s (v + 2) := by
  refine ends_bind.2 (ends_load.2 (ends_bind.2 ?_))
  rw [h.localVer]
  refine ends_cas (fun _ => ?_) fun hne => absurd h.phase hne
  rw [defined, if_pos hv, toInt32_eq_iff.2 hv]
  refine ends_bind.2 (ends_ret.2 (ends_bind.2 ((ends_resetHead (s := { s with phase := v + 2 }) (h.ver.trans (congrArg Int.ofNat (h.localVer i).symm)) ?_ hfuel).mono
    fun _ s₁ hs₁ => ?_)))
  · change ((v + 2 : Nat) : Int) ≠ ((s.locals i).localVer : Int)
    rw [h.localVer]
    omega
  subst hs₁
  refine ends_bind.2 (ends_store.2 (ends_bind.2 (ends_load.2 (ends_bind.2 (ends_load.2 ?_)))))
  rw [setLocal_eq]
  dsimp only
  simp only [h.localVer, ne_eq, not_true_eq_false, if_false]
  refine ends_bind.2 (ends_forEach_finRange ((ends_warn ?_ ?_).mono fun _ s₂ hs₂ => ends_bind.2 (ends_foldEach_finRange (ends_readHPs.mono ?_))))
  · rw [BitVec.le_def, Stamps.toNat_dNp hv, not_le]
    exact h.dirty _
  · rw [BitVec.le_def, Stamps.toNat_dNp hv, Stamps.toNat_dNpd hv]
    exact Nat.le_succ _
  · subst hs₂
    rintro _ _ ⟨rfl, rfl⟩
    refine ends_bind.2 (ends_emit.2 (ends_ret.2 ⟨?_, ?_⟩))
    · rw [setDirty_eq]
      rfl
    · rw [setDirty_eq, reclaimed]

/-! ## What a trace finds -/

/-- Pointers lead to objects. -/
structure Pointers (heapmem : List Nat) (s : Mem 1) : Prop where
  graph : Graph heapmem s
  root : ∀ p, Honoured s (hazards s) p → Obj heapmem p

/-- A root is a word or an array. -/
def Lens (rootLen : List Nat) : Prop := ∀ len ∈ rootLen, len ≠ 1 → len % 64 = 0 ∧ len < 2 ^ 31

/-- The memory after the clearing for phase `v`. -/
structure Prepared (heapmem : List Nat) (s₀ : Mem 1) (v : Nat) (s : Mem 1) : Prop where
  frame : ∃ marks table, s = { reclaimed s₀ v with marks := marks, arr_marktable := Function.update s₀.arr_marktable 0 table }
  cleared : Cleared heapmem s v
  rooted : Rooted heapmem s (hazards s₀) v
  table : ∀ k, Stamp.hi (s.arr_marktable 0 k) ≤ v

theorem ends_prepare (hheap : Chunks heapmem) (h : Phase heapmem rootLen v s) (hlens : Lens rootLen) (hp : Pointers heapmem s)
    (hv : v + 2 < 2 ^ 32) (hfuel : 0 < fuel) :
    Ends (clearMarks i fuel (v + 2) >>= fun _ => clearRootsMark i fuel) (reclaimed s (v + 2)) fun _ => Prepared heapmem s (v + 2) := by
  refine ends_bind.2 ((ends_clearMarks (s := reclaimed s (v + 2)) hv h.heapmem_eq hfuel).mono fun _ s₁ hs₁ => ?_)
  obtain ⟨marks, rfl⟩ := hs₁.frame
  refine (ends_clearRootsMark hv rfl hfuel).mono fun _ s₂ hs₂ => ?_
  obtain ⟨table, rfl⟩ := hs₂.frame
  have hdone : ∀ {len k}, s.rootLen[0]? = some len → len ≠ 1 → k ≤ tableBits len →
      (rootTable.put (markWords.put (reclaimed s (v + 2)) marks) table).arr_marktable 0 k = Stamp.empty (v + 2) := fun h0 h1 hk =>
    hs₂.done _ ⟨_, List.mem_of_getElem? h0, h1, hk⟩ (Nat.lt_of_le_of_lt (h.table _) (by omega))
  refine ⟨⟨marks, table, rfl⟩, ⟨fun p hp => ?_, fun _ => rfl⟩, ⟨hp.root, fun len hlen => hlens len (h.rootLen_eq ▸ hlen), fun len h0 h1 => ⟨⟨?_, ?_⟩, fun w hw => ?_⟩,
    fun r hr k => ?_⟩, fun k => ?_⟩
  · exact hs₁.done _ (hp.isHeader hheap) (Nat.lt_of_le_of_lt (h.marks p hp) (by omega))
  · rw [hdone h0 h1 (Nat.zero_le _), Stamp.hi_empty, Nat.mod_eq_of_lt hv]
  · rw [hdone h0 h1 (Nat.zero_le _), scounter, Stamp.toNat_empty]
    omega
  · rw [hdone h0 h1 hw, Stamp.hi_empty, Nat.mod_eq_of_lt hv]
    refine ⟨rfl, fun bit hb => ?_⟩
    rw [Stamp.getLsbD_empty hb]
    rfl
  · rw [rootTable_of_ne hr]
    exact (h.others r hr k).trans_ne (by omega)
  · obtain he | he := hs₂.same k
    · exact (congrArg Stamp.hi he).trans_le ((h.table k).trans (by omega))
    · exact (congrArg Stamp.hi he).trans_le (by rw [Stamp.hi_empty, Nat.mod_eq_of_lt hv])

end OptimisticAccess.AOA.Solo
