import OptimisticAccess.AOA.Solo.Transparent

/-!
# A heap that is full

`palloc` counts the rounds in which a collection has set no dirty bit, but every collection sets that of
its own thread. So a thread that finds nothing to allocate returns `NULL` to `ListInsert`, which starts
again, and the assertion is not reached.
-/

namespace OptimisticAccess.AOA.Solo

open Conc Prog
open Store (Sound At Unlinked Searched Stale)

variable {heapmem rootLen : List Nat} {home : CInt → Nat × Nat} {s s' s₁ : Mem 1} {i : Fin 1} {v fuel a : Nat} {p x : Ptr} {hashOp : Bool}
  {chain chain' : Nat × Nat → List Nat} {b : Nat × Nat} {key data : CInt} {rest : List Nat} {T : Prop} {S : Finset CInt}

/-- The states between the operations of a thread on the list. -/
inductive Reached (heapmem : List Nat) : Mem 1 → Prop where
  | init : Reached heapmem (init_allocator 1 heapmem [1])
  | perform {s s' : Mem 1} {i : Fin 1} {fuel : Nat} {hashOp : Bool} {op : Op} {r : Bool} (hs : Reached heapmem s) (hfuel : collectFuel heapmem [1] < fuel)
      (hrun : (perform hashOp i fuel (.root 0 0) op).run s = some (r, s')) : Reached heapmem s'

/-- `ListInsert` returns, or the heap is reported to have run out. -/
def Reports (s : Mem 1) (key data : CInt) : Prop :=
  ∃ bound, ∀ fuel, bound < fuel → ((ListInsert ⟨0, Nat.one_pos⟩ fuel (.root 0 0) key data).run s).isSome = true ∨
    Emits (.assertFailed .outOfMemory) (ListInsert ⟨0, Nat.one_pos⟩ fuel (.root 0 0) key data) s

/-- Object `x` is in the list no more once a search for `key` has passed. -/
def Spare (s : Mem 1) (key : CInt) (x : Ptr) : Prop :=
  ∃ l, Walk ((store s).cells (0, 0)).succ 0 l ∧ (x.addr ∉ l ∨ Stale (store s) l key.toInt x.addr)

theorem Reached.holds (hheap : Heap heapmem) (h : Reached heapmem s) : ∃ S, Holds heapmem [1] theList S s := by
  induction h with
  | init => exact ⟨∅, holds_init hheap [1] theList⟩
  | @perform s s' i fuel hashOp op r hs hfuel hrun ih =>
    obtain ⟨S, hS⟩ := ih
    exact ⟨op.after S, ((watched_perform ⟨hheap, heads_list.lens, hfuel⟩ heads_list hS).run hrun).2⟩

/-! ## What is reachable -/

theorem Client.length_le (hheap : Heap heapmem) (h : Client heapmem rootLen home v s chain) : (chain b).length ≤ (repository.sweepObjects heapmem).length := by
  have hnodup : (chain b).Nodup := (List.nodup_cons.1 (h.sound.walk b).nodup).2
  exact (hnodup.subperm fun a ha => (h.obj b a ha).payload.mem_sweepObjects (chunks_of_heap hheap)).length_le

/-- Without hazard pointers only the list is reachable. -/
theorem Client.onList (h : Client heapmem [1] theList v s chain) (hbare : hazards s = []) (hx : Reachable s (Honoured s (hazards s)) x) :
    x.addr ∈ chain (0, 0) := by
  have hwalk := h.sound.walk (0, 0)
  rw [hbare] at hx
  have hx' : x.tag = false ∧ x.addr ∈ chain (0, 0) := by
    refine hx.induction (P := fun x => x.tag = false ∧ x.addr ∈ chain (0, 0)) (fun p hp => ?_) fun p q hp hpq => ?_
    · obtain hp | ⟨hne, r, len, hget, -, hword⟩ := hp
      · exact absurd hp List.not_mem_nil
      · rw [h.rootLen_eq] at hget
        have hr : r = 0 := Nat.lt_one_iff.1 (List.getElem?_eq_some_iff.1 hget).1
        subst hr
        obtain rfl : 1 = len := Option.some.inj hget
        obtain ⟨-, rfl⟩ := hword.resolve_right fun hlen => hlen.1 rfl
        refine ⟨rfl, ?_⟩
        obtain h0 | hmem := hwalk.succ_mem List.mem_cons_self
        · exact absurd (Ptr.eq_of_addr rfl rfl h0) hne
        · exact hmem
    · obtain ⟨hne, rfl⟩ := hpq
      refine ⟨rfl, ?_⟩
      have hsucc : ((store s).cells (0, 0)).succ p.addr = (child s p).addr := Store.cells_succ_next (h.sound.ne_zero hp.2)
      obtain h0 | hmem := hwalk.succ_mem (List.mem_cons_of_mem 0 hp.2)
      · exact absurd (Ptr.eq_of_addr rfl rfl (hsucc.symm.trans h0)) hne
      · rwa [hsucc] at hmem
  exact hx'.2

/-- What a collection frees. -/
theorem Client.freed {s₂ : Mem 1} (h : Client heapmem [1] theList v s chain) (hbare : hazards s = []) (hs₂ : Collected heapmem [1] s (v + 2) s₂)
    (haside : Aside s₂ s') : Pooled s' x ↔ Obj heapmem x ∧ x.addr ∉ chain (0, 0) := by
  obtain ⟨L, F, hshelves, -, -, hmem⟩ := hs₂.pool
  rw [haside.pooled, hshelves.pooled, Option.toList_none, List.nil_append, hmem]
  refine and_congr_right fun hx => not_congr ?_
  rw [hs₂.marked x hx]
  refine ⟨h.onList hbare, fun hmem => ?_⟩
  have heq : (⟨x.addr, false⟩ : Ptr) = x := Ptr.eq_of_addr rfl hx.tag rfl
  exact heq ▸ h.reachable heads_list hmem

theorem Found.spare {r : Bool × ThreadLocal × BitVec 64} (h : Found heapmem [1] theList v key s chain r s₁ chain' rest) (hs : Sound theList (store s) chain) :
    x.addr ∈ chain' (0, 0) ↔ ¬ Spare s key x := by
  rw [h.searched.mem_iff hs h.sound h.place h.stop (0, 0) x.addr]
  constructor
  · rintro ⟨hmem, hstale⟩ ⟨l, hl, hspare⟩
    rw [hl.unique (hs.walk (0, 0))] at hspare
    exact hspare.elim (fun hn => hn hmem) hstale
  · intro hspare
    refine ⟨?_, fun hstale => hspare ⟨_, hs.walk (0, 0), .inr hstale⟩⟩
    by_contra hmem
    exact hspare ⟨_, hs.walk (0, 0), .inl hmem⟩

/-! ## An insertion that ends -/

/-- With something in the pool there is no collection. -/
theorem watched_lastRound (hroom : Room heapmem rootLen fuel) (hheads : Heads rootLen home) (hlength : (chain (home key)).length + 1 < fuel)
    (h : Idle heapmem rootLen home v s chain) (hlast : key ∈ (store s).keys home ∨ ∃ x, Pooled s x) :
    Watched False Good (insertRound i fuel (headOf home key) key) s fun r s' => ∃ b chain', r = .inr b ∧ Idle heapmem rootLen home v s' chain' := by
  refine (watched_insertRound hroom hheads (.inr hlength) (fun hnew => .inr (.inr (hlast.resolve_left hnew))) h).mono fun r s' hs' => ?_
  cases hs' with
  | present hfound hr => exact ⟨_, _, rfl, hfound.toIdle⟩
  | linked hidle hpooled hnew hkeys hbare => exact ⟨_, _, rfl, hidle⟩
  | collected hfound hr hempty hphase hcollected haside hidle hbare =>
    obtain hmem | ⟨x, hx⟩ := hlast
    · exact absurd hmem (hfound.absent h.sound hr)
    · exact absurd hx (hempty x)

/-- What `ListInsert` needs to come to its end. -/
def Insertable (heapmem : List Nat) (s : Mem 1) (key : CInt) : Prop :=
  key ∈ (store s).keys theList ∨ (∃ x, Pooled s x) ∨ s.phase + 2 < 2 ^ 31 ∧ ∃ x, Obj heapmem x ∧ Spare s key x

theorem watched_insertable (hroom : Room heapmem [1] fuel) (h : Idle heapmem [1] theList v s chain) (hbare : hazards s = [])
    (hinsertable : Insertable heapmem s key) :
    Watched False Good (ListInsert i fuel (.root 0 0) key data) s fun _ s' => s'.phase ≤ s.phase + 2 := by
  have hfuel : ∀ {v s chain}, Idle heapmem [1] theList v s chain → (chain (theList key)).length + 1 < fuel := fun h => by
    have hle := h.toClient.length_le (b := theList key) hroom.heap
    have hlt := hroom.fuel
    unfold collectFuel traceFuel at hlt
    omega
  obtain ⟨m, hm⟩ : ∃ m, fuel = m + 1 + 1 := ⟨fuel - 2, by have := hroom.fuel_pos; omega⟩
  have hphase : s.phase = v := h.phase
  rw [ListInsert_eq, hm, iter, ← hm]
  rw [Insertable, ← or_assoc] at hinsertable
  obtain hlast | ⟨hv, x, hx, hspare⟩ := hinsertable
  · refine watched_bind.2 ((watched_lastRound hroom heads_list (hfuel h) h hlast).mono ?_)
    rintro r s' ⟨b, chain', rfl, h'⟩
    have hphase' : s'.phase = v := h'.phase
    exact watched_ret.2 (by omega)
  · rw [hphase] at hv
    refine watched_bind.2 ((watched_insertRound hroom heads_list (.inr (hfuel h)) (fun _ => .inr (.inl hv)) h).mono fun r s' hs' => ?_)
    cases hs' with
    | present hfound hr =>
      have hphase' : s'.phase = v := hfound.phase
      exact watched_ret.2 (by omega)
    | linked hidle hpooled hnew hkeys hbare =>
      have hphase' : s'.phase = v := hidle.phase
      exact watched_ret.2 (by omega)
    | collected hfound hr hempty _ hcollected haside hidle hbare' =>
      -- the collection frees `x`
      have hfreed : Pooled s' x := (hfound.toClient.freed (hfound.bare hbare) hcollected haside).2 ⟨hx, fun hmem => (hfound.spare h.sound).1 hmem hspare⟩
      dsimp only
      rw [iter]
      refine watched_bind.2 ((watched_lastRound hroom heads_list (hfuel hidle) hidle (.inr ⟨x, hfreed⟩)).mono ?_)
      rintro r s'' ⟨b, chain'', rfl, h''⟩
      have hphase'' : s''.phase = v + 2 := h''.phase
      exact watched_ret.2 (by omega)

/-! ## An insertion that does not -/

/-- Nothing can be allocated any more, for as long as there are phases. -/
def Stuck (heapmem : List Nat) (key : CInt) (s : Mem 1) : Prop :=
  ∃ v chain, Idle heapmem [1] theList v s chain ∧ hazards s = [] ∧ ¬ Insertable heapmem s key

theorem watched_stuck (hroom : Room heapmem [1] fuel) (h : Stuck heapmem key s) :
    Watched True Good (ListInsert i fuel (.root 0 0) key data) s fun _ _ => False := by
  rw [ListInsert_eq]
  refine watched_iter (fun _ => Stuck heapmem key) (fun _ s hs => ?_) h
  obtain ⟨v, chain, hidle, hbare, hnot⟩ := hs
  obtain ⟨hnew, hempty, hfull⟩ : key ∉ (store s).keys theList ∧ (¬ ∃ x, Pooled s x) ∧ ¬ (s.phase + 2 < 2 ^ 31 ∧ ∃ x, Obj heapmem x ∧ Spare s key x) := by
    rwa [Insertable, not_or, not_or] at hnot
  refine (watched_insertRound hroom heads_list (.inl trivial) (fun _ => .inl trivial) hidle).mono fun r s' hs' => ?_
  cases hs' with
  | present hfound hr => exact hnew (hfound.present hidle.sound hr)
  | linked hidle' hpooled hnew' hkeys hbare' => exact hempty hpooled
  | collected hfound hr hempty' hphase hcollected haside hidle' hbare' =>
    have hstore := haside.store_eq.trans hcollected.store_eq
    have hlinked : ∀ x, Obj heapmem x → ¬ Spare s key x := fun x hx hspare => hfull ⟨by rw [hidle.phase]; exact hphase, x, hx, hspare⟩
    refine ⟨v + 2, _, hidle', hbare', ?_⟩
    rintro (hmem | ⟨x, hx⟩ | ⟨-, x, hx, hspare⟩)
    · rw [hstore, hfound.searched.keys hidle.sound hfound.sound] at hmem
      exact hnew hmem
    · obtain ⟨hobj, hmem⟩ := (hfound.toClient.freed (hfound.bare hbare) hcollected haside).1 hx
      exact hmem ((hfound.spare hidle.sound).2 (hlinked x hobj))
    · obtain ⟨l, hl, hspare⟩ := hspare
      rw [hstore] at hl hspare
      rw [hl.unique (hfound.sound.walk (0, 0))] at hspare
      obtain hout | hstale := hspare
      · exact hout ((hfound.spare hidle.sound).2 (hlinked x hx))
      · exact hlinked x hx ⟨_, hidle.sound.walk (0, 0), .inr (hfound.searched.of_stale hstale)⟩

theorem Reports.insertable (hheap : Heap heapmem) (h : Reached heapmem s) (hreports : Reports s key data) : Insertable heapmem s key := by
  obtain ⟨S, v, chain, hidle, hbare, hkeys⟩ := h.holds hheap
  obtain ⟨bound, hbound⟩ := hreports
  by_contra hnot
  have hroom : Room heapmem [1] (max bound (collectFuel heapmem [1]) + 1) := ⟨hheap, heads_list.lens, Nat.lt_succ_of_le (le_max_right ..)⟩
  have hwatched : Watched True Good (ListInsert ⟨0, Nat.one_pos⟩ _ (.root 0 0) key data) s fun _ _ => False :=
    watched_stuck hroom ⟨v, chain, hidle, hbare, hnot⟩
  obtain hsome | hemits := hbound _ (Nat.lt_succ_of_le (le_max_left ..))
  · obtain ⟨r, hrun⟩ := Option.isSome_iff_exists.1 hsome
    exact hwatched.run hrun
  · exact hwatched.not_emits (fun s s' hgood => hgood.heap rfl) hemits

/-- `ListInsert` reports just when there is something to allocate, or nothing to insert. -/
theorem reports_iff (hheap : Heap heapmem) (h : Reached heapmem s) : Reports s key data ↔ Insertable heapmem s key := by
  refine ⟨Reports.insertable hheap h, fun hinsertable => ⟨collectFuel heapmem [1], fun fuel hfuel => .inl ?_⟩⟩
  obtain ⟨S, v, chain, hidle, hbare, hkeys⟩ := h.holds hheap
  have hwatched : Watched False Good (ListInsert ⟨0, Nat.one_pos⟩ fuel (.root 0 0) key data) s _ :=
    watched_insertable ⟨hheap, heads_list.lens, hfuel⟩ hidle hbare hinsertable
  obtain ⟨r, s', hrun, -⟩ := hwatched.ends
  rw [hrun]
  rfl

/-- The start: everything is free. -/
theorem reports_iff_init : Reports (init_allocator 1 [chunkSize] [1]) 7 0 ↔ Insertable [chunkSize] (init_allocator 1 [chunkSize] [1]) 7 :=
  reports_iff heap_one .init

/-! ## A full heap -/

def firstKeys (k : Nat) : Finset CInt := (Finset.range k).image (BitVec.ofNat 32)

theorem not_mem_firstKeys {k : Nat} (hk : k < 2 ^ 32) : BitVec.ofNat 32 k ∉ firstKeys k := by
  intro hmem
  obtain ⟨j, hj, he⟩ := Finset.mem_image.1 hmem
  have hj := Finset.mem_range.1 hj
  have := congrArg BitVec.toNat he
  rw [BitVec.toNat_ofNat, BitVec.toNat_ofNat, Nat.mod_eq_of_lt hk, Nat.mod_eq_of_lt (hj.trans hk)] at this
  omega

theorem firstKeys_succ (k : Nat) : firstKeys (k + 1) = insert (BitVec.ofNat 32 k) (firstKeys k) := by
  rw [firstKeys, Finset.range_add_one, Finset.image_insert]
  rfl

theorem card_firstKeys {k : Nat} (hk : k ≤ 2 ^ 32) : (firstKeys k).card = k := by
  induction k with
  | zero => rfl
  | succ k ih => rw [firstKeys_succ, Finset.card_insert_of_notMem (not_mem_firstKeys hk), ih (by omega)]

/-- A list has at most as many keys as there are objects. -/
theorem Holds.card_le (hheap : Heap heapmem) (h : Holds heapmem [1] theList S s) : S.card ≤ (repository.sweepObjects heapmem).length := by
  obtain ⟨v, chain, hidle, -, hkeys⟩ := h
  have hsub : S ⊆ ((chain (0, 0)).map fun a => getKey ((store s).keyData a)).toFinset := fun key hkey => by
    have hmem : key ∈ (store s).keys theList := by rwa [hkeys, Finset.mem_coe]
    obtain ⟨a, ha, -, he⟩ := hidle.sound.mem_keys.1 hmem
    exact List.mem_toFinset.2 (List.mem_map.2 ⟨a, ha, he⟩)
  have hlength := List.toFinset_card_le ((chain (0, 0)).map fun a => getKey ((store s).keyData a))
  rw [List.length_map] at hlength
  exact (Finset.card_le_card hsub).trans (hlength.trans (hidle.toClient.length_le hheap))

/-- The keys `0`, `1`, ... are inserted for as long as that ends. -/
theorem fill (hheap : Heap heapmem) {k : Nat} (hk : 2 * k + 2 < 2 ^ 31) :
    (∃ s, Reached heapmem s ∧ s.phase ≤ 2 * k ∧ Holds heapmem [1] theList (firstKeys k) s) ∨
      ∃ j < k, ∃ s, Reached heapmem s ∧ s.phase ≤ 2 * j ∧ ¬ Insertable heapmem s (BitVec.ofNat 32 j) := by
  induction k with
  | zero => exact .inl ⟨_, .init, (rest_init hheap [1]).phase.le, holds_init hheap [1] theList⟩
  | succ k ih =>
    obtain ⟨s, hs, hphase, hholds⟩ | ⟨j, hj, hstuck⟩ := ih (by omega)
    · by_cases hinsertable : Insertable heapmem s (BitVec.ofNat 32 k)
      · left
        have hroom : Room heapmem [1] (collectFuel heapmem [1] + 1) := ⟨hheap, heads_list.lens, Nat.lt_succ_self _⟩
        obtain ⟨v, chain, hidle, hbare, -⟩ := id hholds
        have hwatched : Watched False Good (ListInsert ⟨0, Nat.one_pos⟩ (collectFuel heapmem [1] + 1) (.root 0 0) (BitVec.ofNat 32 k) 0) s _ :=
          watched_insertable hroom hidle hbare hinsertable
        obtain ⟨r, s', hrun, hphase'⟩ := hwatched.ends
        have hperform : (perform false ⟨0, Nat.one_pos⟩ (collectFuel heapmem [1] + 1) (.root 0 0) (.insert (BitVec.ofNat 32 k) 0)).run s = some (r, s') := hrun
        obtain ⟨-, hholds'⟩ := (watched_perform hroom heads_list hholds).run hperform
        refine ⟨s', hs.perform (Nat.lt_succ_self _) hperform, by omega, ?_⟩
        rw [firstKeys_succ]
        exact hholds'
      · exact .inr ⟨k, Nat.lt_succ_self k, s, hs, hphase, hinsertable⟩
    · exact .inr ⟨j, hj.trans (Nat.lt_succ_self k), hstuck⟩

/-- One chunk, filled: every object is in the list, and the next `ListInsert` neither returns nor reports. -/
theorem not_reports_full : ∃ s key, Reached [chunkSize] s ∧ (∀ x, Obj [chunkSize] x → OnList s (0, 0) x.addr) ∧ ¬ Reports s key 0 := by
  have hlength := length_sweepObjects [chunkSize]
  rw [List.length_singleton] at hlength
  obtain ⟨s, hs, -, hholds⟩ | ⟨j, hj, s, hs, hphase, hnot⟩ := fill heap_one (k := 16257) (by decide)
  · have hle := hholds.card_le heap_one
    rw [card_firstKeys (by decide), hlength] at hle
    omega
  · refine ⟨s, BitVec.ofNat 32 j, hs, fun x hx => ?_, fun hreports => hnot (hreports.insertable heap_one hs)⟩
    by_contra hout
    obtain ⟨S, v, chain, hidle, -, -⟩ := hs.holds heap_one
    refine hnot (.inr (.inr ⟨by omega, x, hx, _, hidle.sound.walk (0, 0), .inl fun hmem => hout ⟨_, hidle.sound.walk (0, 0), hmem⟩⟩))

theorem not_reports : ¬ ∀ heapmem, Heap heapmem → ∀ s, Reached heapmem s → ∀ key data, Reports s key data := by
  intro hall
  obtain ⟨s, key, hs, -, hnot⟩ := not_reports_full
  exact hnot (hall _ heap_one s hs key 0)

end OptimisticAccess.AOA.Solo
