import OptimisticAccess.MOA.Objects

/-!
# Caches go from thread to thread

The new cache of a thread, the pushes to `reclaim` and `global->head`, and the pop of
`global->head`.
-/

namespace OptimisticAccess.MOA

open Conc

variable {n : Nat} {s s' : Mem n} {g g' g₁ : Ghost n} {i j : Fin n} {a b e d v x k m : Nat} {p : Place n}

/-! ## A cache fresh from `malloc` -/

section Owners

variable {alloc_cache free_cache : Fin n → Option Nat} {brk : Nat} {free : Nat → Nat} {place : Nat → Place n}

theorem Owners.not_raw (ho : Owners alloc_cache free_cache brk free place) (h : place e ≠ .raw) : e ≠ brk := by
  rintro rfl
  exact h ((ho.raw e).2 (le_refl _))

theorem Owners.raw_succ (ho : Owners alloc_cache free_cache brk free place) (hp : p ≠ .raw) (e : Nat) :
    Function.update place brk p e = .raw ↔ brk + 1 ≤ e := by
  by_cases he : e = brk
  · subst he
    rw [Function.update_self]
    exact ⟨fun h => absurd h hp, fun h => by omega⟩
  · rw [Function.update_of_ne he, ho.raw e]
    omega

/-- The new cache is a free cache. -/
theorem Owners.mint_free (ho : Owners alloc_cache free_cache brk free place) (hnone : free_cache i = none) (m : Nat) :
    Owners alloc_cache (Function.update free_cache i (some brk)) (brk + 1) (Function.update free brk m)
      (Function.update place brk (.free i)) := by
  have hne : ∀ {c}, place c ≠ .raw → Function.update place brk (.free i) c = place c := fun h =>
    Function.update_of_ne (ho.not_raw h) ..
  refine ⟨fun j c => ?_, fun j c h => ?_, fun j c h => ?_, ho.raw_succ (by simp)⟩
  · by_cases hc : c = brk
    · subst hc
      rw [Function.update_self]
      by_cases hj : j = i
      · subst hj
        rw [Function.update_self]
        exact ⟨fun _ => rfl, fun _ => rfl⟩
      · rw [Function.update_of_ne hj]
        refine ⟨fun h => absurd (Place.free.inj h).symm hj, fun h => ?_⟩
        exact absurd rfl (ho.not_raw (by rw [(ho.filling j c).2 h]; simp))
    · rw [Function.update_of_ne hc, ho.filling j c]
      by_cases hj : j = i
      · subst hj
        rw [Function.update_self, hnone]
        exact ⟨fun h => (by cases h), fun h => absurd (Option.some.inj h).symm hc⟩
      · rw [Function.update_of_ne hj]
  · have hp := ho.serving j c h
    rw [hne (by rw [hp]; simp)]
    exact hp
  · by_cases hc : c = brk
    · rw [hc, Function.update_self] at h
      cases h
    · rw [Function.update_of_ne hc] at h ⊢
      exact ho.spent j c h

/-- The new cache is an allocation cache. -/
theorem Owners.mint_alloc (ho : Owners alloc_cache free_cache brk free place) (hnone : alloc_cache i = none) (m : Nat) :
    Owners (Function.update alloc_cache i (some brk)) free_cache (brk + 1) (Function.update free brk m)
      (Function.update place brk (.alloc i)) := by
  refine ⟨fun j c => ?_, fun j c h => ?_, fun j c h => ?_, ho.raw_succ (by simp)⟩
  · by_cases hc : c = brk
    · subst hc
      rw [Function.update_self]
      refine ⟨fun h => (by cases h), fun h => ?_⟩
      exact absurd rfl (ho.not_raw (by rw [(ho.filling j c).2 h]; simp))
    · rw [Function.update_of_ne hc]
      exact ho.filling j c
  · by_cases hj : j = i
    · subst hj
      rw [Function.update_self] at h
      rw [← Option.some.inj h, Function.update_self]
    · rw [Function.update_of_ne hj] at h
      have hp := ho.serving j c h
      rw [Function.update_of_ne (ho.not_raw (by rw [hp]; simp))]
      exact hp
  · by_cases hc : c = brk
    · rw [hc, Function.update_self] at h
      obtain rfl : i = j := Place.alloc.inj h
      exact .inl (by rw [hc, Function.update_self])
    · rw [Function.update_of_ne hc] at h ⊢
      by_cases hj : j = i
      · subst hj
        exact .inr ((ho.spent j c h).resolve_left (by rw [hnone]; exact (Option.some_ne_none c).symm))
      · rw [Function.update_of_ne hj]
        exact ho.spent j c h

end Owners

/-- `obj` becomes the only object of a new cache. -/
theorem Shape.mint (hs : Shape s g) (hw : ¬ g.window i) (hfit : Fits i (g.spot a) p)
    (hmem : s' = { s with next := s'.next, free := s'.free, ptrs := s'.ptrs, brk := s'.brk, alloc_cache := s'.alloc_cache, free_cache := s'.free_cache })
    (hnext : ∀ c ≠ s.brk, s'.next c = s.next c) (hfree : ∀ c ≠ s.brk, s'.free c = s.free c)
    (hptrs : ∀ c ≠ s.brk, s'.ptrs c = s.ptrs c) (hone : s'.free s.brk = 1) (hptr : s'.ptrs s.brk 0 = ⟨a, false⟩)
    (halloc : ∀ j, j ≠ i → s'.alloc_cache j = s.alloc_cache j) (hcache : ∀ j, j ≠ i → s'.free_cache j = s.free_cache j)
    (howners : Owners s'.alloc_cache s'.free_cache s'.brk s'.free (Function.update g.place s.brk p)) :
    Shape s' ((g.file s.brk p).move a (.cached s.brk)) ∧ Trans i s g s' ((g.file s.brk p).move a (.cached s.brk)) := by
  have hst := hs.stock
  obtain ⟨hown, howna, hlo, hkept, huse, hdue, hshared, -, haway, hlinked, hcached, hkepta⟩ := hfit.spec
  have hraw : g.place s.brk = .raw := (hs.owners.raw s.brk).2 (le_refl _)
  have hempty : ∀ b, g.spot b ≠ .cached s.brk := fun b hb => by
    have := hst.inUse s.brk b hb
    rw [hraw] at this
    exact this
  have hother : ∀ y : Spot n, y ≠ .cached s.brk → y ≠ g.spot a →
      ((g.file s.brk p).move a (.cached s.brk)).objects y = g.objects y := fun y h1 h2 =>
    objects_move_of_ne (g := g.file s.brk p) h1.symm h2.symm
  have hl : Listed s g s' ((g.file s.brk p).move a (.cached s.brk)) := by
    refine .shift (by rw [hmem]; rfl) (by rw [hmem]) (by rw [hmem]) rfl (retired_file_of_empty hempty) (fun c h => ?_)
      (by simp) hlinked ?_ ?_ fun j hj => ⟨by simp, fun h => ?_⟩
    · rw [hdue] at h
      cases h
    · refine Fits.retires (g := g.file s.brk p) (x := g.spot a) (i := i) ?_
      rw [file_place_self]
      exact hfit
    · rintro c h
      cases h
      rw [file_place_self]
      exact hdue
    · rw [h] at howna
      exact hw (Option.some.inj howna ▸ hj)
  have hother_i : ∀ {q : Option (Fin n)}, q = some i → ∀ j, j ≠ i → q ≠ some j := by
    rintro q rfl j hj h
    exact hj (Option.some.inj h).symm
  have htouch : Touch i {s.brk} {a} s g s' ((g.file s.brk p).move a (.cached s.brk)) := by
    refine .shift (p := p) (x := .cached s.brk) rfl hnext hfree hptrs (fun j _ h => ?_) (hother_i hown) (hother_i howna)
      (fun j _ h => by cases h) halloc hcache (by rw [hmem]) (by rw [hmem])
    rw [hraw] at h
    cases h
  have hne : ∀ c ∉ ({s.brk} : Set Nat), ((g.file s.brk p).move a (.cached s.brk)).place c = g.place c := fun c hc =>
    file_place_of_ne hc
  have hself : ((g.file s.brk p).move a (.cached s.brk)).place s.brk = p := file_place_self
  have hstock : Stock s'.free s'.ptrs ((g.file s.brk p).move a (.cached s.brk)) := by
    refine hst.frame (E := {s.brk}) hne hfree hptrs (fun c hc => hother _ (fun h => hc (Spot.cached.inj h)) (hcached c).symm)
      (fun c _ => hother _ (by simp) (hkepta c).symm) ?_ ?_ ?_ ?_ ?_
    · rintro c rfl -
      rw [hone]
      exact Nat.le_of_ble_eq_true rfl
    · rintro c rfl j d' x' k' h
      rw [hself] at h
      subst h
      change x' = 0 at hlo
      change k' = 0 at hkept
      omega
    · rintro c rfl -
      have hnew := (Slots.empty (f := s'.ptrs s.brk) (le_refl 0)).push (le_refl 0) (Set.notMem_empty (⟨a, false⟩ : Ptr))
      have hnone : (g.file s.brk p).objects (.cached s.brk) = ∅ := Set.eq_empty_of_forall_notMem fun q hq => hempty q.addr hq.2
      rw [hself, hlo, hone, objects_move_in, hnone]
      refine hnew.congr fun j _ hj => ?_
      obtain rfl : j = 0 := by omega
      rw [Function.update_self]
      exact hptr
    · rintro c rfl
      have hkeep := hst.kept s.brk
      rw [hraw] at hkeep
      rw [hself, hkept, hother _ (by simp) (hkepta _).symm]
      exact hkeep.congr fun j _ hj => absurd hj (Nat.not_lt_zero j)
    · rintro c rfl b _
      rw [hself]
      exact huse
  have hsupply : Supply s.spare s.spares ((g.file s.brk p).move a (.cached s.brk)).spot := by
    refine hs.supply.frame fun b hb => ?_
    rw [move_spot_of_ne]
    · exact hb
    · rintro rfl
      exact haway hb
  have hclock : Clock s.reclaim s.toProcess s.localVer ((g.file s.brk p).move a (.cached s.brk)).place := by
    refine hs.clock.frame (E := {s.brk}) ?_ ?_ hne
    · rintro c rfl d' h
      rw [hself] at h
      exact absurd (by rw [h]; trivial) hshared
    · rintro c rfl j d' x' k' h
      rw [hself] at h
      rw [h] at hdue
      cases hdue
  have hqueues : Queues s.reclaim s.toProcess s.head s'.next ((g.file s.brk p).move a (.cached s.brk)).place g.fill g.batch g.pool := by
    refine hs.queues.frame (E := {s.brk}) ?_ hne hnext
    rintro c rfl
    rw [hself, hraw]
    exact ⟨id, hshared⟩
  refine ⟨hs.shelve hl ?_ ?_ ?_ howners hstock ?_, htouch.trans hl ?_ ?_ ?_⟩
  · rw [hmem]
  · rw [hmem]; exact hclock
  · rw [hmem]; exact hqueues
  · rw [hmem]; exact hsupply
  · rw [hmem]; exact .refl _ _
  · rintro c rfl
    rw [hself, hraw]
    exact Nat.zero_le _
  · rintro c rfl _ _ h
    exact absurd hraw h

/-! ## A push to `reclaim` -/

section Queue

variable {r t : VerEntry} {place : Nat → Place n} {hd : Option Nat} {next : Nat → Option Nat}
  {fill batch pool rest : List Nat}

/-- A list does not change as long as the cache is not, and will not be, on it. -/
theorem mem_update_iff {l : List Nat} (φ : Place n → Prop) (hl : ∀ c, c ∈ l ↔ φ (place c)) (hold : ¬ φ (place e))
    (hnew : ¬ φ p) (c : Nat) : c ∈ l ↔ φ (Function.update place e p c) := by
  by_cases hc : c = e
  · subst hc
    rw [Function.update_self, hl c]
    exact ⟨fun h => absurd h hold, fun h => absurd h hnew⟩
  · rw [Function.update_of_ne hc]
    exact hl c

theorem mem_cons_update_iff {l : List Nat} (φ : Place n → Prop) (hl : ∀ c, c ∈ l ↔ φ (place c)) (hnew : φ p) (c : Nat) :
    c ∈ e :: l ↔ φ (Function.update place e p c) := by
  rw [List.mem_cons]
  by_cases hc : c = e
  · subst hc
    rw [Function.update_self]
    exact ⟨fun _ => hnew, fun _ => .inl rfl⟩
  · rw [Function.update_of_ne hc, ← hl c]
    exact ⟨fun h => h.resolve_left hc, .inr⟩

theorem mem_tail_update_iff (φ : Place n → Prop) (hl : ∀ c, c ∈ e :: rest ↔ φ (place c)) (hnd : (e :: rest).Nodup)
    (hnew : ¬ φ p) (c : Nat) : c ∈ rest ↔ φ (Function.update place e p c) := by
  by_cases hc : c = e
  · subst hc
    rw [Function.update_self]
    exact ⟨fun h => absurd h (List.nodup_cons.1 hnd).1, fun h => absurd h hnew⟩
  · rw [Function.update_of_ne hc, ← hl c, List.mem_cons]
    exact ⟨.inr, fun h => h.resolve_left hc⟩

theorem Queues.not_mem (hq : Queues r t hd next place fill batch pool) (he : ¬ (place e).Shared) :
    e ∉ fill ∧ e ∉ batch ∧ e ∉ pool := by
  refine ⟨fun h => he ?_, fun h => he ?_, fun h => he ?_⟩
  · rw [(hq.mem_fill e).1 h]; trivial
  · obtain ⟨d, hd⟩ := (hq.mem_batch e).1 h
    rw [hd]; trivial
  · rw [(hq.mem_pool e).1 h]; trivial

theorem Queues.push_fill (hq : Queues r t hd next place fill batch pool) (he : ¬ (place e).Shared) (hnext : next e = r.head)
    (hv : r.ver % 2 = 0) (ht : t.ver % 2 = 0) :
    Queues ⟨some e, r.ver⟩ t hd next (Function.update place e .fill) (e :: fill) batch pool := by
  refine ⟨fun _ => (hq.link_fill hv).push hnext, fun h => ?_, hq.link_batch, fun h => ?_, hq.link_pool,
    List.nodup_cons.2 ⟨(hq.not_mem he).1, hq.nodup_fill⟩, hq.nodup_batch, hq.nodup_pool,
    mem_cons_update_iff (· = .fill) hq.mem_fill rfl, mem_update_iff (fun q => ∃ d, q = .batch d) hq.mem_batch ?_ (by simp),
    mem_update_iff (· = .head) hq.mem_pool ?_ (by simp)⟩
  · change r.ver % 2 = 1 at h
    omega
  · change r.ver = t.ver + 1 at h
    omega
  · rintro ⟨d, h⟩
    exact he (by rw [h]; trivial)
  · exact fun h => he (by rw [h]; trivial)

theorem Queues.push_pool (hq : Queues r t hd next place fill batch pool) (he : ¬ (place e).Shared) (hnext : next e = hd) :
    Queues r t (some e) next (Function.update place e .head) fill batch (e :: pool) := by
  refine ⟨hq.link_fill, hq.fill_nil, hq.link_batch, hq.link_frozen, hq.link_pool.push hnext, hq.nodup_fill, hq.nodup_batch,
    List.nodup_cons.2 ⟨(hq.not_mem he).2.2, hq.nodup_pool⟩, mem_update_iff (· = .fill) hq.mem_fill ?_ (by simp),
    mem_update_iff (fun q => ∃ d, q = .batch d) hq.mem_batch ?_ (by simp), mem_cons_update_iff (· = .head) hq.mem_pool rfl⟩
  · exact fun h => he (by rw [h]; trivial)
  · rintro ⟨d, h⟩
    exact he (by rw [h]; trivial)

theorem Queues.pop_pool (hq : Queues r t hd next place fill batch (e :: rest)) (hlink : Linked next (next e) rest) (hp : ¬ p.Shared) :
    Queues r t (next e) next (Function.update place e p) fill batch rest := by
  have hplace := (hq.mem_pool e).1 List.mem_cons_self
  refine ⟨hq.link_fill, hq.fill_nil, hq.link_batch, hq.link_frozen, hlink, hq.nodup_fill, hq.nodup_batch,
    (List.nodup_cons.1 hq.nodup_pool).2, mem_update_iff (· = .fill) hq.mem_fill ?_ ?_,
    mem_update_iff (fun q => ∃ d, q = .batch d) hq.mem_batch ?_ ?_, mem_tail_update_iff (· = .head) hq.mem_pool hq.nodup_pool ?_⟩
  · rw [hplace]; simp
  · exact fun h => hp (by rw [h]; trivial)
  · rw [hplace]; simp
  · rintro ⟨d, h⟩
    exact hp (by rw [h]; trivial)
  · exact fun h => hp (by rw [h]; trivial)

end Queue

theorem Owners.push_fill {alloc_cache free_cache : Fin n → Option Nat} {brk : Nat} {free : Nat → Nat} {place : Nat → Place n}
    (ho : Owners alloc_cache free_cache brk free place) (hc : free_cache i = some e) :
    Owners alloc_cache (Function.update free_cache i none) brk free (Function.update place e .fill) := by
  have hplace : place e = .free i := (ho.filling i e).2 hc
  refine ⟨fun j c => ?_, fun j c h => ?_, fun j c h => ?_, fun c => ?_⟩
  · by_cases hj : j = i
    · subst hj
      rw [Function.update_self]
      by_cases he : c = e
      · rw [he, Function.update_self]
        simp
      · rw [Function.update_of_ne he, ho.filling j c, hc]
        exact ⟨fun h => absurd (Option.some.inj h).symm he, fun h => (by cases h)⟩
    · rw [Function.update_of_ne hj]
      by_cases he : c = e
      · rw [he, Function.update_self, ← ho.filling j e, hplace]
        exact ⟨fun h => (by cases h), fun h => absurd (Place.free.inj h).symm hj⟩
      · rw [Function.update_of_ne he]
        exact ho.filling j c
  · have hp := ho.serving j c h
    rw [Function.update_of_ne]
    · exact hp
    · rintro rfl
      rw [hplace] at hp
      cases hp
  · by_cases he : c = e
    · rw [he, Function.update_self] at h
      cases h
    · rw [Function.update_of_ne he] at h
      exact ho.spent j c h
  · by_cases he : c = e
    · rw [he, Function.update_self, ← ho.raw, hplace]
      simp
    · rw [Function.update_of_ne he]
      exact ho.raw c

/-- The full free cache of a thread goes to `reclaim`. -/
theorem Shape.push_fill (hs : Shape s g) (hc : s.free_cache i = some e) (hnext : s.next e = s.reclaim.head)
    (hv : s.reclaim.ver % 2 = 0) :
    let s₁ := { s with reclaim := ⟨some e, s.reclaim.ver⟩, free_cache := Function.update s.free_cache i none }
    let g₁ := { g.file e .fill with fill := e :: g.fill }
    Listed s g s₁ g₁ ∧ Shape s₁ g₁ ∧ Trans i s g s₁ g₁ := by
  intro s₁ g₁
  have hplace : g.place e = .free i := (hs.owners.filling i e).2 hc
  have hcl := hs.clock
  have hl : Listed s g s₁ g₁ := .file (p := .fill) rfl rfl rfl rfl (by rw [hplace]; exact Iff.rfl) fun d h => by cases h
  have htouch : Touch i {e} ∅ s g s₁ g₁ := by
    refine .file (p := .fill) rfl (fun _ _ => rfl) (fun _ _ => rfl) (fun _ _ => rfl) (fun j hj h => ?_) (fun j hj h => by cases h)
      (fun _ _ => rfl) (fun j hj => Function.update_of_ne hj ..) rfl rfl
    rw [hplace] at h
    exact hj (Option.some.inj h).symm
  have hne : ∀ c, c ≠ e → g₁.place c = g.place c := fun c hc => file_place_of_ne hc
  have hself : g₁.place e = .fill := file_place_self
  have hticks : Ticks s.reclaim s.toProcess ⟨some e, s.reclaim.ver⟩ s.toProcess :=
    ⟨le_refl _, fun h => by omega, le_refl _, fun _ h => h⟩
  refine ⟨hl, hs.shelve hl (le_refl _) ?_ ?_ (hs.owners.push_fill hc) ?_ hs.supply, htouch.trans hl hticks ?_ ?_⟩
  · have hcl' : Clock ⟨some e, s.reclaim.ver⟩ s.toProcess s.localVer g.place :=
      ⟨hcl.even, hcl.near, hcl.local_le, hcl.local_even, hcl.batch, hcl.work⟩
    refine hcl'.frame (E := {e}) ?_ ?_ hne
    · rintro c rfl d' h
      rw [hself] at h
      cases h
    · rintro c rfl j d' x k h
      rw [hself] at h
      cases h
  · exact hs.queues.push_fill (by rw [hplace]; exact id) hnext hv hcl.even
  · exact (hs.stock.file (e := e) (p := .fill) (by rw [hplace]; rfl) (by rw [hplace]; rfl) trivial (by rw [hplace]; trivial)).ghost rfl rfl
  · rintro c rfl
    rw [hself, hplace]
    exact Nat.le_succ 1
  · rintro c rfl h
    rw [hplace] at h
    cases h

/-- The bookkeeping of a compare-and-swap in `pfree` that succeeds. -/
def Ghost.pushFull (g : Ghost n) (i : Fin n) (e b a : Nat) : Ghost n :=
  ({ g.file e .fill with fill := e :: g.fill }.file b (.free i)).move a (.cached b)

theorem Shape.pushFull (hs : Shape s g) (hw : ¬ g.window i) (hc : s.free_cache i = some e) (hnext : s.next e = s.reclaim.head)
    (hv : s.reclaim.ver % 2 = 0) (ha : g.spot a = .hand i) :
    Shape (({ s with reclaim := ⟨some e, s.reclaim.ver⟩ }.malloc ⟨a, false⟩).setFreeCache i (some s.brk)) (g.pushFull i e s.brk a) ∧
      Trans i s g (({ s with reclaim := ⟨some e, s.reclaim.ver⟩ }.malloc ⟨a, false⟩).setFreeCache i (some s.brk))
        (g.pushFull i e s.brk a) := by
  obtain ⟨hl, hS, hT⟩ := hs.push_fill hc hnext hv
  have hptr : Function.update s.ptrs s.brk (Function.update (s.ptrs s.brk) 0 ⟨a, false⟩) s.brk 0 = ⟨a, false⟩ := by
    rw [Function.update_self, Function.update_self]
  have hcache : ∀ j, j ≠ i →
      Function.update s.free_cache i (some s.brk) j = Function.update s.free_cache i none j := fun j hj => by
    rw [Function.update_of_ne hj, Function.update_of_ne hj]
  have howners := hS.owners.mint_free (i := i) (Function.update_self ..) 1
  change Owners s.alloc_cache (Function.update (Function.update s.free_cache i none) i (some s.brk)) _ _ _ at howners
  rw [Function.update_idem] at howners
  unfold Mem.setFreeCache Mem.malloc Mem.setPtr Mem.setFree
  refine And.imp_right (Trans.after hl hT) ?_
  exact hS.mint hw (.inl ⟨ha, rfl⟩) rfl (fun _ _ => rfl) (fun _ hb => Function.update_of_ne hb ..)
    (fun _ hb => Function.update_of_ne hb ..) (Function.update_self ..) hptr (fun _ _ => rfl) hcache howners

/-- The first free cache of a thread. -/
theorem Shape.newFree (hs : Shape s g) (hw : ¬ g.window i) (hc : s.free_cache i = none) (ha : g.spot a = .hand i) :
    Shape ((s.malloc ⟨a, false⟩).setFreeCache i (some s.brk)) ((g.file s.brk (.free i)).move a (.cached s.brk)) ∧
      Trans i s g ((s.malloc ⟨a, false⟩).setFreeCache i (some s.brk)) ((g.file s.brk (.free i)).move a (.cached s.brk)) := by
  have hptr : Function.update s.ptrs s.brk (Function.update (s.ptrs s.brk) 0 ⟨a, false⟩) s.brk 0 = ⟨a, false⟩ := by
    rw [Function.update_self, Function.update_self]
  unfold Mem.setFreeCache Mem.malloc Mem.setPtr Mem.setFree
  exact hs.mint hw (.inl ⟨ha, rfl⟩) rfl (fun _ _ => rfl) (fun _ hb => Function.update_of_ne hb ..)
    (fun _ hb => Function.update_of_ne hb ..) (Function.update_self ..) hptr (fun _ _ => rfl)
    (fun j hj => Function.update_of_ne hj ..) (hs.owners.mint_free hc 1)

/-- `pReturnAlloc` without a cache. -/
theorem Shape.newAlloc (hs : Shape s g) (hw : ¬ g.window i) (hc : s.alloc_cache i = none) (ha : g.spot a = .mine i) :
    Shape (((s.malloc ⟨a, false⟩).setNext s.brk none).setAllocCache i (some s.brk))
        ((g.file s.brk (.alloc i)).move a (.cached s.brk)) ∧
      Trans i s g (((s.malloc ⟨a, false⟩).setNext s.brk none).setAllocCache i (some s.brk))
        ((g.file s.brk (.alloc i)).move a (.cached s.brk)) := by
  have hptr : Function.update s.ptrs s.brk (Function.update (s.ptrs s.brk) 0 ⟨a, false⟩) s.brk 0 = ⟨a, false⟩ := by
    rw [Function.update_self, Function.update_self]
  unfold Mem.setAllocCache Mem.setNext Mem.malloc Mem.setPtr Mem.setFree
  exact hs.mint hw (.inr ⟨ha, rfl⟩) rfl (fun _ hb => Function.update_of_ne hb ..) (fun _ hb => Function.update_of_ne hb ..)
    (fun _ hb => Function.update_of_ne hb ..) (Function.update_self ..) hptr (fun j hj => Function.update_of_ne hj ..)
    (fun _ _ => rfl) (hs.owners.mint_alloc hc 1)

/-! ## The push to `global->head` -/

/-- The objects kept in a cache are its contents. -/
def Spot.release (e : Nat) : Spot n → Spot n
  | .kept d => if d = e then .cached e else .kept d
  | x => x

/-- The bookkeeping of a push to `global->head`. -/
def Ghost.pushHead (g : Ghost n) (e : Nat) : Ghost n :=
  { g.file e .head with spot := fun b => (g.spot b).release e, pool := e :: g.pool }

section Release

variable {y : Spot n}

theorem Spot.release_kept_self : (Spot.kept e : Spot n).release e = .cached e := if_pos rfl

theorem Spot.release_kept_of_ne (h : d ≠ e) : (Spot.kept d : Spot n).release e = .kept d := if_neg h

theorem Spot.release_eq_cached (hy : y ≠ .cached e) : y.release e = .cached e ↔ y = .kept e := by
  cases y with
  | kept d =>
    by_cases h : d = e
    · rw [h, Spot.release_kept_self]
      simp
    · rw [Spot.release_kept_of_ne h]
      simp [h]
  | cached d => simpa [Spot.release] using hy
  | _ => simp [Spot.release]

theorem Spot.release_eq_iff {z : Spot n} (h1 : z ≠ .cached e) (h2 : z ≠ .kept e) : y.release e = z ↔ y = z := by
  cases y with
  | kept d =>
    by_cases h : d = e
    · rw [h, Spot.release_kept_self]
      exact ⟨fun h => absurd h.symm h1, fun h => absurd h.symm h2⟩
    · rw [Spot.release_kept_of_ne h]
  | _ => exact Iff.rfl

theorem Spot.release_ne_kept : y.release e ≠ .kept e := by
  cases y with
  | kept d =>
    by_cases h : d = e
    · rw [h, Spot.release_kept_self]
      simp
    · rw [Spot.release_kept_of_ne h]
      simp [h]
  | _ => simp [Spot.release]

theorem Ghost.pushHead_place_self : (g.pushHead e).place e = .head := file_place_self (g := g)

theorem Ghost.pushHead_place_of_ne (h : d ≠ e) : (g.pushHead e).place d = g.place d := file_place_of_ne h

theorem Ghost.pushHead_objects {z : Spot n} (h1 : z ≠ .cached e) (h2 : z ≠ .kept e) : (g.pushHead e).objects z = g.objects z := by
  ext q
  exact and_congr_right fun _ => Spot.release_eq_iff h1 h2

end Release

/-- The cache has been gone through, and is linked to the head. -/
theorem Shape.pushHead (hs : Shape s g) (hp : g.place e = .work i d k k) (hk : s.free e = k) (hnext : s.next e = s.head) :
    Shape { s with head := some e } (g.pushHead e) ∧ Trans i s g { s with head := some e } (g.pushHead e) := by
  have hst := hs.stock
  have hempty : ∀ b, g.spot b ≠ .cached e := fun b hb => by
    obtain ⟨j, h1, h2, -⟩ := hst.slot_of_cached hb
    rw [hp] at h1
    change k ≤ j at h1
    omega
  have hself : (g.pushHead e).place e = .head := Ghost.pushHead_place_self
  have hne : ∀ c ∉ ({e} : Set Nat), (g.pushHead e).place c = g.place c := fun c hc => Ghost.pushHead_place_of_ne hc
  have hspot : ∀ {z : Spot n}, z ≠ .cached e → z ≠ .kept e → ∀ b, (g.pushHead e).spot b = z ↔ g.spot b = z :=
    fun h1 h2 _ => Spot.release_eq_iff h1 h2
  have hcached : ∀ c b, (g.pushHead e).spot b = .cached c → c = e ∧ g.spot b = .kept e ∨ c ≠ e ∧ g.spot b = .cached c := by
    intro c b hb
    by_cases hc : c = e
    · subst hc
      exact .inl ⟨rfl, (Spot.release_eq_cached (hempty b)).1 hb⟩
    · exact .inr ⟨hc, (hspot (fun h => hc (Spot.cached.inj h)) (by simp) b).1 hb⟩
  have hl : Listed s g { s with head := some e } (g.pushHead e) := by
    refine ⟨rfl, rfl, rfl, rfl, rfl, rfl, rfl, ?_, ?_, fun a b h => .inl ?_, fun j _ => ?_⟩
    · exact Set.ext fun b => hspot (by simp) (by simp) b
    · ext b
      rw [mem_retired, mem_retired]
      refine or_congr (exists_congr fun j => hspot (by simp) (by simp) b) ⟨fun h => ?_, fun h => ?_⟩
      · obtain ⟨c, hc, hw⟩ := h
        obtain ⟨rfl, -⟩ | ⟨hce, hb⟩ := hcached c b hc
        · rw [hself] at hw
          exact hw.elim
        · exact ⟨c, hb, by rwa [hne c hce] at hw⟩
      · obtain ⟨c, hb, hw⟩ := h
        have hce : c ≠ e := fun h => hempty b (h ▸ hb)
        exact ⟨c, (hspot (fun h => hce (Spot.cached.inj h)) (by simp) b).2 hb, by rwa [hne c hce]⟩
    · obtain ⟨c, d', hc, hd, hle⟩ := h
      obtain ⟨rfl, -⟩ | ⟨hce, hb⟩ := hcached c a hc
      · rw [hself] at hd
        cases hd
      · exact ⟨c, d', hb, by rwa [hne c hce] at hd, hle⟩
    · exact Set.ext fun b => hspot (by simp) (by simp) b
  have hown : (g.place e).owner = some i := by rw [hp]; rfl
  have htouch : Touch i {e} {b | g.spot b = .kept e} s g { s with head := some e } (g.pushHead e) := by
    refine ⟨hne, fun _ _ => rfl, fun _ _ => rfl, fun _ _ => rfl, fun b hb => ?_, fun c hc j hj => ?_, fun b hb j hj => ?_,
      fun _ _ => rfl, fun _ _ => rfl, fun _ _ => rfl, fun _ _ => rfl⟩
    · exact (Spot.release_eq_iff (hempty b) hb).2 rfl
    · obtain rfl : c = e := hc
      rw [hself, hown]
      exact ⟨fun h => hj (Option.some.inj h).symm, fun h => by cases h⟩
    · have hb' : (g.pushHead e).spot b = .cached e := (Spot.release_eq_cached (hempty b)).2 hb
      rw [hb', show g.spot b = .kept e from hb]
      exact ⟨fun h => (by cases h), fun h => by cases h⟩
  have hstock : Stock s.free s.ptrs (g.pushHead e) := by
    refine hst.frame (E := {e}) hne (fun _ _ => rfl) (fun _ _ => rfl)
      (fun c hc => Ghost.pushHead_objects (fun h => hc (Spot.cached.inj h)) (by simp))
      (fun c hc => Ghost.pushHead_objects (by simp) fun h => hc (Spot.kept.inj h)) ?_ ?_ ?_ ?_ ?_
    · rintro c rfl -
      exact hst.size c (by rw [hp]; simp)
    · rintro c rfl j d' x' k' h
      rw [hself] at h
      cases h
    · rintro c rfl -
      have hkept := hst.kept c
      have hobjects : (g.pushHead c).objects (.cached c) = g.objects (.kept c) :=
        Set.ext fun q => and_congr_right fun _ => Spot.release_eq_cached (hempty q.addr)
      rw [hp] at hkept
      rw [hself, hobjects, hk]
      exact hkept
    · rintro c rfl
      have hnone : (g.pushHead c).objects (.kept c) = ∅ :=
        Set.eq_empty_of_forall_notMem fun q hq => Spot.release_ne_kept hq.2
      rw [hself, hnone]
      exact .empty (le_refl 0)
    · rintro c rfl b _
      rw [hself]
      trivial
  have hsupply : Supply s.spare s.spares (g.pushHead e).spot :=
    hs.supply.frame fun b hb => (hspot (by simp) (by simp) b).2 hb
  refine ⟨hs.shelve hl (le_refl _) ?_ ?_ ?_ hstock hsupply, htouch.trans hl (.refl _ _) ?_ ?_⟩
  · refine hs.clock.frame (E := {e}) ?_ ?_ hne
    · rintro c rfl d' h
      rw [hself] at h
      cases h
    · rintro c rfl j d' x k h
      rw [hself] at h
      cases h
  · exact hs.queues.push_pool (Place.not_shared_of_owner hown) hnext
  · refine hs.owners.frame (E := {e}) ?_ ?_ ?_ (fun _ _ h => h) hne fun _ _ => rfl
    · rintro c rfl j
      rw [hself, hp]
      simp
    · rintro c rfl j
      rw [hself, hp]
      simp
    · rintro c rfl
      rw [hself, hp]
      simp
  · rintro c rfl
    rw [hself, hp]
    exact Nat.le_succ 4
  · rintro c rfl h
    rw [hown] at h
    cases h

/-! ## The pop of `global->head` -/

theorem Owners.pop_pool {alloc_cache free_cache : Fin n → Option Nat} {brk : Nat} {free : Nat → Nat} {place : Nat → Place n}
    (ho : Owners alloc_cache free_cache brk free place) (hp : place e = .head)
    (hspent : ∀ c, alloc_cache i = some c → free c = 0) :
    Owners (Function.update alloc_cache i (some e)) free_cache brk free (Function.update place e (.alloc i)) := by
  refine ⟨fun j c => ?_, fun j c h => ?_, fun j c h => ?_, fun c => ?_⟩
  · rw [← ho.filling j c]
    by_cases he : c = e
    · rw [he, Function.update_self, hp]
      simp
    · rw [Function.update_of_ne he]
  · by_cases hj : j = i
    · subst hj
      rw [Function.update_self] at h
      rw [← Option.some.inj h, Function.update_self]
    · rw [Function.update_of_ne hj] at h
      have hc := ho.serving j c h
      rw [Function.update_of_ne]
      · exact hc
      · rintro rfl
        rw [hp] at hc
        cases hc
  · by_cases he : c = e
    · subst he
      rw [Function.update_self] at h
      obtain rfl : i = j := Place.alloc.inj h
      exact .inl (Function.update_self ..)
    · rw [Function.update_of_ne he] at h
      obtain h' | h' := ho.spent j c h
      · by_cases hj : j = i
        · subst hj
          exact .inr (hspent c h')
        · rw [Function.update_of_ne hj]
          exact .inl h'
      · exact .inr h'
  · rw [← ho.raw c]
    by_cases he : c = e
    · rw [he, Function.update_self, hp]
      simp
    · rw [Function.update_of_ne he]

theorem Shape.popHead (hs : Shape s g) (hhead : s.head = some e) (hspent : ∀ c, s.alloc_cache i = some c → s.free c = 0) :
    Shape ({ s with head := s.next e }.setAllocCache i (some e)) { g.file e (.alloc i) with pool := g.pool.tail } ∧
      Trans i s g ({ s with head := s.next e }.setAllocCache i (some e)) { g.file e (.alloc i) with pool := g.pool.tail } ∧
      g.place e = .head := by
  have hq := hs.queues
  have hlink := hq.link_pool
  rw [hhead] at hlink
  obtain ⟨rest, hpool, hrest⟩ := hlink.top
  have hplace : g.place e = .head := (hq.mem_pool e).1 (by rw [hpool]; exact List.mem_cons_self)
  have htail : g.pool.tail = rest := by rw [hpool]; rfl
  rw [htail]
  have hne : ∀ c ∉ ({e} : Set Nat), (g.file e (.alloc i)).place c = g.place c := fun c hc => file_place_of_ne hc
  have hself : (g.file e (.alloc i)).place e = .alloc i := file_place_self
  have hl : Listed s g ({ s with head := s.next e }.setAllocCache i (some e)) { g.file e (.alloc i) with pool := rest } := by
    refine .file rfl rfl rfl rfl ?_ fun d h => by cases h
    rw [hplace]
    exact Iff.rfl
  have htouch : Touch i {e} ∅ s g ({ s with head := s.next e }.setAllocCache i (some e))
      { g.file e (.alloc i) with pool := rest } := by
    refine .file (p := .alloc i) rfl (fun _ _ => rfl) (fun _ _ => rfl) (fun _ _ => rfl) (fun j hj h => ?_) (fun j hj h => ?_)
      (fun j hj => Function.update_of_ne hj ..) (fun _ _ => rfl) rfl rfl
    · rw [hplace] at h
      cases h
    · exact hj (Option.some.inj h).symm
  refine ⟨hs.shelve hl (le_refl _) ?_ ?_ (hs.owners.pop_pool hplace hspent) ?_ hs.supply, htouch.trans hl (.refl _ _) ?_ ?_, hplace⟩
  · refine hs.clock.frame (E := {e}) ?_ ?_ hne
    · rintro c rfl d' h
      rw [hself] at h
      cases h
    · rintro c rfl j d' x k h
      rw [hself] at h
      cases h
  · rw [hpool] at hq
    exact hq.pop_pool hrest id
  · exact (hs.stock.file (e := e) (p := .alloc i) (by rw [hplace]; rfl) (by rw [hplace]; rfl) trivial (by rw [hplace]; trivial)).ghost rfl rfl
  · rintro c rfl
    change _ ≤ ((g.file c _).place c).rank
    rw [hself, hplace]
    exact Nat.le_succ 5
  · rintro c rfl _ h
    change ((g.file c _).place c).rank = _ at h
    rw [hself, hplace] at h
    cases h

end OptimisticAccess.MOA
