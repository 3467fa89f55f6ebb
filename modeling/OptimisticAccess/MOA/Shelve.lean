import OptimisticAccess.MOA.Books

/-!
# Steps that move objects and caches

The steps of `allocatorOA.c` that leave the list alone. `Listed` says that they do, and that no
object becomes one of the list, is retired or stops being so; `Touch` bounds the caches and objects
a step of a thread touches. With these, what is left to prove of a step is about the queue, the
owner and the slots of one cache.
-/

namespace OptimisticAccess.MOA

open Conc

variable {n : Nat} {s s' : Mem n} {g g' g₁ : Ghost n} {i j : Fin n} {a b e d : Nat} {x y : Spot n} {p : Place n}

/-! ## Bookkeeping after a change -/

@[simp] theorem move_spot_self : (g.move a x).spot a = x := Function.update_self ..

theorem move_spot_of_ne (h : b ≠ a) : (g.move a x).spot b = g.spot b := Function.update_of_ne h ..

@[simp] theorem move_place : (g.move a x).place = g.place := rfl

@[simp] theorem file_place_self : (g.file e p).place e = p := Function.update_self ..

theorem file_place_of_ne (h : d ≠ e) : (g.file e p).place d = g.place d := Function.update_of_ne h ..

@[simp] theorem file_spot : (g.file e p).spot = g.spot := rfl

theorem mem_objects {q : Ptr} : q ∈ g.objects x ↔ q.tag = false ∧ g.spot q.addr = x := Iff.rfl

theorem objects_move_of_ne (hx : x ≠ y) (ha : g.spot a ≠ y) : (g.move a x).objects y = g.objects y := by
  ext q
  rw [mem_objects, mem_objects]
  by_cases h : q.addr = a
  · rw [h, move_spot_self]
    simp [hx, ha]
  · rw [move_spot_of_ne h]

theorem objects_move_in : (g.move a x).objects x = insert ⟨a, false⟩ (g.objects x) := by
  ext q
  rw [Set.mem_insert_iff, mem_objects, mem_objects]
  by_cases h : q.addr = a
  · rw [h, move_spot_self]
    refine ⟨fun hq => .inl (Ptr.eq_of_addr hq.1 rfl h), fun hq => ⟨?_, rfl⟩⟩
    obtain rfl | hq := hq
    · rfl
    · exact hq.1
  · rw [move_spot_of_ne h]
    refine ⟨.inr, fun hq => hq.resolve_left fun e => h (congrArg Ptr.addr e)⟩

theorem objects_move_out (hx : x ≠ y) : (g.move a x).objects y = g.objects y \ {⟨a, false⟩} := by
  ext q
  rw [Set.mem_sdiff, Set.mem_singleton_iff, mem_objects, mem_objects]
  by_cases h : q.addr = a
  · rw [h, move_spot_self]
    refine ⟨fun hq => absurd hq.2 hx, fun hq => absurd (Ptr.eq_of_addr hq.1.1 rfl h) hq.2⟩
  · rw [move_spot_of_ne h]
    exact ⟨fun hq => ⟨hq, fun e => h (congrArg Ptr.addr e)⟩, fun hq => hq.1⟩

theorem Place.owner_eq_none_of_rank {p q : Place n} (h : p.owner = none) (hr : q.rank = p.rank) : q.owner = none := by
  cases p <;> cases q <;> simp_all [Place.owner, Place.rank]

/-! ## What a step touches -/

/-- A step of thread `i` changes the caches of `E` and the objects of `A`, none of which is another thread's. -/
structure Touch (i : Fin n) (E A : Set Nat) (s : Mem n) (g : Ghost n) (s' : Mem n) (g' : Ghost n) : Prop where
  place : ∀ e ∉ E, g'.place e = g.place e
  next : ∀ e ∉ E, s'.next e = s.next e
  free : ∀ e ∉ E, s'.free e = s.free e
  ptrs : ∀ e ∉ E, s'.ptrs e = s.ptrs e
  spot : ∀ a ∉ A, g'.spot a = g.spot a
  caches : ∀ e ∈ E, ∀ j, j ≠ i → (g.place e).owner ≠ some j ∧ (g'.place e).owner ≠ some j
  objects : ∀ a ∈ A, ∀ j, j ≠ i → (g.spot a).owner ≠ some j ∧ (g'.spot a).owner ≠ some j
  alloc_cache : ∀ j, j ≠ i → s'.alloc_cache j = s.alloc_cache j
  free_cache : ∀ j, j ≠ i → s'.free_cache j = s.free_cache j
  localVer : ∀ j, j ≠ i → s'.localVer j = s.localVer j
  hps : ∀ j, j ≠ i → s'.hps j = s.hps j

/-- The list and the threads' view of it are as they were. -/
structure Listed (s : Mem n) (g : Ghost n) (s' : Mem n) (g' : Ghost n) : Prop where
  word : s'.word = s.word
  dirtyNphase : s'.dirtyNphase = s.dirtyNphase
  HPs : s'.HPs = s.HPs
  since : g'.since = g.since
  spoiled : g'.spoiled = g.spoiled
  warned : g'.warned = g.warned
  window : g'.window = g.window
  linked : g'.linked = g.linked
  retired : g'.retired = g.retired
  due : ∀ a b, g'.Due a b → g.Due a b ∨ s.reclaim.ver + 1 < b
  mine : ∀ j, g.window j → g'.mine j = g.mine j

variable {E A : Set Nat}

theorem Touch.priv_of (h : Touch i E A s g s' g') (hj : j ≠ i) (hHPs : s'.HPs j = s.HPs j) (hwindow : g'.window j = g.window j)
    (hword : ∀ a, g.spot a = .mine j → s'.nextEntry a = s.nextEntry a) (hsince : g.since j ⊆ g'.since j)
    (hspoiled : g.spoiled j → g'.spoiled j) : Private j s g s' g' := by
  have hown : ∀ e, (g.place e).owner = some j ∨ (g'.place e).owner = some j → e ∉ E := by
    rintro e ho he
    obtain ⟨h1, h2⟩ := h.caches e he j hj
    exact ho.elim h1 h2
  refine ⟨h.alloc_cache j hj, h.free_cache j hj, h.localVer j hj, h.hps j hj, hHPs, hwindow, fun a ho => h.spot a fun ha => ?_, hword,
    fun e he => h.place e (hown e he), fun e he => h.next e (hown e (.inl he)), fun e he => h.free e (hown e (.inl he)),
    fun e he => h.ptrs e (hown e (.inl he)), hsince, hspoiled⟩
  obtain ⟨h1, h2⟩ := h.objects a ha j hj
  exact ho.elim h1 h2

theorem Touch.priv (h : Touch i E A s g s' g') (hl : Listed s g s' g') (hj : j ≠ i) : Private j s g s' g' :=
  h.priv_of hj (by rw [hl.HPs]) (by rw [hl.window]) (fun a _ => congrFun hl.word (.next a)) (by rw [hl.since])
    (by rw [hl.spoiled]; exact id)

/-- What a step may do to `reclaim` and `toProcess`. -/
structure Ticks (r t r' t' : VerEntry) : Prop where
  reclaim : r.ver ≤ r'.ver
  frozen : r.ver % 2 = 1 → r'.ver = r.ver → r' = r
  toProcess : t.ver ≤ t'.ver
  drained : t'.ver = t.ver → t.head = none → t'.head = none

theorem Ticks.refl (r t : VerEntry) : Ticks r t r t := ⟨le_refl _, fun _ _ => rfl, le_refl _, fun _ h => h⟩

theorem Touch.trans (h : Touch i E A s g s' g') (hl : Listed s g s' g') (ht : Ticks s.reclaim s.toProcess s'.reclaim s'.toProcess)
    (hrank : ∀ e ∈ E, (g.place e).rank ≤ (g'.place e).rank)
    (hnext : ∀ e ∈ E, (g.place e).owner = none → (g'.place e).rank = (g.place e).rank → g.place e ≠ .raw →
      s'.next e = s.next e) : Trans i s g s' g' := by
  refine ⟨fun j hj => h.priv hl hj, fun _ => ⟨by rw [hl.since], by rw [hl.spoiled]; exact id⟩, fun e => ?_, fun e ho hr hraw => ?_, ht.reclaim, ht.frozen, ht.toProcess, ht.drained,
    fun j => by rw [hl.warned], fun j => .inl (by rw [hl.dirtyNphase]), fun a _ _ _ => congrFun hl.word (.next a),
    fun a b hab => (hl.due a b hab).imp_right fun h => by omega, fun j hj => .inl ⟨by rwa [hl.window] at hj, by rw [hl.HPs]⟩⟩
  · by_cases he : e ∈ E
    · exact hrank e he
    · rw [h.place e he]
  · by_cases he : e ∈ E
    · exact hnext e he ho hr hraw
    · exact h.next e he

theorem Listed.dirty (hl : Listed s g s' g') (j : Fin n) : s'.dirty j = s.dirty j := by
  unfold Mem.dirty
  rw [hl.dirtyNphase]

/-- The list part of the invariant. -/
theorem Shape.shelve (hs : Shape s g) (hl : Listed s g s' g') (hlevel : level s.reclaim ≤ level s'.reclaim)
    (hclock : Clock s'.reclaim s'.toProcess s'.localVer g'.place)
    (hqueues : Queues s'.reclaim s'.toProcess s'.head s'.next g'.place g'.fill g'.batch g'.pool)
    (howners : Owners s'.alloc_cache s'.free_cache s'.brk s'.free g'.place) (hstock : Stock s'.free s'.ptrs g')
    (hsupply : Supply s'.spare s'.spares g'.spot) : Shape s' g' := by
  refine ⟨?_, hclock, hqueues, howners, hstock, fun j => ?_, fun j => ?_, fun j hj => ?_, hsupply⟩
  · rw [hl.word, hl.linked, hl.retired]
    exact hs.net
  · have h := hs.guard j
    rw [hl.word, hl.linked, hl.retired, hl.since, hl.spoiled, hl.warned, hl.dirty]
    refine ⟨h.covers, h.closed, h.whole, fun a ha hd => ?_, h.marred⟩
    obtain hd | hlt := hl.due _ _ hd
    · exact h.alert a ha hd
    · have := (hs.stamps j).level
      unfold level at this
      omega
  · have h := hs.stamps j
    rw [hl.dirtyNphase, hl.warned]
    exact ⟨h.stamp, h.level.trans hlevel⟩
  · rw [hl.window] at hj
    have h := hs.shield j hj
    rw [hl.HPs, Ghost.live, hl.linked, hl.retired, hl.mine j hj]
    exact h

/-! ## Changes that keep the list apart -/

/-- An object of this spot is retired. -/
def Ghost.Retires (g : Ghost n) (x : Spot n) : Prop := (∃ i, x = .hand i) ∨ ∃ e, x = .cached e ∧ (g.place e).Waits

theorem mem_retired : a ∈ g.retired ↔ g.Retires (g.spot a) := Iff.rfl

theorem retired_file (h : p.Waits ↔ (g.place e).Waits) : (g.file e p).retired = g.retired := by
  have hw : ∀ d, ((g.file e p).place d).Waits ↔ (g.place d).Waits := by
    intro d
    by_cases hd : d = e
    · subst hd; rw [file_place_self]; exact h
    · rw [file_place_of_ne hd]
  ext b
  rw [mem_retired, mem_retired, Ghost.Retires, Ghost.Retires]
  simp only [hw, file_spot]

/-- A place may change as it likes while the cache holds nothing. -/
theorem retired_file_of_empty (h : ∀ b, g.spot b ≠ .cached e) : (g.file e p).retired = g.retired := by
  ext b
  rw [mem_retired, mem_retired, Ghost.Retires, Ghost.Retires, file_spot]
  refine or_congr Iff.rfl (exists_congr fun d => and_congr_right fun hd => ?_)
  rw [file_place_of_ne fun (e' : d = e) => h b (e' ▸ hd)]

theorem due_file (h : ∀ d, p.due = some d → (g.place e).due = some d) (hd : (g.file e p).Due a b) : g.Due a b := by
  obtain ⟨c, d, h1, h2, h3⟩ := hd
  refine ⟨c, d, h1, ?_, h3⟩
  by_cases hc : c = e
  · subst hc; rw [file_place_self] at h2; exact h d h2
  · rwa [file_place_of_ne hc] at h2

theorem due_file_of_empty (h : ∀ b, g.spot b ≠ .cached e) (hd : (g.file e p).Due a b) : g.Due a b := by
  obtain ⟨c, d, h1, h2, h3⟩ := hd
  refine ⟨c, d, h1, ?_, h3⟩
  rwa [file_place_of_ne fun (e' : c = e) => h a (e' ▸ h1)] at h2

theorem linked_move (hx : x ≠ .linked) (ha : g.spot a ≠ .linked) : (g.move a x).linked = g.linked := by
  ext b
  change (g.move a x).spot b = _ ↔ g.spot b = _
  by_cases hb : b = a
  · subst hb; rw [move_spot_self]; simp [hx, ha]
  · rw [move_spot_of_ne hb]

theorem retired_move (h : g.Retires x ↔ g.Retires (g.spot a)) : (g.move a x).retired = g.retired := by
  ext b
  rw [mem_retired, mem_retired]
  by_cases hb : b = a
  · subst hb; rw [move_spot_self]; exact h
  · rw [move_spot_of_ne hb]; rfl

theorem due_move (h : ∀ e, x = .cached e → (g.place e).due = none) {c : Nat} (hd : (g.move a x).Due c b) : g.Due c b := by
  obtain ⟨e, d, h1, h2, h3⟩ := hd
  by_cases hc : c = a
  · subst hc
    rw [move_spot_self] at h1
    rw [move_place, h e h1] at h2
    cases h2
  · rw [move_spot_of_ne hc] at h1
    exact ⟨e, d, h1, h2, h3⟩

theorem mine_move (hx : x ≠ .mine j) (ha : g.spot a ≠ .mine j) : (g.move a x).mine j = g.mine j := by
  ext b
  change (g.move a x).spot b = _ ↔ g.spot b = _
  by_cases hb : b = a
  · subst hb; rw [move_spot_self]; simp [hx, ha]
  · rw [move_spot_of_ne hb]

/-! ## Parts of the invariant that do not see a change -/

/-- On one of the shared lists. -/
def Place.Shared : Place n → Prop
  | .fill => True
  | .batch _ => True
  | .head => True
  | _ => False

section Frame

variable {r t : VerEntry} {h : Option Nat} {next next' : Nat → Option Nat} {place place' : Nat → Place n}
  {fill batch pool : List Nat}

theorem Queues.frame (hq : Queues r t h next place fill batch pool)
    (hE : ∀ e ∈ E, ¬ (place e).Shared ∧ ¬ (place' e).Shared) (hplace : ∀ e ∉ E, place' e = place e)
    (hnext : ∀ e ∉ E, next' e = next e) : Queues r t h next' place' fill batch pool := by
  have hout : ∀ e, (place e).Shared → e ∉ E := fun e hs he => (hE e he).1 hs
  have hlinked : ∀ {q l}, (∀ e ∈ l, (place e).Shared) → Linked next q l → Linked next' q l :=
    fun hl hlink => hlink.congr fun e he => hnext e (hout e (hl e he))
  have hfill : ∀ e ∈ fill, (place e).Shared := fun e he => by rw [(hq.mem_fill e).1 he]; trivial
  have hpool : ∀ e ∈ pool, (place e).Shared := fun e he => by rw [(hq.mem_pool e).1 he]; trivial
  have hbatch : ∀ e ∈ batch, (place e).Shared := fun e he => by
    obtain ⟨d, hd⟩ := (hq.mem_batch e).1 he
    rw [hd]; trivial
  have hiff : ∀ (φ : Place n → Prop), (∀ p, φ p → p.Shared) → ∀ e, φ (place e) ↔ φ (place' e) := by
    intro φ hφ e
    by_cases he : e ∈ E
    · exact ⟨fun h1 => absurd (hφ _ h1) (hE e he).1, fun h1 => absurd (hφ _ h1) (hE e he).2⟩
    · rw [hplace e he]
  refine ⟨fun hv => hlinked hfill (hq.link_fill hv), hq.fill_nil, fun hv => hlinked hbatch (hq.link_batch hv),
    fun hv => ⟨hlinked hbatch (hq.link_frozen hv).1, (hq.link_frozen hv).2⟩, hlinked hpool hq.link_pool,
    hq.nodup_fill, hq.nodup_batch, hq.nodup_pool, fun e => ?_, fun e => ?_, fun e => ?_⟩
  · exact (hq.mem_fill e).trans (hiff (· = .fill) (by rintro p rfl; trivial) e)
  · exact (hq.mem_batch e).trans (hiff (fun p => ∃ d, p = .batch d) (by rintro p ⟨d, rfl⟩; trivial) e)
  · exact (hq.mem_pool e).trans (hiff (· = .head) (by rintro p rfl; trivial) e)

theorem Clock.frame {localVer : Fin n → Nat} (hc : Clock r t localVer place)
    (hbatch : ∀ e ∈ E, ∀ d, place' e = .batch d → place e = .batch d)
    (hwork : ∀ e ∈ E, ∀ i d x k, place' e = .work i d x k → d ≤ localVer i)
    (hplace : ∀ e ∉ E, place' e = place e) : Clock r t localVer place' := by
  refine ⟨hc.even, hc.near, hc.local_le, hc.local_even, fun e d hd => ?_, fun e i d x k hd => ?_⟩
  · by_cases he : e ∈ E
    · exact hc.batch e d (hbatch e he d hd)
    · rw [hplace e he] at hd
      exact hc.batch e d hd
  · by_cases he : e ∈ E
    · exact hwork e he i d x k hd
    · rw [hplace e he] at hd
      exact hc.work e i d x k hd

theorem Owners.frame {alloc_cache free_cache : Fin n → Option Nat} {brk : Nat} {free free' : Nat → Nat}
    (ho : Owners alloc_cache free_cache brk free place)
    (hcache : ∀ e ∈ E, ∀ i, place' e = .free i ↔ place e = .free i)
    (halloc : ∀ e ∈ E, ∀ i, place' e = .alloc i ↔ place e = .alloc i)
    (hraw : ∀ e ∈ E, place' e = .raw ↔ place e = .raw)
    (hspent : ∀ e ∈ E, free e = 0 → free' e = 0)
    (hplace : ∀ e ∉ E, place' e = place e) (hfree : ∀ e ∉ E, free' e = free e) :
    Owners alloc_cache free_cache brk free' place' := by
  have hiff : ∀ p : Place n, (∀ e ∈ E, place' e = p ↔ place e = p) → ∀ e, place' e = p ↔ place e = p := by
    intro p hp e
    by_cases he : e ∈ E
    · exact hp e he
    · rw [hplace e he]
  have halloc' := fun i => hiff (.alloc i) fun e he => halloc e he i
  refine ⟨fun i e => ?_, fun i e h => ?_, fun i e h => ?_, fun e => (hiff .raw hraw e).trans (ho.raw e)⟩
  · exact (hiff (.free i) (fun e he => hcache e he i) e).trans (ho.filling i e)
  · exact (halloc' i e).2 (ho.serving i e h)
  · refine (ho.spent i e ((halloc' i e).1 h)).imp_right fun h0 => ?_
    by_cases he : e ∈ E
    · exact hspent e he h0
    · rwa [hfree e he]

/-- Every cache but those of `E` keeps its objects. -/
theorem Stock.frame {free free' : Nat → Nat} {ptrs ptrs' : Nat → Nat → Ptr} (hs : Stock free ptrs g)
    (hplace : ∀ e ∉ E, g'.place e = g.place e) (hfree : ∀ e ∉ E, free' e = free e)
    (hptrs : ∀ e ∉ E, ptrs' e = ptrs e)
    (hcached : ∀ e ∉ E, g'.objects (.cached e) = g.objects (.cached e))
    (hkept : ∀ e ∉ E, g'.objects (.kept e) = g.objects (.kept e))
    (hsize : ∀ e ∈ E, g'.place e ≠ .raw → free' e ≤ entriesPerCache)
    (hbounds : ∀ e ∈ E, ∀ i d x k, g'.place e = .work i d x k → k ≤ x ∧ x ≤ free' e)
    (hnew : ∀ e ∈ E, (g'.place e).InUse → Slots (ptrs' e) (g'.place e).lo (free' e) (g'.objects (.cached e)))
    (hnew' : ∀ e ∈ E, Slots (ptrs' e) 0 (g'.place e).kept (g'.objects (.kept e)))
    (hin : ∀ e ∈ E, ∀ a, g'.spot a = .cached e → (g'.place e).InUse) : Stock free' ptrs' g' := by
  refine ⟨fun e => ?_, fun e i d x k => ?_, fun e => ?_, fun e => ?_, fun e a ha => ?_⟩
  · by_cases he : e ∈ E
    · exact hsize e he
    · rw [hplace e he, hfree e he]; exact hs.size e
  · by_cases he : e ∈ E
    · exact hbounds e he i d x k
    · rw [hplace e he, hfree e he]; exact hs.bounds e i d x k
  · by_cases he : e ∈ E
    · exact hnew e he
    · rw [hplace e he, hfree e he, hptrs e he, hcached e he]; exact hs.cached e
  · by_cases he : e ∈ E
    · exact hnew' e he
    · rw [hplace e he, hptrs e he, hkept e he]; exact hs.kept e
  · by_cases he : e ∈ E
    · exact hin e he a ha
    · have hmem : (⟨a, false⟩ : Ptr) ∈ g'.objects (.cached e) := ⟨rfl, ha⟩
      rw [hcached e he] at hmem
      rw [hplace e he]
      exact hs.inUse e a hmem.2

/-- The slots depend on places and spots only. -/
theorem Stock.ghost {free : Nat → Nat} {ptrs : Nat → Nat → Ptr} (hs : Stock free ptrs g) (hplace : g'.place = g.place)
    (hspot : g'.spot = g.spot) : Stock free ptrs g' := by
  have hobjects : ∀ x, g'.objects x = g.objects x := fun x => by rw [Ghost.objects, hspot]; rfl
  refine ⟨?_, ?_, fun e => ?_, fun e => ?_, ?_⟩
  · rw [hplace]; exact hs.size
  · rw [hplace]; exact hs.bounds
  · rw [hplace, hobjects]; exact hs.cached e
  · rw [hplace, hobjects]; exact hs.kept e
  · rw [hplace, hspot]; exact hs.inUse

theorem Supply.frame {spare : Nat → Nat} {spares : Nat} {spot spot' : Nat → Spot n} (hs : Supply spare spares spot)
    (h : ∀ a, spot a = .away → spot' a = .away) : Supply spare spares spot' :=
  ⟨h 0 hs.zero, fun k hk => h _ (hs.away k hk)⟩

end Frame

end OptimisticAccess.MOA
