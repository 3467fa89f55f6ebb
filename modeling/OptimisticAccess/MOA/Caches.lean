import OptimisticAccess.MOA.Shelve

/-!
# The writing steps of `allocatorOA.c`

One lemma for each step that moves a cache or an object of the allocator: it keeps `Shape`, and it
is a `Trans`.
-/

namespace OptimisticAccess.MOA

open Conc

variable {n : Nat} {s s' : Mem n} {g g' g₁ : Ghost n} {i j : Fin n} {a b e d v : Nat} {x y : Spot n} {p : Place n}

theorem Listed.mem (hword : s'.word = s.word) (hdirty : s'.dirtyNphase = s.dirtyNphase) (hHPs : s'.HPs = s.HPs) :
    Listed s g s' g :=
  ⟨hword, hdirty, hHPs, rfl, rfl, rfl, rfl, rfl, rfl, fun _ _ h => .inl h, fun _ _ => rfl⟩

/-- A step that touches no cache and no object. -/
theorem Touch.none (hnext : s'.next = s.next) (hfree : s'.free = s.free) (hptrs : s'.ptrs = s.ptrs)
    (halloc : s'.alloc_cache = s.alloc_cache) (hcache : s'.free_cache = s.free_cache)
    (hver : ∀ j, j ≠ i → s'.localVer j = s.localVer j) (hhps : ∀ j, j ≠ i → s'.hps j = s.hps j) :
    Touch i ∅ ∅ s g s' g :=
  ⟨fun _ _ => rfl, fun _ _ => by rw [hnext], fun _ _ => by rw [hfree], fun _ _ => by rw [hptrs], fun _ _ => rfl,
    fun _ h => h.elim, fun _ h => h.elim, fun _ _ => by rw [halloc], fun _ _ => by rw [hcache], hver, hhps⟩

theorem Touch.none_trans (h : Touch i ∅ ∅ s g s' g) (hl : Listed s g s' g)
    (ht : Ticks s.reclaim s.toProcess s'.reclaim s'.toProcess) : Trans i s g s' g :=
  h.trans hl ht (fun _ h => h.elim) fun _ h => h.elim

/-! ## The three compare-and-swaps of `Reclamation`, and the new version -/

section Versions

variable {r t : VerEntry} {lv : Fin n → Nat} {place : Nat → Place n} {hd : Option Nat} {next : Nat → Option Nat}
  {fill batch pool : List Nat}

theorem Clock.handOver (hc : Clock r t lv place) (ht : t.ver = v) (hr : r.ver = v + 1) (q : Option Nat) :
    Clock r ⟨q, v + 2⟩ lv place := by
  have heven := hc.even
  refine ⟨?_, ?_, hc.local_le, hc.local_even, hc.batch, hc.work⟩
  · change (v + 2) % 2 = 0
    omega
  · change _ = v + 2 ∨ _ = v + 2 + 1 ∨ _ + 1 = v + 2
    omega

theorem Queues.handOver (hq : Queues r t hd next place fill batch pool) (ht : t.ver = v) (hr : r.ver = v + 1) :
    Queues r ⟨r.head, v + 2⟩ hd next place fill batch pool := by
  refine ⟨hq.link_fill, hq.fill_nil, fun _ => (hq.link_frozen (by omega)).1, fun h => ?_, hq.link_pool, hq.nodup_fill,
    hq.nodup_batch, hq.nodup_pool, hq.mem_fill, hq.mem_batch, hq.mem_pool⟩
  change _ = v + 2 + 1 at h
  omega

theorem level_reset (hr : r.ver = v + 1) (hv : v % 2 = 0) (q : Option Nat) : level ⟨q, v + 2⟩ = level r := by
  unfold level
  change (v + 2 + 1) / 2 * 2 = _
  omega

theorem Clock.resetReclaim (hc : Clock r t lv place) (hr : r.ver = v + 1) (ht : v + 2 ≤ t.ver) (hv : v % 2 = 0) :
    Clock ⟨none, v + 2⟩ t lv place := by
  have hnear := hc.near
  refine ⟨hc.even, ?_, fun j => ?_, hc.local_even, fun e d hd => (hc.batch e d hd).trans (level_reset hr hv _).symm, hc.work⟩
  · change v + 2 = _ ∨ v + 2 = _ ∨ v + 2 + 1 = _
    omega
  · have := hc.local_le j
    change _ ≤ v + 2
    omega

theorem Queues.resetReclaim (hq : Queues r t hd next place fill batch pool) (hr : r.ver = v + 1) (ht : v + 2 ≤ t.ver)
    (hv : v % 2 = 0) : Queues ⟨none, v + 2⟩ t hd next place fill batch pool := by
  have hnil := hq.fill_nil (by omega)
  refine ⟨fun _ => ?_, fun h => ?_, fun _ => hq.link_batch (by omega), fun h => ?_, hq.link_pool, hq.nodup_fill,
    hq.nodup_batch, hq.nodup_pool, hq.mem_fill, hq.mem_batch, hq.mem_pool⟩
  · rw [hnil]; rfl
  · change (v + 2) % 2 = 1 at h
    omega
  · change v + 2 = _ at h
    omega

theorem Clock.setLocalVer (hc : Clock r t lv place) (hv : lv i + 2 ≤ r.ver) :
    Clock r t (Function.update lv i (lv i + 2)) place := by
  have hle : ∀ j, lv j ≤ Function.update lv i (lv i + 2) j := by
    intro j
    by_cases hj : j = i
    · subst hj; rw [Function.update_self]; omega
    · rw [Function.update_of_ne hj]
  refine ⟨hc.even, hc.near, fun j => ?_, fun j => ?_, hc.batch, fun e j d x k h => (hc.work e j d x k h).trans (hle j)⟩
  · by_cases hj : j = i
    · subst hj; rw [Function.update_self]; exact hv
    · rw [Function.update_of_ne hj]; exact hc.local_le j
  · have heven := hc.local_even j
    by_cases hj : j = i
    · subst hj; rw [Function.update_self]; omega
    · rw [Function.update_of_ne hj]; exact heven

end Versions

theorem Shape.handOver (hs : Shape s g) (ht : s.toProcess.ver = v) (hr : s.reclaim.ver = v + 1) :
    Shape { s with toProcess := ⟨s.reclaim.head, v + 2⟩ } g ∧
      Trans i s g { s with toProcess := ⟨s.reclaim.head, v + 2⟩ } g := by
  have hl : Listed s g { s with toProcess := ⟨s.reclaim.head, v + 2⟩ } g := .mem rfl rfl rfl
  have htouch : Touch i ∅ ∅ s g { s with toProcess := ⟨s.reclaim.head, v + 2⟩ } g :=
    .none rfl rfl rfl rfl rfl (fun _ _ => rfl) fun _ _ => rfl
  have htick : Ticks s.reclaim s.toProcess s.reclaim ⟨s.reclaim.head, v + 2⟩ := by
    refine ⟨le_refl _, fun _ _ => rfl, ?_, fun h => ?_⟩
    · change _ ≤ v + 2
      omega
    · change v + 2 = _ at h
      omega
  exact ⟨hs.shelve hl (le_refl _) (hs.clock.handOver ht hr _) (hs.queues.handOver ht hr) hs.owners hs.stock hs.supply,
    htouch.none_trans hl htick⟩

theorem Shape.resetReclaim (hs : Shape s g) (hr : s.reclaim.ver = v + 1) (ht : v + 2 ≤ s.toProcess.ver)
    (hv : v % 2 = 0) :
    Shape { s with reclaim := ⟨none, v + 2⟩ } g ∧ Trans i s g { s with reclaim := ⟨none, v + 2⟩ } g := by
  have hl : Listed s g { s with reclaim := ⟨none, v + 2⟩ } g := .mem rfl rfl rfl
  have htouch : Touch i ∅ ∅ s g { s with reclaim := ⟨none, v + 2⟩ } g :=
    .none rfl rfl rfl rfl rfl (fun _ _ => rfl) fun _ _ => rfl
  have htick : Ticks s.reclaim s.toProcess ⟨none, v + 2⟩ s.toProcess := by
    refine ⟨?_, fun _ h => ?_, le_refl _, fun _ h => h⟩
    · change _ ≤ v + 2
      omega
    · change v + 2 = _ at h
      omega
  exact ⟨hs.shelve hl (level_reset hr hv none).symm.le (hs.clock.resetReclaim hr ht hv) (hs.queues.resetReclaim hr ht hv)
    hs.owners hs.stock hs.supply, htouch.none_trans hl htick⟩

theorem Shape.setLocalVer (hs : Shape s g) (hv : s.localVer i + 2 ≤ s.reclaim.ver) :
    Shape { s with localVer := Function.update s.localVer i (s.localVer i + 2) } g ∧
      Trans i s g { s with localVer := Function.update s.localVer i (s.localVer i + 2) } g := by
  have hl : Listed s g { s with localVer := Function.update s.localVer i (s.localVer i + 2) } g := .mem rfl rfl rfl
  have htouch : Touch i ∅ ∅ s g { s with localVer := Function.update s.localVer i (s.localVer i + 2) } g :=
    .none rfl rfl rfl rfl rfl (fun j hj => Function.update_of_ne hj ..) fun _ _ => rfl
  exact ⟨hs.shelve hl (le_refl _) (hs.clock.setLocalVer hv) hs.queues hs.owners hs.stock hs.supply,
    htouch.none_trans hl (.refl _ _)⟩

/-! ## The batch is frozen -/

def Place.freeze (due : Nat) : Place n → Place n
  | .fill => .batch due
  | p => p

/-- The frozen batch takes the place of the last one, which has been used up. -/
def Ghost.freeze (g : Ghost n) (due : Nat) : Ghost n :=
  { g with place := fun e => (g.place e).freeze due, fill := [], batch := g.fill }

section Freeze

variable {due : Nat}

theorem Place.freeze_eq (p : Place n) (due : Nat) : p.freeze due = p ∨ (p = .fill ∧ p.freeze due = .batch due) := by
  cases p <;> simp [Place.freeze]

@[simp] theorem Place.freeze_owner : (p.freeze due).owner = p.owner := by cases p <;> rfl

@[simp] theorem Place.freeze_waits : (p.freeze due).Waits ↔ p.Waits := by cases p <;> rfl

@[simp] theorem Place.freeze_inUse : (p.freeze due).InUse ↔ p.InUse := by cases p <;> rfl

@[simp] theorem Place.freeze_lo : (p.freeze due).lo = p.lo := by cases p <;> rfl

@[simp] theorem Place.freeze_kept : (p.freeze due).kept = p.kept := by cases p <;> rfl

theorem Place.rank_freeze : p.rank ≤ (p.freeze due).rank := by cases p <;> simp [Place.freeze, Place.rank]

theorem Place.freeze_eq_iff {q : Place n} (h1 : ∀ d, q ≠ .batch d) (h2 : q ≠ .fill) : p.freeze due = q ↔ p = q := by
  obtain e | ⟨e, e'⟩ := p.freeze_eq due
  · rw [e]
  · rw [e', e]
    exact ⟨fun h => absurd h.symm (h1 due), fun h => absurd h.symm h2⟩

theorem Ghost.freeze_retired : (g.freeze due).retired = g.retired := by
  ext b
  rw [mem_retired, mem_retired, Ghost.Retires, Ghost.Retires]
  simp only [Ghost.freeze, Place.freeze_waits]

theorem Ghost.due_freeze (h : (g.freeze due).Due a b) : g.Due a b ∨ due ≤ b := by
  obtain ⟨e, d, h1, h2, h3⟩ := h
  change ((g.place e).freeze due).due = _ at h2
  obtain hp | ⟨-, hp⟩ := (g.place e).freeze_eq due
  · rw [hp] at h2
    exact .inl ⟨e, d, h1, h2, h3⟩
  · rw [hp] at h2
    obtain rfl : due = d := Option.some.inj h2
    exact .inr h3

theorem Shape.batch_nil (hs : Shape s g) (hr : s.reclaim.ver = v) (hv : v % 2 = 0)
    (hd : s.toProcess.ver = v → s.toProcess.head = none) : s.toProcess.ver = v ∧ g.batch = [] := by
  have hnear := hs.clock.near
  have heven := hs.clock.even
  have ht : s.toProcess.ver = v := by omega
  have hlink := hs.queues.link_batch (by omega)
  rw [hd ht] at hlink
  refine ⟨ht, ?_⟩
  cases hb : g.batch with
  | nil => rfl
  | cons c l => rw [hb] at hlink; exact absurd hlink.1.symm (Option.some_ne_none c)

theorem Shape.freeze (hs : Shape s g) (hr : s.reclaim.ver = v) (hv : v % 2 = 0)
    (hd : s.toProcess.ver = v → s.toProcess.head = none) :
    Shape { s with reclaim := ⟨s.reclaim.head, v + 1⟩ } (g.freeze (v + 2)) ∧
      Trans i s g { s with reclaim := ⟨s.reclaim.head, v + 1⟩ } (g.freeze (v + 2)) := by
  obtain ⟨ht, hnil⟩ := hs.batch_nil hr hv hd
  have hc := hs.clock
  have hq := hs.queues
  have hnobatch : ∀ e d, g.place e ≠ .batch d := fun e d h => by
    have := (hq.mem_batch e).2 ⟨d, h⟩
    rw [hnil] at this
    exact List.not_mem_nil this
  have hl : Listed s g { s with reclaim := ⟨s.reclaim.head, v + 1⟩ } (g.freeze (v + 2)) :=
    ⟨rfl, rfl, rfl, rfl, rfl, rfl, rfl, rfl, Ghost.freeze_retired,
      fun a b h => (Ghost.due_freeze h).imp_right fun h => by omega, fun _ _ => rfl⟩
  have htouch : Touch i {e | g.place e = .fill} ∅ s g { s with reclaim := ⟨s.reclaim.head, v + 1⟩ } (g.freeze (v + 2)) := by
    refine ⟨fun e he => ?_, fun _ _ => rfl, fun _ _ => rfl, fun _ _ => rfl, fun _ _ => rfl, fun e he j _ => ?_,
      fun _ h => h.elim, fun _ _ => rfl, fun _ _ => rfl, fun _ _ => rfl, fun _ _ => rfl⟩
    · exact ((g.place e).freeze_eq _).resolve_right fun h => he h.1
    · change (g.place e).owner ≠ _ ∧ ((g.place e).freeze _).owner ≠ _
      rw [Place.freeze_owner, show g.place e = .fill from he]
      exact ⟨Option.some_ne_none j ∘ Eq.symm, Option.some_ne_none j ∘ Eq.symm⟩
  have htick : Ticks s.reclaim s.toProcess ⟨s.reclaim.head, v + 1⟩ s.toProcess := by
    refine ⟨?_, fun h => ?_, le_refl _, fun _ h => h⟩
    · change _ ≤ v + 1
      omega
    · omega
  have hlevel : level ⟨s.reclaim.head, v + 1⟩ = v + 2 := by
    unfold level
    change (v + 1 + 1) / 2 * 2 = v + 2
    omega
  refine ⟨hs.shelve hl ?_ ⟨hc.even, ?_, fun j => ?_, hc.local_even, fun e d h => ?_, fun e j d x k h => ?_⟩ ?_ ?_ ?_ hs.supply,
    htouch.trans hl htick (fun e _ => Place.rank_freeze) fun e _ _ _ _ => rfl⟩
  · rw [hlevel]
    unfold level
    omega
  · exact .inr (.inl (congrArg (· + 1) ht.symm))
  · exact (hc.local_le j).trans (hr.trans_le (Nat.le_succ v))
  · obtain hp | ⟨-, hp⟩ := (g.place e).freeze_eq (v + 2)
    · exact absurd (hp.symm.trans h) (hnobatch e d)
    · rw [hlevel]
      exact (Place.batch.inj (hp.symm.trans h)).symm
  · exact hc.work e j d x k ((Place.freeze_eq_iff (by simp) (by simp)).1 h)
  · refine ⟨fun h => ?_, fun _ => rfl, fun h => ?_, fun _ => ⟨hq.link_fill (by omega), hd ht⟩, hq.link_pool, List.nodup_nil,
      hq.nodup_fill, hq.nodup_pool, fun e => ?_, fun e => ?_, fun e => ?_⟩
    · change (v + 1) % 2 = 0 at h
      omega
    · exact absurd (congrArg (· + 1) ht.symm) h
    · refine ⟨fun h => absurd h List.not_mem_nil, fun h => ?_⟩
      obtain hp | ⟨-, hp⟩ := (g.place e).freeze_eq (v + 2)
      · have hfill := hp.symm.trans h
        change (g.place e).freeze (v + 2) = _ at h
        rw [hfill] at h
        cases h
      · cases hp.symm.trans h
    · refine (hq.mem_fill e).trans ⟨fun h => ⟨v + 2, ?_⟩, fun h => ?_⟩
      · change (g.place e).freeze (v + 2) = _
        rw [h]; rfl
      · obtain ⟨d, h⟩ := h
        obtain hp | ⟨hp, -⟩ := (g.place e).freeze_eq (v + 2)
        · exact absurd (hp.symm.trans h) (hnobatch e d)
        · exact hp
    · exact (hq.mem_pool e).trans (Place.freeze_eq_iff (by simp) (by simp)).symm
  · have ho := hs.owners
    exact ⟨fun j e => (Place.freeze_eq_iff (by simp) (by simp)).trans (ho.filling j e),
      fun j e h => (Place.freeze_eq_iff (by simp) (by simp)).2 (ho.serving j e h),
      fun j e h => ho.spent j e ((Place.freeze_eq_iff (by simp) (by simp)).1 h),
      fun e => (Place.freeze_eq_iff (by simp) (by simp)).trans (ho.raw e)⟩
  · have hst := hs.stock
    refine ⟨fun e h => hst.size e fun h' => h ((Place.freeze_eq_iff (by simp) (by simp)).2 h'),
      fun e j d x k h => hst.bounds e j d x k ((Place.freeze_eq_iff (by simp) (by simp)).1 h), fun e h => ?_, fun e => ?_,
      fun e a h => Place.freeze_inUse.2 (hst.inUse e a h)⟩
    · change Slots (s.ptrs e) ((g.place e).freeze (v + 2)).lo (s.free e) (g.objects (.cached e))
      rw [Place.freeze_lo]
      exact hst.cached e (Place.freeze_inUse.1 h)
    · change Slots (s.ptrs e) 0 ((g.place e).freeze (v + 2)).kept (g.objects (.kept e))
      rw [Place.freeze_kept]
      exact hst.kept e

end Freeze

/-! ## A cache changes its place -/

/-- One cache moves, and no object does. -/
theorem Listed.file (hword : s'.word = s.word) (hdirty : s'.dirtyNphase = s.dirtyNphase) (hHPs : s'.HPs = s.HPs)
    (hg : g' = { g.file e p with fill := g'.fill, batch := g'.batch, pool := g'.pool })
    (hwaits : p.Waits ↔ (g.place e).Waits) (hdue : ∀ d, p.due = some d → (g.place e).due = some d) :
    Listed s g s' g' := by
  rw [hg]
  exact ⟨hword, hdirty, hHPs, rfl, rfl, rfl, rfl, rfl, retired_file hwaits, fun _ _ h => .inl (due_file hdue h), fun _ _ => rfl⟩

theorem Touch.file (hg : g' = { g.file e p with fill := g'.fill, batch := g'.batch, pool := g'.pool })
    (hnext : ∀ d ≠ e, s'.next d = s.next d) (hfree : ∀ d ≠ e, s'.free d = s.free d) (hptrs : ∀ d ≠ e, s'.ptrs d = s.ptrs d)
    (hold : ∀ j, j ≠ i → (g.place e).owner ≠ some j) (hnew : ∀ j, j ≠ i → p.owner ≠ some j)
    (halloc : ∀ j, j ≠ i → s'.alloc_cache j = s.alloc_cache j) (hcache : ∀ j, j ≠ i → s'.free_cache j = s.free_cache j)
    (hver : s'.localVer = s.localVer) (hhps : s'.hps = s.hps) : Touch i {e} ∅ s g s' g' := by
  rw [hg]
  refine ⟨fun d hd => file_place_of_ne hd, hnext, hfree, hptrs, fun _ _ => rfl, fun d hd j hj => ?_, fun _ h => h.elim,
    halloc, hcache, fun _ _ => by rw [hver], fun _ _ => by rw [hhps]⟩
  obtain rfl : d = e := hd
  refine ⟨hold j hj, ?_⟩
  change ((g.file d p).place d).owner ≠ some j
  rw [file_place_self]
  exact hnew j hj

/-- A cache that stays as full as it was. -/
theorem Stock.file (hst : Stock s.free s.ptrs g) (hlo : p.lo = (g.place e).lo) (hkept : p.kept = (g.place e).kept)
    (huse : p.InUse) (hold : (g.place e).InUse) : Stock s.free s.ptrs (g.file e p) := by
  have hbounds : (g.place e).kept ≤ (g.place e).lo ∧ ((g.place e).lo = 0 ∨ (g.place e).lo ≤ s.free e) := by
    cases hp : g.place e with
    | work j d x k => exact ⟨(hst.bounds e j d x k hp).1, .inr (hst.bounds e j d x k hp).2⟩
    | _ => exact ⟨Nat.zero_le _, .inl rfl⟩
  refine hst.frame (E := {e}) (fun d hd => file_place_of_ne hd) (fun _ _ => rfl) (fun _ _ => rfl) (fun _ _ => rfl)
    (fun _ _ => rfl) ?_ ?_ ?_ ?_ ?_
  · rintro d rfl -
    exact hst.size d fun h => by rw [h] at hold; exact hold
  · rintro d rfl j d' x k h
    rw [file_place_self] at h
    subst h
    change x = _ at hlo
    change k = _ at hkept
    omega
  · rintro d rfl h
    rw [file_place_self, hlo]
    exact hst.cached d hold
  · rintro d rfl
    rw [file_place_self, hkept]
    exact hst.kept d
  · rintro d rfl a _
    rw [file_place_self]
    exact huse

theorem Place.not_shared_of_owner (h : p.owner = some i) : ¬ p.Shared := by
  cases p <;> simp_all [Place.owner, Place.Shared]

section Queue

variable {r t : VerEntry} {place : Nat → Place n} {hd : Option Nat} {next : Nat → Option Nat}
  {fill batch pool rest : List Nat}

theorem Queues.pop (hq : Queues r t hd next place fill (e :: rest) pool) (hr : r.ver ≠ t.ver + 1)
    (hlink : Linked next (next e) rest) (hplace : place e = .batch v) (hp : ¬ p.Shared) :
    Queues r ⟨next e, t.ver⟩ hd next (Function.update place e p) fill rest pool := by
  obtain ⟨hnot, hnd⟩ := List.nodup_cons.1 hq.nodup_batch
  have hother : ∀ (φ : Place n → Prop), (∀ q, φ q → q.Shared) → ¬ φ (place e) → ∀ d,
      φ (place d) ↔ φ (Function.update place e p d) := by
    intro φ hφ hold d
    by_cases hd : d = e
    · subst hd
      rw [Function.update_self]
      exact ⟨fun h => absurd h hold, fun h => absurd (hφ _ h) hp⟩
    · rw [Function.update_of_ne hd]
  refine ⟨hq.link_fill, hq.fill_nil, fun _ => hlink, fun h => absurd h hr, hq.link_pool, hq.nodup_fill, hnd, hq.nodup_pool,
    fun d => ?_, fun d => ?_, fun d => ?_⟩
  · refine (hq.mem_fill d).trans (hother (· = .fill) (by rintro q rfl; trivial) ?_ d)
    rw [hplace]; exact fun h => by cases h
  · have hmem := hq.mem_batch d
    rw [List.mem_cons] at hmem
    by_cases hd : d = e
    · subst hd
      rw [Function.update_self]
      refine ⟨fun h => absurd h hnot, fun ⟨c, h⟩ => absurd ?_ hp⟩
      rw [h]; trivial
    · rw [Function.update_of_ne hd]
      exact ⟨fun h => hmem.1 (.inr h), fun h => (hmem.2 h).resolve_left hd⟩
  · refine (hq.mem_pool d).trans (hother (· = .head) (by rintro q rfl; trivial) ?_ d)
    rw [hplace]; exact fun h => by cases h

end Queue

/-- The pop of `toProcess`. -/
theorem Shape.pop (hs : Shape s g) (hhead : s.toProcess.head = some e) (hv : s.localVer i = s.toProcess.ver) :
    Shape { s with toProcess := ⟨s.next e, s.toProcess.ver⟩ }
        { g.file e (.work i s.toProcess.ver 0 0) with batch := g.batch.tail } ∧
      Trans i s g { s with toProcess := ⟨s.next e, s.toProcess.ver⟩ }
        { g.file e (.work i s.toProcess.ver 0 0) with batch := g.batch.tail } ∧ g.place e = .batch s.toProcess.ver := by
  have hc := hs.clock
  have hq := hs.queues
  have hr : s.reclaim.ver ≠ s.toProcess.ver + 1 := fun h => by
    have := (hq.link_frozen h).2
    rw [hhead] at this
    cases this
  have hlink := hq.link_batch hr
  rw [hhead] at hlink
  obtain ⟨rest, hbatch, hrest⟩ := hlink.top
  have hplace : g.place e = .batch s.toProcess.ver := by
    obtain ⟨d, hd⟩ := (hq.mem_batch e).1 (by rw [hbatch]; exact List.mem_cons_self)
    rw [hd, hc.batch e d hd]
    congr 1
    have h1 := hc.even
    have h2 := hc.near
    unfold level
    omega
  have htail : g.batch.tail = rest := by rw [hbatch]; rfl
  rw [htail]
  have hne : ∀ d, d ≠ e → (g.file e (.work i s.toProcess.ver 0 0)).place d = g.place d := fun d hd => file_place_of_ne hd
  have hl : Listed s g { s with toProcess := ⟨s.next e, s.toProcess.ver⟩ }
      { g.file e (.work i s.toProcess.ver 0 0) with batch := rest } := by
    refine .file rfl rfl rfl rfl ?_ ?_
    · rw [hplace]; exact Iff.rfl
    · rw [hplace]; exact fun _ h => h
  have htouch : Touch i {e} ∅ s g { s with toProcess := ⟨s.next e, s.toProcess.ver⟩ }
      { g.file e (.work i s.toProcess.ver 0 0) with batch := rest } := by
    refine .file (p := .work i s.toProcess.ver 0 0) rfl (fun _ _ => rfl) (fun _ _ => rfl) (fun _ _ => rfl) (fun j hj => ?_) (fun j hj h => ?_)
      (fun _ _ => rfl) (fun _ _ => rfl) rfl rfl
    · rw [hplace]; exact (Option.some_ne_none j).symm
    · exact hj (Option.some.inj h).symm
  have htick : Ticks s.reclaim s.toProcess s.reclaim ⟨s.next e, s.toProcess.ver⟩ := by
    refine ⟨le_refl _, fun _ _ => rfl, le_refl _, fun _ h => ?_⟩
    rw [hhead] at h
    cases h
  refine ⟨hs.shelve hl (le_refl _) ?_ ?_ ?_ ?_ hs.supply, htouch.trans hl htick ?_ ?_, hplace⟩
  · have hc' : Clock s.reclaim ⟨s.next e, s.toProcess.ver⟩ s.localVer g.place :=
      ⟨hc.even, hc.near, hc.local_le, hc.local_even, hc.batch, hc.work⟩
    refine hc'.frame (E := {e}) ?_ ?_ hne
    · rintro d rfl d' h
      rw [file_place_self] at h
      cases h
    · rintro d rfl j d' x k h
      rw [file_place_self] at h
      cases h
      exact hv.symm.le
  · rw [hbatch] at hq
    exact hq.pop hr hrest hplace id
  · refine hs.owners.frame (E := {e}) ?_ ?_ ?_ (fun _ _ h => h) hne fun _ _ => rfl
    · rintro d rfl j
      simp [hplace]
    · rintro d rfl j
      simp [hplace]
    · rintro d rfl
      simp [hplace]
  · exact (hs.stock.file (e := e) (p := .work i s.toProcess.ver 0 0) (by rw [hplace]; rfl) (by rw [hplace]; rfl) trivial
      (by rw [hplace]; trivial)).ghost rfl rfl
  · rintro d rfl
    change _ ≤ ((g.file d _).place d).rank
    rw [file_place_self, hplace]
    exact Nat.le_succ 3
  · rintro d rfl _ h
    change ((g.file d _).place d).rank = _ at h
    rw [file_place_self, hplace] at h
    cases h

/-! ## One cache and one object change -/

theorem Listed.shift (hword : s'.word = s.word) (hdirty : s'.dirtyNphase = s.dirtyNphase) (hHPs : s'.HPs = s.HPs)
    (hg : g' = { (g.file e p).move a x with fill := g'.fill, batch := g'.batch, pool := g'.pool })
    (hwaits : (g.file e p).retired = g.retired) (hdue : ∀ d, p.due = some d → (g.place e).due = some d)
    (hx : x ≠ .linked) (ha : g.spot a ≠ .linked) (hret : (g.file e p).Retires x ↔ (g.file e p).Retires (g.spot a))
    (hnew : ∀ d, x = .cached d → ((g.file e p).place d).due = none)
    (hmine : ∀ j, g.window j → x ≠ .mine j ∧ g.spot a ≠ .mine j) : Listed s g s' g' := by
  rw [hg]
  refine ⟨hword, hdirty, hHPs, rfl, rfl, rfl, rfl, linked_move (g := g.file e p) hx ha, ?_,
    fun c b h => .inl (due_file hdue (due_move (g := g.file e p) hnew h)),
    fun j hj => mine_move (g := g.file e p) (hmine j hj).1 (hmine j hj).2⟩
  exact (retired_move (g := g.file e p) hret).trans hwaits

theorem Touch.shift (hg : g' = { (g.file e p).move a x with fill := g'.fill, batch := g'.batch, pool := g'.pool })
    (hnext : ∀ d ≠ e, s'.next d = s.next d) (hfree : ∀ d ≠ e, s'.free d = s.free d) (hptrs : ∀ d ≠ e, s'.ptrs d = s.ptrs d)
    (hold : ∀ j, j ≠ i → (g.place e).owner ≠ some j) (hnew : ∀ j, j ≠ i → p.owner ≠ some j)
    (holda : ∀ j, j ≠ i → (g.spot a).owner ≠ some j) (hnewa : ∀ j, j ≠ i → x.owner ≠ some j)
    (halloc : ∀ j, j ≠ i → s'.alloc_cache j = s.alloc_cache j) (hcache : ∀ j, j ≠ i → s'.free_cache j = s.free_cache j)
    (hver : s'.localVer = s.localVer) (hhps : s'.hps = s.hps) : Touch i {e} {a} s g s' g' := by
  rw [hg]
  refine ⟨fun d hd => file_place_of_ne hd, hnext, hfree, hptrs, fun b hb => move_spot_of_ne hb, fun d hd j hj => ?_,
    fun b hb j hj => ?_, halloc, hcache, fun _ _ => by rw [hver], fun _ _ => by rw [hhps]⟩
  · obtain rfl : d = e := hd
    refine ⟨hold j hj, ?_⟩
    change ((g.file d p).place d).owner ≠ some j
    rw [file_place_self]
    exact hnew j hj
  · obtain rfl : b = a := hb
    refine ⟨holda j hj, ?_⟩
    change (((g.file e p).move b x).spot b).owner ≠ some j
    rw [move_spot_self]
    exact hnewa j hj

/-- A step that is followed by another one, and leaves the list alone. -/
theorem Trans.after {s₁ : Mem n} (hl : Listed s g s₁ g₁) (h₁ : Trans i s g s₁ g₁) (h₂ : Trans i s₁ g₁ s' g') :
    Trans i s g s' g' := by
  have hlive : g₁.live = g.live := by rw [Ghost.live, hl.linked, hl.retired]; rfl
  have hnextEntry : ∀ a, s₁.nextEntry a = s.nextEntry a := fun a => congrFun hl.word (.next a)
  refine ⟨fun j hj => ?_, fun hd => ?_, fun e => (h₁.rank e).trans (h₂.rank e), fun e ho hr hraw => ?_, h₁.reclaim.trans h₂.reclaim,
    fun hodd hv => ?_, h₁.toProcess.trans h₂.toProcess, fun hv hd => ?_, fun j => (h₁.warned j).trans (h₂.warned j),
    fun j => ?_, fun a ha ha' ht => ?_, fun a b hab => ?_, fun j hj => ?_⟩
  · have p₁ := h₁.priv j hj
    have p₂ := h₂.priv j hj
    have hspot : ∀ a, (g.spot a).owner = some j ∨ (g'.spot a).owner = some j → g₁.spot a = g.spot a ∧ g'.spot a = g₁.spot a := by
      rintro a (ha | ha)
      · have e₁ := p₁.spot a (.inl ha)
        exact ⟨e₁, p₂.spot a (.inl (e₁ ▸ ha))⟩
      · have e₂ := p₂.spot a (.inr ha)
        exact ⟨p₁.spot a (.inr (e₂ ▸ ha)), e₂⟩
    have hplace : ∀ e, (g.place e).owner = some j ∨ (g'.place e).owner = some j →
        g₁.place e = g.place e ∧ g'.place e = g₁.place e := by
      rintro e (he | he)
      · have e₁ := p₁.place e (.inl he)
        exact ⟨e₁, p₂.place e (.inl (e₁ ▸ he))⟩
      · have e₂ := p₂.place e (.inr he)
        exact ⟨p₁.place e (.inr (e₂ ▸ he)), e₂⟩
    have hown : ∀ e, (g.place e).owner = some j → (g₁.place e).owner = some j := fun e he => by
      rw [(hplace e (.inl he)).1]; exact he
    refine ⟨p₂.alloc_cache.trans p₁.alloc_cache, p₂.free_cache.trans p₁.free_cache, p₂.localVer.trans p₁.localVer,
      p₂.hps.trans p₁.hps, p₂.HPs.trans p₁.HPs, p₂.window.trans p₁.window, fun a ha => ?_, fun a ha => ?_, fun e he => ?_,
      fun e he => (p₂.next e (hown e he)).trans (p₁.next e he), fun e he => (p₂.free e (hown e he)).trans (p₁.free e he),
      fun e he => (p₂.ptrs e (hown e he)).trans (p₁.ptrs e he), p₁.since.trans p₂.since, fun h => p₂.spoiled (p₁.spoiled h)⟩
    · exact (hspot a ha).2.trans (hspot a ha).1
    · have e₁ := (hspot a (.inl (by rw [ha]; rfl))).1
      exact (p₂.word a (e₁.trans ha)).trans (p₁.word a ha)
    · exact (hplace e he).2.trans (hplace e he).1
  · have h := h₂.own
    rw [hl.since, hl.spoiled, hl.dirty] at h
    exact h hd
  · have hr₁ : (g₁.place e).rank = (g.place e).rank := by
      have h1 := h₁.rank e
      have h2 := h₂.rank e
      omega
    have hraw₁ : g₁.place e ≠ .raw := by
      intro h
      rw [h] at hr₁
      cases hp : g.place e <;> simp_all [Place.rank]
    exact (h₂.next e (Place.owner_eq_none_of_rank ho hr₁) (hr.trans hr₁.symm) hraw₁).trans (h₁.next e ho hr₁ hraw)
  · have h1 := h₁.reclaim
    have h2 := h₂.reclaim
    have e₁ := h₁.frozen hodd (by omega)
    exact (h₂.frozen (by rw [e₁]; exact hodd) (by rw [e₁]; exact hv)).trans e₁
  · have h1 := h₁.toProcess
    have h2 := h₂.toProcess
    exact h₂.drained (by omega) (h₁.drained (by omega) hd)
  · rw [← hl.dirtyNphase]
    exact h₂.stamp j
  · rw [← hnextEntry]
    exact h₂.marked a (hlive ▸ ha) ha' (by rw [hnextEntry]; exact ht)
  · obtain hab | hlt := h₂.due a b hab
    · exact h₁.due a b hab
    · exact .inr (h₁.reclaim.trans_lt hlt)
  · have hw := h₂.window j hj
    rwa [hl.window, hl.HPs, hl.warned] at hw

/-! ## Links, tables and spare objects -/

/-- The link of a cache of its own. -/
theorem Shape.setNext (hs : Shape s g) (ho : (g.place e).owner = some i) (d : Option Nat) :
    Shape (s.setNext e d) g ∧ Trans i s g (s.setNext e d) g := by
  have hl : Listed s g (s.setNext e d) g := .mem rfl rfl rfl
  have hne : ∀ c, c ∉ ({e} : Set Nat) → (s.setNext e d).next c = s.next c := fun c hc => Function.update_of_ne hc ..
  have htouch : Touch i {e} ∅ s g (s.setNext e d) g := by
    refine ⟨fun _ _ => rfl, hne, fun _ _ => rfl, fun _ _ => rfl, fun _ _ => rfl, fun c hc j hj => ?_, fun _ h => h.elim,
      fun _ _ => rfl, fun _ _ => rfl, fun _ _ => rfl, fun _ _ => rfl⟩
    obtain rfl : c = e := hc
    rw [ho]
    exact ⟨fun h => hj (Option.some.inj h).symm, fun h => hj (Option.some.inj h).symm⟩
  refine ⟨hs.shelve hl (le_refl _) hs.clock (hs.queues.frame (E := {e}) ?_ (fun _ _ => rfl) hne) hs.owners hs.stock hs.supply,
    htouch.trans hl (.refl _ _) (fun _ _ => le_refl _) ?_⟩
  · rintro c rfl
    exact ⟨Place.not_shared_of_owner ho, Place.not_shared_of_owner ho⟩
  · rintro c rfl h
    rw [ho] at h
    cases h

theorem Shape.setHps (hs : Shape s g) (set : HashTable) : Shape (s.setHps i set) g ∧ Trans i s g (s.setHps i set) g := by
  have hl : Listed s g (s.setHps i set) g := .mem rfl rfl rfl
  have htouch : Touch i ∅ ∅ s g (s.setHps i set) g :=
    .none rfl rfl rfl rfl rfl (fun _ _ => rfl) fun j hj => Function.update_of_ne hj ..
  exact ⟨hs.shelve hl (le_refl _) hs.clock hs.queues hs.owners hs.stock hs.supply, htouch.none_trans hl (.refl _ _)⟩

/-- Steps that the bookkeeping does not see. -/
theorem Shape.unseen (hs : Shape s g) (keyData : Nat → BitVec 64) (stop : Bool) :
    Shape { s with keyData := keyData, stop := stop } g ∧ Trans i s g { s with keyData := keyData, stop := stop } g := by
  have hl : Listed s g { s with keyData := keyData, stop := stop } g := .mem rfl rfl rfl
  have htouch : Touch i ∅ ∅ s g { s with keyData := keyData, stop := stop } g :=
    .none rfl rfl rfl rfl rfl (fun _ _ => rfl) fun _ _ => rfl
  exact ⟨hs.shelve hl (le_refl _) hs.clock hs.queues hs.owners hs.stock hs.supply, htouch.none_trans hl (.refl _ _)⟩

theorem Stock.move (hst : Stock s.free s.ptrs g) (hx : ∀ e, x ≠ .cached e ∧ x ≠ .kept e)
    (ha : ∀ e, g.spot a ≠ .cached e ∧ g.spot a ≠ .kept e) : Stock s.free s.ptrs (g.move a x) :=
  hst.frame (E := ∅) (fun _ _ => rfl) (fun _ _ => rfl) (fun _ _ => rfl)
    (fun e _ => objects_move_of_ne (hx e).1 (ha e).1) (fun e _ => objects_move_of_ne (hx e).2 (ha e).2)
    (fun _ h => h.elim) (fun _ h => h.elim) (fun _ h => h.elim) (fun _ h => h.elim) fun _ h => h.elim

/-- `malloc` of an object. -/
theorem Shape.spare (hs : Shape s g) (hw : ¬ g.window i) (hinj : Function.Injective s.spare)
    (h0 : ∀ k, s.spare k ≠ 0) :
    Shape { s with spares := s.spares + 1 } (g.move (s.spare s.spares) (.mine i)) ∧
      Trans i s g { s with spares := s.spares + 1 } (g.move (s.spare s.spares) (.mine i)) := by
  have haway := hs.supply.away s.spares (le_refl _)
  have hl : Listed s g { s with spares := s.spares + 1 } (g.move (s.spare s.spares) (.mine i)) := by
    refine ⟨rfl, rfl, rfl, rfl, rfl, rfl, rfl, linked_move (by simp) (by rw [haway]; simp), retired_move ?_,
      fun _ _ h => .inl (due_move (by simp) h), fun j hj => mine_move ?_ (by rw [haway]; simp)⟩
    · rw [haway]
      simp [Ghost.Retires]
    · rintro h
      exact hw (Spot.mine.inj h ▸ hj)
  have htouch : Touch i ∅ {s.spare s.spares} s g { s with spares := s.spares + 1 } (g.move (s.spare s.spares) (.mine i)) := by
    refine ⟨fun _ _ => rfl, fun _ _ => rfl, fun _ _ => rfl, fun _ _ => rfl, fun b hb => move_spot_of_ne hb, fun _ h => h.elim,
      fun b hb j hj => ?_, fun _ _ => rfl, fun _ _ => rfl, fun _ _ => rfl, fun _ _ => rfl⟩
    obtain rfl : b = s.spare s.spares := hb
    rw [haway, move_spot_self]
    exact ⟨fun h => (by cases h), fun h => hj (Option.some.inj h).symm⟩
  refine ⟨hs.shelve hl (le_refl _) hs.clock hs.queues hs.owners (hs.stock.move (by simp) (by rw [haway]; simp)) ⟨?_, fun k hk => ?_⟩,
    htouch.trans hl (.refl _ _) (fun _ h => h.elim) fun _ h => h.elim⟩
  · rw [move_spot_of_ne (h0 _).symm]
    exact hs.supply.zero
  · change s.spares + 1 ≤ k at hk
    rw [move_spot_of_ne fun e => by have := hinj e; omega]
    exact hs.supply.away k (by omega)

end OptimisticAccess.MOA
