import OptimisticAccess.MOA.Caches

/-!
# Objects go from cache to cache

The steps of `Recycle`, `pfree`, `palloc` and `pReturnAlloc` that move an object, or a cache with
the objects in it.
-/

namespace OptimisticAccess.MOA

open Conc

variable {n : Nat} {s s' : Mem n} {g g' g₁ : Ghost n} {i j : Fin n} {a b e d v x k m : Nat} {p : Place n}

/-- An object of a cache has its slot there. -/
theorem Stock.slot_of_cached (hst : Stock s.free s.ptrs g) (ha : g.spot a = .cached e) :
    ∃ j, (g.place e).lo ≤ j ∧ j < s.free e ∧ s.ptrs e j = ⟨a, false⟩ :=
  (hst.cached e (hst.inUse e a ha)).exists_slot ⟨rfl, ha⟩

theorem Stock.cached_of_slot (hst : Stock s.free s.ptrs g) (hp : (g.place e).InUse) (h1 : (g.place e).lo ≤ m)
    (h2 : m < s.free e) : s.ptrs e m = ⟨(s.ptrs e m).addr, false⟩ ∧ g.spot (s.ptrs e m).addr = .cached e := by
  obtain ⟨h3, h4⟩ := (hst.cached e hp).mem h1 h2
  exact ⟨Ptr.eq_of_addr h3 rfl rfl, h4⟩

theorem objects_file (y : Spot n) : (g.file e p).objects y = g.objects y := rfl

/-! ## A cache in the hands of its thread -/

/-- The places through which a thread goes with a cache of its own. -/
inductive Place.Turn (i : Fin n) : Place n → Place n → Prop where
  | stay {p : Place n} (ho : p.owner = some i) : Turn i p p
  | work (d x k x' k' : Nat) : Turn i (.work i d x k) (.work i d x' k')
  | drop (d x k : Nat) : Turn i (.work i d x k) .gone

section Turn

theorem Place.Turn.owner {q : Place n} (h : Place.Turn i p q) : p.owner = some i ∧ (q.owner = some i ∨ q.owner = none) := by
  cases h with
  | stay ho => exact ⟨ho, .inl ho⟩
  | work => exact ⟨rfl, .inl rfl⟩
  | drop => exact ⟨rfl, .inr rfl⟩

theorem Place.Turn.shared {q : Place n} (h : Place.Turn i p q) : ¬ p.Shared ∧ ¬ q.Shared := by
  cases h with
  | stay ho => exact ⟨Place.not_shared_of_owner ho, Place.not_shared_of_owner ho⟩
  | work => exact ⟨id, id⟩
  | drop => exact ⟨id, id⟩

theorem Place.Turn.rank {q : Place n} (h : Place.Turn i p q) : p.rank ≤ q.rank := by
  cases h with
  | stay => exact le_refl _
  | work => exact le_refl _
  | drop =>
    change 4 ≤ 7
    omega

/-- A step on one cache of thread `i`, and one object. -/
theorem Shape.turn {x : Spot n} (hs : Shape s g) (hl : Listed s g s' g') (hstock : Stock s'.free s'.ptrs g')
    (hsupply : Supply s'.spare s'.spares g'.spot) (hg : g' = (g.file e p).move a x) (hturn : Place.Turn i (g.place e) p)
    (hmem : s' = { s with free := s'.free, ptrs := s'.ptrs }) (hfree : ∀ d ≠ e, s'.free d = s.free d)
    (hptrs : ∀ d ≠ e, s'.ptrs d = s.ptrs d) (hspent : g.place e = .alloc i → s.alloc_cache i = some e ∨ (s.free e = 0 → s'.free e = 0))
    (hold : ∀ j, j ≠ i → (g.spot a).owner ≠ some j) (hnew : ∀ j, j ≠ i → x.owner ≠ some j) :
    Shape s' g' ∧ Trans i s g s' g' := by
  have hne : ∀ c ∉ ({e} : Set Nat), g'.place c = g.place c := fun c hc => by rw [hg]; exact file_place_of_ne hc
  have hself : g'.place e = p := by rw [hg]; exact file_place_self
  obtain ⟨ho, ho'⟩ := hturn.owner
  have htouch : Touch i {e} {a} s g s' g' := by
    refine .shift (p := p) (x := x) (by rw [hg]) (fun _ _ => by rw [hmem]) hfree hptrs (fun j hj h => ?_) (fun j hj h => ?_) hold hnew
      (fun _ _ => by rw [hmem]) (fun _ _ => by rw [hmem]) (by rw [hmem]) (by rw [hmem])
    · rw [ho] at h
      exact hj (Option.some.inj h).symm
    · obtain ho' | ho' := ho'
      · rw [ho'] at h
        exact hj (Option.some.inj h).symm
      · rw [ho'] at h
        cases h
  have hclock : Clock s.reclaim s.toProcess s.localVer g'.place := by
    refine hs.clock.frame (E := {e}) ?_ ?_ hne
    · rintro c rfl d h
      rw [hself] at h
      exact absurd (by rw [h]; trivial) hturn.shared.2
    · rintro c rfl j d x k h
      rw [hself] at h
      generalize hq : g.place c = q at hturn
      cases hturn with
      | stay _ => exact hs.clock.work c j d x k (hq.trans h)
      | work d' x' k' _ _ => cases h; exact hs.clock.work c _ _ _ _ hq
      | drop => cases h
  have hqueues : Queues s.reclaim s.toProcess s.head s.next g'.place g.fill g.batch g.pool := by
    refine hs.queues.frame (E := {e}) ?_ hne fun _ _ => rfl
    rintro c rfl
    rw [hself]
    exact hturn.shared
  have howners : Owners s.alloc_cache s.free_cache s.brk s'.free g'.place := by
    have hkind : ∀ j, (p = .free j ↔ g.place e = .free j) ∧ (p = .alloc j ↔ g.place e = .alloc j) ∧
        (p = .raw ↔ g.place e = .raw) := by
      intro j
      generalize g.place e = q at hturn
      cases hturn <;> simp
    have how := hs.owners
    refine ⟨fun j c => ?_, fun j c h => ?_, fun j c h => ?_, fun c => ?_⟩
    · by_cases hc : c = e
      · rw [hc, hself, (hkind j).1]; exact how.filling j e
      · rw [hne c hc]; exact how.filling j c
    · by_cases hc : c = e
      · rw [hc, hself, (hkind j).2.1]; exact how.serving j e (hc ▸ h)
      · rw [hne c hc]; exact how.serving j c h
    · by_cases hc : c = e
      · subst hc
        rw [hself, (hkind j).2.1] at h
        have ho' := ho
        rw [h] at ho'
        obtain rfl : j = i := Option.some.inj ho'
        obtain hspent | hspent := hspent h
        · exact .inl hspent
        · exact (how.spent j c h).imp_right hspent
      · rw [hne c hc] at h
        rw [hfree c hc]
        exact how.spent j c h
    · by_cases hc : c = e
      · rw [hc, hself, (hkind i).2.2]; exact how.raw e
      · rw [hne c hc]; exact how.raw c
  refine ⟨hs.shelve hl ?_ ?_ ?_ ?_ hstock hsupply, htouch.trans hl ?_ ?_ ?_⟩
  · rw [hmem]
  · rw [hmem]; exact hclock
  · rw [hmem, hg]
    rw [hg] at hqueues
    exact hqueues
  · rw [hmem]; exact howners
  · rw [hmem]; exact .refl _ _
  · rintro c rfl
    rw [hself]
    exact hturn.rank
  · rintro c rfl h
    rw [ho] at h
    cases h

end Turn

/-! ## `Recycle` takes an object to `pfree` -/

/-- The object at index `x` is passed to `pfree`. -/
theorem Shape.take (hs : Shape s g) (hp : g.place e = .work i d x k) (hx : x < s.free e) :
    s.ptrs e x = ⟨(s.ptrs e x).addr, false⟩ ∧
      Shape s ((g.file e (.work i d (x + 1) k)).move (s.ptrs e x).addr (.hand i)) ∧
      Listed s g s ((g.file e (.work i d (x + 1) k)).move (s.ptrs e x).addr (.hand i)) ∧
      Trans i s g s ((g.file e (.work i d (x + 1) k)).move (s.ptrs e x).addr (.hand i)) := by
  have hst := hs.stock
  obtain ⟨hq, hspot⟩ := hst.cached_of_slot (e := e) (m := x) (by rw [hp]; trivial) (by rw [hp]; exact le_refl x) hx
  have hother : ∀ y : Spot n, y ≠ .hand i → y ≠ .cached e →
      ((g.file e (.work i d (x + 1) k)).move (s.ptrs e x).addr (.hand i)).objects y = g.objects y := fun y h1 h2 =>
    objects_move_of_ne (g := g.file e (.work i d (x + 1) k)) h1.symm (by rw [file_spot, hspot]; exact h2.symm)
  have hl : Listed s g s ((g.file e (.work i d (x + 1) k)).move (s.ptrs e x).addr (.hand i)) := by
    refine .shift (p := .work i d (x + 1) k) rfl rfl rfl rfl (retired_file ?_) ?_ (by simp) (by rw [hspot]; simp) ?_ (by simp)
      (by rw [hspot]; simp)
    · rw [hp]; exact Iff.rfl
    · rw [hp]; exact fun _ h => h
    · rw [hspot]
      exact ⟨fun _ => .inr ⟨e, rfl, by rw [file_place_self]; trivial⟩, fun _ => .inl ⟨i, rfl⟩⟩
  have hstock : Stock s.free s.ptrs ((g.file e (.work i d (x + 1) k)).move (s.ptrs e x).addr (.hand i)) := by
    obtain ⟨hkx, -⟩ := hst.bounds e i d x k hp
    refine hst.frame (E := {e}) (fun c hc => file_place_of_ne hc) (fun _ _ => rfl) (fun _ _ => rfl)
      (fun c hc => hother _ (by simp) fun h => hc (Spot.cached.inj h)) (fun c _ => hother _ (by simp) (by simp)) ?_ ?_ ?_ ?_ ?_
    · rintro c rfl -
      exact hst.size c (by rw [hp]; simp)
    · rintro c rfl j d' x' k' h
      rw [move_place, file_place_self] at h
      cases h
      omega
    · rintro c rfl -
      have hslots := (hst.cached c (by rw [hp]; trivial)).shift (by rw [hp]; exact hx)
      rw [hp] at hslots
      rw [move_place, file_place_self, objects_move_out (by simp), objects_file, ← hq]
      exact hslots
    · rintro c rfl
      have hslots := hst.kept c
      rw [hp] at hslots
      rw [move_place, file_place_self, hother _ (by simp) (by simp)]
      exact hslots
    · rintro c rfl b _
      rw [move_place, file_place_self]
      trivial
  have hsupply : Supply s.spare s.spares ((g.file e (.work i d (x + 1) k)).move (s.ptrs e x).addr (.hand i)).spot := by
    refine hs.supply.frame fun b hb => ?_
    rw [move_spot_of_ne]
    · exact hb
    · rintro rfl
      rw [hspot] at hb
      cases hb
  have hturn : Place.Turn i (g.place e) (.work i d (x + 1) k) := by rw [hp]; exact .work ..
  have hown : (g.spot (s.ptrs e x).addr).owner = none := by rw [hspot]; rfl
  obtain ⟨hS, hT⟩ := hs.turn hl hstock hsupply rfl hturn rfl (fun _ _ => rfl) (fun _ _ => rfl) (fun _ => .inr id)
    (fun j _ h => by rw [hown] at h; cases h) fun j hj h => hj (Option.some.inj h).symm
  exact ⟨hq, hS, hl, hT⟩

/-! ## `Recycle` is through with a cache -/

@[simp] theorem file_self : g.file e (g.place e) = g := by
  unfold Ghost.file
  rw [Function.update_eq_self]

@[simp] theorem move_self : g.move a (g.spot a) = g := by
  unfold Ghost.move
  rw [Function.update_eq_self]

/-- The place of a cache when `entry->free` is set. -/
def Place.sifted (i : Fin n) (d k : Nat) : Place n := if k = 0 then .gone else .work i d k k

theorem Place.sifted_cases (i : Fin n) (d k : Nat) :
    (k = 0 ∧ Place.sifted i d k = .gone) ∨ (0 < k ∧ Place.sifted i d k = .work i d k k) := by
  unfold Place.sifted
  by_cases h : k = 0
  · exact .inl ⟨h, if_pos h⟩
  · exact .inr ⟨Nat.pos_of_ne_zero h, if_neg h⟩

/-- `entry->free = k`. -/
theorem Shape.sifted (hs : Shape s g) (hp : g.place e = .work i d (s.free e) k) :
    Shape (s.setFree e k) (g.file e (Place.sifted i d k)) ∧
      Trans i s g (s.setFree e k) (g.file e (Place.sifted i d k)) := by
  have hst := hs.stock
  have hbounds := (hst.bounds e i d (s.free e) k hp).1
  have hempty : ∀ b, g.spot b ≠ .cached e := fun b hb => by
    obtain ⟨j, h1, h2, -⟩ := hst.slot_of_cached hb
    rw [hp] at h1
    change s.free e ≤ j at h1
    omega
  have hobjects : g.objects (.cached e) = ∅ := Set.eq_empty_of_forall_notMem fun q hq => hempty q.addr hq.2
  have hl : Listed s g (s.setFree e k) (g.file e (Place.sifted i d k)) :=
    ⟨rfl, rfl, rfl, rfl, rfl, rfl, rfl, rfl, retired_file_of_empty hempty, fun _ _ h => .inl (due_file_of_empty hempty h),
      fun _ _ => rfl⟩
  have hfree : ∀ c ∉ ({e} : Set Nat), (s.setFree e k).free c = s.free c := fun c hc => Function.update_of_ne hc ..
  have hself : (s.setFree e k).free e = k := Function.update_self ..
  have hstock : Stock (s.setFree e k).free s.ptrs (g.file e (Place.sifted i d k)) := by
    refine hst.frame (E := {e}) (fun c hc => file_place_of_ne hc) hfree (fun _ _ => rfl) (fun _ _ => rfl) (fun _ _ => rfl)
      ?_ ?_ ?_ ?_ ?_
    · rintro c rfl -
      have := hst.size c (by rw [hp]; simp)
      rw [hself]
      omega
    · rintro c rfl j d' x' k' h
      rw [file_place_self] at h
      obtain ⟨-, e'⟩ | ⟨-, e'⟩ := Place.sifted_cases i d k
      · rw [e'] at h
        cases h
      · rw [e'] at h
        cases h
        exact ⟨le_refl _, hself.symm.le⟩
    · rintro c rfl h
      rw [file_place_self] at h ⊢
      obtain ⟨-, e'⟩ | ⟨-, e'⟩ := Place.sifted_cases i d k
      · rw [e'] at h
        exact h.elim
      · rw [e', hself, objects_file, hobjects]
        exact .empty (le_refl _)
    · rintro c rfl
      have hkept := hst.kept c
      rw [hp] at hkept
      rw [file_place_self]
      obtain ⟨h0, e'⟩ | ⟨-, e'⟩ := Place.sifted_cases i d k
      · rw [e']
        subst h0
        exact hkept
      · rw [e']
        exact hkept
    · rintro c rfl b hb
      exact absurd hb (hempty b)
  have hturn : Place.Turn i (g.place e) (Place.sifted i d k) := by
    rw [hp]
    obtain ⟨-, e'⟩ | ⟨-, e'⟩ := Place.sifted_cases i d k
    · rw [e']; exact .drop ..
    · rw [e']; exact .work ..
  have hown : ∀ j, j ≠ i → (g.spot 0).owner ≠ some j := fun j _ h => by
    rw [hs.supply.zero] at h
    cases h
  refine hs.turn (a := 0) (x := g.spot 0) hl hstock hs.supply move_self.symm hturn rfl hfree (fun _ _ => rfl) (fun _ => .inr fun h => ?_) hown hown
  rw [hself]
  omega

/-! ## `palloc` hands out an object -/

theorem Shape.served (hs : Shape s g) (hw : ¬ g.window i) (hc : s.alloc_cache i = some e) (hfree : 0 < s.free e) :
    s.ptrs e (s.free e - 1) = ⟨(s.ptrs e (s.free e - 1)).addr, false⟩ ∧
      g.spot (s.ptrs e (s.free e - 1)).addr = .cached e ∧
      Shape (s.setFree e (s.free e - 1)) (g.move (s.ptrs e (s.free e - 1)).addr (.mine i)) ∧
      Trans i s g (s.setFree e (s.free e - 1)) (g.move (s.ptrs e (s.free e - 1)).addr (.mine i)) := by
  have hst := hs.stock
  have hp : g.place e = .alloc i := hs.owners.serving i e hc
  obtain ⟨hq, hspot⟩ := hst.cached_of_slot (e := e) (m := s.free e - 1) (by rw [hp]; trivial) (by rw [hp]; exact Nat.zero_le _)
    (by omega)
  generalize ha : (s.ptrs e (s.free e - 1)).addr = a at hq hspot
  have hother : ∀ y : Spot n, y ≠ .mine i → y ≠ .cached e → (g.move a (.mine i)).objects y = g.objects y := fun y h1 h2 =>
    objects_move_of_ne h1.symm (by rw [hspot]; exact h2.symm)
  have hl : Listed s g (s.setFree e (s.free e - 1)) (g.move a (.mine i)) := by
    refine .shift (e := e) (p := g.place e) rfl rfl rfl (by rw [file_self]) (by rw [file_self]) (fun _ h => h) (by simp)
      (by rw [hspot]; simp) ?_ (by simp) fun j hj => ⟨fun h => hw (by cases h; exact hj), by rw [hspot]; simp⟩
    rw [file_self, hspot]
    simp [Ghost.Retires, hp, Place.Waits]
  have hne : ∀ c ∉ ({e} : Set Nat), (s.setFree e (s.free e - 1)).free c = s.free c := fun c hc => Function.update_of_ne hc ..
  have hself : (s.setFree e (s.free e - 1)).free e = s.free e - 1 := Function.update_self ..
  have hstock : Stock (s.setFree e (s.free e - 1)).free s.ptrs (g.move a (.mine i)) := by
    refine hst.frame (E := {e}) (fun _ _ => rfl) hne (fun _ _ => rfl)
      (fun c hc => hother _ (by simp) fun h => hc (Spot.cached.inj h)) (fun c _ => hother _ (by simp) (by simp)) ?_ ?_ ?_ ?_ ?_
    · rintro c rfl h
      have := hst.size c h
      rw [hself]
      omega
    · rintro c rfl j d' x' k' h
      rw [move_place, hp] at h
      cases h
    · rintro c rfl -
      have hslots := (hst.cached c (by rw [hp]; trivial)).pop (by rw [hp]; exact hfree)
      rw [hself, objects_move_out (by simp), ← hq]
      exact hslots
    · rintro c rfl
      rw [move_place, hother _ (by simp) (by simp)]
      exact hst.kept c
    · rintro c rfl b _
      rw [move_place, hp]
      trivial
  have hsupply : Supply s.spare s.spares (g.move a (.mine i)).spot := by
    refine hs.supply.frame fun b hb => ?_
    rw [move_spot_of_ne]
    · exact hb
    · rintro rfl
      rw [hspot] at hb
      cases hb
  obtain ⟨hS, hT⟩ := hs.turn (x := .mine i) hl hstock hsupply (by rw [file_self]) (.stay (by rw [hp]; rfl)) rfl hne (fun _ _ => rfl)
    (fun _ => .inl hc)
    (fun j _ h => by rw [hspot] at h; cases h) fun j hj h => hj (Option.some.inj h).symm
  exact ⟨hq, hspot, hS, hT⟩

/-! ## An object goes into a cache of the thread -/

/-- Where an object of thread `i` comes from tells which of its caches it may go to. -/
def Fits (i : Fin n) (x : Spot n) (p : Place n) : Prop := (x = .hand i ∧ p = .free i) ∨ (x = .mine i ∧ p = .alloc i)

theorem Fits.spec {x : Spot n} (h : Fits i x p) :
    p.owner = some i ∧ x.owner = some i ∧ p.lo = 0 ∧ p.kept = 0 ∧ p.InUse ∧ p.due = none ∧ ¬ p.Shared ∧
      (p.Waits ↔ x = .hand i) ∧ x ≠ .away ∧ x ≠ .linked ∧ (∀ c, x ≠ .cached c) ∧ (∀ c, x ≠ .kept c) := by
  obtain ⟨rfl, rfl⟩ | ⟨rfl, rfl⟩ := h
  · simp [Place.owner, Spot.owner, Place.lo, Place.kept, Place.InUse, Place.due, Place.Shared, Place.Waits]
  · simp [Place.owner, Spot.owner, Place.lo, Place.kept, Place.InUse, Place.due, Place.Shared, Place.Waits]

theorem Fits.retires {x : Spot n} (h : Fits i x (g.place e)) : g.Retires (.cached e) ↔ g.Retires x := by
  obtain ⟨rfl, hp⟩ | ⟨rfl, hp⟩ := h
  · exact ⟨fun _ => .inl ⟨i, rfl⟩, fun _ => .inr ⟨e, rfl, by rw [hp]; trivial⟩⟩
  · simp [Ghost.Retires, hp, Place.Waits]

theorem Shape.append (hs : Shape s g) (hw : ¬ g.window i) (hfit : Fits i (g.spot a) (g.place e)) (hfree : s.free e < entriesPerCache)
    (hc : g.place e = .alloc i → s.alloc_cache i = some e) :
    Shape (s.append e ⟨a, false⟩) (g.move a (.cached e)) ∧ Trans i s g (s.append e ⟨a, false⟩) (g.move a (.cached e)) := by
  have hst := hs.stock
  obtain ⟨hown, howna, hlo, hkept, huse, hdue, -, -, haway, hlinked, hcached, hkepta⟩ := hfit.spec
  have hother : ∀ y : Spot n, y ≠ .cached e → y ≠ g.spot a → (g.move a (.cached e)).objects y = g.objects y := fun y h1 h2 =>
    objects_move_of_ne h1.symm h2.symm
  have hl : Listed s g (s.append e ⟨a, false⟩) (g.move a (.cached e)) := by
    refine .shift (e := e) (p := g.place e) rfl rfl rfl (by rw [file_self]) (by rw [file_self]) (fun _ h => h) (by simp) hlinked
      ?_ ?_ fun j hj => ⟨by simp, fun h => ?_⟩
    · rw [file_self]; exact hfit.retires
    · rintro c h
      cases h
      rw [file_self]; exact hdue
    · rw [h] at howna
      exact hw (Option.some.inj howna ▸ hj)
  have hne : ∀ c ∉ ({e} : Set Nat), (s.append e ⟨a, false⟩).free c = s.free c := fun c hc => Function.update_of_ne hc ..
  have hself : (s.append e ⟨a, false⟩).free e = s.free e + 1 := Function.update_self ..
  have hptrs : ∀ c ∉ ({e} : Set Nat), (s.append e ⟨a, false⟩).ptrs c = s.ptrs c := fun c hc => Function.update_of_ne hc ..
  have hptr : (s.append e ⟨a, false⟩).ptrs e = Function.update (s.ptrs e) (s.free e) ⟨a, false⟩ := Function.update_self ..
  have hstock : Stock (s.append e ⟨a, false⟩).free (s.append e ⟨a, false⟩).ptrs (g.move a (.cached e)) := by
    refine hst.frame (E := {e}) (fun _ _ => rfl) hne hptrs
      (fun c hc => hother _ (fun h => hc (Spot.cached.inj h)) (hcached c).symm) (fun c _ => hother _ (by simp) (hkepta c).symm)
      ?_ ?_ ?_ ?_ ?_
    · rintro c rfl -
      rw [hself]
      exact hfree
    · rintro c rfl j d' x' k' h
      rw [move_place] at h
      have hlo' := hlo
      have hkept' := hkept
      rw [h] at hlo' hkept'
      change x' = 0 at hlo'
      change k' = 0 at hkept'
      omega
    · rintro c rfl -
      have hslots := hst.cached c huse
      rw [hlo] at hslots
      have hnew := hslots.push (Nat.zero_le _) (a := ⟨a, false⟩) fun hmem => (hcached c) hmem.2
      rw [hself, hptr, move_place, hlo, objects_move_in]
      exact hnew
    · rintro c rfl
      have hkeep := hst.kept c
      rw [move_place, hother _ (by simp) (hkepta c).symm]
      rw [hkept] at hkeep ⊢
      exact hkeep.congr fun j _ hj => absurd hj (Nat.not_lt_zero j)
    · rintro c rfl b _
      exact huse
  have hsupply : Supply s.spare s.spares (g.move a (.cached e)).spot := by
    refine hs.supply.frame fun b hb => ?_
    rw [move_spot_of_ne]
    · exact hb
    · rintro rfl
      exact haway hb
  exact hs.turn hl hstock hsupply (by rw [file_self]) (.stay hown) rfl hne hptrs (fun hp => .inl (hc hp))
    (fun j hj h => hj (Option.some.inj (howna.symm.trans h)).symm) fun j hj h => by cases h

end OptimisticAccess.MOA
