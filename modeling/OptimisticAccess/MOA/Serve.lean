import OptimisticAccess.MOA.Recycle

/-!
# `pfree`, `palloc` and `pReturnAlloc`

What the list sees of the allocator. `pfree` is the recursive one: a collection it starts passes the
protected objects of a cache to `pfree` again, so its specification goes by induction on the depth,
with the caches in work further up in `Holds`.
-/

namespace OptimisticAccess.MOA

open Conc Prog

variable {n : Nat} {i j t : Fin n} {s s' : Mem n} {g g' : Ghost n} {a b c d e m v : Nat} {p : Ptr} {F : Files} {A : Assert n}

/-! ## `pfree` -/

/-- The sheets stay when the caches in work do. -/
theorem sheet_eq_of (h : ∀ c d x k, g.place c = .work i d x k →
      g'.place c = g.place c ∧ s'.next c = s.next c ∧ s'.free c = s.free c ∧ s'.ptrs c = s.ptrs c)
    (h' : ∀ c d x k, g'.place c = .work i d x k → g.place c = .work i d x k) : sheet i s' g' = sheet i s g := by
  funext c
  cases ht : sheet i s g c with
  | some t =>
    obtain ⟨h1, h2, h3, h4⟩ := h c _ _ _ (work_of_sheet ht).1
    exact (sheet_congr h1 h2 h3 h4).trans ht
  | none =>
    cases ht' : sheet i s' g' c with
    | none => rfl
    | some t => exact absurd (sheet_of_work (h' c _ _ _ (work_of_sheet ht').1)) (by rw [ht]; simp)

/-- What a step of `pfree` leaves alone: the thread's other caches, and its records. -/
structure Filled (i : Fin n) (s : Mem n) (g : Ghost n) (s' : Mem n) (g' : Ghost n) : Prop where
  mem : s' = { s with reclaim := s'.reclaim, free_cache := s'.free_cache, next := s'.next, free := s'.free, ptrs := s'.ptrs, brk := s'.brk }
  ghost : g' = { g with place := g'.place, spot := g'.spot, fill := g'.fill }
  caches : ∀ c, (g.place c = .alloc i ∨ ∃ d x k, g.place c = .work i d x k) →
    g'.place c = g.place c ∧ s'.next c = s.next c ∧ s'.free c = s.free c ∧ s'.ptrs c = s.ptrs c
  work : ∀ c j d x k, g'.place c = .work j d x k ↔ g.place c = .work j d x k

theorem Filled.calm (h : Filled i s g s' g') (hS : Shape s g) (hT : Trans i s g s' g') : Calm i s g s' g' := by
  have hm := h.mem
  have hg := h.ghost
  refine ⟨⟨i, hT⟩, by rw [hm], by rw [hg], by rw [hm], by rw [hm], by rw [hg], by rw [hg]; exact id, fun hs c hc => ?_⟩
  rw [hm] at hc
  rw [(h.caches c (.inl (hS.owners.serving i c hc))).2.2.1]
  exact hs c hc

theorem Filled.sheet (h : Filled i s g s' g') : sheet i s' g' = sheet i s g :=
  sheet_eq_of (fun c d x k hp => h.caches c (.inr ⟨d, x, k, hp⟩)) fun c d x k hp => (h.work c i d x k).1 hp

theorem Filled.booked (h : Filled i s g s' g') (ha : g.spot a = .hand i) (hspot : g'.spot = Function.update g.spot a (.cached c))
    (hbatch : ∀ e d, g.place e = .batch d → g'.place e = .batch d) (hr : s'.reclaim.ver % 2 = 1 → s'.reclaim = s.reclaim) :
    Booked i s g (some (.freed a)) s' g' := by
  have hm := h.mem
  have hg := h.ghost
  refine ⟨by rw [hm], fun b => ?_, fun e => ?_, fun j hj => ?_, fun e d h => .inl (hbatch e d h), fun e h => (by cases h),
    .other (by simp) (by simp) hr (by rw [hm]), by simp⟩
  · rw [hspot]
    exact life_update (by rw [ha]; rfl) b
  · change (g'.place e).desk = (g.place e).desk
    cases hp : g.place e with
    | work j d x k => rw [(h.work e j d x k).2 hp]
    | _ =>
      cases hp' : g'.place e with
      | work j d x k => cases hp.symm.trans ((h.work e j d x k).1 hp')
      | _ => rfl
  · rw [hg]
    exact (hj.resolve_left (by simp)).2

/-- An object has gone into a cache. -/
theorem Holds.freed (h : Holds i { F with hands := insert a F.hands } s g) (ha : a ∉ F.hands) (hS : Shape s g) (hT : Trans i s g s' g')
    (hf : Filled i s g s' g') (hspot : g'.spot = Function.update g.spot a (.cached c)) : Holds i F s' g' := by
  refine h.calm hS (hf.calm hS hT) (D := F.desk) (hf.sheet.trans h.desk) fun b => ?_
  rw [hspot]
  by_cases hb : b = a
  · rw [hb, Function.update_self]
    simp [ha]
  · rw [Function.update_of_ne hb]
    exact (h.hands b).trans ⟨fun h => h.resolve_left hb, .inr⟩

/-- The object a thread has in `pfree`. -/
def InHand (i : Fin n) (F : Files) (a : Nat) : Assert n := Holds i { F with hands := insert a F.hands }

theorem InHand.spot (h : InHand i F a s g) : g.spot a = .hand i := (h.hands a).2 (Set.mem_insert a _)

theorem place_brk (hS : Shape s g) : g.place s.brk = .raw := (hS.owners.raw s.brk).2 (le_refl _)

theorem newFree_spec (ha : a ∉ F.hands) :
    Spec i (fun s g => InHand i F a s g ∧ s.free_cache i = none)
      (step (fun _ => some (.freed a)) (fun s : Mem n => (s.malloc ⟨a, false⟩).setFreeCache i (some s.brk)) fun _ => Prog.ret ())
      fun _ => Holds i F := by
  refine .act (steady_holds.and (.priv fun _ _ _ _ hp h => hp.free_cache.trans h)) fun s g h hS _ => ?_
  obtain ⟨h, hnone⟩ := h
  have hspot := InHand.spot h
  obtain ⟨hS', hT⟩ := hS.newFree (i := i) h.outside hnone hspot
  have hraw := place_brk hS
  have hplace : ∀ c, g.place c ≠ .raw → c ≠ s.brk := by
    rintro c hc rfl
    exact hc hraw
  have hf : Filled i s g ((s.malloc ⟨a, false⟩).setFreeCache i (some s.brk)) ((g.file s.brk (.free i)).move a (.cached s.brk)) := by
    refine ⟨rfl, rfl, fun c hc => ?_, fun c j d x k => ?_⟩
    · have hne : c ≠ s.brk := hplace c (by obtain h | ⟨d, x, k, h⟩ := hc <;> rw [h] <;> simp)
      exact ⟨file_place_of_ne hne, rfl, Function.update_of_ne hne .., Function.update_of_ne hne ..⟩
    · by_cases hc : c = s.brk
      · rw [hc, move_place, file_place_self, hraw]
        simp
      · rw [move_place, file_place_of_ne hc]
  refine ⟨_, ⟨hS', hT⟩, hf.booked hspot rfl (fun e d he => ?_) (fun _ => rfl), h.freed ha hS hT hf rfl⟩
  rw [move_place, file_place_of_ne (hplace e (by rw [he]; simp))]
  exact he

/-- The cache a thread fills, and what is in it. -/
def Filling (i : Fin n) (e : Nat) (R : Nat → Option Nat → Prop) : Assert n := fun s _ =>
  s.free_cache i = some e ∧ R (s.free e) (s.next e)

theorem place_of_filling (hS : Shape s g) {R : Nat → Option Nat → Prop} (h : Filling i e R s g) : g.place e = .free i :=
  (hS.owners.filling i e).2 h.1

theorem steady_filling {R : Nat → Option Nat → Prop} : Steady i (Filling i e R) := fun _ s g s' g' hp hS _ _ h => by
  have ho : (g.place e).owner = some i := by rw [place_of_filling hS h]; rfl
  refine ⟨hp.free_cache.trans h.1, ?_⟩
  rw [hp.free e ho, hp.next e ho]
  exact h.2

theorem append_spec (ha : a ∉ F.hands) :
    Spec i (fun s g => InHand i F a s g ∧ Filling i e (fun m _ => m < entriesPerCache) s g)
      (step (fun _ => some (.freed a)) (fun s : Mem n => s.append e ⟨a, false⟩) fun _ => Prog.ret ()) fun _ => Holds i F := by
  refine .act (steady_holds.and steady_filling) fun s g h hS _ => ?_
  obtain ⟨h, hfill⟩ := h
  have hspot := InHand.spot h
  have hp := place_of_filling hS hfill
  obtain ⟨hS', hT⟩ := hS.append (i := i) h.outside (.inl ⟨hspot, hp⟩) hfill.2 fun h => by rw [hp] at h; cases h
  have hf : Filled i s g (s.append e ⟨a, false⟩) (g.move a (.cached e)) := by
    refine ⟨rfl, rfl, fun c hc => ?_, fun c j d x k => Iff.rfl⟩
    have hne : c ≠ e := by
      rintro rfl
      rw [hp] at hc
      obtain h | ⟨d, x, k, h⟩ := hc <;> cases h
    exact ⟨rfl, rfl, Function.update_of_ne hne .., Function.update_of_ne hne ..⟩
  exact ⟨_, ⟨hS', hT⟩, hf.booked hspot rfl (fun _ _ h => h) (fun _ => rfl), h.freed ha hS hT hf rfl⟩

/-- What thread `i` knows with a full free cache `e`. -/
structure Pushing (i : Fin n) (F : Files) (a e v : Nat) (R : Option Nat → Prop) (s : Mem n) (g : Ghost n) : Prop where
  inHand : InHand i F a s g
  filling : Filling i e (fun _ x => R x) s g
  ver : Ver i v s g

theorem steady_pushing {R : Option Nat → Prop} : Steady i (Pushing i F a e v R) := fun j s g s' g' hp hS hS' hT h =>
  ⟨steady_holds j s g s' g' hp hS hS' hT h.inHand, steady_filling j s g s' g' hp hS hS' hT h.filling,
    steady_ver j s g s' g' hp hS hS' hT h.ver⟩

/-- `tofree->next = reclaim.head`. -/
theorem linkFull_spec {R : Option Nat → Prop} (x : Option Nat) :
    Spec i (Pushing i F a e v R) (store (·.setNext e x)) fun _ => Pushing i F a e v (· = x) := by
  refine .act steady_pushing fun s g h hS _ => ?_
  obtain ⟨h, hfill, hver⟩ := h
  have hp := place_of_filling hS hfill
  obtain ⟨hS', hT⟩ := hS.setNext (i := i) (e := e) (by rw [hp]; rfl) x
  have hf : Filled i s g (s.setNext e x) g := by
    refine ⟨rfl, rfl, fun c hc => ?_, fun c j d x k => Iff.rfl⟩
    have hne : c ≠ e := by
      rintro rfl
      rw [hp] at hc
      obtain h | ⟨d, x, k, h⟩ := hc <;> cases h
    exact ⟨rfl, Function.update_of_ne hne .., rfl, rfl⟩
  refine ⟨g, ⟨hS', hT⟩, ?_, ⟨h.calm hS (hf.calm hS hT) (hf.sheet.trans h.desk) h.hands, ⟨hfill.1, Function.update_self ..⟩, hver⟩⟩
  exact .of_quiet rfl rfl (fun _ => rfl) (fun _ => rfl) (fun _ h => h) (fun _ _ h => h) (fun _ => rfl) rfl

theorem pushFull_filled (hS : Shape s g) (hp : g.place e = .free i) (r : VerEntry) :
    Filled i s g (({ s with reclaim := r }.malloc ⟨a, false⟩).setFreeCache i (some s.brk)) (g.pushFull i e s.brk a) := by
  have hraw := place_brk hS
  refine ⟨rfl, rfl, fun c hc => ?_, fun c j d x k => ?_⟩
  · have hne : c ≠ e ∧ c ≠ s.brk := by
      refine ⟨fun he => ?_, fun he => ?_⟩
      · rw [he, hp] at hc
        obtain h | ⟨d, x, k, h⟩ := hc <;> cases h
      · rw [he, hraw] at hc
        obtain h | ⟨d, x, k, h⟩ := hc <;> cases h
    exact ⟨(file_place_of_ne hne.2).trans (file_place_of_ne hne.1), rfl, Function.update_of_ne hne.2 .., Function.update_of_ne hne.2 ..⟩
  · by_cases hb : c = s.brk
    · rw [hb, show (g.pushFull i e s.brk a).place s.brk = .free i from file_place_self, hraw]
      simp
    · rw [show (g.pushFull i e s.brk a).place c = (g.file e .fill).place c from file_place_of_ne hb]
      by_cases he : c = e
      · rw [he, file_place_self, hp]
        simp
      · rw [file_place_of_ne he]

/-- The push of a full free cache; a thread that fails to is late. -/
theorem pushFull_spec (ha : a ∉ F.hands) (fuel : Nat) :
    Spec i (fun s g => InHand i F a s g ∧ Filling i e (fun _ _ => True) s g) (pushFull i fuel e ⟨a, false⟩) fun b s g =>
      if b then Holds i F s g else InHand i F a s g ∧ Ready i s := by
  refine .iter (J := fun _ s g => InHand i F a s g ∧ Filling i e (fun _ _ => True) s g) (fun _ => ?_) fuel ()
  have hhand : Steady i (InHand i F a) := steady_holds
  refine .bind (B := fun (reclaim : VerEntry) s g => (InHand i F a s g ∧ Filling i e (fun _ _ => True) s g) ∧
      Past reclaim.ver s g ∧ s.localVer i ≤ reclaim.ver)
    (.load (hhand.and steady_filling) fun s g h hS => ⟨h, le_refl s.reclaim.ver, hS.clock.local_le i⟩) fun reclaim => ?_
  refine .bind (B := fun v s g => Pushing i F a e v (fun _ => True) s g ∧ Past reclaim.ver s g ∧ v ≤ reclaim.ver)
    (.load ((hhand.and steady_filling).and (steady_past.and (.priv fun _ _ _ _ hp h => by rw [hp.localVer]; exact h)))
      fun s g h _ => ⟨⟨h.1.1, h.1.2, rfl⟩, h.2⟩) fun v => ?_
  refine .ite (fun hne => .ret fun s g h => ⟨h.1.inHand, .inl ?_⟩) fun heq => ?_
  · obtain ⟨hpush, hpast, hle⟩ := h
    have hver : s.localVer i = v := hpush.ver
    have hpast' : reclaim.ver ≤ s.reclaim.ver := hpast
    omega
  · obtain rfl := not_not.1 heq
    refine .bind ((linkFull_spec reclaim.head).pre fun s g h => h.1) fun _ => ?_
    refine .bind (B := fun ok s g => if ok then Holds i F s g else InHand i F a s g ∧ Filling i e (fun _ _ => True) s g)
      (.cas steady_pushing (fun s g h hS hok => ?_) fun s g h _ _ => ⟨h.inHand, h.filling.1, trivial⟩) fun ok => ?_
    · obtain ⟨h, hfill, hver⟩ := h
      have hspot := InHand.spot h
      have hp := place_of_filling hS hfill
      have heven : s.reclaim.ver % 2 = 0 := by
        rw [hok, ← show s.localVer i = reclaim.ver from hver]
        exact hS.clock.local_even i
      subst hok
      obtain ⟨hS', hT⟩ := hS.pushFull h.outside hfill.1 hfill.2 heven hspot
      have hf := pushFull_filled (a := a) hS hp ⟨some e, s.reclaim.ver⟩
      refine ⟨_, ⟨hS', hT⟩, hf.booked hspot rfl (fun c d hc => ?_) (fun hodd => ?_), h.freed ha hS hT hf rfl⟩
      · have hne : c ≠ e ∧ c ≠ s.brk := by
          refine ⟨fun he => ?_, fun he => ?_⟩
          · rw [he, hp] at hc
            cases hc
          · rw [he, place_brk hS] at hc
            cases hc
        exact (file_place_of_ne hne.2).trans ((file_place_of_ne hne.1).trans hc)
      · change s.reclaim.ver % 2 = 1 at hodd
        omega
    · cases ok with
      | true => exact .ret fun s g h => h
      | false => exact .ret fun s g h => h

/-- `pfree` from the label `restart`. -/
theorem pfreeRound_spec {trigger : P n Unit} (ha : a ∉ F.hands)
    (htrigger : Spec i (fun s g => InHand i F a s g ∧ Ready i s) trigger fun _ => InHand i F a) (fuel : Nat) :
    Spec i (InHand i F a) (pfreeRound trigger i fuel ⟨a, false⟩) fun r s g =>
      Sum.elim (fun _ => InHand i F a s g) (fun _ => Holds i F s g) r := by
  have hhand : Steady i (InHand i F a) := steady_holds
  refine .bind (B := fun c s g => InHand i F a s g ∧ s.free_cache i = c) (.load hhand fun s g h _ => ⟨h, rfl⟩) fun c => ?_
  cases c with
  | none => exact .bind (newFree_spec ha) fun _ => .ret fun s g h => h
  | some e =>
    refine .bind (B := fun free s g => InHand i F a s g ∧ Filling i e (fun m _ => m = free) s g)
      (.load (hhand.and (.priv fun _ _ _ _ hp h => hp.free_cache.trans h)) fun s g h _ => ⟨h.1, h.2, rfl⟩) fun free => ?_
    refine .ite (fun hlt => ?_) fun hge => ?_
    · exact .bind ((append_spec ha).pre fun s g h => ⟨h.1, h.2.1, h.2.2 ▸ hlt⟩) fun _ => .ret fun s g h => h
    · refine .bind ((pushFull_spec ha fuel).pre fun s g h => ⟨h.1, h.2.1, trivial⟩) fun b => .ite (fun hb => ?_) fun hb => ?_
      · exact .ret fun s g h => by rwa [if_pos hb] at h
      · exact .bind (htrigger.pre fun s g h => by rwa [if_neg hb] at h) fun _ => .ret fun s g h => h

/-- `F` with what is known after a collection. -/
theorem Holds.forget (h : Holds i { F with scan := True, ready := True } s g) : Holds i F s g :=
  ⟨h.desk, h.hands, h.HPs, h.outside, h.seen, h.spent, fun _ => h.scan trivial, fun _ => h.ready trivial⟩

/-- **`pfree`** puts the object into a free cache and leaves the rest as it was. The induction is on the depth of the
collections inside `Recycle`. -/
theorem pfree_spec (fuel : Nat) : FreesOnly i (pfree i fuel) := by
  induction fuel with
  | zero => exact fun F a _ _ => .halt
  | succ fuel ih =>
    refine fun F a ha hnot => .ite (fun h => absurd (congrArg Ptr.addr h) ha) fun _ => ?_
    refine .iter (J := fun _ => InHand i F a) (fun _ => pfreeRound_spec hnot ?_ fuel) fuel ()
    exact (triggerWith_spec ih fuel).post fun _ s g h => h.forget

theorem triggerCollection_spec (fuel : Nat) : Spec i (fun s g => Holds i F s g ∧ Ready i s) (triggerCollection i fuel) fun _ => Holds i F :=
  (triggerWith_spec (pfree_spec fuel) fuel).post fun _ _ _ h => h.forget

/-! ## `palloc` -/

/-- The thread has the object at `p`. -/
def Mine (i : Fin n) (p : Ptr) : Assert n := fun _ g => p.tag = false ∧ g.spot p.addr = .mine i

theorem Mine.ne (h : Mine i p s g) (ha : g.spot a ≠ .mine i) : a ≠ p.addr := by
  rintro rfl
  exact ha h.2

theorem steady_mine : Steady i (Mine i p) := .priv fun _ _ _ _ hp h => ⟨h.1, (hp.spot _ (.inl (by rw [h.2]; rfl))).trans h.2⟩

/-- The cache a thread allocates from. -/
def Serving (i : Fin n) (e : Nat) (R : Nat → Prop) : Assert n := fun s _ => s.alloc_cache i = some e ∧ R (s.free e)

theorem place_of_serving (hS : Shape s g) {R : Nat → Prop} (h : Serving i e R s g) : g.place e = .alloc i := hS.owners.serving i e h.1

theorem steady_serving {R : Nat → Prop} : Steady i (Serving i e R) := fun _ s g s' g' hp hS _ _ h => by
  have ho : (g.place e).owner = some i := by rw [place_of_serving hS h]; rfl
  refine ⟨hp.alloc_cache.trans h.1, ?_⟩
  rw [hp.free e ho]
  exact h.2

/-- There is room for one more object in the allocation cache. -/
def Room (i : Fin n) : Assert n := fun s _ => ∀ e, s.alloc_cache i = some e → s.free e < entriesPerCache

theorem steady_room : Steady i (Room i) := fun _ s g s' g' hp hS _ _ h e he => by
  rw [hp.alloc_cache] at he
  have ho : (g.place e).owner = some i := by rw [hS.owners.serving i e he]; rfl
  rw [hp.free e ho]
  exact h e he

/-- What `palloc` leaves its thread with. -/
structure Served (i : Fin n) (F : Files) (p : Ptr) (s : Mem n) (g : Ghost n) : Prop where
  holds : Holds i { F with spent := False } s g
  mine : Mine i p s g
  room : Room i s g

theorem steady_served : Steady i (Served i F p) := fun j s g s' g' hp hS hS' hT h =>
  ⟨steady_holds j s g s' g' hp hS hS' hT h.holds, steady_mine j s g s' g' hp hS hS' hT h.mine, steady_room j s g s' g' hp hS hS' hT h.room⟩

theorem Served.of_spent {o : Prop} (h : Served i { F with spent := o } p s g) : Served i F p s g := ⟨h.holds, h.mine, h.room⟩

theorem Holds.used (h : Holds i F s g) : Holds i { F with spent := False } s g :=
  ⟨h.desk, h.hands, h.HPs, h.outside, h.seen, False.elim, h.scan, h.ready⟩

theorem Holds.setSpent (h : Holds i F s g) (hs : Spent i s) : Holds i { F with spent := True } s g :=
  ⟨h.desk, h.hands, h.HPs, h.outside, h.seen, fun _ => hs, h.scan, h.ready⟩

theorem booked_served (ha : g.spot a = .cached e) (k : Nat) :
    Booked i s g (some (.served a)) (s.setFree e k) (g.move a (.mine i)) := by
  exact ⟨rfl, life_update (by rw [ha]; rfl), fun c => rfl, fun j h => (h.resolve_left (by simp)).2, fun c d h => .inl h,
    fun c h => (by cases h), .other (by simp) (by simp) (fun _ => rfl) rfl, by simp⟩

theorem serve_spec :
    Spec i (fun s g => Holds i F s g ∧ Serving i e (0 < ·) s g)
      (step (fun s => some (.served (s.ptrs e (s.free e - 1)).addr)) (fun s : Mem n => s.setFree e (s.free e - 1))
        fun s => Prog.ret (s.ptrs e (s.free e - 1))) fun p => Served i F p := by
  refine .act (steady_holds.and steady_serving) fun s g h hS _ => ?_
  obtain ⟨h, hserve⟩ := h
  have hp := place_of_serving hS hserve
  obtain ⟨hq, hspot, hS', hT⟩ := hS.served h.outside hserve.1 hserve.2
  have hne : ∀ c, c ≠ e → (s.setFree e (s.free e - 1)).free c = s.free c := fun c hc => Function.update_of_ne hc ..
  have hself : (s.setFree e (s.free e - 1)).free e = s.free e - 1 := Function.update_self ..
  have hsheet : sheet i (s.setFree e (s.free e - 1)) (g.move (s.ptrs e (s.free e - 1)).addr (.mine i)) = sheet i s g := by
    refine sheet_eq_of (fun c d x k hc => ⟨rfl, rfl, hne c ?_, rfl⟩) fun c d x k hc => hc
    rintro rfl
    cases hp.symm.trans hc
  refine ⟨_, ⟨hS', hT⟩, booked_served hspot _, ⟨?_, ⟨by rw [hq], move_spot_self⟩, fun c hc => ?_⟩⟩
  · refine h.used.calm hS ⟨⟨i, hT⟩, rfl, rfl, rfl, rfl, le_refl _, id, fun hs c hc => ?_⟩ (hsheet.trans h.desk) fun a => ?_
    · have hzero := hs e hserve.1
      have hpos := hserve.2
      omega
    · rw [← h.hands a]
      by_cases ha : a = (s.ptrs e (s.free e - 1)).addr
      · rw [ha, move_spot_self, hspot]
        simp
      · rw [move_spot_of_ne ha]
  · obtain rfl : e = c := Option.some.inj (hserve.1.symm.trans hc)
    have hsize := hS.stock.size e (by rw [hp]; simp)
    have hpos := hserve.2
    rw [hself]
    omega

/-- A spent thread takes a cache from the pool. -/
theorem popHead_spec (hF : F.spent) (fuel : Nat) :
    Spec i (Holds i F) (popHead i fuel) fun b => Holds i (if b then { F with spent := False } else F) := by
  refine .iter (J := fun _ => Holds i F) (fun _ => ?_) fuel ()
  refine .bind (B := fun head s g => Holds i F s g ∧ ∀ e, head = some e → Reached 5 e s g) (.load steady_holds fun s g h hS => ⟨h, fun e he => ?_⟩)
    fun head => ?_
  · obtain ⟨-, -, hp⟩ := hS.popHead (i := i) he (h.spent hF)
    change 5 ≤ (g.place e).rank
    rw [hp]
    exact le_refl 5
  cases head with
  | none => exact .ret fun s g h => h.1
  | some e =>
    refine .bind (B := fun next s g => Holds i F s g ∧ Link 5 e next s g)
      (Spec.pre (.load (steady_holds.and steady_reached) fun s g h _ => ⟨h.1, h.2, fun _ => rfl⟩) fun s g h => ⟨h.1, h.2 e rfl⟩) fun next => ?_
    refine .bind (B := fun ok s g => if ok then Holds i { F with spent := False } s g ∧ Serving i e (fun _ => True) s g else Holds i F s g)
      (.cas (steady_holds.and (steady_link (.inr rfl) next)) (fun s g h hS hok => ?_) fun s g h _ _ => h.1) fun ok => ?_
    · obtain ⟨h, hlink⟩ := h
      obtain ⟨hS', hT, hp⟩ := hS.popHead (i := i) hok (h.spent hF)
      have hnext : s.next e = next := hlink.2 (by rw [hp]; rfl)
      subst hnext
      refine ⟨_, ⟨hS', hT⟩, ?_, ?_, Function.update_self .., trivial⟩
      · refine .of_quiet rfl rfl (fun _ => rfl) (fun c => ?_) (fun _ h => h) (fun c d hc => ?_) (fun _ => rfl) rfl
        · by_cases hc : c = e
          · rw [hc, hp]
            exact (congrArg Place.desk (file_place_self (g := g) (e := e) (p := .alloc i))).trans rfl
          · exact congrArg Place.desk (file_place_of_ne hc)
        · refine (file_place_of_ne ?_).trans hc
          rintro rfl
          rw [hp] at hc
          cases hc
      · refine ⟨?_, h.hands, h.HPs, h.outside, h.seen, False.elim, fun hs => (h.scan hs).trans hS hT rfl rfl, fun hs => (h.ready hs).trans hS hT rfl⟩
        refine Eq.trans (sheet_eq_of (fun c d x k hc => ⟨file_place_of_ne ?_, rfl, rfl, rfl⟩) fun c d x k hc => ?_) h.desk
        · rintro rfl
          cases hp.symm.trans hc
        · by_cases hce : c = e
          · rw [hce] at hc
            cases (file_place_self (g := g)).symm.trans hc
          · exact (file_place_of_ne hce).symm.trans hc
    · cases ok with
      | false => exact .ret fun s g h => h
      | true =>
        refine .bind (B := fun _ => Holds i { F with spent := False }) (.act (steady_holds.and steady_serving) fun s g h hS _ => ?_)
          fun _ => .ret fun s g h => h
        obtain ⟨h, hserve⟩ := h
        have hp := place_of_serving hS hserve
        obtain ⟨hS', hT⟩ := hS.setNext (i := i) (e := e) (by rw [hp]; rfl) none
        refine ⟨g, ⟨hS', hT⟩, .of_quiet rfl rfl (fun _ => rfl) (fun _ => rfl) (fun _ h => h) (fun _ _ h => h) (fun _ => rfl) rfl,
          h.calm hS ⟨⟨i, hT⟩, rfl, rfl, rfl, rfl, le_refl _, id, id⟩ ?_ h.hands⟩
        refine Eq.trans (sheet_eq_of (fun c d x k hc => ⟨rfl, Function.update_of_ne ?_ .., rfl, rfl⟩) fun _ _ _ _ hc => hc) h.desk
        rintro rfl
        cases hp.symm.trans hc

/-- The result of `pallocRefill`. -/
def Refilled (i : Fin n) (F : Files) : Option Ptr → Assert n
  | some p => Served i F p
  | none => Holds i { F with spent := False }

theorem spare_spec (hF : F.spent) :
    Spec i (Holds i F)
      (step (fun s => some (.spared (s.spare s.spares))) (fun s : Mem n => { s with spares := s.spares + 1 })
        fun s => Prog.ret ⟨s.spare s.spares, false⟩) fun p => Served i F p := by
  refine .act steady_holds fun s g h hS hm => ?_
  have haway := hS.supply.away s.spares (le_refl _)
  obtain ⟨hS', hT⟩ := hS.spare (i := i) h.outside hm.inj hm.ne_zero
  have hne : ∀ {b}, g.spot b ≠ .away → b ≠ s.spare s.spares := by
    rintro b hb rfl
    exact hb haway
  have hhand : ∀ j b, (g.move (s.spare s.spares) (.mine i)).spot b = .hand j ↔ g.spot b = .hand j := by
    intro j b
    by_cases hb : b = s.spare s.spares
    · rw [hb, move_spot_self, haway]
      simp
    · rw [move_spot_of_ne hb]
  refine ⟨_, ⟨hS', hT⟩, .of_quiet rfl rfl (life_update (by rw [haway]; rfl)) (fun _ => rfl) (fun _ h => h) (fun _ _ h => h) (fun _ => rfl) rfl,
    ⟨?_, ⟨rfl, move_spot_self⟩, fun e he => ?_⟩⟩
  · exact h.used.calm hS ⟨⟨i, hT⟩, rfl, rfl, rfl, rfl, le_refl _, id, id⟩ h.desk fun a => (hhand i a).trans (h.hands a)
  · rw [h.spent hF e he]
    exact Nat.succ_pos 125

theorem mayFail_outOfMemory (hA : Steady i A) : MayFail (proto n) i (fun w => A w.mem w.ghost) (.assertFailed .outOfMemory) := by
  refine Spec.step (B := fun _ _ _ => False) hA fun w _ hI => ⟨w.ghost, hI.shape, .refl .., ?_, trivial⟩
  exact .of_quiet rfl rfl (fun _ => rfl) (fun _ => rfl) (fun _ h => h) (fun _ _ h => h) (fun _ => rfl) rfl

/-- The outer loop of `palloc`. -/
theorem pallocRefill_spec (hF : F.spent) (hready : F.ready) (fuel : Nat) :
    Spec i (Holds i F) (pallocRefill i fuel) (Refilled i F) := by
  refine .iter (J := fun _ => Holds i F) (fun _ => ?_) fuel ()
  refine .bind (popHead_spec hF fuel) fun b => .ite (fun hb => .ret fun s g h => by rwa [if_pos hb] at h) fun hb => ?_
  refine Spec.pre (A := Holds i F) ?_ fun s g h => by rwa [if_neg hb] at h
  refine .bind ((triggerCollection_spec fuel).pre fun s g h => ⟨h, h.ready hready⟩) fun _ => ?_
  refine .bind (B := fun _ => Holds i F) (.load steady_holds fun s g h _ => h) fun stop => .ite (fun _ => ?_) fun _ => .ret fun s g h => h
  refine .bind (B := fun _ => Holds i F) (.load steady_holds fun s g h _ => h) fun stop => .ite (fun _ => ?_) fun _ => ?_
  · exact .bind (spare_spec hF) fun obj => .ret fun s g h => h
  · exact .bind (B := fun _ s g => False ∧ Holds i F s g) (Triple.check (mayFail_outOfMemory steady_holds)) fun _ => .halt

/-! ## `pReturnAlloc` -/

/-- What `pReturnAlloc` does not write. -/
structure Unwritten (s s' : Mem n) : Prop where
  spare : s'.spare = s.spare
  reclaim : s'.reclaim = s.reclaim
  toProcess : s'.toProcess = s.toProcess
  HPs : s'.HPs = s.HPs
  localVer : s'.localVer = s.localVer
  hps : s'.hps = s.hps

theorem Unwritten.trans {s₁ : Mem n} (h : Unwritten s s₁) (h' : Unwritten s₁ s') : Unwritten s s' :=
  ⟨h'.spare.trans h.spare, h'.reclaim.trans h.reclaim, h'.toProcess.trans h.toProcess, h'.HPs.trans h.HPs, h'.localVer.trans h.localVer,
    h'.hps.trans h.hps⟩

theorem unwritten_append : Unwritten s (s.append e p) := ⟨rfl, rfl, rfl, rfl, rfl, rfl⟩

theorem unwritten_malloc : Unwritten s (s.malloc p) := ⟨rfl, rfl, rfl, rfl, rfl, rfl⟩

theorem unwritten_setNext (x : Option Nat) : Unwritten s (s.setNext e x) := ⟨rfl, rfl, rfl, rfl, rfl, rfl⟩

theorem unwritten_setAllocCache (x : Option Nat) : Unwritten s (s.setAllocCache i x) := ⟨rfl, rfl, rfl, rfl, rfl, rfl⟩

/-- An object of the thread has gone into its allocation cache `c`. -/
theorem Served.givenBack (h : Served i F ⟨a, false⟩ s g) (hS : Shape s g) (hT : Trans i s g s' g')
    (hmem : Unwritten s s') (hghost : g' = { g with place := g'.place, spot := Function.update g.spot a (.cached c) })
    (hplace : ∀ e, e ≠ c → g'.place e = g.place e) (hnext : ∀ e, e ≠ c → s'.next e = s.next e) (hfree : ∀ e, e ≠ c → s'.free e = s.free e)
    (hptrs : ∀ e, e ≠ c → s'.ptrs e = s.ptrs e) (hold : g.place c = .raw ∨ g.place c = .alloc i) (hnew : g'.place c = .alloc i) :
    Booked i s g (some (.givenBack a)) s' g' ∧ Holds i { F with spent := False } s' g' := by
  have ha := h.mine.2
  have hh := h.holds
  have hwork : ∀ e j d x k, g.place e = .work j d x k → e ≠ c := by
    rintro e j d x k he rfl
    rw [he] at hold
    obtain h | h := hold <;> cases h
  have hwork' : ∀ e j d x k, g'.place e = .work j d x k → e ≠ c := by
    rintro e j d x k he rfl
    rw [he] at hnew
    cases hnew
  have hspot : g'.spot = Function.update g.spot a (.cached c) := by rw [hghost]
  have hhand : ∀ j b, g'.spot b = .hand j ↔ g.spot b = .hand j := by
    intro j b
    rw [hspot]
    by_cases hb : b = a
    · rw [hb, Function.update_self, ha]
      simp
    · rw [Function.update_of_ne hb]
  refine ⟨.of_quiet rfl hmem.spare (fun b => ?_) (fun e => ?_) (fun j h => by rwa [hghost]) (fun e d he => ?_)
    (fun _ => hmem.reclaim) (by rw [hmem.toProcess]), ?_⟩
  · rw [hspot]
    exact life_update (by rw [ha]; rfl) b
  · by_cases he : e = c
    · rw [he, hnew]
      obtain h | h := hold
      · rw [h]
        rfl
      · rw [h]
    · rw [hplace e he]
  · refine (hplace e ?_).trans he
    rintro rfl
    rw [he] at hold
    obtain h | h := hold <;> cases h
  · have hver := congrFun hmem.localVer i
    refine ⟨?_, fun b => (hhand i b).trans (hh.hands b), (congrFun hmem.HPs i).trans hh.HPs, ?_, ?_, False.elim,
      fun hs => (hh.scan hs).trans hS hT hver (congrFun hmem.hps i), fun hs => (hh.ready hs).trans hS hT hver⟩
    · refine Eq.trans (sheet_eq_of (fun e d x k he => ?_) fun e d x k he => (hplace e (hwork' e i d x k he)).symm.trans he) hh.desk
      have hne := hwork e i d x k he
      exact ⟨hplace e hne, hnext e hne, hfree e hne, hptrs e hne⟩
    · rw [hghost]; exact hh.outside
    · rw [hghost]; exact hh.seen

/-- `pReturnAlloc` without a cache. -/
theorem returnNew_spec :
    Spec i (fun s g => Served i F ⟨a, false⟩ s g ∧ s.alloc_cache i = none)
      (step (fun _ => some (.givenBack a)) (fun s : Mem n => ((s.malloc ⟨a, false⟩).setNext s.brk none).setAllocCache i (some s.brk))
        fun _ => Prog.ret ()) fun _ => Holds i { F with spent := False } := by
  refine .act (steady_served.and (.priv fun _ _ _ _ hp h => hp.alloc_cache.trans h)) fun s g h hS _ => ?_
  obtain ⟨h, hnone⟩ := h
  obtain ⟨hS', hT⟩ := hS.newAlloc h.holds.outside hnone h.mine.2
  have hun := (unwritten_malloc (s := s) (p := ⟨a, false⟩)).trans ((unwritten_setNext (e := s.brk) none).trans
    (unwritten_setAllocCache (i := i) (some s.brk)))
  exact ⟨_, ⟨hS', hT⟩, h.givenBack hS hT hun rfl (fun e he => file_place_of_ne he) (fun e he => Function.update_of_ne he ..)
    (fun e he => Function.update_of_ne he ..) (fun e he => Function.update_of_ne he ..) (.inl (place_brk hS)) file_place_self⟩

/-- `pReturnAlloc` with a cache that has room. -/
theorem returnAppend_spec :
    Spec i (fun s g => Served i F ⟨a, false⟩ s g ∧ Serving i e (fun _ => True) s g)
      (step (fun _ => some (.givenBack a)) (fun s : Mem n => s.append e ⟨a, false⟩) fun _ => Prog.ret ())
      fun _ => Holds i { F with spent := False } := by
  refine .act (steady_served.and steady_serving) fun s g h hS _ => ?_
  obtain ⟨h, hserve⟩ := h
  have hp := place_of_serving hS hserve
  obtain ⟨hS', hT⟩ := hS.append h.holds.outside (.inr ⟨h.mine.2, hp⟩) (h.room e hserve.1) fun _ => hserve.1
  exact ⟨_, ⟨hS', hT⟩, h.givenBack hS hT unwritten_append rfl (fun _ _ => rfl) (fun _ _ => rfl) (fun e he => Function.update_of_ne he ..)
    (fun e he => Function.update_of_ne he ..) (.inr hp) hp⟩

/-- The thread puts the object back. With room in its cache it needs no other. -/
theorem pReturnAlloc_spec (fuel : Nat) :
    Spec i (Served i F ⟨a, false⟩) (pReturnAlloc i fuel ⟨a, false⟩) fun _ => Holds i { F with spent := False } := by
  refine .bind (B := fun c s g => Served i F ⟨a, false⟩ s g ∧ s.alloc_cache i = c) (.load steady_served fun s g h _ => ⟨h, rfl⟩) fun c => ?_
  cases c with
  | none => exact returnNew_spec
  | some e =>
    refine .bind (B := fun free s g => Served i F ⟨a, false⟩ s g ∧ Serving i e (· = free) s g)
      (.load (steady_served.and (.priv fun _ _ _ _ hp h => hp.alloc_cache.trans h)) fun s g h _ => ⟨h.1, h.2, rfl⟩) fun free => ?_
    refine .ite (fun _ => returnAppend_spec.pre fun s g h => ⟨h.1, h.2.1, trivial⟩) fun hge w hw => absurd (hw.1.room e hw.2.1) ?_
    rw [show w.mem.free e = free from hw.2.2]
    exact hge

end OptimisticAccess.MOA
