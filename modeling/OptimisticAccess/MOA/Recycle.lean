import OptimisticAccess.MOA.Collect

/-!
# `pop` and `Recycle`

`Recycle` goes through one cache at a time: the objects of the table are passed to `pfree`, which
may go through other caches, and the rest is kept. A call of `pfree` gives its thread's caches back
as it found them.
-/

namespace OptimisticAccess.MOA

open Conc Prog

variable {n : Nat} {i j t : Fin n} {s s' : Mem n} {g g' : Ghost n} {a b e d v k x m : Nat} {p : Ptr} {F : Files} {A : Assert n}

/-! ## Sheets after a step -/

/-- A step that touches one cache touches one sheet. -/
theorem sheet_update (hplace : ∀ c, c ≠ e → g'.place c = g.place c) (hnext : ∀ c, c ≠ e → s'.next c = s.next c)
    (hfree : ∀ c, c ≠ e → s'.free c = s.free c) (hptrs : ∀ c, c ≠ e → s'.ptrs c = s.ptrs c) :
    sheet i s' g' = Function.update (sheet i s g) e (sheet i s' g' e) := by
  funext c
  by_cases hc : c = e
  · rw [hc, Function.update_self]
  · rw [Function.update_of_ne hc]
    exact sheet_congr (hplace c hc) (hnext c hc) (hfree c hc) (hptrs c hc)

/-- `F` with the cache `e` in work. -/
def Files.put (F : Files) (e : Nat) (t : Sheet) : Files := { F with desk := Function.update F.desk e (some t) }

@[simp] theorem put_put (F : Files) (e : Nat) (t t' : Sheet) : (F.put e t).put e t' = F.put e t' := by
  simp only [Files.put, Function.update_idem]

@[simp] theorem put_desk {F : Files} {t : Sheet} : (F.put e t).desk e = some t := Function.update_self ..

/-! ## `pop` -/

/-- The link of a cache that was on a shared list when `x` was read. -/
def Link (r e : Nat) (x : Option Nat) : Assert n := fun s g => r ≤ (g.place e).rank ∧ ((g.place e).rank = r → s.next e = x)

theorem Place.shared_of_rank {q : Place n} (h : q.rank = 3 ∨ q.rank = 5) : q.owner = none ∧ q ≠ .raw := by
  cases q <;> simp_all [Place.rank, Place.owner]

theorem steady_link {r : Nat} (hr : r = 3 ∨ r = 5) (x : Option Nat) : Steady i (Link (n := n) r e x) := .trans fun t s g s' g' hT h => by
  have hrank := hT.rank e
  refine ⟨h.1.trans hrank, fun h' => ?_⟩
  have hle := h.1
  have hsame : (g.place e).rank = r := by omega
  obtain ⟨ho, hraw⟩ := Place.shared_of_rank (hsame ▸ hr)
  exact (hT.next e ho (by omega) hraw).trans (h.2 hsame)

/-- The cache has come at least so far. -/
def Reached (r e : Nat) : Assert n := fun _ g => r ≤ (g.place e).rank

theorem steady_reached {r : Nat} : Steady i (Reached (n := n) r e) := .trans fun _ _ _ _ _ hT h => h.trans (hT.rank e)

theorem booked_popped (hp : g.place e = .batch v) :
    Booked i s g (some (.popped e)) { s with toProcess := ⟨s.next e, s.toProcess.ver⟩ }
      { g.file e (.work i v 0 0) with batch := g.batch.tail } := by
  refine ⟨rfl, fun _ => rfl, fun c => ?_, fun j h => ?_, fun c d h => ?_, fun c h => ?_,
    .other (by simp) (by simp) (fun _ => rfl) rfl, by simp⟩
  · change ((g.file e _).place c).desk = _
    by_cases hc : c = e
    · rw [hc, file_place_self]
      exact (if_pos rfl).symm
    · rw [file_place_of_ne hc]
      exact (if_neg fun h => hc h.symm).symm
  · exact (h.resolve_left (by simp)).2
  · by_cases hc : c = e
    · exact .inr (by rw [hc])
    · exact .inl ((file_place_of_ne hc).trans h)
  · obtain rfl : e = c := by simpa using h
    change (g.place e).rank ≤ 3 ∧ 3 < ((g.file e _).place e).rank
    rw [hp, file_place_self]
    simp [Place.rank]

/-- The result of `pop`. -/
def Got (i : Fin n) (F : Files) : Popped → Assert n
  | .entry e => fun s g => F.desk e = none ∧ ∃ d m ptrs,
      Holds i (F.put e ⟨d, 0, 0, none, m, ptrs⟩) s g
  | _ => fun s g => Holds i { F with ready := True } s g

theorem Holds.setReady (h : Holds i F s g) (hr : Ready i s) : Holds i { F with ready := True } s g :=
  ⟨h.desk, h.hands, h.HPs, h.outside, h.seen, h.spent, h.scan, fun _ => hr⟩

theorem Holds.turn {t : Sheet} {H : Set Nat} (h : Holds i F s g) (hS : Shape s g) (hc : Calm i s g s' g')
    (hplace : ∀ c, c ≠ e → g'.place c = g.place c) (hnext : ∀ c, c ≠ e → s'.next c = s.next c)
    (hfree : ∀ c, c ≠ e → s'.free c = s.free c) (hptrs : ∀ c, c ≠ e → s'.ptrs c = s.ptrs c) (hspot : ∀ a, g'.spot a = .hand i ↔ a ∈ H)
    (ht : sheet i s' g' e = some t) : Holds i { F.put e t with hands := H } s' g' := by
  refine h.calm hS hc ?_ hspot
  rw [sheet_update hplace hnext hfree hptrs, ht, h.desk]
  rfl

theorem Holds.setSheet {t : Sheet} (h : Holds i F s g) (hS : Shape s g) (hc : Calm i s g s' g')
    (hplace : ∀ c, c ≠ e → g'.place c = g.place c) (hnext : ∀ c, c ≠ e → s'.next c = s.next c)
    (hfree : ∀ c, c ≠ e → s'.free c = s.free c) (hptrs : ∀ c, c ≠ e → s'.ptrs c = s.ptrs c) (hspot : ∀ a, g'.spot a = .hand i ↔ g.spot a = .hand i)
    (ht : sheet i s' g' e = some t) : Holds i (F.put e t) s' g' :=
  h.turn hS hc hplace hnext hfree hptrs (fun a => (hspot a).trans (h.hands a)) ht

/-- The cache `e` leaves the thread. -/
theorem Holds.lift {t : Sheet} (h : Holds i (F.put e t) s g) (hS : Shape s g) (hc : Calm i s g s' g')
    (hplace : ∀ c, c ≠ e → g'.place c = g.place c) (hnext : ∀ c, c ≠ e → s'.next c = s.next c)
    (hfree : ∀ c, c ≠ e → s'.free c = s.free c) (hptrs : ∀ c, c ≠ e → s'.ptrs c = s.ptrs c) (hspot : ∀ a, g'.spot a = .hand i ↔ g.spot a = .hand i)
    (hnone : F.desk e = none) (ho : (g'.place e).owner ≠ some i) : Holds i F s' g' := by
  refine h.calm hS hc (D := F.desk) ?_ fun a => (hspot a).trans (h.hands a)
  rw [sheet_update hplace hnext hfree hptrs, h.desk, sheet_eq_none ho, ← hnone]
  exact (Function.update_idem ..).trans (Function.update_eq_self ..)

theorem setNext_spec {t : Sheet} (ht : F.desk e = some t) (y : Option Nat) :
    Spec i (Holds i F) (store (·.setNext e y)) fun _ => Holds i (F.put e { t with next := y }) := by
  refine .act steady_holds fun s g h hS _ => ?_
  obtain ⟨hp, -, hfree, hptrs⟩ := work_of_sheet (h.desk ▸ ht)
  obtain ⟨hS', hT⟩ := hS.setNext (i := i) (e := e) (by rw [hp]; rfl) y
  have hne : ∀ c, c ≠ e → (s.setNext e y).next c = s.next c := fun c hc => Function.update_of_ne hc ..
  refine ⟨g, ⟨hS', hT⟩, ?_, h.setSheet hS ⟨⟨i, hT⟩, rfl, rfl, rfl, rfl, le_refl _, id, id⟩ (fun _ _ => rfl) hne (fun _ _ => rfl)
    (fun _ _ => rfl) (fun _ => Iff.rfl) ?_⟩
  · exact .of_quiet rfl rfl (fun _ => rfl) (fun _ => rfl) (fun _ h => h) (fun _ _ h => h) (fun _ => rfl) rfl
  · rw [sheet_of_work hp]
    change some (Sheet.mk _ _ _ (Function.update s.next e y e) (s.free e) (s.ptrs e)) = _
    rw [Function.update_self, hfree, hptrs]

theorem cutOff_spec {t : Sheet} (ht : F.desk e = some t) :
    Spec i (Holds i F) (cutOff e t.next) fun _ => Holds i (F.put e { t with next := none }) := by
  refine .bind (B := fun first s g => Holds i F s g ∧ first = t.next) (.load steady_holds fun s g h _ => ⟨h, ?_⟩) fun first =>
    Spec.fact (fun _ _ h => h.2) fun hfirst => .ite (fun _ => (setNext_spec ht none).pre fun _ _ h => h.1) fun hne => absurd hfirst hne
  exact (work_of_sheet (h.desk ▸ ht)).2.1

theorem pop_spec (fuel : Nat) : Spec i (fun s g => Turns i F v s g) (pop fuel v) fun r => Got i F r := by
  refine .iter (J := fun _ s g => Turns i F v s g) (fun _ => ?_) fuel ()
  refine .bind (B := fun (old : VerEntry) s g => Turns i F v s g ∧ Moved old.ver s g ∧
      (old.ver = v → old.head = none → Ready i s) ∧ (old.ver ≠ v → v < old.ver) ∧ ∀ e, old.head = some e → old.ver = v → Reached 3 e s g)
    (.load steady_turns fun s g h hS => ⟨h, le_refl s.toProcess.ver, fun h1 h2 => .inr fun _ => h2, fun h1 => ?_, fun e he hv => ?_⟩) fun old => ?_
  · have hle := local_le_toProcess (i := i) hS
    rw [show s.localVer i = v from h.2] at hle
    omega
  · obtain ⟨-, -, hp⟩ := hS.pop (i := i) he ((show s.localVer i = v from h.2).trans hv.symm)
    change 3 ≤ (g.place e).rank
    rw [hp]
    exact le_refl 3
  · refine .ite (fun hne => ?_) fun heq => ?_
    · refine .ret fun s g h => ?_
      have hlt := (h.2.2.2.1 hne).trans_le h.2.1
      have hver : s.localVer i = v := h.1.2
      exact h.1.1.setReady (.inr fun h' => by omega)
    · cases hold : old.head with
      | none => exact .ret fun s g h => h.1.1.setReady (h.2.2.1 (not_not.1 heq) rfl)
      | some e =>
        have hpre : Steady i fun s g => Turns i F v s g ∧ Reached 3 e s g := steady_turns.and steady_reached
        refine .bind (B := fun next s g => Turns i F v s g ∧ Link 3 e next s g) (Spec.pre (.load hpre fun s g h _ => ⟨h.1, h.2, fun _ => rfl⟩)
          fun s g h => ⟨h.1, h.2.2.2.2 e rfl (not_not.1 heq)⟩) fun next => ?_
        refine .bind (B := fun ok s g => if ok then F.desk e = none ∧ ∃ d m ptrs,
            Holds i (F.put e ⟨d, 0, 0, next, m, ptrs⟩) s g else Turns i F v s g)
          (.cas (steady_turns.and (steady_link (.inl rfl) next)) (fun s g h hS hok => ?_) fun s g h _ _ => h.1) fun ok => ?_
        · obtain ⟨⟨hh, hver⟩, hlink⟩ := h
          have hhead : s.toProcess.head = some e := by rw [hok, hold]
          obtain ⟨hS', hT, hp⟩ := hS.pop (i := i) hhead (by rw [show s.localVer i = v from hver, hok]; exact (not_not.1 heq).symm)
          have hnext : s.next e = next := hlink.2 (by rw [hp]; rfl)
          subst hok hnext
          refine ⟨_, ⟨hS', hT⟩, booked_popped hp, ?_, s.toProcess.ver, s.free e, s.ptrs e, ?_⟩
          · rw [← hh.desk]
            exact sheet_eq_none (by rw [hp]; simp [Place.owner])
          · refine hh.setSheet hS ⟨⟨i, hT⟩, rfl, rfl, rfl, rfl, le_refl _, id, id⟩ (fun c hc => file_place_of_ne hc) (fun _ _ => rfl)
              (fun _ _ => rfl) (fun _ _ => rfl) (fun _ => Iff.rfl) ?_
            exact sheet_of_work (file_place_self (g := g))
        · cases ok with
          | false => exact .ret fun s g h => h
          | true =>
            refine Spec.fact (fun _ _ h => h.1) fun hnone => Spec.pre (A := fun s g => ∃ d m ptrs,
              Holds i (F.put e ⟨d, 0, 0, next, m, ptrs⟩) s g) ?_ fun _ _ h => h.2
            refine .exists fun d => .exists fun m => .exists fun ptrs => ?_
            refine .bind (cutOff_spec (t := ⟨d, 0, 0, next, m, ptrs⟩) put_desk) fun _ => .ret fun s g h => ⟨hnone, d, m, ptrs, ?_⟩
            rw [put_put] at h
            exact h

/-! ## The loop over the objects of a cache -/

theorem setContainsP_spec (hA : Steady i A) (fuel : Nat) (p : Ptr) :
    Spec i A (setContainsP i fuel p) fun b s g => A s g ∧ (b = false → ¬ Found (s.hps i) p) := by
  refine .bind (B := fun set s g => A s g ∧ s.hps i = set) (.load hA fun s g h _ => ⟨h, rfl⟩) fun t => ?_
  cases t with
  | none => exact .halt
  | some set =>
    have hA' : Steady i fun s g => A s g ∧ s.hps i = some set := hA.and (steady_hps _)
    refine Proto.Triple.post (setContains_spec (fun e => mayFail_set hA' e) fuel set (lowWord p)) fun b w h => ⟨h.2.1, fun hb hfound => ?_⟩
    obtain ⟨set', hset', hne, hf⟩ := hfound
    obtain rfl := Option.some.inj (h.2.2.symm.trans hset')
    exact Bool.noConfusion (hb.symm.trans (h.1 hne hf))

theorem booked_taken (hp : g.place e = .work i d x k) (ha : g.spot a = .cached e) :
    Booked i s g (some (.taken e a)) s ((g.file e (.work i d (x + 1) k)).move a (.hand i)) := by
  refine ⟨rfl, life_update (by rw [ha]; rfl), fun c => ?_, fun j h => ?_, fun c d h => .inl ?_, fun c h => (by cases h),
    .other (by simp) (by simp) (fun _ => rfl) rfl, by simp⟩
  · rw [move_place]
    by_cases hc : c = e
    · rw [hc, file_place_self, hp]
      exact (if_pos rfl).symm
    · rw [file_place_of_ne hc]
      exact (if_neg fun h => hc h.symm).symm
  · exact (h.resolve_left (by simp)).2
  · rw [move_place, file_place_of_ne]
    · exact h
    · rintro rfl
      rw [hp] at h
      cases h

theorem booked_kept (hp : g.place e = .work i d x k) (ha : g.spot a = .cached e) :
    Booked i s g (some (.kept e)) (s.setPtr e k p) (g.keep i e d x k a) := by
  have hplace : ∀ c, c ≠ e → (g.keep i e d x k a).place c = g.place c := fun c hc => file_place_of_ne hc
  refine ⟨rfl, fun b => ?_, fun c => ?_, fun j h => ?_, fun c d h => .inl ?_, fun c h => (by cases h),
    .other (by simp) (by simp) (fun _ => rfl) rfl, by simp⟩
  · refine (Life.after_of_none rfl).trans (congrArg some ?_)
    by_cases hb : b = a
    · subst hb
      rw [show (g.keep i e d x k b).spot b = .kept e from move_spot_self, ha]
      rfl
    · rw [show (g.keep i e d x k a).spot b = g.spot b from move_spot_of_ne hb]
  · by_cases hc : c = e
    · rw [hc, show (g.keep i e d x k a).place e = .work i d (x + 1) (k + 1) from file_place_self, hp]
      exact (if_pos rfl).symm
    · rw [hplace c hc]
      exact (if_neg fun h => hc h.symm).symm
  · exact (h.resolve_left (by simp)).2
  · rw [hplace]
    · exact h
    · rintro rfl
      rw [hp] at h
      cases h

/-- What the loop needs of `pfree`: the object goes, and all else is as before. -/
def FreesOnly (i : Fin n) (pfree : Ptr → P n Unit) : Prop :=
  ∀ F a, a ≠ 0 → a ∉ F.hands → Spec i (Holds i { F with hands := insert a F.hands }) (pfree ⟨a, false⟩) fun _ => Holds i F

theorem ne_zero_of_cached (hS : Shape s g) (ha : g.spot a = .cached e) : a ≠ 0 := by
  rintro rfl
  rw [hS.supply.zero] at ha
  cases ha

theorem take_spec {y : Option Nat} {ptrs : Nat → Ptr} (hx : x < m) :
    Spec i (Holds i (F.put e ⟨d, x, k, y, m, ptrs⟩)) (emit (.taken e (ptrs x).addr)) fun _ s g =>
      (ptrs x = ⟨(ptrs x).addr, false⟩ ∧ (ptrs x).addr ≠ 0 ∧ (ptrs x).addr ∉ F.hands) ∧
        Holds i { F.put e ⟨d, x + 1, k, y, m, ptrs⟩ with hands := insert (ptrs x).addr F.hands } s g := by
  refine .act steady_holds fun s g h hS _ => ?_
  obtain ⟨hp, hnext, hfree, hptrs⟩ := work_of_sheet (h.desk ▸ put_desk)
  obtain ⟨hq, hspot⟩ := hS.stock.cached_of_slot (e := e) (m := x) (by rw [hp]; trivial) (by rw [hp]; exact le_refl x) (by rw [hfree]; exact hx)
  obtain ⟨-, hS', -, hT⟩ := hS.take hp (by rw [hfree]; exact hx)
  have hptr : s.ptrs e x = ptrs x := congrFun hptrs x
  rw [hptr] at hq hspot hS' hT
  refine ⟨_, ⟨hS', hT⟩, booked_taken hp hspot, ⟨hq, ne_zero_of_cached hS hspot, fun ha => ?_⟩, ?_⟩
  · rw [(h.hands _).2 ha] at hspot
    cases hspot
  · rw [← put_put F e ⟨d, x, k, y, m, ptrs⟩ ⟨d, x + 1, k, y, m, ptrs⟩]
    refine h.turn hS ⟨⟨i, hT⟩, rfl, rfl, rfl, rfl, le_refl _, id, id⟩ (fun c hc => file_place_of_ne hc) (fun _ _ => rfl) (fun _ _ => rfl)
      (fun _ _ => rfl) (fun a => ?_) ?_
    · rw [Set.mem_insert_iff]
      by_cases ha : a = (ptrs x).addr
      · rw [ha, move_spot_self]
        simp
      · rw [move_spot_of_ne ha]
        exact (h.hands a).trans ⟨.inr, fun h => h.resolve_left ha⟩
    · refine (sheet_of_work (file_place_self (g := g))).trans ?_
      change some (Sheet.mk d (x + 1) k (s.next e) (s.free e) (s.ptrs e)) = _
      rw [hnext, hfree, hptrs]

theorem steady_not_found (q : Ptr) : Steady i fun s (_ : Ghost n) => ¬ Found (s.hps i) q :=
  .priv fun _ _ _ _ hp h => by rwa [hp.hps]

/-- An object that is not in the table is no hazard pointer that protects anything. -/
theorem Scanned.clear (h : Scanned i s g) (hS : Shape s g) (hp : g.place e = .work i d x k) (ha : g.spot p.addr = .cached e)
    (hnot : ¬ Found (s.hps i) p) (j : Fin n) (hj : g.window j) : ∀ m < 3, s.HPs j m ≠ p := by
  rintro m hm rfl
  have hne : s.HPs j m ≠ NULL := by
    intro h0
    rw [h0] at ha
    exact ne_zero_of_cached hS ha rfl
  exact hnot (h.found j m hm hj hne ⟨e, d, ha, by rw [hp]; rfl, hS.clock.work e i d x k hp⟩)

theorem keep_spec {y : Option Nat} {ptrs : Nat → Ptr} (hscan : F.scan) (hx : x < m) :
    Spec i (fun s g => Holds i (F.put e ⟨d, x, k, y, m, ptrs⟩) s g ∧ ¬ Found (s.hps i) (ptrs x))
      (step (fun _ => some (.kept e)) (·.setPtr e k (ptrs x)) fun _ => Prog.ret ()) fun _ =>
        Holds i (F.put e ⟨d, x + 1, k + 1, y, m, Function.update ptrs k (ptrs x)⟩) := by
  refine .act (steady_holds.and (steady_not_found _)) fun s g h hS _ => ?_
  obtain ⟨h, hnot⟩ := h
  obtain ⟨hp, hnext, hfree, hptrs⟩ := work_of_sheet (h.desk ▸ put_desk)
  obtain ⟨hq, hspot⟩ := hS.stock.cached_of_slot (e := e) (m := x) (by rw [hp]; trivial) (by rw [hp]; exact le_refl x) (by rw [hfree]; exact hx)
  have hptr : s.ptrs e x = ptrs x := congrFun hptrs x
  have hscanned := h.scan hscan
  obtain ⟨hS', hT⟩ := hS.keep hp (by rw [hfree]; exact hx) (fun j => (hS.clock.work e i d x k hp).trans (hscanned.warned j))
    (by rw [hptr]; exact fun j => hscanned.clear hS hp (by rw [← hptr]; exact hspot) hnot j)
  rw [hptr] at hS' hT hspot
  refine ⟨_, ⟨hS', hT⟩, booked_kept hp hspot, ?_⟩
  rw [← put_put F e ⟨d, x, k, y, m, ptrs⟩]
  refine h.setSheet hS ⟨⟨i, hT⟩, rfl, rfl, rfl, rfl, le_refl _, .inl, id⟩ (fun c hc => file_place_of_ne hc) (fun _ _ => rfl)
    (fun _ _ => rfl) (fun c hc => Function.update_of_ne hc ..) (fun a => ?_) ?_
  · by_cases ha : a = (ptrs x).addr
    · rw [ha, hspot, show (g.keep i e d x k (ptrs x).addr).spot (ptrs x).addr = .kept e from move_spot_self]
      simp
    · rw [show (g.keep i e d x k (ptrs x).addr).spot a = g.spot a from move_spot_of_ne ha]
  · refine (sheet_of_work (file_place_self (g := g))).trans ?_
    change some (Sheet.mk d (x + 1) (k + 1) (s.next e) (s.free e) (Function.update s.ptrs e (Function.update (s.ptrs e) k (ptrs x)) e)) = _
    rw [Function.update_self, hnext, hfree, hptrs]

theorem take_keep_spec {y : Option Nat} {ptrs : Nat → Ptr} {pfree : Ptr → P n Unit} (hfree : FreesOnly i pfree) (hscan : F.scan) (hx : x < m)
    (fuel : Nat) :
    Spec i (Holds i (F.put e ⟨d, x, k, y, m, ptrs⟩))
      (do
        if ← setContainsP i fuel (ptrs x) then
          emit (.taken e (ptrs x).addr)
          pfree (ptrs x)
          return .inl (x + 1, k)
        else
          step (fun _ => some (.kept e)) (·.setPtr e k (ptrs x)) fun _ => Prog.ret ()
          return .inl (x + 1, k + 1) : P n ((Nat × Nat) ⊕ Nat))
      fun r s g => ∃ x' k' ptrs', r = .inl (x', k') ∧ Holds i (F.put e ⟨d, x', k', y, m, ptrs'⟩) s g := by
  refine .bind (setContainsP_spec steady_holds fuel (ptrs x)) fun b => ?_
  refine .ite (fun _ => ?_) fun hb => ?_
  · refine .bind ((take_spec hx).pre fun _ _ h => h.1) fun _ => Spec.fact (fun _ _ h => h.1) fun hobj => ?_
    obtain ⟨hptr, hne, hnot⟩ := hobj
    refine .bind (B := fun _ => Holds i (F.put e ⟨d, x + 1, k, y, m, ptrs⟩)) (Spec.pre ?_ fun _ _ h => h.2) fun _ =>
      .ret fun s g h => ⟨x + 1, k, ptrs, rfl, h⟩
    rw [hptr]
    exact hfree (F.put e ⟨d, x + 1, k, y, m, ptrs⟩) (ptrs x).addr hne hnot
  · refine .bind ((keep_spec hscan hx).pre fun s g h => ⟨h.1, h.2 (by simpa using hb)⟩) fun _ => .ret fun s g h => ?_
    exact ⟨x + 1, k + 1, _, rfl, h⟩

/-- The loop over the objects of a cache: all have been looked at. -/
theorem sift_spec {y : Option Nat} {ptrs : Nat → Ptr} {pfree : Ptr → P n Unit} (hfree : FreesOnly i pfree) (hscan : F.scan) (fuel : Nat) :
    Spec i (Holds i (F.put e ⟨d, 0, 0, y, m, ptrs⟩)) (sift pfree i fuel e) fun k s g =>
      ∃ ptrs', Holds i (F.put e ⟨d, m, k, y, m, ptrs'⟩) s g := by
  refine Spec.pre (A := fun s g => ∃ ptrs', Holds i (F.put e ⟨d, 0, 0, y, m, ptrs'⟩) s g) (.iter
    (J := fun t s g => ∃ ptrs', Holds i (F.put e ⟨d, t.1, t.2, y, m, ptrs'⟩) s g) (fun t => ?_) fuel (0, 0)) fun s g h => ⟨ptrs, h⟩
  refine .exists fun ptrs => ?_
  obtain ⟨x, k⟩ := t
  refine .bind (B := fun free s g => (free = m ∧ x ≤ m) ∧ Holds i (F.put e ⟨d, x, k, y, m, ptrs⟩) s g)
    (.load steady_holds fun s g h hS => ?_) fun free => Spec.fact (fun _ _ h => h.1) fun hm => ?_
  · obtain ⟨hp, -, hfree, -⟩ := work_of_sheet (h.desk ▸ put_desk)
    exact ⟨⟨hfree, (hS.stock.bounds e i d x k hp).2.trans hfree.le⟩, h⟩
  · obtain ⟨rfl, hle⟩ := hm
    refine .ite (fun hlt => ?_) fun hge => .ret fun s g h => ⟨ptrs, ?_⟩
    · refine .bind (B := fun ptr s g => ptr = ptrs x ∧ Holds i (F.put e ⟨d, x, k, y, free, ptrs⟩) s g)
        (Spec.pre (.load steady_holds fun s g h _ => ⟨?_, h⟩) fun _ _ h => h.2) fun ptr => Spec.fact (fun _ _ h => h.1) fun hptr => ?_
      · exact congrFun (work_of_sheet (h.desk ▸ put_desk)).2.2.2 x
      · subst hptr
        refine ((take_keep_spec hfree hscan hlt fuel).pre fun _ _ h => h.2).post ?_
        rintro _ s g ⟨x', k', ptrs', rfl, h⟩
        exact ⟨ptrs', h⟩
    · obtain rfl : x = free := by
        change ¬ x < free at hge
        omega
      exact h.2

/-! ## The cache goes to the pool -/

theorem booked_sifted (hp : g.place e = .work i d (s.free e) k) :
    Booked i s g (some (.sifted e)) (s.setFree e k) (g.file e (Place.sifted i d k)) := by
  refine ⟨rfl, fun _ => rfl, fun c => ?_, fun j h => ?_, fun c d' h => .inl ?_, fun c h => (by cases h),
    .other (by simp) (by simp) (fun _ => rfl) rfl, by simp⟩
  · by_cases hc : c = e
    · rw [hc, file_place_self, hp]
      change _ = if e = e then _ else _
      rw [if_pos rfl]
      obtain ⟨rfl, h'⟩ | ⟨hpos, h'⟩ := Place.sifted_cases i d k
      · rw [h']
        rfl
      · rw [h']
        simp [Place.desk, Option.filter, Nat.ne_of_gt hpos]
    · rw [file_place_of_ne hc]
      exact (if_neg fun h => hc h.symm).symm
  · exact (h.resolve_left (by simp)).2
  · rw [file_place_of_ne]
    · exact h
    · rintro rfl
      rw [hp] at h
      cases h

theorem sifted_spec {y : Option Nat} {ptrs : Nat → Ptr} (hnone : F.desk e = none) :
    Spec i (Holds i (F.put e ⟨d, m, k, y, m, ptrs⟩)) (step (fun _ => some (.sifted e)) (·.setFree e k) fun _ => Prog.ret ())
      fun _ => Holds i (if k = 0 then F else F.put e ⟨d, k, k, y, k, ptrs⟩) := by
  refine .act steady_holds fun s g h hS _ => ?_
  obtain ⟨hp, hnext, hfree, hptrs⟩ := work_of_sheet (h.desk ▸ put_desk)
  have hp' : g.place e = .work i d (s.free e) k := by rw [hfree]; exact hp
  obtain ⟨hS', hT⟩ := hS.sifted hp'
  refine ⟨_, ⟨hS', hT⟩, booked_sifted hp', ?_⟩
  have hne : ∀ c, c ≠ e → (s.setFree e k).free c = s.free c := fun c hc => Function.update_of_ne hc ..
  have hcalm : Calm i s g (s.setFree e k) (g.file e (Place.sifted i d k)) := by
    refine ⟨⟨i, hT⟩, rfl, rfl, rfl, rfl, le_refl _, id, fun hs c hc => ?_⟩
    by_cases hce : c = e
    · subst hce
      have := hS.owners.serving i c hc
      rw [hp] at this
      cases this
    · exact (hne c hce).trans (hs c hc)
  obtain ⟨hk, h'⟩ | ⟨hpos, h'⟩ := Place.sifted_cases i d k
  · rw [if_pos hk]
    exact h.lift hS hcalm (fun c hc => file_place_of_ne hc) (fun _ _ => rfl) hne (fun _ _ => rfl) (fun _ => Iff.rfl) hnone
      (by rw [file_place_self, h']; simp [Place.owner])
  · rw [if_neg (Nat.ne_of_gt hpos), ← put_put F e ⟨d, m, k, y, m, ptrs⟩]
    refine h.setSheet hS hcalm (fun c hc => file_place_of_ne hc) (fun _ _ => rfl) hne (fun _ _ => rfl) (fun _ => Iff.rfl) ?_
    refine (sheet_of_work (d := d) (k := k) (x := k) (file_place_self.trans h')).trans ?_
    change some (Sheet.mk d k k (s.next e) (Function.update s.free e k e) (s.ptrs e)) = _
    rw [Function.update_self, hnext, hptrs]

theorem booked_returned (hp : g.place e = .work i d x k) :
    Booked i s g (some (.returned e)) { s with head := some e } (g.pushHead e) := by
  refine ⟨rfl, fun a => ?_, fun c => ?_, fun j h => ?_, fun c d' h => .inl ?_, fun c h => (by cases h),
    .other (by simp) (by simp) (fun _ => rfl) rfl, by simp⟩
  · refine (Life.after_of_none rfl).trans (congrArg some ?_)
    change (g.spot a).life = ((g.spot a).release e).life
    cases hspot : g.spot a with
    | kept c =>
      by_cases hc : c = e
      · rw [hc, Spot.release_kept_self]
        rfl
      · rw [Spot.release_kept_of_ne hc]
    | _ => rfl
  · by_cases hc : c = e
    · rw [hc, Ghost.pushHead_place_self]
      exact (if_pos rfl).symm
    · rw [Ghost.pushHead_place_of_ne hc]
      exact (if_neg fun h => hc h.symm).symm
  · exact (h.resolve_left (by simp)).2
  · rw [Ghost.pushHead_place_of_ne]
    · exact h
    · rintro rfl
      rw [hp] at h
      cases h

/-- The push of a cache that has been gone through. -/
theorem pushHead_spec {y : Option Nat} (ptrs : Nat → Ptr) (hnone : F.desk e = none) (fuel : Nat) :
    Spec i (Holds i (F.put e ⟨d, k, k, y, k, ptrs⟩)) (pushHead fuel e) fun _ => Holds i F := by
  refine Spec.pre (A := fun s g => ∃ y, Holds i (F.put e ⟨d, k, k, y, k, ptrs⟩) s g) (.iter
    (J := fun _ s g => ∃ y, Holds i (F.put e ⟨d, k, k, y, k, ptrs⟩) s g) (fun _ => ?_) fuel ()) fun s g h => ⟨y, h⟩
  refine .exists fun y => ?_
  refine .bind (B := fun _ => Holds i (F.put e ⟨d, k, k, y, k, ptrs⟩)) (.load steady_holds fun s g h _ => h) fun tmp => ?_
  refine .bind (B := fun _ => Holds i (F.put e ⟨d, k, k, tmp, k, ptrs⟩)) ((setNext_spec put_desk tmp).post fun _ s g h => ?_) fun _ => ?_
  · rw [put_put] at h
    exact h
  refine .bind (B := fun ok s g => if ok then Holds i F s g else Holds i (F.put e ⟨d, k, k, tmp, k, ptrs⟩) s g)
    (.cas steady_holds (fun s g h hS hok => ?_) fun s g h _ _ => h) fun ok => ?_
  · obtain ⟨hp, hnext, hfree, -⟩ := work_of_sheet (h.desk ▸ put_desk)
    obtain ⟨hS', hT⟩ := hS.pushHead hp hfree (hnext.trans hok.symm)
    refine ⟨_, ⟨hS', hT⟩, booked_returned hp, ?_⟩
    exact h.lift hS ⟨⟨i, hT⟩, rfl, rfl, rfl, rfl, le_refl _, id, id⟩ (fun c hc => Ghost.pushHead_place_of_ne hc) (fun _ _ => rfl)
      (fun _ _ => rfl) (fun _ _ => rfl) (fun a => Spot.release_eq_iff (by simp) (by simp)) hnone
      (by rw [Ghost.pushHead_place_self]; simp [Place.owner])
  · cases ok with
    | true => exact .ret fun s g h => h
    | false => exact .ret fun s g h => ⟨tmp, h⟩

/-! ## `Recycle` -/

/-- The variable `entry` of the inner loop. -/
def Rest (i : Fin n) (F : Files) : Option Nat → Assert n
  | some e => Got i F (.entry e)
  | none => Holds i F

/-- A cache that `pop` has cut off is gone through, and no other. -/
theorem recycleEntries_spec {pfree : Ptr → P n Unit} (hfree : FreesOnly i pfree) (hscan : F.scan) (fuel : Nat) :
    Spec i (Got i F (.entry e)) (recycleEntries pfree i fuel e) fun _ => Holds i F := by
  refine .iter (J := Rest i F) (fun entry => ?_) fuel (some e)
  cases entry with
  | none => exact .ret fun s g h => h
  | some e =>
    refine Spec.fact (fun _ _ h => h.1) fun hnone => Spec.pre (A := fun s g => ∃ d m ptrs,
      Holds i (F.put e ⟨d, 0, 0, none, m, ptrs⟩) s g) ?_ fun _ _ h => h.2
    refine .exists fun d => .exists fun m => .exists fun ptrs => ?_
    refine .bind (B := fun nxt s g => nxt = none ∧ Holds i (F.put e ⟨d, 0, 0, none, m, ptrs⟩) s g)
      (.load steady_holds fun s g h _ => ⟨(work_of_sheet (h.desk ▸ put_desk)).2.1, h⟩) fun nxt => Spec.fact (fun _ _ h => h.1) fun hnxt => ?_
    subst hnxt
    refine .bind ((sift_spec hfree hscan fuel).pre fun _ _ h => h.2) fun k => .exists fun ptrs' => ?_
    refine .bind (sifted_spec hnone) fun _ => .ite (fun hk => ?_) fun hk => ?_
    · refine .bind ((pushHead_spec (d := d) (k := k) (y := none) ptrs' hnone fuel).pre fun s g h => ?_) fun _ => .ret fun s g h => h
      rwa [if_neg (Nat.ne_of_gt hk)] at h
    · refine .ret fun s g h => ?_
      rwa [if_pos (Nat.eq_zero_of_not_pos hk)] at h

/-- `Recycle`: the thread has emptied `toProcess`, or is late. -/
theorem Recycle_spec {pfree : Ptr → P n Unit} (hfree : FreesOnly i pfree) (hscan : F.scan) (fuel : Nat) :
    Spec i (Holds i F) (Recycle pfree i fuel) fun _ => Holds i { F with ready := True } := by
  refine .iter (J := fun _ => Holds i F) (fun _ => ?_) fuel ()
  refine .bind (B := fun v => Turns i F v) (.load steady_holds fun s g h _ => ⟨h, rfl⟩) fun v => ?_
  refine .bind (pop_spec fuel) fun r => ?_
  cases r with
  | entry e => exact .bind (recycleEntries_spec hfree hscan fuel) fun _ => .ret fun s g h => h
  | recycleNeeded => exact .ret fun s g h => h
  | null => exact .ret fun s g h => h

/-- `triggerCollection`, from a thread that may start the next collection. -/
theorem triggerWith_spec {pfree : Ptr → P n Unit} (hfree : FreesOnly i pfree) (fuel : Nat) :
    Spec i (fun s g => Holds i F s g ∧ Ready i s) (triggerWith pfree i fuel) fun _ => Holds i { F with scan := True, ready := True } :=
  .bind (Reclamation_spec fuel) fun _ => Recycle_spec hfree trivial fuel

end OptimisticAccess.MOA
