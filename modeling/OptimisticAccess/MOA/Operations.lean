import OptimisticAccess.MOA.Search

/-!
# The operations of the list under the protocol

The compare-and-swap with which an update takes effect comes after a `FENCE_CHECK` too, and finds the
place as `find` has left it. An operation that changes nothing answers what `find` has seen.
-/

namespace OptimisticAccess.MOA

open Conc Prog

variable {n : Nat} {i j : Fin n} {s s' : Mem n} {g g' : Ghost n} {a b e k : Nat} {p q r : Ptr} {H : Nat → Ptr} {S : Set Nat} {A C : Assert n} {o : Prop}
  {key data : CInt} {α : Type} {w w' : W n} {headOf : CInt → Nat} {κ : Nat → CInt} {l : Word} {F G : W n → Prop} {fres : ThreadLocal} {D : Files} {ev : Option Ev}

/-! ## `palloc` -/

/-- `memset(ret, 0, ...)`. -/
theorem zero_told (hF : Lasting headOf i F) : Told headOf i (Both (Served i D p) F) (zero p.addr) fun _ => Both (Served i D p) F := by
  have hserved : (lists n headOf).Stable i fun w => Served i D p w.mem w.ghost := steady_served.lists
  refine .bind (B := fun _ => Both (Served i D p) F) (Told.own hserved hF (fun _ => rfl) (fun _ => rfl) fun w h hO => ?_) fun _ =>
    Told.own hserved hF (fun _ => rfl) (fun _ => rfl) fun w h hO => ?_
  · have hS : Shape w.mem w.ghost := hO.inv.shape
    obtain ⟨hS', hT⟩ := hS.unseen (i := i) (Function.update w.mem.keyData p.addr 0) w.mem.stop
    refine ⟨⟨hS', hT⟩, .of_quiet rfl rfl (fun _ => rfl) (fun _ => rfl) (fun _ h => h) (fun _ _ h => h) (fun _ => rfl) rfl, fun a ha => ⟨?_, rfl⟩,
      h.holds.calm hS ⟨⟨i, hT⟩, rfl, rfl, rfl, rfl, le_refl _, id, id⟩ h.holds.desk h.holds.hands, h.mine, h.room⟩
    exact Function.update_of_ne (h.mine.ne ha) ..
  · have hS : Shape w.mem w.ghost := hO.inv.shape
    obtain ⟨hS', hT⟩ := hS.write (p := NULL) h.mine.2
    refine ⟨⟨hS', hT⟩, .of_quiet rfl rfl (fun _ => rfl) (fun _ => rfl) (fun _ h => h) (fun _ _ h => h) (fun _ => rfl) rfl, fun a ha => ⟨rfl, ?_⟩,
      h.holds.calm hS ⟨⟨i, hT⟩, rfl, rfl, rfl, rfl, le_refl _, id, id⟩ h.holds.desk h.holds.hands, h.mine, h.room⟩
    exact Function.update_of_ne (h.mine.ne ha) ..

/-- The result of `pallocCached`. -/
def Cached (i : Fin n) (D : Files) : Option Ptr → Assert n
  | some p => Served i D p
  | none => Holds i { D with spent := True }

theorem pallocCached_told (hF : Lasting headOf i F) : Told headOf i (Both (Holds i D) F) (pallocCached i) fun r => Both (Cached i D r) F := by
  refine .bind (B := fun c => Both (fun s g => Holds i D s g ∧ s.alloc_cache i = c) F)
    (Told.load steady_holds hF fun w h _ _ hF' => ⟨⟨h, rfl⟩, hF'⟩) fun c => ?_
  cases c with
  | none => exact .ret fun w h => ⟨h.1.1.setSpent fun e he => (by rw [h.1.2] at he; cases he), h.2⟩
  | some e =>
    refine .bind (B := fun free => Both (fun s g => Holds i D s g ∧ Serving i e (· = free) s g) F)
      (Told.load (steady_holds.and (.priv fun _ _ _ _ hp h => hp.alloc_cache.trans h)) hF fun w h _ _ hF' => ⟨⟨h.1, h.2, rfl⟩, hF'⟩) fun free => ?_
    refine .ite (fun hpos => ?_) fun hzero => .ret fun w h => ⟨h.1.1.setSpent fun c hc => ?_, h.2⟩
    · have hserve := serve_spec (i := i) (e := e) (F := D).told (Aloof.step (fun _ => rfl) fun _ => rfl) hF
      exact .bind (hserve.pre fun w h => ⟨⟨h.1.1, h.1.2.1, h.1.2.2 ▸ hpos⟩, h.2⟩) fun obj => .bind (zero_told hF) fun _ => .ret fun w h => h
    · obtain rfl : e = c := Option.some.inj (h.1.2.1.symm.trans hc)
      have hfree : w.mem.free e = free := h.1.2.2
      omega

/-- **`palloc`** returns an object that the thread has from then on. -/
theorem palloc_told (hready : D.ready) (hF : Lasting headOf i F) (fuel : Nat) :
    Told headOf i (Both (Holds i D) F) (palloc i fuel) fun p => Both (Served i D p) F := by
  refine .pre (A := Both (Holds i { D with spent := False }) F) (.iter (J := fun _ => Both (Holds i { D with spent := False }) F) (fun _ => ?_) fuel ())
    fun w h => ⟨h.1.used, h.2⟩
  refine .bind (pallocCached_told hF) fun r => ?_
  cases r with
  | some p => exact .ret fun w h => ⟨Served.of_spent h.1, h.2⟩
  | none =>
    have hrefill : Spec i (Holds i { D with spent := True }) (pallocRefill i fuel) (Refilled i { D with spent := True }) :=
      pallocRefill_spec (F := { D with spent := True }) trivial hready fuel
    refine .bind (hrefill.told aloof_pallocRefill hF) fun r => ?_
    cases r with
    | some p => exact .ret fun w h => ⟨Served.of_spent h.1, h.2⟩
    | none => exact .ret fun w h => h

theorem palloc_idle (hF : Lasting headOf i F) (fuel : Nat) :
    Told headOf i (Both (Idle i True S) F) (palloc i fuel) fun p => Both (fun s g => Idle i True S s g ∧ Mine i p s g ∧ Room i s g) F := by
  refine .pre (A := fun w => ∃ H, (∀ k < 3, H k = NULL) ∧ Both (Holds i (outer H S)) F w) (.exists fun H => .fact (fun w h => h.1) fun hnull => ?_)
    fun w h => ?_
  · refine .pre (A := Both (Holds i (outer H S)) F) ?_ fun w h => h.2
    exact (palloc_told (D := outer H S) trivial hF fuel).post fun p w h => ⟨⟨⟨H, fun _ => hnull, h.1.holds⟩, h.1.mine, h.1.room⟩, h.2⟩
  · obtain ⟨⟨H, h0, h⟩, hF'⟩ := h
    exact ⟨H, h0 trivial, h, hF'⟩

/-! ## `ListInsert` -/

/-- The thread writes its new node in the window. -/
structure Writing (i : Fin n) (H : Nat → Ptr) (S : Set Nat) (κ : Nat → CInt) (p : Ptr) (w : W n) : Prop where
  aimed : Aimed i H S κ w
  mine : Mine i p w.mem w.ghost
  room : Room i w.mem w.ghost

theorem stable_writing : (lists n headOf).Stable i (Writing i H S κ p) := fun j w w' hj hw hw' hd h =>
  ⟨stable_aimed j w w' hj hw hw' hd h.aimed, steady_mine.lists j w w' hj hw hw' hd h.mine, steady_room.lists j w w' hj hw hw' hd h.room⟩

theorem stable_writing_key : (lists n headOf).Stable i fun w => Writing i H S κ p w ∧ w.mem.key p.addr = key := fun j w w' hj hw hw' hd h => by
  refine ⟨stable_writing j w w' hj hw hw' hd h.1, ?_⟩
  rw [Mem.key, hd.keyData p.addr fun hm => hj (Spot.mine.inj (h.1.mine.2.symm.trans hm)).symm]
  exact h.2

/-- The node is as it will be linked. -/
structure Written (i : Fin n) (H : Nat → Ptr) (S : Set Nat) (κ : Nat → CInt) (key : CInt) (p cur : Ptr) (w : W n) : Prop where
  writing : Writing i H S κ p w
  key : w.mem.key p.addr = key
  next : w.mem.nextEntry p.addr = cur

theorem stable_written : (lists n headOf).Stable i (Written i H S κ key p q) := fun j w w' hj hw hw' hd h => by
  obtain ⟨hwriting, hkey⟩ := stable_writing_key j w w' hj hw hw' hd ⟨h.writing, h.key⟩
  exact ⟨hwriting, hkey, ((hd.trans.priv i hj.symm).word p.addr h.writing.mine.2).trans h.next⟩

/-- The window goes on when the thread writes to its own object. -/
theorem Aimed.write (h : Aimed i H S κ w) (hS : Shape w.mem w.ghost) (hT : Trans i w.mem w.ghost s' w.ghost) (hsheet : sheet i s' w.ghost = sheet i w.mem w.ghost)
    (hHPs : s'.HPs i = w.mem.HPs i) (hver : s'.localVer i = w.mem.localVer i) (hkey : ∀ a, w.ghost.spot a ≠ .mine i → s'.key a = w.mem.key a) :
    Aimed i H S κ (w.next i ev s' w.ghost) := by
  have hg := h.guarded
  refine ⟨⟨hsheet.trans hg.desk, hg.hands, hHPs.trans hg.HPs, hg.window, hg.seen, hg.other, hg.ready.trans hS hT hver⟩, fun k hk a ha hH h0 => ?_⟩
  rw [World.next_mem, hkey a (hg.other a ha)]
  exact h.key k hk a ha hH h0

/-- The thread fills in its node. -/
theorem fill_told (hF : Lasting headOf i F) {f : P n α} {B : α → W n → Prop} (hf : Told headOf i (fun w => Written i H S κ key p q w ∧ F w) f B) :
    Told headOf i (fun w => Writing i H S κ p w ∧ F w)
      (do
        store (·.setKeyData p.addr (keyWord key))
        store (·.setWord (.next p.addr) q)
        f) B := by
  refine .bind (B := fun _ w => (Writing i H S κ p w ∧ w.mem.key p.addr = key) ∧ F w)
    (Told.own stable_writing hF (fun _ => rfl) (fun _ => rfl) fun w h hO => ?_) fun _ =>
    .bind (B := fun _ w => Written i H S κ key p q w ∧ F w)
      (Told.own stable_writing_key hF (fun _ => rfl) (fun _ => rfl) fun w h hO => ?_) fun _ => hf
  · have hS : Shape w.mem w.ghost := hO.inv.shape
    obtain ⟨hS', hT⟩ := hS.unseen (i := i) (Function.update w.mem.keyData p.addr (keyWord key)) w.mem.stop
    have hkeyData : ∀ a, w.ghost.spot a ≠ .mine i → (w.mem.setKeyData p.addr (keyWord key)).keyData a = w.mem.keyData a := fun a ha =>
      Function.update_of_ne (h.mine.ne ha) ..
    refine ⟨⟨hS', hT⟩, .of_quiet rfl rfl (fun _ => rfl) (fun _ => rfl) (fun _ h => h) (fun _ _ h => h) (fun _ => rfl) rfl,
      fun a ha => ⟨hkeyData a ha, rfl⟩, ⟨h.aimed.write hS hT rfl rfl rfl fun a ha => congrArg getKey (hkeyData a ha), h.mine, h.room⟩, ?_⟩
    change getKey (Function.update w.mem.keyData p.addr (keyWord key) p.addr) = key
    rw [Function.update_self]
    exact getKey_keyWord key
  · have hS : Shape w.mem w.ghost := hO.inv.shape
    obtain ⟨h, hkey⟩ := h
    obtain ⟨hS', hT⟩ := hS.write (p := q) h.mine.2
    exact ⟨⟨hS', hT⟩, .of_quiet rfl rfl (fun _ => rfl) (fun _ => rfl) (fun _ h => h) (fun _ _ h => h) (fun _ => rfl) rfl,
      fun a ha => ⟨rfl, Function.update_of_ne (h.mine.ne ha) ..⟩,
      ⟨⟨h.aimed.write hS hT rfl rfl rfl fun _ _ => rfl, h.mine, h.room⟩, hkey, Function.update_self ..⟩⟩

/-- The compare-and-swap that links a node puts its key into the set. -/
theorem link_told (hc : Cursor S fres) (hbefore : Before headOf key κ fres.prev) (hgt : fres.cur ≠ NULL → key.toInt < (κ fres.cur.addr).toInt)
    (hH0 : ∀ a, fres.prev = .next a → H 0 = ⟨a, false⟩) (hH1 : H 1 = fres.cur) :
    Told headOf i (fun w => Written i H S κ key p fres.cur w ∧ Pending i (.insert key data) w) (casWord fres.prev fres.cur p (.linked p.addr)) fun b w =>
      if b then Both (Holds i (outer H S)) (fun w => Answered headOf w.log i (.insert key data) true) w
      else Both (Served i (outer H S) p) (Pending i (.insert key data)) w := by
  refine casWord_told stable_written logged_pending.lasting (fun w h => h.writing.aimed.guarded) (fun w h hpend hO hw => ?_)
    fun w w' h hmem hghost hh hpend => ⟨⟨hh, ?_, ?_⟩, hpend⟩
  · have hS : Shape w.mem w.ghost := hO.inv.shape
    have hg := h.writing.aimed.guarded
    have hmine := h.writing.mine
    have htag : (w.mem.word fres.prev).tag = false := by rw [hw]; exact hc.tag
    have hcounts := hg.counts hS hc.prev hH0 hc.zero htag
    have hplace : Before headOf key w.mem.key fres.prev := h.writing.aimed.before hbefore hc.prev hH0 hc.zero
    have hnext : (w.mem.word fres.prev).addr ≠ 0 → key.toInt < (w.mem.key (w.mem.word fres.prev).addr).toInt := by
      rw [hw]
      intro h0
      rw [h.writing.aimed.key 1 (by omega) _ (hc.cur h0) (hH1.trans hc.eq) h0]
      exact hgt fun hnull => h0 (congrArg Ptr.addr hnull)
    have hp0 : p.addr ≠ 0 := fun h0 => by
      have hzero := hS.supply.zero
      rw [← h0, hmine.2] at hzero
      cases hzero
    have habsent : key ∉ w.mem.keys headOf := hO.chains.absent hcounts hplace htag hnext
    have hp : (⟨p.addr, false⟩ : Ptr) = p := Ptr.eq_of_addr rfl hmine.1 rfl
    obtain ⟨hS', hT⟩ := hS.link hcounts hw hc.tag hmine.2 h.next
    obtain ⟨hchains, hkeys⟩ := hO.chains.link (a := p.addr) hcounts (by rw [h.key]; exact hplace) htag (by rw [h.key]; exact hnext) hp0
      (fun h => not_live_of_mine hmine.2 (.inl h)) (h.next.trans hw.symm)
    rw [hp] at hS' hT hchains hkeys
    rw [← linked_link (i := i)] at hchains
    refine ⟨w.ghost.link i p.addr, ⟨hS', hT⟩, ?_, hchains, ⟨by rw [h.key]; exact habsent, hkeys⟩, fun _ => ⟨?_, ?_⟩⟩
    · exact booked_closes rfl (by cases fres.prev <;> exact ⟨rfl, rfl, rfl⟩) rfl (life_update (by rw [hmine.2]; rfl)) fun j hj => setWindow_of_ne hj
    · have hmove : ∀ b, b ≠ p.addr → (w.ghost.link i p.addr).spot b = w.ghost.spot b := fun b hb => move_spot_of_ne hb
      have hself : (w.ghost.link i p.addr).spot p.addr = .linked := move_spot_self
      refine hg.close (Eq.trans (by cases fres.prev <;> rfl) hg.HPs) ?_ (fun b => ?_) id (Set.subset_insert p.addr _) ?_ (hg.ready.trans hS hT ?_)
      · refine sheet_eq_of (fun c d x k hc => ⟨rfl, ?_, ?_, ?_⟩) fun c d x k hc => hc <;> cases fres.prev <;> rfl
      · by_cases hb : b = p.addr
        · rw [hb, World.next_ghost, hself, hmine.2]
          simp
        · rw [World.next_ghost, hmove b hb]
      · intro h'
        rwa [World.next_ghost, show (w.ghost.link i p.addr).window i = False from setWindow_self] at h'
      · cases fres.prev <;> rfl
    · exact hpend.effect rfl rfl rfl ⟨p.addr, rfl, h.key⟩ habsent
  · rw [hghost]
    exact h.writing.mine
  · rw [hmem, hghost]
    exact h.writing.room

theorem blind_mine : Blind i fun s g => Mine i p s g ∧ Room i s g := ⟨fun _ _ _ _ h => h, fun _ _ _ h => h⟩

/-- A round of `ListInsert` after `palloc`. -/
theorem insertNode_told (hc : Cursor S fres) (fuel : Nat) :
    Told headOf i
      (Both (fun s g => Idle i True S s g ∧ Mine i p s g ∧ Room i s g) fun w => (Near headOf i key fres.prev w ∧
        (fres.cur ≠ NULL → About i fres.cur.addr (fun k _ => headOf k = headOf key ∧ key.toInt < k.toInt) w)) ∧ Pending i (.insert key data) w)
      (do
        setHP i 0 (prevHP (.head b) fres.prev)
        setHP i 1 fres.cur
        setHP i 2 p
        if ← FENCE_CHECK i then return .inl ()
        else
          store (·.setKeyData p.addr (keyWord key))
          store (·.setWord (.next p.addr) fres.cur)
          if ← casWord fres.prev fres.cur p (.linked p.addr) then
            clearHPs i
            return .inr true
          else
            pReturnAlloc i fuel p
            clearHPs i
            return .inl () : P n (Unit ⊕ Bool))
      fun x w => Sum.elim (fun _ => Both (Idle i True ∅) (Pending i (.insert key data)) w)
        (fun b => Both (Idle i True ∅) (fun w => Answered headOf w.log i (.insert key data) b) w) x := by
  have hsteady : Steady i fun s g => Mine i p s g ∧ Room i s g := steady_mine.and steady_room
  have hF : Lasting headOf i fun w => Near headOf i key fres.prev w ∧
      (fres.cur ≠ NULL → About i fres.cur.addr (fun k _ => headOf k = headOf key ∧ key.toInt < k.toInt) w) :=
    lasting_near.and (.imp _ (lasting_about (φ := fun k _ => headOf k = headOf key ∧ key.toInt < k.toInt) fun _ => .fact _))
  refine setHPs_told hsteady blind_mine (hF.and logged_pending.lasting) _ _ _ fun H => ?_
  generalize hH' : three H (prevHP (.head b) fres.prev) fres.cur p = H'
  have hH0 : ∀ a, fres.prev = .next a → H' 0 = ⟨a, false⟩ := by
    rw [← hH']
    exact three_prev b
  have hH1 : H' 1 = fres.cur := by simp [← hH', three]
  have hfence := FENCE_CHECK_told (o := True) (H := H') (S := S) (G := Pending i (.insert key data)) (C := fun s g => Mine i p s g ∧ Room i s g)
    (P := fun κ => Before headOf key κ fres.prev ∧ (fres.cur ≠ NULL → key.toInt < (κ fres.cur.addr).toInt)) hsteady hF logged_pending
    (fun s g h k hk => ?_) (fun w h hF' hsp _ => ⟨h, hF'.1.before hsp, fun hne => ((hF'.2 hne).resolve_left hsp).2.2⟩) fun s g _ h => h
  · refine .bind hfence fun restart => .ite (fun hr => .ret fun w h => by rwa [if_pos hr] at h) fun hr => ?_
    simp only [if_neg hr]
    refine .exists fun κ => .fact (fun w h => h.1) fun hplace => ?_
    refine .pre (A := fun w => Writing i H' S κ p w ∧ Pending i (.insert key data) w) ?_ fun w h => ⟨⟨h.2.1, h.2.2.1.1, h.2.2.1.2⟩, h.2.2.2.2⟩
    refine fill_told logged_pending.lasting (.bind (link_told hc hplace.1 hplace.2 hH0 hH1) fun ok => .ite (fun hok => ?_) fun hok => ?_)
    · simp only [if_pos hok]
      exact .bind (retreat_told (o := True) logged_answered.lasting) fun _ => .ret fun w h => ⟨h.1.lower, h.2⟩
    · simp only [if_neg hok]
      have hback : Spec i (Served i (outer H' S) p) (pReturnAlloc i fuel p) fun _ => Holds i (outer H' S) := by
        refine Spec.fact (fun _ _ h => h.mine.1) fun htag => ?_
        rw [show p = ⟨p.addr, false⟩ from Ptr.eq_of_addr htag rfl rfl]
        exact pReturnAlloc_spec fuel
      exact .bind (hback.told aloof_pReturnAlloc logged_pending.lasting) fun _ => .bind (retreat_told (o := True) logged_pending.lasting) fun _ =>
        .ret fun w h => ⟨h.1.lower, h.2⟩
  · obtain ⟨-, e⟩ | ⟨-, e⟩ | ⟨-, e⟩ := three_cases (H := H) (p := prevHP (.head b) fres.prev) (q := fres.cur) (r := p) hk
    · rw [← hH', e]
      exact fun hne => ⟨(prevHP_spec hc.prev hne).1, .inl (prevHP_spec hc.prev hne).2⟩
    · rw [← hH', e]
      exact fun hne => ⟨hc.tag, .inl (hc.cur (hc.ne_zero hne))⟩
    · rw [← hH', e]
      exact fun _ => ⟨h.1.1, .inr h.1.2⟩

theorem ListInsert_told (hb : b = headOf key) (fuel : Nat) :
    Told headOf i (Both (Idle i True ∅) (Pending i (.insert key data))) (ListInsert i fuel (.head b) key data) fun b =>
      Both (Idle i True ∅) fun w => Answered headOf w.log i (.insert key data) b := by
  refine .iter (J := fun _ => Both (Idle i True ∅) (Pending i (.insert key data))) (fun _ => ?_) fuel ()
  refine .bind (find_told hb logged_pending fuel) fun r => .exists fun S => .fact (fun w h => h.1) fun hr => ?_
  obtain ⟨found, fres, kd⟩ := r
  refine .pre (A := Both (Idle i True S) fun w => Verdict headOf i key (found, fres, kd) w ∧ Pending i (.insert key data) w) ?_ fun w h => h.2
  refine .ite (fun hfound => .ret fun w h => ⟨h.1.lower, h.2.2.answered (by simp) ?_⟩) fun hnot => ?_
  · exact (h.2.1.1 hfound).1.mono fun S hk => by simp [succeeds, hk]
  · refine .bind (palloc_idle (lasting_verdict.and logged_pending.lasting) fuel) fun p => ?_
    have hfound : found = false := Bool.eq_false_iff.2 hnot
    exact (insertNode_told hr.cursor fuel).pre fun w h => ⟨h.1, ⟨(h.2.1.2 hfound).1.2, (h.2.1.2 hfound).2⟩, h.2.2⟩

/-! ## `ListDelete` -/

/-- The compare-and-swap that marks a node takes its key out of the set. -/
theorem mark_told (hH : H 0 = ⟨a, false⟩) (h0 : a ≠ 0) (ha : a ∈ S) (hp : p.tag = false) (hkey : κ a = key) :
    Told headOf i (fun w => Aimed i H S κ w ∧ Pending i (.delete key) w) (casWord (.next a) p (markDeleted p) (.marked a)) fun b w =>
      if b then Both (Holds i (outer H S)) (fun w => Answered headOf w.log i (.delete key) true) w
      else Both (Holds i (outer H S)) (Pending i (.delete key)) w := by
  refine casWord_told stable_aimed logged_pending.lasting (fun w h => h.guarded) (fun w h hpend hO hw => ?_) fun w w' h _ _ hh hpend => ⟨hh, hpend⟩
  have hS : Shape w.mem w.ghost := hO.inv.shape
  have hg := h.guarded
  have hnext : w.mem.nextEntry a = p := hw
  have htag : (w.mem.nextEntry a).tag = false := by rw [hnext]; exact hp
  have hlive := hg.live hS (by omega) hH h0 ha
  have hlinked : a ∈ w.ghost.linked := by
    refine hlive.resolve_right fun hretired => ?_
    rw [show (w.mem.nextEntry a).tag = true from hS.net.tagged a hretired] at htag
    cases htag
  have hk : w.mem.key a = key := (h.key 0 (by omega) a ha hH h0).trans hkey
  have hpresent := hO.chains.present hlinked htag
  obtain ⟨hS', hT⟩ := hS.mark (i := i) hlive htag
  obtain ⟨hchains, hkeys⟩ := hO.chains.mark hlinked
  rw [hnext] at hS' hT hchains hkeys
  refine ⟨w.ghost.setWindow i False, ⟨hS', hT⟩, booked_closes rfl ⟨rfl, rfl, rfl⟩ rfl (fun _ => rfl) (fun j hj => setWindow_of_ne hj), hchains,
    ⟨hpresent, hkeys⟩, fun _ => ⟨?_, ?_⟩⟩
  · exact hg.close hg.HPs rfl (fun _ => Iff.rfl) id (le_refl _) (fun h' => by rwa [World.next_ghost, setWindow_self] at h') (hg.ready.trans hS hT rfl)
  · refine hpend.effect rfl rfl rfl ⟨a, rfl, hk⟩ ?_
    rw [← hk]
    exact hpresent

/-- A round of `ListDelete` that has found the key. -/
theorem markNode_told {hashOp : Bool} (hb : b = headOf key) (hc : Cursor S fres) (hne : fres.cur ≠ NULL) (htag : fres.next.tag = false)
    (hnext : fres.next.addr ≠ 0 → fres.next.addr ∈ S) (fuel : Nat) :
    Told headOf i (Both (Idle i True S) fun w => About i fres.cur.addr (fun k _ => k = key) w ∧ Pending i (.delete key) w)
      (do
        setHP i 0 fres.cur
        setHP i 1 fres.next
        if ← FENCE_CHECK i then return .inl ()
        else if ← casWord (.next fres.cur.addr) fres.next (markDeleted fres.next) (.marked fres.cur.addr) then
          if hashOp then
            let _ ← find i fuel (.head b) key
            clearHPs i
            return .inr true
          else
            clearHPs i
            return .inr true
        else
          clearHPs i
          return .inl () : P n (Unit ⊕ Bool))
      fun x w => Sum.elim (fun _ => Both (Idle i True ∅) (Pending i (.delete key)) w)
        (fun b => Both (Idle i True ∅) (fun w => Answered headOf w.log i (.delete key) b) w) x := by
  have h0 := hc.ne_zero hne
  have hcur := hc.cur h0
  have hkey : Lasting headOf i (About i fres.cur.addr fun k _ => k = key) := lasting_about (φ := fun k _ => k = key) fun _ => .fact _
  have hF : Lasting headOf i fun w => About i fres.cur.addr (fun k _ => k = key) w ∧ Pending i (.delete key) w := hkey.and logged_pending.lasting
  have hdone : Logged i fun w => Answered headOf w.log i (.delete key) true := logged_answered
  refine .pre (A := fun w => ∃ H, (∀ k < 3, H k = NULL) ∧ Both (fun s g => Holds i (outer H S) s g ∧ True)
    (fun w => About i fres.cur.addr (fun k _ => k = key) w ∧ Pending i (.delete key) w) w) (.exists fun H => .fact (fun w h => h.1) fun hnull => ?_)
    fun w h => ?_
  have hset : ∀ H k p, Told headOf i (Both (fun s g => Holds i (outer H S) s g ∧ True) fun w => About i fres.cur.addr (fun k _ => k = key) w ∧ Pending i (.delete key) w)
      (setHP i k p) fun _ => Both (fun s g => Holds i (outer (Function.update H k p) S) s g ∧ True) fun w =>
        About i fres.cur.addr (fun k _ => k = key) w ∧ Pending i (.delete key) w :=
    fun H k p => (setHP_spec (A := fun _ _ => True) (.fact _) .true k p).told aloof_setHP hF
  refine .pre ?_ fun w h => h.2
  refine .bind (hset _ 0 _) fun _ => .bind (hset _ 1 _) fun _ => ?_
  generalize hH : Function.update (Function.update H 0 fres.cur) 1 fres.next = H'
  have hH0 : H' 0 = ⟨fres.cur.addr, false⟩ := by
    rw [← hH, ← hc.eq]
    simp
  have hfence := FENCE_CHECK_told (o := True) (H := H') (S := S) (G := Pending i (.delete key)) (A := fun _ _ => True) (C := fun _ _ => True)
    (P := fun κ => κ fres.cur.addr = key) (.fact _) hkey logged_pending (fun s g _ k hk => ?_) (fun w _ h hsp _ => ⟨trivial, (h.resolve_left hsp).2⟩)
    fun s g _ h => h
  · refine .bind hfence fun restart => .ite (fun hr => .ret fun w h => by rwa [if_pos hr] at h) fun hr => ?_
    simp only [if_neg hr]
    refine .exists fun κ => .fact (fun w h => h.1) fun hκ => ?_
    refine .bind ((mark_told hH0 h0 hcur htag hκ).pre fun w h => ⟨h.2.1, h.2.2.2.2⟩) fun ok =>
      .ite (fun hok => .ite (fun _ => ?_) fun _ => ?_) fun hok => ?_
    · -- the second `find` starts with hazard pointers set
      simp only [if_pos hok]
      refine .bind ((find_told (o := False) hb hdone fuel).pre fun w h => ⟨⟨_, False.elim, h.1.shrink (Set.empty_subset S)⟩, h.2⟩) fun r => ?_
      refine .exists fun S' => .pre (A := fun w => ∃ H', Both (Holds i (outer H' S')) (fun w => Answered headOf w.log i (.delete key) true) w)
        (.exists fun H' => ?_) fun w h => ?_
      · exact .bind (retreat_told (o := True) hdone.lasting) fun _ => .ret fun w h => ⟨h.1.lower, h.2⟩
      · obtain ⟨-, ⟨H', -, h⟩, -, hans⟩ := h
        exact ⟨H', h, hans⟩
    · simp only [if_pos hok]
      exact .bind (retreat_told (o := True) hdone.lasting) fun _ => .ret fun w h => ⟨h.1.lower, h.2⟩
    · simp only [if_neg hok]
      exact .bind (retreat_told (o := True) logged_pending.lasting) fun _ => .ret fun w h => ⟨h.1.lower, h.2⟩
  · rw [← hH]
    obtain rfl | rfl | rfl : k = 0 ∨ k = 1 ∨ k = 2 := by omega
    · simpa using fun _ => ⟨hc.tag, .inl hcur⟩
    · simpa using fun hne' => ⟨htag, .inl (hnext fun h => hne' (Ptr.eq_of_addr htag rfl h))⟩
    · simpa using fun hne' => absurd (hnull 2 hk) hne'
  · obtain ⟨⟨H, hnull, h⟩, hF'⟩ := h
    exact ⟨H, hnull trivial, ⟨h, trivial⟩, hF'⟩

theorem ListDelete_told {hashOp : Bool} (hb : b = headOf key) (fuel : Nat) :
    Told headOf i (Both (Idle i True ∅) (Pending i (.delete key))) (ListDelete hashOp i fuel (.head b) key) fun b =>
      Both (Idle i True ∅) fun w => Answered headOf w.log i (.delete key) b := by
  refine .iter (J := fun _ => Both (Idle i True ∅) (Pending i (.delete key))) (fun _ => ?_) fuel ()
  refine .bind (find_told hb logged_pending fuel) fun r => .exists fun S => .fact (fun w h => h.1) fun hr => ?_
  obtain ⟨found, fres, kd⟩ := r
  refine .pre (A := Both (Idle i True S) fun w => Verdict headOf i key (found, fres, kd) w ∧ Pending i (.delete key) w) ?_ fun w h => h.2
  refine .ite (fun hnot => .ret fun w h => ⟨h.1.lower, h.2.2.answered (by simp) ?_⟩) fun hfound => ?_
  · exact (h.2.1.2 hnot).1.1.mono fun S hk => by simpa [succeeds] using hk
  · have hfound' : found = true := by simpa using hfound
    exact (markNode_told hb hr.cursor (hr.cur hfound') (hr.nextTag hfound') (hr.next hfound') fuel).pre fun w h =>
      ⟨h.1, (h.2.1.1 hfound').2, h.2.2⟩

/-! ## Threads -/

theorem ListSearch_told (hb : b = headOf key) (fuel : Nat) :
    Told headOf i (Both (Idle i True ∅) (Pending i (.search key))) (ListSearch i fuel (.head b) key) fun r =>
      Both (Idle i True ∅) fun w => Answered headOf w.log i (.search key) r.1 := by
  refine .bind (find_told hb logged_pending fuel) fun r => .exists fun S => .pre
    (A := Both (Idle i True S) fun w => Verdict headOf i key r w ∧ Pending i (.search key) w) ?_ fun w h => h.2
  obtain ⟨found, fres, kd⟩ := r
  refine .ite (fun hfound => .ret fun w h => ⟨h.1.lower, h.2.2.answered (fun _ => rfl) ?_⟩) fun hnot => .ret fun w h =>
    ⟨h.1.lower, h.2.2.answered (fun _ => rfl) ?_⟩
  · exact (h.2.1.1 hfound).1.mono fun S hk => by simpa [succeeds] using hk
  · exact (h.2.1.2 (Bool.eq_false_iff.2 hnot)).1.1.mono fun S hk => by simpa [succeeds] using hk

theorem perform_told {hashOp : Bool} {op : Op} (hb : b = headOf op.key) (fuel : Nat) :
    Told headOf i (Both (Idle i True ∅) (Pending i op)) (perform hashOp i fuel (.head b) op) fun b =>
      Both (Idle i True ∅) fun w => Answered headOf w.log i op b := by
  cases op with
  | insert key data => exact ListInsert_told hb fuel
  | delete key => exact ListDelete_told hb fuel
  | search key => exact .bind (ListSearch_told hb fuel) fun r => .ret fun w h => h

/-- A step that only says something. -/
theorem emit_told {e : Ev} {A B : W n → Prop} (hA : (lists n headOf).Stable i A) (he : quiet (some e)) (hlife : e.life i = none)
    (h : ∀ w, A w → Orderly headOf w → EvOk headOf w.log i w.mem (some e) w.mem ∧ B (w.next i (some e) w.mem w.ghost)) :
    Told headOf i A (emit e) fun _ => B := by
  refine .step hA fun w hw hO => ⟨w.ghost, ⟨hO.inv.shape, .refl ..⟩, ?_, fun _ _ => rfl, hO.chains, h w hw hO⟩
  exact .of_quiet he rfl (fun _ => Life.after_of_none hlife) (fun _ => rfl) (fun _ h => h) (fun _ _ h => h) (fun _ => rfl) rfl

/-- The tasks of a thread. -/
theorem client_told {hashOp : Bool} (fuel : Nat) (tasks : List Task) :
    Told headOf i (fun w => Idle i True ∅ w.mem w.ghost) (client hashOp headOf i fuel tasks) fun _ w => Idle i True ∅ w.mem w.ghost := by
  refine .forEach (J := fun _ w => Idle i True ∅ w.mem w.ghost) (fun task _ => ?_) tasks
  cases task with
  | op op =>
    refine .bind (B := fun _ => Both (Idle i True ∅) (Pending i op)) (emit_told steady_idle.lists rfl rfl fun w h _ => ⟨rfl, h, pending_call⟩) fun _ =>
      .bind (perform_told rfl fuel) fun b => emit_told (steady_idle.lists.and logged_answered.lasting.stable) rfl rfl fun w h _ => ⟨⟨rfl, h.2⟩, h.1⟩
  | stop =>
    refine Told.aside steady_idle.lists (fun _ => rfl) fun w h hO => ?_
    have hS : Shape w.mem w.ghost := hO.inv.shape
    obtain ⟨H, h0, h⟩ := h
    obtain ⟨hS', hT⟩ := hS.unseen (i := i) w.mem.keyData true
    refine ⟨w.ghost, ⟨hS', hT⟩, ?_, fun _ _ => rfl, rfl, fun _ _ => rfl, fun _ =>
      ⟨H, h0, h.calm hS ⟨⟨i, hT⟩, rfl, rfl, rfl, rfl, le_refl _, id, id⟩ h.desk h.hands⟩⟩
    exact .of_quiet rfl rfl (fun _ => rfl) (fun _ => rfl) (fun _ h => h) (fun _ _ h => h) (fun _ => rfl) rfl

end OptimisticAccess.MOA
