import OptimisticAccess.MOA.Windows

/-!
# `find` under the protocol

`find` moves along objects it may read; the compare-and-swap that unlinks a node comes after a
`FENCE_CHECK` with the objects it touches under hazard pointers, and the node goes to `pfree` with the
rest of what `find` has seen still good. What `find` reads tells it about the set as long as no
object it has seen is cleared, and the `CHECK` that follows makes it certain.
-/

namespace OptimisticAccess.MOA

open Conc Prog

variable {n : Nat} {i j : Fin n} {s s' : Mem n} {g g' : Ghost n} {a b k : Nat} {p q r : Ptr} {H : Nat → Ptr} {S : Set Nat} {A C : Assert n} {o : Prop}
  {key : CInt} {α : Type} {w w' : W n} {headOf : CInt → Nat} {κ : Nat → CInt} {l : Word} {F G : W n → Prop} {fres : ThreadLocal}

/-! ## Cursors -/

/-- `S` and what `p` points to. -/
def reachOf (S : Set Nat) (p : Ptr) : Set Nat := {a | a ∈ S ∨ (a = p.addr ∧ a ≠ 0)}

theorem Holds.reach (h : Holds i (outer H S) s g) (hp : p.addr ≠ 0 → Seen i p.addr s g) : Holds i (outer H (reachOf S p)) s g := by
  by_cases h0 : p.addr = 0
  · refine h.shrink fun a ha => ?_
    obtain ha | ⟨rfl, ha⟩ := ha
    · exact ha
    · exact absurd h0 ha
  · refine (h.see (hp h0)).shrink fun a ha => ?_
    obtain ha | ⟨rfl, -⟩ := ha
    · exact .inr ha
    · exact .inl rfl

/-- What `find` knows of its place in the list. -/
structure Cursor (S : Set Nat) (fres : ThreadLocal) : Prop where
  zero : 0 ∉ S
  prev : Known S fres.prev
  tag : fres.cur.tag = false
  cur : fres.cur.addr ≠ 0 → fres.cur.addr ∈ S

theorem Cursor.ne_zero (h : Cursor S fres) (hne : fres.cur ≠ NULL) : fres.cur.addr ≠ 0 := fun h0 =>
  hne (Ptr.eq_of_addr h.tag rfl h0)

theorem Cursor.eq (h : Cursor S fres) : fres.cur = ⟨fres.cur.addr, false⟩ := Ptr.eq_of_addr h.tag rfl rfl

theorem Known.reach (h : Known S l) : Known (reachOf S p) l := by
  cases l with
  | head c => trivial
  | next c => exact .inl h

theorem Cursor.reach (h : Cursor S fres) (p : Ptr) : Cursor (reachOf S p) fres :=
  ⟨fun h' => h'.elim h.zero fun h' => h'.2 rfl, h.prev.reach, h.tag, fun h' => .inl (h.cur h')⟩

theorem Idle.lower (h : Idle i o S s g) : Idle i o ∅ s g := by
  obtain ⟨H, h0, h⟩ := h
  exact ⟨H, h0, h.shrink (Set.empty_subset S)⟩

/-! ## Three hazard pointers -/

def three (H : Nat → Ptr) (p q r : Ptr) : Nat → Ptr := Function.update (Function.update (Function.update H 0 p) 1 q) 2 r

theorem three_cases (hk : k < 3) : (k = 0 ∧ three H p q r k = p) ∨ (k = 1 ∧ three H p q r k = q) ∨ (k = 2 ∧ three H p q r k = r) := by
  obtain rfl | rfl | rfl : k = 0 ∨ k = 1 ∨ k = 2 := by omega
  · exact .inl ⟨rfl, by simp [three]⟩
  · exact .inr (.inl ⟨rfl, by simp [three]⟩)
  · exact .inr (.inr ⟨rfl, by simp [three]⟩)

theorem setHPs_told (hA : Steady i A) (hb : Blind i A) (hF : Lasting headOf i F) (p q r : Ptr) {f : P n α} {B : α → W n → Prop}
    (hf : ∀ H, Told headOf i (Both (fun s g => Holds i (outer (three H p q r) S) s g ∧ A s g) F) f B) :
    Told headOf i (Both (fun s g => Idle i o S s g ∧ A s g) F)
      (do
        setHP i 0 p
        setHP i 1 q
        setHP i 2 r
        f) B := by
  refine .pre (A := fun w => ∃ H, Both (fun s g => Holds i (outer H S) s g ∧ A s g) F w) (.exists fun H => ?_) fun w h => ?_
  · exact .bind ((setHP_spec hA hb 0 p).told aloof_setHP hF) fun _ => .bind ((setHP_spec hA hb 1 q).told aloof_setHP hF) fun _ =>
      .bind ((setHP_spec hA hb 2 r).told aloof_setHP hF) fun _ => hf H
  · obtain ⟨⟨⟨H, -, h⟩, hA⟩, hF⟩ := h
    exact ⟨H, ⟨h, hA⟩, hF⟩

/-- The hazard pointer for `prev`. -/
theorem prevHP_spec (hl : Known S l) (hne : prevHP (.head b) l ≠ NULL) :
    (prevHP (.head b) l).tag = false ∧ (prevHP (.head b) l).addr ∈ S := by
  cases l with
  | head c =>
    refine absurd ?_ hne
    unfold prevHP
    split <;> rfl
  | next a =>
    have : prevHP (.head b) (.next a) = ⟨a, false⟩ := if_pos (by simp)
    rw [this]
    exact ⟨rfl, hl⟩

theorem prevHP_next (b a : Nat) : prevHP (.head b) (.next a) = ⟨a, false⟩ := if_pos (by simp)

theorem three_prev (b : Nat) : ∀ a, l = .next a → three H (prevHP (.head b) l) q r 0 = ⟨a, false⟩ := by
  rintro a rfl
  simp [three, prevHP_next]

/-! ## What the reads of `find` tell -/

theorem Near.before (h : Near headOf i key l w) (hsp : ¬ w.ghost.spoiled i) : Before headOf key w.mem.key l := by
  cases l with
  | head b => exact h
  | next a => exact (h.resolve_left hsp).2

/-- The word of a place that `find` reads untagged is a word of the list. -/
theorem Near.counts (h : Near headOf i key l w) (hO : Orderly headOf w) (hsp : ¬ w.ghost.spoiled i) (htag : (w.mem.word l).tag = false) :
    Counts w.ghost.linked l := by
  have hS : Shape w.mem w.ghost := hO.inv.shape
  cases l with
  | head b => trivial
  | next a =>
    obtain hlinked | hretired := (hS.guard i).whole hsp (h.resolve_left hsp).1
    · exact hlinked
    · rw [hS.net.tagged a hretired] at htag
      cases htag

/-- `find` knows that it is before the place of the key, and that it is past all others when it has come to the end. -/
def Facing (headOf : CInt → Nat) (i : Fin n) (key : CInt) (fres : ThreadLocal) (w : W n) : Prop :=
  Near headOf i key fres.prev w ∧ (fres.cur = NULL → Saw headOf i (key ∉ ·) w)

theorem lasting_facing : Lasting headOf i (Facing headOf i key fres) := lasting_near.and (.imp _ logged_saw.lasting)

/-- What the key of a node says of the place that comes after it. -/
def Follows (headOf : CInt → Nat) (i : Fin n) (key : CInt) (nxt : Ptr) (k : CInt) (w : W n) : Prop :=
  nxt.tag = false → Saw headOf i (k ∈ ·) w ∧ (nxt = NULL → headOf k = headOf key → k.toInt < key.toInt → Saw headOf i (key ∉ ·) w)

theorem lasting_follows {nxt : Ptr} {k : CInt} : Lasting headOf i (Follows headOf i key nxt k) :=
  .imp _ (logged_saw.lasting.and (.imp _ (.imp _ (.imp _ logged_saw.lasting))))

/-- What the key of a node says that comes next after the place. -/
def Precedes (headOf : CInt → Nat) (i : Fin n) (key k : CInt) (w : W n) : Prop :=
  headOf k = headOf key ∧ (key.toInt < k.toInt → Saw headOf i (key ∉ ·) w)

theorem lasting_precedes {k : CInt} : Lasting headOf i (Precedes headOf i key k) := (Lasting.fact _).and (.imp _ logged_saw.lasting)

theorem about_follows (hO : Orderly headOf w) (ha : Seen i a w.mem w.ghost) :
    About i a (Follows headOf i key (w.mem.nextEntry a)) (w.next i none w.mem w.ghost) := by
  have hS : Shape w.mem w.ghost := hO.inv.shape
  by_cases hsp : w.ghost.spoiled i
  · exact .inl hsp
  · have hin := ha.resolve_left hsp
    refine .inr ⟨hin, fun htag => ?_⟩
    have hlinked : a ∈ w.ghost.linked := by
      obtain h | h := (hS.guard i).whole hsp hin
      · exact h
      · rw [show (w.mem.nextEntry a).tag = true from hS.net.tagged a h] at htag
        cases htag
    refine ⟨.now (hO.chains.present hlinked htag) rfl, fun hnull hhead hlt => .now ?_ rfl⟩
    exact hO.chains.absent (l := .next a) hlinked ⟨hhead, hlt⟩ htag fun h => absurd (congrArg Ptr.addr hnull) h

theorem about_precedes (hO : Orderly headOf w) (hl : Near headOf i key l w) (ha : Seen i a w.mem w.ghost) (hword : w.mem.word l = ⟨a, false⟩)
    (h0 : a ≠ 0) : About i a (Precedes headOf i key) (w.next i none w.mem w.ghost) := by
  by_cases hsp : w.ghost.spoiled i
  · exact .inl hsp
  · have htag : (w.mem.word l).tag = false := by rw [hword]
    have hcounts := hl.counts hO hsp htag
    have hnext := hO.chains.next hcounts (hl.before hsp) htag (by rw [hword]; exact h0)
    refine .inr ⟨ha.resolve_left hsp, ?_, fun hlt => .now (hO.chains.absent hcounts (hl.before hsp) htag fun _ => ?_) rfl⟩
    · rw [hword] at hnext
      exact hnext.2
    · rw [hword]
      exact hlt

/-! ## A marked node is unlinked -/

/-- The node `a` was read with the marked word `p`. -/
def Frozen (i : Fin n) (a : Nat) (p : Ptr) (w : W n) : Prop :=
  w.ghost.spoiled i ∨ (a ∈ w.ghost.since i ∧ a ∈ w.ghost.live ∧ w.mem.nextEntry a = p)

theorem lasting_frozen (hp : p.tag = true) : Lasting headOf i (Frozen i a p) := fun w w' hd h => by
  by_cases hsp : w'.ghost.spoiled i
  · exact .inl hsp
  · obtain ⟨hsince, hlive, hnext⟩ := h.resolve_left fun h => hsp (hd.spoiled h)
    have hsince' := hd.since hsince
    have hlive' := (hd.orderly'.inv.shape.guard i).whole hsp hsince'
    exact .inr ⟨hsince', hlive', (hd.marked a hlive hlive' (by rw [hnext]; exact hp)).trans hnext⟩

/-- The same, under a hazard pointer. -/
structure Pinned (i : Fin n) (H : Nat → Ptr) (S : Set Nat) (a : Nat) (p : Ptr) (s : Mem n) (g : Ghost n) : Prop where
  guarded : Guarded i H S s g
  live : a ∈ g.live
  next : s.nextEntry a = p

theorem steady_pinned (hp : p.tag = true) (hk : k < 3) (hH : H k = ⟨a, false⟩) (h0 : a ≠ 0) (ha : a ∈ S) : Steady i (Pinned i H S a p) :=
  fun j s g s' g' hpriv hS hS' hT h => by
    have hg' := steady_guarded j s g s' g' hpriv hS hS' hT h.guarded
    have hlive' := hg'.live hS' hk hH h0 ha
    exact ⟨hg', hlive', (hT.marked a h.live hlive' (by rw [h.next]; exact hp)).trans h.next⟩

/-- The bookkeeping of an unlink. The thread has the node, and the list is the same without it. -/
theorem Pinned.unlink (h : Pinned i H S a p s g) (hS : Shape s g) (hl : Counts g.linked l) (hw : s.word l = ⟨a, false⟩) (h0 : a ≠ 0)
    (hp : p.tag = true) :
    (Shape (s.setWord l (clearDeleted p)) (g.unlink i a) ∧ Trans i s g (s.setWord l (clearDeleted p)) (g.unlink i a)) ∧
      Booked i s g (some (.unlinked a)) (s.setWord l (clearDeleted p)) (g.unlink i a) ∧
      InHand i (outer H S) a (s.setWord l (clearDeleted p)) (g.unlink i a) := by
  obtain ⟨hS', hT, hspot⟩ := hS.unlink (i := i) hl hw h0 (by rw [h.next]; exact hp)
  rw [h.next] at hS' hT
  have hmove : ∀ b, b ≠ a → (g.unlink i a).spot b = g.spot b := fun b hb => move_spot_of_ne hb
  have hself : (g.unlink i a).spot a = .hand i := move_spot_self
  refine ⟨⟨hS', hT⟩, ?_, ?_⟩
  · exact booked_closes rfl (by cases l <;> exact ⟨rfl, rfl, rfl⟩) rfl (life_update (by rw [hspot]; rfl)) fun j hj => setWindow_of_ne hj
  · have hg := h.guarded
    have hsheet : sheet i (s.setWord l (clearDeleted p)) (g.unlink i a) = sheet i s g := by
      refine sheet_eq_of (fun c d x k hc => ⟨rfl, ?_, ?_, ?_⟩) fun c d x k hc => hc <;> cases l <;> rfl
    refine ⟨hsheet.trans hg.desk, fun b => ?_, ?_, ?_, hg.seen, False.elim, False.elim, fun _ => hg.ready.trans hS hT ?_⟩
    · change _ ↔ b = a ∨ b ∈ (∅ : Set Nat)
      by_cases hb : b = a
      · rw [hb, hself]
        simp
      · rw [hmove b hb]
        simp [hg.hands b, hb]
    · refine Eq.trans ?_ hg.HPs
      cases l <;> rfl
    · intro h'
      rwa [show (g.unlink i a).window i = False from setWindow_self] at h'
    · cases l <;> rfl

/-- The compare-and-swap that unlinks a marked node leaves the set as it is. -/
theorem unlink_told (hc : Cursor S fres) (hne : fres.cur ≠ NULL) (hp : p.tag = true) (hkey : Before headOf key κ fres.prev)
    (hH0 : ∀ b, fres.prev = .next b → H 0 = ⟨b, false⟩) (hH1 : H 1 = fres.cur) (hF : Lasting headOf i F) :
    Told headOf i (fun w => (Aimed i H S κ w ∧ Pinned i H S fres.cur.addr p w.mem w.ghost) ∧ F w)
      (casWord fres.prev fres.cur (clearDeleted p) (.unlinked fres.cur.addr)) fun b w =>
      if b then Both (InHand i (outer H S) fres.cur.addr) (fun w => F w ∧ (clearDeleted p = NULL → Saw headOf i (key ∉ ·) w)) w
      else Both (Holds i (outer H S)) F w := by
  have h0 := hc.ne_zero hne
  refine casWord_told (stable_aimed.and (steady_pinned hp (by omega) (hH1.trans hc.eq) h0 (hc.cur h0)).lists) hF (fun w h => h.1.guarded)
    (fun w h hF' hO hw => ?_) fun w w' _ _ _ hh hF' => ⟨hh, hF'⟩
  obtain ⟨haim, hpin⟩ := h
  have hS : Shape w.mem w.ghost := hO.inv.shape
  have hcounts := haim.guarded.counts hS hc.prev hH0 hc.zero (by rw [hw]; exact hc.tag)
  have hdead : (w.mem.nextEntry fres.cur.addr).tag = true := by rw [hpin.next]; exact hp
  obtain ⟨hS', hB, hhand⟩ := hpin.unlink hS hcounts (hw.trans hc.eq) h0 hp
  obtain ⟨hchains, hkeys⟩ := hO.chains.unlink hcounts (hw.trans hc.eq) h0 hdead
  rw [hpin.next, ← linked_unlink (i := i)] at hchains
  rw [hpin.next] at hkeys
  refine ⟨w.ghost.unlink i fres.cur.addr, hS', hB, hchains, hkeys, fun hO' => ⟨hhand, ?_, fun hnull => .now ?_ rfl⟩⟩
  · exact hF _ _ (hO.drift hO' hS'.2 (by rw [setWord_dirty]; exact id) (fun a _ => congrFun setWord_key a) rfl) hF'
  · -- the place is now at the end of the list
    have hself : (w.mem.setWord fres.prev (clearDeleted p)).word fres.prev = NULL := by
      rw [word_setWord, Function.update_self]
      exact hnull
    have hcounts' : Counts (w.ghost.unlink i fres.cur.addr).linked fres.prev := by
      rw [linked_unlink]
      cases hprev : fres.prev with
      | head b => trivial
      | next b =>
        rw [hprev] at hcounts hw
        refine ⟨hcounts, ?_⟩
        rintro rfl
        rw [show w.mem.nextEntry fres.cur.addr = fres.cur from hw, hc.tag] at hdead
        cases hdead
    have hbefore : Before headOf key (w.mem.setWord fres.prev (clearDeleted p)).key fres.prev := by
      rw [setWord_key]
      exact haim.before hkey hc.prev hH0 hc.zero
    rw [← hkeys]
    exact hchains.absent hcounts' hbefore (by rw [hself]; rfl) fun h => absurd (congrArg Ptr.addr hself) h

/-- The unlinked node goes to `pfree`. -/
theorem discard_told (h0 : p.addr ≠ 0) (hp : p.tag = false) (hF : Lasting headOf i F) (fuel : Nat) {f : P n α} {B : α → W n → Prop}
    (hf : Told headOf i (Both (Idle i o S) F) f B) :
    Told headOf i (Both (InHand i (outer H S) p.addr) F)
      (do
        clearHPs i
        pfree i fuel p
        f) B := by
  have hclear : Spec i (InHand i (outer H S) p.addr) (clearHPs i) fun _ s g => ∃ H, (∀ k < 3, H k = NULL) ∧ InHand i (outer H S) p.addr s g :=
    ((clearHPs_spec (A := fun _ _ => True) (.fact _) .true).pre fun s g h => ⟨h, trivial⟩).post fun _ s g h => by
      obtain ⟨H', h0, h, -⟩ := h
      exact ⟨H', h0, h⟩
  have hfree : Spec i (fun s g => ∃ H, (∀ k < 3, H k = NULL) ∧ InHand i (outer H S) p.addr s g) (pfree i fuel p) fun _ => Idle i o S := by
    refine .exists fun H' => Spec.fact (fun _ _ h => h.1) fun hnull => ?_
    have hfree := pfree_spec (i := i) fuel (outer H' S) p.addr h0 id
    rw [show (⟨p.addr, false⟩ : Ptr) = p from Ptr.eq_of_addr rfl hp rfl] at hfree
    exact (hfree.pre fun s g h => h.2).post fun _ s g h => ⟨H', fun _ => hnull, h⟩
  exact .bind (hclear.told aloof_clearHPs hF) fun _ => .bind (hfree.told (aloof_pfree p) hF) fun _ => hf

/-! ## `find` -/

/-- The head of the loop of `find`: `none` is the label `try_again`. -/
def Standing (headOf : CInt → Nat) (i : Fin n) (o : Prop) (key : CInt) (G : W n → Prop) : Option ThreadLocal → W n → Prop
  | none => Both (Idle i o ∅) G
  | some fres => fun w => ∃ S, Cursor S fres ∧ Both (Idle i o S) (fun w => Facing headOf i key fres w ∧ G w) w

/-- What the result of `find` says of the set. -/
def Verdict (headOf : CInt → Nat) (i : Fin n) (key : CInt) (r : Bool × ThreadLocal × BitVec 64) (w : W n) : Prop :=
  (r.1 = true → Saw headOf i (key ∈ ·) w ∧ About i r.2.1.cur.addr (fun k _ => k = key) w) ∧
    (r.1 = false → (Saw headOf i (key ∉ ·) w ∧ Near headOf i key r.2.1.prev w) ∧
      (r.2.1.cur ≠ NULL → About i r.2.1.cur.addr (fun k _ => headOf k = headOf key ∧ key.toInt < k.toInt) w))

theorem lasting_verdict {r : Bool × ThreadLocal × BitVec 64} : Lasting headOf i (Verdict headOf i key r) := by
  have hcur : Lasting headOf i (About i r.2.1.cur.addr fun k _ => headOf k = headOf key ∧ key.toInt < k.toInt) :=
    lasting_about (φ := fun k _ => headOf k = headOf key ∧ key.toInt < k.toInt) fun _ => .fact _
  have hkey : Lasting headOf i (About i r.2.1.cur.addr fun k _ => k = key) := lasting_about (φ := fun k _ => k = key) fun _ => .fact _
  exact (Lasting.imp _ (logged_saw.lasting.and hkey)).and (.imp _ ((logged_saw.lasting.and lasting_near).and (.imp _ hcur)))

/-- The result of `find`. -/
structure Landed (S : Set Nat) (r : Bool × ThreadLocal × BitVec 64) : Prop where
  cursor : Cursor S r.2.1
  cur : r.1 = true → r.2.1.cur ≠ NULL
  nextTag : r.1 = true → r.2.1.next.tag = false
  next : r.1 = true → r.2.1.next.addr ≠ 0 → r.2.1.next.addr ∈ S

def Ended (headOf : CInt → Nat) (i : Fin n) (o : Prop) (key : CInt) (G : W n → Prop) (r : Bool × ThreadLocal × BitVec 64) (w : W n) : Prop :=
  ∃ S, Landed S r ∧ Both (Idle i o S) (fun w => Verdict headOf i key r w ∧ G w) w

/-- `find` meets a marked node. -/
theorem help_told (hc : Cursor S fres) (hne : fres.cur ≠ NULL) (hp : p.tag = true) (hpS : p.addr ≠ 0 → p.addr ∈ S) (hG : Logged i G) (fuel : Nat) :
    Told headOf i (Both (Idle i o S) fun w => (Near headOf i key fres.prev w ∧ Frozen i fres.cur.addr p w) ∧ G w)
      (do
        setHP i 0 (prevHP (.head b) fres.prev)
        setHP i 1 fres.cur
        setHP i 2 (clearDeleted p)
        if ← FENCE_CHECK i then return .inl none
        else if ← casWord fres.prev fres.cur (clearDeleted p) (.unlinked fres.cur.addr) then
          clearHPs i
          pfree i fuel fres.cur
          return .inl (some ⟨fres.prev, clearDeleted p, p⟩)
        else
          clearHPs i
          return .inl none : P n (Option ThreadLocal ⊕ Bool × ThreadLocal × BitVec 64))
      fun x w => Sum.elim (Standing headOf i o key G · w) (Ended headOf i o key G · w) x := by
  have h0 := hc.ne_zero hne
  have hF : Lasting headOf i fun w => Near headOf i key fres.prev w ∧ Frozen i fres.cur.addr p w := lasting_near.and (lasting_frozen hp)
  have hnear : Lasting headOf i fun w => Near headOf i key fres.prev w ∧ G w := lasting_near.and hG.lasting
  refine .pre (A := Both (fun s g => Idle i o S s g ∧ True) fun w => (Near headOf i key fres.prev w ∧ Frozen i fres.cur.addr p w) ∧ G w) ?_
    fun w h => ⟨⟨h.1, trivial⟩, h.2⟩
  refine setHPs_told (.fact _) .true (hF.and hG.lasting) _ _ _ fun H => ?_
  generalize hH' : three H (prevHP (.head b) fres.prev) fres.cur (clearDeleted p) = H'
  -- the three hazard pointers point to objects seen
  have hH : ∀ k < 3, H' k ≠ NULL → (H' k).tag = false ∧ (H' k).addr ∈ S := by
    intro k hk
    obtain ⟨-, e⟩ | ⟨-, e⟩ | ⟨-, e⟩ := three_cases (H := H) (p := prevHP (.head b) fres.prev) (q := fres.cur) (r := clearDeleted p) hk
    · rw [← hH', e]
      exact prevHP_spec hc.prev
    · rw [← hH', e]
      exact fun _ => ⟨hc.tag, hc.cur h0⟩
    · rw [← hH', e]
      exact fun hne' => ⟨rfl, hpS fun h => hne' (Ptr.eq_of_addr rfl rfl h)⟩
  have hH0 : ∀ a, fres.prev = .next a → H' 0 = ⟨a, false⟩ := by
    rw [← hH']
    exact three_prev b
  have hH1 : H' 1 = fres.cur := by simp [← hH', three]
  have hfence := FENCE_CHECK_told (o := o) (H := H') (S := S) (A := fun _ _ => True) (P := fun κ => Before headOf key κ fres.prev)
    (C := fun s g => fres.cur.addr ∈ g.live ∧ s.nextEntry fres.cur.addr = p) (.fact _) hF hG
    (fun _ _ _ k hk hne' => ⟨(hH k hk hne').1, .inl (hH k hk hne').2⟩)
    (fun w _ h hsp _ => ⟨(h.2.resolve_left hsp).2, h.1.before hsp⟩) fun s g _ h => h
  refine .bind hfence fun restart => .ite (fun hr => .ret fun w h => by rwa [if_pos hr] at h) fun hr => ?_
  simp only [if_neg hr]
  refine .exists fun κ => .fact (fun w h => h.1) fun hkey => ?_
  refine .bind ((unlink_told hc hne hp hkey hH0 hH1 hnear).pre fun w h =>
    ⟨⟨h.2.1, h.2.1.guarded, h.2.2.1.1, h.2.2.1.2⟩, h.2.2.2.1.1, h.2.2.2.2⟩) fun ok => .ite (fun hok => ?_) fun hok => ?_
  · simp only [if_pos hok]
    refine discard_told (o := o) (H := H') h0 hc.tag (hnear.and (.imp _ logged_saw.lasting)) fuel (.ret fun w h => ?_)
    exact ⟨S, ⟨hc.zero, hc.prev, rfl, hpS⟩, h.1, ⟨h.2.1.1, h.2.2⟩, h.2.1.2⟩
  · simp only [if_neg hok]
    exact .bind (retreat_told (o := o) hnear) fun _ => .ret fun w h => ⟨h.1.lower, h.2.2⟩

theorem findRound_told (hb : b = headOf key) (hG : Logged i G) (fuel : Nat) (fres : Option ThreadLocal) :
    Told headOf i (Standing headOf i o key G fres) (findRound i fuel (.head b) key fres) fun x w =>
      Sum.elim (Standing headOf i o key G · w) (Ended headOf i o key G · w) x := by
  cases fres with
  | none =>
    refine .bind (B := fun cur => Both (fun s g => cur.tag = false ∧ Idle i o (reachOf ∅ cur) s g) fun w =>
      Facing headOf i key ⟨.head b, cur, NULL⟩ w ∧ G w) (Told.load steady_idle hG.lasting fun w h _ hO hG' => ?_)
      fun cur => .fact (fun w h => h.1.1) fun htag => .ret fun w h => ⟨_, ⟨?_, trivial, htag, fun hne => .inr ⟨rfl, hne⟩⟩, h.1.2, h.2⟩
    · obtain ⟨H, h0, h⟩ := h
      have hS : Shape w.mem w.ghost := hO.inv.shape
      have htag : (w.mem.word (.head b)).tag = false := hS.net.headTag b
      refine ⟨⟨htag, H, h0, h.reach fun hne => seen_target (l := .head b) hS h trivial hne⟩, ⟨hb, fun hnull => .now ?_ rfl⟩, hG'⟩
      exact hO.chains.absent (l := .head b) trivial hb htag fun hne => absurd (congrArg Ptr.addr hnull) hne
    · rintro (h | h)
      · exact h
      · exact h.2 rfl
  | some fres =>
    refine .exists fun S => .fact (fun w h => h.1) fun hc => .pre (A := Both (Idle i o S) fun w => Facing headOf i key fres w ∧ G w) ?_ fun w h => h.2
    refine .ite (fun hnull => .ret fun w h => ?_) fun hne => ?_
    · exact ⟨S, ⟨hc, (fun h => by cases h), (fun h => by cases h), (fun h => by cases h)⟩, h.1,
        ⟨(fun h => by cases h), fun _ => ⟨⟨h.2.1.2 hnull, h.2.1.1⟩, fun h => absurd hnull h⟩⟩, h.2.2⟩
    have hne0 := hc.ne_zero hne
    have hcur := hc.cur hne0
    -- the word of `cur`
    refine .bind (B := fun nxt => Both (Idle i o (reachOf S nxt)) fun w =>
        (Near headOf i key fres.prev w ∧ About i fres.cur.addr (Follows headOf i key nxt) w ∧ (nxt.tag = true → Frozen i fres.cur.addr nxt w)) ∧ G w)
      (Told.load steady_idle (lasting_facing.and hG.lasting) fun w h _ hO hF' => ?_) fun nxt => ?_
    · obtain ⟨H, h0, h⟩ := h
      have hS : Shape w.mem w.ghost := hO.inv.shape
      refine ⟨⟨H, h0, h.reach fun hne => seen_target (l := .next fres.cur.addr) hS h hcur hne⟩, ⟨hF'.1.1, about_follows hO (h.seen_of hcur), fun _ => ?_⟩, hF'.2⟩
      by_cases hsp : w.ghost.spoiled i
      · exact .inl hsp
      · have hin := (h.seen_of hcur).resolve_left hsp
        exact .inr ⟨hin, (hS.guard i).whole hsp hin, rfl⟩
    have hc' := hc.reach nxt
    have hreach : nxt.addr ≠ 0 → nxt.addr ∈ reachOf S nxt := fun h => .inr ⟨rfl, h⟩
    have hfollows : Lasting headOf i fun w => Near headOf i key fres.prev w ∧ About i fres.cur.addr (Follows headOf i key nxt) w :=
      lasting_near.and (lasting_about fun _ => lasting_follows)
    have hfrozen : Lasting headOf i fun w => nxt.tag = true → Frozen i fres.cur.addr nxt w := fun w w' hd h htag => lasting_frozen htag w w' hd (h htag)
    refine .bind (CHECK_told (lasting_near.and ((lasting_about fun _ => lasting_follows).and hfrozen)) hG fun w h _ => h) fun restart =>
      .ite (fun hr => .ret fun w h => by rwa [if_pos hr] at h) fun hr => ?_
    simp only [if_neg hr]
    refine .ite (fun hdel => (help_told hc' hne hdel hreach hG fuel).pre fun w h => ⟨h.1, ⟨h.2.1.1, h.2.1.2.2 hdel⟩, h.2.2⟩) fun hdel => ?_
    have htag : nxt.tag = false := Bool.eq_false_iff.2 hdel
    -- its key
    refine .bind (B := fun kd => Both (Idle i o (reachOf S nxt)) fun w =>
        ((Near headOf i key fres.prev w ∧ About i fres.cur.addr (Follows headOf i key nxt) w) ∧ About i fres.cur.addr (fun k _ => k = getKey kd) w) ∧ G w)
      (.pre (A := Both (Idle i o (reachOf S nxt)) fun w =>
          (Near headOf i key fres.prev w ∧ About i fres.cur.addr (Follows headOf i key nxt) w) ∧ G w)
        (Told.load steady_idle (hfollows.and hG.lasting) fun w h _ _ hF' => ⟨h, ⟨hF'.1, ?_⟩, hF'.2⟩) fun w h => ⟨h.1, ⟨h.2.1.1, h.2.1.2.1⟩, h.2.2⟩) fun kd => ?_
    · obtain ⟨H, -, h⟩ := h
      exact (h.seen_of (.inl hcur)).imp_right fun hin => ⟨hin, rfl⟩
    have hkey : Lasting headOf i (About i fres.cur.addr fun k _ => k = getKey kd) := lasting_about (φ := fun k _ => k = getKey kd) fun _ => .fact _
    -- the word of `prev`
    refine .bind (B := fun again => Both (Idle i o (reachOf S nxt)) fun w =>
        (((Near headOf i key fres.prev w ∧ About i fres.cur.addr (Follows headOf i key nxt) w) ∧ About i fres.cur.addr (fun k _ => k = getKey kd) w) ∧
          (again = fres.cur → About i fres.cur.addr (Precedes headOf i key) w)) ∧ G w)
      (Told.load steady_idle ((hfollows.and hkey).and hG.lasting) fun w h hF hO hF' => ⟨h, ⟨hF'.1, fun hword => ?_⟩, hF'.2⟩) fun again => ?_
    · obtain ⟨H, -, h⟩ := h
      exact about_precedes hO hF.1.1.1 (h.seen_of (.inl hcur)) (hword.trans hc.eq) hne0
    have hprecedes : Lasting headOf i fun w => again = fres.cur → About i fres.cur.addr (Precedes headOf i key) w :=
      .imp _ (lasting_about fun _ => lasting_precedes)
    refine .bind (CHECK_told (K := fun w => (Near headOf i key fres.prev w ∧ About i fres.cur.addr (fun k _ => k = getKey kd) w) ∧
        Follows headOf i key nxt (getKey kd) w ∧ (again = fres.cur → Precedes headOf i key (getKey kd) w))
      ((hfollows.and hkey).and hprecedes) hG fun w h hsp => ?_) fun restart' => .ite (fun hr' => .ret fun w h => by rwa [if_pos hr'] at h) fun hr' => ?_
    · obtain ⟨⟨⟨hnear, hfol⟩, hk⟩, hpre⟩ := h
      have hkd := (hk.resolve_left hsp).2
      refine ⟨⟨hnear, hk⟩, ?_, fun hword => ?_⟩
      · rw [← hkd]
        exact (hfol.resolve_left hsp).2
      · rw [← hkd]
        exact ((hpre hword).resolve_left hsp).2
    simp only [if_neg hr']
    refine .ite (fun _ => .ret fun w h => ⟨h.1.lower, h.2.2⟩) fun hagain => ?_
    have hword : again = fres.cur := not_not.1 hagain
    refine .ite (fun hge => .ret fun w h => ?_) fun hlt => .ret fun w h => ?_
    · obtain ⟨hidle, ⟨⟨hnear, hk⟩, hfol, hpre⟩, hG'⟩ := h
      obtain ⟨hsaw, -⟩ := hfol htag
      obtain ⟨hhead, habsent⟩ := hpre hword
      refine ⟨_, ⟨⟨hc'.zero, hc'.prev, hc'.tag, hc'.cur⟩, fun _ => hne, fun _ => htag, fun _ => hreach⟩, hidle, ⟨fun hfound => ?_, fun hfound => ?_⟩, hG'⟩
      · have heq : getKey kd = key := beq_iff_eq.1 hfound
        rw [heq] at hsaw hk
        exact ⟨hsaw, hk⟩
      · have hgt : key.toInt < (getKey kd).toInt := lt_of_le_of_ne hge fun h => by
          rw [beq_eq_false_iff_ne] at hfound
          exact hfound (BitVec.eq_of_toInt_eq h.symm)
        exact ⟨⟨habsent hgt, hnear⟩, fun _ => hk.mono fun k (hk : k = getKey kd) => by rw [hk]; exact ⟨hhead, hgt⟩⟩
    · obtain ⟨hidle, ⟨⟨hnear, hk⟩, hfol, hpre⟩, hG'⟩ := h
      obtain ⟨-, hlast⟩ := hfol htag
      obtain ⟨hhead, -⟩ := hpre hword
      refine ⟨_, ⟨hc'.zero, .inl hcur, htag, hreach⟩, hidle, ⟨?_, fun hnull => hlast hnull hhead (not_le.1 hlt)⟩, hG'⟩
      change About i fres.cur.addr (fun k _ => headOf k = headOf key ∧ k.toInt < key.toInt) w
      exact hk.mono fun k (hk : k = getKey kd) => by rw [hk]; exact ⟨hhead, not_le.1 hlt⟩

/-- **`find`** leaves its thread on objects it may read, and gives an answer that held since the call. -/
theorem find_told (hb : b = headOf key) (hG : Logged i G) (fuel : Nat) :
    Told headOf i (Both (Idle i o ∅) G) (find i fuel (.head b) key) (Ended headOf i o key G) :=
  .iter (J := Standing headOf i o key G) (findRound_told hb hG fuel) fuel none

end OptimisticAccess.MOA
