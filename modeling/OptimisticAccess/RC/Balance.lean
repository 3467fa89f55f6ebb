import OptimisticAccess.RC.Release

/-!
# Reference counts are safe, and balance at rest

`find` ends with a reference for each of `cur`, `next` and `prev`, whatever way it took; the
operations give back just these. So a thread between two operations has an empty hand, and the
counts that are left are those of the links.
-/

namespace OptimisticAccess.RC

open Conc Prog

variable {n : Nat} {pool : Nat → Nat} {first : Set Nat} {i : Fin n} {w : W n} {h : Hand} {K : Nat → Option (Stage n)}
  {F : W n → Prop} {R H : Multiset Nat}

/-! ## Releases -/

/-- A hand that uses every reference it has. -/
def Hand.of (R : Multiset Nat) : Hand := ⟨R, R, none⟩

theorem Hand.ok_of_le (hH : H ≤ R) : (⟨R, H, none⟩ : Hand).Ok :=
  ⟨hH.trans (Multiset.le_add_right _ _), fun _ _ e => by cases e⟩

theorem bare_not_fresh (b : Nat) : (bare b : Option (Stage n)) ≠ some (.fresh i) := by
  intro e
  cases e

theorem release_held (fuel : Nat) (q : Ptr) (hF : Steady R F) :
    Spec pool first i (fun w => Own i (.of (own q + R)) bare w ∧ F w) (release i fuel true q)
      fun _ w => Own i (.of R) bare w ∧ F w :=
  release_spec fuel true q (Hand.ok_of_le le_rfl) hF bare_not_fresh

/-- The reference that comes with a `prev` pointer. -/
def prevRef : Loc → Multiset Nat
  | .head => 0
  | .next a => own ⟨a, false⟩

theorem releasePrev_spec (fuel : Nat) (loc : Loc) (hF : Steady R F) :
    Spec pool first i (fun w => Own i (.of (prevRef loc + R)) bare w ∧ F w) (releasePrev i fuel loc)
      fun _ w => Own i (.of R) bare w ∧ F w := by
  cases loc with
  | head =>
    apply Proto.Triple.ret
    intro w hw
    rwa [prevRef, zero_add] at hw
  | next a => exact release_held fuel ⟨a, false⟩ hF

/-- The references that `find` leaves. -/
def ThreadLocal.refs (fres : ThreadLocal) : Multiset Nat := own fres.cur + (own fres.next + (prevRef fres.prev + 0))

theorem releaseAll_spec (fuel : Nat) (fres : ThreadLocal) :
    Spec pool first i (Own i (.of fres.refs) bare) (releaseAll i fuel fres) fun _ => Own i .empty bare := by
  apply Proto.Triple.bind (B := fun _ w => Own i (.of (own fres.next + (prevRef fres.prev + 0))) bare w ∧ True)
  · exact (release_held fuel fres.cur (steady_const True)).pre fun w hw => ⟨hw, trivial⟩
  intro _
  apply Proto.Triple.bind (release_held fuel fres.next (steady_const True))
  intro _
  exact (releasePrev_spec fuel fres.prev (steady_const True)).post fun _ w hw => hw.1

/-! ## `find` -/

/-- A `prev` pointer as `find` leaves it. -/
def PrevOk (key : Int) (loc : Loc) (w : W n) : Prop := w.ghost.Counts loc ∧ Below w.mem loc key

/-- What is known of the key of an entry that a reference keeps alive. -/
def Placed (φ : Int → Prop) (q : Ptr) (w : W n) : Prop := q.addr ≠ 0 → w.ghost.stage q.addr = .live ∧ φ (w.mem.key q.addr)

theorem Calm.key {w w' : W n} (hc : Calm R w w') {a : Nat} (ha : a ∈ R) (hlive : w.ghost.stage a = .live) :
    w'.mem.key a = w.mem.key a := by
  rw [Mem.key, (hc.live a ha hlive).key]
  rfl

theorem steady_placed {q : Ptr} (φ : Int → Prop) (hq : own q ≤ R) : Steady (n := n) R (Placed φ q) := by
  intro w w' hc h h0
  obtain ⟨hlive, hφ⟩ := h h0
  have hmem : q.addr ∈ R := Multiset.mem_of_le hq (mem_own.2 ⟨rfl, h0⟩)
  refine ⟨(hc.live _ hmem hlive).live, ?_⟩
  rwa [hc.key hmem hlive]

theorem steady_prevOk {key : Int} {loc : Loc} (hR : prevRef loc ≤ R) (h0 : loc ≠ .next 0) :
    Steady (n := n) R (PrevOk key loc) := by
  intro w w' hc h
  cases loc with
  | head => exact ⟨trivial, trivial⟩
  | next a =>
    have ha : a ≠ 0 := by rintro rfl; exact h0 rfl
    have hmem : a ∈ R := Multiset.mem_of_le hR (mem_own.2 ⟨rfl, ha⟩)
    refine ⟨(hc.live a hmem h.1).live, ?_⟩
    rw [Below, hc.key hmem h.1]
    exact h.2

/-- What `find` knows at the head of its loop. -/
structure Looking (key : Int) (fres : ThreadLocal) (w : W n) : Prop where
  tag : fres.cur.tag = false
  ne_zero : fres.prev ≠ .next 0
  null : fres.cur.addr = 0 → fres.next.addr = 0
  prev : PrevOk key fres.prev w
  cur : Alive fres.cur w

/-- What `find` knows when it returns. -/
structure Found (key : Int) (found : Bool) (fres : ThreadLocal) (w : W n) : Prop where
  tag : fres.cur.tag = false
  ne_zero : fres.prev ≠ .next 0
  prev : PrevOk key fres.prev w
  cur : Placed (fun k => found = false → key < k) fres.cur w
  next : found = true → fres.cur.addr ≠ 0 ∧ fres.next.tag = false

theorem le_left (p : Ptr) (R : Multiset Nat) : own p ≤ own p + R := Multiset.le_add_right _ _

/-- What lies between `prev` and `cur` while the link to `cur` is swapped for the one to `next`. -/
def loanOf (cur next : Ptr) : Option (Nat × Nat) := if next.addr = 0 then none else some (cur.addr, next.addr)

theorem loan_loanOf (cur next : Ptr) (R H : Multiset Nat) : (⟨R, H, loanOf cur next⟩ : Hand).loan = own next := by
  unfold loanOf Hand.loan own
  split_ifs
  · rfl
  · rfl

theorem lender_loanOf {cur next : Ptr} {a q : Nat} (e : loanOf cur next = some (a, q)) :
    a = cur.addr ∧ q = next.addr ∧ q ≠ 0 := by
  unfold loanOf at e
  split_ifs at e with h0
  cases e
  exact ⟨rfl, rfl, h0⟩

section Unlink

variable {key : Int} {prev : Loc} {cur next : Ptr}

/-- What `find` knows before it unlinks `cur`. -/
structure Marked (key : Int) (prev : Loc) (cur next : Ptr) (w : W n) : Prop where
  word : Glimpse (.next cur.addr) next w
  prevOk : PrevOk key prev w
  curAlive : Alive cur w
  nextAlive : Alive next w

theorem steady_marked (h0 : cur.addr ≠ 0) (hprev : prev ≠ .next 0) :
    Steady (n := n) (own next + (own cur + prevRef prev)) (Marked key prev cur next) := by
  have hcur : own cur ≤ own next + (own cur + prevRef prev) :=
    (le_left cur _).trans (Multiset.le_add_left _ _)
  have hloc : prevRef prev ≤ own next + (own cur + prevRef prev) :=
    (Multiset.le_add_left _ _).trans (Multiset.le_add_left _ _)
  intro w w' hc hm
  have hword : Within (own next + (own cur + prevRef prev)) (.next cur.addr) :=
    Multiset.mem_of_le hcur (mem_own.2 ⟨rfl, h0⟩)
  constructor
  · exact steady_glimpse hword next w w' hc hm.word
  · exact steady_prevOk hloc hprev w w' hc hm.prevOk
  · exact steady_alive hcur w w' hc hm.curAlive
  · exact steady_alive (le_left next _) w w' hc hm.nextAlive

/-- The compare-and-swap of `find` moves the link of `prev` from `cur` to `next`: the count of
`cur` falls to the thread, and its own count of `next` goes to the link. -/
theorem unlink_spec (h0 : cur.addr ≠ 0) (htag : cur.tag = false) (hdel : next.tag = true) (hprev : prev ≠ .next 0) :
    Spec pool first i (fun w => Own i (.of (own next + (own cur + prevRef prev))) bare w ∧ Marked key prev cur next w)
      (casWord prev cur (clearDeleted next) none) fun ok w => if ok = true then
        Own i ⟨own cur + (own cur + prevRef prev), own next + (own cur + prevRef prev), loanOf cur next⟩ bare w ∧
          PrevOk key prev w
      else Own i (.of (own next + (own cur + prevRef prev))) bare w := by
  have hstill : Still pool first i fun w =>
      Own i (.of (own next + (own cur + prevRef prev))) bare w ∧ Marked key prev cur next w :=
    .own (steady_marked h0 hprev)
  apply Spec.cas hstill.stable
  · rintro w ⟨hw, hm⟩ hI hword
    have hl := (hI.shape.net.mem_locs prev).2 hm.prevOk.1
    have hlive := hm.curAlive h0
    have hnext : (w.mem.node cur.addr).nextEntry = next := hm.word.marked hdel
    have hT := Trans.setWord (p := clearDeleted next) (i := i)
      (h := ⟨own cur + (own cur + prevRef prev), own next + (own cur + prevRef prev), loanOf cur next⟩) hI.shape hl
      (by rw [hword]; exact htag)
    have hhand := hw.hand
    refine ⟨_, hI.shape.setWord hl ?_ (fun _ => rfl) (fun hn => ?_) ⟨?_, ?_⟩ ?_ ?_ ?_ (hw.not_fresh bare_not_fresh), hT,
      .silent hw.busy ?_ fun _ => Iff.rfl, ?_⟩
    · rw [hword]; exact htag
    · refine ⟨hm.nextAlive hn, ?_⟩
      have hcur := (hI.shape.net.target prev hl (by rw [hword]; exact h0)).2
      have hnk := (hI.shape.net.target (.next cur.addr) (hI.shape.net.next hlive)
        (by rw [Mem.word, hnext]; exact hn)).2
      rw [hword] at hcur
      rw [Mem.word, hnext] at hnk
      cases prev with
      | head => trivial
      | next a => exact lt_trans hcur hnk
    · rw [loan_loanOf, add_comm (own next)]
      exact add_le_add_left (Multiset.le_add_left _ _) _
    · intro a q e
      obtain ⟨rfl, -⟩ := lender_loanOf e
      exact Multiset.mem_add.2 (.inl (mem_own.2 ⟨rfl, h0⟩))
    · rw [hword, hhand]
      change own cur + (own next + (own cur + prevRef prev)) = own next + (own cur + (own cur + prevRef prev))
      abel
    · intro a q e
      obtain ⟨rfl, rfl, hq⟩ := lender_loanOf e
      refine ⟨hlive, ?_, hq⟩
      rw [hnext, ← hdel]
    · intro b hb
      have hheld := hI.shape.hands.held i b
      rw [hhand] at hheld
      exact hheld hb
    · rw [setHand_self, hhand]; rfl
    · rw [if_pos rfl]
      refine ⟨hw.setHand (by simp), ?_⟩
      refine (steady_prevOk (R := prevRef prev) le_rfl hprev).step hm.prevOk hT ?_
      rw [setHand_self]
      exact (Multiset.le_add_left _ _).trans (Multiset.le_add_left _ _)
  · intro w hw hI _
    refine ⟨w.ghost, hI.shape, .refl .., .silent hw.1.busy rfl fun _ => Iff.rfl, ?_⟩
    rw [if_neg Bool.false_ne_true]
    exact (hstill.silent w hw).1

/-- The three calls after it settle the accounts. -/
theorem settle_spec {α : Type} (r : α) (fuel : Nat) (h0 : cur.addr ≠ 0) (hprev : prev ≠ .next 0) :
    Spec pool first i (fun w =>
        Own i ⟨own cur + (own cur + prevRef prev), own next + (own cur + prevRef prev), loanOf cur next⟩ bare w ∧
          PrevOk key prev w)
      (do
        release i fuel false cur
        safeReadLocal next none
        release i fuel true cur
        return r) fun r' w =>
      r' = r ∧ Own i (.of (own next + prevRef prev)) bare w ∧ PrevOk key prev w ∧ Alive next w := by
  have hloc : prevRef prev ≤ own cur + prevRef prev := Multiset.le_add_left _ _
  apply Proto.Triple.bind (release_spec (l := loanOf cur next) fuel false cur ?_ (steady_prevOk hloc hprev) bare_not_fresh)
  · intro _
    apply Proto.Triple.bind (B := fun _ w => Own i (.of (own next + (own cur + prevRef prev))) bare w ∧
      PrevOk key prev w ∧ Alive next w)
    · have hstill : Still pool first i fun w =>
          Own i ⟨own cur + prevRef prev, own next + (own cur + prevRef prev), loanOf cur next⟩ bare w ∧
            PrevOk key prev w := .own (steady_prevOk hloc hprev)
      have halive : ∀ w, Own i ⟨own cur + prevRef prev, own next + (own cur + prevRef prev), loanOf cur next⟩ bare w →
          Inv pool first w → Alive next w := by
        intro w hw hI hn
        have hlent := congrArg Hand.lent hw.hand
        rw [show loanOf cur next = some (cur.addr, next.addr) from if_neg hn] at hlent
        obtain ⟨hlive, hnext, -⟩ := hI.shape.hands.lent i _ _ hlent
        have htarget := hI.shape.net.target (.next cur.addr) (hI.shape.net.next hlive)
        rw [Mem.word, hnext] at htarget
        exact (htarget hn).1
      apply safeReadLocal_spec (l := loanOf cur next) (Hand.ok_of_le le_rfl) (.inl rfl) _ hstill.stable
      · exact fun w hw => hw.1
      · intro w hw hI hn
        rw [halive w hw.1 hI hn]; trivial
      · intro w w' hw hI hc _ _
        refine ⟨steady_prevOk (hloc.trans (Multiset.le_add_left _ _)) hprev w w' hc hw.2, ?_⟩
        exact steady_alive (le_left next _) w w' hc (halive w hw.1 hI)
      · intro hn
        exact ⟨(if_pos hn).symm, fun w hw => ⟨hw.2, fun h => absurd hn h⟩⟩
    intro _
    rw [add_left_comm]
    apply Proto.Triple.bind (release_held fuel cur
      ((steady_prevOk (Multiset.le_add_left _ _) hprev).and (steady_alive (le_left next _))))
    intro _
    exact Proto.Triple.ret fun w hw => ⟨rfl, hw⟩
  · constructor
    · rw [loan_loanOf, add_comm (own next)]
    · intro a q e
      obtain ⟨rfl, -⟩ := lender_loanOf e
      exact Multiset.mem_add.2 (.inl (mem_own.2 ⟨rfl, h0⟩))

end Unlink

/-- Between two rounds of `find`. -/
def Round (i : Fin n) (key : Int) : Option ThreadLocal → W n → Prop
  | none, w => Own i .empty bare w
  | some fres, w => Own i (.of (own fres.cur + prevRef fres.prev)) bare w ∧ Looking key fres w

theorem findRound_spec (fuel : Nat) (key : CInt) (st : Option ThreadLocal) :
    Spec pool first i (Round i key.toInt st) (findRound i fuel key st) fun r w =>
      Sum.elim (fun st => Round i key.toInt st w)
        (fun out => Own i (.of out.2.refs) bare w ∧ Found key.toInt out.1 out.2 w) r := by
  cases st with
  | none =>
    apply Proto.Triple.bind
    · apply Proto.Triple.pre (safeRead_spec .head (R := 0) (H := 0) le_rfl trivial (steady_const True)
        bare_not_fresh fuel)
      exact fun w hw => ⟨hw, trivial, trivial⟩
    · intro cur
      apply Proto.Triple.ret
      rintro w ⟨hw, -, hg, ha⟩
      exact ⟨hw, hg.head rfl, by simp, fun _ => rfl, ⟨trivial, trivial⟩, ha⟩
  | some fres =>
    obtain ⟨prev, cur, next₀⟩ := fres
    apply Proto.Triple.fact (c := cur.tag = false ∧ prev ≠ .next 0) (fun w hw => ⟨hw.2.tag, hw.2.ne_zero⟩)
    rintro ⟨htag, hprev⟩
    apply Proto.Triple.ite
    · rintro rfl
      apply Proto.Triple.ret
      rintro w ⟨hw, hl⟩
      refine ⟨?_, rfl, hprev, hl.prev, fun h => absurd rfl h, by simp⟩
      rw [ThreadLocal.refs, own_eq_zero (hl.null rfl), add_zero]
      simpa only [zero_add] using hw
    intro hne
    have h0 : cur.addr ≠ 0 := fun e => hne (Ptr.eq_null htag e)
    have hcur : own cur ≤ own cur + prevRef prev := le_left cur _
    have hloc : prevRef prev ≤ own cur + prevRef prev := Multiset.le_add_left _ _
    have hin : Within (own cur + prevRef prev) (.next cur.addr) := Multiset.mem_of_le hcur (mem_own.2 ⟨rfl, h0⟩)
    apply Proto.Triple.bind (B := fun next w =>
      Own i (.of (own next + (own cur + prevRef prev))) bare w ∧ Marked key.toInt prev cur next w)
    · apply Proto.Triple.mono (safeRead_spec (.next cur.addr) (F := fun w => PrevOk key.toInt prev w ∧ Alive cur w) le_rfl hin
        ((steady_prevOk hloc hprev).and (steady_alive hcur)) bare_not_fresh fuel)
      · rintro w ⟨hw, hl⟩
        exact ⟨hw, ⟨hl.prev, hl.cur⟩, hl.cur h0⟩
      · rintro next w ⟨hw, ⟨hp, hc⟩, hg, ha⟩
        exact ⟨hw, hg, hp, hc, ha⟩
    intro next
    have hsteady : Steady (own next + (own cur + prevRef prev)) (Marked (n := n) key.toInt prev cur next) :=
      steady_marked h0 hprev
    have hquit : Spec pool first i (Own i (.of (own next + (own cur + prevRef prev))) bare)
        (releaseAll i fuel ⟨prev, cur, next⟩) fun _ => Own i .empty bare := by
      apply Proto.Triple.pre (releaseAll_spec fuel ⟨prev, cur, next⟩)
      intro w hw
      rw [ThreadLocal.refs, add_zero, add_left_comm]
      exact hw
    apply Proto.Triple.ite
    · intro hdel
      apply Proto.Triple.bind (unlink_spec h0 htag hdel hprev)
      intro ok
      cases ok with
      | true =>
        simp only [if_true]
        refine (settle_spec _ fuel h0 hprev).post ?_
        rintro r w ⟨rfl, hw, hp, ha⟩
        exact ⟨hw, rfl, hprev, fun h => h, hp, ha⟩
      | false =>
        simp only [Bool.false_eq_true, if_false]
        apply Proto.Triple.bind hquit
        intro _
        exact Proto.Triple.ret fun w hw => hw
    · intro hdel
      have htagn : next.tag = false := Bool.eq_false_iff.2 hdel
      apply Proto.Triple.bind (B := fun kd w => Own i (.of (own next + (own cur + prevRef prev))) bare w ∧
        Marked key.toInt prev cur next w ∧ Placed (· = (getKey kd).toInt) cur w)
      · apply Spec.load (Still.own hsteady) fun w hw => hw.1.busy
        · exact fun w hw hI => ⟨hw.1, hw.2, fun _ => ⟨hw.2.curAlive h0, rfl⟩⟩
        · rintro kd w ⟨hw, hm, hk⟩
          exact Own.silent (hsteady.and (steady_placed _ (hcur.trans (Multiset.le_add_left _ _)))) ⟨hw, hm, hk⟩
      intro kd
      have hsteady' : Steady (own next + (own cur + prevRef prev)) fun w : W n =>
          Marked key.toInt prev cur next w ∧ Placed (· = (getKey kd).toInt) cur w :=
        hsteady.and (steady_placed _ (hcur.trans (Multiset.le_add_left _ _)))
      have hstill : Still pool first i fun w => Own i (.of (own next + (own cur + prevRef prev))) bare w ∧
          Marked key.toInt prev cur next w ∧ Placed (· = (getKey kd).toInt) cur w := .own hsteady'
      apply Proto.Triple.bind (Spec.load hstill (fun w hw => hw.1.busy) (fun w hw _ => hw) fun _ => hstill.silent)
      intro p
      apply Proto.Triple.ite
      · intro _
        apply Proto.Triple.bind (hquit.pre fun w hw => hw.1)
        intro _
        exact Proto.Triple.ret fun w hw => hw
      · intro _
        apply Proto.Triple.ite
        · intro hge
          apply Proto.Triple.ret
          rintro w ⟨hw, hm, hk⟩
          refine ⟨?_, htag, hprev, hm.prevOk, fun _ => ?_, fun _ => ⟨h0, htagn⟩⟩
          · change Own i (.of (own cur + (own next + (prevRef prev + 0)))) bare w
            rwa [add_zero, add_left_comm]
          · obtain ⟨hlive, hkey⟩ := hk h0
            refine ⟨hlive, fun hne => ?_⟩
            have hkk : getKey kd ≠ key := by simpa using hne
            have : (getKey kd).toInt ≠ key.toInt := fun e => hkk (BitVec.eq_of_toInt_eq e)
            change w.mem.key cur.addr = (getKey kd).toInt at hkey
            change key.toInt < w.mem.key cur.addr
            omega
        · intro hlt
          have hR : own next + (own cur + prevRef prev) = prevRef prev + (own next + own cur) := by abel
          rw [hR]
          have hfinal : Steady (own next + own cur) fun w : W n =>
              Alive next w ∧ Placed (· = (getKey kd).toInt) cur w :=
            (steady_alive (le_left next _)).and (steady_placed _ (Multiset.le_add_left _ _))
          apply Proto.Triple.bind ((releasePrev_spec fuel prev hfinal).pre fun w hw => ⟨hw.1, hw.2.1.nextAlive, hw.2.2⟩)
          intro _
          apply Proto.Triple.ret
          rintro w ⟨hw, ha, hk⟩
          obtain ⟨hlive, hkey⟩ := hk h0
          change w.mem.key cur.addr = (getKey kd).toInt at hkey
          refine ⟨hw, htagn, fun e => h0 (Loc.next.inj e), fun h => h, ⟨hlive, ?_⟩, ha⟩
          change w.mem.key cur.addr < key.toInt
          omega

theorem find_spec (fuel : Nat) (key : CInt) :
    Spec pool first i (Own i .empty bare) (find i fuel key)
      fun out w => Own i (.of out.2.refs) bare w ∧ Found key.toInt out.1 out.2 w :=
  Proto.Triple.iter (J := Round i key.toInt) (findRound_spec fuel key) fuel none

/-! ## The operations -/

theorem steady_found {key : Int} {fres : ThreadLocal} (h0 : fres.prev ≠ .next 0) (φ : Int → Prop) :
    Steady (n := n) fres.refs fun w => PrevOk key fres.prev w ∧ Placed φ fres.cur w := by
  have hcur : own fres.cur ≤ fres.refs := le_left _ _
  have hprev : prevRef fres.prev ≤ fres.refs := by
    unfold ThreadLocal.refs
    rw [add_zero]
    exact (Multiset.le_add_left _ _).trans (Multiset.le_add_left _ _)
  exact (steady_prevOk hprev h0).and (steady_placed φ hcur)

theorem listSearch_spec (fuel : Nat) (key : CInt) :
    Spec pool first i (Own i .empty bare) (listSearch i fuel key) fun _ => Own i .empty bare := by
  apply Proto.Triple.bind (find_spec fuel key)
  rintro ⟨found, fres⟩
  have hall : Spec pool first i (Own i (.of fres.refs) bare) (do releaseAll i fuel fres; return found)
      fun _ => Own i .empty bare :=
    Proto.Triple.bind (releaseAll_spec fuel fres) fun _ => Proto.Triple.ret fun _ hw => hw
  cases found with
  | true =>
    have hstill : Still pool first i fun w => Own i (.of fres.refs) bare w ∧ True := .own (steady_const True)
    apply Proto.Triple.bind (B := fun _ w => Own i (.of fres.refs) bare w ∧ True)
    · apply Proto.Triple.pre (Spec.load hstill (fun w hw => hw.1.busy) (fun _ hw _ => hw) fun _ => hstill.silent)
      exact fun w hw => ⟨hw.1, trivial⟩
    · intro _
      exact hall.pre fun w hw => hw.1
  | false => exact hall.pre fun w hw => hw.1

section Insert

variable {key : CInt} {fres : ThreadLocal} {p : Ptr}

/-- What `ListInsert` knows of its new entry and the place for it. -/
structure Ready (i : Fin n) (key : CInt) (fres : ThreadLocal) (p : Ptr) (w : W n) : Prop where
  entry : Wrote i p.addr (fun e => e.keyData = keyWord key ∧ e.nextEntry = fres.cur) w
  prev : PrevOk key.toInt fres.prev w
  cur : Placed (key.toInt < ·) fres.cur w

/-- The hand of `ListInsert` once its entry is ready: the second reference to `cur` is the one of
the new link. -/
def readyHand (fres : ThreadLocal) (p : Ptr) : Hand :=
  ⟨own fres.cur + (p.addr ::ₘ fres.refs), p.addr ::ₘ fres.refs, none⟩

/-- The new entry's link starts to count. -/
structure Published (i : Fin n) (p : Ptr) (pool : Nat → Nat) (w : W n) (g : Ghost n) : Prop where
  fresh : w.ghost.stage p.addr = .fresh i
  shape : Shape pool w.mem g
  mine : ∀ b, (g.stage b).mine i = bare b
  born : ∀ b, (g.stage b).Born ↔ (w.ghost.stage b).Born

theorem Ready.publish (hr : Ready i key fres p w) (hw : Own i (readyHand fres p) (alone p.addr (.fresh i)) w)
    (hI : Inv pool first w) : Published i p pool w (w.ghost.publish i p.addr (.of (p.addr ::ₘ fres.refs))) := by
  have hfresh : w.ghost.stage p.addr = .fresh i := hw.stage (Function.update_self ..)
  obtain ⟨hkd, hnext⟩ := hr.entry.2
  have hhand := hw.hand
  refine ⟨hfresh, ?_, fun b => ?_, fun b => ?_⟩
  · apply hI.shape.publish hfresh _ (Hand.ok_of_le le_rfl) _ (Multiset.mem_cons_self _ _) _ rfl
    · rw [hhand]; exact le_rfl
    · intro b hb
      by_contra hne
      have hmine := hw.mine b
      rw [hb, Stage.mine_fresh, alone, Function.update_of_ne hne] at hmine
      cases hmine
    · rw [hhand, hnext]; rfl
    · intro hn
      rw [hnext] at hn ⊢
      obtain ⟨hlive, hlt⟩ := hr.cur hn
      refine ⟨hlive, ?_⟩
      rw [Mem.key, hkd, getKey_keyWord]
      exact hlt
  · by_cases hb : b = p.addr
    · subst hb; rw [publish_stage_self]; rfl
    · rw [publish_stage_of_ne hb, hw.mine, alone, Function.update_of_ne hb]
  · by_cases hb : b = p.addr
    · subst hb; rw [publish_stage_self, hfresh]; exact Iff.rfl
    · rw [publish_stage_of_ne hb]

theorem still_ready (h0 : fres.prev ≠ .next 0) :
    Still pool first i fun w => Own i (readyHand fres p) (alone p.addr (.fresh i)) w ∧ Ready i key fres p w := by
  have hsteady : Steady fres.refs fun w : W n => PrevOk key.toInt fres.prev w ∧ Placed (key.toInt < ·) fres.cur w :=
    steady_found h0 _
  have hstill : Still pool first i fun w => (Own i (readyHand fres p) (alone p.addr (.fresh i)) w ∧
      PrevOk key.toInt fres.prev w ∧ Placed (key.toInt < ·) fres.cur w) ∧
      Wrote i p.addr (fun e => e.keyData = keyWord key ∧ e.nextEntry = fres.cur) w :=
    (Still.own (hsteady.mono ((Multiset.le_cons_self _ _).trans (Multiset.le_add_left _ _)))).and (.wrote _ _)
  constructor
  · rintro j w w' hj hI hI' hact ⟨hw, hr⟩
    obtain ⟨⟨h1, h2, h3⟩, h4⟩ := hstill.stable j w w' hj hI hI' hact ⟨⟨hw, hr.prev, hr.cur⟩, hr.entry⟩
    exact ⟨h1, h4, h2, h3⟩
  · rintro w ⟨hw, hr⟩
    obtain ⟨⟨h1, h2, h3⟩, h4⟩ := hstill.silent w ⟨⟨hw, hr.prev, hr.cur⟩, hr.entry⟩
    exact ⟨h1, h4, h2, h3⟩

/-- The compare-and-swap of `ListInsert`: either way the new entry's link counts from then on. -/
theorem connect_spec (htag : fres.cur.tag = false) (hp : p.tag = false) (h0 : fres.prev ≠ .next 0) :
    Spec pool first i (fun w => Own i (readyHand fres p) (alone p.addr (.fresh i)) w ∧ Ready i key fres p w)
      (casWord fres.prev fres.cur p (some (.linked p.addr))) fun ok w =>
      if ok = true then Own i ⟨own fres.cur + fres.refs, fres.refs, none⟩ bare w
      else Own i (.of (own p + fres.refs)) bare w := by
  apply Spec.cas (still_ready h0).stable
  · rintro w ⟨hw, hr⟩ hI hword
    have hpub := hr.publish hw hI
    have hne : p.addr ≠ 0 := hI.shape.ne_zero (by rw [hpub.fresh]; trivial)
    have hl : fres.prev ∈ (w.ghost.publish i p.addr (.of (p.addr ::ₘ fres.refs))).locs :=
      Finset.mem_insert_of_mem ((hI.shape.net.mem_locs _).2 hr.prev.1)
    have hfresh : ∀ b, (w.ghost.publish i p.addr (.of (p.addr ::ₘ fres.refs))).stage b ≠ .fresh i := by
      intro b e
      have hmine := hpub.mine b
      rw [e, Stage.mine_fresh] at hmine
      cases hmine
    have htag' : (w.mem.word fres.prev).tag = false := by rw [hword]; exact htag
    have hT := Trans.setWord (p := p) (i := i) (h := ⟨own fres.cur + fres.refs, fres.refs, none⟩) hpub.shape hl htag'
    refine ⟨_, hpub.shape.setWord hl htag' (fun _ => hp) (fun _ => ⟨publish_stage_self, ?_⟩) ?_ ?_ ?_ ?_ hfresh,
      (Trans.publish hpub.fresh).after (fun b hb => ?_) hT, .loses (.inr rfl) hw.busy ?_ hpub.born, ?_⟩
    · rw [Mem.key, hr.entry.2.1, getKey_keyWord]
      exact hr.prev.2
    · exact Hand.ok_of_le (Multiset.le_add_left _ _)
    · rw [publish_hand_self, hword, own_of_ne hne]
      change own fres.cur + (p.addr ::ₘ fres.refs) = {p.addr} + (own fres.cur + fres.refs)
      rw [Multiset.singleton_add, Multiset.add_cons]
    · intro a q e
      cases e
    · intro b hb
      apply hpub.shape.hands.held i b
      rw [publish_hand_self]
      exact Multiset.mem_cons_of_mem hb
    · by_cases hb' : b = p.addr
      · subst hb'; exact publish_stage_self
      · rw [publish_stage_of_ne hb']; exact hb
    · rw [setHand_self, hw.hand]; rfl
    · rw [if_pos rfl]
      exact ⟨busy_next hw.busy (by simp), setHand_self _, hpub.mine⟩
  · rintro w ⟨hw, hr⟩ hI _
    have hpub := hr.publish hw hI
    refine ⟨_, hpub.shape, .publish hpub.fresh, .silent hw.busy ?_ hpub.born, ?_⟩
    · rw [publish_hand_self, hw.hand]; rfl
    · have hne : p.addr ≠ 0 := hI.shape.ne_zero (by rw [hpub.fresh]; trivial)
      rw [if_neg Bool.false_ne_true, own_of_ne hne, Multiset.singleton_add]
      exact ⟨busy_next hw.busy (by simp), publish_hand_self, hpub.mine⟩

/-- A store to the new entry. -/
theorem scribble_spec {R : Multiset Nat} {upd : Mem n → Mem n} (φ φ' : Entry → Prop) (hF : Steady R F) (hR : R ≤ h.refs)
    (hupd : ∀ s g, (g : Ghost n).stage p.addr = .fresh i → Scribble i p.addr g s (upd s))
    (hφ : ∀ s, φ (s.node p.addr).toEntry → φ' ((upd s).node p.addr).toEntry) :
    Spec pool first i (fun w => (Own i h (alone p.addr (.fresh i)) w ∧ F w) ∧ Wrote i p.addr φ w) (store upd)
      fun _ w => (Own i h (alone p.addr (.fresh i)) w ∧ F w) ∧ Wrote i p.addr φ' w := by
  apply Spec.step ((Still.own (hF.mono hR)).and (.wrote _ _)).stable
  rintro w ⟨⟨hw, hf⟩, howner, hφw⟩ hI
  have hscr := hupd w.mem w.ghost (hw.stage (Function.update_self ..))
  refine ⟨w.ghost, hscr.shape hI.shape, hscr.trans, .silent hw.busy rfl fun _ => Iff.rfl,
    ⟨⟨busy_next hw.busy (by simp), hw.hand, hw.mine⟩, ?_⟩, howner, hφ w.mem hφw⟩
  exact (hF.mono hR).step hf hscr.trans (by rw [hw.hand])

theorem prepare_spec {α : Type} {k : Ptr → Prog (Mem n) Ev α} {C : α → W n → Prop} (hinj : Function.Injective pool)
    (hz : ∀ k, pool k ≠ 0) (h0 : fres.prev ≠ .next 0) (fuel : Nat)
    (hk : ∀ p : Ptr, p.tag = false → Spec pool first i
      (fun w => Own i (readyHand fres p) (alone p.addr (.fresh i)) w ∧ Ready i key fres p w) (k p) C) :
    Spec pool first i (fun w => Own i (.of fres.refs) bare w ∧ PrevOk key.toInt fres.prev w ∧
        Placed (key.toInt < ·) fres.cur w)
      (do
        let newEntry ← newRC i fuel
        store (·.setKeyData newEntry.addr (keyWord key))
        store (·.setNext newEntry.addr fres.cur)
        safeReadLocal fres.cur none
        k newEntry) C := by
  have hsteady : Steady fres.refs fun w : W n => PrevOk key.toInt fres.prev w ∧ Placed (key.toInt < ·) fres.cur w :=
    steady_found h0 _
  apply Proto.Triple.bind (newRC_spec hinj hz le_rfl hsteady fuel)
  intro p
  apply Proto.Triple.fact (fun w hw => hw.1)
  intro htag
  have hle : fres.refs ≤ (Hand.of (p.addr ::ₘ fres.refs)).refs := Multiset.le_cons_self _ _
  have hnf : ∀ (g : Ghost n), g.stage p.addr = .fresh i → ∀ j, g.stage p.addr ≠ .free j := by
    intro g e j e'
    rw [e] at e'
    cases e'
  have hown : ∀ g : Ghost n, g.stage p.addr = .fresh i → (g.stage p.addr).owner = some i := by
    intro g e
    rw [e]; rfl
  apply Proto.Triple.bind
  · apply Proto.Triple.pre (scribble_spec (h := .of (p.addr ::ₘ fres.refs)) (fun _ => True)
      (fun e => e.keyData = keyWord key) hsteady hle
      (fun s g e => .setKeyData _ (hown g e) (hnf g e)) fun s _ => setKeyData_self _)
    rintro w ⟨-, hw, hf⟩
    exact ⟨⟨hw, hf⟩, hown _ (hw.stage (Function.update_self ..)), trivial⟩
  intro _
  apply Proto.Triple.bind
  · exact scribble_spec _ (fun e => e.keyData = keyWord key ∧ e.nextEntry = fres.cur) hsteady hle
      (fun s g e => .setNext _ (hown g e) (hnf g e)) fun s hs => ⟨setNext_keyData.trans hs, setNext_self⟩
  intro _
  apply Proto.Triple.bind
  · apply safeReadLocal_spec (B := Ready i key fres p) (l := none)
      (Hand.ok_of_le (Multiset.le_add_left _ _)) (.inl rfl) _
      ((Still.own (hsteady.mono hle)).and (.wrote p.addr _)).stable (fun w hw => hw.1.1)
    · intro w hw _ hn
      rw [(hw.1.2.2 hn).1]; trivial
    · rintro w w' ⟨⟨hw, hf⟩, howner, hφ⟩ - hc hstage hnode
      obtain ⟨hp, hk⟩ := hsteady.mono (hle.trans (Multiset.le_add_left _ _)) w w' hc hf
      refine ⟨⟨?_, ?_⟩, hp, hk⟩
      · rw [hstage]; exact howner
      · rw [hnode]; exact hφ
    · exact fun _ => ⟨rfl, fun w hw => ⟨hw.2, hw.1.2.1, hw.1.2.2⟩⟩
  intro _
  exact hk p htag

end Insert

/-- The releases at the end of `ListInsert`. -/
theorem releaseRest_spec {α : Type} (a : α) (fuel : Nat) (fres : ThreadLocal) :
    Spec pool first i (Own i (.of fres.refs) bare)
      (do
        release i fuel true fres.next
        release i fuel true fres.cur
        releasePrev i fuel fres.prev
        return a) fun r w => r = a ∧ Own i .empty bare w := by
  apply Proto.Triple.bind (B := fun _ w => Own i (.of (own fres.cur + (prevRef fres.prev + 0))) bare w ∧ True)
  · apply Proto.Triple.pre (release_held fuel fres.next (steady_const True))
    intro w hw
    rw [ThreadLocal.refs, add_left_comm] at hw
    exact ⟨hw, trivial⟩
  intro _
  apply Proto.Triple.bind (release_held fuel fres.cur (steady_const True))
  intro _
  apply Proto.Triple.bind (releasePrev_spec fuel fres.prev (steady_const True))
  intro _
  exact Proto.Triple.ret fun w hw => ⟨rfl, hw.1⟩

theorem listInsert_spec (hinj : Function.Injective pool) (hz : ∀ k, pool k ≠ 0) (fuel : Nat) (key data : CInt) :
    Spec pool first i (Own i .empty bare) (listInsert i fuel key data) fun _ => Own i .empty bare := by
  apply Proto.Triple.iter (J := fun _ => Own i .empty bare)
  intro _
  apply Proto.Triple.bind (find_spec fuel key)
  rintro ⟨found, fres⟩
  apply Proto.Triple.ite
  · intro _
    apply Proto.Triple.bind ((releaseAll_spec fuel fres).pre fun w hw => hw.1)
    intro _
    exact Proto.Triple.ret fun w hw => hw
  intro hfound
  have hfalse : found = false := Bool.eq_false_iff.2 hfound
  apply Proto.Triple.fact (fun w hw => And.intro hw.2.tag hw.2.ne_zero)
  rintro ⟨htag, h0⟩
  apply Proto.Triple.pre (prepare_spec hinj hz h0 fuel ?_)
  · rintro w ⟨hw, hf⟩
    refine ⟨hw, hf.prev, fun hn => ?_⟩
    exact ⟨(hf.cur hn).1, (hf.cur hn).2 hfalse⟩
  intro p hp
  apply Proto.Triple.bind (connect_spec htag hp h0)
  intro ok
  cases ok with
  | true =>
    simp only [if_true]
    apply Proto.Triple.bind (B := fun _ w => Own i (.of fres.refs) bare w ∧ True)
    · apply Proto.Triple.pre (release_spec (l := none) fuel false fres.cur (Hand.ok_of_le le_rfl) (steady_const True)
        bare_not_fresh)
      exact fun w hw => ⟨hw, trivial⟩
    intro _
    refine ((releaseRest_spec _ fuel fres).pre fun w hw => hw.1).post ?_
    rintro r w ⟨rfl, hw⟩
    exact hw
  | false =>
    simp only [Bool.false_eq_true, if_false]
    apply Proto.Triple.bind ((release_held fuel p (steady_const True)).pre fun w hw => ⟨hw, trivial⟩)
    intro _
    refine ((releaseRest_spec _ fuel fres).pre fun w hw => hw.1).post ?_
    rintro r w ⟨rfl, hw⟩
    exact hw

/-- The compare-and-swap of `ListDelete`: a mark moves no reference. -/
theorem mark_spec {fres : ThreadLocal} {φ : Int → Prop} (hcur : fres.cur.addr ≠ 0) (htag : fres.next.tag = false) :
    Spec pool first i (fun w => Own i (.of fres.refs) bare w ∧ Placed φ fres.cur w)
      (casWord (.next fres.cur.addr) fres.next (markDeleted fres.next) none) fun _ => Own i (.of fres.refs) bare := by
  have hsteady : Steady fres.refs (Placed (n := n) φ fres.cur) := steady_placed φ (le_left _ _)
  apply Spec.cas (Still.own hsteady).stable
  · rintro w ⟨hw, hk⟩ hI hword
    have hlive := (hk hcur).1
    have hl := hI.shape.net.next hlive
    have htag' : (w.mem.word (.next fres.cur.addr)).tag = false := by rw [hword]; exact htag
    have hT := Trans.setWord (p := markDeleted fres.next) (i := i) (h := .of fres.refs) hI.shape hl htag'
    refine ⟨_, hI.shape.setWord hl htag' (fun e => by cases e) (fun hn => ?_) (Hand.ok_of_le le_rfl) ?_ ?_ ?_
      (hw.not_fresh bare_not_fresh), hT, .silent hw.busy ?_ fun _ => Iff.rfl, hw.setHand (by simp)⟩
    · have htarget := hI.shape.net.target _ hl
      rw [hword] at htarget
      exact htarget hn
    · rw [hword, hw.hand]; rfl
    · intro a q e
      cases e
    · intro b hb
      have hheld := hI.shape.hands.held i b
      rw [hw.hand] at hheld
      exact hheld hb
    · rw [setHand_self, hw.hand]; rfl
  · rintro w hw hI _
    exact ⟨w.ghost, hI.shape, .refl .., .silent hw.1.busy rfl fun _ => Iff.rfl, (Own.silent hsteady hw).1⟩

theorem listDelete_spec (hashOp : Bool) (fuel : Nat) (key : CInt) :
    Spec pool first i (Own i .empty bare) (listDelete hashOp i fuel key) fun _ => Own i .empty bare := by
  have hall : ∀ {α : Type} (a : α) (fres : ThreadLocal), Spec pool first i (Own i (.of fres.refs) bare)
      (do releaseAll i fuel fres; return a) fun r w => r = a ∧ Own i .empty bare w := by
    intro α a fres
    apply Proto.Triple.bind (releaseAll_spec fuel fres)
    intro _
    exact Proto.Triple.ret fun w hw => ⟨rfl, hw⟩
  apply Proto.Triple.iter (J := fun _ => Own i .empty bare)
  intro _
  apply Proto.Triple.bind (find_spec fuel key)
  rintro ⟨found, fres⟩
  apply Proto.Triple.ite
  · intro _
    refine ((hall _ fres).pre fun w hw => hw.1).post ?_
    rintro r w ⟨rfl, hw⟩
    exact hw
  intro hfound
  have htrue : found = true := by simpa using hfound
  apply Proto.Triple.fact (fun w hw => hw.2.next htrue)
  rintro ⟨hcur, htag⟩
  apply Proto.Triple.bind ((mark_spec hcur htag).pre fun w hw => ⟨hw.1, hw.2.cur⟩)
  intro ok
  apply Proto.Triple.ite
  · intro _
    apply Proto.Triple.bind (releaseAll_spec fuel fres)
    intro _
    apply Proto.Triple.ite
    · intro _
      apply Proto.Triple.bind (find_spec fuel key)
      intro out
      refine ((hall _ out.2).pre fun w hw => hw.1).post ?_
      rintro r w ⟨rfl, hw⟩
      exact hw
    · intro _
      exact Proto.Triple.ret fun w hw => hw
  · intro _
    refine (hall _ fres).post ?_
    rintro r w ⟨rfl, hw⟩
    exact hw

theorem perform_spec (hinj : Function.Injective pool) (hz : ∀ k, pool k ≠ 0) (hashOp : Bool) (fuel : Nat) (op : Op) :
    Spec pool first i (Own i .empty bare) (perform hashOp i fuel op) fun _ => Own i .empty bare := by
  cases op with
  | insert key data => exact listInsert_spec hinj hz fuel key data
  | delete key => exact listDelete_spec hashOp fuel key
  | search key => exact listSearch_spec fuel key

theorem client_spec (hinj : Function.Injective pool) (hz : ∀ k, pool k ≠ 0) (hashOp : Bool) (fuel : Nat)
    (ops : List Op) :
    Spec pool first i (fun w => ¬ Busy i w.log) (client hashOp i fuel ops) fun _ w => ¬ Busy i w.log := by
  apply Proto.Triple.forEach (J := fun _ w => ¬ Busy i w.log)
  intro op _
  apply Proto.Triple.bind (B := fun _ => Own i .empty bare)
  · apply Spec.step
    · rintro j w w' hj - - ⟨-, r, hr, hlog⟩ hw
      rw [hlog, busy_cons_of_ne (by rw [hr]; exact hj)]
      exact hw
    · intro w hw hI
      obtain ⟨hhand, hmine⟩ := hI.idle i hw
      have hbusy : Busy i (w.next i (some (.call op)) w.mem w.ghost).log := by
        rw [World.next_log, Busy, if_pos rfl]
        trivial
      refine ⟨w.ghost, hI.shape, .refl .., ⟨fun a => ?_, fun a => ?_, by simp, fun h => absurd hbusy h⟩,
        hbusy, hhand, hmine⟩
      · exact (zero_add _).symm
      · simp
  intro _
  apply Proto.Triple.bind (perform_spec hinj hz hashOp fuel op)
  intro b
  apply Proto.Triple.pre (A := fun w => Own i .empty bare w ∧ True)
  · apply Spec.step (Still.own (steady_const True)).stable
    rintro w ⟨hw, -⟩ hI
    refine ⟨w.ghost, hI.shape, .refl .., ⟨fun a => ?_, fun a => ?_, by simp, fun _ => ⟨hw.hand, hw.mine⟩⟩, ?_⟩
    · exact (zero_add _).symm
    · simp
    · rw [Proto.wp_ret, World.next_log, Busy, if_pos rfl]
      exact id
  · exact fun w hw => ⟨hw, trivial⟩

end OptimisticAccess.RC
