import Mathlib.Tactic.Abel
import OptimisticAccess.RC.Counts

/-!
# The writing steps of the counted list

One lemma for each step of `refcount.c` and `lfl-RC.c` that writes: it keeps `Shape`, and it is a
`Trans`. A step that moves a reference between a word and a hand leaves `claims` as it is.
-/

namespace OptimisticAccess.RC

open Conc

variable {n : Nat} {pool : Nat → Nat} {s s' : Mem n} {g g' : Ghost n} {i j : Fin n} {a b : Nat}

/-- A step that changes the bookkeeping and then the memory. -/
theorem Trans.after {g₁ : Ghost n} (h₁ : Trans i s g s g₁) (hlive : ∀ b, g.stage b = .live → g₁.stage b = .live)
    (h₂ : Trans i s g₁ s' g') : Trans i s g s' g' := by
  constructor
  · intro j hj
    exact (h₂.hand j hj).trans (h₁.hand j hj)
  · exact h₂.freeList
  · intro j hj b hb
    obtain hb | hb := hb
    · have h := h₁.stage j hj b (.inl hb)
      exact (h₂.stage j hj b (.inl (by rw [h]; exact hb))).trans h
    · have h := h₂.stage j hj b (.inr hb)
      exact h.trans (h₁.stage j hj b (.inr (by rw [← h]; exact hb)))
  · intro j hj b hb
    exact h₂.node j hj b (by rw [h₁.stage j hj b (.inl hb)]; exact hb)
  · intro b hb
    exact h₂.born b (h₁.born b hb)
  · intro b hb
    exact h₂.keep b (hlive b hb)

/-! ## Counting up and down -/

/-- Steps that leave the words and the stages alone change one hand and one count. -/
theorem Trans.count (i : Fin n) (a : Nat) (r : Int) (h : Hand) :
    Trans i s g (s.setRefcount a r) (g.setHand i h) := by
  constructor
  · intro j hj
    exact setHand_of_ne h hj
  · intro j _
    rfl
  · intro j _ b _
    rfl
  · intro j _ b _
    exact setRefcount_toEntry r
  · intro b hb
    exact hb
  · intro b hb
    refine .inl ⟨hb, ?_, fun _ => ?_⟩
    · exact congrArg Entry.keyData (setRefcount_toEntry r)
    · exact congrArg Entry.nextEntry (setRefcount_toEntry r)

theorem Net.count (h : Net s g) (r : Int) (hand : Hand) : Net (s.setRefcount a r) (g.setHand i hand) :=
  h.frame rfl (fun _ => Iff.rfl) (fun _ _ => setRefcount_word r)
    fun _ _ => congrArg Entry.keyData (setRefcount_toEntry r)

theorem Frees.count (h : Frees s g) (r : Int) (hand : Hand) :
    Frees (s.setRefcount a r) (g.setHand i hand) :=
  h.frame rfl rfl (fun _ _ _ => congrArg Entry.nextEntry (setRefcount_toEntry r)) fun _ _ => Iff.rfl

theorem Hands.count (hs : Hands s g) {h : Hand} (hok : h.Ok) (r : Int)
    (hlent : h.lent = none ∨ h.lent = (g.hand i).lent) (hheld : ∀ b ∈ h.held, (g.stage b).Held i) :
    Hands (s.setRefcount a r) (g.setHand i h) := by
  constructor
  · intro j
    by_cases hj : j = i
    · subst hj; rw [setHand_self]; exact hok
    · rw [setHand_of_ne h hj]; exact hs.ok j
  · intro j b q hb
    have hold : (g.hand j).lent = some (b, q) := by
      by_cases hj : j = i
      · subst hj
        rw [setHand_self] at hb
        obtain hn | hl := hlent
        · rw [hn] at hb; cases hb
        · rw [← hl]; exact hb
      · rwa [setHand_of_ne h hj] at hb
    obtain ⟨h1, h2, h3⟩ := hs.lent j b q hold
    exact ⟨h1, (congrArg Entry.nextEntry (setRefcount_toEntry r)).trans h2, h3⟩
  · intro j b hb
    by_cases hj : j = i
    · subst hj
      rw [setHand_self] at hb
      exact hheld b hb
    · rw [setHand_of_ne h hj] at hb
      exact hs.held j b hb

/-- `__sync_fetch_and_add(&a->refcount, 2L)`. -/
theorem Shape.addRef (hs : Shape pool s g) (ha : (g.stage a).Born) {h : Hand} (hok : h.Ok)
    (hrefs : h.refs = a ::ₘ (g.hand i).refs) (hlent : h.lent = none ∨ h.lent = (g.hand i).lent)
    (hheld : ∀ b ∈ h.held, (g.stage b).Held i) :
    Shape pool (s.setRefcount a ((s.node a).refcount + 2)) (g.setHand i h) := by
  have hclaims : claims (s.setRefcount a ((s.node a).refcount + 2)) (g.setHand i h) = a ::ₘ claims s g := by
    have hmove := claims_hand s (s.setRefcount a ((s.node a).refcount + 2)) g (g.setHand i h) i
      rfl (fun _ _ => setRefcount_word _) fun j hj => setHand_of_ne h hj
    rw [setHand_self, hrefs, Multiset.cons_add, ← Multiset.add_cons] at hmove
    exact add_left_cancel hmove
  refine ⟨hs.net.count _ h, ⟨?_, ?_, ?_, ?_⟩, hs.hands.count hok _ hlent hheld, hs.frees.count _ h,
    hs.supply.frame rfl rfl fun _ hb => hb⟩
  · intro b hb
    have hcount := hs.counted.count b hb
    rw [hclaims]
    by_cases hba : b = a
    · subst hba
      rw [setRefcount_self, hcount, Multiset.count_cons_self]
      change _ = _ + (g.stage b).bit
      omega
    · rw [setRefcount_of_ne _ hba, hcount, Multiset.count_cons_of_ne hba]
      rfl
  · intro b hb
    rw [hclaims]
    exact Multiset.mem_cons_of_mem (hs.counted.live b hb)
  · intro b j hb
    have hbj := hs.counted.fresh b j hb
    by_cases hj : j = i
    · subst hj; rw [setHand_self, hrefs]; exact Multiset.mem_cons_of_mem hbj
    · rwa [setHand_of_ne h hj]
  · intro j b hb
    by_cases hj : j = i
    · subst hj
      rw [setHand_self, hrefs] at hb
      obtain rfl | hb := Multiset.mem_cons.1 hb
      · exact ha
      · exact hs.counted.born j b hb
    · rw [setHand_of_ne h hj] at hb
      exact hs.counted.born j b hb

/-- What a hand holds on to may change while its references do not. -/
theorem Shape.rehand (hs : Shape pool s g) {h : Hand} (hok : h.Ok) (hrefs : h.refs = (g.hand i).refs)
    (hlent : h.lent = none ∨ h.lent = (g.hand i).lent) (hheld : ∀ b ∈ h.held, (g.stage b).Held i) :
    Shape pool s (g.setHand i h) := by
  have hsame : s.setRefcount 0 (s.node 0).refcount = s := by
    unfold Mem.setRefcount Mem.setNode
    rw [Function.update_eq_self]
  have hrefs' : ∀ j, ((g.setHand i h).hand j).refs = (g.hand j).refs := by
    intro j
    by_cases hj : j = i
    · subst hj; rw [setHand_self, hrefs]
    · rw [setHand_of_ne h hj]
  have hclaims : claims s (g.setHand i h) = claims s g := by
    unfold claims
    simp only [hrefs']
    rfl
  have hnet := hs.net.count (a := 0) (i := i) (s.node 0).refcount h
  have hfrees := hs.frees.count (a := 0) (i := i) (s.node 0).refcount h
  have hhands := hs.hands.count (a := 0) hok (s.node 0).refcount hlent hheld
  rw [hsame] at hnet hfrees hhands
  refine ⟨hnet, ⟨fun b hb => ?_, fun b hb => ?_, fun b j hb => ?_, fun j b hb => ?_⟩, hhands, hfrees,
    hs.supply.frame rfl rfl fun _ hb => hb⟩
  · rw [hclaims]; exact hs.counted.count b hb
  · rw [hclaims]; exact hs.counted.live b hb
  · rw [hrefs']; exact hs.counted.fresh b j hb
  · rw [hrefs'] at hb; exact hs.counted.born j b hb

theorem Trans.rehand (h : Hand) : Trans i s g s (g.setHand i h) :=
  ⟨fun _ hj => setHand_of_ne h hj, fun _ _ => rfl, fun _ _ _ _ => rfl, fun _ _ _ _ => rfl, fun _ hb => hb,
    fun _ hb => .inl ⟨hb, rfl, fun _ => rfl⟩⟩

/-- A decrement that leaves the entry where it is. -/
theorem Shape.dropRef (hs : Shape pool s g) {h : Hand} (hok : h.Ok) (hrefs : (g.hand i).refs = a ::ₘ h.refs)
    (hlent : h.lent = (g.hand i).lent) (hheld : h.held ≤ (g.hand i).held)
    (hfresh : ∀ b, g.stage b ≠ .fresh i) (hr : (s.node a).refcount ≠ 2) :
    Shape pool (s.setRefcount a ((s.node a).refcount - 2)) (g.setHand i h) := by
  have hclaims : claims s g = a ::ₘ claims (s.setRefcount a ((s.node a).refcount - 2)) (g.setHand i h) := by
    have hmove := claims_hand s (s.setRefcount a ((s.node a).refcount - 2)) g (g.setHand i h) i
      rfl (fun _ _ => setRefcount_word _) fun j hj => setHand_of_ne h hj
    rw [setHand_self, hrefs, Multiset.cons_add, ← Multiset.add_cons] at hmove
    exact (add_left_cancel hmove).symm
  refine ⟨hs.net.count _ h, ⟨?_, ?_, ?_, ?_⟩,
    hs.hands.count hok _ (.inr hlent) fun b hb => hs.hands.held i b (Multiset.mem_of_le hheld hb),
    hs.frees.count _ h, hs.supply.frame rfl rfl fun _ hb => hb⟩
  · intro b hb
    have hcount := hs.counted.count b hb
    rw [hclaims] at hcount
    by_cases hba : b = a
    · subst hba
      rw [Multiset.count_cons_self] at hcount
      rw [setRefcount_self]
      change _ = _ + (g.stage b).bit
      omega
    · rw [Multiset.count_cons_of_ne hba] at hcount
      rw [setRefcount_of_ne _ hba, hcount]
      rfl
  · intro b hb
    have hmem := hs.counted.live b hb
    rw [hclaims] at hmem
    obtain rfl | hmem := Multiset.mem_cons.1 hmem
    · change g.stage b = .live at hb
      have hcount := hs.counted.count b (by rw [hb]; trivial)
      rw [hb, hclaims, Multiset.count_cons_self] at hcount
      simp only [Stage.bit] at hcount
      exact Multiset.count_pos.1 (by omega)
    · exact hmem
  · intro b j hb
    by_cases hj : j = i
    · exact absurd (hj ▸ hb) (hfresh b)
    · rw [setHand_of_ne h hj]
      exact hs.counted.fresh b j hb
  · intro j b hb
    by_cases hj : j = i
    · subst hj
      rw [setHand_self] at hb
      exact hs.counted.born j b (by rw [hrefs]; exact Multiset.mem_cons_of_mem hb)
    · rw [setHand_of_ne h hj] at hb
      exact hs.counted.born j b hb

/-! ## The last reference -/

/-- The entry dies with its only reference; the count of its link goes to thread `i`. -/
def Ghost.bury (g : Ghost n) (i : Fin n) (a : Nat) (h : Hand) : Ghost n :=
  { (g.setStage a (.dead i)).setHand i h with locs := g.locs.erase (.next a) }

section Bury

variable {h : Hand} {R : Multiset Nat}

@[simp] theorem bury_hand_self : (g.bury i a h).hand i = h := setHand_self (g := g) h

theorem bury_hand_of_ne (hj : j ≠ i) : (g.bury i a h).hand j = g.hand j := setHand_of_ne (g := g) h hj

@[simp] theorem bury_stage_self : (g.bury i a h).stage a = .dead i := setStage_self _

theorem bury_stage_of_ne (hb : b ≠ a) : (g.bury i a h).stage b = g.stage b := setStage_of_ne _ hb

theorem bury_live : (g.bury i a h).stage b = .live ↔ b ≠ a ∧ g.stage b = .live := by
  by_cases hb : b = a
  · subst hb; simp
  · simp [bury_stage_of_ne hb, hb]

theorem bury_born (hb : (g.stage b).Born) : ((g.bury i a h).stage b).Born := by
  by_cases hba : b = a
  · subst hba; rw [bury_stage_self]; trivial
  · rwa [bury_stage_of_ne hba]

/-- No hand refers to the entry any more. -/
theorem Sole.gone (hs : Shape pool s g) (hsole : Sole s g i a) (hold : (g.hand i).refs = a ::ₘ R)
    (hrefs : h.refs = own (s.node a).nextEntry + R) (j : Fin n) : a ∉ ((g.bury i a h).hand j).refs := by
  by_cases hj : j = i
  · subst hj
    have honce := hsole.once
    rw [hold, Multiset.count_cons_self] at honce
    rw [bury_hand_self, hrefs, Multiset.mem_add]
    exact not_or.2 ⟨hsole.word _ (hs.net.next hsole.live), Multiset.count_eq_zero.1 (by omega)⟩
  · rw [bury_hand_of_ne hj]
    exact hsole.hand j hj

theorem claims_bury (hloc : Loc.next a ∈ g.locs) (hold : (g.hand i).refs = a ::ₘ R)
    (hrefs : h.refs = own (s.node a).nextEntry + R) (r : Int) :
    claims s g = a ::ₘ claims (s.setRefcount a r) (g.bury i a h) := by
  have hwords : own (s.node a).nextEntry + ∑ l ∈ g.locs.erase (.next a), own (s.word l) =
      ∑ l ∈ g.locs, own (s.word l) := Finset.add_sum_erase g.locs (fun l => own (s.word l)) hloc
  have hhands := Holdings.sum_change (fun j => (g.hand j).refs)
    (fun j => ((g.bury i a h).hand j).refs) (Finset.mem_univ i)
    fun j _ hj => congrArg Hand.refs (bury_hand_of_ne hj)
  simp only [bury_hand_self, hold, hrefs, Multiset.cons_add] at hhands
  have hsum : ∑ j, (g.hand j).refs + own (s.node a).nextEntry = a ::ₘ ∑ j, ((g.bury i a h).hand j).refs := by
    apply add_left_cancel (a := R)
    rw [Multiset.add_cons, hhands]
    abel
  unfold claims
  simp only [setRefcount_word]
  change _ = a ::ₘ (∑ l ∈ g.locs.erase (.next a), own (s.word l) + _)
  rw [← Multiset.add_cons, ← hsum, ← hwords]
  abel

theorem Net.bury (h' : Net s g) (hsole : Sole s g i a) (r : Int) : Net (s.setRefcount a r) (g.bury i a h) := by
  constructor
  · intro l
    change l ∈ g.locs.erase (.next a) ↔ _
    rw [Finset.mem_erase, h'.mem_locs]
    cases l with
    | head => simp [Ghost.Counts]
    | next b => simp [Ghost.Counts, bury_live]
  · exact h'.headTag
  · intro l hl h0
    rw [setRefcount_word] at h0 ⊢
    have hl' := Finset.mem_of_mem_erase hl
    obtain ⟨h1, h2⟩ := h'.target l hl' h0
    refine ⟨bury_live.2 ⟨fun e => hsole.word l hl' (mem_own.2 ⟨e.symm, h0⟩), h1⟩, ?_⟩
    cases l with
    | head => trivial
    | next b => simpa only [Below, Mem.key, setRefcount_toEntry] using h2

theorem Counted.bury (hs : Shape pool s g) (hsole : Sole s g i a) (hold : (g.hand i).refs = a ::ₘ R)
    (hrefs : h.refs = own (s.node a).nextEntry + R) (hfresh : ∀ b, g.stage b ≠ .fresh i) :
    Counted (s.setRefcount a 1) (g.bury i a h) := by
  have hloc := hs.net.next hsole.live
  have hclaims := claims_bury hloc hold hrefs 1
  constructor
  · intro b hb
    by_cases hba : b = a
    · subst hba
      have hone := hsole.count
      rw [hclaims, Multiset.count_cons_self] at hone
      rw [setRefcount_self, bury_stage_self]
      simp only [Stage.bit]
      omega
    · rw [bury_stage_of_ne hba] at hb ⊢
      rw [setRefcount_of_ne _ hba, hs.counted.count b hb, hclaims, Multiset.count_cons_of_ne hba]
  · intro b hb
    obtain ⟨hba, hb⟩ := bury_live.1 hb
    have hmem := hs.counted.live b hb
    rw [hclaims] at hmem
    exact (Multiset.mem_cons.1 hmem).resolve_left hba
  · intro b j hb
    have hba : b ≠ a := by rintro rfl; rw [bury_stage_self] at hb; cases hb
    rw [bury_stage_of_ne hba] at hb
    have hj : j ≠ i := by rintro rfl; exact hfresh b hb
    rw [bury_hand_of_ne hj]
    exact hs.counted.fresh b j hb
  · intro j b hb
    apply bury_born
    by_cases hj : j = i
    · subst hj
      rw [bury_hand_self, hrefs] at hb
      obtain hb | hb := Multiset.mem_add.1 hb
      · rw [hs.live_of_word hloc hb]; trivial
      · exact hs.counted.born j b (by rw [hold]; exact Multiset.mem_cons_of_mem hb)
    · rw [bury_hand_of_ne hj] at hb
      exact hs.counted.born j b hb

/-- What is held is referred to, by the hand or by a counted word. -/
theorem Shape.mem_of_held (hs : Shape pool s g) (hb : b ∈ (g.hand j).held) :
    b ∈ (g.hand j).refs ∨ ∃ l ∈ g.locs, b ∈ own (s.word l) := by
  obtain hmem | hmem := Multiset.mem_add.1 (Multiset.mem_of_le (hs.hands.ok j).held hb)
  · exact .inl hmem
  · unfold Hand.loan at hmem
    split at hmem
    · exact absurd hmem (Multiset.notMem_zero b)
    · next c q hl =>
      obtain rfl := Multiset.mem_singleton.1 hmem
      obtain ⟨hc, hnext, h0⟩ := hs.hands.lent j c b hl
      exact .inr ⟨_, hs.net.next hc, mem_own.2 (by rw [Mem.word, hnext]; exact ⟨rfl, h0⟩)⟩

theorem Hands.bury (hs : Shape pool s g) (hsole : Sole s g i a) (hok : h.Ok)
    (hold : (g.hand i).refs = a ::ₘ R) (hrefs : h.refs = own (s.node a).nextEntry + R)
    (hlent : h.lent = (g.hand i).lent) (hheld : h.held ≤ (g.hand i).held) :
    Hands (s.setRefcount a 1) (g.bury i a h) := by
  have hgone := hsole.gone (h := h) hs hold hrefs
  have hall : ∀ j, ((g.bury i a h).hand j).Ok ∧ ((g.bury i a h).hand j).lent = (g.hand j).lent := by
    intro j
    by_cases hj : j = i
    · subst hj
      rw [bury_hand_self]; exact ⟨hok, hlent⟩
    · rw [bury_hand_of_ne hj]; exact ⟨hs.hands.ok j, rfl⟩
  constructor
  · intro j
    exact (hall j).1
  · intro j b q hb
    have hba : b ≠ a := by rintro rfl; exact hgone j ((hall j).1.lender b q hb)
    rw [(hall j).2] at hb
    obtain ⟨h1, h2, h3⟩ := hs.hands.lent j b q hb
    exact ⟨bury_live.2 ⟨hba, h1⟩, (congrArg Entry.nextEntry (setRefcount_toEntry 1)).trans h2, h3⟩
  · intro j b hb
    by_cases hj : j = i
    · subst hj
      rw [bury_hand_self] at hb
      by_cases hba : b = a
      · subst hba; rw [bury_stage_self]; rfl
      · rw [bury_stage_of_ne hba]; exact hs.hands.held j b (Multiset.mem_of_le hheld hb)
    · rw [bury_hand_of_ne hj] at hb
      have hba : b ≠ a := by
        rintro rfl
        obtain hmem | ⟨l, hl, hmem⟩ := hs.mem_of_held hb
        · exact hsole.hand j hj hmem
        · exact hsole.word l hl hmem
      rw [bury_stage_of_ne hba]
      exact hs.hands.held j b hb

theorem Trans.bury (hs : Shape pool s g) (hsole : Sole s g i a) (hold : (g.hand i).refs = a ::ₘ R)
    (hrefs : h.refs = own (s.node a).nextEntry + R) : Trans i s g (s.setRefcount a 1) (g.bury i a h) := by
  constructor
  · intro j hj
    exact bury_hand_of_ne hj
  · intro j _
    rfl
  · intro j hj b hb
    by_cases hba : b = a
    · subst hba
      rw [bury_stage_self, hsole.live] at hb
      obtain hb | hb := hb
      · cases hb
      · exact absurd (Option.some.inj hb).symm hj
    · exact bury_stage_of_ne hba
  · intro j _ b _
    exact setRefcount_toEntry 1
  · intro b hb
    exact bury_born hb
  · intro b hb
    by_cases hba : b = a
    · subst hba; exact .inr (hsole.gone hs hold hrefs)
    · exact .inl ⟨bury_live.2 ⟨hba, hb⟩, congrArg Entry.keyData (setRefcount_toEntry 1),
        fun _ => congrArg Entry.nextEntry (setRefcount_toEntry 1)⟩

/-- The decrement that sets the lowest bit. -/
theorem Shape.bury (hs : Shape pool s g) (hsole : Sole s g i a) (hok : h.Ok)
    (hold : (g.hand i).refs = a ::ₘ R) (hrefs : h.refs = own (s.node a).nextEntry + R)
    (hlent : h.lent = (g.hand i).lent) (hheld : h.held ≤ (g.hand i).held) (hfresh : ∀ b, g.stage b ≠ .fresh i) :
    Shape pool (s.setRefcount a 1) (g.bury i a h) := by
  refine ⟨hs.net.bury hsole 1, .bury hs hsole hold hrefs hfresh, .bury hs hsole hok hold hrefs hlent hheld, ?_, ?_⟩
  · refine hs.frees.frame rfl rfl (fun _ _ _ => congrArg Entry.nextEntry (setRefcount_toEntry 1)) fun j b => ?_
    by_cases hba : b = a
    · subst hba; simp [hsole.live]
    · rw [bury_stage_of_ne hba]
  · refine hs.supply.frame rfl rfl fun b hb => ?_
    rwa [bury_stage_of_ne (by rintro rfl; rw [hsole.live] at hb; cases hb)]

end Bury

/-! ## Compare-and-swaps on counted words -/

section Words

variable {l : Loc} {p : Ptr} {h : Hand}

theorem Trans.setWord (hs : Shape pool s g) (hl : l ∈ g.locs) (htag : (s.word l).tag = false) :
    Trans i s g (s.setWord l p) (g.setHand i h) := by
  have hcounts := (hs.net.mem_locs l).1 hl
  constructor
  · intro j hj
    exact setHand_of_ne h hj
  · intro j _
    rw [setWord_freeList]
  · intro j _ b _
    rfl
  · intro j _ b hb
    cases l with
    | head => rfl
    | next c =>
      have hbc : b ≠ c := by
        rintro rfl
        rw [show g.stage b = .live from hcounts] at hb
        cases hb
      exact congrArg Node.toEntry (setNext_of_ne hbc)
  · intro b hb
    exact hb
  · intro b hb
    refine .inl ⟨hb, setWord_keyData, fun ht => ?_⟩
    refine setWord_word_of_ne (.next b) ?_
    rintro rfl
    rw [Mem.word, ht] at htag
    cases htag

/-- A compare-and-swap on a counted word without a mark. The reference it takes out of the word
and the one it puts in are accounted for in the hand of thread `i`. -/
theorem Shape.setWord (hs : Shape pool s g) (hl : l ∈ g.locs) (htag : (s.word l).tag = false)
    (hp : l = .head → p.tag = false)
    (htarget : p.addr ≠ 0 → g.stage p.addr = .live ∧ Below s l (s.key p.addr)) (hok : h.Ok)
    (hmove : own (s.word l) + (g.hand i).refs = own p + h.refs)
    (hlent : ∀ a q, h.lent = some (a, q) → g.stage a = .live ∧ (s.node a).nextEntry = ⟨q, true⟩ ∧ q ≠ 0)
    (hheld : ∀ b ∈ h.held, (g.stage b).Held i) (hfresh : ∀ b, g.stage b ≠ .fresh i) :
    Shape pool (s.setWord l p) (g.setHand i h) := by
  have hkey : ∀ b, (s.setWord l p).key b = s.key b := fun b => by rw [Mem.key, setWord_keyData]; rfl
  have hbelow : ∀ l' k, Below (s.setWord l p) l' k ↔ Below s l' k := by
    intro l' k
    cases l' with
    | head => exact Iff.rfl
    | next b => rw [Below, Below, hkey]
  have hclaims : claims (s.setWord l p) (g.setHand i h) = claims s g := by
    have hm := claims_move s (s.setWord l p) g (g.setHand i h) i hl rfl
      (fun l' _ hne => setWord_word_of_ne l' hne) fun j hj => setHand_of_ne h hj
    rw [setWord_word, setHand_self, hmove] at hm
    exact add_left_cancel hm
  have hmarked : ∀ b q, (s.node b).nextEntry = ⟨q, true⟩ → ((s.setWord l p).node b).nextEntry = ⟨q, true⟩ := by
    intro b q hb
    refine (setWord_word_of_ne (.next b) ?_).trans hb
    rintro rfl
    rw [Mem.word, hb] at htag
    cases htag
  refine ⟨⟨hs.net.mem_locs, ?_, ?_⟩, ⟨?_, ?_, ?_, ?_⟩, ⟨?_, ?_, ?_⟩, ?_,
    hs.supply.frame setWord_pool setWord_brk fun _ hb => hb⟩
  · cases l with
    | head => exact hp rfl
    | next b => exact hs.net.headTag
  · intro l' hl' h0
    rw [hbelow]
    by_cases hne : l' = l
    · subst hne
      rw [setWord_word] at h0 ⊢
      rw [hkey]
      exact htarget h0
    · rw [setWord_word_of_ne l' hne] at h0 ⊢
      rw [hkey]
      exact hs.net.target l' hl' h0
  · intro b hb
    rw [hclaims, setWord_refcount]
    exact hs.counted.count b hb
  · intro b hb
    rw [hclaims]
    exact hs.counted.live b hb
  · intro b j hb
    have hj : j ≠ i := by rintro rfl; exact hfresh b hb
    rw [setHand_of_ne h hj]
    exact hs.counted.fresh b j hb
  · intro j b hb
    by_cases hj : j = i
    · subst hj
      rw [setHand_self] at hb
      have hmem : b ∈ own (s.word l) + (g.hand j).refs := by
        rw [hmove]; exact Multiset.mem_add.2 (.inr hb)
      obtain hmem | hmem := Multiset.mem_add.1 hmem
      · change (g.stage b).Born
        rw [hs.live_of_word hl hmem]; trivial
      · exact hs.counted.born j b hmem
    · rw [setHand_of_ne h hj] at hb
      exact hs.counted.born j b hb
  · intro j
    by_cases hj : j = i
    · subst hj; rw [setHand_self]; exact hok
    · rw [setHand_of_ne h hj]; exact hs.hands.ok j
  · intro j b q hb
    have hold : g.stage b = .live ∧ (s.node b).nextEntry = ⟨q, true⟩ ∧ q ≠ 0 := by
      by_cases hj : j = i
      · subst hj
        rw [setHand_self] at hb
        exact hlent b q hb
      · rw [setHand_of_ne h hj] at hb
        exact hs.hands.lent j b q hb
    exact ⟨hold.1, hmarked b q hold.2.1, hold.2.2⟩
  · intro j b hb
    by_cases hj : j = i
    · subst hj
      rw [setHand_self] at hb
      exact hheld b hb
    · rw [setHand_of_ne h hj] at hb
      exact hs.hands.held j b hb
  · refine hs.frees.frame rfl setWord_freeList (fun j b hb => ?_) fun _ _ => Iff.rfl
    refine setWord_word_of_ne (.next b) ?_
    rintro rfl
    have hlive : g.stage b = .live := (hs.net.mem_locs _).1 hl
    rw [hb] at hlive
    cases hlive

end Words

/-! ## A new entry starts to count -/

/-- Thread `i` gives the count of its new entry's link away, so the link counts. -/
def Ghost.publish (g : Ghost n) (i : Fin n) (a : Nat) (h : Hand) : Ghost n :=
  { (g.setStage a .live).setHand i h with locs := insert (.next a) g.locs }

section Publish

variable {h : Hand}

@[simp] theorem publish_hand_self : (g.publish i a h).hand i = h := setHand_self (g := g) h

theorem publish_hand_of_ne (hj : j ≠ i) : (g.publish i a h).hand j = g.hand j := setHand_of_ne (g := g) h hj

@[simp] theorem publish_stage_self : (g.publish i a h).stage a = .live := setStage_self _

theorem publish_stage_of_ne (hb : b ≠ a) : (g.publish i a h).stage b = g.stage b := setStage_of_ne _ hb

theorem claims_publish (hloc : Loc.next a ∉ g.locs)
    (hmove : (g.hand i).refs = own (s.node a).nextEntry + h.refs) : claims s (g.publish i a h) = claims s g := by
  have hwords : ∑ l ∈ insert (.next a) g.locs, own (s.word l) =
      own (s.node a).nextEntry + ∑ l ∈ g.locs, own (s.word l) := Finset.sum_insert hloc
  have hhands := Holdings.sum_change (fun j => (g.hand j).refs)
    (fun j => ((g.publish i a h).hand j).refs) (Finset.mem_univ i)
    fun j _ hj => congrArg Hand.refs (publish_hand_of_ne hj)
  simp only [publish_hand_self, hmove] at hhands
  have hsum : own (s.node a).nextEntry + ∑ j, ((g.publish i a h).hand j).refs = ∑ j, (g.hand j).refs := by
    apply add_left_cancel (a := h.refs)
    rw [← hhands]
    abel
  unfold claims
  change ∑ l ∈ insert (.next a) g.locs, own (s.word l) + _ = _
  rw [hwords, ← hsum]
  abel

theorem Shape.publish (hs : Shape pool s g) (ha : g.stage a = .fresh i) (honly : ∀ b, g.stage b = .fresh i → b = a)
    (hok : h.Ok) (hmove : (g.hand i).refs = own (s.node a).nextEntry + h.refs) (hmem : a ∈ h.refs)
    (htarget : (s.node a).nextEntry.addr ≠ 0 →
      g.stage (s.node a).nextEntry.addr = .live ∧ s.key a < s.key (s.node a).nextEntry.addr)
    (hlent : h.lent = none) (hheld : h.held ≤ (g.hand i).held) : Shape pool s (g.publish i a h) := by
  have hloc : Loc.next a ∉ g.locs := by
    rw [hs.net.mem_locs, Ghost.Counts, ha]
    intro e
    cases e
  have hclaims := claims_publish (s := s) hloc hmove
  have hlive : ∀ b, (g.publish i a h).stage b = .live ↔ b = a ∨ g.stage b = .live := by
    intro b
    by_cases hb : b = a
    · subst hb; simp
    · simp [publish_stage_of_ne hb, hb]
  have hborn : ∀ b, ((g.publish i a h).stage b).Born ↔ (g.stage b).Born := by
    intro b
    by_cases hb : b = a
    · subst hb; rw [publish_stage_self, ha]; exact Iff.rfl
    · rw [publish_stage_of_ne hb]
  refine ⟨⟨?_, hs.net.headTag, ?_⟩, ⟨?_, ?_, ?_, ?_⟩, ⟨?_, ?_, ?_⟩, ?_, ?_⟩
  · intro l
    change l ∈ insert (.next a) g.locs ↔ _
    rw [Finset.mem_insert, hs.net.mem_locs]
    cases l with
    | head => simp [Ghost.Counts]
    | next b => simp [Ghost.Counts, hlive]
  · intro l hl h0
    rw [hlive]
    obtain rfl | hl := Finset.mem_insert.1 hl
    · exact ⟨.inr (htarget h0).1, (htarget h0).2⟩
    · exact ⟨.inr (hs.net.target l hl h0).1, (hs.net.target l hl h0).2⟩
  · intro b hb
    rw [hclaims, hs.counted.count b ((hborn b).1 hb)]
    by_cases hba : b = a
    · subst hba; rw [publish_stage_self, ha]; rfl
    · rw [publish_stage_of_ne hba]
  · intro b hb
    rw [hclaims]
    obtain rfl | hb := (hlive b).1 hb
    · exact mem_claims.2 (.inr ⟨i, hs.counted.fresh b i ha⟩)
    · exact hs.counted.live b hb
  · intro b j hb
    have hba : b ≠ a := by rintro rfl; rw [publish_stage_self] at hb; cases hb
    rw [publish_stage_of_ne hba] at hb
    have hj : j ≠ i := by rintro rfl; exact hba (honly b hb)
    rw [publish_hand_of_ne hj]
    exact hs.counted.fresh b j hb
  · intro j b hb
    rw [hborn]
    by_cases hj : j = i
    · subst hj
      rw [publish_hand_self] at hb
      exact hs.counted.born j b (by rw [hmove]; exact Multiset.mem_add.2 (.inr hb))
    · rw [publish_hand_of_ne hj] at hb
      exact hs.counted.born j b hb
  · intro j
    by_cases hj : j = i
    · subst hj; rw [publish_hand_self]; exact hok
    · rw [publish_hand_of_ne hj]; exact hs.hands.ok j
  · intro j b q hb
    by_cases hj : j = i
    · subst hj
      rw [publish_hand_self, hlent] at hb
      cases hb
    · rw [publish_hand_of_ne hj] at hb
      obtain ⟨h1, h2, h3⟩ := hs.hands.lent j b q hb
      exact ⟨(hlive b).2 (.inr h1), h2, h3⟩
  · intro j b hb
    have hold : (g.stage b).Held j := by
      by_cases hj : j = i
      · subst hj
        rw [publish_hand_self] at hb
        exact hs.hands.held j b (Multiset.mem_of_le hheld hb)
      · rw [publish_hand_of_ne hj] at hb
        exact hs.hands.held j b hb
    by_cases hba : b = a
    · subst hba; rw [publish_stage_self]; trivial
    · rwa [publish_stage_of_ne hba]
  · refine hs.frees.frame rfl rfl (fun _ _ _ => rfl) fun j b => ?_
    by_cases hba : b = a
    · subst hba; simp [ha]
    · rw [publish_stage_of_ne hba]
  · refine hs.supply.frame rfl rfl fun b hb => ?_
    rwa [publish_stage_of_ne (by rintro rfl; rw [ha] at hb; cases hb)]

theorem Trans.publish (ha : g.stage a = .fresh i) : Trans i s g s (g.publish i a h) := by
  constructor
  · intro j hj
    exact publish_hand_of_ne hj
  · intro j _
    rfl
  · intro j hj b hb
    by_cases hba : b = a
    · subst hba
      rw [publish_stage_self, ha] at hb
      obtain hb | hb := hb
      · exact absurd (Option.some.inj hb).symm hj
      · cases hb
    · exact publish_stage_of_ne hba
  · intro j _ b _
    rfl
  · intro b hb
    by_cases hba : b = a
    · subst hba; rw [publish_stage_self]; trivial
    · rwa [publish_stage_of_ne hba]
  · intro b hb
    have hba : b ≠ a := by rintro rfl; rw [ha] at hb; cases hb
    exact .inl ⟨by rwa [publish_stage_of_ne hba], rfl, fun _ => rfl⟩

end Publish

/-! ## Entries of one thread -/

/-- A write to an entry that is thread `i`'s own and on no free list. -/
structure Scribble (i : Fin n) (a : Nat) (g : Ghost n) (s s' : Mem n) : Prop where
  owner : (g.stage a).owner = some i
  notFree : ∀ j, g.stage a ≠ .free j
  node : ∀ b, b ≠ a → s'.node b = s.node b
  refcount : (s'.node a).refcount = (s.node a).refcount
  entryHead : s'.entryHead = s.entryHead
  freeList : s'.freeList = s.freeList
  pool : s'.pool = s.pool
  brk : s'.brk = s.brk

theorem Scribble.setKeyData (kd : BitVec 64) (ha : (g.stage a).owner = some i) (hf : ∀ j, g.stage a ≠ .free j) :
    Scribble i a g s (s.setKeyData a kd) :=
  ⟨ha, hf, fun _ hb => setKeyData_of_ne kd hb, setKeyData_refcount kd, rfl, rfl, rfl, rfl⟩

theorem Scribble.setNext (p : Ptr) (ha : (g.stage a).owner = some i) (hf : ∀ j, g.stage a ≠ .free j) :
    Scribble i a g s (s.setNext a p) :=
  ⟨ha, hf, fun _ hb => setNext_of_ne hb, setNext_refcount, rfl, rfl, rfl, rfl⟩

namespace Scribble

variable (h : Scribble i a g s s')

include h

theorem ne_of_live (hb : g.stage b = .live) : b ≠ a := by
  rintro rfl
  have howner := h.owner
  rw [hb] at howner
  cases howner

theorem word (hs : Shape pool s g) {l : Loc} (hl : l ∈ g.locs) : s'.word l = s.word l := by
  cases l with
  | head => exact h.entryHead
  | next b => exact congrArg (·.nextEntry) (h.node b (h.ne_of_live ((hs.net.mem_locs _).1 hl)))

theorem shape (hs : Shape pool s g) : Shape pool s' g := by
  have hword := fun l hl => h.word hs (l := l) hl
  have hclaims : claims s' g = claims s g :=
    add_left_cancel (claims_hand s s' g g i rfl hword fun _ _ => rfl)
  refine ⟨hs.net.frame rfl (fun _ => Iff.rfl) hword fun b hb => by rw [h.node b (h.ne_of_live hb)],
    ⟨?_, ?_, hs.counted.fresh, hs.counted.born⟩, ⟨hs.hands.ok, ?_, hs.hands.held⟩, ?_,
    hs.supply.frame h.pool h.brk fun _ hb => hb⟩
  · intro b hb
    rw [hclaims, ← hs.counted.count b hb]
    by_cases hba : b = a
    · subst hba; exact h.refcount
    · rw [h.node b hba]
  · intro b hb
    rw [hclaims]
    exact hs.counted.live b hb
  · intro j b q hb
    obtain ⟨h1, h2, h3⟩ := hs.hands.lent j b q hb
    refine ⟨h1, ?_, h3⟩
    rwa [h.node b (h.ne_of_live h1)]
  · refine hs.frees.frame rfl h.freeList (fun j b hb => ?_) fun _ _ => Iff.rfl
    have hba : b ≠ a := by rintro rfl; exact h.notFree j hb
    rw [h.node b hba]

theorem trans : Trans i s g s' g := by
  refine ⟨fun _ _ => rfl, fun j _ => congrFun h.freeList j, fun _ _ _ _ => rfl, ?_, fun _ hb => hb, ?_⟩
  · intro j hj b hb
    have hba : b ≠ a := by
      rintro rfl
      rw [h.owner] at hb
      exact hj (Option.some.inj hb).symm
    rw [h.node b hba]
  · intro b hb
    have hnode := h.node b (h.ne_of_live hb)
    exact .inl ⟨hb, by rw [hnode], fun _ => by rw [hnode]⟩

end Scribble

/-! ## Entries that come and go -/

section Restage

variable {st : Stage n}

theorem setStage_live (ha : g.stage a ≠ .live) (hst : st ≠ .live) :
    (g.setStage a st).stage b = .live ↔ g.stage b = .live := by
  by_cases hb : b = a
  · subst hb; simp [ha, hst]
  · rw [setStage_of_ne st hb]

theorem Net.restage (h : Net s g) (ha : g.stage a ≠ .live) (hst : st ≠ .live) : Net s (g.setStage a st) :=
  h.frame rfl (fun _ => setStage_live ha hst) (fun _ _ => rfl) fun _ _ => rfl

theorem Counted.restage (h : Counted s g) (ha : g.stage a ≠ .live) (hst : st ≠ .live) (hfresh : ∀ j, st ≠ .fresh j)
    (hborn : st.Born ↔ (g.stage a).Born) (hbit : st.bit = (g.stage a).bit) : Counted s (g.setStage a st) := by
  have hborn' : ∀ b, ((g.setStage a st).stage b).Born ↔ (g.stage b).Born := by
    intro b
    by_cases hb : b = a
    · subst hb; rw [setStage_self]; exact hborn
    · rw [setStage_of_ne st hb]
  constructor
  · intro b hb
    refine (h.count b ((hborn' b).1 hb)).trans ?_
    by_cases hba : b = a
    · subst hba; rw [setStage_self, hbit]; rfl
    · rw [setStage_of_ne st hba]; rfl
  · intro b hb
    exact h.live b ((setStage_live ha hst).1 hb)
  · intro b j hb
    have hba : b ≠ a := by rintro rfl; rw [setStage_self] at hb; exact hfresh j hb
    rw [setStage_of_ne st hba] at hb
    exact h.fresh b j hb
  · intro j b hb
    exact (hborn' b).2 (h.born j b hb)

theorem Hands.restage (h : Hands s g) (ha : g.stage a ≠ .live) (hheld : ∀ j, a ∈ (g.hand j).held → st.Held j) :
    Hands s (g.setStage a st) := by
  refine ⟨h.ok, fun j b q hb => ?_, fun j b hb => ?_⟩
  · obtain ⟨h1, h2⟩ := h.lent j b q hb
    refine ⟨?_, h2⟩
    rwa [setStage_of_ne st (by rintro rfl; exact ha h1)]
  · by_cases hba : b = a
    · subst hba; rw [setStage_self]; exact hheld j hb
    · rw [setStage_of_ne st hba]; exact h.held j b hb

/-- Only thread `i` sees an entry change between stages of its own. -/
theorem Trans.restage (ha : ∀ j, j ≠ i → (g.stage a).owner ≠ some j) (hlive : g.stage a ≠ .live)
    (hst : ∀ j, j ≠ i → st.owner ≠ some j) (hborn : (g.stage a).Born → st.Born) :
    Trans i s g s (g.setStage a st) := by
  refine ⟨fun _ _ => rfl, fun _ _ => rfl, fun j hj b hb => ?_, fun _ _ _ _ => rfl, fun b hb => ?_, fun b hb => ?_⟩
  · by_cases hba : b = a
    · subst hba
      rw [setStage_self] at hb
      exact hb.elim (fun h => absurd h (ha j hj)) fun h => absurd h (hst j hj)
    · exact setStage_of_ne st hba
  · by_cases hba : b = a
    · subst hba; rw [setStage_self]; exact hborn hb
    · rwa [setStage_of_ne st hba]
  · have hba : b ≠ a := by rintro rfl; exact hlive hb
    exact .inl ⟨by rwa [setStage_of_ne st hba], rfl, fun _ => rfl⟩

end Restage

/-- `palloc`. -/
theorem Shape.palloc (hs : Shape pool s g) (hinj : Function.Injective pool) (hz : ∀ k, pool k ≠ 0) :
    Shape pool { s with brk := s.brk + 1 } (g.setStage (pool s.brk) (.raw i)) := by
  have ha := hs.supply.unborn s.brk le_rfl
  have hlive : g.stage (pool s.brk) ≠ .live := by rw [ha]; intro e; cases e
  have hword : ∀ l, ({ s with brk := s.brk + 1 } : Mem n).word l = s.word l := fun l => by cases l <;> rfl
  have hclaims : claims { s with brk := s.brk + 1 } g = claims s g := by
    unfold claims
    simp only [hword]
  have hcounted : Counted { s with brk := s.brk + 1 } g := by
    refine ⟨fun b hb => ?_, fun b hb => ?_, hs.counted.fresh, hs.counted.born⟩
    · rw [hclaims]; exact hs.counted.count b hb
    · rw [hclaims]; exact hs.counted.live b hb
  have hnet : Net { s with brk := s.brk + 1 } g :=
    hs.net.frame rfl (fun _ => Iff.rfl) (fun l _ => hword l) fun _ _ => rfl
  refine ⟨hnet.restage hlive (by intro e; cases e), hcounted.restage hlive (by intro e; cases e) ?_ ?_ ?_, ?_, ?_, ?_⟩
  · intro j e
    cases e
  · rw [ha]; exact Iff.rfl
  · rw [ha]; rfl
  · refine Hands.restage (s := { s with brk := s.brk + 1 }) ⟨hs.hands.ok, hs.hands.lent, hs.hands.held⟩ hlive ?_
    intro j hj
    have hheld := hs.hands.held j _ hj
    rw [ha] at hheld
    exact hheld.elim
  · refine hs.frees.frame rfl rfl (fun _ _ _ => rfl) fun j b => ?_
    by_cases hb : b = pool s.brk
    · subst hb; simp [ha]
    · rw [setStage_of_ne _ hb]
  · refine ⟨hs.supply.pool_eq, ?_, fun k hk => ?_⟩
    · rw [setStage_of_ne _ (hz _).symm]; exact hs.supply.zero
    · have hlt : s.brk + 1 ≤ k := hk
      rw [setStage_of_ne _ fun e => by have := hinj e; omega]
      exact hs.supply.unborn k (by omega)

/-- `p->refcount = 2`. -/
theorem Shape.initialise (hs : Shape pool s g) (ha : g.stage a = .raw i) {h : Hand} (hok : h.Ok)
    (hrefs : h.refs = a ::ₘ (g.hand i).refs) (hlent : h.lent = (g.hand i).lent)
    (hheld : h.held = a ::ₘ (g.hand i).held) :
    Shape pool (s.setRefcount a 2) ((g.setStage a (.fresh i)).setHand i h) := by
  have hlive : g.stage a ≠ .live := by rw [ha]; intro e; cases e
  have hno : ¬ (g.stage a).Born := by rw [ha]; exact id
  have hzero : Multiset.count a (claims s g) = 0 :=
    Multiset.count_eq_zero.2 fun hmem => hno (hs.born_of_claim hmem)
  have hclaims : claims (s.setRefcount a 2) ((g.setStage a (.fresh i)).setHand i h) = a ::ₘ claims s g := by
    have hmove := claims_hand s (s.setRefcount a 2) g
      ((g.setStage a (.fresh i)).setHand i h) i rfl (fun _ _ => setRefcount_word _)
      fun j hj => setHand_of_ne (g := g.setStage a (.fresh i)) h hj
    rw [setHand_self, hrefs, Multiset.cons_add, ← Multiset.add_cons] at hmove
    exact add_left_cancel hmove
  have hst : ∀ b, b ≠ a → ((g.setStage a (.fresh i)).setHand i h).stage b = g.stage b :=
    fun b hb => setStage_of_ne _ hb
  have hsta : ((g.setStage a (.fresh i)).setHand i h).stage a = .fresh i := setStage_self (g := g) _
  have hborn : ∀ b, (g.stage b).Born → (((g.setStage a (.fresh i)).setHand i h).stage b).Born := by
    intro b hb
    rwa [hst b (by rintro rfl; exact hno hb)]
  refine ⟨(hs.net.restage hlive (by intro e; cases e)).count 2 h, ⟨?_, ?_, ?_, ?_⟩, ?_, ?_, ?_⟩
  · intro b hb
    rw [hclaims]
    by_cases hba : b = a
    · subst hba
      rw [setRefcount_self, Multiset.count_cons_self, hzero, hsta]
      rfl
    · rw [hst b hba] at hb ⊢
      rw [setRefcount_of_ne _ hba, hs.counted.count b hb, Multiset.count_cons_of_ne hba]
  · intro b hb
    have hba : b ≠ a := by rintro rfl; rw [hsta] at hb; cases hb
    rw [hst b hba] at hb
    rw [hclaims]
    exact Multiset.mem_cons_of_mem (hs.counted.live b hb)
  · intro b j hb
    by_cases hba : b = a
    · subst hba
      rw [hsta] at hb
      cases hb
      rw [setHand_self, hrefs]
      exact Multiset.mem_cons_self b _
    · rw [hst b hba] at hb
      have hmem := hs.counted.fresh b j hb
      by_cases hj : j = i
      · subst hj; rw [setHand_self, hrefs]; exact Multiset.mem_cons_of_mem hmem
      · rwa [setHand_of_ne h hj]
  · intro j b hb
    by_cases hj : j = i
    · subst hj
      rw [setHand_self, hrefs] at hb
      obtain rfl | hb := Multiset.mem_cons.1 hb
      · rw [hsta]; trivial
      · exact hborn b (hs.counted.born j b hb)
    · rw [setHand_of_ne h hj] at hb
      exact hborn b (hs.counted.born j b hb)
  · have hrestage : Hands s (g.setStage a (.fresh i)) := hs.hands.restage hlive fun j hj => by
      have hheld := hs.hands.held j a hj
      rw [ha] at hheld
      exact hheld.elim
    refine hrestage.count hok 2 (.inr hlent) fun b hb => ?_
    rw [hheld] at hb
    obtain rfl | hb := Multiset.mem_cons.1 hb
    · rw [setStage_self]; rfl
    · exact hrestage.held i b hb
  · have hfrees : Frees s (g.setStage a (.fresh i)) := hs.frees.frame rfl rfl (fun _ _ _ => rfl) fun j b => by
      by_cases hba : b = a
      · subst hba; simp [ha]
      · rw [setStage_of_ne _ hba]
    exact hfrees.count 2 h
  · refine hs.supply.frame rfl rfl fun b hb => ?_
    rwa [hst b (by rintro rfl; rw [ha] at hb; cases hb)]

theorem Trans.initialise (ha : g.stage a = .raw i) (r : Int) (h : Hand) :
    Trans i s g (s.setRefcount a r) ((g.setStage a (.fresh i)).setHand i h) := by
  have hlive : g.stage a ≠ .live := by rw [ha]; intro e; cases e
  have hst : Trans i s g s (g.setStage a (.fresh i)) := by
    apply Trans.restage
    · intro j hj
      rw [ha]
      exact fun e => hj (Option.some.inj e).symm
    · exact hlive
    · exact fun j hj e => hj (Option.some.inj e).symm
    · exact fun _ => trivial
  exact hst.after (fun b hb => (setStage_live hlive (by intro e; cases e)).2 hb) (.count i a r h)

/-- `clearLowestBit` on an entry that thread `i` has taken from its free list. -/
theorem Shape.clearBit (hs : Shape pool s g) (ha : g.stage a = .dead i) (hmem : a ∈ (g.hand i).refs) :
    Shape pool (s.setRefcount a ((s.node a).refcount - 1)) (g.setStage a (.fresh i)) := by
  have hlive : g.stage a ≠ .live := by rw [ha]; intro e; cases e
  have hne : Stage.fresh i ≠ .live := by intro e; cases e
  have hborn : ∀ b, ((g.setStage a (.fresh i)).stage b).Born ↔ (g.stage b).Born := by
    intro b
    by_cases hb : b = a
    · subst hb; rw [setStage_self, ha]; exact Iff.rfl
    · rw [setStage_of_ne _ hb]
  have hclaims : claims (s.setRefcount a ((s.node a).refcount - 1)) (g.setStage a (.fresh i)) = claims s g := by
    unfold claims
    simp only [setRefcount_word]
    rfl
  have hnet : Net (s.setRefcount a ((s.node a).refcount - 1)) (g.setStage a (.fresh i)) :=
    (hs.net.restage hlive hne).frame rfl (fun _ => Iff.rfl) (fun _ _ => setRefcount_word _)
      fun _ _ => congrArg Entry.keyData (setRefcount_toEntry _)
  have hhands : Hands s (g.setStage a (.fresh i)) := hs.hands.restage hlive fun j hj => by
    have hheld := hs.hands.held j a hj
    rwa [ha] at hheld
  refine ⟨hnet, ⟨?_, ?_, ?_, ?_⟩, ⟨hhands.ok, ?_, hhands.held⟩, ?_, ?_⟩
  · intro b hb
    rw [hclaims]
    have hcount := hs.counted.count b ((hborn b).1 hb)
    by_cases hba : b = a
    · subst hba
      rw [ha] at hcount
      rw [setRefcount_self, setStage_self]
      simp only [Stage.bit] at hcount ⊢
      omega
    · rw [setRefcount_of_ne _ hba, setStage_of_ne _ hba]
      exact hcount
  · intro b hb
    rw [hclaims]
    exact hs.counted.live b ((setStage_live hlive hne).1 hb)
  · intro b j hb
    by_cases hba : b = a
    · subst hba
      rw [setStage_self] at hb
      cases hb
      exact hmem
    · rw [setStage_of_ne _ hba] at hb
      exact hs.counted.fresh b j hb
  · intro j b hb
    exact (hborn b).2 (hs.counted.born j b hb)
  · intro j b q hb
    obtain ⟨h1, h2, h3⟩ := hhands.lent j b q hb
    exact ⟨h1, (congrArg Entry.nextEntry (setRefcount_toEntry _)).trans h2, h3⟩
  · refine hs.frees.frame rfl rfl (fun _ _ _ => congrArg Entry.nextEntry (setRefcount_toEntry _)) fun j b => ?_
    by_cases hba : b = a
    · subst hba; simp [ha]
    · rw [setStage_of_ne _ hba]
  · refine hs.supply.frame rfl rfl fun b hb => ?_
    rwa [setStage_of_ne _ (by rintro rfl; rw [ha] at hb; cases hb)]

theorem Trans.clearBit (ha : g.stage a = .dead i) (r : Int) :
    Trans i s g (s.setRefcount a r) (g.setStage a (.fresh i)) := by
  have hlive : g.stage a ≠ .live := by rw [ha]; intro e; cases e
  have hst : Trans i s g s (g.setStage a (.fresh i)) := by
    apply Trans.restage
    · intro j hj
      rw [ha]
      exact fun e => hj (Option.some.inj e).symm
    · exact hlive
    · exact fun j hj e => hj (Option.some.inj e).symm
    · exact fun _ => trivial
  have hcount := Trans.count (s := s) (g := g.setStage a (.fresh i)) i a r ((g.setStage a (.fresh i)).hand i)
  rw [show (g.setStage a (.fresh i)).setHand i ((g.setStage a (.fresh i)).hand i) = g.setStage a (.fresh i) by
    unfold Ghost.setHand; rw [Function.update_eq_self]] at hcount
  exact hst.after (fun b hb => (setStage_live hlive (by intro e; cases e)).2 hb) hcount

/-! ## The free list of a thread -/

def Ghost.setFrees (g : Ghost n) (i : Fin n) (F : List Nat) : Ghost n :=
  { g with frees := Function.update g.frees i F }

/-- A thread puts `F` in the place of its free list; `a` is the entry that comes or goes. -/
theorem Frees.replace (h : Frees s g) {st : Stage n} {p : Ptr} {F : List Nat}
    (hlinked : Linked (fun a => link (s.node a).nextEntry) (link p) F) (htag : p.tag = false)
    (hnext : ∀ b ∈ F, (s.node b).nextEntry.tag = false) (hnodup : F.Nodup)
    (hmem : ∀ b, b ∈ F ↔ (g.setStage a st).stage b = .free i)
    (hother : ∀ j, j ≠ i → ∀ b, (g.setStage a st).stage b = .free j ↔ g.stage b = .free j) :
    Frees (s.setFreeList i p) ((g.setStage a st).setFrees i F) := by
  have hself : ((g.setStage a st).setFrees i F).frees i = F := Function.update_self ..
  have hne : ∀ j, j ≠ i → ((g.setStage a st).setFrees i F).frees j = g.frees j := fun j hj => Function.update_of_ne hj ..
  have hp : (s.setFreeList i p).freeList i = p := Function.update_self ..
  have hpne : ∀ j, j ≠ i → (s.setFreeList i p).freeList j = s.freeList j := fun j hj => Function.update_of_ne hj ..
  constructor
  · intro j
    by_cases hj : j = i
    · subst hj; rw [hself, hp]; exact hlinked
    · rw [hne j hj, hpne j hj]; exact h.linked j
  · intro j
    by_cases hj : j = i
    · subst hj; rw [hp]; exact htag
    · rw [hpne j hj]; exact h.headTag j
  · intro j b hb
    by_cases hj : j = i
    · subst hj; rw [hself] at hb; exact hnext b hb
    · rw [hne j hj] at hb; exact h.nextTag j b hb
  · intro j
    by_cases hj : j = i
    · subst hj; rw [hself]; exact hnodup
    · rw [hne j hj]; exact h.nodup j
  · intro j b
    by_cases hj : j = i
    · subst hj; rw [hself]; exact hmem b
    · rw [hne j hj, h.mem j b]; exact (hother j hj b).symm

theorem link_of_ne {p : Ptr} (h : p.addr ≠ 0) : link p = some p.addr := if_neg h

theorem Ptr.eq_null {p : Ptr} (ht : p.tag = false) (h : p.addr = 0) : p = NULL := Ptr.eq_of_addr ht rfl h

/-- The free list is empty, or its head is its first entry. -/
theorem Shape.frees_cases (hs : Shape pool s g) (i : Fin n) :
    s.freeList i = NULL ∨ g.stage (s.freeList i).addr = .free i ∧ ∃ F, g.frees i = (s.freeList i).addr :: F ∧
      Linked (fun a => link (s.node a).nextEntry) (link (s.node (s.freeList i).addr).nextEntry) F := by
  have hl := hs.frees.linked i
  by_cases h0 : (s.freeList i).addr = 0
  · exact .inl (Ptr.eq_null (hs.frees.headTag i) h0)
  · rw [link_of_ne h0] at hl
    obtain ⟨F, hF, hrest⟩ := hl.top
    refine .inr ⟨?_, F, hF, hrest⟩
    rw [← hs.frees.mem, hF]
    exact List.mem_cons_self

/-- `freeList = p->nextEntry`. -/
theorem Shape.popFree (hs : Shape pool s g) (hne : s.freeList i ≠ NULL) (ha : a = (s.freeList i).addr) :
    ∃ F, Shape pool (s.setFreeList i (s.node a).nextEntry) ((g.setStage a (.dead i)).setFrees i F) := by
  subst ha
  obtain h | ⟨hfree, F, hF, hlinked⟩ := hs.frees_cases i
  · exact absurd h hne
  generalize (s.freeList i).addr = a at *
  have hlive : g.stage a ≠ .live := by rw [hfree]; intro e; cases e
  have hst : Stage.dead i ≠ .live := by intro e; cases e
  have hnodup := hs.frees.nodup i
  rw [hF, List.nodup_cons] at hnodup
  have hword : ∀ l, (s.setFreeList i (s.node a).nextEntry).word l = s.word l := fun l => by cases l <;> rfl
  have hclaims : claims (s.setFreeList i (s.node a).nextEntry) (g.setStage a (.dead i)) =
      claims s (g.setStage a (.dead i)) := by
    unfold claims
    simp only [hword]
  have hcounted : Counted s (g.setStage a (.dead i)) := by
    apply hs.counted.restage hlive hst
    · intro j e
      cases e
    · rw [hfree]; exact Iff.rfl
    · rw [hfree]; rfl
  have hhands : Hands s (g.setStage a (.dead i)) := hs.hands.restage hlive fun j hj => by
    have hheld := hs.hands.held j a hj
    rw [hfree] at hheld
    exact hheld.elim
  refine ⟨F, (hs.net.restage hlive hst).frame rfl (fun _ => Iff.rfl) (fun l _ => hword l) fun _ _ => rfl,
    ⟨fun b hb => ?_, fun b hb => ?_, hcounted.fresh, hcounted.born⟩, ⟨hhands.ok, hhands.lent, hhands.held⟩, ?_, ?_⟩
  · exact (hcounted.count b hb).trans (by rw [← hclaims]; rfl)
  · have hmem := hcounted.live b hb
    rwa [← hclaims] at hmem
  · apply hs.frees.replace hlinked
    · exact hs.frees.nextTag i a (by rw [hF]; exact List.mem_cons_self)
    · exact fun b hb => hs.frees.nextTag i b (by rw [hF]; exact List.mem_cons_of_mem a hb)
    · exact hnodup.2
    · intro b
      by_cases hba : b = a
      · subst hba; simp [hnodup.1]
      · rw [setStage_of_ne _ hba, ← hs.frees.mem, hF, List.mem_cons]
        exact (or_iff_right hba).symm
    · intro j hj b
      by_cases hba : b = a
      · subst hba
        rw [setStage_self, hfree]
        exact ⟨fun e => (by cases e), fun e => absurd (Stage.free.inj e).symm hj⟩
      · rw [setStage_of_ne _ hba]
  · refine hs.supply.frame rfl rfl fun b hb => ?_
    exact (setStage_of_ne _ (by rintro rfl; rw [hfree] at hb; cases hb)).trans hb

/-- `freeList = p`. -/
theorem Shape.pushFree (hs : Shape pool s g) (ha : g.stage a = .dead i) (hheld : a ∉ (g.hand i).held)
    (hnext : (s.node a).nextEntry = s.freeList i) :
    Shape pool (s.setFreeList i ⟨a, false⟩) ((g.setStage a (.free i)).setFrees i (a :: g.frees i)) := by
  have hlive : g.stage a ≠ .live := by rw [ha]; intro e; cases e
  have hst : Stage.free i ≠ .live := by intro e; cases e
  have h0 := hs.ne_zero (a := a) (by rw [ha]; trivial)
  have hword : ∀ l, (s.setFreeList i ⟨a, false⟩).word l = s.word l := fun l => by cases l <;> rfl
  have hclaims : claims (s.setFreeList i ⟨a, false⟩) (g.setStage a (.free i)) =
      claims s (g.setStage a (.free i)) := by
    unfold claims
    simp only [hword]
  have hcounted : Counted s (g.setStage a (.free i)) := by
    apply hs.counted.restage hlive hst
    · intro j e
      cases e
    · rw [ha]; exact Iff.rfl
    · rw [ha]; rfl
  have hhands : Hands s (g.setStage a (.free i)) := hs.hands.restage hlive fun j hj => by
    have hold := hs.hands.held j a hj
    rw [ha] at hold
    obtain rfl : i = j := hold
    exact absurd hj hheld
  refine ⟨(hs.net.restage hlive hst).frame rfl (fun _ => Iff.rfl) (fun l _ => hword l) fun _ _ => rfl,
    ⟨fun b hb => ?_, fun b hb => ?_, hcounted.fresh, hcounted.born⟩, ⟨hhands.ok, hhands.lent, hhands.held⟩, ?_, ?_⟩
  · exact (hcounted.count b hb).trans (by rw [← hclaims]; rfl)
  · have hmem := hcounted.live b hb
    rwa [← hclaims] at hmem
  · have hnot : a ∉ g.frees i := by rw [hs.frees.mem, ha]; intro e; cases e
    apply hs.frees.replace
    · rw [link_of_ne (p := ⟨a, false⟩) h0]
      refine (hs.frees.linked i).push ?_
      rw [hnext]
    · rfl
    · intro b hb
      obtain rfl | hb := List.mem_cons.1 hb
      · rw [hnext]; exact hs.frees.headTag i
      · exact hs.frees.nextTag i b hb
    · exact List.nodup_cons.2 ⟨hnot, hs.frees.nodup i⟩
    · intro b
      by_cases hba : b = a
      · subst hba; simp
      · rw [setStage_of_ne _ hba, ← hs.frees.mem, List.mem_cons]
        exact or_iff_right hba
    · intro j hj b
      by_cases hba : b = a
      · subst hba
        rw [setStage_self, ha]
        exact ⟨fun e => absurd (Stage.free.inj e).symm hj, fun e => by cases e⟩
      · rw [setStage_of_ne _ hba]
  · refine hs.supply.frame rfl rfl fun b hb => ?_
    exact (setStage_of_ne _ (by rintro rfl; rw [ha] at hb; cases hb)).trans hb

/-- A thread writes its own `freeList`, and one of its entries changes stage. -/
theorem Trans.freeList_write (st : Stage n) (p : Ptr) (F : List Nat) (ha : (g.stage a).owner = some i)
    (hst : st.owner = some i) (hborn : (g.stage a).Born → st.Born) :
    Trans i s g (s.setFreeList i p) ((g.setStage a st).setFrees i F) := by
  have hlive : g.stage a ≠ .live := by intro e; rw [e] at ha; cases ha
  have hrestage : Trans i s g s (g.setStage a st) :=
    .restage (fun j hj e => hj (Option.some.inj (ha.symm.trans e)).symm) hlive
      (fun j hj e => hj (Option.some.inj (hst.symm.trans e)).symm) hborn
  refine ⟨hrestage.hand, fun j hj => Function.update_of_ne hj .., hrestage.stage, fun _ _ _ _ => rfl,
    hrestage.born, fun b hb => ?_⟩
  have hba : b ≠ a := by rintro rfl; exact hlive hb
  exact .inl ⟨(setStage_of_ne st hba).trans hb, rfl, fun _ => rfl⟩

end OptimisticAccess.RC
