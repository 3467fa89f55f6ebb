import Mathlib.Data.Set.Card
import OptimisticAccess.RC.Balance

/-!
# No entry in use is on a free list, and none is lost

What the ledger says in terms of the memory and the log alone.
-/

namespace OptimisticAccess.RC

open Conc Prog

variable {n : Nat}

/-- Entries that the links lead to from the list head. -/
inductive Reachable (s : Mem n) : Nat → Prop where
  | head (h : s.entryHead.addr ≠ 0) : Reachable s s.entryHead.addr
  | next {a : Nat} (ha : Reachable s a) (h : (s.node a).nextEntry.addr ≠ 0) : Reachable s (s.node a).nextEntry.addr

/-- `F` is the free list of thread `i`. -/
def IsFreeList (s : Mem n) (i : Fin n) (F : List Nat) : Prop :=
  Linked (fun a => link (s.node a).nextEntry) (link (s.freeList i)) F

def OnFreeList (s : Mem n) (i : Fin n) (a : Nat) : Prop := ∃ F, IsFreeList s i F ∧ a ∈ F

/-- A list whose entries `first` have a reference each, and an allocator whose entries are all new. -/
structure Start (first : List Nat) (s : Mem n) : Prop where
  headTag : s.entryHead.tag = false
  chain : Linked (fun a => link (s.node a).nextEntry) (link s.entryHead) first
  sorted : first.Pairwise fun a b => s.key a < s.key b
  refcount : ∀ a ∈ first, (s.node a).refcount = 2
  freeList : ∀ i, s.freeList i = NULL
  inj : Function.Injective s.pool
  pool_ne : ∀ k, s.pool k ≠ 0
  pool_new : ∀ k, s.brk ≤ k → s.pool k ∉ first

/-! ## The ledger of an untouched list -/

section Start

variable {first : List Nat} {s : Mem n}

theorem link_eq_some {p : Ptr} {a : Nat} (h : link p = some a) : p.addr = a ∧ a ≠ 0 := by
  unfold link at h
  split_ifs at h with h0
  cases h
  exact ⟨rfl, h0⟩

/-- A chain of links refers to each of its entries once. -/
theorem sum_linked {p : Ptr} {l : List Nat} (h : Linked (fun a => link (s.node a).nextEntry) (link p) l) :
    own p + (l.map fun a => own (s.node a).nextEntry).sum = (l : Multiset Nat) := by
  induction l generalizing p with
  | nil =>
    have h0 : p.addr = 0 := by
      by_contra hne
      rw [link_of_ne hne] at h
      cases h
    simp [own_eq_zero h0]
  | cons a l ih =>
    obtain ⟨rfl, h0⟩ := link_eq_some h.1
    rw [List.map_cons, List.sum_cons, ih h.2, own_of_ne h0, Multiset.singleton_add, Multiset.cons_coe]

/-- A link of a sorted chain leads on into it, to a greater key. -/
theorem linked_next {p : Ptr} {l : List Nat} (h : Linked (fun a => link (s.node a).nextEntry) (link p) l)
    (hs : l.Pairwise fun a b => s.key a < s.key b) {a : Nat} (ha : a ∈ l) (h0 : (s.node a).nextEntry.addr ≠ 0) :
    (s.node a).nextEntry.addr ∈ l ∧ s.key a < s.key (s.node a).nextEntry.addr := by
  induction l generalizing p with
  | nil => exact absurd ha List.not_mem_nil
  | cons b l ih =>
    obtain ⟨hlt, hs⟩ := List.pairwise_cons.1 hs
    obtain rfl | ha := List.mem_cons.1 ha
    · have hrest : Linked (fun a => link (s.node a).nextEntry) (link (s.node a).nextEntry) l := h.2
      rw [link_of_ne h0] at hrest
      have hmem := hrest.mem_of_some
      exact ⟨List.mem_cons_of_mem _ hmem, hlt _ hmem⟩
    · obtain ⟨hmem, hk⟩ := ih h.2 hs ha
      exact ⟨List.mem_cons_of_mem _ hmem, hk⟩

/-- The bookkeeping at the start. -/
def startGhost (n : Nat) (first : List Nat) : Ghost n where
  stage a := if a ∈ first then .live else .unborn
  hand _ := .empty
  locs := insert .head (first.map Loc.next).toFinset
  frees _ := []

theorem startGhost_live {a : Nat} : (startGhost n first).stage a = .live ↔ a ∈ first := by
  by_cases h : a ∈ first <;> simp [startGhost, h]

theorem startGhost_born {a : Nat} : ((startGhost n first).stage a).Born ↔ a ∈ first := by
  by_cases h : a ∈ first <;> simp [startGhost, h, Stage.Born]

theorem mem_startGhost_locs {l : Loc} : l ∈ (startGhost n first).locs ↔ (startGhost n first).Counts l := by
  cases l with
  | head => simp [startGhost, Ghost.Counts]
  | next a =>
    rw [Ghost.Counts, startGhost_live]
    simp [startGhost]

theorem Start.nodup (h : Start first s) : first.Nodup := h.sorted.imp fun hlt e => by subst e; exact lt_irrefl _ hlt

theorem Start.claims (h : Start first s) : RC.claims s (startGhost n first) = (first : Multiset Nat) := by
  have hhead : Loc.head ∉ (first.map Loc.next).toFinset := by simp
  have hnd : (first.map Loc.next).Nodup := h.nodup.map fun _ _ e => Loc.next.inj e
  have hwords : ∑ l ∈ (startGhost n first).locs, own (s.word l) = (first : Multiset Nat) := by
    unfold startGhost
    rw [Finset.sum_insert hhead, List.sum_toFinset _ hnd, List.map_map]
    exact sum_linked h.chain
  unfold RC.claims
  rw [hwords]
  simp [startGhost, Hand.empty]

theorem Start.shape (h : Start first s) : Shape s.pool s (startGhost n first) := by
  have hclaims := h.claims
  have hstage : ∀ a i, (startGhost n first).stage a ≠ .fresh i ∧ (startGhost n first).stage a ≠ .free i := by
    intro a i
    by_cases ha : a ∈ first <;> simp [startGhost, ha]
  have hzero : 0 ∉ first := by
    intro h0
    have hsum : (0 : Nat) ∈ RC.claims s (startGhost n first) := by rw [hclaims]; exact h0
    obtain ⟨l, -, hl⟩ | ⟨i, hi⟩ := mem_claims.1 hsum
    · obtain ⟨e, hne⟩ := mem_own.1 hl
      exact hne e.symm
    · exact absurd hi (Multiset.notMem_zero 0)
  refine ⟨⟨fun l => mem_startGhost_locs, h.headTag, ?_⟩, ⟨?_, ?_, ?_, ?_⟩, ⟨?_, ?_, ?_⟩, ⟨?_, ?_, ?_, ?_, ?_⟩, ⟨rfl, ?_, ?_⟩⟩
  · intro l hl h0
    rw [startGhost_live]
    cases l with
    | head =>
      have hchain : Linked (fun a => link (s.node a).nextEntry) (link (s.word .head)) first := h.chain
      rw [link_of_ne h0] at hchain
      exact ⟨hchain.mem_of_some, trivial⟩
    | next a => exact linked_next h.chain h.sorted (startGhost_live.1 (mem_startGhost_locs.1 hl)) h0
  · intro a ha
    rw [startGhost_born] at ha
    rw [h.refcount a ha, hclaims, Multiset.coe_count, List.count_eq_one_of_mem h.nodup ha, startGhost_live.2 ha]
    rfl
  · intro a ha
    rw [hclaims]
    exact startGhost_live.1 ha
  · intro a i ha
    exact absurd ha (hstage a i).1
  · intro i a ha
    exact absurd ha (Multiset.notMem_zero a)
  · exact fun i => ⟨Multiset.zero_le _, fun _ _ e => by cases e⟩
  · intro i a q e
    cases e
  · intro i a ha
    exact absurd ha (Multiset.notMem_zero a)
  · intro i
    rw [h.freeList i]
    rfl
  · intro i
    rw [h.freeList i]
    rfl
  · intro i a ha
    exact absurd ha List.not_mem_nil
  · exact fun i => List.nodup_nil
  · intro i a
    exact ⟨fun ha => absurd ha List.not_mem_nil, fun ha => absurd ha (hstage a i).2⟩
  · exact if_neg hzero
  · intro k hk
    exact if_neg (h.pool_new k hk)

theorem Start.inv (h : Start first s) : Inv s.pool {a | a ∈ first} (⟨s, [], startGhost n first⟩ : W n) := by
  refine ⟨h.shape, fun i a => ?_, fun a => ?_, fun i _ => ⟨rfl, fun a => ?_⟩, fun r hr => ?_⟩
  · simp [holds, startGhost, Hand.empty]
  · rw [startGhost_born]
    simp [Known]
  · by_cases ha : a ∈ first <;> simp [startGhost, ha, Stage.mine]
  · exact absurd hr List.not_mem_nil

end Start

/-! ## What the ledger says of the memory -/

section Read

variable {pool : Nat → Nat} {s : Mem n} {g : Ghost n} {i : Fin n} {a : Nat}

theorem Shape.onFreeList (hs : Shape pool s g) : OnFreeList s i a ↔ g.stage a = .free i := by
  rw [← hs.frees.mem]
  constructor
  · rintro ⟨F, hF, ha⟩
    rwa [← Linked.unique hF (hs.frees.linked i)]
  · exact fun ha => ⟨g.frees i, hs.frees.linked i, ha⟩

theorem Shape.live_of_reachable (hs : Shape pool s g) (ha : Reachable s a) : g.stage a = .live := by
  induction ha with
  | head h => exact (hs.net.target .head hs.net.head h).1
  | next _ h ih => exact (hs.net.target _ (hs.net.next ih) h).1

/-- With all hands empty a live entry has a link, from an entry with a smaller key or from the head. -/
theorem Shape.reachable_of_live (hs : Shape pool s g) (hidle : ∀ i, (g.hand i).refs = 0) (ha : g.stage a = .live) :
    Reachable s a := by
  have hlow : ∀ b, -2 ^ 31 ≤ s.key b := fun b => by
    have := BitVec.le_two_mul_toInt (x := getKey (s.node b).keyData)
    unfold Mem.key
    omega
  obtain ⟨k, hk⟩ : ∃ k : Nat, s.key a + 2 ^ 31 < k := ⟨(s.key a + 2 ^ 31 + 1).toNat, by omega⟩
  induction k generalizing a with
  | zero =>
    have := hlow a
    omega
  | succ k ih =>
    obtain ⟨l, hl, hmem⟩ | ⟨i, hi⟩ := mem_claims.1 (hs.counted.live a ha)
    · obtain ⟨rfl, h0⟩ := mem_own.1 hmem
      cases l with
      | head => exact .head h0
      | next b =>
        have hb : g.stage b = .live := (hs.net.mem_locs _).1 hl
        have hlt : s.key b < s.key (s.word (.next b)).addr := (hs.net.target _ hl h0).2
        exact .next (ih hb (by omega)) h0
    · rw [hidle i] at hi
      exact absurd hi (Multiset.notMem_zero a)

end Read

/-- The words of the list, and of the entries on no free list, that point to `a`. -/
def linksTo (first : Set Nat) (c : Cfg (Fin n) (Mem n) Ev) (a : Nat) : Set Loc :=
  {l | (c.mem.word l).addr = a ∧
    match l with
    | .head => True
    | .next b => Known first c.log b ∧ ∀ i, ¬ OnFreeList c.mem i b}

/-- No entry on a free list is in use, the free lists share no entry, and counts stay positive. -/
structure Safe (first : Set Nat) (c : Cfg (Fin n) (Mem n) Ev) : Prop where
  unreachable : ∀ i a, OnFreeList c.mem i a → ¬ Reachable c.mem a
  unheld : ∀ i a, OnFreeList c.mem i a → ∀ j, holds j a c.log = 0
  lists : ∃ F : Fin n → List Nat, (∀ i, IsFreeList c.mem i (F i)) ∧ (∀ i, (F i).Nodup) ∧
    ∀ i j, i ≠ j → (F i).Disjoint (F j)
  counted : ∀ a, Known first c.log a → 1 ≤ (c.mem.node a).refcount

/-- Every entry that ever was in the list is in the list with the count of its links, or on one
free list with count 1. -/
def Balanced (first : Set Nat) (c : Cfg (Fin n) (Mem n) Ev) : Prop :=
  ∀ a, Known first c.log a →
    (Reachable c.mem a ∧ (∀ i, ¬ OnFreeList c.mem i a) ∧ (c.mem.node a).refcount = 2 * (linksTo first c a).ncard) ∨
    (¬ Reachable c.mem a ∧ (∃! i, OnFreeList c.mem i a) ∧ (c.mem.node a).refcount = 1)

section Runs

variable {pool : Nat → Nat} {first : Set Nat} {c : Cfg (Fin n) (Mem n) Ev} {g : Ghost n}

theorem Inv.safe (hI : Inv pool first ⟨c.mem, c.log, g⟩) : Safe first c := by
  have hs := hI.shape
  constructor
  · intro i a ha hr
    have hlive := hs.live_of_reachable hr
    rw [hs.onFreeList.1 ha] at hlive
    cases hlive
  · intro i a ha j
    rw [hI.held j a, Int.natCast_eq_zero, Multiset.count_eq_zero]
    intro hheld
    have hst := hs.hands.held j a hheld
    rw [hs.onFreeList.1 ha] at hst
    exact hst
  · refine ⟨g.frees, hs.frees.linked, hs.frees.nodup, fun i j hij a hi hj => ?_⟩
    rw [hs.frees.mem] at hi hj
    rw [hi] at hj
    exact hij (Stage.free.inj hj)
  · intro a ha
    exact hs.refcount_pos ((hI.known a).1 ha)

theorem Inv.live_of_idle (hI : Inv pool first ⟨c.mem, c.log, g⟩) (hidle : ∀ i, ¬ Busy i c.log) {a : Nat}
    (ha : (g.stage a).Born) : g.stage a = .live ∨ ∃ i, g.stage a = .free i := by
  have hmine := fun i => (hI.idle i (hidle i)).mine a
  cases hst : g.stage a with
  | live => exact .inl rfl
  | free i => exact .inr ⟨i, rfl⟩
  | fresh i =>
    have := hmine i
    simp only [hst, Stage.mine_fresh] at this
    cases this
  | dead i =>
    have := hmine i
    simp only [hst, Stage.mine_dead] at this
    cases this
  | unborn => rw [hst] at ha; exact absurd ha id
  | raw i => rw [hst] at ha; exact absurd ha id

theorem Inv.linksTo_eq (hI : Inv pool first ⟨c.mem, c.log, g⟩) (hidle : ∀ i, ¬ Busy i c.log) (a : Nat) :
    linksTo first c a = ↑(g.locs.filter fun l => (c.mem.word l).addr = a) := by
  ext l
  rw [Finset.coe_filter, Set.mem_ofPred_eq, linksTo, Set.mem_ofPred_eq, and_comm]
  refine and_congr_left fun _ => ?_
  rw [hI.shape.net.mem_locs]
  cases l with
  | head => exact Iff.rfl
  | next b =>
    constructor
    · rintro ⟨hknown, hfree⟩
      obtain hlive | ⟨i, hst⟩ := hI.live_of_idle hidle ((hI.known b).1 hknown)
      · exact hlive
      · exact absurd (hI.shape.onFreeList.2 hst) (hfree i)
    · intro hlive
      change g.stage b = .live at hlive
      refine ⟨(hI.known b).2 ?_, fun i hfree => ?_⟩
      · change (g.stage b).Born
        rw [hlive]; trivial
      · have hst := hI.shape.onFreeList.1 hfree
        rw [hlive] at hst
        cases hst

theorem Inv.balanced (hI : Inv pool first ⟨c.mem, c.log, g⟩) (hidle : ∀ i, ¬ Busy i c.log) : Balanced first c := by
  intro a ha
  have hs := hI.shape
  have hborn := (hI.known a).1 ha
  have hempty : ∀ i, (g.hand i).refs = 0 := fun i => congrArg Hand.refs (hI.idle i (hidle i)).hand
  have hcount := hs.counted.count a hborn
  obtain hlive | ⟨i, hst⟩ := hI.live_of_idle hidle hborn
  · refine .inl ⟨hs.reachable_of_live hempty hlive, fun i hf => ?_, ?_⟩
    · have hst := hs.onFreeList.1 hf
      rw [hlive] at hst
      cases hst
    · have h0 : a ≠ 0 := hs.ne_zero hborn
      have hown : ∀ l, Multiset.count a (own (c.mem.word l)) = if (c.mem.word l).addr = a then 1 else 0 := by
        intro l
        by_cases hl : (c.mem.word l).addr = 0
        · rw [own_eq_zero hl, Multiset.count_zero, if_neg (by omega)]
        · rw [own_of_ne hl, Multiset.count_singleton]
          simp only [eq_comm]
      rw [hcount, hI.linksTo_eq hidle, Set.ncard_coe_finset, Finset.card_filter, hlive]
      simp only [claims, hempty, Finset.sum_const_zero, add_zero, Multiset.count_sum', hown, Stage.bit]
  · right
    have hnot : ¬ Reachable c.mem a := hI.safe.unreachable i a (hs.onFreeList.2 hst)
    refine ⟨hnot, ⟨i, hs.onFreeList.2 hst, fun j hj => ?_⟩, ?_⟩
    · have hj := hs.onFreeList.1 hj
      rw [hst] at hj
      exact (Stage.free.inj hj).symm
    · have hnone : Multiset.count a (claims c.mem g) = 0 := by
        rw [Multiset.count_eq_zero]
        intro hmem
        obtain ⟨l, hl, hmem⟩ | ⟨j, hj⟩ := mem_claims.1 hmem
        · have hlive := hs.live_of_word hl hmem
          rw [hst] at hlive
          cases hlive
        · rw [hempty j] at hj
          exact Multiset.notMem_zero a hj
      rw [hcount, hnone, hst]
      rfl

/-- Every state of every run meets the invariant. -/
theorem reach_inv {first : List Nat} {s : Mem n} (hs : Start first s) (hashOp : Bool) (fuel : Fin n → Nat)
    (ops : Fin n → List Op) {c : Cfg (Fin n) (Mem n) Ev}
    (hc : Cfg.Reach (.init s fun i => client hashOp i (fuel i) (ops i)) c) :
    ∃ g, Inv s.pool {a | a ∈ first} ⟨c.mem, c.log, g⟩ := by
  have hallow := (proto n s.pool {a | a ∈ first}).allowed_of_forall (fun _ _ => trivial) c.log
  have hthr : ∀ i, (proto n s.pool {a | a ∈ first}).wp i (client hashOp i (fuel i) (ops i)) (fun _ _ => True)
      ⟨s, [], startGhost n first⟩ := fun i =>
    Proto.wp_mono (client_spec hs.inj hs.pool_ne hashOp (fuel i) (ops i) _ id) fun _ _ _ => trivial
  have h0 : (proto n s.pool {a | a ∈ first}).inv ⟨s, [], startGhost n first⟩ := hs.inv
  exact Proto.adequacy h0 hthr hc hallow

end Runs

/-- **Reference counting never reclaims an entry in use**, in every state of every run. -/
theorem reach_safe {first : List Nat} {s : Mem n} (hs : Start first s) (hashOp : Bool) (fuel : Fin n → Nat)
    (ops : Fin n → List Op) {c : Cfg (Fin n) (Mem n) Ev}
    (hc : Cfg.Reach (.init s fun i => client hashOp i (fuel i) (ops i)) c) : Safe {a | a ∈ first} c := by
  obtain ⟨g, hI⟩ := reach_inv hs hashOp fuel ops hc
  exact hI.safe

/-- **Reference counts balance** whenever no operation is in progress. -/
theorem reach_balanced {first : List Nat} {s : Mem n} (hs : Start first s) (hashOp : Bool) (fuel : Fin n → Nat)
    (ops : Fin n → List Op) {c : Cfg (Fin n) (Mem n) Ev}
    (hc : Cfg.Reach (.init s fun i => client hashOp i (fuel i) (ops i)) c) (hidle : ∀ i, ¬ Busy i c.log) :
    Balanced {a | a ∈ first} c := by
  obtain ⟨g, hI⟩ := reach_inv hs hashOp fuel ops hc
  exact hI.balanced hidle

/-! ## A run of two threads -/

/-- An empty list whose allocator hands out the addresses from 1 on. -/
def emptyList : Mem 2 := ⟨NULL, fun _ => ⟨⟨0, NULL⟩, 0⟩, fun _ => NULL, fun k => k + 1, 0⟩

theorem start_emptyList : Start [] emptyList where
  headTag := rfl
  chain := rfl
  sorted := List.Pairwise.nil
  refcount := by simp
  freeList := fun _ => rfl
  inj := fun _ _ h => Nat.succ.inj h
  pool_ne := Nat.succ_ne_zero
  pool_new := by simp

theorem reach_safe_emptyList :
    Safe {a | a ∈ ([] : List Nat)} ((Cfg.init emptyList fun i : Fin 2 =>
      client true i 9 (if i = 0 then [.insert 3 7, .delete 3] else [.search 3])).exec
        ((List.range 60).map fun k => if k % 3 = 0 then 1 else 0)) :=
  reach_safe start_emptyList true (fun _ => 9)
    (fun i => if i = 0 then [.insert 3 7, .delete 3] else [.search 3]) ⟨_, rfl⟩

theorem reach_balanced_emptyList :
    Balanced {a | a ∈ ([] : List Nat)} ((Cfg.init emptyList fun i : Fin 2 =>
      client true i 9 (if i = 0 then [.insert 3 7, .delete 3] else [.search 3])).exec
        ((List.range 60).map fun k => if k % 3 = 0 then 1 else 0)) :=
  reach_balanced start_emptyList true (fun _ => 9)
    (fun i => if i = 0 then [.insert 3 7, .delete 3] else [.search 3]) ⟨_, rfl⟩ (by decide +kernel)

end OptimisticAccess.RC
