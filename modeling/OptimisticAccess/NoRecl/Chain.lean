import Mathlib.Data.Set.Insert
import OptimisticAccess.Lib.SortedChain
import OptimisticAccess.NoRecl.List

/-!
# The shape of the list and the steps that change it

`Shape` is the invariant of the shared memory. It keeps apart the entries that were linked at
some time (`linked`, which never shrinks) and those a thread has allocated and not linked yet
(`owner`). Each writing step of the list has one lemma here; `Trans` is what any step of a
thread does to the memory, as the other threads see it.
-/

namespace OptimisticAccess.NoRecl

open Conc

/-- The key of an entry. -/
def Mem.key (s : Mem) (a : Nat) : Int := (getKey (s.node a).keyData).toInt

/-- The memory as cells, the list head in the sentinel. -/
def Mem.cells (s : Mem) : Cells where
  succ p := if p = 0 then s.entryHead.addr else (s.node p).nextEntry.addr
  dead a := isDeleted (s.node a).nextEntry
  key := s.key

/-- The abstract set: the keys of the unmarked entries reachable from the head. -/
def Mem.keys (s : Mem) : Set Int := s.cells.keys

/-- `a` is reachable from the head. -/
def Linked (s : Mem) (a : Nat) : Prop := ∃ l, Walk s.cells.succ 0 l ∧ a ∈ l

/-- The proof's bookkeeping: entries linked at some time, and who holds an unlinked one. -/
structure Ghost (ι : Type) where
  linked : Set Nat
  owner : Nat → Option ι

variable {ι : Type}

structure Shape (pool : Nat → Nat) (s : Mem) (g : Ghost ι) : Prop where
  pool_eq : s.pool = pool
  headTag : s.entryHead.tag = false
  zero : 0 ∉ g.linked
  succ_linked : ∀ a ∈ g.linked, (s.node a).nextEntry.addr = 0 ∨ (s.node a).nextEntry.addr ∈ g.linked
  fresh : ∀ k, s.brk ≤ k → s.pool k ∉ g.linked ∧ g.owner (s.pool k) = none
  held : ∀ a i, g.owner a = some i → a ∉ g.linked ∧ a ≠ 0
  chain : ∃ l, Walk s.cells.succ 0 l ∧ s.cells.Sorted l ∧ (∀ a ∈ l, a ∈ g.linked) ∧
    ∀ a ∈ g.linked, (s.node a).nextEntry.tag = false → a ∈ l

/-- What a step of thread `i` may do. -/
structure Trans (i : ι) (s : Mem) (g : Ghost ι) (s' : Mem) (g' : Ghost ι) : Prop where
  linked : g.linked ⊆ g'.linked
  key : ∀ a ∈ g.linked, (s'.node a).keyData = (s.node a).keyData
  frozen : ∀ a ∈ g.linked, (s.node a).nextEntry.tag = true → (s'.node a).nextEntry = (s.node a).nextEntry
  others : ∀ a j, g.owner a = some j → j ≠ i → s'.node a = s.node a ∧ g'.owner a = some j

theorem Trans.refl (i : ι) (s : Mem) (g : Ghost ι) : Trans i s g s g :=
  ⟨subset_rfl, fun _ _ => rfl, fun _ _ _ => rfl, fun _ _ h _ => ⟨rfl, h⟩⟩

section

variable {pool : Nat → Nat} {s : Mem} {g : Ghost ι} {i : ι}

theorem Shape.linked_of_reach (h : Shape pool s g) {a : Nat} (ha : Linked s a) : a ∈ g.linked := by
  obtain ⟨l, hw, hal⟩ := ha
  obtain ⟨l', hw', -, hl, -⟩ := h.chain
  exact hl a (hw.unique hw' ▸ hal)

/-- An unmarked entry that was linked at some time is on the chain. -/
theorem Shape.reach_of_linked (h : Shape pool s g) {a : Nat} (ha : a ∈ g.linked)
    (ht : (s.node a).nextEntry.tag = false) : Linked s a := by
  obtain ⟨l, hw, -, -, hl⟩ := h.chain
  exact ⟨l, hw, hl a ha ht⟩

theorem cells_succ_next {a : Nat} (ha : a ≠ 0) : s.cells.succ a = (s.node a).nextEntry.addr := if_neg ha

theorem cells_succ_head : s.cells.succ 0 = s.entryHead.addr := rfl

/-- The cell a `prev` pointer stands for. -/
def cell : Loc → Nat
  | .head => 0
  | .next a => a

/-- A `prev` pointer as `find` leaves it: the head, or an entry below `key`. -/
def PrevOk (key : Int) (s : Mem) (g : Ghost ι) : Loc → Prop
  | .head => True
  | .next a => a ∈ g.linked ∧ s.key a < key

theorem PrevOk.trans {key : Int} {loc : Loc} {s' : Mem} {g' : Ghost ι} (h : PrevOk key s g loc)
    (ht : Trans i s g s' g') : PrevOk key s' g' loc := by
  cases loc with
  | head => trivial
  | next a => exact ⟨ht.linked h.1, by simpa only [Mem.key, ht.key a h.1] using h.2⟩

/-- A `prev` pointer whose word is untagged points into the chain. -/
theorem PrevOk.onChain {key : Int} {loc : Loc} (h : PrevOk key s g loc) (hs : Shape pool s g)
    {l : List Nat} (hw : Walk s.cells.succ 0 l) (ht : (s.word loc).tag = false) :
    cell loc ∈ 0 :: l ∧ s.cells.succ (cell loc) = (s.word loc).addr ∧
      (cell loc = 0 ∨ s.cells.key (cell loc) < key) := by
  cases loc with
  | head => exact ⟨List.mem_cons_self, rfl, .inl rfl⟩
  | next a =>
    have ha : a ≠ 0 := fun e => hs.zero (e ▸ h.1)
    obtain ⟨l', hw', hal⟩ := hs.reach_of_linked h.1 ht
    exact ⟨List.mem_cons_of_mem _ (hw'.unique hw ▸ hal), if_neg ha, .inr h.2⟩

/-- The key looked for is absent where the chain jumps over it. -/
theorem PrevOk.absent {key : Int} {loc : Loc} (h : PrevOk key s g loc) (hs : Shape pool s g)
    (ht : (s.word loc).tag = false)
    (hgt : (s.word loc).addr = 0 ∨ key < s.key (s.word loc).addr) : key ∉ s.keys := by
  obtain ⟨l, hw, hso, -, -⟩ := hs.chain
  obtain ⟨hq, hsucc, hlt⟩ := h.onChain hs hw ht
  exact hso.not_mem_keys hw hq hlt (by rw [hsucc]; exact hgt)

theorem Shape.present (hs : Shape pool s g) {a : Nat} (ha : a ∈ g.linked)
    (ht : (s.node a).nextEntry.tag = false) : s.key a ∈ s.keys := by
  obtain ⟨l, hw, hal⟩ := hs.reach_of_linked ha ht
  exact (Cells.mem_keys hw).2 ⟨a, hal, ht, rfl⟩

/-- `s'` has the list of `s`; entries outside it may differ. -/
structure SameList (g : Ghost ι) (s s' : Mem) : Prop where
  head : s'.entryHead = s.entryHead
  node : ∀ a ∈ g.linked, s'.node a = s.node a

theorem SameList.walk {s' : Mem} (h : SameList g s s') {l : List Nat}
    (hl : ∀ a ∈ l, a ∈ g.linked) (hw : Walk s.cells.succ 0 l) : Walk s'.cells.succ 0 l := by
  refine hw.frame fun b hb => ?_
  rcases List.mem_cons.1 hb with rfl | hb
  · rw [cells_succ_head, cells_succ_head, h.head]
  · rw [cells_succ_next (hw.ne_zero hb), cells_succ_next (hw.ne_zero hb), h.node b (hl b hb)]

theorem SameList.keys {s' : Mem} (h : SameList g s s') (hs : Shape pool s g) : s'.keys = s.keys := by
  obtain ⟨l, hw, -, hl, -⟩ := hs.chain
  ext k
  refine (Cells.mem_keys (h.walk hl hw)).trans (Iff.trans ?_ (Cells.mem_keys hw).symm)
  refine exists_congr fun a => and_congr_right fun ha => ?_
  simp only [Mem.cells, Mem.key, h.node a (hl a ha)]

theorem SameList.shape {s' : Mem} {g' : Ghost ι} (h : SameList g s s') (hs : Shape pool s g)
    (hlinked : g'.linked = g.linked) (hpool : s'.pool = pool)
    (hfresh : ∀ k, s'.brk ≤ k → s'.pool k ∉ g'.linked ∧ g'.owner (s'.pool k) = none)
    (hheld : ∀ a i, g'.owner a = some i → a ∉ g'.linked ∧ a ≠ 0) : Shape pool s' g' := by
  obtain ⟨l, hw, hso, hl, hal⟩ := hs.chain
  refine ⟨hpool, h.head ▸ hs.headTag, hlinked ▸ hs.zero, ?_, hfresh, hheld, l, h.walk hl hw, ?_, ?_, ?_⟩
  · intro a ha
    rw [hlinked] at ha ⊢
    rw [h.node a ha]; exact hs.succ_linked a ha
  · exact hso.of_key fun b hb => by simp only [Mem.cells, Mem.key, h.node b (hl b hb)]
  · exact hlinked ▸ hl
  · intro a ha ht
    rw [hlinked] at ha
    exact hal a ha (by rwa [h.node a ha] at ht)

/-- `palloc` gives thread `i` an entry nobody holds. -/
theorem Shape.palloc (hs : Shape pool s g) (hinj : Function.Injective pool) (hz : ∀ k, pool k ≠ 0)
    [DecidableEq ι] :
    Shape pool { s with brk := s.brk + 1 }
        { g with owner := Function.update g.owner (s.pool s.brk) (some i) } ∧
      Trans i s g { s with brk := s.brk + 1 }
        { g with owner := Function.update g.owner (s.pool s.brk) (some i) } := by
  have hsame : SameList g s { s with brk := s.brk + 1 } := ⟨rfl, fun _ _ => rfl⟩
  obtain ⟨hlink, hown⟩ := hs.fresh s.brk le_rfl
  constructor
  · refine hsame.shape hs rfl hs.pool_eq (fun k hk => ?_) fun a j hj => ?_
    · have hne : s.pool k ≠ s.pool s.brk := by
        rw [hs.pool_eq]; intro e; have := hinj e; simp only at hk; omega
      obtain ⟨h1, h2⟩ := hs.fresh k (by simp only at hk; omega)
      exact ⟨h1, by simp only [Function.update_of_ne hne, h2]⟩
    · by_cases ha : a = s.pool s.brk
      · subst ha
        exact ⟨hlink, hs.pool_eq ▸ hz s.brk⟩
      · exact hs.held a j (by simpa only [Function.update_of_ne ha] using hj)
  · refine ⟨subset_rfl, fun _ _ => rfl, fun _ _ _ => rfl, fun a j hj hji => ⟨rfl, ?_⟩⟩
    have ha : a ≠ s.pool s.brk := by rintro rfl; rw [hown] at hj; cases hj
    simpa only [Function.update_of_ne ha] using hj

/-- A store to an entry thread `i` has not linked yet. -/
theorem Shape.store (hs : Shape pool s g) {n : Nat} (hn : g.owner n = some i) (e : Entry) :
    let s' := { s with node := Function.update s.node n e }
    Shape pool s' g ∧ Trans i s g s' g ∧ s'.keys = s.keys := by
  intro s'
  have hne : ∀ a ∈ g.linked, a ≠ n := fun a ha e => (hs.held n i hn).1 (e ▸ ha)
  have hsame : SameList g s s' :=
    ⟨rfl, fun a ha => by simp only [s', Function.update_of_ne (hne a ha)]⟩
  refine ⟨hsame.shape hs rfl hs.pool_eq hs.fresh hs.held, ?_, hsame.keys hs⟩
  refine ⟨subset_rfl, fun a ha => by rw [hsame.node a ha], fun a ha _ => by rw [hsame.node a ha], ?_⟩
  intro a j hj hji
  have ha : a ≠ n := by rintro rfl; rw [hn] at hj; cases hj; exact hji rfl
  exact ⟨by simp only [s', Function.update_of_ne ha], hj⟩

theorem setWord_node_ne {loc : Loc} {p : Ptr} {a : Nat} (h : loc ≠ .next a) :
    (s.setWord loc p).node a = s.node a := by
  cases loc with
  | head => rfl
  | next b => simp only [Mem.setWord]; rw [Function.update_of_ne]; rintro rfl; exact h rfl

@[simp] theorem setWord_keyData {loc : Loc} {p : Ptr} {a : Nat} :
    ((s.setWord loc p).node a).keyData = (s.node a).keyData := by
  cases loc with
  | head => rfl
  | next b => simp only [Mem.setWord, Function.update_apply]; split <;> simp_all

@[simp] theorem setWord_word {loc : Loc} {p : Ptr} : (s.setWord loc p).word loc = p := by
  cases loc <;> simp [Mem.setWord, Mem.word]

@[simp] theorem setWord_pool {loc : Loc} {p : Ptr} : (s.setWord loc p).pool = s.pool := by cases loc <;> rfl

@[simp] theorem setWord_brk {loc : Loc} {p : Ptr} : (s.setWord loc p).brk = s.brk := by cases loc <;> rfl

theorem setWord_key {loc : Loc} {p : Ptr} {a : Nat} : (s.setWord loc p).cells.key a = s.cells.key a := by
  simp only [Mem.cells, Mem.key, setWord_keyData]

/-- The successors after a store to the word of a cell. -/
theorem setWord_succ {loc : Loc} {p : Ptr} (hloc : loc ≠ .next 0) :
    (s.setWord loc p).cells.succ (cell loc) = p.addr ∧
      ∀ b, b ≠ cell loc → (s.setWord loc p).cells.succ b = s.cells.succ b := by
  cases loc with
  | head => exact ⟨rfl, fun b hb => by rw [cells_succ_next hb, cells_succ_next hb]; rfl⟩
  | next a =>
    have ha : a ≠ 0 := fun e => hloc (e ▸ rfl)
    refine ⟨by simp only [cell, cells_succ_next ha, Mem.setWord, Function.update_self], fun b hb => ?_⟩
    by_cases hb0 : b = 0
    · subst hb0; rfl
    · rw [cells_succ_next hb0, cells_succ_next hb0, setWord_node_ne (by rintro ⟨⟩; exact hb rfl)]

theorem PrevOk.ne_next_zero {key : Int} {loc : Loc} (h : PrevOk key s g loc) (hs : Shape pool s g) :
    loc ≠ .next 0 := by
  rintro rfl; exact hs.zero h.1

/-- A store to an untagged word of the list, as the other threads see it. -/
theorem Shape.trans_setWord (hs : Shape pool s g) {loc : Loc} {p : Ptr} {g' : Ghost ι}
    (hloc : ∀ a, loc = .next a → a ∈ g.linked) (ht : (s.word loc).tag = false)
    (hlinked : g.linked ⊆ g'.linked) (howner : ∀ a j, g.owner a = some j → j ≠ i → g'.owner a = some j) :
    Trans i s g (s.setWord loc p) g' := by
  refine ⟨hlinked, fun a _ => setWord_keyData, fun a _ hta => ?_, fun a j hj hji => ⟨?_, howner a j hj hji⟩⟩
  · rw [setWord_node_ne]
    rintro rfl
    simp only [Mem.word, hta] at ht
    cases ht
  · exact setWord_node_ne fun e => (hs.held a j hj).1 (hloc a e)

theorem PrevOk.mem {key : Int} {loc : Loc} (h : PrevOk key s g loc) : ∀ a, loc = .next a → a ∈ g.linked := by
  rintro a rfl; exact h.1

/-- The compare-and-swap of `ListInsert`. -/
theorem Shape.link (hs : Shape pool s g) {key : CInt} {loc : Loc} {cur : Ptr} {n : Nat}
    (hloc : PrevOk key.toInt s g loc) (hcur : s.word loc = cur) (htag : cur.tag = false)
    (hgt : cur.addr = 0 ∨ cur.addr ∈ g.linked ∧ key.toInt < s.key cur.addr)
    (hn : g.owner n = some i) (hkd : (s.node n).keyData = keyWord key)
    (hnext : (s.node n).nextEntry = cur) [DecidableEq ι] :
    let s' := s.setWord loc ⟨n, false⟩
    let g' : Ghost ι := ⟨insert n g.linked, Function.update g.owner n none⟩
    Shape pool s' g' ∧ Trans i s g s' g' ∧ key.toInt ∉ s.keys ∧ s'.keys = insert key.toInt s.keys := by
  intro s' g'
  subst hcur
  obtain ⟨l, hw, hso, hl, hal⟩ := hs.chain
  obtain ⟨hnl, hn0⟩ := hs.held n i hn
  obtain ⟨hq, hsucc, hlt⟩ := hloc.onChain hs hw htag
  obtain ⟨hs1, hs2⟩ := setWord_succ (s := s) (p := ⟨n, false⟩) (hloc.ne_next_zero hs)
  have hnode : ∀ a, loc ≠ .next a → s'.node a = s.node a := fun a => setWord_node_ne
  have hnloc : loc ≠ .next n := fun e => hnl (hloc.mem n e)
  have hkeyn : s'.cells.key n = key.toInt :=
    setWord_key.trans (by simp only [Mem.cells, Mem.key, hkd, getKey_keyWord])
  have hncell : n ≠ cell loc := by
    rintro rfl
    rcases List.mem_cons.1 hq with h | h
    · exact hn0 h
    · exact hnl (hl _ h)
  obtain ⟨l', hw', hso', hmem⟩ := hso.link hw hq hn0 (fun h => hnl (hl n h)) hs1
    (by rw [hs2 n hncell, hsucc, cells_succ_next hn0, hnext]) (fun b _ => hs2 b)
    (fun b _ => setWord_key) (by rw [hkeyn]; exact hlt)
    (by rw [hkeyn, hsucc]; exact hgt.imp_right And.right)
  have hdead : ∀ a ∈ l, s'.cells.dead a = s.cells.dead a := by
    intro a ha
    by_cases e : loc = .next a
    · subst e
      simp only [s', Mem.cells, Mem.setWord, Function.update_self, isDeleted]
      exact htag.symm
    · simp only [Mem.cells, hnode a e]
  refine ⟨⟨hs.pool_eq ▸ setWord_pool, ?_, ?_, ?_, ?_, ?_, l', hw', hso', ?_, ?_⟩, ?_, ?_, ?_⟩
  · cases loc with
    | head => rfl
    | next a => exact hs.headTag
  · rintro (h | h)
    · exact hn0 h.symm
    · exact hs.zero h
  · intro a ha
    by_cases e : loc = .next a
    · subst e
      simp only [s', Mem.setWord, Function.update_self]
      exact .inr (.inl rfl)
    · rw [hnode a e]
      rcases ha with rfl | ha
      · rw [hnext]
        exact hgt.imp_right fun h => .inr h.1
      · exact (hs.succ_linked a ha).imp_right .inr
  · intro k hk
    obtain ⟨h1, h2⟩ := hs.fresh k (by simpa only [s', setWord_brk] using hk)
    have hne : s.pool k ≠ n := by rintro e; rw [e, hn] at h2; cases h2
    simp only [s', g', setWord_pool, Function.update_of_ne hne]
    exact ⟨fun h => h.elim hne h1, h2⟩
  · intro a j hj
    by_cases e : a = n
    · subst e; simp [g'] at hj
    · obtain ⟨h1, h2⟩ := hs.held a j (by simpa only [g', Function.update_of_ne e] using hj)
      exact ⟨fun h => h.elim e h1, h2⟩
  · intro a ha
    exact ((hmem a).1 ha).imp_right (hl a)
  · rintro a (rfl | ha) ht
    · exact (hmem a).2 (.inl rfl)
    · refine (hmem a).2 (.inr ?_)
      by_cases e : loc = .next a
      · subst e; exact (List.mem_cons.1 hq).resolve_left fun h => hs.zero (h ▸ ha)
      · exact hal a ha (by rwa [hnode a e] at ht)
  · refine hs.trans_setWord hloc.mem htag (fun a ha => .inr ha) fun a j hj hji => ?_
    have e : a ≠ n := by rintro rfl; rw [hn] at hj; cases hj; exact hji rfl
    simpa only [g', Function.update_of_ne e] using hj
  · exact hloc.absent hs htag (hgt.imp_right And.right)
  · ext k
    refine (Cells.mem_keys hw').trans ?_
    rw [Set.mem_insert_iff, Mem.keys, Cells.mem_keys hw]
    constructor
    · rintro ⟨a, ha, hd, hk⟩
      rcases (hmem a).1 ha with rfl | ha
      · exact .inl (hk ▸ hkeyn)
      · exact .inr ⟨a, ha, hdead a ha ▸ hd, by rw [← hk, setWord_key]⟩
    · rintro (rfl | ⟨a, ha, hd, hk⟩)
      · have hd : (s'.node n).nextEntry.tag = false := by rw [hnode n hnloc, hnext]; exact htag
        exact ⟨n, (hmem n).2 (.inl rfl), hd, hkeyn⟩
      · exact ⟨a, (hmem a).2 (.inr ha), (hdead a ha).trans hd, by rw [setWord_key, hk]⟩

/-- The compare-and-swap of `ListDelete`. -/
theorem Shape.mark (hs : Shape pool s g) {key : CInt} {a : Nat} {next : Ptr} (ha : a ∈ g.linked)
    (hnext : (s.node a).nextEntry = next) (ht : next.tag = false) (hkey : s.key a = key.toInt) :
    let s' := s.setWord (.next a) (markDeleted next)
    Shape pool s' g ∧ Trans i s g s' g ∧ key.toInt ∈ s.keys ∧ s'.keys = s.keys \ {key.toInt} := by
  intro s'
  subst hnext
  obtain ⟨l, hw, hso, hl, hal⟩ := hs.chain
  have ha0 : a ≠ 0 := fun e => hs.zero (e ▸ ha)
  have hnode : ∀ b, b ≠ a → s'.node b = s.node b := fun b hb =>
    setWord_node_ne fun e => hb (by injection e with e; exact e.symm)
  have hself : (s'.node a).nextEntry = markDeleted (s.node a).nextEntry := by
    simp only [s', Mem.setWord, Function.update_self]
  have haddr : ∀ b, (s'.node b).nextEntry.addr = (s.node b).nextEntry.addr := by
    intro b
    by_cases hb : b = a
    · subst hb; rw [hself, markDeleted_addr]
    · rw [hnode b hb]
  have hw' : Walk s'.cells.succ 0 l := hw.frame fun b _ => by
    by_cases hb : b = 0
    · subst hb; rfl
    · rw [cells_succ_next hb, cells_succ_next hb, haddr]
  have hal' : a ∈ l := hal a ha ht
  refine ⟨⟨hs.pool_eq, hs.headTag, hs.zero, ?_, hs.fresh, hs.held, l, hw', ?_, hl, ?_⟩, ?_, ?_, ?_⟩
  · intro b hb; rw [haddr]; exact hs.succ_linked b hb
  · exact hso.of_key fun b _ => setWord_key
  · intro b hb htb
    by_cases e : b = a
    · exact e ▸ hal'
    · exact hal b hb (by rwa [hnode b e] at htb)
  · exact hs.trans_setWord (fun b e => by cases e; exact ha) ht subset_rfl fun _ _ h _ => h
  · exact hkey ▸ hs.present ha ht
  · ext k
    refine (Cells.mem_keys hw').trans ?_
    rw [Set.mem_sdiff, Mem.keys, Cells.mem_keys hw, Set.mem_singleton_iff]
    constructor
    · rintro ⟨b, hb, hd, hk⟩
      have hba : b ≠ a := by
        rintro rfl
        simp only [Mem.cells, hself, isDeleted_markDeleted] at hd
        cases hd
      refine ⟨⟨b, hb, by simpa only [Mem.cells, hnode b hba] using hd, by rw [← hk, setWord_key]⟩, ?_⟩
      rw [← hk, setWord_key]
      exact fun e => hba (hso.key_inj hb hal' (e.trans hkey.symm))
    · rintro ⟨⟨b, hb, hd, hk⟩, hne⟩
      have hba : b ≠ a := by rintro rfl; exact hne (hk ▸ hkey)
      exact ⟨b, hb, by simpa only [Mem.cells, hnode b hba] using hd, by rw [setWord_key, hk]⟩

/-- The compare-and-swap of `find` that unlinks a marked entry. -/
theorem Shape.unlink (hs : Shape pool s g) {key : Int} {loc : Loc} {cur next : Ptr}
    (hloc : PrevOk key s g loc) (hcur : s.word loc = cur) (htag : cur.tag = false)
    (hc : cur.addr ∈ g.linked) (hnext : (s.node cur.addr).nextEntry = next) (hdel : next.tag = true) :
    let s' := s.setWord loc (clearDeleted next)
    Shape pool s' g ∧ Trans i s g s' g ∧ s'.keys = s.keys := by
  intro s'
  subst hcur
  obtain ⟨l, hw, hso, hl, hal⟩ := hs.chain
  obtain ⟨hq, hsucc, hlt⟩ := hloc.onChain hs hw htag
  have hc0 : (s.word loc).addr ≠ 0 := fun e => hs.zero (e ▸ hc)
  obtain ⟨hs1, hs2⟩ := setWord_succ (s := s) (p := clearDeleted next) (hloc.ne_next_zero hs)
  have hnode : ∀ a, loc ≠ .next a → s'.node a = s.node a := fun a => setWord_node_ne
  obtain ⟨l', hw', hso', hmem⟩ := hso.unlink hw hq hc0 hsucc
    (by rw [hs1, cells_succ_next hc0, hnext, clearDeleted_addr]) (fun b _ => hs2 b)
    (fun b _ => setWord_key)
  have hdead : ∀ a ∈ l, s'.cells.dead a = s.cells.dead a := by
    intro a ha
    by_cases e : loc = .next a
    · subst e
      simp only [s', Mem.cells, Mem.setWord, Function.update_self, isDeleted]
      exact htag.symm
    · simp only [Mem.cells, hnode a e]
  refine ⟨⟨hs.pool_eq ▸ setWord_pool, ?_, hs.zero, ?_, ?_, hs.held, l', hw', hso', ?_, ?_⟩, ?_, ?_⟩
  · cases loc with
    | head => rfl
    | next a => exact hs.headTag
  · intro a ha
    by_cases e : loc = .next a
    · subst e
      simp only [s', Mem.setWord, Function.update_self, clearDeleted_addr, ← hnext]
      exact hs.succ_linked _ hc
    · rw [hnode a e]; exact hs.succ_linked a ha
  · intro k hk
    simpa only [s', setWord_pool] using hs.fresh k (by simpa only [s', setWord_brk] using hk)
  · exact fun a ha => hl a ((hmem a).1 ha).2
  · intro a ha ht
    by_cases e : loc = .next a
    · subst e
      refine (hmem a).2 ⟨?_, hal a ha htag⟩
      intro e
      rw [← e] at hnext
      have : next.tag = false := hnext ▸ htag
      simp [hdel] at this
    · rw [hnode a e] at ht
      refine (hmem a).2 ⟨?_, hal a ha ht⟩
      rintro rfl
      rw [hnext, hdel] at ht; cases ht
  · exact hs.trans_setWord hloc.mem htag subset_rfl fun _ _ h _ => h
  · ext k
    refine (Cells.mem_keys hw').trans ?_
    rw [Mem.keys, Cells.mem_keys hw]
    constructor
    · rintro ⟨a, ha, hd, hk⟩
      have hal := ((hmem a).1 ha).2
      exact ⟨a, hal, hdead a hal ▸ hd, by rw [← hk, setWord_key]⟩
    · rintro ⟨a, ha, hd, hk⟩
      refine ⟨a, (hmem a).2 ⟨?_, ha⟩, (hdead a ha).trans hd, by rw [setWord_key, hk]⟩
      rintro rfl
      simp only [Mem.cells, hnext, isDeleted, hdel] at hd
      cases hd

end

end OptimisticAccess.NoRecl
