import OptimisticAccess.Lib.Holdings
import OptimisticAccess.Lib.Linked
import OptimisticAccess.RC.List

/-!
# Who accounts for a reference count

Every count is a reference from a counted word, which is the list head or the `nextEntry` of a
live entry, or a reference in the hand of a thread. The compare-and-swaps of the list only move
references between words and hands, so `claims`, all references there are, changes with the
fetch-and-adds and the decrements alone. `Shape` is the invariant, `Trans` what any step of a
thread does, as the other threads see it.
-/

namespace OptimisticAccess.RC

open Conc

variable {n : Nat}

/-- The life of an entry: `raw` from `palloc`, `fresh` from `newRC`, `live` from the moment its
`nextEntry` counts, `dead` from the decrement that set its lowest bit, `free` on a `freeList`. -/
inductive Stage (n : Nat) where
  | unborn
  | raw (i : Fin n)
  | fresh (i : Fin n)
  | live
  | dead (i : Fin n)
  | free (i : Fin n)

namespace Stage

/-- Its `refcount` counts. -/
def Born : Stage n → Prop
  | unborn => False
  | raw _ => False
  | _ => True

/-- The lowest bit of `refcount`. -/
def bit : Stage n → Int
  | dead _ => 1
  | free _ => 1
  | _ => 0

/-- The one thread that writes `keyData` and `nextEntry`. -/
def owner : Stage n → Option (Fin n)
  | unborn => none
  | live => none
  | raw i => some i
  | fresh i => some i
  | dead i => some i
  | free i => some i

/-- What thread `i` may hold on to. -/
def Held (i : Fin n) : Stage n → Prop
  | live => True
  | fresh j => j = i
  | dead j => j = i
  | _ => False

end Stage

/-- The references of a thread. `held` are those in use; a count of `q` may be `lent` to a new
link while the `nextEntry` of `a` still counts for `q`. -/
structure Hand where
  refs : Multiset Nat
  held : Multiset Nat
  lent : Option (Nat × Nat)

namespace Hand

def loan (h : Hand) : Multiset Nat :=
  match h.lent with
  | none => 0
  | some (_, q) => {q}

structure Ok (h : Hand) : Prop where
  held : h.held ≤ h.refs + h.loan
  lender : ∀ a q, h.lent = some (a, q) → a ∈ h.refs

end Hand

/-- The proof's bookkeeping. -/
structure Ghost (n : Nat) where
  stage : Nat → Stage n
  hand : Fin n → Hand
  locs : Finset Loc
  frees : Fin n → List Nat

namespace Ghost

def setStage (g : Ghost n) (a : Nat) (st : Stage n) : Ghost n := { g with stage := Function.update g.stage a st }

def setHand (g : Ghost n) (i : Fin n) (h : Hand) : Ghost n := { g with hand := Function.update g.hand i h }

/-- The words that count. -/
def Counts (g : Ghost n) : Loc → Prop
  | .head => True
  | .next a => g.stage a = .live

end Ghost

/-- The reference a pointer is. -/
def own (p : Ptr) : Multiset Nat := if p.addr = 0 then 0 else {p.addr}

/-- All references. -/
def claims (s : Mem n) (g : Ghost n) : Multiset Nat :=
  ∑ l ∈ g.locs, own (s.word l) + ∑ i, (g.hand i).refs

def Mem.key (s : Mem n) (a : Nat) : Int := (getKey (s.node a).keyData).toInt

/-- The entry of a word is below a key. -/
def Below (s : Mem n) : Loc → Int → Prop
  | .head, _ => True
  | .next a, k => s.key a < k

def link (p : Ptr) : Option Nat := if p.addr = 0 then none else some p.addr

/-! ## The invariant -/

/-- The counted words lead to live entries, with keys that increase. -/
structure Net (s : Mem n) (g : Ghost n) : Prop where
  mem_locs : ∀ l, l ∈ g.locs ↔ g.Counts l
  headTag : s.entryHead.tag = false
  target : ∀ l ∈ g.locs, (s.word l).addr ≠ 0 →
    g.stage (s.word l).addr = .live ∧ Below s l (s.key (s.word l).addr)

structure Counted (s : Mem n) (g : Ghost n) : Prop where
  count : ∀ a, (g.stage a).Born →
    (s.node a).refcount = 2 * (Multiset.count a (claims s g) : Int) + (g.stage a).bit
  live : ∀ a, g.stage a = .live → a ∈ claims s g
  fresh : ∀ a i, g.stage a = .fresh i → a ∈ (g.hand i).refs
  born : ∀ i, ∀ a ∈ (g.hand i).refs, (g.stage a).Born

structure Hands (s : Mem n) (g : Ghost n) : Prop where
  ok : ∀ i, (g.hand i).Ok
  lent : ∀ i a q, (g.hand i).lent = some (a, q) →
    g.stage a = .live ∧ (s.node a).nextEntry = ⟨q, true⟩ ∧ q ≠ 0
  held : ∀ i, ∀ a ∈ (g.hand i).held, (g.stage a).Held i

structure Frees (s : Mem n) (g : Ghost n) : Prop where
  linked : ∀ i, Linked (fun a => link (s.node a).nextEntry) (link (s.freeList i)) (g.frees i)
  headTag : ∀ i, (s.freeList i).tag = false
  nextTag : ∀ i, ∀ a ∈ g.frees i, (s.node a).nextEntry.tag = false
  nodup : ∀ i, (g.frees i).Nodup
  mem : ∀ i a, a ∈ g.frees i ↔ g.stage a = .free i

structure Supply (pool : Nat → Nat) (s : Mem n) (g : Ghost n) : Prop where
  pool_eq : s.pool = pool
  zero : g.stage 0 = .unborn
  unborn : ∀ k, s.brk ≤ k → g.stage (pool k) = .unborn

structure Shape (pool : Nat → Nat) (s : Mem n) (g : Ghost n) : Prop where
  net : Net s g
  counted : Counted s g
  hands : Hands s g
  frees : Frees s g
  supply : Supply pool s g

/-- `a` is live before and after a step, under its key, and a set mark stays. -/
structure Lives (a : Nat) (s : Mem n) (s' : Mem n) (g' : Ghost n) : Prop where
  live : g'.stage a = .live
  key : (s'.node a).keyData = (s.node a).keyData
  frozen : (s.node a).nextEntry.tag = true → (s'.node a).nextEntry = (s.node a).nextEntry

/-- What a step of thread `i` may do. -/
structure Trans (i : Fin n) (s : Mem n) (g : Ghost n) (s' : Mem n) (g' : Ghost n) : Prop where
  hand : ∀ j, j ≠ i → g'.hand j = g.hand j
  freeList : ∀ j, j ≠ i → s'.freeList j = s.freeList j
  stage : ∀ j, j ≠ i → ∀ a, (g.stage a).owner = some j ∨ (g'.stage a).owner = some j → g'.stage a = g.stage a
  node : ∀ j, j ≠ i → ∀ a, (g.stage a).owner = some j → (s'.node a).toEntry = (s.node a).toEntry
  born : ∀ a, (g.stage a).Born → (g'.stage a).Born
  keep : ∀ a, g.stage a = .live → Lives a s s' g' ∨ ∀ j, a ∉ (g'.hand j).refs

theorem Trans.refl (i : Fin n) (s : Mem n) (g : Ghost n) : Trans i s g s g :=
  ⟨fun _ _ => rfl, fun _ _ => rfl, fun _ _ _ _ => rfl, fun _ _ _ _ => rfl, fun _ h => h,
    fun _ h => .inl ⟨h, rfl, fun _ => rfl⟩⟩

/-! ## Memory and bookkeeping after a write -/

section Write

variable {s s' : Mem n} {g g' : Ghost n} {i j : Fin n} {a b : Nat} {l : Loc} {p : Ptr}

@[simp] theorem setNode_self (e : Node) : (s.setNode a e).node a = e := Function.update_self ..

theorem setNode_of_ne (e : Node) (h : b ≠ a) : (s.setNode a e).node b = s.node b := Function.update_of_ne h ..

@[simp] theorem setRefcount_toEntry (r : Int) : ((s.setRefcount a r).node b).toEntry = (s.node b).toEntry := by
  by_cases h : b = a
  · subst h; rw [Mem.setRefcount, setNode_self]
  · rw [Mem.setRefcount, setNode_of_ne _ h]

@[simp] theorem setRefcount_word (r : Int) : (s.setRefcount a r).word l = s.word l := by
  cases l with
  | head => rfl
  | next b => exact congrArg Entry.nextEntry (setRefcount_toEntry r)

@[simp] theorem setRefcount_self (r : Int) : ((s.setRefcount a r).node a).refcount = r := by
  rw [Mem.setRefcount, setNode_self]

theorem setRefcount_of_ne (r : Int) (h : b ≠ a) :
    ((s.setRefcount a r).node b).refcount = (s.node b).refcount := by
  rw [Mem.setRefcount, setNode_of_ne _ h]

@[simp] theorem setNext_refcount : ((s.setNext a p).node b).refcount = (s.node b).refcount := by
  by_cases h : b = a
  · subst h; rw [Mem.setNext, setNode_self]
  · rw [Mem.setNext, setNode_of_ne _ h]

@[simp] theorem setNext_keyData : ((s.setNext a p).node b).keyData = (s.node b).keyData := by
  by_cases h : b = a
  · subst h; rw [Mem.setNext, setNode_self]
  · rw [Mem.setNext, setNode_of_ne _ h]

@[simp] theorem setNext_self : ((s.setNext a p).node a).nextEntry = p := by rw [Mem.setNext, setNode_self]

theorem setNext_of_ne (h : b ≠ a) : (s.setNext a p).node b = s.node b := setNode_of_ne _ h

@[simp] theorem setKeyData_self (kd : BitVec 64) : ((s.setKeyData a kd).node a).keyData = kd := by
  rw [Mem.setKeyData, setNode_self]

theorem setKeyData_of_ne (kd : BitVec 64) (h : b ≠ a) : (s.setKeyData a kd).node b = s.node b :=
  setNode_of_ne _ h

@[simp] theorem setKeyData_refcount (kd : BitVec 64) :
    ((s.setKeyData a kd).node b).refcount = (s.node b).refcount := by
  by_cases h : b = a
  · subst h; rw [Mem.setKeyData, setNode_self]
  · rw [setKeyData_of_ne kd h]

@[simp] theorem setKeyData_nextEntry (kd : BitVec 64) :
    ((s.setKeyData a kd).node b).nextEntry = (s.node b).nextEntry := by
  by_cases h : b = a
  · subst h; rw [Mem.setKeyData, setNode_self]
  · rw [setKeyData_of_ne kd h]

@[simp] theorem setWord_word : (s.setWord l p).word l = p := by
  cases l with
  | head => rfl
  | next a => exact setNext_self

theorem setWord_word_of_ne (l' : Loc) (h : l' ≠ l) : (s.setWord l p).word l' = s.word l' := by
  cases l with
  | head => cases l' with
    | head => exact absurd rfl h
    | next b => rfl
  | next a => cases l' with
    | head => rfl
    | next b => exact congrArg (·.nextEntry) (setNext_of_ne fun e => h (congrArg Loc.next e))

@[simp] theorem setWord_refcount : ((s.setWord l p).node b).refcount = (s.node b).refcount := by
  cases l with
  | head => rfl
  | next a => exact setNext_refcount

@[simp] theorem setWord_keyData : ((s.setWord l p).node b).keyData = (s.node b).keyData := by
  cases l with
  | head => rfl
  | next a => exact setNext_keyData

@[simp] theorem setWord_freeList : (s.setWord l p).freeList = s.freeList := by cases l <;> rfl

@[simp] theorem setWord_pool : (s.setWord l p).pool = s.pool := by cases l <;> rfl

@[simp] theorem setWord_brk : (s.setWord l p).brk = s.brk := by cases l <;> rfl

@[simp] theorem setHand_self (h : Hand) : (g.setHand i h).hand i = h := Function.update_self ..

theorem setHand_of_ne (h : Hand) (hj : j ≠ i) : (g.setHand i h).hand j = g.hand j := Function.update_of_ne hj ..

@[simp] theorem setStage_self (st : Stage n) : (g.setStage a st).stage a = st := Function.update_self ..

theorem setStage_of_ne (st : Stage n) (h : b ≠ a) : (g.setStage a st).stage b = g.stage b :=
  Function.update_of_ne h ..

@[simp] theorem own_eq_zero (h : p.addr = 0) : own p = 0 := if_pos h

@[simp] theorem own_of_ne (h : p.addr ≠ 0) : own p = {p.addr} := if_neg h

theorem mem_own : a ∈ own p ↔ a = p.addr ∧ p.addr ≠ 0 := by
  unfold own
  split
  · next h => simp [h]
  · next h => simp [h]

/-- References after one word and one hand have changed. -/
theorem claims_move (s s' : Mem n) (g g' : Ghost n) (i : Fin n) (hl : l ∈ g.locs) (hlocs : g'.locs = g.locs)
    (hword : ∀ l' ∈ g.locs, l' ≠ l → s'.word l' = s.word l') (hhand : ∀ j, j ≠ i → g'.hand j = g.hand j) :
    own (s.word l) + (g.hand i).refs + claims s' g' = own (s'.word l) + (g'.hand i).refs + claims s g := by
  have h1 := Holdings.sum_change (fun l => own (s.word l)) (fun l => own (s'.word l)) hl
    fun l' hl' hne => congrArg own (hword l' hl' hne)
  have h2 := Holdings.sum_change (fun j => (g.hand j).refs) (fun j => (g'.hand j).refs)
    (Finset.mem_univ i) fun j _ hj => congrArg Hand.refs (hhand j hj)
  unfold claims
  rw [hlocs, add_add_add_comm, h1, h2, add_add_add_comm]

theorem mem_claims : a ∈ claims s g ↔ (∃ l ∈ g.locs, a ∈ own (s.word l)) ∨ ∃ i, a ∈ (g.hand i).refs := by
  unfold claims
  rw [Multiset.mem_add, Holdings.mem_sum, Holdings.mem_sum]
  simp only [Finset.mem_univ, true_and]

/-- The same with all words as they were. -/
theorem claims_hand (s s' : Mem n) (g g' : Ghost n) (i : Fin n) (hlocs : g'.locs = g.locs) (hword : ∀ l ∈ g.locs, s'.word l = s.word l)
    (hhand : ∀ j, j ≠ i → g'.hand j = g.hand j) :
    (g.hand i).refs + claims s' g' = (g'.hand i).refs + claims s g := by
  have h2 := Holdings.sum_change (fun j => (g.hand j).refs) (fun j => (g'.hand j).refs)
    (Finset.mem_univ i) fun j _ hj => congrArg Hand.refs (hhand j hj)
  have h1 : ∑ l ∈ g'.locs, own (s'.word l) = ∑ l ∈ g.locs, own (s.word l) := by
    rw [hlocs]
    exact Finset.sum_congr rfl fun l hl => congrArg own (hword l hl)
  unfold claims
  rw [h1, add_left_comm, h2, add_left_comm]

end Write

/-! ## Parts of the invariant that a step leaves alone -/

section Frame

variable {pool : Nat → Nat} {s s' : Mem n} {g g' : Ghost n}

theorem Net.head (h : Net s g) : Loc.head ∈ g.locs := (h.mem_locs .head).2 trivial

theorem Net.next (h : Net s g) {a : Nat} (ha : g.stage a = .live) : Loc.next a ∈ g.locs :=
  (h.mem_locs (.next a)).2 ha

theorem Net.frame (h : Net s g) (hlocs : g'.locs = g.locs) (hstage : ∀ a, g'.stage a = .live ↔ g.stage a = .live)
    (hword : ∀ l ∈ g.locs, s'.word l = s.word l)
    (hkey : ∀ a, g.stage a = .live → (s'.node a).keyData = (s.node a).keyData) : Net s' g' := by
  have hk : ∀ a, g.stage a = .live → s'.key a = s.key a := fun a ha => by rw [Mem.key, hkey a ha]; rfl
  constructor
  · intro l
    rw [hlocs, h.mem_locs]
    cases l with
    | head => rfl
    | next a => exact (hstage a).symm
  · exact (congrArg Ptr.tag (hword .head h.head)).trans h.headTag
  · intro l hl h0
    rw [hlocs] at hl
    rw [hword l hl] at h0 ⊢
    obtain ⟨hlive, hbelow⟩ := h.target l hl h0
    refine ⟨(hstage _).2 hlive, ?_⟩
    rw [hk _ hlive]
    cases l with
    | head => trivial
    | next b =>
      rw [Below, hk b ((h.mem_locs _).1 hl)]
      exact hbelow

theorem Frees.frame (h : Frees s g) (hfrees : g'.frees = g.frees) (hlist : s'.freeList = s.freeList)
    (hnext : ∀ i a, g.stage a = .free i → (s'.node a).nextEntry = (s.node a).nextEntry)
    (hstage : ∀ i a, g'.stage a = .free i ↔ g.stage a = .free i) : Frees s' g' := by
  constructor
  · intro i
    rw [hfrees, hlist]
    exact (h.linked i).congr fun a ha => by rw [hnext i a ((h.mem i a).1 ha)]
  · intro i
    rw [hlist]; exact h.headTag i
  · intro i a ha
    rw [hfrees] at ha
    rw [hnext i a ((h.mem i a).1 ha)]; exact h.nextTag i a ha
  · intro i
    rw [hfrees]; exact h.nodup i
  · intro i a
    rw [hfrees, h.mem, hstage]

theorem Supply.frame (h : Supply pool s g) (hpool : s'.pool = s.pool) (hbrk : s'.brk = s.brk)
    (hstage : ∀ a, g.stage a = .unborn → g'.stage a = .unborn) : Supply pool s' g' := by
  constructor
  · rw [hpool]; exact h.pool_eq
  · exact hstage 0 h.zero
  · intro k hk
    rw [hbrk] at hk
    exact hstage _ (h.unborn k hk)

end Frame

/-! ## What the invariant says of one entry -/

section Shape

variable {pool : Nat → Nat} {s s' : Mem n} {g g' : Ghost n} {i j : Fin n} {a b : Nat}

theorem Shape.live_of_word (hs : Shape pool s g) {l : Loc} (hl : l ∈ g.locs) (ha : a ∈ own (s.word l)) :
    g.stage a = .live := by
  obtain ⟨rfl, h0⟩ := mem_own.1 ha
  exact (hs.net.target l hl h0).1

theorem Shape.born_of_claim (hs : Shape pool s g) (ha : a ∈ claims s g) : (g.stage a).Born := by
  obtain ⟨l, hl, ha⟩ | ⟨i, ha⟩ := mem_claims.1 ha
  · rw [hs.live_of_word hl ha]; trivial
  · exact hs.counted.born i a ha

theorem Shape.ne_zero (hs : Shape pool s g) (ha : (g.stage a).Born) : a ≠ 0 := by
  rintro rfl
  rw [hs.supply.zero] at ha
  exact ha

/-- An entry that was ever initialised has a positive count. -/
theorem Shape.refcount_pos (hs : Shape pool s g) (ha : (g.stage a).Born) : 1 ≤ (s.node a).refcount := by
  rw [hs.counted.count a ha]
  have hpos : ∀ m : Multiset Nat, a ∈ m → (1 : Int) ≤ Multiset.count a m := fun m hm => by
    have := Multiset.count_pos.2 hm
    omega
  cases hst : g.stage a with
  | unborn => rw [hst] at ha; exact absurd ha id
  | raw i => rw [hst] at ha; exact absurd ha id
  | fresh i =>
    have := hpos (claims s g) (mem_claims.2 (.inr ⟨i, hs.counted.fresh a i hst⟩))
    simp only [Stage.bit]; omega
  | live =>
    have := hpos (claims s g) (hs.counted.live a hst)
    simp only [Stage.bit]; omega
  | dead i => simp only [Stage.bit]; omega
  | free i => simp only [Stage.bit]; omega

/-- The holder of the only reference: no word and no other thread refers to the entry. -/
structure Sole (s : Mem n) (g : Ghost n) (i : Fin n) (a : Nat) : Prop where
  live : g.stage a = .live
  count : Multiset.count a (claims s g) = 1
  word : ∀ l ∈ g.locs, a ∉ own (s.word l)
  hand : ∀ j, j ≠ i → a ∉ (g.hand j).refs
  once : Multiset.count a (g.hand i).refs = 1

theorem Shape.sole (hs : Shape pool s g) (hfresh : g.stage a ≠ .fresh i) (ha : a ∈ (g.hand i).refs)
    (hr : (s.node a).refcount = 2) : Sole s g i a := by
  have hborn := hs.counted.born i a ha
  have hcount := hs.counted.count a hborn
  have hsplit : Multiset.count a (claims s g) = Multiset.count a (∑ l ∈ g.locs, own (s.word l)) +
      Multiset.count a (∑ j, (g.hand j).refs) := Multiset.count_add ..
  have hin := Multiset.count_le_of_le a (Holdings.le_sum (f := fun j => (g.hand j).refs) (Finset.mem_univ i))
  have hone := Multiset.count_pos.2 ha
  have htwo : ∀ j, j ≠ i → a ∈ (g.hand j).refs → 2 ≤ Multiset.count a (∑ j, (g.hand j).refs) :=
    fun j hj haj => Holdings.two_le_count (f := fun j => (g.hand j).refs) (Finset.mem_univ j)
      (Finset.mem_univ i) hj haj ha
  have hbit : (g.stage a).bit = 0 ∧ Multiset.count a (claims s g) = 1 := by
    cases hst : g.stage a with
    | dead j => rw [hr, hst] at hcount; simp only [Stage.bit] at hcount; omega
    | free j => rw [hr, hst] at hcount; simp only [Stage.bit] at hcount; omega
    | unborn => rw [hr, hst] at hcount; simp only [Stage.bit] at hcount; exact ⟨rfl, by omega⟩
    | raw j => rw [hr, hst] at hcount; simp only [Stage.bit] at hcount; exact ⟨rfl, by omega⟩
    | fresh j => rw [hr, hst] at hcount; simp only [Stage.bit] at hcount; exact ⟨rfl, by omega⟩
    | live => rw [hr, hst] at hcount; simp only [Stage.bit] at hcount; exact ⟨rfl, by omega⟩
  have hother : ∀ j, j ≠ i → a ∉ (g.hand j).refs := fun j hj haj => by
    have := htwo j hj haj
    omega
  refine ⟨?_, hbit.2, fun l hl hal => ?_, hother, by omega⟩
  · cases hst : g.stage a with
    | live => rfl
    | fresh j =>
      have hji : j ≠ i := fun e => hfresh (e ▸ hst)
      exact absurd (hs.counted.fresh a j hst) (hother j hji)
    | dead j => rw [hst] at hbit; exact absurd hbit.1 Int.one_ne_zero
    | free j => rw [hst] at hbit; exact absurd hbit.1 Int.one_ne_zero
    | unborn => rw [hst] at hborn; exact absurd hborn id
    | raw j => rw [hst] at hborn; exact absurd hborn id
  · have := Multiset.count_pos.2 (Holdings.mem_sum (f := fun l => own (s.word l)).2 ⟨l, hl, hal⟩)
    omega

end Shape

end OptimisticAccess.RC
