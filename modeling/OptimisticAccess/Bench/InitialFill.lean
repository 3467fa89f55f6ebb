import Mathlib.Data.List.Perm.Subperm
import OptimisticAccess.Entry
import OptimisticAccess.Lib.SortedChain

/-!
# The initial fill of `main_test.c`

Before the threads start, the list is filled by insertions that take a short cut: `mid` is an
entry in the middle of the list, and a key above it is searched for from there on.
-/

namespace OptimisticAccess.Bench.Fill

/-- The memory; `pool` are the results of the allocator, of which `brk` have been handed out. -/
structure Mem where
  entryHead : Ptr
  node : Nat → Entry
  pool : Nat → Nat
  brk : Nat
  mid : Ptr
  midkey : CInt

def Mem.word (s : Mem) : Loc → Ptr
  | .head => s.entryHead
  | .next a => (s.node a).nextEntry

def Mem.setWord (s : Mem) : Loc → Ptr → Mem
  | .head, p => { s with entryHead := p }
  | .next a, p => { s with node := Function.update s.node a { s.node a with nextEntry := p } }

structure ThreadLocal where
  prev : Loc
  cur : Ptr
  deriving DecidableEq

/-- The loop of `findFAST`; `none` is a loop that has not ended. -/
def findLoop (s : Mem) (key : CInt) : Nat → ThreadLocal → Option (Bool × ThreadLocal)
  | 0, _ => none
  | fuel + 1, fres =>
    if fres.cur = NULL then some (false, fres)
    else
      let next := (s.node fres.cur.addr).nextEntry
      let ckey := getKey (s.node fres.cur.addr).keyData
      if ckey.toInt ≥ key.toInt then some (ckey == key, fres)
      else findLoop s key fuel ⟨.next fres.cur.addr, next⟩

def findFAST (fuel : Nat) (s : Mem) (entryHead : Loc) (key : CInt) : Option (Bool × ThreadLocal) :=
  findLoop s key fuel ⟨entryHead, s.word entryHead⟩

def palloc (s : Mem) : Ptr × Mem := (⟨s.pool s.brk, false⟩, { s with brk := s.brk + 1 })

/-- The loop body of `ListInsertFAST`, which is left in its first round. -/
def insertFrom (fuel : Nat) (entryHead : Loc) (key : CInt) (s : Mem) : Option (Bool × Mem) := do
  let (found, fres) ← findFAST fuel s entryHead key
  if found then return (false, s)
  else
    let (newEntry, s) := palloc s
    let s := { s with node := Function.update s.node newEntry.addr ⟨keyWord key, fres.cur⟩ }
    let s := s.setWord fres.prev newEntry
    if key.toInt < s.midkey.toInt ∧ (s.mid = NULL ∨ key.toInt > (getKey (s.node s.mid.addr).keyData).toInt) then
      return (true, { s with mid := newEntry })
    else return (true, s)

/-- In list mode. The depth of the recursion is a part of the fuel; `data` is not read. -/
def ListInsertFAST (fuel : Nat) (entryHead : Loc) (key _data : CInt) (s : Mem) : Option (Bool × Mem) :=
  match fuel with
  | 0 => none
  | fuel + 1 =>
    if s.mid ≠ NULL ∧ entryHead ≠ .next s.mid.addr ∧ key.toInt > (getKey (s.node s.mid.addr).keyData).toInt then
      ListInsertFAST fuel (.next s.mid.addr) key _data s
    else insertFrom fuel entryHead key s

/-- The calls of `initialize_ds`, or those of an insertion without short cut. -/
def fill (insert : CInt → Mem → Option (Bool × Mem)) : List CInt → Mem → Option (List Bool × Mem)
  | [], s => some ([], s)
  | key :: keys, s => do
    let (result, s) ← insert key s
    let (results, s) ← fill insert keys s
    return (result :: results, s)

/-- `initialize_ds` up to its loop. -/
def initialize_ds (elementsRange : CInt) (node : Nat → Entry) (pool : Nat → Nat) : Mem where
  entryHead := NULL
  node := node
  pool := pool
  brk := 0
  mid := NULL
  midkey := elementsRange.sdiv 2

/-! ## The list -/

def Mem.key (s : Mem) (a : Nat) : CInt := getKey (s.node a).keyData

/-- The memory as cells, the list head in the sentinel. -/
def Mem.cells (s : Mem) : Cells where
  succ p := if p = 0 then s.entryHead.addr else (s.node p).nextEntry.addr
  dead _ := false
  key a := (s.key a).toInt

def loc (p : Nat) : Loc := if p = 0 then .head else .next p

/-- The list `l` holds the keys of `keys`; its entries are the first of the allocator, and `mid` is one of them. -/
structure Shape (s : Mem) (l : List Nat) (keys : List CInt) : Prop where
  walk : Walk s.cells.succ 0 l
  sorted : s.cells.Sorted l
  untagged : ∀ p ∈ 0 :: l, (s.word (loc p)).tag = false
  taken : ∀ a ∈ l, ∃ t < s.brk, s.pool t = a
  length : l.length ≤ s.brk
  mid : s.mid = NULL ∨ s.mid.tag = false ∧ s.mid.addr ∈ l
  keys : ∀ k, k ∈ l.map s.key ↔ k ∈ keys

variable {s : Mem} {l : List Nat} {keys : List CInt} {key : CInt} {p q : Nat}

theorem word_addr (s : Mem) (p : Nat) : (s.word (loc p)).addr = s.cells.succ p := by
  by_cases h : p = 0
  · subst h
    rfl
  · rw [loc, if_neg h]
    exact (if_neg h).symm

theorem Shape.word_eq (h : Shape s l keys) (hp : p ∈ 0 :: l) : s.word (loc p) = ⟨s.cells.succ p, false⟩ := by
  rw [← word_addr, ← h.untagged p hp]

/-- `p` is the last cell below `key`. -/
structure Gap (s : Mem) (key : CInt) (l : List Nat) (p : Nat) : Prop where
  mem : p ∈ 0 :: l
  below : p = 0 ∨ (s.key p).toInt < key.toInt
  above : s.cells.succ p = 0 ∨ key.toInt ≤ (s.key (s.cells.succ p)).toInt

/-- No cell behind a gap is below the key. -/
theorem Gap.not_behind (h : Shape s l keys) (hp : Gap s key l p) (hq : Gap s key l q) {m r : List Nat}
    (e : 0 :: l = m ++ p :: r) (hw : Walk s.cells.succ p r) : q ∉ r := by
  intro hqr
  have hlt : (s.key q).toInt < key.toInt := hq.below.resolve_left (hw.ne_zero hqr)
  cases r with
  | nil => cases hqr
  | cons b r =>
    obtain ⟨hb, hb0, -⟩ := hw
    have hkb : key.toInt ≤ (s.key b).toInt := hb ▸ hp.above.resolve_left (hb.symm ▸ hb0)
    rcases List.mem_cons.1 hqr with rfl | hqr
    · omega
    · have e' : 0 :: l = (m ++ [p]) ++ b :: r := by rw [e]; simp
      have hbq := ((h.sorted.around e').2 q hqr).2.resolve_left hb0
      exact absurd (hkb.trans_lt hbq) hlt.not_gt

theorem Gap.unique (h : Shape s l keys) (hp : Gap s key l p) (hq : Gap s key l q) : p = q := by
  obtain ⟨m, r, e, hw⟩ := h.walk.split hp.mem
  obtain ⟨m', r', e', hw'⟩ := h.walk.split hq.mem
  have hqm : q ∈ m ++ p :: r := e ▸ hq.mem
  have hpm : p ∈ m' ++ q :: r' := e' ▸ hp.mem
  rcases List.mem_append.1 hqm with hqm | hqr
  · rcases List.mem_append.1 hpm with hpm | hpr
    · -- each would lie below the other
      have hqp := (h.sorted.around e).1 q hqm
      have hpq := (h.sorted.around e').1 p hpm
      have h1 := hqp.2.resolve_left hpq.1
      have h2 := hpq.2.resolve_left hqp.1
      omega
    · exact (List.mem_cons.1 hpr).resolve_right (Gap.not_behind h hq hp e' hw')
  · exact ((List.mem_cons.1 hqr).resolve_right (Gap.not_behind h hp hq e hw)).symm

/-- The loop of `findFAST` from a cell below the key. -/
theorem findLoop_spec (h : Shape s l keys) {r : List Nat} {fuel : Nat} (hr : Walk s.cells.succ q r) (hmem : ∀ a ∈ q :: r, a ∈ 0 :: l)
    (hq : q = 0 ∨ (s.key q).toInt < key.toInt) (hfuel : r.length < fuel) :
    ∃ p, Gap s key l p ∧ findLoop s key fuel ⟨loc q, s.word (loc q)⟩ =
      some (decide (s.cells.succ p ≠ 0 ∧ s.key (s.cells.succ p) = key), ⟨loc p, s.word (loc p)⟩) := by
  induction r generalizing q fuel with
  | nil =>
    obtain ⟨fuel, rfl⟩ := Nat.exists_eq_succ_of_ne_zero (Nat.ne_zero_of_lt hfuel)
    have hql : q ∈ 0 :: l := hmem q List.mem_cons_self
    have hnull : s.word (loc q) = NULL := by rw [h.word_eq hql, hr]; rfl
    refine ⟨q, ⟨hql, hq, .inl hr⟩, ?_⟩
    rw [findLoop, if_pos hnull, decide_eq_false fun hne => hne.1 hr]
  | cons a r ih =>
    obtain ⟨fuel, rfl⟩ := Nat.exists_eq_succ_of_ne_zero (Nat.ne_zero_of_lt hfuel)
    obtain ⟨ha, ha0, hr⟩ := hr
    have hql : q ∈ 0 :: l := hmem q List.mem_cons_self
    have hword : s.word (loc q) = ⟨a, false⟩ := by rw [h.word_eq hql, ha]
    have hne : s.word (loc q) ≠ NULL := fun e => ha0 (congrArg Ptr.addr (hword.symm.trans e))
    rw [findLoop, if_neg hne]
    simp only [hword]
    by_cases hge : (getKey (s.node a).keyData).toInt ≥ key.toInt
    · refine ⟨q, ⟨hql, hq, .inr (ha.symm ▸ hge)⟩, ?_⟩
      rw [if_pos hge, hword, ha, Bool.decide_and, decide_eq_true ha0, Bool.true_and]
      rfl
    · rw [if_neg hge]
      obtain ⟨p, hp, hfind⟩ := ih hr (fun b hb => hmem b (List.mem_cons_of_mem q hb)) (.inr (not_le.1 hge))
        (Nat.lt_of_succ_lt_succ hfuel)
      refine ⟨p, hp, ?_⟩
      rwa [loc, if_neg ha0] at hfind

theorem findFAST_spec (h : Shape s l keys) {fuel : Nat} (hmem : q ∈ 0 :: l) (hq : q = 0 ∨ (s.key q).toInt < key.toInt)
    (hfuel : l.length < fuel) :
    ∃ p, Gap s key l p ∧ findFAST fuel s (loc q) key =
      some (decide (s.cells.succ p ≠ 0 ∧ s.key (s.cells.succ p) = key), ⟨loc p, s.word (loc p)⟩) := by
  obtain ⟨m, r, e, hr⟩ := h.walk.split hmem
  have hlen : l.length + 1 = m.length + (r.length + 1) := by
    rw [← List.length_cons, e, List.length_append, List.length_cons]
  exact findLoop_spec h hr (fun a ha => e ▸ List.mem_append_right m ha) hq (by omega)

/-- The search ends in one place, wherever below the key it starts. -/
theorem findFAST_eq (h : Shape s l keys) {fuel fuel' : Nat} (hmem : q ∈ 0 :: l) (hq : q = 0 ∨ (s.key q).toInt < key.toInt)
    (hfuel : l.length < fuel) (hfuel' : l.length < fuel') : findFAST fuel s (loc q) key = findFAST fuel' s .head key := by
  obtain ⟨p, hp, e⟩ := findFAST_spec h hmem hq hfuel
  obtain ⟨p', hp', e'⟩ := findFAST_spec (q := 0) h List.mem_cons_self (.inl rfl) hfuel'
  obtain rfl := hp.unique h hp'
  exact e.trans e'.symm

/-! ## Insertion -/

/-- A new entry with `key` behind cell `p`. -/
def Mem.link (s : Mem) (key : CInt) (p : Nat) : Mem :=
  { s with
    brk := s.brk + 1
    node := Function.update s.node (s.pool s.brk) ⟨keyWord key, s.word (loc p)⟩ }.setWord (loc p) ⟨s.pool s.brk, false⟩

@[simp] theorem Mem.brk_link : (s.link key p).brk = s.brk + 1 := by
  rw [link]
  cases loc p <;> rfl

@[simp] theorem Mem.pool_link : (s.link key p).pool = s.pool := by
  rw [link]
  cases loc p <;> rfl

@[simp] theorem Mem.mid_link : (s.link key p).mid = s.mid := by
  rw [link]
  cases loc p <;> rfl

@[simp] theorem Mem.midkey_link : (s.link key p).midkey = s.midkey := by
  rw [link]
  cases loc p <;> rfl

theorem Mem.keyData_link (hp : p ≠ s.pool s.brk) (a : Nat) :
    ((s.link key p).node a).keyData = if a = s.pool s.brk then keyWord key else (s.node a).keyData := by
  by_cases h0 : p = 0
  · subst h0
    change (Function.update s.node (s.pool s.brk) _ a).keyData = _
    rw [Function.update_apply]
    split <;> rfl
  · rw [link, loc, if_neg h0]
    change (Function.update (Function.update s.node (s.pool s.brk) _) p
      { Function.update s.node (s.pool s.brk) _ p with nextEntry := _ } a).keyData = _
    rw [Function.update_of_ne hp, Function.update_apply]
    split
    · next h =>
      subst h
      rw [if_neg hp]
    · rw [Function.update_apply]
      split <;> rfl

theorem Mem.word_link (hp : p ≠ s.pool s.brk) (hn : s.pool s.brk ≠ 0) (q : Nat) :
    (s.link key p).word (loc q) =
      if q = p then ⟨s.pool s.brk, false⟩ else if q = s.pool s.brk then s.word (loc p) else s.word (loc q) := by
  by_cases hp0 : p = 0
  · subst hp0
    by_cases hq0 : q = 0
    · subst hq0
      rw [if_pos rfl]
      rfl
    · rw [if_neg hq0, loc, if_neg hq0]
      change (Function.update s.node (s.pool s.brk) _ q).nextEntry = _
      rw [Function.update_apply]
      split <;> rfl
  · by_cases hq0 : q = 0
    · subst hq0
      rw [if_neg (Ne.symm hp0), if_neg hn.symm, link, show loc p = .next p from if_neg hp0]
      rfl
    · rw [link, show loc p = .next p from if_neg hp0, show loc q = .next q from if_neg hq0]
      change (Function.update (Function.update s.node (s.pool s.brk) _) p
        { Function.update s.node (s.pool s.brk) _ p with nextEntry := _ } q).nextEntry = _
      rw [Function.update_apply]
      split
      · rfl
      · rw [Function.update_apply]
        split <;> rfl

/-- A key between `p` and its successor is not in the list. -/
theorem Gap.not_mem (h : Shape s l keys) (hp : Gap s key l p) (hne : ¬ (s.cells.succ p ≠ 0 ∧ s.key (s.cells.succ p) = key)) :
    key ∉ keys := by
  intro hkey
  obtain ⟨a, ha, hak⟩ := List.mem_map.1 ((h.keys key).2 hkey)
  refine h.sorted.not_mem_keys h.walk hp.mem (k := key.toInt) hp.below ?_ ((Cells.mem_keys h.walk).2 ⟨a, ha, rfl, by rw [← hak]; rfl⟩)
  by_cases h0 : s.cells.succ p = 0
  · exact .inl h0
  · have hle := hp.above.resolve_left h0
    have hkne : (s.key (s.cells.succ p)).toInt ≠ key.toInt := fun e => hne ⟨h0, BitVec.eq_of_toInt_eq e⟩
    exact .inr (lt_of_le_of_ne hle hkne.symm)

theorem Shape.link (h : Shape s l keys) (hp : Gap s key l p) (hne : ¬ (s.cells.succ p ≠ 0 ∧ s.key (s.cells.succ p) = key))
    (hpos : ∀ t, s.pool t ≠ 0) (hinj : Function.Injective s.pool) :
    ∃ l', Shape (s.link key p) l' (key :: keys) ∧ s.pool s.brk ∈ l' := by
  have hn : s.pool s.brk ≠ 0 := hpos s.brk
  have hnl : s.pool s.brk ∉ l := fun hmem => by
    obtain ⟨t, ht, e⟩ := h.taken _ hmem
    exact absurd (hinj e) ht.ne
  have hpn : p ≠ s.pool s.brk := fun e => by
    rcases List.mem_cons.1 hp.mem with h0 | hpl
    · exact hn (e.symm.trans h0)
    · exact hnl (e ▸ hpl)
  have hne0 : ∀ b ∈ 0 :: l, b ≠ s.pool s.brk := fun b hb e => by
    rcases List.mem_cons.1 hb with rfl | hbl
    · exact hn e.symm
    · exact hnl (e ▸ hbl)
  have hword : ∀ b, (s.link key p).word (loc b) = if b = p then ⟨s.pool s.brk, false⟩ else
      if b = s.pool s.brk then s.word (loc p) else s.word (loc b) := Mem.word_link hpn hn
  have hkeyOf : ∀ b ∈ l, (s.link key p).key b = s.key b := fun b hb => by
    rw [Mem.key, Mem.keyData_link hpn, if_neg (hne0 b (List.mem_cons_of_mem 0 hb))]
    rfl
  have hkeyNew : (s.link key p).key (s.pool s.brk) = key := by
    rw [Mem.key, Mem.keyData_link hpn, if_pos rfl, getKey_keyWord]
  have hgap : s.cells.succ p = 0 ∨ key.toInt < (s.key (s.cells.succ p)).toInt := by
    by_cases h0 : s.cells.succ p = 0
    · exact .inl h0
    · have hkne : (s.key (s.cells.succ p)).toInt ≠ key.toInt := fun e => hne ⟨h0, BitVec.eq_of_toInt_eq e⟩
      exact .inr (lt_of_le_of_ne (hp.above.resolve_left h0) hkne.symm)
  obtain ⟨l', hw', hs', hmem⟩ : ∃ l', Walk (s.link key p).cells.succ 0 l' ∧ (s.link key p).cells.Sorted l' ∧ _ :=
    h.sorted.link (n := s.pool s.brk) h.walk hp.mem hn hnl
    (by rw [← word_addr, hword, if_pos rfl])
    (by rw [← word_addr, hword, if_neg hpn.symm, if_pos rfl, word_addr])
    (fun b hb hbp => by rw [← word_addr, hword, if_neg hbp, if_neg (hne0 b hb), word_addr])
    (fun b hb => congrArg BitVec.toInt (hkeyOf b hb))
    (hp.below.imp_right fun hlt => by
      change (s.key p).toInt < ((s.link key p).key (s.pool s.brk)).toInt
      rwa [hkeyNew])
    (hgap.imp_right fun hlt => by
      change ((s.link key p).key (s.pool s.brk)).toInt < _
      rw [hkeyNew]
      exact hlt)
  have hnew : s.pool s.brk ∈ l' := (hmem _).2 (.inl rfl)
  refine ⟨l', ⟨hw', hs', fun q hq => ?_, fun a ha => ?_, ?_, ?_, fun k => ?_⟩, hnew⟩
  · rw [hword]
    split
    · rfl
    · split
      · exact h.untagged p hp.mem
      · next hqn =>
        refine h.untagged q (List.mem_cons.2 ((List.mem_cons.1 hq).imp_right fun hq => ((hmem q).1 hq).resolve_left hqn))
  · rw [Mem.brk_link, Mem.pool_link]
    rcases (hmem a).1 ha with rfl | ha
    · exact ⟨s.brk, Nat.lt_succ_self _, rfl⟩
    · obtain ⟨t, ht, e⟩ := h.taken a ha
      exact ⟨t, Nat.lt_succ_of_lt ht, e⟩
  · have hsub : l' ⊆ s.pool s.brk :: l := fun a ha => List.mem_cons.2 ((hmem a).1 ha)
    have hle := ((List.nodup_cons.1 hw'.nodup).2.subperm hsub).length_le
    rw [List.length_cons] at hle
    rw [Mem.brk_link]
    exact hle.trans (Nat.succ_le_succ h.length)
  · rw [Mem.mid_link]
    exact h.mid.imp_right fun hm => ⟨hm.1, (hmem _).2 (.inr hm.2)⟩
  · rw [List.mem_cons, ← h.keys k, List.mem_map, List.mem_map]
    constructor
    · rintro ⟨a, ha, rfl⟩
      rcases (hmem a).1 ha with rfl | ha
      · exact .inl hkeyNew
      · exact .inr ⟨a, ha, (hkeyOf a ha).symm⟩
    · rintro (rfl | ⟨a, ha, rfl⟩)
      · exact ⟨_, hnew, hkeyNew⟩
      · exact ⟨a, (hmem a).2 (.inr ha), hkeyOf a ha⟩

/-- `mid` may move to any entry of the list. -/
theorem Shape.setMid (h : Shape s l keys) {n : Nat} (hn : n ∈ l) : Shape { s with mid := ⟨n, false⟩ } l keys :=
  { h with mid := .inr ⟨rfl, hn⟩ }

/-- The keys of `keys` are in a list that allocates from `pool`. -/
def Holds (pool : Nat → Nat) (s : Mem) (keys : List CInt) : Prop := s.pool = pool ∧ s.brk ≤ keys.length ∧ ∃ l, Shape s l keys

variable {pool : Nat → Nat} {fuel : Nat}

/-- Insertion from any cell below the key is that from the head. -/
theorem insertFrom_eq (h : Shape s l keys) {fuel fuel' : Nat} (hmem : q ∈ 0 :: l) (hq : q = 0 ∨ (s.key q).toInt < key.toInt)
    (hfuel : l.length < fuel) (hfuel' : l.length < fuel') : insertFrom fuel (loc q) key s = insertFrom fuel' .head key s := by
  rw [insertFrom, insertFrom, findFAST_eq h hmem hq hfuel hfuel']

theorem insertFrom_spec (hpos : ∀ t, pool t ≠ 0) (hinj : Function.Injective pool) (h : Holds pool s keys)
    (hfuel : keys.length < fuel) (key : CInt) :
    ∃ s', insertFrom fuel .head key s = some (decide (key ∉ keys), s') ∧ Holds pool s' (key :: keys) := by
  obtain ⟨rfl, hbrk, l, h⟩ := h
  obtain ⟨p, hp, hfind⟩ : ∃ p, Gap s key l p ∧ findFAST fuel s (loc 0) key = _ := findFAST_spec h List.mem_cons_self (.inl rfl)
    ((h.length.trans hbrk).trans_lt hfuel)
  rw [insertFrom, show Loc.head = loc 0 from rfl, hfind]
  by_cases hfound : s.cells.succ p ≠ 0 ∧ s.key (s.cells.succ p) = key
  · have hmem : key ∈ keys := by
      have hsl := (h.walk.succ_mem hp.mem).resolve_left hfound.1
      exact (h.keys key).1 (List.mem_map.2 ⟨_, hsl, hfound.2⟩)
    rw [decide_eq_true hfound, decide_eq_false (not_not.2 hmem)]
    refine ⟨s, rfl, rfl, Nat.le_succ_of_le hbrk, l, { h with keys := fun k => ?_ }⟩
    rw [h.keys k, List.mem_cons]
    exact ⟨.inr, fun hk => hk.elim (fun e => e ▸ hmem) id⟩
  · obtain ⟨l', h', hnew⟩ := h.link hp hfound hpos hinj
    have hbrk' : (s.link key p).brk ≤ (key :: keys).length := by
      rw [Mem.brk_link]
      exact Nat.succ_le_succ hbrk
    rw [decide_eq_false hfound, decide_eq_true (hp.not_mem h hfound)]
    by_cases hmid : key.toInt < (s.link key p).midkey.toInt ∧
        ((s.link key p).mid = NULL ∨ key.toInt > (getKey ((s.link key p).node (s.link key p).mid.addr).keyData).toInt)
    · exact ⟨{ s.link key p with mid := ⟨s.pool s.brk, false⟩ }, if_pos hmid, Mem.pool_link, hbrk', l', h'.setMid hnew⟩
    · exact ⟨s.link key p, if_neg hmid, Mem.pool_link, hbrk', l', h'⟩

/-- The short cut changes nothing. -/
theorem ListInsertFAST_eq (h : Shape s l keys) (hfuel : l.length + 2 < fuel) (key data : CInt) :
    ListInsertFAST fuel .head key data s = insertFrom fuel .head key s := by
  obtain ⟨fuel, rfl⟩ : ∃ m, fuel = m + 2 := ⟨fuel - 2, by omega⟩
  rw [ListInsertFAST]
  split
  · next hmid =>
    obtain ⟨-, hmem⟩ := h.mid.resolve_left hmid.1
    have hne : s.mid.addr ≠ 0 := h.walk.ne_zero hmem
    rw [ListInsertFAST, if_neg fun hagain => hagain.2.1 rfl, show Loc.next s.mid.addr = loc s.mid.addr from (if_neg hne).symm]
    exact insertFrom_eq h (List.mem_cons_of_mem 0 hmem) (.inr hmid.2.2) (by omega) (by omega)
  · exact insertFrom_eq (q := 0) h List.mem_cons_self (.inl rfl) (by omega) (by omega)

/-! ## The whole fill -/

/-- For each call, whether its key is new. -/
def firstTimes : List CInt → List CInt → List Bool
  | _, [] => []
  | seen, key :: keys => decide (key ∉ seen) :: firstTimes (key :: seen) keys

theorem fill_spec (hpos : ∀ t, pool t ≠ 0) (hinj : Function.Injective pool) (keys : List CInt) {seen : List CInt} {s : Mem}
    (h : Holds pool s seen) (hfuel : seen.length + keys.length + 2 < fuel) :
    ∃ s', fill (ListInsertFAST fuel .head · 0) keys s = some (firstTimes seen keys, s') ∧
      fill (insertFrom fuel .head) keys s = some (firstTimes seen keys, s') ∧ Holds pool s' (keys.reverse ++ seen) := by
  induction keys generalizing seen s with
  | nil => exact ⟨s, rfl, rfl, h⟩
  | cons key keys ih =>
    rw [List.length_cons] at hfuel
    obtain ⟨s1, hs1, h1⟩ := insertFrom_spec hpos hinj h (by omega : seen.length < fuel) key
    obtain ⟨-, hbrk, l, hl⟩ := h
    have hlen := hl.length
    have hfast := (ListInsertFAST_eq hl (by omega) key 0).trans hs1
    obtain ⟨s2, hs2, hs2', h2⟩ := ih h1 (by rw [List.length_cons]; omega)
    refine ⟨s2, ?_, ?_, ?_⟩
    · rw [fill, hfast]
      change (fill _ keys s1).bind _ = _
      rw [hs2]
      rfl
    · rw [fill, hs1]
      change (fill _ keys s1).bind _ = _
      rw [hs2']
      rfl
    · rwa [List.reverse_cons, List.append_assoc]

theorem holds_initialize_ds (elementsRange : CInt) (node : Nat → Entry) (pool : Nat → Nat) :
    Holds pool (initialize_ds elementsRange node pool) [] :=
  ⟨rfl, Nat.le_refl 0, [], rfl, List.pairwise_singleton _ _, fun p hp => by
    obtain rfl := List.mem_singleton.1 hp
    rfl, fun a ha => absurd ha List.not_mem_nil, Nat.le_refl 0, .inl rfl, fun k => Iff.rfl⟩

/-- Filling with the short cut and filling from the head give the same results and the same list, which is sorted
and holds the inserted keys. -/
theorem fill_exact (elementsRange : CInt) (node : Nat → Entry) (pool : Nat → Nat) (hpos : ∀ t, pool t ≠ 0)
    (hinj : Function.Injective pool) (keys : List CInt) (fuel : Nat) (hfuel : keys.length + 2 < fuel) :
    ∃ s', fill (ListInsertFAST fuel .head · 0) keys (initialize_ds elementsRange node pool) = some (firstTimes [] keys, s') ∧
      fill (insertFrom fuel .head) keys (initialize_ds elementsRange node pool) = some (firstTimes [] keys, s') ∧
      ∃ l, Walk s'.cells.succ 0 l ∧ (l.map s'.key).Pairwise (fun k k' => k.toInt < k'.toInt) ∧ ∀ k, k ∈ l.map s'.key ↔ k ∈ keys := by
  obtain ⟨s', hfast, hplain, -, -, l, h⟩ := fill_spec hpos hinj keys (holds_initialize_ds elementsRange node pool)
    (by rw [List.length_nil]; omega : ([] : List CInt).length + keys.length + 2 < fuel)
  refine ⟨s', hfast, hplain, l, h.walk, ?_, fun k => ?_⟩
  · refine List.pairwise_map.2 ((List.pairwise_cons.1 h.sorted).2.imp_of_mem fun {a b} ha _ hab => ?_)
    exact hab.2.resolve_left (h.walk.ne_zero ha)
  · rw [h.keys k, List.append_nil, List.mem_reverse]

/-- Keys on both sides of `mid`, two of them twice. -/
theorem fill_exact_four : firstTimes [] [3, 1, 7, 3, 2, 7] = [true, true, true, false, true, false] ∧
    ∃ s', fill (ListInsertFAST 9 .head · 0) [3, 1, 7, 3, 2, 7] (initialize_ds 8 (fun _ => ⟨0, NULL⟩) (· + 1)) =
        some (firstTimes [] [3, 1, 7, 3, 2, 7], s') ∧
      fill (insertFrom 9 .head) [3, 1, 7, 3, 2, 7] (initialize_ds 8 (fun _ => ⟨0, NULL⟩) (· + 1)) =
        some (firstTimes [] [3, 1, 7, 3, 2, 7], s') ∧
      ∃ l, Walk s'.cells.succ 0 l ∧ (l.map s'.key).Pairwise (fun k k' => k.toInt < k'.toInt) ∧
        ∀ k, k ∈ l.map s'.key ↔ k ∈ [3, 1, 7, 3, 2, 7] :=
  ⟨by decide, fill_exact 8 (fun _ => ⟨0, NULL⟩) (· + 1) (fun t => Nat.succ_ne_zero t) (fun _ _ h => Nat.succ_inj.1 h)
    [3, 1, 7, 3, 2, 7] 9 (by decide)⟩

end OptimisticAccess.Bench.Fill
