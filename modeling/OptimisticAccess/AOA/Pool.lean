import Mathlib.Data.List.GetD
import OptimisticAccess.AOA.Stamps
import OptimisticAccess.Lib.Linked

/-!
# Owners, versions and places

A cache descriptor is owned by the shared stack or by one thread, and changes hands where an event
of the log says so. It is pushed at most once in a phase, because a thread that popped it can only
use it again in the sweep of a later one. So a descriptor that was on the stack when a thread read
the head is still there, with the same link, or will not come back in this phase.
-/

namespace OptimisticAccess.AOA.Pool

open Conc Prog

variable {n : Nat}

abbrev Log (n : Nat) := List (Rec (Fin n) (Mem n) Ev)

inductive Owner (n : Nat) where
  | shared
  | thread (i : Fin n)

/-- The owner a step gives descriptor `e`. -/
def pass (e : Nat) (r : Rec (Fin n) (Mem n) Ev) : Option (Owner n) :=
  match r.ev with
  | some (.taken d) => if d = e then some (.thread r.tid) else none
  | some (.popped d _) => if d = e then some (.thread r.tid) else none
  | some (.pushed d _) => if d = e then some .shared else none
  | _ => none

/-- The owner of a descriptor; those of the first pool are on the shared stack from the start. -/
def owner (e : Nat) : Log n → Option (Owner n)
  | [] => if allocationEntriesCacheSize ≤ e then some .shared else none
  | r :: rs => (pass e r).or (owner e rs)

/-- The phase in which a step pushes descriptor `e`. -/
def push (e : Nat) (r : Rec (Fin n) (Mem n) Ev) : Option Int :=
  match r.ev with
  | some (.pushed d ver) => if d = e then some ver else none
  | _ => none

/-- The phase of the last push of a descriptor. -/
def pushVer (e : Nat) : Log n → Int
  | [] => if allocationEntriesCacheSize ≤ e then 0 else -1
  | r :: rs => (push e r).getD (pushVer e rs)

/-- The events of the pool. -/
def Ev.isPool : Option Ev → Bool
  | some (.taken _) | some (.popped ..) | some (.pushed ..) | some (.claimed ..) | some (.served ..) => true
  | _ => false

section Log

variable {r : Rec (Fin n) (Mem n) Ev} {log : Log n} {e : Nat}

theorem owner_cons (h : pass e r = none) : owner e (r :: log) = owner e log := by
  rw [owner, h, Option.none_or]

theorem owner_cons_some {o : Owner n} (h : pass e r = some o) : owner e (r :: log) = some o := by
  rw [owner, h, Option.some_or]

theorem pushVer_cons (h : push e r = none) : pushVer e (r :: log) = pushVer e log := by
  rw [pushVer, h, Option.getD_none]

theorem pushVer_cons_some {ver : Int} (h : push e r = some ver) : pushVer e (r :: log) = ver := by
  rw [pushVer, h, Option.getD_some]

theorem push_of_pass (h : pass e r = none) : push e r = none := by
  unfold pass at h
  unfold push
  split
  · next d ver hev =>
    simp only [hev] at h
    split at h
    · cases h
    · next hd => rw [if_neg hd]
  · rfl

theorem pass_of_not_isPool (h : Ev.isPool r.ev = false) : pass e r = none := by
  unfold pass
  split <;> simp_all [Ev.isPool]

/-- What nobody owns was never pushed. -/
theorem pushVer_of_none (h : owner e log = none) : pushVer e log = -1 := by
  induction log with
  | nil =>
    by_cases he : allocationEntriesCacheSize ≤ e
    · rw [owner, if_pos he] at h
      cases h
    · rw [pushVer, if_neg he]
  | cons r rs ih =>
    rw [owner, Option.or_eq_none_iff] at h
    rw [pushVer_cons (push_of_pass h.1)]
    exact ih h.2

end Log

/-! ## Sweep pages -/

def pageAddr (heapmem : List Nat) (p : Nat) : Nat :=
  heapmem.getD (p / sweepPagesPerChunk) 0 + p % sweepPagesPerChunk * sweepPage

def InPage (heapmem : List Nat) (p : Nat) (x : Ptr) : Prop :=
  pageAddr heapmem p ≤ x.addr ∧ x.addr < pageAddr heapmem p + sweepPage

/-- Pages do not overlap. -/
theorem inPage_unique {heapmem : List Nat} (hheap : Heap heapmem) {p p' : Nat} {x : Ptr}
    (hp : p < heapmem.length * sweepPagesPerChunk) (hp' : p' < heapmem.length * sweepPagesPerChunk)
    (hx : InPage heapmem p x) (hx' : InPage heapmem p' x) : p = p' := by
  have hpages : sweepPagesPerChunk = 8 := by decide
  simp only [InPage, pageAddr, hpages, show sweepPage = 2 ^ 16 from rfl] at hp hp' hx hx'
  have hi : p / 8 < heapmem.length := by omega
  have hi' : p' / 8 < heapmem.length := by omega
  rw [List.getD_eq_getElem _ _ hi] at hx
  rw [List.getD_eq_getElem _ _ hi'] at hx'
  have ha := hheap.aligned _ (List.getElem_mem hi)
  have ha' := hheap.aligned _ (List.getElem_mem hi')
  simp only [show chunkSize = 2 ^ 19 from rfl] at ha ha'
  have hsame : heapmem[p / 8] = heapmem[p' / 8] := by omega
  have hidx : p / 8 = p' / 8 := (hheap.nodup.getElem_inj_iff).1 hsame
  rw [hsame] at hx
  omega

/-! ## The invariant -/

/-- Where an object of a phase has gone to. -/
inductive Place where
  | entry (e k : Nat)
  | gone

structure Ghost (n : Nat) where
  stack : List Nat
  freeL : Fin n → List Nat
  place : Nat → Ptr → Option Place

abbrev W (n : Nat) := World (Fin n) (Mem n) Ev (Ghost n)

def next (s : Mem n) (e : Nat) : Option Nat := (s.entries e).next

/-- `x` is object `k` of descriptor `e`. -/
def Content (s : Mem n) (e k : Nat) (x : Ptr) : Prop := k < (s.entries e).free ∧ (s.entries e).ptrs k = x

def ClaimedBy (log : Log n) (i : Fin n) (p v : Nat) : Prop := ∃ r ∈ log, r.tid = i ∧ r.ev = some (.claimed p v)

/-- Descriptors are in one place. -/
structure Owned (w : W n) : Prop where
  shared : Linked (next w.mem) w.mem.head.head w.ghost.stack
  sharedNodup : w.ghost.stack.Nodup
  sharedOwner : ∀ e ∈ w.ghost.stack, owner e w.log = some .shared
  sharedVer : ∀ e ∈ w.ghost.stack, pushVer e w.log = w.mem.head.ver
  free : ∀ i, Linked (next w.mem) (w.mem.locals i).entriesLocalFreeList (w.ghost.freeL i)
  freeNodup : ∀ i, (w.ghost.freeL i).Nodup
  freeOwner : ∀ i, ∀ e ∈ w.ghost.freeL i, owner e w.log = some (.thread i)
  cacheOwner : ∀ i e, (w.mem.locals i).alloc_cache = some e → owner e w.log = some (.thread i)
  cacheFree : ∀ i e, (w.mem.locals i).alloc_cache = some e → e ∉ w.ghost.freeL i
  fresh : ∀ e, w.mem.allocationEntriesCacheHead ≤ e → e < allocationEntriesCacheSize → owner e w.log = none

/-- Pages are counted. -/
structure Claims (heapmem : List Nat) (w : W n) : Prop where
  page : ∀ r ∈ w.log, ∀ p v, r.ev = some (.claimed p v) → p < heapmem.length * sweepPagesPerChunk
  counted : ∀ r ∈ w.log, ∀ p v, r.ev = some (.claimed p v) →
    v < Stamp.hi w.mem.sweep_counter ∨ v = Stamp.hi w.mem.sweep_counter ∧ p < scounter w.mem.sweep_counter

/-- Objects are in one place. -/
structure Objects (heapmem : List Nat) (w : W n) : Prop where
  filled : ∀ e ∈ w.ghost.stack, ∀ k x, Content w.mem e k x → w.ghost.place w.mem.head.ver.toNat x = some (.entry e k)
  put : ∀ v x, w.ghost.place v x ≠ none → v = 0 ∨ ∃ i p, ClaimedBy w.log i p v ∧ InPage heapmem p x
  served : ∀ r ∈ w.log, ∀ x v, r.ev = some (.served x v) → w.ghost.place v x = some .gone
  pushed : ∀ r ∈ w.log, ∀ e ver, r.ev = some (.pushed e ver) → ∀ k x, Content r.pre e k x →
    w.ghost.place ver.toNat x = some (.entry e k) ∨ w.ghost.place ver.toNat x = some .gone
  pushVer : ∀ r ∈ w.log, ∀ e ver, r.ev = some (.pushed e ver) → ver ≤ pushVer e w.log

/-- What a step with an event of the pool does, seen with the steps before it. -/
structure Fair (log : Log n) (r : Rec (Fin n) (Mem n) Ev) : Prop where
  claimed : ∀ p v, r.ev = some (.claimed p v) → ∀ r' ∈ log, r'.ev ≠ some (.claimed p v)
  taken : ∀ e, r.ev = some (.taken e) → owner e log = none
  pushed : ∀ e ver, r.ev = some (.pushed e ver) → owner e log = some (.thread r.tid) ∧ 0 < ver ∧
    (∀ k k' x, Content r.pre e k x → Content r.pre e k' x → k = k') ∧
    ∀ r' ∈ log, ∀ e', r'.ev = some (.pushed e' ver) → ∀ k k' x, Content r'.pre e' k' x → ¬ Content r.pre e k x
  popped : ∀ e ver, r.ev = some (.popped e ver) → owner e log = some .shared ∧ r.pre.head.ver = ver ∧ r.post.head.ver = ver ∧
    ∃ l, Linked (next r.pre) r.pre.head.head (e :: l) ∧ Linked (next r.post) r.post.head.head l
  served : ∀ x v, r.ev = some (.served x v) → ∀ r' ∈ log, r'.ev ≠ some (.served x v)

structure Good (heapmem : List Nat) (w : W n) : Prop where
  owned : Owned w
  claims : Claims heapmem w
  objects : Objects heapmem w
  fair : Along Fair w.log

/-- What the steps of the others leave thread `j`. -/
structure Keeps (heapmem : List Nat) (j : Fin n) (w w' : W n) : Prop where
  localVer : (w'.mem.locals j).localVer = (w.mem.locals j).localVer
  cache : (w'.mem.locals j).alloc_cache = (w.mem.locals j).alloc_cache
  freeHead : (w'.mem.locals j).entriesLocalFreeList = (w.mem.locals j).entriesLocalFreeList
  freeL : w'.ghost.freeL j = w.ghost.freeL j
  owner : ∀ e, owner e w.log = some (.thread j) → Pool.owner e w'.log = some (.thread j)
  version : ∀ e, Pool.owner e w.log = some (.thread j) → pushVer e w'.log = pushVer e w.log
  entry : ∀ e, Pool.owner e w.log = some (.thread j) → w'.mem.entries e = w.mem.entries e
  placed : ∀ v x e k, w.ghost.place v x = some (.entry e k) → Pool.owner e w.log = some (.thread j) →
    w'.ghost.place v x = some (.entry e k)
  unput : ∀ v x p, ClaimedBy w.log j p v → InPage heapmem p x → w.ghost.place v x = none → w'.ghost.place v x = none
  claims : ∀ p v, ClaimedBy w.log j p v → ClaimedBy w'.log j p v
  rises : ∀ e, pushVer e w.log ≤ pushVer e w'.log
  stack : ∀ e ∈ w'.ghost.stack, pushVer e w.log < w'.mem.head.ver ∨
    e ∈ w.ghost.stack ∧ w'.mem.entries e = w.mem.entries e ∧ w'.mem.head.ver = w.mem.head.ver

def proto (heapmem : List Nat) : Proto (Fin n) (Mem n) Ev (Ghost n) where
  inv := Good heapmem
  act i w w' := ∀ j, j ≠ i → Keeps heapmem j w w'
  allow _ r := Stamps.Inv heapmem r.pre ∧ Stamps.Moves heapmem r.tid r.pre r.ev r.post

variable {heapmem : List Nat} {i j : Fin n} {w : W n} {ev : Option Ev} {s' : Mem n} {g : Ghost n}

theorem ClaimedBy.mono {log : Log n} {r : Rec (Fin n) (Mem n) Ev} {p v : Nat} (h : ClaimedBy log i p v) :
    ClaimedBy (r :: log) i p v := by
  obtain ⟨r', hr', h⟩ := h
  exact ⟨r', List.mem_cons_of_mem r hr', h⟩

/-- A page has one claimant. -/
theorem claimedBy_unique {log : Log n} (h : Along Fair log) {p v : Nat} (hi : ClaimedBy log i p v)
    (hj : ClaimedBy log j p v) : i = j := by
  induction log with
  | nil =>
    obtain ⟨r, hr, -⟩ := hi
    cases hr
  | cons r rs ih =>
    obtain ⟨r1, h1, rfl, e1⟩ := hi
    obtain ⟨r2, h2, rfl, e2⟩ := hj
    rcases List.mem_cons.1 h1 with rfl | m1
    · rcases List.mem_cons.1 h2 with rfl | m2
      · rfl
      · exact absurd e2 (h.2.claimed p v e1 r2 m2)
    · rcases List.mem_cons.1 h2 with rfl | m2
      · exact absurd e1 (h.2.claimed p v e2 r1 m1)
      · exact ih h.1 ⟨r1, m1, rfl, e1⟩ ⟨r2, m2, rfl, e2⟩

theorem fair_of_not_isPool {log : Log n} {r : Rec (Fin n) (Mem n) Ev} (h : Ev.isPool r.ev = false) : Fair log r := by
  refine ⟨?_, ?_, ?_, ?_, ?_⟩
  all_goals
    intros
    simp_all [Ev.isPool]

/-! ## Steps on what is a thread's own -/

/-- What thread `i` may do with places: put an object of a page it has claimed, and serve one that is
in a descriptor it owns. -/
def Moved (heapmem : List Nat) (i : Fin n) (w : W n) (place : Nat → Ptr → Option Place) : Prop :=
  ∀ v x, place v x = w.ghost.place v x ∨
    (w.ghost.place v x = none ∧ ∃ p, ClaimedBy w.log i p v ∧ InPage heapmem p x) ∨
    ∃ e k, w.ghost.place v x = some (.entry e k) ∧ owner e w.log = some (.thread i) ∧ place v x = some .gone

theorem Moved.refl : Moved heapmem i w w.ghost.place := fun _ _ => .inl rfl

/-- Thread `i` writes descriptors it owns, its cache and its number. -/
structure Touch (heapmem : List Nat) (i : Fin n) (w : W n) (s' : Mem n) (place : Nat → Ptr → Option Place) : Prop where
  head : s'.head = w.mem.head
  sweep : s'.sweep_counter = w.mem.sweep_counter
  cacheHead : s'.allocationEntriesCacheHead = w.mem.allocationEntriesCacheHead
  freeHead : ∀ j, (s'.locals j).entriesLocalFreeList = (w.mem.locals j).entriesLocalFreeList
  others : ∀ j, j ≠ i → (s'.locals j).localVer = (w.mem.locals j).localVer ∧
    (s'.locals j).alloc_cache = (w.mem.locals j).alloc_cache
  entry : ∀ e, s'.entries e = w.mem.entries e ∨ owner e w.log = some (.thread i) ∧ e ∉ w.ghost.freeL i
  cache : ∀ e, (s'.locals i).alloc_cache = some e → owner e w.log = some (.thread i) ∧ e ∉ w.ghost.freeL i
  place : Moved heapmem i w place

/-- The event of such a step: none of the pool, or an object that is served. -/
def Told (w : W n) (ev : Option Ev) (place : Nat → Ptr → Option Place) : Prop :=
  Ev.isPool ev = false ∨ ∃ x v e k, ev = some (.served x v) ∧ w.ghost.place v x = some (.entry e k) ∧ place v x = some .gone

section Touch

variable {place : Nat → Ptr → Option Place}

theorem Told.pass (h : Told w ev place) (e : Nat) : pass e (⟨i, w.mem, ev, s'⟩ : Rec (Fin n) (Mem n) Ev) = none := by
  rcases h with h | ⟨x, v, d, k, rfl, -⟩
  · exact pass_of_not_isPool h
  · rfl

theorem Told.owner (h : Told w ev place) (e : Nat) : owner e (w.next i ev s' g).log = Pool.owner e w.log :=
  owner_cons (h.pass e)

theorem Told.pushVer (h : Told w ev place) (e : Nat) : pushVer e (w.next i ev s' g).log = Pool.pushVer e w.log :=
  pushVer_cons (push_of_pass (h.pass e))

/-- An event of the pool is an old one or tells an object that is served. -/
theorem Told.old (h : Told w ev place) {r : Rec (Fin n) (Mem n) Ev} (hr : r ∈ (w.next i ev s' g).log)
    (hpool : Ev.isPool r.ev) : r ∈ w.log ∨ ∃ x v e k, r.ev = some (.served x v) ∧
      w.ghost.place v x = some (.entry e k) ∧ place v x = some .gone := by
  rcases List.mem_cons.1 hr with rfl | hr
  · refine .inr (h.resolve_left fun h' => ?_)
    rw [h'] at hpool
    cases hpool
  · exact .inl hr

theorem Touch.shared (h : Touch heapmem i w s' place) {e : Nat} (he : owner e w.log = some .shared) :
    s'.entries e = w.mem.entries e :=
  (h.entry e).resolve_right fun h' => by rw [he] at h'; cases h'.1

theorem Touch.free (h : Touch heapmem i w s' place) (hg : Owned w) {e : Nat} (he : e ∈ w.ghost.freeL j) :
    s'.entries e = w.mem.entries e := by
  refine (h.entry e).resolve_right fun h' => ?_
  have hij : some (Owner.thread j) = some (.thread i) := (hg.freeOwner j e he).symm.trans h'.1
  injection hij with hij
  injection hij with hij
  exact h'.2 (hij ▸ he)

theorem Touch.owned (h : Touch heapmem i w s' place) (hev : Told w ev place) (hg : Owned w) :
    Owned (w.next i ev s' { w.ghost with place := place }) where
  shared := h.head ▸ hg.shared.congr fun e he => congrArg AllocEntry.next (h.shared (hg.sharedOwner e he))
  sharedNodup := hg.sharedNodup
  sharedOwner := fun e he => (hev.owner e).trans (hg.sharedOwner e he)
  sharedVer := fun e he => (hev.pushVer e).trans (h.head ▸ hg.sharedVer e he)
  free := fun j => h.freeHead j ▸ (hg.free j).congr fun e he => congrArg AllocEntry.next (h.free hg he)
  freeNodup := hg.freeNodup
  freeOwner := fun j e he => (hev.owner e).trans (hg.freeOwner j e he)
  cacheOwner := by
    intro j e he
    rw [hev.owner]
    by_cases hj : j = i
    · subst hj
      exact (h.cache e he).1
    · exact hg.cacheOwner j e ((h.others j hj).2 ▸ he)
  cacheFree := by
    intro j e he
    by_cases hj : j = i
    · subst hj
      exact (h.cache e he).2
    · exact hg.cacheFree j e ((h.others j hj).2 ▸ he)
  fresh := fun e he hs => (hev.owner e).trans (hg.fresh e (h.cacheHead ▸ he) hs)

theorem Touch.claims (h : Touch heapmem i w s' place) (hev : Told w ev place) (hg : Claims heapmem w) :
    Claims heapmem (w.next i ev s' { w.ghost with place := place }) where
  page := by
    intro r hr p v e
    rcases hev.old hr (by rw [e]; rfl) with hr | ⟨_, _, _, _, e', -⟩
    · exact hg.page r hr p v e
    · rw [e'] at e
      cases e
  counted := by
    intro r hr p v e
    rcases hev.old hr (by rw [e]; rfl) with hr | ⟨_, _, _, _, e', -⟩
    · exact h.sweep ▸ hg.counted r hr p v e
    · rw [e'] at e
      cases e

theorem Touch.gone (h : Touch heapmem i w s' place) {v : Nat} {x : Ptr} (hx : w.ghost.place v x = some .gone) :
    place v x = some .gone := by
  rcases h.place v x with e | ⟨e, -⟩ | ⟨_, _, e, -⟩
  · exact e.trans hx
  · rw [hx] at e
    cases e
  · rw [hx] at e
    cases e

theorem Touch.objects (h : Touch heapmem i w s' place) (hev : Told w ev place) (hg : Objects heapmem w) (ho : Owned w) :
    Objects heapmem (w.next i ev s' { w.ghost with place := place }) where
  filled := by
    intro e he k x hx
    have hshared := ho.sharedOwner e he
    have hx : Content w.mem e k x := by rwa [Content, ← h.shared hshared]
    have hold := hg.filled e he k x hx
    show place s'.head.ver.toNat x = _
    rw [h.head]
    rcases h.place w.mem.head.ver.toNat x with e' | ⟨e', -⟩ | ⟨d, l, e', hd, -⟩
    · exact e'.trans hold
    · rw [hold] at e'
      cases e'
    · rw [hold] at e'
      cases e'
      rw [hshared] at hd
      cases hd
  put := by
    intro v x hx
    rcases h.place v x with e' | ⟨e', p, hp⟩ | ⟨d, l, e', -⟩
    · exact (hg.put v x (e' ▸ hx)).imp_right fun ⟨j, p, hc, hp⟩ => ⟨j, p, hc.mono, hp⟩
    · exact .inr ⟨i, p, hp.1.mono, hp.2⟩
    · exact (hg.put v x (by rw [e']; exact Option.some_ne_none _)).imp_right fun ⟨j, p, hc, hp⟩ => ⟨j, p, hc.mono, hp⟩
  served := by
    intro r hr x v e
    rcases hev.old hr (by rw [e]; rfl) with hr | ⟨_, _, _, _, e', -, hgone⟩
    · exact h.gone (hg.served r hr x v e)
    · rw [e'] at e
      cases e
      exact hgone
  pushed := by
    intro r hr e ver hev' k x hx
    rcases hev.old hr (by rw [hev']; rfl) with hr | ⟨_, _, _, _, e', -⟩
    · rcases hg.pushed r hr e ver hev' k x hx with hold | hold
      · rcases h.place ver.toNat x with e' | ⟨e', -⟩ | ⟨_, _, -, -, e'⟩
        · exact .inl (e'.trans hold)
        · rw [hold] at e'
          cases e'
        · exact .inr e'
      · exact .inr (h.gone hold)
    · rw [e'] at hev'
      cases hev'
  pushVer := by
    intro r hr e ver hev'
    rcases hev.old hr (by rw [hev']; rfl) with hr | ⟨_, _, _, _, e', -⟩
    · exact (hg.pushVer r hr e ver hev').trans (hev.pushVer e).ge
    · rw [e'] at hev'
      cases hev'

theorem Touch.good (h : Touch heapmem i w s' place) (hev : Told w ev place) (hg : Good heapmem w) :
    Good heapmem (w.next i ev s' { w.ghost with place := place }) := by
  refine ⟨h.owned hev hg.owned, h.claims hev hg.claims, h.objects hev hg.objects hg.owned, hg.fair, ?_⟩
  rcases hev with hev | ⟨x, v, e, k, rfl, hold, hgone⟩
  · exact fair_of_not_isPool hev
  · refine ⟨?_, ?_, ?_, ?_, fun x' v' e' r hr hr' => ?_⟩
    iterate 4 intros; simp_all
    cases e'
    rw [hg.objects.served r hr x v hr'] at hold
    cases hold

theorem Touch.keeps (h : Touch heapmem i w s' place) (hev : Told w ev place) (hg : Good heapmem w)
    (hheap : Heap heapmem) (hj : j ≠ i) : Keeps heapmem j w (w.next i ev s' { w.ghost with place := place }) where
  localVer := (h.others j hj).1
  cache := (h.others j hj).2
  freeHead := h.freeHead j
  freeL := rfl
  owner := fun e he => (hev.owner e).trans he
  version := fun e _ => hev.pushVer e
  entry := by
    intro e he
    refine (h.entry e).resolve_right fun h' => hj ?_
    rw [he] at h'
    injection h'.1 with e
    injection e
  placed := by
    intro v x e k hx he
    rcases h.place v x with e' | ⟨e', -⟩ | ⟨d, l, e', hd, -⟩
    · exact e'.trans hx
    · rw [hx] at e'
      cases e'
    · rw [hx] at e'
      cases e'
      rw [he] at hd
      injection hd with e
      injection e with e
      exact absurd e hj
  unput := by
    intro v x p hp hx hnone
    rcases h.place v x with e' | ⟨-, p', hp', hx'⟩ | ⟨d, l, e', -⟩
    · exact e'.trans hnone
    · have hpage : ∀ {k p}, ClaimedBy w.log k p v → p < heapmem.length * sweepPagesPerChunk := fun ⟨r, hr, _, e⟩ =>
        hg.claims.page r hr _ v e
      have hpp := inPage_unique hheap (hpage hp) (hpage hp') hx hx'
      subst hpp
      exact absurd (claimedBy_unique hg.fair hp hp') hj
    · rw [hnone] at e'
      cases e'
  claims := fun p v hp => hp.mono
  rises := fun e => (hev.pushVer e).ge
  stack := fun e he => .inr ⟨he, h.shared (hg.owned.sharedOwner e he), congrArg VerEntry.ver h.head⟩

end Touch

/-! ## Steps on what is shared -/

/-- The step keeps the protocol. -/
def Acts (heapmem : List Nat) (i : Fin n) (w w' : W n) : Prop :=
  Good heapmem w' ∧ ∀ j, j ≠ i → Keeps heapmem j w w'

theorem Touch.acts {place : Nat → Ptr → Option Place} (h : Touch heapmem i w s' place) (hev : Told w ev place)
    (hg : Good heapmem w) (hheap : Heap heapmem) :
    Acts heapmem i w (w.next i ev s' { w.ghost with place := place }) :=
  ⟨h.good hev hg, fun _ hj => h.keeps hev hg hheap hj⟩

theorem owner_next {e : Nat} (h : Ev.isPool ev = false) : owner e (w.next i ev s' g).log = owner e w.log :=
  owner_cons (pass_of_not_isPool h)

theorem pushVer_next {e : Nat} (h : Ev.isPool ev = false) : pushVer e (w.next i ev s' g).log = pushVer e w.log :=
  pushVer_cons (push_of_pass (pass_of_not_isPool h))

theorem Claims.next (hg : Claims heapmem w) (hev : ∀ p v, ev ≠ some (.claimed p v))
    (h : Stamp.hi w.mem.sweep_counter < Stamp.hi s'.sweep_counter ∨ s'.sweep_counter = w.mem.sweep_counter) :
    Claims heapmem (w.next i ev s' g) where
  page := by
    intro r hr p v e
    rcases List.mem_cons.1 hr with rfl | hr
    · exact absurd e (hev p v)
    · exact hg.page r hr p v e
  counted := by
    intro r hr p v e
    rcases List.mem_cons.1 hr with rfl | hr
    · exact absurd e (hev p v)
    · have hold := hg.counted r hr p v e
      show v < Stamp.hi s'.sweep_counter ∨ v = Stamp.hi s'.sweep_counter ∧ p < scounter s'.sweep_counter
      rcases h with h | h
      · exact .inl (by omega)
      · rw [h]
        exact hold

theorem Objects.next (hg : Objects heapmem w) (hserved : ∀ x v, ev ≠ some (.served x v))
    (hpushed : ∀ e ver, ev ≠ some (.pushed e ver)) (hplace : g.place = w.ghost.place)
    (hfilled : ∀ e ∈ g.stack, ∀ k x, Content s' e k x → w.ghost.place s'.head.ver.toNat x = some (.entry e k)) :
    Objects heapmem (w.next i ev s' g) where
  filled := hplace ▸ hfilled
  put := by
    intro v x hx
    exact (hg.put v x (hplace ▸ hx)).imp_right fun ⟨j, p, hc, hp⟩ => ⟨j, p, hc.mono, hp⟩
  served := by
    intro r hr x v e
    rcases List.mem_cons.1 hr with rfl | hr
    · exact absurd e (hserved x v)
    · exact hplace ▸ hg.served r hr x v e
  pushed := by
    intro r hr e ver hev k x hx
    rcases List.mem_cons.1 hr with rfl | hr
    · exact absurd hev (hpushed e ver)
    · exact hplace ▸ hg.pushed r hr e ver hev k x hx
  pushVer := by
    intro r hr e ver hev
    rcases List.mem_cons.1 hr with rfl | hr
    · exact absurd hev (hpushed e ver)
    · refine (hg.pushVer r hr e ver hev).trans (pushVer_cons ?_).ge
      unfold push
      split
      · next d ver hev => exact absurd hev (hpushed d ver)
      · rfl

theorem fair_next (h : Along Fair w.log) (hev : Ev.isPool ev = false) : Along Fair (w.next i ev s' g).log :=
  ⟨h, fair_of_not_isPool hev⟩

/-- A step that writes no descriptor. -/
theorem keeps_next (hentries : s'.entries = w.mem.entries) (hplace : g.place = w.ghost.place)
    (hlocal : s'.locals j = w.mem.locals j) (hfreeL : g.freeL j = w.ghost.freeL j)
    (hpass : ∀ e, owner e w.log = some (.thread j) → pass e ⟨i, w.mem, ev, s'⟩ = none)
    (hrises : ∀ e, pushVer e w.log ≤ pushVer e (w.next i ev s' g).log)
    (hstack : ∀ e ∈ g.stack, pushVer e w.log < s'.head.ver ∨ e ∈ w.ghost.stack ∧ s'.head.ver = w.mem.head.ver) :
    Keeps heapmem j w (w.next i ev s' g) where
  localVer := congrArg LocalAlloc.localVer hlocal
  cache := congrArg LocalAlloc.alloc_cache hlocal
  freeHead := congrArg LocalAlloc.entriesLocalFreeList hlocal
  freeL := hfreeL
  owner := fun e he => (owner_cons (hpass e he)).trans he
  version := fun e he => pushVer_cons (push_of_pass (hpass e he))
  entry := fun e _ => congrFun hentries e
  placed := fun v x _ _ hx _ => (congrFun (congrFun hplace v) x).trans hx
  unput := fun v x _ _ _ hx => (congrFun (congrFun hplace v) x).trans hx
  claims := fun _ _ h => h.mono
  rises := hrises
  stack := fun e he => (hstack e he).imp_right fun h => ⟨h.1, congrFun hentries e, h.2⟩

/-- The pool is dropped. -/
theorem acts_reset (hg : Good heapmem w) (ver : Int) :
    Acts heapmem i w (w.next i none { w.mem with head := ⟨none, ver⟩ } { w.ghost with stack := [] }) := by
  refine ⟨⟨?_, hg.claims.next (fun _ _ => nofun) (.inr rfl), ?_, fair_next hg.fair rfl⟩, fun j hj => ?_⟩
  · exact { hg.owned with
      shared := rfl
      sharedNodup := List.nodup_nil
      sharedOwner := fun e he => absurd he List.not_mem_nil
      sharedVer := fun e he => absurd he List.not_mem_nil
      freeOwner := fun j e he => (owner_next rfl).trans (hg.owned.freeOwner j e he)
      cacheOwner := fun j e he => (owner_next rfl).trans (hg.owned.cacheOwner j e he)
      fresh := fun e he hs => (owner_next rfl).trans (hg.owned.fresh e he hs) }
  · exact hg.objects.next (fun _ _ => nofun) (fun _ _ => nofun) rfl fun e he => absurd he List.not_mem_nil
  · exact keeps_next rfl rfl rfl rfl (fun _ _ => rfl) (fun e => (pushVer_next rfl).ge)
      fun e he => absurd he List.not_mem_nil

/-- The sweep counter goes to the next phase. -/
theorem acts_sweepCounter (hg : Good heapmem w) {c : U64} (h : Stamp.hi w.mem.sweep_counter < Stamp.hi c) :
    Acts heapmem i w (w.next i none { w.mem with sweep_counter := c } w.ghost) := by
  refine ⟨⟨?_, hg.claims.next (fun _ _ => nofun) (.inl h), ?_, fair_next hg.fair rfl⟩, fun j hj => ?_⟩
  · exact { hg.owned with
      sharedOwner := fun e he => (owner_next rfl).trans (hg.owned.sharedOwner e he)
      sharedVer := fun e he => (pushVer_next rfl).trans (hg.owned.sharedVer e he)
      freeOwner := fun j e he => (owner_next rfl).trans (hg.owned.freeOwner j e he)
      cacheOwner := fun j e he => (owner_next rfl).trans (hg.owned.cacheOwner j e he)
      fresh := fun e he hs => (owner_next rfl).trans (hg.owned.fresh e he hs) }
  · exact hg.objects.next (fun _ _ => nofun) (fun _ _ => nofun) rfl hg.objects.filled
  · exact keeps_next rfl rfl rfl rfl (fun _ _ => rfl) (fun e => (pushVer_next rfl).ge) fun e he => .inr ⟨he, rfl⟩

/-- A page is claimed. -/
theorem acts_claim (hg : Good heapmem w) {p : Nat} (hp : scounter w.mem.sweep_counter = p)
    (hlt : p < heapmem.length * sweepPagesPerChunk) (hlen : heapmem.length * sweepPagesPerChunk < 2 ^ 32) :
    Acts heapmem i w (w.next i (some (.claimed p (Stamp.hi w.mem.sweep_counter)))
      { w.mem with sweep_counter := w.mem.sweep_counter + 1 } w.ghost) := by
  have hhi := Stamps.hi_succ (hp ▸ hlt) hlen
  have hcount : scounter (w.mem.sweep_counter + 1) = p + 1 := by
    have := w.mem.sweep_counter.isLt
    simp only [scounter] at hp ⊢
    rw [BitVec.toNat_add, show (1 : U64).toNat = 1 from rfl]
    omega
  refine ⟨⟨?_, ⟨fun r hr q v e => ?_, fun r hr q v e => ?_⟩, ?_, hg.fair, ?_⟩, fun j hj => ?_⟩
  · exact { hg.owned with
      sharedOwner := fun e he => (owner_cons rfl).trans (hg.owned.sharedOwner e he)
      sharedVer := fun e he => (pushVer_cons rfl).trans (hg.owned.sharedVer e he)
      freeOwner := fun j e he => (owner_cons rfl).trans (hg.owned.freeOwner j e he)
      cacheOwner := fun j e he => (owner_cons rfl).trans (hg.owned.cacheOwner j e he)
      fresh := fun e he hs => (owner_cons rfl).trans (hg.owned.fresh e he hs) }
  · rcases List.mem_cons.1 hr with rfl | hr
    · cases e
      exact hlt
    · exact hg.claims.page r hr q v e
  · show v < Stamp.hi (w.mem.sweep_counter + 1) ∨
      v = Stamp.hi (w.mem.sweep_counter + 1) ∧ q < scounter (w.mem.sweep_counter + 1)
    rw [hhi, hcount]
    rcases List.mem_cons.1 hr with rfl | hr
    · cases e
      exact .inr ⟨rfl, Nat.lt_succ_self p⟩
    · have hold := hg.claims.counted r hr q v e
      omega
  · exact hg.objects.next (by simp) (by simp) rfl hg.objects.filled
  · refine ⟨fun q v e r hr hr' => ?_, by simp, by simp, by simp, by simp⟩
    cases e
    have hold := hg.claims.counted r hr _ _ hr'
    omega
  · exact keeps_next rfl rfl rfl rfl (fun _ _ => rfl) (fun e => (pushVer_cons rfl).ge) fun e he => .inr ⟨he, rfl⟩

/-- The counter of descriptors goes on; below its limit it gives one that was never in use. -/
theorem acts_take (hg : Good heapmem w) :
    Acts heapmem i w (w.next i
      (if w.mem.allocationEntriesCacheHead < allocationEntriesCacheSize then
        some (.taken w.mem.allocationEntriesCacheHead) else none)
      { w.mem with allocationEntriesCacheHead := w.mem.allocationEntriesCacheHead + 1 } w.ghost) := by
  generalize hev : (if w.mem.allocationEntriesCacheHead < allocationEntriesCacheSize then
    some (Ev.taken w.mem.allocationEntriesCacheHead) else none) = ev
  have hsome : ∀ d, ev = some (.taken d) → d = w.mem.allocationEntriesCacheHead ∧ d < allocationEntriesCacheSize := by
    rintro d rfl
    split at hev
    · next h =>
      cases hev
      exact ⟨rfl, h⟩
    · cases hev
  have hother : ev = none ∨ ∃ d, ev = some (.taken d) := by
    split at hev
    · exact .inr ⟨_, hev.symm⟩
    · exact .inl hev.symm
  generalize hs : { w.mem with allocationEntriesCacheHead := w.mem.allocationEntriesCacheHead + 1 } = s'
  have hpush (e : Nat) : push e (⟨i, w.mem, ev, s'⟩ : Rec (Fin n) (Mem n) Ev) = none := by
    rcases hother with rfl | ⟨d, rfl⟩ <;> rfl
  have hpass (e : Nat) (he : ∀ d, ev = some (.taken d) → d ≠ e) :
      pass e (⟨i, w.mem, ev, s'⟩ : Rec (Fin n) (Mem n) Ev) = none := by
    rcases hother with rfl | ⟨d, rfl⟩
    · rfl
    · exact if_neg (he d rfl)
  have hnone : ∀ d, ev = some (.taken d) → owner d w.log = none := fun d hd => by
    obtain ⟨rfl, hlt⟩ := hsome d hd
    exact hg.owned.fresh _ le_rfl hlt
  have howner (e : Nat) {o : Owner n} (he : owner e w.log = some o) :
      owner e (w.next i ev s' w.ghost).log = some o := by
    refine (owner_cons (hpass e fun d hd hde => ?_)).trans he
    rw [← hde, hnone d hd] at he
    cases he
  subst hs
  refine ⟨⟨?_, hg.claims.next ?_ (.inr rfl), hg.objects.next ?_ ?_ rfl hg.objects.filled, hg.fair, ?_⟩, fun j hj => ?_⟩
  · exact { hg.owned with
      sharedOwner := fun e he => howner e (hg.owned.sharedOwner e he)
      sharedVer := fun e he => (pushVer_cons (hpush e)).trans (hg.owned.sharedVer e he)
      freeOwner := fun j e he => howner e (hg.owned.freeOwner j e he)
      cacheOwner := fun j e he => howner e (hg.owned.cacheOwner j e he)
      fresh := fun e he hs => by
        have he : w.mem.allocationEntriesCacheHead + 1 ≤ e := he
        refine (owner_cons (hpass e fun d hd hde => ?_)).trans (hg.owned.fresh e (by omega) hs)
        have := (hsome d hd).1
        omega }
  · intro p v e
    rcases hother with rfl | ⟨d, rfl⟩ <;> cases e
  · intro x v e
    rcases hother with rfl | ⟨d, rfl⟩ <;> cases e
  · intro x v e
    rcases hother with rfl | ⟨d, rfl⟩ <;> cases e
  · refine ⟨?_, hnone, ?_, ?_, ?_⟩
    all_goals
      intro x v e
      rcases hother with rfl | ⟨d, rfl⟩ <;> cases e
  · refine keeps_next rfl rfl rfl rfl (fun e he => hpass e fun d hd hde => ?_) (fun e => (pushVer_cons (hpush e)).ge)
      fun e he => .inr ⟨he, rfl⟩
    rw [← hde, hnone d hd] at he
    cases he

/-! ## Free lists -/

/-- Thread `i` changes its free list to `l`. -/
theorem acts_freeList (hg : Good heapmem w) {f : LocalAlloc → LocalAlloc} {l : List Nat}
    (hfree : Linked (next w.mem) (f (w.mem.locals i)).entriesLocalFreeList l) (hnodup : l.Nodup)
    (howner : ∀ e ∈ l, owner e w.log = some (.thread i))
    (hcache : ∀ e, (f (w.mem.locals i)).alloc_cache = some e → owner e w.log = some (.thread i) ∧ e ∉ l) :
    Acts heapmem i w (w.next i none (w.mem.setLocal i f)
      { w.ghost with freeL := Function.update w.ghost.freeL i l }) := by
  refine ⟨⟨?_, hg.claims.next (fun _ _ => nofun) (.inr rfl), ?_, fair_next hg.fair rfl⟩, fun j hj => ?_⟩
  · have hself : Function.update w.ghost.freeL i l i = l := Function.update_self ..
    have hother : ∀ j, j ≠ i → Function.update w.ghost.freeL i l j = w.ghost.freeL j := fun j hj => Function.update_of_ne hj ..
    refine { hg.owned with
      sharedOwner := fun e he => (owner_next rfl).trans (hg.owned.sharedOwner e he)
      sharedVer := fun e he => (pushVer_next rfl).trans (hg.owned.sharedVer e he)
      free := fun j => ?_
      freeNodup := fun j => ?_
      freeOwner := fun j e he => (owner_next rfl).trans ?_
      cacheOwner := fun j e he => (owner_next rfl).trans ?_
      cacheFree := fun j e he => ?_
      fresh := fun e he hs => (owner_next rfl).trans (hg.owned.fresh e he hs) }
    all_goals
      dsimp only [World.next] at *
      by_cases hj : j = i
    · subst hj
      rw [Mem.setLocal_self, hself]
      exact hfree
    · rw [Mem.setLocal_of_ne _ hj, hother j hj]
      exact hg.owned.free j
    · subst hj
      rw [hself]
      exact hnodup
    · rw [hother j hj]
      exact hg.owned.freeNodup j
    · subst hj
      exact howner e (hself ▸ he)
    · exact hg.owned.freeOwner j e (hother j hj ▸ he)
    · subst hj
      rw [Mem.setLocal_self] at he
      exact (hcache e he).1
    · rw [Mem.setLocal_of_ne _ hj] at he
      exact hg.owned.cacheOwner j e he
    · subst hj
      rw [Mem.setLocal_self] at he
      rw [hself]
      exact (hcache e he).2
    · rw [Mem.setLocal_of_ne _ hj] at he
      rw [hother j hj]
      exact hg.owned.cacheFree j e he
  · exact hg.objects.next (fun _ _ => nofun) (fun _ _ => nofun) rfl hg.objects.filled
  · exact keeps_next rfl rfl (Mem.setLocal_of_ne _ hj) (Function.update_of_ne hj ..) (fun _ _ => rfl)
      (fun e => (pushVer_next rfl).ge) fun e he => .inr ⟨he, rfl⟩

/-! ## Passing a descriptor on -/

/-- Thread `i` pushes the descriptor of its cache. -/
theorem acts_push (hg : Good heapmem w) {e v : Nat} (hcache : (w.mem.locals i).alloc_cache = some e)
    (hver : w.mem.head.ver = v) (hv : 0 < v) (hnext : next w.mem e = w.mem.head.head) (hold : pushVer e w.log < v)
    (hfilled : ∀ k x, Content w.mem e k x → w.ghost.place v x = some (.entry e k)) :
    Acts heapmem i w (w.next i (some (.pushed e v))
      { w.mem.setLocal i ({ · with alloc_cache := none }) with head := ⟨some e, v⟩ }
      { w.ghost with stack := e :: w.ghost.stack }) := by
  have howner := hg.owned.cacheOwner i e hcache
  generalize hs : ({ w.mem.setLocal i ({ · with alloc_cache := none }) with head := ⟨some e, v⟩ } : Mem n) = s'
  have hne {d : Nat} {o : Owner n} (hd : owner d w.log = some o) (ho : o ≠ .thread i) : e ≠ d := by
    rintro rfl
    rw [howner] at hd
    injection hd with hd
    exact ho hd.symm
  have hpass {d : Nat} (hd : e ≠ d) : pass d (⟨i, w.mem, some (.pushed e v), s'⟩ : Rec (Fin n) (Mem n) Ev) = none := if_neg hd
  have hself : push e (⟨i, w.mem, some (.pushed e v), s'⟩ : Rec (Fin n) (Mem n) Ev) = some (v : Int) := if_pos rfl
  have hfree {j : Fin n} {d : Nat} (hd : d ∈ w.ghost.freeL j) : e ≠ d := by
    rintro rfl
    by_cases hj : j = i
    · exact hg.owned.cacheFree i e hcache (hj ▸ hd)
    · exact hne (hg.owned.freeOwner j e hd) (fun h => hj (by injection h)) rfl
  subst hs
  refine ⟨⟨?_, hg.claims.next (fun _ _ => nofun) (.inr rfl), ⟨?_, ?_, ?_, ?_, ?_⟩, hg.fair, ?_⟩, fun j hj => ?_⟩
  · exact {
      shared := hg.owned.shared.push hnext
      sharedNodup := List.nodup_cons.2 ⟨fun h => hne (hg.owned.sharedOwner e h) nofun rfl, hg.owned.sharedNodup⟩
      sharedOwner := fun d hd => by
        rcases List.mem_cons.1 hd with rfl | hd
        · exact owner_cons_some (if_pos rfl)
        · have ho := hg.owned.sharedOwner d hd
          exact (owner_cons (hpass (hne ho nofun))).trans ho
      sharedVer := fun d hd => by
        rcases List.mem_cons.1 hd with rfl | hd
        · exact pushVer_cons_some hself
        · have ho := hg.owned.sharedOwner d hd
          exact (pushVer_cons (push_of_pass (hpass (hne ho nofun)))).trans ((hg.owned.sharedVer d hd).trans hver)
      free := fun j => by
        have hlist : ((w.mem.setLocal i ({ · with alloc_cache := none })).locals j).entriesLocalFreeList =
            (w.mem.locals j).entriesLocalFreeList := by
          by_cases hj : j = i
          · subst hj
            rw [Mem.setLocal_self]
          · rw [Mem.setLocal_of_ne _ hj]
        exact hlist ▸ hg.owned.free j
      freeNodup := hg.owned.freeNodup
      freeOwner := fun j d hd => (owner_cons (hpass (hfree hd))).trans (hg.owned.freeOwner j d hd)
      cacheOwner := fun j d hd => by
        by_cases hj : j = i
        · subst hj
          simp only [World.next, Mem.setLocal_self] at hd
          cases hd
        · simp only [World.next, Mem.setLocal_of_ne _ hj] at hd
          have ho := hg.owned.cacheOwner j d hd
          exact (owner_cons (hpass (hne ho fun h => hj (by injection h)))).trans ho
      cacheFree := fun j d hd => by
        by_cases hj : j = i
        · subst hj
          simp only [World.next, Mem.setLocal_self] at hd
          cases hd
        · simp only [World.next, Mem.setLocal_of_ne _ hj] at hd
          exact hg.owned.cacheFree j d hd
      fresh := fun d hd hs => by
        have ho := hg.owned.fresh d hd hs
        refine (owner_cons (hpass ?_)).trans ho
        rintro rfl
        rw [ho] at howner
        cases howner }
  · intro d hd k x hx
    rcases List.mem_cons.1 hd with rfl | hd
    · exact hfilled k x hx
    · have h := hg.objects.filled d hd k x hx
      rwa [hver] at h
  · exact fun u x hx => (hg.objects.put u x hx).imp_right fun ⟨j, p, hc, hp⟩ => ⟨j, p, hc.mono, hp⟩
  · intro r hr x u hev
    rcases List.mem_cons.1 hr with rfl | hr
    · cases hev
    · exact hg.objects.served r hr x u hev
  · intro r hr d ver hev k x hx
    rcases List.mem_cons.1 hr with rfl | hr
    · cases hev
      exact .inl (hfilled k x hx)
    · exact hg.objects.pushed r hr d ver hev k x hx
  · intro r hr d ver hev
    rcases List.mem_cons.1 hr with rfl | hr
    · cases hev
      exact (pushVer_cons_some hself).ge
    · have h := hg.objects.pushVer r hr d ver hev
      by_cases hd : e = d
      · subst hd
        exact (h.trans hold.le).trans (pushVer_cons_some hself).ge
      · exact h.trans (pushVer_cons (push_of_pass (hpass hd))).ge
  · refine ⟨fun _ _ => nofun, fun _ => nofun, fun d ver hev => ?_, fun _ _ => nofun, fun _ _ => nofun⟩
    cases hev
    refine ⟨howner, by omega, fun k k' x hx hx' => ?_, fun r hr d hev k k' x hx' hx => ?_⟩
    · have h := (hfilled k x hx).symm.trans (hfilled k' x hx')
      injection h with h
      injection h
    · have h := hfilled k x hx
      rcases hg.objects.pushed r hr d v hev k' x hx' with h' | h'
      · have := h.symm.trans h'
        injection this with this
        injection this with hed _
        subst hed
        exact absurd (hg.objects.pushVer r hr e v hev) (not_le.2 hold)
      · have := h.symm.trans h'
        injection this with this
        cases this
  · have hlocal : (w.mem.setLocal i ({ · with alloc_cache := none })).locals j = w.mem.locals j := Mem.setLocal_of_ne _ hj
    refine keeps_next rfl rfl hlocal rfl (fun d hd => hpass (hne hd fun h => hj (by injection h))) (fun d => ?_)
      fun d hd => ?_
    · by_cases hd : e = d
      · subst hd
        exact hold.le.trans (pushVer_cons_some hself).ge
      · exact (pushVer_cons (push_of_pass (hpass hd))).ge
    · rcases List.mem_cons.1 hd with rfl | hd
      · exact .inl hold
      · exact .inr ⟨hd, hver.symm⟩

/-- Thread `i` pops the top. -/
theorem acts_pop (hg : Good heapmem w) {e : Nat} (hhead : w.mem.head.head = some e) :
    Acts heapmem i w (w.next i (some (.popped e w.mem.head.ver))
      { w.mem with head := ⟨next w.mem e, w.mem.head.ver⟩ } { w.ghost with stack := w.ghost.stack.tail }) := by
  have hlinked := hg.owned.shared
  rw [hhead] at hlinked
  obtain ⟨l, hl, hrest⟩ := hlinked.top
  have hmem {d : Nat} (hd : d ∈ l) : d ∈ w.ghost.stack := hl ▸ List.mem_cons_of_mem e hd
  have hnodup := List.nodup_cons.1 (hl ▸ hg.owned.sharedNodup)
  have howner := hg.owned.sharedOwner e (hl ▸ List.mem_cons_self)
  have htail : w.ghost.stack.tail = l := by rw [hl, List.tail_cons]
  rw [htail]
  generalize hs : ({ w.mem with head := ⟨next w.mem e, w.mem.head.ver⟩ } : Mem n) = s'
  have hpass {d : Nat} (hd : e ≠ d) :
      pass d (⟨i, w.mem, some (.popped e w.mem.head.ver), s'⟩ : Rec (Fin n) (Mem n) Ev) = none := if_neg hd
  have hthread {d : Nat} {j : Fin n} (hd : owner d w.log = some (.thread j)) : e ≠ d := by
    rintro rfl
    rw [howner] at hd
    cases hd
  subst hs
  refine ⟨⟨?_, hg.claims.next (fun _ _ => nofun) (.inr rfl), ?_, hg.fair, ?_⟩, fun j hj => ?_⟩
  · exact { hg.owned with
      shared := hrest
      sharedNodup := hnodup.2
      sharedOwner := fun d hd =>
        (owner_cons (hpass fun h => hnodup.1 (h ▸ hd))).trans (hg.owned.sharedOwner d (hmem hd))
      sharedVer := fun d hd => (pushVer_cons rfl).trans (hg.owned.sharedVer d (hmem hd))
      freeOwner := fun j d hd => by
        have ho := hg.owned.freeOwner j d hd
        exact (owner_cons (hpass (hthread ho))).trans ho
      cacheOwner := fun j d hd => by
        have ho := hg.owned.cacheOwner j d hd
        exact (owner_cons (hpass (hthread ho))).trans ho
      fresh := fun d hd hs => by
        have ho := hg.owned.fresh d hd hs
        refine (owner_cons (hpass ?_)).trans ho
        rintro rfl
        rw [ho] at howner
        cases howner }
  · exact hg.objects.next (fun _ _ => nofun) (fun _ _ => nofun) rfl fun d hd => hg.objects.filled d (hmem hd)
  · refine ⟨fun _ _ => nofun, fun _ => nofun, fun _ _ => nofun, fun d ver hev => ?_, fun _ _ => nofun⟩
    cases hev
    exact ⟨howner, rfl, rfl, l, ⟨hhead, hrest⟩, hrest⟩
  · exact keeps_next rfl rfl rfl rfl (fun d hd => hpass (hthread hd)) (fun d => (pushVer_cons rfl).ge)
      fun d hd => .inr ⟨hmem hd, rfl⟩

end OptimisticAccess.AOA.Pool
