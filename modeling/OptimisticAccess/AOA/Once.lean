import Mathlib.Data.List.Induction
import OptimisticAccess.AOA.Pool

/-!
# No object is handed out twice in a phase

Every function that touches the pool keeps the protocol of owners, versions and places.
-/

namespace OptimisticAccess.AOA.Pool

open Conc Prog

variable {n : Nat} {heapmem : List Nat} {i : Fin n} {α β : Type}

/-! ## Rules -/

/-- The steps of the other threads keep `A`. -/
def Private (heapmem : List Nat) (i : Fin n) (A : W n → Prop) : Prop :=
  ∀ w w', Good heapmem w → Keeps heapmem i w w' → A w → A w'

abbrev Spec (heapmem : List Nat) (i : Fin n) (A : W n → Prop) (p : P n α) (B : α → W n → Prop) : Prop :=
  (proto heapmem).Triple i A p B

variable {A A' R : W n → Prop} {B : α → W n → Prop} {C : β → W n → Prop}

theorem Private.and (hA : Private heapmem i A) (hR : Private heapmem i R) : Private heapmem i fun w => A w ∧ R w :=
  fun w w' hg hk h => ⟨hA w w' hg hk h.1, hR w w' hg hk h.2⟩

theorem private_const (p : Prop) : Private heapmem i fun _ : W n => p := fun _ _ _ _ h => h

theorem Private.stable (hA : Private heapmem i A) : (proto heapmem).Stable i A :=
  fun _ w w' hj hg _ hact h => hA w w' hg (hact i fun e => hj e.symm) h

/-- The step rule. -/
theorem Spec.step {ev : Mem n → Option Ev} {upd : Mem n → Mem n} {k : Mem n → P n α} (hA : Private heapmem i A)
    (h : ∀ w, A w → Good heapmem w → Stamps.Inv heapmem w.mem →
      ∃ g, Acts heapmem i w (w.next i (ev w.mem) (upd w.mem) g) ∧
        (proto heapmem).wp i (k w.mem) B (w.next i (ev w.mem) (upd w.mem) g)) :
    Spec heapmem i A (Prog.step ev upd k) B := by
  intro w hw
  refine Proto.wp_step A hw hA.stable fun w hw hI hok => ?_
  obtain ⟨g, hact, hk⟩ := h w hw hI hok.1
  exact ⟨g, hact.1, hact.2, hk⟩

theorem Spec.cas {ok : Mem n → Prop} [DecidablePred ok] {upd : Mem n → Mem n} {e : Option Ev} {B : Bool → W n → Prop}
    (hA : Private heapmem i A)
    (hyes : ∀ w, A w → Good heapmem w → Stamps.Inv heapmem w.mem → ok w.mem →
      ∃ g, Acts heapmem i w (w.next i e (upd w.mem) g) ∧ B true (w.next i e (upd w.mem) g))
    (hno : ∀ w, A w → Good heapmem w → Stamps.Inv heapmem w.mem → ¬ ok w.mem →
      ∃ g, Acts heapmem i w (w.next i none w.mem g) ∧ B false (w.next i none w.mem g)) :
    Spec heapmem i A (Prog.cas ok upd e) B := by
  refine .step hA fun w hw hg hI => ?_
  by_cases h : ok w.mem
  · simp only [if_pos h, decide_eq_true h]
    exact hyes w hw hg hI h
  · simp only [if_neg h, decide_eq_false h]
    exact hno w hw hg hI h

/-! ## Steps that the pool does not see -/

structure Quiet (s : Mem n) (e : Option Ev) (s' : Mem n) : Prop where
  event : Ev.isPool e = false
  head : s'.head = s.head
  sweep : s'.sweep_counter = s.sweep_counter
  cacheHead : s'.allocationEntriesCacheHead = s.allocationEntriesCacheHead
  entries : s'.entries = s.entries
  localVer : ∀ j, (s'.locals j).localVer = (s.locals j).localVer
  cache : ∀ j, (s'.locals j).alloc_cache = (s.locals j).alloc_cache
  freeHead : ∀ j, (s'.locals j).entriesLocalFreeList = (s.locals j).entriesLocalFreeList

theorem Quiet.refl {e : Option Ev} (he : Ev.isPool e = false) (s : Mem n) : Quiet s e s :=
  ⟨he, rfl, rfl, rfl, rfl, fun _ => rfl, fun _ => rfl, fun _ => rfl⟩

theorem Quiet.keeps {w : W n} {e : Option Ev} {s' : Mem n} (h : Quiet w.mem e s') (j : Fin n) :
    Keeps heapmem j w (w.next i e s' w.ghost) where
  localVer := h.localVer j
  cache := h.cache j
  freeHead := h.freeHead j
  freeL := rfl
  owner := fun _ he => (owner_next h.event).trans he
  version := fun _ _ => pushVer_next h.event
  entry := fun e _ => congrFun h.entries e
  placed := fun _ _ _ _ hx _ => hx
  unput := fun _ _ _ _ _ hx => hx
  claims := fun _ _ hc => hc.mono
  rises := fun _ => (pushVer_next h.event).ge
  stack := fun e he => .inr ⟨he, congrFun h.entries e, congrArg VerEntry.ver h.head⟩

theorem Quiet.acts {w : W n} {e : Option Ev} {s' : Mem n} (h : Quiet w.mem e s') (hg : Good heapmem w) :
    Acts heapmem i w (w.next i e s' w.ghost) := by
  have ht : Touch heapmem i w s' w.ghost.place := {
    head := h.head
    sweep := h.sweep
    cacheHead := h.cacheHead
    freeHead := h.freeHead
    others := fun j _ => ⟨h.localVer j, h.cache j⟩
    entry := fun e => .inl (congrFun h.entries e)
    cache := fun e he => ⟨hg.owned.cacheOwner i e (h.cache i ▸ he), hg.owned.cacheFree i e (h.cache i ▸ he)⟩
    place := Moved.refl }
  exact ⟨ht.good (.inl h.event) hg, fun j _ => h.keeps j⟩

theorem Spec.load {f : Mem n → α} (hA : Private heapmem i A) (hB : ∀ a, Private heapmem i (B a))
    (h : ∀ w, A w → Good heapmem w → Stamps.Inv heapmem w.mem → B (f w.mem) w) :
    Spec heapmem i A (Prog.load f) B :=
  .step hA fun w hw hg hI => ⟨w.ghost, (Quiet.refl rfl w.mem).acts hg,
    hB _ w _ hg ((Quiet.refl rfl w.mem).keeps i) (h w hw hg hI)⟩

theorem Spec.quiet {p : P n α} (hp : p.Obeys Quiet) (hA : Private heapmem i A) : Spec heapmem i A p fun _ => A :=
  fun _ hw => Proto.wp_obeys hp A hw hA.stable fun w _ _ hw hg _ hq =>
    ⟨w.ghost, (hq.acts hg).1, (hq.acts (i := i) hg).2, hA w _ hg (hq.keeps i) hw⟩

theorem Quiet.load {f : Mem n → α} : Obeys Quiet (Prog.load f : P n α) := obeys_load fun s => .refl rfl s

/-- A thread that fails an assertion goes no further. -/
theorem Spec.check {c : Prop} [Decidable c] {e : Ev} (he : Ev.isPool (some e) = false) (hA : Private heapmem i A) :
    Spec heapmem i A (Prog.check c e) fun _ w => c ∧ A w := by
  unfold Prog.check
  split
  · next hc => exact Proto.Triple.ret fun w h => ⟨hc, h⟩
  · exact .step hA fun w hw hg _ => ⟨w.ghost, (Quiet.refl he w.mem).acts hg, trivial⟩

/-- A write of what is the thread's own. -/
theorem Spec.touch {upd : Mem n → Mem n} {B : Unit → W n → Prop} (hheap : Heap heapmem) (hA : Private heapmem i A)
    (h : ∀ w, A w → Good heapmem w → Stamps.Inv heapmem w.mem → ∃ place,
      Touch heapmem i w (upd w.mem) place ∧ B () (w.next i none (upd w.mem) { w.ghost with place := place })) :
    Spec heapmem i A (Prog.store upd) B :=
  .step hA fun w hw hg hI => by
    obtain ⟨place, ht, hB⟩ := h w hw hg hI
    exact ⟨_, ht.acts (.inl rfl) hg hheap, hB⟩

/-! ## What a thread knows of the pool -/

/-- Thread `i` works for phase `q`; what is on its free list was last pushed before `b`. -/
structure At (i : Fin n) (q : Nat) (b : Int) (w : W n) : Prop where
  localVer : (w.mem.locals i).localVer = q
  spare : ∀ e ∈ w.ghost.freeL i, pushVer e w.log < b

def Cache (i : Fin n) (c : Option Nat) (w : W n) : Prop := (w.mem.locals i).alloc_cache = c

/-- Descriptor `e` is in the hands of thread `i`, last pushed before `b`. -/
structure Mine (i : Fin n) (e : Nat) (b : Int) (w : W n) : Prop where
  owner : owner e w.log = some (.thread i)
  free : e ∉ w.ghost.freeL i
  version : pushVer e w.log < b

/-- The objects of descriptor `e` are in it and nowhere else in phase `q`. -/
def Filled (q e : Nat) (w : W n) : Prop := ∀ k x, Content w.mem e k x → w.ghost.place q x = some (.entry e k)

def CacheFilled (i : Fin n) (q : Nat) (b : Int) (w : W n) : Prop :=
  ∀ e, (w.mem.locals i).alloc_cache = some e → Mine i e b w ∧ Filled q e w

/-- Thread `i` has claimed page `p`, and no object of it from `lo` on is placed. -/
structure Page (heapmem : List Nat) (i : Fin n) (q p lo : Nat) (w : W n) : Prop where
  claimed : ClaimedBy w.log i p q
  unput : ∀ x, InPage heapmem p x → lo ≤ x.addr → w.ghost.place q x = none

variable {q e p lo : Nat} {b : Int} {c : Option Nat} {w : W n}

theorem private_at : Private heapmem i (At i q b) := by
  refine fun w w' hg hk h => ⟨hk.localVer.trans h.localVer, fun e he => ?_⟩
  rw [hk.freeL] at he
  rw [hk.version e (hg.owned.freeOwner i e he)]
  exact h.spare e he

theorem private_cache : Private heapmem i (Cache i c) := fun _ _ _ hk h => hk.cache.trans h

theorem private_mine : Private heapmem i (Mine i e b) := fun _ _ _ hk h =>
  ⟨hk.owner e h.owner, hk.freeL ▸ h.free, (hk.version e h.owner).symm ▸ h.version⟩

theorem private_full : Private heapmem i fun w => Mine i e b w ∧ Filled q e w := by
  refine fun w w' hg hk h => ⟨private_mine w w' hg hk h.1, fun k x hx => ?_⟩
  rw [Content, hk.entry e h.1.owner] at hx
  exact hk.placed q x e k (h.2 k x hx) h.1.owner

theorem private_cacheFilled : Private heapmem i (CacheFilled i q b) := fun w w' hg hk h e he =>
  private_full w w' hg hk (h e (hk.cache ▸ he))

theorem private_page : Private heapmem i (Page heapmem i q p lo) := fun _ _ _ hk h =>
  ⟨hk.claims p q h.claimed, fun x hx hlo => hk.unput q x p h.claimed hx (h.unput x hx hlo)⟩

theorem Page.mono {lo' : Nat} (h : Page heapmem i q p lo w) (hlo : lo ≤ lo') : Page heapmem i q p lo' w :=
  ⟨h.claimed, fun x hx hx' => h.unput x hx (hlo.trans hx')⟩

theorem At.mono {b' : Int} (h : At i q b w) (hb : b ≤ b') : At i q b' w :=
  ⟨h.localVer, fun e he => (h.spare e he).trans_le hb⟩

/-- Facts that the thread's own steps on other things keep: the log grows and the places stay. -/
def Steady (R : W n → Prop) : Prop :=
  ∀ w i ev s' stack freeL, R w → R (w.next i ev s' ⟨stack, freeL, w.ghost.place⟩)

theorem steady_const (p : Prop) : Steady fun _ : W n => p := fun _ _ _ _ _ _ h => h

theorem steady_page : Steady (Page heapmem i q p lo) := fun _ _ _ _ _ _ h => ⟨h.claimed.mono, h.unput⟩

theorem Spec.localVer {k : Nat → P n α} (hA : Private heapmem i A) (hq : ∀ w, A w → (w.mem.locals i).localVer = q)
    (h : Spec heapmem i A (k q) B) : Spec heapmem i A (Prog.load (fun s => (s.locals i).localVer) >>= k) B := by
  refine Proto.Triple.bind (B := fun v w => v = q ∧ A w)
    (Spec.load hA (fun v => (private_const _).and hA) fun w hw _ _ => ⟨hq w hw, hw⟩) fun v => ?_
  refine Proto.Triple.fact (fun w hw => hw.1) fun hv => ?_
  subst hv
  exact h.pre fun w hw => hw.2

/-! ## Descriptors -/

theorem touch_entry {f : AllocEntry → AllocEntry} {place : Nat → Ptr → Option Place} (hg : Good heapmem w)
    (hmine : Mine i e b w) (hplace : Moved heapmem i w place) : Touch heapmem i w (w.mem.setEntry e f) place where
  head := rfl
  sweep := rfl
  cacheHead := rfl
  freeHead := fun _ => rfl
  others := fun _ _ => ⟨rfl, rfl⟩
  entry := by
    intro d
    by_cases hd : d = e
    · subst hd
      exact .inr ⟨hmine.owner, hmine.free⟩
    · exact .inl (Mem.setEntry_of_ne f hd)
  cache := fun d hd => ⟨hg.owned.cacheOwner i d hd, hg.owned.cacheFree i d hd⟩
  place := hplace

theorem touch_local {f : LocalAlloc → LocalAlloc} (hfree : ∀ l, (f l).entriesLocalFreeList = l.entriesLocalFreeList)
    (hcache : ∀ d, (f (w.mem.locals i)).alloc_cache = some d → owner d w.log = some (.thread i) ∧ d ∉ w.ghost.freeL i) :
    Touch heapmem i w (w.mem.setLocal i f) w.ghost.place where
  head := rfl
  sweep := rfl
  cacheHead := rfl
  freeHead := by
    intro j
    by_cases hj : j = i
    · subst hj
      rw [Mem.setLocal_self, hfree]
    · rw [Mem.setLocal_of_ne f hj]
  others := fun j hj => ⟨by rw [Mem.setLocal_of_ne f hj], by rw [Mem.setLocal_of_ne f hj]⟩
  entry := fun _ => .inl rfl
  cache := fun d hd => hcache d (by rwa [Mem.setLocal_self] at hd)
  place := Moved.refl

/-- A write to the cache and to the descriptor in it. -/
theorem Touch.setEntry {s' : Mem n} {place : Nat → Ptr → Option Place} (h : Touch heapmem i w s' w.ghost.place)
    {f : AllocEntry → AllocEntry} (hmine : Mine i e b w) (hplace : Moved heapmem i w place) :
    Touch heapmem i w (s'.setEntry e f) place := { h with
  entry := by
    intro d
    by_cases hd : d = e
    · subst hd
      exact .inr ⟨hmine.owner, hmine.free⟩
    · exact (Mem.setEntry_of_ne (s := s') f hd).symm ▸ h.entry d
  place := hplace }

/-- What the thread knows after a silent step of its own. -/
theorem At.next {s' : Mem n} {place : Nat → Ptr → Option Place} (h : At i q b w)
    (hver : (s'.locals i).localVer = (w.mem.locals i).localVer) :
    At i q b (w.next i none s' { w.ghost with place := place }) :=
  ⟨hver.trans h.localVer, fun d hd => (pushVer_next rfl).trans_lt (h.spare d hd)⟩

theorem Mine.next {s' : Mem n} {place : Nat → Ptr → Option Place} (h : Mine i e b w) :
    Mine i e b (w.next i none s' { w.ghost with place := place }) :=
  ⟨(owner_next rfl).trans h.owner, h.free, (pushVer_next rfl).trans_lt h.version⟩

theorem CacheFilled.none (h : Cache i none w) : CacheFilled i q b w := fun e he => by
  rw [h] at he
  cases he

theorem spec_freeAllocCache {p : Nat} (hheap : Heap heapmem) :
    Spec heapmem i (fun w => At i q b w ∧ Cache i (some p) w ∧ Mine i p b w) (freeAllocCache i p) fun _ w =>
      At i q b w ∧ Cache i none w := by
  have hA : Private heapmem i fun w => At i q b w ∧ Cache i (some p) w ∧ Mine i p b w :=
    private_at.and (private_cache.and private_mine)
  have hlinked : Private heapmem i fun w => Mine i p b w ∧ next w.mem p = (w.mem.locals i).entriesLocalFreeList := by
    refine fun w w' hg hk h => ⟨private_mine w w' hg hk h.1, ?_⟩
    rw [hk.freeHead, ← h.2, next, hk.entry p h.1.owner]
    rfl
  refine Proto.Triple.bind (B := fun _ w => At i q b w ∧ Cache i (some p) w ∧
    Mine i p b w ∧ next w.mem p = (w.mem.locals i).entriesLocalFreeList)
    (Spec.touch hheap hA fun w hw hg _ =>
      ⟨w.ghost.place, touch_entry hg hw.2.2 Moved.refl, hw.1.next rfl, hw.2.1, hw.2.2.next, ?_⟩)
    fun _ => Spec.step (private_at.and (private_cache.and hlinked)) fun w hw hg _ => ?_
  · simp only [next, World.next, Mem.setEntry_self]
    rfl
  · obtain ⟨ha, hc, hm, hn⟩ := hw
    refine ⟨_, acts_freeList hg (l := p :: w.ghost.freeL i) ⟨rfl, hn ▸ hg.owned.free i⟩ ?_ ?_ (by simp), ?_⟩
    · exact List.nodup_cons.2 ⟨hm.free, hg.owned.freeNodup i⟩
    · intro d hd
      rcases List.mem_cons.1 hd with rfl | hd
      · exact hm.owner
      · exact hg.owned.freeOwner i d hd
    · refine ⟨⟨?_, fun d hd => (pushVer_next rfl).trans_lt ?_⟩, ?_⟩
      · simp only [World.next, Mem.setLocal_self]
        exact ha.localVer
      · simp only [World.next, Function.update_self] at hd
        rcases List.mem_cons.1 hd with rfl | hd
        · exact hm.version
        · exact ha.spare d hd
      · simp only [Cache, World.next, Mem.setLocal_self]

theorem Mine.notMem (h : Mine i e b w) {d : Nat} (hd : d ∈ w.ghost.freeL i) : d ≠ e :=
  fun hde => h.free (hde ▸ hd)

/-- A descriptor from the free list, or one that was never in use. -/
theorem spec_getAllocEntry (hR : Private heapmem i R) (hs : Steady R) (hb : 0 ≤ b) :
    Spec heapmem i (fun w => At i q b w ∧ R w) (getAllocEntry i) fun e w => Mine i e b w ∧ At i q b w ∧ R w := by
  have hA := (private_at (q := q) (b := b)).and hR
  refine Proto.Triple.bind (B := fun h w => (w.mem.locals i).entriesLocalFreeList = h ∧ At i q b w ∧ R w)
    (Spec.load hA (fun h => Private.and (fun w w' _ hk hw => hk.freeHead.trans hw) hA) fun w hw _ _ => ⟨rfl, hw⟩) fun h => ?_
  cases h with
  | some p =>
    refine Proto.Triple.bind (B := fun _ w => Mine i p b w ∧ At i q b w ∧ R w)
      (Spec.step (Private.and (fun w w' _ hk hw => hk.freeHead.trans hw) hA) fun w hw hg _ => ?_)
      fun _ => Proto.Triple.ret fun _ h => h
    obtain ⟨hhead, ha, hr⟩ := hw
    have hlinked := hg.owned.free i
    rw [hhead] at hlinked
    obtain ⟨l, hl, hrest⟩ := hlinked.top
    have hnodup := List.nodup_cons.1 (hl ▸ hg.owned.freeNodup i)
    have hmem {d : Nat} (hd : d ∈ l) : d ∈ w.ghost.freeL i := hl ▸ List.mem_cons_of_mem p hd
    have hp : p ∈ w.ghost.freeL i := hl ▸ List.mem_cons_self
    refine ⟨_, acts_freeList hg hrest hnodup.2 (fun d hd => hg.owned.freeOwner i d (hmem hd)) fun d hd =>
      ⟨hg.owned.cacheOwner i d hd, fun h => hg.owned.cacheFree i d hd (hmem h)⟩, ⟨?_, ?_, ?_⟩, ⟨?_, fun d hd => ?_⟩, hs _ _ _ _ _ _ hr⟩
    · exact (owner_next rfl).trans (hg.owned.freeOwner i p hp)
    · simpa only [World.next, Function.update_self] using hnodup.1
    · exact (pushVer_next rfl).trans_lt (ha.spare p hp)
    · simp only [World.next, Mem.setLocal_self]
      exact ha.localVer
    · simp only [World.next, Function.update_self] at hd
      exact (pushVer_next rfl).trans_lt (ha.spare d (hmem hd))
  | none =>
    refine Proto.Triple.bind (B := fun d w => (d < allocationEntriesCacheSize → Mine i d b w) ∧ At i q b w ∧ R w)
      (Spec.step (Private.and (fun w w' _ hk hw => hk.freeHead.trans hw) hA) fun w hw hg _ =>
        ⟨w.ghost, acts_take hg, fun hlt => ?_, ⟨hw.2.1.localVer, fun d hd => ?_⟩, hs _ _ _ _ _ _ hw.2.2⟩) fun d => ?_
    · have hnone := hg.owned.fresh _ le_rfl hlt
      simp only [if_pos hlt]
      refine ⟨owner_cons_some (if_pos rfl), fun hd => ?_, ?_⟩
      · rw [hg.owned.freeOwner i _ hd] at hnone
        cases hnone
      · refine (pushVer_cons rfl).trans_lt ?_
        rw [pushVer_of_none hnone]
        omega
    · refine (pushVer_cons ?_).trans_lt (hw.2.1.spare d hd)
      split <;> rfl
    · have hB : Private heapmem i fun w => (d < allocationEntriesCacheSize → Mine i d b w) ∧ At i q b w ∧ R w :=
        Private.and (fun w w' hg hk h hlt => private_mine w w' hg hk (h hlt)) hA
      exact (Spec.check rfl hB).bind fun _ => Proto.Triple.ret fun w hw => ⟨hw.2.1 hw.1, hw.2.2⟩

theorem spec_readHead (hA : Private heapmem i A) : Spec heapmem i A readHead fun _ => A :=
  Spec.quiet (obeys_bind Quiet.load fun _ => obeys_bind Quiet.load fun _ => trivial) hA

theorem Filled.next {s' : Mem n} (h : Filled q e w) (hcontent : ∀ k x, Content s' e k x → Content w.mem e k x) :
    Filled q e (w.next i none s' { w.ghost with place := w.ghost.place }) :=
  fun k x hx => h k x (hcontent k x hx)

/-- The cache goes on the shared stack, or is given up when the stack belongs to another phase. -/
theorem spec_pReturnCache {fuel : Nat} (hheap : Heap heapmem) (hq : 0 < q) (hR : Private heapmem i R) (hs : Steady R) :
    Spec heapmem i (fun w => Cache i (some e) w ∧ (Mine i e q w ∧ Filled q e w) ∧ At i q q w ∧ R w)
      (pReturnCache i fuel e) fun _ w => At i q q w ∧ R w := by
  have hA := (private_at (q := q) (b := q)).and hR
  have hJ : Private heapmem i fun w => Cache i (some e) w ∧ (Mine i e q w ∧ Filled q e w) ∧ At i q q w ∧ R w :=
    private_cache.and (private_full.and hA)
  have hlinked (h : Option Nat) : Private heapmem i fun w => next w.mem e = h ∧
      Cache i (some e) w ∧ (Mine i e q w ∧ Filled q e w) ∧ At i q q w ∧ R w :=
    fun w w' hg hk hw => ⟨(congrArg AllocEntry.next (hk.entry e hw.2.2.1.1.owner)).trans hw.1, hJ w w' hg hk hw.2⟩
  refine Proto.Triple.iter (fun _ => (spec_readHead hJ).bind fun old => ?_) fuel ()
  refine Spec.localVer hJ (fun w hw => hw.2.2.1.localVer) (Proto.Triple.ite (fun hver => ?_) fun hver => ?_)
  · refine Proto.Triple.bind (B := fun _ w => At i q q w ∧ R w) (Spec.touch hheap hJ fun w hw hg _ =>
      ⟨w.ghost.place, touch_entry hg hw.2.1.1 Moved.refl, hw.2.2.1.next rfl, hs _ _ _ _ _ _ hw.2.2.2⟩) fun _ => Proto.Triple.ret fun _ h => h
  · refine Proto.Triple.bind (B := fun _ w => next w.mem e = old.head ∧
      Cache i (some e) w ∧ (Mine i e q w ∧ Filled q e w) ∧ At i q q w ∧ R w)
      (Spec.touch hheap hJ fun w hw hg _ => ⟨w.ghost.place, touch_entry hg hw.2.1.1 Moved.refl, ?_, hw.1,
        ⟨hw.2.1.1.next, hw.2.1.2.next fun k x hx => ?_⟩, hw.2.2.1.next rfl, hs _ _ _ _ _ _ hw.2.2.2⟩) fun _ => ?_
    · simp only [next, World.next, Mem.setEntry_self]
    · simpa only [Content, Mem.setEntry_self] using hx
    · refine Proto.Triple.bind (B := fun ok w => if ok then At i q q w ∧ R w else
        Cache i (some e) w ∧ (Mine i e q w ∧ Filled q e w) ∧ At i q q w ∧ R w)
        (Spec.cas (hlinked _) (fun w hw hg _ hok => ?_) fun w hw hg _ _ =>
          ⟨w.ghost, (Quiet.refl rfl w.mem).acts hg, hJ w _ hg ((Quiet.refl rfl w.mem).keeps i) hw.2⟩) fun ok => ?_
      · obtain ⟨hn, hc, ⟨hm, hf⟩, ha, hr⟩ := hw
        have hhead : w.mem.head.ver = q := (congrArg VerEntry.ver hok).trans (not_not.1 hver)
        refine ⟨_, acts_push hg hc hhead hq (hn.trans (congrArg VerEntry.head hok).symm) hm.version hf, ⟨?_, fun d hd => ?_⟩,
          hs _ _ _ _ _ _ hr⟩
        · simp only [World.next, Mem.setLocal_self]
          exact ha.localVer
        · refine (pushVer_cons (push_of_pass ?_)).trans_lt (ha.spare d hd)
          exact if_neg (hm.notMem hd).symm
      · exact Proto.Triple.ite (fun hok => Proto.Triple.ret fun w h => by rwa [if_pos hok] at h) fun hok =>
          Proto.Triple.ret fun w h => by rwa [if_neg hok] at h

/-! ## Sweeping -/

/-- Object `x` of phase `q` comes to `y`. -/
def put (place : Nat → Ptr → Option Place) (q : Nat) (x : Ptr) (y : Option Place) (v : Nat) (x' : Ptr) : Option Place :=
  if v = q ∧ x' = x then y else place v x'

theorem put_self {place : Nat → Ptr → Option Place} {x : Ptr} {y : Option Place} : put place q x y q x = y :=
  if_pos ⟨rfl, rfl⟩

theorem put_of_ne {place : Nat → Ptr → Option Place} {x x' : Ptr} {y : Option Place} {v : Nat} (h : v = q → x' ≠ x) :
    put place q x y v x' = place v x' :=
  if_neg fun ⟨hv, hx⟩ => h hv hx

theorem Page.moved {x : Ptr} {y : Option Place} (h : Page heapmem i q p lo w) (hx : InPage heapmem p x) (hlo : lo ≤ x.addr) :
    Moved heapmem i w (put w.ghost.place q x y) := by
  intro v x'
  by_cases hv : v = q ∧ x' = x
  · obtain ⟨rfl, rfl⟩ := hv
    exact .inr (.inl ⟨h.unput x' hx hlo, p, h.claimed, hx⟩)
  · exact .inl (put_of_ne fun e e' => hv ⟨e, e'⟩)

theorem Page.next {s' : Mem n} {x : Ptr} {y : Option Place} {lo' : Nat} (h : Page heapmem i q p lo w) (hlo : lo ≤ lo')
    (hx : x.addr < lo') : Page heapmem i q p lo' (w.next i none s' { w.ghost with place := put w.ghost.place q x y }) := by
  refine ⟨h.claimed.mono, fun x' hx' hle => ?_⟩
  refine (put_of_ne fun _ e => ?_).trans (h.unput x' hx' (hlo.trans hle))
  subst e
  omega

/-- Thread `i` sweeps page `p`; the objects from `lo` on are still to come. -/
def Sweeping (heapmem : List Nat) (i : Fin n) (q p lo : Nat) (w : W n) : Prop :=
  CacheFilled i q q w ∧ At i q q w ∧ Page heapmem i q p lo w

theorem private_sweeping : Private heapmem i (Sweeping heapmem i q p lo) :=
  private_cacheFilled.and (private_at.and private_page)

theorem Sweeping.mono {lo' : Nat} (h : Sweeping heapmem i q p lo w) (hlo : lo ≤ lo') : Sweeping heapmem i q p lo' w :=
  ⟨h.1, h.2.1, h.2.2.mono hlo⟩

/-- The step that puts object `x` in slot `k` of descriptor `e`. -/
theorem sweeping_put {s' : Mem n} {f : AllocEntry → AllocEntry} {x : Ptr} {k lo' : Nat}
    (ht : Touch heapmem i w s' w.ghost.place) (hm : Mine i e q w) (ha : At i q q w) (hp : Page heapmem i q p lo w)
    (hx : InPage heapmem p x) (hlo : lo ≤ x.addr) (hlo' : x.addr < lo')
    (hver : (s'.locals i).localVer = (w.mem.locals i).localVer) (hcache : (s'.locals i).alloc_cache = some e)
    (hcontent : ∀ l x', Content (s'.setEntry e f) e l x' → l = k ∧ x' = x ∨ w.ghost.place q x' = some (.entry e l)) :
    Touch heapmem i w (s'.setEntry e f) (put w.ghost.place q x (some (.entry e k))) ∧
      Sweeping heapmem i q p lo' (w.next i none (s'.setEntry e f)
        { w.ghost with place := put w.ghost.place q x (some (.entry e k)) }) := by
  refine ⟨ht.setEntry hm (hp.moved hx hlo), fun d hd => ?_, ha.next hver, hp.next (by omega) hlo'⟩
  obtain rfl : e = d := Option.some.inj (hcache.symm.trans hd)
  refine ⟨hm.next, fun l x' hx' => ?_⟩
  rcases hcontent l x' hx' with ⟨rfl, rfl⟩ | hold
  · exact put_self
  · refine (put_of_ne fun _ hxx => ?_).trans hold
    rw [hxx, hp.unput x hx hlo] at hold
    cases hold

theorem spec_startCache {x : Ptr} {lo' : Nat} (hheap : Heap heapmem) (hx : InPage heapmem p x) (hlo : lo ≤ x.addr)
    (hlo' : x.addr < lo') :
    Spec heapmem i (fun w => At i q q w ∧ Page heapmem i q p lo w) (startCache i x) fun _ => Sweeping heapmem i q p lo' := by
  refine Proto.Triple.bind (spec_getAllocEntry private_page steady_page (Int.natCast_nonneg q)) fun e => ?_
  refine Spec.touch hheap (private_mine.and (private_at.and private_page)) fun w ⟨hm, ha, hp⟩ hg _ => ?_
  refine ⟨_, sweeping_put (k := 0) (touch_local (fun _ => rfl) fun d hd => ?_) hm ha hp hx hlo hlo' ?_ ?_ fun l x' h => .inl ?_⟩
  · cases hd
    exact ⟨hm.owner, hm.free⟩
  · rw [Mem.setLocal_self]
  · rw [Mem.setLocal_self]
  · simp only [Content, Mem.setEntry_self] at h
    obtain ⟨hl, rfl⟩ := h
    obtain rfl : l = 0 := by omega
    exact ⟨rfl, Function.update_self ..⟩

theorem spec_setAsFree {fuel : Nat} {x : Ptr} {lo' : Nat} (hheap : Heap heapmem) (hq : 0 < q) (hx : InPage heapmem p x)
    (hlo : lo ≤ x.addr) (hlo' : x.addr < lo') :
    Spec heapmem i (Sweeping heapmem i q p lo) (setAsFree i fuel x) fun _ => Sweeping heapmem i q p lo' := by
  refine Proto.Triple.bind (B := fun c w => Cache i c w ∧ Sweeping heapmem i q p lo w)
    (Spec.load private_sweeping (fun c => private_cache.and private_sweeping) fun w hw _ _ => ⟨rfl, hw⟩) fun c => ?_
  cases c with
  | none => exact (spec_startCache hheap hx hlo hlo').pre fun w hw => hw.2.2
  | some e =>
    have hA : Private heapmem i fun w => Cache i (some e) w ∧ Sweeping heapmem i q p lo w :=
      private_cache.and private_sweeping
    refine (Spec.quiet Quiet.load hA).bind fun free => Proto.Triple.ite (fun _ => ?_) fun _ => ?_
    · refine Spec.touch hheap hA fun w hw hg _ => ?_
      obtain ⟨hc, hf, ha, hp⟩ := hw
      obtain ⟨hm, hf⟩ := hf e hc
      have ht : Touch heapmem i w w.mem w.ghost.place :=
        { touch_entry (f := id) hg hm Moved.refl with entry := fun _ => .inl rfl }
      refine ⟨_, sweeping_put (k := (w.mem.entries e).free) ht hm ha hp hx hlo hlo' rfl hc fun l x' h => ?_⟩
      simp only [Content, Mem.setEntry_self] at h
      obtain ⟨hl, rfl⟩ := h
      rcases Nat.lt_succ_iff_lt_or_eq.1 hl with hl | rfl
      · exact .inr (hf l _ ⟨hl, (Function.update_of_ne hl.ne ..).symm⟩)
      · exact .inl ⟨rfl, Function.update_self ..⟩
    · refine ((spec_pReturnCache hheap hq private_page steady_page).pre fun w hw => ?_).bind fun _ =>
        spec_startCache hheap hx hlo hlo'
      exact ⟨hw.1, hw.2.1 e hw.1, hw.2.2⟩

theorem spec_sweepWord {fuel h_ptr obj : Nat} (hheap : Heap heapmem) (hq : 0 < q) (hobj : pageAddr heapmem p ≤ obj)
    (hend : obj + 32 * nodeSize ≤ pageAddr heapmem p + sweepPage) :
    Spec heapmem i (Sweeping heapmem i q p obj) (sweepWord i fuel h_ptr obj nodeSize) fun _ =>
      Sweeping heapmem i q p (obj + 32 * nodeSize) := by
  have hsize : nodeSize = 32 := rfl
  refine (Spec.quiet Quiet.load private_sweeping).bind fun mark_bits => ?_
  refine ((Proto.Triple.forRange (J := fun k => Sweeping heapmem i q p (obj + k * nodeSize)) fun k hk =>
    Proto.Triple.ite (fun _ => ?_) fun _ => Proto.Triple.ret fun w h => h.mono ?_)).pre fun w h => h.mono ?_
  all_goals simp only [hsize] at hend ⊢
  · exact spec_setAsFree hheap hq ⟨by dsimp only; omega, by dsimp only; omega⟩ le_rfl (by dsimp only; omega)
  · omega
  · omega

theorem spec_process_sweep_page {fuel : Nat} (hheap : Heap heapmem) (hq : 0 < q) :
    Spec heapmem i (Sweeping heapmem i q p 0) (process_sweep_page i fuel p) fun _ w => CacheFilled i q q w ∧ At i q q w := by
  have hS : Private heapmem i (Sweeping heapmem i q p 0) := private_sweeping
  have hpage : sweepPage = 2 ^ 16 := rfl
  have hheader : headerSize = 4096 := rfl
  have hsize : nodeSize = 32 := rfl
  refine Proto.Triple.bind (B := fun page w => page = pageAddr heapmem p ∧ Sweeping heapmem i q p 0 w)
    (Spec.load hS (fun page => (private_const _).and hS) fun w hw _ hI => ⟨?_, hw⟩) fun page =>
    Proto.Triple.fact (fun w h => h.1) fun hpg => ?_
  · rw [hI.chunks]
    rfl
  refine ((Spec.check rfl hS).pre fun w h => h.2).bind fun _ => (Spec.quiet Quiet.load ((private_const _).and hS)).bind fun objSize => ?_
  refine (Spec.check rfl ((private_const _).and hS)).bind fun _ => Proto.Triple.fact (fun w h => h.1) fun hobj => ?_
  refine (Spec.check rfl ((private_const _).and ((private_const _).and hS))).bind fun _ => ?_
  subst hobj hpg
  dsimp only
  generalize hfirst : (if pageAddr heapmem p = pageAddr heapmem p / chunkSize * chunkSize then
    headerSize / (memPerByte * wordSize) else 0) = u64ignores
  generalize hstart : (if pageAddr heapmem p = pageAddr heapmem p / chunkSize * chunkSize ∧ u64ignores ≠ 0 then
    pageAddr heapmem p + headerSize else pageAddr heapmem p) = start
  have hstart : pageAddr heapmem p ≤ start ∧ start ≤ pageAddr heapmem p + sweepPage := by
    rw [← hstart]
    split <;> omega
  refine ((Proto.Triple.forRange (J := fun k => Sweeping heapmem i q p (start + 32 * nodeSize * k)) fun k hk => ?_).pre
    fun w h => h.2.2.2.mono (Nat.zero_le _)).post fun _ w h => ⟨h.1, h.2.1⟩
  have hk : (k + 1) * (32 * nodeSize) ≤ pageAddr heapmem p + sweepPage - start :=
    (Nat.mul_le_mul_right _ hk).trans (Nat.div_mul_le_self ..)
  have hnext : start + 32 * nodeSize * (k + 1) = start + 32 * nodeSize * k + 32 * nodeSize := by
    rw [Nat.mul_succ, Nat.add_assoc]
  rw [Nat.mul_comm] at hk
  exact (spec_sweepWord hheap hq (by omega) (by omega)).post fun _ w h => h.mono hnext.ge

/-- A page that is claimed now holds no object of this phase yet. -/
theorem unput_of_unclaimed (hheap : Heap heapmem) (hg : Good heapmem w) (hq : 0 < q) (hhi : Stamp.hi w.mem.sweep_counter = q)
    (hlt : scounter w.mem.sweep_counter < heapmem.length * sweepPagesPerChunk) {x : Ptr}
    (hx : InPage heapmem (scounter w.mem.sweep_counter) x) : w.ghost.place q x = none := by
  by_contra hne
  rcases hg.objects.put q x hne with rfl | ⟨j, p, ⟨r, hr, -, hev⟩, hp⟩
  · exact absurd hq (Nat.lt_irrefl 0)
  · obtain rfl := inPage_unique hheap hlt (hg.claims.page r hr p q hev) hx hp
    rcases hg.claims.counted r hr _ q hev with h | h <;> omega

theorem spec_dropCache (hheap : Heap heapmem) :
    Spec heapmem i (At i q b) (Prog.store (·.setLocal i ({ · with alloc_cache := none }))) fun _ w =>
      Cache i none w ∧ At i q b w := by
  refine Spec.touch hheap private_at fun w ha _ _ =>
    ⟨w.ghost.place, touch_local (fun _ => rfl) (fun d hd => by cases hd), ?_, ha.next ?_⟩
  · simp only [Cache, World.next, Mem.setLocal_self]
  · rw [Mem.setLocal_self]

/-- What a thread may rely on when it goes to the next page. -/
def Swept (heapmem : List Nat) (i : Fin n) (q : Nat) : Option Nat → W n → Prop
  | none => fun w => Cache i none w ∧ At i q q w
  | some p => Sweeping heapmem i q p 0

theorem spec_takeSweepPage {fuel : Nat} (hheap : Heap heapmem) (hq : 0 < q) :
    Spec heapmem i (fun w => CacheFilled i q q w ∧ At i q q w)
      (takeSweepPage i fuel (heapmem.length * sweepPagesPerChunk) q) (Swept heapmem i q) := by
  have hJ : Private heapmem i fun w => CacheFilled i q q w ∧ At i q q w := private_cacheFilled.and private_at
  have hlen : heapmem.length * sweepPagesPerChunk < 2 ^ 32 := by
    have hmax : maxChunks = 20 := rfl
    have hle := hheap.length_le
    rw [show sweepPagesPerChunk = 8 by decide]
    omega
  refine Proto.Triple.iter (fun _ => (Spec.quiet Quiet.load hJ).bind fun lsweep => Proto.Triple.ite (fun _ => ?_) fun hleft => ?_) fuel ()
  · refine Proto.Triple.bind (B := fun c w => Cache i c w ∧ CacheFilled i q q w ∧ At i q q w)
      (Spec.load hJ (fun c => private_cache.and hJ) fun w hw _ _ => ⟨rfl, hw⟩) fun c => ?_
    cases c with
    | none => exact Proto.Triple.ret fun w hw => ⟨hw.1, hw.2.2⟩
    | some e =>
      refine ((spec_pReturnCache hheap hq (R := fun _ => True) (private_const _) (steady_const _)).pre fun w ⟨hc, hf, ha⟩ =>
        ⟨hc, hf e hc, ha, trivial⟩).bind fun _ => ?_
      exact (spec_dropCache hheap).pre (fun w hw => hw.1) |>.bind fun _ => Proto.Triple.ret fun _ h => h
  · obtain ⟨hphase, hlt⟩ : Stamp.hi lsweep = q ∧ scounter lsweep < heapmem.length * sweepPagesPerChunk := by
      rwa [not_or, not_not, not_le, phaseOf_eq] at hleft
    refine Proto.Triple.bind (B := fun ok w => if ok then Sweeping heapmem i q (scounter lsweep) 0 w else
      CacheFilled i q q w ∧ At i q q w) (Spec.cas hJ (fun w ⟨hf, ha⟩ hg _ hok => ⟨w.ghost, ?_⟩) fun w hw hg _ _ =>
        ⟨w.ghost, (Quiet.refl rfl w.mem).acts hg, hJ w _ hg ((Quiet.refl rfl w.mem).keeps i) hw⟩) fun ok => ?_
    · subst hok hphase
      refine ⟨acts_claim hg rfl hlt hlen, fun e he => ?_, ⟨ha.localVer, fun d hd => (pushVer_cons rfl).trans_lt (ha.spare d hd)⟩,
        ⟨⟨_, List.mem_cons_self, rfl, rfl⟩, fun x hx _ => unput_of_unclaimed hheap hg hq rfl hlt hx⟩⟩
      obtain ⟨hm, hf⟩ := hf e he
      exact ⟨⟨(owner_cons rfl).trans hm.owner, hm.free, (pushVer_cons rfl).trans_lt hm.version⟩, hf⟩
    · exact Proto.Triple.ite (fun hok => Proto.Triple.ret fun w h => by rwa [if_pos hok] at h) fun hok =>
        Proto.Triple.ret fun w h => by rwa [if_neg hok] at h

theorem spec_sweep {fuel : Nat} (hheap : Heap heapmem) (hq : 0 < q) :
    Spec heapmem i (At i q q) (sweep i fuel) fun _ w => Cache i none w ∧ At i q q w := by
  have hA : Private heapmem i fun w => CacheFilled i q q w ∧ At i q q w := private_cacheFilled.and private_at
  refine ((spec_dropCache hheap).post fun _ w h => (⟨CacheFilled.none h.1, h.2⟩ : CacheFilled i q q w ∧ _)).bind fun _ => ?_
  refine Proto.Triple.bind (B := fun num w => num = heapmem.length * sweepPagesPerChunk ∧ CacheFilled i q q w ∧ At i q q w)
    (Spec.load hA (fun _ => (private_const _).and hA) fun w hw _ hI => ⟨by rw [hI.chunks], hw⟩) fun num => ?_
  refine Proto.Triple.fact (fun w h => h.1) fun hnum => ?_
  subst hnum
  refine Proto.Triple.bind (B := fun phase w => phase = q ∧ CacheFilled i q q w ∧ At i q q w)
    (Spec.load ((private_const _).and hA) (fun _ => (private_const _).and hA) fun w ⟨_, hw⟩ _ hI => ⟨?_, hw⟩) fun phase => ?_
  · have hsmall := hI.small i
    rw [hw.2.localVer] at hsmall ⊢
    exact Nat.mod_eq_of_lt (by omega)
  refine Proto.Triple.fact (fun w h => h.1) fun hphase => ?_
  subst hphase
  refine (Proto.Triple.iter (J := fun _ w => CacheFilled i phase phase w ∧ At i phase phase w) (fun _ => ?_) fuel ()).pre fun w h => h.2
  refine (spec_takeSweepPage hheap hq).bind fun page => ?_
  cases page with
  | none => exact Proto.Triple.ret fun _ h => h
  | some page => exact (spec_process_sweep_page hheap hq).bind fun _ => Proto.Triple.ret fun _ h => h

/-! ## Collections -/

/-- Thread `i` has no cache and works for phase `q`. -/
def Bare (i : Fin n) (q : Nat) (b : Int) (w : W n) : Prop := Cache i none w ∧ At i q b w

theorem private_bare : Private heapmem i (Bare i q b) := private_cache.and private_at

theorem Quiet.casDirty {dNpd old : U64} {j : Fin n} : Obeys Quiet (warn.casDirty dNpd j old) :=
  obeys_cas (fun s => .refl rfl s) fun s _ => { Quiet.refl rfl s with }

theorem Quiet.warn {dNp dNpd : U64} {j : Fin n} : Obeys Quiet (warn dNp dNpd j) := by
  refine obeys_bind Quiet.load fun _ => obeys_ite (fun _ => trivial) fun _ => obeys_bind casDirty fun _ => ?_
  exact obeys_bind Quiet.load fun _ => obeys_ite (fun _ => trivial) fun _ => obeys_bind casDirty fun _ => trivial

theorem Quiet.readHPs {HPlocal : List Ptr} {j : Fin n} : Obeys Quiet (readHPs HPlocal j) :=
  obeys_bind (obeys_watch fun s => .refl rfl s) fun _ => obeys_bind (obeys_watch fun s => .refl rfl s) fun _ =>
    obeys_bind (obeys_watch fun s => .refl rfl s) fun _ => trivial

theorem spec_resetHead {fuel : Nat} {newhead : Int} (hA : Private heapmem i (Bare i q b)) :
    Spec heapmem i (Bare i q b) (resetHead i fuel ⟨none, newhead⟩) fun _ => Bare i q b := by
  refine (spec_readHead hA).bind fun old => Proto.Triple.iter (J := fun _ => Bare i q b) (fun old => ?_) fuel old
  refine (Spec.quiet Quiet.load hA).bind fun localVer => Proto.Triple.ite (fun _ => ?_) fun _ => Proto.Triple.ret fun _ h => h
  refine Proto.Triple.bind (B := fun _ => Bare i q b) (Spec.cas hA (fun w ⟨hc, ha⟩ hg _ _ =>
    ⟨_, acts_reset hg newhead, hc, ha.localVer, fun d hd => (pushVer_next rfl).trans_lt (ha.spare d hd)⟩) fun w hw hg _ _ =>
    ⟨w.ghost, (Quiet.refl rfl w.mem).acts hg, hA w _ hg ((Quiet.refl rfl w.mem).keeps i) hw⟩) fun _ => ?_
  exact (spec_readHead hA).bind fun old => Proto.Triple.ret fun _ h => h

theorem spec_Reclamation (fuel : Nat) (hheap : Heap heapmem) :
    Spec heapmem i (Bare i q (q + 1)) (Reclamation i fuel) fun _ => Bare i (q + 2) (q + 2 : Nat) := by
  have hA : Private heapmem i (Bare i q (q + 1)) := private_bare
  have hB : Private heapmem i (Bare i (q + 2) (q + 2 : Nat)) := private_bare
  refine (Spec.quiet Quiet.load hA).bind fun localVer => (Spec.quiet ?_ hA).bind fun _ => ?_
  · exact obeys_cas (fun s => .refl rfl s) fun s _ => { Quiet.refl rfl s with }
  refine Proto.Triple.defined.bind fun _ => ((spec_resetHead hA).pre fun w h => h.2).bind fun _ => ?_
  refine Proto.Triple.bind (B := fun _ => Bare i (q + 2) (q + 2 : Nat)) (Spec.touch hheap hA fun w ⟨hc, ha⟩ hg _ =>
    ⟨w.ghost.place, touch_local (fun _ => rfl) (fun d hd => ?_), ?_, ?_, fun d hd => ?_⟩) fun _ => ?_
  · exact ⟨hg.owned.cacheOwner i d hd, hg.owned.cacheFree i d hd⟩
  · simp only [Cache, World.next, Mem.setLocal_self]
    exact hc
  · simp only [World.next, Mem.setLocal_self, ha.localVer]
  · refine (pushVer_next rfl).trans_lt ((ha.spare d hd).trans_le ?_)
    omega
  refine (Spec.quiet Quiet.load hB).bind fun localVer => (Spec.quiet Quiet.load hB).bind fun phase => ?_
  refine Proto.Triple.ite (fun _ => Proto.Triple.ret fun _ h => h) fun _ => ?_
  refine (Spec.quiet (obeys_forEach fun j _ => Quiet.warn) hB).bind fun _ => ?_
  refine (Spec.quiet (obeys_foldEach (fun _ _ => Quiet.readHPs) _ _) hB).bind fun _ => ?_
  exact (Spec.quiet (obeys_emit fun s => .refl rfl s) hB).bind fun _ => Proto.Triple.ret fun _ h => h

theorem Quiet.root {s s' : Mem n} {e : Option Ev} (h : RootStep i s e s') : Quiet s e s' := by
  have htable : ∀ {e : Option Ev}, Ev.isTable e → Ev.isPool e = false := by
    intro e he
    unfold Ev.isTable at he
    split at he <;> first | rfl | cases he
  have htrace : ∀ {e : Option Ev}, Ev.isTrace e → Ev.isPool e = false := by
    intro e he
    unfold Ev.isTrace at he
    split at he <;> first | rfl | cases he
  cases h with
  | told he => exact .refl (htable he) s
  | table he r k w => exact { Quiet.refl (htable he) s with }
  | trace h =>
    cases h with
    | silent he => exact .refl (htrace he) s
    | mark h k hk _ => exact { Quiet.refl rfl s with }
    | slot he k p =>
      have hlocal (j : Fin n) : ((s.setSlot i k p).locals j).localVer = (s.locals j).localVer ∧
          ((s.setSlot i k p).locals j).alloc_cache = (s.locals j).alloc_cache ∧
          ((s.setSlot i k p).locals j).entriesLocalFreeList = (s.locals j).entriesLocalFreeList := by
        by_cases hj : j = i
        · subst hj
          simp only [Mem.setSlot, Mem.setLocal_self, and_self]
        · simp only [Mem.setSlot, Mem.setLocal_of_ne _ hj, and_self]
      exact { Quiet.refl (htrace he) s with
        localVer := fun j => (hlocal j).1, cache := fun j => (hlocal j).2.1, freeHead := fun j => (hlocal j).2.2 }

theorem quiet_root {p : P n α} (h : p.Obeys (RootStep i)) : p.Obeys Quiet := h.mono fun _ _ _ => .root

theorem Quiet.clearMarks {fuel phaseNum : Nat} : Obeys Quiet (clearMarks i fuel phaseNum) := by
  unfold AOA.clearMarks
  generalize headerSize / wordSize = t
  refine obeys_bind Quiet.load fun chunks => obeys_forEach fun c _ => obeys_forEach fun k _ => obeys_iter (fun _ => ?_) _ _
  refine obeys_bind Quiet.load fun old => obeys_ite (fun _ => trivial) fun _ => ?_
  refine obeys_bind (obeys_cas (fun s => .refl rfl s) fun s _ => { Quiet.refl rfl s with }) fun _ => ?_
  exact obeys_ite (fun _ => trivial) fun _ => trivial

theorem spec_resetSweepCounter {fuel : Nat} (hA : Private heapmem i (Bare i q b)) :
    Spec heapmem i (Bare i q b) (resetSweepCounter i fuel) fun _ => Bare i q b := by
  refine Spec.localVer hA (fun w hw => hw.2.localVer) (Proto.Triple.iter (J := fun _ => Bare i q b) (fun _ => ?_) fuel ())
  refine (Spec.quiet Quiet.load hA).bind fun old => Proto.Triple.ite (fun _ => Proto.Triple.ret fun _ h => h) fun hlt => ?_
  rw [phaseOf_eq, not_le] at hlt
  refine (Spec.check rfl hA).bind fun _ => ?_
  refine Proto.Triple.bind (B := fun _ => Bare i q b) (Spec.cas ((private_const _).and hA) (fun w ⟨_, hc, ha⟩ hg hI hok =>
    ⟨w.ghost, acts_sweepCounter hg ?_, hc, ha.localVer, fun d hd => (pushVer_next rfl).trans_lt (ha.spare d hd)⟩)
    fun w ⟨_, hw⟩ hg _ _ =>
    ⟨w.ghost, (Quiet.refl rfl w.mem).acts hg, hA w _ hg ((Quiet.refl rfl w.mem).keeps i) hw⟩) fun ok => ?_
  · have hsmall := hI.small i
    rw [ha.localVer] at hsmall
    rw [hok, makeSC_zero, Stamp.hi_empty]
    omega
  · exact Proto.Triple.ite (fun _ => Proto.Triple.ret fun _ h => h) fun _ => Proto.Triple.ret fun _ h => h

theorem spec_trace {fuel : Nat} {HPs : List Ptr} (hA : Private heapmem i (Bare i q b)) :
    Spec heapmem i (Bare i q b) (trace i fuel HPs) fun _ => Bare i q b := by
  refine (Spec.quiet Quiet.load hA).bind fun localVer => (Spec.quiet (quiet_root obeys_traceRoots) hA).bind fun counter => ?_
  refine (Spec.quiet (obeys_foldEach (fun counter p => ?_) _ _) hA).bind fun counter => ?_
  · refine obeys_bind (obeys_check fun s => .refl rfl s) fun _ => ?_
    exact obeys_bind (quiet_root (obeys_root 0 (obeys_setSlot _ _))) fun _ => trivial
  refine (Spec.quiet (quiet_root (obeys_root _ obeys_traceToEnd)) hA).bind fun _ => ?_
  exact spec_resetSweepCounter hA

theorem spec_reclaimed (fuel : Nat) (hheap : Heap heapmem) (hq : 0 < q) (HPlocal : Option (List Ptr)) :
    Spec heapmem i (Bare i q q) (match HPlocal with
      | none => Prog.ret ()
      | some HPlocal => do
        let localVer ← Prog.load fun s => (s.locals i).localVer
        clearMarks i fuel localVer
        clearRootsMark i fuel
        trace i fuel HPlocal
        let gsc ← Prog.load (·.sweep_counter)
        Prog.check (phaseOf gsc ≥ localVer) (.assertFailed .gscPhase)
        sweep i fuel) fun _ => Bare i q q := by
  have hA : Private heapmem i (Bare i q q) := private_bare
  cases HPlocal with
  | none => exact Proto.Triple.ret fun _ h => h
  | some HPlocal =>
    refine (Spec.quiet Quiet.load hA).bind fun localVer => (Spec.quiet Quiet.clearMarks hA).bind fun _ => ?_
    refine (Spec.quiet (quiet_root obeys_clearRootsMark) hA).bind fun _ => (spec_trace hA).bind fun _ => ?_
    refine (Spec.quiet Quiet.load hA).bind fun gsc => (Spec.check rfl hA).bind fun _ => ?_
    exact (spec_sweep hheap hq).pre fun _ h => h.2.2

/-- Between collections thread `i` works for phase `q`, and its cache serves that phase. -/
def Serving (i : Fin n) (q : Nat) (w : W n) : Prop := CacheFilled i q (q + 1) w ∧ At i q (q + 1) w

theorem private_serving : Private heapmem i (Serving i q) := private_cacheFilled.and private_at

theorem Bare.serving (h : Bare i q b w) (hb : b ≤ q + 1) : Serving i q w := ⟨CacheFilled.none h.1, h.2.mono hb⟩

theorem spec_triggerCollection {fuel : Nat} (hheap : Heap heapmem) :
    Spec heapmem i (Serving i q) (triggerCollection i fuel) fun _ => Serving i (q + 2) := by
  have hrest : Spec heapmem i (Bare i q (q + 1)) _ fun _ => Serving i (q + 2) :=
    (spec_Reclamation fuel hheap).bind fun HPlocal =>
      (spec_reclaimed fuel hheap (Nat.succ_pos _) HPlocal).post fun _ w h => h.serving (Int.le_add_one le_rfl)
  refine Proto.Triple.bind (B := fun c w => Cache i c w ∧ Serving i q w)
    (Spec.load private_serving (fun c => private_cache.and private_serving) fun w hw _ _ => ⟨rfl, hw⟩) fun c => ?_
  cases c with
  | none => exact hrest.pre fun w hw => ⟨hw.1, hw.2.2⟩
  | some e =>
    refine ((spec_freeAllocCache hheap).pre fun w ⟨hc, hf, ha⟩ => ⟨ha, hc, (hf e hc).1⟩).bind fun _ => ?_
    exact hrest.pre fun w hw => ⟨hw.2, hw.1⟩

/-! ## Allocation -/

/-- `e` was last pushed in phase `q` or later; as long as it is on the stack of phase `q`, it links to `h`. -/
def Seen (q e : Nat) (h : Option Nat) (w : W n) : Prop :=
  (q : Int) ≤ pushVer e w.log ∧ (w.mem.head.ver = q → e ∈ w.ghost.stack → next w.mem e = h)

/-- A descriptor that leaves the stack does not come back in the same phase. -/
theorem private_seen {h : Option Nat} : Private heapmem i (Seen q e h) := by
  refine fun w w' hg hk ⟨hver, hseen⟩ => ⟨hver.trans (hk.rises e), fun hq he => ?_⟩
  rcases hk.stack e he with hlt | ⟨hmem, hentry, hsame⟩
  · omega
  · exact (congrArg AllocEntry.next hentry).trans (hseen (hsame.symm.trans hq) hmem)

theorem seen_top (hg : Good heapmem w) (hI : Stamps.Inv heapmem w.mem) (ha : At i q b w) (hhead : w.mem.head.head = some e) :
    (q : Int) ≤ pushVer e w.log := by
  have hlinked := hg.owned.shared
  rw [hhead] at hlinked
  rw [hg.owned.sharedVer e hlinked.mem_of_some]
  have hle := hI.localVer_le_head i
  rw [ha.localVer] at hle
  have hver := Int.toNat_of_nonneg hI.ver
  simp only [Stamps.stamp] at hle
  omega

theorem serving_next {s' : Mem n} {g : Ghost n} {ev : Option Ev} (h : Serving i q w)
    (hpass : ∀ e, owner e w.log = some (.thread i) → pass e ⟨i, w.mem, ev, s'⟩ = none) (hlocals : s'.locals = w.mem.locals)
    (hentries : s'.entries = w.mem.entries) (hfreeL : g.freeL i = w.ghost.freeL i) (hplace : g.place = w.ghost.place)
    (hg : Good heapmem w) : Serving i q (w.next i ev s' g) := by
  refine ⟨fun e he => ?_, ?_, fun d hd => ?_⟩
  · obtain ⟨hm, hf⟩ := h.1 e (hlocals ▸ he)
    have hp := hpass e hm.owner
    refine ⟨⟨(owner_cons hp).trans hm.owner, ?_, (pushVer_cons (push_of_pass hp)).trans_lt hm.version⟩, fun k x hx => ?_⟩
    · exact fun hd => hm.free (hfreeL ▸ hd)
    · refine (congrFun (congrFun hplace q) x).trans (hf k x ?_)
      rw [Content, ← hentries]
      exact hx
  · exact (congrArg LocalAlloc.localVer (congrFun hlocals i)).trans h.2.localVer
  · rw [World.next, hfreeL] at hd
    exact (pushVer_cons (push_of_pass (hpass d (hg.owned.freeOwner i d hd)))).trans_lt (h.2.spare d hd)

/-- What `pop` answers in phase `q`. -/
def Fresh (i : Fin n) (q : Nat) : Popped → W n → Prop
  | .entry e => fun w => Mine i e (q + 1) w ∧ Filled q e w
  | _ => fun _ => True

theorem spec_pop {fuel : Nat} : Spec heapmem i (Serving i q) (pop fuel q) fun r w => Fresh i q r w ∧ Serving i q w := by
  have hA : Private heapmem i (Serving i q) := private_serving
  refine Proto.Triple.iter (J := fun _ => Serving i q) (fun _ => ?_) fuel ()
  have hread : Spec heapmem i (Serving i q) readHead fun old w =>
      (∀ e, old.head = some e → (q : Int) ≤ pushVer e w.log) ∧ Serving i q w := by
    have hseen (h : Option Nat) : Private heapmem i fun w => (∀ e, h = some e → (q : Int) ≤ pushVer e w.log) ∧ Serving i q w :=
      Private.and (fun w w' _ hk h e he => (h e he).trans (hk.rises e)) hA
    refine Proto.Triple.bind (Spec.load hA hseen fun w hw hg hI => ⟨fun e he => seen_top hg hI hw.2 he, hw⟩) fun h => ?_
    exact (Spec.quiet Quiet.load (hseen h)).bind fun ver => Proto.Triple.ret fun _ h => h
  refine hread.bind fun ⟨head, ver⟩ => Proto.Triple.ite (fun _ => Proto.Triple.ret fun w hw => ⟨trivial, hw.2⟩) fun hver => ?_
  cases head with
  | none => exact Proto.Triple.ret fun w hw => ⟨trivial, hw.2⟩
  | some e =>
    have hB : Private heapmem i fun w => (q : Int) ≤ pushVer e w.log ∧ Serving i q w :=
      Private.and (fun w w' _ hk h => h.trans (hk.rises e)) hA
    refine Proto.Triple.bind (B := fun h w => Seen q e h w ∧ Serving i q w) ((Spec.load hB (fun h => private_seen.and hA)
      fun w ⟨hle, hw⟩ _ _ => ⟨⟨hle, fun _ _ => rfl⟩, hw⟩).pre fun w hw => ⟨hw.1 e rfl, hw.2⟩) fun h => ?_
    refine Proto.Triple.bind (B := fun ok w => (ok = true → Mine i e (q + 1) w ∧ Filled q e w) ∧ Serving i q w)
      (Spec.cas (private_seen.and hA) (fun w ⟨⟨_, hseen⟩, hw⟩ hg _ hok => ?_) fun w ⟨_, hw⟩ hg _ _ =>
        ⟨w.ghost, (Quiet.refl rfl w.mem).acts hg, nofun, hA w _ hg ((Quiet.refl rfl w.mem).keeps i) hw⟩) fun ok => ?_
    · have hhead : w.mem.head.head = some e := congrArg VerEntry.head hok
      have hvq : w.mem.head.ver = q := (congrArg VerEntry.ver hok).trans (not_not.1 hver)
      have hlinked := hg.owned.shared
      rw [hhead] at hlinked
      have hmem := hlinked.mem_of_some
      have hshared := hg.owned.sharedOwner e hmem
      obtain rfl := hseen hvq hmem
      have hverq : ver = w.mem.head.ver := (congrArg VerEntry.ver hok).symm
      subst hverq
      refine ⟨_, acts_pop hg hhead, fun _ => ⟨⟨owner_cons_some (if_pos rfl), fun hd => ?_, ?_⟩, fun k x hx => ?_⟩, ?_⟩
      · rw [hg.owned.freeOwner i e hd] at hshared
        cases hshared
      · refine (pushVer_cons rfl).trans_lt ?_
        rw [hg.owned.sharedVer e hmem]
        omega
      · have hfilled := hg.objects.filled e hmem k x hx
        rwa [hvq] at hfilled
      · refine serving_next hw (fun d hd => if_neg ?_) rfl rfl rfl rfl hg
        rintro rfl
        rw [hshared] at hd
        cases hd
    · exact Proto.Triple.ite (fun hok => Proto.Triple.ret fun w hw => ⟨hw.1 hok, hw.2⟩) fun _ =>
        Proto.Triple.ret fun w hw => hw.2

/-- The step that serves the topmost object of the cache. -/
theorem serving_served (hheap : Heap heapmem) (hg : Good heapmem w) (h : Serving i q w)
    (hcache : (w.mem.locals i).alloc_cache = some e) (hfree : 0 < (w.mem.entries e).free) :
    ∃ g, Acts heapmem i w (w.next i (some (.served ((w.mem.entries e).ptrs ((w.mem.entries e).free - 1)) q))
        (w.mem.setEntry e fun c => { c with free := c.free - 1 }) g) ∧
      Serving i q (w.next i (some (.served ((w.mem.entries e).ptrs ((w.mem.entries e).free - 1)) q))
        (w.mem.setEntry e fun c => { c with free := c.free - 1 }) g) := by
  obtain ⟨hm, hf⟩ := h.1 e hcache
  have hplaced := hf ((w.mem.entries e).free - 1) _ ⟨Nat.sub_lt hfree Nat.one_pos, rfl⟩
  generalize hx : (w.mem.entries e).ptrs ((w.mem.entries e).free - 1) = x at hplaced ⊢
  have hmoved : Moved heapmem i w (put w.ghost.place q x (some .gone)) := by
    intro v x'
    by_cases hv : v = q ∧ x' = x
    · obtain ⟨rfl, rfl⟩ := hv
      exact .inr (.inr ⟨e, _, hplaced, hm.owner, put_self⟩)
    · exact .inl (put_of_ne fun e e' => hv ⟨e, e'⟩)
  refine ⟨_, (touch_entry hg hm hmoved).acts (.inr ⟨x, q, e, _, rfl, hplaced, put_self⟩) hg hheap, fun d hd => ?_,
    h.2.localVer, fun d hd => (pushVer_cons rfl).trans_lt (h.2.spare d hd)⟩
  obtain rfl : e = d := Option.some.inj (hcache.symm.trans hd)
  refine ⟨⟨(owner_cons rfl).trans hm.owner, hm.free, (pushVer_cons rfl).trans_lt hm.version⟩, fun k x' hx' => ?_⟩
  simp only [Content, World.next, Mem.setEntry_self] at hx'
  have hold := hf k x' ⟨by omega, hx'.2⟩
  refine (put_of_ne fun _ hxx => ?_).trans hold
  rw [hxx, hplaced] at hold
  injection hold with hold
  injection hold with _ hk
  omega

/-- Thread `i` is between collections. -/
def Idle (i : Fin n) (w : W n) : Prop := ∃ q, Serving i q w

theorem private_idle : Private heapmem i (Idle i) := fun w w' hg hk ⟨q, h⟩ => ⟨q, private_serving w w' hg hk h⟩

theorem spec_pallocCached (hheap : Heap heapmem) :
    Spec heapmem i (Serving i q) (pallocCached i) fun _ => Serving i q := by
  have hA : Private heapmem i (Serving i q) := private_serving
  refine Proto.Triple.bind (B := fun c w => Cache i c w ∧ Serving i q w)
    (Spec.load hA (fun c => private_cache.and hA) fun w hw _ _ => ⟨rfl, hw⟩) fun c => ?_
  cases c with
  | none => exact Proto.Triple.ret fun w hw => hw.2
  | some e =>
    have hB (free : Nat) : Private heapmem i fun w => ((w.mem.entries e).free = free) ∧ Cache i (some e) w ∧ Serving i q w := by
      refine fun w w' hg hk ⟨hfree, hc, hw⟩ => ⟨?_, private_cache w w' hg hk hc, hA w w' hg hk hw⟩
      rw [hk.entry e (hw.1 e hc).1.owner]
      exact hfree
    refine Proto.Triple.bind (Spec.load (private_cache.and hA) hB fun w hw _ _ => ⟨rfl, hw⟩) fun free => ?_
    refine Proto.Triple.ite (fun hfree => ?_) fun _ => ?_
    · refine Spec.localVer (hB free) (fun w hw => hw.2.2.2.localVer) ?_
      refine Proto.Triple.bind (B := fun _ => Serving i q) (Spec.step (hB free) fun w ⟨hf, hc, hw⟩ hg _ => ?_) fun _ =>
        Proto.Triple.ret fun _ h => h
      exact serving_served hheap hg hw hc (by omega)
    · refine Proto.Triple.bind ((spec_freeAllocCache hheap).pre fun w ⟨_, hc, hw⟩ => ⟨hw.2, hc, (hw.1 e hc).1⟩) fun _ => ?_
      exact Proto.Triple.ret fun w hw => ⟨CacheFilled.none hw.2, hw.1⟩

theorem spec_pallocRefill {fuel : Nat} (hheap : Heap heapmem) :
    Spec heapmem i (Idle i) (pallocRefill i fuel) fun _ => Idle i := by
  have hA (q : Nat) : Private heapmem i (Serving i q) := private_serving
  have htrigger (iter q : Nat) : Spec heapmem i (Serving i q) (do
      triggerCollection i fuel
      if ← Prog.load fun s => (s.dirties i).dirty then return .inr (some NULL)
      else
        let cache ← Prog.load fun s => (s.locals i).alloc_cache
        Prog.check (cache = none) (.assertFailed .noCache)
        Prog.check (iter < 100) (.assertFailed .outOfMemory)
        return .inl (iter + 1) : P n (Nat ⊕ Option Ptr)) fun x w => Sum.elim (fun _ => Idle i w) (fun _ => Idle i w) x := by
    refine (spec_triggerCollection hheap).bind fun _ => (Spec.quiet Quiet.load (hA _)).bind fun dirty => ?_
    refine Proto.Triple.ite (fun _ => Proto.Triple.ret fun w h => ⟨q + 2, h⟩) fun _ => ?_
    refine (Spec.quiet Quiet.load (hA _)).bind fun cache => (Spec.check rfl (hA _)).bind fun _ => ?_
    exact (Spec.check rfl ((private_const _).and (hA _))).bind fun _ => Proto.Triple.ret fun w h => ⟨q + 2, h.2.2⟩
  refine Proto.Triple.iter (J := fun _ => Idle i) (fun iter => Proto.Triple.exists fun q => ?_) fuel 0
  refine Spec.localVer (hA q) (fun w hw => hw.2.localVer) (Proto.Triple.bind spec_pop fun r => ?_)
  cases r with
  | recycleNeeded => exact (htrigger iter q).pre fun w hw => hw.2
  | null => exact (htrigger iter q).pre fun w hw => hw.2
  | entry e =>
    have hB : Private heapmem i fun w => (Mine i e (q + 1) w ∧ Filled q e w) ∧ At i q (q + 1) w := private_full.and private_at
    have hC : Private heapmem i fun w => Cache i (some e) w ∧ (Mine i e (q + 1) w ∧ Filled q e w) ∧ At i q (q + 1) w :=
      private_cache.and hB
    refine Proto.Triple.pre (A := fun w => (Mine i e (q + 1) w ∧ Filled q e w) ∧ At i q (q + 1) w) ?_ fun w hw => ⟨hw.1, hw.2.2⟩
    refine Proto.Triple.bind (B := fun _ w => Cache i (some e) w ∧ (Mine i e (q + 1) w ∧ Filled q e w) ∧ At i q (q + 1) w)
      (Spec.touch hheap hB fun w hw _ _ => ⟨w.ghost.place, touch_local (fun _ => rfl) (fun d hd => ?_), ?_,
        ⟨hw.1.1.next, hw.1.2.next fun _ _ h => h⟩, hw.2.next ?_⟩) fun _ => ?_
    · cases hd
      exact ⟨hw.1.1.owner, hw.1.1.free⟩
    · simp only [Cache, World.next, Mem.setLocal_self]
    · rw [Mem.setLocal_self]
    refine Proto.Triple.bind (B := fun _ => Idle i) (Spec.touch hheap hC fun w hw hg _ =>
      ⟨w.ghost.place, touch_entry hg hw.2.1.1 Moved.refl, q, fun d hd => ?_, hw.2.2.next rfl⟩) fun _ =>
      Proto.Triple.ret fun _ h => h
    obtain rfl : e = d := Option.some.inj (hw.1.symm.trans hd)
    refine ⟨hw.2.1.1.next, hw.2.1.2.next fun k x hx => ?_⟩
    simpa only [Content, Mem.setEntry_self] using hx

theorem spec_palloc {fuel : Nat} (hheap : Heap heapmem) : Spec heapmem i (Idle i) (palloc i fuel) fun _ => Idle i := by
  refine Proto.Triple.iter (J := fun _ => Idle i) (fun _ => ?_) fuel ()
  refine Proto.Triple.bind (B := fun _ => Idle i) (Proto.Triple.exists fun q => (spec_pallocCached hheap).post fun _ w h => ⟨q, h⟩)
    fun obj => ?_
  cases obj with
  | some obj => exact Proto.Triple.ret fun _ h => h
  | none =>
    refine (spec_pallocRefill hheap).bind fun obj => ?_
    cases obj with
    | some obj => exact Proto.Triple.ret fun _ h => h
    | none => exact Proto.Triple.ret fun _ h => h

theorem Quiet.setDirty {s : Mem n} {e : Option Ev} {f : DirtyRecord → DirtyRecord} (he : Ev.isPool e = false) :
    Quiet s e (s.setDirty i f) :=
  { Quiet.refl he s with }

theorem spec_cleanDirty {e : Option Ev} (he : Ev.isPool e = false) (hA : Private heapmem i A) :
    Spec heapmem i A (cleanDirty i e) fun _ => A :=
  Spec.quiet (obeys_step (fun _ => Quiet.setDirty he) fun _ => trivial) hA

theorem spec_helpCollection {fuel : Nat} (hheap : Heap heapmem) :
    Spec heapmem i (Idle i) (helpCollection i fuel) fun _ => Idle i := by
  have hA : Private heapmem i (Idle i) := private_idle
  refine (Spec.quiet Quiet.load hA).bind fun localVer => (Spec.quiet Quiet.load hA).bind fun phase => ?_
  refine Proto.Triple.ite (fun _ => ?_) fun _ => Proto.Triple.ret fun _ h => h
  exact Proto.Triple.exists fun q => (spec_triggerCollection hheap).post fun _ w h => ⟨q + 2, h⟩

theorem spec_serve {fuel : Nat} (hheap : Heap heapmem) (request : Request) :
    Spec heapmem i (Idle i) (serve i fuel request) fun _ => Idle i := by
  have hA : Private heapmem i (Idle i) := private_idle
  cases request with
  | palloc => exact (spec_palloc hheap).bind fun _ => Proto.Triple.ret fun _ h => h
  | helpCollection => exact spec_helpCollection hheap
  | CHECK =>
    refine Proto.Triple.bind (B := fun _ => Idle i) ?_ fun _ => Proto.Triple.ret fun _ h => h
    refine (Spec.quiet (obeys_watch fun s => ?_) hA).bind fun dirty => Proto.Triple.ite (fun _ => ?_) fun _ =>
      Proto.Triple.ret fun _ h => h
    · split <;> exact .refl rfl s
    · exact (spec_cleanDirty rfl hA).bind fun _ => (spec_helpCollection hheap).bind fun _ =>
        (spec_cleanDirty rfl hA).bind fun _ => Proto.Triple.ret fun _ h => h
  | FENCE_CHECK newEntry =>
    refine Proto.Triple.bind (B := fun _ => Idle i) ?_ fun _ => Proto.Triple.ret fun _ h => h
    refine Proto.Triple.bind (Spec.quiet (obeys_step (fun s => ?_) fun _ => trivial) hA) fun dirty =>
      Proto.Triple.ite (fun _ => ?_) fun _ => Proto.Triple.ret fun _ h => h
    · split <;> exact .setDirty rfl
    · have hHP (k : Nat) : Obeys Quiet (setHP i k NULL) := obeys_store fun s => .setDirty rfl
      refine (Spec.quiet (obeys_bind (hHP 2) fun _ => obeys_bind (hHP 1) fun _ => hHP 0) hA).bind fun _ => ?_
      exact (spec_helpCollection hheap).bind fun _ => (spec_cleanDirty rfl hA).bind fun _ => Proto.Triple.ret fun _ h => h
  | cleanDirty => exact spec_cleanDirty rfl hA
  | setHP k p => exact Spec.quiet (obeys_store fun s => Quiet.setDirty rfl) hA
  | setWord w p =>
    refine Spec.quiet (obeys_store fun s => ?_) hA
    cases w with
    | root r k => exact { Quiet.refl rfl s with }
    | next a => exact { Quiet.refl rfl s with }
  | setKeyData a kd => exact Spec.quiet (obeys_store fun s => { Quiet.refl rfl s with }) hA

/-! ## Every run -/

/-- The caches of the first pool. -/
def initCaches (heapmem : List Nat) : List Nat := heapmem.flatMap chunkCaches

theorem mem_chunkCaches {c m : Nat} : m ∈ chunkCaches c ↔ ∃ k < 129, m = c + 4096 + k * 4032 := by
  simp only [chunkCaches, List.mem_map, List.mem_range, show headerSize = 4096 from rfl,
    show entriesPerCache * nodeSize = 4032 from rfl, show payloadSize / 4032 = 129 by decide, eq_comm (a := m)]

theorem initCaches_nodup (hheap : Heap heapmem) : (initCaches heapmem).Nodup := by
  refine List.nodup_flatMap.2 ⟨fun c _ => List.Nodup.map (fun k k' h => ?_) List.nodup_range, ?_⟩
  · simp only [show entriesPerCache * nodeSize = 4032 from rfl] at h
    omega
  · refine hheap.nodup.imp_of_mem fun {c c'} hc hc' hne => ?_
    intro m hm hm'
    obtain ⟨k, hk, rfl⟩ := mem_chunkCaches.1 hm
    obtain ⟨k', hk', h⟩ := mem_chunkCaches.1 hm'
    have ha := hheap.aligned c hc
    have ha' := hheap.aligned c' hc'
    simp only [show chunkSize = 524288 from rfl] at ha ha'
    omega

/-- The cache of the first pool that object `x` belongs to. -/
def cacheOf (x : Ptr) : Nat := x.addr / 524288 * 524288 + 4096 + (x.addr % 524288 - 4096) / 4032 * 4032

theorem cacheOf_object (hheap : Heap heapmem) {m k : Nat} (hm : m ∈ initCaches heapmem) (hk : k < entriesPerCache) :
    cacheOf ⟨m + k * nodeSize, false⟩ = m := by
  obtain ⟨c, hc, hm⟩ := List.mem_flatMap.1 hm
  obtain ⟨t, ht, rfl⟩ := mem_chunkCaches.1 hm
  have ha := hheap.aligned c hc
  simp only [show chunkSize = 524288 from rfl] at ha
  simp only [show entriesPerCache = 126 from rfl] at hk
  simp only [cacheOf, show nodeSize = 32 from rfl]
  have hmod : (c + 4096 + t * 4032 + k * 32) % 524288 = 4096 + t * 4032 + k * 32 := by omega
  have hdiv : (c + 4096 + t * 4032 + k * 32) / 524288 * 524288 = c := by omega
  rw [hmod, hdiv]
  omega

def initPlace (heapmem : List Nat) (v : Nat) (x : Ptr) : Option Place :=
  if v = 0 then some (.entry (mallocEntry ((initCaches heapmem).idxOf (cacheOf x))) ((x.addr - cacheOf x) / nodeSize)) else none

theorem mallocEntry_inj {k k' : Nat} (h : mallocEntry k = mallocEntry k') : k = k' := Nat.add_left_cancel h

/-- The stack of the first pool with `m` caches. -/
def initStack (m : Nat) : List Nat := (List.range m).reverse.map mallocEntry

theorem initStack_succ (m : Nat) : initStack (m + 1) = mallocEntry m :: initStack m := by
  simp [initStack, List.range_succ]

theorem mem_initStack {m : Nat} : e ∈ initStack m ↔ ∃ k < m, e = mallocEntry k := by
  simp [initStack, eq_comm]

/-- The first pool. -/
theorem init_pool (caches : List Nat) (s : Mem n) (hs : s.entrySize = nodeSize) (hhead : s.head.head = none) :
    Linked (next (caches.zipIdx.foldl (fun s x => pushInit s x.1 x.2) s))
        (caches.zipIdx.foldl (fun s x => pushInit s x.1 x.2) s).head.head (initStack caches.length) ∧
      (caches.zipIdx.foldl (fun s x => pushInit s x.1 x.2) s).entrySize = nodeSize ∧
      ∀ k m, caches[k]? = some m → ∃ h, (caches.zipIdx.foldl (fun s x => pushInit s x.1 x.2) s).entries (mallocEntry k) =
        createEntry m nodeSize h := by
  induction caches using List.reverseRecOn with
  | nil => exact ⟨hhead, hs, fun k m => nofun⟩
  | append_singleton caches m ih =>
    obtain ⟨hlinked, hsize, hentries⟩ := ih
    rw [List.zipIdx_append, List.foldl_append, List.length_append, List.length_singleton, initStack_succ]
    generalize caches.zipIdx.foldl (fun s x => pushInit s x.1 x.2) s = t at hlinked hsize hentries ⊢
    simp only [Nat.zero_add, List.zipIdx_singleton, List.foldl_cons, List.foldl_nil, pushInit]
    refine ⟨⟨rfl, ?_⟩, hsize, fun k m' hk => ?_⟩
    · simp only [next, Function.update_self, createEntry]
      refine hlinked.congr fun d hd => ?_
      obtain ⟨k, hk, rfl⟩ := mem_initStack.1 hd
      exact congrArg AllocEntry.next (Function.update_of_ne (fun h => hk.ne (mallocEntry_inj h)) ..)
    · by_cases hlast : k = caches.length
      · subst hlast
        rw [List.getElem?_concat_length] at hk
        cases hk
        rw [Function.update_self, hsize]
        exact ⟨t.head.head, rfl⟩
      · have hlt := (List.getElem?_eq_some_iff.1 hk).1
        rw [List.length_append, List.length_singleton] at hlt
        rw [List.getElem?_append_left (by omega)] at hk
        have hne : mallocEntry k ≠ mallocEntry caches.length := fun h => hlast (mallocEntry_inj h)
        rw [Function.update_of_ne hne]
        exact hentries k m' hk

/-- The objects of the first pool are in it, each in one place. -/
theorem init_filled (hheap : Heap heapmem) (rootLen : List Nat) :
    Linked (next (init_allocator n heapmem rootLen)) (init_allocator n heapmem rootLen).head.head
        (initStack (initCaches heapmem).length) ∧
      ∀ e ∈ initStack (initCaches heapmem).length, ∀ k x, Content (init_allocator n heapmem rootLen) e k x →
        initPlace heapmem 0 x = some (.entry e k) := by
  obtain ⟨hlinked, -, hentries⟩ := init_pool (initCaches heapmem) (zeroMem n heapmem rootLen) rfl rfl
  refine ⟨hlinked, fun e he k x hx => ?_⟩
  obtain ⟨t, ht, rfl⟩ := mem_initStack.1 he
  obtain ⟨h, hentry⟩ := hentries t _ (List.getElem?_eq_getElem ht)
  obtain ⟨hk, rfl⟩ : k < entriesPerCache ∧ (⟨(initCaches heapmem)[t] + k * nodeSize, false⟩ : Ptr) = x := by
    have hx : Content ((initCaches heapmem).zipIdx.foldl (fun s x => pushInit s x.1 x.2) (zeroMem n heapmem rootLen))
      (mallocEntry t) k x := hx
    rwa [Content, hentry] at hx
  rw [initPlace, if_pos rfl, cacheOf_object hheap (List.getElem_mem ht) hk, (initCaches_nodup hheap).idxOf_getElem t ht]
  simp only [Nat.add_sub_cancel_left, Nat.mul_div_cancel k (show 0 < nodeSize by decide)]

theorem good_init (hheap : Heap heapmem) (rootLen : List Nat) :
    Good heapmem ⟨init_allocator n heapmem rootLen, [],
      initStack (initCaches heapmem).length, fun _ => [], initPlace heapmem⟩ := by
  obtain ⟨hlinked, hfilled⟩ := init_filled (n := n) hheap rootLen
  obtain ⟨entries, head, hinit⟩ := init_allocator_eq (n := n) heapmem rootLen
  have hlocals : ∀ i, ((init_allocator n heapmem rootLen).locals i).entriesLocalFreeList = none ∧
      ((init_allocator n heapmem rootLen).locals i).alloc_cache = none := fun i => by
    rw [hinit]
    exact ⟨rfl, rfl⟩
  have hver : (init_allocator n heapmem rootLen).head.ver = 0 := by rw [hinit]
  have hmalloc : ∀ e ∈ initStack (initCaches heapmem).length, allocationEntriesCacheSize ≤ e := fun e he => by
    obtain ⟨k, -, rfl⟩ := mem_initStack.1 he
    exact Nat.le_add_right _ _
  refine ⟨?_, ⟨fun r hr => absurd hr List.not_mem_nil, fun r hr => absurd hr List.not_mem_nil⟩, ?_, trivial⟩
  · exact {
      shared := hlinked
      sharedNodup := (List.nodup_reverse.2 List.nodup_range).map fun _ _ => mallocEntry_inj
      sharedOwner := fun e he => if_pos (hmalloc e he)
      sharedVer := fun e he => (if_pos (hmalloc e he)).trans hver.symm
      free := fun i => (hlocals i).1
      freeNodup := fun _ => List.nodup_nil
      freeOwner := fun _ _ he => absurd he List.not_mem_nil
      cacheOwner := fun i e he => by
        rw [(hlocals i).2] at he
        cases he
      cacheFree := fun _ _ _ => List.not_mem_nil
      fresh := fun e _ hs => if_neg (not_le.2 hs) }
  · exact {
      filled := fun e he k x hx => by
        dsimp only
        rw [hver]
        exact hfilled e he k x hx
      put := fun v x hx => .inl (by
        by_contra hv
        exact hx (if_neg hv))
      served := fun r hr => absurd hr List.not_mem_nil
      pushed := fun r hr => absurd hr List.not_mem_nil
      pushVer := fun r hr => absurd hr List.not_mem_nil }

/-- No object is twice in the caches of the shared stack. -/
def Distinct (s : Mem n) : Prop :=
  ∀ l, Linked (next s) s.head.head l → ∀ e ∈ l, ∀ e' ∈ l, ∀ k k' x, Content s e k x → Content s e' k' x → e = e' ∧ k = k'

variable {rootLen : List Nat} {fuel : Fin n → Nat} {requests : Fin n → List Request} {c : Cfg (Fin n) (Mem n) Ev}

/-- In every run of any number of threads each descriptor has one owner, each page of a phase one
claimant, each object one pushed cache of a phase, and no object is served twice in a phase. -/
theorem reach_once (hheap : Heap heapmem) (hreach : Cfg.Reach (initCfg n heapmem rootLen fuel requests) c) :
    (∃ g, Owned ⟨c.mem, c.log, g⟩) ∧ Along Fair c.log ∧ Distinct (init_allocator n heapmem rootLen) := by
  have hgood := good_init (n := n) hheap rootLen
  have hthr (i : Fin n) : (proto heapmem).wp i (mutator i (fuel i) (requests i)) (fun _ _ => True)
      ⟨init_allocator n heapmem rootLen, [], initStack (initCaches heapmem).length, fun _ => [], initPlace heapmem⟩ := by
    refine Proto.Triple.forEach (J := fun _ => Idle i) (fun request _ => spec_serve hheap request) (requests i) _ ?_ |>
      fun h => Proto.wp_mono h fun _ _ _ => trivial
    obtain ⟨entries, head, hinit⟩ := init_allocator_eq (n := n) heapmem rootLen
    refine ⟨0, CacheFilled.none ?_, ?_, fun d hd => absurd hd List.not_mem_nil⟩
    · rw [Cache, hinit]
      rfl
    · rw [hinit]
      rfl
  have hallowed : (proto (n := n) heapmem).Allowed c.log := (Stamps.reach_inv hheap.length_le hreach).2
  obtain ⟨g, hg⟩ := Proto.adequacy hgood hthr hreach hallowed
  refine ⟨⟨g, hg.owned⟩, hg.fair, fun l hl e he e' he' k k' x hx hx' => ?_⟩
  obtain ⟨hlinked, hfilled⟩ := init_filled (n := n) hheap rootLen
  obtain rfl := hl.unique hlinked
  have h := (hfilled e he k x hx).symm.trans (hfilled e' he' k' x hx')
  injection h with h
  injection h with he hk
  exact ⟨he, hk⟩

/-- Two threads that allocate in turn from a heap of one chunk. -/
theorem reach_once_palloc :
    Along Fair ((initCfg 2 [chunkSize] [1] (fun _ => 9) fun _ => [.palloc, .palloc]).exec
      (List.finRange 2 ++ List.finRange 2 ++ List.finRange 2 ++ List.finRange 2)).log :=
  (reach_once ⟨by decide, by decide, by decide, by decide⟩ ⟨_, rfl⟩).2.1

end OptimisticAccess.AOA.Pool
