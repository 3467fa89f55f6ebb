import Mathlib.Data.List.Count
import OptimisticAccess.MOA.Nodes

/-!
# What the log tells

The events of a run say which objects are on their way back to the pool, who has them, and which
caches have been popped. `Inv` says that the bookkeeping agrees with the log; `Booked` is what a
step has to show for that.
-/

namespace OptimisticAccess.MOA

open Conc

variable {n : Nat}

abbrev Log (n : Nat) := List (Rec (Fin n) (Mem n) Ev)

abbrev W (n : Nat) := World (Fin n) (Mem n) Ev (Ghost n)

/-! ## Objects in a log -/

/-- `a` was unlinked and so given to `pfree`, and no `palloc` has handed it out since. -/
def Retired (a : Nat) : Log n → Prop
  | [] => False
  | r :: rs => r.ev = some (.unlinked a) ∨ (r.ev ≠ some (.served a) ∧ Retired a rs)

/-- An event with which a thread gets hold of `a`. -/
def takes (a : Nat) : Option Ev → Bool
  | some (.unlinked b) => b == a
  | some (.taken _ b) => b == a
  | _ => false

/-- Thread `i` has `a` in `pfree`, or is about to call it. -/
def Held (i : Fin n) (a : Nat) : Log n → Prop
  | [] => False
  | r :: rs => (r.tid = i ∧ takes a r.ev) ∨ (¬ (r.tid = i ∧ r.ev = some (.freed a)) ∧ Held i a rs)

/-- How far an object has come: it is not allocated yet, it lies in a cache, `palloc` has given it to a thread, it is in the
list, or a thread has it in `pfree`. -/
inductive Life (n : Nat) where
  | fresh
  | stored
  | owned (i : Fin n)
  | listed
  | hand (i : Fin n)
  deriving DecidableEq

/-- The object that an event of thread `i` is about, what it has to be before and what it is then. -/
def Ev.life (i : Fin n) : Ev → Option (Nat × Life n × Life n)
  | served a => some (a, .stored, .owned i)
  | spared a => some (a, .fresh, .owned i)
  | givenBack a => some (a, .owned i, .stored)
  | linked a => some (a, .owned i, .listed)
  | unlinked a => some (a, .listed, .hand i)
  | freed a => some (a, .hand i, .stored)
  | taken _ a => some (a, .stored, .hand i)
  | _ => none

/-- `a` after an event; `none` if the event must not happen to it. -/
def Life.after (a : Nat) (i : Fin n) (l : Life n) (ev : Option Ev) : Option (Life n) :=
  match ev.bind (Ev.life i) with
  | none => some l
  | some (b, old, new) => if b = a then (if l = old then some new else none) else some l

/-- The memory before the first step. -/
def first (s : Mem n) : Log n → Mem n
  | [] => s
  | r :: rs => first r.pre rs

/-- Before the first step an object lies in a cache, or it is not allocated. -/
def born (s : Mem n) (a : Nat) : Life n :=
  if ∃ e < s.brk, ∃ x < s.free e, s.ptrs e x = ⟨a, false⟩ then .stored else .fresh

def life (l : Life n) (a : Nat) : Log n → Option (Life n)
  | [] => some l
  | r :: rs => (life l a rs).bind fun l => l.after a r.tid r.ev

/-- The event of a compare-and-swap on the list. -/
def closes : Option Ev → Bool
  | some (.unlinked _) => true
  | some (.linked _) => true
  | some (.marked _) => true
  | some .casFailed => true
  | _ => false

/-- Thread `i` has passed `FENCE_CHECK`, and has not executed the compare-and-swap that follows. -/
def Window (i : Fin n) : Log n → Prop
  | [] => False
  | r :: rs => (r.tid = i ∧ r.ev = some .fenced) ∨ (¬ (r.tid = i ∧ closes r.ev) ∧ Window i rs)

/-! ## Caches in a log -/

/-- A cache that a thread goes through in `Recycle`, and the `i` and `k` of the loop. -/
structure Desk (n : Nat) where
  tid : Fin n
  idx : Nat
  kept : Nat
  deriving DecidableEq

/-- What an event of thread `i` does to the desk of cache `e`. -/
def turn (e : Nat) (i : Fin n) (d : Option (Desk n)) : Option Ev → Option (Desk n)
  | some (.popped c) => if c = e then some ⟨i, 0, 0⟩ else d
  | some (.taken c _) => if c = e then d.map fun t => { t with idx := t.idx + 1 } else d
  | some (.kept c) => if c = e then d.map fun t => { t with idx := t.idx + 1, kept := t.kept + 1 } else d
  | some (.sifted c) => if c = e then (d.filter fun t => t.kept ≠ 0).map fun t => { t with idx := t.kept } else d
  | some (.returned c) => if c = e then none else d
  | _ => d

def desk (e : Nat) : Log n → Option (Desk n)
  | [] => none
  | r :: rs => turn e r.tid (desk e rs) r.ev

/-- How often `e` was popped from `toProcess`. -/
def pops (e : Nat) (log : Log n) : Nat := log.countP fun r => r.ev = some (.popped e)

/-- How often a list became `toProcess` under version `v`. -/
def moves (v : Nat) (log : Log n) : Nat := log.countP fun r => r.ev = some .moved ∧ r.post.toProcess.ver = v

/-- `reclaim` as it was frozen the last time. -/
def lastFrozen : Log n → Option VerEntry
  | [] => none
  | r :: rs => if r.ev = some .frozen then some r.post.reclaim else lastFrozen rs

/-- The cache `e` hangs on the list with head `h`. -/
def Hangs (s : Mem n) (h : Option Nat) (e : Nat) : Prop := ∃ l, Linked s.next h l ∧ e ∈ l

instance instDecidableRetired (a : Nat) : (log : Log n) → Decidable (Retired a log)
  | [] => isFalse id
  | r :: rs =>
    have := instDecidableRetired a rs
    inferInstanceAs (Decidable (r.ev = some (.unlinked a) ∨ (r.ev ≠ some (.served a) ∧ Retired a rs)))

instance instDecidableHeld (i : Fin n) (a : Nat) : (log : Log n) → Decidable (Held i a log)
  | [] => isFalse id
  | r :: rs =>
    have := instDecidableHeld i a rs
    inferInstanceAs (Decidable ((r.tid = i ∧ takes a r.ev) ∨ (¬ (r.tid = i ∧ r.ev = some (.freed a)) ∧ Held i a rs)))

instance instDecidableWindow (i : Fin n) : (log : Log n) → Decidable (Window i log)
  | [] => isFalse id
  | r :: rs =>
    have := instDecidableWindow i rs
    inferInstanceAs (Decidable ((r.tid = i ∧ r.ev = some .fenced) ∨ (¬ (r.tid = i ∧ closes r.ev) ∧ Window i rs)))

/-! ## The invariant -/

/-- The object is on its way back to the pool, or in it. -/
def Spot.Stored : Spot n → Prop
  | hand _ => True
  | cached _ => True
  | kept _ => True
  | _ => False

def Spot.life : Spot n → Life n
  | away => .fresh
  | mine i => .owned i
  | linked => .listed
  | hand i => .hand i
  | cached _ => .stored
  | kept _ => .stored

def Place.desk : Place n → Option (Desk n)
  | work i _ x k => some ⟨i, x, k⟩
  | _ => none

/-- One step of the hand-over of a batch. -/
structure HandedOver (rs : Log n) (r : Rec (Fin n) (Mem n) Ev) : Prop where
  frozen : r.ev = some .frozen → r.pre.reclaim.ver % 2 = 0 ∧ r.post.reclaim = ⟨r.pre.reclaim.head, r.pre.reclaim.ver + 1⟩
  drained : r.ev = some .moved → r.pre.toProcess.head = none
  moved : r.ev = some .moved → lastFrozen rs = some r.pre.reclaim ∧ r.pre.reclaim.ver = r.pre.toProcess.ver + 1 ∧
    r.post.toProcess = ⟨r.pre.reclaim.head, r.pre.toProcess.ver + 2⟩

/-- What has become of the batches. -/
structure Batches (s : Mem n) (place : Nat → Place n) (log : Log n) : Prop where
  steps : Along HandedOver log
  started : 2 ≤ s.toProcess.ver
  frozen : s.reclaim.ver % 2 = 1 → lastFrozen log = some s.reclaim
  moved : ∀ v, moves v log = if v % 2 = 0 ∧ 2 < v ∧ v ≤ s.toProcess.ver then 1 else 0
  popped : ∀ e, pops e log = 0 ∨ (pops e log = 1 ∧ 3 < (place e).rank)
  delivered : ∀ r ∈ log, r.ev = some .moved → r.post.toProcess.ver ≤ s.toProcess.ver ∧
    ∀ e, Hangs r.post r.post.toProcess.head e → place e = .batch r.post.toProcess.ver ∨ pops e log = 1
  popNext : ∀ r ∈ log, r.ev ≠ some (.assertFailed .popNext)

/-- `malloc` returns no pointer twice, and none that is `NULL`. -/
structure Mallocs (spare : Nat → Nat) : Prop where
  inj : Function.Injective spare
  ne_zero : ∀ k, spare k ≠ 0

structure Inv (w : W n) : Prop where
  shape : Shape w.mem w.ghost
  mallocs : Mallocs w.mem.spare
  life : ∀ a, life (born (first w.mem w.log) a) a w.log = some (w.ghost.spot a).life
  held : ∀ i a, Held i a w.log ↔ w.ghost.spot a = .hand i
  desk : ∀ e, desk e w.log = (w.ghost.place e).desk
  stored : ∀ a, Retired a w.log → (w.ghost.spot a).Stored
  window : ∀ i, Window i w.log → w.ghost.window i
  batches : Batches w.mem w.ghost.place w.log

/-! ## Steps -/

/-- What a step does to `reclaim` and `toProcess`, and the event for it. -/
inductive Passes (s s' : Mem n) : Option Ev → Prop where
  | frozen (h : s.reclaim.ver % 2 = 0) (hr : s'.reclaim = ⟨s.reclaim.head, s.reclaim.ver + 1⟩) (ht : s'.toProcess = s.toProcess) :
      Passes s s' (some .frozen)
  | moved (h : s.reclaim.ver = s.toProcess.ver + 1) (hd : s.toProcess.head = none) (hr : s'.reclaim = s.reclaim)
      (ht : s'.toProcess = ⟨s.reclaim.head, s.toProcess.ver + 2⟩) : Passes s s' (some .moved)
  | other {ev : Option Ev} (hf : ev ≠ some .frozen) (hm : ev ≠ some .moved)
      (hr : s'.reclaim.ver % 2 = 1 → s'.reclaim = s.reclaim) (ht : s'.toProcess.ver = s.toProcess.ver) : Passes s s' ev

/-- The event of a step is what the step does to the bookkeeping. -/
structure Booked (i : Fin n) (s : Mem n) (g : Ghost n) (ev : Option Ev) (s' : Mem n) (g' : Ghost n) : Prop where
  spare : s'.spare = s.spare
  life : ∀ a, (g.spot a).life.after a i ev = some (g'.spot a).life
  desk : ∀ e, (g'.place e).desk = turn e i (g.place e).desk ev
  window : ∀ j, (i = j ∧ ev = some .fenced) ∨ (¬ (i = j ∧ closes ev) ∧ g.window j) → g'.window j
  batch : ∀ e d, g.place e = .batch d → g'.place e = .batch d ∨ ev = some (.popped e)
  popped : ∀ e, ev = some (.popped e) → (g.place e).rank ≤ 3 ∧ 3 < (g'.place e).rank
  passes : Passes s s' ev
  popNext : ev ≠ some (.assertFailed .popNext)

section Step

variable {i j : Fin n} {s s' : Mem n} {g g' : Ghost n} {w : W n} {ev : Option Ev} {a e : Nat} {log : Log n} {l l' : Life n} {y : Spot n}

theorem Spot.life_eq_hand : y.life = .hand j ↔ y = .hand j := by
  cases y <;> simp [Spot.life]

/-- The object waits for `palloc`, or for `pfree`. -/
def Life.Stored : Life n → Prop
  | stored => True
  | hand _ => True
  | _ => False

theorem Spot.stored_life : y.life.Stored ↔ y.Stored := by
  cases y <;> exact Iff.rfl

theorem Life.after_hand (h : l.after a i ev = some l') :
    l' = .hand j ↔ (i = j ∧ takes a ev) ∨ (¬ (i = j ∧ ev = some (.freed a)) ∧ l = .hand j) := by
  revert h
  cases ev with
  | none =>
    intro h
    obtain rfl := Option.some.inj h
    simp [takes]
  | some ev =>
    cases ev <;> grind [Life.after, Ev.life, takes]

theorem Life.after_stored (h : l.after a i ev = some l') (hl : ev = some (.unlinked a) ∨ (ev ≠ some (.served a) ∧ l.Stored)) : l'.Stored := by
  revert h
  cases ev with
  | none =>
    intro h
    obtain rfl := Option.some.inj h
    exact (hl.resolve_left (by simp)).2
  | some ev =>
    cases ev <;> grind [Life.after, Ev.life, Life.Stored]

theorem Booked.held (h : Booked i s g ev s' g') (j : Fin n) (a : Nat) :
    g'.spot a = .hand j ↔ (i = j ∧ takes a ev) ∨ (¬ (i = j ∧ ev = some (.freed a)) ∧ g.spot a = .hand j) := by
  rw [← Spot.life_eq_hand, ← Spot.life_eq_hand]
  exact Life.after_hand (h.life a)

theorem Booked.stored (h : Booked i s g ev s' g') (a : Nat) (ha : ev = some (.unlinked a) ∨ (ev ≠ some (.served a) ∧ (g.spot a).Stored)) :
    (g'.spot a).Stored := by
  rw [← Spot.stored_life] at ha ⊢
  exact Life.after_stored (h.life a) ha

/-- An event that is about no object. -/
theorem Life.after_of_none {ev : Ev} (h : ev.life i = none) : l.after a i (some ev) = some l := by
  unfold Life.after
  rw [Option.bind_some, h]

/-- The object that the event is about moves, and no other. -/
theorem life_update {spot : Nat → Spot n} {ev : Ev} (hev : ev.life i = some (a, (spot a).life, y.life)) (b : Nat) :
    (spot b).life.after b i (some ev) = some (Function.update spot a y b).life := by
  unfold Life.after
  rw [Option.bind_some, hev]
  by_cases hb : b = a
  · rw [hb, Function.update_self]
    exact (if_pos rfl).trans (if_pos rfl)
  · rw [Function.update_of_ne hb]
    exact if_neg fun h => hb h.symm

theorem pops_cons (r : Rec (Fin n) (Mem n) Ev) (log : Log n) :
    pops e (r :: log) = pops e log + if r.ev = some (.popped e) then 1 else 0 := by
  unfold pops
  rw [List.countP_cons]
  simp only [decide_eq_true_eq]

theorem moves_cons (v : Nat) (r : Rec (Fin n) (Mem n) Ev) (log : Log n) :
    moves v (r :: log) = moves v log + if r.ev = some .moved ∧ r.post.toProcess.ver = v then 1 else 0 := by
  unfold moves
  rw [List.countP_cons]
  simp only [decide_eq_true_eq]

theorem Batches.handedOver (hI : Batches s g.place log) (hS : Shape s g) (hp : Passes s s' ev) :
    HandedOver log ⟨i, s, ev, s'⟩ := by
  have heven := hS.clock.even
  cases hp with
  | frozen h hr _ => exact ⟨fun _ => ⟨h, hr⟩, fun h => (by cases h), fun h => by cases h⟩
  | moved h hd hr ht => exact ⟨fun h => (by cases h), fun _ => hd, fun _ => ⟨hI.frozen (by omega), h, ht⟩⟩
  | other hf hm _ _ => exact ⟨fun h => absurd h hf, fun h => absurd h hm, fun h => absurd h hm⟩

theorem Batches.lastFrozen_next (hI : Batches s g.place log) (hp : Passes s s' ev) (hodd : s'.reclaim.ver % 2 = 1) :
    lastFrozen (⟨i, s, ev, s'⟩ :: log) = some s'.reclaim := by
  cases hp with
  | frozen _ _ _ => exact if_pos rfl
  | moved _ _ hr _ =>
    rw [hr] at hodd
    exact (hI.frozen hodd).trans (by rw [hr])
  | other hf _ hr _ =>
    have hsame := hr hodd
    rw [hsame] at hodd
    exact (if_neg hf).trans ((hI.frozen hodd).trans (by rw [hsame]))

theorem Batches.moves_next (hI : Batches s g.place log) (hS : Shape s g) (hp : Passes s s' ev) (v : Nat) :
    moves v (⟨i, s, ev, s'⟩ :: log) = if v % 2 = 0 ∧ 2 < v ∧ v ≤ s'.toProcess.ver then 1 else 0 := by
  have heven := hS.clock.even
  have hstarted := hI.started
  have hnot : ∀ {ev' : Option Ev}, ev' ≠ some .moved →
      moves v (⟨i, s, ev', s'⟩ :: log) = moves v log := fun h => (moves_cons ..).trans (by rw [if_neg fun h' => h h'.1, Nat.add_zero])
  cases hp with
  | frozen _ _ ht =>
    rw [hnot (by simp), hI.moved v, ht]
  | moved h _ _ ht =>
    have hver : s'.toProcess.ver = s.toProcess.ver + 2 := by rw [ht]
    have hnew : moves v (⟨i, s, some .moved, s'⟩ :: log) = moves v log + if s.toProcess.ver + 2 = v then 1 else 0 := by
      rw [moves_cons]
      simp only [hver, true_and]
    rw [hnew, hI.moved v, hver]
    by_cases hv : s.toProcess.ver + 2 = v
    · rw [if_neg (by omega), if_pos hv, if_pos (by omega)]
    · rw [if_neg hv, Nat.add_zero]
      refine if_congr ?_ rfl rfl
      omega
  | other _ hm _ ht =>
    rw [hnot hm, hI.moved v, ht]

theorem Batches.pops_next (hI : Batches s g.place log) (hT : Trans i s g s' g') (hB : Booked i s g ev s' g') (e : Nat) :
    (pops e (⟨i, s, ev, s'⟩ :: log) = 0 ∧ pops e log = 0 ∧ ev ≠ some (.popped e)) ∨
      (pops e (⟨i, s, ev, s'⟩ :: log) = 1 ∧ 3 < (g'.place e).rank) := by
  have hrank := hT.rank e
  rw [pops_cons]
  by_cases h : ev = some (.popped e)
  · obtain ⟨h1, h2⟩ := hB.popped e h
    rw [if_pos h]
    obtain h0 | ⟨-, h3⟩ := hI.popped e
    · exact .inr ⟨by omega, h2⟩
    · omega
  · rw [if_neg h]
    obtain h0 | ⟨h1, h3⟩ := hI.popped e
    · exact .inl ⟨h0, h0, h⟩
    · exact .inr ⟨h1, by omega⟩

theorem Batches.next (hI : Batches s g.place log) (hS : Shape s g) (hS' : Shape s' g') (hT : Trans i s g s' g')
    (hB : Booked i s g ev s' g') : Batches s' g'.place (⟨i, s, ev, s'⟩ :: log) := by
  refine ⟨⟨hI.steps, hI.handedOver hS hB.passes⟩, hI.started.trans hT.toProcess, hI.lastFrozen_next hB.passes, hI.moves_next hS hB.passes, fun e => ?_, ?_, ?_⟩
  · exact (hI.pops_next hT hB e).imp And.left id
  · intro r hr hm
    obtain rfl | hr := List.mem_cons.1 hr
    · refine ⟨le_refl _, fun e he => .inl ?_⟩
      change ev = _ at hm
      have hp := hB.passes
      rw [hm] at hp
      cases hp with
      | moved h _ hr ht =>
        have heven := hS.clock.even
        have hver : s'.toProcess.ver = s.toProcess.ver + 2 := by rw [ht]
        obtain ⟨l, hl, hmem⟩ := he
        have hlink := hS'.queues.link_batch (by rw [hr, hver]; omega)
        obtain rfl := hl.unique hlink
        obtain ⟨d, hd⟩ := (hS'.queues.mem_batch e).1 hmem
        change g'.place e = .batch s'.toProcess.ver
        rw [hd, hS'.clock.batch e d hd, hr, hver]
        congr 1
        unfold level
        omega
      | other _ hm' _ _ => exact absurd rfl hm'
    · obtain ⟨hle, hdel⟩ := hI.delivered r hr hm
      refine ⟨hle.trans hT.toProcess, fun e he => ?_⟩
      obtain ⟨h0, h1, h2⟩ | ⟨h1, -⟩ := hI.pops_next hT hB e
      · obtain hd | hd := hdel e he
        · exact .inl ((hB.batch e _ hd).resolve_right h2)
        · omega
      · exact .inr h1
  · intro r hr
    obtain rfl | hr := List.mem_cons.1 hr
    · exact hB.popNext
    · exact hI.popNext r hr

theorem Inv.next (hI : Inv w) (hS : Shape s' g') (hT : Trans i w.mem w.ghost s' g') (hB : Booked i w.mem w.ghost ev s' g') :
    Inv (w.next i ev s' g') := by
  refine ⟨hS, by rw [World.next_mem, hB.spare]; exact hI.mallocs, fun a => ?_, fun j a => ?_, fun e => ?_, fun a h => ?_, fun j h => ?_,
    hI.batches.next hI.shape hS hT hB⟩
  · change (MOA.life (born (first w.mem w.log) a) a w.log).bind (fun l => l.after a i ev) = _
    rw [hI.life a]
    exact hB.life a
  · refine Iff.trans ?_ (hB.held j a).symm
    rw [← hI.held j a]
    exact Iff.rfl
  · refine Eq.trans ?_ (hB.desk e).symm
    rw [← hI.desk e]
    rfl
  · exact hB.stored a (h.imp_right fun h => ⟨h.1, hI.stored a h.2⟩)
  · exact hB.window j (h.imp_right fun h => ⟨h.1, hI.window j h.2⟩)

theorem Trans.refl (s : Mem n) (g : Ghost n) : Trans i s g s g :=
  (Touch.none rfl rfl rfl rfl rfl (fun _ _ => rfl) fun _ _ => rfl).none_trans (.mem rfl rfl rfl) (.refl _ _)

/-- Events that the log functions pass over. -/
def quiet : Option Ev → Bool
  | none => true
  | some (.call _) => true
  | some (.ret _ _) => true
  | some .restarted => true
  | some (.spared _) => true
  | some (.givenBack _) => true
  | some (.assertFailed a) => a ≠ .popNext
  | _ => false

theorem Booked.of_quiet (hev : quiet ev) (hspare : s'.spare = s.spare) (hlife : ∀ a, (g.spot a).life.after a i ev = some (g'.spot a).life)
    (hdesk : ∀ e, (g'.place e).desk = (g.place e).desk) (hwindow : ∀ j, g.window j → g'.window j) (hbatch : ∀ e d, g.place e = .batch d → g'.place e = .batch d)
    (hr : s'.reclaim.ver % 2 = 1 → s'.reclaim = s.reclaim) (ht : s'.toProcess.ver = s.toProcess.ver) :
    Booked i s g ev s' g' := by
  have hturn : ∀ e (d : Option (Desk n)), turn e i d ev = d := by
    intro e d
    cases ev with
    | none => rfl
    | some ev => cases ev <;> first | rfl | cases hev
  have hcloses : closes ev = false := by
    cases ev with
    | none => rfl
    | some ev => cases ev <;> first | rfl | cases hev
  have hne : ∀ {x : Ev}, quiet (some x) = false → ev ≠ some x := by
    rintro x hx rfl
    rw [hev] at hx
    cases hx
  refine ⟨hspare, hlife, fun e => ?_, fun j h => hwindow j ?_, fun e d h => .inl (hbatch e d h),
    fun e h => absurd h (hne rfl), .other (hne rfl) (hne rfl) hr ht, hne rfl⟩
  · rw [hturn, hdesk]
  · exact (h.resolve_left fun h => hne rfl h.2).2

theorem Booked.refl (s : Mem n) (g : Ghost n) : Booked i s g none s g :=
  .of_quiet rfl rfl (fun _ => rfl) (fun _ => rfl) (fun _ h => h) (fun _ _ h => h) (fun _ => rfl) rfl

end Step

end OptimisticAccess.MOA
