import OptimisticAccess.MOA.Chains
import OptimisticAccess.MOA.Footprint
import OptimisticAccess.MOA.Leak
import OptimisticAccess.MOA.Rules

/-!
# The lists as a set of keys

`StepOk` says what each step of a run does to the set: the two compare-and-swaps that change it act
as an insertion and a deletion do, and a return is `Answered`. The protocol of the list is the one of
the allocator with this added. A specification of a part of the allocator carries over, and keeps the
assertions of its caller that are `Lasting`: they speak of the log, and of what is fixed about the
objects that a thread may read.
-/

namespace OptimisticAccess.MOA

open Conc Prog

variable {n : Nat}

/-! ## What a run does to the set -/

/-- Whether the operation succeeds on a set. -/
def succeeds (S : Set CInt) : Op → Prop
  | .insert key _ => key ∉ S
  | .delete key => key ∈ S
  | .search key => key ∈ S

def updates : Op → Bool
  | .search _ => false
  | _ => true

/-- The step with which an operation takes effect. -/
def Effect (op : Op) (r : Rec (Fin n) (Mem n) Ev) : Prop :=
  match op with
  | .insert key _ => ∃ a, r.ev = some (.linked a) ∧ r.pre.key a = key
  | .delete key => ∃ a, r.ev = some (.marked a) ∧ r.pre.key a = key
  | .search _ => False

def changes : Option Ev → Bool
  | some (.linked _) => true
  | some (.marked _) => true
  | _ => false

/-- The steps since its call with which thread `i` has changed the set. -/
def deeds (i : Fin n) (log : Log n) : Log n := (window Leak.callOf i log).filter fun r => decide (r.tid = i) && changes r.ev

/-- At some step since the call the set gives the answer `b`. A successful update has taken effect in one step of its own, which
is that step; any other operation has changed nothing. -/
def Answered (headOf : CInt → Nat) (log : Log n) (i : Fin n) (op : Op) (b : Bool) : Prop :=
  lastCall Leak.callOf i log = some op ∧
    (∃ m ∈ window Leak.callOf i log, (b = true ↔ succeeds (m.pre.keys headOf) op) ∧
      (b = true ∧ updates op = true → m.tid = i ∧ Effect op m)) ∧
    (deeds i log).length = if b = true ∧ updates op = true then 1 else 0

/-- What an event says about the set around the step. -/
def EvOk (headOf : CInt → Nat) (log : Log n) (i : Fin n) (pre : Mem n) (ev : Option Ev) (post : Mem n) : Prop :=
  match ev with
  | some (.linked a) => pre.key a ∉ pre.keys headOf ∧ post.keys headOf = insert (pre.key a) (pre.keys headOf)
  | some (.marked a) => pre.key a ∈ pre.keys headOf ∧ post.keys headOf = pre.keys headOf \ {pre.key a}
  | some (.ret op b) => post.keys headOf = pre.keys headOf ∧ Answered headOf log i op b
  | _ => post.keys headOf = pre.keys headOf

def StepOk (headOf : CInt → Nat) (log : Log n) (r : Rec (Fin n) (Mem n) Ev) : Prop := EvOk headOf log r.tid r.pre r.ev r.post

/-! ## The protocol -/

structure Orderly (headOf : CInt → Nat) (w : W n) : Prop where
  inv : Inv w
  chains : Chains headOf w.mem w.ghost.linked
  steps : Along (StepOk headOf) w.log

/-- A step of thread `i`: it writes the keys of its own objects only. -/
structure Does (i : Fin n) (w w' : W n) : Prop where
  trans : Trans i w.mem w.ghost w'.mem w'.ghost
  keyData : ∀ a, w.ghost.spot a ≠ .mine i → w'.mem.keyData a = w.mem.keyData a
  log : ∃ r, r.tid = i ∧ w'.log = r :: w.log

def lists (n : Nat) (headOf : CInt → Nat) : Proto (Fin n) (Mem n) Ev (Ghost n) where
  inv := Orderly headOf
  act := Does

variable {headOf : CInt → Nat} {i j : Fin n} {α β γ : Type} {w w' : W n} {s s' : Mem n} {g g' : Ghost n} {ev : Option Ev} {a b : Nat}
  {A : Assert n} {F G : W n → Prop}

theorem Orderly.next (h : Orderly headOf w) (hS : Shape s' g') (hT : Trans i w.mem w.ghost s' g') (hB : Booked i w.mem w.ghost ev s' g')
    (hc : Chains headOf s' g'.linked) (hev : EvOk headOf w.log i w.mem ev s') : Orderly headOf (w.next i ev s' g') :=
  ⟨h.inv.next hS hT hB, hc, h.steps, hev⟩

theorem Spot.life_eq_listed {y : Spot n} : y.life = .listed ↔ y = .linked := by
  cases y <;> simp [Spot.life]

theorem Life.after_listed {l l' : Life n} (hev : Ev.plain ev) (h : l.after a i ev = some l') : l' = .listed ↔ l = .listed := by
  revert h
  cases ev with
  | none =>
    intro h
    rw [Option.some.inj h]
  | some ev =>
    cases ev <;> grind [Life.after, Ev.life, Ev.plain]

/-- Without an event of the lists the same objects are in them. -/
theorem linked_of_plain (hev : Ev.plain ev) (h : ∀ a, (g.spot a).life.after a i ev = some (g'.spot a).life) : g'.linked = g.linked := by
  ext a
  exact Spot.life_eq_listed.symm.trans ((Life.after_listed hev (h a)).trans Spot.life_eq_listed)

theorem life_next (h : Inv w) (h' : Inv (w.next i ev s' g')) (a : Nat) : (w.ghost.spot a).life.after a i ev = some (g'.spot a).life := by
  have hlife := h'.life a
  change (life (born (first w.mem w.log) a) a w.log).bind (fun l => l.after a i ev) = _ at hlife
  rwa [h.life a] at hlife

theorem evOk_of_plain {log : Log n} (hev : Ev.plain ev) (h : s'.keys headOf = s.keys headOf) : EvOk headOf log i s ev s' := by
  unfold EvOk
  split <;> first | exact h | cases hev

/-! ## Lasting assertions -/

/-- An event that neither starts a call nor changes the set. -/
def Ev.passing : Option Ev → Bool
  | some (.call _) => false
  | some (.linked _) => false
  | some (.marked _) => false
  | _ => true

theorem Ev.passing_of_plain (h : Ev.plain ev) : Ev.passing ev := by
  cases ev with
  | none => rfl
  | some ev => cases ev <;> first | rfl | cases h

theorem callOf_of_passing (h : Ev.passing ev) : ev.bind Leak.callOf = none := by
  cases ev with
  | none => rfl
  | some ev => cases ev <;> first | rfl | cases h

theorem changes_of_passing (h : Ev.passing ev) : changes ev = false := by
  cases ev with
  | none => rfl
  | some ev => cases ev <;> first | rfl | cases h

/-- The log grows by a step of another thread, or by one of thread `i` with a passing event. -/
def Adds (i : Fin n) (w w' : W n) : Prop := ∃ r, w'.log = r :: w.log ∧ (r.tid = i → Ev.passing r.ev)

/-- A step of another thread, or one of thread `i` that does not clear its dirty bit. -/
structure Drift (headOf : CInt → Nat) (i : Fin n) (w w' : W n) : Prop where
  orderly : Orderly headOf w
  orderly' : Orderly headOf w'
  since : w.ghost.since i ⊆ w'.ghost.since i
  spoiled : w.ghost.spoiled i → w'.ghost.spoiled i
  key : ∀ a ∈ w.ghost.live, w'.mem.key a = w.mem.key a
  marked : ∀ a ∈ w.ghost.live, a ∈ w'.ghost.live → (w.mem.nextEntry a).tag = true → w'.mem.nextEntry a = w.mem.nextEntry a
  log : Adds i w w'

/-- Assertions about the log. -/
def Logged (i : Fin n) (F : W n → Prop) : Prop := ∀ w w', Adds i w w' → F w → F w'

def Lasting (headOf : CInt → Nat) (i : Fin n) (F : W n → Prop) : Prop := ∀ w w', Drift headOf i w w' → F w → F w'

theorem Lasting.and (hF : Lasting headOf i F) (hG : Lasting headOf i G) : Lasting headOf i fun w => F w ∧ G w :=
  fun w w' hd h => ⟨hF w w' hd h.1, hG w w' hd h.2⟩

theorem Lasting.imp (c : Prop) (hF : Lasting headOf i F) : Lasting headOf i fun w => c → F w := fun w w' hd h hc => hF w w' hd (h hc)

theorem Lasting.fact (c : Prop) : Lasting headOf i fun _ : W n => c := fun _ _ _ h => h

theorem Logged.lasting (hF : Logged i F) : Lasting headOf i F := fun w w' hd h => hF w w' hd.log h

theorem Adds.next (hev : Ev.passing ev) : Adds i w (w.next i ev s' g') := ⟨_, rfl, fun _ => hev⟩

theorem Does.drift (h : Does j w w') (hj : j ≠ i) (hw : Orderly headOf w) (hw' : Orderly headOf w') : Drift headOf i w w' := by
  have hp := h.trans.priv i hj.symm
  refine ⟨hw, hw', hp.since, hp.spoiled, fun a ha => ?_, h.trans.marked, ?_⟩
  · rw [Mem.key, h.keyData a fun hm => not_live_of_mine hm ha]
    rfl
  · obtain ⟨r, hr, hlog⟩ := h.log
    exact ⟨r, hlog, fun hi => absurd (hr.symm.trans hi) hj⟩

theorem Lasting.stable (hF : Lasting headOf i F) : (lists n headOf).Stable i F :=
  fun _ _ _ hj hw hw' hd h => hF _ _ (hd.drift hj hw hw') h

theorem Steady.lists (hA : Steady i A) : (lists n headOf).Stable i fun w => A w.mem w.ghost :=
  fun j _ _ hj hw hw' hd h => hA.stable j _ _ hj hw.inv hw'.inv hd.trans h

/-- A step of thread `i` itself. -/
theorem Orderly.drift (hw : Orderly headOf w) (hw' : Orderly headOf (w.next i ev s' g')) (hT : Trans i w.mem w.ghost s' g')
    (hdirty : w.mem.dirty i = true → s'.dirty i = true) (hkey : ∀ a ∈ w.ghost.live, s'.key a = w.mem.key a) (hev : Ev.passing ev) :
    Drift headOf i w (w.next i ev s' g') := by
  obtain ⟨hsince, hspoiled⟩ := hT.own hdirty
  exact ⟨hw, hw', hsince, hspoiled, hkey, hT.marked, .next hev⟩

/-- A step of thread `i` that leaves the lists alone. -/
theorem Aloof.does (h : Aloof w.mem ev s') (hT : Trans i w.mem w.ghost s' g') : Does i w (w.next i ev s' g') :=
  ⟨hT, fun a _ => congrFun h.keyData a, _, rfl, rfl⟩

theorem Aloof.orderly (h : Aloof w.mem ev s') (hw : Orderly headOf w) (hI : Inv (w.next i ev s' g')) : Orderly headOf (w.next i ev s' g') := by
  obtain ⟨hc, hk⟩ := hw.chains.frame h.entryHead (fun a _ => congrFun h.keyData a) fun a _ => congrFun h.nextEntry a
  refine ⟨hI, ?_, hw.steps, evOk_of_plain h.plain hk⟩
  rw [World.next_ghost, linked_of_plain h.plain (life_next hw.inv hI)]
  exact hc

theorem Aloof.drift (h : Aloof w.mem ev s') (hw : Orderly headOf w) (hw' : Orderly headOf (w.next i ev s' g'))
    (hT : Trans i w.mem w.ghost s' g') : Drift headOf i w (w.next i ev s' g') := by
  refine hw.drift hw' hT (h.alert i) (fun a _ => ?_) (Ev.passing_of_plain h.plain)
  rw [Mem.key, h.keyData]
  rfl

/-! ## What a thread remembers -/

/-- At some step since its call the set met `φ`. -/
def Saw (headOf : CInt → Nat) (i : Fin n) (φ : Set CInt → Prop) (w : W n) : Prop :=
  ∃ m ∈ window Leak.callOf i w.log, φ (m.pre.keys headOf)

theorem Adds.window (h : Adds i w w') : ∃ r, window Leak.callOf i w'.log = r :: window Leak.callOf i w.log := by
  obtain ⟨r, hlog, hr⟩ := h
  refine ⟨r, ?_⟩
  rw [hlog]
  by_cases hi : r.tid = i
  · exact window_cons_of_none (callOf_of_passing (hr hi))
  · exact window_cons_of_ne hi

theorem Adds.lastCall (h : Adds i w w') : lastCall Leak.callOf i w'.log = lastCall Leak.callOf i w.log := by
  obtain ⟨r, hlog, hr⟩ := h
  rw [hlog]
  by_cases hi : r.tid = i
  · exact lastCall_cons_of_none (callOf_of_passing (hr hi))
  · exact lastCall_cons_of_ne hi

theorem Adds.deeds (h : Adds i w w') : deeds i w'.log = deeds i w.log := by
  obtain ⟨r, hlog, hr⟩ := h
  rw [hlog, MOA.deeds, MOA.deeds]
  by_cases hi : r.tid = i
  · rw [window_cons_of_none (callOf_of_passing (hr hi)), List.filter_cons_of_neg (by simp [changes_of_passing (hr hi)])]
  · rw [window_cons_of_ne hi, List.filter_cons_of_neg (by simp [hi])]

theorem logged_saw {φ : Set CInt → Prop} : Logged i (Saw headOf i φ) := by
  rintro w w' h ⟨m, hm, hφ⟩
  obtain ⟨r, hr⟩ := h.window
  exact ⟨m, by rw [hr]; exact List.mem_cons_of_mem r hm, hφ⟩

/-- The step being taken is itself a moment. -/
theorem Saw.now {φ : Set CInt → Prop} (h : φ (w.mem.keys headOf)) (hev : Ev.passing ev) : Saw headOf i φ (w.next i ev s' g') :=
  ⟨_, by rw [World.next_log, window_cons_of_none (callOf_of_passing hev)]; exact List.mem_cons_self, h⟩

theorem Saw.mono {φ ψ : Set CInt → Prop} (h : Saw headOf i φ w) (hφ : ∀ S, φ S → ψ S) : Saw headOf i ψ w := by
  obtain ⟨m, hm, h⟩ := h
  exact ⟨m, hm, hφ _ h⟩

/-- Thread `i` runs `op`, and has not changed the set yet. -/
def Pending (i : Fin n) (op : Op) (w : W n) : Prop := lastCall Leak.callOf i w.log = some op ∧ deeds i w.log = []

theorem pending_call {op : Op} : Pending i op (w.next i (some (.call op)) s' g') := by
  have hwindow : window Leak.callOf i (w.next i (some (.call op)) s' g').log = [] := if_pos ⟨rfl, rfl⟩
  refine ⟨if_pos rfl, ?_⟩
  rw [deeds, hwindow]
  rfl

theorem logged_pending {op : Op} : Logged i (Pending i op) := fun _ _ h hp => ⟨h.lastCall.trans hp.1, h.deeds.trans hp.2⟩

theorem logged_answered {op : Op} {b : Bool} : Logged i fun w => Answered headOf w.log i op b := by
  rintro w w' h ⟨h1, ⟨m, hm, hres⟩, h2⟩
  obtain ⟨r, hr⟩ := h.window
  exact ⟨h.lastCall.trans h1, ⟨m, by rw [hr]; exact List.mem_cons_of_mem r hm, hres⟩, by rw [h.deeds]; exact h2⟩

/-- An operation that changed nothing is answered by a moment it saw. -/
theorem Pending.answered {op : Op} {b : Bool} (h : Pending i op w) (hb : b = true → updates op = false)
    (hs : Saw headOf i (fun S => b = true ↔ succeeds S op) w) : Answered headOf w.log i op b := by
  obtain ⟨m, hm, hres⟩ := hs
  have hnot : ¬ (b = true ∧ updates op = true) := fun h' => by
    rw [hb h'.1] at h'
    cases h'.2
  refine ⟨h.1, ⟨m, hm, hres, fun h' => absurd h' hnot⟩, ?_⟩
  rw [h.2, if_neg hnot]
  rfl

/-- An update is answered by the step with which it takes effect. -/
theorem Pending.effect {op : Op} {e : Ev} (h : Pending i op w) (hev : changes (some e) = true) (hcall : Leak.callOf e = none)
    (hop : updates op = true) (he : Effect op ⟨i, w.mem, some e, s'⟩) (hs : succeeds (w.mem.keys headOf) op) :
    Answered headOf (w.next i (some e) s' g').log i op true := by
  have hnone : (Rec.mk i w.mem (some e) s').ev.bind Leak.callOf = none := hcall
  have hwindow : window Leak.callOf i (w.next i (some e) s' g').log = ⟨i, w.mem, some e, s'⟩ :: window Leak.callOf i w.log :=
    window_cons_of_none hnone
  refine ⟨(lastCall_cons_of_none hnone).trans h.1, ⟨_, by rw [hwindow]; exact List.mem_cons_self, ⟨fun _ => hs, fun _ => rfl⟩, fun _ => ⟨rfl, he⟩⟩, ?_⟩
  have h2 : deeds i w.log = [] := h.2
  rw [deeds, hwindow, List.filter_cons_of_pos (by simp [hev]), ← deeds, h2, if_pos ⟨rfl, hop⟩]
  rfl

/-- What holds of the key of an object that the thread may read. -/
def About (i : Fin n) (a : Nat) (φ : CInt → W n → Prop) (w : W n) : Prop :=
  w.ghost.spoiled i ∨ (a ∈ w.ghost.since i ∧ φ (w.mem.key a) w)

theorem lasting_about {φ : CInt → W n → Prop} (hφ : ∀ k, Lasting headOf i (φ k)) : Lasting headOf i (About i a φ) := by
  intro w w' hd h
  by_cases hsp : w'.ghost.spoiled i
  · exact .inl hsp
  · have hold : ¬ w.ghost.spoiled i := fun h => hsp (hd.spoiled h)
    obtain ⟨hin, h⟩ := h.resolve_left hold
    refine .inr ⟨hd.since hin, ?_⟩
    rw [hd.key a ((hd.orderly.inv.shape.guard i).whole hold hin)]
    exact hφ _ w w' hd h

theorem About.mono {φ ψ : CInt → W n → Prop} (h : About i a φ w) (hφ : ∀ k, φ k w → ψ k w) : About i a ψ w :=
  h.imp_right fun h => ⟨h.1, hφ _ h.2⟩

theorem About.and {φ ψ : CInt → W n → Prop} (h : About i a φ w) (h' : About i a ψ w) : About i a (fun k w => φ k w ∧ ψ k w) w := by
  by_cases hsp : w.ghost.spoiled i
  · exact .inl hsp
  · exact .inr ⟨(h.resolve_left hsp).1, (h.resolve_left hsp).2, (h'.resolve_left hsp).2⟩

/-- The word is one of the list of `key`, before its place; an object is the thread's to read. -/
def Near (headOf : CInt → Nat) (i : Fin n) (key : CInt) : Word → W n → Prop
  | .head b => fun _ => b = headOf key
  | .next a => About i a fun k _ => headOf k = headOf key ∧ k.toInt < key.toInt

theorem lasting_near {key : CInt} {l : Word} : Lasting headOf i (Near headOf i key l) := by
  cases l with
  | head b => exact .fact _
  | next a => exact lasting_about (φ := fun k _ => headOf k = headOf key ∧ k.toInt < key.toInt) fun _ => .fact _

/-! ## Rules -/

abbrev Both (A : Assert n) (F : W n → Prop) : W n → Prop := fun w => A w.mem w.ghost ∧ F w

abbrev Told (headOf : CInt → Nat) (i : Fin n) (A : W n → Prop) (p : P n α) (B : α → W n → Prop) : Prop :=
  (lists n headOf).Triple i A p B

/-- A part of the allocator keeps what its caller knows. -/
theorem Spec.told {p : P n α} {B : α → Assert n} (h : Spec i A p B) (hp : p.Obeys Aloof) (hF : Lasting headOf i F) :
    Told headOf i (Both A F) p fun a => Both (B a) F := by
  rintro w ⟨hA, hFw⟩
  have hinv : ∀ w, (lists n headOf).inv w → (proto n).inv w := fun _ hw => Orderly.inv hw
  have hact : ∀ j w w', (lists n headOf).act j w w' → (proto n).act j w w' := fun _ _ _ hd => Does.trans hd
  refine Proto.wp_strengthen hinv hact (fun _ _ => trivial) F hF.stable
    (fun w ev s' g hFw hw hR hI hT => ?_) hp (h w hA) hFw
  have hw' := hR.orderly hw hI
  exact ⟨hw', hR.does hT, hF _ _ (hR.drift hw hw' hT) hFw⟩

/-- The step rule. The step is accounted for, in the allocator and in the lists. -/
theorem Told.step {ev : Mem n → Option Ev} {upd : Mem n → Mem n} {f : Mem n → α} {A : W n → Prop} {B : α → W n → Prop}
    (hA : (lists n headOf).Stable i A)
    (h : ∀ w, A w → Orderly headOf w → ∃ g', (Shape (upd w.mem) g' ∧ Trans i w.mem w.ghost (upd w.mem) g') ∧
      Booked i w.mem w.ghost (ev w.mem) (upd w.mem) g' ∧ (∀ a, w.ghost.spot a ≠ .mine i → (upd w.mem).keyData a = w.mem.keyData a) ∧
      Chains headOf (upd w.mem) g'.linked ∧ EvOk headOf w.log i w.mem (ev w.mem) (upd w.mem) ∧
      B (f w.mem) (w.next i (ev w.mem) (upd w.mem) g')) : Told headOf i A (Prog.step ev upd fun s => Prog.ret (f s)) B := by
  intro w hw
  refine Proto.wp_step A hw hA fun w hw hO _ => ?_
  obtain ⟨g', ⟨hS, hT⟩, hB, hkd, hc, hev, hQ⟩ := h w hw hO
  exact ⟨g', hO.next hS hT hB hc hev, ⟨hT, hkd, _, rfl, rfl⟩, hQ⟩

/-- A step on what is not in the lists. -/
theorem Told.aside {ev : Mem n → Option Ev} {upd : Mem n → Mem n} {f : Mem n → α} {A : W n → Prop} {B : α → W n → Prop}
    (hA : (lists n headOf).Stable i A) (hplain : ∀ s, Ev.plain (ev s))
    (h : ∀ w, A w → Orderly headOf w → ∃ g', (Shape (upd w.mem) g' ∧ Trans i w.mem w.ghost (upd w.mem) g') ∧
      Booked i w.mem w.ghost (ev w.mem) (upd w.mem) g' ∧ (∀ a, w.ghost.spot a ≠ .mine i → (upd w.mem).keyData a = w.mem.keyData a) ∧
      (upd w.mem).entryHead = w.mem.entryHead ∧ (∀ a ∈ w.ghost.linked, (upd w.mem).nextEntry a = w.mem.nextEntry a) ∧
      (Orderly headOf (w.next i (ev w.mem) (upd w.mem) g') → B (f w.mem) (w.next i (ev w.mem) (upd w.mem) g'))) :
    Told headOf i A (Prog.step ev upd fun s => Prog.ret (f s)) B := by
  refine .step hA fun w hw hO => ?_
  obtain ⟨g', hS, hB, hkd, hhead, hnext, hQ⟩ := h w hw hO
  have hlinked : g'.linked = w.ghost.linked := linked_of_plain (hplain w.mem) hB.life
  have hkd' : ∀ a ∈ w.ghost.linked, (upd w.mem).keyData a = w.mem.keyData a := fun a ha => hkd a fun hm => not_live_of_mine hm (.inl ha)
  obtain ⟨hc, hk⟩ := hO.chains.frame hhead hkd' hnext
  rw [← hlinked] at hc
  have hev : EvOk headOf w.log i w.mem (ev w.mem) (upd w.mem) := evOk_of_plain (hplain w.mem) hk
  exact ⟨g', hS, hB, hkd, hc, hev, hQ (hO.next hS.1 hS.2 hB hc hev)⟩

/-- A thread writes to an object it has. -/
theorem Told.own {upd : Mem n → Mem n} {A B : W n → Prop} (hA : (lists n headOf).Stable i A) (hF : Lasting headOf i F)
    (hhead : ∀ s, (upd s).entryHead = s.entryHead) (halert : ∀ s, (upd s).dirty i = s.dirty i)
    (h : ∀ w, A w → Orderly headOf w → (Shape (upd w.mem) w.ghost ∧ Trans i w.mem w.ghost (upd w.mem) w.ghost) ∧
      Booked i w.mem w.ghost none (upd w.mem) w.ghost ∧
      (∀ a, w.ghost.spot a ≠ .mine i → (upd w.mem).keyData a = w.mem.keyData a ∧ (upd w.mem).nextEntry a = w.mem.nextEntry a) ∧
      B (w.next i none (upd w.mem) w.ghost)) : Told headOf i (fun w => A w ∧ F w) (Prog.store upd) fun _ w => B w ∧ F w := by
  refine .aside (hA.and hF.stable) (fun _ => rfl) fun w hw hO => ?_
  obtain ⟨hS, hB, hsame, hQ⟩ := h w hw.1 hO
  have hlive : ∀ a ∈ w.ghost.live, w.ghost.spot a ≠ .mine i := fun a ha hm => not_live_of_mine hm ha
  refine ⟨w.ghost, hS, hB, fun a ha => (hsame a ha).1, hhead _, fun a ha => (hsame a (hlive a (.inl ha))).2, fun hO' => ⟨hQ, ?_⟩⟩
  refine hF _ _ (hO.drift hO' hS.2 (by rw [halert]; exact id) (fun a ha => ?_) rfl) hw.2
  rw [Mem.key, (hsame a (hlive a ha)).1]
  rfl

/-- A load: what it reads holds of the state it reads. -/
theorem Told.load {f : Mem n → α} {B : α → W n → Prop} (hA : Steady i A) (hF : Lasting headOf i F)
    (h : ∀ w, A w.mem w.ghost → F w → Orderly headOf w → F (w.next i none w.mem w.ghost) → B (f w.mem) (w.next i none w.mem w.ghost)) :
    Told headOf i (Both A F) (Prog.load f) B := by
  refine .aside (hA.lists.and hF.stable) (fun _ => rfl) fun w hw hO => ?_
  refine ⟨w.ghost, ⟨hO.inv.shape, .refl ..⟩, .refl .., fun _ _ => rfl, rfl, fun _ _ => rfl, fun hO' => h w hw.1 hw.2 hO ?_⟩
  exact hF _ _ ((Aloof.refl rfl).drift hO hO' (.refl ..)) hw.2

end OptimisticAccess.MOA
