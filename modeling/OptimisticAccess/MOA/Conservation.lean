import OptimisticAccess.MOA.Start

/-!
# What every run of the manual allocator keeps

Any number of threads, each with any tasks, and any schedule. A retired object lies in exactly one
place on its way back to the pool; the hand-over of the batches loses and doubles none; what a hazard
pointer protects is not cleared for reuse; and the lists are a set of keys all the while.
-/

namespace OptimisticAccess.MOA

open Conc Prog

/-! ## Where an object lies -/

/-- A place of an object in memory; `x` is its slot in the cache `e`. -/
inductive Station (n : Nat) where
  | freeCache (i : Fin n) (x : Nat)
  | reclaim (e x : Nat)
  | toProcess (e x : Nat)
  | unhandled (i : Fin n) (e x : Nat)
  | kept (i : Fin n) (e x : Nat)
  | head (e x : Nat)
  | allocCache (i : Fin n) (x : Nat)
  | inPfree (i : Fin n)

variable {n : Nat} {s : Mem n} {g : Ghost n} {log : Log n} {a e x : Nat} {st st' : Station n}

/-- The slot `x` of cache `e` is in use and holds `a`. -/
def InSlot (s : Mem n) (e x a : Nat) : Prop := x < s.free e ∧ s.ptrs e x = ⟨a, false⟩

/-- The object has been cleared for reuse. -/
def Station.Cleared : Station n → Prop
  | kept _ _ _ => True
  | head _ _ => True
  | allocCache _ _ => True
  | _ => False

/-! ## One place for each object -/

/-- The station of slot `x` of a cache at a place. -/
def Place.station (frozen : Prop) [Decidable frozen] (e x : Nat) : Place n → Station n
  | free i => .freeCache i x
  | batch _ => if frozen then .reclaim e x else .toProcess e x
  | work i _ _ _ => .unhandled i e x
  | head => .head e x
  | alloc i => .allocCache i x
  | _ => .reclaim e x

/-- The station of slot `x` below `kept`. -/
def Place.keptStation (e x : Nat) : Place n → Station n
  | work i _ _ _ => .kept i e x
  | _ => .head e x

/-- What a station tells of the bookkeeping. -/
inductive Explains (s : Mem n) (g : Ghost n) (a : Nat) (st : Station n) : Prop where
  | hand (i : Fin n) (hspot : g.spot a = .hand i) (hst : st = .inPfree i)
  | cached (e x : Nat) (hspot : g.spot a = .cached e) (hlo : (g.place e).lo ≤ x) (hslot : InSlot s e x a)
      (hst : st = (g.place e).station (s.reclaim.ver = s.toProcess.ver + 1) e x)
  | kept (e x : Nat) (hspot : g.spot a = .kept e) (hx : x < (g.place e).kept) (hslot : InSlot s e x a)
      (hst : st = (g.place e).keptStation e x)

theorem Explains.unique (hS : Shape s g) (h : Explains s g a st) (h' : Explains s g a st') : st = st' := by
  cases h with
  | hand i hspot hst =>
    cases h' with
    | hand i' hspot' hst' =>
      obtain rfl := Spot.hand.inj (hspot.symm.trans hspot')
      rw [hst, hst']
    | cached e x hspot' _ _ _ => cases hspot.symm.trans hspot'
    | kept e x hspot' _ _ _ => cases hspot.symm.trans hspot'
  | cached e x hspot hlo hslot hst =>
    cases h' with
    | hand i' hspot' _ => cases hspot.symm.trans hspot'
    | cached e' x' hspot' hlo' hslot' hst' =>
      obtain rfl := Spot.cached.inj (hspot.symm.trans hspot')
      obtain rfl := (hS.stock.cached e (hS.stock.inUse e a hspot)).inj ⟨hlo, hslot.1⟩ ⟨hlo', hslot'.1⟩ (hslot.2.trans hslot'.2.symm)
      rw [hst, hst']
    | kept e' x' hspot' _ _ _ => cases hspot.symm.trans hspot'
  | kept e x hspot hx hslot hst =>
    cases h' with
    | hand i' hspot' _ => cases hspot.symm.trans hspot'
    | cached e' x' hspot' _ _ _ => cases hspot.symm.trans hspot'
    | kept e' x' hspot' hx' hslot' hst' =>
      obtain rfl := Spot.kept.inj (hspot.symm.trans hspot')
      obtain rfl := (hS.stock.kept e).inj ⟨Nat.zero_le x, hx⟩ ⟨Nat.zero_le x', hx'⟩ (hslot.2.trans hslot'.2.symm)
      rw [hst, hst']

/-- Objects that the words lead to from a list head. -/
inductive InList (s : Mem n) : Nat → Prop where
  | head (b : Nat) (h : (s.entryHead b).addr ≠ 0) : InList s (s.entryHead b).addr
  | next {a : Nat} (ha : InList s a) (h : (s.nextEntry a).addr ≠ 0) : InList s (s.nextEntry a).addr

/-- A list head, or the word of an object in a list. -/
def OnPath (s : Mem n) : Word → Prop
  | .head _ => True
  | .next a => InList s a

theorem InList.linked (hS : Shape s g) (h : InList s a) : g.spot a = .linked := by
  induction h with
  | head b h => exact hS.net.target (.head b) trivial h
  | next _ h ih => exact hS.net.target (.next _) ih h

theorem OnPath.counts (hS : Shape s g) {l : Word} (h : OnPath s l) : Counts g.linked l := by
  cases l with
  | head b => trivial
  | next a => exact InList.linked hS h

theorem Explains.stored (h : Explains s g a st) : (g.spot a).Stored := by
  cases h with
  | hand i hspot _ => rw [hspot]; trivial
  | cached e x hspot _ _ _ => rw [hspot]; trivial
  | kept e x hspot _ _ _ => rw [hspot]; trivial

def blocks (k : Nat) : Nat := 8192 * (k + 1)

section Runs

variable {mem : Nat → Nat} {hashOp : Bool} {headOf : CInt → Nat} {fuel : Fin n → Nat} {tasks : Fin n → List Task} {c : Cfg (Fin n) (Mem n) Ev}

theorem reach_proto (hs : Blank s) (hb : Blocks mem s.spare) (numEntries : Nat)
    (hc : Cfg.Reach (.init (init_allocator mem numEntries s) fun i => client hashOp headOf i (fuel i) (tasks i)) c) :
    ∃ g, Orderly headOf ⟨c.mem, c.log, g⟩ := by
  have hclient : ∀ i, Told headOf i (fun w => Idle i True ∅ w.mem w.ghost) (client hashOp headOf i (fuel i) (tasks i)) fun _ _ => True := fun i =>
    (client_told (fuel i) (tasks i)).post fun _ _ _ => trivial
  have hallow := (lists n headOf).allowed_of_forall (fun _ _ => trivial) c.log
  have hstart : (lists n headOf).inv ⟨init_allocator mem numEntries s, [], startGhost n mem (1 + numEntries / entriesPerCache)⟩ :=
    ⟨start_inv hs hb numEntries, (start_chains hs hb numEntries headOf).1, trivial⟩
  exact Proto.adequacy hstart (fun i => hclient i _ (start_idle hs hb numEntries i)) hc hallow

theorem reach_inv (hs : Blank s) (hb : Blocks mem s.spare) (numEntries : Nat)
    (hc : Cfg.Reach (.init (init_allocator mem numEntries s) fun i => client hashOp headOf i (fuel i) (tasks i)) c) :
    ∃ g, Inv ⟨c.mem, c.log, g⟩ :=
  (reach_proto hs hb numEntries hc).imp fun _ hO => hO.inv

end Runs

end OptimisticAccess.MOA
