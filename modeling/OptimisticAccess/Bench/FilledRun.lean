import OptimisticAccess.Bench.InitialFill
import OptimisticAccess.NoRecl.Accounts

/-!
# A run of the test

`initialize_ds` fills the list with plain stores before there are any threads, and what it leaves is a
list that `lfl-NoOrDelayRecl.c` can start from. The set at any moment of the test then is the set of the
keys that were drawn for the fill, changed by the threads in the order of their compare-and-swaps.
-/

namespace OptimisticAccess.Bench.Fill

open Conc

/-- What the threads find. -/
def Mem.shared (s : Mem) : NoRecl.Mem := ⟨s.entryHead, s.node, s.pool, s.brk⟩

/-- The set of the keys of the fill. -/
def drawn (keys : List CInt) : Set Int := {k | ∃ key ∈ keys, key.toInt = k}

variable {n : Nat} {pool : Nat → Nat} {f : Mem} {keys : List CInt}

theorem Holds.start (hpos : ∀ t, pool t ≠ 0) (hinj : Function.Injective pool) (h : Holds pool f keys) : NoRecl.Start f.shared := by
  obtain ⟨rfl, -, l, hl⟩ := h
  refine ⟨hl.untagged 0 List.mem_cons_self, ⟨l, hl.walk, hl.sorted, fun t ht hmem => ?_⟩, hinj, hpos⟩
  obtain ⟨u, hu, heq⟩ := hl.taken _ hmem
  obtain rfl := hinj heq
  exact absurd hu (Nat.not_lt.2 ht)

theorem Holds.shared_keys (h : Holds pool f keys) : f.shared.keys = drawn keys := by
  obtain ⟨-, -, l, hl⟩ := h
  have hwalk : Walk f.shared.cells.succ 0 l := hl.walk
  ext k
  rw [NoRecl.Mem.keys, Cells.mem_keys hwalk]
  constructor
  · rintro ⟨a, ha, -, rfl⟩
    exact ⟨f.key a, (hl.keys _).1 (List.mem_map.2 ⟨a, ha, rfl⟩), rfl⟩
  · rintro ⟨key, hkey, rfl⟩
    obtain ⟨a, ha, rfl⟩ := List.mem_map.1 ((hl.keys key).2 hkey)
    have hlive := hl.untagged a (List.mem_cons_of_mem 0 ha)
    rw [loc, if_neg (hl.walk.ne_zero ha)] at hlive
    exact ⟨a, ha, hlive, rfl⟩

theorem drawn_append_nil : drawn (keys.reverse ++ []) = drawn keys := by
  simp [drawn]

/-- **The set of a test.** The fill succeeds, and in every state of every run of threads that start on its list the
keys are those of the fill after the insertions and deletions so far. -/
theorem filled_reach (elementsRange : CInt) (node : Nat → Entry) (pool : Nat → Nat) (hpos : ∀ t, pool t ≠ 0)
    (hinj : Function.Injective pool) (keys : List CInt) (depth : Nat) (hdepth : keys.length + 2 < depth)
    (hashOp : Bool) (fuel : Fin n → Nat) (ops : Fin n → List Op) :
    ∃ f, fill (ListInsertFAST depth .head · 0) keys (initialize_ds elementsRange node pool) = some (firstTimes [] keys, f) ∧
      ∀ c, Cfg.Reach (.init f.shared fun i => NoRecl.client hashOp (fuel i) (ops i)) c → NoRecl.Accounted (drawn keys) c := by
  obtain ⟨f, hfast, -, hf⟩ := fill_spec hpos hinj keys (holds_initialize_ds elementsRange node pool)
    (by rw [List.length_nil]; omega : ([] : List CInt).length + keys.length + 2 < depth)
  refine ⟨f, hfast, fun c hc => ?_⟩
  rw [← drawn_append_nil, ← hf.shared_keys]
  exact (hf.start hpos hinj).accounted hc

/-- A list in whose fill one key has been drawn twice. -/
def filled : Mem :=
  ((fill (ListInsertFAST 9 .head · 0) [3, 1, 7, 3] (initialize_ds 8 (fun _ => ⟨0, NULL⟩) (· + 1))).getD
    ([], initialize_ds 8 (fun _ => ⟨0, NULL⟩) (· + 1))).2

/-- One thread has deleted that key, the other has inserted it again, and both have ended. -/
def ended : Cfg (Fin 2) NoRecl.Mem NoRecl.Ev :=
  (Cfg.init filled.shared fun i : Fin 2 => NoRecl.client true 9 (if i.val = 0 then [.delete 3] else [.insert 3 0])).exec
    (List.replicate 19 ⟨0, Nat.two_pos⟩ ++ List.replicate 13 ⟨1, Nat.one_lt_two⟩)

theorem filled_reach_four : fill (ListInsertFAST 9 .head · 0) [3, 1, 7, 3] (initialize_ds 8 (fun _ => ⟨0, NULL⟩) (· + 1)) =
      some ([true, true, true, false], filled) ∧
    (∀ i, ended.thr i = .ret ()) ∧ NoRecl.answered (.inserted 3) ended.log = 1 ∧ NoRecl.answered (.marked 3) ended.log = 1 ∧
    NoRecl.Accounted (drawn [3, 1, 7, 3]) ended := by
  obtain ⟨f, hfill, h⟩ := filled_reach 8 (fun _ => ⟨0, NULL⟩) (· + 1) (fun t => Nat.succ_ne_zero t) (fun _ _ h => Nat.succ_inj.1 h)
    [3, 1, 7, 3] 9 (by decide) true (fun _ => 9) fun i : Fin 2 => if i.val = 0 then [.delete 3] else [.insert 3 0]
  have hf : filled = f := by
    rw [filled, hfill]
    rfl
  subst hf
  refine ⟨hfill, ?_, by decide +kernel, by decide +kernel, h ended ⟨_, rfl⟩⟩
  rw [Fin.forall_fin_two]
  exact ⟨rfl, rfl⟩

end OptimisticAccess.Bench.Fill
