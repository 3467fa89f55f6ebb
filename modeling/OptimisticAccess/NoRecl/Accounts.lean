import Mathlib.Algebra.BigOperators.Group.Finset.Basic
import Mathlib.Data.Fintype.BigOperators
import OptimisticAccess.Conc.Follow
import OptimisticAccess.NoRecl.Linear

/-!
# The answers account for the set

A thread calls an operation, takes its steps and returns before it calls the next. So each
compare-and-swap that changes the set belongs to one successful answer, and once all threads have
returned the answers alone tell how often each key has been inserted and deleted.
-/

namespace OptimisticAccess.NoRecl

open Conc Prog

/-- The events in their order; the state is the operation in progress. -/
def turn : Option Op → Ev → Option (Option Op)
  | none, .call op => some (some op)
  | some _, .ret _ _ => some none
  | some op, .inserted _ => some (some op)
  | some op, .marked _ => some (some op)
  | _, _ => none

variable {n fuel : Nat} {m : Option Op}

theorem follows_casWord {loc : Loc} {old new : Ptr} {e : Option Ev} {Q : Bool → Option Op → Prop} (hm : advance turn m e = some m)
    (h : ∀ b, Q b m) : Follows turn (casWord loc old new e) m Q :=
  follows_cas hm (h true) (h false)

theorem follows_findRound (key : CInt) (fres : Option ThreadLocal) :
    Follows turn (findRound key fres) m fun _ m' => m' = m := by
  cases fres with
  | none =>
    apply follows_bind
    exact follows_load fun _ => rfl
  | some fres =>
    rw [findRound]
    split_ifs
    · rfl
    · apply follows_bind
      apply follows_load
      intro s
      split_ifs
      · apply follows_bind
        apply follows_casWord rfl
        intro b
        split_ifs <;> rfl
      · apply follows_bind
        apply follows_load
        intro s'
        apply follows_bind
        apply follows_load
        intro s''
        split_ifs <;> rfl

theorem follows_find (key : CInt) : Follows turn (find fuel key) m fun _ m' => m' = m := by
  apply follows_iter
  intro fres
  apply (follows_findRound key fres).mono
  rintro _ m' rfl
  exact ⟨rfl, fun _ _ => rfl⟩

theorem follows_listInsert (key data : CInt) {op : Op} :
    Follows turn (listInsert fuel key data) (some op) fun _ m' => m' = some op := by
  apply follows_iter
  intro _
  apply follows_bind
  apply (follows_find key).mono
  rintro ⟨found, fres⟩ m' rfl
  dsimp only
  split_ifs
  · exact ⟨rfl, fun _ _ => rfl⟩
  · apply follows_bind
    apply follows_atomic
    intro s
    apply follows_bind
    apply follows_store
    apply follows_bind
    apply follows_store
    apply follows_bind
    apply follows_casWord rfl
    intro b
    split_ifs <;> exact ⟨rfl, fun _ _ => rfl⟩

theorem follows_listDelete (hashOp : Bool) (key : CInt) {op : Op} :
    Follows turn (listDelete hashOp fuel key) (some op) fun _ m' => m' = some op := by
  apply follows_iter
  intro _
  apply follows_bind
  apply (follows_find key).mono
  rintro ⟨found, fres⟩ m' rfl
  dsimp only
  split_ifs
  · exact ⟨rfl, fun _ _ => rfl⟩
  · apply follows_bind
    apply follows_casWord rfl
    intro b
    split_ifs
    · apply follows_bind
      apply (follows_find key).mono
      rintro _ m' rfl
      exact ⟨rfl, fun _ _ => rfl⟩
    · exact ⟨rfl, fun _ _ => rfl⟩
  · apply follows_bind
    apply follows_casWord rfl
    intro b
    split_ifs <;> exact ⟨rfl, fun _ _ => rfl⟩

theorem follows_listSearch (key : CInt) : Follows turn (listSearch fuel key) m fun _ m' => m' = m := by
  apply follows_bind
  apply (follows_find key).mono
  rintro ⟨found, fres⟩ m' rfl
  dsimp only
  split_ifs
  · apply follows_bind
    exact follows_load fun _ => rfl
  · rfl

theorem follows_perform (hashOp : Bool) (op : Op) : Follows turn (perform hashOp fuel op) (some op) fun _ m' => m' = some op := by
  cases op with
  | insert key data => exact follows_listInsert key data
  | delete key => exact follows_listDelete hashOp key
  | search key => exact follows_listSearch key

theorem follows_client (hashOp : Bool) (ops : List Op) : Follows turn (client hashOp fuel ops) none fun _ m' => m' = none := by
  apply follows_forEach
  intro op _
  apply follows_bind
  apply follows_emit rfl
  apply follows_bind
  apply (follows_perform hashOp op).mono
  rintro b m' rfl
  exact follows_emit rfl rfl

/-! ## Counting -/

/-- How often an event is in a log. -/
def times (e : Ev) (log : Log n) : Nat := log.countP fun r => r.ev = some e

/-- Whether it is a successful answer of an operation that takes effect by `e`. -/
def confirms (e : Ev) : Option Ev → Bool
  | some (.ret op true) => effect op = some e
  | _ => false

/-- How often an operation has returned that took effect by `e`. -/
def answered (e : Ev) (log : Log n) : Nat := log.countP fun r => confirms e r.ev

/-- How often the operation in progress has taken effect by `e`. -/
def pending (i : Fin n) (e : Ev) (log : Log n) : Option Op → Nat
  | none => 0
  | some _ => times e (effects callOf i log)

/-- The steps of one thread. -/
def own (i : Fin n) (log : Log n) : Log n := log.filter fun r => r.tid = i

variable {i : Fin n} {e : Ev} {log : Log n} {r : Rec (Fin n) Mem Ev}

theorem times_cons (e : Ev) (r : Rec (Fin n) Mem Ev) (log : Log n) : times e (r :: log) = times e log + if r.ev = some e then 1 else 0 := by
  simp [times, List.countP_cons]

theorem answered_cons (e : Ev) (r : Rec (Fin n) Mem Ev) (log : Log n) :
    answered e (r :: log) = answered e log + if confirms e r.ev then 1 else 0 := by
  simp [answered, List.countP_cons]

theorem effects_cons_of_effect {ev : Ev} (hi : r.tid = i) (hev : r.ev = some ev) (hcall : callOf ev = none) :
    effects callOf i (r :: log) = r :: effects callOf i log := by
  rw [effects, window_cons_of_none (by rw [hev]; exact hcall)]
  simp [effects, hi, hev]

/-- The steps of an answered operation: its effect, if it has had one. -/
theorem Answered.times_effects {op : Op} {b : Bool} (h : Answered log i op b) :
    times e (effects callOf i log) = if confirms e (some (.ret op b)) then 1 else 0 := by
  obtain ⟨-, ⟨m, hm, -, hmine⟩, hlength⟩ := h
  by_cases hb : b = true ∧ effect op ≠ none
  · rw [if_pos hb] at hlength
    obtain ⟨hi, hev⟩ := hmine hb
    obtain ⟨m', hm'⟩ := List.length_eq_one_iff.1 hlength
    have hmem : m ∈ effects callOf i log := by
      refine List.mem_filter.2 ⟨hm, ?_⟩
      rw [hev]
      simp [hi, Option.isSome_iff_ne_none, hb.2]
    rw [hm', List.mem_singleton] at hmem
    subst hmem
    rw [hm', times_cons, hev, hb.1]
    simp [confirms, times]
  · rw [if_neg hb] at hlength
    have hnot : confirms e (some (.ret op b)) = false := by
      cases b with
      | false => rfl
      | true =>
        have hnone : effect op = none := not_not.1 fun hne => hb ⟨rfl, hne⟩
        simp [confirms, hnone]
    rw [List.eq_nil_of_length_eq_zero hlength, hnot]
    rfl

theorem own_cons_of_eq (h : r.tid = i) : own i (r :: log) = r :: own i log := List.filter_cons_of_pos (decide_eq_true h)

theorem own_cons_of_ne (h : r.tid ≠ i) : own i (r :: log) = own i log := List.filter_cons_of_neg (by simpa using h)

theorem pending_step {op₀ : Op} {m' : Option Op} (he : effect op₀ = some e) (hi : r.tid = i) (hturn : advance turn m r.ev = some m')
    (hr : EvOk log r.tid r.pre r.ev r.post) :
    pending i e log m + (if r.ev = some e then 1 else 0) = (if confirms e r.ev then 1 else 0) + pending i e (r :: log) m' := by
  cases hev : r.ev with
  | none =>
    rw [hev] at hturn
    obtain rfl := Option.some.inj hturn
    cases m with
    | none => rfl
    | some op => simp [pending, effects_cons_of_silent hev, confirms]
  | some ev =>
    rw [hev] at hturn hr
    cases m with
    | none =>
      cases ev with
      | call op =>
        obtain rfl := Option.some.inj hturn
        have hne : Ev.call op ≠ e := by
          rintro rfl
          cases op₀ <;> cases he
        have hwindow : effects callOf i (r :: log) = [] := by simp [effects, window, hi, hev, callOf]
        simp [pending, hwindow, hne, confirms, times]
      | ret op b => cases hturn
      | inserted key => cases hturn
      | marked key => cases hturn
    | some op =>
      cases ev with
      | call op' => cases hturn
      | ret op' b =>
        obtain rfl := Option.some.inj hturn
        have hne : Ev.ret op' b ≠ e := by
          rintro rfl
          cases op₀ <;> cases he
        have hanswer : Answered log i op' b := hi ▸ hr.2
        simp [pending, hanswer.times_effects, hne]
      | inserted key =>
        obtain rfl := Option.some.inj hturn
        rw [pending, pending, effects_cons_of_effect hi hev rfl, times_cons, hev]
        exact (Nat.zero_add _).symm
      | marked key =>
        obtain rfl := Option.some.inj hturn
        rw [pending, pending, effects_cons_of_effect hi hev rfl, times_cons, hev]
        exact (Nat.zero_add _).symm

theorem pending_cons_of_ne (h : r.tid ≠ i) : pending i e (r :: log) m = pending i e log m := by
  cases m with
  | none => rfl
  | some op => rw [pending, pending, effects_cons_of_ne h]

/-- What a thread has done it has answered for, or is about to. -/
theorem times_own {op₀ : Op} (he : effect op₀ = some e) (hsteps : Along StepOk log) (hm : position turn none i log = some m) :
    times e (own i log) = answered e (own i log) + pending i e log m := by
  induction log generalizing m with
  | nil =>
    obtain rfl := Option.some.inj hm
    rfl
  | cons r log ih =>
    by_cases hi : r.tid = i
    · rw [position, if_pos hi] at hm
      obtain ⟨m₀, hm₀, hturn⟩ := Option.bind_eq_some_iff.1 hm
      have hold := ih hsteps.1 hm₀
      have hstep := pending_step he hi hturn hsteps.2.2
      rw [own_cons_of_eq hi, times_cons, answered_cons]
      omega
    · rw [position, if_neg hi] at hm
      rw [own_cons_of_ne hi, pending_cons_of_ne hi]
      exact ih hsteps.1 hm

/-- Each step is one thread's. -/
theorem countP_own (p : Rec (Fin n) Mem Ev → Bool) (log : Log n) : log.countP p = ∑ i, (own i log).countP p := by
  induction log with
  | nil => exact (Finset.sum_eq_zero fun _ _ => rfl).symm
  | cons r log ih =>
    have hcons : ∀ i, (own i (r :: log)).countP p = (own i log).countP p + if r.tid = i then (if p r then 1 else 0) else 0 := by
      intro i
      by_cases hi : r.tid = i
      · rw [own_cons_of_eq hi, List.countP_cons, if_pos hi]
      · rw [own_cons_of_ne hi, if_neg hi, Nat.add_zero]
    rw [List.countP_cons, ih, Finset.sum_congr rfl fun i _ => hcons i, Finset.sum_add_distrib, Finset.sum_ite_eq, if_pos (Finset.mem_univ _)]

/-- Once nobody is in an operation, the answers tell what has been done. -/
theorem times_eq_answered (op₀ : Op) (he : effect op₀ = some e) (hsteps : Along StepOk log)
    (hidle : ∀ i, position turn none i log = some none) : times e log = answered e log := by
  rw [times, answered, countP_own, countP_own]
  exact Finset.sum_congr rfl fun i _ => times_own he hsteps (hidle i)

/-! ## The set along a run -/

/-- The set after a step: only the compare-and-swaps of an insertion and of a deletion change it. -/
def swapped (S : Set Int) : Option Ev → Set Int
  | some (.inserted key) => insert key.toInt S
  | some (.marked key) => S \ {key.toInt}
  | _ => S

/-- The set after the steps of a log. -/
def replay (S : Set Int) : Log n → Set Int
  | [] => S
  | r :: rs => swapped (replay S rs) r.ev

open Classical in
noncomputable def present (S : Set Int) (k : Int) : Nat := if k ∈ S then 1 else 0

/-- Each key of `S'` has been in `S` or been inserted once more than it has been deleted, and each other key as often. -/
def Balanced (S : Set Int) (inserted deleted : CInt → Nat) (S' : Set Int) : Prop :=
  ∀ key : CInt, present S key.toInt + inserted key = deleted key + present S' key.toInt

/-- The set has come from `S` by the steps of the run, and in the end from `S` by what the threads have been told. -/
structure Accounted (S : Set Int) (c : Cfg (Fin n) Mem Ev) : Prop where
  linearizable : Linearizable c
  keys : c.mem.keys = replay S c.log
  steps : Balanced S (fun key => times (.inserted key) c.log) (fun key => times (.marked key) c.log) c.mem.keys
  answers : (∀ i, c.thr i = .ret ()) →
    Balanced S (fun key => answered (.inserted key) c.log) (fun key => answered (.marked key) c.log) c.mem.keys

variable {S : Set Int} {k : Int} {s s' : Mem} {ev : Option Ev}

theorem present_of_mem (h : k ∈ S) : present S k = 1 := if_pos h

theorem present_of_not_mem (h : k ∉ S) : present S k = 0 := if_neg h

theorem present_congr {S' : Set Int} (h : k ∈ S ↔ k ∈ S') : present S k = present S' k := by
  by_cases hk : k ∈ S
  · rw [present_of_mem hk, present_of_mem (h.1 hk)]
  · rw [present_of_not_mem hk, present_of_not_mem fun hk' => hk (h.2 hk')]

theorem present_insert (key key' : CInt) :
    present (insert key'.toInt S) key.toInt = if key' = key then 1 else present S key.toInt := by
  by_cases hk : key' = key
  · rw [if_pos hk, hk]
    exact present_of_mem (Set.mem_insert _ _)
  · rw [if_neg hk]
    exact present_congr (Set.mem_insert_iff.trans (or_iff_right fun he => hk (BitVec.toInt_inj.1 he).symm))

theorem present_erase (key key' : CInt) :
    present (S \ {key'.toInt}) key.toInt = if key' = key then 0 else present S key.toInt := by
  by_cases hk : key' = key
  · rw [if_pos hk, hk]
    exact present_of_not_mem fun h => h.2 rfl
  · rw [if_neg hk]
    exact present_congr (and_iff_left fun he => hk (BitVec.toInt_inj.1 he).symm)

theorem keys_swapped (h : EvOk log i s ev s') : s'.keys = swapped s.keys ev := by
  cases ev with
  | none => exact h
  | some ev =>
    cases ev with
    | call op => exact h
    | ret op b => exact h.1
    | inserted key => exact h.2
    | marked key => exact h.2

theorem keys_replay {s₀ : Mem} (hsteps : Along StepOk log) (hchain : Chain s₀ log s) : s.keys = replay s₀.keys log := by
  induction log generalizing s with
  | nil =>
    obtain rfl := hchain
    rfl
  | cons r log ih =>
    obtain ⟨rfl, hchain⟩ := hchain
    rw [replay, ← ih hsteps.1 hchain]
    exact keys_swapped hsteps.2.2

theorem Balanced.step (h : Balanced S (fun key => times (.inserted key) log) (fun key => times (.marked key) log) r.pre.keys)
    (hr : EvOk log r.tid r.pre r.ev r.post) :
    Balanced S (fun key => times (.inserted key) (r :: log)) (fun key => times (.marked key) (r :: log)) r.post.keys := by
  intro key
  have hold := h key
  have hpost := keys_swapped hr
  dsimp only at hold ⊢
  rw [times_cons, times_cons, hpost]
  cases hev : r.ev with
  | none => simpa [swapped] using hold
  | some ev =>
    rw [hev] at hr
    cases ev with
    | call op => simpa [swapped] using hold
    | ret op b => simpa [swapped] using hold
    | inserted key' =>
      rw [swapped, present_insert]
      by_cases hk : key' = key
      · subst hk
        rw [present_of_not_mem hr.1] at hold
        simp only [if_pos, reduceCtorEq, Option.some.injEq, if_false]
        omega
      · simpa [hk] using hold
    | marked key' =>
      rw [swapped, present_erase]
      by_cases hk : key' = key
      · subst hk
        rw [present_of_mem hr.1] at hold
        simp only [if_pos, reduceCtorEq, Option.some.injEq, if_false]
        omega
      · simpa [hk] using hold

theorem balanced_of_steps {s₀ : Mem} (hsteps : Along StepOk log) (hchain : Chain s₀ log s) :
    Balanced s₀.keys (fun key => times (.inserted key) log) (fun key => times (.marked key) log) s.keys := by
  induction log generalizing s with
  | nil =>
    obtain rfl := hchain
    exact fun key => Nat.add_comm _ _
  | cons r log ih =>
    obtain ⟨rfl, hchain⟩ := hchain
    exact (ih hsteps.1 hchain).step hsteps.2.2

theorem Start.accounted {s : Mem} (hs : Start s) {hashOp : Bool} {fuel : Fin n → Nat} {ops : Fin n → List Op}
    {c : Cfg (Fin n) Mem Ev} (hc : Cfg.Reach (.init s fun i => client hashOp (fuel i) (ops i)) c) : Accounted s.keys c := by
  obtain ⟨g, hI⟩ := hs.reach_inv hc
  have hsteps : Along StepOk c.log := hI.steps
  have hbalanced := balanced_of_steps hsteps hc.chain
  refine ⟨hI.linearizable, keys_replay hsteps hc.chain, hbalanced, fun hend key => ?_⟩
  have hidle : ∀ i, position turn none i c.log = some none := by
    intro i
    obtain ⟨m, hm, hfollows⟩ := Follows.reach (fun i => follows_client hashOp (ops i)) hc i
    rw [hend i] at hfollows
    rwa [show m = none from hfollows] at hm
  dsimp only
  rw [← times_eq_answered (.insert key 0) rfl hsteps hidle, ← times_eq_answered (.delete key) rfl hsteps hidle]
  exact hbalanced key

end OptimisticAccess.NoRecl
