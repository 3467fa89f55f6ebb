import Mathlib.Data.Set.Insert
import OptimisticAccess.AOA.Graph

/-!
# The protocol of the mark stacks

A thread pops an object, publishes it in slot 0, writes its child above the stack, and marks it;
the mark commits the child. Here a thread is the slots of its stack, the set of marked objects and
a `Task` that says how far it has got. What a scan of another thread's slots has established is
kept by every step of that thread, up to the moment when slot 0 changes for good.
-/

namespace OptimisticAccess.AOA.MarkStack

/-- What a thread does with the object it popped: it is about to test it, it has published it, it
has written the child as well. -/
inductive Stage where
  | idle
  | popped (cur : Ptr)
  | opened (cur : Ptr)
  | ready (cur : Ptr)

def Stage.cur : Stage → Option Ptr
  | .idle => none
  | .popped c | .opened c | .ready c => some c

/-- `cnt` slots are in use; `past` are the values slot 0 held before. -/
structure Task where
  cnt : Nat
  stage : Stage
  past : List Ptr

/-- One step of a thread with slots `K` while the objects of `M` are marked. `C` is the child of
an object and `f0` what slot 0 held at the start. -/
inductive Step (C : Ptr → Ptr) (f0 : Ptr) : (Nat → Ptr) → Set Ptr → Task → (Nat → Ptr) → Set Ptr → Task → Prop
  | keep {K M t} : Step C f0 K M t K M t
  | push {K M t p} (idle : t.stage = .idle) (top : (K 0).tag = true) (obj : IsObj p) :
    Step C f0 K M t (Function.update K (t.cnt + 1) p) M { t with cnt := t.cnt + 1 }
  | scratch {K M t} (idle : t.stage = .idle) : Step C f0 K M t (Function.update K (t.cnt + 1) NULL) M t
  | pop {K M t k} (idle : t.stage = .idle) (hcnt : t.cnt = k + 1) :
    Step C f0 K M t K M { t with cnt := k, stage := .popped (K (k + 1)) }
  | drop {K M t c} (hcur : t.stage.cur = some c) (hc : c ∈ M) : Step C f0 K M t K M { t with stage := .idle }
  | publish {K M t c} (hstage : t.stage = .popped c) (hpast : c ∉ t.past) (htop : c ≠ K 0)
    (hf0 : markDeleted c ≠ f0) :
    Step C f0 K M t (Function.update K 0 c) M { t with stage := .opened c, past := K 0 :: t.past }
  | write {K M t c} (hstage : t.stage = .opened c) (hC : C c ≠ NULL) :
    Step C f0 K M t (Function.update K (t.cnt + 1) (C c)) M { t with stage := .ready c }
  | markLeaf {K M t c} (hstage : t.stage = .opened c) (hC : C c = NULL) :
    Step C f0 K M t K (insert c M) { t with stage := .idle }
  | markNode {K M t c} (hstage : t.stage = .ready c) (hc : c ∉ M) :
    Step C f0 K M t K (insert c M) { t with cnt := t.cnt + 1, stage := .idle }
  | finish {K M t} (idle : t.stage = .idle) (hcnt : t.cnt = 0) (htop : (K 0).tag = false) :
    Step C f0 K M t (Function.update K 0 (markDeleted (K 0))) M { t with past := K 0 :: t.past }

/-- Where the slots show what stage the thread is in. -/
def StageOk (C : Ptr → Ptr) (K : Nat → Ptr) (cnt : Nat) : Stage → Prop
  | .idle => True
  | .popped c => IsObj c ∧ K (cnt + 1) = c
  | .opened c => IsObj c ∧ K 0 = c ∧ K (cnt + 1) = c
  | .ready c => IsObj c ∧ K 0 = c ∧ C c ≠ NULL ∧ K (cnt + 1) = C c

structure Ok (C : Ptr → Ptr) (f0 : Ptr) (K : Nat → Ptr) (M : Set Ptr) (t : Task) : Prop where
  slots : ∀ l, 1 ≤ l → K l = NULL ∨ IsObj (K l)
  pending : ∀ l, 1 ≤ l → l ≤ t.cnt → K l ≠ NULL
  stage : StageOk C K t.cnt t.stage
  top : (K 0).tag = false → IsObj (K 0) ∧ markDeleted (K 0) ≠ f0 ∧
    (K 0 ∈ M ∨ t.stage = .opened (K 0) ∨ t.stage = .ready (K 0))
  fresh : K 0 ∉ t.past
  past_marked : ∀ p ∈ t.past, p.tag = false → p ∈ M
  past_tag : ∀ p, p = K 0 ∨ p ∈ t.past → p.tag = true → p = f0 ∨ clearDeleted p ∈ t.past

section

variable {C : Ptr → Ptr} {f0 : Ptr} {K K' : Nat → Ptr} {M M' : Set Ptr} {t t' : Task}

theorem Step.marks (h : Step C f0 K M t K' M' t') : M ⊆ M' := by
  cases h
  case markLeaf => exact Set.subset_insert _ _
  case markNode => exact Set.subset_insert _ _
  all_goals exact subset_rfl

/-- Marks of other threads do no harm. -/
theorem Ok.mono (h : Ok C f0 K M t) (hM : M ⊆ M') : Ok C f0 K M' t where
  slots := h.slots
  pending := h.pending
  stage := h.stage
  top := fun ht => ⟨(h.top ht).1, (h.top ht).2.1, (h.top ht).2.2.imp_left fun hm => hM hm⟩
  fresh := h.fresh
  past_marked := fun p hp ht => hM (h.past_marked p hp ht)
  past_tag := h.past_tag

theorem Ok.isObj (h : Ok C f0 K M t) {l : Nat} (h1 : 1 ≤ l) (hl : l ≤ t.cnt) : IsObj (K l) :=
  (h.slots l h1).resolve_left (h.pending l h1 hl)

theorem Ok.isObj_cur (h : Ok C f0 K M t) {c : Ptr} (hc : t.stage.cur = some c) : IsObj c := by
  have hs := h.stage
  cases hst : t.stage with
  | idle => rw [hst] at hc; cases hc
  | popped d => rw [hst] at hc hs; cases hc; exact hs.1
  | opened d => rw [hst] at hc hs; cases hc; exact hs.1
  | ready d => rw [hst] at hc hs; cases hc; exact hs.1

/-- Slot 0 is marked while the thread is not at work on it. -/
theorem Ok.top_marked (h : Ok C f0 K M t) (htag : (K 0).tag = false)
    (hst : t.stage = .idle ∨ ∃ c, t.stage = .popped c) : K 0 ∈ M := by
  rcases (h.top htag).2.2 with hm | ho | hr
  · exact hm
  · rcases hst with e | ⟨c, e⟩ <;> (rw [e] at ho; cases ho)
  · rcases hst with e | ⟨c, e⟩ <;> (rw [e] at hr; cases hr)

theorem Step.ok (h : Step C f0 K M t K' M' t') (hok : Ok C f0 K M t)
    (hC : ∀ p, IsObj p → C p ≠ NULL → IsObj (C p)) : Ok C f0 K' M' t' := by
  have hst := hok.stage
  cases h with
  | keep => exact hok
  | @push p idle top obj =>
    refine ⟨fun l hl => ?_, fun l h1 hl => ?_, ?_, fun ht => ?_, ?_, hok.past_marked, ?_⟩
    · by_cases e : l = t.cnt + 1
      · subst e; rw [Function.update_self]; exact .inr obj
      · rw [Function.update_of_ne e]; exact hok.slots l hl
    · by_cases e : l = t.cnt + 1
      · subst e; rw [Function.update_self]; exact obj.ne
      · rw [Function.update_of_ne e]
        exact hok.pending l h1 (by simp only at hl; omega)
    · simp only [idle]; trivial
    · rw [Function.update_of_ne (by omega), top] at ht; cases ht
    · rw [Function.update_of_ne (by omega)]; exact hok.fresh
    · rw [Function.update_of_ne (by omega)]; exact hok.past_tag
  | scratch idle =>
    refine ⟨fun l hl => ?_, fun l h1 hl => ?_, ?_, ?_, ?_, hok.past_marked, ?_⟩
    · by_cases e : l = t.cnt + 1
      · subst e; rw [Function.update_self]; exact .inl rfl
      · rw [Function.update_of_ne e]; exact hok.slots l hl
    · rw [Function.update_of_ne (by omega)]; exact hok.pending l h1 hl
    · simp only [idle]; trivial
    · rw [Function.update_of_ne (by omega)]; exact hok.top
    · rw [Function.update_of_ne (by omega)]; exact hok.fresh
    · rw [Function.update_of_ne (by omega)]; exact hok.past_tag
  | @pop k idle hcnt =>
    refine ⟨hok.slots, fun l h1 hl => hok.pending l h1 (by simp only at hl; omega), ?_, fun ht => ?_, hok.fresh,
      hok.past_marked, hok.past_tag⟩
    · exact ⟨hok.isObj (by omega) (by omega), rfl⟩
    · exact ⟨(hok.top ht).1, (hok.top ht).2.1, .inl (hok.top_marked ht (.inl idle))⟩
  | @drop c hcur hc =>
    refine ⟨hok.slots, hok.pending, trivial, fun ht => ⟨(hok.top ht).1, (hok.top ht).2.1, .inl ?_⟩, hok.fresh,
      hok.past_marked, hok.past_tag⟩
    rcases (hok.top ht).2.2 with hm | ho | hr
    · exact hm
    · rw [ho] at hcur; cases hcur; exact hc
    · rw [hr] at hcur; cases hcur; exact hc
  | @publish c hstage hpast htop hf0 =>
    rw [hstage] at hst
    refine ⟨fun l hl => ?_, fun l h1 hl => ?_, ?_, fun _ => ?_, ?_, fun p hp ht => ?_, fun p hp ht => ?_⟩
    · rw [Function.update_of_ne (by omega)]; exact hok.slots l hl
    · rw [Function.update_of_ne (by omega)]; exact hok.pending l h1 hl
    · exact ⟨hst.1, Function.update_self .., by rw [Function.update_of_ne (by simp)]; exact hst.2⟩
    · rw [Function.update_self]; exact ⟨hst.1, hf0, .inr (.inl rfl)⟩
    · rw [Function.update_self, List.mem_cons, not_or]; exact ⟨htop, hpast⟩
    · rcases List.mem_cons.1 hp with rfl | hp
      · exact hok.top_marked ht (.inr ⟨c, hstage⟩)
      · exact hok.past_marked p hp ht
    · rw [Function.update_self, List.mem_cons] at hp
      rcases hp with rfl | hp
      · rw [hst.1.tag] at ht; cases ht
      · exact (hok.past_tag p hp ht).imp_right fun h => List.mem_cons_of_mem _ h
  | @write c hstage hne =>
    rw [hstage] at hst
    refine ⟨fun l hl => ?_, fun l h1 hl => ?_, ?_, fun ht => ?_, ?_, hok.past_marked, ?_⟩
    · by_cases e : l = t.cnt + 1
      · subst e; rw [Function.update_self]; exact .inr (hC c hst.1 hne)
      · rw [Function.update_of_ne e]; exact hok.slots l hl
    · rw [Function.update_of_ne (by simp only at hl; omega)]; exact hok.pending l h1 hl
    · exact ⟨hst.1, by rw [Function.update_of_ne (by omega)]; exact hst.2.1, hne, Function.update_self ..⟩
    · rw [Function.update_of_ne (by omega)] at ht ⊢
      exact ⟨(hok.top ht).1, (hok.top ht).2.1, .inr (.inr (by rw [hst.2.1]))⟩
    · rw [Function.update_of_ne (by omega)]; exact hok.fresh
    · rw [Function.update_of_ne (by omega)]; exact hok.past_tag
  | @markLeaf c hstage hnull =>
    rw [hstage] at hst
    refine ⟨hok.slots, hok.pending, trivial, fun ht => ⟨(hok.top ht).1, (hok.top ht).2.1, .inl ?_⟩, hok.fresh,
      fun p hp ht => Set.mem_insert_of_mem _ (hok.past_marked p hp ht), hok.past_tag⟩
    rw [hst.2.1]
    exact Set.mem_insert _ _
  | @markNode c hstage hc =>
    rw [hstage] at hst
    refine ⟨hok.slots, fun l h1 hl => ?_, trivial, fun ht => ⟨(hok.top ht).1, (hok.top ht).2.1, .inl ?_⟩, hok.fresh,
      fun p hp ht => Set.mem_insert_of_mem _ (hok.past_marked p hp ht), hok.past_tag⟩
    · by_cases e : l = t.cnt + 1
      · subst e; rw [hst.2.2.2]; exact hst.2.2.1
      · exact hok.pending l h1 (by simp only at hl; omega)
    · rw [hst.2.1]
      exact Set.mem_insert _ _
  | finish idle hcnt htop =>
    have hobj := hok.top htop
    refine ⟨fun l hl => ?_, fun l h1 hl => ?_, ?_, fun ht => ?_, ?_, fun p hp ht => ?_, fun p hp ht => ?_⟩
    · rw [Function.update_of_ne (by omega)]; exact hok.slots l hl
    · rw [Function.update_of_ne (by omega)]; exact hok.pending l h1 hl
    · simp only [idle]; trivial
    · rw [Function.update_self] at ht; cases ht
    · rw [Function.update_self, List.mem_cons, not_or]
      refine ⟨fun e => ?_, fun hp => ?_⟩
      · rw [← e] at htop; cases htop
      · rcases hok.past_tag _ (.inr hp) rfl with e | hp'
        · exact hobj.2.1 e
        · exact hok.fresh ((clearPtr_of_tag htop : _ = K 0) ▸ hp')
    · rcases List.mem_cons.1 hp with rfl | hp
      · exact hok.top_marked ht (.inl idle)
      · exact hok.past_marked p hp ht
    · rw [Function.update_self, List.mem_cons] at hp
      rcases hp with rfl | rfl | hp
      · exact .inr (List.mem_cons.2 (.inl (clearPtr_of_tag htop)))
      · rw [htop] at ht; cases ht
      · exact (hok.past_tag p (.inr hp) ht).imp_right fun h => List.mem_cons_of_mem _ h

theorem Step.top (h : Step C f0 K M t K' M' t') : K 0 ∈ t'.past ∨ K' 0 = K 0 := by
  cases h with
  | keep => exact .inr rfl
  | push => exact .inr (Function.update_of_ne (by omega) ..)
  | scratch => exact .inr (Function.update_of_ne (by omega) ..)
  | pop => exact .inr rfl
  | drop => exact .inr rfl
  | publish => exact .inl List.mem_cons_self
  | write => exact .inr (Function.update_of_ne (by omega) ..)
  | markLeaf => exact .inr rfl
  | markNode => exact .inr rfl
  | finish => exact .inl List.mem_cons_self

theorem Step.past (h : Step C f0 K M t K' M' t') : t.past ⊆ t'.past := by
  cases h
  case publish => exact List.subset_cons_self ..
  case finish => exact List.subset_cons_self ..
  all_goals exact List.Subset.refl _

/-! ## Duties

An object that has a marked parent and is not marked yet is on the stack of a thread at work. -/

/-- `q` is on the stack or in hand. -/
def Held (K : Nat → Ptr) (t : Task) (q : Ptr) : Prop :=
  (∃ l, 1 ≤ l ∧ l ≤ t.cnt ∧ K l = q) ∨ t.stage.cur = some q

def Duty (K : Nat → Ptr) (t : Task) (q : Ptr) : Prop := (K 0).tag = false ∧ Held K t q

theorem not_held (idle : t.stage = .idle) (hcnt : t.cnt = 0) (q : Ptr) : ¬ Held K t q := by
  rintro (⟨l, h1, hl, -⟩ | hc)
  · omega
  · rw [idle] at hc; cases hc

/-- What is held stays so until it is marked. -/
theorem Step.held (h : Step C f0 K M t K' M' t') {q : Ptr} (hq : Held K t q) : q ∈ M' ∨ Held K' t' q := by
  cases h with
  | keep => exact .inr hq
  | push =>
    refine .inr (hq.imp_left ?_)
    rintro ⟨l, h1, hl, e⟩
    exact ⟨l, h1, by simp only; omega, by rw [Function.update_of_ne (by omega)]; exact e⟩
  | scratch =>
    refine .inr (hq.imp_left ?_)
    rintro ⟨l, h1, hl, e⟩
    exact ⟨l, h1, hl, by rw [Function.update_of_ne (by omega)]; exact e⟩
  | @pop k idle hcnt =>
    rcases hq with ⟨l, h1, hl, e⟩ | hc
    · by_cases hlk : l = k + 1
      · subst hlk; exact .inr (.inr (congrArg some e))
      · exact .inr (.inl ⟨l, h1, by simp only; omega, e⟩)
    · rw [idle] at hc; cases hc
  | @drop c hcur hc =>
    rcases hq with hl | hq
    · exact .inr (.inl hl)
    · rw [hcur] at hq; cases hq; exact .inl hc
  | @publish c hstage =>
    rw [Held, hstage] at hq
    refine .inr (hq.imp_left ?_)
    rintro ⟨l, h1, hl, e⟩
    exact ⟨l, h1, hl, by rw [Function.update_of_ne (by omega)]; exact e⟩
  | @write c hstage hne =>
    rw [Held, hstage] at hq
    refine .inr (hq.imp_left ?_)
    rintro ⟨l, h1, hl, e⟩
    exact ⟨l, h1, hl, by rw [Function.update_of_ne (by omega)]; exact e⟩
  | @markLeaf c hstage =>
    rcases hq with hl | hq
    · exact .inr (.inl hl)
    · rw [hstage] at hq; cases hq; exact .inl (Set.mem_insert _ _)
  | @markNode c hstage =>
    rcases hq with ⟨l, h1, hl, e⟩ | hq
    · exact .inr (.inl ⟨l, h1, by simp only; omega, e⟩)
    · rw [hstage] at hq; cases hq; exact .inl (Set.mem_insert _ _)
  | finish idle hcnt => exact absurd hq (not_held idle hcnt q)

/-- Slot 0 is tagged only by a thread that holds nothing. -/
theorem Step.duty (h : Step C f0 K M t K' M' t') (hok : Ok C f0 K M t) {q : Ptr} (hq : Duty K t q) :
    q ∈ M' ∨ Duty K' t' q := by
  obtain ⟨htop, hq⟩ := hq
  refine (h.held hq).imp_right fun hq' => ⟨?_, hq'⟩
  have hst := hok.stage
  cases h
  case publish c hstage _ _ _ =>
    rw [hstage] at hst
    rw [Function.update_self]
    exact hst.1.tag
  case finish idle hcnt _ => exact absurd hq (not_held idle hcnt q)
  case push => rw [Function.update_of_ne (by omega)]; exact htop
  case scratch => rw [Function.update_of_ne (by omega)]; exact htop
  case write => rw [Function.update_of_ne (by omega)]; exact htop
  all_goals exact htop

/-- Who marks an object takes on its child. -/
theorem Step.newDuty (h : Step C f0 K M t K' M' t') (hok : Ok C f0 K M t) {p : Ptr} (hp : p ∈ M')
    (hnew : p ∉ M) (hne : C p ≠ NULL) : Duty K' t' (C p) := by
  have hst := hok.stage
  cases h
  case markLeaf c hstage hnull =>
    rcases Set.mem_insert_iff.1 hp with rfl | hp
    · exact absurd hnull hne
    · exact absurd hp hnew
  case markNode c hstage hc =>
    rcases Set.mem_insert_iff.1 hp with rfl | hp
    · rw [hstage] at hst
      exact ⟨hst.2.1 ▸ hst.1.tag, .inl ⟨_, Nat.le_add_left .., le_rfl, hst.2.2.2⟩⟩
    · exact absurd hp hnew
  all_goals exact absurd hp hnew

/-! ## The scan of another thread's stack -/

def StageTested (C : Ptr → Ptr) (M : Set Ptr) : Stage → Prop
  | .idle => True
  | .popped c | .opened c => c ∈ M
  | .ready c => c ∈ M ∨ C c ∈ M

/-- The slots below `k` were read and found marked. -/
structure Examined (C : Ptr → Ptr) (K : Nat → Ptr) (M : Set Ptr) (t : Task) (k : Nat) : Prop where
  below : ∀ l, 1 ≤ l → l < k → l ≤ t.cnt → K l ∈ M
  above : t.cnt + 1 < k → StageTested C M t.stage

def StageHolds (C : Ptr → Ptr) (ptr : Ptr) : Stage → Prop
  | .idle => True
  | .popped c | .opened c => ptr = c
  | .ready c => ptr = c ∨ ptr = C c

/-- `ptr` was read from slot `k` and is still what has to be tested there. -/
structure Holding (C : Ptr → Ptr) (K : Nat → Ptr) (t : Task) (k : Nat) (ptr : Ptr) : Prop where
  below : k ≤ t.cnt → K k = ptr
  above : k = t.cnt + 1 → StageHolds C ptr t.stage

/-- All that the thread still has to do is done. -/
structure NoDuty (K : Nat → Ptr) (M : Set Ptr) (t : Task) : Prop where
  pending : ∀ l, 1 ≤ l → l ≤ t.cnt → K l ∈ M
  cur : ∀ c, t.stage.cur = some c → c ∈ M

theorem StageTested.mono {st : Stage} (h : StageTested C M st) (hM : M ⊆ M') : StageTested C M' st := by
  cases st with
  | idle => trivial
  | popped c => exact hM h
  | opened c => exact hM h
  | ready c => exact h.imp (fun h => hM h) fun h => hM h

theorem Examined.mono {k : Nat} (h : Examined C K M t k) (hM : M ⊆ M') : Examined C K M' t k :=
  ⟨fun l h1 hk hl => hM (h.below l h1 hk hl), fun hk => (h.above hk).mono hM⟩

theorem NoDuty.mono (h : NoDuty K M t) (hM : M ⊆ M') : NoDuty K M' t :=
  ⟨fun l h1 hl => hM (h.pending l h1 hl), fun c hc => hM (h.cur c hc)⟩

theorem NoDuty.mem (h : NoDuty K M t) {q : Ptr} (hq : Duty K t q) : q ∈ M := by
  obtain ⟨-, ⟨l, h1, hl, rfl⟩ | hc⟩ := hq
  · exact h.pending l h1 hl
  · exact h.cur q hc

/-- At the start of a scan nothing is promised. -/
theorem Examined.one : Examined C K M t 1 :=
  ⟨fun l h1 hk _ => absurd hk (by omega), fun hk => absurd hk (by omega)⟩

/-- What a thread at work has in slot `k` when it is read. -/
theorem Ok.holding (hok : Ok C f0 K M t) (k : Nat) : Holding C K t k (K k) := by
  refine ⟨fun _ => rfl, fun e => ?_⟩
  subst e
  have hst := hok.stage
  cases h : t.stage with
  | idle => trivial
  | popped c => rw [h] at hst; exact hst.2
  | opened c => rw [h] at hst; exact hst.2.2
  | ready c => rw [h] at hst; exact .inr hst.2.2.2

theorem Examined.succ {k : Nat} {ptr : Ptr} (h : Examined C K M t k) (hk : Holding C K t k ptr) (hm : ptr ∈ M) :
    Examined C K M t (k + 1) := by
  refine ⟨fun l h1 hlk hl => ?_, fun hlt => ?_⟩
  · by_cases e : l = k
    · subst e; rw [hk.below hl]; exact hm
    · exact h.below l h1 (by omega) hl
  · by_cases e : k = t.cnt + 1
    · have ha := hk.above e
      cases hst : t.stage with
      | idle => trivial
      | popped c => rw [hst] at ha; exact ha ▸ hm
      | opened c => rw [hst] at ha; exact ha ▸ hm
      | ready c =>
        rw [hst] at ha
        rcases ha with rfl | rfl
        · exact .inl hm
        · exact .inr hm
    · exact h.above (by omega)

/-- A scan that finds an empty slot has seen everything. -/
theorem Examined.all {k : Nat} (h : Examined C K M t k) (hok : Ok C f0 K M t) (hk : 1 ≤ k) (hnull : K k = NULL)
    (k' : Nat) : Examined C K M t k' := by
  have hcnt : t.cnt < k := by
    by_contra hlt
    exact hok.pending k hk (by omega) hnull
  refine ⟨fun l h1 _ hl => h.below l h1 (by omega) hl, fun _ => ?_⟩
  by_cases e : k = t.cnt + 1
  · subst e
    have hst := hok.stage
    cases hs : t.stage with
    | idle => trivial
    | popped c => rw [hs] at hst; exact absurd (hst.2.symm.trans hnull) hst.1.ne
    | opened c => rw [hs] at hst; exact absurd (hst.2.2.symm.trans hnull) hst.1.ne
    | ready c => rw [hs] at hst; exact absurd (hst.2.2.2.symm.trans hnull) hst.2.2.1
  · exact h.above (by omega)

/-- A scan that also finds slot 0 marked leaves no duty. -/
theorem Examined.noDuty (h : ∀ k, Examined C K M t k) (hok : Ok C f0 K M t) (hm : K 0 ∈ M) : NoDuty K M t := by
  refine ⟨fun l h1 hl => (h (l + 1)).below l h1 (Nat.lt_succ_self l) hl, fun c hc => ?_⟩
  have hst := hok.stage
  have ha := (h (t.cnt + 2)).above (Nat.lt_succ_self _)
  cases hs : t.stage with
  | idle => rw [hs] at hc; cases hc
  | popped d => rw [hs] at hc ha; cases hc; exact ha
  | opened d => rw [hs] at hc hst; cases hc; exact hst.2.1 ▸ hm
  | ready d => rw [hs] at hc hst; cases hc; exact hst.2.1 ▸ hm

/-- The scanned thread keeps what the scan knows, or has moved slot 0 on. -/
theorem Step.examined (h : Step C f0 K M t K' M' t') (hok : Ok C f0 K M t) (htop : (K 0).tag = false) {k : Nat}
    (he : Examined C K M t k) : K 0 ∈ t'.past ∨ Examined C K' M' t' k := by
  cases h with
  | keep => exact .inr he
  | push _ top => rw [top] at htop; cases htop
  | scratch =>
    refine .inr ⟨fun l h1 hlk hl => ?_, he.above⟩
    rw [Function.update_of_ne (by omega)]
    exact he.below l h1 hlk hl
  | @pop k idle hcnt =>
    refine .inr ⟨fun l h1 hlk hl => he.below l h1 hlk (by simp only at hl; omega), fun hk => ?_⟩
    exact he.below _ (by omega) hk (by omega)
  | drop => exact .inr ⟨he.below, fun _ => trivial⟩
  | publish => exact .inl List.mem_cons_self
  | @write c hstage =>
    refine .inr ⟨fun l h1 hlk hl => ?_, fun hk => ?_⟩
    · rw [Function.update_of_ne (by simp only at hl; omega)]
      exact he.below l h1 hlk hl
    · have ha := he.above hk
      rw [hstage] at ha
      exact .inl ha
  | markLeaf => exact .inr ⟨fun l h1 hlk hl => Set.mem_insert_of_mem _ (he.below l h1 hlk hl), fun _ => trivial⟩
  | finish => exact .inl List.mem_cons_self
  | @markNode c hstage hc =>
    have hst := hok.stage
    rw [hstage] at hst
    refine .inr ⟨fun l h1 hlk hl => ?_, fun _ => trivial⟩
    by_cases e : l = t.cnt + 1
    · -- the child is committed; its slot was examined before the mark
      subst e
      have ha := he.above hlk
      rw [hstage] at ha
      rw [hst.2.2.2]
      exact Set.mem_insert_of_mem _ (ha.resolve_left hc)
    · exact Set.mem_insert_of_mem _ (he.below l h1 hlk (by simp only at hl; omega))

/-- The pointer in the scanner's hand, as long as it is not the one that is just being marked. -/
theorem Step.holding (h : Step C f0 K M t K' M' t') (hok : Ok C f0 K M t) (htop : (K 0).tag = false) {k : Nat}
    {ptr : Ptr} (hh : Holding C K t k ptr) (hptr : ptr ∈ M' → ptr ∈ M) :
    K 0 ∈ t'.past ∨ Holding C K' t' k ptr := by
  have hst := hok.stage
  cases h with
  | keep => exact .inr hh
  | push _ top => rw [top] at htop; cases htop
  | scratch =>
    refine .inr ⟨fun hk => ?_, hh.above⟩
    rw [Function.update_of_ne (by omega)]
    exact hh.below hk
  | @pop j idle hcnt =>
    refine .inr ⟨fun hk => hh.below (by simp only at hk; omega), fun hk => ?_⟩
    simp only at hk
    subst hk
    exact (hh.below (by omega)).symm
  | drop => exact .inr ⟨hh.below, fun _ => trivial⟩
  | publish => exact .inl List.mem_cons_self
  | @write c hstage =>
    refine .inr ⟨fun hk => ?_, fun hk => ?_⟩
    · rw [Function.update_of_ne (by simp only at hk; omega)]
      exact hh.below hk
    · have ha := hh.above hk
      rw [hstage] at ha
      exact .inl ha
  | markLeaf => exact .inr ⟨hh.below, fun _ => trivial⟩
  | @markNode c hstage hc =>
    rw [hstage] at hst
    refine .inr ⟨fun hk => ?_, fun _ => trivial⟩
    by_cases e : k = t.cnt + 1
    · have ha := hh.above e
      rw [hstage] at ha
      subst e
      rcases ha with rfl | rfl
      · exact absurd (hptr (Set.mem_insert _ _)) hc
      · exact hst.2.2.2
    · exact hh.below (by simp only at hk; omega)
  | finish => exact .inl List.mem_cons_self

/-- A thread without duties takes on none before it publishes again. -/
theorem Step.noDuty (h : Step C f0 K M t K' M' t') (hok : Ok C f0 K M t) (htop : (K 0).tag = false)
    (hn : NoDuty K M t) : K 0 ∈ t'.past ∨ NoDuty K' M' t' := by
  have hst := hok.stage
  cases h with
  | keep => exact .inr hn
  | push _ top => rw [top] at htop; cases htop
  | scratch idle =>
    refine .inr ⟨fun l h1 hl => ?_, hn.cur⟩
    rw [Function.update_of_ne (by omega)]
    exact hn.pending l h1 hl
  | @pop k idle hcnt =>
    refine .inr ⟨fun l h1 hl => hn.pending l h1 (by simp only at hl; omega), fun c hc => ?_⟩
    cases hc
    exact hn.pending _ (by omega) (by omega)
  | drop => exact .inr ⟨hn.pending, fun c hc => (by cases hc)⟩
  | publish => exact .inl List.mem_cons_self
  | @write c hstage =>
    refine .inr ⟨fun l h1 hl => ?_, fun d hd => hn.cur d (by rw [hstage]; exact hd)⟩
    rw [Function.update_of_ne (by simp only at hl; omega)]
    exact hn.pending l h1 hl
  | markLeaf => exact .inr (NoDuty.mono ⟨hn.pending, fun c hc => (by cases hc)⟩ (Set.subset_insert _ _))
  | @markNode c hstage hc => exact absurd (hn.cur c (by rw [hstage]; rfl)) hc
  | finish => exact .inl List.mem_cons_self

end

end OptimisticAccess.AOA.MarkStack
