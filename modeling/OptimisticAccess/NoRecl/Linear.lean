import OptimisticAccess.Conc.Logic
import OptimisticAccess.NoRecl.Chain

/-!
# The list without reclamation is a linearizable sorted set

`StepOk` says what each step of a run is allowed to be: a marked entry keeps its `nextEntry`,
the two event-carrying compare-and-swaps act on the abstract set as an insertion and a deletion
do, no other step changes the set, and a return is `Answered`. The proof attaches to `find` the
moments it has seen: an unmarked entry is reachable at the moment its `nextEntry` is read, and
the word of `prev` shows a gap at the moment it is read or swapped.
-/

namespace OptimisticAccess.NoRecl

open Conc Prog

/-- The operation a call event starts. -/
def callOf : Ev → Option Op
  | .call op => some op
  | _ => none

/-- Whether the operation succeeds on a set. -/
def succeeds (S : Set Int) : Op → Prop
  | .insert key _ => key.toInt ∉ S
  | .delete key => key.toInt ∈ S
  | .search key => key.toInt ∈ S

/-- The event of the step that makes a successful operation take effect. -/
def effect : Op → Option Ev
  | .insert key _ => some (.inserted key)
  | .delete key => some (.marked key)
  | .search _ => none

variable {n : Nat}

abbrev Log (n : Nat) := List (Rec (Fin n) Mem Ev)

/-- `a` has been reachable from the head, now or before. -/
def Inserted (log : Log n) (s : Mem) (a : Nat) : Prop := Linked s a ∨ ∃ r ∈ log, Linked r.pre a

/-- At some step since the call the set gives the answer `b`. A successful update has taken
effect in exactly one step of its own, which is that step; any other operation has not. -/
def Answered (log : Log n) (i : Fin n) (op : Op) (b : Bool) : Prop :=
  lastCall callOf i log = some op ∧
    (∃ m ∈ window callOf i log, (b = true ↔ succeeds m.pre.keys op) ∧
      (b = true ∧ effect op ≠ none → m.tid = i ∧ m.ev = effect op)) ∧
    (effects callOf i log).length = if b = true ∧ effect op ≠ none then 1 else 0

/-- What an event says about the set around the step. -/
def EvOk (log : Log n) (i : Fin n) (pre : Mem) (ev : Option Ev) (post : Mem) : Prop :=
  match ev with
  | some (.inserted key) => key.toInt ∉ pre.keys ∧ post.keys = insert key.toInt pre.keys
  | some (.marked key) => key.toInt ∈ pre.keys ∧ post.keys = pre.keys \ {key.toInt}
  | some (.ret op b) => post.keys = pre.keys ∧ Answered log i op b
  | _ => post.keys = pre.keys

def StepOk (log : Log n) (r : Rec (Fin n) Mem Ev) : Prop :=
  (∀ a, Inserted log r.pre a → isDeleted (r.pre.node a).nextEntry = true →
      (r.post.node a).nextEntry = (r.pre.node a).nextEntry) ∧
    EvOk log r.tid r.pre r.ev r.post

abbrev W (n : Nat) := World (Fin n) Mem Ev (Ghost (Fin n))

structure Inv (pool : Nat → Nat) (w : W n) : Prop where
  shape : Shape pool w.mem w.ghost
  inserted : ∀ a, Inserted w.log w.mem a → a ∈ w.ghost.linked
  steps : Along StepOk w.log

def proto (n : Nat) (pool : Nat → Nat) : Proto (Fin n) Mem Ev (Ghost (Fin n)) where
  inv := Inv pool
  act i w w' := Trans i w.mem w.ghost w'.mem w'.ghost ∧ ∃ r, r.tid = i ∧ w'.log = r :: w.log

variable {pool : Nat → Nat} {i : Fin n} {w : W n}

theorem Inv.next (hI : Inv pool w) {ev : Option Ev} {s' : Mem} {g' : Ghost (Fin n)}
    (hS : Shape pool s' g') (hT : Trans i w.mem w.ghost s' g') (hE : EvOk w.log i w.mem ev s') :
    Inv pool (w.next i ev s' g') := by
  refine ⟨hS, ?_, hI.steps, fun a ha hd => hT.frozen a (hI.inserted a ha) hd, hE⟩
  rintro a (h | ⟨r, hr, h⟩)
  · exact hS.linked_of_reach h
  · refine hT.linked (hI.inserted a ?_)
    rcases List.mem_cons.1 hr with rfl | hr
    · exact .inl h
    · exact .inr ⟨r, hr, h⟩

section Rules

variable {α : Type}

/-- A step of the list: the shape is kept and the event is accounted for. -/
theorem wp_step {ev : Mem → Option Ev} {upd : Mem → Mem} {k : Mem → Prog Mem Ev α}
    {Q : α → W n → Prop} (P : W n → Prop) (hP : P w) (hs : (proto n pool).Stable i P)
    (h : ∀ w, P w → Inv pool w → ∃ g, Shape pool (upd w.mem) g ∧
      Trans i w.mem w.ghost (upd w.mem) g ∧ EvOk w.log i w.mem (ev w.mem) (upd w.mem) ∧
      (proto n pool).wp i (k w.mem) Q (w.next i (ev w.mem) (upd w.mem) g)) :
    (proto n pool).wp i (.step ev upd k) Q w := by
  refine Proto.wp_step P hP hs fun w hP hI _ => ?_
  obtain ⟨g, hS, hT, hE, hk⟩ := h w hP hI
  exact ⟨g, Inv.next hI hS hT hE, ⟨hT, _, rfl, rfl⟩, hk⟩

/-- A load. -/
theorem wp_load {f : Mem → α} {Q : α → W n → Prop} (P : W n → Prop) (hP : P w)
    (hs : (proto n pool).Stable i P)
    (h : ∀ w, P w → Inv pool w → Q (f w.mem) (w.next i none w.mem w.ghost)) :
    (proto n pool).wp i (load f) Q w :=
  wp_step P hP hs fun w hP hI => ⟨w.ghost, hI.shape, .refl .., rfl, h w hP hI⟩

/-- A compare-and-swap: the success is accounted for, the failure changes nothing. -/
theorem wp_cas {ok : Mem → Prop} [DecidablePred ok] {upd : Mem → Mem} {e : Option Ev}
    {Q : Bool → W n → Prop} (P : W n → Prop) (hP : P w) (hs : (proto n pool).Stable i P)
    (hyes : ∀ w, P w → Inv pool w → ok w.mem → ∃ g, Shape pool (upd w.mem) g ∧
      Trans i w.mem w.ghost (upd w.mem) g ∧ EvOk w.log i w.mem e (upd w.mem) ∧
      Q true (w.next i e (upd w.mem) g))
    (hno : ∀ w, P w → Inv pool w → ¬ ok w.mem → Q false (w.next i none w.mem w.ghost)) :
    (proto n pool).wp i (cas ok upd e) Q w := by
  refine Proto.wp_cas P hP hs (fun w hP hI hok _ => ?_) fun w hP hI hok _ => ?_
  · obtain ⟨g, hS, hT, hE, hk⟩ := hyes w hP hI hok
    exact ⟨g, Inv.next hI hS hT hE, ⟨hT, _, rfl, rfl⟩, hk⟩
  · exact ⟨w.ghost, Inv.next hI hI.shape (.refl ..) rfl, ⟨.refl .., _, rfl, rfl⟩, hno w hP hI hok⟩

end Rules

/-! ## Assertions that other threads leave alone -/

def Saw (i : Fin n) (φ : Set Int → Prop) (w : W n) : Prop :=
  ∃ m ∈ window callOf i w.log, φ m.pre.keys

/-- A frame: kept by the other threads and by the silent steps of thread `i`. -/
structure Frame (pool : Nat → Nat) (i : Fin n) (F : W n → Prop) : Prop where
  stable : (proto n pool).Stable i F
  silent : ∀ w s g, F w → F (w.next i none s g)

theorem stable_saw (φ : Set Int → Prop) : (proto n pool).Stable i (Saw i φ) := by
  rintro j w w' hj - - ⟨-, r, hr, hlog⟩ ⟨m, hm, hφ⟩
  exact ⟨m, by rw [hlog, window_cons_of_ne (hr ▸ hj)]; exact List.mem_cons_of_mem _ hm, hφ⟩

theorem Saw.silent {φ : Set Int → Prop} (h : Saw i φ w) (s : Mem) (g : Ghost (Fin n)) :
    Saw i φ (w.next i none s g) := by
  obtain ⟨m, hm, hφ⟩ := h
  exact ⟨m, by rw [World.next, window_cons_of_none rfl]; exact List.mem_cons_of_mem _ hm, hφ⟩

/-- The step being taken is itself a moment. -/
theorem Saw.now {φ : Set Int → Prop} (h : φ w.mem.keys) (s : Mem) (g : Ghost (Fin n)) :
    Saw i φ (w.next i none s g) :=
  ⟨_, by rw [World.next, window_cons_of_none rfl]; exact List.mem_cons_self, h⟩

theorem stable_imp (p : Prop) {P : W n → Prop} (h : (proto n pool).Stable i P) :
    (proto n pool).Stable i fun w => p → P w :=
  fun j w w' hj hi hi' ha hP hp => h j w w' hj hi hi' ha (hP hp)

theorem stable_linked (a : Nat) : (proto n pool).Stable i fun w => a ∈ w.ghost.linked :=
  fun _ _ _ _ _ _ ha h => ha.1.linked h

theorem stable_succ (p : Ptr) :
    (proto n pool).Stable i fun w => p.addr = 0 ∨ p.addr ∈ w.ghost.linked :=
  fun _ _ _ _ _ _ ha h => h.imp_right fun h => ha.1.linked h

theorem stable_prevOk (key : Int) (loc : Loc) :
    (proto n pool).Stable i fun w => PrevOk key w.mem w.ghost loc :=
  fun _ _ _ _ _ _ ha h => h.trans ha.1

theorem stable_key (a : Nat) (p : Int → Prop) :
    (proto n pool).Stable i fun w => a ∈ w.ghost.linked ∧ p (w.mem.key a) :=
  fun _ _ _ _ _ _ ha h => ⟨ha.1.linked h.1, by rw [Mem.key, ha.1.key a h.1]; exact h.2⟩

/-- A marked entry keeps its link. -/
theorem stable_frozen (a : Nat) (p : Ptr) (hp : p.tag = true) :
    (proto n pool).Stable i fun w => a ∈ w.ghost.linked ∧ (w.mem.node a).nextEntry = p :=
  fun _ _ _ _ _ _ ha h => ⟨ha.1.linked h.1, by rw [ha.1.frozen a h.1 (h.2 ▸ hp), h.2]⟩

/-- An entry thread `i` holds is its own. -/
theorem stable_held (a : Nat) (p : Entry → Prop) :
    (proto n pool).Stable i fun w => w.ghost.owner a = some i ∧ p (w.mem.node a) := by
  rintro j w w' hj - - ⟨ht, -⟩ ⟨ho, hp⟩
  obtain ⟨hn, ho'⟩ := ht.others a i ho fun e => hj e.symm
  exact ⟨ho', hn ▸ hp⟩

/-! ## `find` -/

/-- What `find` knows at the head of its loop. -/
def AtLoop (F : W n → Prop) (i : Fin n) (key : CInt) : Option ThreadLocal → W n → Prop
  | none, w => F w
  | some fres, w => F w ∧ PrevOk key.toInt w.mem w.ghost fres.prev ∧ fres.cur.tag = false ∧
      (fres.cur.addr ≠ 0 → fres.cur.addr ∈ w.ghost.linked) ∧
      (fres.cur.addr = 0 → Saw i (key.toInt ∉ ·) w)

/-- What `find` has established when it returns. -/
def Found (F : W n → Prop) (i : Fin n) (key : CInt) (r : Bool × ThreadLocal) (w : W n) : Prop :=
  F w ∧
    if r.1 then
      (r.2.cur.addr ∈ w.ghost.linked ∧ w.mem.key r.2.cur.addr = key.toInt) ∧
        r.2.next.tag = false ∧ Saw i (key.toInt ∈ ·) w
    else
      PrevOk key.toInt w.mem w.ghost r.2.prev ∧ r.2.cur.tag = false ∧
        (r.2.cur.addr ≠ 0 → r.2.cur.addr ∈ w.ghost.linked ∧ key.toInt < w.mem.key r.2.cur.addr) ∧
        Saw i (key.toInt ∉ ·) w

theorem ptr_eq_NULL {p : Ptr} (h : p.tag = false) : p = NULL ↔ p.addr = 0 := by
  cases p; simp_all [NULL]

/-- The unlinking compare-and-swap and the jump after it. -/
theorem unlink_spec {F : W n → Prop} (hF : Frame pool i F) {key : CInt} {prev : Loc} {cur next : Ptr}
    (hprev : PrevOk key.toInt w.mem w.ghost prev) (htag : cur.tag = false) (hdel : next.tag = true)
    (hc : cur.addr ∈ w.ghost.linked ∧ (w.mem.node cur.addr).nextEntry = next)
    (hn : next.addr = 0 ∨ next.addr ∈ w.ghost.linked) (hFw : F w) :
    (proto n pool).wp i (casWord prev cur (clearDeleted next) none)
      (fun ok w => (proto n pool).wp i
        (if ok then return .inl (some ⟨prev, clearDeleted next, next⟩) else return .inl none)
        (fun r w => Sum.elim (AtLoop F i key · w) (Found F i key · w) r) w) w := by
  refine wp_cas _ ⟨hFw, hprev, hc, hn⟩ (hF.stable.and ((stable_prevOk key.toInt prev).and
    ((stable_frozen cur.addr next hdel).and (stable_succ next)))) ?_ ?_
  · rintro w ⟨hFw, hprev, hc, hn⟩ hI hok
    obtain ⟨hS, hT, hK⟩ := hI.shape.unlink (i := i) hprev hok htag hc.1 hc.2 hdel
    have habs : next.addr = 0 → key.toInt ∉ w.mem.keys := by
      intro h
      rw [← hK]
      exact (hprev.trans hT).absent hS (by rw [setWord_word]; rfl) (.inl (by rw [setWord_word]; exact h))
    exact ⟨w.ghost, hS, hT, hK, hF.silent _ _ _ hFw, hprev.trans hT, rfl,
      fun h => hT.linked (hn.resolve_left h), fun h => Saw.now (habs h) _ _⟩
  · rintro w ⟨hFw, -⟩ - -
    exact hF.silent _ _ _ hFw

theorem findRound_spec {F : W n → Prop} (hF : Frame pool i F) (key : CInt) (st : Option ThreadLocal)
    (h : AtLoop F i key st w) :
    (proto n pool).wp i (findRound key st)
      (fun r w => Sum.elim (AtLoop F i key · w) (Found F i key · w) r) w := by
  cases st with
  | none =>
    rw [findRound, Proto.wp_bind]
    refine wp_load F h hF.stable fun w hP hI => ?_
    refine ⟨hF.silent _ _ _ hP, trivial, hI.shape.headTag, fun h0 => ?_, fun h0 => ?_⟩
    · obtain ⟨l, hw, -, hl, -⟩ := hI.shape.chain
      cases l with
      | nil => exact absurd hw h0
      | cons a l => exact hl _ (by rw [show (w.mem.word .head).addr = a from hw.1]; exact List.mem_cons_self)
    · have hhead : PrevOk key.toInt w.mem w.ghost .head := trivial
      exact Saw.now (hhead.absent hI.shape hI.shape.headTag (.inl h0)) _ _
  | some fres =>
    obtain ⟨prev, cur, next⟩ := fres
    obtain ⟨hFw, hprev, htag, hcur, habs⟩ := h
    simp only at hprev htag hcur habs
    simp only [findRound]
    by_cases hnull : cur = NULL
    · rw [if_pos hnull]
      have h0 := (ptr_eq_NULL htag).1 hnull
      exact ⟨hFw, hprev, htag, fun h => absurd h0 h, habs h0⟩
    rw [if_neg hnull, Proto.wp_bind]
    have hc := hcur fun h0 => hnull ((ptr_eq_NULL htag).2 h0)
    -- the load of `cur->nextEntry`: an unmarked entry is reachable at this moment
    refine wp_load _ ⟨hFw, hprev, hc⟩
      (hF.stable.and ((stable_prevOk key.toInt prev).and (stable_linked cur.addr))) ?_
    rintro w ⟨hFw, hprev, hc⟩ hI
    obtain ⟨nxt, hnxt⟩ : ∃ p, p = (w.mem.node cur.addr).nextEntry := ⟨_, rfl⟩
    have hc0 : cur.addr ≠ 0 := fun e => hI.shape.zero (e ▸ hc)
    have hnl := hI.shape.succ_linked _ hc
    rw [← hnxt] at hnl ⊢
    cases hdel : isDeleted nxt with
    | true =>
      rw [if_pos rfl, Proto.wp_bind]
      exact unlink_spec hF hprev htag hdel ⟨hc, hnxt.symm⟩ hnl
        (hF.silent _ _ _ hFw)
    | false =>
      rw [if_neg (by simp), Proto.wp_bind]
      have hnow : w.mem.key cur.addr ∈ w.mem.keys := hI.shape.present hc (hnxt ▸ hdel)
      obtain ⟨ck, hck⟩ : ∃ k, k = w.mem.key cur.addr := ⟨_, rfl⟩
      rw [← hck] at hnow
      have hword : w.mem.word (.next cur.addr) = nxt := hnxt.symm
      have hend : nxt.addr = 0 → ck < key.toInt → key.toInt ∉ w.mem.keys := by
        intro h0 hlt
        have hat : PrevOk key.toInt w.mem w.ghost (.next cur.addr) := ⟨hc, hck ▸ hlt⟩
        exact hat.absent hI.shape (hword ▸ hdel) (.inl (hword ▸ h0))
      -- the load of `cur->keyData`: the key of a linked entry is fixed
      refine wp_load _ ⟨hF.silent _ w.mem w.ghost hFw, hprev, ⟨hc, hck.symm⟩, hnl,
          Saw.now hnow w.mem w.ghost, show nxt.addr = 0 → ck < key.toInt → Saw i (key.toInt ∉ ·) _ from
            fun h0 hlt => Saw.now (hend h0 hlt) _ _⟩
        (hF.stable.and ((stable_prevOk key.toInt prev).and ((stable_key cur.addr (· = ck)).and
          ((stable_succ nxt).and ((stable_saw (ck ∈ ·)).and
            (stable_imp _ (stable_imp _ (stable_saw (key.toInt ∉ ·))))))))) ?_
      rintro w ⟨hFw, hprev, hc, hnl, hin, hend⟩ hI
      obtain ⟨ckey, hckey⟩ : ∃ k, k = getKey (w.mem.node cur.addr).keyData := ⟨_, rfl⟩
      have hk : ckey.toInt = ck := by rw [hckey, ← hc.2]; rfl
      rw [← hckey, Proto.wp_bind]
      -- the load of `*prev`: if it still points to `cur`, it shows what lies behind `prev`
      refine wp_load _ ⟨hF.silent _ w.mem w.ghost hFw, hprev, hc, hnl, hin.silent _ _,
          show nxt.addr = 0 → ck < key.toInt → Saw i (key.toInt ∉ ·) _ from
            fun h0 hlt => (hend h0 hlt).silent _ _⟩
        (hF.stable.and ((stable_prevOk key.toInt prev).and ((stable_key cur.addr (· = ck)).and
          ((stable_succ nxt).and ((stable_saw (ck ∈ ·)).and
            (stable_imp _ (stable_imp _ (stable_saw (key.toInt ∉ ·))))))))) ?_
      rintro w ⟨hFw, hprev, hc, hnl, hin, hend⟩ hI
      by_cases hp : w.mem.word prev = cur
      · rw [if_neg (fun h => h hp)]
        by_cases hge : ckey.toInt ≥ key.toInt
        · rw [if_pos hge]
          refine ⟨hF.silent _ _ _ hFw, ?_⟩
          by_cases heq : ckey = key
          · subst heq
            simp only [beq_self_eq_true, if_true]
            exact ⟨⟨hc.1, hc.2.trans hk.symm⟩, hdel, by rw [hk]; exact hin.silent _ _⟩
          · have hlt : key.toInt < ck := by
              rw [← hk]
              exact lt_of_le_of_ne hge fun e => heq (BitVec.eq_of_toInt_eq e.symm)
            simp only [beq_eq_false_iff_ne.2 heq, Bool.false_eq_true, if_false]
            refine ⟨hprev, htag, fun _ => ⟨hc.1, show key.toInt < w.mem.key cur.addr from hc.2.symm ▸ hlt⟩, ?_⟩
            exact Saw.now (hprev.absent hI.shape (hp ▸ htag) (.inr (hp ▸ hc.2.symm ▸ hlt))) _ _
        · rw [if_neg hge]
          have hlt : ck < key.toInt := by rw [← hk]; exact not_le.1 hge
          refine ⟨hF.silent _ _ _ hFw, ⟨hc.1, show w.mem.key cur.addr < key.toInt from hc.2 ▸ hlt⟩, hdel,
            fun h => hnl.resolve_left h, fun h => (hend h hlt).silent _ _⟩
      · rw [if_pos hp]
        exact hF.silent _ _ _ hFw

theorem find_spec {F : W n → Prop} (hF : Frame pool i F) (fuel : Nat) (key : CInt) (h : F w) :
    (proto n pool).wp i (find fuel key) (Found F i key) w :=
  Proto.wp_iter (AtLoop F i key) (fun st _ hst => findRound_spec hF key st hst) fuel none h

/-! ## The operations -/

/-- Thread `i` runs `op` and has not changed the set yet. -/
def Pending (i : Fin n) (op : Op) (w : W n) : Prop :=
  lastCall callOf i w.log = some op ∧ effects callOf i w.log = []

theorem frame_pending (pool : Nat → Nat) (op : Op) : Frame pool i (Pending i op) where
  stable := by
    rintro j w w' hj - - ⟨-, r, hr, hlog⟩ ⟨h1, h2⟩
    have hr : r.tid ≠ i := hr ▸ hj
    exact ⟨by rw [hlog, lastCall_cons_of_ne hr, h1], by rw [hlog, effects_cons_of_ne hr, h2]⟩
  silent w s g h :=
    ⟨by rw [World.next, lastCall_cons_of_none rfl, h.1], by rw [World.next, effects_cons_of_silent rfl, h.2]⟩

theorem frame_answered (pool : Nat → Nat) (op : Op) (b : Bool) : Frame pool i fun w => Answered w.log i op b where
  stable := by
    rintro j w w' hj - - ⟨-, r, hr, hlog⟩ ⟨h1, ⟨m, hm, hres⟩, h2⟩
    have hr : r.tid ≠ i := hr ▸ hj
    rw [Answered, hlog, lastCall_cons_of_ne hr, window_cons_of_ne hr, effects_cons_of_ne hr]
    exact ⟨h1, ⟨m, List.mem_cons_of_mem _ hm, hres⟩, h2⟩
  silent w s g := by
    rintro ⟨h1, ⟨m, hm, hres⟩, h2⟩
    rw [World.next, Answered, lastCall_cons_of_none rfl, window_cons_of_none rfl,
      effects_cons_of_silent rfl]
    exact ⟨h1, ⟨m, List.mem_cons_of_mem _ hm, hres⟩, h2⟩

/-- An operation that changed nothing is answered by a moment it saw. -/
theorem Pending.answered {op : Op} {b : Bool} (h : Pending i op w)
    (hb : b = true → effect op = none) (hs : Saw i (fun S => b = true ↔ succeeds S op) w) :
    Answered w.log i op b := by
  obtain ⟨m, hm, hres⟩ := hs
  refine ⟨h.1, ⟨m, hm, hres, fun hbe => absurd (hb hbe.1) hbe.2⟩, ?_⟩
  rw [h.2, if_neg fun hbe => hbe.2 (hb hbe.1)]
  rfl

/-- An update is answered by the step that takes effect. -/
theorem Pending.effect {op : Op} {ev : Ev} (h : Pending i op w) (he : effect op = some ev)
    (hev : callOf ev = none) (hs : succeeds w.mem.keys op) (s : Mem) (g : Ghost (Fin n)) :
    Answered (w.next i (some ev) s g).log i op true := by
  have hcall : (Rec.mk i w.mem (some ev) s).ev.bind callOf = none := hev
  rw [World.next, Answered, lastCall_cons_of_none hcall, window_cons_of_none hcall, effects,
    window_cons_of_none hcall]
  refine ⟨h.1, ⟨_, List.mem_cons_self, by simpa using hs, fun _ => ⟨rfl, he.symm⟩⟩, ?_⟩
  have h2 := h.2
  rw [effects] at h2
  simp [h2, he]

theorem listSearch_spec (fuel : Nat) (key : CInt) (h : Pending i (.search key) w) :
    (proto n pool).wp i (listSearch fuel key) (fun b w => Answered w.log i (.search key) b) w := by
  rw [listSearch, Proto.wp_bind]
  refine Proto.wp_mono (find_spec (frame_pending pool _) fuel key h) fun r w hr => ?_
  obtain ⟨found, fres⟩ := r
  cases found with
  | true =>
    obtain ⟨hp, -, -, hsaw⟩ := hr
    simp only [if_true, Proto.wp_bind]
    refine wp_load _ (hp.answered (fun _ => rfl) ?_) (frame_answered pool _ true).stable
      fun w ha _ => (frame_answered pool _ true).silent _ _ _ ha
    obtain ⟨m, hm, hin⟩ := hsaw
    exact ⟨m, hm, by simpa [succeeds] using hin⟩
  | false =>
    obtain ⟨hp, -, -, -, hsaw⟩ := hr
    simp only [Bool.false_eq_true, if_false]
    refine hp.answered (by simp) ?_
    obtain ⟨m, hm, hout⟩ := hsaw
    exact ⟨m, hm, by simpa [succeeds] using hout⟩

/-- The place `find` reports for a key that is absent: between `prev` and `cur`. -/
structure Gap (key : Int) (prev : Loc) (cur : Ptr) (w : W n) : Prop where
  prev : PrevOk key w.mem w.ghost prev
  cur : cur.addr ≠ 0 → cur.addr ∈ w.ghost.linked ∧ key < w.mem.key cur.addr

theorem Gap.trans {key : Int} {prev : Loc} {cur : Ptr} (h : Gap key prev cur w) {w' : W n} {j : Fin n}
    (ht : Trans j w.mem w.ghost w'.mem w'.ghost) : Gap key prev cur w' :=
  ⟨h.prev.trans ht, fun h0 => ⟨ht.linked (h.cur h0).1, by
    rw [Mem.key, ht.key _ (h.cur h0).1]; exact (h.cur h0).2⟩⟩

theorem stable_gap (key : Int) (prev : Loc) (cur : Ptr) :
    (proto n pool).Stable i (Gap key prev cur) :=
  fun _ _ _ _ _ _ ha h => h.trans ha.1

/-- A store to the entry that thread `i` is preparing. -/
theorem wp_prepare {upd : Mem → Mem} {a : Nat} (f : Entry → Entry) {key : Int} {prev : Loc} {cur : Ptr}
    {p q : Entry → Prop} {F : W n → Prop} (hF : Frame pool i F)
    (hupd : ∀ s, upd s = { s with node := Function.update s.node a (f (s.node a)) })
    (hp : ∀ e, p e → q (f e))
    (h : F w ∧ Gap key prev cur w ∧ w.ghost.owner a = some i ∧ p (w.mem.node a)) :
    (proto n pool).wp i (store upd)
      (fun _ w => F w ∧ Gap key prev cur w ∧ w.ghost.owner a = some i ∧ q (w.mem.node a)) w := by
  refine wp_step _ h (hF.stable.and ((stable_gap key prev cur).and (stable_held a p))) ?_
  rintro w ⟨hFw, hgap, hown, hpa⟩ hI
  obtain ⟨hS, hT, hK⟩ := hI.shape.store hown (f (w.mem.node a))
  rw [hupd]
  refine ⟨w.ghost, hS, hT, hK, hF.silent _ _ _ hFw, hgap.trans hT, hown, ?_⟩
  simpa only [World.next, Function.update_self] using hp _ hpa

theorem palloc_spec (hinj : Function.Injective pool) (hz : ∀ k, pool k ≠ 0) {key : Int} {prev : Loc}
    {cur : Ptr} {F : W n → Prop} (hF : Frame pool i F) (h : F w ∧ Gap key prev cur w) :
    (proto n pool).wp i palloc
      (fun p w => p.tag = false ∧ F w ∧ Gap key prev cur w ∧ w.ghost.owner p.addr = some i ∧ True) w := by
  refine wp_step _ h (hF.stable.and (stable_gap key prev cur)) ?_
  rintro w ⟨hFw, hgap⟩ hI
  obtain ⟨hS, hT⟩ := hI.shape.palloc (i := i) hinj hz
  exact ⟨_, hS, hT, rfl, rfl, hF.silent _ _ _ hFw, hgap.trans hT, Function.update_self .., trivial⟩

/-- The compare-and-swap that links the new entry. -/
theorem link_spec {key data : CInt} {prev : Loc} {cur new : Ptr} (htag : cur.tag = false)
    (hnew : new.tag = false)
    (h : Pending i (.insert key data) w ∧ Gap key.toInt prev cur w ∧ w.ghost.owner new.addr = some i ∧
      (w.mem.node new.addr).keyData = keyWord key ∧ (w.mem.node new.addr).nextEntry = cur) :
    (proto n pool).wp i (casWord prev cur new (some (.inserted key)))
      (fun ok w => if ok then Answered w.log i (.insert key data) true
        else Pending i (.insert key data) w) w := by
  have hF := frame_pending pool (i := i) (.insert key data)
  refine wp_cas _ h (hF.stable.and ((stable_gap key.toInt prev cur).and
    (stable_held new.addr fun e => e.keyData = keyWord key ∧ e.nextEntry = cur))) ?_ ?_
  · rintro w ⟨hp, hgap, hown, hkd, hnext⟩ hI hok
    have hcur : cur.addr = 0 ∨ cur.addr ∈ w.ghost.linked ∧ key.toInt < w.mem.key cur.addr :=
      or_iff_not_imp_left.2 hgap.cur
    obtain ⟨hS, hT, hout, hK⟩ := hI.shape.link hgap.prev hok htag hcur hown hkd hnext
    have hnew' : new = ⟨new.addr, false⟩ := Ptr.eq_of_addr hnew rfl rfl
    rw [← hnew'] at hS hT hK
    exact ⟨_, hS, hT, ⟨hout, hK⟩, hp.effect rfl rfl hout _ _⟩
  · rintro w ⟨hp, -⟩ - -
    exact hF.silent _ _ _ hp

theorem listInsert_spec (hinj : Function.Injective pool) (hz : ∀ k, pool k ≠ 0) (fuel : Nat)
    (key data : CInt) (h : Pending i (.insert key data) w) :
    (proto n pool).wp i (listInsert fuel key data)
      (fun b w => Answered w.log i (.insert key data) b) w := by
  refine Proto.wp_iter (fun _ => Pending i (.insert key data)) (fun _ w h => ?_) fuel () h
  rw [Proto.wp_bind]
  have hF := frame_pending pool (i := i) (.insert key data)
  refine Proto.wp_mono (find_spec hF fuel key h) fun r w hr => ?_
  obtain ⟨found, prev, cur, next⟩ := r
  cases found with
  | true =>
    obtain ⟨hp, -, -, m, hm, hin⟩ := hr
    exact hp.answered (by simp [effect]) ⟨m, hm, by simpa [succeeds] using hin⟩
  | false =>
    obtain ⟨hp, hprev, htag, hcur, -⟩ := hr
    simp only at hprev htag hcur
    simp only [Bool.false_eq_true, if_false, Proto.wp_bind]
    refine Proto.wp_mono (palloc_spec hinj hz hF ⟨hp, hprev, hcur⟩) fun new w ⟨hnew, hw⟩ => ?_
    rw [Proto.wp_bind]
    refine Proto.wp_mono (wp_prepare (fun e => { e with keyData := keyWord key })
      (p := fun _ => True) (q := fun e => e.keyData = keyWord key) hF (fun _ => rfl)
      (fun _ _ => rfl) hw) fun _ w hw => ?_
    rw [Proto.wp_bind]
    refine Proto.wp_mono (wp_prepare (fun e => { e with nextEntry := cur })
      (q := fun e => e.keyData = keyWord key ∧ e.nextEntry = cur) hF (fun _ => rfl)
      (fun _ he => ⟨he, rfl⟩) hw) fun _ w hw => ?_
    rw [Proto.wp_bind]
    refine Proto.wp_mono (link_spec htag hnew hw) fun ok w hw => ?_
    cases ok with
    | true => exact hw
    | false => exact hw

theorem listDelete_spec (hashOp : Bool) (fuel : Nat) (key : CInt) (h : Pending i (.delete key) w) :
    (proto n pool).wp i (listDelete hashOp fuel key)
      (fun b w => Answered w.log i (.delete key) b) w := by
  refine Proto.wp_iter (fun _ => Pending i (.delete key)) (fun _ w h => ?_) fuel () h
  rw [Proto.wp_bind]
  have hF := frame_pending pool (i := i) (.delete key)
  refine Proto.wp_mono (find_spec hF fuel key h) fun r w hr => ?_
  obtain ⟨found, prev, cur, next⟩ := r
  cases found with
  | false =>
    obtain ⟨hp, -, -, -, m, hm, hout⟩ := hr
    exact hp.answered (by simp) ⟨m, hm, by simpa [succeeds] using hout⟩
  | true =>
    obtain ⟨hp, hkey, htag, -⟩ := hr
    simp only at hkey htag
    simp only [Bool.true_eq_false, if_false, Proto.wp_bind]
    refine wp_cas _ ⟨hp, hkey⟩ (hF.stable.and (stable_key cur.addr (· = key.toInt))) ?_ ?_
    · rintro w ⟨hp, hc, hk⟩ hI hok
      obtain ⟨hS, hT, hin, hK⟩ := hI.shape.mark (i := i) hc hok htag hk
      refine ⟨_, hS, hT, ⟨hin, hK⟩, ?_⟩
      have ha := hp.effect rfl rfl hin (w.mem.setWord (.next cur.addr) (markDeleted next)) w.ghost
      cases hashOp with
      | false => exact ha
      | true =>
        simp only [if_true, Proto.wp_bind]
        exact Proto.wp_mono (find_spec (frame_answered pool _ true) fuel key ha)
          fun _ w hw => hw.1
    · rintro w ⟨hp, -⟩ - -
      exact hF.silent _ _ _ hp

theorem perform_spec (hinj : Function.Injective pool) (hz : ∀ k, pool k ≠ 0) (hashOp : Bool)
    (fuel : Nat) (op : Op) (h : Pending i op w) :
    (proto n pool).wp i (perform hashOp fuel op) (fun b w => Answered w.log i op b) w := by
  cases op with
  | insert key data => exact listInsert_spec hinj hz fuel key data h
  | delete key => exact listDelete_spec hashOp fuel key h
  | search key => exact listSearch_spec fuel key h

theorem client_spec (hinj : Function.Injective pool) (hz : ∀ k, pool k ≠ 0) (hashOp : Bool)
    (fuel : Nat) (ops : List Op) :
    (proto n pool).wp i (client hashOp fuel ops) (fun _ _ => True) w := by
  refine Proto.wp_mono (Proto.wp_forEach (fun _ _ => True) (fun op _ w _ => ?_) ops trivial)
    fun _ _ h => h
  rw [Proto.wp_bind]
  refine wp_step (fun _ => True) trivial (Proto.stable_const True) fun w _ hI => ⟨w.ghost, hI.shape, .refl .., rfl, ?_⟩
  rw [Proto.wp_ret, Proto.wp_bind]
  have hpend : Pending i op (w.next i (some (.call op)) w.mem w.ghost) := by
    simp [Pending, World.next, lastCall, effects, window, callOf]
  refine Proto.wp_mono (perform_spec hinj hz hashOp fuel op hpend) fun b w ha => ?_
  exact wp_step _ ha (frame_answered pool op b).stable
    fun w ha hI => ⟨w.ghost, hI.shape, .refl .., ⟨rfl, ha⟩, trivial⟩

/-! ## Runs -/

/-- A list that no thread has touched yet, and an allocator whose entries are all new. -/
structure Start (s : Mem) : Prop where
  headTag : s.entryHead.tag = false
  chain : ∃ l, Walk s.cells.succ 0 l ∧ s.cells.Sorted l ∧ ∀ k, s.brk ≤ k → s.pool k ∉ l
  fresh : Function.Injective s.pool
  pool_ne : ∀ k, s.pool k ≠ 0

theorem Start.inv {s : Mem} (h : Start s) :
    ∃ g : Ghost (Fin n), Inv s.pool (⟨s, [], g⟩ : W n) := by
  obtain ⟨l, hw, hso, hl⟩ := h.chain
  have h0 : 0 ∉ l := fun h => hw.ne_zero h rfl
  refine ⟨⟨{a | a ∈ l}, fun _ => none⟩, ⟨rfl, h.headTag, h0, ?_, ?_, ?_,
    l, hw, hso, fun _ ha => ha, fun _ ha _ => ha⟩, ?_, trivial⟩
  · intro a ha
    have hs := hw.succ_mem (List.mem_cons_of_mem 0 ha)
    rwa [cells_succ_next (hw.ne_zero ha)] at hs
  · exact fun k hk => ⟨hl k hk, rfl⟩
  · intro a i h; cases h
  · rintro a (⟨l', hw', ha⟩ | ⟨r, hr, -⟩)
    · exact hw'.unique hw ▸ ha
    · cases hr

/-- The chain from the head is finite and strictly sorted, an unmarked entry that was ever
inserted is on it, and every step so far was `StepOk`. -/
structure Linearizable (c : Cfg (Fin n) Mem Ev) : Prop where
  sorted : ∃ l, Walk c.mem.cells.succ 0 l ∧ c.mem.cells.Sorted l
  reachable : ∀ a, Inserted c.log c.mem a → isDeleted (c.mem.node a).nextEntry = false → Linked c.mem a
  steps : Along StepOk c.log

theorem Inv.linearizable {c : Cfg (Fin n) Mem Ev} {g : Ghost (Fin n)} (hI : Inv pool ⟨c.mem, c.log, g⟩) : Linearizable c := by
  obtain ⟨l, hw, hso, -⟩ := hI.shape.chain
  exact ⟨⟨l, hw, hso⟩, fun a ha hd => hI.shape.reach_of_linked (hI.inserted a ha) hd, hI.steps⟩

theorem Start.reach_inv {s : Mem} (hs : Start s) {hashOp : Bool} {fuel : Fin n → Nat} {ops : Fin n → List Op}
    {c : Cfg (Fin n) Mem Ev} (hc : Cfg.Reach (.init s fun i => client hashOp (fuel i) (ops i)) c) :
    ∃ g, Inv s.pool (⟨c.mem, c.log, g⟩ : W n) := by
  obtain ⟨g0, h0⟩ := hs.inv (n := n)
  have hallow := (proto n s.pool).allowed_of_forall (fun _ _ => trivial) c.log
  have hthr := fun i => client_spec (i := i) (w := ⟨s, [], g0⟩) hs.fresh hs.pool_ne hashOp (fuel i) (ops i)
  exact Proto.adequacy h0 hthr hc hallow

/-- **The list is a linearizable sorted set**, in every state of every run. -/
theorem reach_linearizable {s : Mem} (hs : Start s) (hashOp : Bool) (fuel : Fin n → Nat)
    (ops : Fin n → List Op) {c : Cfg (Fin n) Mem Ev}
    (hc : Cfg.Reach (.init s fun i => client hashOp (fuel i) (ops i)) c) : Linearizable c := by
  obtain ⟨g, hI⟩ := hs.reach_inv hc
  exact hI.linearizable

/-- An empty list whose allocator hands out the addresses from 1 on. -/
def emptyList : Mem := ⟨NULL, fun _ => ⟨0, NULL⟩, fun k => k + 1, 0⟩

theorem start_emptyList : Start emptyList where
  headTag := rfl
  chain := ⟨[], rfl, List.pairwise_singleton _ _, fun _ _ h => by cases h⟩
  fresh := fun _ _ h => Nat.succ.inj h
  pool_ne := Nat.succ_ne_zero

theorem reach_linearizable_emptyList :
    Linearizable ((Cfg.init emptyList fun i : Fin 2 =>
      client true 9 (if i = 0 then [.insert 3 7, .delete 3] else [.search 3])).exec [0, 1, 0, 0, 1, 0]) :=
  reach_linearizable start_emptyList true (fun _ => 9)
    (fun i => if i = 0 then [.insert 3 7, .delete 3] else [.search 3]) ⟨_, rfl⟩

end OptimisticAccess.NoRecl
