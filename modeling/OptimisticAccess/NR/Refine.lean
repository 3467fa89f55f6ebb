import OptimisticAccess.NR.Pool
import OptimisticAccess.NoRecl.Linear

/-!
# The list over `allocatorNR.c`

`palloc` is refined by the allocator of `NoRecl`, whose results are a fixed stream: the stream is
chosen once the run is over, and the step that takes the object out of the cache is the one that
moves on in it.
-/

namespace OptimisticAccess.NR

open Conc Prog
open AOA (AllocEntry VerEntry Popped entriesPerCache nodeSize chunkSize headerSize)

variable {n : Nat} {α β : Type} {addr : Nat → Nat} {m : Nat} {allow : Log n → Rec (Fin n) (Mem n) Ev → Prop} {i : Fin n}

/-! ## Rules -/

/-- The steps of the other threads keep `A`. -/
def Private (i : Fin n) (A : W n → Prop) : Prop := ∀ w w', Keeps i w w' → A w → A w'

variable {A : W n → Prop} {B : α → W n → Prop}

theorem Private.stable (hA : Private i A) : (proto addr m allow).Stable i A :=
  fun _ w w' hj _ _ hact h => hA w w' (hact i fun e => hj e.symm) h

theorem spec_step {ev : Mem n → Option Ev} {upd : Mem n → Mem n} {k : Mem n → P n α} (hA : Private i A)
    (h : ∀ w, A w → Inv addr m w → ∃ g, Acts addr m i w (w.next i (ev w.mem) (upd w.mem) g) ∧
      (proto addr m allow).wp i (k w.mem) B (w.next i (ev w.mem) (upd w.mem) g)) :
    (proto addr m allow).Triple i A (Prog.step ev upd k) B := by
  intro w hw
  refine Proto.wp_step A hw hA.stable fun w hw hI _ => ?_
  obtain ⟨g, hacts, hk⟩ := h w hw hI
  exact ⟨g, hacts.1, hacts.2, hk⟩

theorem quiet_refl (s : Mem n) : Quiet s none s := ⟨rfl, rfl, rfl⟩

theorem spec_cas {ok : Mem n → Prop} [DecidablePred ok] {upd : Mem n → Mem n} {e : Option Ev} {B : Bool → W n → Prop}
    (hA : Private i A) (hB : Private i (B false))
    (hyes : ∀ w, A w → Inv addr m w → ok w.mem → ∃ g, Acts addr m i w (w.next i e (upd w.mem) g) ∧ B true (w.next i e (upd w.mem) g))
    (hno : ∀ w, A w → Inv addr m w → ¬ ok w.mem → B false w) :
    (proto addr m allow).Triple i A (Prog.cas ok upd e) B := by
  refine spec_step hA fun w hw hI => ?_
  by_cases h : ok w.mem
  · simp only [if_pos h, decide_eq_true h]
    exact hyes w hw hI h
  · simp only [if_neg h, decide_eq_false h]
    obtain ⟨hI', hk⟩ := (quiet_refl w.mem).acts (i := i) hI
    exact ⟨w.ghost, ⟨hI', fun j _ => hk j⟩, hB w _ (hk i) (hno w hw hI h)⟩

theorem spec_load {f : Mem n → α} (hA : Private i A) (hB : ∀ a, Private i (B a)) (h : ∀ w, A w → Inv addr m w → B (f w.mem) w) :
    (proto addr m allow).Triple i A (Prog.load f) B := by
  refine spec_step hA fun w hw hI => ?_
  obtain ⟨hI', hk⟩ := (quiet_refl w.mem).acts (i := i) hI
  exact ⟨w.ghost, ⟨hI', fun j _ => hk j⟩, hB _ w _ (hk i) (h w hw hI)⟩

/-! ## The functions of the allocator -/

/-- The cache of thread `i` is spent, or there is none. -/
def Bare (i : Fin n) (w : W n) : Prop :=
  ∀ e, w.mem.alloc_cache i = some e → w.ghost.owner e = some i ∧ (w.mem.entries e).free = 0

/-- Every cache that thread `i` has got is installed. -/
def Ready (i : Fin n) (w : W n) : Prop := got i w.log = w.mem.alloc_cache i

/-- Thread `i` has got cache `e` and will install it. -/
structure Has (i : Fin n) (e : Nat) (w : W n) : Prop where
  owner : w.ghost.owner e = some i
  got : got i w.log = some e
  bare : Bare i w

/-- What `pop` says. -/
def Answer (i : Fin n) (w : W n) : Popped → Prop
  | .entry e => Has i e w
  | .null => (Ready i w ∧ Bare i w) ∧ w.ghost.stack = []
  | .recycleNeeded => False

theorem private_bare : Private i (Bare i) := by
  intro w w' hk h e he
  obtain ⟨hown, hfree⟩ := h e (hk.cache ▸ he)
  exact ⟨hk.owner e hown, hk.entry e hown ▸ hfree⟩

theorem private_ready : Private i (Ready i) := fun _ _ hk h => hk.got.trans (h.trans hk.cache.symm)

theorem private_dry : Private i fun w : W n => w.ghost.stack = [] := by
  intro w w' hk h
  refine List.eq_nil_iff_forall_not_mem.2 fun e he => ?_
  exact List.not_mem_nil (h ▸ (hk.stack e he).1)

theorem Private.and {R : W n → Prop} (hA : Private i A) (hR : Private i R) : Private i fun w => A w ∧ R w :=
  fun w w' hk h => ⟨hA w w' hk h.1, hR w w' hk h.2⟩

theorem private_const (p : Prop) : Private i fun _ : W n => p := fun _ _ _ h => h

theorem private_has {e : Nat} : Private i (Has i e) := fun w w' hk h =>
  ⟨hk.owner e h.owner, hk.got.trans h.got, private_bare w w' hk h.bare⟩

/-- A descriptor still on the stack has the `next` it had. -/
theorem private_next {e : Nat} {v : Option Nat} :
    Private i fun w : W n => e ∈ w.ghost.stack → next w.mem e = v := by
  intro w w' hk h he
  obtain ⟨he, hentry⟩ := hk.stack e he
  exact (congrArg AllocEntry.next hentry).trans (h he)

theorem Ready.keep {w : W n} (hr : Ready i w) (d : Nat) (hd : got i w.log = some d) :
    w.mem.alloc_cache i = some d ∨ (w.mem.entries d).free = 0 := .inl (hr.symm.trans hd)

theorem pop_spec (fuel : Nat) :
    (proto addr m allow).Triple i (fun w => Ready i w ∧ Bare i w) (pop fuel 0) fun r w => Answer i w r := by
  have hR : Private i fun w : W n => Ready i w ∧ Bare i w := private_ready.and private_bare
  refine Proto.Triple.iter (J := fun _ w => Ready i w ∧ Bare i w) (fun _ => ?_) fuel ()
  refine Proto.Triple.bind (B := fun head w => (Ready i w ∧ Bare i w) ∧ (head = none → w.ghost.stack = []))
    (spec_load hR (fun head => ?_) fun w hw hI => ⟨hw, fun h => hI.empty h⟩) fun head => ?_
  · exact hR.and fun w w' hk h hn => private_dry w w' hk (h hn)
  have hS : Private i fun w : W n => (Ready i w ∧ Bare i w) ∧ (head = none → w.ghost.stack = []) :=
    hR.and fun w w' hk h hn => private_dry w w' hk (h hn)
  refine Proto.Triple.bind (B := fun v w => v = 0 ∧ (Ready i w ∧ Bare i w) ∧ (head = none → w.ghost.stack = []))
    (spec_load hS (fun v => (private_const _).and hS) fun w hw hI => ⟨hI.ver, hw⟩) fun v => ?_
  refine Proto.Triple.fact (fun w hw => hw.1) fun hv => ?_
  subst hv
  rw [if_neg (fun h => h rfl)]
  cases head with
  | none => exact .ret fun w hw => ⟨hw.2.1, hw.2.2 rfl⟩
  | some e =>
    refine Proto.Triple.bind (B := fun v w => (Ready i w ∧ Bare i w) ∧ (e ∈ w.ghost.stack → next w.mem e = v))
      (spec_load ((private_const _).and hS) (fun v => hR.and private_next) fun w hw _ => ⟨hw.2.1, fun _ => rfl⟩) fun v => ?_
    have hN : Private i fun w : W n => (Ready i w ∧ Bare i w) ∧ (e ∈ w.ghost.stack → next w.mem e = v) := hR.and private_next
    refine Proto.Triple.bind (B := fun ok w => if ok then Has i e w else Ready i w ∧ Bare i w)
      (spec_cas hN hR (fun w hw hI hok => ?_) fun w hw _ _ => hw.1) fun ok => ?_
    · have hhead : w.mem.head.head = some e := congrArg VerEntry.head hok
      obtain ⟨g, hacts, hown⟩ := hI.pop hhead hw.1.1.keep
      rw [hw.2 (hhead ▸ hI.linked).mem_of_some] at hacts
      refine ⟨g, hacts, hown, got_cons_some rfl rfl, fun d hd => ?_⟩
      exact ⟨hacts.1.cache i d hd, (hw.1.2 d hd).2⟩
    · cases ok with
      | true => exact .ret fun w hw => hw
      | false => exact .ret fun w hw => hw

/-- What was got is installed. -/
theorem install_spec (e : Nat) :
    (proto addr m allow).Triple i (Has i e) (store (·.setCache i e)) fun _ w => Ready i w ∧ w.ghost.owner e = some i :=
  spec_step private_has fun w hw hI =>
    ⟨w.ghost, hI.install hw.owner hw.got fun d hd => (hw.bare d hd).2,
      (got_cons rfl).trans (hw.got.trans Mem.setCache_self.symm), hw.owner⟩

theorem refill_spec (fuel : Nat) :
    (proto addr m allow).Triple i (fun w => Ready i w ∧ Bare i w) (refill i fuel) fun _ => Ready i := by
  have hR : Private i fun w : W n => Ready i w ∧ Bare i w := private_ready.and private_bare
  refine Proto.Triple.bind (B := fun v w => v = 0 ∧ Ready i w ∧ Bare i w)
    (spec_load hR (fun _ => (private_const _).and hR) fun w hw hI => ⟨hI.localVer i, hw⟩) fun v => ?_
  refine Proto.Triple.fact (fun w hw => hw.1) fun hv => ?_
  subst hv
  refine Proto.Triple.bind ((pop_spec fuel).pre fun w hw => hw.2) fun r => ?_
  have hmalloc : (proto addr m allow).Triple i (fun w => (Ready i w ∧ Bare i w) ∧ w.ghost.stack = [])
      (do
        let mem ← atomic (fun s => s.malloc s.mallocs) fun s => { s with mallocs := s.mallocs + 1 }
        let e ← step (fun s => some (.created s.brk)) (·.createEntry mem nodeSize) fun s => ret s.brk
        store (·.setCache i e) : P n Unit) fun _ => Ready i := by
    refine Proto.Triple.bind (B := fun mem w => ∃ b, mem = addr b ∧ (Ready i w ∧ Bare i w) ∧ w.ghost.taker b = some i ∧
      ∀ e < w.mem.brk, w.ghost.block e ≠ b) (spec_step (hR.and private_dry) fun w hw hI => ?_) fun mem => ?_
    · obtain ⟨g, b, hacts, hb, -, htaker, hunused⟩ := hI.malloc_step (i := i) hw.2
      refine ⟨g, hacts, b, hb, ⟨?_, fun d hd => ?_⟩, htaker, hunused⟩
      · exact (got_cons rfl).trans hw.1.1
      · exact ⟨hacts.1.cache i d hd, (hw.1.2 d hd).2⟩
    refine Proto.Triple.exists fun b => Proto.Triple.fact (fun w hw => hw.1) fun hmem => ?_
    subst hmem
    refine Proto.Triple.bind (B := fun e => Has i e) (spec_step ?_ fun w hw hI => ?_) fun e =>
      (install_spec e).post fun _ w hw => hw.1
    · intro w w' hk hw
      exact ⟨rfl, hR w w' hk hw.2.1, hk.taker b hw.2.2.1, hk.unused b hw.2.2.1 hw.2.2.2⟩
    · obtain ⟨-, ⟨hready, hbare⟩, htaker, hunused⟩ := hw
      obtain ⟨g, hacts, hown⟩ := hI.create htaker hunused hready.keep
      refine ⟨g, hacts, hown, got_cons_some rfl rfl, fun d hd => ?_⟩
      have hlt := hI.owned d i (hI.cache i d hd)
      refine ⟨hacts.1.cache i d hd, ?_⟩
      rw [World.next_mem, Mem.createEntry_old _ _ hlt]
      exact (hbare d hd).2
  cases r with
  | entry e =>
    refine Proto.Triple.bind (install_spec e) fun _ => spec_step ?_ fun w hw hI => ?_
    · exact fun w w' hk hw => ⟨private_ready w w' hk hw.1, hk.owner e hw.2⟩
    · exact ⟨w.ghost, hI.unlink hw.2, (got_cons rfl).trans hw.1⟩
  | null => exact hmalloc
  | recycleNeeded => exact fun w hw => hw.elim

/-! ## The refinement -/

def Ev.ofList : Ev → Option NoRecl.Ev
  | .list e => some e
  | _ => none

/-- The object that a step serves is the next one of `pool`. -/
def Serves (pool : Nat → Nat) (log : Log n) (r : Rec (Fin n) (Mem n) Ev) : Prop :=
  ∀ x, r.ev = some (.served x) → pool (served log).length = x.addr

/-- The list of `NoRecl` with what has been served of `pool`. -/
def simulation (addr : Nat → Nat) (m : Nat) (pool : Nat → Nat) (spec : Cfg (Fin n) NoRecl.Mem NoRecl.Ev) :
    Simulation (Fin n) (Mem n) Ev (Ghost n) NoRecl.Mem NoRecl.Ev where
  base := proto addr m (Serves pool)
  spec := spec
  rel s log l := l = ⟨s.entryHead, s.node, pool, (served log).length⟩
  vis := Ev.ofList

variable {pool : Nat → Nat} {spec : Cfg (Fin n) NoRecl.Mem NoRecl.Ev}

/-- The words of the list are the same. -/
def SameWords (s s' : NoRecl.Mem) : Prop := s.entryHead = s'.entryHead ∧ s.node = s'.node

/-- Nothing has been allocated. -/
def SamePool (s s' : NoRecl.Mem) : Prop := s'.pool = s.pool ∧ s'.brk = s.brk

/-- A function of the list that does not allocate. -/
structure Plain (p : Prog NoRecl.Mem NoRecl.Ev α) : Prop where
  words : p.Respects SameWords
  pool : p.Obeys fun s _ s' => SamePool s s'

theorem Plain.refines {p : Prog NoRecl.Mem NoRecl.Ev α} (hp : Plain p) :
    (simulation addr m pool spec).Refines i (Ready i) (onList p) p fun _ => Ready i := by
  refine .within hp.words hp.pool private_ready.stable (fun _ => rfl) ?_ ?_
  · rintro w _ - rfl
    exact ⟨rfl, rfl⟩
  · rintro w _ x x' e hready hI rfl ⟨hhead, hnode⟩ ⟨hpool, hbrk⟩
    have hq : Quiet w.mem (Option.map Ev.list e) (Mem.setList x w.mem) := by
      cases e <;> exact ⟨rfl, rfl, rfl⟩
    obtain ⟨hI', hk⟩ := hq.acts (i := i) hI
    refine ⟨w.ghost, hI', fun j _ => hk j, ?_, private_ready w _ (hk i) hready⟩
    have hserved : served (w.next i (Option.map Ev.list e) (Mem.setList x w.mem) w.ghost).log = served w.log :=
      served_cons hq.serves
    change x' = ⟨x.entryHead, x.node, pool, (served (w.next i (Option.map Ev.list e) (Mem.setList x w.mem) w.ghost).log).length⟩
    rw [hserved, hhead, hnode]
    exact congrArg₂ (NoRecl.Mem.mk x'.entryHead x'.node) hpool hbrk

namespace Plain

variable {p q : Prog NoRecl.Mem NoRecl.Ev α}

theorem ret (a : α) : Plain (.ret a) := ⟨trivial, trivial⟩

theorem load {f : NoRecl.Mem → α} (hf : ∀ s s', SameWords s s' → f s = f s') : Plain (Prog.load f) :=
  ⟨respects_load hf, obeys_load fun _ => ⟨rfl, rfl⟩⟩

theorem store {upd : NoRecl.Mem → NoRecl.Mem} (hupd : ∀ s s', SameWords s s' → SameWords (upd s) (upd s'))
    (hpool : ∀ s, SamePool s (upd s)) : Plain (Prog.store upd) :=
  ⟨respects_store hupd, obeys_store hpool⟩

theorem bind {f : α → Prog NoRecl.Mem NoRecl.Ev β} (hp : Plain p) (hf : ∀ a, Plain (f a)) : Plain (p >>= f) :=
  ⟨respects_bind hp.words fun a => (hf a).words, obeys_bind hp.pool fun a => (hf a).pool⟩

theorem ite {c : Prop} [Decidable c] (hp : Plain p) (hq : Plain q) : Plain (if c then p else q) :=
  ⟨respects_ite hp.words hq.words, obeys_ite (fun _ => hp.pool) fun _ => hq.pool⟩

theorem iter {body : β → Prog NoRecl.Mem NoRecl.Ev (β ⊕ α)} (h : ∀ b, Plain (body b)) (fuel : Nat) (b : β) :
    Plain (Prog.iter body fuel b) :=
  ⟨respects_iter (fun b => (h b).words) fuel b, obeys_iter (fun b => (h b).pool) fuel b⟩

end Plain

theorem SameWords.word {s s' : NoRecl.Mem} (h : SameWords s s') (loc : Loc) : s.word loc = s'.word loc := by
  cases loc with
  | head => exact h.1
  | next a => exact congrArg (fun node => (node a).nextEntry) h.2

theorem SameWords.setWord {s s' : NoRecl.Mem} (h : SameWords s s') (loc : Loc) (p : Ptr) :
    SameWords (s.setWord loc p) (s'.setWord loc p) := by
  cases loc with
  | head => exact ⟨rfl, h.2⟩
  | next a =>
    refine ⟨h.1, ?_⟩
    simp only [NoRecl.Mem.setWord, h.2]

theorem samePool_setWord (s : NoRecl.Mem) (loc : Loc) (p : Ptr) : SamePool s (s.setWord loc p) := by
  cases loc <;> exact ⟨rfl, rfl⟩

theorem plain_word (loc : Loc) : Plain (Prog.load (·.word loc)) := .load fun _ _ h => h.word loc

theorem plain_node {f : Entry → α} (a : Nat) : Plain (Prog.load fun s => f (s.node a)) :=
  .load fun _ _ h => congrArg (fun node => f (node a)) h.2

theorem plain_casWord (loc : Loc) (old new : Ptr) (e : Option NoRecl.Ev) : Plain (NoRecl.casWord loc old new e) :=
  ⟨respects_cas (fun _ _ h => by rw [h.word loc]) fun _ _ h => h.setWord loc new,
    obeys_cas (fun _ => ⟨rfl, rfl⟩) fun s _ => samePool_setWord s loc new⟩

theorem plain_setWord (loc : Loc) (p : Ptr) : Plain (Prog.store fun s => s.setWord loc p) :=
  .store (fun _ _ h => h.setWord loc p) fun s => samePool_setWord s loc p

theorem plain_setKeyData (a : Nat) (kd : BitVec 64) : Plain (Prog.store fun s => s.setKeyData a kd) :=
  .store (fun _ _ h => ⟨h.1, by simp only [NoRecl.Mem.setKeyData, h.2]⟩) fun _ => ⟨rfl, rfl⟩

theorem plain_find (fuel : Nat) (key : CInt) : Plain (NoRecl.find fuel key) := by
  refine .iter (fun fres => ?_) fuel none
  cases fres with
  | none => exact (plain_word .head).bind fun cur => .ret _
  | some fres =>
    refine .ite (.ret _) (.bind (plain_node (f := Entry.nextEntry) _) fun next => .ite ?_ ?_)
    · exact (plain_casWord ..).bind fun ok => .ite (.ret _) (.ret _)
    · exact (plain_node (f := Entry.keyData) _).bind fun kd => (plain_word _).bind fun p =>
        .ite (.ret _) (.ite (.ret _) (.ret _))

theorem plain_listSearch (fuel : Nat) (key : CInt) : Plain (NoRecl.listSearch fuel key) := by
  refine (plain_find fuel key).bind fun r => ?_
  obtain ⟨found, fres⟩ := r
  exact .ite ((plain_node (f := fun e => getData e.keyData) _).bind fun _ => .ret _) (.ret _)

theorem plain_listDelete (hashOp : Bool) (fuel : Nat) (key : CInt) : Plain (NoRecl.listDelete hashOp fuel key) := by
  refine .iter (fun _ => (plain_find fuel key).bind fun r => ?_) fuel ()
  obtain ⟨found, fres⟩ := r
  refine .ite (.ret _) ((plain_casWord ..).bind fun ok => .ite (.ite ?_ (.ret _)) (.ret _))
  exact (plain_find fuel key).bind fun _ => .ret _

/-- A step that the list does not see and that serves nothing. -/
def Unseen (s : Mem n) (e : Option Ev) (s' : Mem n) : Prop :=
  e.bind Ev.ofList = none ∧ e.bind Ev.servedObj = none ∧ s'.entryHead = s.entryHead ∧ s'.node = s.node

theorem Unseen.silent {s s' : Mem n} {e : Option Ev} (h : Unseen s e s') : (simulation addr m pool spec).Silent s e s' := by
  obtain ⟨hlist, hserved, hhead, hnode⟩ := h
  refine ⟨hlist, ?_⟩
  rintro log j _ rfl
  have hs : served (⟨j, s, e, s'⟩ :: log) = served log := served_cons hserved
  simp only [simulation, hs, hhead, hnode]

theorem Unseen.load {f : Mem n → α} : Obeys Unseen (Prog.load f : P n α) := obeys_load fun _ => ⟨rfl, rfl, rfl, rfl⟩

theorem unseen_pop (fuel : Nat) (ver : Int) : Obeys Unseen (pop fuel ver : P n Popped) := by
  refine obeys_iter (fun _ => obeys_bind Unseen.load fun head => obeys_bind Unseen.load fun v => obeys_ite (fun _ => obeys_ret _) fun _ => ?_) _ _
  cases head with
  | none => trivial
  | some e =>
    refine obeys_bind Unseen.load fun next => obeys_bind (obeys_cas (fun _ => ⟨rfl, rfl, rfl, rfl⟩) fun _ _ => ⟨rfl, rfl, rfl, rfl⟩) fun ok => ?_
    cases ok <;> trivial

theorem unseen_refill (fuel : Nat) : Obeys Unseen (refill i fuel) := by
  have hmalloc : Obeys Unseen (do
      let mem ← atomic (fun s => s.malloc s.mallocs) fun s => { s with mallocs := s.mallocs + 1 }
      let e ← step (fun s => some (.created s.brk)) (·.createEntry mem nodeSize) fun s => ret s.brk
      store (·.setCache i e) : P n Unit) :=
    obeys_bind (obeys_atomic fun _ => ⟨rfl, rfl, rfl, rfl⟩) fun _ =>
      obeys_bind (obeys_step (fun _ => ⟨rfl, rfl, rfl, rfl⟩) fun _ => trivial) fun _ => obeys_store fun _ => ⟨rfl, rfl, rfl, rfl⟩
  refine obeys_bind Unseen.load fun v => obeys_bind (unseen_pop fuel v) fun r => ?_
  cases r with
  | entry e => exact obeys_bind (obeys_store fun _ => ⟨rfl, rfl, rfl, rfl⟩) fun _ => obeys_store fun _ => ⟨rfl, rfl, rfl, rfl⟩
  | null => exact hmalloc
  | recycleNeeded => exact hmalloc

theorem palloc_refines (hapart : Apart addr) (fuel : Nat) :
    (simulation addr m pool spec).Refines i (Ready i) (palloc i fuel) NoRecl.palloc fun _ => Ready i := by
  refine Simulation.Refines.loop (J := fun _ => Ready i) (fun _ rest hagain hdone => ?_) fuel ()
  rw [Prog.bind_assoc]
  refine .silent (B := fun c w => Ready i w ∧ w.mem.alloc_cache i = c)
    (spec_load private_ready (fun c => ?_) fun w hw _ => ⟨hw, rfl⟩) (Unseen.load.mono fun _ _ _ h => h.silent) fun c => ?_
  · exact private_ready.and fun w w' hk h => hk.cache.trans h
  have hrefill : (simulation addr m pool spec).Refines i (fun w => Ready i w ∧ Bare i w)
      (refill i fuel >>= fun _ => rest (.inl ())) NoRecl.palloc fun _ => Ready i :=
    .silent (refill_spec fuel) ((unseen_refill fuel).mono fun _ _ _ h => h.silent) fun _ => hagain ()
  cases c with
  | none =>
    rw [Prog.bind_assoc]
    refine hrefill.pre fun w hw => ⟨hw.1, fun e he => ?_⟩
    exact absurd (hw.2.symm.trans he) (Option.some_ne_none e).symm
  | some e =>
    rw [Prog.bind_assoc]
    have hcached : Private i fun w : W n => Ready i w ∧ w.mem.alloc_cache i = some e :=
      private_ready.and fun w w' hk h => hk.cache.trans h
    have hfree : ∀ v, Private i fun w : W n => (Ready i w ∧ w.mem.alloc_cache i = some e) ∧
        w.ghost.owner e = some i ∧ (w.mem.entries e).free = v :=
      fun v => hcached.and fun w w' hk h => ⟨hk.owner e h.1, (congrArg AllocEntry.free (hk.entry e h.1)).trans h.2⟩
    refine .silent (spec_load hcached hfree fun w hw hI => ⟨hw, hI.cache i e hw.2, rfl⟩)
      (Unseen.load.mono fun _ _ _ h => h.silent) fun v => ?_
    by_cases hv : v > 0
    · simp only [if_pos hv, Prog.step_bind]
      refine .step (hfree v).stable ?_
      rintro w _ ⟨⟨hready, hcache⟩, hown, hv'⟩ hI rfl hok
      subst hv'
      obtain ⟨hI', hk⟩ := hI.serve hapart hcache hv
      have hserved : served (⟨i, w.mem, some (.served ((w.mem.entries e).ptrs ((w.mem.entries e).free - 1))),
          w.mem.setEntry e fun c => { c with free := c.free - 1 }⟩ :: w.log) = _ :: served w.log := served_cons_some rfl
      have htop : (w.mem.entries e).ptrs ((w.mem.entries e).free - 1) = ⟨pool (served w.log).length, false⟩ := by
        refine Ptr.eq_of_addr ?_ rfl (hok _ rfl).symm
        have hlt := hI.owned e i hown
        have hle := hI.free e hlt
        rw [hI.ptrs e hlt _ (by omega), object]
      refine ⟨w.ghost, hI', hk, ?_, rfl, ?_⟩
      · simp only [simulation, World.next_log, hserved]
        rfl
      · simp only [Prog.ret_bind, Prog.pure_eq, hdone, htop]
        refine .ret fun w' hw' => ?_
        rw [hw']
        exact (got_cons rfl).trans hready
    · simp only [if_neg hv]
      rw [Prog.bind_assoc]
      refine hrefill.pre fun w hw => ⟨hw.1.1, fun d hd => ?_⟩
      obtain rfl : e = d := Option.some.inj (hw.1.2.symm.trans hd)
      exact ⟨hw.2.1, hw.2.2.trans (Nat.eq_zero_of_not_pos hv)⟩

theorem listInsert_refines (hapart : Apart addr) (fuel : Nat) (key data : CInt) :
    (simulation addr m pool spec).Refines i (Ready i) (listInsert i fuel key data) (NoRecl.listInsert fuel key data) fun _ => Ready i := by
  refine .iter (J := fun _ => Ready i) (fun _ => ?_) fuel ()
  refine (plain_find fuel key).refines.bind fun r => ?_
  obtain ⟨found, fres⟩ := r
  refine .ite (fun _ => .ret fun _ hw => hw) fun _ => (palloc_refines hapart fuel).bind fun newEntry => ?_
  refine (plain_setKeyData ..).refines.bind fun _ => (plain_setWord ..).refines.bind fun _ =>
    (plain_casWord ..).refines.bind fun ok => ?_
  exact .ite (fun _ => .ret fun _ hw => hw) fun _ => .ret fun _ hw => hw

theorem perform_refines (hapart : Apart addr) (hashOp : Bool) (fuel : Nat) (op : Op) :
    (simulation addr m pool spec).Refines i (Ready i) (perform hashOp i fuel op) (NoRecl.perform hashOp fuel op) fun _ => Ready i := by
  cases op with
  | insert key data => exact listInsert_refines hapart fuel key data
  | delete key => exact (plain_listDelete hashOp fuel key).refines
  | search key => exact (plain_listSearch fuel key).refines

theorem plain_emit (e : NoRecl.Ev) : Plain (Prog.emit e) :=
  ⟨fun _ _ h => ⟨rfl, h, rfl, trivial⟩, obeys_emit fun _ => ⟨rfl, rfl⟩⟩

theorem client_refines (hapart : Apart addr) (hashOp : Bool) (fuel : Nat) (ops : List Op) :
    (simulation addr m pool spec).Refines i (Ready i) (client hashOp i fuel ops) (NoRecl.client hashOp fuel ops) fun _ => Ready i :=
  .forEach (fun op => (plain_emit (.call op)).refines.bind fun _ => (perform_refines hapart hashOp fuel op).bind fun b =>
    (plain_emit (.ret op b)).refines) ops

end OptimisticAccess.NR
