import OptimisticAccess.AOA.Footprint
import OptimisticAccess.Conc.Alone

/-!
# Tracing a root that is an array

Threads that clear and trace one array root, each for the phases it is given, in any order and at
any time. What a thread knows about the mark table survives the others because every word of it
only grows. The helping pass of `finishTraceArr` covers an array of at least 32 chunks; a shorter
one it does not look at.
-/

namespace OptimisticAccess.AOA.ArrayRoot

open Conc Prog Stamp

variable {n len : Nat}

/-- The words of the mark table, the synchronization counter included. -/
def tableWords (len : Nat) : Nat := (len + entriesPerWord - 1) / entriesPerWord + 1

/-- Thread `i` traces the array once for each phase of `vs`. -/
def tracer (i : Fin n) (fuel len : Nat) (vs : List Nat) : P n Unit :=
  forEach (fun v => do
    store (·.setLocal i ({ · with localVer := v }))
    clearRootsMark i fuel
    traceArr i fuel 0 len) vs

/-- The table belongs to the phase of `localSweep`. -/
def InPhase (len : Nat) (table : Nat → U64) (localSweep : U64) : Prop :=
  ∀ k < tableWords len, isCurPhase (table k) localSweep

/-- How often bit `bit` of word `word` was signed in the phase of `localSweep`. -/
def signCount (log : List (Rec (Fin n) (Mem n) Ev)) (word bit : Nat) (localSweep : U64) : Nat :=
  log.countP fun r => r.ev = some (.signed 0 word bit localSweep)

/-- What the return of `traceArr` promises: if the phase is still that of the table, each chunk is
signed, and was signed once. -/
def ArrTraced (len : Nat) (log : List (Rec (Fin n) (Mem n) Ev)) (r : Rec (Fin n) (Mem n) Ev) : Prop :=
  ∀ localSweep, r.ev = some (.arrTraced 0 localSweep) →
    InPhase len (r.pre.arr_marktable 0) localSweep → ∀ ctr < len / arrEntriesPerBit,
      (r.pre.arr_marktable 0 (ctr / 32 + 1)).getLsbD (ctr % 32) = true ∧
        signCount log (ctr / 32) (ctr % 32) localSweep = 1

/-- One array root of length `len`, registered and never traced. -/
structure Start (len : Nat) (s : Mem n) : Prop where
  rootLen : s.rootLen = [len]
  table : s.arr_marktable 0 = fun _ => 0#64

abbrev W (n : Nat) := World (Fin n) (Mem n) Ev Unit

/-- The signatures in the log are the bits of the table. -/
def Counted (log : List (Rec (Fin n) (Mem n) Ev)) (table : Nat → U64) : Prop :=
  ∀ word bit v, bit < 32 →
    (hi (table (word + 1)) = v % 2 ^ 32 →
      signCount log word bit (empty v) = if (table (word + 1)).getLsbD bit then 1 else 0) ∧
    (hi (table (word + 1)) < v % 2 ^ 32 → signCount log word bit (empty v) = 0)

structure Inv (len : Nat) (w : W n) : Prop where
  rootLen : w.mem.rootLen = [len]
  counted : Counted w.log (w.mem.arr_marktable 0)
  steps : Along (ArrTraced len) w.log

def proto (n len : Nat) : Proto (Fin n) (Mem n) Ev Unit where
  inv := Inv len
  act i w w' := (∀ k, Grow (w.mem.arr_marktable 0 (k + 1)) (w'.mem.arr_marktable 0 (k + 1))) ∧
    ∀ j, j ≠ i → (w'.mem.locals j).localVer = (w.mem.locals j).localVer

/-- What thread `i` knows: its phase, and a fact about the table. -/
def At (i : Fin n) (v : Nat) (A : (Nat → U64) → Prop) (w : W n) : Prop :=
  (w.mem.locals i).localVer = v ∧ A (w.mem.arr_marktable 0)

/-- A fact about the table that stays true while its words grow. -/
def Mono (A : (Nat → U64) → Prop) : Prop :=
  ∀ t t' : Nat → U64, (∀ k, Grow (t (k + 1)) (t' (k + 1))) → A t → A t'

/-- A fact that no other thread can take away: it is monotone, or there is no other thread. -/
def Safe (n : Nat) (A : (Nat → U64) → Prop) : Prop := n ≤ 1 ∨ Mono A

variable {i : Fin n} {v fuel : Nat} {w : W n} {A B : (Nat → U64) → Prop}

theorem stable_at (hA : Safe n A) : (proto n len).Stable i (At i v A) := by
  rintro j w w' hj - - ⟨hgrow, hver⟩ ⟨hv, ha⟩
  rcases hA with hn | hA
  · exact absurd (Fin.ext (by omega)) hj
  · exact ⟨(hver i fun e => hj e.symm).trans hv, hA _ _ hgrow ha⟩

/-- The events of the table. -/
def onTable : Option Ev → Bool
  | some (.signed ..) | some (.arrTraced ..) => true
  | _ => false

/-- A step that leaves the table, the phases and the log of the table alone. -/
structure Calm (s : Mem n) (e : Option Ev) (s' : Mem n) : Prop where
  table : s'.arr_marktable = s.arr_marktable
  rootLen : s'.rootLen = s.rootLen
  localVer : ∀ j, (s'.locals j).localVer = (s.locals j).localVer
  ev : onTable e = false

theorem Calm.refl (s : Mem n) : Calm s none s := ⟨rfl, rfl, fun _ => rfl, rfl⟩

theorem signCount_cons_of_ne {log : List (Rec (Fin n) (Mem n) Ev)} {r : Rec (Fin n) (Mem n) Ev}
    (h : ∀ word bit sw, r.ev ≠ some (.signed 0 word bit sw)) (word bit : Nat) (sw : U64) :
    signCount (r :: log) word bit sw = signCount log word bit sw := by
  simp [signCount, h]

theorem ne_signed {e : Option Ev} (h : onTable e = false) (word bit : Nat) (sw : U64) :
    e ≠ some (.signed 0 word bit sw) := by
  rintro rfl
  cases h

/-- The step rule. -/
theorem wp_step {α : Type} {ev : Mem n → Option Ev} {upd : Mem n → Mem n} {k : Mem n → P n α}
    {Q : α → W n → Prop} (F : W n → Prop) (hF : F w) (hs : (proto n len).Stable i F)
    (h : ∀ w, F w → Inv len w → (upd w.mem).rootLen = w.mem.rootLen ∧
      Counted (⟨i, w.mem, ev w.mem, upd w.mem⟩ :: w.log) ((upd w.mem).arr_marktable 0) ∧
      ArrTraced len w.log ⟨i, w.mem, ev w.mem, upd w.mem⟩ ∧
      (∀ k, Grow (w.mem.arr_marktable 0 (k + 1)) ((upd w.mem).arr_marktable 0 (k + 1))) ∧
      (∀ j, j ≠ i → ((upd w.mem).locals j).localVer = (w.mem.locals j).localVer) ∧
      (proto n len).wp i (k w.mem) Q (w.next i (ev w.mem) (upd w.mem) ())) :
    (proto n len).wp i (.step ev upd k) Q w := by
  refine Proto.wp_step F hF hs fun w hF hI _ => ?_
  obtain ⟨hroot, hcount, htr, hgrow, hver, hk⟩ := h w hF hI
  exact ⟨(), ⟨hroot.trans hI.rootLen, hcount, hI.steps, htr⟩, ⟨hgrow, hver⟩, hk⟩

theorem Inv.calm (hI : Inv len w) {e : Option Ev} {s' : Mem n} (h : Calm w.mem e s') :
    s'.rootLen = w.mem.rootLen ∧ Counted (⟨i, w.mem, e, s'⟩ :: w.log) (s'.arr_marktable 0) ∧
      ArrTraced len w.log ⟨i, w.mem, e, s'⟩ ∧
      (∀ k, Grow (w.mem.arr_marktable 0 (k + 1)) (s'.arr_marktable 0 (k + 1))) ∧
      ∀ j, j ≠ i → (s'.locals j).localVer = (w.mem.locals j).localVer := by
  refine ⟨h.rootLen, fun word bit v hb => ?_, fun sw hev => ?_, ?_, fun j _ => h.localVer j⟩
  · rw [signCount_cons_of_ne (ne_signed h.ev), h.table]
    exact hI.counted word bit v hb
  · have hev' := h.ev
    rw [show e = _ from hev] at hev'
    cases hev'
  · rw [h.table]
    exact fun k => .refl _

/-- A load. -/
theorem wp_load {α : Type} {f : Mem n → α} {Q : α → W n → Prop} (F : W n → Prop) (hF : F w)
    (hs : (proto n len).Stable i F)
    (h : ∀ w, F w → Inv len w → Q (f w.mem) (w.next i none w.mem ())) :
    (proto n len).wp i (load f) Q w := by
  refine wp_step F hF hs fun w hF hI => ?_
  obtain ⟨h1, h2, h3, h4, h5⟩ := hI.calm (i := i) (Calm.refl w.mem)
  exact ⟨h1, h2, h3, h4, h5, h w hF hI⟩

theorem setTable_zero (s : Mem n) (k : Nat) (x : U64) :
    (s.setTable 0 k x).arr_marktable 0 = Function.update (s.arr_marktable 0) k x := by
  simp [Mem.setTable]

/-- A word that is replaced by an empty one of a newer phase. -/
theorem Counted.renew {log : List (Rec (Fin n) (Mem n) Ev)} {t : Nat → U64} (hc : Counted log t)
    {k : Nat} (h : ¬ empty v ≤ t k) : Counted log (Function.update t k (empty v)) := by
  intro word bit u hb
  rw [empty_le_iff, not_le] at h
  by_cases e : word + 1 = k
  · subst e
    rw [Function.update_self, hi_empty, getLsbD_empty hb]
    refine ⟨fun hv => ?_, fun hv => ?_⟩
    · exact (hc word bit u hb).2 (hv ▸ h)
    · exact (hc word bit u hb).2 (h.trans hv)
  · rw [Function.update_of_ne e]
    exact hc word bit u hb

/-- Word 0 holds the counter and no signatures. -/
theorem Counted.counter {log : List (Rec (Fin n) (Mem n) Ev)} {t : Nat → U64} (hc : Counted log t)
    (x : U64) : Counted log (Function.update t 0 x) := by
  intro word bit u hb
  rw [Function.update_of_ne (Nat.succ_ne_zero word)]
  exact hc word bit u hb

theorem Counted.cons {log : List (Rec (Fin n) (Mem n) Ev)} {t : Nat → U64} (hc : Counted log t)
    {r : Rec (Fin n) (Mem n) Ev} (hr : ∀ word bit sw, r.ev ≠ some (.signed 0 word bit sw)) :
    Counted (r :: log) t := by
  intro word bit u hb
  rw [signCount_cons_of_ne hr]
  exact hc word bit u hb

/-- A signature: the bit was clear and is set, and the log has one signature more. -/
theorem Counted.sign {log : List (Rec (Fin n) (Mem n) Ev)} {t : Nat → U64} (hc : Counted log t)
    {word bit : Nat} (hb : bit < 32) (hcur : hi (t (word + 1)) = v % 2 ^ 32)
    (hclear : (t (word + 1)).getLsbD bit = false) {r : Rec (Fin n) (Mem n) Ev}
    (hr : r.ev = some (.signed 0 word bit (empty v))) :
    Counted (r :: log) (Function.update t (word + 1) (t (word + 1) ||| Stamp.bit bit)) := by
  intro word' bit' u hb'
  have hone : signCount (r :: log) word' bit' (empty u) = signCount log word' bit' (empty u) +
      if word' = word ∧ bit' = bit ∧ u % 2 ^ 32 = v % 2 ^ 32 then 1 else 0 := by
    have hev : r.ev = some (.signed 0 word' bit' (empty u)) ↔
        word' = word ∧ bit' = bit ∧ u % 2 ^ 32 = v % 2 ^ 32 := by
      rw [hr]
      constructor
      · intro e
        injection e with e
        injection e with _ e1 e2 e3
        have e4 := congrArg hi e3
        rw [hi_empty, hi_empty] at e4
        exact ⟨e1.symm, e2.symm, e4.symm⟩
      · rintro ⟨rfl, rfl, e⟩
        have : empty u = empty v := by
          apply BitVec.eq_of_toNat_eq
          rw [toNat_empty, toNat_empty, e]
        rw [this]
    by_cases hx : r.ev = some (.signed 0 word' bit' (empty u))
    · rw [if_pos (hev.1 hx), signCount, List.countP_cons_of_pos (by simpa using hx)]
      rfl
    · rw [if_neg (fun h => hx (hev.2 h)), signCount, List.countP_cons_of_neg (by simpa using hx)]
      rfl
  obtain ⟨h1, h2⟩ := hc word' bit' u hb'
  by_cases e : word' = word
  · subst e
    rw [Function.update_self, hi_or_bit hb, getLsbD_or_bit (by omega), hone]
    refine ⟨fun hv => ?_, fun hv => ?_⟩
    · by_cases e : bit' = bit
      · subst e
        have huv : u % 2 ^ 32 = v % 2 ^ 32 := hv.symm.trans hcur
        rw [h1 hv, hclear, if_neg Bool.false_ne_true]
        simp only [huv, and_self, if_true, Bool.false_or, decide_true]
      · rw [h1 hv]
        simp [e]
    · rw [h2 hv, if_neg]
      rintro ⟨-, -, e⟩
      omega
  · rw [Function.update_of_ne (by omega), hone, if_neg fun h => e h.1]
    exact ⟨h1, h2⟩

/-- Word `k` has reached phase `v`. -/
def Reached (v k : Nat) (t : Nat → U64) : Prop := v % 2 ^ 32 ≤ hi (t k)

/-- Word `k` has reached phase `v`, and if it is still there then bit `bit` is signed. -/
def Signed (v word bit : Nat) (t : Nat → U64) : Prop :=
  Reached v (word + 1) t ∧ (hi (t (word + 1)) = v % 2 ^ 32 → (t (word + 1)).getLsbD bit = true)

theorem Mono.and (hA : Mono A) (hB : Mono B) : Mono fun t => A t ∧ B t :=
  fun t t' hg h => ⟨hA t t' hg h.1, hB t t' hg h.2⟩

theorem Safe.and (hA : Safe n A) (hB : Mono B) : Safe n fun t => A t ∧ B t :=
  hA.imp_right fun hA => hA.and hB

theorem At.calm (h : At i v A w) {e : Option Ev} {s' : Mem n} (hc : Calm w.mem e s') :
    At i v A (w.next i e s' ()) :=
  ⟨(hc.localVer i).trans h.1, by simp only [World.next, hc.table]; exact h.2⟩

theorem At.load (h : At i v A w) {e : Option Ev} : At i v A (w.next i e w.mem ()) := h

/-- `A`, and the bit is signed if `A` knows that the word has reached the phase. -/
def SignedIf (A : (Nat → U64) → Prop) (v word bit : Nat) (t : Nat → U64) : Prop :=
  A t ∧ ((∀ t, A t → Reached v (word + 1) t) → Signed v word bit t)

/-- Signing a bit of a word does not take `A` away. -/
def Signable (A : (Nat → U64) → Prop) (v word bit : Nat) : Prop :=
  ∀ t, A t → hi (t (word + 1)) = v % 2 ^ 32 →
    A (Function.update t (word + 1) (t (word + 1) ||| Stamp.bit bit))

theorem Signable.and {word bit : Nat} (hA : Signable A v word bit) (hB : Signable B v word bit) :
    Signable (fun t => A t ∧ B t) v word bit :=
  fun t ht e => ⟨hA t ht.1 e, hB t ht.2 e⟩

/-- Every word of signatures has reached phase `v`. -/
def Cleared (len v : Nat) (t : Nat → U64) : Prop := ∀ k, k + 1 < tableWords len → Reached v (k + 1) t

/-- Some word is in a later phase. -/
def Passed (len v : Nat) (t : Nat → U64) : Prop := ∃ k, k + 1 < tableWords len ∧ v % 2 ^ 32 < hi (t (k + 1))

theorem Mono.or (hA : Mono A) (hB : Mono B) : Mono fun t => A t ∨ B t :=
  fun t t' hg h => h.imp (hA t t' hg) (hB t t' hg)

theorem Mono.imp {p : Prop} (hA : p → Mono A) : Mono fun t => p → A t :=
  fun t t' hg ht hp => hA hp t t' hg (ht hp)

theorem beyond_eq_false {ctr : U64} :
    beyond ctr len = false ↔ scounter ctr * arrEntriesPerBit % 2 ^ 32 < len := by
  unfold beyond
  rw [decide_eq_false_iff_not, ge_iff_le, not_le]

/-- The counter still has a chunk for phase `v`. -/
def Open (len v : Nat) (ctr : U64) : Prop := beyond ctr len = false ∧ hi ctr = v % 2 ^ 32

/-- Between two phases: the words agree on the phase, and the chunks handed out are signed. -/
structure Rest (len : Nat) (t : Nat → U64) : Prop where
  agree : ∀ k < tableWords len, hi (t k) = hi (t 0)
  bound : scounter (t 0) ≤ len / arrEntriesPerBit
  signed : ∀ ctr < scounter (t 0), (t (ctr / 32 + 1)).getLsbD (ctr % 32) = true

/-- Chunk `c` has been handed out and not been signed. -/
structure Taken (len v c : Nat) (t : Nat → U64) : Prop where
  agree : ∀ k < tableWords len, hi (t k) = v % 2 ^ 32
  ctr : scounter (t 0) = c + 1
  bound : c < len / arrEntriesPerBit
  signed : ∀ ctr < c, (t (ctr / 32 + 1)).getLsbD (ctr % 32) = true

theorem chunk_word {ctr : Nat} (h : ctr < len / arrEntriesPerBit) : ctr / 32 + 1 < tableWords len := by
  simp only [tableWords, arrEntriesPerBit, entriesPerWord] at h ⊢
  omega

theorem Rest.cleared {t : Nat → U64} (h : Rest len t) (hv : v % 2 ^ 32 ≤ hi (t 0)) : Cleared len v t :=
  fun k hk => by rw [Reached, h.agree _ hk]; exact hv

theorem Rest.take {t : Nat → U64} (hint : len < 2 ^ 31) (hdvd : arrEntriesPerBit ∣ len) (h : Rest len t)
    (hopen : Open len v (t 0)) :
    Taken len v ((t 0).toNat % 2 ^ 31) (Function.update t 0 (t 0 + 1)) := by
  obtain ⟨hb, hv⟩ := hopen
  have hbound := h.bound
  have hlt := (t 0).isLt
  rw [beyond_eq_false] at hb
  simp only [scounter, arrEntriesPerBit] at hb hbound
  unfold hi at hv
  have hadd : (t 0 + 1).toNat = (t 0).toNat + 1 := by
    rw [BitVec.toNat_add, show (1 : U64).toNat = 1 from rfl]
    omega
  have hc : (t 0).toNat % 2 ^ 31 = scounter (t 0) := by
    unfold scounter
    omega
  refine ⟨fun k hk => ?_, ?_, ?_, fun ctr hctr => ?_⟩
  · by_cases e : k = 0
    · subst e
      rw [Function.update_self, hi, hadd]
      omega
    · rw [Function.update_of_ne e, h.agree k hk]
      exact hv
  · rw [Function.update_self, hc]
    unfold scounter
    rw [hadd]
    omega
  · rw [hc]
    simp only [scounter, arrEntriesPerBit] at hdvd ⊢
    omega
  · rw [Function.update_of_ne (Nat.succ_ne_zero _)]
    exact h.signed ctr (hc ▸ hctr)

theorem Taken.done {c : Nat} {t : Nat → U64} (h : SignedIf (Taken len v c) v (c / 32) (c % 32) t) :
    Rest len t ∧ v % 2 ^ 32 ≤ hi (t 0) := by
  obtain ⟨hT, hs⟩ := h
  have h0 := hT.agree 0 (Nat.succ_pos _)
  have hs := hs fun t ht => (ht.agree _ (chunk_word ht.bound)).ge
  refine ⟨⟨fun k hk => (hT.agree k hk).trans h0.symm, ?_, fun ctr hctr => ?_⟩, h0.ge⟩
  · rw [hT.ctr]; exact hT.bound
  · rw [hT.ctr] at hctr
    rcases Nat.lt_succ_iff_lt_or_eq.1 hctr with hctr | rfl
    · exact hT.signed ctr hctr
    · exact hs.2 (hT.agree _ (chunk_word hT.bound))

/-- While the words are cleared in order: nothing to do, or the first `k` words are done. -/
def Clearing (len v k : Nat) (t : Nat → U64) : Prop :=
  (Rest len t ∧ (v % 2 ^ 32 ≤ hi (t 0) ∨ k = 0)) ∨
    (0 < k ∧ (∀ j < k, t j = empty v) ∧ ∀ j, k ≤ j → j < tableWords len → hi (t j) < v % 2 ^ 32)

theorem Clearing.done {t : Nat → U64} (h : Clearing len v (tableWords len) t) :
    Rest len t ∧ v % 2 ^ 32 ≤ hi (t 0) := by
  rcases h with ⟨hr, hv⟩ | ⟨-, h, -⟩
  · exact ⟨hr, hv.resolve_right (Nat.succ_ne_zero _)⟩
  · have h0 := h 0 (Nat.succ_pos _)
    have hs : scounter (t 0) = 0 := by
      rw [h0, scounter, toNat_empty]
      exact Nat.mul_mod_left _ _
    refine ⟨⟨fun k hk => by rw [h k hk, h0], by rw [hs]; exact Nat.zero_le _, fun ctr hctr => ?_⟩, ?_⟩
    · rw [hs] at hctr
      exact absurd hctr (Nat.not_lt_zero _)
    · rw [h0, hi_empty]

/-- A thread that keeps `A` through each phase keeps it through all of them. -/
theorem tracer_spec (hA : Safe n A)
    (hphase : ∀ v w, At i v A w → (proto n len).wp i (do clearRootsMark i fuel; traceArr i fuel 0 len)
      (fun _ => At i v A) w) (vs : List Nat) (h : A (w.mem.arr_marktable 0)) :
    (proto n len).wp i (tracer i fuel len vs) (fun _ _ => True) w := by
  refine Proto.wp_mono (Proto.wp_forEach (fun _ w => ∃ v, At i v A w) (fun v _ w ⟨u, h⟩ => ?_) vs
    ⟨_, rfl, h⟩) fun _ _ _ => trivial
  rw [Proto.wp_bind]
  refine wp_step _ h (stable_at hA) fun w h hI => ⟨rfl, hI.counted.cons (ne_signed rfl), fun _ e => (by cases e),
    fun _ => .refl _, fun j hj => ?_, ?_⟩
  · simp only [Mem.setLocal, Function.update_of_ne hj]
  · rw [Proto.wp_ret]
    refine Proto.wp_mono (hphase v _ ⟨?_, h.2⟩) fun _ w h => ⟨v, h⟩
    simp only [World.next, Mem.setLocal, Function.update_self]

theorem Start.inv {s : Mem n} (h : Start len s) : Inv len (⟨s, [], ()⟩ : W n) := by
  refine ⟨h.rootLen, fun word bit v _ => ⟨fun _ => ?_, fun _ => rfl⟩, trivial⟩
  simp [h.table, signCount]

theorem Start.rest {s : Mem n} (h : Start len s) : Rest len (s.arr_marktable 0) := by
  rw [h.table]
  refine ⟨fun _ _ => rfl, Nat.zero_le _, fun ctr hctr => absurd hctr ?_⟩
  simp [scounter]

/-- An empty array in phase 2 of which chunk 0 is taken and not signed. -/
structure Stuck (len : Nat) (s : Mem n) : Prop where
  rootLen : s.rootLen = [len]
  roots : ∀ k, s.roots 0 k = NULL
  counter : hi (s.arr_marktable 0 0) = 2 ∧ 0 < scounter (s.arr_marktable 0 0) ∧ scounter (s.arr_marktable 0 0) ≤ 32
  word : hi (s.arr_marktable 0 1) = 2 ∧ (s.arr_marktable 0 1).getLsbD 0 = false

theorem ends_clearWord {s : Mem n} {get : Mem n → U64} {set : U64 → Mem n → Mem n} {x : U64}
    {Q : Unit → Mem n → Prop} (hfuel : 0 < fuel) (hkeep : x ≤ get s → Q () s)
    (hset : ¬ x ≤ get s → Q () (set x s)) : Ends (clearWord fuel get set x) s Q := by
  obtain ⟨fuel, rfl⟩ := Nat.exists_eq_add_of_lt hfuel
  rw [Nat.zero_add, clearWord, iter, ends_bind, ends_bind, ends_load]
  by_cases h : x ≤ get s
  · rw [if_pos h]
    exact ends_ret.2 (ends_ret.2 (hkeep h))
  · rw [if_neg h, ends_bind]
    exact ends_cas (fun _ => ends_ret.2 (ends_ret.2 (hset h))) fun hne => absurd rfl hne

theorem ends_copyPartOfArr {s : Mem n} (h : ∀ k, s.roots 0 k = NULL) {begin : Nat} :
    Ends (copyPartOfArr i 0 begin) s fun counter s' => counter = 0 ∧ s' = s := by
  refine (ends_foldRange (fun _ c s' => c = 0 ∧ s' = s) ?_ ⟨rfl, rfl⟩).mono fun _ _ h => h
  rintro k _ c s' ⟨rfl, rfl⟩
  rw [ends_bind, ends_load, if_pos (h _)]
  exact ends_ret.2 ⟨rfl, rfl⟩

theorem Stuck.setSlot {s : Mem n} (h : Stuck len s) (k : Nat) (p : Ptr) : Stuck len (s.setSlot i k p) := by
  exact ⟨h.rootLen, h.roots, h.counter, h.word⟩

theorem Stuck.sign {s : Mem n} (h : Stuck len s) {bit : Nat} (hb : bit < 32) (hb0 : bit ≠ 0) :
    Stuck len (s.setTable 0 1 (s.arr_marktable 0 1 ||| Stamp.bit bit)) := by
  refine ⟨h.rootLen, h.roots, ?_, ?_⟩
  · rw [setTable_zero, Function.update_of_ne (by decide)]
    exact h.counter
  · rw [setTable_zero, Function.update_self, hi_or_bit hb, getLsbD_or_bit (by decide), h.word.2]
    exact ⟨h.word.1, by simpa using hb0.symm⟩

theorem ends_sign_bit {s : Mem n} (hfuel : 0 < fuel) (h : Stuck len s) {bit : Nat} (hb : bit < 32)
    (hb0 : bit ≠ 0) :
    Ends (sign_bit fuel 0 0 bit (empty 2)) s fun _ s' => Stuck len s' ∧ s'.arr_marktable 0 0 = s.arr_marktable 0 0 := by
  obtain ⟨fuel, rfl⟩ := Nat.exists_eq_add_of_lt hfuel
  have hcur : isCurPhase (s.arr_marktable 0 1) (empty 2) = true := (isCurPhase_empty _ _).2 h.word.1
  rw [Nat.zero_add, sign_bit, iter, ends_bind, ends_bind, ends_load, if_neg (by simp [hcur])]
  split
  · exact ends_ret.2 (ends_ret.2 ⟨h, rfl⟩)
  · rw [ends_bind]
    refine ends_cas (fun _ => ends_ret.2 (ends_ret.2 ⟨h.sign hb hb0, ?_⟩)) fun hne => absurd rfl hne
    rw [setTable_zero, Function.update_of_ne (by decide)]

theorem ends_traceMarkstack_zero {s : Mem n} {sw : U64} {Q : Unit → Mem n → Prop} (hfuel : 0 < fuel)
    (h : Q () s) : Ends (traceMarkstack i fuel 0 sw) s Q := by
  obtain ⟨fuel, rfl⟩ := Nat.exists_eq_add_of_lt hfuel
  rw [Nat.zero_add, traceMarkstack, iter, ends_bind, if_neg (by decide)]
  exact ends_ret.2 (ends_ret.2 h)

theorem ends_traceChunk {s : Mem n} (hfuel : 0 < fuel) (h : Stuck len s) {bit : Nat} (hb : bit < 32)
    (hb0 : bit ≠ 0) :
    Ends (traceChunk i fuel 0 0 bit (empty 2)) s fun _ s' =>
      Stuck len s' ∧ s'.arr_marktable 0 0 = s.arr_marktable 0 0 := by
  have hfinish : ∀ {s' : Mem n}, Stuck len s' ∧ s'.arr_marktable 0 0 = s.arr_marktable 0 0 →
      Ends (finishSlot i) s' fun _ s' => Stuck len s' ∧ s'.arr_marktable 0 0 = s.arr_marktable 0 0 := by
    intro s' hs
    rw [finishSlot, ends_bind, slot, ends_load, setSlot, ends_store]
    exact ⟨hs.1.setSlot _ _, hs.2⟩
  rw [traceChunk, ends_bind]
  refine (ends_copyPartOfArr h.roots).mono ?_
  rintro _ _ ⟨rfl, rfl⟩
  rw [ends_bind, slot, ends_load, ends_bind, AOA.setSlot, ends_store, ends_bind]
  refine (ends_sign_bit hfuel (h.setSlot 0 _) hb hb0).mono fun ok s' hs => ?_
  cases ok with
  | true =>
    rw [if_pos rfl, ends_bind]
    exact ends_traceMarkstack_zero hfuel (hfinish hs)
  | false =>
    rw [if_neg (by simp)]
    exact hfinish hs

/-- Counting on from a counter that has chunks left. -/
theorem scounter_succ {x : U64} (h : scounter x < 2 ^ 31) : hi (x + 1) = hi x ∧ scounter (x + 1) = scounter x + 1 := by
  have hlt := x.isLt
  unfold scounter hi at *
  rw [BitVec.toNat_add, show (1 : U64).toNat = 1 from rfl]
  omega

/-- `clearRootsMark` in phase 2, one word of the table after the other. -/
theorem ends_clearRootsMark {s : Mem n} (hfuel : 0 < fuel) (hlen : len ≠ 1) (J : Nat → Mem n → Prop)
    (hroot : ∀ k s, J k s → s.rootLen = [len]) (hver : ∀ k s, J k s → (s.locals i).localVer = 2)
    (hkeep : ∀ k < tableWords len, ∀ s, J k s → empty 2 ≤ s.arr_marktable 0 k → J (k + 1) s)
    (hset : ∀ k < tableWords len, ∀ s, J k s → ¬ empty 2 ≤ s.arr_marktable 0 k →
      J (k + 1) (s.setTable 0 k (empty 2))) (h : J 0 s) :
    Ends (clearRootsMark i fuel) s fun _ s' => J (tableWords len) s' := by
  rw [clearRootsMark, ends_bind, ends_load, hroot 0 s h, forEach, ends_bind, if_pos hlen, ends_bind,
    ends_load, hver 0 s h]
  refine (ends_forRange (m := tableWords len) J (fun k hk s h => ?_) h).mono fun _ _ h => ends_ret.2 h
  exact ends_clearWord hfuel (hkeep k hk s h) (hset k hk s h)

/-- What the first thread does before it takes a chunk. -/
def enter (i : Fin n) (fuel : Nat) : P n Nat := do
  store (·.setLocal i ({ · with localVer := 2 }))
  clearRootsMark i fuel
  load fun s => (s.locals i).localVer

end OptimisticAccess.AOA.ArrayRoot
