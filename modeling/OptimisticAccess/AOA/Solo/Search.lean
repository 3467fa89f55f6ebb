import OptimisticAccess.AOA.Solo.Lists

/-!
# Searching with one thread

`find` comes to its end at the first entry that is not deleted and not below the key, or at the end of
the list. On its way it unlinks what is deleted.
-/

namespace OptimisticAccess.AOA.Solo

open Conc Prog
open Store (Sound At Unlinked Searched)

/-- Between two operations: no warning is pending. -/
structure Idle (heapmem rootLen : List Nat) (home : CInt → Nat × Nat) (v : Nat) (s : Mem 1) (chain : Nat × Nat → List Nat) : Prop
    extends Client heapmem rootLen home v s chain where
  clean : ∀ i, (s.dirties i).dirty = false

variable {heapmem rootLen : List Nat} {home : CInt → Nat × Nat} {s s' s₀ : Mem 1} {i : Fin 1} {v fuel a k : Nat} {p : Ptr} {w : Word}
  {chain chain₀ chain' : Nat × Nat → List Nat} {b : Nat × Nat} {key : CInt} {rest : List Nat} {fres : ThreadLocal} {T : Prop}

/-! ## Warnings and hazard pointers -/

theorem dirty_clean (d : DirtyRecord) : d.clean.dirty = false := by
  refine decide_eq_false (not_not.2 (BitVec.eq_of_getLsbD_eq fun k hk => ?_))
  have hmask : (0xFFFFFFFFFFFFFF00#64).getLsbD k = false := by
    have : k = 0 ∨ k = 1 ∨ k = 2 ∨ k = 3 ∨ k = 4 ∨ k = 5 ∨ k = 6 ∨ k = 7 := by omega
    obtain rfl | rfl | rfl | rfl | rfl | rfl | rfl | rfl := this <;> decide
  rw [BitVec.getLsbD_setWidth, DirtyRecord.clean, BitVec.getLsbD_and, hmask, Bool.and_false, Bool.and_false, BitVec.getLsbD_zero]

theorem Idle.fence (h : Idle heapmem rootLen home v s chain) : Idle heapmem rootLen home v (s.setDirty i (·.clean)) chain := by
  refine { h.toClient.keep h.toRest.clean rfl h.out with clean := fun j => ?_ }
  rw [setDirty_eq]
  exact dirty_clean _

theorem Client.setHP (h : Client heapmem rootLen home v s chain) (hp : p = NULL ∨ Obj heapmem p) :
    Client heapmem rootLen home v (s.setHP i k p) chain :=
  h.keep (h.toRest.setHP hp) rfl h.out

theorem dirty_setHP {j : Fin 1} : ((s.setHP i k p).dirties j).dirty = (s.dirties j).dirty := by
  rw [Mem.setHP, setDirty_eq]
  rfl

theorem Idle.setHP (h : Idle heapmem rootLen home v s chain) (hp : p = NULL ∨ Obj heapmem p) : Idle heapmem rootLen home v (s.setHP i k p) chain :=
  { h.toClient.setHP hp with clean := fun j => dirty_setHP.trans (h.clean j) }

theorem Idle.clearHPs (h : Idle heapmem rootLen home v s chain) : Idle heapmem rootLen home v (((s.setHP i 2 NULL).setHP i 1 NULL).setHP i 0 NULL) chain :=
  ((h.setHP (.inl rfl)).setHP (.inl rfl)).setHP (.inl rfl)

theorem watched_CHECK {Q : Bool → Mem 1 → Prop} (h : Idle heapmem rootLen home v s chain) (hQ : Q false s) : Watched T Good (CHECK i fuel) s Q := by
  have hclean := h.clean i
  refine watched_bind.2 (watched_watch ?_ ?_)
  · rw [hclean]
    exact .refl rfl s
  · rw [hclean, if_neg Bool.false_ne_true]
    exact hQ

theorem watched_FENCE_CHECK {Q : Bool → Mem 1 → Prop} {newEntry : Option Ptr} (h : Idle heapmem rootLen home v s chain)
    (hnew : ∀ q, newEntry = some q → q ≠ NULL) (hQ : Q false (s.setDirty i (·.clean))) : Watched T Good (FENCE_CHECK i fuel newEntry) s Q := by
  have hclean := h.clean i
  refine watched_bind.2 (watched_step.2 ⟨?_, ?_⟩)
  · simp only [hclean, if_neg Bool.false_ne_true]
    refine ⟨rfl, fun hord b => hord b, rfl, fun q localVer he => ?_, fun q he => ?_, fun he => ?_⟩
    · cases he
    · exact hnew q (Ev.fenced.inj (Option.some.inj he))
    · cases he
  · simp only [hclean]
    exact hQ

theorem watched_setHP {Q : Unit → Mem 1 → Prop} (h : Q () (s.setHP i k p)) : Watched T Good (setHP i k p) s Q :=
  watched_store (.of_apart ⟨rfl, rfl, rfl⟩) h

theorem watched_clearHPs {Q : Unit → Mem 1 → Prop} (h : Q () (((s.setHP i 2 NULL).setHP i 1 NULL).setHP i 0 NULL)) : Watched T Good (clearHPs i) s Q :=
  watched_bind.2 (watched_setHP (watched_bind.2 (watched_setHP (watched_setHP h))))

theorem watched_read {α : Type} {f : Mem 1 → α} {Q : α → Mem 1 → Prop} (h : Q (f s) s) : Watched T Good (load f) s Q := watched_load (.refl rfl s) h

theorem hazards_clearHPs : hazards (((s.setHP i 2 NULL).setHP i 1 NULL).setHP i 0 NULL) = [] := by
  refine List.eq_nil_iff_forall_not_mem.2 fun p hp => ?_
  obtain ⟨hne, k, hk, rfl⟩ := mem_hazards.1 hp
  refine hne ?_
  obtain rfl : i = ⟨0, Nat.one_pos⟩ := Subsingleton.elim _ _
  simp only [Mem.setHP, Mem.setDirty, Function.update_self]
  obtain rfl | rfl | rfl : k = 0 ∨ k = 1 ∨ k = 2 := by omega
  all_goals rfl

/-! ## Words of a list -/

theorem word_setWord : (s.setWord w p).word w = p := by
  rw [← word_linkOf, store_setWord, Store.word_setWord]

theorem pooled_setWord {x : Ptr} : Pooled (s.setWord w p) x ↔ Pooled s x := by cases w <;> exact Iff.rfl

theorem clearPtr_of_obj (hp : p = NULL ∨ Obj heapmem p) : clearPtr p = p := by
  obtain rfl | hp := hp
  · rfl
  · exact clearPtr_of_tag hp.tag

/-- Pointers without a mark may be written anywhere. -/
theorem permitted (hp : p = NULL ∨ Obj heapmem p) : Permitted heapmem rootLen (.setWord w p) := by
  have hclear := clearPtr_of_obj hp
  cases w with
  | root r k => exact fun len _ => ⟨fun _ => by rwa [hclear], fun _ => hp⟩
  | next a => exact show clearPtr p = NULL ∨ Obj heapmem (clearPtr p) by rwa [hclear]

theorem Client.next_obj (h : Client heapmem rootLen home v s chain) (ha : a ∈ chain b) :
    clearDeleted (s.node a).nextEntry = NULL ∨ Obj heapmem (clearDeleted (s.node a).nextEntry) := h.graph.child _ (h.obj b a ha)

/-- Where a search stands that has started in `s₀`. -/
structure Standing (heapmem rootLen : List Nat) (home : CInt → Nat × Nat) (v : Nat) (key : CInt) (s₀ : Mem 1) (chain₀ : Nat × Nat → List Nat)
    (fres : ThreadLocal) (s : Mem 1) (chain : Nat × Nat → List Nat) (rest : List Nat) : Prop extends Idle heapmem rootLen home v s chain where
  place : At (store s) chain (home key) key.toInt (linkOf fres.prev) rest
  searched : Searched home key (store s₀) chain₀ (store s) chain rest
  cur : fres.cur = s.word fres.prev
  pooled : ∀ x, Pooled s x ↔ Pooled s₀ x

/-- Hazard pointers and warnings are none of its concern. -/
theorem Standing.keep {d : Fin 1 → DirtyRecord} (h : Standing heapmem rootLen home v key s₀ chain₀ fres s chain rest)
    (hidle : Idle heapmem rootLen home v { s with dirties := d } chain) : Standing heapmem rootLen home v key s₀ chain₀ fres { s with dirties := d } chain rest := by
  refine { hidle with place := h.place, searched := h.searched, cur := ?_, pooled := h.pooled }
  rw [h.cur]
  cases fres.prev <;> rfl

theorem Standing.setHP (h : Standing heapmem rootLen home v key s₀ chain₀ fres s chain rest) (hp : p = NULL ∨ Obj heapmem p) :
    Standing heapmem rootLen home v key s₀ chain₀ fres (s.setHP i k p) chain rest := h.keep (h.toIdle.setHP hp)

theorem Standing.fence (h : Standing heapmem rootLen home v key s₀ chain₀ fres s chain rest) :
    Standing heapmem rootLen home v key s₀ chain₀ fres (s.setDirty i (·.clean)) chain rest := h.keep h.toIdle.fence

theorem Standing.clearHPs (h : Standing heapmem rootLen home v key s₀ chain₀ fres s chain rest) :
    Standing heapmem rootLen home v key s₀ chain₀ fres (((s.setHP i 2 NULL).setHP i 1 NULL).setHP i 0 NULL) chain rest :=
  ((h.setHP (.inl rfl)).setHP (.inl rfl)).setHP (.inl rfl)

theorem Standing.prev_obj (h : Standing heapmem rootLen home v key s₀ chain₀ fres s chain rest) :
    prevHP (headOf home key) fres.prev = NULL ∨ Obj heapmem (prevHP (headOf home key) fres.prev) := by
  unfold prevHP
  split
  · obtain hp | ⟨a, ha, hp, -⟩ := h.place.place
    · cases hprev : fres.prev with
      | root r k => exact .inl rfl
      | next a =>
        rw [hprev] at hp
        cases hp
    · cases hprev : fres.prev with
      | root r k => exact .inl rfl
      | next d =>
        rw [hprev] at hp
        obtain rfl := Link.next.inj hp
        exact .inr (h.obj _ _ ha)
  · exact .inl rfl

theorem Standing.null_iff (h : Standing heapmem rootLen home v key s₀ chain₀ fres s chain rest) : fres.cur = NULL ↔ rest = [] := by
  rw [h.cur, ← word_linkOf]
  exact h.place.null_iff h.sound

theorem Standing.cur_eq (h : Standing heapmem rootLen home v key s₀ chain₀ fres s chain (a :: rest)) : fres.cur = ⟨a, false⟩ := by
  rw [h.cur, ← word_linkOf]
  exact h.place.word_eq h.sound

theorem Standing.mem (h : Standing heapmem rootLen home v key s₀ chain₀ fres s chain (a :: rest)) : a ∈ chain (home key) :=
  h.place.sub h.sound a List.mem_cons_self

theorem Standing.cur_obj (h : Standing heapmem rootLen home v key s₀ chain₀ fres s chain rest) : fres.cur = NULL ∨ Obj heapmem fres.cur := by
  cases rest with
  | nil => exact .inl (h.null_iff.2 rfl)
  | cons a rest => exact .inr (h.cur_eq ▸ h.obj _ a h.mem)

/-- The head of a list is not an object. -/
theorem Standing.prev_ne_zero (h : Standing heapmem rootLen home v key s₀ chain₀ fres s chain rest) : fres.prev ≠ .next 0 := by
  intro hprev
  obtain hp | ⟨a, ha, hp, -⟩ := h.place.place
  · rw [hprev] at hp
    cases hp
  · rw [hprev] at hp
    exact h.sound.ne_zero ha (Link.next.inj hp).symm

theorem node_setWord (h : w ≠ .next a) : (s.setWord w p).node a = s.node a := by
  cases w with
  | root r k => rfl
  | next d => exact Function.update_of_ne (fun he => h (congrArg Word.next he.symm)) ..

/-- The compare-and-swap of `find`. -/
theorem Standing.unlink (h : Standing heapmem rootLen home v key s₀ chain₀ fres s chain (a :: rest)) (hdead : (s.node a).nextEntry.tag = true) :
    Good s none (s.setWord fres.prev (clearDeleted (s.node a).nextEntry)) ∧
      ∃ chain', Standing heapmem rootLen home v key s₀ chain₀ ⟨fres.prev, clearDeleted (s.node a).nextEntry, (s.node a).nextEntry⟩
        (s.setWord fres.prev (clearDeleted (s.node a).nextEntry)) chain' rest := by
  obtain ⟨chain', hsound, hmem, hat⟩ := h.place.unlink h.sound hdead
  have hstore : store (s.setWord fres.prev (clearDeleted (s.node a).nextEntry)) =
      (store s).setWord (linkOf fres.prev) (clearDeleted ((store s).nextEntry a)) := store_setWord
  have hrest := h.toRest.setWord (w := fres.prev) (permitted (h.next_obj h.mem))
  have hsound' : Sound home (store (s.setWord fres.prev (clearDeleted (s.node a).nextEntry))) chain' := hstore ▸ hsound
  refine ⟨.of_sound hsound' (node_setWord h.prev_ne_zero) (.inl rfl), chain', { hrest with
    sound := hsound'
    obj := fun b d hd => h.obj b d ((hmem b d).1 hd).1
    out := fun b d hd => fun hpooled => h.out b d ((hmem b d).1 hd).1 (pooled_setWord.1 hpooled)
    clean := fun j => ?_
    place := hstore ▸ hat
    searched := hstore ▸ h.searched.unlink h.sound h.place hdead hmem
    cur := word_setWord.symm
    pooled := fun x => pooled_setWord.trans (h.pooled x) }⟩
  have hclean := h.clean j
  cases hprev : fres.prev <;> exact hclean

/-- `find` goes past an entry. -/
theorem Standing.advance (h : Standing heapmem rootLen home v key s₀ chain₀ fres s chain (a :: rest)) (hlive : (s.node a).nextEntry.tag = false)
    (hlt : (getKey (s.node a).keyData).toInt < key.toInt) :
    Standing heapmem rootLen home v key s₀ chain₀ ⟨.next a, (s.node a).nextEntry, (s.node a).nextEntry⟩ s chain rest :=
  { h with place := h.place.advance h.sound hlive hlt, searched := h.searched.advance hlive, cur := rfl }

/-- What `find` answers. -/
structure Found (heapmem rootLen : List Nat) (home : CInt → Nat × Nat) (v : Nat) (key : CInt) (s₀ : Mem 1) (chain₀ : Nat × Nat → List Nat)
    (r : Bool × ThreadLocal × BitVec 64) (s : Mem 1) (chain : Nat × Nat → List Nat) (rest : List Nat) : Prop
    extends Standing heapmem rootLen home v key s₀ chain₀ r.2.1 s chain rest where
  stop : ∀ a ∈ rest.head?, (s.node a).nextEntry.tag = false ∧ key.toInt ≤ (getKey (s.node a).keyData).toInt
  answer : r.1 = true ↔ ∃ a ∈ rest.head?, getKey (s.node a).keyData = key
  data : ∀ a ∈ rest.head?, r.2.1.next = (s.node a).nextEntry ∧ r.2.2 = (s.node a).keyData
  bare : hazards s₀ = [] → hazards s = []

/-- The search comes to an entry at which it stops. -/
theorem Standing.found (h : Standing heapmem rootLen home v key s₀ chain₀ fres s chain (a :: rest)) (hlive : (s.node a).nextEntry.tag = false)
    (hle : key.toInt ≤ (getKey (s.node a).keyData).toInt) (hbare : hazards s₀ = [] → hazards s = []) :
    Found heapmem rootLen home v key s₀ chain₀ (getKey (s.node a).keyData == key, ⟨fres.prev, fres.cur, (s.node a).nextEntry⟩, (s.node a).keyData)
      s chain (a :: rest) := by
  have hhead : ∀ d ∈ (a :: rest).head?, d = a := fun d hd => (Option.some.inj hd).symm
  refine { h with stop := fun d hd => ?_, answer := ?_, data := fun d hd => ?_, bare := hbare }
  · rw [hhead d hd]
    exact ⟨hlive, hle⟩
  · rw [beq_iff_eq]
    constructor
    · exact fun he => ⟨a, rfl, he⟩
    · rintro ⟨d, hd, he⟩
      rwa [hhead d hd] at he
  · rw [hhead d hd]
    exact ⟨rfl, rfl⟩

/-- One round from an entry on. -/
theorem watched_findRound (h : Standing heapmem rootLen home v key s₀ chain₀ fres s chain (a :: rest)) (hbare : hazards s₀ = [] → hazards s = []) :
    Watched T Good (findRound i fuel (headOf home key) key (some fres)) s fun r s' =>
      (∃ fres' chain', r = .inl (some fres') ∧ Standing heapmem rootLen home v key s₀ chain₀ fres' s' chain' rest ∧ (hazards s₀ = [] → hazards s' = [])) ∨
      ∃ x, r = .inr x ∧ Found heapmem rootLen home v key s₀ chain₀ x s' chain (a :: rest) := by
  have hcur := h.cur_eq
  have ha0 : fres.cur ≠ NULL := fun hnull => List.cons_ne_nil a rest (h.null_iff.1 hnull)
  rw [findRound, if_neg ha0, hcur]
  refine watched_bind.2 (watched_read (watched_bind.2 (watched_CHECK h.toIdle ?_)))
  rw [if_neg Bool.false_ne_true]
  cases htag : (s.node a).nextEntry.tag with
  | true =>
    -- the entry is deleted and leaves the list
    have hdel : isDeleted (s.node (Ptr.mk a false).addr).nextEntry = true := htag
    rw [if_pos hdel]
    have h3 := ((h.setHP (i := i) (k := 0) h.prev_obj).setHP (i := i) (k := 1) (hcur ▸ h.cur_obj)).setHP (i := i) (k := 2) (h.next_obj h.mem)
    refine watched_bind.2 (watched_setHP (watched_bind.2 (watched_setHP (watched_bind.2 (watched_setHP ?_)))))
    refine watched_bind.2 (watched_FENCE_CHECK h3.toIdle (fun q hq => absurd hq (Option.some_ne_none q).symm) ?_)
    rw [if_neg Bool.false_ne_true]
    have h4 := h3.fence (i := i)
    obtain ⟨hgood, chain', h5⟩ := h4.unlink htag
    refine watched_bind.2 (watched_cas (hcur ▸ h4.cur.symm) hgood ?_)
    rw [if_pos rfl]
    exact watched_bind.2 (watched_clearHPs (.inl ⟨_, chain', rfl, h5.clearHPs, fun _ => hazards_clearHPs⟩))
  | false =>
    have hlive : ¬ isDeleted (s.node (Ptr.mk a false).addr).nextEntry = true := fun hdel => Bool.false_ne_true (htag.symm.trans hdel)
    rw [if_neg hlive]
    refine watched_bind.2 (watched_read (watched_bind.2 (watched_read (watched_bind.2 (watched_CHECK h.toIdle ?_)))))
    rw [if_neg Bool.false_ne_true, if_neg (not_not.2 (h.cur.symm.trans hcur))]
    split
    · rename_i hle
      have hfound := h.found htag hle hbare
      rw [hcur] at hfound
      exact .inr ⟨_, rfl, hfound⟩
    · rename_i hlt
      exact .inl ⟨_, chain, rfl, h.advance htag (not_le.1 hlt), hbare⟩

theorem watched_findFrom (hfuel : T ∨ rest.length < fuel) (h : Standing heapmem rootLen home v key s₀ chain₀ fres s chain rest)
    (hbare : hazards s₀ = [] → hazards s = []) :
    Watched T Good (iter (findRound i k (headOf home key) key) fuel (some fres)) s fun r s' =>
      ∃ chain rest, Found heapmem rootLen home v key s₀ chain₀ r s' chain rest := by
  induction rest generalizing fuel fres s chain with
  | nil =>
    cases fuel with
    | zero => exact hfuel.resolve_right (Nat.not_lt_zero _)
    | succ fuel =>
      rw [iter, findRound, if_pos (h.null_iff.2 rfl)]
      have hnone : ∀ a, a ∉ ([] : List Nat).head? := fun a => Option.not_mem_none a
      refine ⟨chain, [], { h with stop := fun a ha => absurd ha (hnone a), answer := ?_, data := fun a ha => absurd ha (hnone a), bare := hbare }⟩
      constructor
      · exact fun hfalse => absurd hfalse Bool.false_ne_true
      · rintro ⟨a, ha, -⟩
        exact absurd ha (hnone a)
  | cons a rest ih =>
    cases fuel with
    | zero => exact hfuel.resolve_right (Nat.not_lt_zero _)
    | succ fuel =>
      rw [iter]
      refine watched_bind.2 ((watched_findRound h hbare).mono fun r s' hr => ?_)
      obtain ⟨fres', chain', rfl, h', hbare'⟩ | ⟨x, rfl, hx⟩ := hr
      · exact ih (hfuel.imp_right fun hlt => Nat.lt_of_succ_lt_succ hlt) h' hbare'
      · exact ⟨chain, a :: rest, hx⟩

/-- A search from the head of the list of its key. -/
theorem watched_find (hfuel : T ∨ (chain (home key)).length + 1 < fuel) (h : Idle heapmem rootLen home v s chain) :
    Watched T Good (find i fuel (headOf home key) key) s fun r s' => ∃ chain' rest, Found heapmem rootLen home v key s chain r s' chain' rest := by
  cases fuel with
  | zero => exact hfuel.resolve_right (Nat.not_lt_zero _)
  | succ fuel =>
    rw [find, iter]
    refine watched_bind.2 (watched_bind.2 (watched_read ?_))
    have hstart : Standing heapmem rootLen home v key s chain ⟨headOf home key, s.word (headOf home key), NULL⟩ s chain (chain (home key)) :=
      { h with place := h.sound.start (home key) key.toInt, searched := .start, cur := rfl, pooled := fun _ => Iff.rfl }
    exact watched_findFrom (hfuel.imp_right fun hlt => Nat.lt_of_succ_lt_succ hlt) hstart id

end OptimisticAccess.AOA.Solo
