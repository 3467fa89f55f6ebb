import OptimisticAccess.AOA.Solo.Exact
import OptimisticAccess.AOA.Solo.Operations
import OptimisticAccess.KeySet

/-!
# Collections are transparent to one thread

Whatever operations one thread makes, and wherever in them collections happen: those that return have
the answers of a set of keys, and the lists stay sorted.
-/

namespace OptimisticAccess.AOA.Solo

open Conc Prog
open Store (Sound At Unlinked Searched)

variable {heapmem rootLen : List Nat} {home : CInt → Nat × Nat} {s s' : Mem 1} {i : Fin 1} {v fuel a : Nat} {p : Ptr} {hashOp : Bool}
  {chain : Nat × Nat → List Nat} {b : Nat × Nat} {key data : CInt} {rest : List Nat} {T : Prop} {S : Finset CInt} {op : Op} {prev : Word}

/-! ## One operation -/

/-- Holds two operations: the lists hold the keys of `S`. -/
def Holds (heapmem rootLen : List Nat) (home : CInt → Nat × Nat) (S : Finset CInt) (s : Mem 1) : Prop :=
  ∃ v chain, Idle heapmem rootLen home v s chain ∧ hazards s = [] ∧ (store s).keys home = S

theorem Idle.holds (h : Idle heapmem rootLen home v s chain) (hbare : hazards s = []) (hkeys : (store s).keys home = S) :
    Holds heapmem rootLen home S s := ⟨v, chain, h, hbare, hkeys⟩

theorem watched_ListInsert (hroom : Room heapmem rootLen fuel) (hheads : Heads rootLen home) (h : Holds heapmem rootLen home S s) :
    Watched True Good (ListInsert i fuel (headOf home key) key data) s fun r s' =>
      r = (Op.insert key data).answer S ∧ Holds heapmem rootLen home ((Op.insert key data).after S) s' := by
  rw [ListInsert_eq]
  refine watched_iter (fun _ s => Holds heapmem rootLen home S s) (fun _ s hs => ?_) h
  obtain ⟨v, chain, hidle, hbare, hkeys⟩ := hs
  refine (watched_insertRound hroom hheads (.inl trivial) (fun _ => .inl trivial) hidle).mono fun r s' hs' => ?_
  cases hs' with
  | present hfound hr =>
    have hmem : key ∈ S := by
      have := hfound.present hidle.sound hr
      rwa [hkeys, Finset.mem_coe] at this
    refine ⟨(decide_eq_false (not_not.2 hmem)).symm, hfound.toIdle.holds (hfound.bare hbare) ?_⟩
    rw [hfound.searched.keys hidle.sound hfound.sound, hkeys]
    exact congrArg _ (Finset.insert_eq_self.2 hmem).symm
  | linked hidle' hpooled hnew hkeys' hbare' =>
    rw [hkeys, Finset.mem_coe] at hnew
    refine ⟨(decide_eq_true hnew).symm, hidle'.holds hbare' ?_⟩
    rw [hkeys', hkeys]
    exact (Finset.coe_insert key S).symm
  | collected hfound hr hempty hphase hcollected haside hidle' hbare' =>
    refine hidle'.holds hbare' ?_
    rw [haside.store_eq, hcollected.store_eq, hfound.searched.keys hidle.sound hfound.sound, hkeys]

/-- The compare-and-swap of `ListDelete`. -/
theorem Idle.mark (h : Idle heapmem rootLen home v s chain) (hat : At (store s) chain (home key) key.toInt (linkOf prev) (a :: rest))
    (htag : (s.node a).nextEntry.tag = false) (hkd : getKey (s.node a).keyData = key) :
    Good s (some (.deleted key)) (s.setWord (.next a) (markDeleted (s.node a).nextEntry)) ∧
      Idle heapmem rootLen home v (s.setWord (.next a) (markDeleted (s.node a).nextEntry)) chain ∧
      (store (s.setWord (.next a) (markDeleted (s.node a).nextEntry))).keys home = (store s).keys home \ {key} := by
  obtain ⟨hsound, hkeys⟩ := hat.mark h.sound htag hkd
  have hstore : store (s.setWord (.next a) (markDeleted (s.node a).nextEntry)) = (store s).setWord (.next a) (markDeleted ((store s).nextEntry a)) :=
    store_setWord
  rw [← hstore] at hsound hkeys
  have ha : a ∈ chain (home key) := hat.sub h.sound a List.mem_cons_self
  have ha0 : Word.next a ≠ .next 0 := fun he => h.sound.ne_zero ha (Word.next.inj he)
  have hpermitted : Permitted heapmem rootLen (.setWord (.next a) (markDeleted (s.node a).nextEntry)) := h.next_obj ha
  exact ⟨.of_sound hsound (node_setWord ha0) (.inr ⟨key, .inr rfl⟩), { h.toRest.setWord hpermitted with
    sound := hsound
    obj := h.obj
    out := fun b d hd hx => h.out b d hd hx
    clean := h.clean }, hkeys⟩

theorem Found.head {r : Bool × ThreadLocal × BitVec 64} {s₀ : Mem 1} {chain₀ : Nat × Nat → List Nat} (h : Found heapmem rootLen home v key s₀ chain₀ r s chain rest)
    (hr : r.1 = true) : ∃ a l, rest = a :: l ∧ getKey (s.node a).keyData = key := by
  obtain ⟨a, ha, hkey⟩ := h.answer.1 hr
  cases rest with
  | nil => cases ha
  | cons d l =>
    obtain rfl : d = a := Option.some.inj ha
    exact ⟨d, l, rfl, hkey⟩

/-- The last part of `ListDelete`: the entry is marked. -/
theorem watched_mark {nxt : Ptr} (h : Idle heapmem rootLen home v s chain) (hat : At (store s) chain (home key) key.toInt (linkOf prev) (a :: rest))
    (htag : (s.node a).nextEntry.tag = false) (hkd : getKey (s.node a).keyData = key) (hnxt : nxt = (s.node a).nextEntry)
    (hkeys : (store s).keys home = S) :
    Watched True Good (do
      if ← casWord (.next a) nxt (markDeleted nxt) (some (.deleted key)) then
        if hashOp then
          let _ ← find i fuel (headOf home key) key
          clearHPs i
          return .inr true
        else
          clearHPs i
          return .inr true
      else
        clearHPs i
        return .inl () : P 1 (Unit ⊕ Bool)) s fun r s' => r = .inr true ∧ Holds heapmem rootLen home (S.erase key) s' := by
  obtain ⟨hgood, hidle, hkeys'⟩ := h.mark hat htag hkd
  have hafter : (store s).keys home \ {key} = (S.erase key : Finset CInt) := by
    rw [hkeys]
    exact (Finset.coe_erase key S).symm
  subst hnxt
  refine watched_bind.2 (watched_cas rfl hgood ?_)
  rw [if_pos rfl]
  cases hashOp with
  | true =>
    rw [if_pos rfl]
    refine watched_bind.2 ((watched_find (.inl trivial) hidle).mono ?_)
    rintro r s' ⟨chain', rest', hfound⟩
    refine watched_bind.2 (watched_clearHPs ⟨rfl, hfound.toIdle.clearHPs.holds hazards_clearHPs ?_⟩)
    rw [Aside.clearHPs.store_eq, hfound.searched.keys hidle.sound hfound.sound, hkeys', hafter]
  | false =>
    rw [if_neg Bool.false_ne_true]
    refine watched_bind.2 (watched_clearHPs ⟨rfl, hidle.clearHPs.holds hazards_clearHPs ?_⟩)
    rw [Aside.clearHPs.store_eq, hkeys', hafter]

theorem watched_ListDelete (h : Holds heapmem rootLen home S s) :
    Watched True Good (ListDelete hashOp i fuel (headOf home key) key) s fun r s' =>
      r = (Op.delete key).answer S ∧ Holds heapmem rootLen home ((Op.delete key).after S) s' := by
  cases fuel with
  | zero => trivial
  | succ fuel =>
    obtain ⟨v, chain, hidle, hbare, hkeys⟩ := h
    rw [ListDelete, iter]
    refine watched_bind.2 (watched_bind.2 ((watched_find (.inl trivial) hidle).mono ?_))
    rintro ⟨found, ⟨prev, cur, next⟩, kd⟩ s₁ ⟨chain₁, rest, hfound⟩
    have hkeys₁ : (store s₁).keys home = S := (hfound.searched.keys hidle.sound hfound.sound).trans hkeys
    cases found with
    | false =>
      dsimp only
      rw [if_pos rfl]
      have hmem : key ∉ S := by
        have := hfound.absent hidle.sound rfl
        rwa [hkeys, Finset.mem_coe] at this
      refine ⟨(decide_eq_false hmem).symm, hfound.toIdle.holds (hfound.bare hbare) ?_⟩
      rw [hkeys₁]
      exact congrArg _ (Finset.erase_eq_of_notMem hmem).symm
    | true =>
      dsimp only
      rw [if_neg Bool.false_ne_true.symm]
      have hmem : key ∈ S := by
        have := hfound.present hidle.sound rfl
        rwa [hkeys, Finset.mem_coe] at this
      obtain ⟨a, l, rfl, hkey⟩ := hfound.head rfl
      obtain rfl : cur = ⟨a, false⟩ := hfound.cur_eq
      obtain rfl : next = (s₁.node a).nextEntry := (hfound.data a rfl).1
      have htag := (hfound.stop a rfl).1
      have hobj := hfound.next_obj hfound.mem
      rw [show clearDeleted (s₁.node a).nextEntry = (s₁.node a).nextEntry from clearPtr_of_tag htag] at hobj
      have h₁ := (hfound.toStanding.setHP (i := i) (k := 0) hfound.cur_obj).setHP (i := i) (k := 1) hobj
      refine watched_bind.2 (watched_setHP (watched_bind.2 (watched_setHP (watched_bind.2 (watched_FENCE_CHECK h₁.toIdle (fun q hq => absurd hq (Option.some_ne_none q).symm) ?_)))))
      rw [if_neg Bool.false_ne_true]
      have h₂ := h₁.fence (i := i)
      have haside : Aside s₁ (((s₁.setHP i 0 ⟨a, false⟩).setHP i 1 (s₁.node a).nextEntry).setDirty i (·.clean)) :=
        (Aside.setDirty.trans .setDirty).trans .setDirty
      have hkeys₂ : (store (((s₁.setHP i 0 ⟨a, false⟩).setHP i 1 (s₁.node a).nextEntry).setDirty i (·.clean))).keys home = S := by
        rw [haside.store_eq, hkeys₁]
      refine watched_bind.2 ((watched_mark h₂.toIdle h₂.place htag hkey rfl hkeys₂).mono ?_)
      · rintro _ s' ⟨rfl, hs'⟩
        exact ⟨(decide_eq_true hmem).symm, hs'⟩

theorem watched_perform (hroom : Room heapmem rootLen fuel) (hheads : Heads rootLen home) (h : Holds heapmem rootLen home S s) :
    Watched True Good (perform hashOp i fuel (headOf home op.key) op) s fun r s' => r = op.answer S ∧ Holds heapmem rootLen home (op.after S) s' := by
  cases op with
  | insert key data => exact watched_ListInsert hroom hheads h
  | delete key => exact watched_ListDelete h
  | search key =>
    obtain ⟨v, chain, hidle, hbare, hkeys⟩ := h
    refine watched_bind.2 (watched_bind.2 ((watched_find (.inl trivial) hidle).mono ?_))
    rintro ⟨found, fres, kd⟩ s' ⟨chain', rest, hfound⟩
    have hholds : Holds heapmem rootLen home S s' :=
      hfound.toIdle.holds (hfound.bare hbare) ((hfound.searched.keys hidle.sound hfound.sound).trans hkeys)
    cases found with
    | true =>
      have hmem := hfound.present hidle.sound rfl
      rw [hkeys, Finset.mem_coe] at hmem
      exact ⟨(decide_eq_true hmem).symm, hholds⟩
    | false =>
      have hmem := hfound.absent hidle.sound rfl
      rw [hkeys, Finset.mem_coe] at hmem
      exact ⟨(decide_eq_false hmem).symm, hholds⟩

/-! ## Runs -/

/-- What the client sees of a step: the answers are those of a set, the lists are sorted, what is handed out is in no list, and `NULL`
is neither linked nor written to. -/
structure Plain (rs : List (Rec (Fin 1) (Mem 1) Ev)) (r : Rec (Fin 1) (Mem 1) Ev) : Prop where
  answers : Answers returned rs r
  ordered : ∀ b, Ordered r.post b
  served : ∀ p localVer, r.ev = some (.served p localVer) → ∀ b, ¬ OnList r.pre b p.addr
  fenced : ∀ p, r.ev = some (.fenced (some p)) → p ≠ NULL
  null : r.post.node 0 = r.pre.node 0

/-- The steps so far, after which the contents are `S`. -/
def Course (S : Finset CInt) (s : Mem 1) (log : List (Rec (Fin 1) (Mem 1) Ev)) : Prop :=
  Along Plain log ∧ contents returned log = S ∧ ∀ b, Ordered s b

theorem Course.good {rs : List (Rec (Fin 1) (Mem 1) Ev)} (r : Rec (Fin 1) (Mem 1) Ev) (h : Good r.pre r.ev r.post) (hc : Course S r.pre rs) :
    Course S r.post (r :: rs) := by
  obtain ⟨halong, hcontents, hord⟩ := hc
  exact ⟨⟨halong, .of_none h.inside, h.ordered hord, h.served, h.fenced, h.null⟩, (contents_of_none h.inside).trans hcontents, h.ordered hord⟩

theorem Course.ret {rs : List (Rec (Fin 1) (Mem 1) Ev)} (hc : Course S s rs) :
    Course (op.after S) s (⟨i, s, some (.ret op (op.answer S)), s⟩ :: rs) := by
  obtain ⟨halong, hcontents, hord⟩ := hc
  refine ⟨⟨halong, ⟨fun op' b' he => ?_, hord, nofun, nofun, rfl⟩⟩, ?_, hord⟩
  · obtain ⟨rfl, rfl⟩ := Prod.mk.inj (Option.some.inj he)
    rw [hcontents]
  · rw [← hcontents]
    rfl

theorem Good.call (s : Mem 1) : Good s (some (.call op)) s := ⟨rfl, fun hord => hord, rfl, nofun, nofun, nofun⟩

/-- A client that runs on. -/
theorem reach_client (hroom : Room heapmem rootLen fuel) (hheads : Heads rootLen home) {ops : List Op} {c₀ c : Cfg (Fin 1) (Mem 1) Ev}
    (hthr : c₀.thr i = client hashOp (headOf home) i fuel ops) (hs : Holds heapmem rootLen home S c₀.mem) (hc : Course S c₀.mem c₀.log)
    (hreach : Cfg.Reach c₀ c) : ∃ S', Course S' c.mem c.log := by
  induction ops generalizing S c₀ with
  | nil =>
    obtain rfl := hreach.of_ret hthr
    exact ⟨S, hc⟩
  | cons op ops ih =>
    have hthr' : c₀.thr i = (emit (.call op) >>= fun _ => perform hashOp i fuel (headOf home op.key) op) >>=
        fun b => emit (.ret op b) >>= fun _ => client hashOp (headOf home) i fuel ops := by
      rw [hthr, client, forEach]
      simp only [bind_assoc]
      rfl
    have hwatched : Watched True Good (emit (.call op) >>= fun _ => perform hashOp i fuel (headOf home op.key) op) c₀.mem _ :=
      watched_bind.2 (watched_emit (Good.call c₀.mem) (watched_perform hroom hheads hs))
    obtain hc | ⟨b, c', hreach', ⟨rfl, hs'⟩, hthr', hc'⟩ := hwatched.reach hthr' hc (fun rs r hgood h => h.good r hgood) hreach
    · exact ⟨S, hc⟩
    · -- the answer is given
      obtain ⟨sched, rfl⟩ := hreach'
      cases sched with
      | nil => exact ⟨S, hc'⟩
      | cons j js =>
        obtain rfl : j = i := Subsingleton.elim j i
        have hfire : c'.fire j = ⟨c'.mem, Function.update c'.thr j (client hashOp (headOf home) j fuel ops),
            ⟨j, c'.mem, some (.ret op (op.answer S)), c'.mem⟩ :: c'.log⟩ := by
          simp only [Cfg.fire, hthr']
          rfl
        have hthr'' : (c'.fire j).thr j = client hashOp (headOf home) j fuel ops := by
          rw [hfire]
          exact Function.update_self ..
        have hs'' : Holds heapmem rootLen home (op.after S) (c'.fire j).mem := by rwa [hfire]
        have hc'' : Course (op.after S) (c'.fire j).mem (c'.fire j).log := by
          rw [hfire]
          exact hc'.ret
        exact ih hthr'' hs'' hc'' ⟨js, rfl⟩

/-! ## The start -/

theorem holds_init (hheap : Heap heapmem) (rootLen : List Nat) (home : CInt → Nat × Nat) :
    Holds heapmem rootLen home ∅ (init_allocator 1 heapmem rootLen) := by
  have hrest := rest_init hheap rootLen
  obtain ⟨entries, head, hinit⟩ := init_allocator_eq (n := 1) heapmem rootLen
  have hstore : store (init_allocator 1 heapmem rootLen) = ⟨fun _ => NULL, fun _ => 0, fun _ => NULL⟩ := by
    rw [hinit]
    rfl
  have hdirties : (init_allocator 1 heapmem rootLen).dirties = fun _ => ⟨0, fun _ => NULL⟩ := by
    rw [hinit]
    rfl
  have hsound : Sound home (store (init_allocator 1 heapmem rootLen)) fun _ => [] := by
    rw [hstore]
    exact ⟨fun _ => rfl, fun _ => rfl, fun _ => List.pairwise_singleton .., fun _ _ ha => absurd ha List.not_mem_nil⟩
  refine ⟨0, fun _ => [], { hrest with sound := hsound, obj := nofun, out := nofun, clean := fun i => ?_ }, ?_, ?_⟩
  · have hclear : decide (BitVec.setWidth 8 (0 : U64) ≠ 0#8) = false := by decide
    rw [hdirties]
    exact hclear
  · rw [hazards, hdirties]
    rfl
  · rw [Finset.coe_empty]
    refine Set.eq_empty_of_forall_notMem fun key hkey => ?_
    obtain ⟨a, ha, -⟩ := hsound.mem_keys.1 hkey
    exact List.not_mem_nil ha

/-- Every client of one thread, with the lists at `headOf`. -/
def Transparent (heapmem rootLen : List Nat) (headOf : CInt → Word) : Prop :=
  ∃ bound, ∀ fuel, bound < fuel → ∀ hashOp ops c,
    Cfg.Reach (.init (init_allocator 1 heapmem rootLen) fun i => client hashOp headOf i fuel ops) c → Along Plain c.log

theorem transparent (hheap : Heap heapmem) (hheads : Heads rootLen home) : Transparent heapmem rootLen (headOf home) := by
  refine ⟨collectFuel heapmem rootLen, fun fuel hfuel hashOp ops c hreach => ?_⟩
  have hholds := holds_init hheap rootLen home
  obtain ⟨v, chain, hidle, -⟩ := hholds
  have hcourse : Course ∅ (init_allocator 1 heapmem rootLen) [] := ⟨trivial, rfl, fun b => ⟨chain b, hidle.sound.walk b, hidle.sound.sorted b⟩⟩
  obtain ⟨S, hc⟩ := reach_client ⟨hheap, hheads.lens, hfuel⟩ hheads (i := ⟨0, Nat.one_pos⟩) rfl (holds_init hheap rootLen home) hcourse hreach
  exact hc.1

/-- The only list. -/
def theList : CInt → Nat × Nat := fun _ => (0, 0)

theorem heads_list : Heads [1] theList :=
  ⟨fun _ hlen h1 => absurd (List.mem_singleton.1 hlen) h1, fun _ => rfl, fun _ => ⟨1, rfl, fun _ => rfl, fun h1 => absurd rfl h1⟩⟩

theorem hashBucket_lt {logLen : Nat} (hlo : 1 ≤ logLen) (hhi : logLen ≤ 32) (key : CInt) : hashBucket logLen key < 2 ^ logLen := by
  rw [hashBucket, BitVec.toNat_ushiftRight, Nat.shiftRight_eq_div_pow, Nat.div_lt_iff_lt_mul (Nat.two_pow_pos _), ← Nat.pow_add]
  rw [show logLen + (32 - logLen) = 32 by omega]
  exact BitVec.isLt _

theorem heads_hash {logLen : Nat} (hlo : 9 ≤ logLen) (hhi : logLen ≤ 30) : Heads [2 ^ logLen] fun key => (0, hashBucket logLen key) := by
  have hne : 2 ^ logLen ≠ 1 := (Nat.one_lt_two_pow (by omega)).ne'
  refine ⟨fun len hlen _ => ?_, fun _ => rfl, fun key => ⟨2 ^ logLen, rfl, fun h1 => absurd h1 hne, fun _ => hashBucket_lt (by omega) (by omega) key⟩⟩
  obtain rfl := List.mem_singleton.1 hlen
  refine ⟨Nat.mod_eq_zero_of_dvd ?_, Nat.pow_lt_pow_right Nat.one_lt_two (by omega)⟩
  exact Nat.pow_dvd_pow 2 (by omega : 6 ≤ logLen)

/-- The list, and the hash table with its array as the only root. -/
theorem gc_transparent (hheap : Heap heapmem) : Transparent heapmem [1] (fun _ => .root 0 0) ∧
    ∀ logLen, 9 ≤ logLen → logLen ≤ 30 → Transparent heapmem [2 ^ logLen] fun key => .root 0 (hashBucket logLen key) := by
  have hlist : Transparent heapmem [1] (headOf theList) := transparent hheap heads_list
  refine ⟨hlist, fun logLen hlo hhi => ?_⟩
  have hhash : Transparent heapmem [2 ^ logLen] (headOf fun key => (0, hashBucket logLen key)) := transparent hheap (heads_hash hlo hhi)
  exact hhash

theorem gc_transparent_one : Transparent [chunkSize] [1] (fun _ => .root 0 0) ∧
    ∀ logLen, 9 ≤ logLen → logLen ≤ 30 → Transparent [chunkSize] [2 ^ logLen] fun key => .root 0 (hashBucket logLen key) :=
  gc_transparent heap_one

end OptimisticAccess.AOA.Solo
