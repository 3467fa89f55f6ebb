import OptimisticAccess.AOA.Solo.Search

/-!
# Operations with one thread

An allocation hands out what no list holds. An insertion that has got an object links it and ends; one
that has got `NULL` starts again after the collection.
-/

namespace OptimisticAccess.AOA.Solo

open Conc Prog
open Store (Sound At Unlinked Searched)

variable {heapmem rootLen : List Nat} {home : CInt → Nat × Nat} {s s' s₀ : Mem 1} {i : Fin 1} {v fuel a k : Nat} {p : Ptr} {w : Word}
  {chain chain₀ chain' : Nat × Nat → List Nat} {b : Nat × Nat} {key : CInt} {rest : List Nat} {fres : ThreadLocal} {T : Prop}

/-! ## Allocation -/

theorem watched_apart {α : Type} {q : P 1 α} (h : q.Obeys Apart) : Watched True Good q s fun _ _ => True :=
  (h.mono fun _ _ _ => Good.of_apart).watched

theorem Client.not_onList (h : Client heapmem rootLen home v s chain) (hp : Pooled s p) : ¬ OnList s b p.addr := by
  rintro ⟨l, hl, hmem⟩
  rw [hl.unique (h.sound.walk b)] at hmem
  refine h.out b _ hmem ?_
  have heq : (⟨p.addr, false⟩ : Ptr) = p := Ptr.eq_of_addr rfl (h.obj_of_pooled hp).tag rfl
  rwa [heq]

theorem Client.framed {v' : Nat} (h : Client heapmem rootLen home v s chain) (hrest : Rest heapmem rootLen v' s') (hf : Framed s s')
    (hpooled : ∀ x, Pooled s' x → Pooled s x) : Client heapmem rootLen home v' s' chain :=
  h.keep hrest hf.store_eq fun b a ha hx => h.out b a ha (hpooled _ hx)

theorem watched_pallocCached (h : Client heapmem rootLen home v s chain) : Watched False Good (pallocCached i) s (Cached heapmem rootLen v s) := by
  refine (ends_pallocCached h.toRest).watched (watched_bind.2 (watched_read ?_))
  cases hcache : (s.locals i).alloc_cache with
  | none => trivial
  | some e =>
    refine watched_bind.2 (watched_read ?_)
    by_cases hfree : (s.entries e).free > 0
    · rw [if_pos hfree]
      refine watched_bind.2 (watched_read (watched_bind.2 (watched_step.2 ⟨⟨rfl, fun hord b => hord b, rfl, fun q localVer he b => ?_, nofun, nofun⟩, trivial⟩)))
      obtain ⟨L, cur, F, hs⟩ := h.stock
      obtain rfl : cur = some e := (hs.cache i).symm.trans hcache
      obtain ⟨rfl, -⟩ := Ev.served.inj (Option.some.inj he)
      refine h.not_onList ((hs.pooled _).2 (Pool.mem_stored.2 ⟨e, List.mem_append_left _ (List.mem_singleton_self e), _, ?_, rfl⟩))
      exact Nat.sub_lt hfree Nat.one_pos
    · rw [if_neg hfree]
      exact watched_bind.2 ((watched_apart Apart.freeAllocCache).mono fun _ _ _ => trivial)

/-- What the collector needs, whatever the phase. -/
structure Room (heapmem rootLen : List Nat) (fuel : Nat) : Prop where
  heap : Heap heapmem
  lens : Lens rootLen
  fuel : collectFuel heapmem rootLen < fuel

theorem Room.enough (h : Room heapmem rootLen fuel) (hphase : v + 2 < 2 ^ 31) : Enough heapmem rootLen v fuel := ⟨h.heap, h.lens, hphase, h.fuel⟩

theorem Room.fuel_pos (h : Room heapmem rootLen fuel) : 1 < fuel := (h.enough (by decide : 0 + 2 < 2 ^ 31)).fuel_pos

/-- The phase after the last does not come. -/
theorem watched_Reclamation (h : Phase heapmem rootLen v s) (hphase : ¬ v + 2 < 2 ^ 31) :
    Watched True (fun _ _ _ => True) (Reclamation i fuel) s fun _ _ => False := by
  refine watched_bind.2 (watched_load trivial ?_)
  rw [h.localVer]
  refine watched_bind.2 (watched_step.2 ⟨trivial, watched_ret.2 (watched_bind.2 ?_)⟩)
  rw [defined, if_neg hphase]
  trivial

theorem run_triggerCollection (h : Phase heapmem rootLen v s) (hcache : ∀ i, (s.locals i).alloc_cache = none) (hphase : ¬ v + 2 < 2 ^ 31) :
    (triggerCollection i fuel).run s = none := by
  have hwatched : Watched True (fun _ _ _ => True) (triggerCollection i fuel) s fun _ _ => False := by
    refine watched_bind.2 (watched_load trivial ?_)
    rw [hcache]
    exact watched_bind.2 (watched_bind.2 ((watched_Reclamation h hphase).mono fun _ _ hf => hf.elim))
  cases hrun : (triggerCollection i fuel).run s with
  | none => rfl
  | some r => exact (hwatched.run hrun).elim

/-- A collection with an empty pool. -/
theorem watched_triggerCollection (hroom : Room heapmem rootLen fuel) (hphase : T ∨ v + 2 < 2 ^ 31) (h : Rest heapmem rootLen v s)
    (hcache : ∀ i, (s.locals i).alloc_cache = none) (hempty : ∀ x, ¬ Pooled s x) :
    Watched T Good (triggerCollection i fuel) s fun _ s' => v + 2 < 2 ^ 31 ∧ Collected heapmem rootLen s (v + 2) s' := by
  obtain ⟨L, cur, F, hs⟩ := h.stock
  obtain rfl : cur = none := (hs.cache i).symm.trans (hcache i)
  obtain rfl : L = [] := by
    cases L with
    | nil => rfl
    | cons e L =>
      refine absurd ((hs.pooled _).2 (Pool.mem_stored.2 ⟨e, List.mem_cons_self, 0, hs.pos e List.mem_cons_self, rfl⟩)) (hempty _)
  by_cases hv : v + 2 < 2 ^ 31
  · have hends := ends_triggerCollection (i := i) hroom.heap hroom.lens h.toPhase h.toPointers hs.toShelves hv hroom.fuel
    exact ((hends.watched (watched_apart Apart.triggerCollection)).weaken False.elim).mono fun _ _ hs' => ⟨hv, hs'⟩
  · have hT : T := hphase.resolve_right hv
    have hnone : (triggerCollection i fuel).run s = none := run_triggerCollection h.toPhase hcache hv
    refine ((watched_apart Apart.triggerCollection).of_run fun _ s' hrun => ?_).weaken fun _ => hT
    rw [hnone] at hrun
    cases hrun

theorem watched_pallocRefill (hroom : Room heapmem rootLen fuel) (hphase : T ∨ v + 2 < 2 ^ 31 ∨ ∃ x, Pooled s x)
    (h : Rest heapmem rootLen v s) (hcache : ∀ i, (s.locals i).alloc_cache = none) :
    Watched T Good (pallocRefill i fuel) s fun r s' => Refilled heapmem rootLen v s r s' ∧ (r ≠ none → v + 2 < 2 ^ 31) := by
  obtain ⟨L, cur, F, hs⟩ := h.stock
  obtain rfl : cur = none := (hs.cache i).symm.trans (hcache i)
  obtain ⟨m, rfl⟩ : ∃ m, fuel = m + 1 := ⟨fuel - 1, by have := hroom.fuel_pos; omega⟩
  rw [pallocRefill, iter]
  refine watched_bind.2 (watched_bind.2 (watched_read (watched_bind.2 ?_)))
  rw [h.localVer]
  -- the stack has an entry on top, or the pool is empty
  have hpop : Watched False Good (pop (m + 1) v) s fun r s' => (r = .null ∧ s.head.head = none ∧ s' = s) ∨
      ∃ e, r = .entry e ∧ s.head.head = some e ∧ s' = { s with head := ⟨Pool.next s e, s.head.ver⟩ } := by
    refine (ends_pop h.ver (Nat.succ_pos m) (fun hnull => ?_) fun e he => ?_).watched (watched_apart Apart.pop)
    · exact .inl ⟨rfl, hnull, rfl⟩
    · exact .inr ⟨e, rfl, he, rfl⟩
  refine (hpop.weaken False.elim).mono ?_
  rintro r s₁ (⟨rfl, hnull, rfl⟩ | ⟨e, rfl, he, rfl⟩)
  · obtain rfl : L = [] := by
      cases L with
      | nil => rfl
      | cons e L => exact absurd (hnull.symm.trans hs.shared.1) (Option.some_ne_none e).symm
    have hempty : ∀ x, ¬ Pooled s₁ x := fun x hx => absurd ((hs.pooled x).1 hx) List.not_mem_nil
    have hphase : T ∨ v + 2 < 2 ^ 31 := hphase.imp_right fun h => h.resolve_right (not_exists.2 hempty)
    refine watched_bind.2 ((watched_triggerCollection hroom hphase h hcache hempty).mono fun _ s' hs' => ?_)
    obtain ⟨hv, hs'⟩ := hs'
    refine watched_bind.2 (watched_read ?_)
    rw [if_pos (hs'.warned i)]
    exact ⟨.collected rfl hempty hs' (hs'.rest h.toPointers h.rootLen_eq), fun _ => hv⟩
  · obtain ⟨L, rfl⟩ : ∃ L', L = e :: L' := by
      obtain ⟨L', rfl, -⟩ := (he ▸ hs.shared).top
      exact ⟨L', rfl⟩
    obtain ⟨hstock, hstored⟩ := hs.pop
    have hpopped : ({ s with head := ⟨Pool.next s e, s.head.ver⟩ }.setLocal i ({ · with alloc_cache := some e })).setEntry e ({ · with next := none }) =
        popped s e := by
      rw [setLocal_eq]
      rfl
    refine watched_bind.2 (watched_store (.of_apart ⟨rfl, rfl, rfl⟩) (watched_bind.2 (watched_store (.of_apart ⟨rfl, rfl, rfl⟩) ?_)))
    rw [hpopped]
    exact ⟨refilled_of_pop h hs, fun hr => absurd rfl hr⟩

theorem Cached.client {r : Option Ptr} (hs' : Cached heapmem rootLen v s r s') (h : Client heapmem rootLen home v s chain) (hr : r = none) :
    Client heapmem rootLen home v s' chain := h.framed hs'.rest hs'.frame fun x => ((hs'.spent hr).2 x).1

theorem watched_palloc (hroom : Room heapmem rootLen fuel) (hphase : T ∨ v + 2 < 2 ^ 31 ∨ ∃ x, Pooled s x)
    (h : Client heapmem rootLen home v s chain) :
    Watched T Good (palloc i fuel) s fun ret s' => Allocated heapmem rootLen v s ret s' ∧ (ret = NULL → v + 2 < 2 ^ 31) := by
  obtain ⟨m, hm⟩ : ∃ m, fuel = m + 1 + 1 := ⟨fuel - 2, by have := hroom.fuel_pos; omega⟩
  rw [palloc, hm, iter, ← hm]
  refine watched_bind.2 (watched_bind.2 (((watched_pallocCached h).weaken False.elim).mono fun r s₁ hs₁ => ?_))
  cases r with
  | some obj =>
    obtain ⟨hpooled, hrem⟩ := hs₁.served obj rfl
    exact ⟨.served hs₁.rest hs₁.frame hpooled hrem, fun hnull => absurd hnull (h.obj_of_pooled hpooled).isObj.ne⟩
  | none =>
    obtain ⟨hcache, hsame⟩ := hs₁.spent rfl
    have hphase : T ∨ v + 2 < 2 ^ 31 ∨ ∃ x, Pooled s₁ x := hphase.imp_right fun h => h.imp_right (Exists.imp fun x => (hsame x).2)
    refine watched_bind.2 ((watched_pallocRefill hroom hphase hs₁.rest hcache).mono fun r s₂ hs₂ => ?_)
    obtain ⟨⟨rfl, hrest, hframe, hsame', e, hcache', hfree⟩ | ⟨rfl, hempty, hcollected, hrest⟩, hv⟩ := hs₂
    · -- the new cache is not empty
      have h₂ : Client heapmem rootLen home v s₂ chain := (hs₁.client h rfl).framed hrest hframe fun x => (hsame' x).1
      refine watched_ret.2 ?_
      dsimp only
      rw [iter]
      refine watched_bind.2 (watched_bind.2 (((watched_pallocCached h₂).weaken False.elim).mono fun r s₃ hs₃ => ?_))
      cases r with
      | some obj =>
        obtain ⟨hpooled, hrem⟩ := hs₃.served obj rfl
        refine ⟨.served hs₃.rest ((hs₁.frame.trans hframe).trans hs₃.frame) ?_ fun x => ?_, fun hnull => ?_⟩
        · rwa [hsame', hsame] at hpooled
        · rw [hrem, hsame', hsame]
        · exact absurd hnull (hrest.obj_of_pooled hpooled).isObj.ne
      | none => exact absurd (hs₃.empty rfl e hcache') hfree.ne'
    · exact ⟨.collected rfl (fun x hx => hempty x ((hsame x).2 hx)) (hcollected.framed hs₁.frame) hrest, fun _ => hv (Option.some_ne_none _)⟩

/-! ## Insertion -/

/-- One round of `ListInsert`. -/
def insertRound (i : Fin 1) (fuel : Nat) (entryHead : Word) (key : CInt) : P 1 (Unit ⊕ Bool) := do
  let (found, fres, _) ← find i fuel entryHead key
  if found then return .inr false
  else
    let newEntry ← palloc i fuel
    setHP i 0 (prevHP entryHead fres.prev)
    setHP i 1 fres.cur
    setHP i 2 newEntry
    if ← FENCE_CHECK i fuel (some newEntry) then return .inl ()
    else
      Prog.store (·.setKeyData newEntry.addr (keyWord key))
      Prog.store (·.setWord (.next newEntry.addr) fres.cur)
      if ← casWord fres.prev fres.cur newEntry (some (.inserted key)) then
        clearHPs i
        return .inr true
      else
        clearHPs i
        return .inl ()

theorem ListInsert_eq {entryHead : Word} {data : CInt} :
    ListInsert i fuel entryHead key data = iter (fun _ => insertRound i fuel entryHead key) fuel () := rfl

theorem Found.absent {r : Bool × ThreadLocal × BitVec 64} (h : Found heapmem rootLen home v key s₀ chain₀ r s chain rest)
    (hs₀ : Sound home (store s₀) chain₀) (hr : r.1 = false) : key ∉ (store s₀).keys home := by
  rw [← h.searched.keys hs₀ h.sound]
  refine h.place.absent h.sound fun a ha => lt_of_le_of_ne (h.stop a ha).2 fun he => ?_
  have := h.answer.2 ⟨a, ha, BitVec.toInt_inj.1 he.symm⟩
  rw [hr] at this
  cases this

theorem Found.present {r : Bool × ThreadLocal × BitVec 64} (h : Found heapmem rootLen home v key s₀ chain₀ r s chain rest)
    (hs₀ : Sound home (store s₀) chain₀) (hr : r.1 = true) : key ∈ (store s₀).keys home := by
  rw [← h.searched.keys hs₀ h.sound]
  obtain ⟨a, ha, hkey⟩ := h.answer.1 hr
  cases rest with
  | nil => cases ha
  | cons d rest =>
    obtain rfl : d = a := Option.some.inj ha
    exact h.place.present h.sound (h.stop d rfl).1 hkey

theorem watched_helpCollection {Q : Unit → Mem 1 → Prop} (h : Rest heapmem rootLen v s) (hQ : Q () s) : Watched T Good (helpCollection i fuel) s Q := by
  refine watched_bind.2 (watched_read (watched_bind.2 (watched_read ?_)))
  rw [h.localVer, h.phase, if_neg (Nat.lt_irrefl v)]
  exact hQ

theorem hazards_fence : hazards (s.setDirty i (·.clean)) = hazards s := by
  rw [setDirty_eq]
  rfl

/-- Only dirty records have changed. -/
def Aside (s s' : Mem 1) : Prop := ∃ d, s' = { s with dirties := d }

theorem Aside.trans {s'' : Mem 1} (h : Aside s s') (h' : Aside s' s'') : Aside s s'' := by
  obtain ⟨d, rfl⟩ := h
  obtain ⟨d', rfl⟩ := h'
  exact ⟨d', rfl⟩

theorem Aside.setDirty {f : DirtyRecord → DirtyRecord} : Aside s (s.setDirty i f) := ⟨_, rfl⟩

theorem Aside.clearHPs : Aside s (((s.setHP i 2 NULL).setHP i 1 NULL).setHP i 0 NULL) := (Aside.setDirty.trans .setDirty).trans .setDirty

theorem Aside.store_eq (h : Aside s s') : store s' = store s := by
  obtain ⟨d, rfl⟩ := h
  rfl

theorem Framed.dirties (h : Framed s s') : s'.dirties = s.dirties := by
  obtain ⟨entries, head, k, cache, spent, rfl⟩ := h
  rfl

theorem Aside.pooled {x : Ptr} (h : Aside s s') : Pooled s' x ↔ Pooled s x := by
  obtain ⟨d, rfl⟩ := h
  exact Iff.rfl

/-- `FENCE_CHECK` after a collection. -/
theorem watched_FENCE_CHECK_warned {Q : Bool → Mem 1 → Prop} {newEntry : Option Ptr} (h : Client heapmem rootLen home v s chain)
    (hwarned : (s.dirties i).dirty = true)
    (hQ : ∀ s', Aside s s' → Idle heapmem rootLen home v s' chain → hazards s' = [] → Q true s') : Watched T Good (FENCE_CHECK i fuel newEntry) s Q := by
  refine watched_bind.2 (watched_step.2 ⟨?_, ?_⟩)
  · simp only [hwarned, if_pos]
    exact .of_apart ⟨rfl, rfl, rfl⟩
  · simp only [hwarned]
    have hclean : Client heapmem rootLen home v (s.setDirty i (·.clean)) chain := h.keep h.toRest.clean rfl h.out
    have hidle : Idle heapmem rootLen home v (s.setDirty i (·.clean)) chain := { hclean with clean := fun j => by rw [setDirty_eq]; exact dirty_clean _ }
    refine watched_ret.2 (watched_bind.2 (watched_clearHPs (watched_bind.2 (watched_helpCollection hidle.clearHPs.toRest ?_))))
    refine watched_bind.2 (watched_step.2 ⟨.of_apart ⟨rfl, rfl, rfl⟩, watched_ret.2 ?_⟩)
    exact hQ _ ((Aside.setDirty.trans .clearHPs).trans .setDirty) hidle.clearHPs.fence (hazards_fence.trans hazards_clearHPs)

/-! ## The new entry -/

theorem dirties_setWord : (s.setWord w p).dirties = s.dirties := by cases w <;> rfl

/-- An entry that no list holds is written. -/
theorem Idle.unlinked (h : Idle heapmem rootLen home v s chain) (hrest : Rest heapmem rootLen v s') (hu : Unlinked (store s) chain (store s'))
    (hpooled : ∀ x, Pooled s' x → Pooled s x) (hdirties : s'.dirties = s.dirties) : Idle heapmem rootLen home v s' chain :=
  { hrest with
    sound := hu.sound h.sound
    obj := h.obj
    out := fun b a ha hx => h.out b a ha (hpooled _ hx)
    clean := fun j => by rw [hdirties]; exact h.clean j }

theorem Idle.setKeyData {kd : BitVec 64} (h : Idle heapmem rootLen home v s chain) (ha : ∀ b, a ∉ chain b) :
    Idle heapmem rootLen home v (s.setKeyData a kd) chain :=
  h.unlinked h.toRest.setKeyData (store_setKeyData ▸ Store.unlinked_setKeyData ha) (fun _ hx => hx) rfl

theorem Idle.setNext (h : Idle heapmem rootLen home v s chain) (ha : ∀ b, a ∉ chain b) (hp : p = NULL ∨ Obj heapmem p) :
    Idle heapmem rootLen home v (s.setWord (.next a) p) chain :=
  h.unlinked (h.toRest.setWord (permitted hp)) (store_setWord ▸ Store.unlinked_setWord ha) (fun _ hx => hx) rfl

/-- The compare-and-swap of `ListInsert`. -/
theorem Idle.link {prev : Word} (h : Idle heapmem rootLen home v s chain) (hat : At (store s) chain (home key) key.toInt (linkOf prev) rest)
    (hgt : ∀ d ∈ rest.head?, key.toInt < (store s).key d) (hprev : prev ≠ .next 0) (ha : Obj heapmem ⟨a, false⟩) (hout : ∀ b, a ∉ chain b)
    (hpooled : ¬ Pooled s ⟨a, false⟩) (hkd : getKey (s.node a).keyData = key) (hnext : (s.node a).nextEntry = s.word prev) :
    Good s (some (.inserted key)) (s.setWord prev ⟨a, false⟩) ∧ ∃ chain', Idle heapmem rootLen home v (s.setWord prev ⟨a, false⟩) chain' ∧
      (∀ c d, d ∈ chain' c ↔ d ∈ chain c ∨ c = home key ∧ d = a) ∧ (store (s.setWord prev ⟨a, false⟩)).keys home = insert key ((store s).keys home) := by
  have ha0 : a ≠ 0 := fun he => ha.isObj.ne (he ▸ rfl)
  obtain ⟨chain', hsound, hmem, hkeys⟩ := hat.link h.sound hgt ha0 hout hkd (hnext.trans word_linkOf.symm)
  rw [← store_setWord] at hsound hkeys
  refine ⟨.of_sound hsound (node_setWord hprev) (.inr ⟨key, .inl rfl⟩), chain', { h.toRest.setWord (permitted (.inr ha)) with
    sound := hsound
    obj := fun b d hd => ?_
    out := fun b d hd hx => ?_
    clean := fun j => by rw [dirties_setWord]; exact h.clean j }, hmem, hkeys⟩
  · obtain hd | ⟨-, rfl⟩ := (hmem b d).1 hd
    · exact h.obj b d hd
    · exact ha
  · obtain hd | ⟨-, rfl⟩ := (hmem b d).1 hd
    · exact h.out b d hd (pooled_setWord.1 hx)
    · exact hpooled (pooled_setWord.1 hx)

/-- The last part of `ListInsert`: the new entry is written and linked. -/
theorem watched_link {prev : Word} {cur : Ptr} (h : Idle heapmem rootLen home v s chain)
    (hat : At (store s) chain (home key) key.toInt (linkOf prev) rest) (hgt : ∀ d ∈ rest.head?, key.toInt < (store s).key d) (hprev : prev ≠ .next 0)
    (hcur : cur = s.word prev) (hobj : cur = NULL ∨ Obj heapmem cur) (ha : Obj heapmem ⟨a, false⟩) (hpooled : ¬ Pooled s ⟨a, false⟩)
    (hout : ∀ b, a ∉ chain b) :
    Watched T Good (do
      Prog.store (·.setKeyData a (keyWord key))
      Prog.store (·.setWord (.next a) cur)
      if ← casWord prev cur ⟨a, false⟩ (some (.inserted key)) then
        clearHPs i
        return .inr true
      else
        clearHPs i
        return .inl () : P 1 (Unit ⊕ Bool)) s fun r s' => r = .inr true ∧ hazards s' = [] ∧
      ∃ chain', Idle heapmem rootLen home v s' chain' ∧ (store s').keys home = insert key ((store s).keys home) := by
  have ha0 : Word.next a ≠ .next 0 := fun he => ha.isObj.ne (Word.next.inj he ▸ rfl)
  have h₁ : Idle heapmem rootLen home v (s.setKeyData a (keyWord key)) chain := h.setKeyData hout
  have hu₁ : Unlinked (store s) chain (store (s.setKeyData a (keyWord key))) := store_setKeyData ▸ Store.unlinked_setKeyData hout
  have h₂ := h₁.setNext hout hobj
  have hu₂ : Unlinked (store (s.setKeyData a (keyWord key))) chain (store ((s.setKeyData a (keyWord key)).setWord (.next a) cur)) :=
    store_setWord ▸ Store.unlinked_setWord hout
  have hat₁ := hu₁.at h.sound hat
  have hat₂ := hu₂.at h₁.sound hat₁
  have hword : ((s.setKeyData a (keyWord key)).setWord (.next a) cur).word prev = cur := by
    rw [← word_linkOf, hat₁.word_unique h₁.sound hat₂ h₂.sound, hat.word_unique h.sound hat₁ h₁.sound, word_linkOf, ← hcur]
  have hnode : ∀ kd, (s.setKeyData a kd).node 0 = s.node 0 := fun kd => Function.update_of_ne (fun he => ha0 (congrArg Word.next he.symm)) ..
  refine watched_bind.2 (watched_store (.of_sound h₁.sound (hnode _) (.inl rfl)) ?_)
  refine watched_bind.2 (watched_store (.of_sound h₂.sound (node_setWord ha0) (.inl rfl)) ?_)
  have hgt₂ : ∀ d ∈ rest.head?, key.toInt < (store ((s.setKeyData a (keyWord key)).setWord (.next a) cur)).key d := fun d hd => by
    have hmem : d ∈ chain (home key) := hat.sub h.sound d (List.mem_of_mem_head? hd)
    have hkey : (store ((s.setKeyData a (keyWord key)).setWord (.next a) cur)).keyData d = (store s).keyData d :=
      (hu₂.keyData _ d hmem).trans (hu₁.keyData _ d hmem)
    rw [Store.key, hkey]
    exact hgt d hd
  have hkd : getKey (((s.setKeyData a (keyWord key)).setWord (.next a) cur).node a).keyData = key := by
    simp only [Mem.setWord, Mem.setKeyData, Function.update_self, getKey_keyWord]
  have hnext : (((s.setKeyData a (keyWord key)).setWord (.next a) cur).node a).nextEntry = ((s.setKeyData a (keyWord key)).setWord (.next a) cur).word prev := by
    rw [hword]
    simp only [Mem.setWord, Function.update_self]
  obtain ⟨hgood, chain', hidle, -, hkeys⟩ := h₂.link hat₂ hgt₂ hprev ha hout hpooled hkd hnext
  refine watched_bind.2 (watched_cas hword hgood ?_)
  rw [if_pos rfl]
  refine watched_bind.2 (watched_clearHPs ⟨rfl, hazards_clearHPs, chain', hidle.clearHPs, ?_⟩)
  exact (congrArg (Store.keys home) Aside.clearHPs.store_eq).trans (hkeys.trans (by rw [hu₂.keys h₁.sound, hu₁.keys h.sound]))

/-- How a round of `ListInsert` ends. -/
inductive Inserting (heapmem rootLen : List Nat) (home : CInt → Nat × Nat) (v : Nat) (key : CInt) (s : Mem 1) (chain : Nat × Nat → List Nat) :
    Unit ⊕ Bool → Mem 1 → Prop where
  | present {r : Bool × ThreadLocal × BitVec 64} {s' : Mem 1} {chain' : Nat × Nat → List Nat} {rest : List Nat}
      (hfound : Found heapmem rootLen home v key s chain r s' chain' rest) (hr : r.1 = true) : Inserting heapmem rootLen home v key s chain (.inr false) s'
  | linked {s' : Mem 1} {chain' : Nat × Nat → List Nat} (hidle : Idle heapmem rootLen home v s' chain') (hpooled : ∃ x, Pooled s x) (hnew : key ∉ (store s).keys home)
      (hkeys : (store s').keys home = insert key ((store s).keys home)) (hbare : hazards s' = []) : Inserting heapmem rootLen home v key s chain (.inr true) s'
  | collected {r : Bool × ThreadLocal × BitVec 64} {s₁ s₂ s' : Mem 1} {chain' : Nat × Nat → List Nat} {rest : List Nat}
      (hfound : Found heapmem rootLen home v key s chain r s₁ chain' rest) (hr : r.1 = false) (hempty : ∀ x, ¬ Pooled s x) (hphase : v + 2 < 2 ^ 31)
      (hcollected : Collected heapmem rootLen s₁ (v + 2) s₂) (haside : Aside s₂ s') (hidle : Idle heapmem rootLen home (v + 2) s' chain')
      (hbare : hazards s' = []) : Inserting heapmem rootLen home v key s chain (.inl ()) s'

theorem watched_insertRound (hroom : Room heapmem rootLen fuel) (hheads : Heads rootLen home) (hlength : T ∨ (chain (home key)).length + 1 < fuel)
    (hphase : key ∉ (store s).keys home → T ∨ v + 2 < 2 ^ 31 ∨ ∃ x, Pooled s x) (h : Idle heapmem rootLen home v s chain) :
    Watched T Good (insertRound i fuel (headOf home key) key) s (Inserting heapmem rootLen home v key s chain) := by
  refine watched_bind.2 ((watched_find hlength h).mono ?_)
  rintro ⟨found, fres, kd⟩ s₁ ⟨chain₁, rest, hfound⟩
  cases found with
  | true =>
    dsimp only
    rw [if_pos rfl]
    exact .present hfound rfl
  | false =>
    dsimp only
    have habsent := hfound.absent h.sound rfl
    have hkeys := hfound.searched.keys h.sound hfound.sound
    rw [if_neg Bool.false_ne_true]
    have hphase₁ : T ∨ v + 2 < 2 ^ 31 ∨ ∃ x, Pooled s₁ x := (hphase habsent).imp_right fun h => h.imp_right (Exists.imp fun x => (hfound.pooled x).2)
    refine watched_bind.2 ((watched_palloc hroom hphase₁ hfound.toClient).mono ?_)
    rintro newEntry s₂ ⟨halloc, hv⟩
    refine watched_bind.2 (watched_setHP (watched_bind.2 (watched_setHP (watched_bind.2 (watched_setHP ?_)))))
    obtain ⟨hrest, hframe, hpooled, hrem⟩ | ⟨rfl, hempty, hcollected, hrest⟩ := halloc
    · -- an object: it is linked where the search has stopped
      obtain ⟨a, tag⟩ := newEntry
      have ha := hfound.obj_of_pooled hpooled
      obtain rfl : tag = false := ha.tag
      have hclient := hfound.toClient.framed hrest hframe fun x hx => ((hrem x).1 hx).1
      have h₂ : Idle heapmem rootLen home v s₂ chain₁ := { hclient with clean := fun j => by rw [hframe.dirties]; exact hfound.clean j }
      have h₃ := ((h₂.setHP (i := i) (k := 0) hfound.prev_obj).setHP (i := i) (k := 1) hfound.cur_obj).setHP (i := i) (k := 2) (.inr ha)
      have haside : Aside s₂ ((((s₂.setHP i 0 (prevHP (headOf home key) fres.prev)).setHP i 1 fres.cur).setHP i 2 ⟨a, false⟩).setDirty i (·.clean)) :=
        ((Aside.setDirty.trans .setDirty).trans .setDirty).trans .setDirty
      have hstore := haside.store_eq.trans hframe.store_eq
      refine watched_bind.2 (watched_FENCE_CHECK h₃ (fun q hq => Option.some.inj hq ▸ ha.isObj.ne) ?_)
      rw [if_neg Bool.false_ne_true]
      refine (watched_link h₃.fence (hstore ▸ hfound.place) (fun d hd => ?_) hfound.prev_ne_zero ?_ hfound.cur_obj ha ?_ fun b hb => ?_).mono ?_
      · rw [hstore]
        exact lt_of_le_of_ne (hfound.stop d hd).2 fun he => Bool.false_ne_true (hfound.answer.2 ⟨d, hd, BitVec.toInt_inj.1 he.symm⟩)
      · rw [← word_linkOf, hstore, word_linkOf]
        exact hfound.cur
      · rw [haside.pooled, hrem]
        exact fun hx => hx.2 rfl
      · exact hfound.out b a hb hpooled
      · rintro _ s' ⟨rfl, hbare, chain', hidle, hkeys'⟩
        refine .linked hidle ⟨_, (hfound.pooled _).1 hpooled⟩ habsent ?_ hbare
        rw [hkeys', hstore, hkeys]
    · -- `NULL`: the collection has set the dirty bit
      have h₂ := (((hfound.toClient.collected hheads hcollected hrest).setHP (i := i) (k := 0) hfound.prev_obj).setHP (i := i) (k := 1) hfound.cur_obj).setHP
        (i := i) (k := 2) (.inl rfl)
      refine watched_bind.2 (watched_FENCE_CHECK_warned h₂ ?_ fun s' haside hidle hbare => ?_)
      · rw [dirty_setHP, dirty_setHP, dirty_setHP]
        exact hcollected.warned i
      · rw [if_pos rfl]
        exact .collected hfound rfl (fun x hx => hempty x ((hfound.pooled x).2 hx)) (hv rfl) hcollected
          (((Aside.setDirty.trans .setDirty).trans .setDirty).trans haside) hidle hbare

end OptimisticAccess.AOA.Solo
