import OptimisticAccess.MOA.Hold

/-!
# `Reclamation`

The hand-over of the frozen batch, the warnings, and the table of hazard pointers. A thread leaves
`Reclamation` with every thread warned of its version, and with every hazard pointer in its table
that protects an object of a batch up to that version.
-/

namespace OptimisticAccess.MOA

open Conc Prog

variable {n : Nat} {i j t : Fin n} {s s' : Mem n} {g g' : Ghost n} {v k : Nat} {p : Ptr} {F : Files}

/-! ## What does not change behind a thread's back -/

/-- A value of `reclaim` that was read: no thread goes back, and a frozen list does not change. -/
def Knows (r : VerEntry) : Assert n := fun s _ => r.ver ≤ s.reclaim.ver ∧ (r.ver % 2 = 1 → s.reclaim.ver = r.ver → s.reclaim = r)

theorem steady_knows (r : VerEntry) : Steady i (Knows (n := n) r) := .trans fun t s g s' g' hT h => by
  refine ⟨h.1.trans hT.reclaim, fun hodd hv => ?_⟩
  have hle := hT.reclaim
  have h1 := h.1
  have hsame : s.reclaim = r := h.2 hodd (by omega)
  exact (hT.frozen (by rw [hsame]; exact hodd) (by rw [hsame, hv])).trans hsame

theorem knows_read (s : Mem n) (g : Ghost n) : Knows s.reclaim s g := ⟨le_refl _, fun _ _ => rfl⟩

def Ver (i : Fin n) (v : Nat) : Assert n := fun s _ => s.localVer i = v

theorem steady_ver : Steady i (Ver i v) := .priv fun _ _ _ _ hp h => hp.localVer.trans h

/-- `reclaim` has reached version `v`. -/
def Past (v : Nat) : Assert n := fun s _ => v ≤ s.reclaim.ver

theorem steady_past : Steady i (Past (n := n) v) := .trans fun _ _ _ _ _ hT h => h.trans hT.reclaim

/-- `toProcess` has reached version `v`. -/
def Moved (v : Nat) : Assert n := fun s _ => v ≤ s.toProcess.ver

theorem steady_moved : Steady i (Moved (n := n) v) := .trans fun _ _ _ _ _ hT h => h.trans hT.toProcess

def Warned (v : Nat) (j : Fin n) : Assert n := fun _ g => v ≤ g.warned j

theorem steady_warned : Steady i (Warned v j) := .trans fun _ _ _ _ _ hT h => h.trans (hT.warned j)

theorem steady_ready : Steady i fun s _ => Ready i s := fun _ _ _ _ _ hp hS _ hT h => h.trans hS hT hp.localVer

/-! ## The hand-over -/

theorem private_mem (halloc : s'.alloc_cache = s.alloc_cache) (hcache : s'.free_cache = s.free_cache) (hver : s'.localVer = s.localVer)
    (hhps : s'.hps = s.hps) (hHPs : s'.HPs = s.HPs) (hword : s'.nextEntry = s.nextEntry) (hnext : s'.next = s.next)
    (hfree : s'.free = s.free) (hptrs : s'.ptrs = s.ptrs) : Private j s g s' g :=
  ⟨by rw [halloc], by rw [hcache], by rw [hver], by rw [hhps], by rw [hHPs], rfl, fun _ _ => rfl, fun _ _ => by rw [hword],
    fun _ _ => rfl, fun _ _ => by rw [hnext], fun _ _ => by rw [hfree], fun _ _ => by rw [hptrs], le_refl _, id⟩

theorem private_freeze (r : VerEntry) (due : Nat) : Private j s g { s with reclaim := r } (g.freeze due) := by
  refine ⟨rfl, rfl, rfl, rfl, rfl, rfl, fun _ _ => rfl, fun _ _ => rfl, fun e ho => ?_, fun _ _ => rfl, fun _ _ => rfl, fun _ _ => rfl,
    le_refl _, id⟩
  refine ((g.place e).freeze_eq due).resolve_right fun h => ?_
  obtain ho | ho := ho
  · rw [h.1] at ho
    cases ho
  · rw [show (g.freeze due).place e = .batch due from h.2] at ho
    cases ho

theorem booked_freeze (h : s.reclaim.ver % 2 = 0) (due : Nat) :
    Booked i s g (some .frozen) { s with reclaim := ⟨s.reclaim.head, s.reclaim.ver + 1⟩ } (g.freeze due) := by
  refine ⟨rfl, fun _ => rfl, fun e => ?_, fun j h => ?_, fun e d h => .inl ?_, fun e h => (by cases h), .frozen h rfl rfl, by simp⟩
  · obtain hp | ⟨hp, hp'⟩ := (g.place e).freeze_eq due
    · exact congrArg Place.desk hp
    · change ((g.place e).freeze due).desk = (g.place e).desk
      rw [hp', hp]
      rfl
  · exact (h.resolve_left (by simp)).2
  · change (g.place e).freeze due = _
    rw [h]
    rfl

/-- What thread `i` knows in the loops of `Reclamation`. -/
def Turns (i : Fin n) (F : Files) (v : Nat) : Assert n := fun s g => Holds i F s g ∧ Ver i v s g

theorem steady_turns : Steady i (Turns i F v) := steady_holds.and steady_ver

theorem freeze_spec (fuel : Nat) (reclaim : VerEntry) :
    Spec i (fun s g => (Turns i F v s g ∧ Ready i s) ∧ Knows reclaim s g ∧ v ≤ reclaim.ver) (freeze fuel v reclaim) fun r s g =>
      Turns i F v s g ∧ Knows r s g ∧ v < r.ver := by
  refine .iter (J := fun reclaim s g => (Turns i F v s g ∧ Ready i s) ∧ Knows reclaim s g ∧ v ≤ reclaim.ver) (fun reclaim => ?_) fuel reclaim
  have hready : Steady i fun s g => Turns i F v s g ∧ Ready i s := steady_turns.and steady_ready
  have hsteady : Steady i fun s g => (Turns i F v s g ∧ Ready i s) ∧ Knows reclaim s g ∧ v ≤ reclaim.ver :=
    hready.and ((steady_knows reclaim).and (.fact _))
  refine .ite (fun hv => ?_) fun hv => .ret fun s g h => ⟨h.1.1, h.2.1, by have := h.2.2; omega⟩
  refine .bind (B := fun b s g => (Turns i F v s g ∧ Ready i s) ∧ (b = true → Knows ⟨reclaim.head, v + 1⟩ s g))
    (.publicCas hsteady (fun s g h hS hok => ?_) fun s g h _ _ => ⟨h.1, fun h => by cases h⟩) fun b => .ite (fun hb => ?_) fun hb => ?_
  · obtain ⟨⟨⟨-, hver⟩, hready⟩, -⟩ := h
    have hr : s.reclaim.ver = v := by rw [hok, hv]
    have hodd : v % 2 = 0 := by rw [← hver]; exact hS.clock.local_even i
    subst hok
    have hbook := booked_freeze (i := i) (g := g) (s := s) (by rw [hr]; exact hodd) (v + 2)
    rw [hr] at hbook
    refine ⟨g.freeze (v + 2), hS.freeze hr hodd fun ht => ?_, private_freeze .., hbook, fun h => ⟨h.1, fun _ => ⟨le_refl _, fun _ _ => rfl⟩⟩⟩
    have hver' : s.localVer i = v := hver
    exact hready.resolve_left (by omega) (by rw [ht, hver'])
  · exact .ret fun s g h => ⟨h.1.1, h.2 hb, Nat.lt_succ_self v⟩
  · refine .bind (B := fun r s g => (Turns i F v s g ∧ Ready i s) ∧ Knows r s g ∧ v ≤ r.ver)
      (.load (hready.and (.imp _ (steady_knows _))) fun s g h hS => ?_) fun r => .ret fun s g h => h
    refine ⟨h.1, knows_read s g, ?_⟩
    rw [← show s.localVer i = v from h.1.1.2]
    exact hS.clock.local_le i

theorem booked_moved (h : s.reclaim.ver = s.toProcess.ver + 1) (hd : s.toProcess.head = none) :
    Booked i s g (some .moved) { s with toProcess := ⟨s.reclaim.head, s.toProcess.ver + 2⟩ } g := by
  exact ⟨rfl, fun _ => rfl, fun e => rfl, fun j h => (h.resolve_left (by simp)).2, fun e d h => .inl h, fun e h => (by cases h),
    .moved h hd rfl rfl, by simp⟩

theorem local_even (hS : Shape s g) (h : Turns i F v s g) : v % 2 = 0 := by
  have := hS.clock.local_even i
  rwa [show s.localVer i = v from h.2] at this

theorem handOver_spec (fuel : Nat) {r : VerEntry} (hr : r.ver = v + 1) :
    Spec i (fun s g => Turns i F v s g ∧ Knows r s g) (handOver fuel v r.head) fun _ s g =>
      (Turns i F v s g ∧ Knows r s g) ∧ Moved (v + 2) s g := by
  have hsteady : Steady i fun s g => Turns i F v s g ∧ Knows r s g := steady_turns.and (steady_knows r)
  have hread : ∀ s g, Shape s g → Turns i F v s g ∧ Knows r s g →
      (Turns i F v s g ∧ Knows r s g) ∧ Moved s.toProcess.ver s g ∧ (s.toProcess.ver = v ∨ v + 2 ≤ s.toProcess.ver) := by
    intro s g hS h
    have h1 := local_le_toProcess (i := i) hS
    have h2 := hS.clock.even
    have h3 := local_even hS h.1
    rw [show s.localVer i = v from h.1.2] at h1
    exact ⟨h, le_refl s.toProcess.ver, by omega⟩
  refine .bind (B := fun (process : VerEntry) s g => (Turns i F v s g ∧ Knows r s g) ∧ Moved process.ver s g ∧ (process.ver = v ∨ v + 2 ≤ process.ver))
    (.load hsteady fun s g h hS => hread s g hS h) fun process => ?_
  refine .iter (J := fun process s g => (Turns i F v s g ∧ Knows r s g) ∧ Moved process.ver s g ∧ (process.ver = v ∨ v + 2 ≤ process.ver))
    (fun process => ?_) fuel process
  have hsteady' : Steady i fun s g =>
      (Turns i F v s g ∧ Knows r s g) ∧ Moved process.ver s g ∧ (process.ver = v ∨ v + 2 ≤ process.ver) :=
    hsteady.and (steady_moved.and (.fact _))
  refine .ite (fun hv => ?_) fun hv => .ret fun s g h => ⟨h.1, (h.2.2.resolve_left hv).trans h.2.1⟩
  refine .bind (Spec.defined.post fun _ s g h => h.2) fun _ => ?_
  refine .bind (B := fun b s g => (Turns i F v s g ∧ Knows r s g) ∧ (b = true → Moved (v + 2) s g))
    (.publicCas hsteady' (fun s g h hS hok => ?_) fun s g h _ _ => ⟨h.1, fun h => by cases h⟩) fun b => .ite (fun hb => ?_) fun hb => ?_
  · obtain ⟨⟨-, hknows⟩, -⟩ := h
    have ht : s.toProcess.ver = v := by rw [hok, hv]
    -- nobody can have reset `reclaim` before the list is `toProcess`
    have hver : s.reclaim.ver = v + 1 := by
      have h1 := hS.clock.near
      have h2 := hknows.1
      omega
    have hodd : r.ver % 2 = 1 := by
      have h1 := hS.clock.even
      omega
    have hrec : s.reclaim = r := hknows.2 hodd (hver.trans hr.symm)
    have hbook := booked_moved (i := i) (g := g) (s := s) (by omega) (hS.queues.link_frozen (by omega)).2
    rw [ht] at hbook
    subst hrec
    exact ⟨g, hS.handOver ht hver, private_mem rfl rfl rfl rfl rfl rfl rfl rfl rfl, hbook, fun h => ⟨h.1, fun _ => le_refl (v + 2)⟩⟩
  · exact .ret fun s g h => ⟨h.1, h.2 hb⟩
  · exact .bind (.load (hsteady.and (.imp _ steady_moved)) fun s g h hS => hread s g hS h.1) fun process => .ret fun s g h => h

theorem resetReclaim_spec (fuel : Nat) :
    Spec i (fun s g => Turns i F v s g ∧ Moved (v + 2) s g ∧ Past (v + 1) s g) (resetReclaim fuel v) fun _ s g =>
      Turns i F v s g ∧ Past (v + 2) s g := by
  have hsteady : Steady i fun s g => Turns i F v s g ∧ Moved (v + 2) s g ∧ Past (v + 1) s g :=
    steady_turns.and (steady_moved.and steady_past)
  refine .bind (B := fun (reclaim : VerEntry) s g => (Turns i F v s g ∧ Moved (v + 2) s g ∧ Past (v + 1) s g) ∧ v + 1 ≤ reclaim.ver ∧ Past reclaim.ver s g)
    (.load hsteady fun s g h _ => ⟨h, h.2.2, le_refl s.reclaim.ver⟩) fun reclaim => ?_
  refine .iter (J := fun reclaim s g =>
      (Turns i F v s g ∧ Moved (v + 2) s g ∧ Past (v + 1) s g) ∧ v + 1 ≤ reclaim.ver ∧ Past reclaim.ver s g) (fun reclaim => ?_) fuel reclaim
  have hsteady' : Steady i fun s g =>
      (Turns i F v s g ∧ Moved (v + 2) s g ∧ Past (v + 1) s g) ∧ v + 1 ≤ reclaim.ver ∧ Past reclaim.ver s g :=
    hsteady.and ((Steady.fact _).and steady_past)
  refine .ite (fun hv => ?_) fun hv => .ret fun s g h => ⟨h.1.1, ?_⟩
  · refine .bind (Spec.defined.post fun _ s g h => h.2) fun _ => ?_
    refine .bind (B := fun b s g => (Turns i F v s g ∧ Moved (v + 2) s g ∧ Past (v + 1) s g) ∧ (b = true → Past (v + 2) s g))
      (.publicCas hsteady' (fun s g h hS hok => ?_) fun s g h _ _ => ⟨h.1, fun h => by cases h⟩) fun b => .ite (fun hb => ?_) fun hb => ?_
    · have hver : s.reclaim.ver = v + 1 := by rw [hok, hv]
      have heven := local_even hS h.1.1
      refine ⟨g, hS.resetReclaim hver h.1.2.1 heven, private_mem rfl rfl rfl rfl rfl rfl rfl rfl rfl,
        .of_quiet rfl rfl (fun _ => rfl) (fun _ => rfl) (fun _ h => h) (fun _ _ h => h) (fun h => ?_) rfl,
        fun h => ⟨h.1, fun _ => le_refl (v + 2)⟩⟩
      change (v + 2) % 2 = 1 at h
      omega
    · exact .ret fun s g h => ⟨h.1.1, h.2 hb⟩
    · exact .bind (.load (hsteady.and (.imp _ steady_past)) fun s g h _ => ⟨h.1, h.1.2.2, le_refl s.reclaim.ver⟩) fun reclaim =>
        .ret fun s g h => h
  · have h1 := h.2.1
    exact Nat.le_trans (by omega) h.2.2

/-! ## The warnings -/

theorem le_level (r : VerEntry) : r.ver ≤ level r := by
  unfold level
  omega

/-- After a read of `x`: the word has been cleaned at most, or the thread has been warned. -/
def Marks (v : Nat) (j : Fin n) (x : Nat) : Assert n := fun s g =>
  Past v s g ∧ (s.dirtyNphase j = x ∨ s.dirtyNphase j = x / 2 ^ 8 * 2 ^ 8 ∨ Warned v j s g)

theorem steady_marks (x : Nat) : Steady i (Marks v j x) := .trans fun t s g s' g' hT h => by
  refine ⟨h.1.trans hT.reclaim, ?_⟩
  have hwarned := hT.warned j
  have hlevel := (h.1.trans hT.reclaim).trans (le_level s'.reclaim)
  have h2 := h.2
  have hstamp := hT.stamp j
  unfold Warned at h2 ⊢
  omega

variable {A : Assert n}

theorem booked_warn : Booked i s g none (s.setDirtyNphase j k) (g.warn j v) :=
  .of_quiet rfl rfl (fun _ => rfl) (fun _ => rfl) (fun _ h => h) (fun _ _ h => h) (fun _ => rfl) rfl

theorem private_warn : Private i s g (s.setDirtyNphase j k) (g.warn j v) :=
  ⟨rfl, rfl, rfl, rfl, rfl, rfl, fun _ _ => rfl, fun _ _ => rfl, fun _ _ => rfl, fun _ _ => rfl, fun _ _ => rfl, fun _ _ => rfl,
    le_refl _, id⟩

theorem casDirty_spec (hA : Steady i A) (x : Nat) :
    Spec i (fun s g => A s g ∧ Marks v j x s g) (warn.casDirty (v * 2 ^ 8 + 1) j x) fun _ s g =>
      A s g ∧ Marks v j (x / 2 ^ 8 * 2 ^ 8) s g ∧ (x / 2 ^ 8 * 2 ^ 8 = x → Warned v j s g) := by
  refine .publicCas (hA.and (steady_marks x)) (fun s g h hS hok => ?_) fun s g h _ hok => ⟨h.1, ?_⟩
  · have hlevel := h.2.1.trans (le_level s.reclaim)
    refine ⟨_, hS.warn hlevel, private_warn, booked_warn, fun h' => ?_⟩
    have hwarned : Warned v j (s.setDirtyNphase j (v * 2 ^ 8 + 1)) (g.warn j (level s.reclaim)) :=
      hlevel.trans (Function.update_self (f := g.warned) ..).symm.le
    exact ⟨h'.1, ⟨h'.2.1, .inr (.inr hwarned)⟩, fun _ => hwarned⟩
  · obtain ⟨hpast, hx⟩ := h.2
    have hrest := hx.resolve_left hok
    exact ⟨⟨hpast, hrest.imp_right .inr⟩, fun hclean => hrest.resolve_left fun h' => hok (h'.trans hclean)⟩

theorem warn_spec (hA : Steady i A) (hver : ∀ s g, A s g → Ver i v s g) :
    Spec i A (warn (v * 2 ^ 8) (v * 2 ^ 8 + 1) j) fun _ s g => A s g ∧ Warned v j s g := by
  have hread : ∀ s g, Shape s g → A s g → Past v s g ∧ (v * 2 ^ 8 ≤ s.dirtyNphase j → Warned v j s g) := by
    intro s g hS h
    have h1 := hS.clock.local_le i
    rw [show s.localVer i = v from hver s g h] at h1
    refine ⟨h1, fun hle => ?_⟩
    have h2 := (hS.stamps j).stamp
    unfold Warned
    omega
  refine .bind (B := fun (x : Nat) s g => (A s g ∧ Marks v j x s g) ∧ (v * 2 ^ 8 ≤ x → Warned v j s g))
    (.load hA fun s g h hS => ⟨⟨h, (hread s g hS h).1, .inl rfl⟩, (hread s g hS h).2⟩) fun x => ?_
  refine .ite (fun hx => .ret fun s g h => ⟨h.1.1, h.2 hx⟩) fun _ => ?_
  refine .bind ((casDirty_spec hA x).pre fun s g h => h.1) fun _ => ?_
  refine .bind (B := fun (y : Nat) s g => (A s g ∧ Marks v j y s g) ∧ (v * 2 ^ 8 ≤ y → Warned v j s g) ∧ (y / 2 ^ 8 * 2 ^ 8 = y ∨ Warned v j s g))
    (.load (hA.and ((steady_marks _).and (.imp _ steady_warned))) fun s g h hS => ?_) fun y => ?_
  · obtain ⟨hA', ⟨hpast, hx⟩, -⟩ := h
    refine ⟨⟨hA', hpast, .inl rfl⟩, (hread s g hS hA').2, ?_⟩
    obtain hx | hx | hx := hx
    · exact .inl (by omega)
    · exact .inl (by omega)
    · exact .inr hx
  · refine .ite (fun hy => .ret fun s g h => ⟨h.1.1, h.2.1 hy⟩) fun _ => ?_
    -- the second attempt: a word that was clean when read has not changed since, or the thread has been warned
    have hA' : Steady i fun s g => A s g ∧ (y / 2 ^ 8 * 2 ^ 8 = y ∨ Warned v j s g) := hA.and (.or (.fact _) steady_warned)
    refine .bind ((casDirty_spec hA' y).pre fun s g h => ⟨⟨h.1.1, h.2.2⟩, h.1.2⟩) fun _ => .ret fun s g h => ⟨h.1.1, ?_⟩
    exact h.1.2.elim h.2.2 id

/-- All threads are warned. -/
theorem warnAll_spec (hA : Steady i A) (hver : ∀ s g, A s g → Ver i v s g) :
    Spec i A (forEach (warn (v * 2 ^ 8) (v * 2 ^ 8 + 1)) (List.finRange n)) fun _ s g => A s g ∧ ∀ j, Warned v j s g := by
  refine Spec.pre (A := fun s g => A s g ∧ ∀ j, j ∈ List.finRange n ∨ Warned v j s g) (.post (.forEach
    (J := fun js s g => A s g ∧ ∀ j, j ∈ js ∨ Warned v j s g) (fun j js => ?_) (List.finRange n)) fun _ s g h => ⟨h.1, fun j => ?_⟩)
    fun s g h => ⟨h, fun j => .inl (List.mem_finRange j)⟩
  · have hA' : Steady i fun s g => A s g ∧ ∀ j', j' ∈ j :: js ∨ Warned v j' s g :=
      hA.and (.all fun _ => .or (.fact _) steady_warned)
    refine (warn_spec hA' fun s g h => hver s g h.1).post fun _ s g h => ⟨h.1.1, fun j' => ?_⟩
    obtain hj | hj := h.1.2 j'
    · obtain rfl | hj := List.mem_cons.1 hj
      · exact .inr h.2
      · exact .inl hj
    · exact .inr hj
  · exact (h.2 j).resolve_left List.not_mem_nil

/-! ## The table of hazard pointers -/

/-- Everything found in the one table is found in the other. -/
def Extends (set set' : HashTable) : Prop := ∀ key ≠ 0, set.Finds key → set'.Finds key

/-- `A` survives additions to the table of thread `i`. -/
def Grows (i : Fin n) (A : Assert n) : Prop :=
  ∀ s g set set', s.hps i = some set → Extends set set' → A s g → A (s.setHps i set') g

theorem Grows.and {A C : Assert n} (hA : Grows i A) (hC : Grows i C) : Grows i fun s g => A s g ∧ C s g :=
  fun s g set set' hset he h => ⟨hA s g set set' hset he h.1, hC s g set set' hset he h.2⟩

theorem Grows.all {ι : Type} {A : ι → Assert n} (h : ∀ x, Grows i (A x)) : Grows i fun s g => ∀ x, A x s g :=
  fun s g set set' hset he hA x => h x s g set set' hset he (hA x)

theorem Grows.imp (c : Prop) {A : Assert n} (hA : Grows i A) : Grows i fun s g => c → A s g :=
  fun s g set set' hset he h hc => hA s g set set' hset he (h hc)

theorem Grows.or_fact (c : Prop) {A : Assert n} (hA : Grows i A) : Grows i fun s g => c ∨ A s g :=
  fun s g set set' hset he h => h.imp_right (hA s g set set' hset he)

theorem Grows.warned : Grows i (Warned v j) := fun _ _ _ _ _ _ h => h

theorem Grows.turns : Grows i (Turns i F.blind v) := fun _ _ _ _ _ _ h =>
  ⟨⟨h.1.desk, h.1.hands, h.1.HPs, h.1.outside, h.1.seen, h.1.spent, False.elim, False.elim⟩, h.2⟩

theorem setHps_self (set : HashTable) : (s.setHps i set).hps i = some set := Function.update_self ..

theorem Found.grows (q : Ptr) : Grows i fun s (_ : Ghost n) => Found (s.hps i) q := by
  rintro s g set set' hset he ⟨set'', h, hne, hf⟩
  obtain rfl := Option.some.inj (hset.symm.trans h)
  exact ⟨set', setHps_self set', hne, he _ hne hf⟩

theorem steady_found (q : Ptr) : Steady i fun s (_ : Ghost n) => Found (s.hps i) q :=
  .priv fun _ _ _ _ hp h => by rwa [hp.hps]

theorem steady_hps (set : Option HashTable) : Steady i fun s (_ : Ghost n) => s.hps i = set :=
  .priv fun _ _ _ _ hp h => hp.hps.trans h

/-- A failing assertion of the table ends the thread, and changes nothing. -/
theorem mayFail_set (hA : Steady i A) (e : SetAssertion) :
    MayFail (proto n) i (fun w => A w.mem w.ghost) (.assertFailed (.set e)) := by
  refine Spec.step (B := fun _ _ _ => False) hA fun w _ hI => ⟨w.ghost, hI.shape, .refl .., ?_, trivial⟩
  exact .of_quiet rfl rfl (fun _ => rfl) (fun _ => rfl) (fun _ h => h) (fun _ _ h => h) (fun _ => rfl) rfl

theorem setAddP_spec (hA : Steady i A) (hG : Grows i A) (fuel : Nat) (p : Ptr) :
    Spec i A (setAddP i fuel p) fun _ s g => A s g ∧ Found (s.hps i) p := by
  refine .bind (B := fun set s g => A s g ∧ s.hps i = set) (.load hA fun s g h _ => ⟨h, rfl⟩) fun t => ?_
  cases t with
  | none => exact .halt
  | some set =>
    have hA' : Steady i fun s g => A s g ∧ s.hps i = some set := hA.and (steady_hps _)
    refine .bind (B := fun set' s g => (lowWord p ≠ 0 ∧ set'.Finds (lowWord p) ∧ Extends set set') ∧ A s g ∧ s.hps i = some set)
      (setAdd_spec (fun e => mayFail_set hA' e) fuel set (lowWord p)) fun set' => ?_
    refine .act ((Steady.fact _).and hA') fun s g h hS _ => ⟨g, hS.setHps set', ?_, ?_⟩
    · exact .of_quiet rfl rfl (fun _ => rfl) (fun _ => rfl) (fun _ h => h) (fun _ _ h => h) (fun _ => rfl) rfl
    · obtain ⟨⟨hne, hf, he⟩, hA, hset⟩ := h
      exact ⟨hG s g set set' hset he hA, set', setHps_self set', hne, hf⟩

/-- `Caught`, with what keeps it. `R` may ask what the table of thread `i` has. -/
structure Spied (i : Fin n) (v : Nat) (j : Fin n) (k : Nat) (R : Option HashTable → Ptr → Prop) (s : Mem n) (g : Ghost n) : Prop where
  ver : Ver i v s g
  warned : Warned v j s g
  caught : Caught i j k (R (s.hps i)) s g

theorem steady_spied {R : Option HashTable → Ptr → Prop} (hk : k < 3) : Steady i (Spied i v j k R) := fun _ _ _ _ _ hp hS _ hT h => by
  refine ⟨hp.localVer.trans h.ver, h.warned.trans (hT.warned j), ?_⟩
  rw [hp.hps]
  exact h.caught.trans hk hS hT hp.localVer (by rw [show _ = v from h.ver]; exact h.warned)

theorem grows_spied {R : Option HashTable → Ptr → Prop}
    (hR : ∀ set set' q, Extends set set' → R (some set) q → R (some set') q) : Grows i (Spied i v j k R) := by
  intro s g set set' hset he h
  refine ⟨h.ver, h.warned, fun hwin hne hd => ?_⟩
  have := h.caught hwin hne hd
  rw [hset] at this
  rw [setHps_self]
  exact hR set set' _ he this

theorem found_extends (set set' : HashTable) (q : Ptr) (he : Extends set set') (h : Found (some set) q) : Found (some set') q := by
  obtain ⟨_, h', hne, hf⟩ := h
  obtain rfl := Option.some.inj h'
  exact ⟨set', rfl, hne, he _ hne hf⟩

/-- The hazard pointers of thread `j` go into the table. -/
theorem readHPs_spec (hA : Steady i A) (hG : Grows i A) (hv : ∀ s g, A s g → Ver i v s g ∧ Warned v j s g) (fuel : Nat) :
    Spec i A (readHPs i fuel j) fun _ s g => A s g ∧ ∀ k < 3, Spied i v j k Found s g := by
  -- a hazard pointer that protects something `i` might clear is the one that has been read
  have hload : ∀ k, k < 3 → ∀ {C : Assert n}, Steady i C → (∀ s g, C s g → A s g) → Spec i C (load (·.HPs j k))
      fun p s g => C s g ∧ Spied i v j k (fun _ q => q = p) s g := fun k _ _ hC hCA =>
    .load hC fun s g h _ => ⟨h, (hv s g (hCA s g h)).1, (hv s g (hCA s g h)).2, fun _ _ _ => rfl⟩
  refine .bind (hload 0 (by omega) hA fun _ _ h => h) fun p₀ => ?_
  have h₀ : Steady i fun s g => A s g ∧ Spied i v j 0 (fun _ q => q = p₀) s g := hA.and (steady_spied (by omega))
  refine .bind (hload 1 (by omega) h₀ fun _ _ h => h.1) fun p₁ => ?_
  have h₁ : Steady i fun s g => (A s g ∧ Spied i v j 0 (fun _ q => q = p₀) s g) ∧ Spied i v j 1 (fun _ q => q = p₁) s g :=
    h₀.and (steady_spied (by omega))
  refine .bind (hload 2 (by omega) h₁ fun _ _ h => h.1.1) fun p₂ => ?_
  have h₂ : Steady i fun s g => ((A s g ∧ Spied i v j 0 (fun _ q => q = p₀) s g) ∧ Spied i v j 1 (fun _ q => q = p₁) s g) ∧
      Spied i v j 2 (fun _ q => q = p₂) s g := h₁.and (steady_spied (by omega))
  have hG₂ : Grows i fun s g => ((A s g ∧ Spied i v j 0 (fun _ q => q = p₀) s g) ∧ Spied i v j 1 (fun _ q => q = p₁) s g) ∧
      Spied i v j 2 (fun _ q => q = p₂) s g :=
    ((hG.and (grows_spied fun _ _ _ _ h => h)).and (grows_spied fun _ _ _ _ h => h)).and (grows_spied fun _ _ _ _ h => h)
  generalize hC : (fun (s : Mem n) (g : Ghost n) => ((A s g ∧ Spied i v j 0 (fun _ q => q = p₀) s g) ∧
    Spied i v j 1 (fun _ q => q = p₁) s g) ∧ Spied i v j 2 (fun _ q => q = p₂) s g) = C at h₂ hG₂
  have hmem : ∀ s g, C s g → A s g ∧ ∀ k < 3, ∃ p ∈ [p₀, p₁, p₂], Spied i v j k (fun _ q => q = p) s g := by
    rintro s g h
    subst hC
    refine ⟨h.1.1.1, fun k hk => ?_⟩
    obtain rfl | rfl | rfl : k = 0 ∨ k = 1 ∨ k = 2 := by omega
    · exact ⟨p₀, by simp, h.1.1.2⟩
    · exact ⟨p₁, by simp, h.1.2⟩
    · exact ⟨p₂, by simp, h.2⟩
  refine Spec.pre (A := fun s g => C s g ∧ ∀ p, p ∈ [p₀, p₁, p₂] → p = NULL ∨ p ∈ [p₀, p₁, p₂] ∨ Found (s.hps i) p)
    (.post (.forEach (J := fun ps s g => C s g ∧ ∀ p, p ∈ [p₀, p₁, p₂] → p = NULL ∨ p ∈ ps ∨ Found (s.hps i) p) (fun p ps => ?_)
      [p₀, p₁, p₂]) fun _ s g h => ?_) fun s g h => ⟨h, fun p hp => .inr (.inl hp)⟩
  · have hsteady : Steady i fun s g => C s g ∧ ∀ q, q ∈ [p₀, p₁, p₂] → q = NULL ∨ q ∈ p :: ps ∨ Found (s.hps i) q :=
      h₂.and (.all fun q => .imp _ (.or (.fact _) (.or (.fact _) (steady_found q))))
    have hgrows : Grows i fun s g => C s g ∧ ∀ q, q ∈ [p₀, p₁, p₂] → q = NULL ∨ q ∈ p :: ps ∨ Found (s.hps i) q :=
      hG₂.and (.all fun q => .imp _ (.or_fact _ (.or_fact _ (Found.grows q))))
    refine .ite (fun _ => (setAddP_spec hsteady hgrows fuel p).post fun _ s g h => ⟨h.1.1, fun q hq => ?_⟩) fun hp =>
      .ret fun s g h => ⟨h.1, fun q hq => ?_⟩
    · refine (h.1.2 q hq).imp_right fun h' => ?_
      obtain h' | h' := h'
      · obtain rfl | h' := List.mem_cons.1 h'
        · exact .inr h.2
        · exact .inl h'
      · exact .inr h'
    · obtain h' | h' | h' := h.2 q hq
      · exact .inl h'
      · obtain rfl | h' := List.mem_cons.1 h'
        · exact .inl (not_not.1 hp)
        · exact .inr (.inl h')
      · exact .inr (.inr h')
  · obtain ⟨hA', hspied⟩ := hmem s g h.1
    refine ⟨hA', fun k hk => ?_⟩
    obtain ⟨p, hp, hs⟩ := hspied k hk
    refine ⟨hs.ver, hs.warned, fun hwin hne hd => ?_⟩
    have heq := hs.caught hwin hne hd
    obtain h' | h' | h' := h.2 p hp
    · exact absurd (heq.trans h') hne
    · exact absurd h' List.not_mem_nil
    · rw [heq]
      exact h'

/-! ## The whole of `Reclamation` -/

/-- `local->localVer += 2`. -/
theorem bump_spec (hF : F.blind = F) :
    Spec i (fun s g => Turns i F v s g ∧ Past (v + 2) s g)
      (store fun s => { s with localVer := Function.update s.localVer i (s.localVer i + 2) }) fun _ => Turns i F (v + 2) := by
  refine .act (steady_turns.and steady_past) fun s g h hS _ => ?_
  obtain ⟨⟨hh, hver⟩, hpast⟩ := h
  have hver' : s.localVer i = v := hver
  refine ⟨g, hS.setLocalVer (hver'.symm ▸ hpast), ?_, ?_, ?_⟩
  · exact .of_quiet rfl rfl (fun _ => rfl) (fun _ => rfl) (fun _ h => h) (fun _ _ h => h) (fun _ => rfl) rfl
  · rw [← hF] at hh ⊢
    exact ⟨hh.desk, hh.hands, hh.HPs, hh.outside, hh.seen, hh.spent, False.elim, False.elim⟩
  · exact (Function.update_self ..).trans (congrArg (· + 2) hver')

theorem clearSet_spec (hA : Steady i A) (hG : ∀ s g set, A s g → A (s.setHps i set) g) : Spec i A (clearSet i) fun _ => A := by
  refine .act hA fun s g h hS _ => ⟨g, hS.setHps _, ?_, hG s g _ h⟩
  exact .of_quiet rfl rfl (fun _ => rfl) (fun _ => rfl) (fun _ h => h) (fun _ _ h => h) (fun _ => rfl) rfl

/-- The part of `Reclamation` after the hand-over. -/
theorem scan_spec (hF : F.blind = F) (fuel : Nat) :
    Spec i (fun s g => Turns i F v s g ∧ Past (v + 2) s g)
      (do
        store fun s : Mem n => { s with localVer := Function.update s.localVer i (s.localVer i + 2) }
        let localVer ← load (·.localVer i)
        let dNp := localVer * 2 ^ 8
        forEach (warn dNp (dNp + 1)) (List.finRange n)
        clearSet i
        forEach (readHPs i fuel) (List.finRange n))
      fun _ => Holds i { F with scan := True } := by
  refine .bind (bump_spec hF) fun _ => ?_
  refine .bind (B := fun localVer s g => Turns i F (v + 2) s g ∧ localVer = v + 2)
    (.load steady_turns fun s g h _ => ⟨h, h.2⟩) fun localVer => Spec.fact (fun _ _ h => h.2) fun e => ?_
  subst e
  refine .bind ((warnAll_spec steady_turns fun _ _ h => h.2).pre fun _ _ h => h.1) fun _ => ?_
  have hA : Steady i fun s g => Turns i F (v + 2) s g ∧ ∀ j, Warned (v + 2) j s g := steady_turns.and (.all fun _ => steady_warned)
  have hturns : Grows i (Turns i F (v + 2)) := by rw [← hF]; exact .turns
  refine .bind (clearSet_spec hA fun s g set h => ⟨⟨?_, h.1.2⟩, h.2⟩) fun _ => ?_
  · rw [← hF] at h ⊢
    exact ⟨h.1.1.desk, h.1.1.hands, h.1.1.HPs, h.1.1.outside, h.1.1.seen, h.1.1.spent, False.elim, False.elim⟩
  · refine Spec.pre (A := fun s g => (Turns i F (v + 2) s g ∧ ∀ j, Warned (v + 2) j s g) ∧
        ∀ j, j ∈ List.finRange n ∨ ∀ k < 3, Spied i (v + 2) j k Found s g) (.post (.forEach
      (J := fun js s g => (Turns i F (v + 2) s g ∧ ∀ j, Warned (v + 2) j s g) ∧ ∀ j, j ∈ js ∨ ∀ k < 3, Spied i (v + 2) j k Found s g)
      (fun j js => ?_) (List.finRange n)) fun _ s g h => ?_) fun s g h => ⟨h, fun j => .inl (List.mem_finRange j)⟩
    · have hsteady : Steady i fun s g => (Turns i F (v + 2) s g ∧ ∀ j, Warned (v + 2) j s g) ∧
          ∀ j', j' ∈ j :: js ∨ ∀ k < 3, Spied i (v + 2) j' k Found s g :=
        hA.and (.all fun _ => .or (.fact _) (.all fun k => fun t s g s' g' hp hS hS' hT h hk => steady_spied hk t s g s' g' hp hS hS' hT (h hk)))
      have hgrows : Grows i fun s g => (Turns i F (v + 2) s g ∧ ∀ j, Warned (v + 2) j s g) ∧
          ∀ j', j' ∈ j :: js ∨ ∀ k < 3, Spied i (v + 2) j' k Found s g :=
        (hturns.and (.all fun _ => .warned)).and (.all fun _ => .or_fact _ (.all fun _ => .imp _ (grows_spied found_extends)))
      refine (readHPs_spec hsteady hgrows (fun s g h => ⟨h.1.1.2, h.1.2 j⟩) fuel).post fun _ s g h => ⟨h.1.1, fun j' => ?_⟩
      obtain h' | h' := h.1.2 j'
      · obtain rfl | h' := List.mem_cons.1 h'
        · exact .inr h.2
        · exact .inl h'
      · exact .inr h'
    · obtain ⟨⟨hh, hver⟩, hwarned⟩ := h.1
      have hver' : s.localVer i = v + 2 := hver
      refine ⟨hh.desk, hh.hands, hh.HPs, hh.outside, hh.seen, hh.spent, fun _ => ⟨fun j => ?_, fun j k hk => ?_⟩, hh.ready⟩
      · rw [hver']
        exact hwarned j
      · exact ((h.2 j).resolve_left List.not_mem_nil k hk).caught

/-- `Reclamation`: afterwards the thread may go through the batches up to its version. -/
theorem Reclamation_spec (fuel : Nat) :
    Spec i (fun s g => Holds i F s g ∧ Ready i s) (Reclamation i fuel) fun _ => Holds i { F with scan := True, ready := False } := by
  have hready : Steady i fun s g => Holds i F.blind s g ∧ Ready i s := steady_holds.and steady_ready
  unfold Reclamation
  refine .bind (B := fun reclaim s g => (Holds i F.blind s g ∧ Ready i s) ∧ Knows reclaim s g ∧ s.localVer i ≤ reclaim.ver)
    (.load (steady_holds.and steady_ready) fun s g h hS => ⟨⟨h.1.blind, h.2⟩, knows_read s g, hS.clock.local_le i⟩) fun reclaim => ?_
  refine .bind (B := fun v s g => (Turns i F.blind v s g ∧ Ready i s) ∧ Knows reclaim s g ∧ v ≤ reclaim.ver)
    (.load (hready.and ((steady_knows reclaim).and (.priv fun s g s' g' hp h => by rw [hp.localVer]; exact h)))
      fun s g h _ => ⟨⟨⟨h.1.1, rfl⟩, h.1.2⟩, h.2⟩) fun v => ?_
  refine .bind (freeze_spec fuel reclaim) fun r => .ite (fun hr => ?_) fun hr => ?_
  · refine .bind ((handOver_spec fuel hr).pre fun s g h => ⟨h.1, h.2.1⟩) fun _ => ?_
    refine .bind ((resetReclaim_spec fuel).pre fun s g h => ⟨h.1.1, h.2, hr ▸ h.1.2.1⟩) fun _ => ?_
    exact scan_spec (F := F.blind) rfl fuel
  · refine (scan_spec (F := F.blind) (v := v) rfl fuel).pre fun s g h => ⟨h.1, ?_⟩
    have h1 := h.2.1.1
    have h2 := h.2.2
    unfold Past
    omega

end OptimisticAccess.MOA
