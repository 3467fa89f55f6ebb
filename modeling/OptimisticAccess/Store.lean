import Mathlib.Data.Set.Insert
import OptimisticAccess.Entry
import OptimisticAccess.Lib.SortedChain

/-!
# Lists in memory

What the lists of a program lie in, whoever allocates their entries: one head for each list and two
words for each entry. `home` is the list a key belongs to. A thread that runs alone changes a list by
linking, unlinking and marking at the place where its search has stopped.
-/

namespace OptimisticAccess

@[ext] structure Store (κ : Type) where
  head : κ → Ptr
  keyData : Nat → BitVec 64
  nextEntry : Nat → Ptr

/-- A pointer word of a list. -/
inductive Link (κ : Type) where
  | head (b : κ)
  | next (a : Nat)
  deriving DecidableEq

/-- The cell of a word, the head in the sentinel. -/
def Link.cell {κ : Type} : Link κ → Nat
  | .head _ => 0
  | .next a => a

namespace Store

variable {κ : Type}

def word (m : Store κ) : Link κ → Ptr
  | .head b => m.head b
  | .next a => m.nextEntry a

def setWord [DecidableEq κ] (m : Store κ) : Link κ → Ptr → Store κ
  | .head b, p => { m with head := Function.update m.head b p }
  | .next a, p => { m with nextEntry := Function.update m.nextEntry a p }

def setKeyData (m : Store κ) (a : Nat) (kd : BitVec 64) : Store κ := { m with keyData := Function.update m.keyData a kd }

/-- The key of an entry. -/
def key (m : Store κ) (a : Nat) : Int := (getKey (m.keyData a)).toInt

/-- The list `b` as cells. -/
def cells (m : Store κ) (b : κ) : Cells where
  succ p := if p = 0 then (m.head b).addr else (m.nextEntry p).addr
  dead a := isDeleted (m.nextEntry a)
  key := m.key

/-- `chain b` are the entries of list `b`. -/
structure Sound (home : CInt → κ) (m : Store κ) (chain : κ → List Nat) : Prop where
  headTag : ∀ b, (m.head b).tag = false
  walk : ∀ b, Walk (m.cells b).succ 0 (chain b)
  sorted : ∀ b, (m.cells b).Sorted (chain b)
  home : ∀ b, ∀ a ∈ chain b, home (getKey (m.keyData a)) = b

/-- The keys of all lists. -/
def keys (home : CInt → κ) (m : Store κ) : Set CInt := {k | k.toInt ∈ (m.cells (home k)).keys}

/-- A search for `k` in list `b` stands at the word `prev`, and the entries of `rest` are before it. -/
structure At (m : Store κ) (chain : κ → List Nat) (b : κ) (k : Int) (prev : Link κ) (rest : List Nat) : Prop where
  place : prev = .head b ∨ ∃ a ∈ chain b, prev = .next a ∧ m.key a < k
  tag : (m.word prev).tag = false
  walk : Walk (m.cells b).succ prev.cell rest

variable {home : CInt → κ} {m m' : Store κ} {chain chain' : κ → List Nat} {b c : κ} {k : Int} {prev loc : Link κ} {rest : List Nat} {a d : Nat} {p : Ptr}

theorem cells_succ_next (ha : a ≠ 0) : (m.cells b).succ a = (m.nextEntry a).addr := if_neg ha

theorem Sound.ne_zero (h : Sound home m chain) (ha : a ∈ chain b) : a ≠ 0 := (h.walk b).ne_zero ha

theorem Sound.disjoint (h : Sound home m chain) (hb : a ∈ chain b) (hc : a ∈ chain c) : b = c := (h.home b a hb).symm.trans (h.home c a hc)

theorem Sound.mem_keys {key : CInt} (h : Sound home m chain) :
    key ∈ m.keys home ↔ ∃ a ∈ chain (home key), (m.nextEntry a).tag = false ∧ getKey (m.keyData a) = key := by
  refine (Cells.mem_keys (h.walk (home key))).trans (exists_congr fun a => and_congr_right fun _ => and_congr_right fun _ => ?_)
  exact BitVec.toInt_inj

/-! ## Where a search stands -/

theorem Sound.start (h : Sound home m chain) (b : κ) (k : Int) : At m chain b k (.head b) (chain b) := ⟨.inl rfl, h.headTag b, h.walk b⟩

/-- A word of list `b` is the place of a search for any key that is larger. -/
theorem Sound.at (h : Sound home m chain) (hplace : prev = .head b ∨ ∃ a ∈ chain b, prev = .next a ∧ m.key a < k)
    (htag : (m.word prev).tag = false) : ∃ rest, At m chain b k prev rest := by
  have hcell : prev.cell ∈ 0 :: chain b := by
    obtain rfl | ⟨a, ha, rfl, -⟩ := hplace
    · exact List.mem_cons_self
    · exact List.mem_cons_of_mem 0 ha
  obtain ⟨-, rest, -, hw⟩ := (h.walk b).split hcell
  exact ⟨rest, hplace, htag, hw⟩

theorem At.addr (h : At m chain b k prev rest) (hs : Sound home m chain) : (m.word prev).addr = (m.cells b).succ prev.cell := by
  obtain rfl | ⟨a, ha, rfl, -⟩ := h.place
  · rfl
  · exact (cells_succ_next (hs.ne_zero ha)).symm

theorem At.mem (h : At m chain b k prev rest) : prev.cell ∈ 0 :: chain b := by
  obtain rfl | ⟨a, ha, rfl, -⟩ := h.place
  · exact List.mem_cons_self
  · exact List.mem_cons_of_mem 0 ha

theorem At.sub (h : At m chain b k prev rest) (hs : Sound home m chain) : ∀ a ∈ rest, a ∈ chain b := by
  intro a ha
  obtain ⟨l, r, he, hr⟩ := (hs.walk b).split h.mem
  rw [hr.unique h.walk] at he
  have hmem : a ∈ 0 :: chain b := he ▸ List.mem_append_right l (List.mem_cons_of_mem _ ha)
  exact (List.mem_cons.1 hmem).resolve_left (h.walk.ne_zero ha)

theorem At.null_iff (h : At m chain b k prev rest) (hs : Sound home m chain) : m.word prev = NULL ↔ rest = [] := by
  have haddr := h.addr hs
  cases rest with
  | nil =>
    refine iff_of_true (Ptr.eq_of_addr h.tag rfl ?_) rfl
    rw [haddr]
    exact h.walk
  | cons a rest =>
    refine iff_of_false (fun hnull => ?_) (List.cons_ne_nil a rest)
    rw [hnull, h.walk.1] at haddr
    exact h.walk.2.1 haddr.symm

theorem At.word_eq (h : At m chain b k prev (a :: rest)) (hs : Sound home m chain) : m.word prev = ⟨a, false⟩ :=
  Ptr.eq_of_addr h.tag rfl ((h.addr hs).trans h.walk.1)

/-- What is before a search determines the word at which it stands. -/
theorem At.word_unique (h : At m chain b k prev rest) (hs : Sound home m chain) (h' : At m' chain' b k prev rest) (hs' : Sound home m' chain') :
    m'.word prev = m.word prev := by
  cases rest with
  | nil => rw [(h.null_iff hs).2 rfl, (h'.null_iff hs').2 rfl]
  | cons a rest => rw [h.word_eq hs, h'.word_eq hs']

/-- The search goes past an entry of a smaller key. -/
theorem At.advance (h : At m chain b k prev (a :: rest)) (hs : Sound home m chain) (htag : (m.nextEntry a).tag = false) (hk : m.key a < k) :
    At m chain b k (.next a) rest :=
  ⟨.inr ⟨a, h.sub hs a List.mem_cons_self, rfl, hk⟩, htag, h.walk.2.2⟩

theorem At.not_mem (h : At m chain b k prev rest) : prev.cell ∉ rest := (List.nodup_cons.1 h.walk.nodup).1

theorem At.absent {key : CInt} (h : At m chain (home key) key.toInt prev rest) (hs : Sound home m chain)
    (hgt : ∀ a ∈ rest.head?, key.toInt < m.key a) : key ∉ m.keys home := by
  have hlt : prev.cell = 0 ∨ (m.cells (home key)).key prev.cell < key.toInt := by
    obtain rfl | ⟨a, -, rfl, hlt⟩ := h.place
    · exact .inl rfl
    · exact .inr hlt
  refine (hs.sorted _).not_mem_keys (hs.walk _) h.mem hlt ?_
  cases rest with
  | nil => exact .inl h.walk
  | cons a rest =>
    rw [h.walk.1]
    exact .inr (hgt a rfl)

theorem At.present {key : CInt} (h : At m chain (home key) key.toInt prev (a :: rest)) (hs : Sound home m chain) (htag : (m.nextEntry a).tag = false)
    (hk : getKey (m.keyData a) = key) : key ∈ m.keys home :=
  hs.mem_keys.2 ⟨a, h.sub hs a List.mem_cons_self, htag, hk⟩

/-! ## Entries that no list holds -/

/-- From `m` to `m'` no entry of a list has changed. -/
structure Unlinked (m : Store κ) (chain : κ → List Nat) (m' : Store κ) : Prop where
  head : m'.head = m.head
  keyData : ∀ b, ∀ a ∈ chain b, m'.keyData a = m.keyData a
  nextEntry : ∀ b, ∀ a ∈ chain b, m'.nextEntry a = m.nextEntry a

theorem Unlinked.succ (h : Unlinked m chain m') (hs : Sound home m chain) {a : Nat} (ha : a ∈ 0 :: chain b) :
    (m'.cells b).succ a = (m.cells b).succ a := by
  obtain rfl | ha := List.mem_cons.1 ha
  · exact congrArg (fun f => (f b).addr) h.head
  · rw [cells_succ_next (hs.ne_zero ha), cells_succ_next (hs.ne_zero ha), h.nextEntry b a ha]

theorem Unlinked.sound (h : Unlinked m chain m') (hs : Sound home m chain) : Sound home m' chain where
  headTag b := by
    rw [h.head]
    exact hs.headTag b
  walk b := (hs.walk b).frame fun _ ha => h.succ hs ha
  sorted b := (hs.sorted b).of_key fun a ha => congrArg (fun kd => (getKey kd).toInt) (h.keyData b a ha)
  home b a ha := by
    rw [h.keyData b a ha]
    exact hs.home b a ha

theorem Unlinked.at (h : Unlinked m chain m') (hs : Sound home m chain) (hat : At m chain b k prev rest) : At m' chain b k prev rest where
  place := by
    obtain rfl | ⟨a, ha, rfl, hlt⟩ := hat.place
    · exact .inl rfl
    · refine .inr ⟨a, ha, rfl, ?_⟩
      rwa [key, h.keyData b a ha]
  tag := by
    obtain rfl | ⟨a, ha, rfl, hlt⟩ := hat.place
    · exact (h.sound hs).headTag b
    · exact (congrArg Ptr.tag (h.nextEntry b a ha)).trans hat.tag
  walk := hat.walk.frame fun a ha => by
    obtain rfl | ha := List.mem_cons.1 ha
    · exact h.succ hs hat.mem
    · exact h.succ hs (List.mem_cons_of_mem 0 (hat.sub hs a ha))

theorem Unlinked.keys (h : Unlinked m chain m') (hs : Sound home m chain) : m'.keys home = m.keys home := by
  ext key
  rw [hs.mem_keys, (h.sound hs).mem_keys]
  refine exists_congr fun a => and_congr_right fun ha => ?_
  rw [h.keyData _ a ha, h.nextEntry _ a ha]

theorem unlinked_setKeyData {kd : BitVec 64} (ha : ∀ b, a ∉ chain b) : Unlinked m chain (m.setKeyData a kd) where
  head := rfl
  keyData b d hd := Function.update_of_ne (fun he : d = a => ha b (he ▸ hd)) ..
  nextEntry _ _ _ := rfl

/-! ## What a search clears away -/

/-- A deleted entry of the list `l` that no entry stands before at which a search for `k` would stop. -/
def Stale (m : Store κ) (l : List Nat) (k : Int) (a : Nat) : Prop :=
  a ∈ l ∧ (m.nextEntry a).tag = true ∧ ∀ d ∈ l, (m.nextEntry d).tag = false → k ≤ m.key d → m.key a < m.key d

/-- From `m₀` to `m` a search for `key` has unlinked stale entries; those left are before it. -/
structure Searched (home : CInt → κ) (key : CInt) (m₀ : Store κ) (chain₀ : κ → List Nat) (m : Store κ) (chain : κ → List Nat) (rest : List Nat) : Prop where
  keyData : m.keyData = m₀.keyData
  tag : ∀ a, (m.nextEntry a).tag = (m₀.nextEntry a).tag
  sub : ∀ b a, a ∈ chain b → a ∈ chain₀ b
  stale : ∀ b a, a ∈ chain₀ b → a ∉ chain b → Stale m₀ (chain₀ (home key)) key.toInt a
  ahead : ∀ a ∈ chain (home key), (m.nextEntry a).tag = true → a ∈ rest

variable {key : CInt} {m₀ : Store κ} {chain₀ : κ → List Nat}

theorem Searched.start : Searched home key m chain m chain (chain (home key)) :=
  ⟨rfl, fun _ => rfl, fun _ _ ha => ha, fun _ _ ha hn => absurd ha hn, fun _ ha _ => ha⟩

theorem Searched.key_eq (h : Searched home key m₀ chain₀ m chain rest) : m.key = m₀.key := by
  funext a
  rw [Store.key, Store.key, h.keyData]

theorem Searched.advance (h : Searched home key m₀ chain₀ m chain (a :: rest)) (htag : (m.nextEntry a).tag = false) :
    Searched home key m₀ chain₀ m chain rest := by
  refine { h with ahead := fun d hd hdead => (List.mem_cons.1 (h.ahead d hd hdead)).resolve_left fun he => ?_ }
  rw [he, htag] at hdead
  cases hdead

/-- A search that stops has cleared away just the stale entries. -/
theorem Searched.mem_iff (h : Searched home key m₀ chain₀ m chain rest) (hs₀ : Sound home m₀ chain₀) (hs : Sound home m chain)
    (hat : At m chain (home key) key.toInt prev rest)
    (hstop : ∀ a ∈ rest.head?, (m.nextEntry a).tag = false ∧ key.toInt ≤ m.key a) (b : κ) (a : Nat) :
    a ∈ chain b ↔ a ∈ chain₀ b ∧ ¬ Stale m₀ (chain₀ (home key)) key.toInt a := by
  constructor
  · intro ha
    refine ⟨h.sub b a ha, ?_⟩
    rintro ⟨hmem, hdead, hstale⟩
    obtain rfl : b = home key := hs₀.disjoint (h.sub b a ha) hmem
    rw [← h.tag] at hdead
    cases rest with
    | nil => exact List.not_mem_nil (h.ahead a ha hdead)
    | cons d rest =>
      obtain ⟨hlive, hle⟩ := hstop d rfl
      have hd : d ∈ chain (home key) := hat.sub hs d List.mem_cons_self
      have hlt := hstale d (h.sub _ d hd) (by rw [← h.tag, hlive]) (by rwa [← h.key_eq])
      rw [← h.key_eq] at hlt
      obtain rfl | ha' := List.mem_cons.1 (h.ahead a ha hdead)
      · exact absurd hlt (lt_irrefl _)
      · obtain ⟨l, r, he, hr⟩ := (hs.walk _).split (List.mem_cons_of_mem 0 hd)
        rw [hr.unique hat.walk.2.2] at he
        have := (((hs.sorted _).around he).2 a ha').2.resolve_left (hs.ne_zero hd)
        exact absurd this (not_lt.2 hlt.le)
  · rintro ⟨ha, hstale⟩
    by_contra hnot
    exact hstale (h.stale b a ha hnot)

/-- A search clears away nothing that it has left. -/
theorem Searched.of_stale (h : Searched home key m₀ chain₀ m chain rest) (hstale : Stale m (chain (home key)) key.toInt a) :
    Stale m₀ (chain₀ (home key)) key.toInt a := by
  obtain ⟨ha, hdead, hbefore⟩ := hstale
  refine ⟨h.sub _ a ha, by rw [← h.tag, hdead], fun d hd hlive hk => ?_⟩
  have hd' : d ∈ chain (home key) := by
    by_contra hnot
    have := (h.stale _ d hd hnot).2.1
    rw [hlive] at this
    cases this
  rw [← h.tag] at hlive
  rw [← h.key_eq] at hk ⊢
  exact hbefore d hd' hlive hk

/-- The keys stay. -/
theorem Searched.keys (h : Searched home key m₀ chain₀ m chain rest) (hs₀ : Sound home m₀ chain₀) (hs : Sound home m chain) :
    m.keys home = m₀.keys home := by
  ext k
  rw [hs.mem_keys, hs₀.mem_keys]
  refine exists_congr fun a => ?_
  rw [h.keyData, h.tag]
  constructor
  · rintro ⟨ha, hlive⟩
    exact ⟨h.sub _ a ha, hlive⟩
  · rintro ⟨ha, hlive, hk⟩
    refine ⟨?_, hlive, hk⟩
    by_contra hnot
    have hdead := (h.stale _ a ha hnot).2.1
    rw [hlive] at hdead
    cases hdead

/-! ## Stores to the words of a list -/

variable [DecidableEq κ]

@[simp] theorem word_setWord : (m.setWord loc p).word loc = p := by
  cases loc <;> exact Function.update_self ..

@[simp] theorem keyData_setWord : (m.setWord loc p).keyData = m.keyData := by cases loc <;> rfl

theorem key_setWord : (m.setWord loc p).key = m.key := by cases loc <;> rfl

theorem nextEntry_setWord (h : loc ≠ .next a) : (m.setWord loc p).nextEntry a = m.nextEntry a := by
  cases loc with
  | head b => rfl
  | next d => exact Function.update_of_ne (fun he => h (congrArg Link.next he.symm)) ..

theorem head_setWord (h : loc ≠ .head b) : (m.setWord loc p).head b = m.head b := by
  cases loc with
  | head d => exact Function.update_of_ne (fun he => h (congrArg Link.head he.symm)) ..
  | next a => rfl

theorem unlinked_setWord (ha : ∀ b, a ∉ chain b) : Unlinked m chain (m.setWord (.next a) p) where
  head := rfl
  keyData _ _ _ := rfl
  nextEntry b d hd := Function.update_of_ne (fun he : d = a => ha b (he ▸ hd)) ..

/-- A store to a word of list `b` changes one successor in `b`. -/
theorem At.succ (h : At m chain b k prev rest) (hs : Sound home m chain) (p : Ptr) :
    ((m.setWord prev p).cells b).succ prev.cell = p.addr ∧
      ∀ a, a ≠ prev.cell → ((m.setWord prev p).cells b).succ a = (m.cells b).succ a := by
  obtain rfl | ⟨d, hd, rfl, -⟩ := h.place
  · refine ⟨congrArg Ptr.addr (Function.update_self ..), fun a ha => ?_⟩
    rw [cells_succ_next ha, cells_succ_next ha]
    rfl
  · have hd0 : d ≠ 0 := hs.ne_zero hd
    refine ⟨(cells_succ_next hd0).trans (congrArg Ptr.addr (Function.update_self ..)), fun a ha => ?_⟩
    by_cases ha0 : a = 0
    · subst ha0
      rfl
    · rw [cells_succ_next ha0, cells_succ_next ha0]
      exact congrArg Ptr.addr (Function.update_of_ne ha ..)

/-- Walks that do not come to the word that is written. -/
theorem walk_setWord {q : Nat} {l : List Nat} (hw : Walk (m.cells b).succ q l) (hhead : loc ≠ .head b) (hnext : ∀ a ∈ q :: l, loc ≠ .next a) :
    Walk ((m.setWord loc p).cells b).succ q l := by
  refine hw.frame fun a ha => ?_
  by_cases ha0 : a = 0
  · subst ha0
    exact congrArg Ptr.addr (head_setWord hhead)
  · rw [cells_succ_next ha0, cells_succ_next ha0, nextEntry_setWord (hnext a ha)]

/-- Another list does not see it. -/
theorem At.other (h : At m chain b k prev rest) (hs : Sound home m chain) (hc : c ≠ b) : Walk ((m.setWord prev p).cells c).succ 0 (chain c) := by
  refine walk_setWord (hs.walk c) (fun he => ?_) fun a ha he => ?_
  · obtain rfl | ⟨d, -, rfl, -⟩ := h.place
    · exact hc (Link.head.inj he).symm
    · cases he
  · obtain rfl | ⟨d, hd, rfl, -⟩ := h.place
    · cases he
    · obtain rfl := Link.next.inj he
      obtain rfl | ha := List.mem_cons.1 ha
      · exact hs.ne_zero hd rfl
      · exact hc (hs.disjoint ha hd)

/-- A list is replaced, the others stay. -/
theorem At.sound {l : List Nat} (h : At m chain b k prev rest) (hs : Sound home m chain) (hp : p.tag = false)
    (hwalk : Walk ((m.setWord prev p).cells b).succ 0 l) (hsorted : ((m.setWord prev p).cells b).Sorted l)
    (hhome : ∀ a ∈ l, home (getKey (m.keyData a)) = b) : Sound home (m.setWord prev p) (Function.update chain b l) where
  headTag c := by
    by_cases he : prev = .head c
    · subst he
      exact (congrArg Ptr.tag (Function.update_self ..)).trans hp
    · rw [head_setWord he]
      exact hs.headTag c
  walk c := by
    by_cases hc : c = b
    · subst hc
      rwa [Function.update_self]
    · rw [Function.update_of_ne hc]
      exact h.other hs hc
  sorted c := by
    by_cases hc : c = b
    · subst hc
      rwa [Function.update_self]
    · rw [Function.update_of_ne hc]
      exact (hs.sorted c).of_key fun a _ => congrFun key_setWord a
  home c a ha := by
    rw [keyData_setWord]
    by_cases hc : c = b
    · subst hc
      rw [Function.update_self] at ha
      exact hhome a ha
    · rw [Function.update_of_ne hc] at ha
      exact hs.home c a ha

/-- The compare-and-swap of `find`: the deleted entry `a` leaves the list. -/
theorem At.unlink (h : At m chain b k prev (a :: rest)) (hs : Sound home m chain) (hdead : (m.nextEntry a).tag = true) :
    ∃ chain', Sound home (m.setWord prev (clearDeleted (m.nextEntry a))) chain' ∧ (∀ c d, d ∈ chain' c ↔ d ∈ chain c ∧ d ≠ a) ∧
      At (m.setWord prev (clearDeleted (m.nextEntry a))) chain' b k prev rest := by
  have hab : a ∈ chain b := h.sub hs a List.mem_cons_self
  have ha0 : a ≠ 0 := hs.ne_zero hab
  obtain ⟨hself, hrest⟩ := h.succ hs (clearDeleted (m.nextEntry a))
  have hkey : ∀ d, ((m.setWord prev (clearDeleted (m.nextEntry a))).cells b).key d = (m.cells b).key d := fun d => congrFun key_setWord d
  obtain ⟨l, hwalk, hsorted, hmem⟩ := (hs.sorted b).unlink (hs.walk b) h.mem ha0 h.walk.1 (hself.trans (cells_succ_next ha0).symm)
    (fun d _ => hrest d) fun d _ => hkey d
  have hne : ∀ {d}, prev = .next d → (m.nextEntry d).tag = false := fun he => by
    have htag := h.tag
    rw [he] at htag
    exact htag
  refine ⟨Function.update chain b l, h.sound hs rfl hwalk hsorted fun d hd => hs.home b d ((hmem d).1 hd).2, fun c d => ?_, ?_, ?_, ?_⟩
  · by_cases hc : c = b
    · subst hc
      rw [Function.update_self, hmem, and_comm]
    · rw [Function.update_of_ne hc]
      exact (and_iff_left_of_imp fun hd he => hc (hs.disjoint (he ▸ hd) hab)).symm
  · obtain rfl | ⟨d, hd, rfl, hlt⟩ := h.place
    · exact .inl rfl
    · refine .inr ⟨d, ?_, rfl, by rwa [key_setWord]⟩
      rw [Function.update_self, hmem]
      refine ⟨fun he => ?_, hd⟩
      rw [← he, hne rfl] at hdead
      cases hdead
  · rw [word_setWord]
    rfl
  · have hnot := h.not_mem
    have hafter : Walk (m.cells b).succ a rest := h.walk.2.2
    cases rest with
    | nil => exact hself.trans ((cells_succ_next ha0).symm.trans hafter)
    | cons d rest =>
      refine ⟨hself.trans ((cells_succ_next ha0).symm.trans hafter.1), hafter.2.1, hafter.2.2.frame fun e he => hrest e ?_⟩
      rintro rfl
      exact hnot (List.mem_cons_of_mem a he)

theorem tag_setWord (h : (m.word loc).tag = p.tag) (d : Nat) : ((m.setWord loc p).nextEntry d).tag = (m.nextEntry d).tag := by
  by_cases he : loc = .next d
  · subst he
    exact (congrArg Ptr.tag (Function.update_self ..)).trans h.symm
  · rw [nextEntry_setWord he]

theorem Searched.unlink (h : Searched home key m₀ chain₀ m chain (a :: rest)) (hs : Sound home m chain)
    (hat : At m chain (home key) key.toInt prev (a :: rest)) (hdead : (m.nextEntry a).tag = true)
    (hmem : ∀ c d, d ∈ chain' c ↔ d ∈ chain c ∧ d ≠ a) :
    Searched home key m₀ chain₀ (m.setWord prev (clearDeleted (m.nextEntry a))) chain' rest where
  keyData := keyData_setWord.trans h.keyData
  tag d := (tag_setWord (p := clearDeleted (m.nextEntry a)) hat.tag d).trans (h.tag d)
  sub b d hd := h.sub b d ((hmem b d).1 hd).1
  stale b d hd hnot := by
    by_cases hold : d ∈ chain b
    · obtain rfl : d = a := by
        by_contra hne
        exact hnot ((hmem b d).2 ⟨hold, hne⟩)
      refine ⟨h.sub _ d (hat.sub hs d List.mem_cons_self), by rw [← h.tag, hdead], fun c hc hlive hk => ?_⟩
      rw [← h.tag] at hlive
      rw [← h.key_eq] at hk ⊢
      have hcl : c ∈ chain (home key) := by
        by_contra hnc
        have htag := (h.stale _ c hc hnc).2.1
        rw [← h.tag, hlive] at htag
        cases htag
      -- what comes before the place of the search is smaller than `key`
      obtain ⟨l, r, he, hr⟩ := (hs.walk _).split hat.mem
      rw [hr.unique hat.walk] at he
      obtain ⟨hbefore, -⟩ := (hs.sorted _).around he
      have hd0 : d ≠ 0 := hs.ne_zero hold
      have hc0 : c ≠ 0 := hs.ne_zero hcl
      have hplace : prev.cell = 0 ∨ m.key prev.cell < key.toInt := by
        obtain rfl | ⟨e, -, rfl, hlt⟩ := hat.place
        · exact .inl rfl
        · exact .inr hlt
      have hc : c ∈ l ++ prev.cell :: d :: rest := he ▸ List.mem_cons_of_mem 0 hcl
      obtain hc | hc := List.mem_append.1 hc
      · obtain ⟨hp0, hlt⟩ := hbefore c hc
        have hlt : m.key c < m.key prev.cell := hlt.resolve_left hc0
        have := hplace.resolve_left hp0
        omega
      · obtain rfl | hc := List.mem_cons.1 hc
        · have := hplace.resolve_left hc0
          omega
        · obtain rfl | hc := List.mem_cons.1 hc
          · rw [hlive] at hdead
            cases hdead
          · have he' : 0 :: chain (home key) = (l ++ [prev.cell]) ++ d :: rest := by rw [he, List.append_assoc]; rfl
            exact (((hs.sorted _).around he').2 c hc).2.resolve_left hd0
    · exact h.stale b d hd hold
  ahead d hd hdead' := by
    obtain ⟨hd, hne⟩ := (hmem _ d).1 hd
    rw [tag_setWord (p := clearDeleted (m.nextEntry a)) hat.tag] at hdead'
    exact (List.mem_cons.1 (h.ahead d hd hdead')).resolve_left hne

/-- The compare-and-swap of `ListInsert`: the entry `a`, which leads to where the search stands, enters the list. -/
theorem At.link {key : CInt} (h : At m chain (home key) key.toInt prev rest) (hs : Sound home m chain)
    (hgt : ∀ d ∈ rest.head?, key.toInt < m.key d) (ha0 : a ≠ 0) (ha : ∀ c, a ∉ chain c)
    (hkd : getKey (m.keyData a) = key) (hnext : m.nextEntry a = m.word prev) :
    ∃ chain', Sound home (m.setWord prev ⟨a, false⟩) chain' ∧ (∀ c d, d ∈ chain' c ↔ d ∈ chain c ∨ c = home key ∧ d = a) ∧
      (m.setWord prev ⟨a, false⟩).keys home = insert key (m.keys home) := by
  obtain ⟨hself, hrest⟩ := h.succ hs ⟨a, false⟩
  have hcell : a ≠ prev.cell := by
    rintro rfl
    obtain he | he := List.mem_cons.1 h.mem
    · exact ha0 he
    · exact ha _ he
  have hkey : ((m.setWord prev ⟨a, false⟩).cells (home key)).key a = key.toInt := (congrFun key_setWord a).trans (congrArg BitVec.toInt hkd)
  have hlt : prev.cell = 0 ∨ (m.cells (home key)).key prev.cell < ((m.setWord prev ⟨a, false⟩).cells (home key)).key a := by
    rw [hkey]
    obtain rfl | ⟨d, -, rfl, hlt⟩ := h.place
    · exact .inl rfl
    · exact .inr hlt
  have hgt' : (m.cells (home key)).succ prev.cell = 0 ∨
      ((m.setWord prev ⟨a, false⟩).cells (home key)).key a < (m.cells (home key)).key ((m.cells (home key)).succ prev.cell) := by
    rw [hkey]
    cases rest with
    | nil => exact .inl h.walk
    | cons d rest =>
      rw [h.walk.1]
      exact .inr (hgt d rfl)
  obtain ⟨l, hwalk, hsorted, hmem⟩ := (hs.sorted (home key)).link (hs.walk (home key)) h.mem ha0 (ha (home key)) hself
    (by rw [hrest a hcell, cells_succ_next ha0, hnext, h.addr hs]) (fun d _ => hrest d) (fun d _ => congrFun key_setWord d) hlt hgt'
  have hs' : Sound home (m.setWord prev ⟨a, false⟩) (Function.update chain (home key) l) := h.sound hs rfl hwalk hsorted fun d hd => by
    obtain rfl | hd := (hmem d).1 hd
    · rw [hkd]
    · exact hs.home _ d hd
  have hmem' : ∀ c d, d ∈ Function.update chain (home key) l c ↔ d ∈ chain c ∨ c = home key ∧ d = a := fun c d => by
    by_cases hc : c = home key
    · subst hc
      rw [Function.update_self, hmem, or_comm, and_iff_right rfl]
    · rw [Function.update_of_ne hc, or_iff_left fun he => hc he.1]
  refine ⟨_, hs', hmem', ?_⟩
  ext k
  rw [hs'.mem_keys, Set.mem_insert_iff, hs.mem_keys]
  constructor
  · rintro ⟨d, hd, htag, hk⟩
    rw [keyData_setWord] at hk
    obtain hd | ⟨-, rfl⟩ := (hmem' _ _).1 hd
    · exact .inr ⟨d, hd, by rwa [tag_setWord (p := ⟨a, false⟩) h.tag] at htag, hk⟩
    · exact .inl (hk.symm.trans hkd)
  · rintro (rfl | ⟨d, hd, htag, hk⟩)
    · refine ⟨a, (hmem' _ _).2 (.inr ⟨rfl, rfl⟩), ?_, by rwa [keyData_setWord]⟩
      rw [tag_setWord (p := ⟨a, false⟩) h.tag, hnext]
      exact h.tag
    · exact ⟨d, (hmem' _ _).2 (.inl hd), by rwa [tag_setWord (p := ⟨a, false⟩) h.tag], by rwa [keyData_setWord]⟩

/-- An entry is marked, wherever it stands. -/
theorem Sound.mark {key : CInt} (hs : Sound home m chain) (ha : a ∈ chain (home key)) (hkd : getKey (m.keyData a) = key) :
    Sound home (m.setWord (.next a) (markDeleted (m.nextEntry a))) chain ∧
      (m.setWord (.next a) (markDeleted (m.nextEntry a))).keys home = m.keys home \ {key} := by
  have hself : (m.setWord (.next a) (markDeleted (m.nextEntry a))).nextEntry a = markDeleted (m.nextEntry a) := Function.update_self ..
  have hother : ∀ d, d ≠ a → (m.setWord (.next a) (markDeleted (m.nextEntry a))).nextEntry d = m.nextEntry d := fun d hd => Function.update_of_ne hd ..
  have haddr : ∀ d, ((m.setWord (.next a) (markDeleted (m.nextEntry a))).nextEntry d).addr = (m.nextEntry d).addr := fun d => by
    by_cases hd : d = a
    · rw [hd, hself, markDeleted_addr]
    · rw [hother d hd]
  have hs' : Sound home (m.setWord (.next a) (markDeleted (m.nextEntry a))) chain := by
    refine ⟨hs.headTag, fun c => (hs.walk c).frame fun d _ => ?_, fun c => (hs.sorted c).of_key fun d _ => rfl, hs.home⟩
    by_cases hd0 : d = 0
    · subst hd0
      rfl
    · rw [cells_succ_next hd0, cells_succ_next hd0, haddr]
  refine ⟨hs', ?_⟩
  ext k
  rw [hs'.mem_keys, Set.mem_sdiff, Set.mem_singleton_iff, hs.mem_keys]
  constructor
  · rintro ⟨d, hd, hlive, hk⟩
    have hda : d ≠ a := by
      rintro rfl
      rw [hself] at hlive
      cases hlive
    rw [hother d hda] at hlive
    refine ⟨⟨d, hd, hlive, hk⟩, fun hkk => hda ?_⟩
    subst hkk
    exact (hs.sorted (home k)).key_inj hd ha (congrArg BitVec.toInt (hk.trans hkd.symm))
  · rintro ⟨⟨d, hd, hlive, hk⟩, hkk⟩
    refine ⟨d, hd, ?_, hk⟩
    rw [hother d fun hda => hkk (by rw [← hk, hda]; exact hkd)]
    exact hlive

/-- The compare-and-swap of `ListDelete`. -/
theorem At.mark {key : CInt} (h : At m chain (home key) key.toInt prev (a :: rest)) (hs : Sound home m chain)
    (_ : (m.nextEntry a).tag = false) (hkd : getKey (m.keyData a) = key) :
    Sound home (m.setWord (.next a) (markDeleted (m.nextEntry a))) chain ∧
      (m.setWord (.next a) (markDeleted (m.nextEntry a))).keys home = m.keys home \ {key} :=
  hs.mark (h.sub hs a List.mem_cons_self) hkd

end Store

end OptimisticAccess
