import OptimisticAccess.MOA.Nodes
import OptimisticAccess.Store

/-!
# The lists as sorted chains

An operation on a key works on the list of that key, so an object in the lists is in the list of its
key: `Chains` says so, and that the keys of each list increase. With it the compare-and-swaps act on
the set of the keys as an insertion and a deletion do.
-/

namespace OptimisticAccess.MOA

open Store

variable {n : Nat} {s s' : Mem n} {headOf : CInt → Nat} {linked retired : Set Nat} {l : Word} {p : Ptr} {a b : Nat} {k : CInt}

def Mem.store (s : Mem n) : Store Nat := ⟨s.entryHead, s.keyData, s.nextEntry⟩

def Mem.key (s : Mem n) (a : Nat) : CInt := getKey (s.keyData a)

def Word.link : Word → OptimisticAccess.Link Nat
  | head b => .head b
  | next a => .next a

/-- The keys in the lists. -/
def Mem.keys (s : Mem n) (headOf : CInt → Nat) : Set CInt := s.store.keys headOf

/-- Each list is sorted, and has the objects with its keys. -/
def Chains (headOf : CInt → Nat) (s : Mem n) (linked : Set Nat) : Prop :=
  ∃ chain, s.store.Sound headOf chain ∧ ∀ b a, a ∈ chain b ↔ a ∈ linked ∧ headOf (s.key a) = b

/-- The word is one of the list of `k`, before its place. -/
def Before (headOf : CInt → Nat) (k : CInt) (key : Nat → CInt) : Word → Prop
  | .head b => b = headOf k
  | .next a => headOf (key a) = headOf k ∧ (key a).toInt < k.toInt

theorem store_setWord : (s.setWord l p).store = s.store.setWord l.link p := by cases l <;> rfl

theorem word_link : s.store.word l.link = s.word l := by cases l <;> rfl

theorem setWord_keyData : (s.setWord l p).keyData = s.keyData := by cases l <;> rfl

theorem setWord_key : (s.setWord l p).key = s.key := by
  funext a
  rw [Mem.key, setWord_keyData]
  rfl

namespace Chains

theorem ne_zero (h : Chains headOf s linked) (ha : a ∈ linked) : a ≠ 0 := by
  obtain ⟨chain, hs, hm⟩ := h
  exact hs.ne_zero ((hm _ a).2 ⟨ha, rfl⟩)

theorem mem_keys (h : Chains headOf s linked) : k ∈ s.keys headOf ↔ ∃ a ∈ linked, (s.nextEntry a).tag = false ∧ s.key a = k := by
  obtain ⟨chain, hs, hm⟩ := h
  refine hs.mem_keys.trans (exists_congr fun a => ?_)
  rw [hm]
  constructor
  · rintro ⟨⟨ha, -⟩, htag, hk⟩
    exact ⟨ha, htag, hk⟩
  · rintro ⟨ha, htag, hk⟩
    exact ⟨⟨ha, congrArg headOf hk⟩, htag, hk⟩

/-- A word of the lists as the place of a search. -/
theorem place (h : Chains headOf s linked) (hl : Counts linked l) (hk : Before headOf k s.key l) (htag : (s.word l).tag = false) :
    ∃ chain rest, s.store.Sound headOf chain ∧ (∀ b a, a ∈ chain b ↔ a ∈ linked ∧ headOf (s.key a) = b) ∧
      At s.store chain (headOf k) k.toInt l.link rest := by
  obtain ⟨chain, hs, hm⟩ := h
  have hplace : l.link = .head (headOf k) ∨ ∃ a ∈ chain (headOf k), l.link = .next a ∧ s.store.key a < k.toInt := by
    cases l with
    | head b => exact .inl (congrArg OptimisticAccess.Link.head hk)
    | next a => exact .inr ⟨a, (hm _ a).2 ⟨hl, hk.1⟩, rfl, hk.2⟩
  obtain ⟨rest, hat⟩ := hs.at hplace (by rwa [word_link])
  exact ⟨chain, rest, hs, hm, hat⟩

/-- What the word of a place leads to comes next in the list. -/
theorem next (h : Chains headOf s linked) (hl : Counts linked l) (hk : Before headOf k s.key l) (htag : (s.word l).tag = false)
    (h0 : (s.word l).addr ≠ 0) : (s.word l).addr ∈ linked ∧ headOf (s.key (s.word l).addr) = headOf k := by
  obtain ⟨chain, rest, hs, hm, hat⟩ := h.place hl hk htag
  cases rest with
  | nil =>
    refine absurd ?_ h0
    rw [← word_link, (hat.null_iff hs).2 rfl]
    rfl
  | cons a rest =>
    rw [← word_link, hat.word_eq hs]
    exact (hm _ a).1 (hat.sub hs a List.mem_cons_self)

/-- The key fits between the place and what comes next. -/
theorem absent (h : Chains headOf s linked) (hl : Counts linked l) (hk : Before headOf k s.key l) (htag : (s.word l).tag = false)
    (hgt : (s.word l).addr ≠ 0 → k.toInt < (s.key (s.word l).addr).toInt) : k ∉ s.keys headOf := by
  obtain ⟨chain, rest, hs, hm, hat⟩ := h.place hl hk htag
  refine hat.absent hs fun a ha => ?_
  obtain ⟨rest', rfl⟩ := List.head?_eq_some_iff.1 ha
  have hword := hat.word_eq hs
  rw [word_link] at hword
  rw [hword] at hgt
  exact hgt (hs.ne_zero (hat.sub hs a List.mem_cons_self))

theorem present (h : Chains headOf s linked) (ha : a ∈ linked) (htag : (s.nextEntry a).tag = false) : s.key a ∈ s.keys headOf :=
  h.mem_keys.2 ⟨a, ha, htag, rfl⟩

/-! ## Steps -/

/-- Writes to objects that are in no list. -/
theorem frame (h : Chains headOf s linked) (hhead : s'.entryHead = s.entryHead) (hkd : ∀ a ∈ linked, s'.keyData a = s.keyData a)
    (hnext : ∀ a ∈ linked, s'.nextEntry a = s.nextEntry a) : Chains headOf s' linked ∧ s'.keys headOf = s.keys headOf := by
  obtain ⟨chain, hs, hm⟩ := h
  have hun : Unlinked s.store chain s'.store :=
    ⟨hhead, fun b a ha => hkd a ((hm b a).1 ha).1, fun b a ha => hnext a ((hm b a).1 ha).1⟩
  refine ⟨⟨chain, hun.sound hs, fun b a => ?_⟩, hun.keys hs⟩
  rw [hm]
  exact and_congr_right fun ha => by rw [Mem.key, Mem.key, hkd a ha]

theorem mark (h : Chains headOf s linked) (ha : a ∈ linked) :
    Chains headOf (s.setWord (.next a) (markDeleted (s.nextEntry a))) linked ∧
      (s.setWord (.next a) (markDeleted (s.nextEntry a))).keys headOf = s.keys headOf \ {s.key a} := by
  obtain ⟨chain, hs, hm⟩ := h
  have hin : a ∈ chain (headOf (s.key a)) := (hm _ a).2 ⟨ha, rfl⟩
  obtain ⟨hs', hkeys⟩ := hs.mark hin rfl
  exact ⟨⟨chain, hs', hm⟩, hkeys⟩

theorem link (h : Chains headOf s linked) (hl : Counts linked l) (hk : Before headOf (s.key a) s.key l) (htag : (s.word l).tag = false)
    (hgt : (s.word l).addr ≠ 0 → (s.key a).toInt < (s.key (s.word l).addr).toInt) (h0 : a ≠ 0) (ha : a ∉ linked)
    (hnext : s.nextEntry a = s.word l) :
    Chains headOf (s.setWord l ⟨a, false⟩) (insert a linked) ∧
      (s.setWord l ⟨a, false⟩).keys headOf = insert (s.key a) (s.keys headOf) := by
  obtain ⟨chain, rest, hs, hm, hat⟩ := h.place hl hk htag
  have hhead : ∀ d ∈ rest.head?, (s.key a).toInt < s.store.key d := fun d hd => by
    obtain ⟨rest', rfl⟩ := List.head?_eq_some_iff.1 hd
    have hword := hat.word_eq hs
    rw [word_link] at hword
    rw [hword] at hgt
    exact hgt (hs.ne_zero (hat.sub hs d List.mem_cons_self))
  obtain ⟨chain', hs', hmem, hkeys⟩ := hat.link hs hhead h0 (fun c hc => ha ((hm c a).1 hc).1) rfl (by rw [word_link]; exact hnext)
  rw [← store_setWord] at hs' hkeys
  refine ⟨⟨chain', hs', fun b d => ?_⟩, hkeys⟩
  rw [hmem, hm, setWord_key, Set.mem_insert_iff]
  constructor
  · rintro (⟨hd, hb⟩ | ⟨hb, rfl⟩)
    · exact ⟨.inr hd, hb⟩
    · exact ⟨.inl rfl, hb.symm⟩
  · rintro ⟨rfl | hd, hb⟩
    · exact .inr ⟨hb.symm, rfl⟩
    · exact .inl ⟨hd, hb⟩

theorem unlink (h : Chains headOf s linked) (hl : Counts linked l) (hw : s.word l = ⟨a, false⟩) (h0 : a ≠ 0)
    (hdead : (s.nextEntry a).tag = true) :
    Chains headOf (s.setWord l (clearDeleted (s.nextEntry a))) (linked \ {a}) ∧
      (s.setWord l (clearDeleted (s.nextEntry a))).keys headOf = s.keys headOf := by
  obtain ⟨chain, hs, hm⟩ := h
  have hplace : ∃ b k, l.link = .head b ∨ ∃ c ∈ chain b, l.link = .next c ∧ s.store.key c < k := by
    cases l with
    | head b => exact ⟨b, 0, .inl rfl⟩
    | next c => exact ⟨_, s.store.key c + 1, .inr ⟨c, (hm _ c).2 ⟨hl, rfl⟩, rfl, by omega⟩⟩
  obtain ⟨b, k, hplace⟩ := hplace
  obtain ⟨rest, hat⟩ := hs.at hplace (by rw [word_link, hw])
  cases rest with
  | nil =>
    refine absurd ?_ h0
    have hnull := (hat.null_iff hs).2 rfl
    rw [word_link, hw] at hnull
    exact congrArg Ptr.addr hnull
  | cons d rest =>
    have hword := hat.word_eq hs
    rw [word_link, hw] at hword
    obtain rfl : a = d := congrArg Ptr.addr hword
    obtain ⟨chain', hs', hmem, -⟩ := hat.unlink hs hdead
    have hstore : (s.setWord l (clearDeleted (s.nextEntry a))).store = s.store.setWord l.link (clearDeleted (s.store.nextEntry a)) := store_setWord
    rw [← hstore] at hs'
    have hm' : ∀ b d, d ∈ chain' b ↔ d ∈ linked \ {a} ∧ headOf ((s.setWord l (clearDeleted (s.nextEntry a))).key d) = b := fun b d => by
      rw [hmem, hm, setWord_key, Set.mem_sdiff, Set.mem_singleton_iff]
      exact and_right_comm
    refine ⟨⟨chain', hs', hm'⟩, ?_⟩
    ext k
    rw [mem_keys ⟨chain', hs', hm'⟩, mem_keys ⟨chain, hs, hm⟩]
    refine exists_congr fun d => ?_
    have hkeep : (s.store.word l.link).tag = (clearDeleted (s.nextEntry a)).tag := by
      rw [word_link, hw]
      rfl
    have htag : ((s.setWord l (clearDeleted (s.nextEntry a))).nextEntry d).tag = (s.nextEntry d).tag := by
      have := tag_setWord hkeep d
      rwa [← store_setWord] at this
    rw [htag, setWord_key, Set.mem_sdiff, Set.mem_singleton_iff]
    refine ⟨fun ⟨hd, ht⟩ => ⟨hd.1, ht⟩, fun ⟨hd, ht⟩ => ⟨⟨hd, ?_⟩, ht⟩⟩
    rintro rfl
    rw [hdead] at ht
    cases ht.1

end Chains

end OptimisticAccess.MOA
