import Mathlib.Data.List.Perm.Subperm
import Mathlib.Data.Set.Image
import OptimisticAccess.Conc.Alone
import OptimisticAccess.NoRecl.Linear
import OptimisticAccess.Store

/-!
# An operation that runs alone completes

The list without reclamation is obstruction free. Wherever the other threads have been stopped, in the
middle of a search, between a mark and the unlinking or with an entry that is not linked yet, an
operation that is started there and runs alone returns. Its search clears the deleted entries out of
its way, so it needs at most one round for each entry of the chain, and its compare-and-swap succeeds.
-/

namespace OptimisticAccess.NoRecl

open Conc Prog
open Store (Sound At Unlinked Searched)

/-- The words of the list. -/
def Mem.store (s : Mem) : Store Unit := ⟨fun _ => s.entryHead, fun a => (s.node a).keyData, fun a => (s.node a).nextEntry⟩

def linkOf : Loc → Link Unit
  | .head => .head ()
  | .next a => .next a

/-- There is one list. -/
def home : CInt → Unit := fun _ => ()

/-- The set after an operation. -/
def after (S : Set Int) : Op → Set Int
  | .insert key _ => insert key.toInt S
  | .delete key => S \ {key.toInt}
  | .search _ => S

/-- The operation had the answer and the effect of the set, and no deleted entry is left before its key. -/
structure Completed (hashOp : Bool) (op : Op) (s : Mem) (b : Bool) (s' : Mem) : Prop where
  answer : b = true ↔ succeeds s.keys op
  keys : s'.keys = after s.keys op
  tidy : ∀ a, Linked s' a → isDeleted (s'.node a).nextEntry = true →
    op.key.toInt < s'.key a ∨ hashOp = false ∧ b = true ∧ op = .delete op.key ∧ s'.key a = op.key.toInt

variable {n fuel a : Nat} {s s' s₀ : Mem} {chain chain₀ chain' : Unit → List Nat} {key : CInt} {rest : List Nat} {fres : ThreadLocal}
  {loc : Loc} {p : Ptr}

/-! ## The memory as a store -/

theorem word_linkOf (s : Mem) (loc : Loc) : s.store.word (linkOf loc) = s.word loc := by cases loc <;> rfl

theorem store_setWord : (s.setWord loc p).store = s.store.setWord (linkOf loc) p := by
  cases loc with
  | head =>
    apply Store.ext
    · funext b
      exact (Function.update_self (f := s.store.head) b p).symm
    · rfl
    · rfl
  | next a =>
    apply Store.ext
    · rfl
    · exact (Function.comp_update Entry.keyData s.node a _).trans (Function.update_eq_self a _)
    · exact Function.comp_update Entry.nextEntry s.node a _

theorem store_setKeyData {kd : BitVec 64} : (s.setKeyData a kd).store = s.store.setKeyData a kd := by
  apply Store.ext
  · rfl
  · exact Function.comp_update Entry.keyData s.node a _
  · exact (Function.comp_update Entry.nextEntry s.node a _).trans (Function.update_eq_self a _)

/-- Every key of the list is an `int`. -/
theorem keys_eq_image (s : Mem) : s.keys = BitVec.toInt '' s.store.keys home := by
  ext k
  constructor
  · rintro ⟨l, hw, a, ha, hlive, rfl⟩
    exact ⟨getKey (s.node a).keyData, ⟨l, hw, a, ha, hlive, rfl⟩, rfl⟩
  · rintro ⟨key, hkey, rfl⟩
    exact hkey

theorem keys_congr (h : s'.store.keys home = s.store.keys home) : s'.keys = s.keys := by
  rw [keys_eq_image, h, ← keys_eq_image]

theorem keys_insert (h : s'.store.keys home = insert key (s.store.keys home)) : s'.keys = insert key.toInt s.keys := by
  rw [keys_eq_image, h, Set.image_insert_eq, ← keys_eq_image]

theorem keys_erase (h : s'.store.keys home = s.store.keys home \ {key}) : s'.keys = s.keys \ {key.toInt} := by
  rw [keys_eq_image, h, Set.image_sdiff (fun _ _ => BitVec.toInt_inj.1), Set.image_singleton, ← keys_eq_image]

/-- A list that no step is in the middle of, and entries for allocation that are not on it. -/
structure Still (s : Mem) (chain : Unit → List Nat) : Prop where
  sound : Sound home s.store chain
  vacant : ∀ k, s.brk ≤ k → s.pool k ∉ chain () ∧ s.pool k ≠ 0

theorem Still.linked_iff (h : Still s chain) : Linked s a ↔ a ∈ chain () := by
  constructor
  · rintro ⟨l, hl, ha⟩
    rwa [hl.unique (h.sound.walk ())] at ha
  · exact fun ha => ⟨chain (), h.sound.walk (), ha⟩

/-! ## `find` -/

/-- Where a search stands that has started in `s₀`. -/
structure Standing (key : CInt) (s₀ : Mem) (chain₀ : Unit → List Nat) (fres : ThreadLocal) (s : Mem) (chain : Unit → List Nat)
    (rest : List Nat) : Prop where
  still : Still s chain
  place : At s.store chain () key.toInt (linkOf fres.prev) rest
  searched : Searched home key s₀.store chain₀ s.store chain rest
  cur : fres.cur = s.word fres.prev

theorem Standing.null_iff (h : Standing key s₀ chain₀ fres s chain rest) : fres.cur = NULL ↔ rest = [] := by
  rw [h.cur, ← word_linkOf]
  exact h.place.null_iff h.still.sound

theorem Standing.cur_eq (h : Standing key s₀ chain₀ fres s chain (a :: rest)) : fres.cur = ⟨a, false⟩ := by
  rw [h.cur, ← word_linkOf]
  exact h.place.word_eq h.still.sound

/-- The compare-and-swap of `find`. -/
theorem Standing.unlink (h : Standing key s₀ chain₀ fres s chain (a :: rest)) (hdead : (s.node a).nextEntry.tag = true) :
    ∃ chain', Standing key s₀ chain₀ ⟨fres.prev, clearDeleted (s.node a).nextEntry, (s.node a).nextEntry⟩
      (s.setWord fres.prev (clearDeleted (s.node a).nextEntry)) chain' rest := by
  obtain ⟨chain', hsound, hmem, hat⟩ := h.place.unlink h.still.sound hdead
  have hstore : (s.setWord fres.prev (clearDeleted (s.node a).nextEntry)).store =
      s.store.setWord (linkOf fres.prev) (clearDeleted (s.store.nextEntry a)) := store_setWord
  refine ⟨chain', ⟨hstore ▸ hsound, fun k hk => ?_⟩, hstore ▸ hat, ?_, setWord_word.symm⟩
  · rw [setWord_brk] at hk
    rw [setWord_pool]
    obtain ⟨hnot, h0⟩ := h.still.vacant k hk
    exact ⟨fun hmem' => hnot ((hmem _ _).1 hmem').1, h0⟩
  · rw [hstore]
    exact h.searched.unlink h.still.sound h.place hdead hmem

/-- `find` goes past an entry. -/
theorem Standing.advance (h : Standing key s₀ chain₀ fres s chain (a :: rest)) (hlive : (s.node a).nextEntry.tag = false)
    (hlt : (getKey (s.node a).keyData).toInt < key.toInt) :
    Standing key s₀ chain₀ ⟨.next a, (s.node a).nextEntry, (s.node a).nextEntry⟩ s chain rest :=
  ⟨h.still, h.place.advance h.still.sound hlive hlt, h.searched.advance hlive, rfl⟩

/-- What `find` answers. -/
structure Ended (key : CInt) (s₀ : Mem) (chain₀ : Unit → List Nat) (r : Bool × ThreadLocal) (s : Mem) (chain : Unit → List Nat)
    (rest : List Nat) : Prop extends Standing key s₀ chain₀ r.2 s chain rest where
  stop : ∀ a ∈ rest.head?, (s.node a).nextEntry.tag = false ∧ key.toInt ≤ (getKey (s.node a).keyData).toInt
  answer : r.1 = true ↔ ∃ a ∈ rest.head?, getKey (s.node a).keyData = key
  next : ∀ a ∈ rest.head?, r.2.next = (s.node a).nextEntry

/-- One round from an entry on. -/
theorem ends_findRound (h : Standing key s₀ chain₀ fres s chain (a :: rest)) :
    Ends (findRound key (some fres)) s fun r s' =>
      (∃ fres' chain', r = .inl (some fres') ∧ Standing key s₀ chain₀ fres' s' chain' rest) ∨
      ∃ x, r = .inr x ∧ Ended key s₀ chain₀ x s' chain (a :: rest) := by
  have hcur := h.cur_eq
  have ha0 : fres.cur ≠ NULL := fun hnull => List.cons_ne_nil a rest (h.null_iff.1 hnull)
  rw [findRound, if_neg ha0]
  simp only [hcur, ends_bind, ends_load]
  cases htag : (s.node a).nextEntry.tag with
  | true =>
    -- the entry is deleted and leaves the list
    have hdel : isDeleted (s.node a).nextEntry = true := htag
    rw [if_pos hdel, ends_bind]
    obtain ⟨chain', h'⟩ := h.unlink htag
    apply ends_cas
    · intro _
      rw [if_pos rfl]
      exact ends_ret.2 (.inl ⟨_, chain', rfl, h'⟩)
    · intro hne
      exact absurd (h.cur.symm.trans hcur) hne
  | false =>
    have hlive : ¬ isDeleted (s.node a).nextEntry = true := fun hdel => Bool.false_ne_true (htag.symm.trans hdel)
    rw [if_neg hlive]
    simp only [ends_bind, ends_load]
    rw [if_neg (not_not.2 (h.cur.symm.trans hcur))]
    split
    · rename_i hle
      refine ends_ret.2 (.inr ⟨_, rfl, ⟨h.still, h.place, h.searched, hcur.symm.trans h.cur⟩, ?_, ?_, ?_⟩)
      · intro d hd
        obtain rfl := Option.some.inj hd
        exact ⟨htag, hle⟩
      · rw [beq_iff_eq]
        constructor
        · exact fun he => ⟨a, rfl, he⟩
        · rintro ⟨d, hd, he⟩
          obtain rfl := Option.some.inj hd
          exact he
      · intro d hd
        obtain rfl := Option.some.inj hd
        rfl
    · rename_i hlt
      exact ends_ret.2 (.inl ⟨_, chain, rfl, h.advance htag (not_le.1 hlt)⟩)

theorem ends_findFrom (hfuel : rest.length < fuel) (h : Standing key s₀ chain₀ fres s chain rest) :
    Ends (iter (findRound key) fuel (some fres)) s fun r s' => ∃ chain rest, Ended key s₀ chain₀ r s' chain rest := by
  induction rest generalizing fuel fres s chain with
  | nil =>
    obtain ⟨m, rfl⟩ : ∃ m, fuel = m + 1 := ⟨fuel - 1, by omega⟩
    rw [iter, findRound, if_pos (h.null_iff.2 rfl)]
    have hnone : ∀ a, a ∉ ([] : List Nat).head? := fun a => Option.not_mem_none a
    refine ends_ret.2 ⟨chain, [], h, fun a ha => absurd ha (hnone a), ?_, fun a ha => absurd ha (hnone a)⟩
    constructor
    · exact fun hfalse => absurd hfalse Bool.false_ne_true
    · rintro ⟨a, ha, -⟩
      exact absurd ha (hnone a)
  | cons a rest ih =>
    obtain ⟨m, rfl⟩ : ∃ m, fuel = m + 1 := ⟨fuel - 1, by omega⟩
    rw [iter, ends_bind]
    apply (ends_findRound h).mono
    rintro r s' (⟨fres', chain', rfl, h'⟩ | ⟨x, rfl, hx⟩)
    · exact ih (Nat.lt_of_succ_lt_succ hfuel) h'
    · exact ends_ret.2 ⟨chain, a :: rest, hx⟩

theorem ends_find (hfuel : (chain ()).length + 1 < fuel) (h : Still s chain) :
    Ends (find fuel key) s fun r s' => ∃ chain' rest, Ended key s chain r s' chain' rest := by
  obtain ⟨m, rfl⟩ : ∃ m, fuel = m + 1 := ⟨fuel - 1, by omega⟩
  rw [find, iter, ends_bind, findRound, ends_bind, ends_load]
  refine ends_ret.2 (ends_findFrom (by omega) ⟨h, h.sound.start () key.toInt, .start, rfl⟩)

theorem Ended.answer_iff {r : Bool × ThreadLocal} (h : Ended key s₀ chain₀ r s chain rest) (h₀ : Still s₀ chain₀) :
    r.1 = true ↔ key.toInt ∈ s₀.keys := by
  have hkeys : key ∈ s.store.keys home ↔ key.toInt ∈ s₀.keys := by
    rw [h.searched.keys h₀.sound h.still.sound]
    exact Iff.rfl
  rw [← hkeys]
  constructor
  · intro hr
    obtain ⟨a, ha, hkd⟩ := h.answer.1 hr
    obtain ⟨r', rfl⟩ := List.head?_eq_some_iff.1 ha
    exact h.place.present h.still.sound (h.stop a rfl).1 hkd
  · intro hmem
    by_contra hr
    refine h.place.absent h.still.sound (fun a ha => ?_) hmem
    refine lt_of_le_of_ne (h.stop a ha).2 fun he => hr (h.answer.2 ⟨a, ha, ?_⟩)
    exact (BitVec.toInt_inj.1 he).symm

/-- The deleted entries that a search has left are above its key. -/
theorem Ended.tidy {r : Bool × ThreadLocal} (h : Ended key s₀ chain₀ r s chain rest) (ha : a ∈ chain ())
    (hdead : (s.node a).nextEntry.tag = true) : key.toInt < s.key a := by
  have hmem : a ∈ rest := h.searched.ahead a ha hdead
  cases rest with
  | nil => cases hmem
  | cons d rest =>
    obtain ⟨hlive, hle⟩ := h.stop d rfl
    have hd : d ∈ chain () := h.place.sub h.still.sound d List.mem_cons_self
    obtain rfl | hmem := List.mem_cons.1 hmem
    · rw [hlive] at hdead
      cases hdead
    · obtain ⟨l, r, he, hr⟩ := (h.still.sound.walk ()).split (List.mem_cons_of_mem 0 hd)
      rw [hr.unique h.place.walk.2.2] at he
      have hlt := (((h.still.sound.sorted ()).around he).2 a hmem).2.resolve_left (h.still.sound.ne_zero hd)
      exact lt_of_le_of_lt hle hlt

/-- A search unlinks entries and links none. -/
theorem Ended.length_le {r : Bool × ThreadLocal} (h : Ended key s₀ chain₀ r s chain rest) : (chain ()).length ≤ (chain₀ ()).length :=
  (List.subperm_of_subset (List.nodup_cons.1 (h.still.sound.walk ()).nodup).2 fun a ha => h.searched.sub () a ha).length_le

/-! ## The operations -/

variable {hashOp : Bool}

/-- An operation that changes nothing. -/
theorem Ended.completed {r : Bool × ThreadLocal} (h : Ended key s₀ chain₀ r s chain rest) (h₀ : Still s₀ chain₀) {op : Op} {b : Bool}
    (hop : op.key = key) (hb : b = true ↔ succeeds s₀.keys op) (hafter : after s₀.keys op = s₀.keys) : Completed hashOp op s₀ b s where
  answer := hb
  keys := by
    rw [hafter]
    exact keys_congr (h.searched.keys h₀.sound h.still.sound)
  tidy a ha hdead := by
    rw [hop]
    exact .inl (h.tidy (h.still.linked_iff.1 ha) hdead)

theorem ends_listSearch (hfuel : (chain ()).length + 1 < fuel) (h : Still s chain) :
    Ends (listSearch fuel key) s (Completed hashOp (.search key) s) := by
  rw [listSearch, ends_bind]
  apply (ends_find hfuel h).mono
  rintro ⟨found, fres⟩ s' ⟨chain', rest, hr⟩
  have hanswer : found = true ↔ succeeds s.keys (.search key) := hr.answer_iff h
  cases found with
  | true => exact ends_bind.2 (ends_load.2 (ends_ret.2 (hr.completed h rfl hanswer rfl)))
  | false => exact ends_ret.2 (hr.completed h rfl hanswer rfl)

/-- The new entry before it is linked. -/
structure Drafted (key : CInt) (cur : Ptr) (s : Mem) (chain : Unit → List Nat) (a : Nat) (s' : Mem) : Prop where
  unlinked : Unlinked s.store chain s'.store
  keyData : getKey (s'.node a).keyData = key
  nextEntry : (s'.node a).nextEntry = cur

theorem drafted (ha : a ∉ chain ()) (cur : Ptr) :
    Drafted key cur s chain a (({ s with brk := s.brk + 1 }.setKeyData a (keyWord key)).setWord (.next a) cur) := by
  have hout : ∀ b, a ∉ chain b := fun _ => ha
  have h1 : Unlinked s.store chain ({ s with brk := s.brk + 1 }.setKeyData a (keyWord key)).store := by
    rw [store_setKeyData]
    exact Store.unlinked_setKeyData hout
  have h2 : Unlinked ({ s with brk := s.brk + 1 }.setKeyData a (keyWord key)).store chain
      (({ s with brk := s.brk + 1 }.setKeyData a (keyWord key)).setWord (.next a) cur).store := by
    rw [store_setWord]
    exact Store.unlinked_setWord hout
  refine ⟨⟨h2.head.trans h1.head, fun b d hd => ?_, fun b d hd => ?_⟩, ?_, ?_⟩
  · exact (h2.keyData b d hd).trans (h1.keyData b d hd)
  · exact (h2.nextEntry b d hd).trans (h1.nextEntry b d hd)
  · rw [setWord_keyData]
    exact (congrArg (fun e : Entry => getKey e.keyData) (Function.update_self ..)).trans (getKey_keyWord key)
  · change (Mem.setWord _ (.next a) cur).word (.next a) = cur
    exact setWord_word

/-- The compare-and-swap of `ListInsert`. -/
theorem Ended.link {fres : ThreadLocal} (h : Ended key s₀ chain₀ (false, fres) s chain rest) (h₀ : Still s₀ chain₀) (data : CInt)
    (ha : a ∉ chain ()) (ha0 : a ≠ 0)
    (hd : Drafted key fres.cur s chain a s') :
    s'.word fres.prev = fres.cur ∧ Completed hashOp (.insert key data) s₀ true (s'.setWord fres.prev ⟨a, false⟩) := by
  have hs' := hd.unlinked.sound h.still.sound
  have hat := hd.unlinked.at h.still.sound h.place
  have hword : s'.word fres.prev = fres.cur := by
    rw [h.cur, ← word_linkOf, ← word_linkOf]
    exact h.place.word_unique h.still.sound hat hs'
  have hcur : fres.cur.tag = false := by
    rw [h.cur, ← word_linkOf]
    exact h.place.tag
  have hkeys : s'.keys = s₀.keys := keys_congr ((hd.unlinked.keys h.still.sound).trans (h.searched.keys h₀.sound h.still.sound))
  have habsent : key.toInt ∉ s₀.keys := fun hmem => Bool.false_ne_true ((h.answer_iff h₀).2 hmem)
  have hgt : ∀ d ∈ rest.head?, key.toInt < s'.store.key d := by
    intro d hdr
    obtain ⟨r, rfl⟩ := List.head?_eq_some_iff.1 hdr
    refine lt_of_le_of_ne ?_ fun he => ?_
    · rw [Store.key, hd.unlinked.keyData () d (h.place.sub h.still.sound d List.mem_cons_self)]
      exact (h.stop d rfl).2
    · refine Bool.false_ne_true (h.answer.2 ⟨d, rfl, ?_⟩)
      rw [Store.key, hd.unlinked.keyData () d (h.place.sub h.still.sound d List.mem_cons_self)] at he
      exact (BitVec.toInt_inj.1 he).symm
  obtain ⟨chain', hsound, hmem, hinsert⟩ := hat.link (a := a) hs' hgt ha0 (fun _ => ha) hd.keyData
    (hd.nextEntry.trans (by rw [word_linkOf, hword]))
  rw [← store_setWord] at hsound hinsert
  have htag : ∀ d, ((s'.setWord fres.prev ⟨a, false⟩).node d).nextEntry.tag = (s'.node d).nextEntry.tag := by
    intro d
    have htag : ((s'.store.setWord (linkOf fres.prev) ⟨a, false⟩).nextEntry d).tag = (s'.store.nextEntry d).tag :=
      Store.tag_setWord hat.tag d
    rwa [← store_setWord] at htag
  refine ⟨hword, ⟨?_, ?_, fun d hdl hdead => ?_⟩⟩
  · exact iff_of_true rfl habsent
  · rw [keys_insert hinsert, hkeys]
    rfl
  · left
    obtain ⟨l, hl, hdl⟩ := hdl
    rw [hl.unique (hsound.walk ())] at hdl
    have hdead' : (s'.node d).nextEntry.tag = true := (htag d).symm.trans hdead
    obtain hd' | ⟨-, rfl⟩ := (hmem () d).1 hdl
    · have hold := h.tidy hd' ((congrArg Ptr.tag (hd.unlinked.nextEntry () d hd')).symm.trans hdead')
      rw [Mem.key, setWord_keyData]
      exact lt_of_lt_of_eq hold (congrArg (fun kd => (getKey kd).toInt) (hd.unlinked.keyData () d hd')).symm
    · rw [hd.nextEntry, hcur] at hdead'
      cases hdead'

theorem ends_listInsert (hfuel : (chain ()).length + 1 < fuel) (h : Still s chain) (data : CInt) :
    Ends (listInsert fuel key data) s (Completed hashOp (.insert key data) s) := by
  apply ends_iter_once (by omega)
  rw [ends_bind]
  apply (ends_find hfuel h).mono
  rintro ⟨found, fres⟩ s₁ ⟨chain', rest, hr⟩
  have hanswer := hr.answer_iff h
  cases found with
  | true =>
    have hmem : key.toInt ∈ s.keys := hanswer.1 rfl
    refine ends_ret.2 ⟨false, rfl, hr.completed h rfl ?_ (Set.insert_eq_of_mem hmem)⟩
    exact iff_of_false Bool.false_ne_true fun hnot => hnot hmem
  | false =>
    obtain ⟨ha, ha0⟩ := hr.still.vacant s₁.brk le_rfl
    obtain ⟨hword, hdone⟩ := hr.link h data ha ha0 (drafted ha fres.cur)
    simp only [Bool.false_eq_true, if_false, palloc, ends_bind, ends_atomic, ends_store]
    apply ends_cas
    · intro _
      exact ends_ret.2 ⟨true, rfl, hdone⟩
    · exact fun hne => absurd hword hne

/-- The compare-and-swap of `ListDelete`. -/
theorem Ended.mark {fres : ThreadLocal} (h : Ended key s₀ chain₀ (true, fres) s chain (a :: rest))
    (hkd : getKey (s.node a).keyData = key) :
    Still (s.setWord (.next a) (markDeleted (s.node a).nextEntry)) chain ∧
      (s.setWord (.next a) (markDeleted (s.node a).nextEntry)).store.keys home = s.store.keys home \ {key} ∧
      ∀ d ∈ chain (), ((s.setWord (.next a) (markDeleted (s.node a).nextEntry)).node d).nextEntry.tag = true →
        d = a ∨ key.toInt < s.key d := by
  obtain ⟨hsound, hkeys⟩ := h.place.mark h.still.sound (h.stop a rfl).1 hkd
  have hstore : (s.setWord (.next a) (markDeleted (s.node a).nextEntry)).store =
      s.store.setWord (.next a) (markDeleted (s.store.nextEntry a)) := by
    rw [store_setWord]
    rfl
  refine ⟨⟨hstore ▸ hsound, h.still.vacant⟩, hstore ▸ hkeys, fun d hd hdead => ?_⟩
  by_cases hda : d = a
  · exact .inl hda
  · right
    refine h.tidy hd ?_
    rwa [setWord_node_ne fun e => hda (Loc.next.inj e).symm] at hdead

theorem ends_listDelete (hfuel : (chain ()).length + 1 < fuel) (h : Still s chain) :
    Ends (listDelete hashOp fuel key) s (Completed hashOp (.delete key) s) := by
  apply ends_iter_once (by omega)
  rw [ends_bind]
  apply (ends_find hfuel h).mono
  rintro ⟨found, fres⟩ s₁ ⟨chain', rest, hr⟩
  have hanswer := hr.answer_iff h
  have hkeys₁ := hr.searched.keys h.sound hr.still.sound
  cases found with
  | false =>
    have hmem : key.toInt ∉ s.keys := fun hmem => Bool.false_ne_true (hanswer.2 hmem)
    refine ends_ret.2 ⟨false, rfl, hr.completed h rfl ?_ (Set.sdiff_singleton_eq_self hmem)⟩
    exact iff_of_false Bool.false_ne_true hmem
  | true =>
    obtain ⟨a, hhead, hkd⟩ := hr.answer.1 rfl
    obtain ⟨rest, rfl⟩ := List.head?_eq_some_iff.1 hhead
    have hcur : fres.cur = ⟨a, false⟩ := hr.cur_eq
    have hnext : fres.next = (s₁.node a).nextEntry := hr.next a rfl
    obtain ⟨hstill, hkeys₂, hdead₂⟩ := hr.mark hkd
    simp only [Bool.true_eq_false, if_false, ends_bind, hcur, hnext]
    apply ends_cas
    · intro _
      rw [if_pos rfl]
      cases hashOp with
      | true =>
        have hfuel' : (chain' ()).length + 1 < fuel := by
          have := hr.length_le
          omega
        rw [if_pos rfl, ends_bind]
        apply (ends_find hfuel' hstill).mono
        rintro r s₃ ⟨chain₃, rest₃, hr₃⟩
        refine ends_ret.2 ⟨true, rfl, ⟨iff_of_true rfl (hanswer.1 rfl), ?_, fun d hd hdead => ?_⟩⟩
        · refine keys_erase ?_
          rw [hr₃.searched.keys hstill.sound hr₃.still.sound, hkeys₂, hkeys₁]
        · exact .inl (hr₃.tidy (hr₃.still.linked_iff.1 hd) hdead)
      | false =>
        rw [if_neg Bool.false_ne_true]
        refine ends_ret.2 ⟨true, rfl, ⟨iff_of_true rfl (hanswer.1 rfl), ?_, fun d hd hdead => ?_⟩⟩
        · refine keys_erase ?_
          rw [hkeys₂, hkeys₁]
        · obtain rfl | hlt := hdead₂ d (hstill.linked_iff.1 hd) hdead
          · refine .inr ⟨rfl, rfl, rfl, ?_⟩
            rw [Mem.key, setWord_keyData, hkd]
            rfl
          · left
            rwa [Mem.key, setWord_keyData]
    · exact fun hne => absurd rfl hne

theorem ends_perform (hfuel : (chain ()).length + 1 < fuel) (h : Still s chain) (op : Op) :
    Ends (perform hashOp fuel op) s (Completed hashOp op s) := by
  cases op with
  | insert key data => exact ends_listInsert hfuel h data
  | delete key => exact ends_listDelete hfuel h
  | search key => exact ends_listSearch hfuel h

/-! ## Runs -/

theorem Shape.still {pool : Nat → Nat} {g : Ghost (Fin n)} (hs : Shape pool s g) (hz : ∀ k, pool k ≠ 0) :
    ∃ l, Still s fun _ => l := by
  obtain ⟨l, hw, hso, hl, -⟩ := hs.chain
  refine ⟨l, ⟨fun _ => hs.headTag, fun _ => hw, fun _ => hso, fun _ _ _ => rfl⟩, fun k hk => ⟨fun hmem => ?_, ?_⟩⟩
  · exact (hs.fresh k hk).1 (hl _ hmem)
  · rw [hs.pool_eq]
    exact hz k

/-- **The list is obstruction free.** In every state of every run, an operation that starts there and
runs alone returns with the answer of the set; a round for each entry of the chain and two more are enough. -/
theorem reach_completes {s : Mem} (hs : Start s) (hashOp : Bool) (fuel : Fin n → Nat) (ops : Fin n → List Op)
    {c : Cfg (Fin n) Mem Ev} (hc : Cfg.Reach (.init s fun i => client hashOp (fuel i) (ops i)) c) :
    ∃ l, Walk c.mem.cells.succ 0 l ∧ ∀ (op : Op) (m : Nat), l.length + 1 < m →
      Ends (perform hashOp m op) c.mem (Completed hashOp op c.mem) := by
  obtain ⟨g, hI⟩ := hs.reach_inv hc
  obtain ⟨l, hstill⟩ := hI.shape.still hs.pool_ne
  exact ⟨l, hstill.sound.walk (), fun op m hm => ends_perform hm hstill op⟩

/-- One thread has been stopped between the mark of its deletion and the unlinking, another in its search. -/
def stopped : Cfg (Fin 2) Mem Ev :=
  (Cfg.init emptyList fun i : Fin 2 => client true 9 (if i.val = 0 then [.insert 3 7, .delete 3] else [.search 3])).exec
    (List.replicate 13 ⟨0, Nat.two_pos⟩ ++ List.replicate 2 ⟨1, Nat.one_lt_two⟩)

theorem reach_completes_stopped : isDeleted (stopped.mem.node 1).nextEntry = true ∧ stopped.mem.entryHead = ⟨1, false⟩ ∧
    ∃ l, Walk stopped.mem.cells.succ 0 l ∧ ∀ (op : Op) (m : Nat), l.length + 1 < m →
      Ends (perform true m op) stopped.mem (Completed true op stopped.mem) :=
  ⟨by decide +kernel, by decide +kernel, reach_completes start_emptyList true (fun _ => 9)
    (fun i => if i.val = 0 then [.insert 3 7, .delete 3] else [.search 3]) ⟨_, rfl⟩⟩

end OptimisticAccess.NoRecl
