import OptimisticAccess.AOA.Apart
import OptimisticAccess.AOA.Solo.Quiescent
import OptimisticAccess.Conc.Watched
import OptimisticAccess.Store

/-!
# The lists of a client with one thread

The lists hang off words of the first root, and what they hold is not in the pool. A search finds the
place of its key and unlinks deleted entries on the way; with one thread it never has to restart.
-/

namespace OptimisticAccess.AOA.Solo

open Conc Prog
open Store (Sound At Unlinked Searched)

/-! ## Lists -/

/-- The lists by the words of their heads. -/
def store (s : Mem 1) : Store (Nat × Nat) where
  head b := s.roots b.1 b.2
  keyData a := (s.node a).keyData
  nextEntry a := (s.node a).nextEntry

def linkOf : Word → Link (Nat × Nat)
  | .root r k => .head (r, k)
  | .next a => .next a

/-- The head of the list of a key. -/
def headOf (home : CInt → Nat × Nat) (key : CInt) : Word := .root (home key).1 (home key).2

/-- The heads are words of the first root. -/
structure Heads (rootLen : List Nat) (home : CInt → Nat × Nat) : Prop where
  lens : Lens rootLen
  first : ∀ key, (home key).1 = 0
  word : ∀ key, ∃ len, rootLen[0]? = some len ∧ (len = 1 → (home key).2 = 0) ∧ (len ≠ 1 → (home key).2 < len)

/-- Between two accesses of the client. -/
structure Client (heapmem rootLen : List Nat) (home : CInt → Nat × Nat) (v : Nat) (s : Mem 1) (chain : Nat × Nat → List Nat) : Prop
    extends Rest heapmem rootLen v s where
  sound : Sound home (store s) chain
  obj : ∀ b, ∀ a ∈ chain b, Obj heapmem ⟨a, false⟩
  out : ∀ b, ∀ a ∈ chain b, ¬ Pooled s ⟨a, false⟩

variable {heapmem rootLen : List Nat} {home : CInt → Nat × Nat} {s s' : Mem 1} {i : Fin 1} {v fuel a : Nat} {p : Ptr} {w : Word}
  {chain : Nat × Nat → List Nat} {b : Nat × Nat} {key : CInt} {rest : List Nat} {T : Prop}

@[simp] theorem word_linkOf : (store s).word (linkOf w) = s.word w := by cases w <;> rfl

theorem store_setWord : store (s.setWord w p) = (store s).setWord (linkOf w) p := by
  cases w with
  | root r k =>
    have hhead : (fun b : Nat × Nat => Function.update s.roots r (Function.update (s.roots r) k p) b.1 b.2) =
        Function.update (fun b : Nat × Nat => s.roots b.1 b.2) (r, k) p := by
      funext b
      obtain ⟨r', k'⟩ := b
      by_cases hr : r' = r
      · subst hr
        by_cases hk : k' = k
        · subst hk
          simp only [Function.update_self]
        · rw [Function.update_of_ne (a := (r', k')) fun he => hk (Prod.mk.inj he).2]
          simp only [Function.update_self, Function.update_of_ne hk]
      · rw [Function.update_of_ne (a := (r', k')) fun he => hr (Prod.mk.inj he).1]
        simp only [Function.update_of_ne hr]
    exact Store.ext hhead rfl rfl
  | next a =>
    have hkey : (fun d => (Function.update s.node a { s.node a with nextEntry := p } d).keyData) = fun d => (s.node d).keyData := by
      funext d
      by_cases hd : d = a
      · subst hd
        rw [Function.update_self]
      · rw [Function.update_of_ne hd]
    have hnext : (fun d => (Function.update s.node a { s.node a with nextEntry := p } d).nextEntry) =
        Function.update (fun d => (s.node d).nextEntry) a p := by
      funext d
      by_cases hd : d = a
      · subst hd
        rw [Function.update_self, Function.update_self]
      · rw [Function.update_of_ne hd, Function.update_of_ne hd]
    exact Store.ext rfl hkey hnext

theorem store_setKeyData {kd : BitVec 64} : store (s.setKeyData a kd) = (store s).setKeyData a kd := by
  have hkey : (fun d => (Function.update s.node a { s.node a with keyData := kd } d).keyData) =
      Function.update (fun d => (s.node d).keyData) a kd := by
    funext d
    by_cases hd : d = a
    · subst hd
      rw [Function.update_self, Function.update_self]
    · rw [Function.update_of_ne hd, Function.update_of_ne hd]
  have hnext : (fun d => (Function.update s.node a { s.node a with keyData := kd } d).nextEntry) = fun d => (s.node d).nextEntry := by
    funext d
    by_cases hd : d = a
    · subst hd
      rw [Function.update_self]
    · rw [Function.update_of_ne hd]
  exact Store.ext rfl hkey hnext

/-! ## What the allocator does to the lists -/

theorem Client.keep {v' : Nat} (h : Client heapmem rootLen home v s chain) (hrest : Rest heapmem rootLen v' s') (hstore : store s' = store s)
    (hout : ∀ b, ∀ a ∈ chain b, ¬ Pooled s' ⟨a, false⟩) : Client heapmem rootLen home v' s' chain :=
  { hrest with sound := by rw [hstore]; exact h.sound, obj := h.obj, out := hout }

theorem Framed.store_eq (h : Framed s s') : store s' = store s := by
  obtain ⟨entries, head, k, cache, spent, rfl⟩ := h
  rfl

theorem Collected.store_eq {s₁ : Mem 1} (h : Collected heapmem rootLen s₁ v s) : store s = store s₁ := by
  rw [store, store, h.node, h.roots]

/-- The head of a list is a root that is honoured. -/
theorem Heads.honoured (hheads : Heads rootLen home) (hrootLen : s.rootLen = rootLen) {HPs : List Ptr} (hhead : (store s).head (home key) = ⟨a, false⟩)
    (ha : a ≠ 0) : Honoured s HPs ⟨a, false⟩ := by
  obtain ⟨len, hget, h1, h2⟩ := hheads.word key
  have hroots : s.roots 0 (home key).2 = ⟨a, false⟩ := by
    rw [← hhead, ← hheads.first key]
    rfl
  refine .inr ⟨fun hnull => ha (congrArg Ptr.addr hnull), 0, len, hrootLen ▸ hget, fun _ => rfl, ?_⟩
  by_cases hlen : len = 1
  · rw [h1 hlen] at hroots
    exact .inl ⟨hlen, by rw [hroots]; rfl⟩
  · exact .inr ⟨hlen, (home key).2, h2 hlen, hroots.symm⟩

/-- What is in a list is reachable. -/
theorem Client.reachable (h : Client heapmem rootLen home v s chain) (hheads : Heads rootLen home) {HPs : List Ptr} (ha : a ∈ chain b) :
    Reachable s (Honoured s HPs) ⟨a, false⟩ := by
  obtain rfl : home (getKey ((store s).keyData a)) = b := h.sound.home b a ha
  generalize getKey ((store s).keyData a) = key at ha
  have hwalk := h.sound.walk (home key)
  suffices ∀ l q, Walk ((store s).cells (home key)).succ q l → (q ≠ 0 → Reachable s (Honoured s HPs) ⟨q, false⟩) →
      ∀ d ∈ l, Reachable s (Honoured s HPs) ⟨d, false⟩ from this _ 0 hwalk (fun h0 => absurd rfl h0) a ha
  intro l
  induction l with
  | nil => exact fun q _ _ d hd => absurd hd List.not_mem_nil
  | cons c l ih =>
    intro q hw hq d hd
    have hc : Reachable s (Honoured s HPs) ⟨c, false⟩ := by
      by_cases hq0 : q = 0
      · subst hq0
        have hhead : (store s).head (home key) = ⟨c, false⟩ := Ptr.eq_of_addr (h.sound.headTag (home key)) rfl hw.1
        exact ⟨_, hheads.honoured h.rootLen_eq hhead hw.2.1, .refl⟩
      · obtain ⟨p, hp, hpq⟩ := hq hq0
        have hsucc : (s.node q).nextEntry.addr = c := (Store.cells_succ_next hq0).symm.trans hw.1
        refine ⟨p, hp, hpq.tail ⟨fun hnull => hw.2.1 (congrArg Ptr.addr hnull), ?_⟩⟩
        exact Ptr.eq_of_addr rfl rfl hsucc.symm
    obtain rfl | hd := List.mem_cons.1 hd
    · exact hc
    · exact ih c hw.2.2 (fun _ => hc) d hd

/-- A collection keeps what is in the lists. -/
theorem Client.collected {v' : Nat} (h : Client heapmem rootLen home v s chain) (hheads : Heads rootLen home) (hs' : Collected heapmem rootLen s v' s')
    (hrest : Rest heapmem rootLen v' s') : Client heapmem rootLen home v' s' chain := by
  refine h.keep hrest hs'.store_eq fun b a ha hpooled => ?_
  obtain ⟨L, F, hshelves, -, -, hmem⟩ := hs'.pool
  obtain ⟨-, hunmarked⟩ := (hmem _).1 ((hshelves.pooled _).1 hpooled)
  exact hunmarked ((hs'.marked _ (h.obj b a ha)).2 (h.reachable hheads ha))

/-! ## What a step may do -/

/-- The entries of list `b` are in the order of their keys. -/
def Ordered (s : Mem 1) (b : Nat × Nat) : Prop := ∃ l, Walk ((store s).cells b).succ 0 l ∧ ((store s).cells b).Sorted l

def OnList (s : Mem 1) (b : Nat × Nat) (a : Nat) : Prop := ∃ l, Walk ((store s).cells b).succ 0 l ∧ a ∈ l

/-- What an operation has answered. -/
def returned : Ev → Option (Op × Bool)
  | .ret op b => some (op, b)
  | _ => none

/-- Within an operation. The order stays, no entry of a list is handed out, `ListInsert` goes on with an object, nothing is
written through `NULL`, and the heap does not run out. -/
structure Good (s : Mem 1) (e : Option Ev) (s' : Mem 1) : Prop where
  inside : e.bind returned = none
  ordered : (∀ b, Ordered s b) → ∀ b, Ordered s' b
  null : s'.node 0 = s.node 0
  served : ∀ p localVer, e = some (.served p localVer) → ∀ b, ¬ OnList s b p.addr
  fenced : ∀ p, e = some (.fenced (some p)) → p ≠ NULL
  heap : e ≠ some (.assertFailed .outOfMemory)

theorem Good.of_apart {e : Option Ev} (h : Apart s e s') : Good s e s' := by
  have hstore : store s' = store s := by rw [store, store, h.node, h.roots]
  have hevent : ∀ {e'}, e = some e' → Ev.isClient (some e') = false := fun he => he ▸ h.event
  refine ⟨?_, fun hord b => ?_, congrFun h.node 0, fun p localVer he => ?_, fun p he => ?_, fun he => ?_⟩
  · cases e with
    | none => rfl
    | some e' =>
      cases e' with
      | ret op r => cases hevent rfl
      | _ => rfl
  · rw [Ordered, hstore]
    exact hord b
  · cases hevent he
  · cases hevent he
  · cases hevent he

/-- A step that leaves the lists in order. -/
theorem Good.of_sound {e : Option Ev} (h : Sound home (store s') chain) (hnull : s'.node 0 = s.node 0) (he : Ev.isClient e = false ∨ ∃ k, e = some (.inserted k) ∨ e = some (.deleted k)) :
    Good s e s' := by
  have hevent : ∀ {e'}, e = some e' → Ev.isClient (some e') = true → ∃ k, e' = .inserted k ∨ e' = .deleted k := by
    intro e' he' hclient
    subst he'
    obtain he | ⟨k, hk | hk⟩ := he
    · rw [hclient] at he
      cases he
    · exact ⟨k, .inl (Option.some.inj hk)⟩
    · exact ⟨k, .inr (Option.some.inj hk)⟩
  refine ⟨?_, fun _ b => ⟨chain b, h.walk b, h.sorted b⟩, hnull, fun p localVer he => ?_, fun p he => ?_, fun he => ?_⟩
  · cases e with
    | none => rfl
    | some e' =>
      cases e' with
      | ret op r => obtain ⟨k, hk | hk⟩ := hevent rfl rfl <;> cases hk
      | _ => rfl
  · obtain ⟨k, hk | hk⟩ := hevent he rfl <;> cases hk
  · obtain ⟨k, hk | hk⟩ := hevent he rfl <;> cases hk
  · obtain ⟨k, hk | hk⟩ := hevent he rfl <;> cases hk

theorem Good.refl {e : Option Ev} (he : Ev.isClient e = false) (s : Mem 1) : Good s e s := .of_apart (.refl he s)

end OptimisticAccess.AOA.Solo
