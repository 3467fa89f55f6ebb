import Mathlib.Logic.Function.Basic

/-!
# `entry.h`

List entries and their tagged pointers. Entries are aligned, so the lowest bit of an
`Entry*` is free and carries the deleted flag; a pointer word is the pair of its address and
that bit.
-/

namespace OptimisticAccess

/-- The C type `int`. -/
abbrev CInt := BitVec 32

/-- An `Entry*` word: an aligned address and the lowest bit. -/
structure Ptr where
  addr : Nat
  tag : Bool
  deriving DecidableEq, Repr

def NULL : Ptr := ⟨0, false⟩

def isDeleted (p : Ptr) : Bool := p.tag

def markDeleted (p : Ptr) : Ptr := { p with tag := true }

def clearDeleted (p : Ptr) : Ptr := { p with tag := false }

structure Entry where
  keyData : BitVec 64
  nextEntry : Ptr
  deriving DecidableEq, Repr

/-- `entry->keyData = key`: the conversion of an `int` to `uint64_t`. -/
def keyWord (key : CInt) : BitVec 64 := key.signExtend 64

def getData (keydata : BitVec 64) : CInt := (keydata >>> 32).setWidth 32

def getKey (keydata : BitVec 64) : CInt := keydata.setWidth 32

/-- A `Entry**`: the address of the list head or of the `nextEntry` word of an entry. -/
inductive Loc where
  | head
  | next (a : Nat)
  deriving DecidableEq, Repr

@[simp] theorem getKey_keyWord (key : CInt) : getKey (keyWord key) = key := by
  apply BitVec.eq_of_getLsbD_eq
  intro i hi
  simp [getKey, keyWord, BitVec.getLsbD_signExtend, hi]
  omega

@[simp] theorem isDeleted_clearDeleted (p : Ptr) : isDeleted (clearDeleted p) = false := rfl

@[simp] theorem isDeleted_markDeleted (p : Ptr) : isDeleted (markDeleted p) = true := rfl

@[simp] theorem clearDeleted_addr (p : Ptr) : (clearDeleted p).addr = p.addr := rfl

@[simp] theorem markDeleted_addr (p : Ptr) : (markDeleted p).addr = p.addr := rfl

/-- An untagged pointer is determined by its address. -/
theorem Ptr.eq_of_addr {p q : Ptr} (hp : p.tag = false) (hq : q.tag = false) (h : p.addr = q.addr) :
    p = q := by
  cases p; cases q; simp_all

/-- An operation of a list and its arguments. -/
inductive Op where
  | insert (key : CInt) (data : CInt)
  | delete (key : CInt)
  | search (key : CInt)
  deriving DecidableEq, Repr

def Op.key : Op → CInt
  | .insert key _ => key
  | .delete key => key
  | .search key => key

end OptimisticAccess
