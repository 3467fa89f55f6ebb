import OptimisticAccess.Entry
import OptimisticAccess.Lib.Stamp

/-!
# `allocator.h`

The geometry of the heap and the packed words of the allocator. A chunk is aligned to its size
and starts with a header of mark words; each mark word holds the marks of 32 consecutive objects
in its lower half and the number of the collection it belongs to in its upper half. The sweep
counter and the mark tables of array roots are packed in the same way.
-/

namespace OptimisticAccess.AOA

def entriesPerCache : Nat := 126

def chunkSize : Nat := 2 ^ 19

def nodeSize : Nat := 32

def memPerByte : Nat := nodeSize / 2 * 8

def headerSize : Nat := (chunkSize / memPerByte + nodeSize - 1) / nodeSize * nodeSize

def payloadSize : Nat := chunkSize - headerSize

def sweepPage : Nat := 2 ^ 16

def sweepPagesPerChunk : Nat := chunkSize / sweepPage

def maxChunks : Nat := 20

def arrEntriesPerBit : Nat := 64

def entriesPerWord : Nat := arrEntriesPerBit * 32

/-- `sizeof(u64)`. -/
def wordSize : Nat := 8

/-- An `unsigned long`. -/
abbrev U64 := BitVec 64

/-- `MAKE_SC`. -/
def makeSC (cnt phase : Nat) : U64 := Stamp.empty phase ||| BitVec.ofNat 64 cnt

/-- `PHASE`. -/
def phaseOf (w : U64) : Nat := (w >>> 32).toNat % 2 ^ 32

/-- `SCOUNTER`. -/
def scounter (w : U64) : Nat := w.toNat % 2 ^ 32

def isCurPhase (data phaseShifted : U64) : Bool := (data &&& 0xFFFFFFFF00000000#64) == phaseShifted

/-- The conversion of a `long` to `int`. -/
def toInt32 (x : Nat) : Int := (BitVec.ofNat 32 x).toInt

/-- The address `*out_h_ptr` of `get_mark_params`. -/
def markWord (ptr : Nat) : Nat :=
  ptr / chunkSize * chunkSize + wordSize * (ptr % chunkSize / nodeSize / 32)

/-- The bit of `*out_mask` of `get_mark_params`. -/
def markBit (ptr : Nat) : Nat := ptr % chunkSize / nodeSize % 32

/-- `*out_mask` of `get_mark_params`. -/
def markMask (ptr : Nat) : U64 := Stamp.bit (markBit ptr)

/-- `CLEAR_PTR`. -/
def clearPtr (p : Ptr) : Ptr := clearDeleted p

theorem makeSC_zero (v : Nat) : makeSC 0 v = Stamp.empty v := by
  simp [makeSC]

theorem markBit_lt (ptr : Nat) : markBit ptr < 32 := Nat.mod_lt _ (by decide)

theorem phaseOf_eq (w : U64) : phaseOf w = Stamp.hi w := by
  have := Stamp.hi_lt w
  rw [phaseOf, BitVec.toNat_ushiftRight, Nat.shiftRight_eq_div_pow]
  exact Nat.mod_eq_of_lt this

theorem isCurPhase_empty (w : U64) (v : Nat) :
    isCurPhase w (Stamp.empty v) = true ↔ Stamp.hi w = v % 2 ^ 32 := by
  rw [isCurPhase, beq_iff_eq, Stamp.and_upper]
  constructor
  · intro h
    have := congrArg Stamp.hi h
    rwa [Stamp.hi_empty, Stamp.hi_empty, Nat.mod_eq_of_lt (Stamp.hi_lt w)] at this
  · intro h
    apply BitVec.eq_of_toNat_eq
    rw [Stamp.toNat_empty, Stamp.toNat_empty, h, Nat.mod_mod]

end OptimisticAccess.AOA
