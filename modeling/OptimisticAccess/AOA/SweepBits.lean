import Mathlib.Data.List.Nodup
import Mathlib.Data.Nat.Log
import Mathlib.Tactic.Ring
import OptimisticAccess.AOA.Heap

/-!
# The mark bits of a sweep, for all sizes

`get_mark_params` finds the mark of an object from its address; `process_sweep_page` walks a word
pointer and a mask along with an object pointer. They agree for all powers of two that fit
together, the constants of `allocator.h` among them.
-/

namespace OptimisticAccess.AOA

/-- `ROUND_UP`. -/
def roundUp (n s : Nat) : Nat := (n + s - 1) / s * s

/-- `HEADER_SIZE` for the given `CHUNK_SIZE` and `NODE_SIZE`. -/
def headerSizeOf (chunkSize nodeSize : Nat) : Nat := roundUp (chunkSize / (nodeSize / 2 * 8)) nodeSize

/-- Sizes that fit together. They are `int`s, and `MEM_PER_BIT` is no zero divisor. -/
structure Sizes where
  chunkSize : Nat
  nodeSize : Nat
  sweepPage : Nat
  chunk_pow : ∃ k < 31, chunkSize = 2 ^ k
  node_pow : ∃ k, nodeSize = 2 ^ k
  sweep_pow : ∃ k, sweepPage = 2 ^ k
  memPerBit_pos : 0 < nodeSize / 2
  sweep_dvd : sweepPage ∣ chunkSize
  words_dvd : 32 * nodeSize ∣ sweepPage
  header_le : headerSizeOf chunkSize nodeSize ≤ sweepPage

namespace Sizes

variable (sz : Sizes)

def memPerBit : Nat := sz.nodeSize / 2

def memPerByte : Nat := sz.memPerBit * 8

def headerSize : Nat := headerSizeOf sz.chunkSize sz.nodeSize

def sweepPagesPerChunk : Nat := sz.chunkSize / sz.sweepPage

/-- `int offset = (long)ptr & OFFSET_MASK; offset /= d`. -/
def offset (ptr d : Nat) : Int := (toInt32 (ptr % sz.chunkSize)).tdiv d

/-- The conversion of an `int` to `unsigned long`. -/
def ulong (x : Int) : Nat := (x % 2 ^ 64).toNat

/-- `(long)ptr & HEADER_MASK`. -/
def base (ptr : Nat) : Nat := ptr / sz.chunkSize * sz.chunkSize

/-- `*out_h_ptr` of `get_mark_params`. -/
def markWord (ptr : Nat) : Nat := sz.base ptr + wordSize * (ulong (sz.offset ptr sz.nodeSize) / 32)

/-- The bit of `*out_mask` of `get_mark_params`. -/
def markBit (ptr : Nat) : Nat := ulong (sz.offset ptr sz.nodeSize) % 32

/-- `is_marked`. -/
def isMarked (marks : Nat → U64) (ptr : Nat) : Prop := marks (sz.markWord ptr) &&& Stamp.bit (sz.markBit ptr) ≠ 0#64

/-- One turn of the inner loop: the mask is tested in the word, and `obj` is passed to `setAsFree` or not. -/
structure Test where
  obj : Nat
  h_ptr : Nat
  bit : Nat
  freed : Bool
  deriving DecidableEq

/-- `DALLOW_SMALL_SP`: the header is skipped object by object if it does not fill a mark word. -/
def allowSmall (obj : Nat) : Bool :=
  decide (sz.headerSize ≥ sz.memPerByte * 8) || decide (obj % sz.chunkSize ≥ sz.headerSize)

/-- The inner loop. -/
def testWord (marks : Nat → U64) (h_ptr obj : Nat) : List Test :=
  (List.range 32).map fun k =>
    { obj := obj + k * sz.nodeSize
      h_ptr := h_ptr
      bit := k
      freed := decide (marks h_ptr &&& Stamp.bit k = 0#64) && sz.allowSmall (obj + k * sz.nodeSize) }

theorem nodeSize_pos : 0 < sz.nodeSize := Nat.pos_of_ne_zero fun h => by
  have hpos := sz.memPerBit_pos
  rw [h] at hpos
  exact absurd hpos (by decide)

/-- The outer loop, up to `limit`. -/
def testWords (marks : Nat → U64) (limit h_ptr obj : Nat) : List Test :=
  if obj < limit then
    sz.testWord marks h_ptr obj ++ testWords marks limit (h_ptr + wordSize) (obj + 32 * sz.nodeSize)
  else []
termination_by limit - obj
decreasing_by
  have hpos := sz.nodeSize_pos
  omega

/-- `none` is a failed assertion. -/
def process_sweep_page (heapmem : List Nat) (entrySize : Nat) (marks : Nat → U64) (page_number : Nat) : Option (List Test) :=
  let page := heapmem.getD (page_number / sz.sweepPagesPerChunk) 0 + page_number % sz.sweepPagesPerChunk * sz.sweepPage
  let base := sz.base page
  let h_ptr := (base + sz.offset page sz.memPerByte).toNat
  if h_ptr % 8 = 0 ∧ entrySize = sz.nodeSize ∧ entrySize &&& (entrySize - 1) = 0 then
    let u64ignores := if page = base then sz.headerSize / (sz.memPerByte * wordSize) else 0
    let obj := if page = base ∧ u64ignores ≠ 0 then page + sz.headerSize else page
    some (sz.testWords marks (page + sz.sweepPage) (h_ptr + wordSize * u64ignores) obj)
  else none

/-- All pages of the heap in turn. -/
def sweepAll (heapmem : List Nat) (entrySize : Nat) (marks : Nat → U64) : Option (List Test) :=
  ((List.range (heapmem.length * sz.sweepPagesPerChunk)).mapM (sz.process_sweep_page heapmem entrySize marks)).map List.flatten

/-! ## The sizes -/

theorem exists_pow : ∃ c b p, c < 31 ∧ 1 ≤ b ∧ b + 5 ≤ p ∧ p ≤ c ∧ sz.chunkSize = 2 ^ c ∧ sz.nodeSize = 2 ^ b ∧
    sz.sweepPage = 2 ^ p := by
  obtain ⟨c, hc, hchunk⟩ := sz.chunk_pow
  obtain ⟨b, hnode⟩ := sz.node_pow
  obtain ⟨p, hsweep⟩ := sz.sweep_pow
  have hb : 1 ≤ b := by
    by_contra hb
    obtain rfl : b = 0 := by omega
    have hpos := sz.memPerBit_pos
    rw [hnode] at hpos
    exact absurd hpos (by decide)
  have hwords := sz.words_dvd
  rw [hnode, hsweep, show 32 * 2 ^ b = 2 ^ (b + 5) by rw [Nat.pow_add]; omega] at hwords
  have hdvd := sz.sweep_dvd
  rw [hchunk, hsweep] at hdvd
  exact ⟨c, b, p, hc, hb, Nat.pow_dvd_pow_iff_le_right'.1 hwords, Nat.pow_dvd_pow_iff_le_right'.1 hdvd, hchunk, hnode, hsweep⟩

theorem memPerByte_eq : sz.memPerByte = 4 * sz.nodeSize := by
  obtain ⟨c, b, p, -, hb, -, -, -, hnode, -⟩ := sz.exists_pow
  obtain ⟨b, rfl⟩ := Nat.exists_eq_add_of_le hb
  rw [memPerByte, memPerBit, hnode, Nat.pow_add]
  omega

theorem roundUp_pow (i b : Nat) : roundUp (2 ^ i) (2 ^ b) = 2 ^ max i b := by
  have hb : 0 < 2 ^ b := Nat.two_pow_pos b
  obtain h | h := Nat.le_total b i
  · obtain ⟨d, rfl⟩ := Nat.exists_eq_add_of_le h
    rw [roundUp, Nat.max_eq_left h, Nat.pow_add, Nat.add_sub_assoc hb, Nat.mul_add_div hb, Nat.div_eq_of_lt (by omega)]
    rw [Nat.add_zero, Nat.mul_comm]
  · have hi : 0 < 2 ^ i := Nat.two_pow_pos i
    have hle : 2 ^ i ≤ 2 ^ b := Nat.pow_le_pow_right (by decide) h
    rw [roundUp, Nat.max_eq_right h, Nat.div_eq_of_lt_le (k := 1) (by omega) (by omega), Nat.one_mul]

theorem words_dvd_chunk : 32 * sz.nodeSize ∣ sz.chunkSize := sz.words_dvd.trans sz.sweep_dvd

/-- The used part of the header has 8 bytes for each 32 objects of the chunk. -/
theorem chunk_div : sz.chunkSize / (sz.nodeSize / 2 * 8) = wordSize * (sz.chunkSize / (32 * sz.nodeSize)) := by
  have hpos := sz.nodeSize_pos
  have hbyte : sz.nodeSize / 2 * 8 = 4 * sz.nodeSize := sz.memPerByte_eq
  obtain ⟨k, hk⟩ := sz.words_dvd_chunk
  rw [hbyte, hk, Nat.mul_div_cancel_left k (by omega), show 32 * sz.nodeSize * k = wordSize * k * (4 * sz.nodeSize) by
    rw [wordSize]; ring, Nat.mul_div_cancel _ (by omega)]

theorem used_le_header : wordSize * (sz.chunkSize / (32 * sz.nodeSize)) ≤ sz.headerSize := by
  have hpos := sz.nodeSize_pos
  rw [← chunk_div, headerSize, headerSizeOf, roundUp]
  generalize sz.chunkSize / (sz.nodeSize / 2 * 8) = u
  have hmod := Nat.div_add_mod (u + sz.nodeSize - 1) sz.nodeSize
  have hlt := Nat.mod_lt (u + sz.nodeSize - 1) hpos
  rw [Nat.mul_comm] at hmod
  omega

/-- A header that fills a mark word fills mark words to the last. -/
theorem words_dvd_header (h : 32 * sz.nodeSize ≤ sz.headerSize) : 32 * sz.nodeSize ∣ sz.headerSize := by
  obtain ⟨c, b, p, -, hb, hp, hc, hchunk, hnode, -⟩ := sz.exists_pow
  have hused : sz.chunkSize / (sz.nodeSize / 2 * 8) = 2 ^ (c - (b + 2)) := by
    rw [show sz.nodeSize / 2 * 8 = 4 * sz.nodeSize from sz.memPerByte_eq, hchunk, hnode,
      show 4 * 2 ^ b = 2 ^ (b + 2) by rw [Nat.pow_add]; omega, Nat.pow_div (by omega) (by decide)]
  have hheader : sz.headerSize = 2 ^ max (c - (b + 2)) b := by
    rw [headerSize, headerSizeOf, hused, hnode, roundUp_pow]
  rw [hheader, hnode, show 32 * 2 ^ b = 2 ^ (b + 5) by rw [Nat.pow_add]; omega] at h ⊢
  exact Nat.pow_dvd_pow 2 ((Nat.pow_le_pow_iff_right (by decide)).1 h)

theorem chunkSize_lt : sz.chunkSize < 2 ^ 31 := by
  obtain ⟨k, hk, h⟩ := sz.chunk_pow
  rw [h]
  exact Nat.pow_lt_pow_right (by decide) hk

theorem chunkSize_pos : 0 < sz.chunkSize := by
  obtain ⟨k, -, h⟩ := sz.chunk_pow
  rw [h]
  exact Nat.two_pow_pos k

/-! ## The mark of an object -/

theorem offset_eq (ptr d : Nat) : sz.offset ptr d = (ptr % sz.chunkSize / d : Nat) := by
  have hlt : ptr % sz.chunkSize < 2 ^ 31 := (Nat.mod_lt ptr sz.chunkSize_pos).trans sz.chunkSize_lt
  have hint : toInt32 (ptr % sz.chunkSize) = (ptr % sz.chunkSize : Nat) := by
    rw [toInt32, BitVec.toInt_eq_toNat_of_lt (by rw [BitVec.toNat_ofNat, Nat.mod_eq_of_lt (by omega)]; omega),
      BitVec.toNat_ofNat, Nat.mod_eq_of_lt (by omega)]
  rw [offset, hint, Int.ofNat_tdiv]

theorem ulong_offset (ptr d : Nat) : ulong (sz.offset ptr d) = ptr % sz.chunkSize / d := by
  have hlt : ptr % sz.chunkSize < 2 ^ 31 := (Nat.mod_lt ptr sz.chunkSize_pos).trans sz.chunkSize_lt
  have hdiv := Nat.div_le_self (ptr % sz.chunkSize) d
  rw [offset_eq, ulong]
  generalize ptr % sz.chunkSize / d = q at hdiv ⊢
  omega

theorem markWord_eq (ptr : Nat) :
    sz.markWord ptr = sz.base ptr + wordSize * (ptr % sz.chunkSize / sz.nodeSize / 32) := by
  rw [markWord, ulong_offset]

theorem markBit_eq (ptr : Nat) : sz.markBit ptr = ptr % sz.chunkSize / sz.nodeSize % 32 := by
  rw [markBit, ulong_offset]

/-- `x` is an object in the payload of a chunk. -/
def Payload (heapmem : List Nat) (x : Nat) : Prop :=
  ∃ c ∈ heapmem, c + sz.headerSize ≤ x ∧ x + sz.nodeSize ≤ c + sz.chunkSize ∧ x % sz.nodeSize = 0

/-- Chunks are aligned and different. -/
structure Chunks (heapmem : List Nat) : Prop where
  aligned : ∀ c ∈ heapmem, c % sz.chunkSize = 0
  nodup : heapmem.Nodup

variable {sz} {heapmem : List Nat} {c x y : Nat}

theorem base_add (hc : c % sz.chunkSize = 0) (hx : x < sz.chunkSize) : sz.base (c + x) = c := by
  obtain ⟨k, rfl⟩ := Nat.dvd_of_mod_eq_zero hc
  rw [base, Nat.mul_add_div sz.chunkSize_pos, Nat.div_eq_of_lt hx, Nat.add_zero, Nat.mul_comm]

theorem mod_add (hc : c % sz.chunkSize = 0) (hx : x < sz.chunkSize) : (c + x) % sz.chunkSize = x := by
  rw [Nat.add_mod, hc, Nat.zero_add, Nat.mod_mod, Nat.mod_eq_of_lt hx]

theorem node_dvd_of_aligned (hc : c % sz.chunkSize = 0) : sz.nodeSize ∣ c :=
  ((Nat.dvd_mul_left _ 32).trans sz.words_dvd_chunk).trans (Nat.dvd_of_mod_eq_zero hc)

/-- An object of the payload by its number in the chunk. -/
theorem Payload.exists_index (hheap : sz.Chunks heapmem) (h : sz.Payload heapmem x) :
    ∃ c ∈ heapmem, ∃ j, x = c + j * sz.nodeSize ∧ sz.headerSize ≤ j * sz.nodeSize ∧ j * sz.nodeSize < sz.chunkSize := by
  obtain ⟨c, hc, hlo, hhi, hx⟩ := h
  have hpos := sz.nodeSize_pos
  have hdvd : sz.nodeSize ∣ x - c := Nat.dvd_sub (Nat.dvd_of_mod_eq_zero hx) (node_dvd_of_aligned (hheap.aligned c hc))
  obtain ⟨j, hj⟩ := hdvd
  rw [Nat.mul_comm] at hj
  exact ⟨c, hc, j, by omega, by omega, by omega⟩

/-- The mark of object `j` of a chunk. -/
theorem mark_index (hc : c % sz.chunkSize = 0) {j : Nat} (hj : j * sz.nodeSize < sz.chunkSize) :
    sz.markWord (c + j * sz.nodeSize) = c + wordSize * (j / 32) ∧ sz.markBit (c + j * sz.nodeSize) = j % 32 := by
  rw [markWord_eq, markBit_eq, base_add hc hj, mod_add hc hj, Nat.mul_div_cancel _ sz.nodeSize_pos]
  exact ⟨rfl, rfl⟩

/-- The mark words lie in the header. -/
theorem word_lt_header {j : Nat} (hj : j * sz.nodeSize < sz.chunkSize) : wordSize * (j / 32) + wordSize ≤ sz.headerSize := by
  refine le_trans ?_ sz.used_le_header
  rw [← Nat.mul_succ]
  refine Nat.mul_le_mul_left wordSize ?_
  have hpos := sz.nodeSize_pos
  obtain ⟨k, hk⟩ := sz.words_dvd_chunk
  rw [hk, Nat.mul_div_cancel_left k (by omega)]
  rw [hk, Nat.mul_right_comm] at hj
  have hlt : j < 32 * k := Nat.lt_of_mul_lt_mul_right hj
  omega

/-! ## A page -/

variable {marks : Nat → U64}

/-- The test of an object with the word and the bit that `get_mark_params` finds for it. -/
def testAt (sz : Sizes) (marks : Nat → U64) (x : Nat) : Test where
  obj := x
  h_ptr := sz.markWord x
  bit := sz.markBit x
  freed := decide (marks (sz.markWord x) &&& Stamp.bit (sz.markBit x) = 0#64) && decide (x % sz.chunkSize ≥ sz.headerSize)

/-- Objects `a .. b - 1` of a chunk. -/
def objects (sz : Sizes) (c a b : Nat) : List Nat := (List.range' a (b - a)).map fun j => c + j * sz.nodeSize

theorem mem_objects {a b : Nat} : x ∈ sz.objects c a b ↔ ∃ j, a ≤ j ∧ j < b ∧ x = c + j * sz.nodeSize := by
  simp only [objects, List.mem_map, List.mem_range'_1, eq_comm (a := x)]
  constructor
  · rintro ⟨j, ⟨h1, h2⟩, h⟩
    exact ⟨j, h1, by omega, h⟩
  · rintro ⟨j, h1, h2, h⟩
    exact ⟨j, ⟨h1, by omega⟩, h⟩

theorem objects_nodup (a b : Nat) : (sz.objects c a b).Nodup :=
  (List.nodup_range' 1 (by decide)).map fun j j' h => Nat.eq_of_mul_eq_mul_right sz.nodeSize_pos (Nat.add_left_cancel h)

/-- The 32 objects of word `q`. -/
theorem testWord_eq (hc : c % sz.chunkSize = 0) {q : Nat} (hq : (32 * q + 31) * sz.nodeSize < sz.chunkSize)
    (hheader : sz.memPerByte * 8 ≤ sz.headerSize → sz.headerSize ≤ 32 * q * sz.nodeSize) :
    sz.testWord marks (c + wordSize * q) (c + 32 * q * sz.nodeSize) =
      (sz.objects c (32 * q) (32 * q + 32)).map (sz.testAt marks) := by
  rw [testWord, objects, List.map_map, Nat.add_sub_cancel_left, List.range'_eq_map_range, List.map_map]
  refine List.map_congr_left fun k hk => ?_
  rw [List.mem_range] at hk
  have hle : (32 * q + k) * sz.nodeSize ≤ (32 * q + 31) * sz.nodeSize := Nat.mul_le_mul_right _ (by omega)
  have hlt : (32 * q + k) * sz.nodeSize < sz.chunkSize := hle.trans_lt hq
  have hobj : c + 32 * q * sz.nodeSize + k * sz.nodeSize = c + (32 * q + k) * sz.nodeSize := by
    rw [Nat.add_mul, Nat.add_assoc]
  obtain ⟨hword, hbit⟩ := mark_index hc hlt
  rw [show (32 * q + k) / 32 = q by omega] at hword
  rw [show (32 * q + k) % 32 = k by omega] at hbit
  have hallow : sz.allowSmall (c + (32 * q + k) * sz.nodeSize) = decide (sz.headerSize ≤ (32 * q + k) * sz.nodeSize) := by
    rw [allowSmall, mod_add hc hlt]
    by_cases hbig : sz.memPerByte * 8 ≤ sz.headerSize
    · have hge : sz.headerSize ≤ (32 * q + k) * sz.nodeSize :=
        (hheader hbig).trans (Nat.mul_le_mul_right _ (Nat.le_add_right _ _))
      rw [decide_eq_true hbig, decide_eq_true hge, Bool.true_or]
    · rw [decide_eq_false hbig, Bool.false_or]
  simp only [Function.comp_apply, testAt, hword, hbit, hobj, hallow, mod_add hc hlt]

theorem objects_append {a b d : Nat} (h : a ≤ b) (h' : b ≤ d) : sz.objects c a b ++ sz.objects c b d = sz.objects c a d := by
  rw [objects, objects, objects, ← List.map_append]
  congr 1
  have happ := List.range'_append_1 (s := a) (m := b - a) (n := d - b)
  rw [show a + (b - a) = b by omega, show b - a + (d - b) = d - a by omega] at happ
  exact happ

/-- Words `a .. b - 1` of a chunk. -/
theorem testWords_eq (hc : c % sz.chunkSize = 0) {a b : Nat} (hab : a ≤ b) (hb : 32 * b * sz.nodeSize ≤ sz.chunkSize)
    (hheader : sz.memPerByte * 8 ≤ sz.headerSize → sz.headerSize ≤ 32 * a * sz.nodeSize) :
    sz.testWords marks (c + 32 * b * sz.nodeSize) (c + wordSize * a) (c + 32 * a * sz.nodeSize) =
      (sz.objects c (32 * a) (32 * b)).map (sz.testAt marks) := by
  have hpos := sz.nodeSize_pos
  obtain ⟨d, rfl⟩ := Nat.exists_eq_add_of_le hab
  clear hab
  induction d generalizing a with
  | zero =>
    rw [Nat.add_zero, testWords, if_neg (Nat.lt_irrefl _), objects, Nat.sub_self]
    rfl
  | succ d ih =>
    have hstep : 32 * a * sz.nodeSize + 32 * sz.nodeSize = 32 * (a + 1) * sz.nodeSize := by ring
    have hle : 32 * (a + 1) * sz.nodeSize ≤ 32 * (a + (d + 1)) * sz.nodeSize := Nat.mul_le_mul_right _ (by omega)
    have hlast : (32 * a + 31) * sz.nodeSize + sz.nodeSize = 32 * (a + 1) * sz.nodeSize := by ring
    have hnext := ih (a := a + 1) (fun h => (hheader h).trans (by omega)) (by rwa [show a + 1 + d = a + (d + 1) by omega])
    rw [show a + 1 + d = a + (d + 1) by omega, ← hstep, ← Nat.add_assoc c, Nat.mul_succ wordSize, ← Nat.add_assoc c] at hnext
    rw [testWords, if_pos (by omega), testWord_eq hc (by omega) hheader, hnext, ← List.map_append, Nat.mul_succ 32 a,
      objects_append (by omega) (by omega)]

/-- The mark words of a page. -/
def wordsPerPage (sz : Sizes) : Nat := sz.sweepPage / (32 * sz.nodeSize)

/-- The first word that is swept of page `r` of a chunk. -/
def firstWord (sz : Sizes) (r : Nat) : Nat :=
  if r = 0 ∧ 32 * sz.nodeSize ≤ sz.headerSize then sz.headerSize / (32 * sz.nodeSize) else r * sz.wordsPerPage

theorem sweepPage_eq (sz : Sizes) : sz.sweepPage = 32 * sz.wordsPerPage * sz.nodeSize := by
  rw [Nat.mul_right_comm, wordsPerPage, Nat.mul_div_cancel' sz.words_dvd]

theorem pages_mul (sz : Sizes) : sz.sweepPagesPerChunk * sz.sweepPage = sz.chunkSize := Nat.div_mul_cancel sz.sweep_dvd

theorem page_eq (sz : Sizes) (r : Nat) : r * sz.sweepPage = 32 * (r * sz.wordsPerPage) * sz.nodeSize := by
  rw [sz.sweepPage_eq]
  ring

theorem sweepPage_pos (sz : Sizes) : 0 < sz.sweepPage := by
  obtain ⟨k, h⟩ := sz.sweep_pow
  rw [h]
  exact Nat.two_pow_pos k

theorem page_lt {r : Nat} (hr : r < sz.sweepPagesPerChunk) : (r + 1) * sz.sweepPage ≤ sz.chunkSize :=
  sz.pages_mul ▸ Nat.mul_le_mul_right _ hr

theorem firstWord_le (r : Nat) : sz.firstWord r ≤ (r + 1) * sz.wordsPerPage := by
  rw [firstWord]
  split
  · next h =>
    rw [h.1, Nat.zero_add, Nat.one_mul]
    exact Nat.div_le_div_right sz.header_le
  · exact Nat.mul_le_mul_right _ (Nat.le_succ r)

/-- A header that is skipped word by word ends before the first word. -/
theorem header_le_firstWord {r : Nat} (h : 32 * sz.nodeSize ≤ sz.headerSize) : sz.headerSize ≤ 32 * sz.firstWord r * sz.nodeSize := by
  rw [firstWord]
  split
  · rw [Nat.mul_right_comm, Nat.mul_div_cancel' (sz.words_dvd_header h)]
  · next hr =>
    rw [← page_eq]
    exact sz.header_le.trans (Nat.le_mul_of_pos_left _ (by by_contra h0; exact hr ⟨by omega, h⟩))

/-- The pages of the `q`-th chunk, with the assertions. -/
theorem process_sweep_page_eq {q r : Nat} (hq : heapmem[q]? = some c) (hc : c % sz.chunkSize = 0)
    (hr : r < sz.sweepPagesPerChunk) :
    sz.process_sweep_page heapmem sz.nodeSize marks (q * sz.sweepPagesPerChunk + r) =
      some ((sz.objects c (32 * sz.firstWord r) (32 * ((r + 1) * sz.wordsPerPage))).map (sz.testAt marks)) := by
  have hpos := sz.nodeSize_pos
  have hsweep := sz.sweepPage_pos
  have hlast := page_lt hr
  have hpage : r * sz.sweepPage < sz.chunkSize := by rw [Nat.add_mul] at hlast; omega
  have hdiv : (q * sz.sweepPagesPerChunk + r) / sz.sweepPagesPerChunk = q := by
    rw [Nat.mul_comm, Nat.mul_add_div (by omega), Nat.div_eq_of_lt hr, Nat.add_zero]
  have hmod : (q * sz.sweepPagesPerChunk + r) % sz.sweepPagesPerChunk = r := by
    rw [Nat.mul_comm, Nat.mul_add_mod, Nat.mod_eq_of_lt hr]
  have hget : heapmem.getD q 0 = c := by rw [List.getD_eq_getElem?_getD, hq, Option.getD_some]
  have hoffset : r * sz.sweepPage / sz.memPerByte = wordSize * (r * sz.wordsPerPage) := by
    rw [sz.page_eq, memPerByte_eq, show 32 * (r * sz.wordsPerPage) * sz.nodeSize =
      wordSize * (r * sz.wordsPerPage) * (4 * sz.nodeSize) by rw [wordSize]; ring, Nat.mul_div_cancel _ (by omega)]
  have hptr : ((c : Int) + sz.offset (c + r * sz.sweepPage) sz.memPerByte).toNat = c + wordSize * (r * sz.wordsPerPage) := by
    rw [offset_eq, mod_add hc hpage, hoffset, ← Int.natCast_add, Int.toNat_natCast]
  have haligned : (c + wordSize * (r * sz.wordsPerPage)) % 8 = 0 := by
    obtain ⟨m, hm⟩ := sz.words_dvd_chunk.trans (Nat.dvd_of_mod_eq_zero hc)
    rw [hm, wordSize, show 32 * sz.nodeSize * m + 8 * (r * sz.wordsPerPage) = 8 * (4 * sz.nodeSize * m + r * sz.wordsPerPage) by
      ring, Nat.mul_mod_right]
  have hpow : sz.nodeSize &&& (sz.nodeSize - 1) = 0 := by
    obtain ⟨k, hk⟩ := sz.node_pow
    rw [hk, Nat.and_two_pow_sub_one_eq_mod, Nat.mod_self]
  rw [process_sweep_page]
  simp only [hdiv, hmod, hget, base_add hc hpage, hptr]
  have hbytes : sz.memPerByte * wordSize = 32 * sz.nodeSize := by rw [memPerByte_eq, wordSize]; omega
  have hbytes' : sz.memPerByte * 8 = 32 * sz.nodeSize := hbytes
  rw [if_pos ⟨haligned, trivial, hpow⟩, hbytes, ← testWords_eq hc (firstWord_le r) (by rwa [← page_eq])
    fun h => header_le_firstWord (hbytes' ▸ h), ← page_eq, Nat.add_mul, Nat.one_mul, ← Nat.add_assoc c]
  -- the three ways into a page
  by_cases hr0 : r = 0
  · subst hr0
    rw [Nat.zero_mul, Nat.zero_mul, Nat.mul_zero, Nat.add_zero, if_pos rfl]
    by_cases hbig : 32 * sz.nodeSize ≤ sz.headerSize
    · have hne : sz.headerSize / (32 * sz.nodeSize) ≠ 0 := (Nat.div_pos hbig (by omega)).ne'
      have hheader : 32 * (sz.headerSize / (32 * sz.nodeSize)) * sz.nodeSize = sz.headerSize := by
        rw [Nat.mul_right_comm, Nat.mul_div_cancel' (sz.words_dvd_header hbig)]
      rw [if_pos ⟨rfl, hne⟩, firstWord, if_pos ⟨rfl, hbig⟩, hheader]
    · have hzero : sz.headerSize / (32 * sz.nodeSize) = 0 := Nat.div_eq_of_lt (by omega)
      rw [hzero, if_neg (fun h => h.2 rfl), firstWord, if_neg (fun h => hbig h.2)]
      simp only [Nat.zero_mul, Nat.mul_zero, Nat.add_zero]
  · have hne : c + r * sz.sweepPage ≠ c := by
      have := Nat.mul_pos (Nat.pos_of_ne_zero hr0) hsweep
      omega
    rw [if_neg hne, if_neg (fun h => hne h.1), firstWord, if_neg (fun h => hr0 h.1), Nat.mul_zero, Nat.add_zero, ← page_eq]

/-! ## The whole heap -/

/-- What is tested of page `page_number`. -/
def pageObjects (sz : Sizes) (heapmem : List Nat) (page_number : Nat) : List Nat :=
  sz.objects (heapmem.getD (page_number / sz.sweepPagesPerChunk) 0) (32 * sz.firstWord (page_number % sz.sweepPagesPerChunk))
    (32 * ((page_number % sz.sweepPagesPerChunk + 1) * sz.wordsPerPage))

theorem mapM_some {α β : Type} {f : α → Option β} {g : α → β} {l : List α} (h : ∀ a ∈ l, f a = some (g a)) :
    l.mapM f = some (l.map g) := by
  induction l with
  | nil => rfl
  | cons a l ih =>
    rw [List.mapM_cons, h a List.mem_cons_self, ih fun b hb => h b (List.mem_cons_of_mem a hb)]
    rfl

theorem sweepPagesPerChunk_pos (sz : Sizes) : 0 < sz.sweepPagesPerChunk := by
  have hmul := sz.pages_mul
  have hpos := sz.chunkSize_pos
  by_contra h
  rw [Nat.eq_zero_of_not_pos h, Nat.zero_mul] at hmul
  omega

/-- The page in its chunk. -/
theorem exists_chunk {page_number : Nat} (h : page_number < heapmem.length * sz.sweepPagesPerChunk) :
    ∃ q r c, page_number = q * sz.sweepPagesPerChunk + r ∧ r < sz.sweepPagesPerChunk ∧ heapmem[q]? = some c := by
  have hq : page_number / sz.sweepPagesPerChunk < heapmem.length := Nat.div_lt_of_lt_mul (by rwa [Nat.mul_comm])
  refine ⟨_, _, heapmem[page_number / sz.sweepPagesPerChunk], ?_, Nat.mod_lt page_number sz.sweepPagesPerChunk_pos,
    List.getElem?_eq_getElem hq⟩
  rw [Nat.mul_comm, Nat.div_add_mod]

theorem pageObjects_eq {q r : Nat} (hq : heapmem[q]? = some c) (hr : r < sz.sweepPagesPerChunk) :
    sz.pageObjects heapmem (q * sz.sweepPagesPerChunk + r) =
      sz.objects c (32 * sz.firstWord r) (32 * ((r + 1) * sz.wordsPerPage)) := by
  have hdiv : (q * sz.sweepPagesPerChunk + r) / sz.sweepPagesPerChunk = q := by
    rw [Nat.mul_comm, Nat.mul_add_div (by omega), Nat.div_eq_of_lt hr, Nat.add_zero]
  have hmod : (q * sz.sweepPagesPerChunk + r) % sz.sweepPagesPerChunk = r := by
    rw [Nat.mul_comm, Nat.mul_add_mod, Nat.mod_eq_of_lt hr]
  rw [pageObjects, hdiv, hmod, List.getD_eq_getElem?_getD, hq, Option.getD_some]

/-- All that is tested. -/
def sweepObjects (sz : Sizes) (heapmem : List Nat) : List Nat :=
  (List.range (heapmem.length * sz.sweepPagesPerChunk)).flatMap (sz.pageObjects heapmem)

theorem sweepAll_eq (hheap : sz.Chunks heapmem) (marks : Nat → U64) :
    sz.sweepAll heapmem sz.nodeSize marks = some ((sz.sweepObjects heapmem).map (sz.testAt marks)) := by
  have hpage : ∀ page_number ∈ List.range (heapmem.length * sz.sweepPagesPerChunk),
      sz.process_sweep_page heapmem sz.nodeSize marks page_number =
        some ((sz.pageObjects heapmem page_number).map (sz.testAt marks)) := by
    intro page_number hp
    obtain ⟨q, r, c, rfl, hr, hq⟩ := exists_chunk (List.mem_range.1 hp)
    rw [process_sweep_page_eq hq (hheap.aligned c (List.mem_of_getElem? hq)) hr, pageObjects_eq hq hr]
  rw [sweepAll, mapM_some hpage, Option.map_some, sweepObjects, List.map_flatMap, List.flatMap_def]

/-- The objects of page `r` lie in it. -/
theorem mem_page {r : Nat} (hx : x ∈ sz.objects c (32 * sz.firstWord r) (32 * ((r + 1) * sz.wordsPerPage))) :
    ∃ j, x = c + j * sz.nodeSize ∧ r * sz.sweepPage ≤ j * sz.nodeSize ∧ j * sz.nodeSize < (r + 1) * sz.sweepPage := by
  obtain ⟨j, hlo, hhi, rfl⟩ := mem_objects.1 hx
  refine ⟨j, rfl, ?_, ?_⟩
  · rw [page_eq]
    refine Nat.mul_le_mul_right _ (le_trans (Nat.mul_le_mul_left 32 ?_) hlo)
    rw [firstWord]
    split
    · next h =>
      rw [h.1, Nat.zero_mul]
      exact Nat.zero_le _
    · exact Nat.le_refl _
  · rw [page_eq]
    exact Nat.mul_lt_mul_of_pos_right hhi sz.nodeSize_pos

theorem sweepObjects_nodup (hheap : sz.Chunks heapmem) : (sz.sweepObjects heapmem).Nodup := by
  refine List.nodup_flatMap.2 ⟨fun p hp => ?_, List.nodup_range.imp_of_mem fun {p p'} hp hp' hne x hx hx' => hne ?_⟩
  · exact objects_nodup _ _
  · obtain ⟨q, r, c, rfl, hr, hq⟩ := exists_chunk (List.mem_range.1 hp)
    obtain ⟨q', r', c', rfl, hr', hq'⟩ := exists_chunk (List.mem_range.1 hp')
    rw [pageObjects_eq hq hr] at hx
    rw [pageObjects_eq hq' hr'] at hx'
    obtain ⟨j, rfl, hlo, hhi⟩ := mem_page hx
    obtain ⟨j', he, hlo', hhi'⟩ := mem_page hx'
    have hc := hheap.aligned c (List.mem_of_getElem? hq)
    have hc' := hheap.aligned c' (List.mem_of_getElem? hq')
    have hj := hhi.trans_le (page_lt hr)
    have hj' := hhi'.trans_le (page_lt hr')
    -- the chunk is that of the address, the page that of the offset
    obtain rfl : c = c' := by rw [← base_add hc hj, he, base_add hc' hj']
    have hjj : j * sz.nodeSize = j' * sz.nodeSize := Nat.add_left_cancel he
    rw [hjj] at hlo hhi
    have h1 : r < r' + 1 := Nat.lt_of_mul_lt_mul_right (hlo.trans_lt hhi')
    have h2 : r' < r + 1 := Nat.lt_of_mul_lt_mul_right (hlo'.trans_lt hhi)
    obtain rfl : r = r' := by omega
    obtain rfl : q = q' := (List.getElem?_inj (List.getElem?_eq_some_iff.1 hq).1 hheap.nodup).1 (hq.trans hq'.symm)
    rfl

theorem mem_sweepObjects {q j : Nat} (hq : heapmem[q]? = some c) (hlo : sz.headerSize ≤ j * sz.nodeSize)
    (hhi : j * sz.nodeSize < sz.chunkSize) : c + j * sz.nodeSize ∈ sz.sweepObjects heapmem := by
  have hpos := sz.nodeSize_pos
  have hsweep := sz.sweepPage_pos
  have hr : j * sz.nodeSize / sz.sweepPage < sz.sweepPagesPerChunk :=
    Nat.div_lt_of_lt_mul (by rw [Nat.mul_comm sz.sweepPage, sz.pages_mul]; exact hhi)
  have hlt : q < heapmem.length := (List.getElem?_eq_some_iff.1 hq).1
  have hfloor : j * sz.nodeSize / sz.sweepPage * sz.sweepPage ≤ j * sz.nodeSize := Nat.div_mul_le_self _ _
  have hceil : j * sz.nodeSize < (j * sz.nodeSize / sz.sweepPage + 1) * sz.sweepPage := by
    rw [Nat.mul_comm _ sz.sweepPage]
    exact Nat.lt_mul_div_succ _ hsweep
  generalize j * sz.nodeSize / sz.sweepPage = r at hr hfloor hceil
  refine List.mem_flatMap.2 ⟨q * sz.sweepPagesPerChunk + r, List.mem_range.2 ?_, ?_⟩
  · have hmul : (q + 1) * sz.sweepPagesPerChunk ≤ heapmem.length * sz.sweepPagesPerChunk := Nat.mul_le_mul_right _ hlt
    rw [Nat.add_mul] at hmul
    omega
  rw [pageObjects_eq hq hr]
  refine mem_objects.2 ⟨j, ?_, ?_, rfl⟩
  · rw [firstWord]
    split
    · next h =>
      have hheader : 32 * (sz.headerSize / (32 * sz.nodeSize)) * sz.nodeSize = sz.headerSize := by
        rw [Nat.mul_right_comm, Nat.mul_div_cancel' (sz.words_dvd_header h.2)]
      exact Nat.le_of_mul_le_mul_right (hheader.le.trans hlo) hpos
    · rw [page_eq] at hfloor
      exact Nat.le_of_mul_le_mul_right hfloor hpos
  · rw [page_eq] at hceil
    exact Nat.lt_of_mul_lt_mul_right hceil

theorem Payload.mem_sweepObjects (hheap : sz.Chunks heapmem) (h : sz.Payload heapmem x) : x ∈ sz.sweepObjects heapmem := by
  obtain ⟨c, hc, j, rfl, hlo, hhi⟩ := h.exists_index hheap
  obtain ⟨q, hq⟩ := List.getElem?_of_mem hc
  exact Sizes.mem_sweepObjects hq hlo hhi

/-- Outside the headers only the payload is tested. -/
theorem payload_of_mem (hheap : sz.Chunks heapmem) (h : x ∈ sz.sweepObjects heapmem)
    (hheader : sz.headerSize ≤ x % sz.chunkSize) : sz.Payload heapmem x := by
  obtain ⟨p, hp, hx⟩ := List.mem_flatMap.1 h
  obtain ⟨q, r, c, rfl, hr, hq⟩ := exists_chunk (List.mem_range.1 hp)
  rw [pageObjects_eq hq hr] at hx
  obtain ⟨j, rfl, -, hhi⟩ := mem_page hx
  have hc := hheap.aligned c (List.mem_of_getElem? hq)
  have hj := hhi.trans_le (page_lt hr)
  rw [mod_add hc hj] at hheader
  refine ⟨c, List.mem_of_getElem? hq, by omega, ?_, ?_⟩
  · obtain ⟨m, hm⟩ := (Nat.dvd_mul_left sz.nodeSize 32).trans sz.words_dvd_chunk
    rw [Nat.mul_comm] at hm
    rw [hm] at hj ⊢
    have hle : (j + 1) * sz.nodeSize ≤ m * sz.nodeSize := Nat.mul_le_mul_right _ (Nat.lt_of_mul_lt_mul_right hj)
    rw [Nat.add_mul] at hle
    omega
  · rw [Nat.add_mul_mod_self_right, Nat.mod_eq_zero_of_dvd (node_dvd_of_aligned hc)]

/-- What a sweep of the whole heap does. -/
structure SweepExact (sz : Sizes) (heapmem : List Nat) (marks : Nat → U64) (tests : List Test) : Prop where
  once : ∀ x, sz.Payload heapmem x → (tests.filter fun t => t.obj = x).length = 1
  same_bit : ∀ t ∈ tests, t.h_ptr = sz.markWord t.obj ∧ t.bit = sz.markBit t.obj
  freed_iff : ∀ x, (∃ t ∈ tests, t.obj = x ∧ t.freed) ↔ sz.Payload heapmem x ∧ ¬ sz.isMarked marks x

/-- Different objects have different bits, in the header of their chunk. -/
structure MarksExact (sz : Sizes) (heapmem : List Nat) : Prop where
  inside : ∀ x, sz.Payload heapmem x →
    sz.base x ∈ heapmem ∧ sz.base x ≤ sz.markWord x ∧ sz.markWord x + wordSize ≤ sz.base x + sz.headerSize
  distinct : ∀ x y, sz.Payload heapmem x → sz.Payload heapmem y → sz.markWord x = sz.markWord y →
    sz.markBit x = sz.markBit y → x = y

/-- Sweep and mark use the same bit for the same object, sweep visits every object once and frees nothing of a header. -/
theorem sweepAll_exact (sz : Sizes) (heapmem : List Nat) (hheap : sz.Chunks heapmem) (marks : Nat → U64) :
    (∃ tests, sz.sweepAll heapmem sz.nodeSize marks = some tests ∧ sz.SweepExact heapmem marks tests) ∧
      sz.MarksExact heapmem := by
  refine ⟨⟨_, sweepAll_eq hheap marks, ?_⟩, ⟨fun x hx => ?_, fun x y hx hy hword hbit => ?_⟩⟩
  · refine ⟨fun x hx => ?_, fun t ht => ?_, fun x => ⟨?_, ?_⟩⟩
    · rw [← List.countP_eq_length_filter, List.countP_map]
      exact List.count_eq_one_of_mem (sweepObjects_nodup hheap) (hx.mem_sweepObjects hheap)
    · obtain ⟨x, -, rfl⟩ := List.mem_map.1 ht
      exact ⟨rfl, rfl⟩
    · rintro ⟨t, ht, rfl, hfreed⟩
      obtain ⟨x, hx, rfl⟩ := List.mem_map.1 ht
      obtain ⟨hclear, hheader⟩ := (Bool.and_eq_true _ _).mp hfreed
      exact ⟨payload_of_mem hheap hx (of_decide_eq_true hheader), fun h => h (of_decide_eq_true hclear)⟩
    · rintro ⟨hx, hclear⟩
      refine ⟨_, List.mem_map.2 ⟨x, hx.mem_sweepObjects hheap, rfl⟩, rfl, ?_⟩
      obtain ⟨c, hc, j, rfl, hlo, hj⟩ := hx.exists_index hheap
      rw [testAt, mod_add (hheap.aligned c hc) hj, decide_eq_true (not_not.1 hclear), decide_eq_true hlo, Bool.true_and]
  · obtain ⟨c, hc, j, rfl, -, hj⟩ := hx.exists_index hheap
    have hca := hheap.aligned c hc
    rw [(mark_index hca hj).1, base_add hca hj]
    have hlt := word_lt_header hj
    exact ⟨hc, by omega, by omega⟩
  · obtain ⟨c, hc, j, rfl, -, hj⟩ := hx.exists_index hheap
    obtain ⟨c', hc', j', rfl, -, hj'⟩ := hy.exists_index hheap
    have hca := hheap.aligned c hc
    have hca' := hheap.aligned c' hc'
    rw [(mark_index hca hj).1, (mark_index hca' hj').1] at hword
    rw [(mark_index hca hj).2, (mark_index hca' hj').2] at hbit
    have hin : ∀ {j : Nat}, j * sz.nodeSize < sz.chunkSize → wordSize * (j / 32) < sz.chunkSize := by
      intro j hj
      have hlt := word_lt_header hj
      have hle := sz.header_le.trans (Nat.le_of_dvd sz.chunkSize_pos sz.sweep_dvd)
      change sz.headerSize ≤ _ at hle
      rw [wordSize] at hlt ⊢
      omega
    obtain rfl : c = c' := by rw [← base_add hca (hin hj), hword, base_add hca' (hin hj')]
    rw [wordSize] at hword
    obtain rfl : j = j' := by omega
    rfl

end Sizes

/-- The constants of `allocator.h`. -/
def repository : Sizes where
  chunkSize := chunkSize
  nodeSize := nodeSize
  sweepPage := sweepPage
  chunk_pow := ⟨19, by decide, rfl⟩
  node_pow := ⟨5, rfl⟩
  sweep_pow := ⟨16, rfl⟩
  memPerBit_pos := by decide
  sweep_dvd := by decide
  words_dvd := by decide
  header_le := by decide

/-- Chunks of one page with a header of one object. -/
def smallPages : Sizes where
  chunkSize := 1024
  nodeSize := 32
  sweepPage := 1024
  chunk_pow := ⟨10, by decide, rfl⟩
  node_pow := ⟨5, rfl⟩
  sweep_pow := ⟨10, rfl⟩
  memPerBit_pos := by decide
  sweep_dvd := by decide
  words_dvd := by decide
  header_le := by decide

/-- For the constants of `allocator.h`, the mark of an object is that of the collector's model. -/
theorem repository_mark (ptr : Nat) : repository.markWord ptr = markWord ptr ∧ repository.markBit ptr = markBit ptr :=
  ⟨repository.markWord_eq ptr, repository.markBit_eq ptr⟩

theorem repository_chunks : repository.Chunks [chunkSize, 2 * chunkSize] where
  aligned := List.forall_mem_cons.2 ⟨Nat.mod_self _, List.forall_mem_singleton.2 (Nat.mul_mod_left _ _)⟩
  nodup := by decide

namespace Sizes

theorem sweepAll_exact_two :
    (∃ tests, repository.sweepAll [AOA.chunkSize, 2 * AOA.chunkSize] repository.nodeSize (fun _ => 5) = some tests ∧
        repository.SweepExact [AOA.chunkSize, 2 * AOA.chunkSize] (fun _ => 5) tests) ∧
      ∃ tests, smallPages.sweepAll [1024] smallPages.nodeSize (fun _ => 5) = some tests ∧
        smallPages.SweepExact [1024] (fun _ => 5) tests :=
  ⟨(sweepAll_exact repository _ repository_chunks fun _ => 5).1,
    (sweepAll_exact smallPages [1024] ⟨by decide, by decide⟩ fun _ => 5).1⟩

end Sizes

end OptimisticAccess.AOA
