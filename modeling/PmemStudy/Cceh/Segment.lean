import Mathlib.Tactic.Ring
import Mathlib.Order.Fin.Basic
import PmemStudy.Lib.FirstFit

/-!
# Segments of CCEH (CCEH-PMDK/src/CCEH.h, CCEH.cpp)

A segment is an array of 1024 slots. A key may sit in the 32 slots that start
at its first hash or in the 32 slots that start at its second hash. `split`
copies the pairs of a segment into two halves by the next bit of the first
hash: copy-on-write in the CMake build, in place with `INPLACE`.
-/

namespace PmemStudy.Cceh
open PmemStudy.FirstFit

abbrev Key := BitVec 64
abbrev Value := BitVec 64

def SENTINEL : Key := -2
def INVALID : Key := -1
def NONE : Value := 0

structure Pair where
  key : Key
  value : Value
  deriving DecidableEq

def kSegmentBits : ℕ := 8
def kMask : BitVec 64 := 255
def kNumPairPerCacheLine : ℕ := 4
def kNumCacheLine : ℕ := 8

/-- `kSegmentSize / sizeof(Pair)`. -/
@[irreducible] def kNumSlot : ℕ := 2 ^ kSegmentBits * 16 * 4 / 16

theorem kNumSlot_eq : kNumSlot = 1024 := by
  unfold kNumSlot
  rfl

theorem kNumSlot_pos : 0 < kNumSlot := by
  rw [kNumSlot_eq]
  omega

abbrev Slot := Fin kNumSlot

/-- The build flag `INPLACE`; the CMake build has it undefined. -/
inductive Build where
  | cow
  | inplace
  deriving DecidableEq

/-- `hash_funcs[0]` with `f_seed` and `hash_funcs[2]` with `s_seed` on the eight
bytes of a key; `h` is the first one, its default seed being `f_seed`. -/
structure HashFuncs where
  f : Key → BitVec 64
  s : Key → BitVec 64

/-! ### Bits of a hash -/

/-- `hash >> (8*sizeof(hash) - depth)`. -/
def topBits (hash : BitVec 64) (depth : ℕ) : ℕ := (hash >>> (64 - depth)).toNat

/-- `hash & pattern` with `pattern = 1 << (sizeof(Key_t)*8 - local_depth - 1)`. -/
def nextBit (hash : BitVec 64) (depth : ℕ) : Bool :=
  decide (hash &&& (1#64 <<< (64 - depth - 1)) ≠ 0)

/-- `(hash & kMask) * kNumPairPerCacheLine`. -/
def windowIdx (hash : BitVec 64) : ℕ := (hash &&& kMask).toNat * kNumPairPerCacheLine

theorem topBits_eq (hash : BitVec 64) (depth : ℕ) :
    topBits hash depth = hash.toNat / 2 ^ (64 - depth) := by
  simp only [topBits, BitVec.toNat_ushiftRight, Nat.shiftRight_eq_div_pow]

theorem topBits_lt (hash : BitVec 64) (depth : ℕ) (h : depth ≤ 64) :
    topBits hash depth < 2 ^ depth := by
  rw [topBits_eq, Nat.div_lt_iff_lt_mul (Nat.two_pow_pos _), ← Nat.pow_add]
  have he : depth + (64 - depth) = 64 := by omega
  rw [he]
  exact hash.isLt

theorem topBits_coarser (hash : BitVec 64) (l d : ℕ) (hl : l ≤ d) (hd : d ≤ 64) :
    topBits hash d / 2 ^ (d - l) = topBits hash l := by
  rw [topBits_eq, topBits_eq, Nat.div_div_eq_div_mul, ← Nat.pow_add]
  have he : 64 - d + (d - l) = 64 - l := by omega
  rw [he]

theorem nextBit_eq (hash : BitVec 64) (l : ℕ) (h : l < 64) :
    nextBit hash l = decide (topBits hash (l + 1) % 2 = 1) := by
  have hb : nextBit hash l = hash.getLsbD (64 - l - 1) := by
    simp only [nextBit]
    rw [Bool.eq_iff_iff, decide_eq_true_iff]
    constructor
    · intro hne
      by_contra hz
      apply hne
      apply BitVec.eq_of_getLsbD_eq
      intro i hi
      rw [BitVec.getLsbD_and, BitVec.getLsbD_shiftLeft]
      by_cases he : i = 64 - l - 1
      · subst i
        simp [Bool.eq_false_iff.mpr hz]
      · have h1 : (1#64).getLsbD (i - (64 - l - 1)) = decide (i - (64 - l - 1) = 0) := by
          simp [BitVec.getLsbD_one]
        rw [h1]
        have h2 : (decide (i < 64) && !decide (i < 64 - l - 1) &&
            decide (i - (64 - l - 1) = 0)) = false := by
          simp only [Bool.and_eq_false_iff, decide_eq_false_iff_not, Bool.not_eq_false',
            decide_eq_true_iff]
          omega
        rw [h2]
        simp
    · intro hz he
      have hc := congrArg (fun v : BitVec 64 => v.getLsbD (64 - l - 1)) he
      simp only [BitVec.getLsbD_and, BitVec.getLsbD_shiftLeft, hz] at hc
      simp at hc
      omega
  rw [hb, ← BitVec.testBit_toNat, Nat.testBit_eq_decide_div_mod_eq, topBits_eq]
  have he : 64 - l - 1 = 64 - (l + 1) := by omega
  rw [he]

/-! ### Windows -/

def slotAt (loc i : ℕ) : Slot := ⟨(loc + i) % kNumSlot, Nat.mod_lt _ kNumSlot_pos⟩

/-- The slots probed from `loc`, in the order of the probing loops. -/
def window (loc : ℕ) : List Slot :=
  (List.range (kNumPairPerCacheLine * kNumCacheLine)).map (slotAt loc)

/-- Both windows of a key, in the order `insert` and `get` scan them. -/
def windows (H : HashFuncs) (key : Key) : List Slot :=
  window (windowIdx (H.f key)) ++ window (windowIdx (H.s key))

structure Segment where
  bucket : Slot → Pair
  sema : ℤ
  localDepth : ℕ

namespace Segment

/-- `initSegment(depth)`: only the keys are cleared, the values stay as the
allocator left them. -/
def initSegment (raw : Segment) (depth : ℕ) : Segment :=
  ⟨fun i => ⟨INVALID, (raw.bucket i).value⟩, 0, depth⟩

def setPair (s : Segment) (slot : Slot) (p : Pair) : Segment :=
  { s with bucket := Function.update s.bucket slot p }

@[simp] theorem setPair_localDepth (s : Segment) (slot : Slot) (p : Pair) :
    (s.setPair slot p).localDepth = s.localDepth := rfl
@[simp] theorem setPair_sema (s : Segment) (slot : Slot) (p : Pair) :
    (s.setPair slot p).sema = s.sema := rfl

theorem setPair_self (s : Segment) (slot : Slot) (p : Pair) :
    (s.setPair slot p).bucket slot = p := Function.update_self ..
theorem setPair_of_ne (s : Segment) (slot c : Slot) (p : Pair) (h : c ≠ slot) :
    (s.setPair slot p).bucket c = s.bucket c := Function.update_of_ne h ..

/-! ### Splitting -/

def insert4split (s : Segment) (key : Key) (value : Value) (loc : ℕ) : Segment × Bool :=
  match (window loc).find? (fun slot => decide ((s.bucket slot).key = INVALID)) with
  | some slot => (s.setPair slot ⟨key, value⟩, true)
  | none => (s, false)

/-- Loop body of the copy-on-write `Split`; the results of `Insert4split` are
not looked at. -/
def copyBoth (H : HashFuncs) (src : Segment) (i : Slot) (halves : Segment × Segment) :
    Segment × Segment :=
  let p := src.bucket i
  let f_hash := H.f p.key
  if nextBit f_hash src.localDepth then
    (halves.1, (halves.2.insert4split p.key p.value (windowIdx f_hash)).1)
  else
    ((halves.1.insert4split p.key p.value (windowIdx f_hash)).1, halves.2)

/-- Loop body of the in-place `Split`: second window after the first, and
nothing when both are full (`CUCKOO` is undefined). -/
def copyUpper (H : HashFuncs) (src : Segment) (i : Slot) (upper : Segment) : Segment :=
  let p := src.bucket i
  let f_hash := H.f p.key
  if nextBit f_hash src.localDepth then
    let first := upper.insert4split p.key p.value (windowIdx f_hash)
    if first.2 then first.1
    else (first.1.insert4split p.key p.value (windowIdx (H.s p.key))).1
  else upper

/-- `Split`: the contents of `split[0]` and `split[1]`; `raw0` and `raw1` are the
blocks the allocator returns. In place, `split[0]` is the segment itself. -/
def split (b : Build) (H : HashFuncs) (src raw0 raw1 : Segment) : Segment × Segment :=
  match b with
  | .cow => Nat.fold kNumSlot (fun i hi halves => copyBoth H src ⟨i, hi⟩ halves)
      (raw0.initSegment (src.localDepth + 1), raw1.initSegment (src.localDepth + 1))
  | .inplace => (src, Nat.fold kNumSlot (fun i hi upper => copyUpper H src ⟨i, hi⟩ upper)
      (raw1.initSegment (src.localDepth + 1)))

end Segment

end PmemStudy.Cceh
