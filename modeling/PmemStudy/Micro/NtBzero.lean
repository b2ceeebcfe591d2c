import PmemStudy.Lib.While

/-!
# Initialising the mapped region

`nt_bzero` goes over the region in strides of 256 bytes, and its loop stops only when
the unsigned size is exactly zero.
-/

namespace PmemStudy.Micro

open Loop

/-- `_mm512_stream_si512` -/
structure StreamSi512 where
  memAddr : BitVec 64
  a : BitVec 512

def StreamSi512.bytes (st : StreamSi512) : List (BitVec 64) :=
  (List.range 64).map fun i => st.memAddr + BitVec.ofNat 64 i

/-- `aligned_addr` and `size` after one store. -/
def stride (s : BitVec 64 × BitVec 64) : BitVec 64 × BitVec 64 := (s.1 + 256, s.2 - 256)

def ntBzero (addr size : BitVec 64) (fuel : ℕ) : Option (List StreamSi512) :=
  -- the value called zero in the source is set with `memset(&zero, -1, ..)`
  let zero := BitVec.allOnes 512
  (whileLoop (fun s => decide (s.2 > 0)) (fun _ s => some (⟨s.1, zero⟩, stride s)) fuel
    (addr, size)).map Prod.fst

/-- Every byte stored is in `[addr, addr + size)`. -/
def StaysInside (addr size : BitVec 64) (stores : List StreamSi512) : Prop :=
  ∀ st ∈ stores, ∀ b ∈ st.bytes, b - addr < size

variable {addr size : BitVec 64}

theorem stride_iterate (k : ℕ) (s : BitVec 64 × BitVec 64) :
    stride^[k] s = (s.1 + BitVec.ofNat 64 (256 * k), s.2 - BitVec.ofNat 64 (256 * k)) := by
  have h256 : (256 : BitVec 64).toNat = 256 := rfl
  induction k generalizing s with
  | zero => simp
  | succ k ih =>
    rw [Function.iterate_succ_apply, ih]
    refine Prod.ext ?_ ?_
    · apply BitVec.eq_of_toNat_eq
      simp only [stride, BitVec.toNat_add, BitVec.toNat_ofNat, h256]
      omega
    · apply BitVec.eq_of_toNat_eq
      simp only [stride, BitVec.toNat_sub, BitVec.toNat_ofNat, h256]
      omega

/-- A size that is no multiple of the stride steps over zero. -/
theorem dvd_of_yields {stores : List StreamSi512} (h : Yields (ntBzero addr size) stores) :
    256 ∣ size.toNat := by
  obtain ⟨n, hn⟩ := h
  obtain ⟨⟨l, u⟩, hl, rfl⟩ := Option.map_eq_some_iff.mp (hn n le_rfl)
  have hends := ends_of_whileLoop (fun s => steady_const (some (_, stride s))) hl
  obtain ⟨-, hstop, -, -⟩ := hends.iterate
  rw [stride_iterate] at hstop
  have hzero : ¬ (size - BitVec.ofNat 64 (256 * l.length) > 0) := of_decide_eq_false hstop
  have hsize : size.toNat = 256 * l.length % 2 ^ 64 := by
    rw [gt_iff_lt, BitVec.lt_def] at hzero
    have h0 : (0 : BitVec 64).toNat = 0 := rfl
    have := size.isLt
    simp only [BitVec.toNat_sub, BitVec.toNat_ofNat, h0] at hzero
    omega
  omega

theorem yields_of_dvd (h : 256 ∣ size.toNat) :
    ∃ stores, Yields (ntBzero addr size) stores ∧ StaysInside addr size stores := by
  obtain ⟨n, hn⟩ := h
  have hlt := size.isLt
  have hsize : ∀ k ≤ n, (size - BitVec.ofNat 64 (256 * k)).toNat = 256 * (n - k) := by
    intro k hk
    simp only [BitVec.toNat_sub, BitVec.toNat_ofNat]
    omega
  refine ⟨_, (ends_of_iterate n ?_ ?_).yields.map Prod.fst, ?_⟩
  · intro k hk
    have := hsize k (by omega)
    rw [stride_iterate]
    refine decide_eq_true ?_
    show 0 < size - BitVec.ofNat 64 (256 * k)
    rw [BitVec.lt_def, this]
    show 0 < 256 * (n - k)
    omega
  · have := hsize n le_rfl
    rw [stride_iterate]
    refine decide_eq_false ?_
    show ¬ 0 < size - BitVec.ofNat 64 (256 * n)
    rw [BitVec.lt_def, this]
    omega
  · intro st hst b hb
    obtain ⟨k, hk, rfl⟩ := List.mem_map.mp hst
    obtain ⟨i, hi, rfl⟩ := List.mem_map.mp hb
    rw [List.mem_range] at hk hi
    rw [stride_iterate, BitVec.lt_def]
    simp only [BitVec.toNat_sub, BitVec.toNat_add, BitVec.toNat_ofNat]
    omega

/-- The region is initialised, in bounds and to the end, exactly for multiples of 256. -/
theorem ntBzero_iff (addr size : BitVec 64) :
    (∃ stores, Yields (ntBzero addr size) stores ∧ StaysInside addr size stores) ↔
      256 ∣ size.toNat := by
  constructor
  · rintro ⟨stores, h, -⟩
    exact dvd_of_yields h
  · exact yields_of_dvd

/-- A region of 1000 bytes. -/
theorem ntBzero_thousand :
    ¬ ∃ stores, Yields (ntBzero 4096 1000) stores ∧ StaysInside 4096 1000 stores := by
  rintro ⟨stores, h, -⟩
  have : 256 ∣ 1000 := dvd_of_yields h
  omega

end PmemStudy.Micro
