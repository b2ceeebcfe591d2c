import Mathlib.Logic.Function.Basic
import Mathlib.Data.Nat.Basic
import Mathlib.Algebra.Order.Group.Nat
import Mathlib.Tactic.Ring

/-!
# Tables of aligned blocks

A table of depth `d` has `2^d` entries. It is blocked when every value with
level `l` fills exactly one aligned block of `2^(d-l)` consecutive entries,
that is, two entries agree exactly when their indices agree on the top `l`
of `d` bits. The two updates of extendible hashing keep this: doubling the
table, and replacing one block by two halves of the next level.
-/

namespace PmemStudy.AlignedBlocks

variable {α : Type*}

structure Blocked (d : ℕ) (entry : ℕ → α) (level : α → ℕ) : Prop where
  level_le : ∀ i < 2 ^ d, level (entry i) ≤ d
  same_iff : ∀ i < 2 ^ d, ∀ j < 2 ^ d,
    entry i = entry j ↔ i / 2 ^ (d - level (entry i)) = j / 2 ^ (d - level (entry i))

/-! ### Arithmetic of block indices -/

theorem half_block (d l i : ℕ) (hl : l < d) :
    i / 2 ^ (d - l) = i / 2 ^ (d - (l + 1)) / 2 := by
  have h : d - l = d - (l + 1) + 1 := by omega
  rw [h, pow_succ, Nat.div_div_eq_div_mul]

theorem half_lt (d i : ℕ) (h : i < 2 ^ (d + 1)) : i / 2 < 2 ^ d := by
  rw [pow_succ] at h
  omega

/-- A block, counted from its first entry. -/
theorem block_iff (n x i : ℕ) (hn : 0 < n) :
    i / n = x / n ↔ x - x % n ≤ i ∧ i < x - x % n + n := by
  have hx : x - x % n = n * (x / n) := by
    have h := Nat.div_add_mod x n
    omega
  rw [hx, Nat.div_eq_iff hn]
  constructor
  · intro h
    have h1 : x / n * n = n * (x / n) := Nat.mul_comm _ _
    omega
  · intro h
    have h1 : x / n * n = n * (x / n) := Nat.mul_comm _ _
    omega

theorem block_start (n i j : ℕ) (hs : i % n = 0) (h : j / n = i / n) : j - j % n = i := by
  have hi := Nat.div_add_mod i n
  have hj := Nat.div_add_mod j n
  rw [h] at hj
  omega

/-- The block of an index ends inside the table. -/
theorem block_end (d l x : ℕ) (hl : l ≤ d) (hx : x < 2 ^ d) :
    x - x % 2 ^ (d - l) + 2 ^ (d - l) ≤ 2 ^ d := by
  have hd : 2 ^ d = 2 ^ (d - l) * 2 ^ l := by
    rw [← pow_add]
    congr 1
    omega
  rw [hd] at hx ⊢
  generalize 2 ^ (d - l) = n at *
  have hq : x / n < 2 ^ l := Nat.div_lt_of_lt_mul hx
  have hm := Nat.div_add_mod x n
  have hle : n * (x / n) + n ≤ n * 2 ^ l := by
    rw [← Nat.mul_succ]
    exact Nat.mul_le_mul_left n hq
  omega

/-- The upper half of a block of length `2 * h`. -/
theorem upper_half_iff (h x j : ℕ) (hh : 0 < h) (hb : j / (2 * h) = x / (2 * h)) :
    j / h % 2 = 1 ↔ x - x % (2 * h) + h ≤ j := by
  have hx : x - x % (2 * h) = 2 * h * (x / (2 * h)) := by
    have hm := Nat.div_add_mod x (2 * h)
    omega
  have hq : j / h / 2 = x / (2 * h) := by
    rw [Nat.div_div_eq_div_mul, Nat.mul_comm h 2, hb]
  have hle : 2 * (x / (2 * h)) + 1 ≤ j / h ↔ (2 * (x / (2 * h)) + 1) * h ≤ j :=
    Nat.le_div_iff_mul_le hh
  have hm : (2 * (x / (2 * h)) + 1) * h = 2 * h * (x / (2 * h)) + h := by ring
  rw [hx, ← hm, ← hle]
  omega

/-- Both halves of a block have an index. -/
theorem exists_half (d l x r : ℕ) (hl : l < d) (hx : x < 2 ^ d) (hr : r < 2) :
    ∃ i < 2 ^ d, i / 2 ^ (d - l) = x / 2 ^ (d - l) ∧ i / 2 ^ (d - (l + 1)) % 2 = r := by
  have hpos : 0 < 2 ^ (d - (l + 1)) := Nat.two_pow_pos _
  have hdiv : (2 * (x / 2 ^ (d - l)) + r) * 2 ^ (d - (l + 1)) / 2 ^ (d - (l + 1)) =
      2 * (x / 2 ^ (d - l)) + r := Nat.mul_div_cancel _ hpos
  refine ⟨(2 * (x / 2 ^ (d - l)) + r) * 2 ^ (d - (l + 1)), ?_, ?_, ?_⟩
  · have hq : x / 2 ^ (d - l) < 2 ^ l := by
      rw [Nat.div_lt_iff_lt_mul (Nat.two_pow_pos _), ← pow_add]
      have he : l + (d - l) = d := by omega
      rw [he]
      exact hx
    have he : 2 ^ d = 2 ^ (l + 1) * 2 ^ (d - (l + 1)) := by
      rw [← pow_add]
      congr 1
      omega
    rw [he]
    apply Nat.mul_lt_mul_of_pos_right _ hpos
    rw [pow_succ]
    omega
  · rw [half_block d l _ hl, hdiv]
    omega
  · rw [hdiv]
    omega

/-! ### Blocks in a row -/

section Row
variable {d : ℕ} {entry : ℕ → α} {level : α → ℕ}

/-- A block that starts at `i` ends inside the table. -/
theorem Blocked.start_le (h : Blocked d entry level) (i : ℕ) (hi : i < 2 ^ d)
    (hs : i % 2 ^ (d - level (entry i)) = 0) : i + 2 ^ (d - level (entry i)) ≤ 2 ^ d := by
  have hend := block_end d (level (entry i)) i (h.level_le i hi) hi
  rw [hs] at hend
  exact hend

/-- The next index after a block starts a block. -/
theorem Blocked.start_next (h : Blocked d entry level) (i : ℕ) (hi : i < 2 ^ d)
    (hs : i % 2 ^ (d - level (entry i)) = 0) (hn : i + 2 ^ (d - level (entry i)) < 2 ^ d) :
    (i + 2 ^ (d - level (entry i))) %
      2 ^ (d - level (entry (i + 2 ^ (d - level (entry i))))) = 0 := by
  generalize hk : i + 2 ^ (d - level (entry i)) = k at *
  have hpos : 0 < 2 ^ (d - level (entry i)) := Nat.two_pow_pos _
  have hki : 2 ^ (d - level (entry i)) ∣ k := by
    rw [← hk]
    exact Nat.dvd_add (Nat.dvd_of_mod_eq_zero hs) (Nat.dvd_refl _)
  rcases Nat.le_total (d - level (entry k)) (d - level (entry i)) with hle | hle
  · exact Nat.mod_eq_zero_of_dvd ((Nat.pow_dvd_pow 2 hle).trans hki)
  · -- a larger block around `k` would reach back to `i`
    by_contra hne
    have hdvd : 2 ^ (d - level (entry i)) ∣ 2 ^ (d - level (entry k)) := Nat.pow_dvd_pow 2 hle
    have hmod : 2 ^ (d - level (entry i)) ≤ k % 2 ^ (d - level (entry k)) :=
      Nat.le_of_dvd (Nat.pos_of_ne_zero hne) ((Nat.dvd_mod_iff hdvd).mpr hki)
    have hblock : i / 2 ^ (d - level (entry k)) = k / 2 ^ (d - level (entry k)) := by
      rw [block_iff _ _ _ (Nat.two_pow_pos _)]
      omega
    have he : entry k = entry i := (h.same_iff k hn i hi).mpr hblock.symm
    have hlt := Nat.mod_lt k (Nat.two_pow_pos (d - level (entry k)))
    rw [he] at hmod hlt
    omega

end Row

/-! ### Doubling -/

def widen (entry : ℕ → α) : ℕ → α := fun i => entry (i / 2)

theorem Blocked.widen {d : ℕ} {entry : ℕ → α} {level : α → ℕ} (h : Blocked d entry level) :
    Blocked (d + 1) (widen entry) level := by
  constructor
  · intro i hi
    exact (h.level_le (i / 2) (half_lt d i hi)).trans (Nat.le_succ d)
  · intro i hi j hj
    have hle := h.level_le (i / 2) (half_lt d i hi)
    have hd : ∀ k, k / 2 ^ (d + 1 - level (entry (i / 2))) =
        k / 2 / 2 ^ (d - level (entry (i / 2))) := by
      intro k
      have he : d + 1 - level (entry (i / 2)) = d - level (entry (i / 2)) + 1 := by omega
      rw [he, pow_succ', Nat.div_div_eq_div_mul]
    simp only [AlignedBlocks.widen, hd]
    exact h.same_iff (i / 2) (half_lt d i hi) (j / 2) (half_lt d j hj)

/-! ### Replacing a block by its halves -/

/-- The block of level `l` around `x` becomes `s0` on its lower half and `s1`
on its upper half. -/
def splitBlock (d l x : ℕ) (s0 s1 : α) (entry : ℕ → α) : ℕ → α := fun i =>
  if i / 2 ^ (d - l) = x / 2 ^ (d - l) then
    if i / 2 ^ (d - (l + 1)) % 2 = 0 then s0 else s1
  else entry i

theorem splitBlock_outside (d l x : ℕ) (s0 s1 : α) (entry : ℕ → α) (i : ℕ)
    (h : i / 2 ^ (d - l) ≠ x / 2 ^ (d - l)) : splitBlock d l x s0 s1 entry i = entry i := by
  simp only [splitBlock, if_neg h]

theorem splitBlock_lower (d l x : ℕ) (s0 s1 : α) (entry : ℕ → α) (i : ℕ)
    (h : i / 2 ^ (d - l) = x / 2 ^ (d - l)) (hb : i / 2 ^ (d - (l + 1)) % 2 = 0) :
    splitBlock d l x s0 s1 entry i = s0 := by
  simp only [splitBlock, if_pos h, if_pos hb]

theorem splitBlock_upper (d l x : ℕ) (s0 s1 : α) (entry : ℕ → α) (i : ℕ)
    (h : i / 2 ^ (d - l) = x / 2 ^ (d - l)) (hb : i / 2 ^ (d - (l + 1)) % 2 = 1) :
    splitBlock d l x s0 s1 entry i = s1 := by
  have hn : ¬ i / 2 ^ (d - (l + 1)) % 2 = 0 := by omega
  simp only [splitBlock, if_pos h, if_neg hn]

theorem splitBlock_cases (d l x : ℕ) (s0 s1 : α) (entry : ℕ → α) (i : ℕ) :
    (i / 2 ^ (d - l) = x / 2 ^ (d - l) ∧ i / 2 ^ (d - (l + 1)) % 2 = 0 ∧
      splitBlock d l x s0 s1 entry i = s0) ∨
    (i / 2 ^ (d - l) = x / 2 ^ (d - l) ∧ i / 2 ^ (d - (l + 1)) % 2 = 1 ∧
      splitBlock d l x s0 s1 entry i = s1) ∨
    (i / 2 ^ (d - l) ≠ x / 2 ^ (d - l) ∧ splitBlock d l x s0 s1 entry i = entry i) := by
  by_cases h : i / 2 ^ (d - l) = x / 2 ^ (d - l)
  · rcases Nat.mod_two_eq_zero_or_one (i / 2 ^ (d - (l + 1))) with hb | hb
    · exact Or.inl ⟨h, hb, splitBlock_lower d l x s0 s1 entry i h hb⟩
    · exact Or.inr (Or.inl ⟨h, hb, splitBlock_upper d l x s0 s1 entry i h hb⟩)
  · exact Or.inr (Or.inr ⟨h, splitBlock_outside d l x s0 s1 entry i h⟩)

/-- What the replacement needs: the two values are fresh to the other
blocks, have the next level, and no other value changes its level. -/
structure Replaces (d x : ℕ) (entry : ℕ → α) (level level' : α → ℕ) (s0 s1 : α) : Prop where
  index : x < 2 ^ d
  room : level (entry x) < d
  ne : s0 ≠ s1
  level0 : level' s0 = level (entry x) + 1
  level1 : level' s1 = level (entry x) + 1
  fresh0 : ∀ i < 2 ^ d, entry i = s0 → entry i = entry x
  fresh1 : ∀ i < 2 ^ d, entry i = s1 → entry i = entry x
  keep : ∀ i < 2 ^ d, entry i ≠ entry x → level' (entry i) = level (entry i)

theorem Blocked.splitBlock {d x : ℕ} {entry : ℕ → α} {level level' : α → ℕ} {s0 s1 : α}
    (h : Blocked d entry level) (r : Replaces d x entry level level' s0 s1) :
    Blocked d (splitBlock d (level (entry x)) x s0 s1 entry) level' := by
  have hroom := r.room
  -- an index is outside the block exactly when its old entry differs from the split one
  have hout : ∀ i < 2 ^ d, i / 2 ^ (d - level (entry x)) ≠ x / 2 ^ (d - level (entry x)) →
      entry i ≠ entry x := by
    intro i hi hn he
    exact hn ((h.same_iff x r.index i hi).mp he.symm).symm
  constructor
  · intro i hi
    rcases splitBlock_cases d (level (entry x)) x s0 s1 entry i with ⟨_, _, he⟩ | ⟨_, _, he⟩ | ⟨hb, he⟩
    · rw [he, r.level0]
      omega
    · rw [he, r.level1]
      omega
    · rw [he, r.keep i hi (hout i hi hb)]
      exact h.level_le i hi
  · intro i hi j hj
    have hi2 := half_block d (level (entry x)) i hroom
    have hj2 := half_block d (level (entry x)) j hroom
    rcases splitBlock_cases d (level (entry x)) x s0 s1 entry i with
      ⟨hbi, hpi, hei⟩ | ⟨hbi, hpi, hei⟩ | ⟨hbi, hei⟩ <;>
    rcases splitBlock_cases d (level (entry x)) x s0 s1 entry j with
      ⟨hbj, hpj, hej⟩ | ⟨hbj, hpj, hej⟩ | ⟨hbj, hej⟩ <;>
    rw [hei, hej]
    · rw [r.level0]
      simp only [true_iff]
      omega
    · rw [r.level0]
      have hne := r.ne
      simp only [hne, false_iff]
      omega
    · have ho := hout j hj hbj
      rw [r.level0]
      constructor
      · intro hs
        exact absurd (r.fresh0 j hj hs.symm) ho
      · intro hs
        omega
    · rw [r.level1]
      have hne := r.ne.symm
      simp only [hne, false_iff]
      omega
    · rw [r.level1]
      simp only [true_iff]
      omega
    · have ho := hout j hj hbj
      rw [r.level1]
      constructor
      · intro hs
        exact absurd (r.fresh1 j hj hs.symm) ho
      · intro hs
        omega
    · have ho := hout i hi hbi
      rw [r.keep i hi ho]
      constructor
      · intro hs
        exact absurd (r.fresh0 i hi hs) ho
      · intro hs
        have hj' : entry j = entry x := ((h.same_iff x r.index j hj).mpr hbj.symm).symm
        exact absurd (((h.same_iff i hi j hj).mpr hs).trans hj') ho
    · have ho := hout i hi hbi
      rw [r.keep i hi ho]
      constructor
      · intro hs
        exact absurd (r.fresh1 i hi hs) ho
      · intro hs
        have hj' : entry j = entry x := ((h.same_iff x r.index j hj).mpr hbj.symm).symm
        exact absurd (((h.same_iff i hi j hj).mpr hs).trans hj') ho
    · rw [r.keep i hi (hout i hi hbi)]
      exact h.same_iff i hi j hj

/-- Two tables that agree on their entries and on the levels of these are
blocked together. -/
theorem Blocked.congr {d : ℕ} {entry entry' : ℕ → α} {level level' : α → ℕ}
    (h : Blocked d entry level) (he : ∀ i < 2 ^ d, entry' i = entry i)
    (hl : ∀ i < 2 ^ d, level' (entry i) = level (entry i)) : Blocked d entry' level' := by
  constructor
  · intro i hi
    rw [he i hi, hl i hi]
    exact h.level_le i hi
  · intro i hi j hj
    rw [he i hi, he j hj, hl i hi]
    exact h.same_iff i hi j hj

end PmemStudy.AlignedBlocks
