import Mathlib.Algebra.BigOperators.Group.List.Basic
import Mathlib.Data.Rat.Defs
import Mathlib.Tactic.FieldSimp
import Mathlib.Tactic.Linarith
import PmemStudy.Lib.Loop
import PmemStudy.Harness.Worker

/-!
# The average latency

`average` cuts its interval in two until less than `stride` elements are left, and
weighs the two averages by the lengths. The `float` arithmetic is exact here, and a
division by zero has no result.
-/

namespace PmemStudy.Harness

open Loop

/-- `std::vector`; its size is at most `PTRDIFF_MAX`. -/
structure Vector where
  elements : List ℚ
  size_lt : elements.length < 2 ^ 63

/-- `at` throws outside of the vector. -/
def Vector.at (array : Vector) (i : ℕ) : Option ℚ := array.elements[i]?

def divide (a b : ℚ) : Option ℚ := if b = 0 then none else some (a / b)

/-- The loop `for (uint64_t i = begin; i < end; i++)`. -/
def accumulate (array : Vector) (end_ : ℕ) : ℕ → ℕ → ℚ → Option ℚ
  | 0, _, _ => none
  | fuel + 1, i, result =>
    if i < end_ then do
      let a ← array.at i
      accumulate array end_ fuel (toUint64 (i + 1)) (result + a)
    else some result

def average (array : Vector) (stride : ℤ) : ℕ → ℕ → ℕ → Option ℚ
  | 0, _, _ => none
  | fuel + 1, begin_, end_ =>
    if subUint64 end_ begin_ < intToUint64 stride then do
      let result ← accumulate array end_ fuel begin_ 0
      divide result (subUint64 end_ begin_)
    else do
      let mid := toUint64 (begin_ + end_) / 2
      let left ← divide (subUint64 mid begin_) (subUint64 end_ begin_)
      let averageLeft ← average array stride fuel begin_ mid
      let right ← divide (subUint64 end_ mid) (subUint64 end_ begin_)
      let averageRight ← average array stride fuel mid end_
      some (left * averageLeft + right * averageRight)

/-- The sum of `array[begin]`, .., `array[end - 1]`. -/
def Vector.sum (array : Vector) (begin_ end_ : ℕ) : ℚ :=
  ((array.elements.drop begin_).take (end_ - begin_)).sum

variable {array : Vector} {stride : ℤ} {begin_ end_ : ℕ}

theorem Vector.sum_self (array : Vector) (begin_ : ℕ) : array.sum begin_ begin_ = 0 := by
  simp only [Vector.sum, Nat.sub_self, List.take_zero, List.sum_nil]

theorem Vector.sum_add {mid : ℕ} (hb : begin_ ≤ mid) (he : mid ≤ end_) :
    array.sum begin_ end_ = array.sum begin_ mid + array.sum mid end_ := by
  have hlen : end_ - begin_ = (mid - begin_) + (end_ - mid) := by omega
  have hmid : begin_ + (mid - begin_) = mid := by omega
  simp only [Vector.sum]
  rw [hlen, List.take_add, List.sum_append, List.drop_drop, hmid]

theorem Vector.sum_succ {i : ℕ} {a : ℚ} (ha : array.at i = some a) :
    array.sum i (i + 1) = a := by
  obtain ⟨hi, ha⟩ := List.getElem?_eq_some_iff.1 ha
  simp only [Vector.sum]
  rw [Nat.add_sub_cancel_left, List.drop_eq_getElem_cons hi, ha]
  simp

theorem subUint64_eq {a b : ℕ} (hb : b ≤ a) (ha : a < 2 ^ 64) : subUint64 a b = a - b := by
  unfold subUint64 toUint64
  omega

theorem divide_eq {a b : ℚ} (hb : b ≠ 0) : divide a b = some (a / b) := if_neg hb

theorem accumulate_yields (he : end_ ≤ array.elements.length) {i : ℕ} (hi : i ≤ end_) (result : ℚ) :
    Yields (fun fuel => accumulate array end_ fuel i result) (result + array.sum i end_) := by
  have hsize := array.size_lt
  induction hn : end_ - i generalizing i result with
  | zero =>
    obtain rfl : i = end_ := by omega
    refine ⟨1, ?_⟩
    intro fuel hf
    obtain ⟨m, rfl⟩ : ∃ m, fuel = m + 1 := ⟨fuel - 1, by omega⟩
    simp [accumulate, Vector.sum_self]
  | succ n ih =>
    have hlt : i < end_ := by omega
    have hnext : toUint64 (i + 1) = i + 1 := by
      unfold toUint64
      omega
    obtain ⟨a, ha⟩ : ∃ a, array.at i = some a :=
      ⟨array.elements[i], List.getElem?_eq_getElem (by omega)⟩
    have hsum : result + array.sum i end_ = result + a + array.sum (i + 1) end_ := by
      rw [Vector.sum_add (Nat.le_succ i) hlt, Vector.sum_succ ha, add_assoc]
    rw [hsum]
    refine (ih (i := i + 1) hlt (result + a) (by omega)).step ?_
    intro fuel
    simp only [accumulate, hlt, if_true, ha, hnext, Option.bind_eq_bind, Option.bind_some]

/-- The weighted averages of the two parts. -/
theorem weigh_halves {n m : ℕ} (hn : 0 < n) (hm : 0 < m) (x y : ℚ) :
    (n : ℚ) / ((n + m : ℕ) : ℚ) * (x / n) + (m : ℚ) / ((n + m : ℕ) : ℚ) * (y / m) =
      (x + y) / ((n + m : ℕ) : ℚ) := by
  have h1 : (n : ℚ) ≠ 0 := by exact_mod_cast hn.ne'
  have h2 : (m : ℚ) ≠ 0 := by exact_mod_cast hm.ne'
  have h3 : ((n + m : ℕ) : ℚ) ≠ 0 := by exact_mod_cast (by omega : n + m ≠ 0)
  field_simp

/-- `average` returns the mean of its interval, whatever the stride is. -/
theorem average_eq_mean (hb : begin_ < end_) (he : end_ ≤ array.elements.length)
    (hs : 2 ≤ stride) (hint : stride < 2 ^ 31) :
    Yields (fun fuel => average array stride fuel begin_ end_)
      (array.sum begin_ end_ / ((end_ - begin_ : ℕ) : ℚ)) := by
  have hsize := array.size_lt
  induction hn : end_ - begin_ using Nat.strong_induction_on generalizing begin_ end_ with
  | _ n ih =>
    have hsub : subUint64 end_ begin_ = n := by
      rw [subUint64_eq (by omega) (by omega), hn]
    have hne : (n : ℚ) ≠ 0 := by exact_mod_cast (by omega : n ≠ 0)
    by_cases hbase : n < intToUint64 stride
    · have hsum := accumulate_yields he hb.le 0
      rw [zero_add] at hsum
      have hmean := hsum.bind (g := fun _ result => divide result n)
        (Yields.const (fun _ => divide_eq hne))
      refine hmean.step ?_
      intro fuel
      simp only [average, hsub, hbase, if_true]
      rfl
    · have hstride : intToUint64 stride = stride.toNat := by
        unfold intToUint64
        omega
      set mid := (begin_ + end_) / 2 with hmid
      have hl : begin_ < mid := by omega
      have hr : mid < end_ := by omega
      have hcut : toUint64 (begin_ + end_) / 2 = mid := by
        unfold toUint64
        omega
      have hleft := ih (mid - begin_) (by omega) hl (by omega) rfl
      have hright := ih (end_ - mid) (by omega) hr he rfl
      have hparts : n = (mid - begin_) + (end_ - mid) := by omega
      -- both halves are not empty, so that each of the means exists
      have hmean := weigh_halves (Nat.sub_pos_of_lt hl) (Nat.sub_pos_of_lt hr)
        (array.sum begin_ mid) (array.sum mid end_)
      rw [← Vector.sum_add hl.le hr.le, ← hparts] at hmean
      rw [← hmean]
      let weigh (x y : ℚ) : Option ℚ :=
        some (((mid - begin_ : ℕ) : ℚ) / n * x + ((end_ - mid : ℕ) : ℚ) / n * y)
      have hboth := hleft.bind (g := fun fuel x => (average array stride fuel mid end_).bind (weigh x))
        (hright.bind (g := fun _ => weigh _) (Yields.const (fun _ => rfl)))
      refine hboth.step ?_
      intro fuel
      simp only [average, hsub, hbase, if_false, hcut, divide_eq hne,
        subUint64_eq hl.le (show mid < 2 ^ 64 by omega), subUint64_eq hr.le (show end_ < 2 ^ 64 by omega)]
      rfl

theorem average_eq_mean_quarters :
    Yields (fun fuel => average ⟨[1, 5, 6, 4], by decide⟩ 2 fuel 0 4) 4 := by
  have h : Yields (fun fuel => average ⟨[1, 5, 6, 4], by decide⟩ 2 fuel 0 4)
      (Vector.sum ⟨[1, 5, 6, 4], by decide⟩ 0 4 / ((4 - 0 : ℕ) : ℚ)) :=
    average_eq_mean (by decide) (by decide) (by decide) (by decide)
  have hmean : Vector.sum ⟨[1, 5, 6, 4], by decide⟩ 0 4 / ((4 - 0 : ℕ) : ℚ) = 4 := by
    simp [Vector.sum]
    norm_num
  rwa [hmean] at h

end PmemStudy.Harness
