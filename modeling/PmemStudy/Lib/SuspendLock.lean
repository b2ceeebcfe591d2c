import Mathlib.Data.Int.Order.Basic
import PmemStudy.Lib.Threads

/-!
# Locks that can be suspended

A counter holds the number of lock holders while the lock is open. Who suspends it
swaps -1 in and waits until the holders that were counted have left; each of them
takes one more off. The phase says how far a suspension has come.
-/

namespace PmemStudy.SuspendLock

/-- Open, waiting for the `n` holders counted at the swap, or owned. -/
inductive Phase
  | opened
  | draining (n : ℤ)
  | owned

/-- The counter agrees with the number of holders. -/
def Agrees (counter : ℤ) (holders : ℕ) : Phase → Prop
  | .opened => counter = holders
  | .draining n => 0 ≤ n ∧ (holders : ℤ) ≤ n ∧ counter = holders - n - 1
  | .owned => holders = 0 ∧ counter < 0

variable {counter : ℤ} {holders : ℕ} {φ : Phase}

/-- A counter that is not negative belongs to an open lock. -/
theorem Agrees.opened_of_nonneg (h : Agrees counter holders φ) (h0 : 0 ≤ counter) :
    φ = .opened ∧ counter = holders := by
  cases φ with
  | opened => exact ⟨rfl, h⟩
  | draining n =>
    simp only [Agrees] at h
    omega
  | owned =>
    simp only [Agrees] at h
    omega

theorem Agrees.lock (h : Agrees counter holders φ) (h0 : 0 ≤ counter) :
    φ = .opened ∧ Agrees (counter + 1) (holders + 1) .opened := by
  obtain ⟨hφ, hc⟩ := h.opened_of_nonneg h0
  refine ⟨hφ, ?_⟩
  simp only [Agrees]
  omega

/-- A holder may leave in every phase that has holders. -/
theorem Agrees.unlock (h : Agrees counter holders φ) (h0 : 0 < holders) :
    Agrees (counter - 1) (holders - 1) φ := by
  cases φ <;> simp only [Agrees] at h ⊢ <;> omega

theorem Agrees.swap (h : Agrees counter holders φ) (h0 : 0 ≤ counter) :
    φ = .opened ∧ Agrees (-1) holders (.draining counter) := by
  obtain ⟨hφ, hc⟩ := h.opened_of_nonneg h0
  refine ⟨hφ, ?_⟩
  simp only [Agrees]
  omega

/-- The wait ends when the last holder has left. -/
theorem Agrees.drained {n : ℤ} (h : Agrees counter holders (.draining n))
    (hw : n = 0 ∨ counter = 0 - n - 1) : holders = 0 ∧ Agrees counter holders .owned := by
  simp only [Agrees] at h ⊢
  omega

theorem Agrees.release (h : Agrees counter holders .owned) : Agrees 0 holders .opened := by
  simp only [Agrees] at h ⊢
  omega

/-! ### Who suspends -/

/-- What a thread has to do with the suspension of the lock. -/
inductive Stake
  | free
  | waits (n : ℤ)
  | owns

variable {ι : Type*}

/-- At most one thread suspends, and the phase is how far it came. -/
def Engaged (stake : ι → Stake) : Phase → Prop
  | .opened => ∀ i, stake i = .free
  | .draining n => ∃ i, stake i = .waits n ∧ ∀ j, j ≠ i → stake j = .free
  | .owned => ∃ i, stake i = .owns ∧ ∀ j, j ≠ i → stake j = .free

theorem Engaged.of_waits {stake : ι → Stake} (h : Engaged stake φ) {i : ι} {n : ℤ}
    (hi : stake i = .waits n) : φ = .draining n ∧ ∀ j, j ≠ i → stake j = .free := by
  cases φ with
  | opened =>
    rw [h i] at hi
    cases hi
  | draining m =>
    obtain ⟨k, hk, hfree⟩ := h
    by_cases hik : i = k
    · subst k
      rw [hk] at hi
      injection hi with hi
      exact ⟨congrArg _ hi, hfree⟩
    · rw [hfree i hik] at hi
      cases hi
  | owned =>
    obtain ⟨k, hk, hfree⟩ := h
    by_cases hik : i = k
    · subst k
      rw [hk] at hi
      cases hi
    · rw [hfree i hik] at hi
      cases hi

theorem Engaged.of_owns {stake : ι → Stake} (h : Engaged stake φ) {i : ι} (hi : stake i = .owns) :
    φ = .owned ∧ ∀ j, j ≠ i → stake j = .free := by
  cases φ with
  | opened =>
    rw [h i] at hi
    cases hi
  | draining m =>
    obtain ⟨k, hk, hfree⟩ := h
    by_cases hik : i = k
    · subst k
      rw [hk] at hi
      cases hi
    · rw [hfree i hik] at hi
      cases hi
  | owned =>
    obtain ⟨k, hk, hfree⟩ := h
    by_cases hik : i = k
    · subst k
      exact ⟨rfl, hfree⟩
    · rw [hfree i hik] at hi
      cases hi

section Guarded

variable [Fintype ι]

/-- The counter, the holds and the stakes of the threads fit together. -/
def Guarded (counter : ℤ) (held : ι → ℕ) (stake : ι → Stake) : Prop :=
  ∃ φ, Agrees counter (∑ i, held i) φ ∧ Engaged stake φ

variable {held : ι → ℕ} {stake : ι → Stake}

theorem guarded_start : Guarded 0 (fun _ : ι => 0) fun _ => .free :=
  ⟨.opened, by simp [Agrees], fun _ => rfl⟩

/-- Nobody suspends: the counter is the number of holders. -/
theorem Guarded.counter_eq (h : Guarded counter held stake) (hfree : ∀ i, stake i = .free) :
    counter = ∑ i, held i := by
  obtain ⟨φ, ha, he⟩ := h
  cases φ with
  | opened => exact ha
  | draining n =>
    obtain ⟨i, hi, _⟩ := he
    rw [hfree i] at hi
    cases hi
  | owned =>
    obtain ⟨i, hi, _⟩ := he
    rw [hfree i] at hi
    cases hi

/-- While a thread owns the lock nobody holds it, and nobody else suspends it. -/
theorem Guarded.of_owns (h : Guarded counter held stake) {i : ι} (hi : stake i = .owns) :
    (∀ j, held j = 0) ∧ counter < 0 ∧ ∀ j, j ≠ i → stake j = .free := by
  obtain ⟨φ, ha, he⟩ := h
  obtain ⟨rfl, hfree⟩ := he.of_owns hi
  refine ⟨?_, ha.2, hfree⟩
  intro j
  have := Finset.sum_eq_zero_iff.mp ha.1 j (Finset.mem_univ j)
  exact this

theorem Guarded.of_waits (h : Guarded counter held stake) {i : ι} {n : ℤ}
    (hi : stake i = .waits n) : counter < 0 ∧ ∀ j, j ≠ i → stake j = .free := by
  obtain ⟨φ, ha, he⟩ := h
  obtain ⟨rfl, hfree⟩ := he.of_waits hi
  refine ⟨?_, hfree⟩
  simp only [Agrees] at ha
  omega

/-- Who still waits, waits for a holder. -/
theorem Guarded.holder_of_waits (h : Guarded counter held stake) {i : ι} {n : ℤ}
    (hi : stake i = .waits n) (hw : counter ≠ 0 - n - 1) : ∃ j, 0 < held j := by
  obtain ⟨φ, ha, he⟩ := h
  obtain ⟨rfl, _⟩ := he.of_waits hi
  by_contra hnone
  have hzero : ∑ j, held j = 0 := Finset.sum_eq_zero fun j _ => by
    by_contra hj
    exact hnone ⟨j, Nat.pos_of_ne_zero hj⟩
  simp only [Agrees, hzero] at ha
  omega

variable [DecidableEq ι]

theorem sum_update_add (held : ι → ℕ) (i : ι) :
    ∑ j, Function.update held i (held i + 1) j = ∑ j, held j + 1 := by
  have := Threads.sum_update id held i (held i + 1)
  simp only [id] at this
  omega

theorem sum_update_sub (held : ι → ℕ) {i : ι} (h : 0 < held i) :
    ∑ j, Function.update held i (held i - 1) j = ∑ j, held j - 1 := by
  have := Threads.sum_update id held i (held i - 1)
  simp only [id] at this
  omega

theorem Guarded.lock (h : Guarded counter held stake) (h0 : 0 ≤ counter) (i : ι) :
    Guarded (counter + 1) (Function.update held i (held i + 1)) stake := by
  obtain ⟨φ, ha, he⟩ := h
  obtain ⟨rfl, hlock⟩ := ha.lock h0
  exact ⟨.opened, by rwa [sum_update_add], he⟩

theorem Guarded.unlock (h : Guarded counter held stake) {i : ι} (h0 : 0 < held i) :
    Guarded (counter - 1) (Function.update held i (held i - 1)) stake := by
  obtain ⟨φ, ha, he⟩ := h
  have hpos : 0 < ∑ j, held j := h0.trans_le (Threads.le_sum id held i)
  exact ⟨φ, by rw [sum_update_sub held h0]; exact ha.unlock hpos, he⟩

theorem Guarded.swap (h : Guarded counter held stake) (h0 : 0 ≤ counter) (i : ι) :
    (∀ j, stake j = .free) ∧ Guarded (-1) held (Function.update stake i (.waits counter)) := by
  obtain ⟨φ, ha, he⟩ := h
  obtain ⟨rfl, hswap⟩ := ha.swap h0
  refine ⟨he, .draining counter, hswap, i, Function.update_self .., ?_⟩
  intro j hj
  rw [Function.update_of_ne hj]
  exact he j

/-- When the wait is over nobody holds the lock. -/
theorem Guarded.drained (h : Guarded counter held stake) {i : ι} {n : ℤ} (hi : stake i = .waits n)
    (hw : n = 0 ∨ counter = 0 - n - 1) :
    (∀ j, held j = 0) ∧ Guarded counter held (Function.update stake i .owns) := by
  obtain ⟨φ, ha, he⟩ := h
  obtain ⟨rfl, hfree⟩ := he.of_waits hi
  obtain ⟨hzero, howned⟩ := ha.drained hw
  refine ⟨fun j => Finset.sum_eq_zero_iff.mp hzero j (Finset.mem_univ j), .owned, howned, i,
    Function.update_self .., ?_⟩
  intro j hj
  rw [Function.update_of_ne hj]
  exact hfree j hj

theorem Guarded.release (h : Guarded counter held stake) {i : ι} (hi : stake i = .owns) :
    Guarded 0 held (Function.update stake i .free) := by
  obtain ⟨φ, ha, he⟩ := h
  obtain ⟨rfl, hfree⟩ := he.of_owns hi
  refine ⟨.opened, ha.release, ?_⟩
  intro j
  by_cases hj : j = i
  · rw [hj, Function.update_self]
  · rw [Function.update_of_ne hj]
    exact hfree j hj

end Guarded

end PmemStudy.SuspendLock
