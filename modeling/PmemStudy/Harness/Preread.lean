import PmemStudy.Harness.Worker

/-!
# The preread helpers

A helper runs ahead of its worker: it reads the worker's position and touches the
keys up to `prereadnum` further on. The cursor is unsigned, so that a cursor behind
the worker looks like one far ahead of it.
-/

namespace PmemStudy.Harness

variable {K V : Type}

/-- What an iteration reads of the other threads. -/
structure Observed where
  endFlag : ℤ
  localCopy : SyncBuffer

/-- What an iteration does, and the cursor after it. -/
inductive Iteration (K : Type)
  | returned | threw
  | pause (progerss : ℕ)
  | jump (progerss : ℕ)
  | touch (index : ℕ) (key : K) (progerss : ℕ)

/-- `int keys_num = run_pairs.size()` -/
def Workload.keysNum (W : Workload K V) : ℤ := uint64ToInt W.maxOps

def preread (W : Workload K V) (prereadnum : ℤ) (o : Observed) (progerss : ℕ) : Iteration K :=
  let curr := o.localCopy.currProgress
  if o.endFlag = 1 then .returned
  else if intToUint64 prereadnum < subUint64 progerss curr then
    .pause (toUint64 (curr + intToUint64 prereadnum))
  else if intToUint64 W.keysNum ≤ progerss then .pause progerss
  -- the difference is unsigned here too
  else if subUint64 progerss curr < 0 then .jump (toUint64 (curr + 1))
  else
    match W.runPairs[progerss]? with
    | some pair => .touch progerss pair.1 (toUint64 (progerss + 1))
    | none => .threw

def Iteration.progerss : Iteration K → Option ℕ
  | .returned | .threw => none
  | .pause p | .jump p | .touch _ _ p => some p

def Iteration.touched : Iteration K → Option ℕ
  | .touch index _ _ => some index
  | _ => none

/-- A helper with everything that it reads: `initial` is what the cursor happens to hold
at the start. -/
structure Helper (K V : Type) where
  workload : Workload K V
  prereadnum : ℤ
  observed : ℕ → Observed
  initial : ℕ
  keysNum_lt : workload.maxOps < 2 ^ 31
  prereadnum_nonneg : 0 ≤ prereadnum
  prereadnum_lt : prereadnum < 2 ^ 31
  observed_lt : ∀ n, (observed n).localCopy.currProgress < workload.maxOps
  initial_lt : initial < 2 ^ 64

namespace Helper

variable (H : Helper K V)

/-- The cursor before iteration `n`, as long as the loop goes on. -/
def cursor : ℕ → Option ℕ
  | 0 => some H.initial
  | n + 1 => (cursor n).bind fun p => (preread H.workload H.prereadnum (H.observed n) p).progerss

/-- The index that iteration `n` touches. -/
def touched (n : ℕ) : Option ℕ :=
  (H.cursor n).bind fun p => (preread H.workload H.prereadnum (H.observed n) p).touched

/-- The position of the worker that iteration `n` reads. -/
def position (n : ℕ) : ℕ := (H.observed n).localCopy.currProgress

def window : ℕ := H.prereadnum.toNat

/-- The cursor is behind the worker at iteration `n`. -/
def Behind (n : ℕ) : Prop := ∃ p, H.cursor n = some p ∧ p < H.position n

def InsideWindow : Prop :=
  ∀ n index, H.touched n = some index →
    index < H.workload.maxOps ∧ H.position n ≤ index ∧ index ≤ H.position n + H.window

/-- After it fell behind, the helper goes on at the index after the worker's. -/
def Resumes : Prop :=
  ∀ n m index, H.Behind n → n ≤ m → (∀ j, n ≤ j → j < m → H.touched j = none) →
    H.touched m = some index → index = H.position n + 1

/-- A cursor that was set from position `n` is inside of the window at the next iteration. -/
def Ready (n : ℕ) : Prop :=
  H.position n ≤ H.position (n + 1) ∧ H.position (n + 1) ≤ H.position n + H.window ∧
    H.position n + H.window < H.workload.maxOps

/-- Wherever the helper falls behind, the end of the window that it reads last before
it is ready is the index after the worker's. -/
def Undisturbed : Prop :=
  ∀ n k, H.Behind n → n ≤ k → (∀ j, j ≤ k + 1 → (H.observed j).endFlag ≠ 1) → H.Ready k →
    (∀ j, n ≤ j → j < k → ¬ H.Ready j) → H.position k + H.window = H.position n + 1

variable {H}

theorem position_lt (n : ℕ) : H.position n < H.workload.maxOps := H.observed_lt n

theorem intToUint64_window : intToUint64 H.prereadnum = H.window := by
  have := H.prereadnum_nonneg
  have := H.prereadnum_lt
  unfold intToUint64 window
  omega

theorem window_lt : H.window < 2 ^ 31 := by
  have := H.prereadnum_nonneg
  have := H.prereadnum_lt
  unfold window
  omega

theorem intToUint64_keysNum : intToUint64 H.workload.keysNum = H.workload.maxOps := by
  have h := H.keysNum_lt
  have hbmod : Int.bmod (H.workload.maxOps : ℤ) (2 ^ 32) = H.workload.maxOps :=
    Int.bmod_eq_of_le (by omega) (by omega)
  unfold Workload.keysNum uint64ToInt intToUint64
  rw [hbmod]
  omega

/-- The two's complement difference is small only inside of the window. -/
theorem window_test {p : ℕ} (hp : p < 2 ^ 64) (n : ℕ) :
    H.window < subUint64 p (H.position n) ↔
      ¬ (H.position n ≤ p ∧ p ≤ H.position n + H.window) := by
  have h1 := H.position_lt n
  have h2 := H.keysNum_lt
  have h3 := H.window_lt
  unfold subUint64 toUint64
  omega

section

variable {n p : ℕ} (hend : (H.observed n).endFlag ≠ 1) (hp : p < 2 ^ 64)

include hend hp

theorem preread_outside (hw : ¬ (H.position n ≤ p ∧ p ≤ H.position n + H.window)) :
    preread H.workload H.prereadnum (H.observed n) p = .pause (H.position n + H.window) := by
  have htest := (H.window_test hp n).mpr hw
  have h1 := H.position_lt n
  have h2 := H.keysNum_lt
  have h3 := H.window_lt
  have hsum : toUint64 (H.position n + H.window) = H.position n + H.window := by
    unfold toUint64
    omega
  unfold position at htest hsum
  simp only [preread, hend, if_false, H.intToUint64_window, htest, if_true, hsum]
  rfl

theorem preread_past (hw : H.position n ≤ p ∧ p ≤ H.position n + H.window)
    (hk : H.workload.maxOps ≤ p) :
    preread H.workload H.prereadnum (H.observed n) p = .pause p := by
  have htest : ¬ H.window < subUint64 p (H.position n) := by
    rw [H.window_test hp n]
    exact not_not_intro hw
  unfold position at htest
  simp only [preread, hend, if_false, H.intToUint64_window, htest, H.intToUint64_keysNum, hk,
    if_true]

theorem preread_inside (hw : H.position n ≤ p ∧ p ≤ H.position n + H.window)
    (hk : p < H.workload.maxOps) : ∃ key,
    preread H.workload H.prereadnum (H.observed n) p = .touch p key (p + 1) := by
  have htest : ¬ H.window < subUint64 p (H.position n) := by
    rw [H.window_test hp n]
    exact not_not_intro hw
  have hpairs : H.workload.runPairs[p]? = some H.workload.runPairs[p] :=
    List.getElem?_eq_getElem hk
  have h2 := H.keysNum_lt
  have hnext : toUint64 (p + 1) = p + 1 := by
    unfold toUint64
    omega
  unfold position at htest
  refine ⟨H.workload.runPairs[p].1, ?_⟩
  simp only [preread, hend, if_false, H.intToUint64_window, htest, H.intToUint64_keysNum,
    not_le.mpr hk, Nat.not_lt_zero, hpairs, hnext]

end

theorem preread_returned {n p : ℕ} (hend : (H.observed n).endFlag = 1) :
    preread H.workload H.prereadnum (H.observed n) p = .returned := by
  simp only [preread, hend, if_true]

/-- The third branch is dead. -/
theorem preread_no_jump {n p : ℕ} (q : ℕ) :
    preread H.workload H.prereadnum (H.observed n) p ≠ .jump q := by
  intro h
  simp only [preread, Nat.not_lt_zero, if_false] at h
  split_ifs at h
  split at h <;> cases h

theorem cursor_lt {n p : ℕ} (h : H.cursor n = some p) : p < 2 ^ 64 := by
  induction n generalizing p with
  | zero =>
    obtain rfl := Option.some.inj h
    exact H.initial_lt
  | succ n ih =>
    obtain ⟨q, hq, hstep⟩ := Option.bind_eq_some_iff.mp h
    have hlt := ih hq
    have h1 := H.position_lt n
    have h2 := H.keysNum_lt
    have h3 := H.window_lt
    by_cases hend : (H.observed n).endFlag = 1
    · rw [preread_returned hend] at hstep
      cases hstep
    by_cases hw : H.position n ≤ q ∧ q ≤ H.position n + H.window
    · by_cases hk : H.workload.maxOps ≤ q
      · rw [preread_past hend hlt hw hk] at hstep
        cases hstep
        exact hlt
      · obtain ⟨key, hkey⟩ := preread_inside hend hlt hw (by omega)
        rw [hkey] at hstep
        cases hstep
        omega
    · rw [preread_outside hend hlt hw] at hstep
      cases hstep
      omega

/-- An iteration touches the cursor itself, and only inside of the window. -/
theorem touched_iff {n p index : ℕ} (hc : H.cursor n = some p) (hend : (H.observed n).endFlag ≠ 1) :
    H.touched n = some index ↔ index = p ∧ H.position n ≤ p ∧ p ≤ H.position n + H.window ∧
      p < H.workload.maxOps := by
  have hp := H.cursor_lt hc
  unfold touched
  rw [hc, Option.bind_some]
  by_cases hw : H.position n ≤ p ∧ p ≤ H.position n + H.window
  · by_cases hk : H.workload.maxOps ≤ p
    · rw [preread_past hend hp hw hk]
      simp only [Iteration.touched, false_iff, reduceCtorEq]
      omega
    · obtain ⟨key, hkey⟩ := preread_inside hend hp hw (by omega)
      rw [hkey]
      simp only [Iteration.touched, Option.some.injEq]
      omega
  · rw [preread_outside hend hp hw]
    simp only [Iteration.touched, false_iff, reduceCtorEq]
    tauto

theorem not_ended_of_touched {n index : ℕ} (h : H.touched n = some index) :
    (H.observed n).endFlag ≠ 1 := by
  intro hend
  obtain ⟨p, -, hstep⟩ := Option.bind_eq_some_iff.mp h
  rw [preread_returned hend] at hstep
  cases hstep

theorem not_ended_of_cursor {n p : ℕ} (h : H.cursor n = some p) {j : ℕ} (hj : j < n) :
    (H.observed j).endFlag ≠ 1 := by
  induction n generalizing p with
  | zero => omega
  | succ n ih =>
    obtain ⟨q, hq, hstep⟩ := Option.bind_eq_some_iff.mp h
    rcases Nat.lt_succ_iff_lt_or_eq.mp hj with hlt | rfl
    · exact ih hq hlt
    · intro hend
      rw [preread_returned hend] at hstep
      cases hstep

theorem insideWindow (H : Helper K V) : H.InsideWindow := by
  intro n index h
  obtain ⟨p, hc, -⟩ := Option.bind_eq_some_iff.mp h
  obtain ⟨rfl, h1, h2, h3⟩ := (H.touched_iff hc (not_ended_of_touched h)).mp h
  exact ⟨h3, h1, h2⟩

/-- The cursor was set from position `n`, or it is past the keys. -/
def SetFrom (H : Helper K V) (n p : ℕ) : Prop :=
  p ≤ H.position n + H.window ∧ (p = H.position n + H.window ∨ H.workload.maxOps ≤ p)

/-- An iteration that touches nothing sets the cursor, or leaves it past the keys. -/
theorem setFrom_of_untouched {n p : ℕ} (hc : H.cursor n = some p)
    (hend : (H.observed n).endFlag ≠ 1) (hnone : H.touched n = none) :
    ∃ p', H.cursor (n + 1) = some p' ∧ H.SetFrom n p' := by
  have hp := H.cursor_lt hc
  have hnext : H.cursor (n + 1) =
      (preread H.workload H.prereadnum (H.observed n) p).progerss := by
    rw [cursor, hc, Option.bind_some]
  by_cases hw : H.position n ≤ p ∧ p ≤ H.position n + H.window
  · by_cases hk : H.workload.maxOps ≤ p
    · rw [preread_past hend hp hw hk] at hnext
      exact ⟨p, hnext, hw.2, Or.inr hk⟩
    · have htouch : H.touched n = some p :=
        (H.touched_iff hc hend).mpr ⟨rfl, hw.1, hw.2, by omega⟩
      rw [hnone] at htouch
      cases htouch
  · rw [preread_outside hend hp hw] at hnext
    exact ⟨_, hnext, le_rfl, Or.inl rfl⟩

/-- After an iteration without a touch, the next one touches exactly if it is ready. -/
theorem SetFrom.touched_iff {n p index : ℕ} (hs : H.SetFrom n p) (hc : H.cursor (n + 1) = some p)
    (hend : (H.observed (n + 1)).endFlag ≠ 1) :
    H.touched (n + 1) = some index ↔ index = H.position n + H.window ∧ H.Ready n := by
  rw [Helper.touched_iff hc hend]
  obtain ⟨hle, heq | hpast⟩ := hs
  · subst heq
    unfold Ready
    omega
  · unfold Ready
    omega

theorem Behind.untouched {n : ℕ} (hb : H.Behind n) : H.touched n = none := by
  obtain ⟨p, hc, hlt⟩ := hb
  rw [Option.eq_none_iff_forall_ne_some]
  intro index h
  have := (H.touched_iff hc (not_ended_of_touched h)).mp h
  omega

/-- Until an iteration is ready nothing is touched. -/
theorem Behind.untouched_run {n k : ℕ} (hb : H.Behind n) (hnk : n ≤ k)
    (hend : ∀ j, j ≤ k → (H.observed j).endFlag ≠ 1)
    (hready : ∀ j, n ≤ j → j < k → ¬ H.Ready j) :
    (∀ j, n ≤ j → j ≤ k → H.touched j = none) ∧
      ∃ p, H.cursor (k + 1) = some p ∧ H.SetFrom k p := by
  induction k, hnk using Nat.le_induction with
  | base =>
    obtain ⟨p, hc, -⟩ := id hb
    refine ⟨?_, setFrom_of_untouched hc (hend n le_rfl) hb.untouched⟩
    intro j h1 h2
    obtain rfl : j = n := by omega
    exact hb.untouched
  | succ k hnk ih =>
    obtain ⟨hnone, p, hc, hs⟩ := ih (fun j hj => hend j (by omega))
      (fun j h1 h2 => hready j h1 (by omega))
    have hlast : H.touched (k + 1) = none := by
      rw [Option.eq_none_iff_forall_ne_some]
      intro index h
      exact hready k hnk (by omega) ((hs.touched_iff hc (hend (k + 1) le_rfl)).mp h).2
    refine ⟨?_, setFrom_of_untouched hc (hend (k + 1) le_rfl) hlast⟩
    intro j h1 h2
    rcases Nat.le_succ_iff.mp h2 with h2 | rfl
    · exact hnone j h1 h2
    · exact hlast

theorem Behind.not_ready {n k : ℕ} (hb : H.Behind n)
    (hend : ∀ j, j ≤ k → (H.observed j).endFlag ≠ 1)
    (hnone : ∀ j, n ≤ j → j ≤ k → H.touched j = none) {j : ℕ} (hj : n ≤ j) (hjk : j < k) :
    ¬ H.Ready j := by
  induction j using Nat.strong_induction_on with
  | _ j ih =>
    intro hready
    obtain ⟨-, p, hc, hs⟩ := hb.untouched_run hj (fun i hi => hend i (by omega))
      (fun i h1 h2 => ih i h2 h1 (by omega))
    have htouch := (hs.touched_iff hc (hend (j + 1) (by omega))).mpr ⟨rfl, hready⟩
    rw [hnone (j + 1) (by omega) (by omega)] at htouch
    cases htouch

/-- The helper touches only inside of the window, and goes on after the worker's index
exactly in the undisturbed runs. -/
theorem preread_window_iff (H : Helper K V) : H.InsideWindow ∧ H.Resumes ↔ H.Undisturbed := by
  constructor
  · rintro ⟨-, hresumes⟩ n k hb hnk hend hready hfirst
    obtain ⟨hnone, p, hc, hs⟩ := hb.untouched_run hnk (fun j hj => hend j (by omega)) hfirst
    have htouch := (hs.touched_iff hc (hend (k + 1) le_rfl)).mpr ⟨rfl, hready⟩
    exact hresumes n (k + 1) _ hb (by omega) (fun j h1 h2 => hnone j h1 (by omega)) htouch
  · intro hundisturbed
    refine ⟨H.insideWindow, ?_⟩
    intro n m index hb hnm hnone htouch
    obtain ⟨p, hcm, -⟩ := Option.bind_eq_some_iff.mp htouch
    have hend : ∀ j, j ≤ m → (H.observed j).endFlag ≠ 1 := by
      intro j hj
      rcases Nat.le_iff_lt_or_eq.mp hj with hlt | rfl
      · exact not_ended_of_cursor hcm hlt
      · exact not_ended_of_touched htouch
    have hne : n ≠ m := by
      rintro rfl
      rw [hb.untouched] at htouch
      cases htouch
    obtain ⟨k, rfl⟩ : ∃ k, m = k + 1 := ⟨m - 1, by omega⟩
    have hfirst : ∀ j, n ≤ j → j < k → ¬ H.Ready j := fun j h1 h2 =>
      hb.not_ready (fun i hi => hend i (by omega)) (fun i h3 h4 => hnone i h3 (by omega)) h1 h2
    obtain ⟨-, q, hc, hs⟩ := hb.untouched_run (by omega) (fun j hj => hend j (by omega)) hfirst
    obtain ⟨rfl, hready⟩ := (hs.touched_iff hc (hend (k + 1) le_rfl)).mp htouch
    exact hundisturbed n k hb (by omega) hend hready hfirst

/-- A helper that starts at index 0 while its worker stands at index 5 of 16 keys. -/
def late : Helper ℕ ℕ where
  workload := ⟨List.replicate 16 (0, 0), List.replicate 16 .READ, 100000⟩
  prereadnum := 4
  observed _ := ⟨0, ⟨5, 0, 16⟩⟩
  initial := 0
  keysNum_lt := by decide
  prereadnum_nonneg := by decide
  prereadnum_lt := by decide
  observed_lt _ := by decide
  initial_lt := by decide

/-- It goes on at index 9. -/
theorem late_skips : late.touched 1 = some 9 ∧ ¬ (late.InsideWindow ∧ late.Resumes) := by
  have htouch : late.touched 1 = some 9 := by decide +kernel
  refine ⟨htouch, ?_⟩
  rintro ⟨-, h⟩
  have hnone : ∀ j, 0 ≤ j → j < 1 → late.touched j = none := by
    intro j _ hj
    obtain rfl : j = 0 := by omega
    decide +kernel
  exact absurd (h 0 1 9 ⟨0, rfl, by decide⟩ (by omega) hnone htouch) (by decide)

end Helper

end PmemStudy.Harness
