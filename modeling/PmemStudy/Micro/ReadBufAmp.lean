import Mathlib.Algebra.Order.Group.Nat
import Mathlib.Data.List.Pairwise
import Mathlib.Data.Nat.Find
import PmemStudy.Lib.While

/-!
# The read amplification sweep

`exec_rd_job` measures one working set size after another, from the aligned start to
the aligned end. The next size is the last one plus or times the stride, in 64 bits.
-/

namespace PmemStudy.Micro

open Loop

inductive IncrementStyle
  | EXP | LINEAR
deriving DecidableEq

structure Action where
  upper : BitVec 64
  bottom : BitVec 64
  incre : IncrementStyle
  step : BitVec 64

/-- An entry of `jobs` in the configuration. -/
structure Job where
  startWss : BitVec 64
  endWss : BitVec 64
  stride : BitVec 64
  incType : String

def alignUp (i : BitVec 64) : BitVec 64 := (i + 255) &&& ~~~255
def alignDown (i : BitVec 64) : BitVec 64 := i &&& ~~~255

def Job.incre (j : Job) : IncrementStyle :=
  if j.incType = "exp" then .EXP
  else if j.incType = "linear" then .LINEAR
  -- what `jobs.resize` left there
  else .EXP

def Job.action (j : Job) : Action where
  upper := alignUp j.endWss
  bottom := alignDown j.startWss
  incre := j.incre
  step := j.stride

/-- What is printed for one working set size, and the lines that were flushed for it. -/
structure Result where
  type : ℕ
  wss : BitVec 64
  flushed : List (BitVec 64)

/-- The loop `for (uint64_t j = 0; j < i; j += 256)`. -/
def clflushLoop (addr i offset : BitVec 64) (fuel : ℕ) : Option (List (BitVec 64)) :=
  (whileLoop (fun j => decide (j < i)) (fun _ j => some (addr + j + offset, j + 256)) fuel 0).map
    Prod.fst

/-- The lines of one iteration, up to `goto end`. -/
def clflushOffsets (cl : ℕ) : List (BitVec 64) :=
  if cl = 1 then [0] else if cl = 2 then [0, 64] else if cl = 3 then [0, 64, 128]
  else [0, 64, 128, 192]

/-- The body of the sweep. It divides by the size, and exits on any other `cl`. -/
def measureSize (addr : BitVec 64) (cl : ℕ) (i : BitVec 64) (fuel : ℕ) : Option Result :=
  if i = 0 then none
  else if 1 ≤ cl ∧ cl ≤ 4 then
    let iteration := (1 <<< 30 : BitVec 64) / i
    (whileLoop (fun k => decide (k < iteration.toNat))
      (fun fuel k => (forEach (clflushLoop addr i) (clflushOffsets cl) fuel).map fun l => (l, k + 1))
      fuel 0).map fun r => ⟨cl, i, r.1.flatten.flatten⟩
  else none

def Action.next (task : Action) (i : BitVec 64) : BitVec 64 :=
  match task.incre with
  | .EXP => i * task.step
  | .LINEAR => i + task.step

def execRdJob (addr : BitVec 64) (cl : ℕ) (task : Action) (fuel : ℕ) : Option (List Result) :=
  (whileLoop (fun i => decide (i ≤ task.upper))
    (fun fuel i => (measureSize addr cl i fuel).map fun r => (r, task.next i))
    fuel task.bottom).map Prod.fst

/-- The results of every job, for one line of each block up to all four of them. -/
def readBufAmpTst (addr : BitVec 64) (config : List Job) :
    ℕ → Option (List (List (List Result))) :=
  forEach (fun k => forEach (execRdJob addr k) (config.map Job.action)) [1, 2, 3, 4]

variable {addr i : BitVec 64} {cl : ℕ} {task : Action}

/-! ### One size -/

theorem steady_clflushLoop (offset : BitVec 64) : Steady (clflushLoop addr i offset) := by
  refine (steady_whileLoop ?_ 0).map Prod.fst
  intro j
  exact steady_const _

theorem clflushLoop_yields (hi : i.toNat ≤ 2 ^ 30) (offset : BitVec 64) :
    ∃ l, Yields (clflushLoop addr i offset) l := by
  have h256 : (256 : BitVec 64).toNat = 256 := rfl
  have hends : ∃ l u, Ends (fun j => decide (j < i))
      (fun _ j => some (addr + j + offset, j + 256)) 0 l u := by
    refine exists_ends (fun _ => True) (fun j => i.toNat - j.toNat) ?_ trivial
    intro j _ hj
    have hlt : j.toNat < i.toNat := of_decide_eq_true hj
    refine ⟨addr + j + offset, j + 256, .const fun _ => rfl, trivial, ?_⟩
    simp only [BitVec.toNat_add, h256]
    omega
  obtain ⟨l, u, hl⟩ := hends
  exact ⟨l, hl.yields.map Prod.fst⟩

theorem steady_measureSize : Steady (measureSize addr cl i) := by
  unfold measureSize
  by_cases hi : i = 0
  · simp only [hi, if_true]
    exact steady_const none
  · simp only [hi, if_false]
    split
    · refine (steady_whileLoop ?_ 0).map _
      intro k
      exact (steady_forEach steady_clflushLoop _).map _
    · exact steady_const none

theorem measureSize_yields (hi : i ≠ 0) (h1 : 1 ≤ cl) (h4 : cl ≤ 4) :
    ∃ r, Yields (measureSize addr cl i) r ∧ r.wss = i := by
  have hpos : 0 < i.toNat := by
    rw [Nat.pos_iff_ne_zero]
    exact fun h => hi (BitVec.eq_of_toNat_eq h)
  have hends : ∃ l u, Ends (fun k => decide (k < ((1 <<< 30 : BitVec 64) / i).toNat))
      (fun fuel k => (forEach (clflushLoop addr i) (clflushOffsets cl) fuel).map fun l =>
        (l, k + 1)) 0 l u := by
    refine exists_ends (fun _ => True) (fun k => ((1 <<< 30 : BitVec 64) / i).toNat - k) ?_ trivial
    intro k _ hk
    have hlt := of_decide_eq_true hk
    -- a size above the budget is not flushed at all
    have hle : i.toNat ≤ 2 ^ 30 := by
      rw [BitVec.toNat_udiv] at hlt
      have h30 : (1 <<< 30 : BitVec 64).toNat = 2 ^ 30 := rfl
      rw [h30] at hlt
      by_contra hgt
      rw [Nat.div_eq_of_lt (by omega)] at hlt
      exact Nat.not_lt_zero _ hlt
    obtain ⟨ls, hls, -⟩ := forEach_yields (Q := fun _ _ => True) (l := clflushOffsets cl)
      fun offset _ => (clflushLoop_yields hle offset).imp fun _ h => ⟨h, trivial⟩
    refine ⟨ls, k + 1, hls.map _, trivial, ?_⟩
    show _ - (k + 1) < _ - k
    omega
  obtain ⟨l, u, hl⟩ := hends
  refine ⟨⟨cl, i, l.flatten.flatten⟩, ?_, rfl⟩
  unfold measureSize
  simp only [hi, if_false, h1, h4, and_self, if_true]
  exact hl.yields.map _

theorem measureSize_wss {r : Result} (h : Yields (measureSize addr cl i) r) :
    i ≠ 0 ∧ r.wss = i := by
  obtain ⟨n, hn⟩ := h
  replace hn := hn n le_rfl
  unfold measureSize at hn
  by_cases hi : i = 0
  · rw [if_pos hi] at hn
    cases hn
  · rw [if_neg hi] at hn
    split at hn
    · obtain ⟨a, -, rfl⟩ := Option.map_eq_some_iff.mp hn
      exact ⟨hi, rfl⟩
    · cases hn

/-! ### One job -/

/-- The sizes go up at every step until one is above the end. -/
def Action.Rises (task : Action) : Prop :=
  ∃ k, task.upper < task.next^[k] task.bottom ∧
    ∀ i < k, task.next^[i] task.bottom < task.next^[i + 1] task.bottom

theorem steady_sizeBody (i : BitVec 64) :
    Steady fun fuel => (measureSize addr cl i fuel).map fun r => (r, task.next i) :=
  steady_measureSize.map _

theorem steady_execRdJob (task : Action) : Steady (execRdJob addr cl task) :=
  (steady_whileLoop steady_sizeBody _).map Prod.fst

/-- The sizes of a finished sweep. -/
theorem wss_of_ends {l : List Result} {u : BitVec 64}
    (h : Ends (fun i => decide (i ≤ task.upper))
      (fun fuel i => (measureSize addr cl i fuel).map fun r => (r, task.next i)) i l u) :
    l.map Result.wss = (List.range l.length).map (fun k => task.next^[k] i) ∧
      task.upper < task.next^[l.length] i ∧
      ∀ k < l.length, task.next^[k] i ≤ task.upper ∧ task.next^[k] i ≠ 0 := by
  induction h with
  | stop h =>
    refine ⟨rfl, BitVec.not_le.mp (of_decide_eq_false h), ?_⟩
    intro k hk
    exact absurd hk (Nat.not_lt_zero k)
  | @step i t u r l h hb _ ih =>
    obtain ⟨x, hx, he⟩ := steady_measureSize.yields_map_iff.mp hb
    obtain ⟨rfl, rfl⟩ := Prod.mk.inj he
    obtain ⟨hi, hw⟩ := measureSize_wss hx
    obtain ⟨hl, hup, hle⟩ := ih
    refine ⟨?_, hup, ?_⟩
    · rw [List.map_cons, hl, hw, List.length_cons, List.range_succ_eq_map, List.map_cons,
        List.map_map]
      rfl
    · intro k hk
      cases k with
      | zero => exact ⟨of_decide_eq_true h, hi⟩
      | succ k => exact hle k (Nat.succ_lt_succ_iff.mp hk)

/-- As long as the sizes are inside of the job they are measured. -/
theorem ends_of_le (h1 : 1 ≤ cl) (h4 : cl ≤ 4) (n : ℕ)
    (hup : task.upper < task.next^[n] i)
    (hle : ∀ k < n, task.next^[k] i ≤ task.upper ∧ task.next^[k] i ≠ 0) :
    ∃ l u, Ends (fun i => decide (i ≤ task.upper))
      (fun fuel i => (measureSize addr cl i fuel).map fun r => (r, task.next i)) i l u := by
  induction n generalizing i with
  | zero => exact ⟨[], i, .stop (decide_eq_false (BitVec.not_le.mpr hup))⟩
  | succ n ih =>
    obtain ⟨hi, h0⟩ := hle 0 (Nat.succ_pos n)
    obtain ⟨r, hr, -⟩ := measureSize_yields h0 h1 h4
    obtain ⟨l, u, hl⟩ := ih hup fun k hk => hle (k + 1) (Nat.succ_lt_succ hk)
    exact ⟨r :: l, u, .step (decide_eq_true hi) (hr.map _) hl⟩

theorem execRdJob_iff (h1 : 1 ≤ cl) (h4 : cl ≤ 4) :
    (∃ rs, Yields (execRdJob addr cl task) rs ∧ (rs.map Result.wss).Pairwise (· < ·)) ↔
      task.bottom ≠ 0 ∧ task.Rises := by
  constructor
  · rintro ⟨rs, hrs, hpair⟩
    obtain ⟨⟨l, u⟩, hl, rfl⟩ := ((steady_whileLoop steady_sizeBody _).yields_map_iff).mp hrs
    have hends := (yields_whileLoop_iff steady_sizeBody).mp hl
    obtain ⟨hw, hup, hle⟩ := wss_of_ends hends
    constructor
    · intro h0
      cases hn : l.length with
      | zero =>
        rw [hn] at hup
        have hlt : task.upper < task.bottom := hup
        rw [h0] at hlt
        exact absurd hlt (Nat.not_lt_zero _)
      | succ n => exact (hle 0 (by omega)).2 h0
    · refine ⟨l.length, hup, ?_⟩
      intro k hk
      rcases Nat.lt_or_ge (k + 1) l.length with hk' | hk'
      · rw [hw, List.pairwise_map] at hpair
        have := List.pairwise_iff_getElem.mp hpair k (k + 1) (by simpa using hk)
          (by simpa using hk') (Nat.lt_succ_self k)
        simpa using this
      · have hlast : k + 1 = l.length := by omega
        rw [hlast]
        exact Nat.lt_of_le_of_lt (hle k hk).1 hup
  · rintro ⟨h0, hrises⟩
    -- the first size above the end
    obtain ⟨n, hup, hinc, hfirst⟩ : ∃ n, task.upper < task.next^[n] task.bottom ∧
        (∀ i < n, task.next^[i] task.bottom < task.next^[i + 1] task.bottom) ∧
        ∀ i < n, task.next^[i] task.bottom ≤ task.upper := by
      classical
      obtain ⟨k, hk, hinc⟩ := hrises
      have hex : ∃ k, task.upper < task.next^[k] task.bottom := ⟨k, hk⟩
      refine ⟨Nat.find hex, Nat.find_spec hex, ?_, ?_⟩
      · intro i hi
        exact hinc i (lt_of_lt_of_le hi (Nat.find_min' hex hk))
      · intro i hi
        exact BitVec.not_lt.mp (Nat.find_min hex hi)
    have hmono : ∀ j ≤ n, ∀ i < j, task.next^[i] task.bottom < task.next^[j] task.bottom := by
      intro j
      induction j with
      | zero => intro _ i hi; omega
      | succ j ih =>
        intro hj i hi
        rcases Nat.lt_succ_iff_lt_or_eq.mp hi with hi | rfl
        · exact BitVec.lt_trans (ih (by omega) i hi) (hinc j (by omega))
        · exact hinc i (by omega)
    have hpos : ∀ k < n, task.next^[k] task.bottom ≠ 0 := by
      intro k hk hz
      cases k with
      | zero => exact h0 hz
      | succ k =>
        have := hinc k (by omega)
        rw [hz] at this
        exact absurd this (Nat.not_lt_zero _)
    obtain ⟨l, u, hl⟩ := ends_of_le h1 h4 n hup
      fun k hk => ⟨hfirst k hk, hpos k hk⟩
    refine ⟨l, hl.yields.map Prod.fst, ?_⟩
    obtain ⟨hw, hup', hle⟩ := wss_of_ends hl
    have hlen : l.length ≤ n := by
      by_contra hlt
      exact absurd (hle n (by omega)).1 (BitVec.not_le.mpr hup)
    rw [hw, List.pairwise_map]
    refine List.pairwise_iff_getElem.mpr ?_
    intro i j hi hj hij
    rw [List.length_range] at hi hj
    simp only [List.getElem_range]
    exact hmono j (by omega) i hij

/-! ### The sizes of a job -/

theorem next_exp (h : task.incre = .EXP) (i : BitVec 64) : task.next i = i * task.step := by
  simp only [Action.next, h]

theorem next_linear (h : task.incre = .LINEAR) (i : BitVec 64) :
    task.next i = i + task.step := by
  simp only [Action.next, h]

theorem next_iterate_exp (h : task.incre = .EXP) (k : ℕ) (i : BitVec 64) :
    (task.next^[k] i).toNat = i.toNat * task.step.toNat ^ k % 2 ^ 64 := by
  induction k with
  | zero =>
    rw [Nat.pow_zero, Nat.mul_one, Nat.mod_eq_of_lt i.isLt]
    rfl
  | succ k ih =>
    rw [Function.iterate_succ_apply', next_exp h, BitVec.toNat_mul, ih, Nat.mod_mul_mod,
      Nat.mul_assoc, ← Nat.pow_succ]

theorem next_iterate_linear (h : task.incre = .LINEAR) (k : ℕ) (i : BitVec 64) :
    (task.next^[k] i).toNat = (i.toNat + k * task.step.toNat) % 2 ^ 64 := by
  induction k with
  | zero =>
    rw [Nat.zero_mul, Nat.add_zero, Nat.mod_eq_of_lt i.isLt]
    rfl
  | succ k ih =>
    rw [Function.iterate_succ_apply', next_linear h, BitVec.toNat_add, ih, Nat.mod_add_mod,
      Nat.succ_mul, Nat.add_assoc]

theorem rises_exp_iff (h : task.incre = .EXP) :
    task.Rises ↔ ∃ k, task.upper.toNat < task.bottom.toNat * task.step.toNat ^ k % 2 ^ 64 ∧
      ∀ i < k, task.bottom.toNat * task.step.toNat ^ i % 2 ^ 64 <
        task.bottom.toNat * task.step.toNat ^ (i + 1) % 2 ^ 64 := by
  simp only [Action.Rises, BitVec.lt_def, next_iterate_exp h]

/-- With a linear step the sizes go up as long as they do not wrap. -/
theorem rises_linear_iff (h : task.incre = .LINEAR) :
    task.Rises ↔ ∃ k, task.upper.toNat < task.bottom.toNat + k * task.step.toNat ∧
      task.bottom.toNat + k * task.step.toNat < 2 ^ 64 := by
  simp only [Action.Rises, BitVec.lt_def, next_iterate_linear h]
  have hb := task.bottom.isLt
  have hs := task.step.isLt
  constructor
  · rintro ⟨k, hup, hinc⟩
    have hnowrap : ∀ i ≤ k, task.bottom.toNat + i * task.step.toNat < 2 ^ 64 := by
      intro i
      induction i with
      | zero => intro _; omega
      | succ i ih =>
        intro hi
        have hlt := hinc i hi
        have hprev := ih (by omega)
        rw [Nat.succ_mul] at hlt ⊢
        omega
    refine ⟨k, ?_, hnowrap k le_rfl⟩
    rwa [Nat.mod_eq_of_lt (hnowrap k le_rfl)] at hup
  · rintro ⟨k, hup, hlt⟩
    rcases Nat.eq_zero_or_pos task.step.toNat with h0 | hpos
    · refine ⟨0, ?_, fun i hi => absurd hi (Nat.not_lt_zero i)⟩
      rw [h0] at hup ⊢
      omega
    · have hnowrap : ∀ i ≤ k, task.bottom.toNat + i * task.step.toNat < 2 ^ 64 := by
        intro i hi
        have := Nat.mul_le_mul_right task.step.toNat hi
        omega
      refine ⟨k, ?_, ?_⟩
      · rwa [Nat.mod_eq_of_lt hlt]
      · intro i hi
        rw [Nat.mod_eq_of_lt (hnowrap i (by omega)), Nat.mod_eq_of_lt (hnowrap (i + 1) hi),
          Nat.succ_mul]
        omega

/-! ### All jobs -/

/-- The sweep over a configuration ends, and the sizes of every job go up. -/
def Sweeps (addr : BitVec 64) (config : List Job) : Prop :=
  ∃ results, Yields (readBufAmpTst addr config) results ∧
    ∀ perLine ∈ results, ∀ tested ∈ perLine, (tested.map Result.wss).Pairwise (· < ·)

/-- Going up from the aligned start, the sizes pass the aligned end. -/
def Job.Passes (j : Job) : Prop :=
  let bottom := (alignDown j.startWss).toNat
  let upper := (alignUp j.endWss).toNat
  match j.incre with
  | .EXP => ∃ k, upper < bottom * j.stride.toNat ^ k % 2 ^ 64 ∧
      ∀ i < k, bottom * j.stride.toNat ^ i % 2 ^ 64 < bottom * j.stride.toNat ^ (i + 1) % 2 ^ 64
  | .LINEAR => ∃ k, upper < bottom + k * j.stride.toNat ∧ bottom + k * j.stride.toNat < 2 ^ 64

theorem alignDown_eq (i : BitVec 64) : alignDown i = (i >>> 8) <<< 8 := by
  apply BitVec.eq_of_getLsbD_eq
  intro k hk
  have h255 : (255 : BitVec 64).getLsbD k = decide (k < 8) := by
    show (BitVec.ofNat 64 (2 ^ 8 - 1)).getLsbD k = _
    rw [BitVec.getLsbD_ofNat, Nat.testBit_two_pow_sub_one]
    simp [hk]
  simp only [alignDown, BitVec.getLsbD_and, BitVec.getLsbD_not, h255, BitVec.getLsbD_shiftLeft,
    BitVec.getLsbD_ushiftRight, hk, decide_true, Bool.true_and]
  rcases Nat.lt_or_ge k 8 with h8 | h8
  · simp [h8]
  · have hsub : 8 + (k - 8) = k := by omega
    simp [hsub, Nat.not_lt.mpr h8]

theorem alignDown_eq_zero_iff (i : BitVec 64) : alignDown i = 0 ↔ i.toNat < 256 := by
  rw [alignDown_eq, ← BitVec.toNat_inj, BitVec.toNat_shiftLeft, BitVec.toNat_ushiftRight,
    Nat.shiftLeft_eq, Nat.shiftRight_eq_div_pow]
  have := i.isLt
  have h0 : (0 : BitVec 64).toNat = 0 := rfl
  rw [h0]
  omega

theorem Job.rises_iff (j : Job) : j.action.Rises ↔ j.Passes := by
  unfold Job.Passes
  cases h : j.incre with
  | EXP => exact rises_exp_iff (show j.action.incre = .EXP from h)
  | LINEAR => exact rises_linear_iff (show j.action.incre = .LINEAR from h)

theorem Job.action_iff (j : Job) {cl : ℕ} (h1 : 1 ≤ cl) (h4 : cl ≤ 4) :
    (∃ rs, Yields (execRdJob addr cl j.action) rs ∧ (rs.map Result.wss).Pairwise (· < ·)) ↔
      256 ≤ j.startWss.toNat ∧ j.Passes := by
  rw [execRdJob_iff h1 h4, Job.rises_iff, ← Nat.not_lt, ← alignDown_eq_zero_iff]
  rfl

theorem Sweeps.job {config : List Job} (h : Sweeps addr config) {j : Job} (hj : j ∈ config) :
    256 ≤ j.startWss.toNat ∧ j.Passes := by
  have hone := (forEach_good_iff fun cl => steady_forEach steady_execRdJob _).mp h 1 (by simp)
  have hjob := (forEach_good_iff steady_execRdJob).mp hone j.action (List.mem_map_of_mem hj)
  exact (j.action_iff le_rfl (by omega)).mp hjob

/-- A configuration is swept exactly when every job starts at one block or more and its
sizes go up until they are past its end. -/
theorem sweeps_iff (addr : BitVec 64) (config : List Job) :
    Sweeps addr config ↔ ∀ j ∈ config, 256 ≤ j.startWss.toNat ∧ j.Passes := by
  constructor
  · exact fun h j hj => h.job hj
  · intro h
    refine (forEach_good_iff fun cl => steady_forEach steady_execRdJob _).mpr ?_
    intro cl hcl
    have hle : 1 ≤ cl ∧ cl ≤ 4 := by
      simp only [List.mem_cons, List.not_mem_nil, or_false] at hcl
      omega
    refine (forEach_good_iff steady_execRdJob).mpr ?_
    intro task ht
    obtain ⟨j, hj, rfl⟩ := List.mem_map.mp ht
    exact (j.action_iff hle.1 hle.2).mpr (h j hj)

/-- A start below one block is aligned to zero, and the first size divides by it. -/
theorem starts_below_block : ¬ Sweeps 0 [⟨128, 4096, 2, "exp"⟩] := by
  intro h
  have : 256 ≤ (128 : BitVec 64).toNat := (h.job List.mem_cons_self).1
  exact absurd this (by decide)

end PmemStudy.Micro
