import PmemStudy.Cceh.Contents

/-!
# `Recovery`

`Recovery` walks the blocks of the directory and sets every entry of a block
whose segment has another local depth to the first entry of the block. It
stops before the block that ends at the capacity.
-/

namespace PmemStudy.Cceh
open PmemStudy.AlignedBlocks PmemStudy.FirstFit

/-- Inner loop of `Recovery`: `j` runs from `i + n` down to `i + 1`. -/
def repairBlock (level : ℕ → ℕ) (i depth_cur : ℕ) : ℕ → (ℕ → ℕ) → ℕ → ℕ
  | 0, segment => segment
  | n + 1, segment =>
    let j := i + (n + 1)
    repairBlock level i depth_cur n
      (if level (segment j) ≠ depth_cur then Function.update segment j (segment i) else segment)

/-- Outer loop of `Recovery` from index `i` on. -/
def recoverFrom (level : ℕ → ℕ) (depth capacity i : ℕ) (segment : ℕ → ℕ) : ℕ → ℕ :=
  if i < capacity then
    let depth_cur := level (segment i)
    let stride := 2 ^ (depth - depth_cur)
    let buddy := i + stride
    if buddy = capacity then segment
    else recoverFrom level depth capacity buddy
      (repairBlock level i depth_cur (buddy - 1 - i) segment)
  else segment
termination_by capacity - i
decreasing_by
  have hpos : 0 < 2 ^ (depth - level (segment i)) := Nat.two_pow_pos _
  omega

def CCEH.recovery (st : CCEH) : CCEH :=
  st.setDir st.dir { st.curDir with
    segment := recoverFrom (fun p => (st.segs p).localDepth) st.curDir.depth st.curDir.capacity 0
      st.curDir.segment }

/-- Where `Get` finds a key, locks aside. -/
def CCEH.lookup (H : HashFuncs) (st : CCEH) (key : Key) : Option Slot :=
  (st.segs (st.route (H.f key))).scan H key

/-! ### The two loops -/

theorem repairBlock_eq (level : ℕ → ℕ) (i depth_cur n : ℕ) (segment : ℕ → ℕ) (j : ℕ) :
    repairBlock level i depth_cur n segment j =
      if i < j ∧ j ≤ i + n ∧ level (segment j) ≠ depth_cur then segment i else segment j := by
  induction n generalizing segment with
  | zero =>
    have hn : ¬ (i < j ∧ j ≤ i + 0 ∧ level (segment j) ≠ depth_cur) := by omega
    rw [if_neg hn]
    rfl
  | succ n ih =>
    have hi : i ≠ i + (n + 1) := by omega
    rw [repairBlock]
    by_cases hl : level (segment (i + (n + 1))) ≠ depth_cur
    · rw [if_pos hl, ih, Function.update_of_ne hi]
      by_cases hj : j = i + (n + 1)
      · subst j
        rw [Function.update_self, if_neg (by omega), if_pos ⟨by omega, le_refl _, hl⟩]
      · rw [Function.update_of_ne hj]
        exact if_congr (by omega) rfl rfl
    · rw [if_neg hl, ih]
      by_cases hj : j = i + (n + 1)
      · subst j
        rw [if_neg (by omega), if_neg (fun hx => hl hx.2.2)]
      · exact if_congr (by omega) rfl rfl

/-- `E` is a directory array torn by a crash: block starts of `C` are intact, and
inside a block an entry that differs has another level. -/
structure Torn (d : ℕ) (level : ℕ → ℕ) (C E : ℕ → ℕ) : Prop where
  start : ∀ j < 2 ^ d, j % 2 ^ (d - level (C j)) = 0 → E j = C j
  inner : ∀ j < 2 ^ d, E j = C j ∨ level (E j) ≠ level (C j)

theorem Torn.refl (d : ℕ) (level C : ℕ → ℕ) : Torn d level C C :=
  ⟨fun _ _ _ => rfl, fun _ _ => Or.inl rfl⟩

/-- The block of `j` ends at the capacity. -/
def LastBlock (d : ℕ) (level C : ℕ → ℕ) (j : ℕ) : Prop :=
  j - j % 2 ^ (d - level (C j)) + 2 ^ (d - level (C j)) = 2 ^ d

instance (d : ℕ) (level C : ℕ → ℕ) (j : ℕ) : Decidable (LastBlock d level C j) :=
  inferInstanceAs (Decidable (_ = _))

/-- One iteration of the outer loop repairs the block that starts at `i`. -/
theorem repairBlock_spec (d : ℕ) (level C : ℕ → ℕ) (hC : Blocked d C level) (i : ℕ) (E : ℕ → ℕ)
    (hE : Torn d level C E) (hi : i < 2 ^ d) (hs : i % 2 ^ (d - level (C i)) = 0) (k : ℕ) :
    (i ≤ k → k < i + 2 ^ (d - level (C i)) →
      C k = C i ∧ repairBlock level i (level (C i)) (i + 2 ^ (d - level (C i)) - 1 - i) E k = C k) ∧
    (¬ (i ≤ k ∧ k < i + 2 ^ (d - level (C i))) →
      repairBlock level i (level (C i)) (i + 2 ^ (d - level (C i)) - 1 - i) E k = E k) := by
  have hle := hC.start_le i hi hs
  have hpos : 0 < 2 ^ (d - level (C i)) := Nat.two_pow_pos _
  have hEi := hE.start i hi hs
  constructor
  · intro h1 h2
    have hblock : C k = C i := by
      refine ((hC.same_iff i hi k (by omega)).mpr ?_).symm
      rw [eq_comm, block_iff _ _ _ hpos, hs]
      omega
    refine ⟨hblock, ?_⟩
    rw [repairBlock_eq, hEi, hblock]
    rcases hE.inner k (by omega) with he | hne
    · rw [he, hblock, if_neg (fun hx => hx.2.2 rfl)]
    · rw [hblock] at hne
      by_cases hk : k = i
      · rw [hk, if_neg (by omega), hEi]
      · rw [if_pos ⟨by omega, by omega, hne⟩]
  · intro hout
    rw [repairBlock_eq, if_neg (by omega)]

/-- From a block start on, every block but the last is repaired. -/
theorem recoverFrom_spec (d : ℕ) (level C : ℕ → ℕ) (hC : Blocked d C level) (i : ℕ) (E : ℕ → ℕ)
    (hE : Torn d level C E) (hi : i < 2 ^ d → i % 2 ^ (d - level (C i)) = 0) (j : ℕ) :
    (j < i ∨ 2 ^ d ≤ j ∨ LastBlock d level C j → recoverFrom level d (2 ^ d) i E j = E j) ∧
    (i ≤ j → j < 2 ^ d → ¬ LastBlock d level C j → recoverFrom level d (2 ^ d) i E j = C j) := by
  induction hm : 2 ^ d - i using Nat.strong_induction_on generalizing i E with
  | _ m ih =>
    rw [recoverFrom]
    by_cases hlt : i < 2 ^ d
    · have hs := hi hlt
      have hEi := hE.start i hlt hs
      have hle := hC.start_le i hlt hs
      have hpos : 0 < 2 ^ (d - level (C i)) := Nat.two_pow_pos _
      have hspec := repairBlock_spec d level C hC i E hE hlt hs
      have hlast : i ≤ j → j < i + 2 ^ (d - level (C i)) →
          (LastBlock d level C j ↔ i + 2 ^ (d - level (C i)) = 2 ^ d) := by
        intro h1 h2
        have hk := ((hspec j).1 h1 h2).1
        have hb := (hC.same_iff i hlt j (by omega)).mp hk.symm
        rw [LastBlock, hk, block_start _ i j hs hb.symm]
      rw [if_pos hlt]
      simp only [hEi]
      by_cases hend : i + 2 ^ (d - level (C i)) = 2 ^ d
      · rw [if_pos hend]
        refine ⟨fun _ => rfl, ?_⟩
        intro h1 h2 hn
        exact absurd ((hlast h1 (by omega)).mpr hend) hn
      · rw [if_neg hend]
        have hE' : Torn d level C (repairBlock level i (level (C i))
            (i + 2 ^ (d - level (C i)) - 1 - i) E) := by
          constructor
          · intro k hk hks
            by_cases hin : i ≤ k ∧ k < i + 2 ^ (d - level (C i))
            · exact ((hspec k).1 hin.1 hin.2).2
            · rw [(hspec k).2 hin]
              exact hE.start k hk hks
          · intro k hk
            by_cases hin : i ≤ k ∧ k < i + 2 ^ (d - level (C i))
            · exact Or.inl ((hspec k).1 hin.1 hin.2).2
            · rw [(hspec k).2 hin]
              exact hE.inner k hk
        obtain ⟨hkeep, hfix⟩ := ih (2 ^ d - (i + 2 ^ (d - level (C i)))) (by omega)
          (i + 2 ^ (d - level (C i))) _ hE' (fun h => hC.start_next i hlt hs h) rfl
        constructor
        · intro hcase
          have hout : ¬ (i ≤ j ∧ j < i + 2 ^ (d - level (C i))) := by
            rintro ⟨h1, h2⟩
            rcases hcase with hj | hj | hj
            · omega
            · omega
            · exact hend ((hlast h1 h2).mp hj)
          rw [hkeep (hcase.imp_left fun h => by omega), (hspec j).2 hout]
        · intro h1 h2 hn
          by_cases hin : j < i + 2 ^ (d - level (C i))
          · rw [hkeep (Or.inl hin)]
            exact ((hspec j).1 h1 hin).2
          · exact hfix (by omega) h2 hn
    · rw [if_neg hlt]
      refine ⟨fun _ => rfl, ?_⟩
      intro h1 h2
      omega

/-- A consistent array stays as it is. -/
theorem recoverFrom_self (d : ℕ) (level C : ℕ → ℕ) (hC : Blocked d C level) :
    recoverFrom level d (2 ^ d) 0 C = C := by
  funext j
  have hs := recoverFrom_spec d level C hC 0 C (Torn.refl d level C) (fun _ => Nat.zero_mod _) j
  by_cases hj : j < 2 ^ d ∧ ¬ LastBlock d level C j
  · exact hs.2 (Nat.zero_le j) hj.1 hj.2
  · apply hs.1
    by_cases hd : 2 ^ d ≤ j
    · exact Or.inr (Or.inl hd)
    · exact Or.inr (Or.inr (not_not.mp fun hn => hj ⟨by omega, hn⟩))

theorem recoverFrom_torn (d : ℕ) (level C E : ℕ → ℕ) (hC : Blocked d C level)
    (hE : Torn d level C E) (j : ℕ) (hj : j < 2 ^ d) :
    recoverFrom level d (2 ^ d) 0 E j = if LastBlock d level C j then E j else C j := by
  have hs := recoverFrom_spec d level C hC 0 E hE (fun _ => Nat.zero_mod _) j
  by_cases hl : LastBlock d level C j
  · rw [if_pos hl]
    exact hs.1 (Or.inr (Or.inr hl))
  · rw [if_neg hl]
    exact hs.2 (Nat.zero_le j) hj hl

/-! ### Tables that show the same pairs -/

/-- `R` has the entries of `st`, each `2^k` times, and the same pairs and local
depths behind them. -/
structure Shows (k : ℕ) (st R : CCEH) : Prop where
  depth : R.curDir.depth = st.curDir.depth + k
  capacity : R.curDir.capacity = 2 ^ (st.curDir.depth + k)
  segment : ∀ i < 2 ^ (st.curDir.depth + k),
    R.curDir.segment i = st.curDir.segment (i / 2 ^ k)
  bucket : ∀ i < 2 ^ st.curDir.depth,
    (R.segs (st.curDir.segment i)).bucket = (st.segs (st.curDir.segment i)).bucket
  localDepth : ∀ i < 2 ^ st.curDir.depth,
    (R.segs (st.curDir.segment i)).localDepth = (st.segs (st.curDir.segment i)).localDepth

theorem Consistent.widened {st : CCEH} (hc : Consistent st) (k : ℕ) (hk : k ≤ 1) :
    Blocked (st.curDir.depth + k) (fun i => st.curDir.segment (i / 2 ^ k))
      fun p => (st.segs p).localDepth := by
  rcases Nat.le_one_iff_eq_zero_or_eq_one.mp hk with rfl | rfl
  · exact hc.blocked.congr (fun i _ => by rw [pow_zero, Nat.div_one]) (fun _ _ => rfl)
  · exact hc.blocked.widen

theorem widened_source (d k i : ℕ) (hi : i < 2 ^ (d + k)) : i / 2 ^ k < 2 ^ d := by
  rw [Nat.div_lt_iff_lt_mul (Nat.two_pow_pos k), ← pow_add]
  exact hi

theorem Shows.consistent {k : ℕ} {st R : CCEH} (h : Shows k st R) (hk : k ≤ 1)
    (hc : Consistent st) : Consistent R := by
  constructor
  · rw [h.capacity, h.depth]
  · rw [h.depth]
    exact (hc.widened k hk).congr h.segment fun i hi => h.localDepth _ (widened_source _ _ i hi)

theorem Shows.lookup {k : ℕ} {st R : CCEH} (h : Shows k st R) (hd : st.curDir.depth + k ≤ 64)
    (H : HashFuncs) (key : Key) : R.lookup H key = st.lookup H key := by
  have hroute : R.route (H.f key) = st.route (H.f key) := by
    have hlt := topBits_lt (H.f key) (st.curDir.depth + k) hd
    have hcoarse := topBits_coarser (H.f key) st.curDir.depth (st.curDir.depth + k) (by omega) hd
    have hk : st.curDir.depth + k - st.curDir.depth = k := by omega
    rw [hk] at hcoarse
    rw [CCEH.route, h.depth, h.segment _ hlt, hcoarse]
    rfl
  have hb : (R.segs (st.route (H.f key))).bucket = (st.segs (st.route (H.f key))).bucket :=
    h.bucket _ (route_index_lt st (H.f key) (by omega))
  rw [CCEH.lookup, CCEH.lookup, Segment.scan, Segment.scan, hroute, hb]

@[simp] theorem CCEH.recovery_curDir (X : CCEH) : X.recovery.curDir = { X.curDir with
    segment := recoverFrom (fun p => (X.segs p).localDepth) X.curDir.depth X.curDir.capacity 0
      X.curDir.segment } := CCEH.setDir_curDir ..

theorem recovery_entry {d : ℕ} {C : ℕ → ℕ} {X : CCEH} (hdepth : X.curDir.depth = d)
    (hcap : X.curDir.capacity = 2 ^ d) (hC : Blocked d C fun p => (X.segs p).localDepth)
    (hE : Torn d (fun p => (X.segs p).localDepth) C X.curDir.segment) (j : ℕ) (hj : j < 2 ^ d) :
    X.recovery.curDir.segment j =
      if LastBlock d (fun p => (X.segs p).localDepth) C j then X.curDir.segment j else C j := by
  rw [X.recovery_curDir]
  dsimp only
  rw [hdepth, hcap, recoverFrom_torn _ _ _ _ hC hE j hj]

/-- `Recovery` of a torn directory whose last block is intact. -/
theorem recovery_shows {k : ℕ} {st X : CCEH} (hk : k ≤ 1) (hc : Consistent st)
    (hdepth : X.curDir.depth = st.curDir.depth + k)
    (hcap : X.curDir.capacity = 2 ^ (st.curDir.depth + k))
    (hE : Torn (st.curDir.depth + k) (fun p => (X.segs p).localDepth)
      (fun i => st.curDir.segment (i / 2 ^ k)) X.curDir.segment)
    (hlast : ∀ j < 2 ^ (st.curDir.depth + k),
      LastBlock (st.curDir.depth + k) (fun p => (X.segs p).localDepth)
        (fun i => st.curDir.segment (i / 2 ^ k)) j →
      X.curDir.segment j = st.curDir.segment (j / 2 ^ k))
    (hbucket : ∀ i < 2 ^ st.curDir.depth,
      (X.segs (st.curDir.segment i)).bucket = (st.segs (st.curDir.segment i)).bucket)
    (hlevel : ∀ i < 2 ^ st.curDir.depth,
      (X.segs (st.curDir.segment i)).localDepth = (st.segs (st.curDir.segment i)).localDepth) :
    Shows k st X.recovery := by
  have hC : Blocked (st.curDir.depth + k) (fun i => st.curDir.segment (i / 2 ^ k))
      fun p => (X.segs p).localDepth :=
    (hc.widened k hk).congr (fun _ _ => rfl) fun i hi => hlevel _ (widened_source _ _ i hi)
  refine ⟨?_, ?_, ?_, hbucket, hlevel⟩
  · rw [X.recovery_curDir]
    exact hdepth
  · rw [X.recovery_curDir]
    exact hcap
  · intro i hi
    rw [recovery_entry hdepth hcap hC hE i hi]
    split
    · exact hlast i hi ‹_›
    · rfl

/-- A consistent pool is not changed. -/
theorem Consistent.recovery_eq {st : CCEH} (hc : Consistent st) : st.recovery = st := by
  rw [CCEH.recovery, hc.capacity, recoverFrom_self _ _ _ hc.blocked]
  exact st.setDir_same

end PmemStudy.Cceh
