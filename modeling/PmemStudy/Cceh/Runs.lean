import PmemStudy.Cceh.Pass

/-!
# Runs of `Insert` calls by one thread

A call is a chain of passes that end in `goto RETRY`, closed by one that
returns. A run is a sequence of calls that return, with the depth at most 30
at every pass. `Ok` is a condition on the pool and the key at the start of
each pass.
-/

namespace PmemStudy.Cceh
open PmemStudy.AlignedBlocks PmemStudy.Loop

def maxDepth : ℕ := 30

/-- Keys the callers pass: the two reserved ones mark slots. -/
def ValidKey (key : Key) : Prop := key ≠ INVALID ∧ key ≠ SENTINEL

section Runs
variable (b : Build) (H : HashFuncs) (Ok : CCEH → Key → Prop)

/-- Passes of one call that ended in `goto RETRY`. -/
inductive Retried (key : Key) (value : Value) : CCEH → CCEH → Prop where
  | refl (st : CCEH) : Retried key value st st
  | again (st st1 st2 : CCEH) (before : Retried key value st st1)
      (hd : st1.curDir.depth ≤ maxDepth) (ok : Ok st1 key)
      (hpass : insertPass b H st1 key value = .again st2) : Retried key value st st2

/-- The call returns with the pool `st'`. -/
def Returns (st : CCEH) (key : Key) (value : Value) (st' : CCEH) : Prop :=
  ∃ st1, Retried b H Ok key value st st1 ∧ st1.curDir.depth ≤ maxDepth ∧ Ok st1 key ∧
    insertPass b H st1 key value = .done st'

inductive Run (start : CCEH) : List (Key × Value) → CCEH → Prop where
  | start : Run start [] start
  | insert (calls : List (Key × Value)) (st st' : CCEH) (key : Key) (value : Value)
      (before : Run start calls st) (valid : ValidKey key)
      (call : Returns b H Ok st key value st') : Run start (calls ++ [(key, value)]) st'

end Runs

variable {b : Build} {H : HashFuncs} {Ok : CCEH → Key → Prop}

/-- `insert` with enough fuel is the call. -/
theorem insert_of_retried (key : Key) (value : Value) (st st1 : CCEH)
    (h : Retried b H Ok key value st st1) :
    ∃ n, ∀ m, insert b H (m + n) st key value = insert b H m st1 key value := by
  induction h with
  | refl => exact ⟨0, fun _ => rfl⟩
  | again st1 st2 _ _ _ hpass ih =>
    obtain ⟨n, hn⟩ := ih
    refine ⟨n + 1, ?_⟩
    intro m
    have he : m + (n + 1) = (m + 1) + n := by omega
    rw [he, hn (m + 1)]
    simp only [insert, hpass]

theorem insert_of_returns (st st' : CCEH) (key : Key) (value : Value)
    (h : Returns b H Ok st key value st') : ∃ fuel, insert b H fuel st key value = some st' := by
  obtain ⟨st1, hre, _, _, hpass⟩ := h
  obtain ⟨n, hn⟩ := insert_of_retried key value st st1 hre
  refine ⟨1 + n, ?_⟩
  rw [hn 1]
  simp only [insert, hpass]

/-- A property kept by both kinds of passes holds after every call. -/
theorem retried_preserves (I : CCEH → Prop) (key : Key) (value : Value)
    (hs : ∀ st st', I st → st.curDir.depth ≤ maxDepth → Ok st key →
      insertPass b H st key value = .again st' → I st')
    (st st1 : CCEH) (h : Retried b H Ok key value st st1) (hi : I st) : I st1 := by
  induction h with
  | refl => exact hi
  | again st1 st2 _ hd ok hpass ih => exact hs st1 st2 ih hd ok hpass

/-- Induction over a run: `I` speaks of the calls made so far. -/
theorem run_preserves (I : List (Key × Value) → CCEH → Prop) (start : CCEH) (h0 : I [] start)
    (hagain : ∀ calls st st' key value, ValidKey key → I calls st → st.curDir.depth ≤ maxDepth →
      Ok st key → insertPass b H st key value = .again st' → I calls st')
    (hdone : ∀ calls st st' key value, ValidKey key → I calls st → st.curDir.depth ≤ maxDepth →
      Ok st key → insertPass b H st key value = .done st' → I (calls ++ [(key, value)]) st')
    (calls : List (Key × Value)) (st : CCEH) (h : Run b H Ok start calls st) : I calls st := by
  induction h with
  | start => exact h0
  | insert calls st st' key value _ hv call ih =>
    obtain ⟨st1, hre, hd, ok, hpass⟩ := call
    have h1 : I calls st1 := retried_preserves (I calls) key value
      (fun s s' hi hd ok hp => hagain calls s s' key value hv hi hd ok hp) st st1 hre ih
    exact hdone calls st1 st' key value hv h1 hd ok hpass

/-! ### The initial table -/

/-- The pool before the loop of `initCCEH`. -/
def initHeader (pool : CCEH) (depth : ℕ) : CCEH :=
  { pool with
    dirs := Function.update pool.dirs pool.ndir ((pool.dirs pool.ndir).initDirectory depth)
    ndir := pool.ndir + 1
    dir := pool.ndir }

/-- The entries below `n` are initialised. -/
structure InitUpTo (depth n : ℕ) (st : CCEH) : Prop where
  depth_eq : st.curDir.depth = depth
  capacity : st.curDir.capacity = 2 ^ depth
  sema : st.curDir.sema = 0
  dir_lt : st.dir < st.ndir
  nseg : st.nseg = 1 + n
  entry : ∀ i < n, st.curDir.segment i = 1 + i
  seg : ∀ i < n, (st.segs (1 + i)).sema = 0 ∧ (st.segs (1 + i)).localDepth = depth ∧
    ∀ c, ((st.segs (1 + i)).bucket c).key = INVALID

theorem initHeader_upTo (segs : ℕ → Segment) (dirs : ℕ → Directory) (depth : ℕ) :
    InitUpTo depth 0 (initHeader (freshPool segs dirs) depth) := by
  have hcur : (initHeader (freshPool segs dirs) depth).curDir = (dirs 0).initDirectory depth := by
    simp only [CCEH.curDir, initHeader, freshPool, Function.update_self]
  refine ⟨?_, ?_, ?_, ?_, rfl, ?_, ?_⟩
  · rw [hcur]
    rfl
  · rw [hcur]
    rfl
  · rw [hcur]
    rfl
  · exact Nat.lt_succ_self 0
  · intro i hi
    exact absurd hi (Nat.not_lt_zero i)
  · intro i hi
    exact absurd hi (Nat.not_lt_zero i)

theorem initEntry_upTo (depth i : ℕ) (st : CCEH) (h : InitUpTo depth i st) :
    InitUpTo depth (i + 1) (initEntry depth i st) := by
  have hcur : (initEntry depth i st).curDir =
      { st.curDir with segment := Function.update st.curDir.segment i st.nseg } :=
    Function.update_self ..
  have hn := h.nseg
  refine ⟨?_, ?_, ?_, h.dir_lt, ?_, ?_, ?_⟩
  · rw [hcur]
    exact h.depth_eq
  · rw [hcur]
    exact h.capacity
  · rw [hcur]
    exact h.sema
  · change st.nseg + 1 = 1 + (i + 1)
    omega
  · intro j hj
    rw [hcur]
    dsimp only
    by_cases he : j = i
    · rw [he, Function.update_self, hn]
    · rw [Function.update_of_ne he]
      exact h.entry j (by omega)
  · intro j hj
    by_cases he : j = i
    · have hs : (initEntry depth i st).segs (1 + j) = (st.segs st.nseg).initSegment depth := by
        rw [he, ← hn]
        exact Function.update_self ..
      rw [hs]
      exact ⟨rfl, rfl, fun _ => rfl⟩
    · have hne : 1 + j ≠ st.nseg := by omega
      have hs : (initEntry depth i st).segs (1 + j) = st.segs (1 + j) :=
        Function.update_of_ne hne ..
      rw [hs]
      exact h.seg j (by omega)

theorem initCCEH_spec (segs : ℕ → Segment) (dirs : ℕ → Directory) (depth : ℕ) :
    InitUpTo depth (2 ^ depth) (initCCEH (freshPool segs dirs) (2 ^ depth)) := by
  have hloop := fold_invariant (InitUpTo depth) (2 ^ depth) (fun i _ st => initEntry depth i st)
    (initHeader (freshPool segs dirs) depth) (initHeader_upTo segs dirs depth)
    (fun i _ st h => initEntry_upTo depth i st h)
  have he : initCCEH (freshPool segs dirs) (2 ^ depth) =
      Nat.fold (2 ^ depth) (fun i _ st => initEntry depth i st)
        (initHeader (freshPool segs dirs) depth) := by
    unfold initCCEH
    rw [Nat.log2_two_pow]
    rfl
  rw [he]
  exact hloop

end PmemStudy.Cceh
