import PmemStudy.Cceh.Table
import PmemStudy.Lib.AlignedBlocks

/-!
# What the directory stores leave behind

Closed forms of the store lists of a split, for complete lists and for the
prefixes a crash can leave.
-/

namespace PmemStudy.Cceh
open PmemStudy.AlignedBlocks

namespace CCEH

@[simp] theorem stores_nil (st : CCEH) : st.stores [] = st := rfl

theorem stores_append (st : CCEH) (l l' : List Store) :
    st.stores (l ++ l') = (st.stores l).stores l' := List.foldl_append

theorem setDir_same (st : CCEH) : st.setDir st.dir st.curDir = st := by
  simp only [setDir, curDir, Function.update_eq_self]

theorem setDir_setDir (st : CCEH) (d : ℕ) (D D' : Directory) :
    (st.setDir d D).setDir d D' = st.setDir d D' := by
  simp only [setDir, Function.update_idem]

@[simp] theorem setDir_curDir (st : CCEH) (D : Directory) : (st.setDir st.dir D).curDir = D :=
  Function.update_self ..

/-- A run of `n` entry stores of the same segment from index `base`. -/
theorem stores_entry_range (st : CCEH) (base n s : ℕ) :
    st.stores ((List.range n).map fun i => .entry (base + i) s) =
      st.setDir st.dir { st.curDir with
        segment := fun j => if base ≤ j ∧ j < base + n then s else st.curDir.segment j } := by
  induction n with
  | zero =>
    have he : (fun j => if base ≤ j ∧ j < base + 0 then s else st.curDir.segment j) =
        st.curDir.segment := by
      funext j
      have hn : ¬ (base ≤ j ∧ j < base + 0) := by omega
      rw [if_neg hn]
    rw [he]
    exact st.setDir_same.symm
  | succ n ih =>
    rw [List.range_succ, List.map_append, stores_append, ih]
    simp only [List.map_cons, List.map_nil, stores, List.foldl_cons, List.foldl_nil, store,
      setDir_curDir, setDir_dir, setDir_setDir]
    congr 2
    funext j
    by_cases hj : j = base + n
    · have hp : base ≤ j ∧ j < base + (n + 1) := by omega
      rw [hj, Function.update_self, if_pos (by omega)]
    · rw [Function.update_of_ne hj]
      by_cases hp : base ≤ j ∧ j < base + n
      · rw [if_pos hp, if_pos (by omega)]
      · rw [if_neg hp, if_neg (by omega)]

/-- Stores into a directory under construction touch nothing else. -/
theorem stores_newEntry_frame (st : CCEH) (d : ℕ) (l : List Store)
    (h : ∀ e ∈ l, ∃ i s, e = .newEntry d i s) :
    (st.stores l).segs = st.segs ∧ (st.stores l).dir = st.dir ∧
      ∀ q, q ≠ d → (st.stores l).dirs q = st.dirs q := by
  induction l generalizing st with
  | nil => exact ⟨rfl, rfl, fun _ _ => rfl⟩
  | cons e l ih =>
    obtain ⟨i, s, he⟩ := h e (List.mem_cons_self ..)
    obtain ⟨hs, hd, hq⟩ := ih (st.store e) (fun e' hm => h e' (List.mem_cons_of_mem _ hm))
    rw [he] at hs hd hq
    simp only [stores, List.foldl_cons, he] at hs hd hq ⊢
    refine ⟨hs, hd, ?_⟩
    intro q hne
    rw [hq q hne]
    exact Function.update_of_ne hne ..

end CCEH

theorem doublingStores_newEntry (D : Directory) (d x s0 s1 : ℕ) :
    ∀ e ∈ doublingStores D d x s0 s1, ∃ i s, e = Store.newEntry d i s := by
  intro e he
  obtain ⟨i, _, hi⟩ := List.mem_flatMap.mp he
  split at hi <;> simp only [List.mem_cons, List.not_mem_nil, or_false] at hi <;>
    rcases hi with rfl | rfl <;> exact ⟨_, _, rfl⟩

theorem doublingStores_length (D : Directory) (d x s0 s1 : ℕ) :
    (doublingStores D d x s0 s1).length = 2 * D.capacity := by
  have hlen : ∀ n, ((List.range n).flatMap fun i =>
      if i = x then [Store.newEntry d (2 * i) s0, .newEntry d (2 * i + 1) s1]
      else [.newEntry d (2 * i) (D.segment i), .newEntry d (2 * i + 1) (D.segment i)]).length =
      2 * n := by
    intro n
    induction n with
    | zero => rfl
    | succ n ih =>
      rw [List.range_succ, List.flatMap_append, List.length_append, ih]
      simp only [List.flatMap_cons, List.flatMap_nil, List.append_nil]
      split <;> simp only [List.length_cons, List.length_nil] <;> omega
  exact hlen D.capacity

/-- The doubled array: entry `j` comes from entry `j/2` of the old one. -/
def doubledSegment (D : Directory) (x s0 s1 j : ℕ) : ℕ :=
  if j / 2 = x then (if j % 2 = 0 then s0 else s1) else D.segment (j / 2)

/-- The new directory once the loop has filled it. -/
def doubledDirectory (D N : Directory) (x s0 s1 : ℕ) : Directory :=
  { N with segment := fun j =>
      if j < 2 * D.capacity then doubledSegment D x s0 s1 j else N.segment j }

theorem stores_doubling (st : CCEH) (D : Directory) (d x s0 s1 : ℕ) :
    st.stores (doublingStores D d x s0 s1) =
      st.setDir d (doubledDirectory D (st.dirs d) x s0 s1) := by
  have hloop : ∀ n, st.stores ((List.range n).flatMap fun i =>
      if i = x then [Store.newEntry d (2 * i) s0, .newEntry d (2 * i + 1) s1]
      else [.newEntry d (2 * i) (D.segment i), .newEntry d (2 * i + 1) (D.segment i)]) =
      st.setDir d { st.dirs d with
        segment := fun j => if j < 2 * n then doubledSegment D x s0 s1 j
          else (st.dirs d).segment j } := by
    intro n
    induction n with
    | zero =>
      simp only [Nat.mul_zero, Nat.not_lt_zero, if_false]
      exact (congrArg (fun v => { st with dirs := v }) (Function.update_eq_self d st.dirs)).symm
    | succ n ih =>
      rw [List.range_succ, List.flatMap_append, CCEH.stores_append, ih]
      have hpair : ∀ a c, a = doubledSegment D x s0 s1 (2 * n) →
          c = doubledSegment D x s0 s1 (2 * n + 1) →
          (st.setDir d { st.dirs d with
            segment := fun j => if j < 2 * n then doubledSegment D x s0 s1 j
              else (st.dirs d).segment j }).stores
            [.newEntry d (2 * n) a, .newEntry d (2 * n + 1) c] =
          st.setDir d { st.dirs d with
            segment := fun j => if j < 2 * (n + 1) then doubledSegment D x s0 s1 j
              else (st.dirs d).segment j } := by
        intro a c ha hc
        simp only [CCEH.stores, List.foldl_cons, List.foldl_nil, CCEH.store,
          CCEH.setDir_dirs_self, CCEH.setDir_setDir]
        congr 2
        funext j
        by_cases h1 : j = 2 * n + 1
        · rw [h1, Function.update_self, if_pos (by omega), hc]
        · rw [Function.update_of_ne h1]
          by_cases h0 : j = 2 * n
          · rw [h0, Function.update_self, if_pos (by omega), ha]
          · rw [Function.update_of_ne h0]
            by_cases hlt : j < 2 * n
            · rw [if_pos hlt, if_pos (by omega)]
            · rw [if_neg hlt, if_neg (by omega)]
      have hd0 : 2 * n / 2 = n := by omega
      have hd1 : (2 * n + 1) / 2 = n := by omega
      have hm0 : 2 * n % 2 = 0 := by omega
      have hm1 : ¬ (2 * n + 1) % 2 = 0 := by omega
      simp only [List.flatMap_cons, List.flatMap_nil, List.append_nil]
      by_cases hx : n = x
      · rw [if_pos hx]
        apply hpair
        · simp only [doubledSegment, hd0, if_pos hx, if_pos hm0]
        · simp only [doubledSegment, hd1, if_pos hx, if_neg hm1]
      · rw [if_neg hx]
        apply hpair
        · simp only [doubledSegment, hd0, if_neg hx]
        · simp only [doubledSegment, hd1, if_neg hx]
  exact hloop D.capacity

/-- The doubled array is the widened one with block `x` split. -/
theorem doubledSegment_eq (D : Directory) (depth x x' s0 s1 : ℕ) (hx : x' / 2 = x) :
    doubledSegment D x s0 s1 = splitBlock (depth + 1) depth x' s0 s1 (widen D.segment) := by
  funext j
  have h1 : depth + 1 - depth = 1 := by omega
  have h0 : depth + 1 - (depth + 1) = 0 := by omega
  simp only [doubledSegment, splitBlock, widen, h1, h0, pow_one, pow_zero, Nat.div_one, hx]

/-- The buddy pair is the stride block of length 2. -/
theorem buddyStores_eq (b : Build) (x s0 s1 : ℕ) :
    buddyStores b x s0 s1 = strideStores b 2 x s0 s1 := by
  have hh : 2 / 2 = 1 := rfl
  simp only [buddyStores, strideStores, hh, List.range_one, List.map_cons, List.map_nil, Nat.add_zero]
  by_cases hx : x % 2 = 0
  · rw [if_pos hx, hx, Nat.sub_zero]
    cases b <;> rfl
  · have h1 : x % 2 = 1 := by omega
    have h2 : x - 1 + 1 = x := by omega
    rw [if_neg hx, h1, h2]
    cases b <;> rfl

/-- Segment array after `n` of the stores of a stride block. -/
def strideSegment (b : Build) (stride x n s0 s1 : ℕ) (segment : ℕ → ℕ) (j : ℕ) :
    ℕ :=
  let loc := x - x % stride
  if loc + stride / 2 ≤ j ∧ j < loc + stride / 2 + min n (stride / 2) then s1
  else if b = .cow ∧ loc ≤ j ∧ j < loc + min (n - stride / 2) (stride / 2) then s0
  else segment j

theorem strideStores_length (b : Build) (stride x s0 s1 : ℕ) :
    (strideStores b stride x s0 s1).length =
      match b with
      | .cow => stride / 2 + stride / 2
      | .inplace => stride / 2 := by
  cases b <;> simp only [strideStores, List.length_append, List.length_map, List.length_range]

theorem stores_stride_take (b : Build) (st : CCEH) (stride x n s0 s1 : ℕ) :
    st.stores ((strideStores b stride x s0 s1).take n) =
      st.setDir st.dir { st.curDir with
        segment := strideSegment b stride x n s0 s1 st.curDir.segment } := by
  cases b with
  | inplace =>
    simp only [strideStores, ← List.map_take, List.take_range, CCEH.stores_entry_range]
    congr 2
  | cow =>
    simp only [strideStores, List.take_append, List.length_map, List.length_range,
      ← List.map_take, List.take_range, CCEH.stores_append, CCEH.stores_entry_range,
      CCEH.setDir_curDir, CCEH.setDir_dir, CCEH.setDir_setDir]
    congr 2
    funext j
    simp only [strideSegment, true_and]
    by_cases hu : x - x % stride + stride / 2 ≤ j ∧
        j < x - x % stride + stride / 2 + min n (stride / 2)
    · have hl : ¬ (x - x % stride ≤ j ∧ j < x - x % stride + min (n - stride / 2) (stride / 2)) := by
        omega
      rw [if_neg hl, if_pos hu, if_pos hu]
    · rw [if_neg hu]
      by_cases hl : x - x % stride ≤ j ∧ j < x - x % stride + min (n - stride / 2) (stride / 2)
      · rw [if_pos hl, if_neg hu]
      · rw [if_neg hl, if_neg hu]

/-! ### Complete splits -/

/-- `D_RW(s[0])->local_depth++` of the in-place build. -/
def bumpDepth (b : Build) (st : CCEH) (s0 : ℕ) : CCEH :=
  match b with
  | .cow => st
  | .inplace => st.store (.localDepth s0)

theorem stores_split_double (b : Build) (st : CCEH) (D : Directory) (d : ℕ)
    (f_hash : BitVec 64) (s0 s1 : ℕ) :
    st.stores (splitStores b D d f_hash D.depth s0 s1) =
      bumpDepth b { st.setDir d (doubledDirectory D (st.dirs d) (topBits f_hash D.depth) s0 s1) with
        dir := d } s0 := by
  simp only [splitStores, if_true, CCEH.stores_append, stores_doubling]
  cases b <;> rfl

/-- The buddy and the stride path issue the same stores. -/
theorem splitStores_stride (b : Build) (D : Directory) (d : ℕ) (f_hash : BitVec 64)
    (l s0 s1 : ℕ) (hl : l < D.depth) :
    splitStores b D d f_hash l s0 s1 =
      strideStores b (2 ^ (D.depth - l)) (topBits f_hash D.depth) s0 s1 ++ bumpStores b s0 := by
  have hne : l ≠ D.depth := by omega
  simp only [splitStores, if_neg hne]
  by_cases hb : D.depth = l + 1
  · have h1 : D.depth - l = 1 := by omega
    rw [if_pos hb, buddyStores_eq, h1, pow_one]
  · rw [if_neg hb]

theorem strideStores_take_full (b : Build) (stride x s0 s1 n : ℕ) (hn : stride ≤ n) :
    (strideStores b stride x s0 s1).take n = strideStores b stride x s0 s1 := by
  apply List.take_of_length_le
  rw [strideStores_length]
  cases b <;> dsimp only <;> omega

theorem stores_split_stride (b : Build) (st : CCEH) (D : Directory) (d : ℕ)
    (f_hash : BitVec 64) (l s0 s1 : ℕ) (hl : l < D.depth) :
    st.stores (splitStores b D d f_hash l s0 s1) =
      bumpDepth b (st.setDir st.dir { st.curDir with
        segment := strideSegment b (2 ^ (D.depth - l)) (topBits f_hash D.depth) (2 ^ (D.depth - l))
          s0 s1 st.curDir.segment }) s0 := by
  rw [splitStores_stride b D d f_hash l s0 s1 hl, CCEH.stores_append,
    ← strideStores_take_full b _ _ s0 s1 (2 ^ (D.depth - l)) (le_refl _), stores_stride_take]
  cases b <;> rfl

/-- A complete copy-on-write stride rewrites both halves of the block. -/
theorem strideSegment_full (d l x s0 s1 : ℕ) (segment : ℕ → ℕ) (hl : l < d) :
    strideSegment .cow (2 ^ (d - l)) x (2 ^ (d - l)) s0 s1 segment =
      splitBlock d l x s0 s1 segment := by
  have hp : 2 ^ (d - l) = 2 * 2 ^ (d - (l + 1)) := by
    rw [← pow_succ']
    congr 1
    omega
  have hpos : 0 < 2 ^ (d - (l + 1)) := Nat.two_pow_pos _
  funext j
  have hblock := block_iff (2 ^ (d - l)) x j (Nat.two_pow_pos _)
  have hhalf := upper_half_iff (2 ^ (d - (l + 1))) x j hpos
  rw [← hp] at hhalf
  simp only [strideSegment, true_and]
  rcases splitBlock_cases d l x s0 s1 segment j with ⟨hb, hm, he⟩ | ⟨hb, hm, he⟩ | ⟨hb, he⟩
  · have hin := hblock.mp hb
    have hup := hhalf hb
    rw [he, if_neg (by omega), if_pos (by omega)]
  · have hin := hblock.mp hb
    have hup := hhalf hb
    rw [he, if_pos (by omega)]
  · have hout : ¬ (x - x % 2 ^ (d - l) ≤ j ∧ j < x - x % 2 ^ (d - l) + 2 ^ (d - l)) :=
      fun hin => hb (hblock.mpr hin)
    rw [he, if_neg (by omega), if_neg (by omega)]

/-- In place the lower half is left alone; it already refers to `s[0]`. -/
theorem strideSegment_inplace (stride x n s0 s1 : ℕ) (segment : ℕ → ℕ) (j : ℕ)
    (h : x - x % stride ≤ j → j < x - x % stride + stride / 2 → segment j = s0) :
    strideSegment .inplace stride x n s0 s1 segment j =
      strideSegment .cow stride x n s0 s1 segment j := by
  simp only [strideSegment, reduceCtorEq, false_and, if_false, true_and]
  by_cases hu : x - x % stride + stride / 2 ≤ j ∧ j < x - x % stride + stride / 2 + min n (stride / 2)
  · rw [if_pos hu, if_pos hu]
  · rw [if_neg hu, if_neg hu]
    by_cases hl : x - x % stride ≤ j ∧ j < x - x % stride + min (n - stride / 2) (stride / 2)
    · rw [if_pos hl]
      exact h hl.1 (by omega)
    · rw [if_neg hl]

end PmemStudy.Cceh
