import PmemStudy.Cceh.Recovery

/-!
# Recovery after a crash in a split

The image after each prefix of the directory stores of a split, and what
`Recovery` makes of it: the directory before the split, the one after it, or,
for the block that ends at the capacity, a directory that is not consistent.
-/

namespace PmemStudy.Cceh
open PmemStudy.AlignedBlocks PmemStudy.FirstFit

/-- The pool after the first `n` stores to entries, `dir` and `local_depth` of a
split of the segment that `f_hash` is routed to. -/
def CrashedAfter (b : Build) (H : HashFuncs) (st : CCEH) (f_hash : BitVec 64) (n : ℕ)
    (st' : CCEH) : Prop :=
  ∃ A l s0, beforeStores b H (st.setSema (st.route f_hash) (-1)) f_hash (st.route f_hash) =
    some (A, l, s0) ∧ st' = A.stores (l.take n)

/-- `Split` has found a slot for every pair it had to place. -/
def Segment.FoundRoom (b : Build) (H : HashFuncs) (s : Segment) : Prop :=
  ∀ bit, Copies b bit → ∃ pos,
    Placement (fun p => candidates b H (s.bucket p).key) (s.Moves H bit) pos ∧
      ∀ i, s.Moves H bit i → pos i ≠ none

/-! ### What a crash leaves -/

section Crash
variable {b : Build} {H : HashFuncs} {st A : CCEH} {f_hash : BitVec 64}

/-- The directory stores of the split of the segment that `f_hash` is routed to. -/
def routeStores (b : Build) (st : CCEH) (f_hash : BitVec 64) : List Store :=
  splitStores b st.curDir st.ndir f_hash (st.segs (st.route f_hash)).localDepth
    (st.half b (st.route f_hash) false) (st.half b (st.route f_hash) true)

/-- Length of the block that is split. -/
def CCEH.stride (st : CCEH) (f_hash : BitVec 64) : ℕ :=
  2 ^ (st.curDir.depth - (st.segs (st.route f_hash)).localDepth)

theorem CCEH.stride_half (st : CCEH) (f_hash : BitVec 64)
    (hl : (st.segs (st.route f_hash)).localDepth < st.curDir.depth) :
    st.stride f_hash = 2 * 2 ^ (st.curDir.depth - ((st.segs (st.route f_hash)).localDepth + 1)) ∧
      0 < 2 ^ (st.curDir.depth - ((st.segs (st.route f_hash)).localDepth + 1)) := by
  refine ⟨?_, Nat.two_pow_pos _⟩
  rw [CCEH.stride, ← pow_succ']
  congr 1
  omega

theorem Prepared.crash_stride (hA : Prepared b H st (st.route f_hash) A)
    (hl : (st.segs (st.route f_hash)).localDepth < st.curDir.depth) (n : ℕ)
    (hn : b = .cow ∨ n ≤ st.stride f_hash / 2) :
    A.stores ((routeStores b st f_hash).take n) = A.setDir A.dir { A.curDir with
      segment := strideSegment b (st.stride f_hash) (topBits f_hash st.curDir.depth) n
        (st.half b (st.route f_hash) false) (st.half b (st.route f_hash) true)
        st.curDir.segment } := by
  have hbump : (bumpStores b (st.half b (st.route f_hash) false)).take
      (n - (strideStores b (st.stride f_hash) (topBits f_hash st.curDir.depth)
        (st.half b (st.route f_hash) false) (st.half b (st.route f_hash) true)).length) = [] := by
    cases b with
    | cow => exact List.take_nil
    | inplace =>
      have hle : n ≤ st.stride f_hash / 2 := hn.resolve_left (by intro h; cases h)
      rw [strideStores_length]
      dsimp only
      rw [Nat.sub_eq_zero_of_le hle, List.take_zero]
  rw [routeStores, splitStores_stride b _ _ _ _ _ _ hl, List.take_append]
  change A.stores ((strideStores b (st.stride f_hash) _ _ _).take n ++ List.take
    (n - (strideStores b (st.stride f_hash) _ _ _).length) _) = _
  rw [hbump, List.append_nil, stores_stride_take, hA.segment]

/-- Number of stores of the split. -/
theorem routeStores_length (b : Build) (st : CCEH) (f_hash : BitVec 64)
    (hle : (st.segs (st.route f_hash)).localDepth ≤ st.curDir.depth) :
    (routeStores b st f_hash).length =
      if (st.segs (st.route f_hash)).localDepth = st.curDir.depth then
        match b with
        | .cow => 2 * st.curDir.capacity + 1
        | .inplace => 2 * st.curDir.capacity + 2
      else match b with
        | .cow => st.stride f_hash / 2 + st.stride f_hash / 2
        | .inplace => st.stride f_hash / 2 + 1 := by
  by_cases hl : (st.segs (st.route f_hash)).localDepth = st.curDir.depth
  · rw [if_pos hl, routeStores, hl]
    simp only [splitStores, if_true, List.length_append, doublingStores_length]
    cases b <;> rfl
  · rw [if_neg hl, routeStores, splitStores_stride b _ _ _ _ _ _ (lt_of_le_of_ne hle hl),
      List.length_append, strideStores_length]
    cases b <;> rfl

theorem Prepared.crash_double_before (hA : Prepared b H st (st.route f_hash) A)
    (hl : (st.segs (st.route f_hash)).localDepth = st.curDir.depth) (n : ℕ)
    (hn : n ≤ 2 * st.curDir.capacity) (hdir : st.dir < st.ndir) :
    (A.stores ((routeStores b st f_hash).take n)).segs = A.segs ∧
      (A.stores ((routeStores b st f_hash).take n)).curDir = A.curDir := by
  have htake : (routeStores b st f_hash).take n = (doublingStores st.curDir st.ndir
      (topBits f_hash st.curDir.depth) (st.half b (st.route f_hash) false)
      (st.half b (st.route f_hash) true)).take n := by
    rw [routeStores, hl]
    simp only [splitStores, if_true, List.append_assoc]
    exact List.take_append_of_le_length (by rw [doublingStores_length]; exact hn)
  obtain ⟨hs, hd, hq⟩ := A.stores_newEntry_frame st.ndir ((routeStores b st f_hash).take n) (by
    intro e he
    rw [htake] at he
    exact doublingStores_newEntry _ _ _ _ _ e (List.mem_of_mem_take he))
  refine ⟨hs, ?_⟩
  have hne : A.dir ≠ st.ndir := by
    rw [hA.dir]
    omega
  rw [CCEH.curDir, hd, hq _ hne]
  rfl

/-- The new directory is published, `local_depth` is not yet incremented. -/
theorem crash_double_published (A : CCEH)
    (hl : (st.segs (st.route f_hash)).localDepth = st.curDir.depth) :
    A.stores ((routeStores b st f_hash).take (2 * st.curDir.capacity + 1)) =
      { A.setDir st.ndir (doubledDirectory st.curDir (A.dirs st.ndir)
          (topBits f_hash st.curDir.depth) (st.half b (st.route f_hash) false)
          (st.half b (st.route f_hash) true)) with dir := st.ndir } := by
  have htake : (routeStores b st f_hash).take (2 * st.curDir.capacity + 1) =
      doublingStores st.curDir st.ndir (topBits f_hash st.curDir.depth)
        (st.half b (st.route f_hash) false) (st.half b (st.route f_hash) true) ++
        [.dirPtr st.ndir] := by
    have hlen : (doublingStores st.curDir st.ndir (topBits f_hash st.curDir.depth)
        (st.half b (st.route f_hash) false) (st.half b (st.route f_hash) true) ++
        [Store.dirPtr st.ndir]).length = 2 * st.curDir.capacity + 1 := by
      rw [List.length_append, doublingStores_length]
      rfl
    rw [routeStores, hl]
    simp only [splitStores, if_true]
    rw [← hlen, List.take_left]
  rw [htake, CCEH.stores_append, stores_doubling]
  rfl

/-- Lost to `Recovery`: the block of the split segment ends at the capacity, and
its first entry does not show the split yet while a later one does. -/
def LostBlock (b : Build) (st : CCEH) (f_hash : BitVec 64) (n : ℕ) : Prop :=
  topBits f_hash st.curDir.depth - topBits f_hash st.curDir.depth % st.stride f_hash +
    st.stride f_hash = st.curDir.capacity ∧
  if (st.segs (st.route f_hash)).localDepth = st.curDir.depth then
    b = .inplace ∧ n = 2 * st.curDir.capacity + 1
  else 1 ≤ n ∧ n ≤ st.stride f_hash / 2

/-! ### What `Recovery` makes of it -/

theorem Prepared.level (hA : Prepared b H st (st.route f_hash) A) (p : ℕ) (hp : p < st.nseg) :
    (A.segs p).localDepth = (st.segs p).localDepth ∧ (A.segs p).bucket = (st.segs p).bucket := by
  by_cases ht : p = st.route f_hash
  · rw [ht, hA.suspended]
    exact ⟨rfl, rfl⟩
  · rw [hA.other p hp ht]
    exact ⟨rfl, rfl⟩

theorem Prepared.upper_level (hA : Prepared b H st (st.route f_hash) A) :
    (A.segs (st.half b (st.route f_hash) true)).localDepth =
      (st.segs (st.route f_hash)).localDepth + 1 :=
  (hA.copied true (by cases b <;> trivial)).localDepth

/-- An entry of the block of `x` after `n` stores of the upper half. -/
theorem strideSegment_upper (b : Build) (h x n s0 s1 : ℕ) (segment : ℕ → ℕ) (j : ℕ) (hn : n ≤ h) :
    strideSegment b (2 * h) x n s0 s1 segment j =
      if x - x % (2 * h) + h ≤ j ∧ j < x - x % (2 * h) + h + n then s1 else segment j := by
  have hh : 2 * h / 2 = h := by omega
  have hmin : min n h = n := by omega
  have hzero : min (n - h) h = 0 := by omega
  simp only [strideSegment, hh, hmin, hzero, Nat.add_zero]
  split
  · rfl
  · rw [if_neg (by omega)]

/-- First entry of the block that is split. -/
def CCEH.blockLoc (st : CCEH) (f_hash : BitVec 64) : ℕ :=
  topBits f_hash st.curDir.depth - topBits f_hash st.curDir.depth % st.stride f_hash

/-- The first `n` entries of the upper half of the block refer to `s[1]`, the
rest of the directory is the old one. -/
structure HalfWritten (b : Build) (st : CCEH) (f_hash : BitVec 64) (n : ℕ) (X : CCEH) : Prop where
  depth : X.curDir.depth = st.curDir.depth
  capacity : X.curDir.capacity = 2 ^ st.curDir.depth
  entry : ∀ j, X.curDir.segment j =
    if st.blockLoc f_hash + st.stride f_hash / 2 ≤ j ∧
        j < st.blockLoc f_hash + st.stride f_hash / 2 + n
    then st.half b (st.route f_hash) true else st.curDir.segment j
  old : ∀ i < 2 ^ st.curDir.depth,
    (X.segs (st.curDir.segment i)).localDepth = (st.segs (st.curDir.segment i)).localDepth ∧
    (X.segs (st.curDir.segment i)).bucket = (st.segs (st.curDir.segment i)).bucket
  new : (X.segs (st.half b (st.route f_hash) true)).localDepth =
    (st.segs (st.route f_hash)).localDepth + 1

theorem Prepared.halfWritten (hA : Prepared b H st (st.route f_hash) A) (hs : AtRest st)
    (hl : (st.segs (st.route f_hash)).localDepth < st.curDir.depth) (n : ℕ)
    (hn : n ≤ st.stride f_hash / 2) :
    HalfWritten b st f_hash n (A.stores ((routeStores b st f_hash).take n)) := by
  obtain ⟨hstride, hpos⟩ := st.stride_half f_hash hl
  have hcrash := hA.crash_stride hl n (Or.inr hn)
  generalize A.stores ((routeStores b st f_hash).take n) = X at hcrash ⊢
  have hXcur : X.curDir = { A.curDir with
      segment := strideSegment b (st.stride f_hash) (topBits f_hash st.curDir.depth) n
        (st.half b (st.route f_hash) false) (st.half b (st.route f_hash) true)
        st.curDir.segment } := by
    rw [hcrash]
    exact CCEH.setDir_curDir ..
  have hXsegs : X.segs = A.segs := by
    rw [hcrash]
    rfl
  refine ⟨?_, ?_, ?_, ?_, ?_⟩
  · rw [hXcur]
    exact hA.depth
  · rw [hXcur]
    exact hA.capacity.trans hs.consistent.capacity
  · intro j
    rw [hXcur, CCEH.blockLoc]
    generalize 2 ^ (st.curDir.depth - ((st.segs (st.route f_hash)).localDepth + 1)) = h at *
    have hh : 2 * h / 2 = h := by omega
    rw [hstride, hh] at hn ⊢
    exact strideSegment_upper b h _ n _ _ _ j hn
  · intro i hi
    rw [hXsegs]
    exact hA.level _ (hs.rest.allocated i hi).2
  · rw [hXsegs]
    exact hA.upper_level

/-- The redirected entries belong to the segment that is split. -/
theorem HalfWritten.redirected {n : ℕ} {X : CCEH} (_ : HalfWritten b st f_hash n X) (hs : AtRest st)
    (hd : st.curDir.depth ≤ 63) (hn : n ≤ st.stride f_hash / 2) (j : ℕ)
    (hj : j < 2 ^ st.curDir.depth) (h1 : st.blockLoc f_hash + st.stride f_hash / 2 ≤ j)
    (h2 : j < st.blockLoc f_hash + st.stride f_hash / 2 + n) :
    st.curDir.segment j = st.route f_hash ∧ j - j % st.stride f_hash = st.blockLoc f_hash := by
  have hx := route_index_lt st f_hash (by omega)
  have hpos : 0 < st.stride f_hash := Nat.two_pow_pos _
  have hb := (block_iff (st.stride f_hash) (topBits f_hash st.curDir.depth) j hpos).mpr
    (by rw [CCEH.blockLoc] at h1 h2; omega)
  refine ⟨((hs.consistent.blocked.same_iff _ hx j hj).mpr hb.symm).symm, ?_⟩
  have hj1 := Nat.div_add_mod j (st.stride f_hash)
  have hx1 := Nat.div_add_mod (topBits f_hash st.curDir.depth) (st.stride f_hash)
  rw [hb] at hj1
  rw [CCEH.blockLoc]
  omega

theorem HalfWritten.torn {n : ℕ} {X : CCEH} (hX : HalfWritten b st f_hash n X) (hs : AtRest st)
    (hd : st.curDir.depth ≤ 63) (hl : (st.segs (st.route f_hash)).localDepth < st.curDir.depth)
    (hn : n ≤ st.stride f_hash / 2) :
    Torn st.curDir.depth (fun p => (X.segs p).localDepth) st.curDir.segment X.curDir.segment := by
  have hx := route_index_lt st f_hash (by omega)
  obtain ⟨hstride, hpos⟩ := st.stride_half f_hash hl
  have htarget : (X.segs (st.route f_hash)).localDepth = (st.segs (st.route f_hash)).localDepth :=
    (hX.old _ hx).1
  constructor
  · intro j hj hstart
    rw [hX.entry j]
    by_cases hr : st.blockLoc f_hash + st.stride f_hash / 2 ≤ j ∧
        j < st.blockLoc f_hash + st.stride f_hash / 2 + n
    · -- a redirected entry is no block start
      obtain ⟨hseg, hloc⟩ := hX.redirected hs hd hn j hj hr.1 hr.2
      rw [hseg, htarget] at hstart
      change j % st.stride f_hash = 0 at hstart
      omega
    · rw [if_neg hr]
  · intro j hj
    rw [hX.entry j]
    by_cases hr : st.blockLoc f_hash + st.stride f_hash / 2 ≤ j ∧
        j < st.blockLoc f_hash + st.stride f_hash / 2 + n
    · right
      rw [if_pos hr, (hX.redirected hs hd hn j hj hr.1 hr.2).1, hX.new, htarget]
      omega
    · exact Or.inl (if_neg hr)

/-- Up to half of the stores the first entry of the block shows the old segment,
and `Recovery` takes the split back. -/
theorem HalfWritten.rolled_back {n : ℕ} {X : CCEH} (hX : HalfWritten b st f_hash n X)
    (hs : AtRest st) (hd : st.curDir.depth ≤ 63)
    (hl : (st.segs (st.route f_hash)).localDepth < st.curDir.depth)
    (hn : n ≤ st.stride f_hash / 2) (hlost : ¬ LostBlock b st f_hash n) :
    Shows 0 st X.recovery := by
  have hx := route_index_lt st f_hash (by omega)
  have hone : ∀ j, j / 2 ^ 0 = j := fun j => by rw [pow_zero, Nat.div_one]
  have hne : ¬ (st.segs (st.route f_hash)).localDepth = st.curDir.depth := by omega
  have htarget : (X.segs (st.route f_hash)).localDepth = (st.segs (st.route f_hash)).localDepth :=
    (hX.old _ hx).1
  apply recovery_shows (Nat.zero_le 1) hs.consistent hX.depth hX.capacity
  · simp only [hone]
    exact hX.torn hs hd hl hn
  · intro j hj hlast
    simp only [hone, LastBlock, Nat.add_zero] at hlast ⊢
    rw [hX.entry j]
    by_cases hr : st.blockLoc f_hash + st.stride f_hash / 2 ≤ j ∧
        j < st.blockLoc f_hash + st.stride f_hash / 2 + n
    · -- the block of the split is the last one
      obtain ⟨hseg, hloc⟩ := hX.redirected hs hd hn j hj hr.1 hr.2
      rw [hseg, htarget] at hlast
      change j - j % st.stride f_hash + st.stride f_hash = _ at hlast
      exfalso
      apply hlost
      rw [LostBlock, if_neg hne, hs.consistent.capacity, ← hlast, hloc]
      exact ⟨rfl, by omega, hn⟩
    · rw [if_neg hr]
  · intro i hi
    exact (hX.old i hi).2
  · intro i hi
    exact (hX.old i hi).1

/-- In the last block the redirected entries stay. -/
theorem HalfWritten.lost {n : ℕ} {X : CCEH} (hX : HalfWritten b st f_hash n X) (hs : AtRest st)
    (hd : st.curDir.depth ≤ 63) (hl : (st.segs (st.route f_hash)).localDepth < st.curDir.depth)
    (hlost : LostBlock b st f_hash n) : ¬ Consistent X.recovery := by
  have hx := route_index_lt st f_hash (by omega)
  have ht : st.route f_hash < st.nseg := (hs.rest.allocated _ hx).2
  have hne : ¬ (st.segs (st.route f_hash)).localDepth = st.curDir.depth := by omega
  rw [LostBlock, if_neg hne, hs.consistent.capacity] at hlost
  obtain ⟨hend, hn1, hn⟩ := hlost
  obtain ⟨hstride, hpos⟩ := st.stride_half f_hash hl
  have hpos' : 0 < st.stride f_hash := Nat.two_pow_pos _
  have hblocked : Blocked st.curDir.depth st.curDir.segment fun p => (X.segs p).localDepth :=
    hs.consistent.blocked.congr (fun _ _ => rfl) (fun i hi => (hX.old i hi).1)
  have hentry := recovery_entry hX.depth hX.capacity hblocked (hX.torn hs hd hl hn)
  have hloc : st.blockLoc f_hash + st.stride f_hash = 2 ^ st.curDir.depth := hend
  have hmid : st.blockLoc f_hash + st.stride f_hash / 2 < 2 ^ st.curDir.depth := by omega
  obtain ⟨hseg, hstart⟩ := hX.redirected hs hd hn _ hmid (le_refl _) (by omega)
  have htarget : (X.segs (st.route f_hash)).localDepth = (st.segs (st.route f_hash)).localDepth :=
    (hX.old _ hx).1
  -- the first entry of the block and the first redirected one
  have hfirst : X.recovery.curDir.segment (st.blockLoc f_hash) = st.route f_hash := by
    have hfree : ¬ (st.blockLoc f_hash + st.stride f_hash / 2 ≤ st.blockLoc f_hash ∧
        st.blockLoc f_hash < st.blockLoc f_hash + st.stride f_hash / 2 + n) := by omega
    have hdiv : st.blockLoc f_hash / st.stride f_hash =
        topBits f_hash st.curDir.depth / st.stride f_hash :=
      (block_iff (st.stride f_hash) _ _ hpos').mpr (by rw [CCEH.blockLoc]; omega)
    have hsame : st.curDir.segment (st.blockLoc f_hash) = st.route f_hash :=
      ((hs.consistent.blocked.same_iff _ hx _ (by omega)).mpr hdiv.symm).symm
    rw [hentry _ (by omega), hX.entry, if_neg hfree, ite_self, hsame]
  have hsecond : X.recovery.curDir.segment (st.blockLoc f_hash + st.stride f_hash / 2) =
      st.half b (st.route f_hash) true := by
    have hlast : LastBlock st.curDir.depth (fun p => (X.segs p).localDepth) st.curDir.segment
        (st.blockLoc f_hash + st.stride f_hash / 2) := by
      rw [LastBlock, hseg, htarget]
      change _ - _ % st.stride f_hash + st.stride f_hash = _
      rw [hstart, hloc]
    rw [hentry _ hmid, if_pos hlast, hX.entry, if_pos ⟨le_refl _, by omega⟩]
  intro hcons
  have hrdepth : X.recovery.curDir.depth = st.curDir.depth := by
    rw [X.recovery_curDir]
    exact hX.depth
  have hblock := hcons.blocked.same_iff (st.blockLoc f_hash) (by rw [hrdepth]; omega)
    (st.blockLoc f_hash + st.stride f_hash / 2) (by rw [hrdepth]; exact hmid)
  have hlevel : (X.recovery.segs (st.route f_hash)).localDepth =
      (st.segs (st.route f_hash)).localDepth := htarget
  rw [hfirst, hsecond, hrdepth, hlevel] at hblock
  have hdiv : st.blockLoc f_hash / st.stride f_hash =
      (st.blockLoc f_hash + st.stride f_hash / 2) / st.stride f_hash := by
    rw [block_iff (st.stride f_hash) _ _ hpos', hstart]
    omega
  have hsame := hblock.mpr hdiv
  rcases st.half_cases b (st.route f_hash) true with ⟨_, h, _⟩ | ⟨_, h⟩
  · cases h
  · omega

/-- Copy-on-write, past half of the stores: an entry that is not written yet lies
inside the lower half and still shows the old segment. -/
theorem strideSegment_behind (h x n s0 s1 : ℕ) (segment : ℕ → ℕ) (j : ℕ) (hn : h < n) :
    strideSegment .cow (2 * h) x n s0 s1 segment j =
        strideSegment .cow (2 * h) x (2 * h) s0 s1 segment j ∨
      (strideSegment .cow (2 * h) x n s0 s1 segment j = segment j ∧
        strideSegment .cow (2 * h) x (2 * h) s0 s1 segment j = s0 ∧
        x - x % (2 * h) < j ∧ j < x - x % (2 * h) + h) := by
  have hh : 2 * h / 2 = h := by omega
  have hmin : min n h = h := by omega
  have hmin' : min (2 * h) h = h := by omega
  have hmin0 : min (2 * h - h) h = h := by omega
  simp only [strideSegment, hh, hmin, hmin', hmin0, true_and]
  by_cases hu : x - x % (2 * h) + h ≤ j ∧ j < x - x % (2 * h) + h + h
  · rw [if_pos hu, if_pos hu]
    exact Or.inl rfl
  · rw [if_neg hu, if_neg hu]
    by_cases hw : x - x % (2 * h) ≤ j ∧ j < x - x % (2 * h) + min (n - h) h
    · rw [if_pos hw, if_pos (by omega)]
      exact Or.inl rfl
    · rw [if_neg hw]
      by_cases hf : x - x % (2 * h) ≤ j ∧ j < x - x % (2 * h) + h
      · rw [if_pos hf]
        exact Or.inr ⟨rfl, rfl, by omega, hf.2⟩
      · rw [if_neg hf]
        exact Or.inl rfl

theorem not_aligned_inside (h q j : ℕ) (h1 : 2 * h * q < j) (h2 : j < 2 * h * q + h) :
    j % h ≠ 0 := by
  intro hz
  obtain ⟨r, hr⟩ := Nat.dvd_of_mod_eq_zero hz
  have e1 : 2 * h * q = h * (2 * q) := by ring
  have e2 : h * (2 * q) + h = h * (2 * q + 1) := by ring
  rw [e1, hr] at h1 h2
  rw [e2] at h2
  have b1 := Nat.lt_of_mul_lt_mul_left h1
  have b2 := Nat.lt_of_mul_lt_mul_left h2
  omega

/-- Copy-on-write, past half of the stores: `Recovery` completes the split. -/
theorem Prepared.rolled_forward (hA : Prepared .cow H st (st.route f_hash) A) (hs : AtRest st)
    (hd : st.curDir.depth ≤ 63) (hl : (st.segs (st.route f_hash)).localDepth < st.curDir.depth)
    (n : ℕ) (hn : st.stride f_hash / 2 < n) :
    Shows 0 (A.stores (routeStores .cow st f_hash))
      (A.stores ((routeStores .cow st f_hash).take n)).recovery := by
  have hx := route_index_lt st f_hash (by omega)
  have hne : ¬ (st.segs (st.route f_hash)).localDepth = st.curDir.depth := by omega
  have hr : SplitResult .cow H st f_hash (st.route f_hash) (A.stores (routeStores .cow st f_hash)) :=
    hA.finish hs.consistent hs.rest (st.grownDepth_le _ hd)
  obtain ⟨hstride, hpos⟩ := st.stride_half f_hash hl
  have hgrown : st.grownDepth (st.route f_hash) = st.curDir.depth := by
    rw [CCEH.grownDepth, if_neg hne]
  have hdepth := hr.depth
  rw [hgrown] at hdepth
  have hend : st.blockLoc f_hash + st.stride f_hash ≤ 2 ^ st.curDir.depth :=
    block_end _ _ _ (by omega) hx
  have hcrash := hA.crash_stride hl n (Or.inl rfl)
  have hfull := stores_split_stride .cow A st.curDir st.ndir f_hash _
    (st.half .cow (st.route f_hash) false) (st.half .cow (st.route f_hash) true) hl
  change A.stores (routeStores .cow st f_hash) = A.setDir A.dir _ at hfull
  generalize A.stores ((routeStores .cow st f_hash).take n) = X at hcrash ⊢
  generalize A.stores (routeStores .cow st f_hash) = F at hr hdepth hfull ⊢
  have hsegs : X.segs = F.segs := by
    rw [hcrash, hfull]
    rfl
  have hXcur : X.curDir = { A.curDir with
      segment := strideSegment .cow (st.stride f_hash) (topBits f_hash st.curDir.depth) n
        (st.half .cow (st.route f_hash) false) (st.half .cow (st.route f_hash) true)
        st.curDir.segment } := by
    rw [hcrash]
    exact CCEH.setDir_curDir ..
  have hFcur : F.curDir = { A.curDir with
      segment := strideSegment .cow (st.stride f_hash) (topBits f_hash st.curDir.depth)
        (st.stride f_hash) (st.half .cow (st.route f_hash) false)
        (st.half .cow (st.route f_hash) true) A.curDir.segment } := by
    rw [hfull]
    exact CCEH.setDir_curDir ..
  have hone : ∀ j, j / 2 ^ 0 = j := fun j => by rw [pow_zero, Nat.div_one]
  have hlevel0 : (X.segs (st.half .cow (st.route f_hash) false)).localDepth =
      (st.segs (st.route f_hash)).localDepth + 1 := by
    rw [hsegs]
    exact (hr.half_level false).1
  have htarget : (X.segs (st.route f_hash)).localDepth = (st.segs (st.route f_hash)).localDepth := by
    rw [hcrash]
    exact (hA.level _ (hs.rest.allocated _ hx).2).1
  have hsize : 2 ^ (st.curDir.depth - (X.segs (st.half .cow (st.route f_hash) false)).localDepth) =
      st.stride f_hash / 2 := by
    rw [hlevel0]
    omega
  have hloc : st.blockLoc f_hash =
      2 * (st.stride f_hash / 2) * (topBits f_hash st.curDir.depth / st.stride f_hash) := by
    have hm := Nat.div_add_mod (topBits f_hash st.curDir.depth) (st.stride f_hash)
    have he : 2 * (st.stride f_hash / 2) = st.stride f_hash := by omega
    rw [he, CCEH.blockLoc]
    omega
  have hdiff : ∀ j < 2 ^ st.curDir.depth, X.curDir.segment j = F.curDir.segment j ∨
      (X.curDir.segment j = st.route f_hash ∧
        F.curDir.segment j = st.half .cow (st.route f_hash) false ∧
        st.blockLoc f_hash < j ∧ j < st.blockLoc f_hash + st.stride f_hash / 2) := by
    intro j hj
    have he : st.stride f_hash = 2 * (st.stride f_hash / 2) := by omega
    rw [hXcur, hFcur, hA.segment]
    dsimp only
    have hb := strideSegment_behind (st.stride f_hash / 2) (topBits f_hash st.curDir.depth) n
      (st.half .cow (st.route f_hash) false) (st.half .cow (st.route f_hash) true)
      st.curDir.segment j hn
    rw [← he] at hb
    rcases hb with hb | ⟨h1, h2, h3, h4⟩
    · exact Or.inl hb
    · refine Or.inr ⟨?_, h2, h3, h4⟩
      have hdiv : j / st.stride f_hash = topBits f_hash st.curDir.depth / st.stride f_hash :=
        (block_iff (st.stride f_hash) _ _ (Nat.two_pow_pos _)).mpr (by omega)
      rw [h1]
      exact ((hs.consistent.blocked.same_iff _ hx j hj).mpr hdiv.symm).symm
  apply recovery_shows (Nat.zero_le 1) (hr.atRest hs (hr.depth_le hd)).consistent
  · rw [hXcur, hFcur]
    rfl
  · rw [Nat.add_zero, ← hr.capacity, hXcur, hFcur]
  · simp only [hone, hdepth, Nat.add_zero]
    constructor
    · intro j hj hstart
      rcases hdiff j hj with he | ⟨_, hF, h3, h4⟩
      · exact he
      · rw [hF, hsize] at hstart
        rw [hloc] at h3 h4
        exact absurd hstart (not_aligned_inside _ _ _ h3 h4)
    · intro j hj
      rcases hdiff j hj with he | ⟨hX, hF, _, _⟩
      · exact Or.inl he
      · right
        rw [hX, hF, hlevel0, htarget]
        omega
  · intro j hj hlast
    simp only [hone, hdepth, Nat.add_zero, LastBlock] at hj hlast ⊢
    rcases hdiff j hj with he | ⟨_, hF, h3, h4⟩
    · exact he
    · rw [hF, hsize] at hlast
      omega
  · intro i _
    rw [hsegs]
  · intro i _
    rw [hsegs]

/-- After the last store the directory is the one of the finished split. -/
theorem Prepared.completed (hA : Prepared b H st (st.route f_hash) A) (hs : AtRest st)
    (hd : st.curDir.depth ≤ 63) :
    Shows 0 (releaseSplit b (A.stores (routeStores b st f_hash))
      (st.half b (st.route f_hash) false)) (A.stores (routeStores b st f_hash)).recovery := by
  have hr : SplitResult b H st f_hash (st.route f_hash) (releaseSplit b
      (A.stores (routeStores b st f_hash)) (st.half b (st.route f_hash) false)) :=
    hA.finish hs.consistent hs.rest (st.grownDepth_le _ hd)
  have hc := (hr.atRest hs (hr.depth_le hd)).consistent
  generalize A.stores (routeStores b st f_hash) = X at hr hc ⊢
  generalize st.half b (st.route f_hash) false = s0 at hr hc ⊢
  have hsame : (releaseSplit b X s0).curDir = X.curDir ∧ ∀ p,
      ((releaseSplit b X s0).segs p).bucket = (X.segs p).bucket ∧
      ((releaseSplit b X s0).segs p).localDepth = (X.segs p).localDepth := by
    cases b with
    | cow => exact ⟨rfl, fun _ => ⟨rfl, rfl⟩⟩
    | inplace =>
      refine ⟨rfl, fun p => ?_⟩
      simp only [releaseSplit, CCEH.setSema]
      by_cases hp : p = s0
      · rw [hp, CCEH.setSeg_segs_self]
        exact ⟨rfl, rfl⟩
      · rw [CCEH.setSeg_segs_of_ne _ _ _ _ hp]
        exact ⟨rfl, rfl⟩
  obtain ⟨hcur, hsegs⟩ := hsame
  have hX : Consistent X := by
    have hcap := hc.capacity
    have hblocked := hc.blocked
    rw [hcur] at hcap hblocked
    exact ⟨hcap, hblocked.congr (fun _ _ => rfl) (fun i _ => (hsegs _).2.symm)⟩
  rw [hX.recovery_eq]
  refine ⟨?_, ?_, ?_, ?_, ?_⟩
  · rw [hcur]
    rfl
  · rw [hcur]
    exact hX.capacity
  · intro i _
    rw [hcur, pow_zero, Nat.div_one]
  · intro i _
    exact (hsegs _).1.symm
  · intro i _
    exact (hsegs _).2.symm

/-- Before the new directory is published the old one is in place. -/
theorem Prepared.unpublished (hA : Prepared b H st (st.route f_hash) A) (hs : AtRest st)
    (hl : (st.segs (st.route f_hash)).localDepth = st.curDir.depth) (n : ℕ)
    (hn : n ≤ 2 * st.curDir.capacity) :
    Shows 0 st (A.stores ((routeStores b st f_hash).take n)).recovery := by
  obtain ⟨hsegs, hcur⟩ := hA.crash_double_before hl n hn hs.rest.dir_lt
  generalize A.stores ((routeStores b st f_hash).take n) = X at hsegs hcur ⊢
  have hone : ∀ j, j / 2 ^ 0 = j := fun j => by rw [pow_zero, Nat.div_one]
  apply recovery_shows (Nat.zero_le 1) hs.consistent
  · rw [hcur]
    exact hA.depth
  · rw [hcur]
    exact hA.capacity.trans hs.consistent.capacity
  · simp only [hone]
    rw [hcur, hA.segment]
    exact Torn.refl _ _ _
  · intro j _ _
    rw [hcur, hA.segment, hone]
  · intro i hi
    rw [hsegs]
    exact (hA.level _ (hs.rest.allocated i hi).2).2
  · intro i hi
    rw [hsegs]
    exact (hA.level _ (hs.rest.allocated i hi).2).1

/-- In place, the doubled directory is published while `local_depth` is the old one. -/
structure Published (st : CCEH) (f_hash : BitVec 64) (X : CCEH) : Prop where
  depth : X.curDir.depth = st.curDir.depth + 1
  capacity : X.curDir.capacity = 2 ^ (st.curDir.depth + 1)
  entry : ∀ j < 2 ^ (st.curDir.depth + 1), X.curDir.segment j =
    if j = 2 * topBits f_hash st.curDir.depth + 1 then st.nseg else st.curDir.segment (j / 2)
  old : ∀ i < 2 ^ st.curDir.depth,
    (X.segs (st.curDir.segment i)).localDepth = (st.segs (st.curDir.segment i)).localDepth ∧
    (X.segs (st.curDir.segment i)).bucket = (st.segs (st.curDir.segment i)).bucket
  new : (X.segs st.nseg).localDepth = st.curDir.depth + 1

theorem Prepared.published (hA : Prepared .inplace H st (st.route f_hash) A) (hs : AtRest st)
    (hl : (st.segs (st.route f_hash)).localDepth = st.curDir.depth) :
    Published st f_hash
      (A.stores ((routeStores .inplace st f_hash).take (2 * st.curDir.capacity + 1))) := by
  have hcrash := crash_double_published (b := .inplace) A hl
  obtain ⟨_, hdepth, hcap, _⟩ := hA.next hl
  generalize A.stores ((routeStores .inplace st f_hash).take (2 * st.curDir.capacity + 1)) = X
    at hcrash ⊢
  have hXcur : X.curDir = doubledDirectory st.curDir (A.dirs st.ndir)
      (topBits f_hash st.curDir.depth) (st.route f_hash) st.nseg := by
    rw [hcrash]
    exact CCEH.setDir_dirs_self ..
  have hXsegs : X.segs = A.segs := by
    rw [hcrash]
    rfl
  refine ⟨?_, ?_, ?_, ?_, ?_⟩
  · rw [hXcur]
    exact hdepth
  · rw [hXcur]
    exact hcap
  · intro j hj
    rw [pow_succ'] at hj
    rw [hXcur, doubledDirectory, hs.consistent.capacity]
    dsimp only
    rw [if_pos hj, doubledSegment]
    by_cases hx : j / 2 = topBits f_hash st.curDir.depth
    · rw [if_pos hx, hx]
      by_cases hz : j % 2 = 0
      · rw [if_pos hz, if_neg (by omega)]
        rfl
      · rw [if_neg hz, if_pos (by omega)]
    · rw [if_neg hx, if_neg (by omega)]
  · intro i hi
    rw [hXsegs]
    exact hA.level _ (hs.rest.allocated i hi).2
  · rw [hXsegs]
    have hup := hA.upper_level
    rw [hl] at hup
    exact hup

theorem Published.torn {X : CCEH} (hX : Published st f_hash X) (hd : st.curDir.depth ≤ 63)
    (hl : (st.segs (st.route f_hash)).localDepth = st.curDir.depth) :
    Torn (st.curDir.depth + 1) (fun p => (X.segs p).localDepth)
      (fun i => st.curDir.segment (i / 2)) X.curDir.segment := by
  have hx := route_index_lt st f_hash (by omega)
  have htarget : (X.segs (st.route f_hash)).localDepth = st.curDir.depth := (hX.old _ hx).1.trans hl
  have hodd : (2 * topBits f_hash st.curDir.depth + 1) / 2 = topBits f_hash st.curDir.depth := by
    omega
  constructor
  · intro j hj hstart
    rw [hX.entry j hj]
    by_cases hr : j = 2 * topBits f_hash st.curDir.depth + 1
    · have he : st.curDir.depth + 1 - st.curDir.depth = 1 := by omega
      rw [hr, hodd] at hstart
      change _ % 2 ^ (_ - (X.segs (st.route f_hash)).localDepth) = 0 at hstart
      rw [htarget, he] at hstart
      omega
    · rw [if_neg hr]
  · intro j hj
    rw [hX.entry j hj]
    by_cases hr : j = 2 * topBits f_hash st.curDir.depth + 1
    · right
      rw [if_pos hr, hr, hodd, hX.new]
      change _ ≠ (X.segs (st.route f_hash)).localDepth
      omega
    · exact Or.inl (if_neg hr)

/-- Whether the pair of the split segment is the last one of the directory. -/
theorem Published.last_iff {X : CCEH} (hX : Published st f_hash X) (hd : st.curDir.depth ≤ 63)
    (hl : (st.segs (st.route f_hash)).localDepth = st.curDir.depth) :
    LastBlock (st.curDir.depth + 1) (fun p => (X.segs p).localDepth)
      (fun i => st.curDir.segment (i / 2)) (2 * topBits f_hash st.curDir.depth + 1) ↔
      topBits f_hash st.curDir.depth + 1 = 2 ^ st.curDir.depth := by
  have hx := route_index_lt st f_hash (by omega)
  have htarget : (X.segs (st.route f_hash)).localDepth = st.curDir.depth := (hX.old _ hx).1.trans hl
  have hodd : (2 * topBits f_hash st.curDir.depth + 1) / 2 = topBits f_hash st.curDir.depth := by
    omega
  have he : st.curDir.depth + 1 - st.curDir.depth = 1 := by omega
  rw [LastBlock, hodd]
  change _ - _ % 2 ^ (_ - (X.segs (st.route f_hash)).localDepth) +
    2 ^ (_ - (X.segs (st.route f_hash)).localDepth) = _ ↔ _
  rw [htarget, he, pow_succ]
  omega

theorem Published.rolled_back {X : CCEH} (hX : Published st f_hash X) (hs : AtRest st)
    (hd : st.curDir.depth ≤ 63) (hl : (st.segs (st.route f_hash)).localDepth = st.curDir.depth)
    (hlast : topBits f_hash st.curDir.depth + 1 ≠ 2 ^ st.curDir.depth) :
    Shows 1 st X.recovery := by
  have htwo : ∀ j, j / 2 ^ 1 = j / 2 := fun j => by rw [pow_one]
  apply recovery_shows (le_refl 1) hs.consistent hX.depth hX.capacity
  · simp only [htwo]
    exact hX.torn hd hl
  · intro j hj hlb
    simp only [htwo] at hlb ⊢
    rw [hX.entry j hj]
    by_cases hr : j = 2 * topBits f_hash st.curDir.depth + 1
    · rw [hr] at hlb
      exact absurd ((hX.last_iff hd hl).mp hlb) hlast
    · rw [if_neg hr]
  · intro i hi
    exact (hX.old i hi).2
  · intro i hi
    exact (hX.old i hi).1

theorem Published.lost {X : CCEH} (hX : Published st f_hash X) (hs : AtRest st)
    (hd : st.curDir.depth ≤ 63) (hl : (st.segs (st.route f_hash)).localDepth = st.curDir.depth)
    (hlast : topBits f_hash st.curDir.depth + 1 = 2 ^ st.curDir.depth) :
    ¬ Consistent X.recovery := by
  have hx := route_index_lt st f_hash (by omega)
  have ht : st.route f_hash < st.nseg := (hs.rest.allocated _ hx).2
  have hpow : 2 ^ (st.curDir.depth + 1) = 2 * 2 ^ st.curDir.depth := pow_succ' ..
  have hodd : (2 * topBits f_hash st.curDir.depth + 1) / 2 = topBits f_hash st.curDir.depth := by
    omega
  have heven : 2 * topBits f_hash st.curDir.depth / 2 = topBits f_hash st.curDir.depth := by omega
  have hblocked : Blocked (st.curDir.depth + 1) (fun i => st.curDir.segment (i / 2))
      fun p => (X.segs p).localDepth := by
    have hw := hs.consistent.widened 1 (le_refl 1)
    simp only [pow_one] at hw
    refine hw.congr (fun _ _ => rfl) fun i hi => ?_
    exact (hX.old _ (half_lt _ i hi)).1
  have hentry := recovery_entry hX.depth hX.capacity hblocked (hX.torn hd hl)
  have hfirst : X.recovery.curDir.segment (2 * topBits f_hash st.curDir.depth) =
      st.route f_hash := by
    have hne : ¬ 2 * topBits f_hash st.curDir.depth = 2 * topBits f_hash st.curDir.depth + 1 := by
      omega
    rw [hentry _ (by omega), hX.entry _ (by omega), if_neg hne, ite_self, heven]
    rfl
  have hsecond : X.recovery.curDir.segment (2 * topBits f_hash st.curDir.depth + 1) = st.nseg := by
    rw [hentry _ (by omega), if_pos ((hX.last_iff hd hl).mpr hlast), hX.entry _ (by omega),
      if_pos rfl]
  intro hcons
  have hrdepth : X.recovery.curDir.depth = st.curDir.depth + 1 := by
    rw [X.recovery_curDir]
    exact hX.depth
  have hlevel : (X.recovery.segs (st.route f_hash)).localDepth = st.curDir.depth :=
    (hX.old _ hx).1.trans hl
  have hblock := hcons.blocked.same_iff (2 * topBits f_hash st.curDir.depth)
    (by rw [hrdepth]; omega) (2 * topBits f_hash st.curDir.depth + 1) (by rw [hrdepth]; omega)
  have he : st.curDir.depth + 1 - st.curDir.depth = 1 := by omega
  rw [hfirst, hsecond, hrdepth, hlevel, he, pow_one, heven, hodd] at hblock
  have hsame := hblock.mpr rfl
  omega

end Crash

end PmemStudy.Cceh
