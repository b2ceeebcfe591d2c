import PmemStudy.Cceh.Copy
import PmemStudy.Cceh.Stores

/-!
# Passes of `insert` between calls

Between two passes of one thread no semaphore is held. From such a state a
pass either stores the pair in the segment its hash routes to, or splits that
segment; `SplitResult` is all that the rest of the development uses about a split.
-/

namespace PmemStudy.Cceh
open PmemStudy.AlignedBlocks PmemStudy.FirstFit PmemStudy.Loop

/-- The directory has `2^depth` entries and every segment fills one aligned
block of it. -/
structure Consistent (st : CCEH) : Prop where
  capacity : st.curDir.capacity = 2 ^ st.curDir.depth
  blocked : Blocked st.curDir.depth st.curDir.segment fun p => (st.segs p).localDepth

/-- No semaphore is held and every entry is an allocated segment. -/
structure Rest (st : CCEH) : Prop where
  dir_sema : st.curDir.sema = 0
  seg_sema : ∀ i < 2 ^ st.curDir.depth, (st.segs (st.curDir.segment i)).sema = 0
  allocated : ∀ i < 2 ^ st.curDir.depth,
    st.curDir.segment i ≠ OID_NULL ∧ st.curDir.segment i < st.nseg
  dir_lt : st.dir < st.ndir

namespace CCEH

/-- `s[0]` and `s[1]` of a split of `target`. -/
def half (b : Build) (st : CCEH) (target : ℕ) : Bool → ℕ
  | false => match b with
    | .cow => st.nseg
    | .inplace => target
  | true => match b with
    | .cow => st.nseg + 1
    | .inplace => st.nseg

/-- Depth and entries of the directory that the halves are entered into. -/
def grownDepth (st : CCEH) (target : ℕ) : ℕ :=
  if (st.segs target).localDepth = st.curDir.depth then st.curDir.depth + 1 else st.curDir.depth

def grownSegment (st : CCEH) (target : ℕ) : ℕ → ℕ :=
  if (st.segs target).localDepth = st.curDir.depth then widen st.curDir.segment
  else st.curDir.segment

theorem grownDepth_bounds (st : CCEH) (target : ℕ) :
    st.curDir.depth ≤ st.grownDepth target ∧ st.grownDepth target ≤ st.curDir.depth + 1 := by
  unfold grownDepth
  split <;> omega

theorem grownDepth_le (st : CCEH) (target : ℕ) (hd : st.curDir.depth ≤ 63) :
    st.grownDepth target ≤ 64 := by
  have := (st.grownDepth_bounds target).2
  omega

end CCEH

/-- One finished half of `split`, with the placement that produced it. -/
structure CopiedHalf (b : Build) (H : HashFuncs) (src : Segment) (bit : Bool) (dst : Segment) :
    Prop where
  localDepth : dst.localDepth = src.localDepth + 1
  sema : dst.sema = 0
  placement : ∃ pos, Placement (fun p => candidates b H (src.bucket p).key)
    (src.Moves H bit) pos ∧ src.Holds dst pos

theorem CopiedHalf.copyOf {b : Build} {H : HashFuncs} {src : Segment} {bit : Bool} {dst : Segment}
    (h : CopiedHalf b H src bit dst) : src.CopyOf H bit dst := by
  obtain ⟨pos, hp, hh⟩ := h.placement
  exact Segment.copyOf_of_placement b H src dst bit pos hp hh h.localDepth h.sema

/-- A live pair is in the copy when the segment fits. -/
theorem CopiedHalf.live_copied {b : Build} {H : HashFuncs} {src : Segment} {bit : Bool}
    {dst : Segment} (h : CopiedHalf b H src bit dst) (hc : Segment.Copies b bit) (pattern : ℕ)
    (hf : src.SplitFits b H pattern) (i : Slot) (hl : src.Live H pattern i)
    (hm : src.Moves H bit i) : ∃ c, dst.bucket c = src.bucket i := by
  obtain ⟨pos, hp, hh⟩ := h.placement
  obtain ⟨pos', hp', hlive⟩ := hf bit hc
  have he : pos = pos' := hp.unique hp'
  subst pos'
  obtain ⟨c, hi⟩ := Option.ne_none_iff_exists'.mp (hlive i hl hm)
  exact ⟨c, hh.placed i c hi⟩

/-- What one split of `target` does to the pool. -/
structure SplitResult (b : Build) (H : HashFuncs) (st : CCEH) (f_hash : BitVec 64)
    (target : ℕ) (st' : CCEH) : Prop where
  depth : st'.curDir.depth = st.grownDepth target
  capacity : st'.curDir.capacity = 2 ^ st'.curDir.depth
  dir_sema : st'.curDir.sema = 0
  dir_lt : st'.dir < st'.ndir
  segment : ∀ i < 2 ^ st.grownDepth target, st'.curDir.segment i =
    splitBlock (st.grownDepth target) (st.segs target).localDepth
      (topBits f_hash (st.grownDepth target)) (st.half b target false) (st.half b target true)
      (st.grownSegment target) i
  copied : ∀ bit, Segment.Copies b bit →
    CopiedHalf b H (st.segs target) bit (st'.segs (st.half b target bit))
  kept : b = .inplace → st'.segs target =
    { st.segs target with sema := 0, localDepth := (st.segs target).localDepth + 1 }
  other : ∀ p < st.nseg, p ≠ target → st'.segs p = st.segs p
  nseg : st'.nseg = match b with
    | .cow => st.nseg + 2
    | .inplace => st.nseg + 1

/-! ### The halves -/

theorem split_halves (b : Build) (H : HashFuncs) (src raw0 raw1 : Segment) :
    (∀ bit, Segment.Copies b bit → CopiedHalf b H src bit
      (match bit with
        | false => (src.split b H raw0 raw1).1
        | true => (src.split b H raw0 raw1).2)) ∧
    (b = .inplace → (src.split b H raw0 raw1).1 = src) := by
  have half : ∀ (raw : Segment) (bit : Bool), CopiedHalf b H src bit
      (Nat.fold kNumSlot (fun i hi dst => Segment.copyHalf b H src bit ⟨i, hi⟩ dst)
        (raw.initSegment (src.localDepth + 1))) := by
    intro raw bit
    have hs := Segment.copyHalf_fold_shape b H src raw bit (src.localDepth + 1)
    exact ⟨hs.1, hs.2, Segment.copyHalf_fold b H src raw bit (src.localDepth + 1)⟩
  cases b with
  | cow =>
    refine ⟨?_, by intro h; cases h⟩
    intro bit _
    rw [Segment.split_cow]
    cases bit with
    | false => exact half raw0 false
    | true => exact half raw1 true
  | inplace =>
    rw [Segment.split_inplace]
    refine ⟨?_, fun _ => rfl⟩
    intro bit hbit
    cases hbit
    exact half raw1 true

theorem CopiedHalf.withSema {b : Build} {H : HashFuncs} {src : Segment} {bit : Bool}
    {dst : Segment} (v : ℤ) (h : CopiedHalf b H (src.withSema v) bit dst) :
    CopiedHalf b H src bit dst := ⟨h.localDepth, h.sema, by
  obtain ⟨pos, hp, hh⟩ := h.placement
  exact ⟨pos, hp, ⟨hh.placed, hh.free⟩⟩⟩

/-- `allocSplit` leaves the directory and every older segment alone. -/
structure Allocated (b : Build) (H : HashFuncs) (st : CCEH) (target : ℕ) (a : CCEH) : Prop where
  dirs : a.dirs = st.dirs
  ndir : a.ndir = st.ndir
  dir : a.dir = st.dir
  nseg : a.nseg = match b with
    | .cow => st.nseg + 2
    | .inplace => st.nseg + 1
  older : ∀ p < st.nseg, a.segs p = st.segs p
  copied : ∀ bit, Segment.Copies b bit →
    CopiedHalf b H (st.segs target) bit (a.segs (st.half b target bit))

theorem allocSplit_spec (b : Build) (H : HashFuncs) (st : CCEH) (target : ℕ) :
    (allocSplit b H st target).2 = (st.half b target false, st.half b target true) ∧
      Allocated b H st target (allocSplit b H st target).1 := by
  cases b with
  | cow =>
    have hs := (split_halves .cow H (st.segs target) (st.segs st.nseg) (st.segs (st.nseg + 1))).1
    refine ⟨rfl, rfl, rfl, rfl, rfl, ?_, ?_⟩
    · intro p hp
      have h1 : p ≠ st.nseg := by omega
      have h2 : p ≠ st.nseg + 1 := by omega
      simp only [allocSplit, CCEH.setSeg, Function.update_of_ne h2, Function.update_of_ne h1]
    · intro bit hbit
      have h1 : st.nseg ≠ st.nseg + 1 := by omega
      cases bit with
      | false =>
        simpa only [allocSplit, CCEH.half, CCEH.setSeg, Function.update_of_ne h1,
          Function.update_self] using hs false hbit
      | true =>
        simpa only [allocSplit, CCEH.half, CCEH.setSeg, Function.update_self] using hs true hbit
  | inplace =>
    have hs := (split_halves .inplace H (st.segs target) (st.segs target) (st.segs st.nseg)).1
    refine ⟨rfl, rfl, rfl, rfl, rfl, ?_, ?_⟩
    · intro p hp
      have h1 : p ≠ st.nseg := by omega
      simp only [allocSplit, CCEH.setSeg, Function.update_of_ne h1]
    · intro bit hbit
      cases hbit
      simpa only [allocSplit, CCEH.half, CCEH.setSeg, Function.update_self] using hs true rfl

theorem finish_split (b : Build) (st : CCEH) (s0 : ℕ) :
    (releaseSplit b (bumpDepth b st s0) s0).dirs = st.dirs ∧
    (releaseSplit b (bumpDepth b st s0) s0).dir = st.dir ∧
    (releaseSplit b (bumpDepth b st s0) s0).ndir = st.ndir ∧
    (releaseSplit b (bumpDepth b st s0) s0).nseg = st.nseg ∧
    (releaseSplit b (bumpDepth b st s0) s0).segs = match b with
      | .cow => st.segs
      | .inplace => Function.update st.segs s0
        { st.segs s0 with sema := 0, localDepth := (st.segs s0).localDepth + 1 } := by
  cases b with
  | cow => exact ⟨rfl, rfl, rfl, rfl, rfl⟩
  | inplace =>
    refine ⟨rfl, rfl, rfl, rfl, ?_⟩
    simp only [releaseSplit, bumpDepth, CCEH.setSema, CCEH.store, CCEH.setSeg, Function.update_self,
      Function.update_idem]
    rfl

/-! ### A split from a state at rest -/

theorem topBits_half (f_hash : BitVec 64) (d : ℕ) (hd : d ≤ 63) :
    topBits f_hash (d + 1) / 2 = topBits f_hash d := by
  have h := topBits_coarser f_hash d (d + 1) (Nat.le_succ d) (by omega)
  have he : d + 1 - d = 1 := by omega
  rw [he, pow_one] at h
  exact h

theorem route_index_lt (st : CCEH) (f_hash : BitVec 64) (hd : st.curDir.depth ≤ 64) :
    topBits f_hash st.curDir.depth < 2 ^ st.curDir.depth := topBits_lt f_hash _ hd

/-- The pool before the directory stores: the segment is suspended, its halves
are written, and a directory to double has its successor allocated. -/
structure Prepared (b : Build) (H : HashFuncs) (st : CCEH) (target : ℕ) (A : CCEH) : Prop where
  dir : A.dir = st.dir
  segment : A.curDir.segment = st.curDir.segment
  depth : A.curDir.depth = st.curDir.depth
  capacity : A.curDir.capacity = st.curDir.capacity
  sema : (st.segs target).localDepth ≠ st.curDir.depth → A.curDir.sema = 0
  next : (st.segs target).localDepth = st.curDir.depth → A.ndir = st.ndir + 1 ∧
    (A.dirs st.ndir).depth = st.curDir.depth + 1 ∧
    (A.dirs st.ndir).capacity = 2 ^ (st.curDir.depth + 1) ∧ (A.dirs st.ndir).sema = 0
  dir_lt : A.dir < A.ndir
  nseg : A.nseg = match b with
    | .cow => st.nseg + 2
    | .inplace => st.nseg + 1
  suspended : A.segs target = (st.segs target).withSema (-1)
  other : ∀ p < st.nseg, p ≠ target → A.segs p = st.segs p
  copied : ∀ bit, Segment.Copies b bit →
    CopiedHalf b H (st.segs target) bit (A.segs (st.half b target bit))

theorem beforeStores_rest (b : Build) (H : HashFuncs) (st : CCEH) (f_hash : BitVec 64)
    (hr : Rest st) (hd : st.curDir.depth ≤ 64) :
    ∃ A, beforeStores b H (st.setSema (st.route f_hash) (-1)) f_hash (st.route f_hash) =
        some (A, splitStores b st.curDir st.ndir f_hash (st.segs (st.route f_hash)).localDepth
          (st.half b (st.route f_hash) false) (st.half b (st.route f_hash) true),
          st.half b (st.route f_hash) false) ∧
      Prepared b H st (st.route f_hash) A := by
  have hx := route_index_lt st f_hash hd
  have ht : st.route f_hash < st.nseg := (hr.allocated _ hx).2
  have hdir := hr.dir_lt
  obtain ⟨hptr, ha⟩ := allocSplit_spec b H (st.setSema (st.route f_hash) (-1)) (st.route f_hash)
  have hcur : (allocSplit b H (st.setSema (st.route f_hash) (-1)) (st.route f_hash)).1.curDir =
      st.curDir := by
    rw [CCEH.curDir, ha.dirs, ha.dir]
    rfl
  have hsame : ((st.setSema (st.route f_hash) (-1)).segs (st.route f_hash)) =
      (st.segs (st.route f_hash)).withSema (-1) := CCEH.setSeg_segs_self ..
  generalize hadef : allocSplit b H (st.setSema (st.route f_hash) (-1)) (st.route f_hash) = a at *
  obtain ⟨a, s0, s1⟩ := a
  obtain ⟨hs0, hs1⟩ := Prod.mk.inj hptr
  dsimp only at ha hcur
  have hs0' : s0 = st.half b (st.route f_hash) false := hs0
  have hs1' : s1 = st.half b (st.route f_hash) true := hs1
  have htarget : a.segs (st.route f_hash) = (st.segs (st.route f_hash)).withSema (-1) := by
    rw [ha.older (st.route f_hash) ht, hsame]
  have hld : (a.segs (st.route f_hash)).localDepth = (st.segs (st.route f_hash)).localDepth := by
    rw [htarget]
    rfl
  have hother : ∀ p < st.nseg, p ≠ st.route f_hash → a.segs p = st.segs p := by
    intro p hp hne
    rw [ha.older p hp]
    exact CCEH.setSeg_segs_of_ne _ _ _ _ hne
  have hcopied : ∀ bit, Segment.Copies b bit →
      CopiedHalf b H (st.segs (st.route f_hash)) bit (a.segs (st.half b (st.route f_hash) bit)) := by
    intro bit hbit
    have hc := ha.copied bit hbit
    rw [hsame] at hc
    exact hc.withSema (-1)
  have hndir : a.ndir = st.ndir := ha.ndir
  have hadir : a.dir = st.dir := ha.dir
  by_cases hl : (st.segs (st.route f_hash)).localDepth = st.curDir.depth
  · -- the directory is doubled
    have hacq : suspendAlone st.curDir.sema = .acquired := by
      rw [hr.dir_sema]
      rfl
    let P : CCEH := a.setDir a.dir { st.curDir with sema := -1 }
    let A : CCEH := { P.setDir a.ndir ((P.dirs a.ndir).initDirectory (st.curDir.depth + 1)) with
      ndir := a.ndir + 1 }
    have hne : a.dir ≠ a.ndir := by omega
    have hAcur : A.curDir = { st.curDir with sema := -1 } := by
      change Function.update (Function.update a.dirs a.dir _) a.ndir _ a.dir = _
      rw [Function.update_of_ne hne, Function.update_self]
    have hAnext : A.dirs st.ndir = (P.dirs a.ndir).initDirectory (st.curDir.depth + 1) := by
      rw [← hndir]
      exact CCEH.setDir_dirs_self ..
    refine ⟨A, ?_, hadir, ?_, ?_, ?_, fun hn => absurd hl hn, fun _ => ⟨?_, ?_, ?_, ?_⟩, ?_,
      ha.nseg, htarget, hother, hcopied⟩
    · simp only [beforeStores, hadef, hcur, hld, hl, if_true, hacq, hndir, hs0', hs1']
      rfl
    · rw [hAcur]
    · rw [hAcur]
    · rw [hAcur]
    · exact congrArg (· + 1) hndir
    · rw [hAnext]
      rfl
    · rw [hAnext]
      rfl
    · rw [hAnext]
      rfl
    · change a.dir < a.ndir + 1
      omega
  · -- the block of the target is rewritten
    have hn : ¬ st.curDir.sema < 0 := by
      rw [hr.dir_sema]
      omega
    refine ⟨a, ?_, hadir, ?_, ?_, ?_, ?_, fun hx => absurd hx hl, by omega, ha.nseg, htarget,
      hother, hcopied⟩
    · simp only [beforeStores, hadef, hcur, hld, if_neg hl, if_neg hn, hndir, hs0', hs1']
    · rw [hcur]
    · rw [hcur]
    · rw [hcur]
    · intro _
      rw [hcur]
      exact hr.dir_sema

/-- The segments after the stores, given that these leave the segments alone. -/
theorem Prepared.finish_segs {b : Build} {H : HashFuncs} {st A S : CCEH} {target : ℕ}
    (hA : Prepared b H st target A) (ht : target < st.nseg) (hS : S.segs = A.segs) (st' : CCEH)
    (hst' : st' = releaseSplit b (bumpDepth b S (st.half b target false)) (st.half b target false)) :
    (∀ bit, Segment.Copies b bit →
      CopiedHalf b H (st.segs target) bit (st'.segs (st.half b target bit))) ∧
    (b = .inplace → st'.segs target =
      { st.segs target with sema := 0, localDepth := (st.segs target).localDepth + 1 }) ∧
    (∀ p < st.nseg, p ≠ target → st'.segs p = st.segs p) := by
  have hsegs := (finish_split b S (st.half b target false)).2.2.2.2
  rw [← hst', hS] at hsegs
  cases b with
  | cow =>
    rw [hsegs]
    exact ⟨hA.copied, (by intro h; cases h), hA.other⟩
  | inplace =>
    rw [hsegs]
    simp only [CCEH.half]
    refine ⟨?_, ?_, ?_⟩
    · intro bit hbit
      cases hbit
      have hne : st.nseg ≠ target := by omega
      rw [Function.update_of_ne hne]
      exact hA.copied true rfl
    · intro _
      rw [Function.update_self, hA.suspended]
      rfl
    · intro p hp hne
      rw [Function.update_of_ne hne]
      exact hA.other p hp hne

/-- All directory stores of the split, and the release of its segment. -/
theorem Prepared.finish {b : Build} {H : HashFuncs} {st A : CCEH} {f_hash : BitVec 64}
    (hA : Prepared b H st (st.route f_hash) A) (hc : Consistent st) (hr : Rest st)
    (hd : st.grownDepth (st.route f_hash) ≤ 64) :
    SplitResult b H st f_hash (st.route f_hash) (releaseSplit b (A.stores (splitStores b st.curDir
      st.ndir f_hash (st.segs (st.route f_hash)).localDepth (st.half b (st.route f_hash) false)
      (st.half b (st.route f_hash) true))) (st.half b (st.route f_hash) false)) := by
  have hx := route_index_lt st f_hash ((st.grownDepth_bounds _).1.trans hd)
  have ht : st.route f_hash < st.nseg := (hr.allocated _ hx).2
  have hle : (st.segs (st.route f_hash)).localDepth ≤ st.curDir.depth := hc.blocked.level_le _ hx
  by_cases hl : (st.segs (st.route f_hash)).localDepth = st.curDir.depth
  · have hgrown : st.grownDepth (st.route f_hash) = st.curDir.depth + 1 := by
      simp only [CCEH.grownDepth, if_pos hl]
    have hgseg : st.grownSegment (st.route f_hash) = widen st.curDir.segment := by
      simp only [CCEH.grownSegment, if_pos hl]
    obtain ⟨hndir, hdepth, hcap, hsema⟩ := hA.next hl
    rw [hl, stores_split_double]
    generalize hS : ({ A.setDir st.ndir (doubledDirectory st.curDir (A.dirs st.ndir)
      (topBits f_hash st.curDir.depth) (st.half b (st.route f_hash) false)
      (st.half b (st.route f_hash) true)) with dir := st.ndir } : CCEH) = S
    have hfin := finish_split b S (st.half b (st.route f_hash) false)
    have hSsegs : S.segs = A.segs := by
      rw [← hS]
      rfl
    have hsegs := hA.finish_segs ht hSsegs _ rfl
    have hnew : (releaseSplit b (bumpDepth b S (st.half b (st.route f_hash) false))
        (st.half b (st.route f_hash) false)).curDir = doubledDirectory st.curDir (A.dirs st.ndir)
          (topBits f_hash st.curDir.depth) (st.half b (st.route f_hash) false)
          (st.half b (st.route f_hash) true) := by
      rw [CCEH.curDir, hfin.1, hfin.2.1, ← hS]
      exact CCEH.setDir_dirs_self ..
    refine ⟨?_, ?_, ?_, ?_, ?_, hsegs.1, hsegs.2.1, hsegs.2.2, ?_⟩
    · rw [hnew, hgrown]
      exact hdepth
    · rw [hnew]
      exact hcap.trans (congrArg (2 ^ ·) hdepth.symm)
    · rw [hnew]
      exact hsema
    · rw [hfin.2.1, hfin.2.2.1, ← hS]
      change st.ndir < A.ndir
      omega
    · intro i hi
      rw [hgrown] at hi
      rw [hgrown, hgseg, hl, hnew, doubledDirectory, hc.capacity]
      have hlt : i < 2 * 2 ^ st.curDir.depth := by
        rw [← pow_succ']
        exact hi
      dsimp only
      rw [if_pos hlt, doubledSegment_eq st.curDir st.curDir.depth _ _ _ _
        (topBits_half f_hash st.curDir.depth (by omega))]
    · rw [hfin.2.2.2.1, ← hS]
      exact hA.nseg
  · have hlt : (st.segs (st.route f_hash)).localDepth < st.curDir.depth := lt_of_le_of_ne hle hl
    have hgrown : st.grownDepth (st.route f_hash) = st.curDir.depth := by
      simp only [CCEH.grownDepth, if_neg hl]
    have hgseg : st.grownSegment (st.route f_hash) = st.curDir.segment := by
      simp only [CCEH.grownSegment, if_neg hl]
    rw [stores_split_stride b A st.curDir st.ndir f_hash _ _ _ hlt]
    generalize hS : A.setDir A.dir { A.curDir with
      segment := strideSegment b (2 ^ (st.curDir.depth - (st.segs (st.route f_hash)).localDepth))
        (topBits f_hash st.curDir.depth)
        (2 ^ (st.curDir.depth - (st.segs (st.route f_hash)).localDepth))
        (st.half b (st.route f_hash) false) (st.half b (st.route f_hash) true)
        A.curDir.segment } = S
    have hfin := finish_split b S (st.half b (st.route f_hash) false)
    have hSsegs : S.segs = A.segs := by
      rw [← hS]
      rfl
    have hsegs := hA.finish_segs ht hSsegs _ rfl
    have hnew : (releaseSplit b (bumpDepth b S (st.half b (st.route f_hash) false))
        (st.half b (st.route f_hash) false)).curDir = { A.curDir with
          segment := strideSegment b
            (2 ^ (st.curDir.depth - (st.segs (st.route f_hash)).localDepth))
            (topBits f_hash st.curDir.depth)
            (2 ^ (st.curDir.depth - (st.segs (st.route f_hash)).localDepth))
            (st.half b (st.route f_hash) false) (st.half b (st.route f_hash) true)
            st.curDir.segment } := by
      rw [CCEH.curDir, hfin.1, hfin.2.1, ← hS, ← hA.segment]
      exact CCEH.setDir_dirs_self ..
    refine ⟨?_, ?_, ?_, ?_, ?_, hsegs.1, hsegs.2.1, hsegs.2.2, ?_⟩
    · rw [hnew, hgrown]
      exact hA.depth
    · rw [hnew]
      exact hA.capacity.trans (hc.capacity.trans (congrArg (2 ^ ·) hA.depth.symm))
    · rw [hnew]
      exact hA.sema hl
    · rw [hfin.2.1, hfin.2.2.1, ← hS]
      exact hA.dir_lt
    · intro i hi
      rw [hgrown] at hi
      rw [hgrown, hgseg, hnew, ← strideSegment_full _ _ _ _ _ _ hlt]
      cases b with
      | cow => rfl
      | inplace =>
        apply strideSegment_inplace
        intro hlo hhi
        have hblock := (block_iff (2 ^ (st.curDir.depth - (st.segs (st.route f_hash)).localDepth))
          (topBits f_hash st.curDir.depth) i (Nat.two_pow_pos _)).mpr ⟨hlo, by omega⟩
        exact ((hc.blocked.same_iff _ hx i hi).mpr hblock.symm).symm
    · rw [hfin.2.2.2.1, ← hS]
      exact hA.nseg

theorem splitTarget_rest (b : Build) (H : HashFuncs) (st : CCEH) (f_hash : BitVec 64)
    (hc : Consistent st) (hr : Rest st) (hd : st.grownDepth (st.route f_hash) ≤ 64) :
    ∃ st', splitTarget b H (st.setSema (st.route f_hash) (-1)) f_hash (st.route f_hash) = some st' ∧
      SplitResult b H st f_hash (st.route f_hash) st' := by
  obtain ⟨A, hbefore, hA⟩ := beforeStores_rest b H st f_hash hr
    ((st.grownDepth_bounds _).1.trans hd)
  refine ⟨_, ?_, hA.finish hc hr hd⟩
  rw [splitTarget, hbefore, Option.map_some]

/-! ### The two outcomes of a pass -/

/-- The pair is put into a slot of the routed segment. -/
def CCEH.put (st : CCEH) (f_hash : BitVec 64) (loc : Slot) (p : Pair) : CCEH :=
  st.setSeg (st.route f_hash) ((st.segs (st.route f_hash)).setPair loc p)

theorem CCEH.unlock_lock (st : CCEH) (p : ℕ) : (st.lockSeg p).unlockSeg p = st := by
  have h : (st.segs p).sema + 1 - 1 = (st.segs p).sema := by omega
  simp only [unlockSeg, lockSeg, setSema_segs_self, Segment.withSema_sema, setSema_setSema, h,
    setSema_same]

theorem CCEH.put_unlock (st : CCEH) (p : ℕ) (loc : Slot) (q : Pair) :
    ((st.lockSeg p).setSeg p (((st.lockSeg p).segs p).setPair loc q)).unlockSeg p =
      st.setSeg p ((st.segs p).setPair loc q) := by
  have h : (st.segs p).sema + 1 - 1 = (st.segs p).sema := by omega
  simp only [unlockSeg, lockSeg, setSema, setSeg_segs_self, setSeg_setSeg, Segment.setPair_sema,
    Segment.withSema_sema, h]
  rfl

/-- From a state at rest the pass takes the lock of the segment. -/
theorem insertPass_locked (b : Build) (H : HashFuncs) (st : CCEH) (key : Key) (value : Value)
    (hr : Rest st) (hd : st.curDir.depth ≤ 64) :
    insertPass b H st key value =
      match findSlot H (st.segs (st.route (H.f key))) key with
      | some loc => .done (((st.lockSeg (st.route (H.f key))).setSeg (st.route (H.f key))
          (((st.lockSeg (st.route (H.f key))).segs (st.route (H.f key))).setPair loc
            ⟨key, value⟩)).unlockSeg (st.route (H.f key)))
      | none => collide b H ((st.lockSeg (st.route (H.f key))).unlockSeg (st.route (H.f key)))
          (H.f key) (topBits (H.f key) st.curDir.depth) (st.route (H.f key))
          ((st.lockSeg (st.route (H.f key))).segs (st.route (H.f key))).localDepth := by
  have hx := route_index_lt st (H.f key) (by omega)
  have hnull : ¬ st.route (H.f key) = OID_NULL := (hr.allocated _ hx).1
  have hsema : (st.segs (st.route (H.f key))).sema = 0 := hr.seg_sema _ hx
  have hneg : ¬ (st.segs (st.route (H.f key))).sema < 0 := by omega
  have hpass : insertPass b H st key value = insertLocked b H (st.lockSeg (st.route (H.f key)))
      key value (topBits (H.f key) st.curDir.depth) (st.route (H.f key)) := by
    change (if st.route (H.f key) = OID_NULL then _ else
      if (st.segs (st.route (H.f key))).sema < 0 then _ else _) = _
    rw [if_neg hnull, if_neg hneg]
    rfl
  have hroute : ¬ st.route (H.f key) ≠ (st.lockSeg (st.route (H.f key))).route (H.f key) :=
    fun h => h rfl
  have hfind : findSlot H ((st.lockSeg (st.route (H.f key))).segs (st.route (H.f key))) key =
      findSlot H (st.segs (st.route (H.f key))) key := by
    rw [CCEH.lockSeg, CCEH.setSema_segs_self]
    rfl
  rw [hpass, insertLocked, if_neg hroute]
  cases hf : findSlot H (st.segs (st.route (H.f key))) key with
  | some loc => simp only [hfind, hf]
  | none => simp only [hfind, hf]

theorem insertPass_found (b : Build) (H : HashFuncs) (st : CCEH) (key : Key) (value : Value)
    (hr : Rest st) (hd : st.curDir.depth ≤ 64) (loc : Slot)
    (hf : findSlot H (st.segs (st.route (H.f key))) key = some loc) :
    insertPass b H st key value = .done (st.put (H.f key) loc ⟨key, value⟩) := by
  rw [insertPass_locked b H st key value hr hd]
  simp only [hf]
  rw [CCEH.put_unlock]
  rfl

theorem insertPass_split (b : Build) (H : HashFuncs) (st : CCEH) (key : Key) (value : Value)
    (hr : Rest st) (hd : st.curDir.depth ≤ 64) (st' : CCEH)
    (hf : findSlot H (st.segs (st.route (H.f key))) key = none)
    (hsplit : splitTarget b H (st.setSema (st.route (H.f key)) (-1)) (H.f key)
      (st.route (H.f key)) = some st') : insertPass b H st key value = .again st' := by
  have hsema : (st.segs (st.route (H.f key))).sema = 0 :=
    hr.seg_sema _ (route_index_lt st (H.f key) (by omega))
  have hld : ((st.lockSeg (st.route (H.f key))).segs (st.route (H.f key))).localDepth =
      (st.segs (st.route (H.f key))).localDepth := by
    rw [CCEH.lockSeg, CCEH.setSema_segs_self]
    rfl
  have hseen : seenDepth b (st.setSema (st.route (H.f key)) (-1))
      (topBits (H.f key) st.curDir.depth) (st.route (H.f key)) =
      (st.segs (st.route (H.f key))).localDepth := by
    cases b with
    | cow =>
      change ((st.setSema (st.route (H.f key)) (-1)).segs (st.route (H.f key))).localDepth = _
      rw [CCEH.setSema_segs_self]
      rfl
    | inplace =>
      rw [seenDepth, CCEH.setSema_segs_self]
      rfl
  have hacq : suspendAlone (st.segs (st.route (H.f key))).sema = .acquired := by
    rw [hsema]
    rfl
  rw [insertPass_locked b H st key value hr hd]
  simp only [hf]
  rw [CCEH.unlock_lock, hld]
  simp only [collide, hacq, hseen, hsplit, ne_eq, not_true_eq_false, if_false]

/-- The outcome of a pass that starts at rest. -/
theorem insertPass_rest (b : Build) (H : HashFuncs) (st : CCEH) (key : Key) (value : Value)
    (hc : Consistent st) (hr : Rest st) (hd : st.curDir.depth ≤ 64)
    (hg : findSlot H (st.segs (st.route (H.f key))) key = none →
      st.grownDepth (st.route (H.f key)) ≤ 64) :
    (∃ loc, findSlot H (st.segs (st.route (H.f key))) key = some loc ∧
      insertPass b H st key value = .done (st.put (H.f key) loc ⟨key, value⟩)) ∨
    (findSlot H (st.segs (st.route (H.f key))) key = none ∧
      ∃ st', insertPass b H st key value = .again st' ∧
        SplitResult b H st (H.f key) (st.route (H.f key)) st') := by
  cases hf : findSlot H (st.segs (st.route (H.f key))) key with
  | some loc => exact Or.inl ⟨loc, rfl, insertPass_found b H st key value hr hd loc hf⟩
  | none =>
    obtain ⟨st', hsplit, hres⟩ := splitTarget_rest b H st (H.f key) hc hr (hg hf)
    exact Or.inr ⟨rfl, st', insertPass_split b H st key value hr hd st' hf hsplit, hres⟩

end PmemStudy.Cceh
