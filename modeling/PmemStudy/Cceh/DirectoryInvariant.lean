import PmemStudy.Cceh.Runs

/-!
# The directory between calls

Every segment fills one aligned block of the directory, whatever the hash
functions, in both builds. A pass that stores a pair leaves the blocks alone;
a split replaces one block by its two halves, doubling the directory first
when the block is a single entry.
-/

namespace PmemStudy.Cceh
open PmemStudy.AlignedBlocks PmemStudy.Loop

structure AtRest (st : CCEH) : Prop where
  consistent : Consistent st
  rest : Rest st

structure DirectoryInvariant (st : CCEH) : Prop extends AtRest st where
  level_pos : ∀ i < 2 ^ st.curDir.depth, 1 ≤ (st.segs (st.curDir.segment i)).localDepth

/-! ### Storing a pair -/

theorem CCEH.put_localDepth (st : CCEH) (f_hash : BitVec 64) (loc : Slot) (q : Pair) (p : ℕ) :
    ((st.put f_hash loc q).segs p).localDepth = (st.segs p).localDepth := by
  by_cases hp : p = st.route f_hash
  · rw [put, hp, setSeg_segs_self]
    rfl
  · rw [put, setSeg_segs_of_ne _ _ _ _ hp]

theorem CCEH.put_sema (st : CCEH) (f_hash : BitVec 64) (loc : Slot) (q : Pair) (p : ℕ) :
    ((st.put f_hash loc q).segs p).sema = (st.segs p).sema := by
  by_cases hp : p = st.route f_hash
  · rw [put, hp, setSeg_segs_self]
    rfl
  · rw [put, setSeg_segs_of_ne _ _ _ _ hp]

theorem AtRest.put {st : CCEH} (h : AtRest st) (f_hash : BitVec 64) (loc : Slot) (q : Pair) :
    AtRest (st.put f_hash loc q) := by
  have hl := st.put_localDepth f_hash loc q
  have hs := st.put_sema f_hash loc q
  refine ⟨⟨h.consistent.capacity, ?_⟩, ⟨h.rest.dir_sema, ?_, h.rest.allocated, h.rest.dir_lt⟩⟩
  · exact h.consistent.blocked.congr (fun _ _ => rfl) (fun i _ => hl (st.curDir.segment i))
  · intro i hi
    rw [hs]
    exact h.rest.seg_sema i hi

theorem DirectoryInvariant.put {st : CCEH} (h : DirectoryInvariant st) (f_hash : BitVec 64)
    (loc : Slot) (q : Pair) : DirectoryInvariant (st.put f_hash loc q) := by
  refine ⟨h.toAtRest.put f_hash loc q, ?_⟩
  intro i hi
  rw [st.put_localDepth]
  exact h.level_pos i hi

/-! ### Splitting -/

namespace CCEH

theorem grown_blocked (st : CCEH) (target : ℕ) (h : Consistent st) :
    Blocked (st.grownDepth target) (st.grownSegment target) fun p => (st.segs p).localDepth := by
  by_cases hl : (st.segs target).localDepth = st.curDir.depth
  · simp only [grownDepth, grownSegment, if_pos hl]
    exact h.blocked.widen
  · simp only [grownDepth, grownSegment, if_neg hl]
    exact h.blocked

/-- Entry `i` of the grown directory is entry `i / g` of the old one. -/
theorem grown_source (st : CCEH) (target i : ℕ) (hi : i < 2 ^ st.grownDepth target) :
    st.grownSegment target i =
      st.curDir.segment (i / 2 ^ (st.grownDepth target - st.curDir.depth)) ∧
      i / 2 ^ (st.grownDepth target - st.curDir.depth) < 2 ^ st.curDir.depth := by
  by_cases hl : (st.segs target).localDepth = st.curDir.depth
  · simp only [grownDepth, grownSegment, if_pos hl] at hi ⊢
    have h1 : st.curDir.depth + 1 - st.curDir.depth = 1 := by omega
    rw [h1, pow_one]
    exact ⟨rfl, half_lt _ i hi⟩
  · simp only [grownDepth, grownSegment, if_neg hl] at hi ⊢
    rw [Nat.sub_self, pow_zero, Nat.div_one]
    exact ⟨rfl, hi⟩

theorem grown_route (st : CCEH) (f_hash : BitVec 64) (target : ℕ)
    (hd : st.grownDepth target ≤ 64) :
    st.grownSegment target (topBits f_hash (st.grownDepth target)) = st.route f_hash := by
  by_cases hl : (st.segs target).localDepth = st.curDir.depth
  · simp only [grownDepth, grownSegment, if_pos hl, widen]
    rw [topBits_half f_hash _ (by simp only [grownDepth, if_pos hl] at hd; omega)]
    rfl
  · simp only [grownDepth, grownSegment, if_neg hl]
    rfl

theorem grown_room (st : CCEH) (target : ℕ) (h : (st.segs target).localDepth ≤ st.curDir.depth) :
    (st.segs target).localDepth < st.grownDepth target := by
  unfold grownDepth
  split <;> omega

theorem half_ne (b : Build) (st : CCEH) (target : ℕ) (h : target < st.nseg) :
    st.half b target false ≠ st.half b target true := by
  cases b <;> simp only [half] <;> omega

/-- A half is the split segment or a block that the allocator has just handed out. -/
theorem half_cases (b : Build) (st : CCEH) (target : ℕ) (bit : Bool) :
    (b = .inplace ∧ bit = false ∧ st.half b target bit = target) ∨
      (Segment.Copies b bit ∧ st.nseg ≤ st.half b target bit) := by
  cases b with
  | cow =>
    refine Or.inr ⟨trivial, ?_⟩
    cases bit <;> simp only [half] <;> omega
  | inplace =>
    cases bit with
    | false => exact Or.inl ⟨rfl, rfl, rfl⟩
    | true => exact Or.inr ⟨rfl, le_refl _⟩

end CCEH

section Split
variable {b : Build} {H : HashFuncs} {st st' : CCEH} {f_hash : BitVec 64}

theorem SplitResult.nseg_le {target : ℕ} (r : SplitResult b H st f_hash target st') :
    st.nseg < st'.nseg ∧ ∀ bit, target < st.nseg → st.half b target bit < st'.nseg := by
  have hn := r.nseg
  cases b with
  | cow =>
    dsimp only at hn
    refine ⟨by omega, ?_⟩
    intro bit ht
    cases bit <;> simp only [CCEH.half] <;> omega
  | inplace =>
    dsimp only at hn
    refine ⟨by omega, ?_⟩
    intro bit ht
    cases bit <;> simp only [CCEH.half] <;> omega

theorem SplitResult.depth_le {target : ℕ} (r : SplitResult b H st f_hash target st')
    (hd : st.curDir.depth ≤ 63) : st'.curDir.depth ≤ 64 := by
  rw [r.depth]
  exact st.grownDepth_le target hd

theorem SplitResult.depth_old_le {target : ℕ} (r : SplitResult b H st f_hash target st')
    (hd : st'.curDir.depth ≤ 64) : st.curDir.depth ≤ 64 := by
  rw [r.depth] at hd
  exact (st.grownDepth_bounds target).1.trans hd

/-- Both halves are at rest, one level below the split segment. -/
theorem SplitResult.half_level {target : ℕ} (r : SplitResult b H st f_hash target st') (bit : Bool) :
    (st'.segs (st.half b target bit)).localDepth = (st.segs target).localDepth + 1 ∧
      (st'.segs (st.half b target bit)).sema = 0 := by
  rcases st.half_cases b target bit with ⟨hb, _, he⟩ | ⟨hc, _⟩
  · rw [he, r.kept hb]
    exact ⟨rfl, rfl⟩
  · have h := r.copied bit hc
    exact ⟨h.localDepth, h.sema⟩

theorem SplitResult.replaces (h : AtRest st) (hd : st'.curDir.depth ≤ 64)
    (r : SplitResult b H st f_hash (st.route f_hash) st') :
    Replaces (st.grownDepth (st.route f_hash)) (topBits f_hash (st.grownDepth (st.route f_hash)))
      (st.grownSegment (st.route f_hash)) (fun p => (st.segs p).localDepth)
      (fun p => (st'.segs p).localDepth) (st.half b (st.route f_hash) false)
      (st.half b (st.route f_hash) true) := by
  have hx := route_index_lt st f_hash (r.depth_old_le hd)
  have ht : st.route f_hash < st.nseg := (h.rest.allocated _ hx).2
  have hroute := st.grown_route f_hash (st.route f_hash) (by rw [← r.depth]; exact hd)
  have hfresh : ∀ bit, ∀ i < 2 ^ st.grownDepth (st.route f_hash),
      st.grownSegment (st.route f_hash) i = st.half b (st.route f_hash) bit →
      st.grownSegment (st.route f_hash) i =
        st.grownSegment (st.route f_hash) (topBits f_hash (st.grownDepth (st.route f_hash))) := by
    intro bit i hi he
    obtain ⟨hsrc, hlt⟩ := st.grown_source (st.route f_hash) i hi
    have ha := (h.rest.allocated _ hlt).2
    rcases st.half_cases b (st.route f_hash) bit with ⟨_, _, hh⟩ | ⟨_, hh⟩
    · rw [he, hh, hroute]
    · rw [← hsrc, he] at ha
      omega
  constructor
  · exact topBits_lt f_hash _ (by rw [← r.depth]; exact hd)
  · rw [hroute]
    exact st.grown_room _ (h.consistent.blocked.level_le _ hx)
  · exact st.half_ne b _ ht
  · rw [hroute]
    exact (r.half_level false).1
  · rw [hroute]
    exact (r.half_level true).1
  · exact hfresh false
  · exact hfresh true
  · intro i hi hne
    obtain ⟨hsrc, hlt⟩ := st.grown_source (st.route f_hash) i hi
    have ha := (h.rest.allocated _ hlt).2
    rw [hroute, hsrc] at hne
    rw [hsrc, r.other _ ha hne]

/-- An entry of the new directory: a half of the split segment where the old entry
was that segment, the old entry elsewhere. -/
theorem SplitResult.entry_cases (h : AtRest st) (hd : st'.curDir.depth ≤ 64)
    (r : SplitResult b H st f_hash (st.route f_hash) st') (i : ℕ) (hi : i < 2 ^ st'.curDir.depth) :
    i / 2 ^ (st'.curDir.depth - st.curDir.depth) < 2 ^ st.curDir.depth ∧
    ((st.curDir.segment (i / 2 ^ (st'.curDir.depth - st.curDir.depth)) = st.route f_hash ∧
      ∃ bit, st'.curDir.segment i = st.half b (st.route f_hash) bit ∧
        (bit = true ↔ i / 2 ^ (st'.curDir.depth - ((st.segs (st.route f_hash)).localDepth + 1)) % 2
          = 1)) ∨
     (st.curDir.segment (i / 2 ^ (st'.curDir.depth - st.curDir.depth)) ≠ st.route f_hash ∧
      st'.curDir.segment i =
        st.curDir.segment (i / 2 ^ (st'.curDir.depth - st.curDir.depth)))) := by
  have hrep := r.replaces h hd
  have hblocked := st.grown_blocked (st.route f_hash) h.consistent
  have hroute := st.grown_route f_hash (st.route f_hash) (by rw [← r.depth]; exact hd)
  rw [r.depth] at hi ⊢
  obtain ⟨hsrc, hlt⟩ := st.grown_source (st.route f_hash) i hi
  have hsame := hblocked.same_iff _ hrep.index i hi
  rw [hroute] at hsame
  refine ⟨hlt, ?_⟩
  rw [r.segment i hi, ← hsrc]
  rcases splitBlock_cases (st.grownDepth (st.route f_hash)) (st.segs (st.route f_hash)).localDepth
    (topBits f_hash (st.grownDepth (st.route f_hash))) (st.half b (st.route f_hash) false)
    (st.half b (st.route f_hash) true) (st.grownSegment (st.route f_hash)) i with
    ⟨hb, hm, he⟩ | ⟨hb, hm, he⟩ | ⟨hb, he⟩
  · refine Or.inl ⟨(hsame.mpr hb.symm).symm, false, he, ?_⟩
    rw [hm]
    simp
  · refine Or.inl ⟨(hsame.mpr hb.symm).symm, true, he, ?_⟩
    rw [hm]
    simp
  · exact Or.inr ⟨fun hx => hb (hsame.mp hx.symm).symm, he⟩

theorem SplitResult.atRest (h : AtRest st) (hd : st'.curDir.depth ≤ 64)
    (r : SplitResult b H st f_hash (st.route f_hash) st') : AtRest st' := by
  have hx := route_index_lt st f_hash (r.depth_old_le hd)
  have ht : st.route f_hash ≠ OID_NULL ∧ st.route f_hash < st.nseg := h.rest.allocated _ hx
  have hroute := st.grown_route f_hash (st.route f_hash) (by rw [← r.depth]; exact hd)
  have hn := r.nseg_le
  have hsplit := (st.grown_blocked (st.route f_hash) h.consistent).splitBlock (r.replaces h hd)
  rw [hroute] at hsplit
  refine ⟨⟨r.capacity, ?_⟩, ⟨r.dir_sema, ?_, ?_, r.dir_lt⟩⟩
  · rw [r.depth]
    exact hsplit.congr r.segment (fun _ _ => rfl)
  · intro i hi
    obtain ⟨hlt, ⟨_, bit, he, _⟩ | ⟨hne, he⟩⟩ := r.entry_cases h hd i hi
    · rw [he]
      exact (r.half_level bit).2
    · rw [he, r.other _ (h.rest.allocated _ hlt).2 hne]
      exact h.rest.seg_sema _ hlt
  · intro i hi
    obtain ⟨hlt, ⟨_, bit, he, _⟩ | ⟨hne, he⟩⟩ := r.entry_cases h hd i hi
    · rw [he]
      refine ⟨?_, hn.2 bit ht.2⟩
      rcases st.half_cases b (st.route f_hash) bit with ⟨_, _, hh⟩ | ⟨_, hh⟩
      · rw [hh]
        exact ht.1
      · have h0 : OID_NULL = 0 := rfl
        omega
    · rw [he]
      have ha := h.rest.allocated _ hlt
      exact ⟨ha.1, ha.2.trans hn.1⟩

theorem SplitResult.directoryInvariant (h : DirectoryInvariant st) (hd : st'.curDir.depth ≤ 64)
    (r : SplitResult b H st f_hash (st.route f_hash) st') : DirectoryInvariant st' := by
  refine ⟨r.atRest h.toAtRest hd, ?_⟩
  intro i hi
  obtain ⟨hlt, ⟨_, bit, he, _⟩ | ⟨hne, he⟩⟩ := r.entry_cases h.toAtRest hd i hi
  · rw [he, (r.half_level bit).1]
    omega
  · rw [he, r.other _ (h.rest.allocated _ hlt).2 hne]
    exact h.level_pos _ hlt

/-! ### What a split leaves alone -/

/-- From `st` to `st'` the entries of `target` become its halves `s0` and `s1`
and every other segment keeps its entries; index `i` of a doubled directory
stands for the old index `i / 2`. -/
structure ReplacesOnly (st st' : CCEH) (target s0 s1 : ℕ) : Prop where
  grown : st'.curDir.capacity = st.curDir.capacity ∨
    st'.curDir.capacity = 2 * st.curDir.capacity
  halves : ∀ i < st'.curDir.capacity,
    st.curDir.segment (i / (st'.curDir.capacity / st.curDir.capacity)) = target →
    st'.curDir.segment i = s0 ∨ st'.curDir.segment i = s1
  others : ∀ i < st'.curDir.capacity,
    st.curDir.segment (i / (st'.curDir.capacity / st.curDir.capacity)) ≠ target →
    st'.curDir.segment i =
      st.curDir.segment (i / (st'.curDir.capacity / st.curDir.capacity)) ∧
    st'.segs (st'.curDir.segment i) = st.segs (st'.curDir.segment i)
  reachable : ∀ i < st.curDir.capacity, st.curDir.segment i ≠ target →
    ∃ j < st'.curDir.capacity, st'.curDir.segment j = st.curDir.segment i
  reachable_halves : (∃ j < st'.curDir.capacity, st'.curDir.segment j = s0) ∧
    ∃ j < st'.curDir.capacity, st'.curDir.segment j = s1
  fresh : ∀ i < st.curDir.capacity,
    st.curDir.segment i = s0 ∨ st.curDir.segment i = s1 → st.curDir.segment i = target

theorem SplitResult.capacity_cases (h : AtRest st) {target : ℕ}
    (r : SplitResult b H st f_hash target st') :
    st'.curDir.capacity / st.curDir.capacity = 2 ^ (st'.curDir.depth - st.curDir.depth) ∧
    st'.curDir.capacity = 2 ^ (st'.curDir.depth - st.curDir.depth) * st.curDir.capacity ∧
    (st'.curDir.depth - st.curDir.depth = 0 ∨ st'.curDir.depth - st.curDir.depth = 1) := by
  have hb := st.grownDepth_bounds target
  rw [← r.depth] at hb
  have hmul : st'.curDir.capacity =
      2 ^ (st'.curDir.depth - st.curDir.depth) * st.curDir.capacity := by
    rw [r.capacity, h.consistent.capacity, ← pow_add]
    congr 1
    omega
  refine ⟨?_, hmul, by omega⟩
  rw [hmul, h.consistent.capacity]
  exact Nat.mul_div_cancel _ (Nat.two_pow_pos _)

theorem SplitResult.reachable_half (h : AtRest st) (hd : st'.curDir.depth ≤ 64)
    (r : SplitResult b H st f_hash (st.route f_hash) st') (bit : Bool) :
    ∃ j < st'.curDir.capacity, st'.curDir.segment j = st.half b (st.route f_hash) bit := by
  have hrep := r.replaces h hd
  have hroom := hrep.room
  rw [st.grown_route f_hash _ (by rw [← r.depth]; exact hd)] at hroom
  have hbit : (if bit then 1 else 0) < 2 := by cases bit <;> decide
  obtain ⟨j, hj, hblock, hhalf⟩ := exists_half (st.grownDepth (st.route f_hash))
    (st.segs (st.route f_hash)).localDepth _ _ hroom hrep.index hbit
  refine ⟨j, ?_, ?_⟩
  · rw [r.capacity, r.depth]
    exact hj
  · rw [r.segment j hj]
    cases bit with
    | false => exact splitBlock_lower _ _ _ _ _ _ _ hblock hhalf
    | true => exact splitBlock_upper _ _ _ _ _ _ _ hblock hhalf

theorem SplitResult.replacesOnly (h : AtRest st) (hd : st'.curDir.depth ≤ 64)
    (r : SplitResult b H st f_hash (st.route f_hash) st') :
    ReplacesOnly st st' (st.route f_hash) (st.half b (st.route f_hash) false)
      (st.half b (st.route f_hash) true) := by
  obtain ⟨hratio, hmul, hcase⟩ := r.capacity_cases h
  have hentry := r.entry_cases h hd
  constructor
  · rcases hcase with hc | hc
    · rw [hc, pow_zero, Nat.one_mul] at hmul
      exact Or.inl hmul
    · rw [hc, pow_one] at hmul
      exact Or.inr hmul
  · intro i hi he
    rw [hratio] at he
    rw [r.capacity] at hi
    obtain ⟨_, ⟨_, bit, hbit, _⟩ | ⟨hne, _⟩⟩ := hentry i hi
    · cases bit with
      | false => exact Or.inl hbit
      | true => exact Or.inr hbit
    · exact absurd he hne
  · intro i hi hne
    rw [hratio] at hne ⊢
    rw [r.capacity] at hi
    obtain ⟨hlt, ⟨he, _⟩ | ⟨_, he⟩⟩ := hentry i hi
    · exact absurd he hne
    · refine ⟨he, ?_⟩
      rw [he]
      exact r.other _ (h.rest.allocated _ hlt).2 hne
  · intro i hi hne
    have hdiv : i * 2 ^ (st'.curDir.depth - st.curDir.depth) /
        2 ^ (st'.curDir.depth - st.curDir.depth) = i := Nat.mul_div_cancel _ (Nat.two_pow_pos _)
    have hj : i * 2 ^ (st'.curDir.depth - st.curDir.depth) < st'.curDir.capacity := by
      rw [hmul, Nat.mul_comm]
      exact Nat.mul_lt_mul_of_pos_left hi (Nat.two_pow_pos _)
    refine ⟨_, hj, ?_⟩
    rw [r.capacity] at hj
    obtain ⟨_, ⟨he, _⟩ | ⟨_, he⟩⟩ := hentry _ hj
    · rw [hdiv] at he
      exact absurd he hne
    · rw [he, hdiv]
  · exact ⟨r.reachable_half h hd false, r.reachable_half h hd true⟩
  · intro i hi he
    rw [h.consistent.capacity] at hi
    have ha := (h.rest.allocated i hi).2
    have hhalf : ∀ bit, st.curDir.segment i = st.half b (st.route f_hash) bit →
        st.curDir.segment i = st.route f_hash := by
      intro bit hb
      rcases st.half_cases b (st.route f_hash) bit with ⟨_, _, hh⟩ | ⟨_, hh⟩
      · rw [hb, hh]
      · omega
    rcases he with he | he
    · exact hhalf false he
    · exact hhalf true he

end Split

/-! ### Whole runs -/

theorem InitUpTo.directoryInvariant {st : CCEH} {depth : ℕ} (h : InitUpTo depth (2 ^ depth) st)
    (hd : 1 ≤ depth) : DirectoryInvariant st := by
  have hcap := h.capacity
  have hn := h.nseg
  refine ⟨⟨⟨by rw [hcap, h.depth_eq], ?_⟩, ⟨h.sema, ?_, ?_, h.dir_lt⟩⟩, ?_⟩
  · rw [h.depth_eq]
    constructor
    · intro i hi
      rw [h.entry i hi, (h.seg i hi).2.1]
    · intro i hi j hj
      rw [h.entry i hi, h.entry j hj, (h.seg i hi).2.1, Nat.sub_self, pow_zero, Nat.div_one,
        Nat.div_one]
      omega
  · intro i hi
    rw [h.depth_eq] at hi
    rw [h.entry i hi]
    exact (h.seg i hi).1
  · intro i hi
    rw [h.depth_eq] at hi
    rw [h.entry i hi]
    have h0 : OID_NULL = 0 := rfl
    omega
  · intro i hi
    rw [h.depth_eq] at hi
    rw [h.entry i hi, (h.seg i hi).2.1]
    exact hd

section Run
variable {b : Build} {H : HashFuncs} {Ok : CCEH → Key → Prop}

theorem insertPass_again_invariant (st st' : CCEH) (key : Key) (value : Value)
    (h : DirectoryInvariant st) (hd : st.curDir.depth ≤ maxDepth)
    (hp : insertPass b H st key value = .again st') :
    findSlot H (st.segs (st.route (H.f key))) key = none ∧
      SplitResult b H st (H.f key) (st.route (H.f key)) st' ∧ DirectoryInvariant st' := by
  have hd' : st.curDir.depth ≤ 63 := hd.trans (by decide)
  rcases insertPass_rest b H st key value h.consistent h.rest (by omega)
    (fun _ => st.grownDepth_le _ hd') with
    ⟨loc, _, hdone⟩ | ⟨hf, s, hagain, hr⟩
  · rw [hdone] at hp
    cases hp
  · rw [hagain] at hp
    cases hp
    exact ⟨hf, hr, hr.directoryInvariant h (hr.depth_le hd')⟩

theorem insertPass_done_put (st st' : CCEH) (key : Key) (value : Value)
    (h : DirectoryInvariant st) (hd : st.curDir.depth ≤ maxDepth)
    (hp : insertPass b H st key value = .done st') :
    ∃ loc, findSlot H (st.segs (st.route (H.f key))) key = some loc ∧
      st' = st.put (H.f key) loc ⟨key, value⟩ := by
  have hd' : st.curDir.depth ≤ 63 := hd.trans (by decide)
  rcases insertPass_rest b H st key value h.consistent h.rest (by omega)
    (fun _ => st.grownDepth_le _ hd') with
    ⟨loc, hf, hdone⟩ | ⟨_, s, hagain, _⟩
  · rw [hdone] at hp
    cases hp
    exact ⟨loc, hf, rfl⟩
  · rw [hagain] at hp
    cases hp

theorem run_directoryInvariant (start : CCEH) (h0 : DirectoryInvariant start)
    (calls : List (Key × Value)) (st : CCEH) (h : Run b H Ok start calls st) :
    DirectoryInvariant st := by
  refine run_preserves (fun _ st => DirectoryInvariant st) start h0 ?_ ?_ calls st h
  · intro _ st st' key value _ hi hd _ hp
    exact (insertPass_again_invariant st st' key value hi hd hp).2.2
  · intro _ st st' key value _ hi hd _ hp
    obtain ⟨loc, _, he⟩ := insertPass_done_put st st' key value hi hd hp
    rw [he]
    exact hi.put (H.f key) loc ⟨key, value⟩

end Run

end PmemStudy.Cceh
