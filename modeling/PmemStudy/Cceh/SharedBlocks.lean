import PmemStudy.Cceh.PendingStores

/-!
# Blocks of the shared directory

A directory update goes wrong when it overlaps with another one: a call compares depths,
another call doubles the directory, and the first call doubles it once more although its
segment fills two entries by now. `Orderly` excludes this, and that a normal split begins
while entries of its segment are still to be stored.
-/

namespace PmemStudy.Cceh

open AlignedBlocks SuspendLock Threads

section Facts

variable {ι : Type} {b : Build} {H : HashFuncs} {st st' : CCEH} {f : ι → Worker}
  {i j : ι} {w : Worker} {u : Halves} {rest : List Store} {entry : ℕ → ℕ}

/-- What holds of an update that has begun. -/
theorem Worker.Fits.storing (h : w.Fits b st f) (hp : w.progress b = .storing u rest) :
    u.Fits b st f w.owns true ∧ u.target_local_depth < st.curDir.depth ∧
      (∀ e ∈ rest, ∃ x < 2 ^ st.curDir.depth, ∃ s, e = .entry x s ∧ u.New b s) ∧
      (rest ≠ [] → HoldsDir st w.held) := by
  unfold Worker.Fits at h
  unfold Worker.progress at hp
  cases hnow : w.now with
  | none =>
    rw [hnow] at hp
    cases hp
  | some c =>
    obtain ⟨call, pc⟩ := c
    rw [hnow] at h hp
    have hstored : ∀ {v : Halves}, v.Fits b st f w.owns true → v.target_local_depth < st.curDir.depth →
        v.stored b = .storing u rest → u.Fits b st f w.owns true ∧
          u.target_local_depth < st.curDir.depth ∧
          (∀ e ∈ rest, ∃ x < 2 ^ st.curDir.depth, ∃ s, e = .entry x s ∧ u.New b s) ∧
          (rest ≠ [] → HoldsDir st w.held) := by
      intro v hv hl hs
      cases b with
      | cow => cases hs
      | inplace =>
        cases hs
        exact ⟨hv, hl, fun e he => (by cases he), fun hn => absurd rfl hn⟩
    cases pc with
    | update v k =>
      cases k with
      | dir use =>
        cases use with
        | store begun s l => cases begun with
          | false => cases hp
          | true =>
            cases hp
            obtain ⟨hu, hheld, hl, _, hstores⟩ := h
            exact ⟨hu, hl, hstores, fun _ => hheld⟩
        | unlock => exact hstored h.1 h.2.2 hp
        | _ => cases hp
      | store D begun s l => cases begun with
        | false => cases hp
        | true =>
          cases hp
          obtain ⟨hu, hheld, _, hl, _, hstores⟩ := h
          exact ⟨hu, hl, hstores, fun _ => hheld⟩
      | bump => exact hstored h.1 h.2.2 hp
      | _ => cases hp
    | sema op m s k =>
      cases k with
      | updated v => exact hstored h.2.2.2.1 h.2.2.2.2 hp
      | _ => cases hp
    | _ => cases hp

/-- How far the updates of all threads are. -/
def progresses (b : Build) (f : ι → Worker) (k : ι) : Progress := (f k).progress b

section

variable [Fintype ι]

theorem Sound.progress_apart (h : Sound b st f) (hne : i ≠ j) :
    (progresses b f i).Apart (progresses b f j) := by
  have howns : ∀ k v, (progresses b f k = .fresh v ∨ ∃ rest, progresses b f k = .storing v rest) →
      (f k).owns (.seg v.target) = true := by
    rintro k v (hk | ⟨rest, hk⟩)
    · exact ((h.fits k).halves hk).target.owns
    · exact ((h.fits k).storing hk).1.target.owns
  intro v v' hv hv' he
  have hi := howns i v hv
  rw [he] at hi
  exact hne (h.locks.owner_unique hi (howns j v' hv'))

/-- Every entry refers to a segment that is known to everyone. -/
theorem Settles.shared (hS : Settles b st (progresses b f) entry) (h : Sound b st f) {e : ℕ}
    (he : e < 2 ^ st.curDir.depth) : Public b st f (entry e) := by
  by_cases hp : ∃ k v rest s, progresses b f k = .storing v rest ∧ Store.entry e s ∈ rest
  · obtain ⟨k, v, rest, s, hk, hs⟩ := hp
    obtain ⟨hv, _, hstores, _⟩ := (h.fits k).storing hk
    obtain ⟨x, _, t, heq, hnew⟩ := hstores _ hs
    cases heq
    rw [(hS.pending k v rest hk e s hs).1]
    exact (hv.new s hnew).shared rfl
  · rw [hS.settled e he fun k v rest hk s hs => hp ⟨k, v, rest, s, hk, hs⟩]
    exact h.dir e he

/-- In place nobody has begun to update a segment that somebody else is about to. -/
theorem Sound.not_raised (h : Sound b st f) (hi : (f i).progress b = .fresh u) :
    ¬ Raised b (progresses b f) u.target ∧ ∀ s, u.New b s → ¬ Raised b (progresses b f) s := by
  have hraised : ∀ p, Raised b (progresses b f) p →
      ∃ k v rest, (f k).progress b = .storing v rest ∧ v.target = p ∧ Public b st f p := by
    rintro p ⟨hb, k, v, rest, hk, rfl⟩
    have hv := ((h.fits k).storing hk).1
    rw [hv.inplace hb]
    exact ⟨k, v, rest, hk, rfl, hv.target.shared⟩
  refine ⟨fun hr => ?_, fun s hs hr => ?_⟩
  · obtain ⟨k, v, rest, hk, hv, _⟩ := hraised _ hr
    by_cases hki : i = k
    · rw [← hki, hi] at hk
      cases hk
    · exact h.progress_apart hki u v (Or.inl hi) (Or.inr ⟨rest, hk⟩) hv.symm
  · obtain ⟨_, _, _, _, _, hp⟩ := hraised s hr
    exact hp.shared i ⟨u, hi, hs⟩

/-- Who doubles the directory finds no pending store. -/
theorem Settles.no_pending (h : Sound b st f) (ho : OwnsDir st (f i).owns) {k : ι} {v : Halves}
    {rest : List Store} (hk : (f k).progress b = .storing v rest) : rest = [] := by
  by_contra hne
  have hheld := ((h.fits k).storing hk).2.2.2 hne
  have := (h.locks.of_owns ho).2.1 k
  unfold HoldsDir at hheld
  omega

variable [DecidableEq ι]

/-- An update that begins replaces the block of its target by two halves. -/
theorem Sound.replaces_halves (h : Sound b st f) (hi : (f i).progress b = .fresh u) {d x : ℕ}
    (hx : x < 2 ^ d) (ht : entry x = u.target) (hl : u.target_local_depth < d)
    (hpublic : ∀ e < 2 ^ d, Public b st f (entry e)) (rest : List Store) :
    level b st (progresses b f) (entry x) = u.target_local_depth ∧
    Replaces d x entry (level b st (progresses b f))
      (level b st (Function.update (progresses b f) i (.storing u rest))) u.s0 u.s1 := by
  have hu := (h.fits i).halves hi
  obtain ⟨htarget, hnew⟩ := h.not_raised hi
  have hlevel : level b st (progresses b f) (entry x) = u.target_local_depth := by
    rw [ht, level_of_not_raised htarget, hu.level]
  have hraised : ∀ p, p ≠ u.s0 →
      (Raised b (Function.update (progresses b f) i (.storing u rest)) p ↔
        Raised b (progresses b f) p) := by
    intro p hp
    refine and_congr_right fun _ => ⟨?_, ?_⟩
    · rintro ⟨k, v, r, hk, hv⟩
      by_cases hki : k = i
      · rw [hki, Function.update_self] at hk
        cases hk
        exact absurd hv.symm hp
      · rw [Function.update_of_ne hki] at hk
        exact ⟨k, v, r, hk, hv⟩
    · rintro ⟨k, v, r, hk, hv⟩
      have hki : k ≠ i := by
        rintro rfl
        rw [progresses, hi] at hk
        cases hk
      exact ⟨k, v, r, by rw [Function.update_of_ne hki]; exact hk, hv⟩
  have hfresh : ∀ s, u.New b s → ∀ e < 2 ^ d, entry e ≠ s := by
    rintro s hs e he rfl
    exact (hpublic e he).shared i ⟨u, hi, hs⟩
  have hs1 : u.New b u.s1 := by
    cases b with
    | cow => exact Or.inr rfl
    | inplace => exact rfl
  refine ⟨hlevel, hx, by omega, hu.ne, ?_, ?_, ?_, fun e he heq => absurd heq (hfresh _ hs1 e he),
    ?_⟩
  · rw [hlevel]
    cases b with
    | cow =>
      rw [level_of_not_raised fun hr => by cases hr.1]
      exact (hu.new u.s0 (Or.inl rfl)).level rfl
    | inplace =>
      rw [level_of_raised ⟨rfl, i, u, rest, Function.update_self .., rfl⟩, hu.inplace rfl, hu.level]
  · rw [hlevel, level_of_not_raised fun hr => hnew _ hs1 ((hraised _ hu.ne.symm).mp hr)]
    exact (hu.new u.s1 hs1).level rfl
  · intro e he heq
    cases b with
    | cow => exact absurd heq (hfresh _ (Or.inl rfl) e he)
    | inplace => rw [heq, ht, hu.inplace rfl]
  · intro e he hne
    refine level_congr rfl (hraised _ ?_)
    rintro heq
    cases b with
    | cow => exact hfresh _ (Or.inl rfl) e he heq
    | inplace => exact hne (by rw [heq, ht, hu.inplace rfl])

/-- The stores of a normal split become pending together. -/
theorem Settles.begin (hS : Settles b st (progresses b f) entry) (h : Sound b st f)
    (hi : (f i).progress b = .fresh u) (hl : u.target_local_depth < st.curDir.depth) {x : ℕ}
    (hx : x < 2 ^ st.curDir.depth)
    (hrep : ∀ e ∈ strideStores b (2 ^ (st.curDir.depth - u.target_local_depth)) x u.s0 u.s1,
      e.Replaces st.curDir u.target) :
    entry x = u.target ∧ Settles b st (Function.update (progresses b f) i (.storing u
      (strideStores b (2 ^ (st.curDir.depth - u.target_local_depth)) x u.s0 u.s1)))
      (splitBlock st.curDir.depth u.target_local_depth x u.s0 u.s1 entry) := by
  have hu := (h.fits i).halves hi
  -- an entry that the split replaces is not pending, so that it refers to the target for good
  have hplain : ∀ e, st.curDir.segment e = u.target → ∀ k v rest,
      progresses b f k = .storing v rest → ∀ s, Store.entry e s ∉ rest := by
    intro e he k v rest hk s hs
    by_cases hki : i = k
    · rw [← hki, progresses, hi] at hk
      cases hk
    · exact h.progress_apart hki u v (Or.inl hi) (Or.inr ⟨rest, hk⟩)
        (he.symm.trans (hS.pending k v rest hk e s hs).2)
  obtain ⟨e, helt, hmem⟩ : ∃ e < 2 ^ st.curDir.depth, Store.entry e u.s1 ∈
      strideStores b (2 ^ (st.curDir.depth - u.target_local_depth)) x u.s0 u.s1 := by
    have hend := block_end st.curDir.depth u.target_local_depth x hl.le hx
    have hpos := Nat.two_pow_pos (st.curDir.depth - u.target_local_depth)
    exact ⟨_, by omega, stride_upper hl⟩
  have hseg : st.curDir.segment e = u.target := hrep _ hmem
  have he : entry e = u.target := (hS.settled _ helt (hplain _ hseg)).trans hseg
  have hlow : level b st (progresses b f) u.target = u.target_local_depth := by
    rw [level_of_not_raised (h.not_raised hi).1, hu.level]
  -- the block of `x` is that of the target
  have hsame : ∀ y < 2 ^ st.curDir.depth,
      y / 2 ^ (st.curDir.depth - u.target_local_depth) =
        x / 2 ^ (st.curDir.depth - u.target_local_depth) → entry y = u.target := by
    intro y hy hyx
    have hiff := hS.blocked.same_iff e helt y hy
    have hblock := (stride_splitBlock hl hmem : _ ∧ splitBlock _ _ _ _ _ entry e = u.s1).1
    rw [he, hlow, hblock] at hiff
    exact (hiff.mpr hyx.symm).symm
  obtain ⟨hlevel, hr⟩ := h.replaces_halves hi hx (hsame x hx rfl) hl (fun e he => hS.shared h he)
    (strideStores b (2 ^ (st.curDir.depth - u.target_local_depth)) x u.s0 u.s1)
  have hout : ∀ y < 2 ^ st.curDir.depth, (∀ s, Store.entry y s ∉
      strideStores b (2 ^ (st.curDir.depth - u.target_local_depth)) x u.s0 u.s1) →
      splitBlock st.curDir.depth u.target_local_depth x u.s0 u.s1 entry y = entry y :=
    fun y hy hnone => stride_missing hl hnone fun hb hyx => by
      rw [hsame y hy hyx, hu.inplace hb]
  refine ⟨hsame x hx rfl, ?_, fun k v rest hk y s hs => ?_, fun y hy hnone => ?_,
    fun k v rest hk => ?_⟩
  · have := hS.blocked.splitBlock hr
    rw [hlevel] at this
    exact this
  · by_cases hki : k = i
    · rw [hki, Function.update_self] at hk
      cases hk
      exact ⟨(stride_splitBlock hl hs).2, hrep _ hs⟩
    · rw [Function.update_of_ne hki] at hk
      obtain ⟨hys, hyv⟩ := hS.pending k v rest hk y s hs
      obtain ⟨z, hz, t, heq, _⟩ := ((h.fits k).storing hk).2.2.1 _ hs
      cases heq
      rw [hout y hz fun s' hs' => hplain y (hrep _ hs') k v rest hk s hs]
      exact ⟨hys, hyv⟩
  · have hmine : ∀ s, Store.entry y s ∉
        strideStores b (2 ^ (st.curDir.depth - u.target_local_depth)) x u.s0 u.s1 :=
      hnone i u _ (Function.update_self ..)
    rw [hout y hy hmine]
    refine hS.settled y hy fun k v rest hk => ?_
    have hki : k ≠ i := by
      rintro rfl
      rw [progresses, hi] at hk
      cases hk
    exact hnone k v rest (by rw [Function.update_of_ne hki]; exact hk)
  · by_cases hki : k = i
    · rw [hki, Function.update_self] at hk
      cases hk
      exact stride_nodup _
    · rw [Function.update_of_ne hki] at hk
      exact hS.nodup k v rest hk

/-- A directory of the right depth is doubled. -/
theorem Settles.publish (hS : Settles b st (progresses b f) entry) (h : Sound b st f)
    (hi : (f i).progress b = .fresh u) (ho : OwnsDir st (f i).owns)
    (hd : st.curDir.depth = u.target_local_depth) {x n : ℕ} (hx : x < 2 ^ st.curDir.depth)
    (ht : st.curDir.segment x = u.target) (hdepth : (st.dirs n).depth = st.curDir.depth + 1)
    (hn : ∀ j < 2 * st.curDir.capacity,
      (st.dirs n).segment j = doubledSegment st.curDir x u.s0 u.s1 j) :
    Settles b (st.store (.dirPtr n)) (Function.update (progresses b f) i (.storing u []))
      (st.dirs n).segment := by
  have hentry : ∀ e < 2 ^ st.curDir.depth, entry e = st.curDir.segment e := by
    intro e he
    refine hS.settled e he fun k v rest hk s hs => ?_
    rw [Settles.no_pending h ho hk] at hs
    cases hs
  have hwide : ∀ e < 2 ^ (st.curDir.depth + 1), Public b st f (widen entry e) :=
    fun e he => hS.shared h (half_lt _ e he)
  have hx2 : 2 * x < 2 ^ (st.curDir.depth + 1) := by
    rw [pow_succ]
    omega
  have hdiv : 2 * x / 2 = x := by omega
  have hroot : widen entry (2 * x) = u.target := by
    rw [widen, hdiv, hentry x hx, ht]
  obtain ⟨hlevel, hr⟩ := h.replaces_halves hi hx2 hroot (by omega) hwide []
  have hsplit := hS.blocked.widen.splitBlock hr
  rw [hlevel, ← hd] at hsplit
  have hsegment : ∀ e < 2 ^ (st.curDir.depth + 1), (st.dirs n).segment e =
      splitBlock (st.curDir.depth + 1) st.curDir.depth (2 * x) u.s0 u.s1 (widen entry) e := by
    intro e he
    rw [hn e (by rw [h.capacity]; rw [pow_succ] at he; omega),
      doubledSegment_eq st.curDir st.curDir.depth x (2 * x) u.s0 u.s1 hdiv]
    have hold : widen entry e = widen st.curDir.segment e := hentry _ (half_lt _ e he)
    simp only [splitBlock, hold]
  have hcur : (st.store (.dirPtr n)).curDir = st.dirs n := rfl
  refine ⟨?_, fun k v rest hk e s hs => ?_, fun e he _ => rfl, fun k v rest hk => ?_⟩
  · rw [hcur, hdepth]
    exact hsplit.congr hsegment fun e he => rfl
  · refine absurd hs ?_
    by_cases hki : k = i
    · rw [hki, Function.update_self] at hk
      cases hk
      exact List.not_mem_nil
    · rw [Function.update_of_ne hki] at hk
      rw [Settles.no_pending h ho hk]
      exact List.not_mem_nil
  · by_cases hki : k = i
    · rw [hki, Function.update_self] at hk
      cases hk
      exact List.nodup_nil
    · rw [Function.update_of_ne hki] at hk
      exact hS.nodup k v rest hk

/-- The local depth of `s[0]` is raised, as its update had promised. -/
theorem Settles.bump (hS : Settles b st (progresses b f) entry) (h : Sound b st f)
    (hi : (f i).progress b = .storing u []) (hb : b = .inplace) :
    Settles b (st.store (.localDepth u.s0)) (Function.update (progresses b f) i .none) entry := by
  have hu := ((h.fits i).storing hi).1
  have hmine : Raised b (progresses b f) u.s0 := ⟨hb, i, u, [], hi, rfl⟩
  have hothers : ∀ k v rest, k ≠ i → progresses b f k = .storing v rest → v.s0 ≠ u.s0 := by
    intro k v rest hki hk he
    rw [((h.fits k).storing hk).1.inplace hb, hu.inplace hb] at he
    exact h.progress_apart hki v u (Or.inr ⟨rest, hk⟩) (Or.inr ⟨[], hi⟩) he
  have hself : ((st.store (.localDepth u.s0)).segs u.s0).localDepth =
      (st.segs u.s0).localDepth + 1 := by
    show (Function.update st.segs u.s0 _ u.s0).localDepth = _
    rw [Function.update_self]
  have hgone : ¬ Raised b (Function.update (progresses b f) i .none) u.s0 := by
    rintro ⟨_, k, v, rest, hk, hv⟩
    by_cases hki : k = i
    · rw [hki, Function.update_self] at hk
      cases hk
    · rw [Function.update_of_ne hki] at hk
      exact hothers k v rest hki hk hv
  have hlevel : ∀ p, level b (st.store (.localDepth u.s0))
      (Function.update (progresses b f) i .none) p = level b st (progresses b f) p := by
    intro p
    by_cases hp : p = u.s0
    · rw [hp, level_of_raised hmine, level_of_not_raised hgone, hself]
    · refine level_congr ?_ (and_congr_right fun _ => ⟨?_, ?_⟩)
      · exact congrArg Segment.localDepth (CCEH.setSeg_segs_of_ne _ _ _ _ hp)
      · rintro ⟨k, v, rest, hk, hv⟩
        by_cases hki : k = i
        · rw [hki, Function.update_self] at hk
          cases hk
        · rw [Function.update_of_ne hki] at hk
          exact ⟨k, v, rest, hk, hv⟩
      · rintro ⟨k, v, rest, hk, hv⟩
        have hki : k ≠ i := by
          rintro rfl
          rw [progresses, hi] at hk
          cases hk
          exact hp hv.symm
        exact ⟨k, v, rest, by rw [Function.update_of_ne hki]; exact hk, hv⟩
  have hback : ∀ k v rest, Function.update (progresses b f) i .none k = .storing v rest →
      progresses b f k = .storing v rest := by
    intro k v rest hk
    by_cases hki : k = i
    · rw [hki, Function.update_self] at hk
      cases hk
    · rwa [Function.update_of_ne hki] at hk
  refine ⟨hS.blocked.congr (fun _ _ => rfl) fun e _ => hlevel _,
    fun k v rest hk => hS.pending k v rest (hback k v rest hk), fun e he hnone => ?_,
    fun k v rest hk => hS.nodup k v rest (hback k v rest hk)⟩
  refine hS.settled e he fun k v rest hk s hs => ?_
  by_cases hki : k = i
  · rw [hki, progresses, hi] at hk
    cases hk
    cases hs
  · exact hnone k v rest (by rw [Function.update_of_ne hki]; exact hk) s hs

end

end Facts

/-! ### Updates that do not overlap -/

/-- A call that has suspended the directory to double it finds the depth that it compared
before, and its key's entry refers to the split segment; a call that begins its stores
replaces entries of the split segment only. -/
def Pc.InOrder (H : HashFuncs) (st : CCEH) (call : Call) : Pc → Prop
  | .update u (.depth .double D) =>
    (st.dirs D).depth = u.target_local_depth ∧
      (st.dirs D).segment (topBits (H.f call.key) (st.dirs D).depth) = u.target
  | .update u (.store D false s rest) => ∀ e ∈ s :: rest, e.Replaces (st.dirs D) u.target
  | _ => True

instance (H : HashFuncs) (st : CCEH) (call : Call) (pc : Pc) : Decidable (pc.InOrder H st call) := by
  cases pc with
  | update u k =>
    cases k with
    | depth use D => cases use <;> unfold Pc.InOrder <;> infer_instance
    | store D begun s rest => cases begun <;> unfold Pc.InOrder <;> infer_instance
    | _ => exact instDecidableTrue
  | _ => exact instDecidableTrue

def Orderly (b : Build) (H : HashFuncs) (st : CCEH) (w : Worker) : Prop :=
  Steady b st w ∧
  match w.now with
  | some (call, pc) => pc.InOrder H st call
  | none => True

instance (b : Build) (H : HashFuncs) (st : CCEH) : ∀ w : Worker, Decidable (Orderly b H st w)
  | ⟨some (call, pc), r, held, owns⟩ => inferInstanceAs
    (Decidable (Steady b st ⟨some (call, pc), r, held, owns⟩ ∧ pc.InOrder H st call))
  | ⟨none, r, held, owns⟩ => inferInstanceAs
    (Decidable (Steady b st ⟨none, r, held, owns⟩ ∧ True))

/-- Entry `x` of the directory that is being doubled is the block of the target. -/
structure Doubling (st : CCEH) (u : Halves) (x : ℕ) : Prop where
  depth : st.curDir.depth = u.target_local_depth
  index : x < 2 ^ st.curDir.depth
  target : st.curDir.segment x = u.target

def DepthUse.Aimed (st : CCEH) (u : Halves) : DepthUse → Prop
  | .newDir x _ => Doubling st u x
  | _ => True

def DirUse.Aimed (st : CCEH) (u : Halves) : DirUse → Prop
  | .depth use => use.Aimed st u
  | .source x => Doubling st u x
  | .copy x _ _ _ => Doubling st u x
  | _ => True

def UpdatePc.Aimed (st : CCEH) (u : Halves) : UpdatePc → Prop
  | .dir use => use.Aimed st u
  | .depth use _ => use.Aimed st u
  | .newDir x _ _ => Doubling st u x
  | .copyTest x _ _ _ _ => Doubling st u x
  | .copyRead x _ _ _ => Doubling st u x
  | .copyStore x _ _ _ _ => Doubling st u x
  | .publish n => ∃ x, Doubling st u x ∧ ∀ j < 2 * st.curDir.capacity,
      (st.dirs n).segment j = doubledSegment st.curDir x u.s0 u.s1 j
  | _ => True

/-- The updates do not overlap. -/
structure Tidy {ι : Type} (b : Build) (st : CCEH) (f : ι → Worker) : Prop where
  settles : ∃ entry, Settles b st (progresses b f) entry
  aimed : ∀ i call u k, (f i).now = some (call, .update u k) → k.Aimed st u

section Steps

variable {ι : Type} {b : Build} {H : HashFuncs} {st st' : CCEH} {f : ι → Worker}
  {i j : ι} {w : Worker} {call : Call} {pc : Pc} {u : Halves} {k : UpdatePc}

/-- The steps that change more than slots and semaphores. -/
def UpdatePc.writes : UpdatePc → Bool
  | .newDir .. => true
  | .copyStore .. => true
  | .publish _ => true
  | .store .. => true
  | .bump => true
  | _ => false

theorem Pc.next_shape (b : Build) (H : HashFuncs) (st : CCEH) (call : Call) (pc : Pc) :
    SameShape st (pc.next b H call st).1 ∨
    (∃ target d, pc = .split target d) ∨ ∃ u k, pc = .update u k ∧ k.writes = true := by
  have hslot : ∀ t loc q, SameShape st (st.setSeg t ((st.segs t).setPair loc q)) := fun t loc q =>
    ⟨rfl, rfl, rfl, fun _ => rfl, fun _ => rfl, fun _ => rfl,
      fun p => (setPair_level st t loc q p).1⟩
  cases pc with
  | sema op m s k => exact Or.inl (setSem_shape st m _)
  | probe x target pattern slots => cases slots <;> exact Or.inl (.refl st)
  | claim x target pattern loc _key slots =>
    refine Or.inl ?_
    simp only [Pc.next]
    split
    · exact hslot target loc _
    · exact .refl st
  | value target loc => exact Or.inl (hslot target loc _)
  | key target loc => exact Or.inl (hslot target loc _)
  | recheck x target d r => cases r <;> exact Or.inl (.refl st)
  | release target => exact Or.inl (setSem_shape st (.seg target) 0)
  | split target d => exact Or.inr (Or.inl ⟨target, d, rfl⟩)
  | update u k =>
    by_cases hk : k.writes
    · exact Or.inr (Or.inr ⟨u, k, rfl, hk⟩)
    · refine Or.inl ?_
      cases k <;> first | exact .refl st | exact absurd rfl hk
  | scan target slots => cases slots <;> exact Or.inl (.refl st)
  | _ => exact Or.inl (.refl st)

/-! ### Where a step goes -/

/-- Where a step of a call goes. -/
inductive Flow (b : Build) (H : HashFuncs) (call : Call) (st : CCEH) : Pc → Outcome → Prop
  | spin : Flow b H call st .spin (.goto (.spinSema st.dir))
  | suspended (D : ℕ) : Flow b H call st (.spinSema D) (.goto .spin)
  | spun (D : ℕ) : Flow b H call st (.spinSema D) (.goto (.find .dir))
  | find (r r' : RoutePc) : Flow b H call st (.find r) (.goto (.find r'))
  | absent (r : RoutePc) (out : Outcome) (h : out = .goto call.retry) : Flow b H call st (.find r) out
  | lock (r : RoutePc) (x target : ℕ) :
    Flow b H call st (.find r) (.goto (.sema .lock (.seg target) .load (.locked x target)))
  | read (r : RoutePc) (x target : ℕ) : Flow b H call st (.find r) (.goto (.check x target .dir))
  | sema (op : SemaOp) (m : Sem) (s s' : SemaPc) (k : After) :
    Flow b H call st (.sema op m s k) (.goto (.sema op m s' k))
  | after (op : SemaOp) (m : Sem) (s : SemaPc) (k : After) (ok : Bool) (out : Outcome)
    (h : out = k.next b call ok) : Flow b H call st (.sema op m s k) out
  | check (x target : ℕ) (r r' : RoutePc) :
    Flow b H call st (.check x target r) (.goto (.check x target r'))
  | moved (x target y D : ℕ) : Flow b H call st (.check x target (.entry y D))
    (.goto (.sema .unlock (.seg target) .load .retry))
  | body (x target y D : ℕ) (out : Outcome) (same : (st.dirs D).segment y = target)
    (h : out = .goto (call.body H x target)) : Flow b H call st (.check x target (.entry y D)) out
  | pattern (x target : ℕ) : Flow b H call st (.readPattern x target)
    (.goto (.probe x target (topBits (H.f call.key) (st.segs target).localDepth)
      (windows H call.key)))
  | full (x target pattern : ℕ) :
    Flow b H call st (.probe x target pattern []) (.goto (.depth x target))
  | probe (x target pattern : ℕ) (loc : Slot) (slots : List Slot) :
    Flow b H call st (.probe x target pattern (loc :: slots))
      (.goto (.test x target pattern loc ((st.segs target).bucket loc).key slots))
  | usable (x target pattern : ℕ) (loc : Slot) (_key : Key) (slots : List Slot)
    (h : reusable H (st.segs target) pattern loc = true) :
    Flow b H call st (.test x target pattern loc _key slots)
      (.goto (.claim x target pattern loc _key slots))
  | passed (x target pattern : ℕ) (loc : Slot) (_key : Key) (slots : List Slot) :
    Flow b H call st (.test x target pattern loc _key slots)
      (.goto (.probe x target pattern slots))
  | claimed (x target pattern : ℕ) (loc : Slot) (slots : List Slot) :
    Flow b H call st (.claim x target pattern loc ((st.segs target).bucket loc).key slots)
      (.goto (.value target loc))
  | lost (x target pattern : ℕ) (loc : Slot) (_key : Key) (slots : List Slot) :
    Flow b H call st (.claim x target pattern loc _key slots)
      (.goto (.probe x target pattern slots))
  | value (target : ℕ) (loc : Slot) :
    Flow b H call st (.value target loc) (.goto (.key target loc))
  | key (target : ℕ) (loc : Slot) :
    Flow b H call st (.key target loc) (.goto (.sema .unlock (.seg target) .load .stored))
  | depth (x target : ℕ) : Flow b H call st (.depth x target)
    (.goto (.sema .unlock (.seg target) .load (.collide x target (st.segs target).localDepth)))
  | recheck (x target d : ℕ) (r r' : RecheckPc) :
    Flow b H call st (.recheck x target d r) (.goto (.recheck x target d r'))
  | deeper (x target d p : ℕ) :
    Flow b H call st (.recheck x target d (.level p)) (.goto (.release target))
  | checked (x target d p : ℕ) :
    Flow b H call st (.recheck x target d (.level p)) (.goto (.split target d))
  | released (target : ℕ) (out : Outcome) (h : out = .goto call.retry) :
    Flow b H call st (.release target) out
  | split (target d s0 s1 : ℕ) :
    Flow b H call st (.split target d) (.goto (.update ⟨target, d, s0, s1⟩ .level))
  | update (u : Halves) (k : UpdatePc) (out : Outcome) (h : out = .goto (u.next b H call st k).2) :
    Flow b H call st (.update u k) out
  | found (target : ℕ) (loc : Slot) (slots : List Slot)
    (h : ((st.segs target).bucket loc).key = call.key) :
    Flow b H call st (.scan target (loc :: slots)) (.goto (.found target loc))
  | other (target : ℕ) (loc : Slot) (slots : List Slot)
    (h : ((st.segs target).bucket loc).key ≠ call.key) :
    Flow b H call st (.scan target (loc :: slots)) (.goto (.scan target slots))
  | missing (target : ℕ) (out : Outcome) (h : out = Call.answer b target NONE) :
    Flow b H call st (.scan target []) out
  | answer (target : ℕ) (loc : Slot) (out : Outcome)
    (h : out = Call.answer b target ((st.segs target).bucket loc).value) :
    Flow b H call st (.found target loc) out

theorem Pc.flows (pc : Pc) : Flow b H call st pc (pc.next b H call st).2 := by
  cases pc with
  | spin => exact .spin
  | spinSema D =>
    simp only [Pc.next]
    split
    · exact .suspended D
    · exact .spun D
  | find r =>
    simp only [Pc.next]
    split
    · exact .find ..
    · split
      · exact .absent _ _ rfl
      · split
        · exact .lock ..
        · exact .read ..
  | sema op m s k =>
    simp only [Pc.next]
    split
    · exact .sema ..
    · exact .after _ _ _ _ _ _ rfl
  | check x target r =>
    cases r with
    | entry y D =>
      simp only [Pc.next, RoutePc.next]
      split
      · exact .moved ..
      · next heq => exact .body _ _ _ _ _ (not_not.mp heq).symm rfl
    | _ => exact .check ..
  | readPattern x target => exact .pattern ..
  | probe x target pattern slots =>
    cases slots with
    | nil => exact .full ..
    | cons loc slots => exact .probe ..
  | test x target pattern loc _key slots =>
    simp only [Pc.next]
    split
    · next h => exact .usable _ _ _ _ _ _ h
    · exact .passed ..
  | claim x target pattern loc _key slots =>
    simp only [Pc.next]
    split
    · next h =>
      subst h
      exact .claimed ..
    · exact .lost ..
  | value target loc => exact .value ..
  | key target loc => exact .key ..
  | depth x target => exact .depth ..
  | recheck x target d r =>
    cases r with
    | level p =>
      simp only [Pc.next]
      split
      · exact .deeper ..
      · exact .checked ..
    | _ => exact .recheck ..
  | release target => exact .released _ _ rfl
  | split target d => exact .split ..
  | update u k => exact .update _ _ _ rfl
  | scan target slots =>
    cases slots with
    | nil => exact .missing _ _ rfl
    | cons loc slots =>
      simp only [Pc.next]
      split
      · next h => exact .found _ _ _ h
      · next h => exact .other _ _ _ h
  | found target loc => exact .answer _ _ _ rfl

/-! ### How far an update is -/

/-- The steps that change how far an update is, apart from `Split`. -/
def UpdatePc.commits : UpdatePc → Bool
  | .publish _ => true
  | .store .. => true
  | .bump => true
  | _ => false

/-- The update that has begun, with the stores that are still to be made. -/
def Progress.begun : Progress → Option (Halves × List Store)
  | .storing u rest => some (u, rest)
  | _ => Option.none

theorem Progress.begun_iff {p q : Progress} (h : p.begun = q.begun) (u : Halves) (rest : List Store) :
    p = .storing u rest ↔ q = .storing u rest := by
  cases p <;> cases q <;> simp_all [begun]

def Outcome.progress (b : Build) : Outcome → Progress
  | .goto pc => pc.progress b
  | .ret _ => .none

theorem Worker.continued_progress (w : Worker) (out : Outcome) :
    (w.continued call out).progress b = out.progress b := by
  cases out <;> rfl

theorem Call.answer_progress (target : ℕ) (v : Value) :
    (Call.answer b target v).progress b = .none := by
  cases b <;> rfl

theorem After.next_progress {op : SemaOp} {m : Sem} {s : SemaPc} (k : After) (ok : Bool) :
    (k.next b call ok).progress b = (Pc.sema op m s k).progress b := by
  have hretry : (Outcome.goto call.retry).progress b = .none := Call.retry_progress
  cases k with
  | locked x target =>
    cases ok with
    | false => exact hretry
    | true => rfl
  | retry => exact hretry
  | suspended x target d =>
    cases ok with
    | false => exact hretry
    | true => cases b <;> rfl
  | double u => cases ok <;> rfl
  | normal u => cases ok <;> rfl
  | updated u =>
    cases b with
    | cow => exact hretry
    | inplace => rfl
  | _ => rfl

theorem Halves.storing_fresh {l : List Store} (hl : l ≠ []) :
    (Pc.update u (storing false l)).progress b = .fresh u := by
  cases l with
  | nil => exact absurd rfl hl
  | cons s rest => rfl

theorem buddyStores_ne_nil (x s0 s1 : ℕ) : buddyStores b x s0 s1 ≠ [] := by
  unfold buddyStores
  split <;> cases b <;> simp

theorem Halves.next_progress {u : Halves} {k : UpdatePc}
    (hfits : (Pc.update u k).Fits b st f w.held w.owns call) (hk : k.commits = false) :
    (u.next b H call st k).2.progress b = (Pc.update u k).progress b := by
  cases k with
  | dir use =>
    cases use with
    | store begun s rest => cases begun <;> rfl
    | _ => rfl
  | depth use D =>
    cases use with
    | compare l =>
      simp only [next, withDepth]
      split <;> rfl
    | stride x =>
      obtain ⟨_, _, ⟨_, hl, _⟩, hnew, _⟩ := hfits
      have hD := hnew trivial
      have hlt : u.target_local_depth < (st.dirs D).depth := by
        rw [hD]
        exact hl
      exact Halves.storing_fresh (strideStores_ne_nil hlt)
    | _ => rfl
  | copyTest x d n j D =>
    simp only [next]
    split <;> rfl
  | copyStore x d n j s =>
    simp only [next]
    split <;> rfl
  | buddyLevel x n =>
    simp only [next]
    split
    · exact Halves.storing_fresh (buddyStores_ne_nil x u.s0 u.s1)
    · rfl
  | publish n => cases hk
  | store D begun s rest => cases hk
  | bump => cases hk
  | _ => rfl

/-- The steps that change how far an update is are those that commit, and `Split`. -/
theorem Pc.next_progress (hfits : pc.Fits b st f w.held w.owns call)
    (hs : ∀ target d, pc ≠ .split target d) (hk : ∀ u k, pc = .update u k → k.commits = false) :
    (pc.next b H call st).2.progress b = pc.progress b := by
  by_cases hu : ∃ u k, pc = .update u k
  · obtain ⟨u, k, rfl⟩ := hu
    exact Halves.next_progress hfits (hk u k rfl)
  · have hflow : Flow b H call st pc _ := pc.flows
    generalize (pc.next b H call st).2 = out at hflow ⊢
    have hretry : (Outcome.goto call.retry).progress b = .none := Call.retry_progress
    cases hflow with
    | absent r out h =>
      rw [h]
      exact hretry
    | sema op m s s' k => cases k <;> rfl
    | after op m s k ok out h =>
      rw [h]
      exact After.next_progress k ok
    | body x target y D out same h =>
      rw [h]
      cases call <;> rfl
    | released target out h =>
      rw [h]
      exact hretry
    | split target d => exact absurd rfl (hs target d)
    | update u k => exact absurd ⟨u, k, rfl⟩ hu
    | missing target out h =>
      rw [h]
      exact Call.answer_progress target _
    | answer target loc out h =>
      rw [h]
      exact Call.answer_progress target _
    | _ => rfl

/-- The other steps leave the updates that have begun as they are. -/
theorem Pc.next_begun (hfits : pc.Fits b st f w.held w.owns call)
    (hk : ∀ u k, pc = .update u k → k.commits = false) :
    ((pc.next b H call st).2.progress b).begun = (pc.progress b).begun := by
  by_cases hs : ∃ target d, pc = .split target d
  · obtain ⟨target, d, rfl⟩ := hs
    rfl
  · exact congrArg Progress.begun (next_progress hfits (fun target d he => hs ⟨target, d, he⟩) hk)

/-! ### The directory that a thread doubles -/

/-- The newest directory is the same, and so are those that are being built. -/
structure SameDirs (st st' : CCEH) : Prop where
  depth : st'.curDir.depth = st.curDir.depth
  capacity : st'.curDir.capacity = st.curDir.capacity
  segment : st'.curDir.segment = st.curDir.segment
  built : ∀ n, st.dir < n → n < st.ndir → (st'.dirs n).segment = (st.dirs n).segment

theorem SameShape.sameDirs (hs : SameShape st st') : SameDirs st st' :=
  ⟨hs.curDir.1, hs.curDir.2.1, hs.curDir.2.2, fun n _ _ => hs.segment n⟩

theorem Doubling.same {x : ℕ} (h : Doubling st u x) (hs : SameDirs st st') : Doubling st' u x :=
  ⟨hs.depth.trans h.depth, by rw [hs.depth]; exact h.index, by rw [hs.segment]; exact h.target⟩

/-- A point that doubles belongs to a thread that has suspended the directory. -/
theorem UpdatePc.Aimed.frame {held : Sem → ℕ} {owns : Sem → Bool} (h : k.Aimed st u)
    (hk : k.Fits b st f held owns u) (hs : OwnsDir st owns → SameDirs st st') : k.Aimed st' u := by
  cases k with
  | dir use =>
    cases use with
    | depth use =>
      cases use with
      | newDir x d => exact Doubling.same h (hs hk.1)
      | _ => trivial
    | source x => exact Doubling.same h (hs hk.1)
    | copy x d n j => exact Doubling.same h (hs hk.owned)
    | _ => trivial
  | depth use D =>
    cases use with
    | newDir x d => exact Doubling.same h (hs hk.2.1.1)
    | _ => trivial
  | newDir x d n => exact Doubling.same h (hs hk.1)
  | copyTest x d n j D => exact Doubling.same h (hs hk.1.owned)
  | copyRead x d n j => exact Doubling.same h (hs hk.1.owned)
  | copyStore x d n j s => exact Doubling.same h (hs hk.1.owned)
  | publish n =>
    obtain ⟨x, hx, hn⟩ := h
    obtain ⟨_, _, hc⟩ := hk
    have hsame := hs hc.owned
    refine ⟨x, hx.same hsame, fun j hj => ?_⟩
    rw [hsame.capacity] at hj
    rw [hsame.built n hc.lt hc.allocated, hn j hj]
    unfold doubledSegment
    rw [hsame.segment]
  | _ => trivial

theorem Halves.storing_aimed (begun : Bool) (l : List Store) : (storing begun l).Aimed st u := by
  cases l <;> trivial

section

variable [Fintype ι]

/-- Nobody else changes the directory that a thread has suspended. -/
theorem Sound.next_sameDirs (h : Sound b st f) (hnow : (f i).now = some (call, pc)) (hij : i ≠ j)
    (ho : OwnsDir st (f j).owns) : SameDirs st (pc.next b H call st).1 := by
  have hfits := h.fits_at hnow
  rcases Pc.next_shape b H st call pc with
    hs | ⟨target, d, rfl⟩ | ⟨u, k, rfl, hk⟩
  · exact hs.sameDirs
  · have ha := (allocSplit_spec b H st target).2
    have hcur : (allocSplit b H st target).1.curDir = st.curDir := by
      unfold CCEH.curDir
      rw [ha.dir, ha.dirs]
    exact ⟨congrArg Directory.depth hcur, congrArg Directory.capacity hcur,
      congrArg Directory.segment hcur, fun n _ _ => congrArg (fun D => (D n).segment) ha.dirs⟩
  · cases k with
    | newDir x d n =>
      have hcur : (st.poolStore (.newDir n)).curDir = st.curDir :=
        Function.update_of_ne h.dir_lt.ne ..
      exact ⟨congrArg Directory.depth hcur, congrArg Directory.capacity hcur,
        congrArg Directory.segment hcur,
        fun m _ hm => congrArg Directory.segment (Function.update_of_ne hm.ne ..)⟩
    | copyStore x d n l s => exact absurd (h.locks.owner_unique hfits.2.1.owned ho) hij
    | publish n =>
      obtain ⟨_, x, d, hc⟩ := hfits
      exact absurd (h.locks.owner_unique hc.owned ho) hij
    | store D begun s rest =>
      have hheld : 0 < (f i).held (.dir st.dir) := hfits.2.1
      have := (h.locks.of_owns ho).2.1 i
      omega
    | bump => exact ⟨rfl, rfl, rfl, fun _ _ _ => rfl⟩
    | _ => cases hk

/-- Where an update goes on. -/
theorem Sound.next_aimed (h : Sound b st f) (ho : Orderly b H st (f i))
    (hnow : (f i).now = some (call, .update u k)) (ha : k.Aimed st u) {u' : Halves} {k' : UpdatePc}
    (hn : (u.next b H call st k).2 = .update u' k') : k'.Aimed (u.next b H call st k).1 u' := by
  obtain ⟨hu, hfits⟩ := h.fits_at hnow
  cases k with
  | level =>
    cases hn
    trivial
  | dir use =>
    cases use with
    | depth use =>
      cases hn
      exact ha
    | source x =>
      cases hn
      exact ha
    | copy x d n j =>
      cases hn
      exact ha
    | store begun s rest =>
      cases hn
      trivial
    | _ => cases hn
  | depth use D =>
    obtain ⟨_, huse, hnewest, _⟩ := hfits
    cases use with
    | double =>
      cases hn
      obtain rfl := hnewest trivial
      obtain ⟨hd, ht⟩ : _ ∧ _ := by
        have := ho.2
        rw [hnow] at this
        exact this
      exact ⟨hd, topBits_lt_pow _ _, ht⟩
    | newDir x d =>
      cases hn
      exact ha
    | compare l =>
      cases hn
      simp only [Halves.withDepth]
      split <;> trivial
    | stride x =>
      cases hn
      exact Halves.storing_aimed ..
    | _ =>
      cases hn
      trivial
  | newDir x d n =>
    cases hn
    have hcur : (st.poolStore (.newDir n)).curDir = st.curDir :=
      Function.update_of_ne h.dir_lt.ne ..
    have ha : Doubling st u x := ha
    exact ⟨(congrArg Directory.depth hcur).trans ha.depth, by
      show x < 2 ^ (st.poolStore (.newDir n)).curDir.depth
      rw [hcur]
      exact ha.index, (congrArg (fun D => D.segment x) hcur).trans ha.target⟩
  | copyTest x d n j D =>
    obtain ⟨hc, rfl⟩ := hfits
    cases hn
    split
    · exact ha
    · next hge =>
      refine ⟨x, ha, fun l hl => hc.copied l ?_⟩
      have hl' : l < 2 * st.curDir.capacity := hl
      have : ¬ j < st.curDir.capacity := hge
      omega
  | copyRead x d n j =>
    cases hn
    exact ha
  | copyStore x d n j s =>
    obtain ⟨hc, _⟩ := hfits
    have hcur : (st.store (.newEntry n j s)).curDir = st.curDir := Function.update_of_ne hc.lt.ne ..
    have ha : Doubling st u x := ha
    have ha' : Doubling (st.store (.newEntry n j s)) u x := by
      refine ⟨?_, ?_, ?_⟩ <;> rw [hcur]
      · exact ha.depth
      · exact ha.index
      · exact ha.target
    cases hn
    split <;> exact ha'
  | publish n =>
    cases b with
    | cow => cases call <;> cases hn
    | inplace =>
      cases hn
      trivial
  | buddyLevel x n =>
    cases hn
    split
    · exact Halves.storing_aimed ..
    · trivial
  | store D begun s rest =>
    cases hn
    exact Halves.storing_aimed ..
  | bump => cases hn

end

/-! ### Every step -/

/-- In the copy-on-write build an update ends with its last store. -/
theorem Settles.finish_cow {g : ι → Progress} [DecidableEq ι] {entry : ℕ → ℕ}
    (hS : Settles .cow st (Function.update g i (.storing u [])) entry) :
    Settles .cow st (Function.update g i .none) entry := by
  have hback : ∀ k v rest, Function.update g i .none k = .storing v rest →
      Function.update g i (.storing u []) k = .storing v rest := by
    intro k v rest hk
    by_cases hki : k = i
    · rw [hki, Function.update_self] at hk
      cases hk
    · rw [Function.update_of_ne hki] at hk ⊢
      exact hk
  refine ⟨hS.blocked.congr (fun _ _ => rfl) fun e _ => ?_,
    fun k v rest hk => hS.pending k v rest (hback k v rest hk), fun e he hnone => ?_,
    fun k v rest hk => hS.nodup k v rest (hback k v rest hk)⟩
  · exact level_congr rfl ⟨fun hr => absurd hr.1 (by simp), fun hr => absurd hr.1 (by simp)⟩
  · refine hS.settled e he fun k v rest hk s hs => ?_
    by_cases hki : k = i
    · rw [hki, Function.update_self] at hk
      cases hk
      cases hs
    · rw [Function.update_of_ne hki] at hk
      exact hnone k v rest (by rw [Function.update_of_ne hki]; exact hk) s hs

theorem After.next_unaimed {a : After} {ok : Bool} {u : Halves} {k : UpdatePc}
    (hn : a.next b call ok = .goto (.update u k)) : k.Aimed st' u := by
  have hretry : call.retry ≠ .update u k := by cases call <;> simp [Call.retry]
  cases a with
  | locked x target =>
    cases ok with
    | false => exact absurd (Outcome.goto.inj hn) hretry
    | true => cases hn
  | retry => exact absurd (Outcome.goto.inj hn) hretry
  | suspended x target d =>
    cases ok with
    | false => exact absurd (Outcome.goto.inj hn) hretry
    | true => cases hn
  | double v =>
    cases ok <;> cases hn <;> trivial
  | normal v =>
    cases ok <;> cases hn <;> trivial
  | updated v =>
    cases b with
    | cow => exact absurd (Outcome.goto.inj hn) hretry
    | inplace =>
      cases hn
      trivial
  | _ => cases hn

/-- No other step comes to a point of an update that doubles the directory. -/
theorem Pc.next_unaimed (hpc : ∀ u k, pc ≠ .update u k) {u : Halves} {k : UpdatePc}
    (hn : (pc.next b H call st).2 = .goto (.update u k)) : k.Aimed st' u := by
  have hretry : call.retry ≠ .update u k := by cases call <;> simp [Call.retry]
  have hflow : Flow b H call st pc _ := pc.flows
  rw [hn] at hflow
  cases hflow with
  | absent r _ he => exact absurd (Outcome.goto.inj he).symm hretry
  | after op m s a ok _ he => exact After.next_unaimed he.symm
  | body x target y D _ same he => cases call <;> cases he
  | released target _ he => exact absurd (Outcome.goto.inj he).symm hretry
  | split target d s0 s1 => trivial
  | update v l _ he => exact absurd rfl (hpc v l)
  | missing target _ he => cases b <;> cases he
  | answer target loc _ he => cases b <;> cases he

theorem Worker.enter_cases {x : Worker} (hw : w.enter call = some x) :
    w.now = none ∧ x = { w with now := some (call, call.retry) } := by
  unfold Worker.enter at hw
  split at hw
  · next hnow =>
    cases hw
    exact ⟨hnow, rfl⟩
  · cases hw

/-- At first every segment is one entry. -/
theorem Tidy.start (segs : ℕ → Segment) (dirs : ℕ → Directory) (initCap : ℕ) :
    Tidy b (initCCEH (freshPool segs dirs) initCap) fun _ : ι => Worker.start := by
  have hinit := initCCEH_spec segs dirs (Nat.log2 initCap)
  rw [← initCCEH_log2] at hinit
  generalize initCCEH (freshPool segs dirs) initCap = st at *
  have hidle : ∀ j v rest, progresses b (fun _ : ι => Worker.start) j ≠ .storing v rest := by
    intro j v rest hj
    cases hj
  refine ⟨⟨st.curDir.segment, ⟨?_, fun j v rest hj => absurd hj (hidle j v rest), fun _ _ _ => rfl,
    fun j v rest hj => absurd hj (hidle j v rest)⟩⟩, fun j c v l hj => by cases hj⟩
  have hlevel : ∀ e < 2 ^ st.curDir.depth,
      level b st (progresses b fun _ : ι => Worker.start) (st.curDir.segment e) = st.curDir.depth := by
    intro e he
    rw [hinit.depth_eq] at he
    rw [level_of_not_raised, hinit.entry e he, (hinit.seg e he).2.1, hinit.depth_eq]
    rintro ⟨_, j, v, rest, hj, _⟩
    exact hidle j v rest hj
  refine ⟨fun e he => (hlevel e he).le, fun e he e' he' => ?_⟩
  rw [hlevel e he, Nat.sub_self, pow_zero, Nat.div_one, Nat.div_one]
  rw [hinit.depth_eq] at he he'
  rw [hinit.entry e he, hinit.entry e' he']
  omega

section

variable [Fintype ι]

/-- The other steps leave the newest directory and the local depths alone. -/
theorem Sound.next_table (h : Sound b st f) (hnow : (f i).now = some (call, pc))
    (hk : ∀ u k, pc = .update u k → k.commits = false) :
    (pc.next b H call st).1.curDir.depth = st.curDir.depth ∧
      (pc.next b H call st).1.curDir.segment = st.curDir.segment ∧
      ∀ p < st.nseg, ((pc.next b H call st).1.segs p).localDepth = (st.segs p).localDepth := by
  have hfits := h.fits_at hnow
  rcases Pc.next_shape b H st call pc with
    hs | ⟨target, d, rfl⟩ | ⟨u, k, rfl, hw⟩
  · exact ⟨hs.curDir.1, hs.curDir.2.2, fun p _ => hs.level p⟩
  · have ha := (allocSplit_spec b H st target).2
    have hcur : (allocSplit b H st target).1.curDir = st.curDir := by
      unfold CCEH.curDir
      rw [ha.dir, ha.dirs]
    exact ⟨congrArg Directory.depth hcur, congrArg Directory.segment hcur,
      fun p hp => congrArg Segment.localDepth (ha.older p hp)⟩
  · have hk := hk u k rfl
    cases k with
    | newDir x d n =>
      have hcur : (st.poolStore (.newDir n)).curDir = st.curDir :=
        Function.update_of_ne h.dir_lt.ne ..
      exact ⟨congrArg Directory.depth hcur, congrArg Directory.segment hcur, fun _ _ => rfl⟩
    | copyStore x d n l s =>
      have hcur : (st.store (.newEntry n l s)).curDir = st.curDir :=
        Function.update_of_ne hfits.2.1.lt.ne ..
      exact ⟨congrArg Directory.depth hcur, congrArg Directory.segment hcur, fun _ _ => rfl⟩
    | publish n => cases hk
    | store D begun s rest => cases hk
    | bump => cases hk
    | _ => cases hw

end

section

variable [DecidableEq ι]

theorem progresses_update (f : ι → Worker) (i : ι) (w : Worker) :
    progresses b (Function.update f i w) = Function.update (progresses b f) i (w.progress b) := by
  funext k
  by_cases hk : k = i
  · rw [hk, progresses, Function.update_self, Function.update_self]
  · rw [progresses, Function.update_of_ne hk, Function.update_of_ne hk]
    rfl

/-- An update whose stores are all made, in both builds. -/
theorem Settles.stored {g : ι → Progress} {entry : ℕ → ℕ}
    (hS : Settles b st (Function.update g i (.storing u [])) entry) :
    Settles b st (Function.update g i (u.stored b)) entry := by
  cases b with
  | cow => exact hS.finish_cow
  | inplace => exact hS

theorem progresses_enter (hw : (f i).enter call = some w) :
    progresses b (Function.update f i w) = progresses b f := by
  obtain ⟨hnow, rfl⟩ := Worker.enter_cases hw
  have hidle : progresses b f i = .none := by simp only [progresses, Worker.progress, hnow]
  rw [progresses_update, show Worker.progress b { f i with now := some (call, call.retry) } =
    progresses b f i from Call.retry_progress.trans hidle.symm, Function.update_eq_self]

theorem Tidy.enter (ht : Tidy b st f) (hw : (f i).enter call = some w) :
    Tidy b st (Function.update f i w) := by
  refine ⟨?_, fun j c v l hj => ?_⟩
  · rw [progresses_enter hw]
    exact ht.settles
  · obtain ⟨_, rfl⟩ := Worker.enter_cases hw
    by_cases hji : j = i
    · rw [hji, Function.update_self] at hj
      cases call <;> cases hj
    · rw [Function.update_of_ne hji] at hj
      exact ht.aimed j c v l hj

end

section

variable [Fintype ι] [DecidableEq ι]

/-- A store of an entry, the first one or a later one. -/
theorem Settles.store (h : Sound b st f) (ho : Orderly b H st (f i)) {D : ℕ} {begun : Bool}
    {s : Store} {rest : List Store} {entry : ℕ → ℕ}
    (hnow : (f i).now = some (call, .update u (.store D begun s rest)))
    (hS : Settles b st (progresses b f) entry) :
    ∃ entry', Settles b (u.next b H call st (.store D begun s rest)).1
      (Function.update (progresses b f) i (.storing u rest)) entry' ∧
      (∀ x p, s = .entry x p → entry' x = p) ∧
      (begun = true ∧ entry' = entry ∨ begun = false ∧ ∃ x < 2 ^ st.curDir.depth,
        entry x = u.target ∧
        entry' = splitBlock st.curDir.depth u.target_local_depth x u.s0 u.s1 entry) := by
  obtain ⟨_, _, rfl, hl, hstores, hmem⟩ := h.fits_at hnow
  obtain ⟨x, _, p, rfl, _⟩ := hmem _ (List.mem_cons_self ..)
  change ∃ entry', Settles b (st.store (.entry x p)) _ entry' ∧ _ ∧ _
  have hprog : (f i).progress b = (Pc.update u (.store st.dir begun (.entry x p) rest)).progress b := by
    simp only [Worker.progress, hnow]
  have hfirst : ∃ entry', Settles b st (Function.update (progresses b f) i
      (.storing u (.entry x p :: rest))) entry' ∧
      (begun = true ∧ entry' = entry ∨ begun = false ∧ ∃ x < 2 ^ st.curDir.depth,
        entry x = u.target ∧
        entry' = splitBlock st.curDir.depth u.target_local_depth x u.s0 u.s1 entry) := by
    cases begun with
    | true =>
      refine ⟨entry, ?_, Or.inl ⟨rfl, rfl⟩⟩
      rw [show Progress.storing u (.entry x p :: rest) = progresses b f i from hprog.symm,
        Function.update_eq_self]
      exact hS
    | false =>
      obtain ⟨y, hy, hlist⟩ := hstores rfl
      have hrep : ∀ e ∈ Store.entry x p :: rest, e.Replaces st.curDir u.target := by
        have := ho.2
        rw [hnow] at this
        exact this
      rw [hlist] at hrep ⊢
      obtain ⟨hroot, hS'⟩ := hS.begin h hprog hl hy hrep
      exact ⟨_, hS', Or.inr ⟨rfl, y, hy, hroot, rfl⟩⟩
  obtain ⟨entry', hS', hfrom⟩ := hfirst
  refine ⟨entry', ?_, fun y q he => ?_, hfrom⟩
  rotate_left
  · cases he
    exact (hS'.pending i u _ (Function.update_self ..) x p (List.mem_cons_self ..)).1
  have := hS'.advance (Function.update_self ..) fun j hj => ?_
  · rwa [Function.update_idem] at this
  · rw [Function.update_self, Function.update_of_ne hj]
    intro v v' hv hv'
    have hapart := h.progress_apart (i := i) (j := j) hj.symm u v' (by
      cases begun with
      | false => exact Or.inl hprog
      | true => exact Or.inr ⟨_, hprog⟩) hv'
    rcases hv with hv | ⟨r, hv⟩
    · cases hv
    · cases hv
      exact hapart

/-- Every step keeps the directory that the pending stores lead to, or replaces one block. -/
theorem Tidy.run_settles (h : Sound b st f) (ht : Tidy b st f) (ho : Orderly b H st (f i))
    (hnow : (f i).now = some (call, pc)) :
    ∃ entry, Settles b (pc.next b H call st).1
      (Function.update (progresses b f) i ((pc.next b H call st).2.progress b)) entry := by
  obtain ⟨entry, hS⟩ := ht.settles
  have hprog : (f i).progress b = pc.progress b := by simp only [Worker.progress, hnow]
  by_cases hk : ∀ u k, pc = .update u k → k.commits = false
  · obtain ⟨hdepth, hsegment, hlevel⟩ := h.next_table (H := H) hnow hk
    refine ⟨entry, hS.keep hdepth hsegment (fun e he => hlevel _ (hS.shared h he).lt) ?_⟩
    intro j v rest
    by_cases hji : j = i
    · rw [hji, Function.update_self, progresses, hprog]
      exact Progress.begun_iff (Pc.next_begun (h.fits_at hnow) hk) v rest
    · rw [Function.update_of_ne hji]
  · obtain ⟨u, k, rfl, hc⟩ : ∃ u k, pc = .update u k ∧ k.commits = true := by
      by_contra hnone
      exact hk fun u k he => Bool.eq_false_iff.mpr fun hc => hnone ⟨u, k, he, hc⟩
    cases k with
    | publish n =>
      obtain ⟨_, _, _, hc⟩ := h.fits_at hnow
      obtain ⟨x, hx, hn⟩ := ht.aimed i call u _ hnow
      have hafter : ((Pc.update u (.publish n)).next b H call st).2.progress b = u.stored b := by
        cases b with
        | cow => exact Call.retry_progress
        | inplace => rfl
      refine ⟨(st.dirs n).segment, ?_⟩
      rw [hafter]
      exact (hS.publish h hprog hc.owned hx.depth hx.index hx.target hc.depth hn).stored
    | store D begun s rest =>
      obtain ⟨entry', hS', _⟩ := hS.store h ho hnow
      refine ⟨entry', ?_⟩
      cases rest with
      | nil => exact hS'.stored
      | cons e rest => exact hS'
    | bump =>
      obtain ⟨_, hb, _⟩ := h.fits_at hnow
      subst b
      exact ⟨entry, hS.bump h hprog rfl⟩
    | _ => cases hc

/-- The updates stay apart in every step of a call. -/
theorem Tidy.run (h : Sound b st f) (ht : Tidy b st f) (ho : Orderly b H st (f i))
    (hnow : (f i).now = some (call, pc)) :
    Tidy b (pc.next b H call st).1 (Function.update f i ((f i).after b H st call pc)) := by
  refine ⟨?_, fun j c v l hj => ?_⟩
  · rw [progresses_update, Worker.after, Worker.continued_progress]
    exact ht.run_settles h ho hnow
  · by_cases hji : j = i
    · rw [hji, Function.update_self, Worker.after] at hj
      cases hn : (pc.next b H call st).2 with
      | ret r =>
        rw [hn] at hj
        cases hj
      | goto pc' =>
        rw [hn] at hj
        cases hj
        by_cases hpc : ∃ u k, pc = .update u k
        · obtain ⟨u, k, rfl⟩ := hpc
          exact h.next_aimed ho hnow (ht.aimed i call u k hnow) (Outcome.goto.inj hn)
        · exact Pc.next_unaimed (fun u k he => hpc ⟨u, k, he⟩) hn
    · rw [Function.update_of_ne hji] at hj
      exact (ht.aimed j c v l hj).frame (h.fits_at hj).2
        fun hown => h.next_sameDirs hnow (Ne.symm hji) hown

theorem Tidy.step (h : Sound b st f) (ht : Tidy b st f) {choice : Option Call}
    (hn : given (Orderly b H) (Worker.next b H) i choice st (f i) = some (st', w)) :
    Tidy b st' (Function.update f i w) := by
  obtain ⟨ho, hn⟩ := given_eq_some.mp hn
  rcases Worker.next_cases hn with ⟨call, _, rfl, hw⟩ | ⟨call, pc, _, hnow, rfl, rfl⟩
  · exact ht.enter hw
  · exact Tidy.run h ht ho hnow

theorem reaches_tidy {segs : ℕ → Segment} {dirs : ℕ → Directory} {initCap : ℕ}
    {c : Config ι CCEH Worker}
    (hr : Reaches (given (Orderly b H) (Worker.next b H)) (startThreads segs dirs initCap) c) :
    Sound b c.shared c.threads ∧ Tidy b c.shared c.threads := by
  refine Reaches.invariant (P := fun st f => Sound b st f ∧ Tidy b st f)
    ⟨Sound.start segs dirs initCap, Tidy.start segs dirs initCap⟩ (fun _ _ _ _ _ _ h hn => ?_) hr
  obtain ⟨ho, hn'⟩ := given_eq_some.mp hn
  exact ⟨h.1.step (given_eq_some.mpr ⟨ho.1, hn'⟩), Tidy.step h.1 h.2 hn⟩

end

end Steps

end PmemStudy.Cceh
