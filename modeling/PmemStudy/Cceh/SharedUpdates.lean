import PmemStudy.Cceh.SharedSteps

/-!
# Updates of the shared directory

The steps of `Insert` from `Split` on. A directory that is being doubled is suspended, so
that its entries do not change under the copying loop; the new one is complete when it is
published.
-/

namespace PmemStudy.Cceh

open AlignedBlocks SuspendLock Threads

/-! ### The stores of a normal split -/

theorem mem_strideStores {b : Build} {u : Halves} {d l x : ℕ} {e : Store} (hl : l < d)
    (hx : x < 2 ^ d) (he : e ∈ strideStores b (2 ^ (d - l)) x u.s0 u.s1) :
    ∃ i < 2 ^ d, ∃ s, e = .entry i s ∧ u.New b s := by
  have hend := block_end d l x hl.le hx
  have hhalf : 2 ^ (d - l) = 2 * 2 ^ (d - l - 1) := by
    rw [← pow_succ']
    congr 1
    omega
  have hdiv : 2 ^ (d - l) / 2 = 2 ^ (d - l - 1) := by omega
  have hupper : ∀ i < 2 ^ (d - l) / 2, x - x % 2 ^ (d - l) + 2 ^ (d - l) / 2 + i < 2 ^ d := by
    intro i hi
    omega
  cases b with
  | cow =>
    simp only [strideStores, List.mem_append, List.mem_map, List.mem_range] at he
    rcases he with ⟨i, hi, rfl⟩ | ⟨i, hi, rfl⟩
    · exact ⟨_, hupper i hi, _, rfl, Or.inr rfl⟩
    · exact ⟨x - x % 2 ^ (d - l) + i, by omega, _, rfl, Or.inl rfl⟩
  | inplace =>
    simp only [strideStores, List.mem_map, List.mem_range] at he
    obtain ⟨i, hi, rfl⟩ := he
    exact ⟨_, hupper i hi, _, rfl, rfl⟩

theorem strideStores_ne_nil {b : Build} {d l x s0 s1 : ℕ} (hl : l < d) :
    strideStores b (2 ^ (d - l)) x s0 s1 ≠ [] := by
  have hpos : 0 < 2 ^ (d - l) / 2 := by
    have hhalf : 2 ^ (d - l) = 2 * 2 ^ (d - l - 1) := by
      rw [← pow_succ']
      congr 1
      omega
    have := Nat.two_pow_pos (d - l - 1)
    omega
  intro h
  have hlen := strideStores_length b (2 ^ (d - l)) x s0 s1
  rw [h] at hlen
  cases b <;> simp only [List.length_nil] at hlen <;> omega

section Steps

variable {ι : Type} {b : Build} {H : HashFuncs} {st st' : CCEH}
  {f : ι → Worker} {i j : ι} {w : Worker} {call : Call} {u : Halves} {k : UpdatePc}

/-! ### Reading the directory -/

theorem Halves.own_doubled (u : Halves) (D : Directory) (x j : ℕ) :
    (u.own x j).getD (D.segment (j / 2)) = doubledSegment D x u.s0 u.s1 j := by
  unfold own doubledSegment
  split <;> rfl

section

variable [Fintype ι] [DecidableEq ι]

theorem Sound.read_update (h : Sound b st f) (hnow : (f i).now = some (call, .update u k)) {pc' : Pc}
    (henter : pc'.Enters st (f i))
    (hprog : ∀ v, pc'.progress b = .fresh v → k.progress b u = .fresh v)
    (hself : pc'.Fits b st f (f i).held (f i).owns call) :
    Sound b st (Function.update f i ((f i).continued call (.goto pc'))) := by
  refine h.read hnow (by simp) henter ?_ hself
  rintro p ⟨v, hv, hn⟩
  refine ⟨v, ?_, hn⟩
  simp only [Worker.progress, hnow]
  exact hprog v hv

theorem Sound.run_dir (h : Sound b st f) {use : DirUse}
    (hnow : (f i).now = some (call, .update u (.dir use))) :
    Sound b st (Function.update f i ((f i).continued call (.goto (u.withDir st.dir use)))) := by
  obtain ⟨hu, hk⟩ := h.fits_at hnow
  have hle : u.target_local_depth ≤ st.curDir.depth := by
    rw [← hu.level]
    exact hu.target.shared.level_le
  cases use with
  | depth use =>
    exact h.read_update hnow trivial (fun v hv => hv) ⟨hu, h.known_dir, hk, fun _ => rfl, hle⟩
  | suspend =>
    exact h.read_update hnow ⟨rfl, h.dir_lt, fun ho => by cases ho⟩ (fun v hv => hv)
      ⟨rfl, ⟨_, rfl, h.known_dir⟩, hu, fun val hs => by cases hs⟩
  | source x => exact h.read_update hnow trivial (fun v hv => hv) ⟨hu, hk.1, rfl, hk.2⟩
  | copy x d n i => exact h.read_update hnow trivial (fun v hv => hv) ⟨hu, hk, rfl⟩
  | lock =>
    exact h.read_update hnow ⟨rfl, h.dir_lt, fun ho => by cases ho⟩ (fun v hv => hv)
      ⟨rfl, ⟨_, rfl, h.known_dir⟩, hu, hk⟩
  | store begun s rest =>
    refine h.read_update hnow trivial (fun v hv => ?_) ⟨hu, hk.1, rfl, hk.2⟩
    cases begun <;> exact hv
  | unlock =>
    exact h.read_update hnow ⟨rfl, h.dir_lt, fun _ => hk.1⟩ (fun v hv => hv)
      ⟨rfl, rfl, hk.1, hu, hk.2⟩

/-- The stores of a normal split are known. -/
theorem Sound.read_storing (h : Sound b st f) (hnow : (f i).now = some (call, .update u k))
    (hk : k.progress b u = .fresh u) (hu : u.Fits b st f (f i).owns false)
    (hheld : HoldsDir st (f i).held) (hl : u.target_local_depth < st.curDir.depth) {x : ℕ}
    (hx : x < 2 ^ st.curDir.depth) :
    Sound b st (Function.update f i ((f i).continued call (.goto (.update u (Halves.storing false
      (strideStores b (2 ^ (st.curDir.depth - u.target_local_depth)) x u.s0 u.s1)))))) := by
  cases hs : strideStores b (2 ^ (st.curDir.depth - u.target_local_depth)) x u.s0 u.s1 with
  | nil => exact absurd hs (strideStores_ne_nil hl)
  | cons s rest =>
    refine h.read_update hnow trivial (fun v hv => hk.trans hv)
      ⟨hu, hheld, hl, fun _ => ⟨x, hx, hs.symm⟩, ?_⟩
    intro e he
    exact mem_strideStores hl hx (hs ▸ he)

theorem Sound.run_depth (h : Sound b st f) {use : DepthUse} {D : ℕ}
    (hnow : (f i).now = some (call, .update u (.depth use D))) :
    Sound b st (Function.update f i ((f i).continued call
      (.goto (.update u (u.withDepth b H call (st.dirs D).depth use))))) := by
  obtain ⟨hu, _, hk, hnew, hl⟩ := h.fits_at hnow
  cases use with
  | compare l =>
    obtain rfl : l = u.target_local_depth := hk
    simp only [Halves.withDepth]
    split
    · exact h.read_update hnow trivial (fun v hv => hv) ⟨hu, trivial⟩
    · next hne =>
      refine h.read_update hnow trivial (fun v hv => hv) ⟨hu, ?_⟩
      have hle : (st.dirs D).depth ≤ st.curDir.depth := by
        obtain ⟨_, hkn, _⟩ := h.fits_at hnow
        exact hkn.depth_le
      show u.target_local_depth < st.curDir.depth
      omega
  | double =>
    obtain rfl := hnew trivial
    exact h.read_update hnow trivial (fun v hv => hv) ⟨hu, hk, topBits_lt_pow _ _⟩
  | newDir x d =>
    obtain rfl := hnew trivial
    exact h.read_update hnow trivial (fun v hv => hv) ⟨hu, hk.1, hk.2.1, rfl, hk.2.2⟩
  | index =>
    obtain rfl := hnew trivial
    exact h.read_update hnow trivial (fun v hv => hv) ⟨hu, hk.1, hk.2, topBits_lt_pow _ _⟩
  | buddy x =>
    obtain rfl := hnew trivial
    exact h.read_update hnow trivial (fun v hv => hv) ⟨hu, hk.1, rfl, hk.2⟩
  | stride x =>
    obtain rfl := hnew trivial
    exact h.read_storing hnow rfl hu hk.1 hk.2.1 hk.2.2

/-- The steps of an update that read. -/
theorem Sound.run_reading (h : Sound b st f) (hnow : (f i).now = some (call, .update u k))
    (hsame : (u.next b H call st k).1 = st)
    (hk : match k with
      | .level | .dir _ | .depth _ _ | .copyTest .. | .copyRead .. | .buddyLevel .. => True
      | _ => False) :
    Sound b st (Function.update f i ((f i).continued call (.goto (u.next b H call st k).2))) := by
  have hfits := h.fits_at hnow
  cases k with
  | level => exact h.read_update hnow trivial (fun v hv => hv) ⟨hfits.1, hfits.1.level⟩
  | dir use => exact h.run_dir hnow
  | depth use D => exact h.run_depth hnow
  | copyTest x d n i D =>
    obtain ⟨hu, hc, rfl⟩ := hfits
    simp only [Halves.next]
    split
    · next hlt =>
      refine h.read_update hnow trivial (fun v hv => hv) ⟨hu, hc, ?_⟩
      have : i < st.curDir.capacity := hlt
      omega
    · next hge =>
      refine h.read_update hnow trivial (fun v hv => hv) ⟨hu, x, d, ?_⟩
      refine ⟨hc.owned, hc.index, hc.source, hc.lt, hc.allocated, hc.depth, hc.capacity, fun j hj => ?_⟩
      have : ¬ i < st.curDir.capacity := hge
      exact hc.copied j (by omega)
  | copyRead x d n j =>
    obtain ⟨hu, hc, hj⟩ := hfits
    refine h.read_update hnow trivial (fun v hv => hv) ⟨hu, hc, hj, ?_⟩
    rw [hc.source]
    exact u.own_doubled st.curDir x j
  | buddyLevel x n =>
    obtain ⟨hu, hheld, rfl, hl, hx⟩ := hfits
    simp only [Halves.next]
    split
    · next hone =>
      rw [hu.level] at hone
      have hd : st.curDir.depth - u.target_local_depth = 1 := by omega
      have := h.read_storing hnow rfl hu hheld hl hx
      rw [hd, pow_one, ← buddyStores_eq] at this
      exact this
    · exact h.read_update hnow trivial (fun v hv => hv) ⟨hu, hheld, hl, hx⟩
  | newDir x d n => exact absurd hk id
  | copyStore x d n j s => exact absurd hk id
  | publish n => exact absurd hk id
  | store D begun s rest => exact absurd hk id
  | bump => exact absurd hk id

end

/-! ### Steps that allocate -/

/-- A new half lies beyond the segments of the pool. -/
theorem half_new {b : Build} {st : CCEH} {target d : ℕ} {s : ℕ}
    (hs : (⟨target, d, st.half b target false, st.half b target true⟩ : Halves).New b s) :
    ∃ bit, Segment.Copies b bit ∧ s = st.half b target bit ∧ st.nseg ≤ s := by
  cases b with
  | cow =>
    rcases hs with rfl | rfl
    · exact ⟨false, trivial, rfl, le_rfl⟩
    · exact ⟨true, trivial, rfl, Nat.le_succ _⟩
  | inplace => exact ⟨true, rfl, hs, hs.ge⟩

/-- The segments that `Split` allocates are its halves. -/
theorem Allocated.nseg_lt {b : Build} {H : HashFuncs} {st a : CCEH} {target : ℕ}
    (ha : Allocated b H st target a) (ht : target < st.nseg) (bit : Bool) :
    st.half b target bit < a.nseg := by
  rw [ha.nseg]
  cases b <;> cases bit <;> simp only [CCEH.half] <;> omega

theorem Allocated.new_half {b : Build} {H : HashFuncs} {st a : CCEH} {target p : ℕ}
    (ha : Allocated b H st target a) (hp : p < a.nseg) (hn : st.nseg ≤ p) :
    ∃ bit, Segment.Copies b bit ∧ p = st.half b target bit := by
  rw [ha.nseg] at hp
  cases b with
  | cow =>
    have hp' : p < st.nseg + 2 := hp
    by_cases he : p = st.nseg
    · exact ⟨false, trivial, he⟩
    · refine ⟨true, trivial, ?_⟩
      show p = st.nseg + 1
      omega
  | inplace =>
    have hp' : p < st.nseg + 1 := hp
    refine ⟨true, rfl, ?_⟩
    show p = st.nseg
    omega

section

variable [Fintype ι] [DecidableEq ι]

theorem Sound.run_split (h : Sound b st f) {target d : ℕ}
    (hnow : (f i).now = some (call, .split target d)) :
    Sound b ((Pc.split target d).next b H call st).1
      (Function.update f i ((f i).after b H st call (.split target d))) := by
  obtain ⟨hptr, ha⟩ := allocSplit_spec b H st target
  have hout : ((Pc.split target d).next b H call st).2 = .goto (.update
      ⟨target, d, st.half b target false, st.half b target true⟩ .level) := by
    simp only [Pc.next, hptr]
  rw [Worker.after, hout]
  change Sound b (allocSplit b H st target).1 (Function.update f i ((f i).continued call
    (.goto (.update ⟨target, d, st.half b target false, st.half b target true⟩ .level))))
  obtain ⟨htarget, rfl⟩ := h.fits_at hnow
  generalize (allocSplit b H st target).1 = a at ha
  have hseg := ha.older
  have hcur : a.curDir = st.curDir := by
    unfold CCEH.curDir
    rw [ha.dir, ha.dirs]
  have hnseg : st.nseg ≤ a.nseg := by
    rw [ha.nseg]
    cases b <;> simp only <;> omega
  have hsema : ∀ m, st.Has m → a.Has m ∧ a.sema m = st.sema m := by
    intro m hm
    cases m with
    | seg p => exact ⟨⟨hm.1, hm.2.trans_le hnseg⟩, congrArg Segment.sema (hseg p hm.2)⟩
    | dir D =>
      refine ⟨?_, ?_⟩
      · show D < a.ndir
        rw [ha.ndir]
        exact hm
      · show (a.dirs D).sema = _
        rw [ha.dirs]
        rfl
  have hlocks : Locks a (Function.update f i ((f i).continued call (.goto (.update
      ⟨target, (st.segs target).localDepth, st.half b target false, st.half b target true⟩
      .level)))) := by
    refine h.locks.other_step hnow (by simp) hsema ?_ trivial
    intro m hm hn
    cases m with
    | seg p =>
      have hp : st.nseg ≤ p := Nat.le_of_not_lt fun hlt => hn ⟨hm.1, hlt⟩
      obtain ⟨bit, hbit, rfl⟩ := ha.new_half hm.2 hp
      exact (ha.copied bit hbit).sema
    | dir D =>
      refine absurd ?_ hn
      show D < st.ndir
      rw [← ha.ndir]
      exact hm
  have e : Evolves b st a f (Function.update f i ((f i).continued call (.goto (.update
      ⟨target, (st.segs target).localDepth, st.half b target false, st.half b target true⟩
      .level)))) := by
    refine ⟨hnseg, ha.ndir.ge, ha.dir.ge, by rw [hcur], fun D _ => by rw [ha.dirs]; exact ⟨rfl, rfl⟩,
      fun D _ x => Or.inl (by rw [ha.dirs]), ?_, ?_, fun D _ hD => ?_⟩
    · intro p hp
      rw [hseg p hp.lt, hcur]
      exact hp.level_le
    · rintro k p ⟨v, hv, hn⟩
      by_cases hk : k = i
      · rw [hk, Function.update_self] at hv
        obtain rfl : _ = v := Progress.fresh.inj hv
        obtain ⟨_, _, _, hle⟩ := half_new hn
        exact Or.inr hle
      · rw [Function.update_of_ne hk] at hv
        exact Or.inl ⟨v, hv, hn⟩
    · rw [ha.dir, ha.dirs]
      exact hD
  refine h.assemble hlocks e ?_ ?_ ?_ ?_ ⟨⟨?_, ?_, ?_, ?_, ?_⟩, trivial⟩
  · rw [hcur]
    exact h.capacity
  · rw [ha.dir, ha.ndir]
    exact h.dir_lt
  · intro x hx
    rw [hcur] at hx ⊢
    exact (h.dir x hx).evolves e
  · intro j _
    refine ⟨fun _ p hp => by rw [hseg p hp], fun p hp => ?_, fun p hp => ?_, fun _ => ha.dir,
      fun _ => ⟨by rw [hcur], fun n _ _ => by rw [ha.dirs]; exact ⟨rfl, rfl, rfl⟩⟩⟩
    · rw [hseg p (h.locks.has_of_owns hp).2]
    · rw [hseg p (h.new_half hp).2]
  · exact htarget.frame e
  · rw [hseg target htarget.shared.lt]
  · intro s hs
    obtain ⟨bit, hbit, rfl, hle⟩ := half_new hs
    refine ⟨?_, ha.nseg_lt htarget.shared.lt bit, fun _ => (ha.copied bit hbit).localDepth,
      fun hb => by cases hb⟩
    have := htarget.shared.lt
    show st.half b target bit ≠ 0
    omega
  · rintro rfl
    rfl
  · exact st.half_ne b target htarget.shared.lt

end

/-! ### Doubling -/

section

variable [DecidableEq ι]

/-- A half is fresh in the threads as long as it was fresh before. -/
theorem fresh_kept {pc q : Pc} (hnow : (f i).now = some (call, pc))
    (hprog : q.progress b = pc.progress b) (k : ι) (p : ℕ)
    (h : (Function.update f i ((f i).continued call (.goto q)) k).Fresh b p) : (f k).Fresh b p := by
  obtain ⟨v, hv, hn⟩ := h
  by_cases hk : k = i
  · refine ⟨v, ?_, hn⟩
    rw [hk, Function.update_self] at hv
    subst k
    simp only [Worker.progress, hnow]
    rw [← hprog]
    exact hv
  · rw [Function.update_of_ne hk] at hv
    exact ⟨v, hv, hn⟩

end

section

variable [Fintype ι] [DecidableEq ι]

/-- A step of an update that changes directories only. -/
theorem Sound.dirs_step (h : Sound b st f) (hnow : (f i).now = some (call, .update u k)) {pc' : Pc}
    (henter : pc'.Enters st' (f i)) (hsegs : st'.segs = st.segs) (hnseg : st'.nseg = st.nseg)
    (hndir : st.ndir ≤ st'.ndir) (hsema : ∀ D < st.ndir, (st'.dirs D).sema = (st.dirs D).sema)
    (hnew : ∀ D, st.ndir ≤ D → D < st'.ndir → (st'.dirs D).sema = 0)
    (e : Evolves b st st' f (Function.update f i ((f i).continued call (.goto pc'))))
    (hcap : st'.curDir.capacity = 2 ^ st'.curDir.depth) (hlt : st'.dir < st'.ndir)
    (hdir : ∀ x < 2 ^ st'.curDir.depth, Public b st'
      (Function.update f i ((f i).continued call (.goto pc'))) (st'.curDir.segment x))
    (hothers : ∀ j, j ≠ i →
      (HoldsDir st (f j).held ∨ OwnsDir st (f j).owns ∨ AwaitsDir st (f j) → st'.dir = st.dir) ∧
      (OwnsDir st (f j).owns → st'.curDir.segment = st.curDir.segment ∧
        ∀ n, st.dir < n → n < st.ndir → st'.dirs n = st.dirs n))
    (hself : pc'.Fits b st' (Function.update f i ((f i).continued call (.goto pc')))
      (f i).held (f i).owns call) :
    Sound b st' (Function.update f i ((f i).continued call (.goto pc'))) := by
  refine h.assemble (h.locks.other_step hnow (by simp) ?_ ?_ henter) e hcap hlt hdir ?_ hself
  · intro m hm
    cases m with
    | seg p =>
      refine ⟨?_, ?_⟩
      · show p ≠ OID_NULL ∧ p < st'.nseg
        rw [hnseg]
        exact hm
      · show (st'.segs p).sema = _
        rw [hsegs]
        rfl
    | dir D => exact ⟨Nat.lt_of_lt_of_le hm hndir, hsema D hm⟩
  · intro m hm hn
    cases m with
    | seg p =>
      refine absurd ?_ hn
      show p ≠ OID_NULL ∧ p < st.nseg
      rw [← hnseg]
      exact hm
    | dir D => exact hnew D (Nat.le_of_not_lt hn) hm
  · intro j hj
    refine ⟨fun _ p _ => by rw [hsegs], fun p _ => by rw [hsegs], fun p _ => by rw [hsegs],
      (hothers j hj).1, fun ho => ⟨((hothers j hj).2 ho).1, fun n hn hlt => ?_⟩⟩
    rw [((hothers j hj).2 ho).2 n hn hlt]
    exact ⟨rfl, rfl, rfl⟩

theorem Sound.run_newDir (h : Sound b st f) {x d n : ℕ}
    (hnow : (f i).now = some (call, .update u (.newDir x d n))) :
    Sound b (st.poolStore (.newDir n)) (Function.update f i ((f i).continued call
      (.goto (.update u (.dir (.copy x d st.ndir 0)))))) := by
  obtain ⟨hu, howns, rfl, rfl, hx⟩ := h.fits_at hnow
  have hdirs : ∀ D < st.ndir, (st.poolStore (.newDir (st.curDir.depth + 1))).dirs D = st.dirs D :=
    fun D hD => Function.update_of_ne hD.ne ..
  have hnew : (st.poolStore (.newDir (st.curDir.depth + 1))).dirs st.ndir =
      (st.dirs st.ndir).initDirectory (st.curDir.depth + 1) := Function.update_self ..
  have hcur : (st.poolStore (.newDir (st.curDir.depth + 1))).curDir = st.curDir :=
    hdirs st.dir h.dir_lt
  have hdir : (st.poolStore (.newDir (st.curDir.depth + 1))).dir = st.dir := rfl
  have hold : ∀ D ≤ st.dir, (st.poolStore (.newDir (st.curDir.depth + 1))).dirs D = st.dirs D :=
    fun D hD => hdirs D (hD.trans_lt h.dir_lt)
  have hndir : (st.poolStore (.newDir (st.curDir.depth + 1))).ndir = st.ndir + 1 := rfl
  have hsegs : (st.poolStore (.newDir (st.curDir.depth + 1))).segs = st.segs := rfl
  have hnseg : (st.poolStore (.newDir (st.curDir.depth + 1))).nseg = st.nseg := rfl
  generalize st.poolStore (.newDir (st.curDir.depth + 1)) = a at *
  have hkept := fresh_kept (b := b) (q := .update u (.dir (.copy x st.dir st.ndir 0))) hnow rfl
  have e : Evolves b st a f (Function.update f i ((f i).continued call
      (.goto (.update u (.dir (.copy x st.dir st.ndir 0)))))) := by
    refine ⟨hnseg.ge, by omega, hdir.ge, by rw [hcur], fun D hD => ?_, fun D hD x => Or.inl ?_,
      fun p hp => ?_, fun k p hp => Or.inl (hkept k p hp), fun D hD hs => ?_⟩
    · rw [hold D hD]
      exact ⟨rfl, rfl⟩
    · rw [hold D hD]
    · rw [hsegs, hcur]
      exact hp.level_le
    · rw [hdir, hold D hD]
      exact hs
  refine h.dirs_step hnow trivial hsegs hnseg (by omega) (fun D hD => by rw [hdirs D hD]) ?_ e ?_ ?_ ?_
    (fun j _ => ⟨fun _ => hdir, fun _ => ⟨by rw [hcur], fun n _ hn => hdirs n hn⟩⟩) ⟨?_, ?_⟩
  · intro D hge hlt
    obtain rfl : D = st.ndir := by omega
    rw [hnew]
    rfl
  · rw [hcur]
    exact h.capacity
  · have := h.dir_lt
    omega
  · intro y hy
    rw [hcur] at hy ⊢
    exact (h.dir y hy).evolves e
  · refine hu.frame (w := f i) (fun _ => ?_) e ⟨fun _ p _ => by rw [hsegs], fun p _ => by rw [hsegs],
      fun p _ => by rw [hsegs], fun _ => hdir, fun _ => ⟨by rw [hcur], fun n _ hn => ?_⟩⟩
    · simp only [Worker.progress, hnow]
      rfl
    · rw [hdirs n hn]
      exact ⟨rfl, rfl, rfl⟩
  · refine ⟨?_, by rw [hcur]; exact hx, hdir.symm, ?_, ?_, ?_, ?_, fun j hj => by omega⟩
    · unfold OwnsDir
      rw [hdir]
      exact howns
    · rw [hdir]
      exact h.dir_lt
    · omega
    · rw [hnew, hcur]
      rfl
    · rw [hnew, hcur]
      rfl

/-- Only the thread that doubles the directory stores into the new one. -/
theorem Sound.run_copyStore (h : Sound b st f) {x d n j s : ℕ}
    (hnow : (f i).now = some (call, .update u (.copyStore x d n j s))) :
    Sound b (st.store (.newEntry n j s)) (Function.update f i ((f i).continued call
      (.goto (.update u (if j % 2 = 0 then .copyRead x d n (j + 1)
        else .dir (.copy x d n (j / 2 + 1))))))) := by
  obtain ⟨hu, hc, hj, hs⟩ := h.fits_at hnow
  have hdirs : ∀ D, D ≠ n →
      (st.store (.newEntry n j s)).dirs D = st.dirs D :=
    fun D hD => Function.update_of_ne hD ..
  have hn : (st.store (.newEntry n j s)).dirs n =
      { st.dirs n with segment := Function.update (st.dirs n).segment j s } := Function.update_self ..
  have hcur : (st.store (.newEntry n j s)).curDir =
      st.curDir := hdirs st.dir hc.lt.ne
  have hsema : ∀ D, ((st.store (.newEntry n j s)).dirs D).sema = (st.dirs D).sema := by
    intro D
    by_cases hD : D = n
    · rw [hD, hn]
    · rw [hdirs D hD]
  have hold : ∀ D ≤ st.dir, (st.store (.newEntry n j s)).dirs D = st.dirs D :=
    fun D hD => hdirs D (hD.trans_lt hc.lt).ne
  have hdir : (st.store (.newEntry n j s)).dir = st.dir := rfl
  have hndir : (st.store (.newEntry n j s)).ndir =
      st.ndir := rfl
  have hsegs : (st.store (.newEntry n j s)).segs =
      st.segs := rfl
  have hnseg : (st.store (.newEntry n j s)).nseg =
      st.nseg := rfl
  generalize st.store (.newEntry n j s) = a at *
  generalize hk' : (if j % 2 = 0 then UpdatePc.copyRead x d n (j + 1)
    else .dir (.copy x d n (j / 2 + 1))) = k'
  have hprog : k'.progress b u = .fresh u := by
    rw [← hk']
    split <;> rfl
  have hkept := fresh_kept (b := b) (q := .update u k') hnow hprog
  have e : Evolves b st a f (Function.update f i ((f i).continued call (.goto (.update u k')))) := by
    refine ⟨hnseg.ge, hndir.ge, hdir.ge, by rw [hcur], fun D hD => ?_, fun D hD x => Or.inl ?_,
      fun p hp => ?_, fun k p hp => Or.inl (hkept k p hp), fun D hD hs => ?_⟩
    · rw [hold D hD]
      exact ⟨rfl, rfl⟩
    · rw [hold D hD]
    · rw [hsegs, hcur]
      exact hp.level_le
    · rw [hdir, hsema]
      exact hs
  have hself : Copying a (f i).owns u x d n (j + 1) := by
    refine ⟨?_, by rw [hcur]; exact hc.index, hc.source.trans hdir.symm, ?_, ?_, ?_, ?_, ?_⟩
    · unfold OwnsDir
      rw [hdir]
      exact hc.owned
    · rw [hdir]
      exact hc.lt
    · rw [hndir]
      exact hc.allocated
    · rw [hn, hcur]
      exact hc.depth
    · rw [hn, hcur]
      exact hc.capacity
    · intro l hl
      rw [hn, hcur]
      by_cases he : l = j
      · rw [he, ← hs]
        exact Function.update_self ..
      · exact (Function.update_of_ne he ..).trans (hc.copied l (by omega))
  refine h.dirs_step hnow trivial hsegs hnseg hndir.ge (fun D _ => hsema D)
    (fun D hge hlt => by omega) e ?_ ?_ ?_ ?_ ⟨?_, ?_⟩
  · rw [hcur]
    exact h.capacity
  · rw [hdir, hndir]
    exact h.dir_lt
  · intro y hy
    rw [hcur] at hy ⊢
    exact (h.dir y hy).evolves e
  · intro l hl
    exact ⟨fun _ => hdir, fun ho => absurd (h.locks.owner_unique ho hc.owned) hl⟩
  · have hbegun : k'.begun = false := by
      rw [← hk']
      split <;> rfl
    rw [hbegun]
    exact ⟨hu.target.frame e, by rw [hsegs]; exact hu.level,
      fun s hs => ⟨(hu.new s hs).ne_null, hnseg ▸ (hu.new s hs).lt, fun hb => by
        rw [hsegs]
        exact (hu.new s hs).level hb, fun hb => by cases hb⟩, hu.inplace, hu.ne⟩
  · rw [← hk']
    split
    · next heven =>
      refine ⟨hself, ?_⟩
      rw [hcur]
      omega
    · next hodd =>
      have he : 2 * (j / 2 + 1) = j + 1 := by omega
      show Copying a (f i).owns u x d n (2 * (j / 2 + 1))
      rw [he]
      exact hself

/-- After its first store an update has shared its halves. -/
theorem Halves.Fits.shared {owns : Sem → Bool} {w : Worker} (h : Sound b st f)
    (hu : u.Fits b st f owns false) (hprog : (f i).progress b = .fresh u)
    (hw : w.progress b = .none ∨ ∃ v rest, w.progress b = .storing v rest)
    (hnseg : st'.nseg = st.nseg) (hsegs : st'.segs = st.segs)
    (hd : u.target_local_depth + 1 ≤ st'.curDir.depth) {s : ℕ} (hs : u.New b s) :
    Public b st' (Function.update f i w) s := by
  have hn := hu.new s hs
  refine ⟨hn.ne_null, hnseg ▸ hn.lt, ?_, ?_⟩
  · rw [hsegs, hn.level rfl]
    exact hd
  · intro k hk
    by_cases hki : k = i
    · rw [hki, Function.update_self] at hk
      obtain ⟨v, hv, _⟩ := hk
      rcases hw with hw | ⟨v', rest, hw⟩ <;> rw [hw] at hv <;> cases hv
    · rw [Function.update_of_ne hki] at hk
      exact hki (h.apart k i s hk ⟨u, hprog, hs⟩)

theorem Sound.run_publish (h : Sound b st f) {n : ℕ}
    (hnow : (f i).now = some (call, .update u (.publish n))) :
    Sound b (st.store (.dirPtr n)) (Function.update f i ((f i).continued call
      (.goto (u.finish b call)))) := by
  obtain ⟨hu, x, d, hc⟩ := h.fits_at hnow
  have hu' : u.Fits b st f (f i).owns false := hu
  have hprog : (f i).progress b = .fresh u := by
    simp only [Worker.progress, hnow]
    rfl
  have hle : u.target_local_depth ≤ st.curDir.depth := by
    rw [← hu.level]
    exact hu.target.shared.level_le
  have hcur : (st.store (.dirPtr n)).curDir = st.dirs n := rfl
  have hdepth : (st.store (.dirPtr n)).curDir.depth = st.curDir.depth + 1 := hc.depth
  have hafter : ((f i).continued call (.goto (u.finish b call))).progress b = .none ∨
      ∃ v rest, ((f i).continued call (.goto (u.finish b call))).progress b = .storing v rest := by
    cases b with
    | cow => exact Or.inl Call.retry_progress
    | inplace => exact Or.inr ⟨u, [], rfl⟩
  obtain ⟨hneg, hheld, hfree⟩ := h.locks.of_owns hc.owned
  have hhalf : ∀ s, u.New b s → Public b (st.store (.dirPtr n)) (Function.update f i
      ((f i).continued call (.goto (u.finish b call)))) s := by
    intro s hs
    refine hu'.shared h hprog hafter ?_ ?_ ?_ hs
    · rfl
    · rfl
    · omega
  have e : Evolves b st (st.store (.dirPtr n)) f (Function.update f i ((f i).continued call
      (.goto (u.finish b call)))) := by
    refine ⟨le_rfl, le_rfl, hc.lt.le, by omega, fun D _ => ⟨rfl, rfl⟩, fun D _ y => Or.inl rfl,
      fun p hp => ?_, fun k p hk => ?_, fun D _ hD => Or.inr ?_⟩
    · rw [hdepth]
      exact hp.level_le.trans (Nat.le_succ _)
    · by_cases hki : k = i
      · rw [hki, Function.update_self] at hk
        obtain ⟨v, hv, _⟩ := hk
        rcases hafter with hw | ⟨v', rest, hw⟩ <;> rw [hw] at hv <;> cases hv
      · rw [Function.update_of_ne hki] at hk
        exact Or.inl hk
    · rcases hD with rfl | hD
      · exact hneg
      · exact hD
  refine h.dirs_step hnow ?_ rfl rfl le_rfl (fun _ _ => rfl) (fun D hge hlt => ?_) e ?_ ?_ ?_ ?_ ?_
  · cases b with
    | cow => exact Call.retry_enters
    | inplace => trivial
  · exact absurd hlt (Nat.not_lt.mpr hge)
  · rw [hcur, hc.capacity, hc.depth]
  · exact hc.allocated
  · intro y hy
    rw [hdepth] at hy
    have hy' : y < 2 * st.curDir.capacity := by
      rw [h.capacity]
      rw [pow_succ] at hy
      omega
    rw [hcur, hc.copied y hy', doubledSegment]
    split
    · split
      · cases b with
        | cow => exact hhalf _ (Or.inl rfl)
        | inplace =>
          rw [hu.inplace rfl]
          exact hu.target.shared.evolves e
      · cases b with
        | cow => exact hhalf _ (Or.inr rfl)
        | inplace => exact hhalf _ rfl
    · exact (h.dir (y / 2) (half_lt _ y hy)).evolves e
  · intro j hj
    refine ⟨fun ho => ?_, fun ho => absurd (h.locks.owner_unique ho hc.owned) hj⟩
    rcases ho with hh | ho | ⟨val, hw⟩
    · have := hheld j
      unfold HoldsDir at hh
      omega
    · exact absurd (h.locks.owner_unique ho hc.owned) hj
    · have := hfree j hj
      rw [Caller.stake, hw] at this
      split at this <;> cases this
  · cases b with
    | cow => exact Call.retry_fits
    | inplace =>
      refine ⟨⟨hu.target.frame e, hu.level, fun s hs => ?_, hu.inplace, hu.ne⟩, rfl, ?_⟩
      · refine ⟨(hu.new s hs).ne_null, (hu.new s hs).lt, fun hb => ?_, fun _ => hhalf s hs⟩
        cases hb
      · rw [hdepth]
        omega

end

/-! ### A normal split -/

theorem Halves.storing_progress (u : Halves) (rest : List Store) :
    (Pc.update u (storing true rest)).progress b = .none ∨
      ∃ v rest', (Pc.update u (storing true rest)).progress b = .storing v rest' := by
  cases rest with
  | nil => cases b with
    | cow => exact Or.inl rfl
    | inplace => exact Or.inr ⟨u, [], rfl⟩
  | cons w rest => exact Or.inr ⟨u, w :: rest, rfl⟩

theorem Halves.storing_fits {held : Sem → ℕ} {owns : Sem → Bool} {rest : List Store}
    (hheld : HoldsDir st held) (hl : u.target_local_depth < st.curDir.depth)
    (hr : ∀ e ∈ rest, ∃ i < 2 ^ st.curDir.depth, ∃ s, e = .entry i s ∧ u.New b s) :
    (storing true rest).Fits b st f held owns u := by
  cases rest with
  | nil => exact ⟨hheld, hl⟩
  | cons w rest => exact ⟨hheld, hl, fun hb => (by cases hb), hr⟩

section

variable [Fintype ι] [DecidableEq ι]

/-- The stored half may be an entry of a directory from now on. -/
theorem Halves.Fits.stores {owns : Sem → Bool} {begun : Bool} {w : Worker} (h : Sound b st f)
    (hu : u.Fits b st f owns begun) (hprog : begun = false → (f i).progress b = .fresh u)
    (hw : w.progress b = .none ∨ ∃ v rest, w.progress b = .storing v rest)
    (hnseg : st'.nseg = st.nseg) (hsegs : st'.segs = st.segs)
    (hdepth : st'.curDir.depth = st.curDir.depth) (hl : u.target_local_depth < st.curDir.depth)
    {s : ℕ} (hs : u.New b s) : Public b st' (Function.update f i w) s := by
  cases begun with
  | false => exact hu.shared h (hprog rfl) hw hnseg hsegs (by omega) hs
  | true =>
    obtain ⟨hne, hlt, hle, hshared⟩ := (hu.new s hs).shared rfl
    refine ⟨hne, hnseg ▸ hlt, by rw [hsegs, hdepth]; exact hle, ?_⟩
    intro k hk
    by_cases hki : k = i
    · rw [hki, Function.update_self] at hk
      obtain ⟨v, hv, _⟩ := hk
      rcases hw with hw | ⟨v', rest, hw⟩ <;> rw [hw] at hv <;> cases hv
    · rw [Function.update_of_ne hki] at hk
      exact hshared k hk

theorem Sound.run_store (h : Sound b st f) {D : ℕ} {begun : Bool} {s : Store} {rest : List Store}
    (hnow : (f i).now = some (call, .update u (.store D begun s rest))) :
    Sound b (u.next b H call st (.store D begun s rest)).1 (Function.update f i
      ((f i).continued call (.goto (u.next b H call st (.store D begun s rest)).2))) := by
  obtain ⟨hu, hheld, rfl, hl, _, hstores⟩ := h.fits_at hnow
  obtain ⟨x, hx, s, rfl, hs⟩ := hstores _ (List.mem_cons_self ..)
  change Sound b (st.store (.newEntry st.dir x s)) (Function.update f i ((f i).continued call
    (.goto (.update u (Halves.storing true rest)))))
  have hprog : begun = false → (f i).progress b = .fresh u := by
    rintro rfl
    simp only [Worker.progress, hnow]
    rfl
  have hafter : ((f i).continued call (.goto (.update u (Halves.storing true rest)))).progress b =
      .none ∨ ∃ v rest', ((f i).continued call
        (.goto (.update u (Halves.storing true rest)))).progress b = .storing v rest' :=
    u.storing_progress rest
  have hdirs : ∀ D, D ≠ st.dir → (st.store (.newEntry st.dir x s)).dirs D = st.dirs D :=
    fun D hD => Function.update_of_ne hD ..
  have hcur : (st.store (.newEntry st.dir x s)).curDir =
      { st.curDir with segment := Function.update st.curDir.segment x s } := Function.update_self ..
  have hdir : (st.store (.newEntry st.dir x s)).dir = st.dir := rfl
  have hndir : (st.store (.newEntry st.dir x s)).ndir = st.ndir := rfl
  have hsegs : (st.store (.newEntry st.dir x s)).segs = st.segs := rfl
  have hnseg : (st.store (.newEntry st.dir x s)).nseg = st.nseg := rfl
  generalize st.store (.newEntry st.dir x s) = a at *
  have hdepth : a.curDir.depth = st.curDir.depth := by rw [hcur]
  have hcap : a.curDir.capacity = st.curDir.capacity := by rw [hcur]
  have hseg : ∀ y, a.curDir.segment y = if y = x then s else st.curDir.segment y := by
    intro y
    rw [hcur]
    exact Function.update_apply ..
  have hnewdir : a.dirs st.dir = { st.curDir with segment := Function.update st.curDir.segment x s } := by
    rw [← hcur, CCEH.curDir, hdir]
  have hold : ∀ D, (a.dirs D).depth = (st.dirs D).depth ∧
      (a.dirs D).capacity = (st.dirs D).capacity ∧ (a.dirs D).sema = (st.dirs D).sema := by
    intro D
    by_cases hD : D = st.dir
    · rw [hD, hnewdir]
      exact ⟨rfl, rfl, rfl⟩
    · rw [hdirs D hD]
      exact ⟨rfl, rfl, rfl⟩
  have hhalf := fun s (hs : u.New b s) => hu.stores h hprog hafter hnseg hsegs hdepth hl hs
  have e : Evolves b st a f (Function.update f i ((f i).continued call
      (.goto (.update u (Halves.storing true rest))))) := by
    refine ⟨hnseg.ge, hndir.ge, hdir.ge, hdepth.ge, fun D _ => ⟨(hold D).1, (hold D).2.1⟩,
      fun D hD y => ?_, fun p hp => ?_, fun k p hk => ?_, fun D _ hD => ?_⟩
    · by_cases hDd : D = st.dir
      · have hy := hseg y
        rw [CCEH.curDir, hdir] at hy
        rw [hDd, hy]
        split
        · exact Or.inr (hhalf s hs)
        · exact Or.inl rfl
      · rw [hdirs D hDd]
        exact Or.inl rfl
    · rw [hsegs, hdepth]
      exact hp.level_le
    · by_cases hki : k = i
      · rw [hki, Function.update_self] at hk
        obtain ⟨v, hv, _⟩ := hk
        rcases hafter with hw | ⟨v', rest', hw⟩ <;> rw [hw] at hv <;> cases hv
      · rw [Function.update_of_ne hki] at hk
        exact Or.inl hk
    · rw [hdir, (hold D).2.2]
      exact hD
  refine h.dirs_step hnow ?_ hsegs hnseg hndir.ge (fun D _ => (hold D).2.2)
    (fun D hge hlt => by omega) e ?_ ?_ ?_ ?_ ⟨?_, ?_⟩
  · cases rest <;> trivial
  · rw [hcap, hdepth]
    exact h.capacity
  · rw [hdir, hndir]
    exact h.dir_lt
  · intro y hy
    rw [hdepth] at hy
    rw [hseg]
    split
    · exact hhalf s hs
    · exact (h.dir y hy).evolves e
  · intro j hj
    refine ⟨fun _ => hdir, fun ho => ?_⟩
    have := (h.locks.of_owns ho).2.1 i
    unfold HoldsDir at hheld
    omega
  · have hbegun : (Halves.storing true rest).begun = true := by cases rest <;> rfl
    rw [hbegun]
    refine ⟨hu.target.frame e, by rw [hsegs]; exact hu.level, fun s hs => ?_, hu.inplace, hu.ne⟩
    exact ⟨(hu.new s hs).ne_null, hnseg ▸ (hu.new s hs).lt, fun hb => (by cases hb),
      fun _ => hhalf s hs⟩
  · refine Halves.storing_fits ?_ (by omega) ?_
    · unfold HoldsDir
      rw [hdir]
      exact hheld
    · rw [hdepth]
      exact fun e he => hstores e (List.mem_cons_of_mem _ he)

/-- The thread raises the local depth of a segment that it has suspended. -/
theorem Sound.run_bump (h : Sound b st f) (hnow : (f i).now = some (call, .update u .bump)) :
    Sound b (st.store (.localDepth u.s0)) (Function.update f i ((f i).continued call
      (.goto (.release u.s0)))) := by
  obtain ⟨hu, hb, hl⟩ := h.fits_at hnow
  have hs0 : u.s0 = u.target := hu.inplace hb
  rw [hs0]
  have hother : ∀ p, p ≠ u.target → (st.store (.localDepth u.target)).segs p = st.segs p :=
    fun p hp => Function.update_of_ne hp ..
  have hself : (st.store (.localDepth u.target)).segs u.target =
      { st.segs u.target with localDepth := u.target_local_depth + 1 } := by
    rw [← hu.level]
    exact Function.update_self ..
  have hlocks : Locks (st.store (.localDepth u.target)) (Function.update f i
      ((f i).continued call (.goto (.release u.target)))) :=
    h.locks.other_step hnow (by simp) (fun m hm => by
      refine ⟨hm, ?_⟩
      cases m with
      | seg p =>
        show ((st.store (.localDepth u.target)).segs p).sema = (st.segs p).sema
        by_cases hp : p = u.target
        · rw [hp, hself]
        · rw [hother p hp]
      | dir D => rfl) (fun m hm hn => absurd hm hn) trivial
  have hcur : (st.store (.localDepth u.target)).curDir = st.curDir := rfl
  have hdirs : (st.store (.localDepth u.target)).dirs = st.dirs := rfl
  have hdir : (st.store (.localDepth u.target)).dir = st.dir := rfl
  have hndir : (st.store (.localDepth u.target)).ndir = st.ndir := rfl
  have hnseg : (st.store (.localDepth u.target)).nseg = st.nseg := rfl
  generalize st.store (.localDepth u.target) = a at *
  have hsame : ∀ p, p ≠ u.target → (a.segs p).localDepth = (st.segs p).localDepth :=
    fun p hp => by rw [hother p hp]
  have e : Evolves b st a f (Function.update f i ((f i).continued call
      (.goto (.release u.target)))) := by
    refine ⟨hnseg.ge, hndir.ge, hdir.ge, by rw [hcur], fun D _ => by rw [hdirs]; exact ⟨rfl, rfl⟩,
      fun D _ y => Or.inl (by rw [hdirs]), fun p hp => ?_, fun k p hk => ?_, fun D _ hD => ?_⟩
    · rw [hcur]
      by_cases hpt : p = u.target
      · rw [hpt, hself]
        exact hl
      · rw [hsame p hpt]
        exact hp.level_le
    · by_cases hki : k = i
      · rw [hki, Function.update_self] at hk
        obtain ⟨v, hv, _⟩ := hk
        cases hv
      · rw [Function.update_of_ne hki] at hk
        exact Or.inl hk
    · rw [hdir, hdirs]
      exact hD
  refine h.assemble hlocks e ?_ ?_ ?_ ?_ (hu.target.frame e)
  · rw [hcur]
    exact h.capacity
  · rw [hdir, hndir]
    exact h.dir_lt
  · intro y hy
    rw [hcur] at hy ⊢
    exact (h.dir y hy).evolves e
  · intro j hj
    refine ⟨fun hc => ?_, fun p hp => hsame p ?_, fun p hp => hsame p ?_, fun _ => hdir,
      fun _ => ⟨by rw [hcur], fun n _ _ => by rw [hdirs]; exact ⟨rfl, rfl, rfl⟩⟩⟩
    · rw [hb] at hc
      cases hc
    · rintro rfl
      exact hj (h.locks.owner_unique hp hu.target.owns)
    · rintro rfl
      exact hu.target.shared.shared j hp

end

end Steps

end PmemStudy.Cceh
