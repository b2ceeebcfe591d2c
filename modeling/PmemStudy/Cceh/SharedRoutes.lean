import PmemStudy.Cceh.SharedBlocks

/-!
# Where the shared directory leads

The segment that a hash is routed to stays the same while nobody has suspended it, and all
hashes that are routed to one segment agree in its local depth. A `Get` of the
copy-on-write build holds no lock; for it this follows from the directory that the pending
stores lead to.
-/

namespace PmemStudy.Cceh

open AlignedBlocks SuspendLock Threads

/-! ### What a step leaves alone -/

/-- The slot that a step may store to. -/
def Pc.slot : Pc → Option (ℕ × Slot)
  | .claim _ target _ loc _ _ => some (target, loc)
  | .value target loc => some (target, loc)
  | .key target loc => some (target, loc)
  | _ => none

section Steps

variable {b : Build} {H : HashFuncs} {call : Call} {st : CCEH} {pc : Pc} {p : ℕ} {c : Slot}

theorem CCEH.store_bucket (st : CCEH) (w : Store) (p : ℕ) :
    ((st.store w).segs p).bucket = (st.segs p).bucket := by
  cases w with
  | localDepth s =>
    by_cases hp : p = s
    · rw [hp, store, setSeg_segs_self]
    · rw [store, setSeg_segs_of_ne _ _ _ _ hp]
  | _ => rfl

theorem CCEH.setSem_bucket (st : CCEH) (m : Sem) (v : ℤ) (p : ℕ) :
    ((st.setSem m v).segs p).bucket = (st.segs p).bucket := by
  cases m with
  | seg q =>
    by_cases hp : p = q
    · rw [hp, setSem, setSema_segs_self, Segment.withSema_bucket]
    · rw [setSem, setSema, setSeg_segs_of_ne _ _ _ _ hp]
  | dir D => rfl

theorem CCEH.setPair_bucket (st : CCEH) (target : ℕ) (loc : Slot) (q : Pair)
    (h : some (target, loc) ≠ some (p, c)) :
    ((st.setSeg target ((st.segs target).setPair loc q)).segs p).bucket c = (st.segs p).bucket c := by
  by_cases hp : p = target
  · subst hp
    have hc : c ≠ loc := by
      rintro rfl
      exact h rfl
    rw [setSeg_segs_self]
    exact Function.update_of_ne hc ..
  · rw [setSeg_segs_of_ne _ _ _ _ hp]

/-- A step stores to one slot at most. -/
theorem Pc.next_bucket (hp : p < st.nseg) (hc : pc.slot ≠ some (p, c)) :
    ((pc.next b H call st).1.segs p).bucket c = (st.segs p).bucket c := by
  cases pc with
  | sema op m s k => rw [Pc.next, CCEH.setSem_bucket]
  | probe x target pattern slots => cases slots <;> rfl
  | claim x target pattern loc _key slots =>
    simp only [Pc.next]
    split
    · exact st.setPair_bucket _ _ _ hc
    · rfl
  | value target loc => exact st.setPair_bucket _ _ _ hc
  | key target loc => exact st.setPair_bucket _ _ _ hc
  | recheck x target d r => cases r <;> rfl
  | release target => rw [Pc.next, CCEH.setSem_bucket]
  | split target d =>
    have ha := (allocSplit_spec b H st target).2
    exact congrFun (congrArg Segment.bucket (ha.older p hp)) c
  | update u k =>
    cases k with
    | copyStore x d n j s => exact congrFun (st.store_bucket (.newEntry n j s) p) c
    | publish n => exact congrFun (st.store_bucket (.dirPtr n) p) c
    | store D begun w rest => exact congrFun (st.store_bucket _ p) c
    | bump => exact congrFun (st.store_bucket (.localDepth u.s0) p) c
    | _ => rfl
  | scan target slots => cases slots <;> rfl
  | _ => rfl

end Steps

section Facts

variable {ι : Type} {b : Build} {H : HashFuncs} {st st' : CCEH} {f : ι → Worker}
  {i j : ι} {w : Worker} {call : Call} {pc : Pc} {u : Halves} {entry entry' : ℕ → ℕ} {p : ℕ}
  {f_hash : BitVec 64}

section

variable [Fintype ι]

/-- A local depth is raised in place, by the thread that has suspended the segment. -/
theorem Sound.next_level (h : Sound b st f) (hnow : (f i).now = some (call, pc)) (hp : p < st.nseg)
    (hfree : b = .cow ∨ ∀ j, (f j).owns (.seg p) = false) :
    ((pc.next b H call st).1.segs p).localDepth = (st.segs p).localDepth := by
  by_cases hk : ∀ u k, pc = .update u k → k.commits = false
  · exact (h.next_table hnow hk).2.2 p hp
  · obtain ⟨u, k, rfl, hc⟩ : ∃ u k, pc = .update u k ∧ k.commits = true := by
      by_contra hnone
      exact hk fun u k he => Bool.eq_false_iff.mpr fun hc => hnone ⟨u, k, he, hc⟩
    obtain ⟨hu, hfits⟩ := h.fits_at hnow
    cases k with
    | publish n => rfl
    | store D begun s rest =>
      obtain ⟨_, _, _, _, hmem⟩ := hfits
      obtain ⟨x, _, q, rfl, _⟩ := hmem _ (List.mem_cons_self ..)
      rfl
    | bump =>
      have hne : p ≠ u.s0 := by
        rintro rfl
        rcases hfree with hb | hfree
        · rw [hb] at hfits
          cases hfits.1
        · have := hfree i
          rw [hu.inplace hfits.1, hu.target.owns] at this
          cases this
      exact congrArg Segment.localDepth (CCEH.setSeg_segs_of_ne _ _ _ _ hne)
    | _ => cases hc

/-- Nobody has suspended a segment that is locked. -/
theorem Sound.not_owned (h : Sound b st f) (hheld : 0 < (f i).held (.seg p)) (j : ι) :
    (f j).owns (.seg p) = false := by
  by_contra ho
  have := (h.locks.of_owns (Bool.not_eq_false _ ▸ ho)).2.1 i
  omega

/-- An entry of a segment that nobody has suspended is not about to be replaced. -/
theorem Settles.of_segment (hS : Settles b st (progresses b f) entry) (h : Sound b st f)
    (hfree : ∀ j, (f j).owns (.seg p) = false) {x : ℕ} (hx : x < 2 ^ st.curDir.depth)
    (hp : st.curDir.segment x = p) : entry x = p := by
  rw [hS.settled x hx fun k v rest hk s hs => ?_, hp]
  have howns := ((h.fits k).storing hk).1.target.owns
  rw [← (hS.pending k v rest hk x s hs).2, hp, hfree k] at howns
  cases howns

theorem Sound.level_eq (h : Sound b st f) (hfree : ∀ j, (f j).owns (.seg p) = false) :
    level b st (progresses b f) p = (st.segs p).localDepth := by
  refine level_of_not_raised ?_
  rintro ⟨hb, k, v, rest, hk, rfl⟩
  have hv := ((h.fits k).storing hk).1
  have := hfree k
  rw [hv.inplace hb, hv.target.owns] at this
  cases this

/-- The entries of a segment agree with a hash that leads to it. -/
theorem Settles.route_block (hS : Settles b st (progresses b f) entry) (h : Sound b st f)
    (hd : st.curDir.depth ≤ 64) (hfree : ∀ j, (f j).owns (.seg p) = false)
    (hp : st.route f_hash = p) {e : ℕ} (he : e < 2 ^ st.curDir.depth) (hep : entry e = p) :
    topBits f_hash (st.segs p).localDepth =
      e / 2 ^ (st.curDir.depth - (st.segs p).localDepth) := by
  have hx := topBits_lt_pow f_hash st.curDir.depth
  have hroot : entry (topBits f_hash st.curDir.depth) = p := hS.of_segment h hfree hx hp
  have hle := hS.blocked.level_le e he
  have hiff := hS.blocked.same_iff e he _ hx
  rw [hep, h.level_eq hfree] at hle hiff
  rw [← topBits_coarser f_hash _ _ hle hd]
  exact (hiff.mp hroot.symm).symm

/-- The depth of the newest directory never goes down. -/
theorem Sound.next_depth_le (h : Sound b st f) (hnow : (f i).now = some (call, pc)) :
    st.curDir.depth ≤ (pc.next b H call st).1.curDir.depth := by
  by_cases hk : ∀ u k, pc = .update u k → k.commits = false
  · exact (h.next_table (H := H) hnow hk).1.ge
  · obtain ⟨u, k, rfl, hc⟩ : ∃ u k, pc = .update u k ∧ k.commits = true := by
      by_contra hnone
      exact hk fun u k he => Bool.eq_false_iff.mpr fun hc => hnone ⟨u, k, he, hc⟩
    obtain ⟨_, hfits⟩ := h.fits_at hnow
    cases k with
    | publish n =>
      obtain ⟨_, _, hcopied⟩ := hfits
      show st.curDir.depth ≤ (st.dirs n).depth
      rw [hcopied.depth]
      exact Nat.le_succ _
    | store D begun s rest =>
      obtain ⟨_, rfl, _, _, hmem⟩ := hfits
      obtain ⟨x, _, q, rfl, _⟩ := hmem _ (List.mem_cons_self ..)
      have hcur : (st.store (.entry x q)).curDir =
          { st.curDir with segment := Function.update st.curDir.segment x q } :=
        Function.update_self ..
      show st.curDir.depth ≤ (st.store (.entry x q)).curDir.depth
      rw [hcur]
    | bump => exact le_refl _
    | _ => cases hc

/-- The hash is still routed to its segment after a step, unless that was suspended. -/
theorem Sound.next_route (h : Sound b st f) (ht : Tidy b st f) (ho : Orderly b H st (f i))
    (hd : st.curDir.depth ≤ 63) (hnow : (f i).now = some (call, pc))
    (hfree : ∀ j, (f j).owns (.seg p) = false) (hp : st.route f_hash = p) :
    (pc.next b H call st).1.route f_hash = p := by
  by_cases hk : ∀ u k, pc = .update u k → k.commits = false
  · obtain ⟨hdepth, hsegment, _⟩ := h.next_table (H := H) hnow hk
    unfold CCEH.route
    rw [hdepth, hsegment]
    exact hp
  · obtain ⟨u, k, rfl, hc⟩ : ∃ u k, pc = .update u k ∧ k.commits = true := by
      by_contra hnone
      exact hk fun u k he => Bool.eq_false_iff.mpr fun hc => hnone ⟨u, k, he, hc⟩
    obtain ⟨hu, hfits⟩ := h.fits_at hnow
    have hne : p ≠ u.target := by
      rintro rfl
      have := hfree i
      rw [hu.target.owns] at this
      cases this
    cases k with
    | publish n =>
      obtain ⟨_, _, hc⟩ := hfits
      obtain ⟨x, hx, hn⟩ := ht.aimed i call u _ hnow
      have hhalf := topBits_half f_hash st.curDir.depth hd
      have hlt := topBits_lt_pow f_hash (st.curDir.depth + 1)
      rw [pow_succ] at hlt
      show (st.dirs n).segment (topBits f_hash (st.dirs n).depth) = p
      rw [hc.depth, hn _ (by rw [h.capacity]; omega), doubledSegment, hhalf, if_neg]
      · exact hp
      · rintro rfl
        exact hne (hp.symm.trans hx.target)
    | store D begun s rest =>
      obtain ⟨_, rfl, _, _, hmem⟩ := hfits
      obtain ⟨x, _, q, rfl, _⟩ := hmem _ (List.mem_cons_self ..)
      have hx : st.curDir.segment x = u.target := by
        cases begun with
        | false =>
          have := ho.2
          rw [hnow] at this
          exact this _ (List.mem_cons_self ..)
        | true =>
          obtain ⟨entry, hS⟩ := ht.settles
          have hprog : progresses b f i = .storing u (.entry x q :: rest) := by
            simp only [progresses, Worker.progress, hnow]
            rfl
          exact (hS.pending i u _ hprog x q (List.mem_cons_self ..)).2
      have hcur : (st.store (.entry x q)).curDir =
          { st.curDir with segment := Function.update st.curDir.segment x q } :=
        Function.update_self ..
      show (st.store (.entry x q)).route f_hash = p
      unfold CCEH.route
      rw [hcur]
      refine (Function.update_of_ne ?_ ..).trans hp
      intro hy
      exact hne (hp.symm.trans ((congrArg st.curDir.segment hy).trans hx))
    | bump => exact hp
    | _ => cases hc

end

/-! ### Segments that are read without a lock -/

/-- The pending stores lead to one directory only. -/
theorem Settles.unique {g : ι → Progress} (hS : Settles b st g entry)
    (hS' : Settles b st g entry') {e : ℕ} (he : e < 2 ^ st.curDir.depth) : entry e = entry' e := by
  by_cases hp : ∃ k v rest s, g k = .storing v rest ∧ Store.entry e s ∈ rest
  · obtain ⟨k, v, rest, s, hk, hs⟩ := hp
    rw [(hS.pending k v rest hk e s hs).1, (hS'.pending k v rest hk e s hs).1]
  · have hnone : ∀ k v rest, g k = .storing v rest → ∀ s, Store.entry e s ∉ rest :=
      fun k v rest hk s hs => hp ⟨k, v, rest, s, hk, hs⟩
    rw [hS.settled e he hnone, hS'.settled e he hnone]

/-- Copy-on-write: a segment whose replacement has begun is left out of the directory. -/
def Cleared (st : CCEH) (g : ι → Progress) (entry : ℕ → ℕ) : Prop :=
  ∀ k u rest, g k = .storing u rest → ∀ e < 2 ^ st.curDir.depth, entry e ≠ u.target

/-- An entry of the next directory is a new half, or comes from the directory before. -/
def Comes (st st' : CCEH) (w : Worker) (entry entry' : ℕ → ℕ) : Prop :=
  ∀ e < 2 ^ st'.curDir.depth, (∃ u, w.progress .cow = .fresh u ∧ u.New .cow (entry' e)) ∨
    entry' e = entry (e / 2 ^ (st'.curDir.depth - st.curDir.depth))

theorem Comes.same (hdepth : st'.curDir.depth = st.curDir.depth) : Comes st st' w entry entry := by
  intro e _
  rw [hdepth, Nat.sub_self, pow_zero, Nat.div_one]
  exact Or.inr rfl

theorem Comes.splitBlock {d l x : ℕ} (hw : w.progress .cow = .fresh u) {e : ℕ} :
    (∃ v, w.progress .cow = .fresh v ∧ v.New .cow (splitBlock d l x u.s0 u.s1 entry e)) ∨
      splitBlock d l x u.s0 u.s1 entry e = entry e := by
  rcases splitBlock_cases d l x u.s0 u.s1 entry e with ⟨_, _, he⟩ | ⟨_, _, he⟩ | ⟨_, he⟩
  · exact Or.inl ⟨u, hw, Or.inl he⟩
  · exact Or.inl ⟨u, hw, Or.inr he⟩
  · exact Or.inr he

theorem Comes.index (hle : st.curDir.depth ≤ st'.curDir.depth) {e : ℕ}
    (he : e < 2 ^ st'.curDir.depth) :
    e / 2 ^ (st'.curDir.depth - st.curDir.depth) < 2 ^ st.curDir.depth := by
  refine Nat.div_lt_of_lt_mul ?_
  rw [← pow_add, Nat.sub_add_cancel hle]
  exact he

/-- A segment that others know comes from the directory before. -/
theorem Comes.old (hc : Comes st st' (f i) entry entry') (hp : Public .cow st f p) {e : ℕ}
    (he : e < 2 ^ st'.curDir.depth) (hep : entry' e = p) :
    entry (e / 2 ^ (st'.curDir.depth - st.curDir.depth)) = p := by
  rcases hc e he with ⟨u, hu, hn⟩ | heq
  · rw [hep] at hn
    exact absurd ⟨u, hu, hn⟩ (hp.shared i)
  · rw [← heq, hep]

section

variable [Fintype ι]

theorem Cleared.other (hC : Cleared st (progresses .cow f) entry) (h : Sound .cow st f)
    (hc : Comes st st' (f i) entry entry') (hle : st.curDir.depth ≤ st'.curDir.depth) {k : ι}
    {rest : List Store} (hk : progresses .cow f k = .storing u rest) :
    ∀ e < 2 ^ st'.curDir.depth, entry' e ≠ u.target := by
  intro e he hep
  have hp := ((h.fits k).storing hk).1.target.shared
  exact hC k u rest hk _ (Comes.index hle he) (hc.old hp he hep)

/-- An update that begins leaves its target out. -/
theorem Settles.cleared (hS : Settles .cow st (progresses .cow f) entry) (h : Sound .cow st f)
    (hi : (f i).progress .cow = .fresh u) {x : ℕ} (hx : x < 2 ^ st.curDir.depth)
    (hroot : entry x = u.target) {e : ℕ} (he : e < 2 ^ st.curDir.depth) :
    splitBlock st.curDir.depth u.target_local_depth x u.s0 u.s1 entry e ≠ u.target := by
  have hu := (h.fits i).halves hi
  have hnew : ∀ s, u.New .cow s → s ≠ u.target := by
    rintro s hs rfl
    exact hu.target.shared.shared i ⟨u, hi, hs⟩
  have hlevel : level .cow st (progresses .cow f) u.target = u.target_local_depth := by
    rw [level_of_not_raised (h.not_raised hi).1, hu.level]
  rcases splitBlock_cases st.curDir.depth u.target_local_depth x u.s0 u.s1 entry e with
    ⟨_, _, heq⟩ | ⟨_, _, heq⟩ | ⟨hout, heq⟩
  · rw [heq]
    exact hnew _ (Or.inl rfl)
  · rw [heq]
    exact hnew _ (Or.inr rfl)
  · rw [heq]
    intro het
    have hiff := hS.blocked.same_iff e he x hx
    rw [het, hroot, hlevel] at hiff
    exact hout (hiff.mp rfl)

end

section

variable [DecidableEq ι]

/-- After the step the pending stores lead to `entry'`, whose entries come from `entry`. -/
structure Advances (H : HashFuncs) (st : CCEH) (f : ι → Worker) (i : ι) (call : Call) (pc : Pc)
    (entry entry' : ℕ → ℕ) : Prop where
  settles : Settles .cow (pc.next .cow H call st).1
    (Function.update (progresses .cow f) i ((pc.next .cow H call st).2.progress .cow)) entry'
  depth_le : st.curDir.depth ≤ (pc.next .cow H call st).1.curDir.depth
  comes : Comes st (pc.next .cow H call st).1 (f i) entry entry'
  cleared : Cleared (pc.next .cow H call st).1
    (Function.update (progresses .cow f) i ((pc.next .cow H call st).2.progress .cow)) entry'

end

section

variable [Fintype ι] [DecidableEq ι]

theorem Sound.idle_advances (h : Sound .cow st f) (hnow : (f i).now = some (call, pc))
    (hk : ∀ u k, pc = .update u k → k.commits = false)
    (hS : Settles .cow st (progresses .cow f) entry) (hC : Cleared st (progresses .cow f) entry) :
    Advances H st f i call pc entry entry := by
  have hprog : (f i).progress .cow = pc.progress .cow := by simp only [Worker.progress, hnow]
  obtain ⟨hdepth, hsegment, hlevel⟩ := h.next_table (H := H) hnow hk
  have hstoring : ∀ j v rest, Function.update (progresses .cow f) i
      ((pc.next .cow H call st).2.progress .cow) j = .storing v rest ↔
      progresses .cow f j = .storing v rest := by
    intro j v rest
    by_cases hji : j = i
    · rw [hji, Function.update_self, progresses, hprog]
      exact Progress.begun_iff (Pc.next_begun (h.fits_at hnow) hk) v rest
    · rw [Function.update_of_ne hji]
  refine ⟨hS.keep hdepth hsegment (fun e he => hlevel _ (hS.shared h he).lt) hstoring,
    hdepth.ge, Comes.same hdepth, fun j v rest hj => ?_⟩
  rw [hdepth]
  exact hC j v rest ((hstoring j v rest).mp hj)

theorem Tidy.publish_advances (ht : Tidy .cow st f) (h : Sound .cow st f) {n : ℕ}
    (hnow : (f i).now = some (call, .update u (.publish n)))
    (hS : Settles .cow st (progresses .cow f) entry) (hC : Cleared st (progresses .cow f) entry) :
    Advances H st f i call (.update u (.publish n)) entry (st.dirs n).segment := by
  have hprog : (f i).progress .cow = (Pc.update u (.publish n)).progress .cow := by
    simp only [Worker.progress, hnow]
  obtain ⟨_, _, _, hc⟩ := h.fits_at hnow
  obtain ⟨x, hx, hn⟩ := ht.aimed i call u _ hnow
  have hafter : ((Pc.update u (.publish n)).next .cow H call st).2.progress .cow =
      u.stored .cow := Call.retry_progress
  have hcur : (st.store (.dirPtr n)).curDir.depth = st.curDir.depth + 1 := hc.depth
  have hcomes : Comes st (st.store (.dirPtr n)) (f i) entry (st.dirs n).segment := by
    intro e he
    rw [hcur] at he
    have he2 : e < 2 * st.curDir.capacity := by
      rw [h.capacity, ← pow_succ']
      exact he
    have hone : st.curDir.depth + 1 - st.curDir.depth = 1 := by omega
    rw [hn e he2, hcur, hone, pow_one]
    unfold doubledSegment
    by_cases hex : e / 2 = x
    · rw [if_pos hex]
      split
      · exact Or.inl ⟨u, hprog, Or.inl rfl⟩
      · exact Or.inl ⟨u, hprog, Or.inr rfl⟩
    · rw [if_neg hex]
      refine Or.inr (hS.settled _ (half_lt _ e he) fun k v rest hk s hs => ?_).symm
      rw [Settles.no_pending h hc.owned hk] at hs
      cases hs
  have hle : st.curDir.depth ≤ (st.store (.dirPtr n)).curDir.depth := by omega
  refine ⟨?_, hle, hcomes, fun j v rest hj => ?_⟩
  · rw [hafter]
    exact (hS.publish h hprog hc.owned hx.depth hx.index hx.target hc.depth hn).stored
  · rw [hafter] at hj
    by_cases hji : j = i
    · rw [hji, Function.update_self] at hj
      cases hj
    · rw [Function.update_of_ne hji] at hj
      exact hC.other h hcomes hle hj

theorem Sound.store_advances (h : Sound .cow st f) (ho : Orderly .cow H st (f i)) {D : ℕ}
    {begun : Bool} {s : Store} {rest : List Store}
    (hnow : (f i).now = some (call, .update u (.store D begun s rest)))
    (hS : Settles .cow st (progresses .cow f) entry) (hC : Cleared st (progresses .cow f) entry) :
    ∃ entry', Advances H st f i call (.update u (.store D begun s rest)) entry entry' := by
  have hprog : (f i).progress .cow = (Pc.update u (.store D begun s rest)).progress .cow := by
    simp only [Worker.progress, hnow]
  obtain ⟨entry', hS', _, hfrom⟩ := hS.store h ho hnow
  obtain ⟨_, _, rfl, _, _, hmem⟩ := h.fits_at hnow
  obtain ⟨y, _, q, rfl, _⟩ := hmem _ (List.mem_cons_self ..)
  have hcur : (st.store (.entry y q)).curDir =
      { st.curDir with segment := Function.update st.curDir.segment y q } :=
    Function.update_self ..
  have hdepth : (st.store (.entry y q)).curDir.depth = st.curDir.depth := by rw [hcur]
  have hcomes : Comes st (st.store (.entry y q)) (f i) entry entry' := by
    rcases hfrom with ⟨_, rfl⟩ | ⟨rfl, x, _, _, rfl⟩
    · exact Comes.same hdepth
    · intro e _
      rw [hdepth, Nat.sub_self, pow_zero, Nat.div_one]
      exact Comes.splitBlock hprog
  refine ⟨entry', ?_, hdepth.ge, hcomes, fun j v r hj => ?_⟩
  · cases rest with
    | nil => exact hS'.stored
    | cons e rest => exact hS'
  · by_cases hji : j = i
    · rw [hji, Function.update_self] at hj
      cases rest with
      | nil => cases hj
      | cons e rest =>
        cases hj
        intro e he
        rw [show ((Pc.update u (.store st.dir begun (.entry y q) _)).next .cow H call st).1.curDir.depth =
          st.curDir.depth from hdepth] at he
        rcases hfrom with ⟨rfl, rfl⟩ | ⟨rfl, x, hx, hroot, rfl⟩
        · exact hC i u _ hprog e he
        · exact hS.cleared h hprog hx hroot he
    · rw [Function.update_of_ne hji] at hj
      exact hC.other h hcomes hdepth.ge hj

/-- How a step of the copy-on-write build changes the directory that the pending stores lead
to. -/
theorem Tidy.next_comes (h : Sound .cow st f) (ht : Tidy .cow st f) (ho : Orderly .cow H st (f i))
    (hnow : (f i).now = some (call, pc)) (hS : Settles .cow st (progresses .cow f) entry)
    (hC : Cleared st (progresses .cow f) entry) :
    ∃ entry', Advances H st f i call pc entry entry' := by
  by_cases hk : ∀ u k, pc = .update u k → k.commits = false
  · exact ⟨entry, h.idle_advances hnow hk hS hC⟩
  · obtain ⟨u, k, rfl, hc⟩ : ∃ u k, pc = .update u k ∧ k.commits = true := by
      by_contra hnone
      exact hk fun u k he => Bool.eq_false_iff.mpr fun hc => hnone ⟨u, k, he, hc⟩
    cases k with
    | publish n => exact ⟨_, ht.publish_advances h hnow hS hC⟩
    | store D begun s rest => exact h.store_advances ho hnow hS hC
    | bump =>
      obtain ⟨_, hb, _⟩ := h.fits_at hnow
      cases hb
    | _ => cases hc

end

end Facts

end PmemStudy.Cceh
