import PmemStudy.Cceh.SharedTable

/-!
# Steps on the shared table

Every step of every thread keeps `Sound`. Most steps only read; the others change a slot or a
`sema`, allocate, or store into a directory that their thread holds or has suspended.
-/

namespace PmemStudy.Cceh

open AlignedBlocks SuspendLock Threads

section Parts

variable {ι : Type} {b : Build} {st st' : CCEH} {f f' : ι → Worker} {w : Worker} {u : Halves}

theorem Halves.Fits.of_begun {owns : Sem → Bool} {begun : Bool} (h : u.Fits b st f owns begun)
    (hb : begun = false) : u.Fits b st f owns false := hb ▸ h

/-- Before its first store an update has all its halves to itself. -/
theorem Worker.Fits.halves (h : w.Fits b st f) (hu : w.progress b = .fresh u) :
    u.Fits b st f w.owns false := by
  unfold Worker.Fits at h
  unfold Worker.progress at hu
  cases hnow : w.now with
  | none =>
    rw [hnow] at hu
    cases hu
  | some c =>
    obtain ⟨call, pc⟩ := c
    rw [hnow] at h hu
    have hstored : ∀ v : Halves, v.stored b ≠ .fresh u := by
      intro v hv
      cases b <;> cases hv
    cases pc with
    | update v k =>
      have hbegun : k.begun = false ∧ v = u := by
        cases k with
        | dir use =>
          cases use with
          | store begun s rest => cases begun with
            | false => exact ⟨rfl, Progress.fresh.inj hu⟩
            | true => cases hu
          | unlock => exact absurd hu (hstored v)
          | _ => exact ⟨rfl, Progress.fresh.inj hu⟩
        | store D begun s rest => cases begun with
          | false => exact ⟨rfl, Progress.fresh.inj hu⟩
          | true => cases hu
        | bump => exact absurd hu (hstored v)
        | _ => exact ⟨rfl, Progress.fresh.inj hu⟩
      obtain ⟨hk, rfl⟩ := hbegun
      exact h.1.of_begun hk
    | sema op m s k =>
      cases k with
      | double v => exact Progress.fresh.inj hu ▸ h.2.2.1
      | normal v => exact Progress.fresh.inj hu ▸ h.2.2.1
      | updated v => exact absurd hu (hstored v)
      | _ => cases hu
    | _ => cases hu

/-- Only slots and semaphores differ. -/
structure SameShape (st st' : CCEH) : Prop where
  nseg : st'.nseg = st.nseg
  ndir : st'.ndir = st.ndir
  dir : st'.dir = st.dir
  depth : ∀ D, (st'.dirs D).depth = (st.dirs D).depth
  capacity : ∀ D, (st'.dirs D).capacity = (st.dirs D).capacity
  segment : ∀ D, (st'.dirs D).segment = (st.dirs D).segment
  level : ∀ p, (st'.segs p).localDepth = (st.segs p).localDepth

theorem SameShape.refl (st : CCEH) : SameShape st st :=
  ⟨rfl, rfl, rfl, fun _ => rfl, fun _ => rfl, fun _ => rfl, fun _ => rfl⟩

theorem SameShape.curDir (hs : SameShape st st') : st'.curDir.depth = st.curDir.depth ∧
    st'.curDir.capacity = st.curDir.capacity ∧ st'.curDir.segment = st.curDir.segment := by
  unfold CCEH.curDir
  rw [hs.dir]
  exact ⟨hs.depth _, hs.capacity _, hs.segment _⟩

theorem SameShape.frame (hs : SameShape st st') (w : Worker) : Frame st st' b w :=
  ⟨fun _ p _ => hs.level p, fun p _ => hs.level p, fun p _ => hs.level p, fun _ => hs.dir,
    fun _ => ⟨hs.curDir.2.2, fun n _ _ => ⟨hs.depth n, hs.capacity n, hs.segment n⟩⟩⟩

theorem SameShape.evolves {f' : ι → Worker} (hs : SameShape st st')
    (hshared : ∀ k p, (f' k).Fresh b p → (f k).Fresh b p)
    (hretired : ∀ D, D ≠ st.dir → (st.dirs D).sema < 0 → (st'.dirs D).sema < 0) :
    Evolves b st st' f f' := by
  refine ⟨hs.nseg.ge, hs.ndir.ge, hs.dir.ge, hs.curDir.1.ge, fun D _ => ⟨hs.depth D, hs.capacity D⟩,
    fun D _ x => Or.inl (by rw [hs.segment]), ?_, fun k p hp => Or.inl (hshared k p hp), ?_⟩
  · intro p hp
    rw [hs.level, hs.curDir.1]
    exact hp.level_le
  · intro D _ hD
    rw [hs.dir]
    by_cases he : D = st.dir
    · exact Or.inl he
    · exact Or.inr (hretired D he (hD.resolve_left he))

end Parts

section Steps

variable {ι : Type} {b : Build} {H : HashFuncs} {st st' : CCEH} {f : ι → Worker}
  {i j : ι} {w : Worker} {call : Call} {pc : Pc} {p : ℕ}

section

variable [Fintype ι]

theorem Sound.known_dir (h : Sound b st f) : Known b st f st.dir :=
  ⟨le_rfl, h.capacity, le_rfl, h.dir, Or.inl rfl⟩

theorem Sound.fits_at (h : Sound b st f) (hnow : (f i).now = some (call, pc)) :
    pc.Fits b st f (f i).held (f i).owns call := by
  have := h.fits i
  unfold Worker.Fits at this
  rw [hnow] at this
  exact this

theorem Sound.new_half (h : Sound b st f) (hp : (f i).Fresh b p) : p ≠ OID_NULL ∧ p < st.nseg := by
  obtain ⟨u, hu, hn⟩ := hp
  have := ((h.fits i).halves hu).new p hn
  exact ⟨this.ne_null, this.lt⟩

variable [DecidableEq ι]

/-- The parts of `Sound` after a step of thread `i`. -/
theorem Sound.assemble (h : Sound b st f) (hlocks : Locks st' (Function.update f i w))
    (e : Evolves b st st' f (Function.update f i w))
    (hcap : st'.curDir.capacity = 2 ^ st'.curDir.depth) (hlt : st'.dir < st'.ndir)
    (hdir : ∀ x < 2 ^ st'.curDir.depth,
      Public b st' (Function.update f i w) (st'.curDir.segment x))
    (hframe : ∀ j, j ≠ i → Frame st st' b (f j)) (hself : w.Fits b st' (Function.update f i w)) :
    Sound b st' (Function.update f i w) := by
  refine ⟨hlocks, hcap, hlt, hdir, ?_, ?_⟩
  · have hone : ∀ k p, k ≠ i → (Function.update f i w i).Fresh b p → ¬ (f k).Fresh b p := by
      intro k p hk hi hkp
      rcases e.shared i p hi with hold | hnew
      · exact hk (h.apart k i p hkp hold)
      · exact absurd (h.new_half hkp).2 (Nat.not_lt.mpr hnew)
    intro k l p hk hl
    by_cases hki : k = i
    · by_cases hli : l = i
      · rw [hki, hli]
      · rw [Function.update_of_ne hli] at hl
        exact absurd hl (hone l p hli (hki ▸ hk))
    · rw [Function.update_of_ne hki] at hk
      by_cases hli : l = i
      · exact absurd hk (hone k p hki (hli ▸ hl))
      · rw [Function.update_of_ne hli] at hl
        exact h.apart k l p hk hl
  · intro k
    by_cases hki : k = i
    · rw [hki, Function.update_self]
      exact hself
    · rw [Function.update_of_ne hki]
      exact (h.fits k).frame e (hframe k hki)

theorem Sound.same_shape (h : Sound b st f) (hs : SameShape st st')
    (hlocks : Locks st' (Function.update f i w))
    (hretired : ∀ D, D ≠ st.dir → (st.dirs D).sema < 0 → (st'.dirs D).sema < 0)
    (hfresh : ∀ p, w.Fresh b p → (f i).Fresh b p) (hself : w.Fits b st f) :
    Sound b st' (Function.update f i w) := by
  have e : Evolves b st st' f (Function.update f i w) := by
    refine hs.evolves (fun k p hp => ?_) hretired
    by_cases hk : k = i
    · rw [hk, Function.update_self] at hp
      exact hk ▸ hfresh p hp
    · rwa [Function.update_of_ne hk] at hp
  obtain ⟨hdepth, hcap, hseg⟩ := hs.curDir
  refine h.assemble hlocks e ?_ ?_ ?_ (fun j _ => hs.frame (f j)) (hself.frame e (hs.frame w))
  · rw [hcap, hdepth]
    exact h.capacity
  · rw [hs.dir, hs.ndir]
    exact h.dir_lt
  · intro x hx
    rw [hdepth] at hx
    rw [hseg]
    exact (h.dir x hx).evolves e

/-- A step that reads. -/
theorem Sound.read (h : Sound b st f) (hnow : (f i).now = some (call, pc))
    (hpc : ∀ op m s k, pc ≠ .sema op m s k) {out : Outcome} (henter : out.Enters st (f i))
    (hfresh : ∀ p, ((f i).continued call out).Fresh b p → (f i).Fresh b p)
    (hself : ((f i).continued call out).Fits b st f) :
    Sound b st (Function.update f i ((f i).continued call out)) :=
  h.same_shape (.refl st) (h.locks.other_step hnow hpc (fun _ hm => ⟨hm, rfl⟩)
    (fun _ hm hn => absurd hm hn) henter) (fun _ _ hD => hD) hfresh hself

end

/-! ### Reading the directory and the slots -/

/-- A call that does not lock its segment finds the entry unchanged when it checks it. -/
def Steady (b : Build) (st : CCEH) (w : Worker) : Prop :=
  match w.now with
  | some (call, .check _ target (.entry x D)) => call.Locks b ∨ (st.dirs D).segment x = target
  | _ => True

instance (b : Build) (st : CCEH) (w : Worker) : Decidable (Steady b st w) := by
  unfold Steady
  split <;> infer_instance

theorem topBits_lt_pow (f_hash : BitVec 64) (d : ℕ) : topBits f_hash d < 2 ^ d := by
  by_cases hd : d ≤ 64
  · exact topBits_lt f_hash d hd
  · have he : 64 - d = 0 := by omega
    rw [topBits_eq, he, pow_zero, Nat.div_one]
    exact f_hash.isLt.trans_le (Nat.pow_le_pow_right Nat.zero_lt_two (by omega))

theorem Call.retry_fits {held : Sem → ℕ} {owns : Sem → Bool} :
    call.retry.Fits b st f held owns call := by
  cases call <;> trivial

theorem Call.retry_progress : call.retry.progress b = .none := by
  cases call <;> rfl

theorem Call.retry_enters : call.retry.Enters st w := by
  cases call <;> trivial

theorem Public.has (h : Public b st f p) : st.Has (.seg p) := ⟨h.ne_null, h.lt⟩

/-- Thread `i` after its step. -/
def Worker.after (b : Build) (H : HashFuncs) (st : CCEH) (w : Worker) (call : Call) (pc : Pc) :
    Worker := (w.note st pc).continued call (pc.next b H call st).2

theorem setPair_level (st : CCEH) (t : ℕ) (loc : Slot) (q : Pair) (p : ℕ) :
    ((st.setSeg t ((st.segs t).setPair loc q)).segs p).localDepth = (st.segs p).localDepth ∧
      ((st.setSeg t ((st.segs t).setPair loc q)).segs p).sema = (st.segs p).sema := by
  by_cases hp : p = t
  · rw [hp, CCEH.setSeg_segs_self]
    exact ⟨rfl, rfl⟩
  · rw [CCEH.setSeg_segs_of_ne _ _ _ _ hp]
    exact ⟨rfl, rfl⟩

section

variable [Fintype ι]

/-- The way to the entry of a hash. -/
theorem Sound.route (h : Sound b st f) {r : RoutePc} (hr : r.Fits b st f) (f_hash : BitVec 64) :
    (∃ r', r.next st f_hash = .inl r' ∧ r'.Fits b st f) ∨
    ∃ x p, r.next st f_hash = .inr (x, p) ∧ Public b st f p ∧ x < 2 ^ st.curDir.depth ∧
      ∃ D, r = .entry x D ∧ p = (st.dirs D).segment x := by
  cases r with
  | dir => exact Or.inl ⟨_, rfl, h.known_dir⟩
  | depth D =>
    refine Or.inl ⟨_, rfl, (topBits_lt_pow f_hash _).trans_le ?_⟩
    exact Nat.pow_le_pow_right Nat.zero_lt_two hr.depth_le
  | segment x => exact Or.inl ⟨_, rfl, h.known_dir, hr⟩
  | entry x D =>
    refine Or.inr ⟨x, _, rfl, hr.1.entry x hr.2, hr.2.trans_le ?_, D, rfl, rfl⟩
    exact Nat.pow_le_pow_right Nat.zero_lt_two hr.1.depth_le

variable [DecidableEq ι]

/-- The step goes on outside of the directory update. -/
theorem Sound.read_goto (h : Sound b st f) (hnow : (f i).now = some (call, pc))
    (hpc : ∀ op m s k, pc ≠ .sema op m s k) {pc' : Pc} (henter : pc'.Enters st (f i))
    (hnone : pc'.progress b = .none) (hself : pc'.Fits b st f (f i).held (f i).owns call) :
    Sound b st (Function.update f i ((f i).continued call (.goto pc'))) := by
  refine h.read hnow hpc henter ?_ hself
  intro p hp
  obtain ⟨u, hu, _⟩ := hp
  rw [show ((f i).continued call (.goto pc')).progress b = pc'.progress b from rfl, hnone] at hu
  cases hu

theorem Sound.read_ret (h : Sound b st f) (hnow : (f i).now = some (call, pc))
    (hpc : ∀ op m s k, pc ≠ .sema op m s k) (v : Option Value) :
    Sound b st (Function.update f i ((f i).continued call (.ret v))) := by
  refine h.read hnow hpc trivial ?_ trivial
  intro p hp
  obtain ⟨u, hu, _⟩ := hp
  cases hu

theorem Sound.run_find (h : Sound b st f) {r : RoutePc} (hnow : (f i).now = some (call, .find r)) :
    Sound b st (Function.update f i ((f i).after b H st call (.find r))) := by
  have hpc : ∀ op m s k, Pc.find r ≠ .sema op m s k := by simp
  have hfits := h.fits_at hnow
  rcases h.route hfits (H.f call.key) with ⟨r', hr, hr'⟩ | ⟨x, target, hr, hpub, hx, _⟩
  · have hnext : ((Pc.find r).next b H call st).2 = .goto (.find r') := by
      simp only [Pc.next, hr]
    rw [Worker.after, hnext]
    exact h.read_goto hnow hpc trivial rfl hr'
  · have hnext : ((Pc.find r).next b H call st).2 = .goto
        (if call.Locks b then .sema .lock (.seg target) .load (.locked x target)
        else .check x target .dir) := by
      simp only [Pc.next, hr, if_neg hpub.ne_null]
    rw [Worker.after, hnext]
    by_cases hl : call.Locks b
    · rw [if_pos hl]
      exact h.read_goto hnow hpc ⟨rfl, hpub.has, fun ho => by cases ho⟩ rfl ⟨rfl, rfl, hpub, hx⟩
    · rw [if_neg hl]
      exact h.read_goto hnow hpc trivial rfl ⟨⟨hpub, fun hc => absurd hc hl⟩, hx, trivial⟩

theorem Sound.run_check (h : Sound b st f) (hs : Steady b st (f i)) {x target : ℕ} {r : RoutePc}
    (hnow : (f i).now = some (call, .check x target r)) :
    Sound b st (Function.update f i ((f i).after b H st call (.check x target r))) := by
  have hpc : ∀ op m s k, Pc.check x target r ≠ .sema op m s k := by simp
  obtain ⟨hlocked, hx, hfits⟩ := h.fits_at hnow
  rcases h.route hfits (H.f call.key) with ⟨r', hr, hr'⟩ | ⟨y, entry, hr, hpub, _, D, rfl, hentry⟩
  · have hnext : ((Pc.check x target r).next b H call st).2 = .goto (.check x target r') := by
      simp only [Pc.next, hr]
    rw [Worker.after, hnext]
    exact h.read_goto hnow hpc trivial rfl ⟨hlocked, hx, hr'⟩
  · by_cases he : target = entry
    · have hnext : ((Pc.check x target (.entry y D)).next b H call st).2 =
          .goto (call.body H x target) := by
        simp only [Pc.next, hr, ne_eq, he, not_true_eq_false, if_false]
      rw [Worker.after, hnext]
      cases call with
      | insert key value => exact h.read_goto hnow hpc trivial rfl ⟨hlocked, hx, trivial⟩
      | get key => exact h.read_goto hnow hpc trivial rfl hlocked
    · have hnext : ((Pc.check x target (.entry y D)).next b H call st).2 =
          .goto (.sema .unlock (.seg target) .load .retry) := by
        simp only [Pc.next, hr, ne_eq, he, not_false_eq_true, if_true]
      have hl : call.Locks b := by
        unfold Steady at hs
        rw [hnow] at hs
        exact hs.resolve_right fun hx => he (hentry ▸ hx.symm)
      rw [Worker.after, hnext]
      exact h.read_goto hnow hpc ⟨rfl, hlocked.shared.has, fun _ => hlocked.held hl⟩ rfl rfl

/-- A store to a slot. -/
theorem Sound.slot_store (h : Sound b st f) (hnow : (f i).now = some (call, pc))
    (hpc : ∀ op m s k, pc ≠ .sema op m s k) (t : ℕ) (loc : Slot) (q : Pair) {pc' : Pc}
    (henter : pc'.Enters st (f i)) (hnone : pc'.progress b = .none)
    (hself : pc'.Fits b st f (f i).held (f i).owns call) :
    Sound b (st.setSeg t ((st.segs t).setPair loc q))
      (Function.update f i ((f i).continued call (.goto pc'))) := by
  have hlevel := setPair_level st t loc q
  have hsema : ∀ m, (st.setSeg t ((st.segs t).setPair loc q)).sema m = st.sema m := by
    intro m
    cases m with
    | seg p => exact (hlevel p).2
    | dir D => rfl
  have hhas : ∀ m, (st.setSeg t ((st.segs t).setPair loc q)).Has m ↔ st.Has m := by
    intro m
    cases m <;> rfl
  have henter' : pc'.Enters (st.setSeg t ((st.segs t).setPair loc q)) (f i) := by
    cases pc' with
    | sema op m s k => exact ⟨henter.1, (hhas m).mpr henter.2.1, henter.2.2⟩
    | _ => trivial
  refine h.same_shape ⟨rfl, rfl, rfl, fun _ => rfl, fun _ => rfl, fun _ => rfl,
    fun p => (hlevel p).1⟩ (h.locks.other_step hnow hpc
      (fun m hm => ⟨(hhas m).mpr hm, hsema m⟩) (fun m hm hn => absurd ((hhas m).mp hm) hn) henter')
    (fun _ _ hD => hD) ?_ hself
  intro p hp
  obtain ⟨u, hu, _⟩ := hp
  rw [show ((f i).continued call (.goto pc')).progress b = pc'.progress b from rfl, hnone] at hu
  cases hu

theorem Sound.run_slots (h : Sound b st f) {x target pattern : ℕ} {slots : List Slot}
    (hnow : (f i).now = some (call, .probe x target pattern slots)) :
    Sound b st (Function.update f i ((f i).after b H st call (.probe x target pattern slots))) := by
  obtain ⟨hlocked, hx, hl⟩ := h.fits_at hnow
  cases slots with
  | nil => exact h.read_goto hnow (by simp) trivial rfl ⟨hlocked, hx, hl⟩
  | cons loc slots => exact h.read_goto hnow (by simp) trivial rfl ⟨hlocked, hx, hl⟩

theorem Sound.run_test (h : Sound b st f) {x target pattern : ℕ} {loc : Slot} {_key : Key}
    {slots : List Slot} (hnow : (f i).now = some (call, .test x target pattern loc _key slots)) :
    Sound b st (Function.update f i
      ((f i).after b H st call (.test x target pattern loc _key slots))) := by
  obtain ⟨hlocked, hx, hl⟩ := h.fits_at hnow
  unfold Worker.after
  simp only [Pc.next]
  split
  · exact h.read_goto hnow (by simp) trivial rfl ⟨hlocked, hx, hl⟩
  · exact h.read_goto hnow (by simp) trivial rfl ⟨hlocked, hx, hl⟩

theorem Sound.run_claim (h : Sound b st f) {x target pattern : ℕ} {loc : Slot} {_key : Key}
    {slots : List Slot} (hnow : (f i).now = some (call, .claim x target pattern loc _key slots)) :
    Sound b ((Pc.claim x target pattern loc _key slots).next b H call st).1 (Function.update f i
      ((f i).after b H st call (.claim x target pattern loc _key slots))) := by
  obtain ⟨hlocked, hx, hl⟩ := h.fits_at hnow
  unfold Worker.after
  simp only [Pc.next]
  split
  · exact h.slot_store hnow (by simp) target loc _ trivial rfl ⟨hlocked, hl⟩
  · exact h.read_goto hnow (by simp) trivial rfl ⟨hlocked, hx, hl⟩

theorem Sound.run_recheck (h : Sound b st f) {x target d : ℕ} {r : RecheckPc}
    (hnow : (f i).now = some (call, .recheck x target d r)) :
    Sound b st (Function.update f i ((f i).after b H st call (.recheck x target d r))) := by
  obtain ⟨hs, hd, hr⟩ := h.fits_at hnow
  cases r with
  | dir => exact h.read_goto hnow (by simp) trivial rfl ⟨hs, hd, hr.1, h.known_dir, hr.2⟩
  | entry D =>
    refine h.read_goto hnow (by simp) trivial rfl ⟨hs, hd, hr.2.1.entry x hr.2.2, ?_⟩
    intro hb
    rw [hr.1] at hb
    cases hb
  | level p =>
    unfold Worker.after
    simp only [Pc.next]
    split
    · exact h.read_goto hnow (by simp) trivial rfl hs
    · next hne =>
      refine h.read_goto hnow (by simp) trivial rfl ⟨hs, ?_⟩
      cases b with
      | cow => exact hd rfl
      | inplace =>
        rw [← hr.2 rfl]
        exact not_not.mp hne

theorem Sound.run_answer (h : Sound b st f) {target : ℕ} (v : Value)
    (hnow : (f i).now = some (call, pc)) (hpc : ∀ op m s k, pc ≠ .sema op m s k)
    (hlocked : Locked b st f (f i).held call target) :
    Sound b st (Function.update f i ((f i).continued call (Call.answer b target v))) := by
  cases b with
  | cow => exact h.read_ret hnow hpc _
  | inplace =>
    have hl : call.Locks .inplace := by
      cases call with
      | insert key value => trivial
      | get key => exact rfl
    exact h.read_goto hnow hpc ⟨rfl, hlocked.shared.has, fun _ => hlocked.held hl⟩ rfl rfl

theorem Sound.run_scan (h : Sound b st f) {target : ℕ} {slots : List Slot}
    (hnow : (f i).now = some (call, .scan target slots)) :
    Sound b st (Function.update f i ((f i).after b H st call (.scan target slots))) := by
  have hlocked := h.fits_at hnow
  cases slots with
  | nil => exact h.run_answer _ hnow (by simp) hlocked
  | cons loc slots =>
    unfold Worker.after
    simp only [Pc.next]
    split
    · exact h.read_goto hnow (by simp) trivial rfl hlocked
    · exact h.read_goto hnow (by simp) trivial rfl hlocked

/-- The store of the pair, and the unlock that follows it. -/
theorem Sound.run_pair (h : Sound b st f) {target : ℕ} {loc : Slot} {pc : Pc}
    (hpc : pc = .value target loc ∨ pc = .key target loc) (hnow : (f i).now = some (call, pc)) :
    Sound b (pc.next b H call st).1 (Function.update f i ((f i).after b H st call pc)) := by
  rcases hpc with rfl | rfl
  · obtain ⟨hlocked, hl⟩ := h.fits_at hnow
    exact h.slot_store hnow (by simp) target loc _ trivial rfl ⟨hlocked, hl⟩
  · obtain ⟨hlocked, hl⟩ := h.fits_at hnow
    exact h.slot_store hnow (by simp) target loc _
      ⟨rfl, hlocked.shared.has, fun _ => hlocked.held hl⟩ rfl rfl

/-- No slot was free: the call reads the local depth and unlocks. -/
theorem Sound.run_full (h : Sound b st f) {x target : ℕ}
    (hnow : (f i).now = some (call, .depth x target)) :
    Sound b st (Function.update f i ((f i).after b H st call (.depth x target))) := by
  obtain ⟨hlocked, hx, hl⟩ := h.fits_at hnow
  exact h.read_goto hnow (by simp) ⟨rfl, hlocked.shared.has, fun _ => hlocked.held hl⟩ rfl
    ⟨rfl, rfl, hlocked.shared, hx, fun _ => rfl⟩

end

/-! ### Steps on a semaphore -/

/-- A suspended `sema` stays negative under the three calls. -/
theorem semaStep_neg {c : Caller} {op : SemaOp} {s : SemaPc} {sema : ℤ} (hk : c.Knows)
    (hc : c.call = some (op, s)) (hneg : sema < 0) : (semaStep op sema s).1 < 0 := by
  simp only [Caller.Knows, hc] at hk
  cases op with
  | lock =>
    cases s with
    | load => exact hneg
    | cas val =>
      have hval : 0 ≤ val := hk
      simp only [semaStep, lockStep, if_neg (show sema ≠ val by omega)]
      exact hneg
    | wait val => exact hneg
  | unlock =>
    cases s with
    | load => exact hneg
    | cas val =>
      simp only [semaStep, unlockStep]
      split
      · show val - 1 < 0
        omega
      · exact hneg
    | wait val => exact hneg
  | suspend =>
    cases s with
    | load => exact hneg
    | cas val =>
      have hval : 0 ≤ val := hk
      simp only [semaStep, suspendStep, if_neg (show sema ≠ val by omega)]
      exact hneg
    | wait val => exact hneg

/-- `lock()` returns true on a `sema` that is not negative. -/
theorem lock_returns {c : Caller} {s : SemaPc} {sema : ℤ} (hk : c.Knows)
    (hc : c.call = some (.lock, s)) (hr : (semaStep .lock sema s).2 = .ret true) : 0 ≤ sema := by
  simp only [Caller.Knows, hc] at hk
  cases s with
  | load =>
    simp only [semaStep, lockStep] at hr
    split at hr <;> cases hr
  | cas val =>
    have hval : 0 ≤ val := hk
    simp only [semaStep, lockStep] at hr
    split at hr
    · omega
    · cases hr
  | wait val => cases hk

/-- `suspend()` returns true from its wait loop, which it enters when `sema` is not negative. -/
theorem suspend_returns {s : SemaPc} {sema : ℤ} (hr : (semaStep .suspend sema s).2 = .ret true) :
    ∃ val, s = .wait val := by
  cases s with
  | load =>
    simp only [semaStep, suspendStep] at hr
    split at hr <;> cases hr
  | cas val =>
    simp only [semaStep, suspendStep] at hr
    split at hr <;> cases hr
  | wait val => exact ⟨val, rfl⟩

theorem suspend_waits {c : Caller} {s : SemaPc} {sema val : ℤ} (hk : c.Knows)
    (hc : c.call = some (.suspend, s)) (hr : (semaStep .suspend sema s).2 = .goto (.wait val)) :
    s = .wait val ∨ 0 ≤ sema := by
  simp only [Caller.Knows, hc] at hk
  cases s with
  | load =>
    simp only [semaStep, suspendStep] at hr
    split at hr <;> cases hr
  | cas v =>
    have hval : 0 ≤ v := hk
    simp only [semaStep, suspendStep] at hr
    split at hr
    · exact Or.inr (by omega)
    · cases hr
  | wait v =>
    simp only [semaStep, suspendStep] at hr
    split at hr
    · cases hr
      exact Or.inl rfl
    · cases hr

theorem setSem_shape (st : CCEH) (m : Sem) (v : ℤ) : SameShape st (st.setSem m v) := by
  cases m with
  | seg p =>
    refine ⟨rfl, rfl, rfl, fun _ => rfl, fun _ => rfl, fun _ => rfl, fun q => ?_⟩
    by_cases hq : q = p
    · rw [hq, CCEH.setSem, CCEH.setSema_segs_self]
      rfl
    · exact congrArg Segment.localDepth (CCEH.setSeg_segs_of_ne _ _ _ _ hq)
  | dir D =>
    have hdirs : ∀ E, (st.setSem (.dir D) v).dirs E =
        { st.dirs E with sema := if E = D then v else (st.dirs E).sema } := by
      intro E
      by_cases hE : E = D
      · rw [hE, if_pos rfl]
        exact CCEH.setDir_dirs_self ..
      · rw [if_neg hE]
        exact Function.update_of_ne hE ..
    exact ⟨rfl, rfl, rfl, fun E => by rw [hdirs], fun E => by rw [hdirs], fun E => by rw [hdirs],
      fun _ => rfl⟩

/-- A thread gives up a semaphore only by storing `sema = 0`. -/
theorem Worker.note_owns {w : Worker} {op : SemaOp} {m m' : Sem} {s : SemaPc} {k : After}
    (h : w.owns m' = true) : (w.note st (.sema op m s k)).owns m' = true := by
  unfold Worker.note
  dsimp only
  split
  · exact h
  · by_cases hm : m' = m
    · subst m'
      show Function.update w.owns m _ m = true
      rw [Function.update_self]
      show (w.owns m || _) = true
      rw [h, Bool.true_or]
    · show Function.update w.owns m _ m' = true
      rw [Function.update_of_ne hm]
      exact h

theorem Halves.Fits.mono {u : Halves} {begun : Bool} {owns owns' : Sem → Bool}
    (h : u.Fits b st f owns begun)
    (ho : owns (.seg u.target) = true → owns' (.seg u.target) = true) :
    u.Fits b st f owns' begun :=
  ⟨⟨h.target.shared, ho h.target.owns⟩, h.level, h.new, h.inplace, h.ne⟩

section

variable [Fintype ι]

/-- What the thread knows when the call on the semaphore has returned. -/
theorem Sound.after_sema (h : Sound b st f) {op : SemaOp} {m : Sem} {s : SemaPc} {k : After}
    {ok : Bool} (hnow : (f i).now = some (call, .sema op m s k))
    (hr : (semaStep op (st.sema m) s).2 = .ret ok) :
    ((((f i).note st (.sema op m s k)).continued call (k.next b call ok)).Fits b st f ∧
      (k.next b call ok).Enters st ((f i).note st (.sema op m s k))) ∧
    ∀ p, (((f i).note st (.sema op m s k)).continued call (k.next b call ok)).Fresh b p →
      (f i).Fresh b p := by
  have hk : k.Fits b st f (f i).held (f i).owns op m s := h.fits_at hnow
  have hknows := (h.locks.protocol m (h.locks.has hnow)).knows i
  have hcall : ((f i).caller m).call = some (op, s) := by simp [Worker.caller, hnow]
  have howns : ∀ {m'}, (f i).owns m' = true → ((f i).note st (.sema op m s k)).owns m' = true :=
    fun ho => Worker.note_owns ho
  have hheld : ((f i).note st (.sema op m s k)).held m = (((f i).caller m).ret op ok).held := by
    simp only [Worker.note, hr, Function.update_self]
  have hgot : ((f i).note st (.sema op m s k)).owns m = (((f i).caller m).ret op ok).owns := by
    simp only [Worker.note, hr, Function.update_self]
  have hold : (f i).progress b = (Pc.sema op m s k).progress b := by
    simp only [Worker.progress, hnow]
  have hnone : ∀ {pc' : Pc}, pc'.progress b = .none → ∀ p,
      (((f i).note st (.sema op m s k)).continued call (.goto pc')).Fresh b p → (f i).Fresh b p := by
    rintro pc' hn p ⟨u, hu, _⟩
    rw [show (((f i).note st (.sema op m s k)).continued call (.goto pc')).progress b =
      pc'.progress b from rfl, hn] at hu
    cases hu
  have hret : ∀ v p, (((f i).note st (.sema op m s k)).continued call (.ret v)).Fresh b p →
      (f i).Fresh b p := by
    rintro v p ⟨u, hu, _⟩
    cases hu
  have hretry : ∀ p, (((f i).note st (.sema op m s k)).continued call (.goto call.retry)).Fresh b p →
      (f i).Fresh b p := hnone Call.retry_progress
  cases k with
  | locked x target =>
    obtain ⟨rfl, rfl, hpub, hx⟩ := hk
    cases ok with
    | false => exact ⟨⟨Call.retry_fits, Call.retry_enters⟩, hretry⟩
    | true =>
      refine ⟨⟨⟨⟨hpub, fun _ => ?_⟩, hx, trivial⟩, trivial⟩, hnone rfl⟩
      show 0 < ((f i).note st _).held _
      rw [hheld]
      exact Nat.succ_pos _
  | retry => exact ⟨⟨Call.retry_fits, Call.retry_enters⟩, hretry⟩
  | stored => exact ⟨⟨trivial, trivial⟩, hret _⟩
  | collide x target d =>
    obtain ⟨rfl, rfl, hpub, hx, hd⟩ := hk
    exact ⟨⟨⟨rfl, rfl, hpub, hx, hd⟩, rfl, hpub.has, fun ho => by cases ho⟩, hnone rfl⟩
  | suspended x target d =>
    obtain ⟨rfl, rfl, hpub, hx, hd⟩ := hk
    cases ok with
    | false => exact ⟨⟨Call.retry_fits, Call.retry_enters⟩, hretry⟩
    | true =>
      have hown : ((f i).note st (.sema .suspend (.seg target) s (.suspended x target d))).owns
          (.seg target) = true := by
        rw [hgot]
        show ((f i).owns _ || _) = true
        exact Bool.or_true _
      refine ⟨⟨⟨⟨hpub, hown⟩, hd, ?_⟩, trivial⟩, hnone rfl⟩
      cases b with
      | cow => exact ⟨rfl, hx⟩
      | inplace => exact ⟨hpub, fun _ => rfl⟩
  | answer v => exact ⟨⟨trivial, trivial⟩, hret _⟩
  | double u =>
    obtain ⟨rfl, ⟨D, rfl, hD⟩, hu, hwait⟩ := hk
    have hsame : ∀ {k' : UpdatePc}, k'.progress b u = .fresh u → ∀ p, (((f i).note st
        (.sema .suspend (.dir D) s (.double u))).continued call (.goto (.update u k'))).Fresh b p →
        (f i).Fresh b p := by
      rintro k' hk' p ⟨v, hv, hn⟩
      rw [show (((f i).note st _).continued call (.goto (.update u k'))).progress b =
        k'.progress b u from rfl, hk'] at hv
      exact ⟨v, hold.trans hv, hn⟩
    cases ok with
    | false => exact ⟨⟨⟨hu.mono howns, trivial⟩, trivial⟩, hsame rfl⟩
    | true =>
      obtain ⟨val, hs⟩ := suspend_returns hr
      have hdir := hwait val hs
      refine ⟨⟨⟨hu.mono howns, ?_⟩, trivial⟩, hsame rfl⟩
      show ((f i).note st _).owns _ = true
      rw [← hdir, hgot]
      exact Bool.or_true _
  | normal u =>
    obtain ⟨rfl, ⟨D, rfl, hD⟩, hu, hl⟩ := hk
    have hsame : ∀ {k' : UpdatePc}, k'.progress b u = .fresh u → ∀ p, (((f i).note st
        (.sema .lock (.dir D) s (.normal u))).continued call (.goto (.update u k'))).Fresh b p →
        (f i).Fresh b p := by
      rintro k' hk' p ⟨v, hv, hn⟩
      rw [show (((f i).note st _).continued call (.goto (.update u k'))).progress b =
        k'.progress b u from rfl, hk'] at hv
      exact ⟨v, hold.trans hv, hn⟩
    cases ok with
    | false => exact ⟨⟨⟨hu.mono howns, hl⟩, trivial⟩, hsame rfl⟩
    | true =>
      have hpos : 0 ≤ st.sema (.dir D) := lock_returns hknows hcall hr
      have hdir : D = st.dir := hD.newest.resolve_right fun hneg => by
        have : st.sema (.dir D) < 0 := hneg
        omega
      subst D
      refine ⟨⟨⟨hu.mono howns, ?_, hl⟩, trivial⟩, hsame rfl⟩
      show 0 < ((f i).note st _).held _
      rw [hheld]
      exact Nat.succ_pos _
  | updated u =>
    obtain ⟨rfl, rfl, _, hu, hl⟩ := hk
    cases b with
    | cow => exact ⟨⟨Call.retry_fits, Call.retry_enters⟩, hretry⟩
    | inplace =>
      refine ⟨⟨⟨hu.mono howns, rfl, hl⟩, trivial⟩, ?_⟩
      rintro p ⟨v, hv, _⟩
      cases hv

variable [DecidableEq ι]

theorem Sound.run_sema (h : Sound b st f) {op : SemaOp} {m : Sem} {s : SemaPc} {k : After}
    (hnow : (f i).now = some (call, .sema op m s k)) :
    Sound b ((Pc.sema op m s k).next b H call st).1
      (Function.update f i ((f i).after b H st call (.sema op m s k))) := by
  have hm := h.locks.has hnow
  have hknows := (h.locks.protocol m hm).knows i
  have hcall : ((f i).caller m).call = some (op, s) := by simp [Worker.caller, hnow]
  have hshape := setSem_shape st m (semaStep op (st.sema m) s).1
  have hlocks := h.locks.sema_step (b := b) (H := H) hnow fun ok hr => by
    have := (h.after_sema hnow hr).1.2
    cases hk : k.next b call ok with
    | ret v => trivial
    | goto pc' =>
      rw [hk] at this
      cases pc' with
      | sema op' m' s' k' => exact ⟨this.1, (st.setSem_has m m' _).mpr this.2.1, this.2.2⟩
      | _ => trivial
  refine h.same_shape hshape hlocks ?_ ?_ ?_
  · intro D hne hneg
    by_cases hD : m = .dir D
    · subst m
      have := semaStep_neg hknows hcall (show st.sema (.dir D) < 0 from hneg)
      exact lt_of_eq_of_lt (CCEH.setSem_sema st (.dir D) _) this
    · have := CCEH.setSem_sema_of_ne st (semaStep op (st.sema m) s).1 (m := m) (n := .dir D)
        fun he => hD he.symm
      exact lt_of_eq_of_lt this hneg
  · cases hr : (semaStep op (st.sema m) s).2 with
    | ret ok =>
      have hnext : ((Pc.sema op m s k).next b H call st).2 = k.next b call ok := by
        simp only [Pc.next, hr]
      rw [Worker.after, hnext]
      exact (h.after_sema hnow hr).2
    | goto s' =>
      have hnext : ((Pc.sema op m s k).next b H call st).2 = .goto (.sema op m s' k) := by
        simp only [Pc.next, hr]
      rw [Worker.after, hnext]
      rintro p ⟨u, hu, hn⟩
      refine ⟨u, ?_, hn⟩
      rw [← hu]
      simp only [Worker.progress, hnow, Worker.continued]
      cases k <;> rfl
  · cases hr : (semaStep op (st.sema m) s).2 with
    | ret ok =>
      have hnext : ((Pc.sema op m s k).next b H call st).2 = k.next b call ok := by
        simp only [Pc.next, hr]
      rw [Worker.after, hnext]
      exact (h.after_sema hnow hr).1.1
    | goto s' =>
      have hnext : ((Pc.sema op m s k).next b H call st).2 = .goto (.sema op m s' k) := by
        simp only [Pc.next, hr]
      have hnote : (f i).note st (.sema op m s k) = f i := by simp only [Worker.note, hr]
      rw [Worker.after, hnext, hnote]
      have hk : k.Fits b st f (f i).held (f i).owns op m s := h.fits_at hnow
      show k.Fits b st f (f i).held (f i).owns op m s'
      cases k with
      | double u =>
        obtain ⟨rfl, ⟨D, rfl, hD⟩, hu, hwait⟩ := hk
        refine ⟨rfl, ⟨D, rfl, hD⟩, hu, ?_⟩
        intro val hs
        subst s'
        rcases suspend_waits hknows hcall hr with hs | hpos
        · exact hwait val hs
        · rw [hD.newest.resolve_right fun hneg => by
            have : st.sema (.dir D) < 0 := hneg
            omega]
      | _ => exact hk

theorem Sound.run_release (h : Sound b st f) {target : ℕ}
    (hnow : (f i).now = some (call, .release target)) :
    Sound b ((Pc.release target).next b H call st).1
      (Function.update f i ((f i).after b H st call (.release target))) := by
  have hs := h.fits_at hnow
  refine h.same_shape (setSem_shape st (.seg target) 0)
    (h.locks.release_step hnow hs.shared.has hs.owns) (fun D _ hD => hD) ?_ ?_
  · rintro p ⟨u, hu, _⟩
    rw [show ((f i).after b H st call (.release target)).progress b = call.retry.progress b from rfl,
      Call.retry_progress] at hu
    cases hu
  · exact Call.retry_fits

end

end Steps

end PmemStudy.Cceh
