import PmemStudy.Cceh.SharedPairs

/-!
# No inserted key is lost

A key that `Insert` has stored stays in the segment that it is routed to, in the segment that
the pending stores lead to, and in the half that a `Split` has copied it to. So every `Get`
that begins afterwards finds it, whatever the other threads do meanwhile.
-/

namespace PmemStudy.Cceh

open AlignedBlocks SuspendLock Threads

def Segment.HasKey (H : HashFuncs) (s : Segment) (key : Key) : Prop :=
  ∃ loc ∈ windows H key, (s.bucket loc).key = key

/-- The half that a key goes to. -/
def Halves.half (H : HashFuncs) (u : Halves) (key : Key) : ℕ :=
  if nextBit (H.f key) u.target_local_depth then u.s1 else u.s0

/-- The segment of the key in the directory that the pending stores lead to. -/
def CCEH.leads (H : HashFuncs) (st : CCEH) (entry : ℕ → ℕ) (key : Key) : ℕ :=
  entry (topBits (H.f key) st.curDir.depth)

/-- Wherever the key is looked for, it is there. -/
structure Kept {ι : Type} (b : Build) (H : HashFuncs) (st : CCEH) (g : ι → Progress)
    (entry : ℕ → ℕ) (key : Key) : Prop where
  valid : ValidKey key
  settles : Settles b st g entry
  routed : (st.segs (st.route (H.f key))).HasKey H key
  settled : (st.segs (st.leads H entry key)).HasKey H key
  copied : ∀ k u, g k = .fresh u → st.leads H entry key = u.target →
    (st.segs (u.half H key)).HasKey H key

/-- `Split` finds a slot for every pair that it copies. -/
def Pc.Roomy (b : Build) (H : HashFuncs) (st : CCEH) : Pc → Prop
  | .split target _ => ∀ pattern, (st.segs target).SplitFits b H pattern
  | _ => True

/-- A step of a regular run in which `Split` drops no pair. -/
def Lossless (b : Build) (H : HashFuncs) (P : Key → Value → Prop) (st : CCEH) (w : Worker) : Prop :=
  Regular b H P st w ∧
  match w.now with
  | some (_, pc) => pc.Roomy b H st
  | none => True

def Pc.splits : Pc → Bool
  | .split .. => true
  | _ => false

theorem Pc.roomy_of_not_splits {b : Build} {H : HashFuncs} {st : CCEH} {pc : Pc}
    (h : ¬ pc.splits = true) : pc.Roomy b H st := by
  cases pc with
  | split target d => exact absurd rfl h
  | _ => trivial

open Classical in
noncomputable instance (b : Build) (H : HashFuncs) (st : CCEH) (pc : Pc) :
    Decidable (pc.Roomy b H st) :=
  if h : pc.splits = true then propDecidable _ else isTrue (Pc.roomy_of_not_splits h)

noncomputable instance (b : Build) (H : HashFuncs) (P : Key → Value → Prop)
    [∀ key value, Decidable (P key value)] (st : CCEH) : ∀ w : Worker, Decidable (Lossless b H P st w)
  | ⟨some (call, pc), r, held, owns⟩ => inferInstanceAs
    (Decidable (Regular b H P st ⟨some (call, pc), r, held, owns⟩ ∧ pc.Roomy b H st))
  | ⟨none, r, held, owns⟩ => inferInstanceAs
    (Decidable (Regular b H P st ⟨none, r, held, owns⟩ ∧ True))

section Steps

variable {ι : Type} {b : Build} {H : HashFuncs}
  {P : Key → Value → Prop} {st st' : CCEH} {f : ι → Worker} {i j : ι} {call : Call} {pc : Pc}
  {p : ℕ} {entry entry' : ℕ → ℕ} {key : Key} {u : Halves}

/-! ### Slots -/

/-- A key that is to be copied is in the copy. -/
theorem CopiedHalf.key_copied {src dst : Segment} {bit : Bool} (h : CopiedHalf b H src bit dst)
    (hc : Segment.Copies b bit) (hf : ∀ pattern, src.SplitFits b H pattern) (hv : key ≠ INVALID)
    (hk : src.HasKey H key) (hbit : nextBit (H.f key) src.localDepth = bit) : dst.HasKey H key := by
  obtain ⟨loc, _, hkey⟩ := hk
  have hocc : src.Occupied loc := by
    rw [Segment.Occupied, hkey]
    exact hv
  obtain ⟨loc', hcopy⟩ := h.live_copied hc _ (hf _) loc ⟨hocc, rfl⟩ ⟨hocc, by rw [hkey]; exact hbit⟩
  have hocc' : dst.Occupied loc' := by
    rw [Segment.Occupied, hcopy, hkey]
    exact hv
  obtain ⟨l, _, hsource, hwin⟩ := h.copyOf.source loc' hocc'
  rw [← hsource, hcopy, hkey] at hwin
  exact ⟨loc', hwin, by rw [hcopy, hkey]⟩

theorem Halves.Fits.half_cases {owns : Sem → Bool} {begun : Bool} (hu : u.Fits b st f owns begun)
    (key : Key) : u.New b (u.half H key) ∨ u.half H key = u.target := by
  unfold Halves.half
  cases b with
  | cow =>
    split
    · exact Or.inl (Or.inr rfl)
    · exact Or.inl (Or.inl rfl)
  | inplace =>
    split
    · exact Or.inl rfl
    · exact Or.inr (hu.inplace rfl)

section

variable [Fintype ι]

/-- No call takes the slot of a key in the segment that the key leads to. -/
theorem Clean.keeps_settled (hc : Clean b H P st f) (h : Sound b st f)
    (hS : Settles b st (progresses b f) entry) (hd : st.curDir.depth ≤ 63)
    (hnow : (f i).now = some (call, pc)) (hv : ValidKey key) (he : st.leads H entry key = p)
    (hk : (st.segs p).HasKey H key) : ((pc.next b H call st).1.segs p).HasKey H key := by
  obtain ⟨loc, hmem, hkey⟩ := hk
  have hx := topBits_lt_pow (H.f key) st.curDir.depth
  have hp : p < st.nseg := by
    rw [← he]
    exact (hS.shared h hx).lt
  have hfill : ¬ (pc = .value p loc ∨ pc = .key p loc) := fun hpc =>
    hv.2 (hkey.symm.trans (hc.filling hnow hpc).1.key_eq)
  refine ⟨loc, hmem, ?_⟩
  rcases Pc.next_pair b H call pc loc hp with
    heq | ⟨x, pattern, slots, rfl, _⟩ | ⟨rfl, _⟩ | ⟨rfl, _⟩
  · rw [heq]
    exact hkey
  · obtain ⟨hprobes, hrep⟩ := hc.sees i call _ hnow
    obtain ⟨hlocked, _, hl⟩ := h.fits_at hnow
    have hfree := h.not_owned (hlocked.held hl)
    rw [hprobes.pattern_eq, hS.route_block h (by omega) hfree (hprobes.reached.route hl) hx he,
      topBits_coarser _ _ _ hlocked.shared.level_le (by omega), hkey] at hrep
    exact absurd hrep (not_replaceable_of_pattern hv rfl)
  · exact absurd (Or.inl rfl) hfill
  · exact absurd (Or.inr rfl) hfill

/-- A segment that the thread has not locked. -/
theorem Clean.keeps_unlocked (h : Sound b st f) (hnow : (f i).now = some (call, pc))
    (hp : p < st.nseg) (hidle : Public b st f p → (f i).held (.seg p) = 0)
    (hk : (st.segs p).HasKey H key) : ((pc.next b H call st).1.segs p).HasKey H key := by
  have hno : ∀ {q : ℕ}, Locked b st f (f i).held call q → call.Locks b → q ≠ p := by
    rintro q hlocked hl rfl
    have := hlocked.held hl
    have := hidle hlocked.shared
    omega
  obtain ⟨loc, hmem, hkey⟩ := hk
  refine ⟨loc, hmem, ?_⟩
  rcases Pc.next_pair b H call pc loc hp with
    heq | ⟨x, pattern, slots, rfl, _⟩ | ⟨rfl, _⟩ | ⟨rfl, _⟩
  · rw [heq]
    exact hkey
  · obtain ⟨hlocked, _, hl⟩ := h.fits_at hnow
    exact absurd rfl (hno hlocked hl)
  · obtain ⟨hlocked, hl⟩ := h.fits_at hnow
    exact absurd rfl (hno hlocked hl)
  · obtain ⟨hlocked, hl⟩ := h.fits_at hnow
    exact absurd rfl (hno hlocked hl)

theorem Kept.routed_next (hk : Kept b H st (progresses b f) entry key) (hc : Clean b H P st f)
    (h : Sound b st f) (hd : st.curDir.depth ≤ 63) (hnow : (f i).now = some (call, pc)) :
    ((pc.next b H call st).1.segs (st.route (H.f key))).HasKey H key := by
  have hx := topBits_lt_pow (H.f key) st.curDir.depth
  by_cases hp : ∃ k v rest s, progresses b f k = .storing v rest ∧
      Store.entry (topBits (H.f key) st.curDir.depth) s ∈ rest
  · obtain ⟨k, v, rest, s, hv, hs⟩ := hp
    have ht : st.route (H.f key) = v.target := (hk.settles.pending k v rest hv _ s hs).2
    have htarget := ((h.fits k).storing hv).1.target
    refine Clean.keeps_unlocked h hnow ?_ (fun _ => ?_) hk.routed
    · rw [ht]
      exact htarget.shared.lt
    · rw [ht]
      exact (h.locks.of_owns htarget.owns).2.1 i
  · refine hc.keeps_settled h hk.settles hd hnow hk.valid ?_ hk.routed
    exact hk.settles.settled _ hx fun k v rest hv s hs => hp ⟨k, v, rest, s, hv, hs⟩

theorem Kept.copied_next (hk : Kept b H st (progresses b f) entry key) (h : Sound b st f)
    (hnow : (f i).now = some (call, pc)) (hu : progresses b f j = .fresh u)
    (he : st.leads H entry key = u.target) :
    ((pc.next b H call st).1.segs (u.half H key)).HasKey H key := by
  have hfits := (h.fits j).halves hu
  have hcopy := hk.copied j u hu he
  rcases hfits.half_cases (H := H) key with hn | ht
  · refine Clean.keeps_unlocked h hnow (hfits.new _ hn).lt (fun hp => ?_) hcopy
    exact absurd ⟨u, hu, hn⟩ (hp.shared j)
  · rw [ht] at hcopy ⊢
    exact Clean.keeps_unlocked h hnow hfits.target.shared.lt
      (fun _ => (h.locks.of_owns hfits.target.owns).2.1 i) hcopy

/-! ### Steps that leave the directory alone -/

variable [DecidableEq ι]

theorem Kept.stay (hk : Kept b H st (progresses b f) entry key) (hc : Clean b H P st f)
    (h : Sound b st f) (hd : st.curDir.depth ≤ 63) (hnow : (f i).now = some (call, pc))
    (hs : ∀ target d, pc ≠ .split target d) (hcom : ∀ u k, pc = .update u k → k.commits = false) :
    Kept b H (pc.next b H call st).1
      (Function.update (progresses b f) i ((pc.next b H call st).2.progress b)) entry key := by
  obtain ⟨hdepth, hsegment, hlevel⟩ := h.next_table (H := H) hnow hcom
  have hprog : (f i).progress b = pc.progress b := by simp only [Worker.progress, hnow]
  have hsame : Function.update (progresses b f) i ((pc.next b H call st).2.progress b) =
      progresses b f := by
    rw [Pc.next_progress (h.fits_at hnow) hs hcom, ← hprog]
    exact Function.update_eq_self ..
  have hroute : (pc.next b H call st).1.route (H.f key) = st.route (H.f key) := by
    unfold CCEH.route
    rw [hdepth, hsegment]
  have hleads : (pc.next b H call st).1.leads H entry key = st.leads H entry key := by
    unfold CCEH.leads
    rw [hdepth]
  rw [hsame]
  refine ⟨hk.valid, hk.settles.keep hdepth hsegment
    (fun e he => hlevel _ (hk.settles.shared h he).lt) fun _ _ _ => Iff.rfl, ?_, ?_,
    fun k u hu he => ?_⟩
  · rw [hroute]
    exact hk.routed_next hc h hd hnow
  · rw [hleads]
    exact hc.keeps_settled h hk.settles hd hnow hk.valid rfl hk.settled
  · rw [hleads] at he
    exact hk.copied_next h hnow hu he

/-- `Split` copies the key if it leads to the segment. -/
theorem Kept.split {target d : ℕ} (hk : Kept b H st (progresses b f) entry key)
    (h : Sound b st f) (hroom : (Pc.split target d).Roomy b H st)
    (hnow : (f i).now = some (call, .split target d)) :
    Kept b H ((Pc.split target d).next b H call st).1 (Function.update (progresses b f) i
      (((Pc.split target d).next b H call st).2.progress b)) entry key := by
  obtain ⟨htarget, hlevel⟩ := h.fits_at hnow
  obtain ⟨hhalves, ha⟩ := allocSplit_spec b H st target
  have hcur : (allocSplit b H st target).1.curDir = st.curDir := by
    unfold CCEH.curDir
    rw [ha.dir, ha.dirs]
  have hroute : (allocSplit b H st target).1.route (H.f key) = st.route (H.f key) := by
    unfold CCEH.route
    rw [hcur]
  have hleads : (allocSplit b H st target).1.leads H entry key = st.leads H entry key := by
    unfold CCEH.leads
    rw [hcur]
  have hstart : ((Pc.split target d).next b H call st).2.progress b =
      .fresh ⟨target, d, st.half b target false, st.half b target true⟩ := by
    show Progress.fresh ⟨target, d, (allocSplit b H st target).2.1, (allocSplit b H st target).2.2⟩ = _
    rw [hhalves]
  have hx := topBits_lt_pow (H.f key) st.curDir.depth
  have holder : ∀ {q}, q < st.nseg → (st.segs q).HasKey H key →
      ((allocSplit b H st target).1.segs q).HasKey H key := by
    intro q hq hkey
    rw [ha.older q hq]
    exact hkey
  have hstoring : ∀ k v rest, Function.update (progresses b f) i
      (((Pc.split target d).next b H call st).2.progress b) k = .storing v rest ↔
      progresses b f k = .storing v rest := by
    intro k v rest
    by_cases hki : k = i
    · have hnone : progresses b f i = .none := by simp only [progresses, Worker.progress, hnow]; rfl
      rw [hki, Function.update_self, hstart, hnone]
      exact ⟨fun hv => (by cases hv), fun hv => (by cases hv)⟩
    · rw [Function.update_of_ne hki]
  have hpublic : ∀ e < 2 ^ st.curDir.depth, entry e < st.nseg :=
    fun e he => (hk.settles.shared h he).lt
  refine ⟨hk.valid, hk.settles.keep (congrArg Directory.depth hcur) (congrArg Directory.segment hcur)
    (fun e he => congrArg Segment.localDepth (ha.older _ (hpublic e he))) hstoring, ?_, ?_,
    fun k u hu he => ?_⟩
  · show ((allocSplit b H st target).1.segs
      ((allocSplit b H st target).1.route (H.f key))).HasKey H key
    rw [hroute]
    exact holder (h.dir _ hx).lt hk.routed
  · show ((allocSplit b H st target).1.segs
      ((allocSplit b H st target).1.leads H entry key)).HasKey H key
    rw [hleads]
    exact holder (hpublic _ hx) hk.settled
  · have he : st.leads H entry key = u.target := hleads.symm.trans he
    by_cases hki : k = i
    · rw [hki, Function.update_self, hstart] at hu
      cases hu
      have hkey := hk.settled
      rw [he] at hkey
      have hhalf : (⟨target, d, st.half b target false, st.half b target true⟩ : Halves).half H key =
          st.half b target (nextBit (H.f key) d) := by
        unfold Halves.half
        cases nextBit (H.f key) d <;> rfl
      rw [hhalf]
      rcases st.half_cases b target (nextBit (H.f key) d) with ⟨_, _, hsame⟩ | ⟨hcp, _⟩
      · rw [hsame]
        exact holder htarget.shared.lt hkey
      · exact (ha.copied _ hcp).key_copied hcp hroom hk.valid.1 hkey (by rw [hlevel])
    · rw [Function.update_of_ne hki] at hu
      have hfits := (h.fits k).halves hu
      refine holder ?_ (hk.copied k u hu he)
      rcases hfits.half_cases (H := H) key with hn | ht
      · exact (hfits.new _ hn).lt
      · rw [ht]
        exact hfits.target.shared.lt

end

/-! ### Steps of the directory update -/

section

variable [Fintype ι]

/-- In the block that is split a key leads to its half. -/
theorem Kept.leads_splitBlock (hk : Kept b H st (progresses b f) entry key) (h : Sound b st f)
    (hd : st.curDir.depth ≤ 63) (hi : progresses b f i = .fresh u)
    (hl : u.target_local_depth < st.curDir.depth) {x : ℕ} (hx : x < 2 ^ st.curDir.depth)
    (hroot : entry x = u.target) :
    st.leads H (splitBlock st.curDir.depth u.target_local_depth x u.s0 u.s1 entry) key =
        st.leads H entry key ∨
      st.leads H entry key = u.target ∧
        st.leads H (splitBlock st.curDir.depth u.target_local_depth x u.s0 u.s1 entry) key =
          u.half H key := by
  have hy := topBits_lt_pow (H.f key) st.curDir.depth
  have hlevel : level b st (progresses b f) u.target = u.target_local_depth := by
    rw [level_of_not_raised (h.not_raised hi).1, ((h.fits i).halves hi).level]
  have htarget : topBits (H.f key) st.curDir.depth / 2 ^ (st.curDir.depth - u.target_local_depth) =
      x / 2 ^ (st.curDir.depth - u.target_local_depth) → st.leads H entry key = u.target := by
    intro hb
    have hiff := hk.settles.blocked.same_iff x hx _ hy
    rw [hroot, hlevel] at hiff
    exact (hiff.mpr hb.symm).symm
  have hbit : nextBit (H.f key) u.target_local_depth =
      decide (topBits (H.f key) st.curDir.depth /
        2 ^ (st.curDir.depth - (u.target_local_depth + 1)) % 2 = 1) := by
    rw [nextBit_eq _ _ (by omega), topBits_coarser _ _ _ hl (by omega)]
  have hhalf : u.half H key = if topBits (H.f key) st.curDir.depth /
      2 ^ (st.curDir.depth - (u.target_local_depth + 1)) % 2 = 1 then u.s1 else u.s0 := by
    unfold Halves.half
    rw [hbit]
    simp only [decide_eq_true_eq]
  rcases splitBlock_cases st.curDir.depth u.target_local_depth x u.s0 u.s1 entry
    (topBits (H.f key) st.curDir.depth) with ⟨hb, hm, heq⟩ | ⟨hb, hm, heq⟩ | ⟨_, heq⟩
  · refine Or.inr ⟨htarget hb, heq.trans ?_⟩
    rw [hhalf, if_neg (by omega)]
  · refine Or.inr ⟨htarget hb, heq.trans ?_⟩
    rw [hhalf, if_pos hm]
  · exact Or.inl heq

end

section

variable [DecidableEq ι]

/-- An update whose stores are all made, in both builds. -/
theorem Kept.stored {g : ι → Progress} (hk : Kept b H st (Function.update g i (.storing u [])) entry key) :
    Kept b H st (Function.update g i (u.stored b)) entry key := by
  refine ⟨hk.valid, hk.settles.stored, hk.routed, hk.settled, fun k v hv => hk.copied k v ?_⟩
  by_cases hki : k = i
  · rw [hki, Function.update_self] at hv
    cases b <;> cases hv
  · rw [Function.update_of_ne hki] at hv ⊢
    exact hv

end

section

variable [Fintype ι] [DecidableEq ι]

/-- A store of the directory update: the key leads to its half, or to its segment as before. -/
theorem Kept.commit {q : Progress} (hk : Kept b H st (progresses b f) entry key) (h : Sound b st f)
    (hslots : ∀ p, (st'.segs p).bucket = (st.segs p).bucket) (hq : ∀ v, q ≠ .fresh v)
    (hS : Settles b st' (Function.update (progresses b f) i q) entry')
    (hto : st'.leads H entry' key = st.leads H entry key ∨
      progresses b f i = .fresh u ∧ st.leads H entry key = u.target ∧
        st'.leads H entry' key = u.half H key)
    (hroute : st'.route (H.f key) = st.route (H.f key) ∨
      st'.route (H.f key) = st'.leads H entry' key) :
    Kept b H st' (Function.update (progresses b f) i q) entry' key := by
  have hsame : ∀ {p}, (st.segs p).HasKey H key → (st'.segs p).HasKey H key := by
    rintro p ⟨loc, hmem, hkey⟩
    exact ⟨loc, hmem, by rw [hslots]; exact hkey⟩
  have hsettled : (st'.segs (st'.leads H entry' key)).HasKey H key := by
    rcases hto with he | ⟨hu, he, hhalf⟩
    · rw [he]
      exact hsame hk.settled
    · rw [hhalf]
      exact hsame (hk.copied i u hu he)
  refine ⟨hk.valid, hS, ?_, hsettled, fun k v hv hev => ?_⟩
  · rcases hroute with he | he
    · rw [he]
      exact hsame hk.routed
    · rw [he]
      exact hsettled
  · have hki : k ≠ i := by
      rintro rfl
      rw [Function.update_self] at hv
      exact hq v hv
    rw [Function.update_of_ne hki] at hv
    refine hsame (hk.copied k v hv ?_)
    rcases hto with he | ⟨hu, he, hhalf⟩
    · rw [← he]
      exact hev
    · -- another thread has not suspended the half
      have hshared := ((h.fits k).halves hv).target.shared
      rw [← hev, hhalf] at hshared
      rcases ((h.fits i).halves hu).half_cases (H := H) key with hn | ht
      · exact absurd ⟨u, hu, hn⟩ (hshared.shared i)
      · rw [hhalf, ht] at hev
        exact absurd hev (h.progress_apart hki.symm u v (Or.inl hu) (Or.inl hv))

theorem Kept.store {D : ℕ} {begun : Bool} {s : Store} {rest : List Store}
    (hk : Kept b H st (progresses b f) entry key) (h : Sound b st f) (ho : Orderly b H st (f i))
    (hd : st.curDir.depth ≤ 63) (hnow : (f i).now = some (call, .update u (.store D begun s rest))) :
    ∃ entry', Kept b H (u.next b H call st (.store D begun s rest)).1
      (Function.update (progresses b f) i (.storing u rest)) entry' key := by
  obtain ⟨entry', hS, hentry, hfrom⟩ := hk.settles.store h ho hnow
  obtain ⟨_, _, rfl, hl, _, hmem⟩ := h.fits_at hnow
  obtain ⟨y, _, q, rfl, _⟩ := hmem _ (List.mem_cons_self ..)
  have hcur : (st.store (.entry y q)).curDir =
      { st.curDir with segment := Function.update st.curDir.segment y q } := Function.update_self ..
  have hprog : progresses b f i = (Pc.update u (.store st.dir begun (.entry y q) rest)).progress b := by
    simp only [progresses, Worker.progress, hnow]
  have hleads : ∀ e, (st.store (.entry y q)).leads H e key = st.leads H e key := by
    intro e
    unfold CCEH.leads
    rw [hcur]
  refine ⟨entry', hk.commit (u := u) h (fun p => st.store_bucket (.entry y q) p)
    (fun v hv => by cases hv) hS ?_ ?_⟩
  · show (st.store (.entry y q)).leads H entry' key = _ ∨ _
    rw [hleads]
    rcases hfrom with ⟨_, rfl⟩ | ⟨rfl, x, hx, hroot, rfl⟩
    · exact Or.inl rfl
    · rcases hk.leads_splitBlock h hd hprog hl hx hroot with he | ⟨ht, he⟩
      · exact Or.inl he
      · exact Or.inr ⟨hprog, ht, (hleads _).trans he⟩
  · show (st.store (.entry y q)).route (H.f key) = _ ∨
      (st.store (.entry y q)).route (H.f key) = (st.store (.entry y q)).leads H entry' key
    have hroute : (st.store (.entry y q)).route (H.f key) =
        Function.update st.curDir.segment y q (topBits (H.f key) st.curDir.depth) := by
      unfold CCEH.route
      rw [hcur]
    rw [hleads, hroute]
    by_cases hy : topBits (H.f key) st.curDir.depth = y
    · refine Or.inr ?_
      rw [CCEH.leads, hy, Function.update_self]
      exact (hentry y q rfl).symm
    · exact Or.inl (Function.update_of_ne hy ..)

theorem Kept.publish {n : ℕ} (hk : Kept b H st (progresses b f) entry key) (h : Sound b st f)
    (ht : Tidy b st f) (hd : st.curDir.depth ≤ 63)
    (hnow : (f i).now = some (call, .update u (.publish n))) :
    Kept b H (st.store (.dirPtr n)) (Function.update (progresses b f) i (.storing u []))
      (st.dirs n).segment key := by
  obtain ⟨_, _, _, hc⟩ := h.fits_at hnow
  obtain ⟨x, hx, hn⟩ := ht.aimed i call u _ hnow
  have hprog : progresses b f i = .fresh u := by simp only [progresses, Worker.progress, hnow]; rfl
  have hplain : ∀ e < 2 ^ st.curDir.depth, entry e = st.curDir.segment e := by
    intro e he
    refine hk.settles.settled e he fun k v rest hv s hs => ?_
    rw [Settles.no_pending h hc.owned hv] at hs
    cases hs
  have hy := topBits_lt_pow (H.f key) st.curDir.depth
  have hlong := topBits_lt_pow (H.f key) (st.curDir.depth + 1)
  have hhalf := topBits_half (H.f key) st.curDir.depth hd
  have hleads : (st.store (.dirPtr n)).leads H (st.dirs n).segment key =
      doubledSegment st.curDir x u.s0 u.s1 (topBits (H.f key) (st.curDir.depth + 1)) := by
    show (st.dirs n).segment (topBits (H.f key) (st.dirs n).depth) = _
    rw [hc.depth]
    refine hn _ ?_
    rw [h.capacity, ← pow_succ']
    exact hlong
  refine hk.commit (u := u) h (fun p => st.store_bucket _ p) (fun v hv => by cases hv)
    (hk.settles.publish h hprog hc.owned hx.depth hx.index hx.target hc.depth hn) ?_ (Or.inr rfl)
  rw [hleads, doubledSegment, hhalf]
  have hold := hplain _ hy
  by_cases hyx : topBits (H.f key) st.curDir.depth = x
  · refine Or.inr ⟨hprog, ?_, ?_⟩
    · rw [CCEH.leads, hold, hyx]
      exact hx.target
    · rw [if_pos hyx, Halves.half, ← hx.depth, nextBit_eq _ _ (by omega)]
      rcases Nat.mod_two_eq_zero_or_one (topBits (H.f key) (st.curDir.depth + 1)) with hm | hm
      · simp [hm]
      · simp [hm]
  · refine Or.inl ?_
    rw [if_neg hyx]
    exact hold.symm

/-- Every step keeps the key where it is looked for. -/
theorem Kept.run (hk : Kept b H st (progresses b f) entry key) (hc : Clean b H P st f)
    (h : Sound b st f) (ht : Tidy b st f) (hr : Regular b H P st (f i)) (hroom : pc.Roomy b H st)
    (hnow : (f i).now = some (call, pc)) : ∃ entry', Kept b H (pc.next b H call st).1
      (Function.update (progresses b f) i ((pc.next b H call st).2.progress b)) entry' key := by
  by_cases hs : ∃ target d, pc = .split target d
  · obtain ⟨target, d, rfl⟩ := hs
    exact ⟨entry, hk.split h hroom hnow⟩
  by_cases hcom : ∀ u k, pc = .update u k → k.commits = false
  · exact ⟨entry, hk.stay hc h hr.2.1 hnow (fun target d he => hs ⟨target, d, he⟩) hcom⟩
  obtain ⟨u, k, rfl, hcommits⟩ : ∃ u k, pc = .update u k ∧ k.commits = true := by
    by_contra hnone
    exact hcom fun u k he => Bool.eq_false_iff.mpr fun hc => hnone ⟨u, k, he, hc⟩
  cases k with
  | publish n =>
    have hafter : ((Pc.update u (.publish n)).next b H call st).2.progress b = u.stored b := by
      cases b with
      | cow => exact Call.retry_progress
      | inplace => rfl
    rw [hafter]
    exact ⟨_, (hk.publish h ht hr.2.1 hnow).stored⟩
  | store D begun s rest =>
    obtain ⟨entry', hk'⟩ := hk.store h hr.1 hr.2.1 hnow
    refine ⟨entry', ?_⟩
    cases rest with
    | nil => exact hk'.stored
    | cons e rest => exact hk'
  | bump =>
    obtain ⟨_, hb, _⟩ := h.fits_at hnow
    subst b
    have hprog : progresses .inplace f i = .storing u [] := by
      simp only [progresses, Worker.progress, hnow]
      rfl
    exact ⟨entry, hk.commit (u := u) h (fun p => st.store_bucket (.localDepth u.s0) p)
      (fun v hv => by cases hv) (hk.settles.bump h hprog rfl) (Or.inl rfl) (Or.inl rfl)⟩
  | _ => cases hcommits

end

/-! ### Gets that begin afterwards -/

/-- A `Get` of the key is going to find it. -/
def Pc.Finds (P : Key → Value → Prop) (st : CCEH) (key : Key) : Pc → Prop
  | .scan target slots => ∃ loc ∈ slots, ((st.segs target).bucket loc).key = key
  | .sema _ _ _ (.answer v) => P key v
  | _ => True

theorem After.next_finds {a : After} {ok : Bool} {q : Pc} (hn : a.next b call ok = .goto q) :
    q.Finds P st key := by
  have hretry : call.retry.Finds P st key := by
    cases call <;> trivial
  cases a with
  | locked x target => cases ok <;> cases hn <;> first | exact hretry | trivial
  | suspended x target d => cases ok <;> cases hn <;> first | exact hretry | trivial
  | retry =>
    cases hn
    exact hretry
  | double u => cases ok <;> cases hn <;> trivial
  | normal u => cases ok <;> cases hn <;> trivial
  | updated u =>
    cases hn
    cases b with
    | cow => exact hretry
    | inplace => trivial
  | collide x target d =>
    cases hn
    trivial
  | _ => cases hn

section

variable [Fintype ι]

theorem Clean.keeps_finds (hc : Clean b H P st f) (h : Sound b st f) (ht : Tidy b st f)
    (hd : st.curDir.depth ≤ 63) (hnow : (f i).now = some (call, pc)) {q : Pc}
    (hj : (f j).now = some (.get key, q)) (hq : q.Finds P st key) :
    q.Finds P (pc.next b H call st).1 key := by
  cases q with
  | scan p slots =>
    obtain ⟨loc, hmem, hkey⟩ := hq
    refine ⟨loc, hmem, ?_⟩
    have hlt := Locked.stays (k := j) (h.fits_at hj) |>.lt h
    rw [hc.kept_pair h ht hd hnow hlt (hc.sees j _ _ hj).1 hkey]
    exact hkey
  | sema op m s a => cases a <;> exact hq
  | _ => exact hq

/-- A `Get` that has not looked at the slots yet is going to find the key. -/
theorem Kept.next_finds (hk : Kept b H st (progresses b f) entry key) (hc : Clean b H P st f)
    (h : Sound b st f) (hr : Regular b H P st (f i)) (hnow : (f i).now = some (.get key, pc))
    (hq : pc.Finds P st key) {q : Pc} (hn : (pc.next b H (.get key) st).2 = .goto q) :
    q.Finds P (pc.next b H (.get key) st).1 key := by
  obtain ⟨_, _, hlands⟩ := hr.at hnow
  have hanswer : ∀ {target v s}, P key v → Call.answer b target v = .goto q → q.Finds P s key := by
    intro target v s hv he
    cases b with
    | cow => cases he
    | inplace =>
      cases he
      exact hv
  have hflow : Flow b H (.get key) st pc _ := pc.flows
  rw [hn] at hflow
  cases hflow with
  | absent r _ he =>
    cases he
    trivial
  | sema op m s s' a =>
    cases a with
    | answer v => exact hq
    | _ => trivial
  | after op m s a ok _ he => exact After.next_finds he.symm
  | body x target y D _ same he =>
    cases he
    obtain ⟨loc, hmem, hkey⟩ := hk.routed
    rw [show st.route (H.f key) = target from hlands same] at hkey
    exact ⟨loc, hmem, hkey⟩
  | released target _ he =>
    cases he
    trivial
  | update u k _ he =>
    cases he
    cases k with
    | dir use => cases use <;> trivial
    | publish n => cases b <;> trivial
    | _ => trivial
  | other target loc' slots hne =>
    obtain ⟨loc, hmem, hkey⟩ := hq
    refine ⟨loc, (List.mem_cons.mp hmem).resolve_left ?_, hkey⟩
    rintro rfl
    exact hne hkey
  | missing target _ he =>
    obtain ⟨loc, hmem, _⟩ := hq
    cases hmem
  | answer target loc _ he => exact hanswer (hc.found_value h hnow) he.symm
  | _ => trivial

variable (b H P st f) in
/-- What holds for thread `j` from the end of an `Insert` of the key on. -/
structure Serves (key : Key) (j : ι) : Prop where
  sound : Sound b st f
  tidy : Tidy b st f
  clean : Clean b H P st f
  kept : ∃ entry, Kept b H st (progresses b f) entry key
  finds : ∀ pc, (f j).now = some (.get key, pc) → pc.Finds P st key

/-- While `Insert` unlocks the segment, its key is kept. -/
theorem Clean.kept_of_stored (hc : Clean b H P st f) (h : Sound b st f) (ht : Tidy b st f)
    {op : SemaOp} {m : Sem} {s : SemaPc} (hnow : (f i).now = some (call, .sema op m s .stored)) :
    ∃ entry, Kept b H st (progresses b f) entry call.key := by
  obtain ⟨p, loc, _, hstores, hheld, hs, _⟩ := hc.sees i call _ hnow
  obtain ⟨entry, hS⟩ := ht.settles
  have hfree := h.not_owned hheld
  have hroute := hs.reached.route hstores.locks
  have hkey : (st.segs p).HasKey H call.key := ⟨loc, hs.slot, hs.key_eq⟩
  have hleads : st.leads H entry call.key = p :=
    hS.of_segment h hfree (topBits_lt_pow _ _) hroute
  refine ⟨entry, hs.reached.valid, hS, ?_, ?_, fun k u hu he => ?_⟩
  · rw [hroute]
    exact hkey
  · rw [hleads]
    exact hkey
  · have howns := ((h.fits k).halves hu).target.owns
    rw [← he, hleads, hfree k] at howns
    cases howns

variable [DecidableEq ι]

/-- A step of any thread. -/
theorem Serves.run (hs : Serves b H P st f key j) (hr : Regular b H P st (f i))
    (hroom : pc.Roomy b H st) (hnow : (f i).now = some (call, pc)) :
    Serves b H P (pc.next b H call st).1 (Function.update f i ((f i).after b H st call pc)) key j := by
  obtain ⟨h, ht, hc, ⟨entry, hk⟩, hfinds⟩ := hs
  have hprog : progresses b (Function.update f i ((f i).after b H st call pc)) =
      Function.update (progresses b f) i ((pc.next b H call st).2.progress b) := by
    rw [progresses_update, Worker.after, Worker.continued_progress]
  refine ⟨h.run hr.1.1 hnow, Tidy.run h ht hr.1 hnow, hc.run h ht hr hnow, ?_, fun q hq => ?_⟩
  · rw [hprog]
    exact hk.run hc h ht hr hroom hnow
  · by_cases hji : j = i
    · subst hji
      rw [Function.update_self, Worker.after] at hq
      cases hn : (pc.next b H call st).2 with
      | ret v =>
        rw [hn] at hq
        cases hq
      | goto q' =>
        rw [hn] at hq
        cases hq
        exact hk.next_finds hc h hr hnow (hfinds pc hnow) hn
    · rw [Function.update_of_ne hji] at hq
      exact hc.keeps_finds h ht hr.2.1 hnow hq (hfinds q hq)

theorem Serves.enter {w : Worker} (hs : Serves b H P st f key j) (hw : (f i).enter call = some w) :
    Serves b H P st (Function.update f i w) key j := by
  obtain ⟨h, ht, hc, ⟨entry, hk⟩, hfinds⟩ := hs
  refine ⟨h.enter hw, ht.enter hw, hc.enter hw, ⟨entry, ?_⟩, fun q hq => ?_⟩
  · rw [progresses_enter hw]
    exact hk
  · by_cases hji : j = i
    · rw [hji, Function.update_self, (Worker.enter_cases hw).2] at hq
      cases hq
      trivial
    · rw [Function.update_of_ne hji] at hq
      exact hfinds q hq

variable [∀ st w, Decidable (Regular b H P st w)]

/-- The last step of an `Insert`. -/
theorem Serves.inserted {w : Worker} {value : Value} (hc : Clean b H P st f) (h : Sound b st f)
    (ht : Tidy b st f) (hnow : (f i).now = some (.insert key value, pc))
    (hn : given (Regular b H P) (Worker.next b H) i none st (f i) = some (st', w))
    (hend : w.now = none) (hidle : (Function.update f i w j).now = none) :
    Serves b H P st' (Function.update f i w) key j := by
  obtain ⟨hr, hn⟩ := given_eq_some.mp hn
  obtain ⟨hret, rfl, rfl⟩ := Worker.last_step hnow hn hend
  obtain ⟨op, m, s, rfl⟩ : ∃ op m s, pc = .sema op m s .stored := by
    rcases hc.ended h hnow hret with ⟨_, _, hreads, _⟩ | ⟨_, hpc, _⟩
    · exact absurd hreads id
    · exact hpc
  obtain ⟨entry, hk⟩ := hc.kept_of_stored h ht hnow
  refine ⟨h.run hr.1.1 hnow, Tidy.run h ht hr.1 hnow, hc.run h ht hr hnow, ?_, fun q hq => ?_⟩
  · obtain ⟨entry', hk'⟩ := hk.run hc h ht hr (show Pc.Roomy b H st (.sema op m s .stored) from trivial) hnow
    refine ⟨entry', ?_⟩
    rw [progresses_update, Worker.after, Worker.continued_progress]
    exact hk'
  · rw [hidle] at hq
    cases hq

end

section

variable [Fintype ι] [DecidableEq ι] [∀ st w, Decidable (Lossless b H P st w)]

theorem Serves.reaches {c d : Config ι CCEH Worker} (hs : Serves b H P c.shared c.threads key j)
    (hr : Reaches (given (Lossless b H P) (Worker.next b H)) c d) :
    Serves b H P d.shared d.threads key j := by
  refine Reaches.invariant (P := fun st f => Serves b H P st f key j) hs
    (fun st f i a st' w hs hn => ?_) hr
  obtain ⟨hl, hn⟩ := given_eq_some.mp hn
  rcases Worker.next_cases hn with ⟨call, _, rfl, hw⟩ | ⟨call, pc, _, hnow, rfl, rfl⟩
  · exact hs.enter hw
  · have hroom := hl.2
    rw [hnow] at hroom
    exact hs.run hl.1 hroom hnow

end

end Steps

end PmemStudy.Cceh
