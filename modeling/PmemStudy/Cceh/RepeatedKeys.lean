import PmemStudy.Cceh.Shifts

/-!
# Repeated keys and the depth

A split separates pairs by the next bit of the hash, so copies of one key stay
together. A call ends as long as the copies of its own key leave a slot of the two
windows: such a slot is left after every split of the call too, and at local depth
64 only copies of the key are live. Copies that fill both windows are never
separated, and the splits go on past local depth 64.
-/

namespace PmemStudy.Cceh
open PmemStudy.AlignedBlocks PmemStudy.FirstFit

/-- A slot of the windows does not hold the key itself. -/
def Segment.HasRoom (H : HashFuncs) (s : Segment) (key : Key) : Prop :=
  ∃ c ∈ windows H key, (s.bucket c).key ≠ key

/-- The copy-on-write split uses the first window only: it empties the slots of the
second one of copies of the key. -/
def Segment.SplitGivesRoom (b : Build) (H : HashFuncs) (s : Segment) (key : Key) : Prop :=
  b = .cow ∧ s.localDepth ≤ 63 ∧
    ∃ c ∈ window (windowIdx (H.s key)), c ∉ window (windowIdx (H.f key))

/-- The state before a call of `Insert`. -/
def Room (b : Build) (H : HashFuncs) (st : CCEH) (key : Key) : Prop :=
  (st.segs (st.route (H.f key))).HasRoom H key ∨
    (st.segs (st.route (H.f key))).SplitGivesRoom b H key

/-- Holds between the passes of all calls. -/
structure Placed (H : HashFuncs) (st : CCEH) : Prop where
  dir : DirectoryInvariant st
  depth_le : st.curDir.depth ≤ 64
  valid : st.Everywhere fun p => p.key ≠ SENTINEL
  seated : ∀ i < 2 ^ st.curDir.depth, ∀ c, (st.segs (st.curDir.segment i)).Occupied c →
    c ∈ windows H ((st.segs (st.curDir.segment i)).bucket c).key

section Steps
variable {b : Build} {H : HashFuncs} {st st' : CCEH} {key : Key} {value : Value}

theorem Placed.route_lt (h : Placed H st) (f_hash : BitVec 64) :
    topBits f_hash st.curDir.depth < 2 ^ st.curDir.depth := route_index_lt st f_hash h.depth_le

theorem Placed.level_le (h : Placed H st) (f_hash : BitVec 64) :
    (st.segs (st.route f_hash)).localDepth ≤ st.curDir.depth :=
  h.dir.consistent.blocked.level_le _ (h.route_lt f_hash)

theorem Placed.put (h : Placed H st) (valid : ValidKey key) (loc : Slot)
    (hf : findSlot H (st.segs (st.route (H.f key))) key = some loc) :
    Placed H (st.put (H.f key) loc ⟨key, value⟩) := by
  refine ⟨h.dir.put _ loc _, h.depth_le, h.valid.put _ loc _ valid.2, ?_⟩
  intro i hi c hc
  change ((st.put (H.f key) loc ⟨key, value⟩).segs (st.curDir.segment i)).Occupied c at hc
  change c ∈ windows H (((st.put (H.f key) loc ⟨key, value⟩).segs
    (st.curDir.segment i)).bucket c).key
  by_cases hq : st.curDir.segment i = st.route (H.f key)
  · rw [hq, CCEH.put, CCEH.setSeg_segs_self] at hc ⊢
    by_cases hl : c = loc
    · rw [hl, Segment.setPair_self]
      exact (findSlot_spec H _ key loc hf).1
    · rw [Segment.Occupied, Segment.setPair_of_ne _ _ _ _ hl] at hc
      rw [Segment.setPair_of_ne _ _ _ _ hl]
      exact h.seated _ (h.route_lt (H.f key)) c hc
  · rw [CCEH.put, CCEH.setSeg_segs_of_ne _ _ _ _ hq] at hc ⊢
    exact h.seated i hi c hc

theorem Placed.split {f_hash : BitVec 64} (h : Placed H st) (hd : st'.curDir.depth ≤ 64)
    (r : SplitResult b H st f_hash (st.route f_hash) st') : Placed H st' := by
  refine ⟨r.directoryInvariant h.dir hd, hd, h.valid.split h.dir.toAtRest hd r, ?_⟩
  intro i hi c hc
  obtain ⟨hlt, ⟨_, bit, he, _⟩ | ⟨hne, he⟩⟩ := r.entry_cases h.dir.toAtRest hd i hi
  · rw [he] at hc ⊢
    rcases st.half_cases b (st.route f_hash) bit with ⟨hb, _, hh⟩ | ⟨hcopies, _⟩
    · rw [hh, r.kept hb] at hc ⊢
      exact h.seated _ (h.route_lt f_hash) c hc
    · obtain ⟨j, _, hcopy, hwin⟩ := (r.copied bit hcopies).copyOf.source c hc
      rw [hcopy]
      exact hwin
  · rw [he, r.other _ (h.dir.rest.allocated _ hlt).2 hne] at hc ⊢
    exact h.seated _ hlt c hc

/-! ### Copies of one key in a split -/

/-- Every slot of the copy comes from a slot of its own. -/
theorem CopiedHalf.origin {src dst : Segment} {bit : Bool} (h : CopiedHalf b H src bit dst) :
    ∃ origin : Slot → Slot, (∀ c, dst.Occupied c → dst.bucket c = src.bucket (origin c) ∧
      c ∈ candidates b H (src.bucket (origin c)).key) ∧
      ∀ c c', dst.Occupied c → dst.Occupied c' → origin c = origin c' → c = c' := by
  obtain ⟨pos, hp, hh⟩ := h.placement
  have hex : ∀ c, ∃ i, dst.Occupied c → pos i = some c := by
    intro c
    by_cases hc : dst.Occupied c
    · by_contra hn
      exact hc (hh.free c fun i hi => hn ⟨i, fun _ => hi⟩)
    · exact ⟨c, fun hx => absurd hx hc⟩
  choose origin horigin using hex
  refine ⟨origin, ?_, ?_⟩
  · intro c hc
    exact ⟨hh.placed _ c (horigin c hc), hp.mem_cand _ c (horigin c hc)⟩
  · intro c c' hc hc' he
    have h1 := horigin c hc
    rw [he, horigin c' hc'] at h1
    exact (Option.some.inj h1).symm

/-- Copies that fill the windows in the copy filled them in the segment. -/
theorem CopiedHalf.hasRoom {src dst : Segment} {bit : Bool} (h : CopiedHalf b H src bit dst)
    (hk : key ≠ INVALID) (hseated : ∀ c, src.Occupied c → c ∈ windows H (src.bucket c).key)
    (hroom : src.HasRoom H key) : dst.HasRoom H key := by
  by_contra hfull
  have hall : ∀ c ∈ windows H key, (dst.bucket c).key = key := by
    intro c hc
    by_contra hne
    exact hfull ⟨c, hc, hne⟩
  have hocc : ∀ c ∈ windows H key, dst.Occupied c := by
    intro c hc
    rw [Segment.Occupied, hall c hc]
    exact hk
  obtain ⟨origin, horigin, hinj⟩ := h.origin
  have hkey : ∀ c ∈ windows H key, (src.bucket (origin c)).key = key := by
    intro c hc
    rw [← (horigin c (hocc c hc)).1]
    exact hall c hc
  -- the origins are as many slots of the windows, hence all of them
  have hsurj := Finset.surjOn_of_injOn_of_card_le (s := (windows H key).toFinset)
    (t := (windows H key).toFinset) origin ?_ ?_ le_rfl
  · obtain ⟨c, hc, hne⟩ := hroom
    obtain ⟨c', hc', rfl⟩ := hsurj (List.mem_toFinset.mpr hc)
    exact hne (hkey c' (List.mem_toFinset.mp hc'))
  · intro c hc
    have hc' := List.mem_toFinset.mp hc
    have hwin := hseated (origin c) (by rw [Segment.Occupied, hkey c hc']; exact hk)
    rw [hkey c hc'] at hwin
    exact List.mem_toFinset.mpr hwin
  · intro c hc c' hc' he
    exact hinj c c' (hocc c (List.mem_toFinset.mp hc)) (hocc c' (List.mem_toFinset.mp hc')) he

theorem CopiedHalf.hasRoom_second {src dst : Segment} {bit : Bool}
    (h : CopiedHalf .cow H src bit dst) (hk : key ≠ INVALID) {c : Slot}
    (hc : c ∈ window (windowIdx (H.s key))) (hnot : c ∉ window (windowIdx (H.f key))) :
    dst.HasRoom H key := by
  refine ⟨c, List.mem_append_right _ hc, ?_⟩
  intro hkey
  obtain ⟨origin, horigin, _⟩ := h.origin
  obtain ⟨hcopy, hcand⟩ := horigin c (by rw [Segment.Occupied, hkey]; exact hk)
  rw [← hcopy, hkey] at hcand
  exact hnot hcand

/-! ### One pass -/

/-- A pass without a slot splits a segment of local depth at most 63. -/
theorem Placed.level_of_room (h : Placed H st) (hinj : Function.Injective H.f)
    (hroom : Room b H st key) (hf : findSlot H (st.segs (st.route (H.f key))) key = none) :
    (st.segs (st.route (H.f key))).localDepth ≤ 63 := by
  rcases hroom with ⟨c, hc, hne⟩ | ⟨_, hl, _⟩
  · by_contra hlt
    have hle := h.level_le (H.f key)
    have hd := h.depth_le
    have h64 : (st.segs (st.route (H.f key))).localDepth = 64 := by omega
    have hlive := live_of_findSlot_none hf (fun c hs => ?_) c hc
    · -- the prefix is the whole hash
      have hpat := hlive.2
      rw [h64, topBits_eq, topBits_eq, Nat.sub_self, pow_zero, Nat.div_one, Nat.div_one] at hpat
      exact hne (hinj (BitVec.eq_of_toNat_eq hpat))
    · have hocc : (st.segs (st.route (H.f key))).Occupied c := by
        rw [Segment.Occupied, hs]
        decide
      exact h.valid _ (h.route_lt (H.f key)) c hocc hs
  · exact hl

theorem Placed.pass (h : Placed H st) (hinj : Function.Injective H.f) (valid : ValidKey key)
    (hroom : Room b H st key) (value : Value) :
    (∃ st', insertPass b H st key value = .done st' ∧ Placed H st') ∨
    (st.segs (st.route (H.f key))).localDepth ≤ 63 ∧
      ∃ st', insertPass b H st key value = .again st' ∧ Placed H st' ∧ Room b H st' key ∧
        (st'.segs (st'.route (H.f key))).localDepth =
          (st.segs (st.route (H.f key))).localDepth + 1 := by
  have hd := h.depth_le
  have hgrown : findSlot H (st.segs (st.route (H.f key))) key = none →
      st.grownDepth (st.route (H.f key)) ≤ 64 := by
    intro hf
    have hl := h.level_of_room hinj hroom hf
    unfold CCEH.grownDepth
    split <;> omega
  rcases insertPass_rest b H st key value h.dir.consistent h.dir.rest hd hgrown with
    ⟨loc, hf, hdone⟩ | ⟨hf, s, hagain, r⟩
  · exact Or.inl ⟨_, hdone, h.put valid loc hf⟩
  · have hd' : s.curDir.depth ≤ 64 := by
      rw [r.depth]
      exact hgrown hf
    have hmoved := r.route_moved h.dir.toAtRest hd'
      (rfl : st.route (H.f key) = st.route (H.f key))
    refine Or.inr ⟨h.level_of_room hinj hroom hf, s, hagain, h.split hd' r, Or.inl ?_, ?_⟩
    · rw [hmoved]
      generalize nextBit (H.f key) (st.segs (st.route (H.f key))).localDepth = bit
      rcases st.half_cases b (st.route (H.f key)) bit with ⟨hb, _, hh⟩ | ⟨hcopies, _⟩
      · rw [hh, r.kept hb]
        rcases hroom with hroom | ⟨hcow, _⟩
        · exact hroom
        · rw [hb] at hcow
          cases hcow
      · rcases hroom with hroom | ⟨rfl, _, c, hc, hnot⟩
        · exact (r.copied bit hcopies).hasRoom valid.1 (h.seated _ (h.route_lt (H.f key))) hroom
        · exact (r.copied bit hcopies).hasRoom_second valid.1 hc hnot
    · rw [hmoved]
      exact (r.half_level _).1

theorem Placed.again (h : Placed H st) (hinj : Function.Injective H.f) (valid : ValidKey key)
    (hroom : Room b H st key) (hp : insertPass b H st key value = .again st') :
    Placed H st' ∧ Room b H st' key := by
  rcases h.pass hinj valid hroom value with ⟨s, hdone, _⟩ | ⟨_, s, hagain, hs, hr, _⟩
  · rw [hdone] at hp
    cases hp
  · rw [hagain] at hp
    cases hp
    exact ⟨hs, hr⟩

theorem Placed.done (h : Placed H st) (hinj : Function.Injective H.f) (valid : ValidKey key)
    (hroom : Room b H st key) (hp : insertPass b H st key value = .done st') : Placed H st' := by
  rcases h.pass hinj valid hroom value with ⟨s, hdone, hs⟩ | ⟨_, s, hagain, _⟩
  · rw [hdone] at hp
    cases hp
    exact hs
  · rw [hagain] at hp
    cases hp

/-! ### Calls and runs -/

theorem Passes.placed {st1 : CCEH} (passes : Passes b H key value st st1) (h : Placed H st)
    (hinj : Function.Injective H.f) (valid : ValidKey key) (hroom : Room b H st key) :
    Placed H st1 ∧ Room b H st1 key :=
  passes.preserves (I := fun s => Placed H s ∧ Room b H s key) ⟨h, hroom⟩
    fun _ _ hs hp => hs.1.again hinj valid hs.2 hp

/-- The local depth of the key's segment grows with every split of the call. -/
theorem Placed.returns (h : Placed H st) (hinj : Function.Injective H.f) (valid : ValidKey key)
    (hroom : Room b H st key) : ∃ fuel st', insert b H fuel st key value = some st' := by
  induction hm : 64 - (st.segs (st.route (H.f key))).localDepth generalizing st with
  | zero =>
    rcases h.pass hinj valid hroom value with ⟨s, hdone, _⟩ | ⟨hl, _⟩
    · exact ⟨1, s, by simp only [insert, hdone]⟩
    · omega
  | succ m ih =>
    rcases h.pass hinj valid hroom value with ⟨s, hdone, _⟩ | ⟨_, s, hagain, hs, hr, hl⟩
    · exact ⟨1, s, by simp only [insert, hdone]⟩
    · obtain ⟨fuel, st', hfuel⟩ := ih hs hr (by omega)
      exact ⟨fuel + 1, st', by simp only [insert, hagain, hfuel]⟩

theorem Calls.placed {start : CCEH} {calls : List (Key × Value)} (h0 : Placed H start)
    (hinj : Function.Injective H.f) (run : Calls b H (Room b H) start calls st) : Placed H st := by
  induction run with
  | start => exact h0
  | insert calls st st1 st' key value _ valid ok passes hpass ih =>
    obtain ⟨h1, hroom⟩ := passes.placed ih hinj valid ok
    exact h1.done hinj valid hroom hpass

theorem InitUpTo.placed {n : ℕ} (h : InitUpTo n (2 ^ n) st) (hn : 1 ≤ n) (hmax : n ≤ 63) :
    Placed H st := by
  refine ⟨h.directoryInvariant hn, by rw [h.depth_eq]; omega, h.everywhere _, ?_⟩
  intro i hi c hc
  rw [h.depth_eq] at hi
  rw [Segment.Occupied, h.entry i hi] at hc
  exact absurd ((h.seg i hi).2.2 c) hc

end Steps

/-- After calls before each of which `Room` holds, a call before which it holds returns;
its passes split only segments of local depth at most 63. -/
theorem insert_returns (b : Build) (H : HashFuncs) (hinj : Function.Injective H.f)
    (segs : ℕ → Segment) (dirs : ℕ → Directory) (n : ℕ) (hn : 1 ≤ n) (hmax : n ≤ 63)
    (calls : List (Key × Value)) (st : CCEH)
    (run : Calls b H (Room b H) (initCCEH (freshPool segs dirs) (2 ^ n)) calls st)
    (key : Key) (value : Value) (valid : ValidKey key) (ok : Room b H st key) :
    (∃ fuel st', insert b H fuel st key value = some st') ∧
    ∀ st1, Passes b H key value st st1 →
      (findSlot H (st1.segs (st1.route (H.f key))) key = none →
        (st1.segs (st1.route (H.f key))).localDepth ≤ 63) ∧
      ∀ a, Shift H st1 a → 0 ≤ a ∧ a ≤ 63 := by
  have h := run.placed ((initCCEH_spec segs dirs n).placed hn hmax) hinj
  refine ⟨h.returns hinj valid ok, ?_⟩
  intro st1 passes
  obtain ⟨h1, hroom⟩ := passes.placed h hinj valid ok
  exact ⟨h1.level_of_room hinj hroom, fun a ha => ha.in_range h1.dir h1.depth_le⟩

/-! ### One key without end -/

/-- Slots 0 to `n - 1` of the segment of key 0 hold that key, the others are empty. -/
structure Copies (n : ℕ) (st : CCEH) : Prop where
  placed : Placed plainHash st
  held : ∀ c : Slot, ((st.segs (st.route 0)).bucket c).key = if c.val < n then 0 else INVALID

theorem nextBit_zero (l : ℕ) : nextBit 0 l = false := by
  simp [nextBit]

theorem plain_probe (j : ℕ) (hj : j < 64) :
    (probe plainHash 0 j).val = if j < 32 then j else j - 32 := by
  have hw : windowIdx (plainHash.f 0) = 0 := by decide
  have hw' : windowIdx (plainHash.s 0) = 0 := by decide
  unfold probe
  rw [hw, hw']
  split
  · rw [slotAt_val 0 j (by omega), Nat.zero_add]
  · rw [slotAt_val 0 (j - 32) (by omega), Nat.zero_add]

section Plain
variable {b : Build} {st st' : CCEH} {n : ℕ}

theorem Copies.taken (h : Copies n st) (c : Slot) (hc : c.val < n) :
    (st.segs (st.route 0)).Live plainHash
      (topBits 0 (st.segs (st.route 0)).localDepth) c := by
  have hkey := h.held c
  rw [if_pos hc] at hkey
  refine ⟨?_, ?_⟩
  · rw [Segment.Occupied, hkey]
    decide
  · rw [hkey]
    rfl

theorem Copies.findSlot_some (h : Copies n st) (hn : n < 32) :
    findSlot plainHash (st.segs (st.route 0)) 0 = some (probe plainHash 0 n) := by
  have hval := plain_probe n (by omega)
  rw [if_pos hn] at hval
  apply findSlot_first _ _ _ n (by omega)
  · have hkey := h.held (probe plainHash 0 n)
    rw [hval, if_neg (lt_irrefl n)] at hkey
    rw [reusable, decide_eq_true_iff, hkey]
    exact ⟨Or.inr rfl, by decide⟩
  · intro i hi
    have hvi := plain_probe i (by omega)
    rw [if_pos (by omega)] at hvi
    exact reusable_false _ _ _ _ (h.taken _ (by omega))

theorem Copies.findSlot_full (h : Copies 32 st) :
    findSlot plainHash (st.segs (st.route 0)) 0 = none := by
  apply findSlot_none
  intro i hi
  have hvi := plain_probe i hi
  refine reusable_false _ _ _ _ (h.taken _ ?_)
  rw [hvi]
  split <;> omega

theorem Copies.room (h : Copies n st) (hn : n < 32) : Room b plainHash st 0 := by
  refine Or.inl ⟨probe plainHash 0 n, ?_, ?_⟩
  · rw [windows_eq]
    exact List.mem_map.mpr ⟨n, List.mem_range.mpr (by omega), rfl⟩
  · have hval := plain_probe n (by omega)
    rw [if_pos hn] at hval
    change ((st.segs (st.route 0)).bucket (probe plainHash 0 n)).key ≠ 0
    rw [h.held, hval, if_neg (lt_irrefl n)]
    decide

theorem Copies.insert (b : Build) (h : Copies n st) (hn : n < 32) :
    ∃ st', insertPass b plainHash st 0 1 = .done st' ∧ Copies (n + 1) st' := by
  have hf := h.findSlot_some hn
  have hdone := insertPass_found b plainHash st 0 1 h.placed.dir.rest h.placed.depth_le _ hf
  have hval := plain_probe n (by omega)
  rw [if_pos hn] at hval
  refine ⟨_, hdone, h.placed.put (ofNat_valid 0 (by omega)) _ hf, ?_⟩
  intro c
  change (((st.put 0 (probe plainHash 0 n) ⟨0, 1⟩).segs (st.route 0)).bucket c).key = _
  rw [CCEH.put, CCEH.setSeg_segs_self]
  by_cases hc : c = probe plainHash 0 n
  · rw [hc, Segment.setPair_self, hval, if_pos (Nat.lt_succ_self n)]
  · rw [Segment.setPair_of_ne _ _ _ _ hc, h.held c]
    have hne : c.val ≠ n := fun he => hc (Fin.ext (he.trans hval.symm))
    exact if_congr (by omega) rfl rfl

theorem copies_run (b : Build) {Ok : CCEH → Key → Prop}
    (hok : ∀ n < 32, ∀ st, Copies n st → Ok st 0) (n : ℕ) (hn : n ≤ 32) :
    ∃ st, Calls b plainHash Ok smallTable (List.replicate n (0, 1)) st ∧ Copies n st := by
  induction n with
  | zero =>
    have hinit := initCCEH_spec (fun _ => zeroSegment) (fun _ => zeroDirectory) 1
    refine ⟨smallTable, Calls.start, hinit.placed (le_refl 1) (by decide), ?_⟩
    intro c
    have hroute : smallTable.route 0 = 1 :=
      (filled_start (BitVec.ofNat 64)).route 0 (by decide)
    rw [hroute, if_neg (Nat.not_lt_zero _)]
    exact (hinit.seg 0 (by decide)).2.2 c
  | succ n ih =>
    obtain ⟨st, hrun, hst⟩ := ih (by omega)
    obtain ⟨st', hdone, hst'⟩ := hst.insert b (by omega)
    refine ⟨st', ?_, hst'⟩
    rw [List.replicate_succ']
    exact Calls.insert _ st st st' 0 1 hrun (ofNat_valid 0 (by omega)) (hok n (by omega) st hst)
      (Passes.refl st) hdone

theorem Copies.moves (h : Copies 32 st) (bit : Bool) (p : Slot) :
    (st.segs (st.route 0)).Moves plainHash bit p ↔ p.val < 32 ∧ bit = false := by
  have hkey := h.held p
  constructor
  · rintro ⟨ho, hb⟩
    have hp : p.val < 32 := by
      by_contra hp
      rw [if_neg hp] at hkey
      exact ho hkey
    rw [if_pos hp] at hkey
    rw [hkey] at hb
    exact ⟨hp, hb.symm.trans (nextBit_zero _)⟩
  · rintro ⟨hp, rfl⟩
    refine ⟨(h.taken p hp).1, ?_⟩
    rw [if_pos hp] at hkey
    rw [hkey]
    exact nextBit_zero _

/-- The copies move to the lower half together, into the same slots. -/
theorem Copies.split (h : Copies 32 st) (hl : (st.segs (st.route 0)).localDepth ≤ 63) :
    ∃ st', insertPass b plainHash st 0 1 = .again st' ∧ Copies 32 st' ∧
      (st'.segs (st'.route 0)).localDepth = (st.segs (st.route 0)).localDepth + 1 := by
  have hd := h.placed.depth_le
  have hgrown : st.grownDepth (st.route 0) ≤ 64 := by
    unfold CCEH.grownDepth
    split <;> omega
  rcases insertPass_rest b plainHash st 0 1 h.placed.dir.consistent h.placed.dir.rest hd
    (fun _ => hgrown) with ⟨loc, hf, _⟩ | ⟨_, st', hagain, r⟩
  · have hnone := h.findSlot_full
    change findSlot plainHash (st.segs (st.route 0)) 0 = some loc at hf
    rw [hnone] at hf
    cases hf
  · change SplitResult b plainHash st 0 (st.route 0) st' at r
    have hd' : st'.curDir.depth ≤ 64 := by
      rw [r.depth]
      exact hgrown
    have hmoved := r.route_moved h.placed.dir.toAtRest hd' (rfl : st.route 0 = st.route 0)
    rw [nextBit_zero] at hmoved
    refine ⟨st', hagain, ⟨h.placed.split hd' r, ?_⟩, ?_⟩
    · intro c
      rw [hmoved]
      rcases st.half_cases b (st.route 0) false with ⟨hb, _, hh⟩ | ⟨hcopies, _⟩
      · rw [hh, r.kept hb]
        exact h.held c
      · have hb : b = .cow := by
          cases b with
          | cow => rfl
          | inplace => cases hcopies
        subst b
        have hplace : Placement (fun p => candidates .cow plainHash
            ((st.segs (st.route 0)).bucket p).key)
            ((st.segs (st.route 0)).Moves plainHash false) (firstPos 0) := by
          apply window_placement 0 32 (by omega) (by omega) (by omega)
          · intro p
            rw [h.moves false p]
            exact and_iff_left rfl
          · intro p hp
            refine ⟨[], ?_, fun hge => absurd hp (by omega)⟩
            have hkey := h.held p
            rw [if_pos hp] at hkey
            rw [hkey, List.append_nil]
            rfl
        obtain ⟨pos, hp, hh⟩ := (r.copied false hcopies).placement
        rw [hp.unique hplace] at hh
        have hself : ∀ p : Slot, slotAt 0 p.val = p := by
          intro p
          apply Fin.ext
          have hlt : p.val < 1024 := lt_of_lt_of_eq p.isLt kNumSlot_eq
          rw [slotAt_val 0 p.val (by omega), Nat.zero_add]
        by_cases hc : c.val < 32
        · have hpos : firstPos 0 c = some c := by
            rw [firstPos, if_pos hc, hself c]
          rw [hh.placed c c hpos]
          exact h.held c
        · rw [if_neg hc]
          apply hh.free
          intro i hi
          rw [firstPos] at hi
          split at hi
          · rw [hself i] at hi
            obtain rfl := Option.some.inj hi
            omega
          · cases hi
    · rw [hmoved]
      exact (r.half_level _).1

theorem Copies.descends (b : Build) (h : Copies 32 st) :
    ∃ st1, Passes b plainHash 0 1 st st1 ∧ Copies 32 st1 ∧
      (st1.segs (st1.route 0)).localDepth = 64 := by
  have hle := h.placed.level_le 0
  have hd := h.placed.depth_le
  obtain ⟨m, hm⟩ : ∃ m, (st.segs (st.route 0)).localDepth + m = 64 :=
    ⟨64 - (st.segs (st.route 0)).localDepth, by omega⟩
  have hdown : ∀ k ≤ m, ∃ st1, Passes b plainHash 0 1 st st1 ∧ Copies 32 st1 ∧
      (st1.segs (st1.route 0)).localDepth = (st.segs (st.route 0)).localDepth + k := by
    intro k hk
    induction k with
    | zero => exact ⟨st, Passes.refl st, h, rfl⟩
    | succ k ih =>
      obtain ⟨st1, hpasses, h1, hl⟩ := ih (by omega)
      obtain ⟨st2, hagain, h2, hl2⟩ := h1.split (b := b) (by omega)
      exact ⟨st2, Passes.again _ st1 st2 hpasses hagain, h2, by omega⟩
  obtain ⟨st1, hpasses, h1, hl⟩ := hdown m (le_refl m)
  exact ⟨st1, hpasses, h1, by omega⟩

end Plain

/-- The 32nd call with the same key returns. -/
theorem insert_returns_copies :
    ∃ st, Calls .cow plainHash (Room .cow plainHash) smallTable (List.replicate 31 (0, 1)) st ∧
      ∃ fuel st', insert .cow plainHash fuel st 0 1 = some st' := by
  have hroom : ∀ n < 32, ∀ st, Copies n st → Room .cow plainHash st 0 :=
    fun _ hn _ h => h.room hn
  obtain ⟨st, hrun, hst⟩ := copies_run .cow hroom 31 (by omega)
  exact ⟨st, hrun, (insert_returns .cow plainHash Function.injective_id _ _ 1 (le_refl 1)
    (by decide) _ st hrun 0 1 (ofNat_valid 0 (by omega)) (hst.room (by omega))).1⟩

/-- The 33rd call with the same key comes to split a segment of local depth 64. -/
theorem repeated_key_splits_at_64 :
    Function.Injective plainHash.f ∧
    ∃ st st1, Calls .cow plainHash (fun _ _ => True) smallTable (List.replicate 32 (0, 1)) st ∧
      Passes .cow plainHash 0 1 st st1 ∧
      findSlot plainHash (st1.segs (st1.route (plainHash.f 0))) 0 = none ∧
      (st1.segs (st1.route (plainHash.f 0))).localDepth = 64 := by
  obtain ⟨st, hrun, hst⟩ : ∃ st, Calls .cow plainHash (fun _ _ => True) smallTable
      (List.replicate 32 (0, 1)) st ∧ Copies 32 st :=
    copies_run .cow (fun _ _ _ _ => trivial) 32 (le_refl 32)
  obtain ⟨st1, hpasses, h1, hl⟩ := hst.descends .cow
  exact ⟨Function.injective_id, st, st1, hrun, hpasses, h1.findSlot_full, hl⟩

end PmemStudy.Cceh
