import PmemStudy.Cceh.Insertions

/-!
# Updates (CCEH-PMDK/wrap.cpp)

`Update` is `Insert`: it adds a copy of the key. In the copy-on-write build a
segment holds no stale pairs, so a new copy takes the first empty slot and
comes behind the older ones, and `Get` returns the first.
-/

namespace PmemStudy.Cceh
open PmemStudy.FirstFit

/-- `cceh::Update`, at most `fuel` passes. -/
def update (b : Build) (H : HashFuncs) (fuel : ℕ) (st : CCEH) (key : Key) (value : Value) :
    Option CCEH := insert b H fuel st key value

/-! ### Segments without gaps -/

namespace Segment

/-- The slots probed before the one that a pair sits in are taken. -/
def Probed (H : HashFuncs) (s : Segment) : Prop :=
  ∀ c, s.Occupied c → ∃ pre post, windows H (s.bucket c).key = pre ++ c :: post ∧
    ∀ c' ∈ pre, s.Occupied c'

/-- The copy of the key in the lowest slot. -/
def Lowest (s : Segment) (key : Key) (i : Slot) : Prop :=
  (s.bucket i).key = key ∧ ∀ j < i, (s.bucket j).key ≠ key

theorem Lowest.unique {s : Segment} {key : Key} {i j : Slot} (hi : s.Lowest key i)
    (hj : s.Lowest key j) : i = j := by
  rcases lt_trichotomy i j with hlt | he | hlt
  · exact absurd hi.1 (hj.2 i hlt)
  · exact he
  · exact absurd hj.1 (hi.2 j hlt)

theorem exists_lowest (s : Segment) (key : Key) (h : ∃ i, (s.bucket i).key = key) :
    ∃ i, s.Lowest key i := by
  obtain ⟨i, hi, hmin⟩ := WellFounded.has_min (wellFounded_lt (α := Slot))
    {i | (s.bucket i).key = key} h
  exact ⟨i, hi, fun j hj hk => hmin j hk hj⟩

theorem occupied_of_reusable_false (H : HashFuncs) (s : Segment) {pattern : ℕ} (loc : Slot)
    (h : reusable H s pattern loc = false) : s.Occupied loc := by
  intro hinv
  rw [reusable, decide_eq_false_iff_not, hinv] at h
  exact h ⟨Or.inr rfl, by decide⟩

theorem findSlot_split (H : HashFuncs) (s : Segment) (key : Key) (loc : Slot)
    (h : findSlot H s key = some loc) :
    ∃ pre post, windows H key = pre ++ loc :: post ∧ ∀ c ∈ pre, s.Occupied c := by
  obtain ⟨_, pre, post, he, hpre⟩ := List.find?_eq_some_iff_append.mp h
  refine ⟨pre, post, he, ?_⟩
  intro c hc
  have hx := hpre c hc
  rw [Bool.not_eq_true'] at hx
  exact s.occupied_of_reusable_false H c hx

theorem Probed.setPair {H : HashFuncs} {s : Segment} (h : s.Probed H) (key : Key) (value : Value)
    (loc : Slot) (hf : findSlot H s key = some loc)
    (hfree : ¬ s.Occupied loc) : (s.setPair loc ⟨key, value⟩).Probed H := by
  have hgrow : ∀ c, s.Occupied c → (s.setPair loc ⟨key, value⟩).Occupied c := by
    intro c hc
    have hne : c ≠ loc := fun he => hfree (he ▸ hc)
    rw [Occupied, setPair_of_ne _ _ _ _ hne]
    exact hc
  intro c hc
  by_cases he : c = loc
  · obtain ⟨pre, post, hw, hpre⟩ := findSlot_split H s key loc hf
    rw [he, setPair_self]
    exact ⟨pre, post, hw, fun c' hc' => hgrow c' (hpre c' hc')⟩
  · rw [Occupied, setPair_of_ne _ _ _ _ he] at hc
    rw [setPair_of_ne _ _ _ _ he]
    obtain ⟨pre, post, hw, hpre⟩ := h c hc
    exact ⟨pre, post, hw, fun c' hc' => hgrow c' (hpre c' hc')⟩

/-! ### The scan after a store -/

/-- Another key is found where it was found before. -/
theorem scan_setPair_of_ne (H : HashFuncs) (s : Segment) (k : Key) (loc : Slot) (p : Pair)
    (hfree : ¬ s.Occupied loc) (hk : k ≠ INVALID) (hne : p.key ≠ k) :
    (s.setPair loc p).scan H k = s.scan H k := by
  have hinv : (s.bucket loc).key = INVALID := not_not.mp hfree
  rw [scan, scan]
  congr 1
  funext c
  by_cases hc : c = loc
  · rw [hc, setPair_self, hinv, decide_eq_false hne, decide_eq_false (Ne.symm hk)]
  · rw [setPair_of_ne _ _ _ _ hc]

theorem scan_setPair_first (H : HashFuncs) (s : Segment) (key : Key) (value : Value) (loc : Slot)
    (hf : findSlot H s key = some loc) (hfree : ¬ s.Occupied loc) (hnone : s.scan H key = none) :
    (s.setPair loc ⟨key, value⟩).scan H key = some loc := by
  obtain ⟨pre, post, hw, hpre⟩ := findSlot_split H s key loc hf
  rw [scan, List.find?_eq_some_iff_append]
  refine ⟨?_, pre, post, hw, ?_⟩
  · rw [setPair_self]
    exact decide_eq_true rfl
  · intro c hc
    have hne : c ≠ loc := fun he => hfree (he ▸ hpre c hc)
    have hmem : c ∈ windows H key := by
      rw [hw]
      exact List.mem_append_left _ hc
    rw [setPair_of_ne _ _ _ _ hne, Bool.not_eq_true']
    exact Bool.eq_false_iff.mpr (List.find?_eq_none.mp hnone c hmem)

/-- An older copy hides the new one. -/
theorem Probed.scan_setPair {H : HashFuncs} {s : Segment} (h : s.Probed H) (key : Key)
    (value : Value) (hk : key ≠ INVALID) (loc c : Slot) (hfree : ¬ s.Occupied loc)
    (hc : s.scan H key = some c) :
    c ≠ loc ∧ (s.setPair loc ⟨key, value⟩).scan H key = some c := by
  obtain ⟨hkey, pre, post, hw, hfirst⟩ := List.find?_eq_some_iff_append.mp hc
  have hkey' : (s.bucket c).key = key := of_decide_eq_true hkey
  have hocc : s.Occupied c := by
    rw [Occupied, hkey']
    exact hk
  have hne : c ≠ loc := fun he => hfree (he ▸ hocc)
  obtain ⟨pre', post', hw', hpre'⟩ := h c hocc
  rw [hkey', hw] at hw'
  -- the copy that is found first comes no later than any place of `c` in the windows
  have hpre : ∀ c' ∈ pre, s.Occupied c' := by
    rcases List.append_eq_append_iff.mp hw' with ⟨m, hm, _⟩ | ⟨m, hm, hm'⟩
    · intro c' hc'
      apply hpre'
      rw [hm]
      exact List.mem_append_left _ hc'
    · cases m with
      | nil =>
        rw [List.append_nil] at hm
        rw [hm]
        exact hpre'
      | cons a m =>
        have ha : c = a := (List.cons.inj hm').1
        have hx := hfirst c (by rw [hm, ha]; exact List.mem_append_right _ (List.mem_cons_self ..))
        rw [hkey] at hx
        cases hx
  refine ⟨hne, ?_⟩
  rw [scan, List.find?_eq_some_iff_append]
  refine ⟨?_, pre, post, hw, ?_⟩
  · rw [setPair_of_ne _ _ _ _ hne]
    exact hkey
  · intro c' hc'
    have hne' : c' ≠ loc := fun he => hfree (he ▸ hpre c' hc')
    rw [setPair_of_ne _ _ _ _ hne']
    exact hfirst c' hc'

/-- After a split `Get` finds the copy of the lowest slot, or nothing when that
copy got no slot; the value is to be the one found before. -/
def KeptBySplit (H : HashFuncs) (s : Segment) (key : Key) : Prop :=
  ∀ c i pos, s.scan H key = some c → s.Lowest key i →
    Placement (fun p => candidates .cow H (s.bucket p).key)
      (s.Moves H (nextBit (H.f key) s.localDepth)) pos →
    (if pos i = none then NONE else (s.bucket i).value) = (s.bucket c).value

theorem keptBySplit_iff {H : HashFuncs} {s : Segment} {key : Key} {c i : Slot}
    {pos : Slot → Option Slot} (hs : s.scan H key = some c) (hi : s.Lowest key i)
    (hp : Placement (fun p => candidates .cow H (s.bucket p).key)
      (s.Moves H (nextBit (H.f key) s.localDepth)) pos) :
    s.KeptBySplit H key ↔
      (if pos i = none then NONE else (s.bucket i).value) = (s.bucket c).value := by
  constructor
  · intro h
    exact h c i pos hs hi hp
  · intro h c' i' pos' hs' hi' hp'
    rw [hs] at hs'
    rw [← Option.some.inj hs', hp'.unique hp, hi'.unique hi]
    exact h

end Segment

/-! ### The halves of a split -/

section Halves
variable {H : HashFuncs} {src dst : Segment} {bit : Bool}

theorem CopiedHalf.probed (h : CopiedHalf .cow H src bit dst) : dst.Probed H := by
  obtain ⟨pos, hp, hh⟩ := h.placement
  intro c hc
  obtain ⟨i, hi⟩ : ∃ i, pos i = some c := by
    by_contra hn
    exact hc (hh.free c fun i hi => hn ⟨i, hi⟩)
  obtain ⟨pre, post, hw, hpre, _⟩ := hp.fit i c hi
  refine ⟨pre, post ++ window (windowIdx (H.s (src.bucket i).key)), ?_, ?_⟩
  · rw [hh.placed i c hi, windows]
    change candidates .cow H (src.bucket i).key ++ _ = _
    rw [hw, List.append_assoc, List.cons_append]
  · intro c' hc'
    obtain ⟨q, _, hq⟩ := hpre c' hc'
    rw [Segment.Occupied, hh.placed q c' hq]
    exact (hp.item_of_some q c' hq).1

/-- The later copies of a key go behind the first one. -/
theorem CopiedHalf.scan_placed (h : CopiedHalf .cow H src bit dst) (pos : Slot → Option Slot)
    (hp : Placement (fun p => candidates .cow H (src.bucket p).key) (src.Moves H bit) pos)
    (key : Key) (i c : Slot) (hi : src.Lowest key i) (hc : pos i = some c) :
    dst.scan H key = some c ∧ dst.bucket c = src.bucket i := by
  obtain ⟨pos', hp', hh⟩ := h.placement
  have he : pos' = pos := hp'.unique hp
  subst pos'
  obtain ⟨pre, post, hw, hpre, _⟩ := hp.fit i c hc
  rw [hi.1] at hw
  refine ⟨?_, hh.placed i c hc⟩
  rw [Segment.scan, List.find?_eq_some_iff_append]
  refine ⟨?_, pre, post ++ window (windowIdx (H.s key)), ?_, ?_⟩
  · rw [hh.placed i c hc, hi.1]
    exact decide_eq_true rfl
  · rw [windows]
    change candidates .cow H key ++ _ = _
    rw [hw, List.append_assoc, List.cons_append]
  · intro c' hc'
    obtain ⟨q, hlt, hq⟩ := hpre c' hc'
    rw [hh.placed q c' hq, decide_eq_false (hi.2 q hlt)]
    rfl

/-- Without a slot for the first copy there is none for the later ones. -/
theorem CopiedHalf.scan_dropped (h : CopiedHalf .cow H src bit dst) (pos : Slot → Option Slot)
    (hp : Placement (fun p => candidates .cow H (src.bucket p).key) (src.Moves H bit) pos)
    (key : Key) (hk : key ≠ INVALID) (hbit : nextBit (H.f key) src.localDepth = bit) (i : Slot)
    (hi : src.Lowest key i) (hnone : pos i = none) : dst.scan H key = none := by
  obtain ⟨pos', hp', hh⟩ := h.placement
  have he : pos' = pos := hp'.unique hp
  subst pos'
  have hmoves : src.Moves H bit i := by
    refine ⟨?_, ?_⟩
    · rw [Segment.Occupied, hi.1]
      exact hk
    · rw [hi.1]
      exact hbit
  have hfull := hp.full i hmoves hnone
  rw [hi.1] at hfull
  rw [Segment.scan, List.find?_eq_none]
  intro c _ hc
  have hkey : (dst.bucket c).key = key := of_decide_eq_true hc
  have hplaced : ∃ j, pos j = some c := by
    by_contra hn
    rw [hh.free c fun j hj => hn ⟨j, hj⟩] at hkey
    exact hk hkey.symm
  obtain ⟨j, hj⟩ := hplaced
  rw [hh.placed j c hj] at hkey
  have hcand : c ∈ candidates .cow H key := by
    rw [← hkey]
    exact hp.mem_cand j c hj
  obtain ⟨q, hlt, hq⟩ := hfull c hcand
  have hqj : q = j := hp.injective q j c hq hj
  rw [hqj] at hlt
  exact hi.2 j hlt hkey

end Halves

/-! ### Pools without stale pairs -/

structure Packed (H : HashFuncs) (st : CCEH) : Prop where
  dir : DirectoryInvariant st
  routed : ∀ i < 2 ^ st.curDir.depth, ∀ c, (st.segs (st.curDir.segment i)).Occupied c →
    st.route (H.f ((st.segs (st.curDir.segment i)).bucket c).key) = st.curDir.segment i
  probed : ∀ i < 2 ^ st.curDir.depth, (st.segs (st.curDir.segment i)).Probed H

section Steps
variable {H : HashFuncs} {st st' : CCEH}

/-- The slot that `Insert` chooses is empty. -/
theorem Packed.free (h : Packed H st) (hd : st.curDir.depth ≤ 63) (key : Key) (loc : Slot)
    (hf : findSlot H (st.segs (st.route (H.f key))) key = some loc) :
    ¬ (st.segs (st.route (H.f key))).Occupied loc := by
  intro hocc
  have hx := route_index_lt st (H.f key) (by omega)
  have hroute := h.routed _ hx loc hocc
  have hpat := (h.dir.route_pattern (by omega) _ _ hx).mp hroute
  apply (findSlot_spec H _ key loc hf).2
  refine ⟨hocc, ?_⟩
  rw [h.dir.route_self (by omega) (H.f key)]
  exact hpat

theorem Packed.put (h : Packed H st) (hd : st.curDir.depth ≤ 63) (key : Key) (value : Value)
    (loc : Slot) (hf : findSlot H (st.segs (st.route (H.f key))) key = some loc) :
    Packed H (st.put (H.f key) loc ⟨key, value⟩) := by
  have hx := route_index_lt st (H.f key) (by omega)
  have hfree := h.free hd key loc hf
  refine ⟨h.dir.put (H.f key) loc ⟨key, value⟩, ?_, ?_⟩
  · intro i hi c hc
    change ((st.put (H.f key) loc ⟨key, value⟩).segs (st.curDir.segment i)).Occupied c at hc
    change st.route (H.f (((st.put (H.f key) loc ⟨key, value⟩).segs
      (st.curDir.segment i)).bucket c).key) = st.curDir.segment i
    by_cases hq : st.curDir.segment i = st.route (H.f key)
    · rw [hq, CCEH.put, CCEH.setSeg_segs_self] at hc ⊢
      by_cases hcl : c = loc
      · rw [hcl, Segment.setPair_self]
      · rw [Segment.Occupied, Segment.setPair_of_ne _ _ _ _ hcl] at hc
        rw [Segment.setPair_of_ne _ _ _ _ hcl]
        exact h.routed _ hx c hc
    · rw [CCEH.put, CCEH.setSeg_segs_of_ne _ _ _ _ hq] at hc ⊢
      exact h.routed i hi c hc
  · intro i hi
    change ((st.put (H.f key) loc ⟨key, value⟩).segs (st.curDir.segment i)).Probed H
    by_cases hq : st.curDir.segment i = st.route (H.f key)
    · rw [hq, CCEH.put, CCEH.setSeg_segs_self]
      exact (h.probed _ hx).setPair key value loc hf hfree
    · rw [CCEH.put, CCEH.setSeg_segs_of_ne _ _ _ _ hq]
      exact h.probed i hi

theorem Packed.split {f_hash : BitVec 64} (h : Packed H st) (hd : st.curDir.depth ≤ 63)
    (r : SplitResult .cow H st f_hash (st.route f_hash) st') : Packed H st' := by
  have hx := route_index_lt st f_hash (by omega)
  refine ⟨r.directoryInvariant h.dir (r.depth_le hd), ?_, ?_⟩
  · intro i hi c hc
    obtain ⟨hlt, ⟨_, bit, he, _⟩ | ⟨hne, he⟩⟩ := r.entry_cases h.dir.toAtRest (r.depth_le hd) i hi
    · rw [he] at hc ⊢
      obtain ⟨j, hm, hcopy, _⟩ := (r.copied bit trivial).copyOf.source c hc
      have hsrc : st.route (H.f ((st.segs (st.route f_hash)).bucket j).key) = st.route f_hash :=
        h.routed _ hx j hm.1
      rw [hcopy, r.route_moved h.dir.toAtRest (r.depth_le hd) hsrc, hm.2]
    · have hseg := r.other _ (h.dir.rest.allocated _ hlt).2 hne
      rw [he, hseg] at hc
      have hroute := h.routed _ hlt c hc
      rw [he, hseg, (r.route_other h.dir.toAtRest (r.depth_le hd) (by rw [hroute]; exact hne)).1, hroute]
  · intro i hi
    obtain ⟨hlt, ⟨_, bit, he, _⟩ | ⟨hne, he⟩⟩ := r.entry_cases h.dir.toAtRest (r.depth_le hd) i hi
    · rw [he]
      exact (r.copied bit trivial).probed
    · rw [he, r.other _ (h.dir.rest.allocated _ hlt).2 hne]
      exact h.probed _ hlt

theorem InitUpTo.packed {depth : ℕ} (H : HashFuncs) (h : InitUpTo depth (2 ^ depth) st)
    (hd : 1 ≤ depth) : Packed H st := by
  have hempty : ∀ i < 2 ^ st.curDir.depth, ∀ c, ¬ (st.segs (st.curDir.segment i)).Occupied c := by
    intro i hi c hc
    rw [h.depth_eq] at hi
    rw [Segment.Occupied, h.entry i hi] at hc
    exact hc ((h.seg i hi).2.2 c)
  exact ⟨h.directoryInvariant hd, fun i hi c hc => absurd hc (hempty i hi c),
    fun i hi c hc => absurd hc (hempty i hi c)⟩

/-! ### What a pass does to `Get` -/

/-- No copy is found, or the one found has the new value already. -/
def UpdateTakes (H : HashFuncs) (st : CCEH) (key : Key) (value : Value) : Prop :=
  ∀ c, (st.segs (st.route (H.f key))).scan H key = some c →
    ((st.segs (st.route (H.f key))).bucket c).value = value

/-- A pass that splits keeps the value of every other key of the segment. -/
def SplitKeepsOthers (H : HashFuncs) (st : CCEH) (key : Key) : Prop :=
  findSlot H (st.segs (st.route (H.f key))) key = none →
    ∀ k, ValidKey k → k ≠ key → (st.segs (st.route (H.f key))).KeptBySplit H k

theorem Packed.get_put_self (h : Packed H st) (hd : st.curDir.depth ≤ 63) (key : Key)
    (value : Value) (hk : ValidKey key) (loc : Slot)
    (hf : findSlot H (st.segs (st.route (H.f key))) key = some loc) :
    get .cow H (st.put (H.f key) loc ⟨key, value⟩) key = some value ↔
      UpdateTakes H st key value := by
  have hx := route_index_lt st (H.f key) (by omega)
  have hfree := h.free hd key loc hf
  have hroute : (st.put (H.f key) loc ⟨key, value⟩).route (H.f key) = st.route (H.f key) := rfl
  have hseg : (st.put (H.f key) loc ⟨key, value⟩).segs (st.route (H.f key)) =
      (st.segs (st.route (H.f key))).setPair loc ⟨key, value⟩ := CCEH.setSeg_segs_self ..
  rw [(h.dir.put (H.f key) loc ⟨key, value⟩).get_eq (hd.trans (by decide)), hroute, hseg, UpdateTakes]
  cases hs : (st.segs (st.route (H.f key))).scan H key with
  | none =>
    rw [Segment.scan_setPair_first H _ key value loc hf hfree hs]
    simp only [Segment.setPair_self, reduceCtorEq, false_imp_iff, implies_true]
  | some c =>
    have hprobed : (st.segs (st.route (H.f key))).Probed H := h.probed _ hx
    obtain ⟨hne, hscan⟩ := hprobed.scan_setPair key value hk.1 loc c hfree hs
    rw [hscan]
    simp only [Segment.setPair_of_ne _ _ _ _ hne, Option.some.injEq, forall_eq']

theorem Packed.get_put_other (h : Packed H st) (hd : st.curDir.depth ≤ 63) (key : Key)
    (value : Value) (loc : Slot) (hf : findSlot H (st.segs (st.route (H.f key))) key = some loc)
    (k : Key) (hk : ValidKey k) (hne : k ≠ key) :
    get .cow H (st.put (H.f key) loc ⟨key, value⟩) k = get .cow H st k := by
  have hfree := h.free hd key loc hf
  have hroute : (st.put (H.f key) loc ⟨key, value⟩).route (H.f k) = st.route (H.f k) := rfl
  rw [(h.dir.put (H.f key) loc ⟨key, value⟩).get_eq (hd.trans (by decide)), h.dir.get_eq (by omega), hroute, CCEH.put]
  by_cases hq : st.route (H.f k) = st.route (H.f key)
  · rw [hq, CCEH.setSeg_segs_self,
      Segment.scan_setPair_of_ne H _ k loc ⟨key, value⟩ hfree hk.1 (Ne.symm hne)]
    cases hs : (st.segs (st.route (H.f key))).scan H k with
    | none => rfl
    | some c =>
      have hkey := Segment.scan_key H _ _ c hs
      have hcl : c ≠ loc := by
        intro he
        rw [he] at hkey
        apply hfree
        rw [Segment.Occupied, hkey]
        exact hk.1
      simp only [Segment.setPair_of_ne _ _ _ _ hcl]
  · rw [CCEH.setSeg_segs_of_ne _ _ _ _ hq]

/-- A key that is in no slot its windows cover is in no slot at all. -/
theorem Segment.Probed.absent {s : Segment} (h : s.Probed H) (key : Key) (hk : key ≠ INVALID)
    (hs : s.scan H key = none) (c : Slot) : (s.bucket c).key ≠ key := by
  intro hc
  obtain ⟨pre, post, hw, _⟩ := h c (by rw [Occupied, hc]; exact hk)
  rw [hc] at hw
  have hmem : c ∈ windows H key := by
    rw [hw]
    exact List.mem_append_right _ (List.mem_cons_self ..)
  exact List.find?_eq_none.mp hs c hmem (decide_eq_true hc)

theorem Packed.get_split {f_hash : BitVec 64} (h : Packed H st) (hd : st.curDir.depth ≤ 63)
    (r : SplitResult .cow H st f_hash (st.route f_hash) st') (hd' : st'.curDir.depth ≤ 63)
    (k : Key) (hk : ValidKey k) :
    get .cow H st' k = get .cow H st k ↔ (st.segs (st.route f_hash)).KeptBySplit H k := by
  have hx := route_index_lt st f_hash (by omega)
  rw [(r.directoryInvariant h.dir (r.depth_le hd)).get_eq (by omega), h.dir.get_eq (by omega)]
  by_cases hq : st.route (H.f k) = st.route f_hash
  · have hhalf := r.copied (nextBit (H.f k) (st.segs (st.route f_hash)).localDepth) trivial
    rw [hq, r.route_moved h.dir.toAtRest (r.depth_le hd) hq]
    cases hs : (st.segs (st.route f_hash)).scan H k with
    | none =>
      have habsent := (h.probed _ hx).absent k hk.1 hs
      have hnone : (st'.segs (st.half .cow (st.route f_hash)
          (nextBit (H.f k) (st.segs (st.route f_hash)).localDepth))).scan H k = none := by
        rw [Segment.scan, List.find?_eq_none]
        intro c _ hc
        have hkey := of_decide_eq_true hc
        obtain ⟨j, _, hcopy, _⟩ := hhalf.copyOf.source c (by rw [Segment.Occupied, hkey]; exact hk.1)
        rw [hcopy] at hkey
        exact habsent j hkey
      rw [hnone]
      refine iff_of_true rfl ?_
      intro c i pos hc
      rw [hs] at hc
      cases hc
    | some c =>
      obtain ⟨i, hi⟩ := Segment.exists_lowest _ k ⟨c, Segment.scan_key H _ _ c hs⟩
      obtain ⟨pos, hp, _⟩ := hhalf.placement
      rw [Segment.keptBySplit_iff hs hi hp]
      cases hpos : pos i with
      | none =>
        rw [hhalf.scan_dropped pos hp k hk.1 rfl i hi hpos]
        simp only [if_true, Option.some.injEq]
      | some c' =>
        obtain ⟨hscan, hcopy⟩ := hhalf.scan_placed pos hp k i c' hi hpos
        rw [hscan]
        simp only [hcopy, reduceCtorEq, if_false, Option.some.injEq]
  · obtain ⟨hroute, hseg⟩ := r.route_other h.dir.toAtRest (r.depth_le hd) hq
    rw [hroute, hseg]
    refine iff_of_true rfl ?_
    -- the split segment holds no copy of a key that is routed elsewhere
    intro c _ _ hs
    have hkey := Segment.scan_key H _ _ c hs
    have hsrc := h.routed _ hx c (by
      change ((st.segs (st.route f_hash)).bucket c).key ≠ INVALID
      rw [hkey]
      exact hk.1)
    change st.route (H.f ((st.segs (st.route f_hash)).bucket c).key) = st.route f_hash at hsrc
    rw [hkey] at hsrc
    exact absurd hsrc hq

end Steps

/-! ### Whole runs -/

section Run
variable {H : HashFuncs} {Ok : CCEH → Key → Prop}

theorem insertPass_again_packed (st st' : CCEH) (key : Key) (value : Value) (h : Packed H st)
    (hd : st.curDir.depth ≤ maxDepth) (hp : insertPass .cow H st key value = .again st') :
    Packed H st' := by
  have hr := (insertPass_again_invariant st st' key value h.dir hd hp).2.1
  exact h.split (hd.trans (by decide)) hr

theorem run_packed {start st : CCEH} {calls : List (Key × Value)} (h0 : Packed H start)
    (run : Run .cow H Ok start calls st) : Packed H st := by
  refine run_preserves (fun _ st => Packed H st) start h0 ?_ ?_ calls st run
  · intro _ st st' key value _ hi hd _ hp
    exact insertPass_again_packed st st' key value hi hd hp
  · intro _ st st' key value _ hi hd _ hp
    obtain ⟨loc, hf, he⟩ := insertPass_done_put st st' key value hi.dir hd hp
    rw [he]
    exact hi.put (hd.trans (by decide)) key value loc hf

theorem run_valid {start st : CCEH} {calls : List (Key × Value)}
    (run : Run .cow H Ok start calls st) : ∀ p ∈ calls, ValidKey p.1 := by
  induction run with
  | start =>
    intro p hp
    cases hp
  | insert calls st st' key value _ valid _ ih =>
    intro p hp
    rcases List.mem_append.mp hp with hp | hp
    · exact ih p hp
    · rw [List.mem_singleton.mp hp]
      exact valid

/-- One pass that splits, and the other keys. -/
theorem insertPass_again_get (st st' : CCEH) (key : Key) (value : Value) (h : Packed H st)
    (hd : st.curDir.depth ≤ maxDepth) (hp : insertPass .cow H st key value = .again st') :
    (∀ k, ValidKey k → k ≠ key → get .cow H st' k = get .cow H st k) ↔
      SplitKeepsOthers H st key := by
  have hmax : maxDepth = 30 := rfl
  obtain ⟨hf, hr, _⟩ := insertPass_again_invariant st st' key value h.dir hd hp
  have hd' : st'.curDir.depth ≤ 63 := by
    have hb := st.grownDepth_bounds (st.route (H.f key))
    rw [hr.depth]
    omega
  have hiff : ∀ k, ValidKey k → (get .cow H st' k = get .cow H st k ↔
      (st.segs (st.route (H.f key))).KeptBySplit H k) :=
    fun k hk => h.get_split (hd.trans (by decide)) hr hd' k hk
  constructor
  · intro hall _ k hk hne
    exact (hiff k hk).mp (hall k hk hne)
  · intro hkeep k hk hne
    exact (hiff k hk).mpr (hkeep hf k hk hne)

/-- The passes of a call before the last. -/
theorem retried_get (key : Key) (value : Value) (st st1 : CCEH)
    (hre : Retried .cow H (SplitKeepsOthers H) key value st st1) (h : Packed H st) :
    Packed H st1 ∧ ∀ k, ValidKey k → k ≠ key → get .cow H st1 k = get .cow H st k := by
  refine retried_preserves (fun s => Packed H s ∧
    ∀ k, ValidKey k → k ≠ key → get .cow H s k = get .cow H st k) key value ?_ st st1 hre
    ⟨h, fun _ _ _ => rfl⟩
  rintro s s' ⟨hpk, hget⟩ hd ok hp
  refine ⟨insertPass_again_packed s s' key value hpk hd hp, ?_⟩
  intro k hk hne
  rw [(insertPass_again_get s s' key value hpk hd hp).mpr ok k hk hne, hget k hk hne]

end Run

/-- From every reachable pool: a pass that splits keeps `Get` of the other keys
exactly when `SplitKeepsOthers` holds, and an `Update` whose splits do so meets
its contract exactly when no older copy of the key hides the new one. -/
theorem update_contract (H : HashFuncs) (segs : ℕ → Segment) (dirs : ℕ → Directory) (n : ℕ)
    (hn : 1 ≤ n) (calls : List (Key × Value)) (st : CCEH)
    (run : Run .cow H (fun _ _ => True) (initCCEH (freshPool segs dirs) (2 ^ n)) calls st)
    (key : Key) (value : Value) (valid : ValidKey key) :
    (∀ st1 st2, Retried .cow H (fun _ _ => True) key value st st1 →
      st1.curDir.depth ≤ maxDepth → insertPass .cow H st1 key value = .again st2 →
      ((∀ k, ValidKey k → k ≠ key → get .cow H st2 k = get .cow H st1 k) ↔
        SplitKeepsOthers H st1 key)) ∧
    ∀ st1 st', Retried .cow H (SplitKeepsOthers H) key value st st1 →
      st1.curDir.depth ≤ maxDepth → insertPass .cow H st1 key value = .done st' →
      (∃ fuel, update .cow H fuel st key value = some st') ∧
      ((get .cow H st' key = some value ∧
          ∀ p ∈ calls, p.1 ≠ key → get .cow H st' p.1 = get .cow H st p.1) ↔
        UpdateTakes H st1 key value) := by
  have hpacked : Packed H st := run_packed ((initCCEH_spec segs dirs n).packed H hn) run
  constructor
  · intro st1 st2 hre hd hp
    have h1 : Packed H st1 := retried_preserves (Packed H) key value
      (fun s s' hi hd _ hp => insertPass_again_packed s s' key value hi hd hp) st st1 hre hpacked
    exact insertPass_again_get st1 st2 key value h1 hd hp
  · intro st1 st' hre hd hp
    obtain ⟨h1, hkept⟩ := retried_get key value st st1 hre hpacked
    have hd' : st1.curDir.depth ≤ 63 := hd.trans (by decide)
    obtain ⟨loc, hf, he⟩ := insertPass_done_put st1 st' key value h1.dir hd hp
    constructor
    · obtain ⟨fuel, hfuel⟩ := insert_of_retried key value st st1 hre
      refine ⟨1 + fuel, ?_⟩
      rw [update, hfuel 1]
      simp only [insert, hp]
    · rw [he, h1.get_put_self hd' key value valid loc hf]
      refine and_iff_left ?_
      intro p hmem hne
      have hv := run_valid run p hmem
      rw [h1.get_put_other hd' key value loc hf p.1 hv hne, hkept p.1 hv hne]

/-- The first probed slot holds the key and the second one is empty. -/
theorem update_behind {st : CCEH} {key : Key} {old : Value} (hdir : DirectoryInvariant st)
    (hd : st.curDir.depth ≤ maxDepth) (hk : ValidKey key)
    (hold : (st.segs (st.route (H.f key))).bucket (probe H key 0) = ⟨key, old⟩)
    (hfree : ((st.segs (st.route (H.f key))).bucket (probe H key 1)).key = INVALID)
    (value : Value) :
    insertPass .cow H st key value = .done (st.put (H.f key) (probe H key 1) ⟨key, value⟩) ∧
      (UpdateTakes H st key value ↔ value = old) := by
  constructor
  · apply insertPass_of_findSlot .cow H st key value hdir hd
    apply findSlot_first _ _ _ 1 (by omega)
    · rw [reusable, decide_eq_true_iff, hfree]
      exact ⟨Or.inr rfl, by decide⟩
    · intro i hi
      obtain rfl : i = 0 := by omega
      refine reusable_false _ _ _ _ ⟨?_, ?_⟩
      · rw [Segment.Occupied, hold]
        exact hk.1
      · rw [hold]
  · have hr : List.range 64 = 0 :: (List.range 63).map (1 + ·) := by decide
    have hscan : (st.segs (st.route (H.f key))).scan H key = some (probe H key 0) := by
      rw [Segment.scan, windows_eq, hr, List.map_cons]
      apply List.find?_cons_of_pos
      rw [hold]
      exact decide_eq_true rfl
    rw [UpdateTakes, hscan]
    simp only [Option.some.injEq, forall_eq', hold]
    exact eq_comm

section Crowded
variable {st st1 : CCEH}

/-- Slot 32, the first one that is probed, holds key 0 with value 1. -/
theorem Crowded.update (h : Crowded 1 st) (value : Value) :
    insertPass .cow crowdedHash st 0 value =
      .done (st.put (crowdedHash.f 0) (slotAt 32 1) ⟨0, value⟩) ∧
    (UpdateTakes crowdedHash st 0 value ↔ value = 1) := by
  have hroute : st.route (crowdedHash.f 0) = 1 := h.route _ (by decide)
  have hvalid : ValidKey 0 := ofNat_valid 0 (by omega)
  refine update_behind h.dir h.depth_le hvalid ?_ ?_ value
  · rw [hroute]
    exact h.taken 0 (by omega)
  · rw [hroute]
    apply h.free
    intro i hi he
    have h1 := crowdedSlot_inj 1 i (by omega) (by omega) he
    omega

/-- Key 64 after keys 0 to 30. -/
def lastKeys (i : ℕ) : Key := if i = 31 then 64 else BitVec.ofNat 64 i

def lastCalls : List (Key × Value) := (List.range 32).map fun i => (lastKeys i, 1)

theorem fillable_lastKeys : Fillable lastKeys 32 := by
  have hcrowded : ∀ i < 32, i ≠ 31 → lastKeys i = BitVec.ofNat 64 i := fun i _ hne => if_neg hne
  refine ⟨fun i hi => ?_, fun i hi => ?_, fun i hi => ?_, fun i hi j hj => ?_⟩
  all_goals by_cases he : i = 31
  · rw [he]
    exact ofNat_valid 64 (le_refl _)
  · rw [hcrowded i hi he]
    exact ofNat_valid i (by omega)
  · rw [he]
    decide
  · rw [hcrowded i hi he]
    exact fillable_crowded.top i (by omega)
  · rw [he]
    decide
  · rw [hcrowded i hi he]
    exact fillable_crowded.first i (by omega)
  · subst he
    unfold probe crowdedSlot
    rw [if_pos (by omega), if_pos (by omega)]
    rfl
  · rw [hcrowded i hi he]
    exact fillable_crowded.probe i (by omega) j hj

theorem lastKeys_bit (i : ℕ) (hi : i < 32) :
    nextBit (crowdedHash.f (lastKeys i)) 1 = false ↔ i = 31 := by
  by_cases he : i = 31
  · rw [he]
    decide
  · have hkey : lastKeys i = BitVec.ofNat 64 i := if_neg he
    rw [hkey, crowded_f i (by omega)]
    exact iff_of_false (by decide) he

/-- All values are 1, and all pairs get a slot. -/
theorem Filled.split_keeps (h : Filled lastKeys 32 st) : SplitKeepsOthers crowdedHash st 64 := by
  intro _ k hk _ c i pos hs hi hp
  have hroute : st.route (crowdedHash.f 64) = 1 := h.route 8 (by decide)
  rw [hroute] at hs hi hp ⊢
  have hindex : ∀ p, ((st.segs 1).bucket p).key = k → ∃ j < 32, p = crowdedSlot j ∧ lastKeys j = k := by
    intro p hkey
    have ho : (st.segs 1).Occupied p := by
      rw [Segment.Occupied, hkey]
      exact hk.1
    obtain ⟨j, hj, rfl⟩ := (h.occupied_iff fillable_lastKeys p).mp ho
    rw [h.taken j hj] at hkey
    exact ⟨j, hj, rfl, hkey⟩
  obtain ⟨m, hm, rfl, _⟩ := hindex c (Segment.scan_key _ _ _ c hs)
  obtain ⟨j, hj, rfl, hjk⟩ := hindex i hi.1
  obtain ⟨pos', hp', hplaced⟩ := h.placement fillable_lastKeys (le_refl _) .cow
    (nextBit (crowdedHash.f k) (st.segs 1).localDepth)
  obtain rfl : pos = pos' := hp.unique hp'
  have hpos := hplaced j hj (by rw [hjk, h.level])
  rw [hpos, if_neg (Option.some_ne_none _), h.taken j hj, h.taken m hm]

/-- After the split key 64 is alone in the lower half. -/
theorem Filled.split_alone (h : Filled lastKeys 32 st)
    (r : SplitResult .cow crowdedHash st 8 1 st1) :
    (st1.segs (st.half .cow 1 false)).bucket (slotAt 32 0) = ⟨64, 1⟩ ∧
      ((st1.segs (st.half .cow 1 false)).bucket (slotAt 32 1)).key = INVALID := by
  obtain ⟨pos, hp, hh⟩ := (r.copied false trivial).placement
  obtain ⟨pos', hp', hplaced⟩ := h.placement fillable_lastKeys (le_refl _) .cow false
  obtain rfl : pos = pos' := hp.unique hp'
  have hcount : Nat.count (fun i => nextBit (crowdedHash.f (lastKeys i)) 1 = false) 31 = 0 := by
    rw [Nat.count_iff_forall_not]
    intro m hm hbit
    exact absurd ((lastKeys_bit m (by omega)).mp hbit) (by omega)
  have hpos : pos (crowdedSlot 31) = some (slotAt 32 0) := by
    rw [hplaced 31 (by omega) ((lastKeys_bit 31 (by omega)).mpr rfl), hcount]
  constructor
  · rw [hh.placed _ _ hpos, h.taken 31 (by omega)]
    rfl
  · refine hh.free _ fun i hi => ?_
    obtain ⟨j, hj, rfl, hbit⟩ := (h.moves_iff fillable_lastKeys false i).mp (hp.item_of_some _ _ hi)
    rw [(lastKeys_bit j hj).mp hbit, hpos] at hi
    have hv := congrArg Fin.val (Option.some.inj hi)
    rw [slotAt_val 32 0 (by omega), slotAt_val 32 1 (by omega)] at hv
    omega

end Crowded

/-- An `Update` of key 64 that splits the segment of 32 keys and keeps the other values. -/
theorem update_contract_splits :
    ∃ st, Run .cow crowdedHash (fun _ _ => True) smallTable lastCalls st ∧
      ∀ value, ∃ st1 st', insertPass .cow crowdedHash st 64 value = .again st1 ∧
        (∀ k, ValidKey k → k ≠ 64 → get .cow crowdedHash st1 k = get .cow crowdedHash st k) ∧
        (∃ fuel, update .cow crowdedHash fuel st 64 value = some st') ∧
        ((get .cow crowdedHash st' 64 = some value ∧
            ∀ p ∈ lastCalls, p.1 ≠ 64 →
              get .cow crowdedHash st' p.1 = get .cow crowdedHash st p.1) ↔ value = 1) := by
  have hok : FreeOk crowdedHash fun _ _ => True := fun _ _ _ _ => trivial
  obtain ⟨st, hrun, hst⟩ := filled_run .cow hok 32 fillable_lastKeys (by omega)
  refine ⟨st, hrun, fun value => ?_⟩
  obtain ⟨_, st1, hpass, r, hdir⟩ := hst.split .cow fillable_lastKeys (le_refl _) value
  obtain ⟨hd1, hlower, _⟩ := hst.split_route r
  have hdepth1 : st1.curDir.depth ≤ maxDepth := by
    rw [hd1]
    decide
  obtain ⟨hold, hfree⟩ := hst.split_alone r
  have hroute : st1.route (crowdedHash.f 64) = st.half .cow 1 false := hlower
  rw [← hroute] at hold hfree
  have hvalid : ValidKey 64 := ofNat_valid 64 (le_refl _)
  obtain ⟨hdone, htakes⟩ := update_behind (H := crowdedHash) hdir hdepth1 hvalid hold hfree value
  obtain ⟨hsplits, hlast⟩ := update_contract crowdedHash _ _ 1 (le_refl 1) _ st hrun 64 value hvalid
  have hothers := (hsplits st st1 (Retried.refl st) hst.depth_le hpass).mpr hst.split_keeps
  obtain ⟨hreturns, hiff⟩ := hlast st1 _
    (Retried.again st st st1 (Retried.refl st) hst.depth_le hst.split_keeps hpass) hdepth1 hdone
  exact ⟨st1, _, hpass, hothers, hreturns, hiff.trans htakes⟩

/-- `Insert(0, 1)` and `Update(0, 2)`: `Get(0)` still returns 1. -/
theorem update_hidden :
    ∃ st st', Run .cow crowdedHash (fun _ _ => True) smallTable (crowdedCalls 1) st ∧
      (∃ fuel, update .cow crowdedHash fuel st 0 2 = some st') ∧
      ¬ (get .cow crowdedHash st' 0 = some 2 ∧
        ∀ p ∈ crowdedCalls 1, p.1 ≠ 0 →
          get .cow crowdedHash st' p.1 = get .cow crowdedHash st p.1) := by
  have hok : FreeOk crowdedHash fun _ _ => True := fun _ _ _ _ => trivial
  obtain ⟨st, hrun, hst⟩ := crowded_run .cow hok 1 (by omega)
  have hd := hst.depth_le
  obtain ⟨hpass, hiff⟩ := hst.update 2
  have hinit := initCCEH_spec (fun _ => zeroSegment) (fun _ => zeroDirectory) 1
  have hpacked : Packed crowdedHash st := run_packed (hinit.packed crowdedHash (le_refl 1)) hrun
  obtain ⟨loc, hf, he⟩ := insertPass_done_put st _ 0 2 hst.dir hd hpass
  refine ⟨st, st.put (crowdedHash.f 0) (slotAt 32 1) ⟨0, 2⟩, hrun, ⟨1, ?_⟩, ?_⟩
  · simp only [update, insert, hpass]
  · rintro ⟨hget, _⟩
    rw [he] at hget
    have htakes := (hpacked.get_put_self (hd.trans (by decide)) 0 2 (ofNat_valid 0 (by omega)) loc
      hf).mp hget
    exact absurd (hiff.mp htakes) (by decide)

end PmemStudy.Cceh
