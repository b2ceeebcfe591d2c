import Mathlib.Data.List.Nodup
import PmemStudy.Cceh.DirectoryInvariant

/-!
# Stored pairs over a run

When every split finds room for the live pairs of its segment, the table is a
finite map: `Get` returns every inserted value, and `NONE` for other keys.
Stale copies left by an in-place split are never live again, since the prefix
they miss only grows longer.
-/

namespace PmemStudy.Cceh
open PmemStudy.AlignedBlocks PmemStudy.FirstFit

/-- Slot `c` of the segment at entry `i` holds a pair whose hash leads to that segment. -/
def CCEH.LiveAt (H : HashFuncs) (st : CCEH) (i : ℕ) (c : Slot) : Prop :=
  (st.segs (st.curDir.segment i)).Live H
    (i / 2 ^ (st.curDir.depth - (st.segs (st.curDir.segment i)).localDepth)) c

/-- The pass that splits finds room for every live pair. -/
def RoomInSplit (b : Build) (H : HashFuncs) (st : CCEH) (key : Key) : Prop :=
  findSlot H (st.segs (st.route (H.f key))) key = none →
    (st.segs (st.route (H.f key))).SplitFits b H
      (topBits (H.f key) (st.segs (st.route (H.f key))).localDepth)

structure Contents (H : HashFuncs) (calls : List (Key × Value)) (st : CCEH) : Prop where
  dir : DirectoryInvariant st
  valid : ∀ p ∈ calls, ValidKey p.1
  seated : ∀ i < 2 ^ st.curDir.depth, ∀ c, st.LiveAt H i c →
    c ∈ windows H ((st.segs (st.curDir.segment i)).bucket c).key
  genuine : ∀ i < 2 ^ st.curDir.depth, ∀ c, st.LiveAt H i c →
    (((st.segs (st.curDir.segment i)).bucket c).key,
      ((st.segs (st.curDir.segment i)).bucket c).value) ∈ calls
  present : ∀ p ∈ calls, ∃ c, (st.segs (st.route (H.f p.1))).bucket c = ⟨p.1, p.2⟩

section Routing
variable {H : HashFuncs} {st : CCEH}

/-- A hash routed to the segment at entry `i` has the prefix of that block. -/
theorem AtRest.route_pattern (h : AtRest st) (hd : st.curDir.depth ≤ 64)
    (f_hash : BitVec 64) (i : ℕ) (hi : i < 2 ^ st.curDir.depth) :
    st.route f_hash = st.curDir.segment i ↔
      topBits f_hash (st.segs (st.curDir.segment i)).localDepth =
        i / 2 ^ (st.curDir.depth - (st.segs (st.curDir.segment i)).localDepth) := by
  have hx := route_index_lt st f_hash (by omega)
  have hle := h.consistent.blocked.level_le i hi
  have hsame := h.consistent.blocked.same_iff i hi _ hx
  rw [topBits_coarser f_hash _ _ hle (by omega)] at hsame
  constructor
  · intro he
    exact (hsame.mp he.symm).symm
  · intro he
    exact (hsame.mpr he.symm).symm

theorem AtRest.route_self (h : AtRest st) (hd : st.curDir.depth ≤ 64)
    (f_hash : BitVec 64) :
    topBits f_hash (st.segs (st.route f_hash)).localDepth = topBits f_hash st.curDir.depth /
      2 ^ (st.curDir.depth - (st.segs (st.route f_hash)).localDepth) :=
  (h.route_pattern hd f_hash _ (route_index_lt st f_hash (by omega))).mp rfl

/-- A slot of the routed segment that holds the key is live. -/
theorem AtRest.liveAt_of_key (h : AtRest st) (hd : st.curDir.depth ≤ 64)
    (key : Key) (hk : ValidKey key) (c : Slot)
    (hc : ((st.segs (st.route (H.f key))).bucket c).key = key) :
    st.LiveAt H (topBits (H.f key) st.curDir.depth) c := by
  constructor
  · change ((st.segs (st.route (H.f key))).bucket c).key ≠ INVALID
    rw [hc]
    exact hk.1
  · change topBits (H.f ((st.segs (st.route (H.f key))).bucket c).key) _ = _
    rw [hc]
    exact h.route_self hd (H.f key)

end Routing

/-! ### Storing a pair -/

theorem findSlot_spec (H : HashFuncs) (s : Segment) (key : Key) (loc : Slot)
    (h : findSlot H s key = some loc) :
    loc ∈ windows H key ∧ ¬ s.Live H (topBits (H.f key) s.localDepth) loc := by
  refine ⟨List.mem_of_find?_eq_some h, ?_⟩
  have hr := List.find?_some h
  have hreuse := of_decide_eq_true hr
  rintro ⟨hocc, hpat⟩
  rcases hreuse.1 with hne | hinv
  · exact hne hpat
  · exact hocc hinv

section Steps
variable {b : Build} {H : HashFuncs} {calls : List (Key × Value)} {st st' : CCEH}

theorem Contents.put (h : Contents H calls st) (hd : st.curDir.depth ≤ 63) (key : Key)
    (value : Value) (hk : ValidKey key) (loc : Slot)
    (hf : findSlot H (st.segs (st.route (H.f key))) key = some loc) :
    Contents H (calls ++ [(key, value)]) (st.put (H.f key) loc ⟨key, value⟩) := by
  obtain ⟨hwin, hdead⟩ := findSlot_spec H _ key loc hf
  have hold : ∀ q c, q ≠ st.route (H.f key) ∨ c ≠ loc →
      ((st.put (H.f key) loc ⟨key, value⟩).segs q).bucket c = (st.segs q).bucket c := by
    intro q c hne
    by_cases hq : q = st.route (H.f key)
    · have hc : c ≠ loc := hne.resolve_left (fun hx => hx hq)
      rw [hq, CCEH.put, CCEH.setSeg_segs_self, Segment.setPair_of_ne _ _ _ _ hc]
    · rw [CCEH.put, CCEH.setSeg_segs_of_ne _ _ _ _ hq]
  have hnew : ((st.put (H.f key) loc ⟨key, value⟩).segs (st.route (H.f key))).bucket loc =
      ⟨key, value⟩ := by
    rw [CCEH.put, CCEH.setSeg_segs_self, Segment.setPair_self]
  have hdepth := st.put_localDepth (H.f key) loc ⟨key, value⟩
  -- a live slot is the new one or was live before
  have hlive : ∀ i c, (st.put (H.f key) loc ⟨key, value⟩).LiveAt H i c →
      (st.curDir.segment i = st.route (H.f key) ∧ c = loc) ∨
      (st.LiveAt H i c ∧ ((st.put (H.f key) loc ⟨key, value⟩).segs
        (st.curDir.segment i)).bucket c = (st.segs (st.curDir.segment i)).bucket c) := by
    intro i c hl
    by_cases hn : st.curDir.segment i = st.route (H.f key) ∧ c = loc
    · exact Or.inl hn
    · have hkeep := hold (st.curDir.segment i) c (by
        by_cases hq : st.curDir.segment i = st.route (H.f key)
        · exact Or.inr (fun hc => hn ⟨hq, hc⟩)
        · exact Or.inl hq)
      refine Or.inr ⟨?_, hkeep⟩
      change ((st.put (H.f key) loc ⟨key, value⟩).segs (st.curDir.segment i)).Live H
        (i / 2 ^ (st.curDir.depth - ((st.put (H.f key) loc ⟨key, value⟩).segs
          (st.curDir.segment i)).localDepth)) c at hl
      unfold CCEH.LiveAt
      unfold Segment.Live Segment.Occupied at hl ⊢
      rw [hkeep, hdepth] at hl
      exact hl
  refine ⟨h.dir.put (H.f key) loc ⟨key, value⟩, ?_, ?_, ?_, ?_⟩
  · intro p hp
    rcases List.mem_append.mp hp with hp | hp
    · exact h.valid p hp
    · rw [List.mem_singleton.mp hp]
      exact hk
  · intro i hi c hl
    change c ∈ windows H (((st.put (H.f key) loc ⟨key, value⟩).segs
      (st.curDir.segment i)).bucket c).key
    rcases hlive i c hl with ⟨hq, hc⟩ | ⟨hl, he⟩
    · rw [hq, hc, hnew]
      exact hwin
    · rw [he]
      exact h.seated i hi c hl
  · intro i hi c hl
    change ((((st.put (H.f key) loc ⟨key, value⟩).segs (st.curDir.segment i)).bucket c).key,
      (((st.put (H.f key) loc ⟨key, value⟩).segs (st.curDir.segment i)).bucket c).value) ∈ _
    rcases hlive i c hl with ⟨hq, hc⟩ | ⟨hl, he⟩
    · rw [hq, hc, hnew]
      exact List.mem_append_right _ (List.mem_singleton.mpr rfl)
    · rw [he]
      exact List.mem_append_left _ (h.genuine i hi c hl)
  · intro p hp
    change ∃ c, ((st.put (H.f key) loc ⟨key, value⟩).segs (st.route (H.f p.1))).bucket c = _
    rcases List.mem_append.mp hp with hp | hp
    · obtain ⟨c, hc⟩ := h.present p hp
      have hlp := h.dir.liveAt_of_key (H := H) (by omega) p.1 (h.valid p hp) c (by rw [hc])
      refine ⟨c, ?_⟩
      rw [hold _ c, hc]
      -- the new slot was not live, the old pair's slot was
      by_cases hq : st.route (H.f p.1) = st.route (H.f key)
      · refine Or.inr (fun he => hdead ?_)
        have hpat := h.dir.route_self (by omega) (H.f key)
        have hsame := (h.dir.route_pattern (by omega) (H.f p.1) _
          (route_index_lt st (H.f key) (by omega))).mp hq
        refine ⟨?_, ?_⟩
        · have ho := hlp.1
          change ((st.segs (st.route (H.f p.1))).bucket c).key ≠ INVALID at ho
          rw [hq, he] at ho
          exact ho
        · rw [hq] at hc
          rw [← he, hc, hpat]
          exact hsame
      · exact Or.inl hq
    · rw [List.mem_singleton.mp hp]
      exact ⟨loc, hnew⟩

/-! ### Splitting -/

/-- A live slot of a half comes from a live slot of the split segment and lies in
a window of its key. -/
theorem SplitResult.live_source (r : SplitResult b H st (H.f key) target st') (bit : Bool)
    (pattern : ℕ) (hl : (st.segs target).localDepth ≤ 63)
    (hseat : ∀ c, (st.segs target).Live H (pattern / 2) c →
      c ∈ windows H ((st.segs target).bucket c).key)
    (c : Slot) (hlive : (st'.segs (st.half b target bit)).Live H pattern c) :
    ∃ j, (st.segs target).Live H (pattern / 2) j ∧
      (st'.segs (st.half b target bit)).bucket c = (st.segs target).bucket j ∧
      c ∈ windows H ((st.segs target).bucket j).key := by
  obtain ⟨hocc, hpat⟩ := hlive
  rw [(r.half_level bit).1] at hpat
  have hcoarse : ∀ f_hash, topBits f_hash ((st.segs target).localDepth + 1) = pattern →
      topBits f_hash (st.segs target).localDepth = pattern / 2 := by
    intro f_hash he
    rw [← he, topBits_half f_hash _ hl]
  rcases st.half_cases b target bit with ⟨hb, _, he⟩ | ⟨hc, _⟩
  · rw [he, r.kept hb] at hocc hpat ⊢
    have hlj : (st.segs target).Live H (pattern / 2) c := ⟨hocc, hcoarse _ hpat⟩
    exact ⟨c, hlj, rfl, hseat c hlj⟩
  · obtain ⟨j, hm, hcopy, hwin⟩ := (r.copied bit hc).copyOf.source c hocc
    rw [hcopy] at hpat
    exact ⟨j, ⟨hm.1, hcoarse _ hpat⟩, hcopy, hwin⟩

/-- A hash of the split segment is routed to the half of its next bit. -/
theorem SplitResult.route_moved {f_hash k_hash : BitVec 64}
    (r : SplitResult b H st f_hash (st.route f_hash) st')
    (h : AtRest st) (hd : st'.curDir.depth ≤ 64) (hk : st.route k_hash = st.route f_hash) :
    st'.route k_hash = st.half b (st.route f_hash)
      (nextBit k_hash (st.segs (st.route f_hash)).localDepth) := by
  have hold := r.depth_old_le hd
  have hx := route_index_lt st f_hash hold
  have hbounds := st.grownDepth_bounds (st.route f_hash)
  rw [← r.depth] at hbounds
  have hle : (st.segs (st.route f_hash)).localDepth ≤ st.curDir.depth :=
    h.consistent.blocked.level_le _ hx
  have hroom := st.grown_room (st.route f_hash) hle
  rw [← r.depth] at hroom
  have hcase := r.entry_cases h hd _ (route_index_lt st' k_hash (by omega))
  rw [topBits_coarser k_hash _ _ hbounds.1 (by omega)] at hcase
  obtain ⟨_, ⟨_, bit, he, hbit⟩ | ⟨hne, _⟩⟩ := hcase
  · have hroute : st'.route k_hash = st.half b (st.route f_hash) bit := he
    rw [topBits_coarser _ _ _ (by omega) (by omega)] at hbit
    have hnext : nextBit k_hash (st.segs (st.route f_hash)).localDepth = bit := by
      rw [nextBit_eq _ _ (by omega), Bool.eq_iff_iff, decide_eq_true_iff]
      exact hbit.symm
    rw [hroute, hnext]
  · exact absurd hk hne

/-- Hashes of the other segments are routed as before. -/
theorem SplitResult.route_other {f_hash k_hash : BitVec 64}
    (r : SplitResult b H st f_hash (st.route f_hash) st')
    (h : AtRest st) (hd : st'.curDir.depth ≤ 64) (hk : st.route k_hash ≠ st.route f_hash) :
    st'.route k_hash = st.route k_hash ∧
      st'.segs (st.route k_hash) = st.segs (st.route k_hash) := by
  have hbounds := st.grownDepth_bounds (st.route f_hash)
  rw [← r.depth] at hbounds
  have hcase := r.entry_cases h hd _ (route_index_lt st' k_hash (by omega))
  rw [topBits_coarser k_hash _ _ hbounds.1 (by omega)] at hcase
  obtain ⟨hlt, ⟨hsrc, _⟩ | ⟨_, he⟩⟩ := hcase
  · exact absurd hsrc hk
  · exact ⟨he, r.other _ (h.rest.allocated _ hlt).2 hk⟩

/-- A key that the split segment or another one holds is in the segment it is
routed to after the split. -/
theorem SplitResult.key_kept {f_hash : BitVec 64}
    (r : SplitResult b H st f_hash (st.route f_hash) st')
    (h : AtRest st) (hd : st'.curDir.depth ≤ 64)
    (hfit : (st.segs (st.route f_hash)).SplitFits b H
      (topBits f_hash (st.segs (st.route f_hash)).localDepth))
    (k : Key) (hk : k ≠ INVALID) (c : Slot)
    (hc : ((st.segs (st.route (H.f k))).bucket c).key = k) :
    ∃ c', (st'.segs (st'.route (H.f k))).bucket c' = (st.segs (st.route (H.f k))).bucket c ∧
      (c ∈ windows H k → c' ∈ windows H k) := by
  have hold := r.depth_old_le hd
  have hx := route_index_lt st f_hash hold
  by_cases hsrc : st.route (H.f k) = st.route f_hash
  · rw [hsrc] at hc
    rw [hsrc, r.route_moved h hd hsrc]
    generalize hnext : nextBit (H.f k) (st.segs (st.route f_hash)).localDepth = bit
    rcases st.half_cases b (st.route f_hash) bit with ⟨hb, _, hh⟩ | ⟨hcp, _⟩
    · rw [hh, r.kept hb]
      exact ⟨c, rfl, id⟩
    · -- the pair moves to the half its hash will be routed to
      have hpat := h.route_self hold f_hash
      have hsame := (h.route_pattern hold (H.f k) _ hx).mp hsrc
      have hocc : (st.segs (st.route f_hash)).Occupied c := by
        rw [Segment.Occupied, hc]
        exact hk
      obtain ⟨c', hc'⟩ := (r.copied bit hcp).live_copied hcp _ hfit c
        ⟨hocc, by rw [hc, hpat]; exact hsame⟩ ⟨hocc, by rw [hc]; exact hnext⟩
      refine ⟨c', hc', fun _ => ?_⟩
      have hocc' : (st'.segs (st.half b (st.route f_hash) bit)).Occupied c' := by
        rw [Segment.Occupied, hc', hc]
        exact hk
      obtain ⟨j, _, hcopy, hwin⟩ := (r.copied bit hcp).copyOf.source c' hocc'
      rw [← hcopy, hc', hc] at hwin
      exact hwin
  · obtain ⟨hroute, hseg⟩ := r.route_other h hd hsrc
    refine ⟨c, ?_, id⟩
    rw [hroute, hseg]

theorem Contents.split (h : Contents H calls st) (hd : st.curDir.depth ≤ 63) (key : Key)
    (hfit : (st.segs (st.route (H.f key))).SplitFits b H
      (topBits (H.f key) (st.segs (st.route (H.f key))).localDepth))
    (r : SplitResult b H st (H.f key) (st.route (H.f key)) st') : Contents H calls st' := by
  have hx := route_index_lt st (H.f key) (by omega)
  have hentry := r.entry_cases h.dir.toAtRest (r.depth_le hd)
  have hbounds := st.grownDepth_bounds (st.route (H.f key))
  rw [← r.depth] at hbounds
  have hroom := st.grown_room (st.route (H.f key)) (h.dir.consistent.blocked.level_le _ hx)
  rw [← r.depth] at hroom
  have hle : (st.segs (st.route (H.f key))).localDepth ≤ st.curDir.depth :=
    h.dir.consistent.blocked.level_le _ hx
  -- where a live slot of the new pool was live before
  have horigin : ∀ i < 2 ^ st'.curDir.depth, ∀ c, st'.LiveAt H i c →
      ∃ i' < 2 ^ st.curDir.depth, ∃ c', st.LiveAt H i' c' ∧
        (st'.segs (st'.curDir.segment i)).bucket c =
          (st.segs (st.curDir.segment i')).bucket c' ∧
        c ∈ windows H ((st.segs (st.curDir.segment i')).bucket c').key := by
    intro i hi c hl
    obtain ⟨hlt, ⟨hsrc, bit, he, _⟩ | ⟨hne, he⟩⟩ := hentry i hi
    · unfold CCEH.LiveAt at hl
      rw [he, (r.half_level bit).1] at hl
      have hpat : i / 2 ^ (st'.curDir.depth - ((st.segs (st.route (H.f key))).localDepth + 1)) / 2 =
          i / 2 ^ (st'.curDir.depth - st.curDir.depth) /
            2 ^ (st.curDir.depth - (st.segs (st.route (H.f key))).localDepth) := by
        rw [← half_block _ _ _ hroom, Nat.div_div_eq_div_mul, ← pow_add]
        congr 2
        omega
      have hseat : ∀ c, (st.segs (st.route (H.f key))).Live H
          (i / 2 ^ (st'.curDir.depth - ((st.segs (st.route (H.f key))).localDepth + 1)) / 2) c →
          c ∈ windows H ((st.segs (st.route (H.f key))).bucket c).key := by
        intro c hc
        have hs := h.seated _ hlt c
        unfold CCEH.LiveAt at hs
        rw [hsrc, ← hpat] at hs
        exact hs hc
      obtain ⟨j, hj, hbucket, hwin⟩ := r.live_source bit _ (by omega) hseat c hl
      refine ⟨_, hlt, j, ?_, ?_, ?_⟩
      · unfold CCEH.LiveAt
        rw [hsrc, ← hpat]
        exact hj
      · rw [he, hsrc]
        exact hbucket
      · rw [hsrc]
        exact hwin
    · have hseg := r.other _ (h.dir.rest.allocated _ hlt).2 hne
      have hlev := h.dir.consistent.blocked.level_le _ hlt
      unfold CCEH.LiveAt at hl
      rw [he, hseg] at hl
      have hpat : i / 2 ^ (st'.curDir.depth - (st.segs (st.curDir.segment
          (i / 2 ^ (st'.curDir.depth - st.curDir.depth)))).localDepth) =
          i / 2 ^ (st'.curDir.depth - st.curDir.depth) / 2 ^ (st.curDir.depth - (st.segs
            (st.curDir.segment (i / 2 ^ (st'.curDir.depth - st.curDir.depth)))).localDepth) := by
        rw [Nat.div_div_eq_div_mul, ← pow_add]
        congr 2
        omega
      rw [hpat] at hl
      refine ⟨_, hlt, c, hl, ?_, h.seated _ hlt c hl⟩
      rw [he, hseg]
  refine ⟨r.directoryInvariant h.dir (r.depth_le hd), h.valid, ?_, ?_, ?_⟩
  · intro i hi c hl
    obtain ⟨i', _, c', _, hb, hw⟩ := horigin i hi c hl
    rw [hb]
    exact hw
  · intro i hi c hl
    obtain ⟨i', hi', c', hl', hb, _⟩ := horigin i hi c hl
    rw [hb]
    exact h.genuine i' hi' c' hl'
  · intro p hp
    obtain ⟨c, hc⟩ := h.present p hp
    obtain ⟨c', hc', _⟩ := r.key_kept h.dir.toAtRest (r.depth_le hd) hfit p.1 (h.valid p hp).1 c (by rw [hc])
    exact ⟨c', hc'.trans hc⟩

/-! ### Lookup -/

/-- At rest `get` scans the routed segment. -/
theorem AtRest.get_eq (h : AtRest st) (hd : st.curDir.depth ≤ 64)
    (key : Key) : get b H st key = match (st.segs (st.route (H.f key))).scan H key with
      | some loc => some ((st.segs (st.route (H.f key))).bucket loc).value
      | none => some NONE := by
  have hx := route_index_lt st (H.f key) (by omega)
  have hds := h.rest.dir_sema
  have hss : (st.segs (st.route (H.f key))).sema = 0 := h.rest.seg_sema _ hx
  have hnull : st.route (H.f key) ≠ OID_NULL := (h.rest.allocated _ hx).1
  have hdir : ¬ st.curDir.sema < 0 := by omega
  have hseg : ¬ (st.route (H.f key) = OID_NULL ∨
      b = .inplace ∧ (st.segs (st.route (H.f key))).sema < 0) := by
    rintro (hn | ⟨_, hs⟩)
    · exact hnull hn
    · omega
  unfold get
  rw [if_neg hdir]
  exact if_neg hseg

theorem AtRest.get_some (h : AtRest st) (hd : st.curDir.depth ≤ 64) (key : Key) :
    ∃ v, get b H st key = some v := by
  rw [h.get_eq hd]
  cases (st.segs (st.route (H.f key))).scan H key with
  | some loc => exact ⟨_, rfl⟩
  | none => exact ⟨_, rfl⟩

theorem Segment.scan_isSome (H : HashFuncs) (s : Segment) (key : Key) :
    (s.scan H key).isSome ↔ ∃ c ∈ windows H key, (s.bucket c).key = key := by
  rw [scan, List.find?_isSome]
  simp only [decide_eq_true_eq]

/-- A hit of the scan holds the key. -/
theorem Segment.scan_key (H : HashFuncs) (s : Segment) (key : Key) (loc : Slot)
    (h : s.scan H key = some loc) : (s.bucket loc).key = key := by
  rw [scan] at h
  have hfound := List.find?_some h
  exact of_decide_eq_true hfound

theorem Contents.get_of_mem (h : Contents H calls st) (hd : st.curDir.depth ≤ 63)
    (distinct : (calls.map Prod.fst).Nodup) (p : Key × Value) (hp : p ∈ calls) :
    get b H st p.1 = some p.2 := by
  have hx := route_index_lt st (H.f p.1) (by omega)
  have hv := h.valid p hp
  obtain ⟨c, hc⟩ := h.present p hp
  have hwin : c ∈ windows H p.1 := by
    have hs := h.seated _ hx c (h.dir.liveAt_of_key (by omega) p.1 hv c (by rw [hc]))
    change c ∈ windows H ((st.segs (st.route (H.f p.1))).bucket c).key at hs
    rw [hc] at hs
    exact hs
  rw [h.dir.get_eq (by omega)]
  cases hscan : (st.segs (st.route (H.f p.1))).scan H p.1 with
  | none =>
    have hno := List.find?_eq_none.mp hscan c hwin
    rw [hc] at hno
    exact absurd (decide_eq_true rfl) hno
  | some loc =>
    have hkey := Segment.scan_key H _ _ loc hscan
    have hg : (((st.segs (st.route (H.f p.1))).bucket loc).key,
        ((st.segs (st.route (H.f p.1))).bucket loc).value) ∈ calls :=
      h.genuine _ hx loc (h.dir.liveAt_of_key (by omega) p.1 hv loc hkey)
    rw [hkey] at hg
    -- two calls with one key are the same call
    have hsame := List.inj_on_of_nodup_map distinct hg hp rfl
    dsimp only
    rw [← hsame]

/-- A key that was not inserted is not found. -/
theorem Contents.get_of_not_mem (h : Contents H calls st) (hd : st.curDir.depth ≤ 63)
    (key : Key) (hk : ValidKey key) (hnew : key ∉ calls.map Prod.fst) :
    get b H st key = some NONE := by
  have hx := route_index_lt st (H.f key) (by omega)
  rw [h.dir.get_eq (by omega)]
  cases hscan : (st.segs (st.route (H.f key))).scan H key with
  | none => rfl
  | some loc =>
    have hkey := Segment.scan_key H _ _ loc hscan
    have hg : (((st.segs (st.route (H.f key))).bucket loc).key,
        ((st.segs (st.route (H.f key))).bucket loc).value) ∈ calls :=
      h.genuine _ hx loc (h.dir.liveAt_of_key (by omega) key hk loc hkey)
    rw [hkey] at hg
    exact absurd (List.mem_map_of_mem hg) hnew

end Steps

/-! ### Whole runs -/

theorem InitUpTo.contents {st : CCEH} {depth : ℕ} (H : HashFuncs)
    (h : InitUpTo depth (2 ^ depth) st) (hd : 1 ≤ depth) : Contents H [] st := by
  have hempty : ∀ i < 2 ^ st.curDir.depth, ∀ c, ¬ st.LiveAt H i c := by
    intro i hi c hl
    rw [h.depth_eq] at hi
    have ho := hl.1
    rw [Segment.Occupied, h.entry i hi] at ho
    exact ho ((h.seg i hi).2.2 c)
  refine ⟨h.directoryInvariant hd, ?_, ?_, ?_, ?_⟩
  · intro p hp
    cases hp
  · intro i hi c hl
    exact absurd hl (hempty i hi c)
  · intro i hi c hl
    exact absurd hl (hempty i hi c)
  · intro p hp
    cases hp

section Run
variable {b : Build} {H : HashFuncs} {Ok : CCEH → Key → Prop}

/-- A call that returns has stored its pair in its last pass. -/
theorem Returns.last_pass {st st' : CCEH} {key : Key} {value : Value}
    (call : Returns b H Ok st key value st') (h : DirectoryInvariant st) :
    ∃ st1 loc, DirectoryInvariant st1 ∧ st1.curDir.depth ≤ maxDepth ∧
      findSlot H (st1.segs (st1.route (H.f key))) key = some loc ∧
      st' = st1.put (H.f key) loc ⟨key, value⟩ := by
  obtain ⟨st1, hre, hd, _, hpass⟩ := call
  have h1 : DirectoryInvariant st1 := retried_preserves DirectoryInvariant key value
    (fun s s' hi hd _ hp => (insertPass_again_invariant s s' key value hi hd hp).2.2) st st1 hre h
  obtain ⟨loc, hf, he⟩ := insertPass_done_put st1 st' key value h1 hd hpass
  exact ⟨st1, loc, h1, hd, hf, he⟩

theorem Run.depth_le {start st : CCEH} {calls : List (Key × Value)}
    (run : Run b H Ok start calls st) (h0 : DirectoryInvariant start)
    (hs : start.curDir.depth ≤ maxDepth) : st.curDir.depth ≤ maxDepth := by
  cases run with
  | start => exact hs
  | insert calls st1 st key value before _ call =>
    obtain ⟨st2, loc, _, hd, _, he⟩ :=
      call.last_pass (run_directoryInvariant start h0 calls st1 before)
    rw [he]
    exact hd

theorem run_contents {start st : CCEH} {calls : List (Key × Value)} (h0 : Contents H [] start)
    (run : Run b H (RoomInSplit b H) start calls st) : Contents H calls st := by
  refine run_preserves (fun calls st => Contents H calls st) start h0 ?_ ?_ calls st run
  · intro calls st st' key value _ hi hd ok hp
    obtain ⟨hf, hr, _⟩ := insertPass_again_invariant st st' key value hi.dir hd hp
    exact hi.split (hd.trans (by decide)) key (ok hf) hr
  · intro calls st st' key value hv hi hd _ hp
    obtain ⟨loc, hf, he⟩ := insertPass_done_put st st' key value hi.dir hd hp
    rw [he]
    exact hi.put (hd.trans (by decide)) key value hv loc hf

/-- The table is the finite map of the inserted pairs. -/
theorem run_get (segs : ℕ → Segment) (dirs : ℕ → Directory) (n : ℕ) (hn : 1 ≤ n)
    (hmax : n ≤ maxDepth) (calls : List (Key × Value)) (st : CCEH)
    (run : Run b H (RoomInSplit b H) (initCCEH (freshPool segs dirs) (2 ^ n)) calls st)
    (distinct : (calls.map Prod.fst).Nodup) :
    (∀ p ∈ calls, get b H st p.1 = some p.2) ∧
      ∀ key, ValidKey key → key ∉ calls.map Prod.fst → get b H st key = some NONE := by
  have hinit := initCCEH_spec segs dirs n
  have hc := run_contents (hinit.contents H hn) run
  have hd := run.depth_le (hinit.directoryInvariant hn) (by rw [hinit.depth_eq]; exact hmax)
  have hd' : st.curDir.depth ≤ 63 := hd.trans (by decide)
  exact ⟨fun p hp => hc.get_of_mem hd' distinct p hp,
    fun key hk hnew => hc.get_of_not_mem hd' key hk hnew⟩

end Run

end PmemStudy.Cceh
