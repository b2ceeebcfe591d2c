import Mathlib.Data.Nat.Count
import PmemStudy.Cceh.Contents

/-!
# Inserted pairs and `Get`

With room in every split the inserted pairs are found, in both builds. The
room is needed: a split of 64 pairs that all start at one window keeps the
32 that come first in slot order, and nothing reports the others.
-/

namespace PmemStudy.Cceh
open PmemStudy.AlignedBlocks PmemStudy.FirstFit

/-! ### Probes -/

/-- Slot `j` of the 64 that `Insert` and `Get` look at. -/
def probe (H : HashFuncs) (key : Key) (j : ℕ) : Slot :=
  if j < 32 then slotAt (windowIdx (H.f key)) j else slotAt (windowIdx (H.s key)) (j - 32)

theorem windows_eq (H : HashFuncs) (key : Key) :
    windows H key = (List.range 64).map (probe H key) := by
  have hr : List.range 64 = List.range 32 ++ (List.range 32).map (32 + ·) := by decide
  have hn : kNumPairPerCacheLine * kNumCacheLine = 32 := rfl
  rw [windows, window, window, hn, hr, List.map_append, List.map_map]
  refine congrArg₂ _ ?_ ?_
  · apply List.map_congr_left
    intro j hj
    rw [probe, if_pos (List.mem_range.mp hj)]
  · apply List.map_congr_left
    intro j _
    have h1 : ¬ 32 + j < 32 := by omega
    have h2 : 32 + j - 32 = j := by omega
    rw [Function.comp_apply, probe, if_neg h1, h2]

theorem findSlot_first (H : HashFuncs) (s : Segment) (key : Key) (j : ℕ) (hj : j < 64)
    (hfree : reusable H s (topBits (H.f key) s.localDepth) (probe H key j) = true)
    (htaken : ∀ i < j, reusable H s (topBits (H.f key) s.localDepth) (probe H key i) = false) :
    findSlot H s key = some (probe H key j) := by
  have hlen : ((List.range 64).map (probe H key)).length = 64 := by
    rw [List.length_map, List.length_range]
  rw [findSlot, windows_eq, List.find?_eq_some_iff_getElem]
  refine ⟨hfree, j, by rw [hlen]; exact hj, ?_, ?_⟩
  · rw [List.getElem_map, List.getElem_range]
  · intro i hi
    rw [List.getElem_map, List.getElem_range, htaken i hi]
    rfl

theorem findSlot_none (H : HashFuncs) (s : Segment) (key : Key)
    (htaken : ∀ i < 64, reusable H s (topBits (H.f key) s.localDepth) (probe H key i) = false) :
    findSlot H s key = none := by
  rw [findSlot, windows_eq, List.find?_eq_none]
  intro c hc
  obtain ⟨i, hi, rfl⟩ := List.mem_map.mp hc
  rw [htaken i (List.mem_range.mp hi)]
  exact Bool.false_ne_true

theorem reusable_false (H : HashFuncs) (s : Segment) (pattern : ℕ) (loc : Slot)
    (h : s.Live H pattern loc) : reusable H s pattern loc = false := by
  rw [reusable, decide_eq_false_iff_not]
  rintro ⟨hne | hinv, _⟩
  · exact hne h.2
  · exact h.1 hinv

/-- A pair without a place is in no slot of the copy. -/
theorem CopiedHalf.dropped {b : Build} {H : HashFuncs} {src dst : Segment} {bit : Bool}
    (h : CopiedHalf b H src bit dst) (pos : Slot → Option Slot)
    (hp : Placement (fun p => candidates b H (src.bucket p).key) (src.Moves H bit) pos)
    (i : Slot) (hi : pos i = none) (hocc : src.Occupied i)
    (hone : ∀ j, (src.bucket j).key = (src.bucket i).key → j = i) (c : Slot) :
    (dst.bucket c).key ≠ (src.bucket i).key := by
  obtain ⟨pos', hp', hh⟩ := h.placement
  have he : pos' = pos := hp'.unique hp
  subst pos'
  intro hc
  have hplaced : ∃ j, pos j = some c := by
    by_contra hn
    have hinv := hh.free c (fun j hj => hn ⟨j, hj⟩)
    rw [hc] at hinv
    exact hocc hinv
  obtain ⟨j, hj⟩ := hplaced
  rw [hh.placed j c hj] at hc
  rw [hone j hc, hi] at hj
  cases hj

theorem insertPass_of_findSlot (b : Build) (H : HashFuncs) (st : CCEH) (key : Key) (value : Value)
    (h : DirectoryInvariant st) (hd : st.curDir.depth ≤ maxDepth) (loc : Slot)
    (hf : findSlot H (st.segs (st.route (H.f key))) key = some loc) :
    insertPass b H st key value = .done (st.put (H.f key) loc ⟨key, value⟩) := by
  rcases insertPass_rest b H st key value h.consistent h.rest (hd.trans (by decide))
    (fun _ => st.grownDepth_le _ (hd.trans (by decide))) with
    ⟨loc', hf', hdone⟩ | ⟨hf', _⟩
  · rw [hf] at hf'
    cases hf'
    exact hdone
  · rw [hf] at hf'
    cases hf'

/-! ### A window that fills up -/

theorem slotAt_val (loc i : ℕ) (h : loc + i < 1024) : (slotAt loc i).val = loc + i := by
  change (loc + i) % kNumSlot = loc + i
  rw [kNumSlot_eq]
  omega

theorem mem_window_iff (loc : ℕ) (c : Slot) : c ∈ window loc ↔ ∃ j < 32, c = slotAt loc j := by
  have hn : kNumPairPerCacheLine * kNumCacheLine = 32 := rfl
  rw [window, hn, List.mem_map]
  constructor
  · rintro ⟨j, hj, he⟩
    exact ⟨j, List.mem_range.mp hj, he.symm⟩
  · rintro ⟨j, hj, he⟩
    exact ⟨j, List.mem_range.mpr hj, he.symm⟩

theorem window_split (loc i : ℕ) (hi : i < 32) :
    ∃ post, window loc = (List.range i).map (slotAt loc) ++ slotAt loc i :: post := by
  have hn : kNumPairPerCacheLine * kNumCacheLine = i + (1 + (31 - i)) := by
    change 32 = _
    omega
  refine ⟨(List.range (31 - i)).map fun j => slotAt loc (i + (1 + j)), ?_⟩
  rw [window, hn, List.range_add, List.range_add, List.map_append, List.map_append]
  simp only [List.range_one, List.map_cons, List.map_nil, List.singleton_append, List.map_map,
    Function.comp_def, Nat.add_zero]

/-- The window at slot `w` goes to the pairs of slots 0 to 31. -/
def firstPos (w : ℕ) (p : Slot) : Option Slot := if p.val < 32 then some (slotAt w p.val) else none

/-- First fit when every pair starts at one window and the pairs behind slot 31
have no other. -/
theorem window_placement (w m : ℕ) (hw : w + 32 ≤ 1024) (hm : 32 ≤ m) (hm' : m ≤ 1024)
    (cand : Slot → List Slot) (item : Slot → Prop) (hitem : ∀ p, item p ↔ p.val < m)
    (hcand : ∀ p, p.val < m → ∃ rest, cand p = window w ++ rest ∧
      (32 ≤ p.val → ∀ c ∈ rest, c ∈ window w)) : Placement cand item (firstPos w) := by
  have hslot : ∀ j < 32, (slotAt 0 j).val = j := by
    intro j hj
    rw [slotAt_val 0 j (by omega), Nat.zero_add]
  have hpos : ∀ j < 32, firstPos w (slotAt 0 j) = some (slotAt w j) := by
    intro j hj
    rw [firstPos, hslot j hj, if_pos hj]
  constructor
  · intro p hp
    have hlt : ¬ p.val < 32 := fun hlt => hp ((hitem p).mpr (by omega))
    rw [firstPos, if_neg hlt]
  · intro p c hc
    by_cases hlt : p.val < 32
    · rw [firstPos, if_pos hlt] at hc
      cases hc
      obtain ⟨rest, hcp, _⟩ := hcand p (by omega)
      obtain ⟨post, hwindow⟩ := window_split w p.val hlt
      refine ⟨(List.range p.val).map (slotAt w), post ++ rest, ?_, ?_, ?_⟩
      · rw [hcp, hwindow, List.append_assoc, List.cons_append]
      · -- the slots of the window before this one went to the slots before `p`
        intro c' hc'
        obtain ⟨j, hj, rfl⟩ := List.mem_map.mp hc'
        have hj' := List.mem_range.mp hj
        refine ⟨slotAt 0 j, ?_, hpos j (by omega)⟩
        rw [Fin.lt_def, hslot j (by omega)]
        exact hj'
      · intro q hq hqc
        rw [Fin.lt_def] at hq
        rw [firstPos, if_pos (by omega)] at hqc
        have hv := congrArg Fin.val (Option.some.inj hqc)
        rw [slotAt_val w q.val (by omega), slotAt_val w p.val (by omega)] at hv
        omega
    · rw [firstPos, if_neg hlt] at hc
      cases hc
  · intro p hp hnone c hc
    have hpm := (hitem p).mp hp
    have hge : ¬ p.val < 32 := by
      intro hlt
      rw [firstPos, if_pos hlt] at hnone
      cases hnone
    obtain ⟨rest, hcp, hrest⟩ := hcand p hpm
    rw [hcp] at hc
    have hwin : c ∈ window w := by
      rcases List.mem_append.mp hc with hc | hc
      · exact hc
      · exact hrest (by omega) c hc
    obtain ⟨j, hj, rfl⟩ := (mem_window_iff w c).mp hwin
    refine ⟨slotAt 0 j, ?_, hpos j hj⟩
    rw [Fin.lt_def, hslot j hj]
    omega

/-- A count passes through every smaller number. -/
theorem exists_count_eq (P : ℕ → Prop) [DecidablePred P] {i j : ℕ} (h : j < Nat.count P i) :
    ∃ k < i, P k ∧ Nat.count P k = j := by
  induction i with
  | zero => exact absurd h (by simp)
  | succ i ih =>
    by_cases hlt : j < Nat.count P i
    · obtain ⟨k, hk, hcount⟩ := ih hlt
      exact ⟨k, by omega, hcount⟩
    · by_cases hP : P i
      · rw [Nat.count_succ, if_pos hP] at h
        exact ⟨i, Nat.lt_succ_self i, hP, by omega⟩
      · rw [Nat.count_succ, if_neg hP] at h
        omega

/-- First fit when every item has its first window at slot `w` and `rank` counts the items in
front of it. -/
theorem ranked_placement (w : ℕ) (hw : w + 32 ≤ 1024) (cand : Slot → List Slot)
    (item : Slot → Prop) [DecidablePred item] (rank : Slot → ℕ) (hlt : ∀ p, item p → rank p < 32)
    (hmono : ∀ p q, item p → item q → q < p → rank q < rank p)
    (hfill : ∀ p, item p → ∀ j < rank p, ∃ q < p, item q ∧ rank q = j)
    (hcand : ∀ p, item p → ∃ rest, cand p = window w ++ rest) :
    Placement cand item fun p => if item p then some (slotAt w (rank p)) else none := by
  constructor
  · intro p hp
    exact if_neg hp
  · intro p c hc
    obtain ⟨hp, hc⟩ := Option.ite_none_right_eq_some.mp hc
    cases hc
    obtain ⟨rest, hcp⟩ := hcand p hp
    obtain ⟨post, hwindow⟩ := window_split w (rank p) (hlt p hp)
    refine ⟨(List.range (rank p)).map (slotAt w), post ++ rest, ?_, ?_, ?_⟩
    · rw [hcp, hwindow, List.append_assoc, List.cons_append]
    · intro c' hc'
      obtain ⟨j, hj, rfl⟩ := List.mem_map.mp hc'
      obtain ⟨q, hq, hitem, rfl⟩ := hfill p hp j (List.mem_range.mp hj)
      exact ⟨q, hq, if_pos hitem⟩
    · intro q hq hqc
      obtain ⟨hitem, hqc⟩ := Option.ite_none_right_eq_some.mp hqc
      have hv := congrArg Fin.val (Option.some.inj hqc)
      have hrank := hmono p q hp hitem hq
      have hp32 := hlt p hp
      rw [slotAt_val w _ (by omega), slotAt_val w _ (by omega)] at hv
      omega
  · intro p hp hnone
    rw [if_pos hp] at hnone
    cases hnone

/-! ### A table that fills up -/

def zeroSegment : Segment := ⟨fun _ => ⟨0, 0⟩, 0, 0⟩
def zeroDirectory : Directory := ⟨fun _ => 0, 0, 0, 0⟩

/-- `initCCEH(pop, 2)` on zeroed memory. -/
def smallTable : CCEH := initCCEH (freshPool (fun _ => zeroSegment) fun _ => zeroDirectory) (2 ^ 1)

/-- Keys 0 to 31 have both windows at slot 32, keys 32 to 63 the second one at
slot 0; key 64 has both at slot 32 and stays in the lower half. -/
def crowdedHash : HashFuncs where
  f key := if key = 64 then 8 else 0x4000000000000008
  s key := if key.toNat < 32 ∨ key = 64 then 8 else 0

def crowdedCalls (n : ℕ) : List (Key × Value) := (List.range n).map fun i => (BitVec.ofNat 64 i, 1)

/-- The slot that the pair of key `i` gets. -/
def crowdedSlot (i : ℕ) : Slot := if i < 32 then slotAt 32 i else slotAt 0 (i - 32)

theorem crowdedSlot_val (i : ℕ) (h : i < 64) :
    (crowdedSlot i).val = if i < 32 then 32 + i else i - 32 := by
  unfold crowdedSlot
  split
  · exact slotAt_val 32 i (by omega)
  · rw [slotAt_val 0 (i - 32) (by omega), Nat.zero_add]

theorem crowdedSlot_inj (i j : ℕ) (hi : i < 64) (hj : j < 64)
    (h : crowdedSlot i = crowdedSlot j) : i = j := by
  have hv := congrArg Fin.val h
  rw [crowdedSlot_val i hi, crowdedSlot_val j hj] at hv
  split at hv <;> split at hv <;> omega

theorem ofNat_toNat (i : ℕ) (h : i ≤ 64) : (BitVec.ofNat 64 i).toNat = i := by
  rw [BitVec.toNat_ofNat]
  omega

theorem ofNat_ne (i j : ℕ) (hi : i ≤ 64) (hj : j ≤ 64) (h : BitVec.ofNat 64 i = BitVec.ofNat 64 j) :
    i = j := by
  have ht := congrArg BitVec.toNat h
  rw [ofNat_toNat i hi, ofNat_toNat j hj] at ht
  exact ht

theorem ofNat_valid (i : ℕ) (h : i ≤ 64) : ValidKey (BitVec.ofNat 64 i) := by
  have hi := ofNat_toNat i h
  constructor
  · intro he
    have ht := congrArg BitVec.toNat he
    rw [hi] at ht
    have hv : INVALID.toNat = 2 ^ 64 - 1 := by decide
    omega
  · intro he
    have ht := congrArg BitVec.toNat he
    rw [hi] at ht
    have hv : SENTINEL.toNat = 2 ^ 64 - 2 := by decide
    omega

theorem crowded_f (i : ℕ) (h : i < 64) : crowdedHash.f (BitVec.ofNat 64 i) = 0x4000000000000008 := by
  have hne : ¬ BitVec.ofNat 64 i = 64 := fun he =>
    absurd (ofNat_ne i 64 (by omega) (le_refl _) he) (by omega)
  exact if_neg hne

theorem crowded_s (i : ℕ) (h : i < 64) :
    crowdedHash.s (BitVec.ofNat 64 i) = if i < 32 then 8 else 0 := by
  have hne : ¬ BitVec.ofNat 64 i = 64 := fun he =>
    absurd (ofNat_ne i 64 (by omega) (le_refl _) he) (by omega)
  simp only [crowdedHash, hne, or_false, ofNat_toNat i (by omega)]

theorem crowded_probe (i j : ℕ) (hi : i < 64) (hj : j ≤ i) :
    probe crowdedHash (BitVec.ofNat 64 i) j = crowdedSlot j := by
  have h8 : windowIdx (0x4000000000000008) = 32 := by decide
  have h0 : windowIdx 0 = 0 := by decide
  unfold probe crowdedSlot
  rw [crowded_f i hi, crowded_s i hi, h8]
  by_cases hlt : j < 32
  · rw [if_pos hlt, if_pos hlt]
  · have hge : ¬ i < 32 := by omega
    rw [if_neg hlt, if_neg hlt, if_neg hge, h0]

/-- Keys that `crowdedHash` leads to the slots of segment 1 in turn. -/
structure Fillable (keys : ℕ → Key) (n : ℕ) : Prop where
  valid : ∀ i < n, ValidKey (keys i)
  top : ∀ i < n, topBits (crowdedHash.f (keys i)) 1 = 0
  first : ∀ i < n, windowIdx (crowdedHash.f (keys i)) = 32
  probe : ∀ i < n, ∀ j ≤ i, Cceh.probe crowdedHash (keys i) j = crowdedSlot j

theorem Fillable.mono {keys : ℕ → Key} {m n : ℕ} (h : Fillable keys n) (hmn : m ≤ n) : Fillable keys m :=
  ⟨fun i hi => h.valid i (by omega), fun i hi => h.top i (by omega),
    fun i hi => h.first i (by omega), fun i hi => h.probe i (by omega)⟩

theorem fillable_crowded : Fillable (BitVec.ofNat 64) 64 := by
  refine ⟨fun i hi => ofNat_valid i (by omega), fun i hi => ?_, fun i hi => ?_,
    fun i hi j hj => crowded_probe i j hi hj⟩
  · rw [crowded_f i hi]
    decide
  · rw [crowded_f i hi]
    decide

/-- The first `n` keys are in segment 1, the rest of it is empty. -/
structure Filled (keys : ℕ → Key) (n : ℕ) (st : CCEH) : Prop where
  dir : DirectoryInvariant st
  depth : st.curDir.depth = 1
  entry : st.curDir.segment 0 = 1
  level : (st.segs 1).localDepth = 1
  taken : ∀ i < n, (st.segs 1).bucket (crowdedSlot i) = ⟨keys i, 1⟩
  free : ∀ c, (∀ i < n, c ≠ crowdedSlot i) → ((st.segs 1).bucket c).key = INVALID

/-- The table after the first `n` of the calls. -/
abbrev Crowded (n : ℕ) (st : CCEH) : Prop := Filled (BitVec.ofNat 64) n st

section Filled
variable {keys : ℕ → Key} {n : ℕ} {st : CCEH}

theorem Filled.live (h : Filled keys n st) (hk : Fillable keys n) (i : ℕ) (hi : i < n) :
    (st.segs 1).Live crowdedHash 0 (crowdedSlot i) := by
  refine ⟨?_, ?_⟩
  · rw [Segment.Occupied, h.taken i hi]
    exact (hk.valid i hi).1
  · rw [h.taken i hi, h.level]
    exact hk.top i hi

theorem Crowded.live (h : Crowded n st) (hn : n ≤ 64) (i : ℕ) (hi : i < n) :
    (st.segs 1).Live crowdedHash 0 (crowdedSlot i) :=
  Filled.live h (fillable_crowded.mono hn) i hi

theorem Filled.route (h : Filled keys n st) (f_hash : BitVec 64) (hf : topBits f_hash 1 = 0) :
    st.route f_hash = 1 := by
  rw [CCEH.route, h.depth, hf]
  exact h.entry

theorem Filled.depth_le (h : Filled keys n st) : st.curDir.depth ≤ maxDepth := by
  rw [h.depth]
  decide

theorem filled_start (keys : ℕ → Key) : Filled keys 0 smallTable := by
  have hs := initCCEH_spec (fun _ => zeroSegment) (fun _ => zeroDirectory) 1
  have h1 := hs.seg 0 (by decide)
  exact ⟨hs.directoryInvariant (le_refl 1), hs.depth_eq, hs.entry 0 (by decide), h1.2.1,
    fun i hi => absurd hi (Nat.not_lt_zero i), fun c _ => h1.2.2 c⟩

end Filled

/-- `Ok` holds of every pass that finds a slot. -/
def FreeOk (H : HashFuncs) (Ok : CCEH → Key → Prop) : Prop :=
  ∀ st key loc, findSlot H (st.segs (st.route (H.f key))) key = some loc → Ok st key

theorem freeOk_room (b : Build) (H : HashFuncs) : FreeOk H (RoomInSplit b H) := by
  intro st key loc hf hn
  rw [hf] at hn
  cases hn

theorem Filled.step (b : Build) {Ok : CCEH → Key → Prop} (hok : FreeOk crowdedHash Ok)
    {keys : ℕ → Key} {n : ℕ} {st : CCEH} (h : Filled keys n st) (hk : Fillable keys (n + 1))
    (hn : n < 64) :
    ∃ st', Returns b crowdedHash Ok st (keys n) 1 st' ∧ Filled keys (n + 1) st' := by
  have htop := hk.top n (Nat.lt_succ_self n)
  have hroute : st.route (crowdedHash.f (keys n)) = 1 := h.route _ htop
  have hfree : ((st.segs 1).bucket (crowdedSlot n)).key = INVALID :=
    h.free _ (fun i hi he => absurd (crowdedSlot_inj n i hn (by omega) he) (by omega))
  have hf : findSlot crowdedHash (st.segs (st.route (crowdedHash.f (keys n)))) (keys n) =
      some (crowdedSlot n) := by
    rw [hroute, ← hk.probe n (Nat.lt_succ_self n) n (le_refl n)]
    apply findSlot_first _ _ _ n hn
    · rw [hk.probe n (Nat.lt_succ_self n) n (le_refl n), reusable, decide_eq_true_iff, hfree]
      exact ⟨Or.inr rfl, by decide⟩
    · intro i hi
      rw [hk.probe n (Nat.lt_succ_self n) i (by omega), h.level, htop]
      exact reusable_false _ _ _ _ (h.live (hk.mono (Nat.le_succ n)) i hi)
  have hdone := insertPass_of_findSlot b crowdedHash st _ 1 h.dir h.depth_le _ hf
  refine ⟨_, ⟨st, Retried.refl st, h.depth_le, hok st _ _ hf, hdone⟩, h.dir.put _ _ _, h.depth,
    h.entry, ?_, ?_, ?_⟩
  · rw [CCEH.put_localDepth]
    exact h.level
  · intro i hi
    rw [CCEH.put, hroute, CCEH.setSeg_segs_self]
    by_cases he : i = n
    · rw [he, Segment.setPair_self]
    · rw [Segment.setPair_of_ne _ _ _ _
        (fun hx => he (crowdedSlot_inj i n (by omega) hn hx))]
      exact h.taken i (by omega)
  · intro c hc
    rw [CCEH.put, hroute, CCEH.setSeg_segs_self,
      Segment.setPair_of_ne _ _ _ _ (hc n (Nat.lt_succ_self n))]
    exact h.free c (fun i hi => hc i (by omega))

theorem filled_run (b : Build) {Ok : CCEH → Key → Prop} (hok : FreeOk crowdedHash Ok)
    {keys : ℕ → Key} (n : ℕ) (hk : Fillable keys n) (hn : n ≤ 64) :
    ∃ st, Run b crowdedHash Ok smallTable ((List.range n).map fun i => (keys i, 1)) st ∧
      Filled keys n st := by
  induction n with
  | zero => exact ⟨smallTable, Run.start, filled_start keys⟩
  | succ n ih =>
    obtain ⟨st, hrun, hst⟩ := ih (hk.mono (Nat.le_succ n)) (by omega)
    obtain ⟨st', hcall, hst'⟩ := hst.step b hok hk (by omega)
    refine ⟨st', ?_, hst'⟩
    rw [List.range_succ, List.map_append]
    exact Run.insert _ st st' _ 1 hrun (hk.valid n (Nat.lt_succ_self n)) hcall

theorem crowded_run (b : Build) {Ok : CCEH → Key → Prop} (hok : FreeOk crowdedHash Ok) (n : ℕ)
    (hn : n ≤ 64) :
    ∃ st, Run b crowdedHash Ok smallTable (crowdedCalls n) st ∧ Crowded n st :=
  filled_run b hok n (fillable_crowded.mono hn) hn

theorem crowdedSlot_surj (p : Slot) (h : p.val < 64) :
    ∃ i < 64, p = crowdedSlot i ∧ (p.val < 32 ↔ 32 ≤ i) := by
  by_cases hp : p.val < 32
  · refine ⟨32 + p.val, by omega, ?_, by omega⟩
    apply Fin.ext
    rw [crowdedSlot_val _ (by omega), if_neg (by omega)]
    omega
  · refine ⟨p.val - 32, by omega, ?_, by omega⟩
    apply Fin.ext
    rw [crowdedSlot_val _ (by omega), if_pos (by omega)]
    omega

theorem crowded_candidates (b : Build) (i : ℕ) (hi : i < 64) :
    ∃ rest, candidates b crowdedHash (BitVec.ofNat 64 i) = window 32 ++ rest ∧
      (i < 32 → ∀ c ∈ rest, c ∈ window 32) := by
  have h8 : windowIdx 0x4000000000000008 = 32 := by decide
  have h8' : windowIdx 8 = 32 := by decide
  cases b with
  | cow =>
    refine ⟨[], ?_, fun _ c hc => absurd hc List.not_mem_nil⟩
    rw [candidates, crowded_f i hi, h8, List.append_nil]
  | inplace =>
    refine ⟨window (windowIdx (crowdedHash.s (BitVec.ofNat 64 i))), ?_, ?_⟩
    · rw [candidates, windows, crowded_f i hi, h8]
    · intro hlt c hc
      rw [crowded_s i hi, if_pos hlt, h8'] at hc
      exact hc

section Crowded
variable {keys : ℕ → Key} {n : ℕ} {st : CCEH}

theorem Filled.occupied_iff (h : Filled keys n st) (hk : Fillable keys n) (p : Slot) :
    (st.segs 1).Occupied p ↔ ∃ i < n, p = crowdedSlot i := by
  constructor
  · intro ho
    by_contra hp
    exact ho (h.free p fun i hi he => hp ⟨i, hi, he⟩)
  · rintro ⟨i, hi, rfl⟩
    exact (h.live hk i hi).1

theorem Filled.moves_iff (h : Filled keys n st) (hk : Fillable keys n) (bit : Bool) (p : Slot) :
    (st.segs 1).Moves crowdedHash bit p ↔
      ∃ i < n, p = crowdedSlot i ∧ nextBit (crowdedHash.f (keys i)) 1 = bit := by
  constructor
  · rintro ⟨ho, hb⟩
    obtain ⟨i, hi, rfl⟩ := (h.occupied_iff hk p).mp ho
    rw [h.taken i hi, h.level] at hb
    exact ⟨i, hi, rfl, hb⟩
  · rintro ⟨i, hi, rfl, hb⟩
    refine ⟨(h.live hk i hi).1, ?_⟩
    rw [h.taken i hi, h.level]
    exact hb

theorem Crowded.occupied (h : Crowded 64 st) (p : Slot) :
    (st.segs 1).Occupied p ↔ p.val < 64 := by
  rw [h.occupied_iff fillable_crowded]
  constructor
  · rintro ⟨i, hi, rfl⟩
    rw [crowdedSlot_val i hi]
    split <;> omega
  · intro hp
    obtain ⟨i, hi, he, _⟩ := crowdedSlot_surj p hp
    exact ⟨i, hi, he⟩

theorem Crowded.moves (h : Crowded n st) (hn : n ≤ 64) (bit : Bool) (p : Slot) :
    (st.segs 1).Moves crowdedHash bit p ↔ (st.segs 1).Occupied p ∧ bit = true := by
  have hnext : nextBit 0x4000000000000008 1 = true := by decide
  rw [h.moves_iff (fillable_crowded.mono hn), h.occupied_iff (fillable_crowded.mono hn)]
  constructor
  · rintro ⟨i, hi, rfl, hb⟩
    rw [crowded_f i (by omega), hnext] at hb
    exact ⟨⟨i, hi, rfl⟩, hb.symm⟩
  · rintro ⟨⟨i, hi, rfl⟩, rfl⟩
    refine ⟨i, hi, rfl, ?_⟩
    rw [crowded_f i (by omega)]
    exact hnext

/-- Up to 32 pairs are in the order of their slots, so that those of one half fill its window
one after another. -/
theorem Filled.placement (h : Filled keys n st) (hk : Fillable keys n) (hn : n ≤ 32) (b : Build)
    (bit : Bool) : ∃ pos, Placement (fun p => candidates b crowdedHash ((st.segs 1).bucket p).key)
      ((st.segs 1).Moves crowdedHash bit) pos ∧
      ∀ i < n, nextBit (crowdedHash.f (keys i)) 1 = bit → pos (crowdedSlot i) =
        some (slotAt 32 (Nat.count (fun i => nextBit (crowdedHash.f (keys i)) 1 = bit) i)) := by
  classical
  have hval : ∀ i < n, (crowdedSlot i).val = 32 + i := by
    intro i hi
    rw [crowdedSlot_val i (by omega), if_pos (by omega)]
  let rank : Slot → ℕ := fun p =>
    Nat.count (fun i => nextBit (crowdedHash.f (keys i)) 1 = bit) (p.val - 32)
  have hrank : ∀ i < n, rank (crowdedSlot i) =
      Nat.count (fun i => nextBit (crowdedHash.f (keys i)) 1 = bit) i := by
    intro i hi
    simp only [rank, hval i hi, Nat.add_sub_cancel_left]
  have hmoves := h.moves_iff hk bit
  refine ⟨_, ranked_placement 32 (by omega) _ _ rank ?_ ?_ ?_ ?_, fun i hi hb => ?_⟩
  · intro p hp
    obtain ⟨i, hi, rfl, _⟩ := (hmoves p).mp hp
    rw [hrank i hi]
    exact (Nat.count_le _).trans_lt (by omega)
  · intro p q hp hq hlt
    obtain ⟨i, hi, rfl, _⟩ := (hmoves p).mp hp
    obtain ⟨j, hj, rfl, hbit⟩ := (hmoves q).mp hq
    rw [Fin.lt_def, hval i hi, hval j hj] at hlt
    rw [hrank i hi, hrank j hj]
    exact Nat.count_strict_mono hbit (by omega)
  · intro p hp j hj
    obtain ⟨i, hi, rfl, _⟩ := (hmoves p).mp hp
    rw [hrank i hi] at hj
    obtain ⟨k, hki, hbit, hcount⟩ := exists_count_eq _ hj
    refine ⟨crowdedSlot k, ?_, (hmoves _).mpr ⟨k, by omega, rfl, hbit⟩, ?_⟩
    · rw [Fin.lt_def, hval i hi, hval k (by omega)]
      omega
    · rw [hrank k (by omega), hcount]
  · intro p hp
    obtain ⟨i, hi, rfl, _⟩ := (hmoves p).mp hp
    rw [h.taken i hi]
    cases b with
    | cow =>
      refine ⟨[], ?_⟩
      rw [candidates, hk.first i hi, List.append_nil]
    | inplace =>
      refine ⟨window (windowIdx (crowdedHash.s (keys i))), ?_⟩
      rw [candidates, windows, hk.first i hi]
  · rw [if_pos ((hmoves _).mpr ⟨i, hi, rfl, hb⟩), hrank i hi]

/-- With at most 32 pairs there is room in a split. -/
theorem Filled.fits (h : Filled keys n st) (hk : Fillable keys n) (hn : n ≤ 32) (b : Build)
    (pattern : ℕ) : (st.segs 1).SplitFits b crowdedHash pattern := by
  intro bit _
  obtain ⟨pos, hp, hplaced⟩ := h.placement hk hn b bit
  refine ⟨pos, hp, fun p _ hm => ?_⟩
  obtain ⟨i, hi, rfl, hb⟩ := (h.moves_iff hk bit p).mp hm
  rw [hplaced i hi hb]
  exact Option.some_ne_none _

theorem Crowded.placement (b : Build) (h : Crowded 64 st) :
    Placement (fun p => candidates b crowdedHash ((st.segs 1).bucket p).key)
      ((st.segs 1).Moves crowdedHash true) (firstPos 32) := by
  apply window_placement 32 64 (by omega) (by omega) (by omega)
  · intro p
    rw [h.moves (le_refl _) true p, h.occupied p]
    exact and_iff_left rfl
  · intro p hp
    obtain ⟨i, hi, he, hhalf⟩ := crowdedSlot_surj p hp
    obtain ⟨rest, hcand, hrest⟩ := crowded_candidates b i hi
    refine ⟨rest, ?_, fun hge => hrest (by omega)⟩
    rw [he, h.taken i hi]
    exact hcand

/-- Both windows of key 64 are full, so its first pass splits segment 1. -/
theorem Filled.split (b : Build) (h : Filled keys n st)
    (hk : Fillable keys n) (hn : 32 ≤ n) (value : Value) :
    findSlot crowdedHash (st.segs (st.route (crowdedHash.f 64))) 64 = none ∧
    ∃ st1, insertPass b crowdedHash st 64 value = .again st1 ∧
      SplitResult b crowdedHash st 8 1 st1 ∧ DirectoryInvariant st1 := by
  have hf64 : crowdedHash.f 64 = 8 := rfl
  have hs64 : crowdedHash.s 64 = 8 := rfl
  have hw : windowIdx 8 = 32 := by decide
  have htop : topBits 8 1 = 0 := by decide
  have hroute := h.route 8 htop
  have hd : st.curDir.depth ≤ 63 := by
    rw [h.depth]
    decide
  have hprobe : ∀ j < 64, ∃ i < n, probe crowdedHash 64 j = crowdedSlot i := by
    intro j hj
    unfold probe
    rw [hf64, hs64, hw]
    by_cases hlt : j < 32
    · refine ⟨j, by omega, ?_⟩
      rw [if_pos hlt, crowdedSlot, if_pos hlt]
    · refine ⟨j - 32, by omega, ?_⟩
      rw [if_neg hlt, crowdedSlot, if_pos (by omega)]
  have hfull : findSlot crowdedHash (st.segs (st.route (crowdedHash.f 64))) 64 = none := by
    rw [hf64, hroute]
    apply findSlot_none
    intro j hj
    obtain ⟨i, hi, he⟩ := hprobe j hj
    rw [he, hf64, h.level, htop]
    exact reusable_false _ _ _ _ (h.live hk i hi)
  refine ⟨hfull, ?_⟩
  rcases insertPass_rest b crowdedHash st 64 value h.dir.consistent h.dir.rest (by omega)
    (fun _ => st.grownDepth_le _ hd) with
    ⟨loc, hf, _⟩ | ⟨_, st1, hpass, r⟩
  · rw [hfull] at hf
    cases hf
  · have hdir := r.directoryInvariant h.dir (r.depth_le hd)
    rw [hf64, hroute] at r
    exact ⟨st1, hpass, r, hdir⟩

section Halves
variable {b : Build} {st1 : CCEH}

/-- Key 64 is routed to the lower half, the others to the upper one. -/
theorem Filled.split_route (h : Filled keys n st)
    (r : SplitResult b crowdedHash st 8 1 st1) :
    st1.curDir.depth = 2 ∧ st1.route 8 = st.half b 1 false ∧
      st1.route 0x4000000000000008 = st.half b 1 true := by
  have hlow : topBits 8 2 = 0 := by decide
  have hhigh : topBits 0x4000000000000008 2 = 1 := by decide
  have hgrown : st.grownDepth 1 = 2 := by
    rw [CCEH.grownDepth, h.level, h.depth, if_pos rfl]
  have hd1 : st1.curDir.depth = 2 := r.depth.trans hgrown
  have hseg := r.segment
  rw [hgrown, h.level, hlow] at hseg
  refine ⟨hd1, ?_, ?_⟩
  · rw [CCEH.route, hd1, hlow, hseg 0 (by decide)]
    rfl
  · rw [CCEH.route, hd1, hhigh, hseg 1 (by decide)]
    rfl

/-- Slot 32 of the lower half is empty or holds a stale copy of key 0. -/
theorem Crowded.lower_reusable (h : Crowded n st) (hn : 0 < n) (hn' : n ≤ 64)
    (r : SplitResult b crowdedHash st 8 1 st1) :
    reusable crowdedHash (st1.segs (st.half b 1 false)) (topBits 8 2) (slotAt 32 0) = true := by
  have hlow : topBits 8 2 = 0 := by decide
  have hhigh : topBits 0x4000000000000008 2 = 1 := by decide
  have hs : slotAt 32 0 = crowdedSlot 0 := rfl
  rw [reusable, decide_eq_true_iff, hlow]
  rcases st.half_cases b 1 false with ⟨hb, _, hh⟩ | ⟨hc, _⟩
  · rw [hh, r.kept hb]
    dsimp only
    rw [hs, h.taken 0 hn, h.level, crowded_f 0 (by omega), hhigh]
    exact ⟨Or.inl (by omega), (ofNat_valid 0 (by omega)).2⟩
  · have hfree : ¬ (st1.segs (st.half b 1 false)).Occupied (slotAt 32 0) := by
      intro ho
      obtain ⟨j, hm, _⟩ := (r.copied false hc).copyOf.source _ ho
      exact Bool.false_ne_true ((h.moves hn' false j).mp hm).2
    have hinv : ((st1.segs (st.half b 1 false)).bucket (slotAt 32 0)).key = INVALID :=
      not_not.mp hfree
    rw [hinv]
    exact ⟨Or.inr rfl, by decide⟩

theorem Crowded.upper_lacks (h : Crowded 64 st) (r : SplitResult b crowdedHash st 8 1 st1)
    (c : Slot) : ((st1.segs (st.half b 1 true)).bucket c).key ≠ 0 := by
  have hcopies : Segment.Copies b true := by cases b <;> trivial
  have hval := crowdedSlot_val 0 (by omega)
  have hkey := h.taken 0 (by omega)
  have hpos : firstPos 32 (crowdedSlot 0) = none := by
    rw [firstPos, hval]
    rfl
  have hocc := (h.live (le_refl _) 0 (by omega)).1
  have hone : ∀ j, ((st.segs 1).bucket j).key = ((st.segs 1).bucket (crowdedSlot 0)).key →
      j = crowdedSlot 0 := by
    intro j hj
    have hoj : (st.segs 1).Occupied j := by
      rw [Segment.Occupied, hj]
      exact hocc
    obtain ⟨i, hi, he, _⟩ := crowdedSlot_surj j ((h.occupied j).mp hoj)
    rw [he, h.taken i hi, hkey] at hj
    rw [he, ofNat_ne i 0 (by omega) (by omega) hj]
  have hdrop := (r.copied true hcopies).dropped (firstPos 32) (h.placement b) _ hpos hocc hone c
  rw [hkey] at hdrop
  exact hdrop

end Halves

/-- The call with key 64 splits segment 1 and returns. -/
theorem Crowded.call (b : Build) {Ok : CCEH → Key → Prop} (hok : FreeOk crowdedHash Ok)
    (h : Crowded n st) (hn : 32 ≤ n) (hn' : n ≤ 64) (hsplit : Ok st 64) :
    ∃ st1, SplitResult b crowdedHash st 8 1 st1 ∧ DirectoryInvariant st1 ∧
      Returns b crowdedHash Ok st 64 1 (st1.put 8 (slotAt 32 0) ⟨64, 1⟩) := by
  obtain ⟨_, st1, hpass, r, hdir⟩ := Filled.split b h (fillable_crowded.mono hn') hn 1
  obtain ⟨hd1, hlower, _⟩ := h.split_route r
  have hf64 : crowdedHash.f 64 = 8 := rfl
  have hdepth1 : st1.curDir.depth ≤ maxDepth := by
    rw [hd1]
    decide
  have hlevel : (st1.segs (st.half b 1 false)).localDepth = 2 := by
    rw [(r.half_level false).1, h.level]
  have hprobe : probe crowdedHash 64 0 = slotAt 32 0 := rfl
  have hfind : findSlot crowdedHash (st1.segs (st1.route (crowdedHash.f 64))) 64 =
      some (slotAt 32 0) := by
    rw [hf64, hlower, ← hprobe]
    apply findSlot_first _ _ _ 0 (by omega)
    · rw [hlevel, hf64, hprobe]
      exact h.lower_reusable (by omega) hn' r
    · intro i hi
      exact absurd hi (Nat.not_lt_zero i)
  have hdone := insertPass_of_findSlot b crowdedHash st1 64 1 hdir hdepth1 _ hfind
  have hretried : Retried b crowdedHash Ok 64 1 st st1 :=
    Retried.again st st st1 (Retried.refl st) h.depth_le hsplit hpass
  exact ⟨st1, r, hdir, st1, hretried, hdepth1, hok st1 64 _ hfind, hdone⟩

/-- `Get` does not find key 0 any more. -/
theorem Crowded.lost (b : Build) (h : Crowded 64 st) :
    ∃ st', Returns b crowdedHash (fun _ _ => True) st 64 1 st' ∧
      get b crowdedHash st' 0 = some NONE := by
  obtain ⟨st1, r, hdir, hcall⟩ := Crowded.call b (fun _ _ _ _ => trivial) h (by omega) (le_refl _)
    trivial
  refine ⟨_, hcall, ?_⟩
  obtain ⟨hd1, hlower, hupper⟩ := h.split_route r
  have ht : 1 < st.nseg := by
    have hx := (h.dir.rest.allocated 0 (Nat.two_pow_pos _)).2
    rw [h.entry] at hx
    exact hx
  have hdir' := hdir.put 8 (slotAt 32 0) ⟨64, 1⟩
  have hdepth : (st1.put 8 (slotAt 32 0) ⟨64, 1⟩).curDir.depth ≤ 64 := by
    show st1.curDir.depth ≤ 64
    rw [hd1]
    decide
  rw [hdir'.get_eq hdepth]
  have hup : (st1.put 8 (slotAt 32 0) ⟨64, 1⟩).route (crowdedHash.f 0) = st.half b 1 true := hupper
  have hsame : (st1.put 8 (slotAt 32 0) ⟨64, 1⟩).segs (st.half b 1 true) =
      st1.segs (st.half b 1 true) := by
    rw [CCEH.put, hlower]
    exact CCEH.setSeg_segs_of_ne _ _ _ _ (st.half_ne b 1 ht).symm
  rw [hup, hsame]
  cases hscan : (st1.segs (st.half b 1 true)).scan crowdedHash 0 with
  | none => rfl
  | some loc => exact absurd (Segment.scan_key _ _ _ loc hscan) (h.upper_lacks r loc)

end Crowded

theorem crowdedCalls_nodup (n : ℕ) (hn : n ≤ 65) : ((crowdedCalls n).map Prod.fst).Nodup := by
  rw [crowdedCalls, List.map_map]
  apply List.Nodup.map_on _ List.nodup_range
  intro i hi j hj he
  have hi' := List.mem_range.mp hi
  have hj' := List.mem_range.mp hj
  exact ofNat_ne i j (by omega) (by omega) he

/-- 65 calls on distinct keys, after which `Get` of key 0 returns `NONE`. -/
theorem crowded_lost (b : Build) :
    ∃ st, Run b crowdedHash (fun _ _ => True) smallTable (crowdedCalls 65) st ∧
      ((crowdedCalls 65).map Prod.fst).Nodup ∧
      ¬ ∀ p ∈ crowdedCalls 65, get b crowdedHash st p.1 = some p.2 := by
  have hok : FreeOk crowdedHash fun _ _ => True := fun _ _ _ _ => trivial
  obtain ⟨st, hrun, hst⟩ := crowded_run b hok 64 (le_refl _)
  obtain ⟨st', hcall, hget⟩ := hst.lost b
  have hcalls : crowdedCalls 65 = crowdedCalls 64 ++ [(64, 1)] := by
    rw [crowdedCalls, crowdedCalls, List.range_succ, List.map_append]
    rfl
  refine ⟨st', ?_, crowdedCalls_nodup 65 (le_refl _), ?_⟩
  · rw [hcalls]
    exact Run.insert _ st st' 64 1 hrun (ofNat_valid 64 (le_refl _)) hcall
  · intro hall
    have hmem : ((0 : Key), (1 : Value)) ∈ crowdedCalls 65 :=
      List.mem_map.mpr ⟨0, List.mem_range.mpr (by omega), rfl⟩
    have h0 := hall _ hmem
    rw [hget] at h0
    exact absurd (Option.some.inj h0) (by decide)

/-- Key 64 after keys 0 to 31: its call splits their segment and doubles the directory. -/
def roomyCalls : List (Key × Value) := crowdedCalls 32 ++ [(64, 1)]

theorem roomyCalls_nodup : (roomyCalls.map Prod.fst).Nodup := by
  rw [roomyCalls, List.map_append, List.nodup_append]
  refine ⟨crowdedCalls_nodup 32 (by omega), List.nodup_singleton _, fun a ha c hc => ?_⟩
  obtain ⟨p, hp, rfl⟩ := List.mem_map.mp ha
  obtain ⟨i, hi, rfl⟩ := List.mem_map.mp hp
  have hi' := List.mem_range.mp hi
  rw [List.mem_singleton.mp hc]
  exact fun he => absurd (ofNat_ne i 64 (by omega) (le_refl _) he) (by omega)

/-- 33 calls with a split that has room. -/
theorem roomy_run (b : Build) {Ok : CCEH → Key → Prop} (hok : FreeOk crowdedHash Ok)
    (hroom : ∀ st, (∀ pattern, (st.segs (st.route (crowdedHash.f 64))).SplitFits b crowdedHash
      pattern) → Ok st 64) : ∃ st0 st1 st,
    Run b crowdedHash Ok smallTable (crowdedCalls 31) st0 ∧
    Returns b crowdedHash Ok st0 31 1 st1 ∧ Returns b crowdedHash Ok st1 64 1 st ∧
    Run b crowdedHash Ok smallTable roomyCalls st ∧ st1.curDir.depth = 1 ∧
    st.curDir.depth = 2 := by
  obtain ⟨st0, hrun, hst⟩ := crowded_run b hok 31 (by omega)
  obtain ⟨st1, hcall, hst1⟩ := hst.step b hok (fillable_crowded.mono (by omega)) (by omega)
  have hroute : st1.route (crowdedHash.f 64) = 1 := hst1.route 8 (by decide)
  have hfits : ∀ pattern, (st1.segs (st1.route (crowdedHash.f 64))).SplitFits b crowdedHash
      pattern := by
    rw [hroute]
    exact hst1.fits (fillable_crowded.mono (by omega)) (le_refl _) b
  obtain ⟨st2, r, _, hlast⟩ := Crowded.call b hok hst1 (le_refl _) (by omega) (hroom st1 hfits)
  have hcalls : crowdedCalls 31 ++ [(31, 1)] = crowdedCalls 32 := by
    rw [crowdedCalls, crowdedCalls, List.range_succ, List.map_append]
    rfl
  have hrun1 : Run b crowdedHash Ok smallTable (crowdedCalls 32) st1 := by
    rw [← hcalls]
    exact Run.insert _ st0 st1 31 1 hrun (ofNat_valid 31 (by omega)) hcall
  exact ⟨st0, st1, _, hrun, hcall, hlast,
    Run.insert _ st1 _ 64 1 hrun1 (ofNat_valid 64 (le_refl _)) hlast, hst1.depth,
    (hst1.split_route r).1⟩

theorem roomyCalls_run (b : Build) : ∃ st,
    Run b crowdedHash (RoomInSplit b crowdedHash) smallTable roomyCalls st ∧
    st.curDir.depth = 2 := by
  obtain ⟨_, _, st, _, _, _, hrun, _, hd⟩ :=
    roomy_run b (freeOk_room b crowdedHash) fun _ hfits _ => hfits _
  exact ⟨st, hrun, hd⟩

/-! ### The two builds -/

/-- Copy-on-write: after every call of a run with room in its splits, `Get`
returns the value of each inserted pair. -/
theorem cow_get_inserted (H : HashFuncs) (segs : ℕ → Segment) (dirs : ℕ → Directory) (n : ℕ)
    (hn : 1 ≤ n) (hmax : n ≤ maxDepth) (calls : List (Key × Value)) (st : CCEH)
    (run : Run .cow H (RoomInSplit .cow H) (initCCEH (freshPool segs dirs) (2 ^ n)) calls st)
    (distinct : (calls.map Prod.fst).Nodup) :
    ∀ p ∈ calls, get .cow H st p.1 = some p.2 :=
  (run_get segs dirs n hn hmax calls st run distinct).1

/-- The 33rd call splits a segment. -/
theorem cow_get_inserted_roomy :
    ∃ st, Run .cow crowdedHash (RoomInSplit .cow crowdedHash) smallTable roomyCalls st ∧
      st.curDir.depth = 2 ∧ ∀ p ∈ roomyCalls, get .cow crowdedHash st p.1 = some p.2 := by
  obtain ⟨st, hrun, hd⟩ := roomyCalls_run .cow
  exact ⟨st, hrun, hd, cow_get_inserted crowdedHash _ _ 1 (le_refl 1) (by decide) _ st hrun
    roomyCalls_nodup⟩

/-- Copy-on-write: the split tries only the first window of each pair and
ignores that `Insert4split` returned 0. -/
theorem cow_split_loses_pair :
    ∃ st, Run .cow crowdedHash (fun _ _ => True) smallTable (crowdedCalls 65) st ∧
      ((crowdedCalls 65).map Prod.fst).Nodup ∧
      ¬ ∀ p ∈ crowdedCalls 65, get .cow crowdedHash st p.1 = some p.2 := crowded_lost .cow

/-- In place, although moved pairs leave stale copies behind. -/
theorem inplace_get_inserted (H : HashFuncs) (segs : ℕ → Segment) (dirs : ℕ → Directory) (n : ℕ)
    (hn : 1 ≤ n) (hmax : n ≤ maxDepth) (calls : List (Key × Value)) (st : CCEH)
    (run : Run .inplace H (RoomInSplit .inplace H) (initCCEH (freshPool segs dirs) (2 ^ n))
      calls st)
    (distinct : (calls.map Prod.fst).Nodup) :
    ∀ p ∈ calls, get .inplace H st p.1 = some p.2 :=
  (run_get segs dirs n hn hmax calls st run distinct).1

theorem inplace_get_inserted_roomy :
    ∃ st, Run .inplace crowdedHash (RoomInSplit .inplace crowdedHash) smallTable roomyCalls st ∧
      st.curDir.depth = 2 ∧ ∀ p ∈ roomyCalls, get .inplace crowdedHash st p.1 = some p.2 := by
  obtain ⟨st, hrun, hd⟩ := roomyCalls_run .inplace
  exact ⟨st, hrun, hd, inplace_get_inserted crowdedHash _ _ 1 (le_refl 1) (by decide) _ st hrun
    roomyCalls_nodup⟩

/-- In place: the pairs of slots 0 to 31 take the window at slot 32 although
they could stay where they are, and the pairs of that window find both theirs full. -/
theorem inplace_split_loses_pair :
    ∃ st, Run .inplace crowdedHash (fun _ _ => True) smallTable (crowdedCalls 65) st ∧
      ((crowdedCalls 65).map Prod.fst).Nodup ∧
      ¬ ∀ p ∈ crowdedCalls 65, get .inplace crowdedHash st p.1 = some p.2 := crowded_lost .inplace

/-! ### The directory -/

/-- Between calls the segments fill aligned blocks of the directory, and every
split inside a call replaces the entries of the split segment and no others. -/
theorem run_directory_blocks (b : Build) (H : HashFuncs) (segs : ℕ → Segment)
    (dirs : ℕ → Directory) (n : ℕ) (hn : 1 ≤ n) (calls : List (Key × Value)) (st : CCEH)
    (run : Run b H (fun _ _ => True) (initCCEH (freshPool segs dirs) (2 ^ n)) calls st) :
    st.curDir.capacity = 2 ^ st.curDir.depth ∧
    (∀ i < st.curDir.capacity, 1 ≤ (st.segs (st.curDir.segment i)).localDepth ∧
      (st.segs (st.curDir.segment i)).localDepth ≤ st.curDir.depth) ∧
    (∀ i < st.curDir.capacity, ∀ j < st.curDir.capacity,
      st.curDir.segment i = st.curDir.segment j ↔
        i / 2 ^ (st.curDir.depth - (st.segs (st.curDir.segment i)).localDepth) =
          j / 2 ^ (st.curDir.depth - (st.segs (st.curDir.segment i)).localDepth)) ∧
    ∀ key value st1 st2, ValidKey key → Retried b H (fun _ _ => True) key value st st1 →
      st1.curDir.depth ≤ maxDepth → insertPass b H st1 key value = .again st2 →
      ∃ s0 s1, ReplacesOnly st1 st2 (st1.route (H.f key)) s0 s1 := by
  have h0 : DirectoryInvariant (initCCEH (freshPool segs dirs) (2 ^ n)) :=
    (initCCEH_spec segs dirs n).directoryInvariant hn
  have hi := run_directoryInvariant _ h0 calls st run
  refine ⟨hi.consistent.capacity, ?_, ?_, ?_⟩
  · intro i hlt
    rw [hi.consistent.capacity] at hlt
    exact ⟨hi.level_pos i hlt, hi.consistent.blocked.level_le i hlt⟩
  · rw [hi.consistent.capacity]
    exact hi.consistent.blocked.same_iff
  · intro key value st1 st2 _ hre hd hpass
    have h1 : DirectoryInvariant st1 := retried_preserves DirectoryInvariant key value
      (fun s s' hi hd _ hp => (insertPass_again_invariant s s' key value hi hd hp).2.2)
      st st1 hre hi
    have hr := (insertPass_again_invariant st1 st2 key value h1 hd hpass).2.1
    exact ⟨_, _, hr.replacesOnly h1.toAtRest (hr.depth_le (hd.trans (by decide)))⟩

theorem run_directory_blocks_crowded :
    ∃ st, Run .inplace crowdedHash (fun _ _ => True) smallTable (crowdedCalls 65) st ∧
      st.curDir.capacity = 2 ^ st.curDir.depth := by
  obtain ⟨st, hrun, _⟩ := crowded_lost .inplace
  exact ⟨st, hrun, (run_directory_blocks .inplace crowdedHash _ _ 1 (le_refl 1) _ st hrun).1⟩

end PmemStudy.Cceh
