import PmemStudy.Cceh.CrashedSplit
import PmemStudy.Cceh.Insertions

/-!
# When `Recovery` repairs the directory

After a crash inside the directory update of a split, `Recovery` yields a
consistent directory that still finds every key, unless the torn block is the
last one: the loop breaks at `buddy == capacity` before it looks inside.
-/

namespace PmemStudy.Cceh
open PmemStudy.AlignedBlocks PmemStudy.FirstFit

section Outcome
variable {b : Build} {H : HashFuncs} {st A : CCEH} {f_hash : BitVec 64}

theorem LostBlock.double_iff (hs : AtRest st) (n : ℕ)
    (hl : (st.segs (st.route f_hash)).localDepth = st.curDir.depth) :
    LostBlock b st f_hash n ↔ topBits f_hash st.curDir.depth + 1 = 2 ^ st.curDir.depth ∧
      b = .inplace ∧ n = 2 * st.curDir.capacity + 1 := by
  have hone : st.stride f_hash = 1 := by
    rw [CCEH.stride, hl, Nat.sub_self, pow_zero]
  rw [LostBlock, if_pos hl, hone, Nat.mod_one, Nat.sub_zero, hs.consistent.capacity]

/-- The directory after `Recovery` is the one before the split or the one after
it; in a lost block it is neither. -/
theorem Prepared.outcome (hA : Prepared b H st (st.route f_hash) A) (hs : AtRest st)
    (hd : st.curDir.depth ≤ 63) (n : ℕ) :
    (LostBlock b st f_hash n →
      ¬ Consistent (A.stores ((routeStores b st f_hash).take n)).recovery) ∧
    (¬ LostBlock b st f_hash n →
      (∃ k ≤ 1, Shows k st (A.stores ((routeStores b st f_hash).take n)).recovery) ∨
      ∃ F, SplitResult b H st f_hash (st.route f_hash) F ∧
        Shows 0 F (A.stores ((routeStores b st f_hash).take n)).recovery) := by
  have hx := route_index_lt st f_hash (by omega)
  have hle : (st.segs (st.route f_hash)).localDepth ≤ st.curDir.depth :=
    hs.consistent.blocked.level_le _ hx
  have hlen := routeStores_length b st f_hash hle
  have hdone : (routeStores b st f_hash).length ≤ n →
      ∃ F, SplitResult b H st f_hash (st.route f_hash) F ∧
        Shows 0 F (A.stores ((routeStores b st f_hash).take n)).recovery := by
    intro hn
    rw [List.take_of_length_le hn]
    exact ⟨_, hA.finish hs.consistent hs.rest (st.grownDepth_le _ hd), hA.completed hs hd⟩
  by_cases hl : (st.segs (st.route f_hash)).localDepth = st.curDir.depth
  · rw [if_pos hl] at hlen
    rw [LostBlock.double_iff hs n hl]
    by_cases hn : n ≤ 2 * st.curDir.capacity
    · exact ⟨fun h => by omega, fun _ => Or.inl ⟨0, by omega, hA.unpublished hs hl n hn⟩⟩
    · cases b with
      | cow =>
        dsimp only at hlen
        refine ⟨?_, fun _ => Or.inr (hdone (by omega))⟩
        rintro ⟨_, h, _⟩
        cases h
      | inplace =>
        dsimp only at hlen
        by_cases hp : n = 2 * st.curDir.capacity + 1
        · have hX := hA.published hs hl
          rw [← hp] at hX
          constructor
          · rintro ⟨hlast, _, _⟩
            exact hX.lost hs hd hl hlast
          · intro hlost
            exact Or.inl ⟨1, le_refl 1, hX.rolled_back hs hd hl (fun h => hlost ⟨h, rfl, hp⟩)⟩
        · exact ⟨fun h => by omega, fun _ => Or.inr (hdone (by omega))⟩
  · have hlt : (st.segs (st.route f_hash)).localDepth < st.curDir.depth := lt_of_le_of_ne hle hl
    rw [if_neg hl] at hlen
    by_cases hn : n ≤ st.stride f_hash / 2
    · have hX := hA.halfWritten hs hlt n hn
      exact ⟨fun hlost => hX.lost hs hd hlt hlost, fun hlost =>
        Or.inl ⟨0, by omega, hX.rolled_back hs hd hlt hn hlost⟩⟩
    · have hnot : ¬ LostBlock b st f_hash n := by
        rw [LostBlock, if_neg hl]
        exact fun h => hn h.2.2
      refine ⟨fun h => absurd h hnot, fun _ => Or.inr ?_⟩
      cases b with
      | cow => exact ⟨_, hA.finish hs.consistent hs.rest (st.grownDepth_le _ hd),
          hA.rolled_forward hs hd hlt n (by omega)⟩
      | inplace =>
        dsimp only at hlen
        exact hdone (by omega)

theorem Segment.FoundRoom.splitFits {s : Segment} (h : s.FoundRoom b H) (pattern : ℕ) :
    s.SplitFits b H pattern := by
  intro bit hc
  obtain ⟨pos, hp, hall⟩ := h bit hc
  exact ⟨pos, hp, fun i _ hm => hall i hm⟩

/-- A finished split still finds every key. -/
theorem SplitResult.lookup_kept {F : CCEH} (r : SplitResult b H st f_hash (st.route f_hash) F)
    (hs : AtRest st) (hd : st.curDir.depth ≤ 63)
    (room : (st.segs (st.route f_hash)).FoundRoom b H) (key : Key) (hk : key ≠ INVALID)
    (h : (st.lookup H key).isSome) : (F.lookup H key).isSome := by
  obtain ⟨c, hw, hc⟩ := (Segment.scan_isSome H _ key).mp h
  obtain ⟨c', hc', hw'⟩ := r.key_kept hs (r.depth_le hd) (room.splitFits _) key hk c hc
  refine (Segment.scan_isSome H _ key).mpr ⟨c', hw' hw, ?_⟩
  rw [hc', hc]

end Outcome

/-! ### A segment with the last two entries -/

/-- Every key has its first hash in the upper half of the directory and both
windows at slot 0. -/
def tornHash : HashFuncs := ⟨fun _ => 0x8000000000000000, fun _ => 0⟩

/-- Depth 2: segments 1 and 2 with one entry each, segment 3 with the last two
and the keys 0 to 31. -/
def tornTable : CCEH where
  segs p := ⟨fun c => if p = 3 ∧ c.val < 32 then ⟨BitVec.ofNat 64 c.val, 1⟩ else ⟨INVALID, 0⟩, 0,
    if p = 3 then 1 else 2⟩
  nseg := 4
  dirs _ := ⟨fun i => if i < 2 then i + 1 else 3, 0, 4, 2⟩
  ndir := 1
  dir := 0

theorem tornTable_consistent : Consistent tornTable := by
  refine ⟨rfl, ⟨?_, ?_⟩⟩
  · decide
  · decide

theorem tornTable_rest : Rest tornTable := by
  refine ⟨rfl, fun _ _ => rfl, ?_, by decide⟩
  decide

theorem tornTable_moves (bit : Bool) (p : Slot) :
    (tornTable.segs 3).Moves tornHash bit p ↔ p.val < 32 ∧ bit = false := by
  have hnext : nextBit 0x8000000000000000 1 = false := by decide
  have hbit : nextBit (tornHash.f ((tornTable.segs 3).bucket p).key) (tornTable.segs 3).localDepth =
      false := hnext
  rw [Segment.Moves, hbit, eq_comm, Segment.Occupied]
  apply and_congr_left'
  by_cases hp : p.val < 32
  · have hb : (tornTable.segs 3).bucket p = ⟨BitVec.ofNat 64 p.val, 1⟩ := if_pos ⟨rfl, hp⟩
    rw [hb]
    exact iff_of_true (ofNat_valid _ (by omega)).1 hp
  · have hb : (tornTable.segs 3).bucket p = ⟨INVALID, 0⟩ := if_neg (fun h => hp h.2)
    rw [hb]
    exact iff_of_false (fun h => h rfl) hp

theorem tornTable_room : (tornTable.segs 3).FoundRoom .cow tornHash := by
  have hw : windowIdx 0x8000000000000000 = 0 := by decide
  intro bit _
  cases bit with
  | false =>
    refine ⟨firstPos 0, ?_, ?_⟩
    · apply window_placement 0 32 (by omega) (by omega) (by omega)
      · intro p
        rw [tornTable_moves]
        exact and_iff_left rfl
      · intro p hp
        refine ⟨[], ?_, fun h => by omega⟩
        rw [List.append_nil, candidates]
        exact congrArg window hw
    · intro i hi
      rw [firstPos, if_pos ((tornTable_moves false i).mp hi).1]
      exact Option.some_ne_none _
  | true =>
    refine ⟨fun _ => none, empty_placement _ _ ?_, ?_⟩
    · intro p hp
      exact absurd ((tornTable_moves true p).mp hp).2 (by decide)
    · intro i hi
      exact absurd ((tornTable_moves true i).mp hi).2 (by decide)

theorem tornTable_route (key : Key) : tornTable.route (tornHash.f key) = 3 := by
  have htop : topBits 0x8000000000000000 2 = 2 := by decide
  have hx : topBits (tornHash.f key) 2 = 2 := htop
  change (if topBits (tornHash.f key) 2 < 2 then _ else 3) = 3
  rw [hx]
  rfl

/-- Both windows of key 32 are full, so `Insert` splits segment 3. -/
theorem tornTable_full : findSlot tornHash (tornTable.segs 3) 32 = none := by
  have hf : windowIdx (tornHash.f 32) = 0 := by decide
  have hs : windowIdx (tornHash.s 32) = 0 := by decide
  have hpat : topBits 0x8000000000000000 1 = 1 := by decide
  apply findSlot_none
  intro i hi
  apply reusable_false
  have hslot : (probe tornHash 32 i).val < 32 := by
    unfold probe
    rw [hf, hs]
    split
    · rw [slotAt_val 0 i (by omega)]
      omega
    · rw [slotAt_val 0 (i - 32) (by omega)]
      omega
  have hm := (tornTable_moves false (probe tornHash 32 i)).mpr ⟨hslot, rfl⟩
  exact ⟨hm.1, hpat.trans hpat.symm⟩

theorem tornTable_crash (n : ℕ) :
    ∃ A, Prepared .cow tornHash tornTable (tornTable.route (tornHash.f 32)) A ∧
      CrashedAfter .cow tornHash tornTable (tornHash.f 32) n
        (A.stores ((routeStores .cow tornTable (tornHash.f 32)).take n)) := by
  obtain ⟨A, hbefore, hA⟩ := beforeStores_rest .cow tornHash tornTable (tornHash.f 32)
    tornTable_rest (by decide)
  exact ⟨A, hA, A, _, _, hbefore, rfl⟩

theorem tornTable_lost (n : ℕ) : LostBlock .cow tornTable (tornHash.f 32) n ↔ n = 1 := by
  have hroute := tornTable_route 32
  have hstride : tornTable.stride (tornHash.f 32) = 2 := by
    rw [CCEH.stride, hroute]
    rfl
  have hx : topBits (tornHash.f 32) 2 = 2 := by decide
  have hlevel : ¬ (tornTable.segs 3).localDepth = tornTable.curDir.depth := by decide
  rw [LostBlock, hroute, hstride, if_neg hlevel]
  change topBits (tornHash.f 32) 2 - topBits (tornHash.f 32) 2 % 2 + 2 = 4 ∧ _ ↔ _
  rw [hx]
  omega

/-! ### Every crash -/

/-- After a crash inside a split `Recovery` restores a consistent directory in
which every key is still found, exactly when the torn block is not the last
one; and it leaves a consistent directory alone. -/
theorem recovery_iff (b : Build) (H : HashFuncs) (st st' : CCEH) (f_hash : BitVec 64) (n : ℕ)
    (hc : Consistent st) (hr : Rest st) (hd : st.curDir.depth ≤ maxDepth)
    (room : (st.segs (st.route f_hash)).FoundRoom b H) (crash : CrashedAfter b H st f_hash n st') :
    ((Consistent st'.recovery ∧ ∀ key, key ≠ INVALID → (st.lookup H key).isSome →
      (st'.recovery.lookup H key).isSome) ↔ ¬ LostBlock b st f_hash n) ∧ st.recovery = st := by
  have hd' : st.curDir.depth ≤ 63 := hd.trans (by decide)
  have hs : AtRest st := ⟨hc, hr⟩
  refine ⟨?_, hc.recovery_eq⟩
  obtain ⟨A, hbefore, hA⟩ := beforeStores_rest b H st f_hash hr (by omega)
  obtain ⟨A', l, s0, hcrash, rfl⟩ := crash
  rw [hbefore] at hcrash
  obtain ⟨rfl, hrest⟩ := Prod.mk.inj (Option.some.inj hcrash)
  obtain ⟨rfl, rfl⟩ := Prod.mk.inj hrest
  obtain ⟨hlost, hkept⟩ := hA.outcome hs hd' n
  constructor
  · rintro ⟨hcons, _⟩ hl
    exact hlost hl hcons
  · intro hl
    rcases hkept hl with ⟨k, hk, hshow⟩ | ⟨F, r, hshow⟩
    · refine ⟨hshow.consistent hk hc, ?_⟩
      intro key _ hfound
      have he := hshow.lookup (by omega) H key
      exact (congrArg Option.isSome he).trans hfound
    · refine ⟨hshow.consistent (Nat.zero_le 1) (r.atRest hs (r.depth_le hd')).consistent, ?_⟩
      intro key hkey hfound
      have hb := st.grownDepth_bounds (st.route f_hash)
      have he := hshow.lookup (by rw [r.depth]; omega) H key
      exact (congrArg Option.isSome he).trans (r.lookup_kept hs hd' room key hkey hfound)

theorem recovery_iff_torn :
    ∃ st', CrashedAfter .cow tornHash tornTable (tornHash.f 32) 2 st' ∧ Consistent st'.recovery := by
  obtain ⟨A, _, hcrash⟩ := tornTable_crash 2
  have hroom := tornTable_room
  rw [← tornTable_route 32] at hroom
  have hlost : ¬ LostBlock .cow tornTable (tornHash.f 32) 2 := by
    rw [tornTable_lost]
    omega
  exact ⟨_, hcrash, ((recovery_iff .cow tornHash tornTable _ _ 2 tornTable_consistent
    tornTable_rest (by decide) hroom hcrash).1.mpr hlost).1⟩

/-- After the first directory store of the split, entry 3 refers to `s[1]` and
stays so: the block that starts at entry 2 ends at the capacity. -/
theorem recovery_skips_last_block :
    Consistent tornTable ∧ Rest tornTable ∧ tornTable.curDir.depth ≤ maxDepth ∧
    (tornTable.segs (tornTable.route (tornHash.f 32))).FoundRoom .cow tornHash ∧
    findSlot tornHash (tornTable.segs (tornTable.route (tornHash.f 32))) 32 = none ∧
    ∃ st', CrashedAfter .cow tornHash tornTable (tornHash.f 32) 1 st' ∧
      ¬ Consistent st'.recovery := by
  obtain ⟨A, hA, hcrash⟩ := tornTable_crash 1
  have hlost := (tornTable_lost 1).mpr rfl
  have hout := (hA.outcome ⟨tornTable_consistent, tornTable_rest⟩ (by decide) 1).1 hlost
  rw [tornTable_route 32]
  exact ⟨tornTable_consistent, tornTable_rest, by decide, tornTable_room, tornTable_full, _,
    hcrash, hout⟩

end PmemStudy.Cceh
