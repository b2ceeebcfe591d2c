import PmemStudy.Cceh.Updates

/-!
# Where pairs come from

A slot of a segment in the directory that is not `INVALID` holds the pair of some
call: storing writes the whole pair, and a split copies whole pairs. Copy-on-write
and with keys that differ, each key sits in one slot, inside its windows, so that
the scan of the whole table finds what `Get` finds.
-/

namespace PmemStudy.Cceh
open PmemStudy.FirstFit

namespace CCEH

/-- `P` holds of every pair in the segments of the directory, stale ones included. -/
def Everywhere (st : CCEH) (P : Pair → Prop) : Prop :=
  ∀ i < 2 ^ st.curDir.depth, ∀ c, (st.segs (st.curDir.segment i)).Occupied c →
    P ((st.segs (st.curDir.segment i)).bucket c)

variable {b : Build} {H : HashFuncs} {st st' : CCEH} {P Q : Pair → Prop}

theorem Everywhere.mono (h : st.Everywhere P) (hpq : ∀ p, P p → Q p) : st.Everywhere Q :=
  fun i hi c hc => hpq _ (h i hi c hc)

theorem Everywhere.put (h : st.Everywhere P) (f_hash : BitVec 64) (loc : Slot) (p : Pair)
    (hp : P p) : (st.put f_hash loc p).Everywhere P := by
  intro i hi c hc
  change ((st.put f_hash loc p).segs (st.curDir.segment i)).Occupied c at hc
  change P (((st.put f_hash loc p).segs (st.curDir.segment i)).bucket c)
  by_cases hq : st.curDir.segment i = st.route f_hash
  · by_cases hl : c = loc
    · rw [hq, CCEH.put, setSeg_segs_self, hl, Segment.setPair_self]
      exact hp
    · rw [hq, CCEH.put, setSeg_segs_self, Segment.Occupied, Segment.setPair_of_ne _ _ _ _ hl,
        ← hq] at hc
      rw [hq, CCEH.put, setSeg_segs_self, Segment.setPair_of_ne _ _ _ _ hl, ← hq]
      exact h i hi c hc
  · rw [CCEH.put, setSeg_segs_of_ne _ _ _ _ hq] at hc ⊢
    exact h i hi c hc

/-- A split copies pairs of the segment, or leaves them in place. -/
theorem Everywhere.split {f_hash : BitVec 64} (h : st.Everywhere P) (hr : AtRest st)
    (hd : st'.curDir.depth ≤ 64) (r : SplitResult b H st f_hash (st.route f_hash) st') :
    st'.Everywhere P := by
  have hx := route_index_lt st f_hash (r.depth_old_le hd)
  intro i hi c hc
  obtain ⟨hlt, ⟨_, bit, he, _⟩ | ⟨hne, he⟩⟩ := r.entry_cases hr hd i hi
  · rw [he] at hc ⊢
    rcases st.half_cases b (st.route f_hash) bit with ⟨hb, _, hh⟩ | ⟨hcopies, _⟩
    · rw [hh, r.kept hb] at hc ⊢
      exact h _ hx c hc
    · obtain ⟨j, hm, hcopy, _⟩ := (r.copied bit hcopies).copyOf.source c hc
      rw [hcopy]
      exact h _ hx j hm.1
  · rw [he, r.other _ (hr.rest.allocated _ hlt).2 hne] at hc ⊢
    exact h _ hlt c hc

/-- `Get` returns `NONE` or the value of a stored pair. -/
theorem Everywhere.get (h : st.Everywhere P) (hr : AtRest st) (hd : st.curDir.depth ≤ 64)
    {key : Key} (hk : key ≠ INVALID) :
    get b H st key = some NONE ∨ ∃ value, P ⟨key, value⟩ ∧ get b H st key = some value := by
  rw [hr.get_eq hd]
  cases hs : (st.segs (st.route (H.f key))).scan H key with
  | none => exact Or.inl rfl
  | some loc =>
    have hkey := Segment.scan_key H _ key loc hs
    have hpair := h _ (route_index_lt st (H.f key) (by omega)) loc (by
      change ((st.segs (st.route (H.f key))).bucket loc).key ≠ INVALID
      rw [hkey]
      exact hk)
    have he : (⟨key, ((st.segs (st.route (H.f key))).bucket loc).value⟩ : Pair) =
        (st.segs (st.route (H.f key))).bucket loc := by
      generalize (st.segs (st.route (H.f key))).bucket loc = p at hkey ⊢
      cases p
      exact congrArg₂ Pair.mk hkey.symm rfl
    refine Or.inr ⟨_, ?_, rfl⟩
    rw [he]
    exact hpair

end CCEH

theorem InitUpTo.everywhere {st : CCEH} {depth : ℕ} (h : InitUpTo depth (2 ^ depth) st)
    (P : Pair → Prop) : st.Everywhere P := by
  intro i hi c hc
  rw [h.depth_eq] at hi
  rw [Segment.Occupied, h.entry i hi] at hc
  exact absurd ((h.seg i hi).2.2 c) hc

/-! ### Values of the key itself -/

section Run
variable {b : Build} {H : HashFuncs} {Ok : CCEH → Key → Prop}

theorem run_everywhere {start st : CCEH} {calls : List (Key × Value)}
    (h0 : DirectoryInvariant start) (he : ∀ P, start.Everywhere P)
    (run : Run b H Ok start calls st) :
    DirectoryInvariant st ∧ st.Everywhere fun p => (p.key, p.value) ∈ calls := by
  refine run_preserves (fun calls st => DirectoryInvariant st ∧
    st.Everywhere fun p => (p.key, p.value) ∈ calls) start ⟨h0, he _⟩ ?_ ?_ calls st run
  · rintro calls st st' key value _ ⟨hi, hp⟩ hd _ hpass
    obtain ⟨_, hr, hi'⟩ := insertPass_again_invariant st st' key value hi hd hpass
    exact ⟨hi', hp.split hi.toAtRest (hr.depth_le (hd.trans (by decide))) hr⟩
  · rintro calls st st' key value _ ⟨hi, hp⟩ hd _ hpass
    obtain ⟨loc, _, rfl⟩ := insertPass_done_put st st' key value hi hd hpass
    refine ⟨hi.put (H.f key) loc ⟨key, value⟩, ?_⟩
    have hold := hp.mono (Q := fun p => (p.key, p.value) ∈ calls ++ [(key, value)])
      (fun p hm => List.mem_append_left _ hm)
    exact hold.put (H.f key) loc ⟨key, value⟩ (List.mem_append_right _ (List.mem_singleton.mpr rfl))

/-- `Get` returns `NONE` or a value that some call gave to the key. -/
theorem get_own_value (b : Build) (H : HashFuncs) (segs : ℕ → Segment) (dirs : ℕ → Directory)
    (n : ℕ) (hn : 1 ≤ n) (hmax : n ≤ maxDepth) (calls : List (Key × Value)) (st : CCEH)
    (run : Run b H (fun _ _ => True) (initCCEH (freshPool segs dirs) (2 ^ n)) calls st)
    (key : Key) (valid : ValidKey key) :
    get b H st key = some NONE ∨
      ∃ value, (key, value) ∈ calls ∧ get b H st key = some value := by
  have hinit := initCCEH_spec segs dirs n
  obtain ⟨hi, hp⟩ := run_everywhere (hinit.directoryInvariant hn) hinit.everywhere run
  have hd := run.depth_le (hinit.directoryInvariant hn) (by rw [hinit.depth_eq]; exact hmax)
  exact hp.get hi.toAtRest (hd.trans (by decide)) valid.1

theorem get_own_value_crowded :
    ∃ st, Run .inplace crowdedHash (fun _ _ => True) smallTable (crowdedCalls 65) st ∧
      (get .inplace crowdedHash st 0 = some NONE ∨
        ∃ value, (0, value) ∈ crowdedCalls 65 ∧ get .inplace crowdedHash st 0 = some value) := by
  obtain ⟨st, hrun, _⟩ := crowded_lost .inplace
  exact ⟨st, hrun, get_own_value .inplace crowdedHash _ _ 1 (le_refl 1) (by decide) _ st hrun 0
    (ofNat_valid 0 (by omega))⟩

end Run

/-! ### The scan of the whole table -/

/-- `FindAnyway`, without what it prints. -/
def findAnyway (st : CCEH) (key : Key) : Value :=
  let found := (List.range st.curDir.capacity).findSome? fun i =>
    (List.finRange kNumSlot).findSome? fun j =>
      let p := (st.segs (st.curDir.segment i)).bucket j
      if p.key = key then some p.value else none
  found.getD NONE

/-- No slot of a segment in the directory holds the key. -/
def CCEH.Absent (st : CCEH) (key : Key) : Prop :=
  ∀ i < st.curDir.capacity, ∀ c, ((st.segs (st.curDir.segment i)).bucket c).key ≠ key

theorem findAnyway_absent {st : CCEH} {key : Key} (h : st.Absent key) :
    findAnyway st key = NONE := by
  have hnone : ((List.range st.curDir.capacity).findSome? fun i =>
      (List.finRange kNumSlot).findSome? fun j =>
        if ((st.segs (st.curDir.segment i)).bucket j).key = key then
          some ((st.segs (st.curDir.segment i)).bucket j).value
        else none) = none := by
    rw [List.findSome?_eq_none_iff]
    intro i hi
    rw [List.findSome?_eq_none_iff]
    intro j _
    exact if_neg (h i (List.mem_range.mp hi) j)
  rw [findAnyway, hnone]
  rfl

/-- The scan stops at a slot that holds the key. -/
theorem findAnyway_present {st : CCEH} {key : Key} (h : ¬ st.Absent key) :
    ∃ i < st.curDir.capacity, ∃ c, ((st.segs (st.curDir.segment i)).bucket c).key = key ∧
      findAnyway st key = ((st.segs (st.curDir.segment i)).bucket c).value := by
  cases hf : (List.range st.curDir.capacity).findSome? fun i =>
      (List.finRange kNumSlot).findSome? fun j =>
        if ((st.segs (st.curDir.segment i)).bucket j).key = key then
          some ((st.segs (st.curDir.segment i)).bucket j).value
        else none with
  | none =>
    refine absurd ?_ h
    intro i hi c hc
    have hi' := List.findSome?_eq_none_iff.mp hf i (List.mem_range.mpr hi)
    have hc' := List.findSome?_eq_none_iff.mp hi' c (List.mem_finRange c)
    rw [if_pos hc] at hc'
    cases hc'
  | some v =>
    obtain ⟨i, hi, hv⟩ := List.exists_of_findSome?_eq_some hf
    obtain ⟨c, _, hc⟩ := List.exists_of_findSome?_eq_some hv
    by_cases hk : ((st.segs (st.curDir.segment i)).bucket c).key = key
    · rw [if_pos hk] at hc
      refine ⟨i, List.mem_range.mp hi, c, hk, ?_⟩
      rw [findAnyway, hf]
      exact (Option.some.inj hc).symm
    · rw [if_neg hk] at hc
      cases hc

/-! ### Keys that differ -/

/-- No segment holds a key twice. -/
def CCEH.Unrepeated (st : CCEH) : Prop :=
  ∀ i < 2 ^ st.curDir.depth, ∀ c c', (st.segs (st.curDir.segment i)).Occupied c →
    ((st.segs (st.curDir.segment i)).bucket c').key =
      ((st.segs (st.curDir.segment i)).bucket c).key → c' = c

section Steps
variable {b : Build} {H : HashFuncs} {st st' : CCEH}

theorem CCEH.Unrepeated.put (h : st.Unrepeated) (key : Key) (value : Value)
    (hnew : ∀ c, ((st.segs (st.route (H.f key))).bucket c).key ≠ key) (loc : Slot) :
    (st.put (H.f key) loc ⟨key, value⟩).Unrepeated := by
  intro i hi c c' hc he
  change ((st.put (H.f key) loc ⟨key, value⟩).segs (st.curDir.segment i)).Occupied c at hc
  change (((st.put (H.f key) loc ⟨key, value⟩).segs (st.curDir.segment i)).bucket c').key =
    (((st.put (H.f key) loc ⟨key, value⟩).segs (st.curDir.segment i)).bucket c).key at he
  by_cases hq : st.curDir.segment i = st.route (H.f key)
  · rw [Segment.Occupied, hq, CCEH.put, CCEH.setSeg_segs_self] at hc
    rw [hq, CCEH.put, CCEH.setSeg_segs_self] at he
    by_cases hl : c = loc
    · by_cases hl' : c' = loc
      · rw [hl, hl']
      · rw [hl, Segment.setPair_self, Segment.setPair_of_ne _ _ _ _ hl'] at he
        exact absurd he (hnew c')
    · rw [Segment.setPair_of_ne _ _ _ _ hl] at hc he
      by_cases hl' : c' = loc
      · rw [hl', Segment.setPair_self] at he
        exact absurd he.symm (hnew c)
      · rw [Segment.setPair_of_ne _ _ _ _ hl'] at he
        rw [← hq] at hc he
        exact h i hi c c' hc he
  · rw [CCEH.put, CCEH.setSeg_segs_of_ne _ _ _ _ hq] at hc he
    exact h i hi c c' hc he

/-- A pair that is in the segment once is in its copy once. -/
theorem CopiedHalf.once {src dst : Segment} {bit : Bool} (h : CopiedHalf b H src bit dst)
    (hsrc : ∀ c c', src.Occupied c → (src.bucket c').key = (src.bucket c).key → c' = c)
    (c c' : Slot) (hc : dst.Occupied c) (he : (dst.bucket c').key = (dst.bucket c).key) :
    c' = c := by
  have hc' : dst.Occupied c' := by
    rw [Segment.Occupied, he]
    exact hc
  obtain ⟨j, hj, hcopy, _⟩ := h.copyOf.source c hc
  obtain ⟨j', _, hcopy', _⟩ := h.copyOf.source c' hc'
  rw [hcopy, hcopy'] at he
  have hsame := hsrc j j' hj.1 he
  rw [hsame] at hcopy'
  exact h.copyOf.once c' c j hc' hc hcopy' hcopy fun i hi => hsrc j i hj.1 hi

theorem CCEH.Unrepeated.split {f_hash : BitVec 64} (h : st.Unrepeated) (hr : AtRest st)
    (hd : st'.curDir.depth ≤ 64) (r : SplitResult b H st f_hash (st.route f_hash) st') :
    st'.Unrepeated := by
  have hx := route_index_lt st f_hash (r.depth_old_le hd)
  intro i hi
  obtain ⟨hlt, ⟨_, bit, he, _⟩ | ⟨hne, he⟩⟩ := r.entry_cases hr hd i hi
  · rw [he]
    rcases st.half_cases b (st.route f_hash) bit with ⟨hb, _, hh⟩ | ⟨hcopies, _⟩
    · rw [hh, r.kept hb]
      exact h _ hx
    · exact (r.copied bit hcopies).once (h _ hx)
  · rw [he, r.other _ (hr.rest.allocated _ hlt).2 hne]
    exact h _ hlt

/-- `Get` finds the slot that holds the key. -/
theorem Packed.get_of_slot (h : Packed H st) (hd : st.curDir.depth ≤ 63) (hu : st.Unrepeated)
    {key : Key} (hk : key ≠ INVALID) {i : ℕ} (hi : i < 2 ^ st.curDir.depth) {c : Slot}
    (hc : ((st.segs (st.curDir.segment i)).bucket c).key = key) :
    get .cow H st key = some ((st.segs (st.curDir.segment i)).bucket c).value := by
  have hocc : (st.segs (st.curDir.segment i)).Occupied c := by
    rw [Segment.Occupied, hc]
    exact hk
  have hroute := h.routed i hi c hocc
  rw [hc] at hroute
  obtain ⟨loc, hloc⟩ : ∃ loc, (st.segs (st.curDir.segment i)).scan H key = some loc := by
    cases hs : (st.segs (st.curDir.segment i)).scan H key with
    | none => exact absurd hc ((h.probed i hi).absent key hk hs c)
    | some loc => exact ⟨loc, rfl⟩
  have hsame := hu i hi c loc hocc (by rw [Segment.scan_key H _ key loc hloc, hc])
  rw [h.dir.get_eq (by omega), hroute, hloc, hsame]

theorem Packed.get_findAnyway (h : Packed H st) (hd : st.curDir.depth ≤ 63)
    (hu : st.Unrepeated) {key : Key} (hk : key ≠ INVALID) :
    get .cow H st key = some (findAnyway st key) := by
  by_cases ha : st.Absent key
  · rw [h.dir.get_eq (by omega), findAnyway_absent ha]
    cases hs : (st.segs (st.route (H.f key))).scan H key with
    | none => rfl
    | some loc =>
      have hx := route_index_lt st (H.f key) (by omega)
      rw [← h.dir.consistent.capacity] at hx
      exact absurd (Segment.scan_key H _ key loc hs) (ha _ hx loc)
  · obtain ⟨i, hi, c, hc, he⟩ := findAnyway_present ha
    rw [h.dir.consistent.capacity] at hi
    rw [h.get_of_slot hd hu hk hi hc, he]

theorem Packed.get_none_iff (h : Packed H st) (hd : st.curDir.depth ≤ 63) (hu : st.Unrepeated)
    {key : Key} (hk : key ≠ INVALID) :
    get .cow H st key = some NONE ↔ ∀ i < st.curDir.capacity, ∀ c,
      ((st.segs (st.curDir.segment i)).bucket c).key = key →
        ((st.segs (st.curDir.segment i)).bucket c).value = NONE := by
  constructor
  · intro hget i hi c hc
    rw [h.dir.consistent.capacity] at hi
    rw [h.get_of_slot hd hu hk hi hc] at hget
    exact Option.some.inj hget
  · intro hall
    rw [h.get_findAnyway hd hu hk]
    by_cases ha : st.Absent key
    · rw [findAnyway_absent ha]
    · obtain ⟨i, hi, c, hc, he⟩ := findAnyway_present ha
      rw [he, hall i hi c hc]

end Steps

section Run
variable {H : HashFuncs} {Ok : CCEH → Key → Prop}

theorem run_unrepeated {b : Build} {start st : CCEH} {calls : List (Key × Value)}
    (h0 : DirectoryInvariant start) (he : ∀ P, start.Everywhere P) (hu : start.Unrepeated)
    (run : Run b H Ok start calls st) (distinct : (calls.map Prod.fst).Nodup) : st.Unrepeated := by
  have hrun := run_preserves (fun calls st => (calls.map Prod.fst).Nodup → DirectoryInvariant st ∧
    (st.Everywhere fun p => p.key ∈ calls.map Prod.fst) ∧ st.Unrepeated) start
    (fun _ => ⟨h0, he _, hu⟩) ?_ ?_ calls st run
  · exact (hrun distinct).2.2
  · intro calls st st' key value _ hi hd _ hpass distinct
    obtain ⟨hdir, hp, hu⟩ := hi distinct
    obtain ⟨_, hr, hdir'⟩ := insertPass_again_invariant st st' key value hdir hd hpass
    have hd' := hr.depth_le (hd.trans (by decide))
    exact ⟨hdir', hp.split hdir.toAtRest hd' hr, hu.split hdir.toAtRest hd' hr⟩
  · intro calls st st' key value valid hi hd _ hpass distinct
    rw [List.map_append, List.nodup_append] at distinct
    obtain ⟨hdir, hp, hu⟩ := hi distinct.1
    obtain ⟨loc, _, rfl⟩ := insertPass_done_put st st' key value hdir hd hpass
    have hnew : key ∉ calls.map Prod.fst := fun hm => distinct.2.2 _ hm key (by simp) rfl
    refine ⟨hdir.put (H.f key) loc ⟨key, value⟩, ?_, ?_⟩
    · have hold := hp.mono (Q := fun p => p.key ∈ (calls ++ [(key, value)]).map Prod.fst)
        (fun p hm => by simp only [List.map_append, List.mem_append, hm, true_or])
      exact hold.put (H.f key) loc ⟨key, value⟩ (by simp)
    · apply hu.put key value
      intro c hc
      have hmem := hp _ (route_index_lt st (H.f key) (by
        have hmax : maxDepth = 30 := rfl
        omega)) c (by
        change ((st.segs (st.route (H.f key))).bucket c).key ≠ INVALID
        rw [hc]
        exact valid.1)
      change ((st.segs (st.route (H.f key))).bucket c).key ∈ calls.map Prod.fst at hmem
      rw [hc] at hmem
      exact hnew hmem

theorem InitUpTo.unrepeated {st : CCEH} {depth : ℕ} (h : InitUpTo depth (2 ^ depth) st) :
    st.Unrepeated := by
  intro i hi c _ hc
  exact absurd hc (by
    rw [h.depth_eq] at hi
    rw [Segment.Occupied, h.entry i hi]
    exact not_not_intro ((h.seg i hi).2.2 c))

/-- The windowed lookup agrees with the scan of the table, and gives `NONE` where no
slot holds the key with another value. -/
theorem get_eq_findAnyway (H : HashFuncs) (segs : ℕ → Segment) (dirs : ℕ → Directory) (n : ℕ)
    (hn : 1 ≤ n) (hmax : n ≤ maxDepth) (calls : List (Key × Value)) (st : CCEH)
    (run : Run .cow H (fun _ _ => True) (initCCEH (freshPool segs dirs) (2 ^ n)) calls st)
    (distinct : (calls.map Prod.fst).Nodup) (key : Key) (valid : ValidKey key) :
    get .cow H st key = some (findAnyway st key) ∧
      (get .cow H st key = some NONE ↔ ∀ i < st.curDir.capacity, ∀ c,
        ((st.segs (st.curDir.segment i)).bucket c).key = key →
          ((st.segs (st.curDir.segment i)).bucket c).value = NONE) := by
  have hinit := initCCEH_spec segs dirs n
  have hpacked : Packed H st := run_packed (hinit.packed H hn) run
  have hu := run_unrepeated (hinit.directoryInvariant hn) hinit.everywhere hinit.unrepeated run
    distinct
  have hd := run.depth_le (hinit.directoryInvariant hn) (by rw [hinit.depth_eq]; exact hmax)
  have hd' : st.curDir.depth ≤ 63 := hd.trans (by decide)
  exact ⟨hpacked.get_findAnyway hd' hu valid.1, hpacked.get_none_iff hd' hu valid.1⟩

theorem get_eq_findAnyway_crowded :
    ∃ st, Run .cow crowdedHash (fun _ _ => True) smallTable (crowdedCalls 65) st ∧
      get .cow crowdedHash st 0 = some (findAnyway st 0) := by
  obtain ⟨st, hrun, hnodup, _⟩ := crowded_lost .cow
  exact ⟨st, hrun, (get_eq_findAnyway crowdedHash _ _ 1 (le_refl 1) (by decide) _ st hrun
    hnodup 0 (ofNat_valid 0 (by omega))).1⟩

/-- `Insert(0, 0)`: `Get(0)` returns `NONE`, which is the value that the slot holds. -/
theorem get_none_of_zero_value :
    ∃ st, Run .cow crowdedHash (fun _ _ => True) smallTable [(0, 0)] st ∧
      ¬ (get .cow crowdedHash st 0 = some (findAnyway st 0) ∧
        (get .cow crowdedHash st 0 = some NONE ↔ st.Absent 0)) := by
  have h := filled_start (BitVec.ofNat 64)
  have hroute : smallTable.route (crowdedHash.f 0) = 1 := h.route _ (by decide)
  have hd : smallTable.curDir.depth ≤ maxDepth := by
    rw [h.depth]
    decide
  have hfree : ((smallTable.segs 1).bucket (probe crowdedHash 0 0)).key = INVALID :=
    h.free _ fun i hi => absurd hi (Nat.not_lt_zero i)
  have hfind : findSlot crowdedHash (smallTable.segs (smallTable.route (crowdedHash.f 0))) 0 =
      some (probe crowdedHash 0 0) := by
    rw [hroute]
    apply findSlot_first _ _ _ 0 (by omega)
    · rw [reusable, decide_eq_true_iff, hfree]
      exact ⟨Or.inr rfl, by decide⟩
    · intro i hi
      exact absurd hi (Nat.not_lt_zero i)
  have hdone := insertPass_of_findSlot .cow crowdedHash smallTable 0 0 h.dir hd _ hfind
  have hcall : Returns .cow crowdedHash (fun _ _ => True) smallTable 0 0
      (smallTable.put (crowdedHash.f 0) (probe crowdedHash 0 0) ⟨0, 0⟩) :=
    ⟨smallTable, Retried.refl smallTable, hd, trivial, hdone⟩
  have hrun := Run.insert [] smallTable _ 0 0 Run.start (ofNat_valid 0 (by omega)) hcall
  refine ⟨_, hrun, ?_⟩
  have hheld : ((smallTable.put (crowdedHash.f 0) (probe crowdedHash 0 0) ⟨0, 0⟩).segs 1).bucket
      (probe crowdedHash 0 0) = ⟨0, 0⟩ := by
    rw [CCEH.put, hroute, CCEH.setSeg_segs_self, Segment.setPair_self]
  rintro ⟨_, hiff⟩
  have hinit := initCCEH_spec (fun _ => zeroSegment) (fun _ => zeroDirectory) 1
  obtain ⟨hdir, hp⟩ := run_everywhere (hinit.directoryInvariant (le_refl 1)) hinit.everywhere hrun
  have habsent := hiff.mp (by
    rcases hp.get (b := .cow) (H := crowdedHash) hdir.toAtRest (hd.trans (by decide))
      (show (0 : Key) ≠ INVALID from (ofNat_valid 0 (by omega)).1) with hnone | ⟨v, hv, hget⟩
    · exact hnone
    · have hv : v = 0 := (Prod.mk.inj (List.mem_singleton.mp hv)).2
      rw [hget, hv]
      rfl)
  have h0 := habsent 0 (by
    change 0 < smallTable.curDir.capacity
    rw [h.dir.consistent.capacity]
    exact Nat.two_pow_pos _) (probe crowdedHash 0 0)
  change (((smallTable.put (crowdedHash.f 0) (probe crowdedHash 0 0) ⟨0, 0⟩).segs
    (smallTable.curDir.segment 0)).bucket (probe crowdedHash 0 0)).key ≠ 0 at h0
  rw [h.entry, hheld] at h0
  exact h0 rfl

end Run

end PmemStudy.Cceh
