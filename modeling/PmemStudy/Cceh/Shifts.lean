import Mathlib.Data.Finset.Card
import Mathlib.Data.Finset.Image
import Mathlib.Data.Finset.Range
import PmemStudy.Cceh.StoredPairs

/-!
# Shift amounts

Every operation shifts a hash right by 64 less a depth. With keys that differ, a
window full of live pairs has 33 hashes behind one prefix, so that no segment is
split below local depth 58. The initialiser without a capacity gives its segments
local depth 0, and their first shift is one by 64.
-/

namespace PmemStudy.Cceh
open PmemStudy.AlignedBlocks PmemStudy.Loop

/-! ### Calls at any depth -/

section Calls
variable (b : Build) (H : HashFuncs) (Ok : CCEH → Key → Prop)

/-- Passes of one call that ended in `goto RETRY`. -/
inductive Passes (key : Key) (value : Value) : CCEH → CCEH → Prop where
  | refl (st : CCEH) : Passes key value st st
  | again (st st1 st2 : CCEH) (before : Passes key value st st1)
      (hpass : insertPass b H st1 key value = .again st2) : Passes key value st st2

/-- Calls that returned; `Ok` is a condition on the pool before each of them. -/
inductive Calls (start : CCEH) : List (Key × Value) → CCEH → Prop where
  | start : Calls start [] start
  | insert (calls : List (Key × Value)) (st st1 st' : CCEH) (key : Key) (value : Value)
      (before : Calls start calls st) (valid : ValidKey key) (ok : Ok st key)
      (passes : Passes b H key value st st1) (hpass : insertPass b H st1 key value = .done st') :
      Calls start (calls ++ [(key, value)]) st'

end Calls

variable {b : Build} {H : HashFuncs} {Ok : CCEH → Key → Prop}

theorem Passes.preserves {I : CCEH → Prop} {key : Key} {value : Value} {st st1 : CCEH}
    (h : Passes b H key value st st1) (hi : I st)
    (hs : ∀ s s', I s → insertPass b H s key value = .again s' → I s') : I st1 := by
  induction h with
  | refl => exact hi
  | again st1 st2 _ hpass ih => exact hs st1 st2 ih hpass

/-! ### Full windows -/

/-- When no slot is left, both windows are full of live pairs. -/
theorem live_of_findSlot_none {s : Segment} {key : Key} (hf : findSlot H s key = none)
    (hs : ∀ c, (s.bucket c).key ≠ SENTINEL) (c : Slot) (hc : c ∈ windows H key) :
    s.Live H (topBits (H.f key) s.localDepth) c := by
  have hnot := List.find?_eq_none.mp hf c hc
  rw [reusable, decide_eq_true_iff] at hnot
  constructor
  · intro hinv
    exact hnot ⟨Or.inr hinv, hs c⟩
  · by_contra hne
    exact hnot ⟨Or.inl hne, hs c⟩

theorem slotAt_inj (loc : ℕ) {i j : ℕ} (hi : i < 32) (hj : j < 32)
    (h : slotAt loc i = slotAt loc j) : i = j := by
  have hv : (loc + i) % kNumSlot = (loc + j) % kNumSlot := congrArg Fin.val h
  rw [kNumSlot_eq] at hv
  omega

/-- Hashes with one prefix of `l` bits differ in the other `64 - l`. -/
theorem card_of_prefix (S : Finset (BitVec 64)) (l pattern : ℕ)
    (h : ∀ x ∈ S, topBits x l = pattern) : S.card ≤ 2 ^ (64 - l) := by
  have hpos : 0 < 2 ^ (64 - l) := Nat.two_pow_pos _
  have hcard := Finset.card_le_card_of_injOn (s := S) (t := Finset.range (2 ^ (64 - l)))
    (fun x => x.toNat % 2 ^ (64 - l)) ?_ ?_
  · rwa [Finset.card_range] at hcard
  · intro x _
    exact Finset.mem_coe.mpr (Finset.mem_range.mpr (Nat.mod_lt _ hpos))
  · intro x hx y hy he
    have hx' := h x hx
    have hy' := h y hy
    rw [topBits_eq] at hx' hy'
    apply BitVec.eq_of_toNat_eq
    rw [← Nat.div_add_mod x.toNat (2 ^ (64 - l)), ← Nat.div_add_mod y.toNat (2 ^ (64 - l)), hx', hy']
    exact congrArg _ he

/-- 32 pairs of the first window and the new key share the prefix of the segment. -/
theorem level_of_full_window {s : Segment} {key : Key} (hinj : Function.Injective H.f)
    (hlive : ∀ c ∈ windows H key, s.Live H (topBits (H.f key) s.localDepth) c)
    (hone : ∀ c c', s.Occupied c → (s.bucket c').key = (s.bucket c).key → c' = c)
    (hnew : ∀ c, (s.bucket c).key ≠ key) : s.localDepth ≤ 58 := by
  let w := windowIdx (H.f key)
  let hashAt (j : ℕ) : BitVec 64 := H.f (s.bucket (slotAt w j)).key
  have hwin : ∀ j, j < 32 → slotAt w j ∈ windows H key := fun j hj =>
    List.mem_append_left _ ((mem_window_iff w _).mpr ⟨j, hj, rfl⟩)
  have himage : ((Finset.range 32).image hashAt).card = 32 := by
    rw [Finset.card_image_of_injOn, Finset.card_range]
    intro i hi j hj he
    have hi' := Finset.mem_range.mp hi
    have hj' := Finset.mem_range.mp hj
    have hslot := hone (slotAt w j) (slotAt w i) (hlive _ (hwin j hj')).1 (hinj he)
    exact slotAt_inj w hi' hj' hslot
  have hnotin : H.f key ∉ (Finset.range 32).image hashAt := by
    intro hm
    obtain ⟨j, _, hj⟩ := Finset.mem_image.mp hm
    exact hnew _ (hinj hj)
  have hcard := card_of_prefix (Finset.cons (H.f key) _ hnotin) s.localDepth
    (topBits (H.f key) s.localDepth) (by
      intro x hx
      rcases Finset.mem_cons.mp hx with rfl | hx
      · rfl
      · obtain ⟨j, hj, rfl⟩ := Finset.mem_image.mp hx
        exact (hlive _ (hwin j (Finset.mem_range.mp hj))).2)
  rw [Finset.card_cons, himage] at hcard
  by_contra hlt
  have hpow : 2 ^ (64 - s.localDepth) ≤ 2 ^ 5 := Nat.pow_le_pow_right (by omega) (by omega)
  omega

/-! ### Calls with keys that differ -/

/-- Holds between the passes of calls with keys that differ. -/
structure Bounded (calls : List (Key × Value)) (st : CCEH) : Prop where
  dir : DirectoryInvariant st
  depth_le : st.curDir.depth ≤ 63
  valid : ∀ k ∈ calls.map Prod.fst, ValidKey k
  stored : st.Everywhere fun p => p.key ∈ calls.map Prod.fst
  unrepeated : st.Unrepeated

section Steps
variable {calls : List (Key × Value)} {st st' : CCEH} {key : Key} {value : Value}

theorem Bounded.absent (h : Bounded calls st) (valid : ValidKey key)
    (hnew : key ∉ calls.map Prod.fst) (c : Slot) :
    ((st.segs (st.route (H.f key))).bucket c).key ≠ key := by
  intro hc
  have hd := h.depth_le
  have hmem := h.stored _ (route_index_lt st (H.f key) (by omega)) c (by
    change ((st.segs (st.route (H.f key))).bucket c).key ≠ INVALID
    rw [hc]
    exact valid.1)
  change ((st.segs (st.route (H.f key))).bucket c).key ∈ calls.map Prod.fst at hmem
  rw [hc] at hmem
  exact hnew hmem

theorem Bounded.no_sentinel (h : Bounded calls st) (c : Slot) :
    ((st.segs (st.route (H.f key))).bucket c).key ≠ SENTINEL := by
  intro hc
  have hd := h.depth_le
  have hmem := h.stored _ (route_index_lt st (H.f key) (by omega)) c (by
    change ((st.segs (st.route (H.f key))).bucket c).key ≠ INVALID
    rw [hc]
    decide)
  change ((st.segs (st.route (H.f key))).bucket c).key ∈ calls.map Prod.fst at hmem
  exact (h.valid _ hmem).2 hc

theorem Bounded.again (h : Bounded calls st) (hinj : Function.Injective H.f) (valid : ValidKey key)
    (hnew : key ∉ calls.map Prod.fst) (hp : insertPass b H st key value = .again st') :
    Bounded calls st' := by
  have hd := h.depth_le
  rcases insertPass_rest b H st key value h.dir.consistent h.dir.rest (by omega)
    (fun _ => st.grownDepth_le _ hd) with ⟨_, _, hdone⟩ | ⟨hf, s, hagain, r⟩
  · rw [hdone] at hp
    cases hp
  · rw [hagain] at hp
    cases hp
    have hlevel := level_of_full_window hinj (live_of_findSlot_none hf h.no_sentinel)
      (h.unrepeated _ (route_index_lt st (H.f key) (by omega))) (h.absent valid hnew)
    have hd' : st'.curDir.depth ≤ 63 := by
      rw [r.depth, CCEH.grownDepth]
      change (st.segs (st.route (H.f key))).localDepth ≤ 58 at hlevel
      split <;> omega
    exact ⟨r.directoryInvariant h.dir (by omega), hd', h.valid,
      h.stored.split h.dir.toAtRest (by omega) r, h.unrepeated.split h.dir.toAtRest (by omega) r⟩

theorem Bounded.done (h : Bounded calls st) (valid : ValidKey key)
    (hnew : key ∉ calls.map Prod.fst) (hp : insertPass b H st key value = .done st') :
    Bounded (calls ++ [(key, value)]) st' := by
  have hd := h.depth_le
  rcases insertPass_rest b H st key value h.dir.consistent h.dir.rest (by omega)
    (fun _ => st.grownDepth_le _ hd) with ⟨loc, _, hdone⟩ | ⟨_, _, hagain, _⟩
  · rw [hdone] at hp
    cases hp
    have hold := h.stored.mono (Q := fun p => p.key ∈ (calls ++ [(key, value)]).map Prod.fst)
      (fun p hm => by simp only [List.map_append, List.mem_append, hm, true_or])
    refine ⟨h.dir.put (H.f key) loc ⟨key, value⟩, hd, ?_, hold.put _ loc _ (by simp),
      h.unrepeated.put key value (h.absent valid hnew) loc⟩
    intro k hk
    rw [List.map_append, List.mem_append] at hk
    rcases hk with hk | hk
    · exact h.valid k hk
    · rw [List.mem_singleton.mp hk]
      exact valid
  · rw [hagain] at hp
    cases hp

theorem Calls.bounded {start : CCEH} (hinj : Function.Injective H.f) (h0 : Bounded [] start)
    (h : Calls b H Ok start calls st) (distinct : (calls.map Prod.fst).Nodup) :
    Bounded calls st := by
  induction h with
  | start => exact h0
  | insert calls st st1 st' key value _ valid _ passes hpass ih =>
    rw [List.map_append, List.nodup_append] at distinct
    have hnew : key ∉ calls.map Prod.fst := fun hm => distinct.2.2 _ hm key (by simp) rfl
    have h1 := passes.preserves (ih distinct.1) fun s s' hs hp => hs.again hinj valid hnew hp
    exact h1.done valid hnew hpass

end Steps

/-! ### The two initialisers -/

def kDefaultDepth : ℕ := 10

/-- `initCCEH(pop)`: `initDirectory()` takes the default depth, `initSegment()` local
depth 0. -/
def initCCEHDefault (pool : CCEH) : CCEH :=
  Nat.fold (2 ^ kDefaultDepth) (fun i _ st => initEntry 0 i st) (initHeader pool kDefaultDepth)

/-- `initCCEH(pop)`, or `initCCEH(pop, initCap)` with `initCap` a power of two of type
`size_t`. -/
inductive Initialiser where
  | default
  | capacity (n : ℕ) (pos : 1 ≤ n) (le : n ≤ 63)

def Initialiser.init (pool : CCEH) : Initialiser → CCEH
  | .default => initCCEHDefault pool
  | .capacity n _ _ => initCCEH pool (2 ^ n)

/-- The amounts 64 less a depth that the operations shift by. -/
inductive Shift (H : HashFuncs) (st : CCEH) : ℤ → Prop where
  /-- `x` and `target_check` in `Insert` and `Get`, `x` in `Touch` -/
  | index : Shift H st (64 - st.curDir.depth)
  /-- `pattern` and the slot loops of `Insert` -/
  | pattern (key : Key) : Shift H st (64 - (st.segs (st.route (H.f key))).localDepth)
  /-- `Utilization` at an entry of the directory -/
  | utilization (i : ℕ) (hi : i < st.curDir.capacity) :
    Shift H st (64 - (st.segs (st.curDir.segment i)).localDepth)

/-- The pools at which an operation or a pass of `Insert` starts, the keys being different. -/
inductive Visited (b : Build) (H : HashFuncs) (start : CCEH) : CCEH → Prop where
  | between (calls : List (Key × Value)) (st : CCEH)
      (run : Calls b H (fun _ _ => True) start calls st) (distinct : (calls.map Prod.fst).Nodup) :
      Visited b H start st
  | inside (calls : List (Key × Value)) (st st1 : CCEH) (key : Key) (value : Value)
      (run : Calls b H (fun _ _ => True) start calls st) (distinct : (calls.map Prod.fst).Nodup)
      (valid : ValidKey key) (new : key ∉ calls.map Prod.fst)
      (passes : Passes b H key value st st1) : Visited b H start st1

theorem InitUpTo.bounded {st : CCEH} {n : ℕ} (h : InitUpTo n (2 ^ n) st) (hn : 1 ≤ n)
    (hmax : n ≤ 63) : Bounded [] st :=
  ⟨h.directoryInvariant hn, by rw [h.depth_eq]; exact hmax, fun _ hk => absurd hk List.not_mem_nil,
    h.everywhere _, h.unrepeated⟩

theorem Visited.bounded {start st : CCEH} (hinj : Function.Injective H.f)
    (h0 : Bounded [] start) (h : Visited b H start st) : ∃ calls, Bounded calls st := by
  cases h with
  | between calls _ run distinct => exact ⟨calls, run.bounded hinj h0 distinct⟩
  | inside calls st _ key value run distinct valid new passes =>
    exact ⟨calls, passes.preserves (run.bounded hinj h0 distinct)
      fun s s' hs hp => hs.again hinj valid new hp⟩

theorem Shift.in_range {st : CCEH} (h : DirectoryInvariant st) (hd : st.curDir.depth ≤ 64) {a : ℤ}
    (ha : Shift H st a) : 0 ≤ a ∧ a ≤ 63 := by
  have hlevel : ∀ i < 2 ^ st.curDir.depth, 1 ≤ (st.segs (st.curDir.segment i)).localDepth ∧
      (st.segs (st.curDir.segment i)).localDepth ≤ st.curDir.depth :=
    fun i hi => ⟨h.level_pos i hi, h.consistent.blocked.level_le i hi⟩
  cases ha with
  | index =>
    have h0 := hlevel 0 (Nat.two_pow_pos _)
    omega
  | pattern key =>
    have hx := hlevel _ (route_index_lt st (H.f key) hd)
    change 1 ≤ (st.segs (st.route (H.f key))).localDepth ∧
      (st.segs (st.route (H.f key))).localDepth ≤ st.curDir.depth at hx
    omega
  | utilization i hi =>
    rw [h.consistent.capacity] at hi
    have hx := hlevel i hi
    omega

/-- After `initCCEH(pop)` every segment has local depth 0. -/
theorem initCCEHDefault_level (segs : ℕ → Segment) (dirs : ℕ → Directory) (f_hash : BitVec 64) :
    ((initCCEHDefault (freshPool segs dirs)).segs
      ((initCCEHDefault (freshPool segs dirs)).route f_hash)).localDepth = 0 := by
  have hloop := fold_invariant (fun n (st : CCEH) => st.curDir.depth = kDefaultDepth ∧
    st.nseg = 1 + n ∧ ∀ i < n, st.curDir.segment i = 1 + i ∧ (st.segs (1 + i)).localDepth = 0)
    (2 ^ kDefaultDepth) (fun i _ st => initEntry 0 i st)
    (initHeader (freshPool segs dirs) kDefaultDepth) ?_ ?_
  · obtain ⟨hd, _, hentry⟩ := hloop
    have hx := topBits_lt f_hash kDefaultDepth (by decide)
    obtain ⟨he, hl⟩ := hentry _ hx
    change ((initCCEHDefault (freshPool segs dirs)).segs
      ((initCCEHDefault (freshPool segs dirs)).curDir.segment
        (topBits f_hash (initCCEHDefault (freshPool segs dirs)).curDir.depth))).localDepth = 0
    unfold initCCEHDefault
    rw [hd, he, hl]
  · have h0 := initHeader_upTo segs dirs kDefaultDepth
    exact ⟨h0.depth_eq, h0.nseg, fun i hi => absurd hi (Nat.not_lt_zero i)⟩
  · rintro i _ st ⟨hd, hn, hentry⟩
    have hcur : (initEntry 0 i st).curDir =
        { st.curDir with segment := Function.update st.curDir.segment i st.nseg } :=
      Function.update_self ..
    refine ⟨by rw [hcur]; exact hd, by change st.nseg + 1 = _; omega, ?_⟩
    intro j hj
    rw [hcur]
    dsimp only
    by_cases he : j = i
    · have hs : (initEntry 0 i st).segs (1 + j) = (st.segs st.nseg).initSegment 0 := by
        rw [he, ← hn]
        exact Function.update_self ..
      rw [hs, he, Function.update_self, hn]
      exact ⟨rfl, rfl⟩
    · have hne : 1 + j ≠ st.nseg := by omega
      have hs : (initEntry 0 i st).segs (1 + j) = st.segs (1 + j) := Function.update_of_ne hne ..
      rw [hs, Function.update_of_ne he]
      exact hentry j (by omega)

/-- The shift amounts stay in range exactly from the initialiser with a capacity. -/
theorem shifts_in_range_iff (b : Build) (H : HashFuncs) (hinj : Function.Injective H.f)
    (segs : ℕ → Segment) (dirs : ℕ → Directory) (I : Initialiser) :
    (∀ st, Visited b H (I.init (freshPool segs dirs)) st →
      ∀ a, Shift H st a → 0 ≤ a ∧ a ≤ 63) ↔ I ≠ .default := by
  cases I with
  | default =>
    refine iff_of_false ?_ (not_not_intro rfl)
    intro hall
    have hshift := hall _ (.between [] _ Calls.start List.nodup_nil) _ (.pattern 0)
    rw [Initialiser.init, initCCEHDefault_level] at hshift
    omega
  | capacity n pos le =>
    refine iff_of_true ?_ (by intro h; cases h)
    intro st hst a ha
    obtain ⟨calls, hb⟩ := hst.bounded hinj ((initCCEH_spec segs dirs n).bounded pos le)
    exact ha.in_range hb.dir (hb.depth_le.trans (by decide))

/-- Both hash functions are the key itself. -/
def plainHash : HashFuncs := ⟨id, id⟩

theorem shifts_in_range_plain :
    Function.Injective plainHash.f ∧
    ∀ st, Visited .cow plainHash (Initialiser.init (freshPool (fun _ => zeroSegment)
      fun _ => zeroDirectory) (.capacity 1 (by decide) (by decide))) st →
      ∀ a, Shift plainHash st a → 0 ≤ a ∧ a ≤ 63 :=
  ⟨Function.injective_id,
    (shifts_in_range_iff .cow plainHash Function.injective_id _ _ _).mpr (by intro h; cases h)⟩

/-- The first `Insert` after `initCCEH(pop)` shifts by 64. -/
theorem default_shifts_by_64 :
    Function.Injective plainHash.f ∧
    ¬ ∀ st, Visited .cow plainHash (Initialiser.init (freshPool (fun _ => zeroSegment)
      fun _ => zeroDirectory) .default) st → ∀ a, Shift plainHash st a → 0 ≤ a ∧ a ≤ 63 := by
  refine ⟨Function.injective_id, ?_⟩
  intro hall
  have hshift := hall _ (.between [] _ Calls.start List.nodup_nil) _ (.pattern 0)
  rw [Initialiser.init, initCCEHDefault_level] at hshift
  omega

end PmemStudy.Cceh
