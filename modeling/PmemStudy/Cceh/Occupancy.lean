import Mathlib.Algebra.BigOperators.Group.List.Basic
import PmemStudy.Cceh.Updates

/-!
# `Capacity` and `Utilization`

Both walk the directory from block to block: the stride at an index is the length
of the block of its segment. `Utilization` counts the slots whose hash prefix is
that of the block, which in the copy-on-write build are all that hold a pair.
-/

namespace PmemStudy.Cceh
open PmemStudy.AlignedBlocks PmemStudy.Loop

/-- The loop of `Capacity` and `Utilization` from index `i` on, `body` being the rest of
an iteration. `i` and `stride` are of type `int`; there is no result past its range. -/
def directoryLoop {σ : Type} (st : CCEH) (body : ℕ → σ → σ) : ℕ → ℕ → σ → Option σ
  | 0, _, _ => none
  | fuel + 1, i, acc =>
    if i < st.curDir.capacity then
      let target := st.curDir.segment i
      let stride := 2 ^ (st.curDir.depth - (st.segs target).localDepth)
      if i + stride < 2 ^ 31 then directoryLoop st body fuel (i + stride) (body i acc) else none
    else some acc

/-- The segments visited, in their order. -/
def visits (st : CCEH) (fuel : ℕ) : Option (List ℕ) :=
  directoryLoop st (fun i seen => seen ++ [st.curDir.segment i]) fuel 0 []

def capacity (st : CCEH) (fuel : ℕ) : Option ℕ :=
  (directoryLoop st (fun _ cnt => cnt + 1) fuel 0 0).map fun cnt => cnt * kNumSlot

/-- The inner loop of `Utilization`. -/
def countSlots (H : HashFuncs) (s : Segment) (pattern sum : ℕ) : ℕ :=
  Nat.fold kNumSlot (fun j hj sum =>
    if topBits (H.f (s.bucket ⟨j, hj⟩).key) s.localDepth = pattern ∧
      (s.bucket ⟨j, hj⟩).key ≠ INVALID then sum + 1 else sum) sum

/-- `sum` and `cnt` after the loop of `Utilization`. -/
def utilization (H : HashFuncs) (st : CCEH) (fuel : ℕ) : Option (ℕ × ℕ) :=
  directoryLoop st (fun i acc =>
    let target := st.segs (st.curDir.segment i)
    (countSlots H target (i / 2 ^ (st.curDir.depth - target.localDepth)) acc.1, acc.2 + 1)) fuel 0
    (0, 0)

instance (s : Segment) (c : Slot) : Decidable (s.Occupied c) :=
  inferInstanceAs (Decidable (_ ≠ _))

/-- The number of slots whose key is not `INVALID`. -/
def Segment.occupiedSlots (s : Segment) : ℕ :=
  (List.finRange kNumSlot).countP fun c => decide (s.Occupied c)

/-! ### The walk -/

/-- From the start of a block the loop visits every segment that follows once. -/
theorem directoryLoop_from (st : CCEH) (h : Consistent st) (hd : st.curDir.depth ≤ 30) (i : ℕ)
    (hs : i < 2 ^ st.curDir.depth →
      i % 2 ^ (st.curDir.depth - (st.segs (st.curDir.segment i)).localDepth) = 0) :
    ∃ visited : List ℕ,
      (∀ (σ : Type) (body : ℕ → σ → σ) (acc : σ),
        Yields (fun fuel => directoryLoop st body fuel i acc)
          (visited.foldl (fun acc j => body j acc) acc)) ∧
      (∀ j ∈ visited, i ≤ j ∧ j < 2 ^ st.curDir.depth) ∧
      (visited.map st.curDir.segment).Nodup ∧
      ∀ j, i ≤ j → j < 2 ^ st.curDir.depth →
        st.curDir.segment j ∈ visited.map st.curDir.segment := by
  induction hm : 2 ^ st.curDir.depth - i using Nat.strong_induction_on generalizing i with
  | _ m ih =>
    by_cases hlt : i < 2 ^ st.curDir.depth
    · have hstart := hs hlt
      have hle := h.blocked.start_le i hlt hstart
      have hnext := h.blocked.start_next i hlt hstart
      have hsame := h.blocked.same_iff i hlt
      have hpos : 0 < 2 ^ (st.curDir.depth - (st.segs (st.curDir.segment i)).localDepth) :=
        Nat.two_pow_pos _
      have hmax : 2 ^ st.curDir.depth ≤ 2 ^ 30 := Nat.pow_le_pow_right (by omega) hd
      generalize hstride :
        2 ^ (st.curDir.depth - (st.segs (st.curDir.segment i)).localDepth) = stride at *
      obtain ⟨visited, hloop, hrange, hnodup, hall⟩ :=
        ih (2 ^ st.curDir.depth - (i + stride)) (by omega) (i + stride) hnext rfl
      refine ⟨i :: visited, ?_, ?_, ?_, ?_⟩
      · intro σ body acc
        refine (hloop σ body (body i acc)).step ?_
        intro fuel
        have hfit : i + stride < 2 ^ 31 := by omega
        simp only [directoryLoop, h.capacity, hlt, if_true, hstride, hfit]
      · intro j hj
        rcases List.mem_cons.mp hj with rfl | hj
        · exact ⟨le_rfl, hlt⟩
        · have := hrange j hj
          omega
      · rw [List.map_cons, List.nodup_cons]
        refine ⟨?_, hnodup⟩
        intro hmem
        obtain ⟨j, hj, he⟩ := List.mem_map.mp hmem
        have hj' := hrange j hj
        have hblock := (hsame j hj'.2).mp he.symm
        rw [eq_comm, block_iff _ _ _ hpos, hstart] at hblock
        omega
      · intro j hij hj
        by_cases hin : j < i + stride
        · have hblock : i / stride = j / stride := by
            rw [eq_comm, block_iff _ _ _ hpos, hstart]
            omega
          rw [← (hsame j hj).mpr hblock, List.map_cons]
          exact List.mem_cons_self
        · rw [List.map_cons]
          exact List.mem_cons_of_mem _ (hall j (by omega) hj)
    · refine ⟨[], ?_, ?_, List.nodup_nil, ?_⟩
      · intro σ body acc
        refine ⟨1, ?_⟩
        intro fuel hf
        obtain ⟨k, rfl⟩ : ∃ k, fuel = k + 1 := ⟨fuel - 1, by omega⟩
        simp only [directoryLoop, h.capacity, hlt, if_false, List.foldl_nil]
      · intro j hj
        cases hj
      · intro j h1 h2
        omega

theorem foldl_count (l : List ℕ) (n : ℕ) : l.foldl (fun cnt _ => cnt + 1) n = n + l.length := by
  induction l generalizing n with
  | nil => rfl
  | cons a l ih =>
    rw [List.foldl_cons, ih, List.length_cons]
    omega

theorem foldl_visits {α β : Type} (f : α → β) (l : List α) (seen : List β) :
    l.foldl (fun seen i => seen ++ [f i]) seen = seen ++ l.map f := by
  induction l generalizing seen with
  | nil => simp
  | cons a l ih => rw [List.foldl_cons, ih, List.map_cons, List.append_assoc, List.singleton_append]

/-! ### The inner loop -/

theorem fold_count {n : ℕ} (p : Fin n → Prop) [DecidablePred p] (sum : ℕ) :
    Nat.fold n (fun j hj sum => if p ⟨j, hj⟩ then sum + 1 else sum) sum =
      sum + (List.finRange n).countP fun c => decide (p c) := by
  induction n with
  | zero => rfl
  | succ n ih =>
    have hfold := ih (fun c => p c.castSucc)
    rw [Nat.fold_succ, List.finRange_succ_last, List.countP_append, List.countP_map]
    simp only [Fin.castSucc_mk] at hfold
    rw [hfold]
    by_cases hp : p (Fin.last n)
    · have hp' : p ⟨n, Nat.lt_succ_self n⟩ := hp
      simp only [hp', if_true, List.countP_singleton, hp, decide_true, Function.comp_def, add_assoc]
    · have hp' : ¬ p ⟨n, Nat.lt_succ_self n⟩ := hp
      simp only [hp', if_false, List.countP_singleton, hp, decide_false, Function.comp_def,
        Bool.false_eq_true, add_zero]

/-- Every pair has the prefix of the block. -/
theorem countSlots_eq (H : HashFuncs) (s : Segment) (pattern sum : ℕ)
    (h : ∀ c, s.Occupied c → topBits (H.f (s.bucket c).key) s.localDepth = pattern) :
    countSlots H s pattern sum = sum + s.occupiedSlots := by
  have hp : ∀ c, (topBits (H.f (s.bucket c).key) s.localDepth = pattern ∧
      (s.bucket c).key ≠ INVALID) ↔ s.Occupied c :=
    fun c => ⟨fun hc => hc.2, fun hc => ⟨h c hc, hc⟩⟩
  unfold countSlots Segment.occupiedSlots
  rw [← fold_count (fun c => s.Occupied c)]
  simp only [hp]

theorem Packed.foldl_utilization {H : HashFuncs} {st : CCEH} (h : Packed H st)
    (hd : st.curDir.depth ≤ 63) (visited : List ℕ) (hv : ∀ j ∈ visited, j < 2 ^ st.curDir.depth)
    (acc : ℕ × ℕ) :
    visited.foldl (fun acc i =>
      (countSlots H (st.segs (st.curDir.segment i))
        (i / 2 ^ (st.curDir.depth - (st.segs (st.curDir.segment i)).localDepth)) acc.1,
        acc.2 + 1)) acc =
      (acc.1 + ((visited.map st.curDir.segment).map fun p => (st.segs p).occupiedSlots).sum,
        acc.2 + visited.length) := by
  induction visited generalizing acc with
  | nil => rfl
  | cons i visited ih =>
    have hi := hv i List.mem_cons_self
    have hcount := countSlots_eq H (st.segs (st.curDir.segment i))
      (i / 2 ^ (st.curDir.depth - (st.segs (st.curDir.segment i)).localDepth)) acc.1
      (fun c hc => (h.dir.route_pattern (by omega) _ i hi).mp (h.routed i hi c hc))
    rw [List.foldl_cons, ih (fun j hj => hv j (List.mem_cons_of_mem i hj)), hcount]
    simp only [List.map_cons, List.sum_cons, List.length_cons]
    exact Prod.ext (by omega) (by omega)

/-- `Capacity` and `Utilization` visit every segment of the directory once. -/
theorem run_occupancy (H : HashFuncs) (segs : ℕ → Segment) (dirs : ℕ → Directory) (n : ℕ)
    (hn : 1 ≤ n) (hmax : n ≤ maxDepth) (calls : List (Key × Value)) (st : CCEH)
    (run : Run .cow H (fun _ _ => True) (initCCEH (freshPool segs dirs) (2 ^ n)) calls st) :
    ∃ segments : List ℕ, Yields (visits st) segments ∧ segments.Nodup ∧
      (∀ p, p ∈ segments ↔ ∃ i < st.curDir.capacity, st.curDir.segment i = p) ∧
      Yields (capacity st) (1024 * segments.length) ∧
      Yields (utilization H st)
        ((segments.map fun p => (st.segs p).occupiedSlots).sum, segments.length) := by
  have hinit := initCCEH_spec segs dirs n
  have hpacked : Packed H st := run_packed (hinit.packed H hn) run
  have hd := run.depth_le (hinit.directoryInvariant hn) (by rw [hinit.depth_eq]; exact hmax)
  obtain ⟨visited, hloop, hrange, hnodup, hall⟩ :=
    directoryLoop_from st hpacked.dir.consistent hd 0 (fun _ => Nat.zero_mod _)
  refine ⟨visited.map st.curDir.segment, ?_, hnodup, ?_, ?_, ?_⟩
  · have h := hloop (List ℕ) (fun i seen => seen ++ [st.curDir.segment i]) []
    rw [foldl_visits, List.nil_append] at h
    exact h
  · intro p
    rw [hpacked.dir.consistent.capacity]
    constructor
    · intro hp
      obtain ⟨i, hi, he⟩ := List.mem_map.mp hp
      exact ⟨i, (hrange i hi).2, he⟩
    · rintro ⟨i, hi, rfl⟩
      exact hall i (Nat.zero_le i) hi
  · have h := (hloop ℕ (fun _ cnt => cnt + 1) 0).map fun cnt => cnt * kNumSlot
    rw [foldl_count, zero_add, kNumSlot_eq, mul_comm] at h
    rw [List.length_map]
    unfold capacity
    rw [kNumSlot_eq]
    exact h
  · have h := hloop (ℕ × ℕ) (fun i acc =>
      (countSlots H (st.segs (st.curDir.segment i))
        (i / 2 ^ (st.curDir.depth - (st.segs (st.curDir.segment i)).localDepth)) acc.1,
        acc.2 + 1)) (0, 0)
    rw [hpacked.foldl_utilization (hd.trans (by decide)) visited (fun j hj => (hrange j hj).2),
      zero_add, zero_add] at h
    rw [List.length_map]
    exact h

/-- The last of the 65 calls splits a segment. -/
theorem run_occupancy_crowded :
    ∃ st, Run .cow crowdedHash (fun _ _ => True) smallTable (crowdedCalls 65) st ∧
      ∃ segments : List ℕ, Yields (capacity st) (1024 * segments.length) ∧
        ∀ p, p ∈ segments ↔ ∃ i < st.curDir.capacity, st.curDir.segment i = p := by
  obtain ⟨st, hrun, _⟩ := crowded_lost .cow
  obtain ⟨segments, _, _, hmem, hcap, _⟩ :=
    run_occupancy crowdedHash _ _ 1 (le_refl 1) (by decide) _ st hrun
  exact ⟨st, hrun, segments, hcap, hmem⟩

end PmemStudy.Cceh
