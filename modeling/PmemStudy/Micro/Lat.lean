import Mathlib.Data.List.Count
import PmemStudy.Lib.While
import PmemStudy.Micro.Units

/-!
# Access latencies

`chase_ptr_lat` follows the links from a random unit and applies the access under test to
every unit on its way. It goes on as long as it is not back at the unit it started from,
which is where it never applies the access.
-/

namespace PmemStudy.Micro

open Loop LinkRing

/-- The accesses of the pointer chasing runs. -/
inductive WrMethod
  | wrClwbSfence | wrNtSfence | wrClwb | wrNt | rd
deriving DecidableEq

/-- `*((int *)addr) += 10` -/
def Memory.addTen (m : Memory) (addr : BitVec 64) : Memory :=
  let w := m addr
  m.store addr (w.extractLsb' 32 32 ++ (w.extractLsb' 0 32 + 10))

/-- `_mm512_stream_si512` of `cl_buffer`, which is all zero. -/
def Memory.streamBuffer (m : Memory) (addr : BitVec 64) : Memory :=
  Nat.fold 8 (fun i _ m => m.store (addr + BitVec.ofNat 64 (8 * i)) 0) m

def WrMethod.apply : WrMethod → Memory → BitVec 64 → Memory
  | .wrClwbSfence, m, addr | .wrClwb, m, addr => m.addTen addr
  | .wrNtSfence, m, addr | .wrNt, m, addr => m.streamBuffer addr
  | .rd, m, _ => m

/-- `&p->pad[15]` -/
def pad15 (p : BitVec 64) : BitVec 64 := p + 128

/-- One iteration: the addresses that were accessed, in order. -/
def chase (wr : WrMethod) (startingPoint : BitVec 64) (m : Memory) (fuel : ℕ) :
    Option (List (BitVec 64) × Memory × BitVec 64) :=
  whileLoop (fun st : Memory × BitVec 64 => decide (st.2 ≠ startingPoint))
    (fun _ st =>
      let m := wr.apply st.1 (pad15 st.2)
      some (pad15 st.2, (m, m st.2)))
    fuel (m, m startingPoint)

/-- The iterations, with the units that `random()` picks for them. -/
def chasePtrLat (wr : WrMethod) (s : Slice) :
    List (Fin s.unitNum) → Memory → ℕ → Option (List (List (BitVec 64)) × Memory)
  | [], m, _ => some ([], m)
  | r :: rs, m, fuel =>
    (chase wr (s.unit r) m fuel).bind fun x =>
      (chasePtrLat wr s rs x.2.1 fuel).map fun y => (x.1 :: y.1, y.2)

namespace Slice

/-- The links are the same in both memories. -/
def SameLinks (s : Slice) (m m' : Memory) : Prop := ∀ i, m' (s.unit i) = m (s.unit i)

/-- From memory `m` the iteration ends with the same links, after it accessed every unit
once. -/
def MeasuresAll (s : Slice) (wr : WrMethod) (start : Fin s.unitNum) (m : Memory) : Prop :=
  ∃ l m' p, Yields (chase wr (s.unit start) m) (l, m', p) ∧ s.SameLinks m m' ∧
    ∀ i, l.count (pad15 (s.unit i)) = 1

end Slice

variable {s : Slice} {wr : WrMethod} {m m' : Memory}

/-! ### Accesses and links -/

theorem apply_of_ne {addr a : BitVec 64}
    (h : ∀ i < 8, a ≠ addr + BitVec.ofNat 64 (8 * i)) : wr.apply m addr a = m a := by
  have h0 : a ≠ addr := by simpa using h 0 (by omega)
  cases wr with
  | wrClwbSfence | wrClwb => exact Memory.store_of_ne _ h0
  | wrNtSfence | wrNt =>
    show m.streamBuffer addr a = m a
    refine fold_invariant (fun _ (m' : Memory) => m' a = m a) 8 _ m rfl ?_
    intro i hi m' hm'
    rw [Memory.store_of_ne _ (h i hi)]
    exact hm'
  | rd => rfl

/-- An access 128 bytes into a unit misses the first word of every unit. -/
theorem unit_ne_pad15 (i j : Fin s.unitNum) {k : ℕ} (hk : k < 8) :
    s.unit i ≠ pad15 (s.unit j) + BitVec.ofNat 64 (8 * k) := by
  intro heq
  have h := congrArg BitVec.toNat heq
  have h128 : (128 : BitVec 64).toNat = 128 := rfl
  simp only [pad15, Slice.unit, BitVec.toNat_add, BitVec.toNat_ofNat, h128] at h
  omega

theorem Slice.SameLinks.trans {m'' : Memory} (h : s.SameLinks m m') (h' : s.SameLinks m' m'') :
    s.SameLinks m m'' := fun i => (h' i).trans (h i)

theorem sameLinks_apply (j : Fin s.unitNum) :
    s.SameLinks m (wr.apply m (pad15 (s.unit j))) :=
  fun i => apply_of_ne fun _ hk => unit_ne_pad15 i j hk

theorem isRing_of_sameLinks (hr : IsRing m s.units) (h : s.SameLinks m m') :
    IsRing m' s.units := by
  refine hr.congr ?_
  intro x hx
  obtain ⟨i, rfl⟩ := Slice.mem_units.mp hx
  exact h i

theorem pad15_injective : Function.Injective pad15 := by
  intro p q h
  exact (BitVec.add_left_inj 128).mp h

/-! ### One iteration -/

/-- From the `k`-th unit on the loop accesses the units up to the last one before the
start. -/
theorem chase_ends {start : Fin s.unitNum} (n : ℕ) {p : BitVec 64} (hr : IsRing m s.units)
    (hp : p ∈ s.units) (hne : ∀ k < n, m^[k] p ≠ s.unit start) (hlast : m^[n] p = s.unit start) :
    ∃ m', Ends (fun st : Memory × BitVec 64 => decide (st.2 ≠ s.unit start))
      (fun _ st =>
        let m := wr.apply st.1 (pad15 st.2)
        some (pad15 st.2, (m, m st.2)))
      (m, p) ((List.iterate m p n).map pad15) (m', s.unit start) ∧ s.SameLinks m m' := by
  induction n generalizing m p with
  | zero =>
    have hstop : decide (p ≠ s.unit start) = false := decide_eq_false (not_not.mpr hlast)
    refine ⟨m, ?_, fun _ => rfl⟩
    rw [show s.unit start = p from hlast.symm] at hstop ⊢
    exact .stop hstop
  | succ n ih =>
    obtain ⟨i, rfl⟩ := Slice.mem_units.mp hp
    have hkept : s.SameLinks m (wr.apply m (pad15 (s.unit i))) := sameLinks_apply i
    have hr' := isRing_of_sameLinks hr hkept
    have hiter : ∀ k, (wr.apply m (pad15 (s.unit i)))^[k] (m (s.unit i)) = m^[k + 1] (s.unit i) := by
      intro k
      induction k with
      | zero => rfl
      | succ k ih =>
        have hmem := hr.iterate_mem hp (k + 1)
        obtain ⟨j, hj⟩ := Slice.mem_units.mp hmem
        rw [Function.iterate_succ_apply', ih, ← hj, hkept j, hj]
        exact (Function.iterate_succ_apply' m _ _).symm
    have hlist : List.iterate (wr.apply m (pad15 (s.unit i))) (m (s.unit i)) n =
        List.iterate m (m (s.unit i)) n := by
      apply List.ext_getElem
      · simp only [List.length_iterate]
      · intro k hk _
        rw [List.getElem_iterate, List.getElem_iterate, hiter k, Function.iterate_succ_apply]
    obtain ⟨m', hends, hsame⟩ := ih hr' (hr.next_mem hp)
      (fun k hk => by rw [hiter]; exact hne (k + 1) (Nat.succ_lt_succ hk)) (by rw [hiter]; exact hlast)
    refine ⟨m', ?_, hkept.trans hsame⟩
    rw [hlist] at hends
    refine .step (decide_eq_true (hne 0 (Nat.succ_pos n))) (.const fun _ => ?_) hends
    show some (_, (_, wr.apply m (pad15 (s.unit i)) (s.unit i))) = _
    rw [hkept i]

theorem chase_yields (wr : WrMethod) (start : Fin s.unitNum) (hr : IsRing m s.units) :
    ∃ m', Yields (chase wr (s.unit start) m)
        ((List.iterate m (m (s.unit start)) (s.unitNum - 1)).map pad15, m', s.unit start) ∧
      s.SameLinks m m' := by
  have hmem := Slice.unit_mem start
  have hlen := Slice.length_units (s := s)
  have hpos := s.pos
  have hne : ∀ k < s.unitNum - 1, m^[k] (m (s.unit start)) ≠ s.unit start := by
    intro k hk
    rw [← Function.iterate_succ_apply]
    exact hr.iterate_ne hmem (Nat.succ_pos k) (by omega)
  have hlast : m^[s.unitNum - 1] (m (s.unit start)) = s.unit start := by
    rw [← Function.iterate_succ_apply, show (s.unitNum - 1).succ = s.units.length by omega]
    exact hr.iterate_length hmem
  obtain ⟨m', hends, hsame⟩ := chase_ends _ hr (hr.next_mem hmem) hne hlast
  exact ⟨m', hends.yields, hsame⟩

/-- Every unit but the start is accessed once. -/
theorem count_chase (start i : Fin s.unitNum) (hr : IsRing m s.units) :
    ((List.iterate m (m (s.unit start)) (s.unitNum - 1)).map pad15).count (pad15 (s.unit i)) =
      if i = start then 0 else 1 := by
  have hpos := s.pos
  have hround : (s.unit start :: List.iterate m (m (s.unit start)) (s.unitNum - 1)).Perm s.units := by
    have := hr.round_perm (Slice.unit_mem start)
    rw [Slice.length_units, show s.unitNum = s.unitNum - 1 + 1 by omega] at this
    exact this
  have hone : s.units.count (s.unit i) = 1 :=
    List.count_eq_one_of_mem Slice.nodup_units (Slice.unit_mem i)
  have hcount := hround.count_eq (s.unit i)
  rw [hone, List.count_cons] at hcount
  rw [List.count_map_of_injective _ _ pad15_injective]
  by_cases h : i = start
  · rw [if_pos h]
    simp only [h, beq_self_eq_true, if_true] at hcount ⊢
    omega
  · have hne : (s.unit start == s.unit i) = false := by
      rw [beq_eq_false_iff_ne]
      exact fun heq => h (Slice.unit_injective heq).symm
    rw [if_neg h]
    simp only [hne, Bool.false_eq_true, if_false] at hcount
    omega

/-! ### All iterations -/

theorem chasePtrLat_yields (wr : WrMethod) (starts : List (Fin s.unitNum))
    (hr : IsRing m s.units) :
    ∃ ls m', Yields (chasePtrLat wr s starts m) (ls, m') ∧ s.SameLinks m m' ∧
      List.Forall₂ (fun start l => ∀ i, l.count (pad15 (s.unit i)) = if i = start then 0 else 1)
        starts ls := by
  induction starts generalizing m with
  | nil => exact ⟨[], m, .const fun _ => rfl, fun _ => rfl, .nil⟩
  | cons start starts ih =>
    obtain ⟨m₁, hchase, hsame⟩ := chase_yields wr start hr
    obtain ⟨ls, m₂, hrest, hsame', hcounts⟩ := ih (isRing_of_sameLinks hr hsame)
    refine ⟨_ :: ls, m₂, hchase.bind (hrest.map _), hsame.trans hsame', .cons ?_ hcounts⟩
    exact fun i => count_chase start i hr

theorem not_measuresAll (wr : WrMethod) (start : Fin s.unitNum) (hr : IsRing m s.units) :
    ¬ s.MeasuresAll wr start m := by
  rintro ⟨l, m₁, p, hl, -, hcount⟩
  obtain ⟨m', hchase, -⟩ := chase_yields wr start hr
  cases hl.unique hchase
  have hzero := count_chase start start hr
  rw [if_pos rfl, hcount start] at hzero
  exact absurd hzero one_ne_zero

/-- In no run does an iteration measure all units: it ends with the links as they were,
but it never accesses the unit that it starts from. -/
theorem chase_misses_start (s : Slice) (wr : WrMethod) (m : Memory)
    (earlier : List (Fin s.unitNum)) (start : Fin s.unitNum) :
    ∃ ls m' l m'' p, Yields (chasePtrLat wr s earlier (s.build m)) (ls, m') ∧
      Yields (chase wr (s.unit start) m') (l, m'', p) ∧ s.SameLinks m' m'' ∧
      (∀ i, l.count (pad15 (s.unit i)) = if i = start then 0 else 1) ∧
      ¬ s.MeasuresAll wr start m' := by
  have hr : IsRing (s.build m) s.units := Slice.build_isRing m
  obtain ⟨ls, m', hrun, hsame, -⟩ := chasePtrLat_yields wr earlier hr
  have hr' := isRing_of_sameLinks hr hsame
  obtain ⟨m'', hchase, hsame'⟩ := chase_yields wr start hr'
  exact ⟨ls, m', _, m'', _, hrun, hchase, hsame', fun i => count_chase start i hr',
    not_measuresAll wr start hr'⟩

/-- 16 units in sequential order. -/
def sixteen : Slice where
  base := 4096
  unitNum := 16
  order := Equiv.refl _
  pos := by decide
  fits := by decide

theorem sixteen_not_measured :
    ¬ sixteen.MeasuresAll .wrClwbSfence ⟨3, by decide⟩ (sixteen.build fun _ => 0) :=
  not_measuresAll _ _ (Slice.build_isRing _)

end PmemStudy.Micro
