import PmemStudy.Lib.Threads
import PmemStudy.Lib.While
import PmemStudy.Micro.Units

/-!
# Pointer chasing against prefetching

The working set is a ring of units that is walked from a random unit. In
`rd_throughput_against_prefetching` every thread links and walks a slice of its own; a
barrier separates linking and walking.
-/

namespace PmemStudy.Micro

open Loop LinkRing

/-- The `for(;;)` loop: the units visited, in order. -/
def walk (m : Memory) (startingPtr : BitVec 64) : ℕ → BitVec 64 → Option (List (BitVec 64))
  | 0, _ => none
  | fuel + 1, workingPtr =>
    let tmpPtr := m workingPtr
    if tmpPtr = startingPtr then some [workingPtr]
    else (walk m startingPtr fuel tmpPtr).map (workingPtr :: ·)

/-- Neither guard exits. -/
def Slice.Admitted (s : Slice) (maxSize : BitVec 64) : Prop :=
  ¬ BitVec.ofNat 64 s.unitNum * 256 > maxSize ∧ ¬ s.unitNum ≤ 1

/-- The iterations, with the units that `rand()` picks for them. -/
def extremeCasePrefetching (maxSize : BitVec 64) (s : Slice) (starts : List (Fin s.unitNum))
    (m : Memory) (fuel : ℕ) : Option (List (List (BitVec 64))) :=
  if BitVec.ofNat 64 s.unitNum * 256 > maxSize then none
  else if s.unitNum ≤ 1 then none
  else
    let m := s.build m
    forEach (fun r fuel => walk m (s.unit r) fuel (s.unit r)) starts fuel

/-! ### The threads -/

/-- What `run` is called with, where no guard exits. -/
structure ReadTest where
  addr : BitVec 64
  maxSize : BitVec 64
  wss : BitVec 64
  threadNum : ℕ
  iterations : ℕ
  threadNum_pos : 0 < threadNum
  notTooLarge : ¬ wss.toNat / threadNum / 256 * 256 > maxSize.toNat
  notTooSmall : ¬ wss.toNat / threadNum / 256 ≤ 1
  accessOrder : Fin threadNum → Equiv.Perm (Fin (wss.toNat / threadNum / 256))

inductive Pc
  | building (i : ℕ)
  | waiting
  | starting (i : ℕ)
  | visiting (i : ℕ) (startingPtr workingPtr : BitVec 64) (visited : List (BitVec 64))
  | finished

/-- A thread, with the units it wrote and the ones that its iterations visited. -/
structure WorkerUnit where
  pc : Pc
  written : List (BitVec 64)
  walks : List (List (BitVec 64))

/-- The memory, and how many threads are at the barrier. -/
structure Region where
  memory : Memory
  arrived : ℕ

namespace ReadTest

variable (R : ReadTest)

/-- `per_thread_unit_num` -/
def unitNum : ℕ := R.wss.toNat / R.threadNum / 256

theorem units_le : 256 * (R.threadNum * R.unitNum) ≤ R.wss.toNat := by
  have h1 : R.unitNum * 256 ≤ R.wss.toNat / R.threadNum := Nat.div_mul_le_self _ _
  have h2 := Nat.mul_div_le R.wss.toNat R.threadNum
  calc 256 * (R.threadNum * R.unitNum) = R.threadNum * (R.unitNum * 256) := by
        rw [Nat.mul_comm 256, Nat.mul_assoc]
    _ ≤ R.threadNum * (R.wss.toNat / R.threadNum) := Nat.mul_le_mul_left _ h1
    _ ≤ R.wss.toNat := h2

theorem one_lt_unitNum : 1 < R.unitNum := Nat.not_le.mp R.notTooSmall

def slice (t : Fin R.threadNum) : Slice where
  base := R.addr + BitVec.ofNat 64 (256 * (t * R.unitNum))
  unitNum := R.unitNum
  order := R.accessOrder t
  pos := Nat.zero_lt_of_lt R.one_lt_unitNum
  fits := by
    have h := R.units_le
    have hlt := R.wss.isLt
    have hone := Nat.le_mul_of_pos_left R.unitNum R.threadNum_pos
    omega

/-- A step of thread `t`; `r` is what `rand() % unit_num` gives. -/
def next (t : Fin R.threadNum) (r : Fin R.unitNum) (g : Region) (w : WorkerUnit) :
    Option (Region × WorkerUnit) :=
  match w.pc with
  | .building i =>
    if hi : i < R.unitNum then
      let link := (R.slice t).link ⟨i, hi⟩
      some ({ g with memory := g.memory.store link.1 link.2 },
        { w with pc := .building (i + 1), written := w.written ++ [link.1] })
    else some ({ g with arrived := g.arrived + 1 }, { w with pc := .waiting })
  | .waiting => if g.arrived = R.threadNum then some (g, { w with pc := .starting 0 }) else none
  | .starting i =>
    if i < R.iterations then
      some (g, { w with pc := .visiting i ((R.slice t).unit r) ((R.slice t).unit r) [] })
    else some (g, { w with pc := .finished })
  | .visiting i startingPtr workingPtr visited =>
    let tmpPtr := g.memory workingPtr
    if tmpPtr = startingPtr then
      some (g, { w with pc := .starting (i + 1), walks := w.walks ++ [visited ++ [workingPtr]] })
    else some (g, { w with pc := .visiting i startingPtr tmpPtr (visited ++ [workingPtr]) })
  | .finished => none

def initial (m : Memory) : Threads.Config (Fin R.threadNum) Region WorkerUnit where
  shared := ⟨m, 0⟩
  threads := fun _ => ⟨.building 0, [], []⟩

end ReadTest

/-! ### One walk -/

theorem walk_yields_of_iterate {m : Memory} {startingPtr : BitVec 64} (n : ℕ) {p : BitVec 64}
    (hne : ∀ k < n, m^[k + 1] p ≠ startingPtr) (hlast : m^[n + 1] p = startingPtr) :
    Yields (fun fuel => walk m startingPtr fuel p) (List.iterate m p (n + 1)) := by
  induction n generalizing p with
  | zero =>
    refine Yields.step (Yields.const fun _ => rfl) ?_
    intro fuel
    exact if_pos hlast
  | succ n ih =>
    have hrest := ih (fun k hk => hne (k + 1) (Nat.succ_lt_succ hk)) hlast
    refine Yields.step (hrest.map (p :: ·)) ?_
    intro fuel
    exact if_neg (hne 0 (Nat.succ_pos n))

/-- On a ring the loop ends after one round. -/
theorem walk_yields {m : Memory} {nodes : List (BitVec 64)} {x : BitVec 64}
    (hr : IsRing m nodes) (hx : x ∈ nodes) :
    Yields (fun fuel => walk m x fuel x) (List.iterate m x nodes.length) := by
  have hpos := List.length_pos_of_mem hx
  obtain ⟨n, hn⟩ : ∃ n, nodes.length = n + 1 := ⟨nodes.length - 1, by omega⟩
  rw [hn]
  refine walk_yields_of_iterate n ?_ ?_
  · intro k hk
    exact hr.iterate_ne hx (Nat.succ_pos k) (by omega)
  · rw [← hn]
    exact hr.iterate_length hx

theorem extremeCasePrefetching_yields {maxSize : BitVec 64} {s : Slice} (h : s.Admitted maxSize)
    (starts : List (Fin s.unitNum)) (m : Memory) :
    ∃ ls, Yields (extremeCasePrefetching maxSize s starts m) ls ∧ ls.length = starts.length ∧
      ∀ l ∈ ls, l.Perm s.units := by
  have hr : IsRing (s.build m) s.units := Slice.build_isRing m
  obtain ⟨ls, hls, hall⟩ := forEach_yields (l := starts)
    (f := fun r fuel => walk (s.build m) (s.unit r) fuel (s.unit r))
    (Q := fun _ l => l.Perm s.units) fun r _ =>
      ⟨_, walk_yields hr (Slice.unit_mem r), hr.round_perm (Slice.unit_mem r)⟩
  refine ⟨ls, ?_, hall.length_eq.symm, ?_⟩
  · obtain ⟨n, hn⟩ := hls
    refine ⟨n, ?_⟩
    intro fuel hf
    unfold extremeCasePrefetching
    rw [if_neg h.1, if_neg h.2]
    exact hn fuel hf
  · intro l hl
    obtain ⟨i, hi, rfl⟩ := List.getElem_of_mem hl
    exact (List.forall₂_iff_get.mp hall).2 i (hall.length_eq ▸ hi) hi

namespace ReadTest

variable {R : ReadTest} {t t' : Fin R.threadNum} {m m' : Memory} {g g' : Region}
  {w w' : WorkerUnit}

/-! ### The slices -/

theorem unit_toNat (t : Fin R.threadNum) (i : Fin R.unitNum) :
    ((R.slice t).unit i - R.addr).toNat = 256 * (t * R.unitNum + i) := by
  have hlt := R.wss.isLt
  have hle := R.units_le
  have hidx : t.val * R.unitNum + i.val < R.threadNum * R.unitNum := by
    have h1 : (t.val + 1) * R.unitNum ≤ R.threadNum * R.unitNum :=
      Nat.mul_le_mul_right _ t.isLt
    rw [Nat.succ_mul] at h1
    have := i.isLt
    omega
  simp only [slice, Slice.unit, BitVec.toNat_sub, BitVec.toNat_add, BitVec.toNat_ofNat]
  have ha := R.addr.isLt
  rw [Nat.mul_add]
  omega

/-- No unit belongs to two threads. -/
theorem slices_disjoint (h : t ≠ t') : List.Disjoint (R.slice t).units (R.slice t').units := by
  intro a ha ha'
  obtain ⟨i, rfl⟩ := Slice.mem_units.mp ha
  obtain ⟨j, hj⟩ := Slice.mem_units.mp ha'
  have hi := unit_toNat t i
  have hj' := unit_toNat t' j
  rw [hj, hi] at hj'
  have hidx : t.val * R.unitNum + i.val = t'.val * R.unitNum + j.val := by omega
  apply h
  apply Fin.ext
  have hi' : i.val < R.unitNum := i.isLt
  have hj' : j.val < R.unitNum := j.isLt
  have hdiv := congrArg (· / R.unitNum) hidx
  have hpos := Nat.zero_lt_of_lt R.one_lt_unitNum
  simp only [Nat.mul_comm _ R.unitNum, Nat.mul_add_div hpos, Nat.div_eq_of_lt hi',
    Nat.div_eq_of_lt hj', Nat.add_zero] at hdiv
  exact hdiv

/-! ### What a thread has done -/

/-- An iteration that has visited `visited` and goes on at `workingPtr`. -/
structure Visiting (s : Slice) (startingPtr workingPtr : BitVec 64)
    (visited : List (BitVec 64)) : Prop where
  start_mem : startingPtr ∈ s.units
  visited_eq : visited = List.iterate s.units.formPerm startingPtr visited.length
  working_eq : workingPtr = s.units.formPerm^[visited.length] startingPtr
  length_lt : visited.length < s.unitNum

/-- The links that a thread at `pc` relies on, and the walk it is in. -/
def Consistent (s : Slice) (m : Memory) : Pc → Prop
  | .building i => s.LinkedTo i m
  | .waiting | .starting _ | .finished => s.LinkedTo s.unitNum m
  | .visiting _ startingPtr workingPtr visited =>
    s.LinkedTo s.unitNum m ∧ Visiting s startingPtr workingPtr visited

structure Holds (s : Slice) (m : Memory) (w : WorkerUnit) : Prop where
  consistent : Consistent s m w.pc
  written_mem : ∀ a ∈ w.written, a ∈ s.units
  walks_perm : ∀ l ∈ w.walks, l.Perm s.units

theorem Consistent.congr {s : Slice} {pc : Pc} (h : Consistent s m pc)
    (heq : ∀ i, m' (s.unit i) = m (s.unit i)) : Consistent s m' pc := by
  cases pc with
  | building i => exact Slice.LinkedTo.congr h heq
  | waiting | starting i | finished => exact Slice.LinkedTo.congr h heq
  | visiting i st p visited => exact ⟨Slice.LinkedTo.congr h.1 heq, h.2⟩

theorem Holds.congr {s : Slice} (h : Holds s m w) (heq : ∀ i, m' (s.unit i) = m (s.unit i)) :
    Holds s m' w := ⟨h.consistent.congr heq, h.written_mem, h.walks_perm⟩

section Visits

variable {s : Slice} {st p : BitVec 64} {visited : List (BitVec 64)}

theorem Visiting.begin (i : Fin s.unitNum) : Visiting s (s.unit i) (s.unit i) [] where
  start_mem := s.unit_mem i
  visited_eq := rfl
  working_eq := rfl
  length_lt := s.pos

theorem Visiting.isRing : IsRing s.units.formPerm s.units := isRing_formPerm Slice.nodup_units

theorem Visiting.working_mem (h : Visiting s st p visited) : p ∈ s.units := by
  rw [h.working_eq]
  exact Visiting.isRing.iterate_mem h.start_mem _

theorem Visiting.concat_eq (h : Visiting s st p visited) :
    visited ++ [p] = List.iterate s.units.formPerm st (visited.length + 1) := by
  rw [← iterate_concat, ← h.visited_eq, ← h.working_eq]

theorem Visiting.next_eq (h : Visiting s st p visited) (hm : s.LinkedTo s.unitNum m) :
    m p = s.units.formPerm^[visited.length + 1] st := by
  rw [hm.isRing.next_eq p h.working_mem, Function.iterate_succ_apply', ← h.working_eq]

/-- Back at the start, every unit was visited. -/
theorem Visiting.round (h : Visiting s st p visited) (hm : s.LinkedTo s.unitNum m)
    (heq : m p = st) : (visited ++ [p]).Perm s.units := by
  have hlt := h.length_lt
  have hlast : visited.length + 1 = s.units.length := by
    by_contra hne
    rw [Slice.length_units] at hne
    refine Visiting.isRing.iterate_ne h.start_mem (Nat.succ_pos visited.length) ?_
      ((h.next_eq hm).symm.trans heq)
    rw [Slice.length_units]
    omega
  rw [h.concat_eq, hlast]
  exact Visiting.isRing.round_perm h.start_mem

/-- Anywhere else there is a unit left. -/
theorem Visiting.step (h : Visiting s st p visited) (hm : s.LinkedTo s.unitNum m)
    (hne : m p ≠ st) : Visiting s st (m p) (visited ++ [p]) where
  start_mem := h.start_mem
  visited_eq := by
    rw [List.length_append, List.length_singleton]
    exact h.concat_eq
  working_eq := by
    rw [List.length_append, List.length_singleton]
    exact h.next_eq hm
  length_lt := by
    have hlt := h.length_lt
    rw [List.length_append, List.length_singleton]
    by_contra hge
    have hlast : visited.length + 1 = s.units.length := by
      rw [Slice.length_units]
      omega
    apply hne
    rw [h.next_eq hm, hlast]
    exact Visiting.isRing.iterate_length h.start_mem

end Visits

/-- What a step of thread `t` does. -/
inductive Moves (R : ReadTest) (t : Fin R.threadNum) (r : Fin R.unitNum) (g : Region)
    (w : WorkerUnit) : Region → WorkerUnit → Prop
  | link (i : ℕ) (hpc : w.pc = .building i) (hi : i < R.unitNum) :
    Moves R t r g w
      { g with memory := g.memory.store ((R.slice t).link ⟨i, hi⟩).1 ((R.slice t).link ⟨i, hi⟩).2 }
      { w with pc := .building (i + 1), written := w.written ++ [((R.slice t).link ⟨i, hi⟩).1] }
  | arrive (i : ℕ) (hpc : w.pc = .building i) (hi : ¬ i < R.unitNum) :
    Moves R t r g w { g with arrived := g.arrived + 1 } { w with pc := .waiting }
  | pass (hpc : w.pc = .waiting) : Moves R t r g w g { w with pc := .starting 0 }
  | start (i : ℕ) (hpc : w.pc = .starting i) (hi : i < R.iterations) :
    Moves R t r g w g
      { w with pc := .visiting i ((R.slice t).unit r) ((R.slice t).unit r) [] }
  | finish (i : ℕ) (hpc : w.pc = .starting i) (hi : ¬ i < R.iterations) :
    Moves R t r g w g { w with pc := .finished }
  | back (i : ℕ) (st p : BitVec 64) (visited : List (BitVec 64))
      (hpc : w.pc = .visiting i st p visited) (hback : g.memory p = st) :
    Moves R t r g w g
      { w with pc := .starting (i + 1), walks := w.walks ++ [visited ++ [p]] }
  | visit (i : ℕ) (st p : BitVec 64) (visited : List (BitVec 64))
      (hpc : w.pc = .visiting i st p visited) (hback : g.memory p ≠ st) :
    Moves R t r g w g { w with pc := .visiting i st (g.memory p) (visited ++ [p]) }

theorem next_moves {r : Fin R.unitNum} (h : R.next t r g w = some (g', w')) :
    R.Moves t r g w g' w' := by
  unfold next at h
  split at h
  · next i hpc =>
    split at h
    · next hi =>
      cases h
      exact .link i hpc hi
    · next hi =>
      cases h
      exact .arrive i hpc hi
  · next hpc =>
    split at h
    · cases h
      exact .pass hpc
    · cases h
  · next i hpc =>
    split at h
    · next hi =>
      cases h
      exact .start i hpc hi
    · next hi =>
      cases h
      exact .finish i hpc hi
  · next i st p visited hpc =>
    simp only at h
    split at h
    · next hback =>
      cases h
      exact .back i st p visited hpc hback
    · next hback =>
      cases h
      exact .visit i st p visited hpc hback
  · cases h

/-- A step of a thread keeps what it has done, and writes to its own units only. -/
theorem Holds.moves {r : Fin R.unitNum} (hw : Holds (R.slice t) g.memory w)
    (h : R.Moves t r g w g' w') :
    Holds (R.slice t) g'.memory w' ∧
      ∀ a, a ∉ (R.slice t).units → g'.memory a = g.memory a := by
  obtain ⟨hcons, hwritten, hwalks⟩ := hw
  cases h with
  | link i hpc hi =>
    rw [hpc] at hcons
    have hmem : ((R.slice t).link ⟨i, hi⟩).1 ∈ (R.slice t).units := by
      rw [Slice.link_fst]
      exact Slice.unit_mem _
    refine ⟨⟨Slice.LinkedTo.step hcons hi, ?_, hwalks⟩, ?_⟩
    · intro a ha
      rcases List.mem_append.mp ha with ha | ha
      · exact hwritten a ha
      · rw [List.mem_singleton.mp ha]
        exact hmem
    · intro a ha
      apply Memory.store_of_ne
      rintro rfl
      exact ha hmem
  | arrive i hpc hi =>
    rw [hpc] at hcons
    have hall : (R.slice t).LinkedTo (R.slice t).unitNum g.memory := by
      intro k _
      have hk : k.val < R.unitNum := k.isLt
      exact hcons k (by omega)
    exact ⟨⟨hall, hwritten, hwalks⟩, fun a _ => rfl⟩
  | pass hpc =>
    rw [hpc] at hcons
    exact ⟨⟨hcons, hwritten, hwalks⟩, fun a _ => rfl⟩
  | start i hpc hi =>
    rw [hpc] at hcons
    exact ⟨⟨⟨hcons, Visiting.begin (s := R.slice t) r⟩, hwritten, hwalks⟩, fun a _ => rfl⟩
  | finish i hpc hi =>
    rw [hpc] at hcons
    exact ⟨⟨hcons, hwritten, hwalks⟩, fun a _ => rfl⟩
  | back i st p visited hpc hback =>
    rw [hpc] at hcons
    refine ⟨⟨hcons.1, hwritten, ?_⟩, fun a _ => rfl⟩
    intro l hl
    rcases List.mem_append.mp hl with hl | hl
    · exact hwalks l hl
    · rw [List.mem_singleton.mp hl]
      exact hcons.2.round hcons.1 hback
  | visit i st p visited hpc hback =>
    rw [hpc] at hcons
    exact ⟨⟨⟨hcons.1, hcons.2.step hcons.1 hback⟩, hwritten, hwalks⟩, fun a _ => rfl⟩

theorem holds_initial (m : Memory) (t : Fin R.threadNum) :
    Holds (R.slice t) (R.initial m).shared.memory ((R.initial m).threads t) where
  consistent := fun k hk => absurd hk (Nat.not_lt_zero k)
  written_mem := fun _ ha => absurd ha List.not_mem_nil
  walks_perm := fun _ hl => absurd hl List.not_mem_nil

theorem holds_step {f : Fin R.threadNum → WorkerUnit} {r : Fin R.unitNum}
    (hf : ∀ t, Holds (R.slice t) g.memory (f t)) (hn : R.next t r g (f t) = some (g', w')) :
    ∀ j, Holds (R.slice j) g'.memory (Function.update f t w' j) := by
  intro j
  obtain ⟨hown, hother⟩ := (hf t).moves (next_moves hn)
  by_cases hjt : j = t
  · rw [hjt, Function.update_self]
    exact hown
  · rw [Function.update_of_ne hjt]
    refine (hf j).congr ?_
    intro k
    exact hother _ fun hmem => slices_disjoint hjt (Slice.unit_mem k) hmem

/-- However the threads interleave. -/
theorem holds_of_reaches {d : Threads.Config (Fin R.threadNum) Region WorkerUnit}
    (h : Threads.Reaches R.next (R.initial m) d) (t : Fin R.threadNum) :
    Holds (R.slice t) d.shared.memory (d.threads t) :=
  Threads.Reaches.invariant (P := fun g f => ∀ t, Holds (R.slice t) g.memory (f t))
    (holds_initial m) (fun _ _ _ _ _ _ hf hn => holds_step hf hn) h t

/-! ### Coverage -/

/-- What thread `t` has done and is about to do. -/
structure Covers (R : ReadTest) (t : Fin R.threadNum) (g : Region) (w : WorkerUnit) : Prop where
  /-- Once it is at the barrier, its links are one cycle through its units. -/
  ring : (∀ i, w.pc ≠ .building i) → IsRing g.memory (R.slice t).units
  /-- A finished iteration has visited every unit of the slice once, and no others. -/
  walks : ∀ l ∈ w.walks, l.Perm (R.slice t).units
  /-- An iteration under way has a unit left that it has not visited. -/
  partial_nodup : ∀ i st p visited, w.pc = .visiting i st p visited →
    (visited ++ [p]).Nodup ∧ (∀ a ∈ visited ++ [p], a ∈ (R.slice t).units) ∧
      visited.length < R.unitNum
  /-- Its next step visits that unit, and is its last one if all are visited then. -/
  progress : ∀ i st p visited, w.pc = .visiting i st p visited → ∀ r, ∃ w',
    R.next t r g w = some (g, w') ∧
      if visited.length + 1 = R.unitNum then
        w'.pc = .starting (i + 1) ∧ w'.walks = w.walks ++ [visited ++ [p]]
      else ∃ q, w'.pc = .visiting i st q (visited ++ [p])

theorem Visiting.back_iff {s : Slice} {st p : BitVec 64} {visited : List (BitVec 64)}
    (h : Visiting s st p visited) (hm : s.LinkedTo s.unitNum m) :
    m p = st ↔ visited.length + 1 = s.unitNum := by
  constructor
  · intro heq
    have := (h.round hm heq).length_eq
    rwa [List.length_append, List.length_singleton, Slice.length_units] at this
  · intro hlast
    rw [h.next_eq hm, hlast, ← Slice.length_units]
    exact Visiting.isRing.iterate_length h.start_mem

theorem Holds.covers (h : Holds (R.slice t) g.memory w) : R.Covers t g w where
  ring := by
    intro hpc
    have hcons := h.consistent
    cases hw : w.pc with
    | building i => exact absurd hw (hpc i)
    | waiting | starting i | finished =>
      rw [hw] at hcons
      exact Slice.LinkedTo.isRing hcons
    | visiting i st p visited =>
      rw [hw] at hcons
      exact hcons.1.isRing
  walks := h.walks_perm
  partial_nodup := by
    intro i st p visited hpc
    have hcons := h.consistent
    rw [hpc] at hcons
    have hv := hcons.2
    have hlt := hv.length_lt
    rw [hv.concat_eq]
    refine ⟨Visiting.isRing.part_nodup hv.start_mem ?_,
      Visiting.isRing.part_subset hv.start_mem _, hlt⟩
    rw [Slice.length_units]
    exact hlt
  progress := by
    intro i st p visited hpc r
    have hcons := h.consistent
    rw [hpc] at hcons
    have hback : g.memory p = st ↔ visited.length + 1 = R.unitNum := hcons.2.back_iff hcons.1
    unfold next
    rw [hpc]
    by_cases heq : g.memory p = st
    · refine ⟨_, if_pos heq, ?_⟩
      rw [if_pos (hback.mp heq)]
      exact ⟨rfl, rfl⟩
    · refine ⟨_, if_neg heq, ?_⟩
      rw [if_neg fun hlast => heq (hback.mpr hlast)]
      exact ⟨_, rfl⟩

/-! ### The end of the workers -/

/-- The steps that a thread has left. -/
def remaining (R : ReadTest) (w : WorkerUnit) : ℕ :=
  match w.pc with
  | .building i => R.unitNum - i + R.iterations * (R.unitNum + 1) + 3
  | .waiting => R.iterations * (R.unitNum + 1) + 2
  | .starting i => (R.iterations - i) * (R.unitNum + 1) + 1
  | .visiting i _ _ visited =>
    (R.iterations - (i + 1)) * (R.unitNum + 1) + (R.unitNum - visited.length) + 1
  | .finished => 0

/-- The iterations that a thread has ended. -/
def Counted (R : ReadTest) (w : WorkerUnit) : Prop :=
  match w.pc with
  | .building _ | .waiting => w.walks = []
  | .starting i => w.walks.length = i ∧ i ≤ R.iterations
  | .visiting i _ _ _ => w.walks.length = i ∧ i < R.iterations
  | .finished => w.walks.length = R.iterations

/-- A thread that has not come to the barrier. -/
def awaited (w : WorkerUnit) : ℕ :=
  match w.pc with
  | .building _ => 1
  | _ => 0

/-- A step takes one from what is left. -/
theorem Holds.remaining {r : Fin R.unitNum} (hw : Holds (R.slice t) g.memory w)
    (h : R.Moves t r g w g' w') : R.remaining w = R.remaining w' + 1 := by
  have hcons := hw.consistent
  cases h with
  | link i hpc hi =>
    simp only [ReadTest.remaining, hpc]
    omega
  | arrive i hpc hi =>
    simp only [ReadTest.remaining, hpc]
    omega
  | pass hpc => simp only [ReadTest.remaining, hpc, Nat.sub_zero]
  | start i hpc hi =>
    obtain ⟨k, hk⟩ : ∃ k, R.iterations = i + 1 + k := ⟨R.iterations - (i + 1), by omega⟩
    have h1 : R.iterations - i = k + 1 := by omega
    have h2 : R.iterations - (i + 1) = k := by omega
    simp only [ReadTest.remaining, hpc, h1, h2, List.length_nil, Nat.sub_zero, Nat.succ_mul]
    omega
  | finish i hpc hi =>
    simp only [ReadTest.remaining, hpc, Nat.sub_eq_zero_of_le (Nat.not_lt.mp hi), Nat.zero_mul]
  | back i st p visited hpc hback =>
    rw [hpc] at hcons
    have hlast : visited.length + 1 = R.unitNum := (hcons.2.back_iff hcons.1).mp hback
    simp only [ReadTest.remaining, hpc]
    omega
  | visit i st p visited hpc hback =>
    rw [hpc] at hcons
    have hlt : visited.length < R.unitNum := hcons.2.length_lt
    simp only [ReadTest.remaining, hpc, List.length_append, List.length_singleton]
    omega

/-- A step counts its iteration if it ends one. -/
theorem Moves.counted {r : Fin R.unitNum} (h : R.Moves t r g w g' w') (hc : R.Counted w) :
    R.Counted w' := by
  unfold Counted at hc
  cases h with
  | link i hpc hi | arrive i hpc hi =>
    rw [hpc] at hc
    exact hc
  | pass hpc =>
    rw [hpc] at hc
    exact ⟨List.length_eq_zero_iff.mpr hc, Nat.zero_le _⟩
  | start i hpc hi =>
    rw [hpc] at hc
    exact ⟨hc.1, hi⟩
  | finish i hpc hi =>
    rw [hpc] at hc
    exact hc.1.trans (Nat.le_antisymm hc.2 (Nat.not_lt.mp hi))
  | back i st p visited hpc hback =>
    rw [hpc] at hc
    refine ⟨?_, hc.2⟩
    show (w.walks ++ [visited ++ [p]]).length = i + 1
    rw [List.length_append, List.length_singleton, hc.1]
  | visit i st p visited hpc hback =>
    rw [hpc] at hc
    exact hc

/-- A thread is awaited until it comes to the barrier. -/
theorem Moves.arrived {r : Fin R.unitNum} (h : R.Moves t r g w g' w') :
    g'.arrived + awaited w' = g.arrived + awaited w := by
  cases h <;> simp only [awaited, *]

/-- What the threads hold together. -/
structure Ending (R : ReadTest) (g : Region) (f : Fin R.threadNum → WorkerUnit) : Prop where
  holds : ∀ t, Holds (R.slice t) g.memory (f t)
  counted : ∀ t, R.Counted (f t)
  arrived : g.arrived + ∑ t, awaited (f t) = R.threadNum

theorem ending_initial (m : Memory) :
    R.Ending (R.initial m).shared (R.initial m).threads where
  holds := holds_initial m
  counted := fun _ => rfl
  arrived := by
    show 0 + ∑ _ : Fin R.threadNum, 1 = R.threadNum
    simp

theorem Ending.step {f : Fin R.threadNum → WorkerUnit} {r : Fin R.unitNum} (h : R.Ending g f)
    (hn : R.next t r g (f t) = some (g', w')) : R.Ending g' (Function.update f t w') := by
  have harrived := (next_moves hn).arrived
  refine ⟨holds_step h.holds hn, ?_, ?_⟩
  · intro j
    by_cases hjt : j = t
    · rw [hjt, Function.update_self]
      exact (next_moves hn).counted (h.counted t)
    · rw [Function.update_of_ne hjt]
      exact h.counted j
  · have hsum := Threads.sum_update awaited f t w'
    have := h.arrived
    omega

/-- While a thread has not finished, one of them can move. -/
theorem Ending.moves {f : Fin R.threadNum → WorkerUnit} (h : R.Ending g f)
    (hpc : (f t).pc ≠ .finished) : ∃ t' r, (R.next t' r g (f t')).isSome := by
  have r : Fin R.unitNum := ⟨0, Nat.zero_lt_of_lt R.one_lt_unitNum⟩
  by_cases hbuilding : ∃ t' i, (f t').pc = .building i
  · obtain ⟨t', i, hb⟩ := hbuilding
    refine ⟨t', r, ?_⟩
    unfold next
    rw [hb]
    dsimp only
    split <;> rfl
  · refine ⟨t, r, ?_⟩
    unfold next
    cases hw : (f t).pc with
    | building i => exact absurd ⟨t, i, hw⟩ hbuilding
    | waiting =>
      have hnone : ∑ t', awaited (f t') = 0 := by
        refine Finset.sum_eq_zero fun t' _ => ?_
        unfold awaited
        split
        · next i hb => exact absurd ⟨t', i, hb⟩ hbuilding
        · rfl
      have hall := h.arrived
      rw [hnone, Nat.add_zero] at hall
      dsimp only
      rw [if_pos hall]
      rfl
    | starting i =>
      dsimp only
      split <;> rfl
    | visiting i st p visited =>
      dsimp only
      split <;> rfl
    | finished => exact absurd hw hpc

/-- However the threads interleave, a run is as long as what they have done of their links,
the barrier and their iterations, and it stops only when all have finished. -/
theorem workers_end {m : Memory} {l : List (Fin R.threadNum × Fin R.unitNum)}
    {d : Threads.Config (Fin R.threadNum) Region WorkerUnit}
    (h : Threads.schedule R.next l (R.initial m) = some d) :
    l.length + ∑ t, R.remaining (d.threads t) =
        R.threadNum * (R.unitNum + R.iterations * (R.unitNum + 1) + 3) ∧
      ((∃ t r, (R.next t r d.shared (d.threads t)).isSome) ∨
        ∀ t, (d.threads t).pc = .finished ∧ (d.threads t).walks.length = R.iterations) := by
  have hending : R.Ending d.shared d.threads :=
    Threads.Reaches.invariant (P := R.Ending) (ending_initial m)
      (fun _ _ _ _ _ _ hf hn => hf.step hn) (Threads.schedule_reaches h)
  constructor
  · rw [Threads.schedule_length R.remaining (P := R.Ending) ?_ (ending_initial m) h]
    · show ∑ _ : Fin R.threadNum, (R.unitNum - 0 + R.iterations * (R.unitNum + 1) + 3) = _
      simp
    · intro g f t r g' x hf hn
      exact ⟨hf.step hn, (hf.holds t).remaining (next_moves hn)⟩
  · by_cases hall : ∀ t, (d.threads t).pc = .finished
    · refine Or.inr fun t => ⟨hall t, ?_⟩
      have hcounted := hending.counted t
      unfold Counted at hcounted
      rw [hall t] at hcounted
      exact hcounted
    · obtain ⟨t, ht⟩ := not_forall.mp hall
      exact Or.inl (hending.moves ht)

end ReadTest

/-- The links are one cycle of `unit_num` units, in the test with one thread and for each of
the threads in any interleaving, and every iteration walks all of its units. -/
theorem prefetching_covers (s : Slice) (maxSize : BitVec 64) (starts : List (Fin s.unitNum))
    (m₀ : Memory) (R : ReadTest) (m : Memory)
    (d : Threads.Config (Fin R.threadNum) Region WorkerUnit)
    (h : Threads.Reaches R.next (R.initial m) d) :
    (IsRing (s.build m₀) s.units ∧ s.units.length = s.unitNum ∧
      (s.Admitted maxSize → ∃ ls, Yields (extremeCasePrefetching maxSize s starts m₀) ls ∧
        ls.length = starts.length ∧ ∀ l ∈ ls, l.Perm s.units)) ∧
    ∀ t, R.Covers t d.shared (d.threads t) ∧ (R.slice t).units.length = R.unitNum ∧
      ∀ t', t ≠ t' → List.Disjoint (R.slice t).units (R.slice t').units := by
  refine ⟨⟨Slice.build_isRing m₀, Slice.length_units, ?_⟩, ?_⟩
  · exact fun hadm => extremeCasePrefetching_yields hadm starts m₀
  · intro t
    exact ⟨(ReadTest.holds_of_reaches h t).covers, Slice.length_units,
      fun _ hne => ReadTest.slices_disjoint hne⟩

/-- Two threads with two units each. -/
def twoThreads : ReadTest where
  addr := 4096
  maxSize := 4096
  wss := 1024
  threadNum := 2
  iterations := 1
  threadNum_pos := by decide
  notTooLarge := by decide
  notTooSmall := by decide
  accessOrder := fun _ => Equiv.refl _

/-- Both threads link their units, pass the barrier and walk their slices. -/
def twoThreads.order : List (Fin twoThreads.threadNum × Fin twoThreads.unitNum) :=
  [0, 1, 1, 0, 1, 0, 0, 1, 0, 0, 1, 1, 0, 1, 0, 1].map fun t =>
    (⟨t % 2, Nat.mod_lt t (by decide)⟩, ⟨1, by decide⟩)

theorem twoThreads_runs :
    ((Threads.schedule twoThreads.next twoThreads.order (twoThreads.initial fun _ => 0)).map
      fun d => ((d.threads ⟨0, by decide⟩).walks.length, (d.threads ⟨1, by decide⟩).walks.length)) =
      some (1, 1) := by
  decide +kernel

theorem prefetching_covers_two :
    ∃ d, Threads.Reaches twoThreads.next (twoThreads.initial fun _ => 0) d ∧
      (∀ t, twoThreads.Covers t d.shared (d.threads t)) ∧
      (∀ t, ∃ l, (d.threads t).walks = [l] ∧ l.Perm (twoThreads.slice t).units) ∧
      ∃ l, Yields (extremeCasePrefetching 4096 (twoThreads.slice ⟨0, by decide⟩)
        [⟨1, by decide⟩] fun _ => 0) [l] ∧ l.Perm (twoThreads.slice ⟨0, by decide⟩).units := by
  obtain ⟨d, hd, hwalks⟩ := Option.map_eq_some_iff.mp twoThreads_runs
  obtain ⟨h0, h1⟩ := Prod.mk.inj hwalks
  have hall := prefetching_covers (twoThreads.slice ⟨0, by decide⟩) 4096 [⟨1, by decide⟩]
    (fun _ => 0) twoThreads (fun _ => 0) d (Threads.schedule_reaches hd)
  have hone : ∀ t, (d.threads t).walks.length = 1 := by
    intro t
    match t with
    | ⟨0, _⟩ => exact h0
    | ⟨1, _⟩ => exact h1
  obtain ⟨ls, hls, hlen, hperm⟩ := hall.1.2.2 (by unfold Slice.Admitted; decide)
  obtain ⟨l, rfl⟩ := List.length_eq_one_iff.mp hlen
  refine ⟨d, Threads.schedule_reaches hd, fun t => (hall.2 t).1, ?_, l, hls,
    hperm l List.mem_cons_self⟩
  intro t
  obtain ⟨l, hl⟩ := List.length_eq_one_iff.mp (hone t)
  exact ⟨l, hl, (hall.2 t).1.walks l (by rw [hl]; exact List.mem_cons_self)⟩

/-! ### The mapped region -/

/-- The units that a thread has written or read. -/
def WorkerUnit.touched (w : WorkerUnit) : List (BitVec 64) :=
  w.written ++ w.walks.flatten ++
    match w.pc with
    | .visiting _ _ _ visited => visited
    | _ => []

namespace ReadTest

variable {R : ReadTest} {t : Fin R.threadNum}

/-- The unit at `a` is in the first `max_size` bytes of the region. -/
def InRegion (R : ReadTest) (a : BitVec 64) : Prop := (a - R.addr).toNat + 256 ≤ R.maxSize.toNat

def StaysInRegion (R : ReadTest) : Prop :=
  ∀ m d, Threads.Reaches R.next (R.initial m) d →
    ∀ t, ∀ a ∈ (d.threads t).touched, R.InRegion a

theorem Holds.touched_mem {s : Slice} {m : Memory} {w : WorkerUnit} (h : Holds s m w) :
    ∀ a ∈ w.touched, a ∈ s.units := by
  intro a ha
  rcases List.mem_append.mp ha with ha | ha
  · rcases List.mem_append.mp ha with ha | ha
    · exact h.written_mem a ha
    · obtain ⟨l, hl, ha⟩ := List.mem_flatten.mp ha
      exact (h.walks_perm l hl).subset ha
  · have hcons := h.consistent
    split at ha
    · next i st p visited hpc =>
      rw [hpc] at hcons
      rw [hcons.2.visited_eq] at ha
      exact Visiting.isRing.part_subset hcons.2.start_mem _ a ha
    · exact absurd ha List.not_mem_nil

/-- A thread on its own links its units one after another. -/
theorem alone_builds (m : Memory) (t : Fin R.threadNum) {n : ℕ} (hn : n ≤ R.unitNum) :
    ∃ g w, Threads.Alone R.next t (⟨m, 0⟩, ⟨.building 0, [], []⟩) (g, w) ∧ w.pc = .building n ∧
      ∀ k : Fin (R.slice t).unitNum, k.val < n →
        (R.slice t).unit ((R.slice t).order k) ∈ w.written := by
  induction n with
  | zero => exact ⟨_, _, .refl, rfl, fun k hk => absurd hk (Nat.not_lt_zero k)⟩
  | succ n ih =>
    obtain ⟨g, w, halone, hpc, hw⟩ := ih (by omega)
    have hlt : n < R.unitNum := hn
    obtain ⟨g', w', hnext, hpc', hwritten⟩ : ∃ g' w', R.next t ⟨n, hlt⟩ g w = some (g', w') ∧
        w'.pc = .building (n + 1) ∧
        w'.written = w.written ++ [((R.slice t).link ⟨n, hlt⟩).1] := by
      unfold next
      rw [hpc]
      exact ⟨_, _, dif_pos hlt, rfl, rfl⟩
    refine ⟨g', w', halone.tail ⟨⟨n, hlt⟩, hnext⟩, hpc', ?_⟩
    intro k hk
    rw [hwritten]
    rcases Nat.lt_succ_iff_lt_or_eq.mp hk with hk | hk
    · exact List.mem_append_left _ (hw k hk)
    · refine List.mem_append_right _ ?_
      have hkn : k = ⟨n, hlt⟩ := Fin.ext hk
      rw [Slice.link_fst, List.mem_singleton, hkn]

theorem StaysInRegion.le (h : R.StaysInRegion) :
    256 * (R.threadNum * R.unitNum) ≤ R.maxSize.toNat := by
  have hT := R.threadNum_pos
  have hn := R.one_lt_unitNum
  -- the last unit of the last thread
  let t : Fin R.threadNum := ⟨R.threadNum - 1, by omega⟩
  let i : Fin (R.slice t).unitNum := ⟨R.unitNum - 1, Nat.sub_lt (by omega) Nat.one_pos⟩
  obtain ⟨g, w, halone, hpc, hw⟩ := alone_builds (R := R) (fun _ => 0) t le_rfl
  have hreach := halone.reaches (f := fun _ => ⟨.building 0, [], []⟩) rfl
  have hmem : (R.slice t).unit i ∈ w.touched := by
    refine List.mem_append_left _ (List.mem_append_left _ ?_)
    have := hw ((R.slice t).order.symm i) (Fin.isLt _)
    rwa [Equiv.apply_symm_apply] at this
  have htouched : (R.slice t).unit i ∈
      (Function.update (fun _ => (⟨.building 0, [], []⟩ : WorkerUnit)) t w t).touched := by
    rw [Function.update_self]
    exact hmem
  have hin := h (fun _ => 0) _ hreach t ((R.slice t).unit i) htouched
  have hunit := unit_toNat t i
  unfold InRegion at hin
  rw [hunit] at hin
  have hlast : R.threadNum * R.unitNum = t * R.unitNum + i + 1 := by
    show _ = (R.threadNum - 1) * R.unitNum + (R.unitNum - 1) + 1
    rw [Nat.sub_mul]
    have := Nat.le_mul_of_pos_left R.unitNum hT
    omega
  rw [hlast]
  omega

/-- The threads stay in the region exactly when it has room for all of their slices. -/
theorem staysInRegion_iff (R : ReadTest) :
    R.StaysInRegion ↔ 256 * (R.threadNum * R.unitNum) ≤ R.maxSize.toNat := by
  constructor
  · exact StaysInRegion.le
  · intro hle m d h t a ha
    obtain ⟨i, rfl⟩ := Slice.mem_units.mp ((holds_of_reaches h t).touched_mem a ha)
    have hunit := unit_toNat t i
    unfold InRegion
    rw [hunit]
    have h1 : (t.val + 1) * R.unitNum ≤ R.threadNum * R.unitNum :=
      Nat.mul_le_mul_right _ t.isLt
    rw [Nat.succ_mul] at h1
    have : i.val < R.unitNum := i.isLt
    omega

/-- Two threads share a working set of twice the region. -/
def twiceTheRegion : ReadTest where
  addr := 4096
  maxSize := 8192
  wss := 16384
  threadNum := 2
  iterations := 10
  threadNum_pos := by decide
  notTooLarge := by decide
  notTooSmall := by decide
  accessOrder := fun _ => Equiv.refl _

theorem twice_leaves_region : ¬ twiceTheRegion.StaysInRegion := by
  intro h
  exact absurd h.le (by decide)

end ReadTest

end PmemStudy.Micro
