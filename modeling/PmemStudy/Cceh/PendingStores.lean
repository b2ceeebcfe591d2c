import PmemStudy.Cceh.SharedRuns

/-!
# Directory entries that are still to be stored

Splits of different segments store into the same directory at the same time. Once an update
has made its first store, its remaining stores count as made: the directory that they lead to
is made of aligned blocks, whatever order the threads take.
-/

namespace PmemStudy.Cceh

open AlignedBlocks Threads

/-- The entry that a store changes. -/
def Store.slot : Store → ℕ
  | .entry i _ => i
  | _ => 0

/-- The store replaces an entry that refers to `target`. -/
def Store.Replaces (D : Directory) (target : ℕ) : Store → Prop
  | .entry i _ => D.segment i = target
  | _ => True

instance (D : Directory) (target : ℕ) (e : Store) : Decidable (e.Replaces D target) := by
  cases e <;> unfold Store.Replaces <;> infer_instance

/-! ### The stores of a stride -/

section Stride

variable {b : Build} {d l x s0 s1 e s : ℕ} {entry : ℕ → ℕ}

theorem half_stride (hl : l < d) : 2 ^ (d - l) / 2 = 2 ^ (d - (l + 1)) := by
  have hp : 2 ^ (d - l) = 2 * 2 ^ (d - (l + 1)) := by
    rw [← pow_succ']
    congr 1
    omega
  omega

theorem mem_stride : Store.entry e s ∈ strideStores b (2 ^ (d - l)) x s0 s1 ↔
    (x - x % 2 ^ (d - l) + 2 ^ (d - l) / 2 ≤ e ∧
      e < x - x % 2 ^ (d - l) + 2 ^ (d - l) / 2 + 2 ^ (d - l) / 2 ∧ s = s1) ∨
    (b = .cow ∧ x - x % 2 ^ (d - l) ≤ e ∧ e < x - x % 2 ^ (d - l) + 2 ^ (d - l) / 2 ∧ s = s0) := by
  have hrange : ∀ base n t, Store.entry e s ∈ (List.range n).map (fun i => Store.entry (base + i) t) ↔
      base ≤ e ∧ e < base + n ∧ s = t := by
    intro base n t
    simp only [List.mem_map, List.mem_range, Store.entry.injEq]
    constructor
    · rintro ⟨i, hi, rfl, rfl⟩
      exact ⟨by omega, by omega, rfl⟩
    · rintro ⟨hle, hlt, rfl⟩
      exact ⟨e - base, by omega, by omega, rfl⟩
  cases b with
  | cow =>
    simp only [strideStores, List.mem_append, hrange, true_and]
  | inplace =>
    simp only [strideStores, hrange, reduceCtorEq, false_and, or_false]

theorem stride_nodup (stride : ℕ) :
    ((strideStores b stride x s0 s1).map Store.slot).Nodup := by
  have hrange : ∀ base n t, ((List.range n).map fun i => Store.entry (base + i) t).map Store.slot =
      (List.range n).map (base + ·) := by
    intro base n t
    rw [List.map_map]
    rfl
  have hnodup : ∀ base n, ((List.range n).map (base + ·)).Nodup := fun base n =>
    List.nodup_range.map fun i j hij => by
      have : base + i = base + j := hij
      omega
  cases b with
  | inplace =>
    simp only [strideStores, hrange]
    exact hnodup _ _
  | cow =>
    simp only [strideStores, List.map_append, hrange]
    refine (hnodup _ _).append (hnodup _ _) fun i hi hj => ?_
    simp only [List.mem_map, List.mem_range] at hi hj
    obtain ⟨k, hk, rfl⟩ := hi
    obtain ⟨m, hm, he⟩ := hj
    omega

/-- A store of the stride puts the half that the split block has there. -/
theorem stride_splitBlock (hl : l < d) (he : Store.entry e s ∈ strideStores b (2 ^ (d - l)) x s0 s1) :
    e / 2 ^ (d - l) = x / 2 ^ (d - l) ∧ splitBlock d l x s0 s1 entry e = s := by
  have hhalf := half_stride hl
  have hpos : 0 < 2 ^ (d - (l + 1)) := Nat.two_pow_pos _
  have hp : 2 ^ (d - l) = 2 * 2 ^ (d - (l + 1)) := by
    rw [← pow_succ']
    congr 1
    omega
  have hblock := block_iff (2 ^ (d - l)) x e (Nat.two_pow_pos _)
  have hup := upper_half_iff (2 ^ (d - (l + 1))) x e hpos
  rw [← hp] at hup
  rcases mem_stride.mp he with ⟨hle, hlt, rfl⟩ | ⟨_, hle, hlt, rfl⟩
  · have hin := hblock.mpr ⟨by omega, by omega⟩
    exact ⟨hin, splitBlock_upper _ _ _ _ _ _ _ hin ((hup hin).mpr (by omega))⟩
  · have hin := hblock.mpr ⟨by omega, by omega⟩
    refine ⟨hin, splitBlock_lower _ _ _ _ _ _ _ hin ?_⟩
    have := (hup hin).not.mpr (by omega)
    omega

/-- What the stride leaves out is outside of the block, or the lower half in place. -/
theorem stride_missing (hl : l < d) (he : ∀ s, Store.entry e s ∉ strideStores b (2 ^ (d - l)) x s0 s1)
    (hs0 : b = .inplace → e / 2 ^ (d - l) = x / 2 ^ (d - l) → entry e = s0) :
    splitBlock d l x s0 s1 entry e = entry e := by
  have hhalf := half_stride hl
  have hpos : 0 < 2 ^ (d - (l + 1)) := Nat.two_pow_pos _
  have hp : 2 ^ (d - l) = 2 * 2 ^ (d - (l + 1)) := by
    rw [← pow_succ']
    congr 1
    omega
  have hblock := block_iff (2 ^ (d - l)) x e (Nat.two_pow_pos _)
  have hup := upper_half_iff (2 ^ (d - (l + 1))) x e hpos
  rw [← hp] at hup
  rcases splitBlock_cases d l x s0 s1 entry e with ⟨hin, hm, heq⟩ | ⟨hin, hm, heq⟩ | ⟨hout, heq⟩
  · have hrange := hblock.mp hin
    have hlow := (hup hin).not.mp (by omega)
    cases b with
    | cow => exact absurd (mem_stride.mpr (Or.inr ⟨rfl, hrange.1, by omega, rfl⟩)) (he s0)
    | inplace => rw [heq, hs0 rfl hin]
  · have hrange := hblock.mp hin
    have hlow := (hup hin).mp hm
    exact absurd (mem_stride.mpr (Or.inl ⟨by omega, by omega, rfl⟩)) (he s1)
  · exact heq

/-- The upper half of the block is stored in both builds. -/
theorem stride_upper (hl : l < d) :
    Store.entry (x - x % 2 ^ (d - l) + 2 ^ (d - l) / 2) s1 ∈ strideStores b (2 ^ (d - l)) x s0 s1 := by
  have hhalf := half_stride hl
  have hpos : 0 < 2 ^ (d - (l + 1)) := Nat.two_pow_pos _
  exact mem_stride.mpr (Or.inl ⟨le_rfl, by omega, rfl⟩)

end Stride

/-! ### The directory that the pending stores lead to -/

section Settling

variable {ι : Type} (b : Build) (st : CCEH) (g : ι → Progress)

/-- In place: an update of `p` has begun and has not raised the local depth yet. -/
def Raised (p : ℕ) : Prop := b = .inplace ∧ ∃ i u rest, g i = .storing u rest ∧ u.s0 = p

open Classical in
/-- The local depth after the updates that have begun. -/
noncomputable def level (p : ℕ) : ℕ :=
  (st.segs p).localDepth + if Raised b g p then 1 else 0

/-- `entry` is the newest directory with all pending stores made. -/
structure Settles (entry : ℕ → ℕ) : Prop where
  blocked : Blocked st.curDir.depth entry (level b st g)
  pending : ∀ i u rest, g i = .storing u rest → ∀ e s, Store.entry e s ∈ rest →
    entry e = s ∧ st.curDir.segment e = u.target
  settled : ∀ e < 2 ^ st.curDir.depth,
    (∀ i u rest, g i = .storing u rest → ∀ s, Store.entry e s ∉ rest) →
      entry e = st.curDir.segment e
  nodup : ∀ i u rest, g i = .storing u rest → (rest.map Store.slot).Nodup

/-- Different updates have different targets. -/
def Progress.Apart (p q : Progress) : Prop :=
  ∀ u v, (p = .fresh u ∨ ∃ rest, p = .storing u rest) → (q = .fresh v ∨ ∃ rest, q = .storing v rest) →
    u.target ≠ v.target

variable {b st g} {st' : CCEH} {g' : ι → Progress} {i : ι} {u : Halves} {entry : ℕ → ℕ}

theorem level_of_raised {p : ℕ} (h : Raised b g p) : level b st g p = (st.segs p).localDepth + 1 := by
  unfold level
  rw [if_pos h]

theorem level_of_not_raised {p : ℕ} (h : ¬ Raised b g p) : level b st g p = (st.segs p).localDepth := by
  unfold level
  rw [if_neg h, Nat.add_zero]

theorem level_congr {p : ℕ} (hd : (st'.segs p).localDepth = (st.segs p).localDepth)
    (hr : Raised b g' p ↔ Raised b g p) : level b st' g' p = level b st g p := by
  by_cases h : Raised b g p
  · rw [level_of_raised h, level_of_raised (hr.mpr h), hd]
  · rw [level_of_not_raised h, level_of_not_raised fun h' => h (hr.mp h'), hd]

/-- A step that changes neither the newest directory nor a pending store. -/
theorem Settles.keep (h : Settles b st g entry) (hdepth : st'.curDir.depth = st.curDir.depth)
    (hsegment : st'.curDir.segment = st.curDir.segment)
    (hlevel : ∀ e < 2 ^ st.curDir.depth,
      (st'.segs (entry e)).localDepth = (st.segs (entry e)).localDepth)
    (hg : ∀ j v rest, g' j = .storing v rest ↔ g j = .storing v rest) : Settles b st' g' entry := by
  have hraised : ∀ p, Raised b g' p ↔ Raised b g p := by
    intro p
    simp only [Raised, hg]
  refine ⟨?_, fun j v rest hj e s he => ?_, fun e he hnone => ?_, fun j v rest hj => ?_⟩
  · rw [hdepth]
    exact h.blocked.congr (fun _ _ => rfl) fun e he => level_congr (hlevel e he) (hraised _)
  · rw [hsegment]
    exact h.pending j v rest ((hg j v rest).mp hj) e s he
  · rw [hdepth] at he
    rw [hsegment]
    exact h.settled e he fun j v rest hj => hnone j v rest ((hg j v rest).mpr hj)
  · exact h.nodup j v rest ((hg j v rest).mp hj)

variable [DecidableEq ι]

/-- One of the pending stores is made. -/
theorem Settles.advance (h : Settles b st g entry) {e s : ℕ} {rest : List Store}
    (hi : g i = .storing u (.entry e s :: rest)) (hapart : ∀ j, j ≠ i → (g i).Apart (g j)) :
    Settles b (st.store (.entry e s)) (Function.update g i (.storing u rest)) entry := by
  have hcur : (st.store (.entry e s)).curDir =
      { st.curDir with segment := Function.update st.curDir.segment e s } := Function.update_self ..
  have hdepth : (st.store (.entry e s)).curDir.depth = st.curDir.depth := by rw [hcur]
  have hseg : ∀ y, (st.store (.entry e s)).curDir.segment y =
      if y = e then s else st.curDir.segment y := by
    intro y
    rw [hcur]
    exact Function.update_apply ..
  obtain ⟨hes, htarget⟩ := h.pending i u _ hi e s (List.mem_cons_self ..)
  have hnodup := h.nodup i u _ hi
  rw [List.map_cons, List.nodup_cons] at hnodup
  have hraised : ∀ p, Raised b (Function.update g i (.storing u rest)) p ↔ Raised b g p := by
    intro p
    refine and_congr_right fun _ => ⟨?_, ?_⟩
    · rintro ⟨j, v, r, hj, hp⟩
      by_cases hji : j = i
      · rw [hji, Function.update_self] at hj
        cases hj
        exact ⟨i, u, _, hi, hp⟩
      · rw [Function.update_of_ne hji] at hj
        exact ⟨j, v, r, hj, hp⟩
    · rintro ⟨j, v, r, hj, hp⟩
      by_cases hji : j = i
      · rw [hji, hi] at hj
        cases hj
        exact ⟨i, u, rest, Function.update_self .., hp⟩
      · exact ⟨j, v, r, by rw [Function.update_of_ne hji]; exact hj, hp⟩
  refine ⟨?_, fun j v r hj e' s' he' => ?_, fun e' he' hnone => ?_, fun j v r hj => ?_⟩
  · rw [hdepth]
    exact h.blocked.congr (fun _ _ => rfl) fun y _ => level_congr rfl (hraised _)
  · rw [hseg]
    by_cases hji : j = i
    · rw [hji, Function.update_self] at hj
      cases hj
      have hne : e' ≠ e := fun heq => hnodup.1 (List.mem_map.mpr ⟨_, he', heq⟩)
      rw [if_neg hne]
      exact h.pending i u _ hi e' s' (List.mem_cons_of_mem _ he')
    · rw [Function.update_of_ne hji] at hj
      obtain ⟨hes', htarget'⟩ := h.pending j v r hj e' s' he'
      have hne : e' ≠ e := by
        rintro rfl
        exact hapart j hji u v (Or.inr ⟨_, hi⟩) (Or.inr ⟨_, hj⟩) (htarget.symm.trans htarget')
      rw [if_neg hne]
      exact ⟨hes', htarget'⟩
  · rw [hdepth] at he'
    rw [hseg]
    by_cases hne : e' = e
    · rw [if_pos hne, hne, hes]
    · rw [if_neg hne]
      refine h.settled e' he' fun j v r hj s' hmem => ?_
      by_cases hji : j = i
      · rw [hji, hi] at hj
        cases hj
        rcases List.mem_cons.mp hmem with heq | hmem
        · cases heq
          exact hne rfl
        · exact hnone i u rest (Function.update_self ..) s' hmem
      · exact hnone j v r (by rw [Function.update_of_ne hji]; exact hj) s' hmem
  · by_cases hji : j = i
    · rw [hji, Function.update_self] at hj
      cases hj
      exact hnodup.2
    · rw [Function.update_of_ne hji] at hj
      exact h.nodup j v r hj

end Settling

end PmemStudy.Cceh
