import PmemStudy.FastFair.Walks

/-!
# Leaves with any values

The search of a leaf ends at a null pointer and skips a record whose pointer is the one before
it. So it depends on the pointers in front of a record whether it is found, and a new record
may hide others, or make them visible again.
-/

namespace PmemStudy.FastFair
open PmemStudy.Slots

/-- When the pointers are `v`, the search of a leaf that begins with record `lo` finds `j`. -/
def Legible (v : ℕ → ℕ) (lo j : ℕ) : Prop :=
  v j ≠ NULL ∧ (lo < j → v (j - 1) ≠ v j ∧ ∀ i < j, lo < i → v i ≠ NULL)

instance (v : ℕ → ℕ) (lo j : ℕ) : Decidable (Legible v lo j) :=
  inferInstanceAs (Decidable (_ ∧ (_ → _ ∧ ∀ i < j, _ → _)))

/-- The pointers after `x` was put in front of record `c`. -/
def putAt (v : ℕ → ℕ) (c x i : ℕ) : ℕ := if i < c then v i else if i = c then x else v (i - 1)

/-- The records from `lo` up to `hi` are found as before in a leaf that begins with record `lo`
and has the pointer `x` in front of record `c`. -/
structure Spared (v : ℕ → ℕ) (lo hi c x : ℕ) : Prop where
  front : ∀ j < hi, lo ≤ j → j < c → (Legible v 0 j ↔ Legible v lo j)
  next : c < hi → (Legible v 0 c ↔
    v c ≠ NULL ∧ x ≠ v c ∧ (lo < c → x ≠ NULL ∧ ∀ i < c, lo < i → v i ≠ NULL))
  behind : ∀ j < hi, c < j →
    (Legible v 0 j ↔ Legible v lo j ∧ if lo = c then v c ≠ NULL else x ≠ NULL)

instance (v : ℕ → ℕ) (lo hi c x : ℕ) : Decidable (Spared v lo hi c x) :=
  haveI : Decidable (c < hi → (Legible v 0 c ↔
      v c ≠ NULL ∧ x ≠ v c ∧ (lo < c → x ≠ NULL ∧ ∀ i < c, lo < i → v i ≠ NULL))) := inferInstance
  decidable_of_iff ((∀ j < hi, lo ≤ j → j < c → (Legible v 0 j ↔ Legible v lo j)) ∧
    (c < hi → (Legible v 0 c ↔
      v c ≠ NULL ∧ x ≠ v c ∧ (lo < c → x ≠ NULL ∧ ∀ i < c, lo < i → v i ≠ NULL))) ∧
    ∀ j < hi, c < j → (Legible v 0 j ↔ Legible v lo j ∧ if lo = c then v c ≠ NULL else x ≠ NULL))
    ⟨fun h => ⟨h.1, h.2.1, h.2.2⟩, fun h => ⟨h.front, h.next, h.behind⟩⟩

section
variable {v : ℕ → ℕ} {lo hi c x j : ℕ}

theorem legible_putAt_front (h : j < c) : Legible (putAt v c x) lo j ↔ Legible v lo j := by
  have hv : ∀ i, i ≤ j → putAt v c x i = v i := fun i hi => if_pos (lt_of_le_of_lt hi h)
  unfold Legible
  rw [hv j (le_refl j), hv (j - 1) (Nat.sub_le j 1)]
  refine and_congr_right fun _ => imp_congr_right fun _ => and_congr_right fun _ => ?_
  refine forall_congr' fun i => forall_congr' fun hi => ?_
  rw [hv i hi.le]

theorem legible_putAt_next (h : lo ≤ c) : Legible (putAt v c x) lo (c + 1) ↔
    v c ≠ NULL ∧ x ≠ v c ∧ (lo < c → x ≠ NULL ∧ ∀ i < c, lo < i → v i ≠ NULL) := by
  have hfront : ∀ i, i < c → putAt v c x i = v i := fun i hi => if_pos hi
  have hself : putAt v c x c = x := by simp [putAt]
  have hnext : putAt v c x (c + 1) = v c := by simp [putAt]
  unfold Legible
  rw [hnext, Nat.add_sub_cancel, hself]
  constructor
  · rintro ⟨hc, hall⟩
    obtain ⟨hx, hall⟩ := hall (by omega)
    refine ⟨hc, hx, fun hlt => ⟨?_, ?_⟩⟩
    · rw [← hself]
      exact hall c (Nat.lt_succ_self c) hlt
    · intro i hi hlo
      rw [← hfront i hi]
      exact hall i (by omega) hlo
  · rintro ⟨hc, hx, hall⟩
    refine ⟨hc, fun _ => ⟨hx, ?_⟩⟩
    intro i hi hlo
    rcases Nat.lt_or_eq_of_le (Nat.le_of_lt_succ hi) with hlt | rfl
    · rw [hfront i hlt]
      exact (hall (by omega)).2 i hlt hlo
    · rw [hself]
      exact (hall hlo).1

theorem legible_putAt_behind (h : lo ≤ c) (hj : c < j) : Legible (putAt v c x) lo (j + 1) ↔
    Legible v lo j ∧ if lo = c then v c ≠ NULL else x ≠ NULL := by
  have hfront : ∀ i, i < c → putAt v c x i = v i := fun i hi => if_pos hi
  have hself : putAt v c x c = x := by simp [putAt]
  have hbehind : ∀ i, c ≤ i → putAt v c x (i + 1) = v i := by
    intro i hi
    simp only [putAt, if_neg (show ¬ i + 1 < c by omega), if_neg (show ¬ i + 1 = c by omega),
      Nat.add_sub_cancel]
  obtain ⟨d, rfl⟩ : ∃ d, j = d + 1 := ⟨j - 1, by omega⟩
  unfold Legible
  rw [hbehind (d + 1) hj.le, Nat.add_sub_cancel, Nat.add_sub_cancel, hbehind d (by omega)]
  constructor
  · rintro ⟨hv, hall⟩
    obtain ⟨hd, hall⟩ := hall (by omega)
    refine ⟨⟨hv, fun _ => ⟨hd, ?_⟩⟩, ?_⟩
    · intro i hi hlo
      by_cases hic : i < c
      · rw [← hfront i hic]
        exact hall i (by omega) hlo
      · rw [← hbehind i (by omega)]
        exact hall (i + 1) (by omega) (by omega)
    · split
      · rw [← hbehind c (le_refl c)]
        exact hall (c + 1) (by omega) (by omega)
      · rw [← hself]
        exact hall c (by omega) (by omega)
  · rintro ⟨⟨hv, hall⟩, hx⟩
    obtain ⟨hd, hall⟩ := hall (by omega)
    refine ⟨hv, fun _ => ⟨hd, ?_⟩⟩
    intro i hi hlo
    rcases Nat.lt_trichotomy i c with hic | rfl | hic
    · rw [hfront i hic]
      exact hall i (by omega) hlo
    · rw [if_neg (by omega)] at hx
      rw [hself]
      exact hx
    · obtain ⟨m, rfl⟩ : ∃ m, i = m + 1 := ⟨i - 1, by omega⟩
      rw [hbehind m (by omega)]
      by_cases hmlo : lo < m
      · exact hall m (by omega) hmlo
      · rw [if_pos (by omega)] at hx
        rw [show m = c by omega]
        exact hx

theorem spared_iff (h : lo ≤ c) : Spared v lo hi c x ↔ ∀ j < hi, lo ≤ j →
    (Legible v 0 j ↔ Legible (putAt v c x) lo (if j < c then j else j + 1)) := by
  constructor
  · intro hs j hj hlo
    rcases Nat.lt_trichotomy j c with hjc | rfl | hjc
    · rw [if_pos hjc, legible_putAt_front hjc]
      exact hs.front j hj hlo hjc
    · rw [if_neg (lt_irrefl j), legible_putAt_next h]
      exact hs.next hj
    · rw [if_neg (by omega), legible_putAt_behind h hjc]
      exact hs.behind j hj hjc
  · intro hall
    refine ⟨?_, ?_, ?_⟩
    · intro j hj hlo hjc
      rw [hall j hj hlo, if_pos hjc, legible_putAt_front hjc]
    · intro hc
      rw [hall c hc h, if_neg (lt_irrefl c), legible_putAt_next h]
    · intro j hj hjc
      rw [hall j hj (by omega), if_neg (by omega), legible_putAt_behind h hjc]

end

/-! ### What a leaf answers -/

section
variable {v : ℕ → ℕ} {es : List Entry}

theorem find_legible (hi : Increasing es) (lo : ℕ)
    (hv : ∀ i (h : i < es.length), es[i].ptr = v (lo + 1 + i)) (j : ℕ) (hj : j < es.length) :
    find es[j].key (v lo) (es.takeWhile fun d => decide (d.ptr ≠ NULL)) =
      if Legible v lo (lo + 1 + j) then some (v (lo + 1 + j)) else none := by
  induction es generalizing lo j with
  | nil => exact absurd hj (Nat.not_lt_zero j)
  | cons e es ih =>
    obtain ⟨hlt, hi⟩ := List.pairwise_cons.mp hi
    have he : e.ptr = v (lo + 1) := hv 0 (Nat.succ_pos _)
    have hes : ∀ i (h : i < es.length), es[i].ptr = v (lo + 1 + 1 + i) := by
      intro i h
      rw [show lo + 1 + 1 + i = lo + 1 + (i + 1) by omega]
      exact hv (i + 1) (Nat.succ_lt_succ h)
    by_cases h0 : e.ptr = NULL
    · -- the search ends here
      rw [List.takeWhile_cons_of_neg (by simp [h0]), if_neg ?_]
      · rfl
      · rintro ⟨hne, hall⟩
        cases j with
        | zero => exact hne (he.symm.trans h0)
        | succ j => exact (hall (by omega)).2 (lo + 1) (by omega) (by omega) (he.symm.trans h0)
    · rw [List.takeWhile_cons_of_pos (by simp [h0])]
      cases j with
      | zero =>
        simp only [List.getElem_cons_zero, find, true_and, Nat.add_zero, he]
        rw [he] at h0
        by_cases hrep : v lo = v (lo + 1)
        · rw [if_neg (not_not.mpr hrep), if_neg (fun h => (h.2 (by omega)).1 hrep)]
          refine find_none ?_
          intro d hd
          exact (hlt d (List.takeWhile_sublist _ |>.mem hd)).ne'
        · rw [if_pos hrep, if_pos]
          exact ⟨h0, fun _ => ⟨hrep, fun i hi hlo => by omega⟩⟩
      | succ j =>
        have hj' : j < es.length := Nat.lt_of_succ_lt_succ hj
        have hne : e.key ≠ es[j].key := (hlt _ (List.getElem_mem hj')).ne
        simp only [List.getElem_cons_succ, find]
        rw [if_neg (fun h => hne h.1), he, ih hi (lo + 1) hes j hj',
          show lo + 1 + 1 + j = lo + 1 + (j + 1) by omega]
        rw [he] at h0
        refine if_congr ?_ rfl rfl
        unfold Legible
        refine and_congr_right fun _ => ?_
        constructor
        · intro h _
          obtain ⟨h1, h2⟩ := h (by omega)
          refine ⟨h1, ?_⟩
          intro i hi hlo
          by_cases hil : i = lo + 1
          · rw [hil]
            exact h0
          · exact h2 i hi (by omega)
        · intro h _
          obtain ⟨h1, h2⟩ := h (by omega)
          exact ⟨h1, fun i hi hlo => h2 i hi (by omega)⟩

/-- The answer for the key of a record. -/
theorem read_legible (hi : Increasing es) {lo : ℕ}
    (hv : ∀ i (h : i < es.length), es[i].ptr = v (lo + i)) {j : ℕ} (hj : j < es.length) :
    read es es[j].key = if Legible v lo (lo + j) then v (lo + j) else NULL := by
  cases es with
  | nil => exact absurd hj (Nat.not_lt_zero j)
  | cons e es =>
    obtain ⟨hlt, hi⟩ := List.pairwise_cons.mp hi
    have he : e.ptr = v lo := hv 0 (Nat.succ_pos _)
    have hes : ∀ i (h : i < es.length), es[i].ptr = v (lo + 1 + i) := by
      intro i h
      rw [show lo + 1 + i = lo + (i + 1) by omega]
      exact hv (i + 1) (Nat.succ_lt_succ h)
    unfold read visible
    cases j with
    | zero =>
      simp only [List.getElem_cons_zero, find, true_and, Nat.add_zero, he]
      by_cases h0 : v lo = NULL
      · rw [if_neg (not_not.mpr h0.symm), if_neg (fun h => h.1 h0), find_none]
        · rfl
        · intro d hd
          exact (hlt d (List.takeWhile_sublist _ |>.mem hd)).ne'
      · rw [if_pos (Ne.symm h0), if_pos ⟨h0, fun h => absurd h (lt_irrefl lo)⟩]
        rfl
    | succ j =>
      have hj' : j < es.length := Nat.lt_of_succ_lt_succ hj
      have hne : e.key ≠ es[j].key := (hlt _ (List.getElem_mem hj')).ne
      simp only [List.getElem_cons_succ, find]
      rw [if_neg (fun h => hne h.1), he, find_legible hi lo hes j hj',
        show lo + 1 + j = lo + (j + 1) by omega]
      split
      · rfl
      · rfl

end

/-! ### An insertion into a leaf -/

/-- Where a new key goes: behind the smaller ones. -/
def Page.position (p : Page) (key : ℤ) : ℕ :=
  (List.range p.count).countP fun i => decide ((p.records i).key < key)

/-- An insertion of `key` with the value `x` into the leaf, which is cut at record 14 if it is
full, leaves the answers for the keys of its records as they are. -/
def Page.Undisturbed (p : Page) (key : ℤ) (x : ℕ) : Prop :=
  if p.count < cardinality - 1 then
    Spared (fun i => (p.records i).ptr) 0 p.count (p.position key) x
  else if key < (p.records 14).key then
    Spared (fun i => (p.records i).ptr) 0 14 (p.position key) x ∧
      ∀ j < 29, 14 ≤ j → (Legible (fun i => (p.records i).ptr) 0 j ↔
        Legible (fun i => (p.records i).ptr) 14 j)
  else Spared (fun i => (p.records i).ptr) 14 29 (p.position key) x

instance (p : Page) (key : ℤ) (x : ℕ) : Decidable (p.Undisturbed key x) := by
  unfold Page.Undisturbed
  infer_instance

/-- The records that are searched for each key, after `e` was put into the leaf `p` with the
records `es`. -/
inductive Parted (p : Page) (es : List Entry) (e : Entry) : (ℤ → List Entry) → Prop
  | whole (c : ℕ) (hlen : es.length < 29) (hspot : Spot es e.key c) :
      Parted p es e fun _ => es.insertIdx c e
  | left (c : ℕ) (hlen : es.length = 29) (hk : e.key < (p.records 14).key)
      (hspot : Spot (es.take 14) e.key c) :
      Parted p es e fun k =>
        if k < (p.records 14).key then (es.take 14).insertIdx c e else es.drop 14
  | right (c : ℕ) (hlen : es.length = 29) (hk : (p.records 14).key ≤ e.key)
      (hspot : Spot (es.drop 14) e.key c) :
      Parted p es e fun k =>
        if k < (p.records 14).key then es.take 14 else (es.drop 14).insertIdx c e

/-- Values that are not null and differ are never disturbed. -/
theorem Page.undisturbed_of_distinct {p : Page} {x : ℕ} (key : ℤ) (hcount : p.count < cardinality)
    (hlive : ∀ i < p.count, (p.records i).ptr ≠ NULL) (hx : x ≠ NULL)
    (hnew : ∀ i < p.count, x ≠ (p.records i).ptr)
    (hdistinct : ∀ i < p.count, 0 < i → (p.records (i - 1)).ptr ≠ (p.records i).ptr) :
    p.Undisturbed key x := by
  have hlegible : ∀ lo, ∀ j < p.count, Legible (fun i => (p.records i).ptr) lo j := fun lo j hj =>
    ⟨hlive j hj, fun hlo => ⟨hdistinct j hj (by omega), fun i hi _ => hlive i (by omega)⟩⟩
  have hspared : ∀ lo hi c, hi ≤ p.count → Spared (fun i => (p.records i).ptr) lo hi c x := by
    intro lo hi c hle
    refine ⟨?_, ?_, ?_⟩
    · intro j hj _ _
      exact iff_of_true (hlegible 0 j (by omega)) (hlegible lo j (by omega))
    · intro hc
      refine iff_of_true (hlegible 0 c (by omega)) ⟨hlive c (by omega), hnew c (by omega), ?_⟩
      exact fun _ => ⟨hx, fun i hi _ => hlive i (by omega)⟩
    · intro j hj hc
      refine iff_of_true (hlegible 0 j (by omega)) ⟨hlegible lo j (by omega), ?_⟩
      split
      · exact hlive c (by omega)
      · exact hx
  rw [cardinality_eq] at hcount
  unfold Page.Undisturbed
  rw [cardinality_eq]
  split
  · exact hspared 0 _ _ (le_refl _)
  · split
    · refine ⟨hspared 0 14 _ (by omega), ?_⟩
      intro j hj _
      exact iff_of_true (hlegible 0 j (by omega)) (hlegible 14 j (by omega))
    · exact hspared 14 29 _ (by omega)

section
variable {p : Page} {es : List Entry} {e : Entry} {c : ℕ}

theorem Parted.subset {part : ℤ → List Entry} (h : Parted p es e part) {k : ℤ} {d : Entry}
    (hd : d ∈ part k) : d = e ∨ d ∈ es := by
  cases h with
  | whole c hlen hspot => exact (List.mem_insertIdx hspot.le).mp hd
  | left c hlen hk hspot =>
    dsimp only at hd
    split at hd
    · exact ((List.mem_insertIdx hspot.le).mp hd).imp_right List.mem_of_mem_take
    · exact Or.inr (List.mem_of_mem_drop hd)
  | right c hlen hk hspot =>
    dsimp only at hd
    split at hd
    · exact Or.inr (List.mem_of_mem_take hd)
    · exact ((List.mem_insertIdx hspot.le).mp hd).imp_right List.mem_of_mem_drop

/-- A new key has its place where `insert_key` puts it. -/
theorem Spot.place (hs : Spot es e.key c) (hi : Increasing es) (hnew : ∀ b ∈ es, b.key ≠ e.key) :
    Place es e.key c := by
  refine ⟨hs.le, ?_, hs.behind⟩
  intro i hi' hic
  obtain ⟨d, rfl⟩ : ∃ d, c = d + 1 := ⟨c - 1, by omega⟩
  have hd : d < es.length := by
    have := hs.le
    omega
  have hlt : es[d].key < e.key :=
    lt_of_le_of_ne (hs.front d hd rfl) (hnew _ (List.getElem_mem hd))
  rcases Nat.lt_or_eq_of_le (show i ≤ d by omega) with hid | rfl
  · exact (List.pairwise_iff_getElem.mp hi i d hi' hd hid).trans hlt
  · exact hlt

/-- A condition that holds of the keys in front of position `c` and of no others. -/
theorem Filled.countP_eq (h : Filled p es) {P : ℤ → Prop} [DecidablePred P] (hc : c ≤ es.length)
    (hP : ∀ i (h : i < es.length), P es[i].key ↔ i < c) :
    (List.range p.count).countP (fun i => decide (P (p.records i).key)) = c := by
  have hrange : (List.range p.count).map p.records = es := by
    rw [h.count]
    refine List.ext_getElem (by simp) ?_
    intro i h1 h2
    simp only [List.getElem_map, List.getElem_range]
    exact h.record i h2
  have hcount : (List.range p.count).countP (fun i => decide (P (p.records i).key)) =
      es.countP fun b => decide (P b.key) := by
    rw [← hrange, List.countP_map]
    rfl
  have hfront : (es.take c).countP (fun b => decide (P b.key)) = (es.take c).length := by
    refine List.countP_eq_length.mpr ?_
    intro b hb
    obtain ⟨i, hi, rfl⟩ := List.mem_take_iff_getElem.mp hb
    exact decide_eq_true ((hP i (by omega)).mpr (by omega))
  have hbehind : (es.drop c).countP (fun b => decide (P b.key)) = 0 := by
    refine List.countP_eq_zero.mpr ?_
    intro b hb
    obtain ⟨i, hi, rfl⟩ := List.mem_drop_iff_getElem.mp hb
    rw [decide_eq_true_eq, hP (c + i) (by omega)]
    omega
  rw [hcount, ← List.take_append_drop c es, List.countP_append, hfront, hbehind, List.length_take,
    Nat.min_eq_left hc, Nat.add_zero]

theorem position_eq (h : Filled p es) (hs : Place es e.key c) : p.position e.key = c := by
  refine h.countP_eq (P := (· < e.key)) hs.le fun i hi => ⟨fun hlt => ?_, hs.left i hi⟩
  by_contra hge
  exact lt_asymm hlt (hs.right i hi (not_lt.mp hge))

/-- An entry that is not disturbed is read as before. -/
theorem ite_read {P Q : Prop} [Decidable P] [Decidable Q] {x : ℕ} (hP : P → x ≠ NULL)
    (hQ : Q → x ≠ NULL) : ((if P then x else NULL) = if Q then x else NULL) ↔ (Q ↔ P) := by
  by_cases hp : P
  · by_cases hq : Q
    · simp [hp, hq]
    · simpa [hp, hq] using hP hp
  · by_cases hq : Q
    · simpa [hp, hq] using (hQ hq).symm
    · simp [hp, hq]

/-- The record `lo + j` of a leaf is record `j` of its part `qs` from `lo` on; another record
is put in front of record `lo + c`. -/
theorem read_insertIdx {v : ℕ → ℕ} {qs : List Entry} {lo : ℕ} (hi : Increasing (qs.insertIdx c e))
    (hc : c ≤ qs.length) (hv : ∀ i (h : i < qs.length), qs[i].ptr = v (lo + i)) {j : ℕ}
    (hj : j < qs.length) : read (qs.insertIdx c e) qs[j].key =
      if Legible (putAt v (lo + c) e.ptr) lo (if lo + j < lo + c then lo + j else lo + j + 1) then
        v (lo + j) else NULL := by
  have hlen : (qs.insertIdx c e).length = qs.length + 1 := List.length_insertIdx_of_le_length hc e
  have hput : ∀ i (h : i < (qs.insertIdx c e).length),
      (qs.insertIdx c e)[i].ptr = putAt v (lo + c) e.ptr (lo + i) := by
    intro i h
    rw [List.getElem_insertIdx]
    unfold putAt
    split
    · next hic => rw [if_pos (by omega), hv]
    · split
      · next hic => rw [if_neg (by omega), if_pos (by omega)]
      · rw [if_neg (by omega), if_neg (by omega), hv, show lo + (i - 1) = lo + i - 1 by omega]
  have hindex : ∀ m (hm : m < (qs.insertIdx c e).length), m = (if j < c then j else j + 1) →
      (qs.insertIdx c e)[m] = qs[j] := by
    intro m hm hmj
    rw [List.getElem_insertIdx]
    split at hmj
    · next hjc =>
      subst hmj
      rw [dif_pos hjc]
    · next hjc =>
      subst hmj
      rw [dif_neg (by omega), dif_neg (by omega)]
      rfl
  have hm : (if j < c then j else j + 1) < (qs.insertIdx c e).length := by split <;> omega
  have hread := read_legible hi hput hm
  have hptr := hput _ hm
  rw [hindex _ hm rfl] at hread hptr
  rw [hv j hj] at hptr
  rw [hread, ← hptr]
  have hshift : lo + (if j < c then j else j + 1) =
      if lo + j < lo + c then lo + j else lo + j + 1 := by
    split <;> split <;> omega
  rw [hshift]

theorem putAt_shift (v : ℕ → ℕ) (c x j : ℕ) : putAt v c x (if j < c then j else j + 1) = v j := by
  unfold putAt
  split
  · rfl
  · rw [if_neg (by omega), if_neg (by omega), Nat.add_sub_cancel]

/-- In a part of the leaf that takes the new record the answers stay exactly when the records
are spared. -/
theorem spared_part {v : ℕ → ℕ} {qs : List Entry} {lo n : ℕ} {before : ℤ → ℕ}
    (hn : lo + qs.length = n) (hi : Increasing qs) (hnew : ∀ b ∈ qs, b.key ≠ e.key) (hs : Spot qs e.key c)
    (hv : ∀ i (h : i < qs.length), qs[i].ptr = v (lo + i))
    (hbefore : ∀ i (h : i < qs.length), before qs[i].key =
      if Legible v 0 (lo + i) then v (lo + i) else NULL) :
    (∀ i (h : i < qs.length), read (qs.insertIdx c e) qs[i].key = before qs[i].key) ↔
      Spared v lo n (lo + c) e.ptr := by
  subst hn
  have hone : ∀ i (h : i < qs.length), read (qs.insertIdx c e) qs[i].key = before qs[i].key ↔
      (Legible v 0 (lo + i) ↔ Legible (putAt v (lo + c) e.ptr) lo
        (if lo + i < lo + c then lo + i else lo + i + 1)) := by
    intro i h
    rw [read_insertIdx (Place.increasing (hs.place hi hnew) hi) hs.le hv h, hbefore i h]
    refine ite_read (fun hl => ?_) (fun hl => hl.1)
    have hl1 := hl.1
    rwa [putAt_shift] at hl1
  rw [spared_iff (Nat.le_add_right lo c)]
  constructor
  · intro hall j hj hlo
    have := (hone (j - lo) (by omega)).mp (hall (j - lo) (by omega))
    rwa [show lo + (j - lo) = j by omega] at this
  · intro hall i h
    exact (hone i h).mpr (hall (lo + i) (by omega) (by omega))

theorem Place.of_take {n : ℕ} (h : Place (es.take n) e.key c)
    (hn : ∀ i (h : i < es.length), n ≤ i → e.key < es[i].key) : Place es e.key c := by
  have hle := h.le
  rw [List.length_take] at hle
  refine ⟨by omega, ?_, ?_⟩
  · intro i hi hic
    have := h.left i (by rw [List.length_take]; omega) hic
    rwa [List.getElem_take] at this
  · intro i hi hic
    by_cases hin : i < n
    · have := h.right i (by rw [List.length_take]; omega) hic
      rwa [List.getElem_take] at this
    · exact hn i hi (by omega)

theorem Place.of_drop {n : ℕ} (h : Place (es.drop n) e.key c) (hn : n ≤ es.length)
    (hlow : ∀ i (h : i < es.length), i < n → es[i].key < e.key) : Place es e.key (n + c) := by
  have hle := h.le
  rw [List.length_drop] at hle
  refine ⟨by omega, ?_, ?_⟩
  · intro i hi hic
    by_cases hin : i < n
    · exact hlow i hi hin
    · have := h.left (i - n) (by rw [List.length_drop]; omega) (by omega)
      rw [List.getElem_drop] at this
      simpa [show n + (i - n) = i by omega] using this
  · intro i hi hic
    have := h.right (i - n) (by rw [List.length_drop]; omega) (by omega)
    rw [List.getElem_drop] at this
    simpa [show n + (i - n) = i by omega] using this

/-- After a cut at `s` each half answers for its own records. -/
theorem halves_iff {s : ℤ} {ls rs : List Entry} {L R : Prop}
    (hside : ∀ i (h : i < es.length), es[i].key < s ↔ i < 14)
    (hl : (∀ i (h : i < (es.take 14).length),
      read ls (es.take 14)[i].key = read es (es.take 14)[i].key) ↔ L)
    (hr : (∀ i (h : i < (es.drop 14).length),
      read rs (es.drop 14)[i].key = read es (es.drop 14)[i].key) ↔ R) :
    (∀ i (h : i < es.length), read (if es[i].key < s then ls else rs) es[i].key =
      read es es[i].key) ↔ L ∧ R := by
  rw [← hl, ← hr]
  constructor
  · intro hall
    refine ⟨?_, ?_⟩
    · intro i h
      rw [List.length_take] at h
      have := hall i (by omega)
      rw [if_pos ((hside i (by omega)).mpr (by omega))] at this
      simpa only [List.getElem_take] using this
    · intro i h
      rw [List.length_drop] at h
      have := hall (14 + i) (by omega)
      rw [if_neg (fun hs => by have := (hside (14 + i) (by omega)).mp hs; omega)] at this
      simpa only [List.getElem_drop] using this
  · rintro ⟨hleft, hright⟩ i h
    by_cases hi : i < 14
    · have := hleft i (by rw [List.length_take]; omega)
      rw [if_pos ((hside i h).mpr hi)]
      simpa only [List.getElem_take] using this
    · have := hright (i - 14) (by rw [List.length_drop]; omega)
      rw [if_neg (fun hs => hi ((hside i h).mp hs))]
      simpa only [List.getElem_drop, show 14 + (i - 14) = i by omega] using this

/-- A full leaf is cut in front of record 14. -/
theorem Filled.below_cut (hf : Filled p es) (hi : Increasing es) (hlen : es.length = 29) :
    ∀ i (h : i < es.length), es[i].key < (p.records 14).key ↔ i < 14 := by
  have hlt : ∀ i j (hi' : i < es.length) (hj : j < es.length), i < j → es[i].key < es[j].key :=
    List.pairwise_iff_getElem.mp hi
  intro i h
  rw [hf.record 14 (by omega)]
  refine ⟨fun hk => ?_, fun hi14 => hlt i 14 h (by omega) hi14⟩
  by_contra hge
  rcases Nat.lt_or_eq_of_le (not_lt.mp hge) with hgt | rfl
  · exact lt_asymm hk (hlt 14 i (by omega) h hgt)
  · exact lt_irrefl _ hk

/-- An insertion leaves the other answers of its leaf alone exactly when it is undisturbed. -/
theorem Parted.undisturbed_iff {part : ℤ → List Entry} (h : Parted p es e part) (hf : Filled p es)
    (hi : Increasing es) (hnew : ∀ b ∈ es, b.key ≠ e.key) :
    (∀ i (h : i < es.length), read (part es[i].key) es[i].key = read es es[i].key) ↔
      p.Undisturbed e.key e.ptr := by
  obtain ⟨v, hv⟩ : ∃ v : ℕ → ℕ, v = fun i => (p.records i).ptr := ⟨_, rfl⟩
  have hptr : ∀ i (h : i < es.length), es[i].ptr = v i := by
    intro i h
    rw [hv, ← hf.record i h]
  have hptr0 : ∀ i (h : i < es.length), es[i].ptr = v (0 + i) := by
    intro i h
    rw [Nat.zero_add]
    exact hptr i h
  have hbefore : ∀ i (h : i < es.length),
      read es es[i].key = if Legible v 0 i then v i else NULL := by
    intro i h
    have hread := read_legible hi hptr0 h
    rwa [Nat.zero_add] at hread
  have hside := fun hlen => hf.below_cut hi (hlen : es.length = 29)
  have htake := hi.sublist (List.take_sublist 14 es)
  have hdrop := hi.sublist (List.drop_sublist 14 es)
  have hnewtake : ∀ b ∈ es.take 14, b.key ≠ e.key := fun b hb => hnew b (List.mem_of_mem_take hb)
  have hnewdrop : ∀ b ∈ es.drop 14, b.key ≠ e.key := fun b hb => hnew b (List.mem_of_mem_drop hb)
  have hptrdrop : ∀ i (h : i < (es.drop 14).length), (es.drop 14)[i].ptr = v (14 + i) := by
    intro i h
    rw [List.getElem_drop]
    exact hptr (14 + i) _
  unfold Page.Undisturbed
  rw [hf.count, ← hv, cardinality_eq]
  cases h with
  | whole c hlen hspot =>
    have hall := spared_part (Nat.zero_add _) hi hnew hspot hptr0 (fun i h => by rw [Nat.zero_add]; exact hbefore i h)
    rw [if_pos (by omega), position_eq hf (hspot.place hi hnew)]
    rwa [Nat.zero_add] at hall
  | left c hlen hk hspot =>
    have hlen14 : (es.take 14).length = 14 := by
      rw [List.length_take]
      omega
    have hleft := spared_part ((Nat.zero_add _).trans hlen14) htake hnewtake hspot
      (fun i h => by rw [List.getElem_take]; exact hptr0 i (by rw [List.length_take] at h; omega))
      (fun i h => by
        rw [List.getElem_take, Nat.zero_add]
        exact hbefore i (by rw [List.length_take] at h; omega))
    rw [Nat.zero_add] at hleft
    have hplace : Place es e.key c := by
      refine Place.of_take (hspot.place htake hnewtake) ?_
      intro i h hge
      have := (hside hlen i h).not.mpr (by omega)
      exact hk.trans_le (not_lt.mp this)
    rw [if_neg (by omega), if_pos hk, position_eq hf hplace]
    refine halves_iff (hside hlen) hleft ?_
    constructor
    · intro hall j hj hge
      have := hall (j - 14) (by rw [List.length_drop]; omega)
      rw [read_legible hdrop hptrdrop, List.getElem_drop] at this
      simp only [show 14 + (j - 14) = j by omega] at this
      rw [hbefore j (by omega)] at this
      exact (ite_read (fun hl => hl.1) (fun hl => hl.1)).mp this
    · intro hall i h
      rw [read_legible hdrop hptrdrop h, List.getElem_drop, hbefore]
      rw [List.length_drop] at h
      exact (ite_read (fun hl => hl.1) (fun hl => hl.1)).mpr (hall (14 + i) (by omega) (by omega))
  | right c hlen hk hspot =>
    have hlen29 : 14 + (es.drop 14).length = 29 := by
      rw [List.length_drop]
      omega
    have hright := spared_part hlen29 hdrop hnewdrop hspot hptrdrop
      (fun i h => by rw [List.getElem_drop]; exact hbefore (14 + i) _)
    have hplace : Place es e.key (14 + c) := by
      refine Place.of_drop (hspot.place hdrop hnewdrop) (by omega) ?_
      intro i h hi14
      exact ((hside hlen i h).mpr hi14).trans_le hk
    rw [if_neg (by omega), if_neg (not_lt.mpr hk), position_eq hf hplace]
    refine (halves_iff (L := True) (hside hlen) ?_ hright).trans (Iff.of_eq (true_and _))
    refine ⟨fun _ => trivial, fun _ i h => ?_⟩
    rw [read_legible htake (fun i h => by
      rw [List.getElem_take]; exact hptr0 i (by rw [List.length_take] at h; omega)) h,
      List.getElem_take, hbefore, Nat.zero_add]

end

end PmemStudy.FastFair
