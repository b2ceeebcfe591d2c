import PmemStudy.FastFair.Wrap

/-!
# Stray records in a leaf

A leaf with distinct pointers takes one more record, whose key may be stored already and whose
pointer may be any number. The record goes behind the one with its key, so that the old one
answers; it may hide the next record, or not be found itself.
-/

namespace PmemStudy.FastFair
open PmemStudy.Slots PmemStudy.Chain PmemStudy.Loop

/-! ### A stray record in a leaf -/

section
variable {xs ys qs : List Entry} {e d : Entry} {k : ℤ} {prev : ℕ} {c : ℕ}

theorem find_append_of_some {v : ℕ} (h : find k prev xs = some v) :
    find k prev (xs ++ ys) = some v := by
  induction xs generalizing prev with
  | nil => cases h
  | cons x xs ih =>
    rw [List.cons_append, find] at *
    split
    · next hx => rwa [if_pos hx] at h
    · next hx =>
      rw [if_neg hx] at h
      exact ih h

theorem find_append_of_absent (h : ∀ d ∈ xs, d.key ≠ k) :
    find k prev (xs ++ ys) = find k (before prev xs xs.length) ys := by
  induction xs generalizing prev with
  | nil => rfl
  | cons x xs ih =>
    rw [List.cons_append, find, if_neg (fun hx => h x List.mem_cons_self hx.1),
      ih fun d hd => h d (List.mem_cons_of_mem x hd), List.length_cons,
      before_cons prev x xs le_rfl]

/-- A null pointer ends the search, unless it is in the first record. -/
theorem visible_stray (hx : ∀ d ∈ xs, d.ptr ≠ NULL) (hy : ∀ d ∈ ys, d.ptr ≠ NULL) :
    visible (xs ++ e :: ys) = if xs ≠ [] ∧ e.ptr = NULL then xs else xs ++ e :: ys := by
  cases xs with
  | nil =>
    rw [if_neg (fun h => h.1 rfl)]
    refine congrArg (List.cons e) (List.takeWhile_eq_self_iff.mpr ?_)
    exact fun d hd => decide_eq_true (hy d hd)
  | cons x xs =>
    have hxs : ∀ d ∈ xs, decide (d.ptr ≠ NULL) = true :=
      fun d hd => decide_eq_true (hx d (List.mem_cons_of_mem x hd))
    show x :: (xs ++ e :: ys).takeWhile _ = _
    rw [List.takeWhile_append_of_pos hxs]
    by_cases h0 : e.ptr = NULL
    · rw [if_pos ⟨List.cons_ne_nil x xs, h0⟩, List.takeWhile_cons_of_neg (by simp [h0]),
        List.append_nil]
    · rw [if_neg (fun h => h0 h.2), List.takeWhile_cons_of_pos (by simp [h0])]
      refine congrArg (fun l => x :: (xs ++ e :: l)) (List.takeWhile_eq_self_iff.mpr ?_)
      exact fun d hd => decide_eq_true (hy d hd)

section
variable (hi : Increasing (xs ++ ys)) (hd : Distinct NULL (xs ++ ys))
  (hlive : ∀ d ∈ xs ++ ys, d.ptr ≠ NULL)

include hi hd hlive

/-- The records in front are found as before. -/
theorem read_front (hmem : d ∈ xs) : read (xs ++ e :: ys) d.key = d.ptr := by
  have hfind : find d.key NULL xs = some d.ptr :=
    find_mem hd.left (hi.sublist (List.sublist_append_left xs ys)) hmem
  unfold read
  rw [visible_stray (fun d hd => hlive d (List.mem_append_left ys hd))
    (fun d hd => hlive d (List.mem_append_right xs hd))]
  split
  · rw [hfind]
    rfl
  · rw [find_append_of_some hfind]
    rfl

/-- The records behind are found as before exactly if the stray pointer is not the next one
and, unless its record is the first, not null. -/
theorem reads_behind_iff (hlt : ∀ d ∈ ys, e.key < d.key) :
    (∀ d ∈ ys, read (xs ++ e :: ys) d.key = d.ptr) ↔
      ∀ y ∈ ys.head?, e.ptr ≠ y.ptr ∧ (xs ≠ [] → e.ptr ≠ NULL) := by
  cases ys with
  | nil => simp
  | cons y ys =>
    obtain ⟨hxs, hys, hcross⟩ := List.pairwise_append.mp hi
    obtain ⟨hy, -⟩ := List.pairwise_cons.mp hys
    have hvisible := visible_stray (e := e) (fun d hd => hlive d (List.mem_append_left _ hd))
      (fun d hd => hlive d (List.mem_append_right xs hd))
    have hylive : y.ptr ≠ NULL := hlive y (List.mem_append_right xs List.mem_cons_self)
    by_cases hend : xs ≠ [] ∧ e.ptr = NULL
    · -- the search ends in front of all of them
      rw [if_pos hend] at hvisible
      refine iff_of_false (fun hall => ?_) fun hstop => (hstop y rfl).2 hend.1 hend.2
      have hnone : find y.key NULL xs = none :=
        find_none fun d hd => (hcross d hd y List.mem_cons_self).ne
      have hread := hall y List.mem_cons_self
      rw [read, hvisible, hnone] at hread
      exact hylive hread.symm
    · rw [if_neg hend] at hvisible
      have hread : ∀ d ∈ y :: ys, read (xs ++ e :: y :: ys) d.key =
          (find d.key e.ptr (y :: ys)).getD NULL := by
        intro d hd
        rw [read, hvisible, find_append_of_absent fun b hb => (hcross b hb d hd).ne, find,
          if_neg fun h => (hlt d hd).ne h.1]
      constructor
      · intro hall y' hy'
        obtain rfl : y = y' := Option.some.inj hy'
        refine ⟨fun heq => ?_, fun hne h0 => hend ⟨hne, h0⟩⟩
        have hfound := hread y List.mem_cons_self
        rw [hall y List.mem_cons_self, find, if_neg fun h => h.2 heq,
          find_none fun d hd => (hy d hd).ne'] at hfound
        exact hylive hfound
      · intro hstop d hd'
        have hdistinct : Distinct e.ptr (y :: ys) :=
          distinct_cons.mpr ⟨(hstop y rfl).1, hd.right⟩
        rw [hread d hd', find_mem hdistinct hys hd']
        rfl

end

/-- A stray record with a new key is found unless it repeats the pointer before it. -/
theorem read_own (hlive : ∀ d ∈ xs ++ ys, d.ptr ≠ NULL) (hnew : ∀ d ∈ xs, d.key ≠ e.key)
    (hlt : ∀ d ∈ ys, e.key < d.key) :
    read (xs ++ e :: ys) e.key =
      if before NULL xs xs.length = e.ptr then NULL else e.ptr := by
  have hvisible := visible_stray (e := e) (fun d hd => hlive d (List.mem_append_left _ hd))
    (fun d hd => hlive d (List.mem_append_right xs hd))
  by_cases hend : xs ≠ [] ∧ e.ptr = NULL
  · rw [if_pos hend] at hvisible
    rw [read, hvisible, find_none hnew, hend.2, ite_self]
    rfl
  · rw [if_neg hend] at hvisible
    rw [read, hvisible, find_append_of_absent hnew, find]
    by_cases heq : before NULL xs xs.length = e.ptr
    · rw [if_neg fun h => h.2 heq, if_pos heq, find_none fun d hd => (hlt d hd).ne']
      rfl
    · rw [if_pos ⟨rfl, heq⟩, if_neg heq]
      rfl

theorem Spot.behind_drop (hs : Spot qs e.key c) : ∀ d ∈ qs.drop c, e.key < d.key := by
  intro d hd
  obtain ⟨i, hi, rfl⟩ := List.mem_drop_iff_getElem.mp hd
  exact hs.behind (c + i) (by omega) (Nat.le_add_right c i)

theorem before_take (hc : c ≤ qs.length) :
    before NULL (qs.take c) (qs.take c).length = before NULL qs c := by
  rw [List.length_take, Nat.min_eq_left hc]
  cases c with
  | zero => rw [before_zero, before_zero]
  | succ c =>
    rw [before_succ _ _ c (by rw [List.length_take]; omega), before_succ _ _ c hc,
      List.getElem_take]

section
variable (hs : Spot qs e.key c) (hlive : ∀ d ∈ qs, d.ptr ≠ NULL)

include hs hlive

theorem Spot.reads_iff (hi : Increasing qs) (hd : Distinct NULL qs) :
    (∀ d ∈ qs, read (qs.insertIdx c e) d.key = d.ptr) ↔
      ∀ h : c < qs.length, e.ptr ≠ qs[c].ptr ∧ (0 < c → e.ptr ≠ NULL) := by
  have hsplit := List.take_append_drop c qs
  have hne : qs.take c ≠ [] ↔ c < qs.length ∧ 0 < c ∨ c = qs.length ∧ 0 < c := by
    have hle := hs.le
    rw [← List.length_pos_iff, List.length_take]
    omega
  have hi' : Increasing (qs.take c ++ qs.drop c) := by rwa [hsplit]
  have hd' : Distinct NULL (qs.take c ++ qs.drop c) := by rwa [hsplit]
  have hlive' : ∀ d ∈ qs.take c ++ qs.drop c, d.ptr ≠ NULL := by rwa [hsplit]
  have hbehind := reads_behind_iff hi' hd' hlive' hs.behind_drop
  rw [insertIdx_take_drop qs c e hs.le]
  rw [List.head?_drop] at hbehind
  constructor
  · intro hall h
    obtain ⟨h1, h2⟩ := hbehind.mp (fun d hmem => hall d (List.mem_of_mem_drop hmem)) qs[c]
      (List.getElem?_eq_getElem h)
    exact ⟨h1, fun h0 => h2 (hne.mpr (.inl ⟨h, h0⟩))⟩
  · intro hstop d hmem
    rw [← hsplit] at hmem
    rcases List.mem_append.mp hmem with hmem | hmem
    · exact read_front hi' hd' hlive' hmem
    · refine hbehind.mpr (fun y hy => ?_) d hmem
      obtain ⟨h, rfl⟩ := List.getElem?_eq_some_iff.mp hy
      obtain ⟨h1, h2⟩ := hstop h
      refine ⟨h1, fun hx => h2 ?_⟩
      rcases hne.mp hx with h0 | h0
      · exact h0.2
      · exact h0.2

/-- A record with the key of the stray one is in front of it. -/
theorem Spot.read_old (hi : Increasing qs) (hd : Distinct NULL qs) (hmem : d ∈ qs)
    (hkey : d.key = e.key) : read (qs.insertIdx c e) d.key = d.ptr := by
  have hsplit := List.take_append_drop c qs
  rw [insertIdx_take_drop qs c e hs.le]
  rw [← hsplit] at hmem
  rcases List.mem_append.mp hmem with hmem | hmem
  · exact read_front (by rwa [hsplit]) (by rwa [hsplit]) (by rwa [hsplit]) hmem
  · exact absurd hkey (hs.behind_drop d hmem).ne'

theorem Spot.read_own (hnew : ∀ d ∈ qs, d.key ≠ e.key) :
    read (qs.insertIdx c e) e.key = if before NULL qs c = e.ptr then NULL else e.ptr := by
  have hsplit := List.take_append_drop c qs
  rw [insertIdx_take_drop qs c e hs.le, ← before_take hs.le]
  exact FastFair.read_own (by rwa [hsplit]) (fun d hd => hnew d (List.mem_of_mem_take hd))
    hs.behind_drop

end

end

/-! ### A stray pair in a page -/

/-- Where a key goes that may be stored already: behind those that are not greater. -/
def Page.place (p : Page) (key : ℤ) : ℕ :=
  (List.range p.count).countP fun i => decide ((p.records i).key ≤ key)

/-- The end of the records that stay in one leaf with the key; a full leaf is cut at record 14. -/
def Page.limit (p : Page) (key : ℤ) : ℕ :=
  if p.count < cardinality - 1 ∨ (p.records 14).key ≤ key then p.count else 14

/-- No search sees that `x` was stored for `key` in the leaf: it hides no record behind it, and
a key that is new is not found, because `x` repeats the pointer before it or sends the search
to the neighbour `right`. -/
structure Page.Unseen (p : Page) (key : ℤ) (x right : ℕ) : Prop where
  next : p.place key < p.limit key →
    x ≠ (p.records (p.place key)).ptr ∧ (0 < p.place key → x ≠ NULL)
  own : (∀ i < p.count, (p.records i).key ≠ key) →
    x = NULL ∨ x = right ∨ 0 < p.place key ∧ x = (p.records (p.place key - 1)).ptr

section
variable {p : Page} {es qs : List Entry} {e d : Entry} {c right : ℕ}

theorem Spot.front_le (hs : Spot es e.key c) (hi : Increasing es) (i : ℕ) (h : i < es.length)
    (hic : i < c) : es[i].key ≤ e.key := by
  obtain ⟨m, rfl⟩ : ∃ m, c = m + 1 := ⟨c - 1, by omega⟩
  have hm : m < es.length := hs.le
  rcases Nat.lt_or_eq_of_le (Nat.le_of_lt_succ hic) with hlt | rfl
  · exact ((List.pairwise_iff_getElem.mp hi i m h hm hlt).trans_le (hs.front m hm rfl)).le
  · exact hs.front i h rfl

theorem place_eq (h : Filled p es) (hc : c ≤ es.length)
    (hP : ∀ i (h : i < es.length), es[i].key ≤ e.key ↔ i < c) : p.place e.key = c :=
  h.countP_eq (P := (· ≤ e.key)) hc hP

theorem read_live (hi : Increasing es) (hd : Distinct NULL es) (hlive : ∀ d ∈ es, d.ptr ≠ NULL)
    (hmem : d ∈ es) : read es d.key = d.ptr := by
  rw [read, visible_of_live hlive, find_mem hd hi hmem]
  rfl

/-- The part of the leaf that takes the record is `qs`, from record `lo` on. -/
theorem unseen_iff_part (lo right : ℕ) (hs : Spot qs e.key c) (hi : Increasing qs)
    (hd : Distinct NULL qs) (hlive : ∀ d ∈ qs, d.ptr ≠ NULL)
    (hrec : ∀ i (h : i < qs.length), p.records (lo + i) = qs[i]) (hlo : lo = 0 ∨ 0 < c)
    (hplace : p.place e.key = lo + c) (hlimit : p.limit e.key = lo + qs.length)
    (hnew : (∀ i < p.count, (p.records i).key ≠ e.key) → ∀ d ∈ qs, d.key ≠ e.key) :
    p.Unseen e.key e.ptr right ↔ (∀ d ∈ qs, read (qs.insertIdx c e) d.key = d.ptr) ∧
      ((∀ i < p.count, (p.records i).key ≠ e.key) →
        read (qs.insertIdx c e) e.key = NULL ∨ read (qs.insertIdx c e) e.key = right) := by
  have hnext : (p.place e.key < p.limit e.key → e.ptr ≠ (p.records (p.place e.key)).ptr ∧
      (0 < p.place e.key → e.ptr ≠ NULL)) ↔
      ∀ d ∈ qs, read (qs.insertIdx c e) d.key = d.ptr := by
    rw [hs.reads_iff hlive hi hd, hplace, hlimit]
    constructor
    · intro h hc
      obtain ⟨h1, h2⟩ := h (by omega)
      rw [hrec c hc] at h1
      exact ⟨h1, fun h0 => h2 (by omega)⟩
    · intro h hc
      have hc' : c < qs.length := by omega
      obtain ⟨h1, h2⟩ := h hc'
      rw [hrec c hc']
      exact ⟨h1, fun h0 => h2 (by omega)⟩
  have hown : (∀ i < p.count, (p.records i).key ≠ e.key) →
      ((e.ptr = NULL ∨ e.ptr = right ∨
        0 < p.place e.key ∧ e.ptr = (p.records (p.place e.key - 1)).ptr) ↔
      read (qs.insertIdx c e) e.key = NULL ∨ read (qs.insertIdx c e) e.key = right) := by
    intro habsent
    rw [hs.read_own hlive (hnew habsent), hplace]
    cases c with
    | zero =>
      have h0 : lo = 0 := hlo.resolve_right (lt_irrefl 0)
      rw [before_zero, h0]
      by_cases hx : NULL = e.ptr
      · simp [← hx]
      · simp [hx]
    | succ m =>
      have hm : m < qs.length := hs.le
      rw [before_succ _ _ m hm, show lo + (m + 1) - 1 = lo + m by omega, hrec m hm]
      by_cases hx : qs[m].ptr = e.ptr
      · rw [if_pos hx]
        exact iff_of_true (.inr (.inr ⟨by omega, hx.symm⟩)) (.inl rfl)
      · rw [if_neg hx]
        refine or_congr_right ⟨fun h => h.resolve_right fun h' => hx h'.2.symm, Or.inl⟩
  constructor
  · intro h
    exact ⟨hnext.mp h.next, fun habsent => (hown habsent).mp (h.own habsent)⟩
  · rintro ⟨h1, h2⟩
    exact ⟨hnext.mpr h1, fun habsent => (hown habsent).mpr (h2 habsent)⟩

theorem Filled.take_key (hf : Filled p es) (hi : Increasing es) (hlen : es.length = 29)
    (hmem : d ∈ es.take 14) : d.key < (p.records 14).key := by
  obtain ⟨i, h, rfl⟩ := List.mem_take_iff_getElem.mp hmem
  exact (hf.below_cut hi hlen i (by omega)).mpr (by omega)

theorem Filled.drop_key (hf : Filled p es) (hi : Increasing es) (hlen : es.length = 29)
    (hmem : d ∈ es.drop 14) : ¬ d.key < (p.records 14).key := by
  obtain ⟨i, h, rfl⟩ := List.mem_drop_iff_getElem.mp hmem
  rw [hf.below_cut hi hlen (14 + i) (by omega)]
  omega

theorem Filled.absent_iff (hf : Filled p es) :
    (∀ i < p.count, (p.records i).key ≠ e.key) ↔ ∀ d ∈ es, d.key ≠ e.key := by
  rw [hf.count]
  constructor
  · intro h d hd
    obtain ⟨i, hi, rfl⟩ := List.getElem_of_mem hd
    rw [← hf.record i hi]
    exact h i hi
  · intro h i hi
    rw [hf.record i hi]
    exact h _ (List.getElem_mem hi)

theorem Distinct.behind {xs ys : List Entry} {prev : ℕ} (h : Distinct prev (xs ++ ys))
    (hlive : ∀ d ∈ ys, d.ptr ≠ NULL) : Distinct NULL ys := by
  cases ys with
  | nil => simp [Distinct]
  | cons y ys => exact distinct_cons.mpr ⟨(hlive y List.mem_cons_self).symm, h.right⟩

theorem take_distinct (n : ℕ) (hi : Increasing es) (hd : Distinct NULL es)
    (hlive : ∀ d ∈ es, d.ptr ≠ NULL) :
    Increasing (es.take n) ∧ Distinct NULL (es.take n) ∧ ∀ d ∈ es.take n, d.ptr ≠ NULL := by
  rw [← List.take_append_drop n es] at hd
  exact ⟨hi.sublist (List.take_sublist n es), hd.left,
    fun d hd => hlive d (List.mem_of_mem_take hd)⟩

theorem drop_distinct (n : ℕ) (hi : Increasing es) (hd : Distinct NULL es)
    (hlive : ∀ d ∈ es, d.ptr ≠ NULL) :
    Increasing (es.drop n) ∧ Distinct NULL (es.drop n) ∧ ∀ d ∈ es.drop n, d.ptr ≠ NULL := by
  rw [← List.take_append_drop n es] at hd
  have hdrop : ∀ d ∈ es.drop n, d.ptr ≠ NULL := fun d hd => hlive d (List.mem_of_mem_drop hd)
  exact ⟨hi.sublist (List.drop_sublist n es), Distinct.behind hd hdrop, hdrop⟩

/-- A key that was stored already keeps its answer. -/
theorem Parted.read_old {part : ℤ → List Entry} (h : Parted p es e part) (hf : Filled p es)
    (hi : Increasing es) (hd : Distinct NULL es) (hlive : ∀ d ∈ es, d.ptr ≠ NULL)
    (hmem : d ∈ es) (hkey : d.key = e.key) : read (part d.key) d.key = d.ptr := by
  obtain ⟨hil, hdl, hlivel⟩ := take_distinct 14 hi hd hlive
  obtain ⟨hir, hdr, hliver⟩ := drop_distinct 14 hi hd hlive
  have hsplit := hmem
  rw [← List.take_append_drop 14 es] at hsplit
  cases h with
  | whole c hlen hspot => exact hspot.read_old hlive hi hd hmem hkey
  | left c hlen hk hspot =>
    beta_reduce
    rw [if_pos (by rwa [hkey])]
    refine hspot.read_old hlivel hil hdl ((List.mem_append.mp hsplit).resolve_right ?_) hkey
    exact fun hdrop => hf.drop_key hi hlen hdrop (by rwa [hkey])
  | right c hlen hk hspot =>
    beta_reduce
    rw [if_neg (by rwa [hkey, not_lt])]
    refine hspot.read_old hliver hir hdr ((List.mem_append.mp hsplit).resolve_left ?_) hkey
    exact fun htake => not_lt.mpr hk (by rw [← hkey]; exact hf.take_key hi hlen htake)

/-- A full leaf is cut in two; one half keeps its records. -/
theorem halves_answer (hf : Filled p es) (hi : Increasing es) (hlen : es.length = 29)
    {ls rs : List Entry} :
    (∀ d ∈ es, read (if d.key < (p.records 14).key then ls else rs) d.key = d.ptr) ↔
      (∀ d ∈ es.take 14, read ls d.key = d.ptr) ∧ ∀ d ∈ es.drop 14, read rs d.key = d.ptr := by
  constructor
  · intro hall
    refine ⟨fun d hd => ?_, fun d hd => ?_⟩
    · have := hall d (List.mem_of_mem_take hd)
      rwa [if_pos (hf.take_key hi hlen hd)] at this
    · have := hall d (List.mem_of_mem_drop hd)
      rwa [if_neg (hf.drop_key hi hlen hd)] at this
  · rintro ⟨hl, hr⟩ d hd
    rw [← List.take_append_drop 14 es] at hd
    rcases List.mem_append.mp hd with hd | hd
    · rw [if_pos (hf.take_key hi hlen hd)]
      exact hl d hd
    · rw [if_neg (hf.drop_key hi hlen hd)]
      exact hr d hd

/-- The stray pair is not seen in the leaf exactly if all stored keys keep their answers and
the key, when it is new, has none. -/
theorem Parted.unseen_iff {part : ℤ → List Entry} (h : Parted p es e part) (hf : Filled p es)
    (hi : Increasing es) (hd : Distinct NULL es) (hlive : ∀ d ∈ es, d.ptr ≠ NULL) :
    p.Unseen e.key e.ptr right ↔ (∀ d ∈ es, read (part d.key) d.key = d.ptr) ∧
      ((∀ d ∈ es, d.key ≠ e.key) →
        read (part e.key) e.key = NULL ∨ read (part e.key) e.key = right) := by
  have hcard := cardinality_eq
  obtain ⟨hil, hdl, hlivel⟩ := take_distinct 14 hi hd hlive
  obtain ⟨hir, hdr, hliver⟩ := drop_distinct 14 hi hd hlive
  rw [← hf.absent_iff]
  cases h with
  | whole c hlen hspot =>
    refine unseen_iff_part 0 right hspot hi hd hlive ?_ (.inl rfl) ?_ ?_ hf.absent_iff.mp
    · intro i h
      rw [Nat.zero_add, hf.record i h]
    · rw [Nat.zero_add]
      refine place_eq hf hspot.le fun i h => ⟨fun hle => ?_, hspot.front_le hi i h⟩
      by_contra hge
      exact not_lt.mpr hle (hspot.behind i h (not_lt.mp hge))
    · rw [Page.limit, hf.count, if_pos (.inl (by omega)), Nat.zero_add]
  | left c hlen hk hspot =>
    have hcl := hspot.le
    rw [List.length_take] at hcl
    have hpart := unseen_iff_part (p := p) 0 right hspot hil hdl hlivel
      (fun i h => by
        rw [List.length_take] at h
        rw [Nat.zero_add, List.getElem_take, hf.record i (by omega)]) (.inl rfl)
      (by
        rw [Nat.zero_add]
        refine place_eq hf (by omega) fun i h => ⟨fun hle => ?_, fun hic => ?_⟩
        · have hi14 : i < 14 := (hf.below_cut hi hlen i h).mp (hle.trans_lt hk)
          by_contra hge
          have := hspot.behind i (by rw [List.length_take]; omega) (not_lt.mp hge)
          rw [List.getElem_take] at this
          exact not_lt.mpr hle this
        · have := hspot.front_le hil i (by rw [List.length_take]; omega) hic
          rwa [List.getElem_take] at this)
      (by
        rw [Page.limit, hf.count, if_neg (by rw [not_or, not_le]; exact ⟨by omega, hk⟩),
          List.length_take]
        omega)
      (fun habsent d hd => hf.absent_iff.mp habsent d (List.mem_of_mem_take hd))
    rw [hpart, halves_answer hf hi hlen]
    beta_reduce
    rw [if_pos hk]
    refine and_congr_left fun _ => (and_iff_left ?_).symm
    exact fun d hd => read_live hir hdr hliver hd
  | right c hlen hk hspot =>
    have hcl := hspot.le
    rw [List.length_drop] at hcl
    have hpos : 0 < c := by
      by_contra h0
      have := hspot.behind 0 (by rw [List.length_drop]; omega) (not_lt.mp h0)
      rw [List.getElem_drop, ← hf.record 14 (by omega)] at this
      exact not_lt.mpr hk this
    have hpart := unseen_iff_part (p := p) 14 right hspot hir hdr hliver
      (fun i h => by
        rw [List.length_drop] at h
        rw [List.getElem_drop, hf.record (14 + i) (by omega)]) (.inr hpos)
      (by
        refine place_eq hf (by omega) fun i h => ⟨fun hle => ?_, fun hic => ?_⟩
        · by_contra hge
          have := hspot.behind (i - 14) (by rw [List.length_drop]; omega) (by omega)
          rw [List.getElem_drop] at this
          simp only [show 14 + (i - 14) = i by omega] at this
          exact not_lt.mpr hle this
        · by_cases hi14 : i < 14
          · exact (((hf.below_cut hi hlen i h).mpr hi14).trans_le hk).le
          · have := hspot.front_le hir (i - 14) (by rw [List.length_drop]; omega) (by omega)
            rw [List.getElem_drop] at this
            simpa only [show 14 + (i - 14) = i by omega] using this)
      (by
        rw [Page.limit, hf.count, if_pos (.inr hk), List.length_drop]
        omega)
      (fun habsent d hd => hf.absent_iff.mp habsent d (List.mem_of_mem_drop hd))
    rw [hpart, halves_answer hf hi hlen]
    beta_reduce
    rw [if_neg (not_lt.mpr hk)]
    refine and_congr_left fun _ => (and_iff_right ?_).symm
    exact fun d hd => read_live hil hdl hlivel hd

end

end PmemStudy.FastFair
