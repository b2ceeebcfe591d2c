import PmemStudy.FastFair.Runs

/-!
# Range searches (fastfair/fastfair.h)

A leaf is read forward or backward, by its switch counter. A backward scan
writes the values from right to left, starts at the count of the first leaf and
returns at the first key that is too large; so the result is right as long as
it meets no leaf where that matters.
-/

namespace PmemStudy.FastFair
open PmemStudy.Slots PmemStudy.Chain PmemStudy.Loop

namespace Page

/-- One record in the scans of `linear_search_range`: what is written, `none` for `return`. -/
def rangeRecord (p : Page) (min max : ℤ) (i : ℕ) : Option (List ℕ) :=
  if min < (p.records i).key then
    if (p.records i).key < max then
      if (p.records i).ptr ≠ NULL ∧ (i = 0 ∨ (p.records i).ptr ≠ (p.records (i - 1)).ptr) then
        some [(p.records i).ptr]
      else some []
    else none
  else some []

/-- The records in the order they are read: what is written, and whether the scan returned. -/
def rangeRecords (p : Page) (min max : ℤ) : List ℕ → List ℕ × Bool
  | [] => ([], false)
  | i :: is =>
    match p.rangeRecord min max i with
    | none => ([], true)
    | some l => (l ++ (rangeRecords p min max is).1, (rangeRecords p min max is).2)

/-- Record 0, then from record 1 on while there is a pointer. -/
def forwardIndices (p : Page) : List ℕ :=
  0 :: (List.range' 1 cardinality).takeWhile fun i => (p.records i).ptr ≠ NULL

/-- From record `cnt - 1` down to record 1, then record 0. -/
def backwardIndices (cnt : ℕ) : List ℕ := (List.range' 1 (cnt - 1)).reverse ++ [0]

/-- The scan of one page; `cnt` is `count()` of the page that was called. -/
def rangeLeaf (p : Page) (cnt : ℕ) (min max : ℤ) : List ℕ × Bool :=
  p.rangeRecords min max
    (if isForward p.switchCounter then p.forwardIndices else backwardIndices cnt)

end Page

namespace Btree

/-- The loop of `linear_search_range` from the page at `a` on; the values go to
`buf` in this order. -/
def linearSearchRange (t : Btree) (cnt : ℕ) (min max : ℤ) : ℕ → ℕ → Option (List ℕ)
  | 0, _ => none
  | fuel + 1, a =>
    if a = NULL then some []
    else do
      let p ← t.pages a
      let scan := p.rangeLeaf cnt min max
      if scan.2 then some scan.1
      else
        let rest ← linearSearchRange t cnt min max fuel p.siblingPtr
        some (scan.1 ++ rest)

/-- The loop of `btree_search_range` with `p` at `a`. -/
def searchRangeFrom (t : Btree) (min max : ℤ) : ℕ → ℕ → Option (List ℕ)
  | 0, _ => none
  | fuel + 1, a =>
    if a = NULL then some []
    else do
      let p ← t.pages a
      if p.leftmostPtr ≠ NULL then
        let b ← t.linearSearch a min
        searchRangeFrom t min max fuel b
      else t.linearSearchRange p.count min max fuel a

def btreeSearchRange (fuel : ℕ) (t : Btree) (min max : ℤ) : Option (List ℕ) :=
  t.searchRangeFrom min max fuel t.root

end Btree

/-! ### The entries in a range -/

def InRange (min max : ℤ) (e : Entry) : Prop := min < e.key ∧ e.key < max

instance (min max : ℤ) (e : Entry) : Decidable (InRange min max e) :=
  inferInstanceAs (Decidable (_ ∧ _))

/-- The values that a range search is to write. -/
def rangeValues (min max : ℤ) (es : List Entry) : List ℕ :=
  (es.filter fun e => InRange min max e).map (·.ptr)

theorem rangeValues_append (min max : ℤ) (es es' : List Entry) :
    rangeValues min max (es ++ es') = rangeValues min max es ++ rangeValues min max es' := by
  rw [rangeValues, List.filter_append, List.map_append]
  rfl

theorem rangeValues_nil {min max : ℤ} {es : List Entry} (h : ∀ e ∈ es, ¬ InRange min max e) :
    rangeValues min max es = [] := by
  rw [rangeValues, List.filter_eq_nil_iff.mpr (fun e he => by simpa using h e he)]
  rfl

/-- An entry that ends a scan. -/
def Beyond (min max : ℤ) (e : Entry) : Prop := min < e.key ∧ max ≤ e.key

/-! ### A forward scan -/

section Leaf
variable {p : Page} {es : List Entry} {min max : ℤ}

theorem takeWhile_range' (P : ℕ → Bool) (s d n : ℕ) (hd : d < n) (hP : ∀ i, s ≤ i → i < s + d → P i)
    (hend : P (s + d) = false) : (List.range' s n).takeWhile P = List.range' s d := by
  induction d generalizing s n with
  | zero =>
    obtain ⟨n, rfl⟩ : ∃ m, n = m + 1 := ⟨n - 1, by omega⟩
    rw [List.range'_succ, List.takeWhile_cons_of_neg (by simpa using hend)]
    rfl
  | succ d ih =>
    obtain ⟨n, rfl⟩ : ∃ m, n = m + 1 := ⟨n - 1, by omega⟩
    rw [List.range'_succ, List.takeWhile_cons_of_pos (hP s (le_refl s) (by omega)),
      ih (s + 1) n (by omega) (fun i h1 h2 => hP i (by omega) (by omega))
        (by rw [← hend]; congr 1; omega), List.range'_succ]

theorem Rests.forwardIndices (h : Rests p es) (hne : es ≠ []) :
    p.forwardIndices = List.range' 0 es.length := by
  have hlen := List.length_pos_of_ne_nil hne
  have hfits := h.fits
  obtain ⟨d, hd⟩ : ∃ d, es.length = d + 1 := ⟨es.length - 1, by omega⟩
  rw [Page.forwardIndices, hd, List.range'_succ, takeWhile_range' _ 1 d cardinality (by omega)]
  · intro i _ hi
    have hlt : i < es.length := by omega
    rw [h.record i hlt]
    exact decide_eq_true (h.live _ (List.getElem_mem hlt))
  · have ht := h.terminator
    have he : 1 + d = es.length := by omega
    rw [he, ht]
    simp

/-- Each record of a leaf at rest shows its own pointer. -/
theorem Rests.shown (h : Rests p es) {i : ℕ} (hi : i < es.length) :
    (p.records i).ptr ≠ NULL ∧ (i = 0 ∨ (p.records i).ptr ≠ (p.records (i - 1)).ptr) := by
  refine ⟨by rw [h.record i hi]; exact h.live _ (List.getElem_mem hi), ?_⟩
  cases i with
  | zero => exact Or.inl rfl
  | succ i =>
    have hd := h.distinct
    have hi' : i < es.length := by omega
    have hadj := List.isChain_iff_getElem.mp hd (i + 1)
      (by simp only [List.length_cons, List.length_map]; omega)
    simp only [List.getElem_cons_succ, List.getElem_map] at hadj
    rw [Nat.add_sub_cancel, h.record (i + 1) hi, h.record i hi']
    exact Or.inr hadj.symm

theorem Rests.rangeRecord (h : Rests p es) {i : ℕ} (hi : i < es.length) :
    p.rangeRecord min max i =
      if min < es[i].key then if es[i].key < max then some [es[i].ptr] else none else some [] := by
  have hshown := h.shown hi
  rw [Page.rangeRecord]
  rw [h.record i hi] at hshown ⊢
  simp only [if_pos hshown]

/-- A scan of the page writes the values of its entries and returns at an entry
that is too large. -/
structure ReadsLeaf (p : Page) (cnt : ℕ) (min max : ℤ) (es : List Entry) : Prop where
  written : (p.rangeLeaf cnt min max).1 = rangeValues min max es
  returned : (p.rangeLeaf cnt min max).2 = true ↔ ∃ e ∈ es, Beyond min max e

theorem Rests.rangeRecords (h : Rests p es) (d i : ℕ)
    (hid : i + d = es.length) :
    (p.rangeRecords min max (List.range' i d)).1 = rangeValues min max (es.drop i) ∧
      ((p.rangeRecords min max (List.range' i d)).2 = true ↔
        ∃ e ∈ es.drop i, Beyond min max e) := by
  induction d generalizing i with
  | zero =>
    rw [List.drop_eq_nil_of_le (by omega)]
    simp [Page.rangeRecords, rangeValues]
  | succ d ih =>
    have hi : i < es.length := by omega
    obtain ⟨hwritten, hreturned⟩ := ih (i + 1) (by omega)
    have hcons := List.drop_eq_getElem_cons hi
    have hinc : (es.drop i).Pairwise fun a b => a.key < b.key :=
      h.increasing.sublist (List.drop_sublist i es)
    rw [hcons] at hinc
    have hlater := (List.pairwise_cons.mp hinc).1
    rw [List.range'_succ, Page.rangeRecords, h.rangeRecord hi, hcons]
    by_cases hmin : min < es[i].key
    · by_cases hmax : es[i].key < max
      · have hin : InRange min max es[i] := ⟨hmin, hmax⟩
        simp only [if_pos hmin, if_pos hmax, hwritten, hreturned, List.exists_mem_cons_iff]
        refine ⟨?_, ?_⟩
        · rw [rangeValues, rangeValues, List.filter_cons_of_pos (by simpa using hin)]
          rfl
        · refine ⟨Or.inr, fun hor => hor.resolve_left ?_⟩
          intro hb
          exact absurd hmax (not_lt.mpr hb.2)
      · have hbeyond : Beyond min max es[i] := ⟨hmin, not_lt.mp hmax⟩
        simp only [if_pos hmin, if_neg hmax, List.exists_mem_cons_iff, hbeyond, true_or]
        refine ⟨?_, trivial⟩
        rw [rangeValues_nil]
        intro e he hin
        rcases List.mem_cons.mp he with rfl | he
        · exact hmax hin.2
        · exact hmax ((hlater e he).trans hin.2)
    · have hout : ¬ InRange min max es[i] := fun hin => hmin hin.1
      simp only [if_neg hmin, hwritten, hreturned, List.exists_mem_cons_iff, List.nil_append]
      refine ⟨?_, ?_⟩
      · rw [rangeValues, rangeValues, List.filter_cons_of_neg (by simpa using hout)]
      · exact ⟨Or.inr, fun hor => hor.resolve_left fun hb => hmin hb.1⟩

theorem Rests.reads_forward (h : Rests p es) (cnt : ℕ) (hne : es ≠ [])
    (hf : isForward p.switchCounter) : ReadsLeaf p cnt min max es := by
  have hscan : _ ∧ (_ ↔ ∃ e ∈ es.drop 0, Beyond min max e) :=
    h.rangeRecords es.length 0 (by omega)
  rw [List.drop_zero, ← h.forwardIndices hne] at hscan
  have hleaf : p.rangeLeaf cnt min max = p.rangeRecords min max p.forwardIndices := by
    rw [Page.rangeLeaf, if_pos hf]
  exact ⟨by rw [hleaf]; exact hscan.1, by rw [hleaf]; exact hscan.2⟩

/-! ### A backward scan -/

/-- Record `i` is read by a backward scan. -/
def Visited (cnt i : ℕ) : Prop := i = 0 ∨ i < cnt

/-- The scan writes the pointer of record `i`. -/
def Page.Writes (p : Page) (min max : ℤ) (i : ℕ) : Prop :=
  InRange min max (p.records i) ∧ (p.records i).ptr ≠ NULL ∧
    (i = 0 ∨ (p.records i).ptr ≠ (p.records (i - 1)).ptr)

/-- A backward scan that is right: no record it reads and no entry is too large,
it reads every entry in the range, and it writes one entry at most. -/
structure Page.Harmless (p : Page) (cnt : ℕ) (min max : ℤ) : Prop where
  goes_on : ∀ i, Visited cnt i ∨ i < p.count → ¬ Beyond min max (p.records i)
  read : ∀ i < p.count, InRange min max (p.records i) → Visited cnt i
  own : ∀ i, Visited cnt i → p.Writes min max i → i < p.count
  single : ∀ i j, Visited cnt i → Visited cnt j → p.Writes min max i → p.Writes min max j → i = j

theorem mem_backwardIndices (cnt i : ℕ) : i ∈ Page.backwardIndices cnt ↔ Visited cnt i := by
  rw [Page.backwardIndices, List.mem_append, List.mem_reverse, List.mem_range'_1,
    List.mem_singleton, Visited]
  omega

theorem backwardIndices_nodup (cnt : ℕ) : (Page.backwardIndices cnt).Nodup := by
  rw [Page.backwardIndices, List.nodup_append]
  refine ⟨List.nodup_reverse.mpr List.nodup_range', List.nodup_singleton _, ?_⟩
  intro i hi j hj
  rw [List.mem_reverse, List.mem_range'_1] at hi
  rw [List.mem_singleton] at hj
  omega

theorem rangeRecord_quiet {i : ℕ} (hb : ¬ Beyond min max (p.records i))
    (hw : ¬ p.Writes min max i) : p.rangeRecord min max i = some [] := by
  rw [Page.rangeRecord]
  by_cases hmin : min < (p.records i).key
  · have hmax : (p.records i).key < max := not_le.mp fun hle => hb ⟨hmin, hle⟩
    rw [if_pos hmin, if_pos hmax, if_neg fun hs => hw ⟨⟨hmin, hmax⟩, hs⟩]
  · rw [if_neg hmin]

theorem rangeRecord_writes {i : ℕ} (hw : p.Writes min max i) :
    p.rangeRecord min max i = some [(p.records i).ptr] := by
  rw [Page.rangeRecord, if_pos hw.1.1, if_pos hw.1.2, if_pos hw.2]

theorem rangeRecords_quiet (is : List ℕ) (hb : ∀ i ∈ is, ¬ Beyond min max (p.records i))
    (hw : ∀ i ∈ is, ¬ p.Writes min max i) : p.rangeRecords min max is = ([], false) := by
  induction is with
  | nil => rfl
  | cons i is ih =>
    rw [Page.rangeRecords, rangeRecord_quiet (hb i List.mem_cons_self) (hw i List.mem_cons_self),
      ih (fun j hj => hb j (List.mem_cons_of_mem i hj)) (fun j hj => hw j (List.mem_cons_of_mem i hj))]
    rfl

theorem rangeRecords_single (is : List ℕ) (hn : is.Nodup) (i : ℕ) (hi : i ∈ is)
    (hb : ∀ j ∈ is, ¬ Beyond min max (p.records j)) (hw : p.Writes min max i)
    (hone : ∀ j ∈ is, p.Writes min max j → j = i) :
    p.rangeRecords min max is = ([(p.records i).ptr], false) := by
  induction is with
  | nil => cases hi
  | cons j is ih =>
    obtain ⟨hj, hn'⟩ := List.nodup_cons.mp hn
    have hb' : ∀ m ∈ is, ¬ Beyond min max (p.records m) :=
      fun m hm => hb m (List.mem_cons_of_mem j hm)
    by_cases he : j = i
    · subst j
      rw [Page.rangeRecords, rangeRecord_writes hw, rangeRecords_quiet is hb']
      · rfl
      · intro m hm hwm
        rw [hone m (List.mem_cons_of_mem i hm) hwm] at hm
        exact hj hm
    · have hmem : i ∈ is := (List.mem_cons.mp hi).resolve_left (Ne.symm he)
      rw [Page.rangeRecords, rangeRecord_quiet (hb j List.mem_cons_self)
        (fun hwj => he (hone j List.mem_cons_self hwj)), ih hn' hmem hb'
        (fun m hm => hone m (List.mem_cons_of_mem j hm))]
      rfl

theorem Rests.writes (h : Rests p es) {i : ℕ} (hi : i < es.length)
    (hin : InRange min max es[i]) : p.Writes min max i := by
  refine ⟨?_, h.shown hi⟩
  rw [h.record i hi]
  exact hin

theorem Rests.reads_backward (h : Rests p es) (cnt : ℕ)
    (hf : ¬ isForward p.switchCounter) (hh : p.Harmless cnt min max) :
    ReadsLeaf p cnt min max es := by
  have hcount := h.count_eq
  have hleaf : p.rangeLeaf cnt min max = p.rangeRecords min max (Page.backwardIndices cnt) := by
    rw [Page.rangeLeaf, if_neg hf]
  have hvisited : ∀ i ∈ Page.backwardIndices cnt, Visited cnt i :=
    fun i hi => (mem_backwardIndices cnt i).mp hi
  have hbeyond : ∀ i ∈ Page.backwardIndices cnt, ¬ Beyond min max (p.records i) :=
    fun i hi => hh.goes_on i (Or.inl (hvisited i hi))
  have hnone : ¬ ∃ e ∈ es, Beyond min max e := by
    rintro ⟨e, he, hb⟩
    obtain ⟨i, hi, rfl⟩ := List.getElem_of_mem he
    rw [← h.record i hi] at hb
    exact hh.goes_on i (Or.inr (by omega)) hb
  by_cases hw : ∃ i, Visited cnt i ∧ p.Writes min max i
  · obtain ⟨i, hvi, hwi⟩ := hw
    have hi : i < es.length := by
      rw [← hcount]
      exact hh.own i hvi hwi
    have hin : InRange min max es[i] := by
      rw [← h.record i hi]
      exact hwi.1
    have hscan := rangeRecords_single _ (backwardIndices_nodup cnt) i
      ((mem_backwardIndices cnt i).mpr hvi) hbeyond hwi
      (fun j hj hwj => hh.single j i (hvisited j hj) hvi hwj hwi)
    -- the entry is the only one in the range
    have hone : ∀ j (hj : j < es.length), InRange min max es[j] → j = i := by
      intro j hj hinj
      have hwj := h.writes hj hinj
      exact hh.single j i (hh.read j (by omega) hwj.1) hvi hwj hwi
    have hsplit : es = es.take i ++ es[i] :: es.drop (i + 1) := by
      rw [← List.drop_eq_getElem_cons hi, List.take_append_drop]
    have hvalues : rangeValues min max es = [es[i].ptr] := by
      have hleft : rangeValues min max (es.take i) = [] := by
        apply rangeValues_nil
        intro e he hine
        obtain ⟨j, hj, rfl⟩ := List.getElem_of_mem he
        rw [List.getElem_take] at hine
        rw [List.length_take] at hj
        have hji := hone j (by omega) hine
        omega
      have hright : rangeValues min max (es.drop (i + 1)) = [] := by
        apply rangeValues_nil
        intro e he hine
        obtain ⟨j, hj, rfl⟩ := List.getElem_of_mem he
        rw [List.getElem_drop] at hine
        rw [List.length_drop] at hj
        have hji := hone (i + 1 + j) (by omega) hine
        omega
      have hself : rangeValues min max [es[i]] = [es[i].ptr] := by
        rw [rangeValues, List.filter_cons_of_pos (by simpa using hin)]
        rfl
      calc rangeValues min max es
          = rangeValues min max (es.take i ++ ([es[i]] ++ es.drop (i + 1))) := by
            rw [List.singleton_append, ← hsplit]
        _ = [es[i].ptr] := by
            rw [rangeValues_append, rangeValues_append, hleft, hself, hright, List.nil_append,
              List.append_nil]
    refine ⟨?_, ?_⟩
    · rw [hleaf, hscan, hvalues, h.record i hi]
    · rw [hleaf, hscan]
      exact iff_of_false Bool.false_ne_true hnone
  · have hscan := rangeRecords_quiet (Page.backwardIndices cnt) hbeyond
      (fun i hi hwi => hw ⟨i, hvisited i hi, hwi⟩)
    refine ⟨?_, ?_⟩
    · rw [hleaf, hscan, rangeValues_nil]
      intro e he hine
      obtain ⟨i, hi, rfl⟩ := List.getElem_of_mem he
      have hwi := h.writes hi hine
      exact hw ⟨i, hh.read i (by omega) hwi.1, hwi⟩
    · rw [hleaf, hscan]
      exact iff_of_false Bool.false_ne_true hnone

theorem Rests.reads_absent (h : Rests p es) (hnil : es = []) (cnt : ℕ)
    (hf : isForward p.switchCounter) : (p.rangeLeaf cnt min max).1 = [] := by
  have h1 := h.empty hnil
  have h0 : (p.records 0).ptr = NULL := by
    have ht := h.terminator
    rw [hnil] at ht
    exact ht
  have hidx : p.forwardIndices = [0] := by
    rw [Page.forwardIndices, cardinality_eq, List.range'_succ, List.takeWhile_cons_of_neg (by simp [h1])]
  rw [Page.rangeLeaf, if_pos hf, hidx, Page.rangeRecords, Page.rangeRecord]
  by_cases hmin : min < (p.records 0).key
  · by_cases hmax : (p.records 0).key < max
    · rw [if_pos hmin, if_pos hmax, if_neg fun hs => hs.1 h0]
      rfl
    · rw [if_pos hmin, if_neg hmax]
  · rw [if_neg hmin]
    rfl

end Leaf

/-! ### The chain of leaves -/

/-- A leaf that the range search reads as it should: forward, or backward where
this does no harm. -/
def Page.ReadsRange (p : Page) (cnt : ℕ) (min max : ℤ) : Prop :=
  isForward p.switchCounter ∧ (p.count ≠ 0 ∨ p.siblingPtr = NULL) ∨
    ¬ isForward p.switchCounter ∧ p.Harmless cnt min max

/-- All leaves from `a` up to the first with a key that ends the scan are read
as they should be. -/
inductive LeavesFine (t : Btree) (cnt : ℕ) (min max : ℤ) : ℕ → Prop
  | null : LeavesFine t cnt min max NULL
  | last {a : ℕ} {p : Page} (hp : t.pages a = some p) (hr : p.ReadsRange cnt min max)
      (hb : ∃ i < p.count, Beyond min max (p.records i)) : LeavesFine t cnt min max a
  | next {a : ℕ} {p : Page} (hp : t.pages a = some p) (hr : p.ReadsRange cnt min max)
      (h : LeavesFine t cnt min max p.siblingPtr) : LeavesFine t cnt min max a

section Tree
variable {alloc : ℕ → ℕ} {μ : ℕ} {t : Btree} {G : Outline} {min max : ℤ}

theorem linearSearchRange_null (cnt : ℕ) :
    Yields (fun fuel => t.linearSearchRange cnt min max fuel NULL) [] := by
  refine Yields.step (g := fun _ => some []) (.const fun _ => rfl) ?_
  intro fuel
  rw [Btree.linearSearchRange, if_pos rfl]

theorem linearSearchRange_stop {cnt a : ℕ} {p : Page} (ha : a ≠ NULL) (hp : t.pages a = some p)
    (hr : (p.rangeLeaf cnt min max).2 = true) :
    Yields (fun fuel => t.linearSearchRange cnt min max fuel a) (p.rangeLeaf cnt min max).1 := by
  refine Yields.step (g := fun _ => some (p.rangeLeaf cnt min max).1) (.const fun _ => rfl) ?_
  intro fuel
  rw [Btree.linearSearchRange, if_neg ha, hp, Option.bind_eq_bind, Option.bind_some]
  exact if_pos hr

theorem linearSearchRange_next {cnt a : ℕ} {p : Page} {buf : List ℕ} (ha : a ≠ NULL)
    (hp : t.pages a = some p) (hr : (p.rangeLeaf cnt min max).2 = false)
    (hy : Yields (fun fuel => t.linearSearchRange cnt min max fuel p.siblingPtr) buf) :
    Yields (fun fuel => t.linearSearchRange cnt min max fuel a)
      ((p.rangeLeaf cnt min max).1 ++ buf) := by
  refine Yields.step (g := fun fuel => (t.linearSearchRange cnt min max fuel p.siblingPtr).bind
    fun rest => some ((p.rangeLeaf cnt min max).1 ++ rest)) ?_ ?_
  · exact hy.bind (g := fun _ rest => some ((p.rangeLeaf cnt min max).1 ++ rest)) (.const fun _ => rfl)
  · intro fuel
    rw [Btree.linearSearchRange, if_neg ha, hp, Option.bind_eq_bind, Option.bind_some]
    exact if_neg (by rw [hr]; exact Bool.false_ne_true)

/-- What the scan of the leaves from `B` on writes. -/
theorem AtRest.linearSearchRange_yields (h : AtRest alloc μ t G) (hal : Allocator alloc) (cnt : ℕ)
    (B A : List (Cell ℤ ℕ)) (hc : G.chain 0 = A ++ B)
    (hfine : LeavesFine t cnt min max (nextAddress B)) :
    Yields (fun fuel => t.linearSearchRange cnt min max fuel (nextAddress B))
      (rangeValues min max (B.flatMap fun x => G.entries x.2)) := by
  induction B generalizing A with
  | nil => exact linearSearchRange_null cnt
  | cons x B ih =>
    have hx : x ∈ G.chain 0 := by
      rw [hc]
      simp
    have hc' : G.chain 0 = (A ++ [x]) ++ B := by
      rw [hc]
      simp
    have ha : x.2 ≠ NULL := h.address_ne hal h.outline.pos hx
    obtain ⟨p, hp, hpl, hrests⟩ := h.follows.page 0 h.outline.pos A x.1 x.2 B hc
    have hsib : p.siblingPtr = nextAddress B := hpl.siblingPtr
    change LeavesFine t cnt min max x.2 at hfine
    change Yields (fun fuel => t.linearSearchRange cnt min max fuel x.2) _
    rw [List.flatMap_cons, rangeValues_append]
    -- the page and the rest of the chain, unless an entry ends the scan
    have hcond : p.ReadsRange cnt min max ∧ ((∃ e ∈ G.entries x.2, Beyond min max e) ∨
        LeavesFine t cnt min max (nextAddress B)) := by
      have hpage : ∀ q, t.pages x.2 = some q → q = p := by
        intro q hq
        rw [hp] at hq
        exact (Option.some.inj hq).symm
      generalize hxa : x.2 = a at hfine hpage
      cases hfine with
      | null => exact absurd hxa ha
      | last hq hr hb =>
        rw [hpage _ hq] at hr hb
        obtain ⟨i, hi, hbi⟩ := hb
        rw [hrests.count_eq] at hi
        rw [hrests.record i hi] at hbi
        rw [← hxa]
        exact ⟨hr, Or.inl ⟨_, List.getElem_mem hi, hbi⟩⟩
      | next hq hr hrest =>
        rw [hpage _ hq] at hr hrest
        rw [hsib] at hrest
        exact ⟨hr, Or.inr hrest⟩
    obtain ⟨hread, hrest⟩ := hcond
    have hleaf : ReadsLeaf p cnt min max (G.entries x.2) →
        Yields (fun fuel => t.linearSearchRange cnt min max fuel x.2)
          (rangeValues min max (G.entries x.2) ++
            rangeValues min max (B.flatMap fun x => G.entries x.2)) := by
      intro hr
      by_cases hb : ∃ e ∈ G.entries x.2, Beyond min max e
      · -- behind an entry that is too large there is nothing in the range
        have hnil : rangeValues min max (B.flatMap fun x => G.entries x.2) = [] := by
          apply rangeValues_nil
          intro e he hin
          obtain ⟨b, hbm, hbe⟩ := hb
          have hinc := h.outline.increasing
          rw [Outline.contents, hc, List.flatMap_append, List.flatMap_cons] at hinc
          have hlt := (List.pairwise_append.mp (List.pairwise_append.mp hinc).2.1).2.2 b hbm e he
          exact absurd (hlt.trans hin.2) (not_lt.mpr hbe.2)
        rw [hnil, List.append_nil, ← hr.written]
        exact linearSearchRange_stop ha hp (hr.returned.mpr hb)
      · have hgo : (p.rangeLeaf cnt min max).2 = false :=
          Bool.eq_false_iff.mpr fun hret => hb (hr.returned.mp hret)
        rw [← hr.written]
        refine linearSearchRange_next ha hp hgo ?_
        rw [hsib]
        exact ih (A ++ [x]) hc' (hrest.resolve_left hb)
    rcases hread with ⟨hf, hfull⟩ | ⟨hf, hharm⟩
    · by_cases hnil : G.entries x.2 = []
      · have hzero : p.count = 0 := by
          rw [hrests.count_eq, hnil]
          rfl
        have hB : B = [] := by
          have hnull := hfull.resolve_left fun hne => hne hzero
          rw [hsib] at hnull
          cases B with
          | nil => rfl
          | cons y B => exact absurd hnull (h.address_ne hal h.outline.pos (x := y) (by rw [hc]; simp))
        have hwritten : (p.rangeLeaf cnt min max).1 = [] := hrests.reads_absent hnil cnt hf
        rw [hnil, hB]
        cases hret : (p.rangeLeaf cnt min max).2 with
        | true =>
          have hy := linearSearchRange_stop ha hp hret
          rw [hwritten] at hy
          exact hy
        | false =>
          have hy := linearSearchRange_next ha hp hret (by
            rw [hsib, hB]
            exact linearSearchRange_null cnt)
          rw [hwritten] at hy
          exact hy
      · exact hleaf (hrests.reads_forward cnt hnil hf)
    · exact hleaf (hrests.reads_backward cnt hf hharm)

/-- Between `min` and `max` there is no key at all. -/
theorem rangeRecords_narrow (p : Page) (h : max ≤ min + 1) (is : List ℕ) :
    (p.rangeRecords min max is).1 = [] := by
  induction is with
  | nil => rfl
  | cons i is ih =>
    rw [Page.rangeRecords, Page.rangeRecord]
    by_cases hmin : min < (p.records i).key
    · rw [if_pos hmin, if_neg (by omega)]
    · rw [if_neg hmin]
      exact ih

theorem AtRest.linearSearchRange_narrow (h : AtRest alloc μ t G) (hal : Allocator alloc)
    (hmax : max ≤ min + 1) (cnt : ℕ) (B A : List (Cell ℤ ℕ)) (hc : G.chain 0 = A ++ B) :
    Yields (fun fuel => t.linearSearchRange cnt min max fuel (nextAddress B)) [] := by
  induction B generalizing A with
  | nil => exact linearSearchRange_null cnt
  | cons x B ih =>
    have ha : x.2 ≠ NULL := h.address_ne hal h.outline.pos (by rw [hc]; simp)
    obtain ⟨p, hp, hpl, _⟩ := h.follows.page 0 h.outline.pos A x.1 x.2 B hc
    have hnil : (p.rangeLeaf cnt min max).1 = [] := rangeRecords_narrow p hmax _
    change Yields (fun fuel => t.linearSearchRange cnt min max fuel x.2) []
    cases hret : (p.rangeLeaf cnt min max).2 with
    | true =>
      have hy := linearSearchRange_stop ha hp hret
      rw [hnil] at hy
      exact hy
    | false =>
      have hy := linearSearchRange_next ha hp hret (by
        rw [hpl.siblingPtr]
        exact ih (A ++ [x]) (by rw [hc]; simp))
      rw [hnil] at hy
      exact hy

/-! ### The walk down -/

theorem searchRangeFrom_leaf {a : ℕ} {p : Page} {buf : List ℕ} (ha : a ≠ NULL)
    (hp : t.pages a = some p) (hl : p.leftmostPtr = NULL)
    (hy : Yields (fun fuel => t.linearSearchRange p.count min max fuel a) buf) :
    Yields (fun fuel => t.searchRangeFrom min max fuel a) buf := by
  refine hy.step ?_
  intro fuel
  rw [Btree.searchRangeFrom, if_neg ha, hp, Option.bind_eq_bind, Option.bind_some]
  exact if_neg (not_not.mpr hl)

theorem searchRangeFrom_node {a r fuel : ℕ} {p : Page} (ha : a ≠ NULL) (hp : t.pages a = some p)
    (hl : p.leftmostPtr ≠ NULL) (hs : t.linearSearch a min = some r) :
    t.searchRangeFrom min max (fuel + 1) a = t.searchRangeFrom min max fuel r := by
  rw [Btree.searchRangeFrom, if_neg ha, hp, Option.bind_eq_bind, Option.bind_some, if_pos hl, hs,
    Option.bind_eq_bind, Option.bind_some]

/-- The walk of `btree_search_range` ends at the leaf that `min` belongs to. -/
theorem AtRest.searchRangeFrom_home (h : AtRest alloc μ t G) (hal : Allocator alloc) (max : ℤ)
    (l : ℕ) (hl : l < G.height) (hpend : ∀ l, G.pending l = none) {c : ℕ}
    (hat : AtHome (G.chain l) min c) :
    ∃ a p, Yields (fun fuel => t.findLeaf min fuel c) a ∧ AtHome (G.chain 0) min a ∧
      t.pages a = some p ∧
      ∀ buf, Yields (fun fuel => t.linearSearchRange p.count min max fuel a) buf →
        Yields (fun fuel => t.searchRangeFrom min max fuel c) buf := by
  induction l generalizing c with
  | zero =>
    have hat' := hat
    obtain ⟨A, lo, B, hc, _⟩ := hat'
    have hne : c ≠ NULL := h.address_ne hal hl (x := (lo, c)) (by rw [hc]; simp)
    obtain ⟨p, hp, _, hleaf⟩ := h.readable.leaf_page hl hc
    have hlm := hleaf.mpr rfl
    refine ⟨c, p, ?_, hat, hp, fun buf hy => searchRangeFrom_leaf hne hp hlm hy⟩
    exact Yields.step (g := fun _ => some c) (.const fun _ => rfl)
      fun fuel => findLeaf_leaf min hp hlm
  | succ l ih =>
    obtain ⟨r, hr, hat'⟩ := h.readable.home_step hal hl hat
    obtain ⟨A, lo, B, hc, _⟩ := hat
    have hne : c ≠ NULL := h.address_ne hal hl (x := (lo, c)) (by rw [hc]; simp)
    obtain ⟨p, hp, _, hleaf⟩ := h.readable.leaf_page hl hc
    have hlm : p.leftmostPtr ≠ NULL := fun h0 => absurd (hleaf.mp h0) (by omega)
    have heq := h.outline.chain_eq l (by omega)
    rw [hpend] at heq
    have hat'' : AtHome (G.chain l) min r := by
      rw [heq]
      exact hat'
    obtain ⟨a, q, hy, ha, hq, hwalk⟩ := ih (by omega) hat''
    exact ⟨a, q, hy.step fun fuel => findLeaf_node hp hlm hr, ha, hq,
      fun buf hb => (hwalk buf hb).step fun fuel => searchRangeFrom_node hne hp hlm hr⟩

/-- No key lies between the bounds, or every leaf that is read is read as it should be. -/
def RangeFine (t : Btree) (min max : ℤ) : Prop :=
  max ≤ min + 1 ∨ ∃ a p, Yields (fun fuel => t.findLeaf min fuel t.root) a ∧
    t.pages a = some p ∧ LeavesFine t p.count min max a

theorem AtRest.searchRange_yields (h : AtRest alloc μ t G) (hal : Allocator alloc)
    (hpend : ∀ l, G.pending l = none) (hfine : RangeFine t min max) :
    Yields (fun fuel => Btree.btreeSearchRange fuel t min max)
      (rangeValues min max G.contents) := by
  have hpos := h.outline.pos
  have hroot : AtHome (G.chain (G.height - 1)) min t.root := by
    rw [h.follows.root, h.root_cell (hpend _)]
    exact ⟨[], ⊥, [], rfl, bot_le, by simp⟩
  obtain ⟨a, p, hy, ⟨A, lo, B, hc, hlo, _⟩, hp, hwalk⟩ :=
    h.searchRangeFrom_home hal max (G.height - 1) (by omega) hpend hroot
  apply hwalk
  rcases hfine with hnarrow | ⟨a', p', hy', hp', hleaves⟩
  · rw [rangeValues_nil]
    · exact h.linearSearchRange_narrow hal hnarrow p.count ((lo, a) :: B) A hc
    · intro e _ hin
      have h1 := hin.1
      have h2 := hin.2
      omega
  · obtain rfl := hy.unique hy'
    rw [hp] at hp'
    obtain rfl := Option.some.inj hp'
    have hscan := h.linearSearchRange_yields hal p.count ((lo, a) :: B) A hc hleaves
    -- the leaves to the left hold smaller keys
    have hleft : rangeValues min max (A.flatMap fun x => G.entries x.2) = [] := by
      apply rangeValues_nil
      intro e he hin
      obtain ⟨x, hx, hex⟩ := List.mem_flatMap.mp he
      obtain ⟨A1, A2, rfl⟩ := List.append_of_mem hx
      have hc' : G.chain 0 = A1 ++ (x.1, x.2) :: (A2 ++ (lo, a) :: B) := by
        rw [hc]
        simp
      have hlt := (h.outline.leaf_range hc' _ hex).2 (lo, a) (by simp)
      have hkey : e.key < min := WithBot.coe_lt_coe.mp (hlt.trans_le hlo)
      have h1 := hin.1
      omega
    rw [Outline.contents, hc, List.flatMap_append, rangeValues_append, hleft, List.nil_append]
    exact hscan

end Tree

/-- After any run, a range search that finds every leaf fit to be read writes the
values of the stored keys in the range, in the order of the keys. -/
theorem run_range {alloc : ℕ → ℕ} {t : Btree} {m : ℤ → Option ℕ} (hal : Allocator alloc)
    (h : Run alloc true t m) (min max : ℤ) (hfine : RangeFine t min max) :
    ∃ es : List Entry, Increasing es ∧
      (∀ k v, (⟨k, v⟩ : Entry) ∈ es ↔ m k = some v ∧ min < k ∧ k < max) ∧
      Yields (fun fuel => Btree.btreeSearchRange fuel t min max) (es.map (·.ptr)) := by
  obtain ⟨G, hG⟩ := h.settled hal
  refine ⟨G.contents.filter fun e => InRange min max e, ?_, ?_,
    hG.rest.searchRange_yields hal hG.closed hfine⟩
  · exact hG.rest.outline.increasing.sublist List.filter_sublist
  · intro k v
    rw [List.mem_filter, hG.contents, decide_eq_true_iff]
    exact Iff.rfl

/-! ### Three insertions and a deletion -/

theorem single_range {alloc : ℕ → ℕ} {p : Page} (hal : Allocator alloc) (hp : p.Alone)
    (min max : ℤ) : Yields (fun fuel => Btree.btreeSearchRange fuel (Btree.single alloc p) min max)
      (p.rangeLeaf p.count min max).1 := by
  have hpage := Btree.single_page alloc p
  apply searchRangeFrom_leaf (hal.ne_null 0) hpage hp.leaf
  cases hr : (p.rangeLeaf p.count min max).2 with
  | true => exact linearSearchRange_stop (hal.ne_null 0) hpage hr
  | false =>
    have hy := linearSearchRange_next (hal.ne_null 0) hpage hr (by
      rw [hp.last]
      exact linearSearchRange_null p.count)
    rw [List.append_nil] at hy
    exact hy

def threeKeys : Page := (((Page.new 0).afterInsert 1 11).afterInsert 2 13).afterInsert 3 15

def threeMap : ℤ → Option ℕ :=
  Function.update (Function.update (Function.update (fun _ => none) 1 (some 11)) 2 (some 13)) 3
    (some 15)

theorem threeKeys_alone : threeKeys.Alone ∧ (threeKeys.afterRemove 3).Alone :=
  ⟨⟨by decide +kernel, by decide +kernel, by decide +kernel⟩,
    ⟨by decide +kernel, by decide +kernel, by decide +kernel⟩⟩

theorem threeKeys_run : Run evens true (Btree.single evens threeKeys) threeMap := by
  have h0 : Run evens true (Btree.single evens (Page.new 0)) fun _ => none := .new
  have h1 := h0.single_insert evens_allocator ⟨rfl, rfl, rfl⟩ (by decide)
    (insertable_evens (k := 1) (v := 11) (by unfold IsKey; decide) rfl (fun _ => by simp) rfl)
  have h2 := h1.single_insert evens_allocator
    ⟨by decide +kernel, by decide +kernel, by decide +kernel⟩ (by decide +kernel)
    (insertable_evens (k := 2) (v := 13) (by unfold IsKey; decide) (by decide) (by
      intro k
      rw [Function.update_apply]
      split <;> simp) rfl)
  exact h2.single_insert evens_allocator
    ⟨by decide +kernel, by decide +kernel, by decide +kernel⟩ (by decide +kernel)
    (insertable_evens (k := 3) (v := 15) (by unfold IsKey; decide) (by decide) (by
      intro k
      rw [Function.update_apply, Function.update_apply]
      split
      · simp
      · split <;> simp) rfl)

theorem run_range_three : ∃ es : List Entry, Increasing es ∧
    Yields (fun fuel => Btree.btreeSearchRange fuel (Btree.single evens threeKeys) 0 10)
      (es.map (·.ptr)) := by
  have hpage := Btree.single_page evens threeKeys
  obtain ⟨es, hi, _, hy⟩ := run_range evens_allocator threeKeys_run 0 10
    (Or.inr ⟨2, threeKeys, ⟨1, fun fuel hf => by
      obtain ⟨n, rfl⟩ : ∃ n, fuel = n + 1 := ⟨fuel - 1, by omega⟩
      exact single_findLeaf threeKeys_alone.1 0 n⟩, hpage,
      .next hpage (Or.inl ⟨by decide +kernel, Or.inl (by decide +kernel)⟩)
        (by rw [threeKeys_alone.1.last]; exact .null)⟩)
  exact ⟨es, hi, hy⟩

/-- After the deletion of key 3 the values of keys 1 and 2 come in the wrong order. -/
theorem range_reversed : ∃ t, Run evens true t (Function.update threeMap 3 none) ∧
    Yields (fun fuel => Btree.btreeSearchRange fuel t 0 10) [13, 11] ∧
    ¬ ∃ es : List Entry, Increasing es ∧
      (∀ k v, (⟨k, v⟩ : Entry) ∈ es ↔ Function.update threeMap 3 none k = some v ∧ 0 < k ∧ k < 10) ∧
      Yields (fun fuel => Btree.btreeSearchRange fuel t 0 10) (es.map (·.ptr)) := by
  have hrun := threeKeys_run.single_delete evens_allocator threeKeys_alone.1 (k := 3)
    (by decide +kernel) (by decide +kernel)
  have hy := single_range evens_allocator threeKeys_alone.2 0 10
  have hvalues : ((threeKeys.afterRemove 3).rangeLeaf (threeKeys.afterRemove 3).count 0 10).1 = [13, 11] := by
    decide +kernel
  rw [hvalues] at hy
  refine ⟨_, hrun, hy, ?_⟩
  rintro ⟨es, hi, hmem, hy'⟩
  have hes := hy.unique hy'
  have h11 : (⟨1, 11⟩ : Entry) ∈ es := (hmem 1 11).mpr ⟨by decide, by decide, by decide⟩
  have h13 : (⟨2, 13⟩ : Entry) ∈ es := (hmem 2 13).mpr ⟨by decide, by decide, by decide⟩
  obtain ⟨x, es1, rfl, hx, hes1⟩ := List.map_eq_cons_iff.mp hes.symm
  obtain ⟨y, es2, rfl, hy1, hes2⟩ := List.map_eq_cons_iff.mp hes1
  obtain rfl := List.map_eq_nil_iff.mp hes2
  have hlt := (List.pairwise_cons.mp hi).1 y List.mem_cons_self
  have hxkey : x.key = 2 := by
    rcases List.mem_pair.mp h13 with he | he
    · rw [← he]
    · rw [← he] at hy1
      exact absurd hy1 (by decide)
  have hykey : y.key = 1 := by
    rcases List.mem_pair.mp h11 with he | he
    · rw [← he] at hx
      exact absurd hx (by decide)
    · rw [← he]
  rw [hxkey, hykey] at hlt
  exact absurd hlt (by decide)

end PmemStudy.FastFair
