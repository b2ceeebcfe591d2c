import Mathlib.Data.Int.Order.Basic
import PmemStudy.FastFair.Page

/-!
# What a search sees in the records of a page

The searches of a page are those of `Lib.Slots` on the list of its records up
to the terminator. A page with a gap at one position answers as without it.
-/

namespace PmemStudy.FastFair
open PmemStudy.Slots

theorem cardinality_eq : cardinality = 30 := rfl

/-- The records up to the terminator are `q`. -/
structure Holds (p : Page) (q : List Entry) : Prop where
  pos : 0 < q.length
  fits : q.length < cardinality
  record : ∀ i (h : i < q.length), p.records i = q[i]
  live : ∀ i (h : i < q.length), 0 < i → q[i].ptr ≠ NULL
  terminator : (p.records q.length).ptr = NULL

/-- The answer of a page with these entries. -/
def answer (leftmost : ℕ) (es : List Entry) (key : ℤ) : ℕ :=
  if leftmost = NULL then (find key NULL es).getD NULL else route key leftmost es

def Shows (p : Page) (es : List Entry) : Prop :=
  ∀ key, p.search key = answer p.leftmostPtr es key

/-! ### Forward searches -/

theorem leafScan_eq {p : Page} {q : List Entry} (h : Holds p q) (key : ℤ) (fuel i : ℕ)
    (hi : 0 < i) (hle : i ≤ q.length) (hf : q.length < i + fuel) :
    p.leafScan key fuel i = (find key (p.records (i - 1)).ptr (q.drop i)).getD NULL := by
  induction fuel generalizing i with
  | zero => omega
  | succ fuel ih =>
    rcases Nat.lt_or_ge i q.length with hlt | hge
    · have hr := h.record i hlt
      have hl := h.live i hlt hi
      rw [Page.leafScan, List.drop_eq_getElem_cons hlt, find, hr, if_neg hl]
      by_cases hk : q[i].key = key ∧ (p.records (i - 1)).ptr ≠ q[i].ptr
      · rw [if_pos hk, if_pos hk]
        rfl
      · rw [if_neg hk, if_neg hk, ih (i + 1) (by omega) (by omega) (by omega),
          Nat.add_sub_cancel, hr]
    · have he : i = q.length := by omega
      subst i
      rw [Page.leafScan, if_pos h.terminator, List.drop_length]
      rfl

theorem leafForward_eq {p : Page} {q : List Entry} (h : Holds p q) (key : ℤ) :
    p.leafForward key = (find key NULL q).getD NULL := by
  have hpos := h.pos
  have h0 := h.record 0 hpos
  have hq : q = q[0] :: q.drop 1 := by
    have := List.drop_eq_getElem_cons h.pos
    simpa using this
  have hs := leafScan_eq h key cardinality 1 (by omega) h.pos
    (by have := h.fits; omega)
  rw [Page.leafForward, h0, hs]
  conv => rhs; rw [hq]
  rw [find]
  by_cases hk : q[0].key = key ∧ q[0].ptr ≠ NULL
  · rw [if_pos hk, if_pos ⟨hk.1, hk.2.symm⟩]
    rfl
  · rw [if_neg hk, if_neg (fun hc => hk ⟨hc.1, hc.2.symm⟩)]
    show (find key (p.records 0).ptr (q.drop 1)).getD NULL = _
    rw [h0]

theorem nodeScan_eq {p : Page} {q : List Entry} (h : Holds p q) (key : ℤ) (fuel i : ℕ)
    (hi : 0 < i) (hle : i ≤ q.length) (hf : q.length < i + fuel) :
    p.nodeScan key fuel i = route key (p.records (i - 1)).ptr (q.drop i) := by
  induction fuel generalizing i with
  | zero => omega
  | succ fuel ih =>
    rcases Nat.lt_or_ge i q.length with hlt | hge
    · have hr := h.record i hlt
      have hl := h.live i hlt hi
      rw [Page.nodeScan, List.drop_eq_getElem_cons hlt, route, hr, if_neg hl]
      by_cases hk : key < q[i].key ∧ (p.records (i - 1)).ptr ≠ q[i].ptr
      · rw [if_pos hk, if_pos hk]
      · rw [if_neg hk, if_neg hk, ih (i + 1) (by omega) (by omega) (by omega),
          Nat.add_sub_cancel, hr]
    · have he : i = q.length := by omega
      subst i
      rw [Page.nodeScan, if_pos h.terminator, List.drop_length]
      rfl

theorem nodeForward_eq {p : Page} {q : List Entry} (h : Holds p q) (key : ℤ) :
    p.nodeForward key = route key p.leftmostPtr q := by
  have hpos := h.pos
  have h0 := h.record 0 hpos
  have hq : q = q[0] :: q.drop 1 := by
    have := List.drop_eq_getElem_cons h.pos
    simpa using this
  have hs := nodeScan_eq h key cardinality 1 (by omega) h.pos (by have := h.fits; omega)
  rw [Page.nodeForward, h0, hs]
  conv => rhs; rw [hq]
  rw [route]
  by_cases hk : key < q[0].key ∧ p.leftmostPtr ≠ q[0].ptr
  · rw [if_pos hk, if_pos hk]
  · rw [if_neg hk, if_neg hk]
    show route key (p.records 0).ptr (q.drop 1) = _
    rw [h0]

theorem Holds.shows {p : Page} {es q : List Entry} (h : Holds p q)
    (hs : Stutter p.leftmostPtr es q) (hf : isForward p.switchCounter) : Shows p es := by
  intro key
  rw [Page.search, answer]
  by_cases hl : p.leftmostPtr = NULL
  · rw [if_pos hl, if_pos hl, if_pos hf, leafForward_eq h]
    rw [hl] at hs
    exact congrArg (Option.getD · NULL) (find_stutter key hs)
  · rw [if_neg hl, if_neg hl, if_pos hf, nodeForward_eq h, route_stutter key hs]

/-! ### A gap -/

/-- The entries before `c` are in their places, the others one place to the
right; record `c` is free. -/
structure Shifted (p : Page) (es : List Entry) (c : ℕ) : Prop where
  le : c ≤ es.length
  fits : es.length + 1 < cardinality
  left : ∀ i (h : i < es.length), i < c → p.records i = es[i]
  right : ∀ i (h : i < es.length), c ≤ i → p.records (i + 1) = es[i]
  live : ∀ e ∈ es, e.ptr ≠ NULL
  terminator : (p.records (es.length + 1)).ptr = NULL

theorem before_ne_null {prev : ℕ} {es : List Entry} (h : ∀ e ∈ es, e.ptr ≠ NULL) {c : ℕ}
    (hc : 0 < c) (hle : c ≤ es.length) : before prev es c ≠ NULL := by
  obtain ⟨c, rfl⟩ : ∃ d, c = d + 1 := ⟨c - 1, by omega⟩
  rw [before_succ prev es c (by omega)]
  exact h _ (List.getElem_mem _)

theorem Shifted.holds {p : Page} {es : List Entry} {c : ℕ} (h : Shifted p es c) {e : Entry}
    (he : p.records c = e) (hn : 0 < c → e.ptr ≠ NULL) : Holds p (es.insertIdx c e) := by
  have hlen := List.length_insertIdx_of_le_length h.le e
  refine ⟨by omega, by have := h.fits; omega, ?_, ?_, by rw [hlen]; exact h.terminator⟩
  · intro i hi
    rw [List.getElem_insertIdx hi]
    rw [hlen] at hi
    split
    · next hlt => exact h.left i (by have := h.le; omega) hlt
    · split
      · next _ heq => rw [heq, he]
      · next hge hne =>
        have := h.right (i - 1) (by omega) (by omega)
        rwa [Nat.sub_add_cancel (by omega)] at this
  · intro i hi h0
    rw [List.getElem_insertIdx hi]
    rw [hlen] at hi
    split
    · exact h.live _ (List.getElem_mem _)
    · split
      · next _ heq => exact hn (by omega)
      · exact h.live _ (List.getElem_mem _)

/-- A page whose free record repeats the pointer before it. -/
theorem Shifted.shows {p : Page} {es : List Entry} {c : ℕ} (h : Shifted p es c)
    (hg : (p.records c).ptr = before p.leftmostPtr es c) (hf : isForward p.switchCounter) :
    Shows p es := by
  have he : p.records c = ⟨(p.records c).key, before p.leftmostPtr es c⟩ := by
    rw [← hg]
  refine (h.holds he ?_).shows (Stutter.gap _ es c h.le _) hf
  intro h0
  exact before_ne_null h.live h0 h.le

/-! ### Pages without a gap -/

/-- The records are `es`, then the terminator. -/
structure Plain (p : Page) (es : List Entry) : Prop where
  fits : es.length < cardinality
  record : ∀ i (h : i < es.length), p.records i = es[i]
  live : ∀ e ∈ es, e.ptr ≠ NULL
  terminator : (p.records es.length).ptr = NULL
  empty : es = [] → (p.records 1).ptr = NULL

theorem Plain.holds {p : Page} {es : List Entry} (h : Plain p es) (hne : es ≠ []) :
    Holds p es := by
  refine ⟨List.length_pos_of_ne_nil hne, h.fits, h.record, ?_, h.terminator⟩
  intro i hi _
  exact h.live _ (List.getElem_mem _)

theorem Plain.shows_forward {p : Page} {es : List Entry} (h : Plain p es)
    (hf : isForward p.switchCounter) (hleaf : es = [] → p.leftmostPtr = NULL) : Shows p es := by
  by_cases hne : es = []
  · have h0 : (p.records 0).ptr = NULL := by simpa [hne] using h.terminator
    have hh : Holds p [p.records 0] := by
      refine ⟨by simp, by simp [cardinality_eq], ?_, ?_, ?_⟩
      · intro i hi
        have : i = 0 := by simpa using hi
        subst i
        rfl
      · intro i hi h0
        simp at hi
        omega
      · simpa using h.empty hne
    refine hh.shows ?_ hf
    rw [hleaf hne, hne]
    have := Stutter.skip NULL (p.records 0).key (Stutter.nil (κ := ℤ) NULL)
    rw [← h0] at this ⊢
    exact this
  · exact (h.holds hne).shows (Stutter.refl _ es) hf

theorem count_of_terminator {p : Page} {n : ℕ} (hl : p.lastIndex = n - 1)
    (ht : (p.records n).ptr = NULL) : p.count = n := by
  have hc : p.lastIndex + 1 = (n : ℤ) := by omega
  rw [Page.count, hc, if_neg (by omega), Int.toNat_natCast]
  split
  · rw [cardinality_eq, Page.countUp, if_pos ht]
  · have : p.countDown n = some n := by
      cases n with
      | zero => rw [Page.countDown, if_pos ht]
      | succ n => rw [Page.countDown, if_pos ht]
    rw [this]
    rfl

/-! ### Backward searches -/

/-- Record `m` is one that the backward search of a leaf takes. -/
def BackHit (p : Page) (key : ℤ) (m : ℕ) : Prop :=
  (p.records m).key = key ∧ (if m = 0 then NULL else (p.records (m - 1)).ptr) ≠ (p.records m).ptr ∧
    (p.records m).ptr ≠ NULL

theorem leafScanBack_hit {p : Page} {key : ℤ} {v : ℕ} (i : ℕ)
    (hall : ∀ m, m ≤ i → BackHit p key m → (p.records m).ptr = v)
    (hex : ∃ m, 0 < m ∧ m ≤ i ∧ BackHit p key m) : p.leafScanBack key i = v := by
  induction i with
  | zero =>
    obtain ⟨m, h0, hm, _⟩ := hex
    omega
  | succ i ih =>
    rw [Page.leafScanBack]
    split
    · next hc => exact hall (i + 1) (Nat.le_refl _) ⟨hc.1, by simpa using hc.2.1, hc.2.2⟩
    · next hc =>
      refine ih (fun m hm => hall m (by omega)) ?_
      obtain ⟨m, h0, hm, hh⟩ := hex
      refine ⟨m, h0, ?_, hh⟩
      by_contra hgt
      obtain rfl : m = i + 1 := by omega
      exact hc ⟨hh.1, by simpa using hh.2.1, hh.2.2⟩

theorem leafScanBack_none {p : Page} {key : ℤ} (i : ℕ)
    (hnone : ∀ m, 0 < m → m ≤ i → ¬ BackHit p key m) : p.leafScanBack key i = NULL := by
  induction i with
  | zero => rfl
  | succ i ih =>
    rw [Page.leafScanBack, if_neg ?_]
    · exact ih (fun m h0 hm => hnone m h0 (by omega))
    · intro hc
      exact hnone (i + 1) (Nat.succ_pos _) (Nat.le_refl _) ⟨hc.1, by simpa using hc.2.1, hc.2.2⟩

theorem leafBackward_hit {p : Page} {key : ℤ} {v : ℕ} (hv : v ≠ NULL)
    (hall : ∀ m, m ≤ p.count - 1 → BackHit p key m → (p.records m).ptr = v)
    (hex : ∃ m, m ≤ p.count - 1 ∧ BackHit p key m) : p.leafBackward key = v := by
  rw [Page.leafBackward]
  by_cases hpos : ∃ m, 0 < m ∧ m ≤ p.count - 1 ∧ BackHit p key m
  · rw [leafScanBack_hit _ hall hpos, if_pos hv]
  · rw [leafScanBack_none _ (fun m h0 hm hh => hpos ⟨m, h0, hm, hh⟩), if_neg (by simp)]
    obtain ⟨m, hm, hh⟩ := hex
    obtain rfl : m = 0 := by
      by_contra hne
      exact hpos ⟨m, by omega, hm, hh⟩
    rw [if_pos ⟨hh.1, hh.2.2⟩]
    exact hall 0 hm hh

theorem leafBackward_none {p : Page} {key : ℤ}
    (hnone : ∀ m, m ≤ p.count - 1 → ¬ BackHit p key m) : p.leafBackward key = NULL := by
  rw [Page.leafBackward, leafScanBack_none _ (fun m _ hm => hnone m hm), if_neg (by simp)]
  refine if_neg ?_
  intro hc
  exact hnone 0 (Nat.zero_le _) ⟨hc.1, by simpa using hc.2.symm, hc.2⟩

/-- A leaf that is searched from right to left and holds `q`, then no pointers. -/
theorem shows_backward {p : Page} {es q : List Entry} (hl : p.leftmostPtr = NULL)
    (hf : ¬ isForward p.switchCounter) (hs : Stutter NULL es q) (hd : Distinct NULL es)
    (hi : Increasing es) (hlive : ∀ e ∈ es, e.ptr ≠ NULL)
    (hrec : ∀ i (h : i < q.length), p.records i = q[i]) (hc : q.length ≤ p.count)
    (hend : ∀ m, q.length ≤ m → m ≤ p.count - 1 → (p.records m).ptr = NULL) : Shows p es := by
  intro key
  rw [Page.search, answer, if_pos hl, if_pos hl, if_neg hf]
  have hbefore : ∀ m, m < q.length →
      (if m = 0 then NULL else (p.records (m - 1)).ptr) = before NULL q m := by
    intro m hm
    cases m with
    | zero => rw [if_pos rfl, before_zero]
    | succ m =>
      rw [if_neg (by omega), before_succ _ _ _ (by omega), Nat.add_sub_cancel, hrec m (by omega)]
  have hmem : ∀ m, m ≤ p.count - 1 → BackHit p key m → ∃ e ∈ es, e.key = key ∧
      (p.records m).ptr = e.ptr := by
    intro m hm hh
    by_cases hmq : m < q.length
    · have h2 := hh.2.1
      rw [hbefore m hmq, hrec m hmq] at h2
      refine ⟨q[m], hs.mem_of_hit m hmq h2, ?_, by rw [hrec m hmq]⟩
      rw [← hrec m hmq]
      exact hh.1
    · exact absurd (hend m (by omega) hm) hh.2.2
  by_cases hex : ∃ e ∈ es, e.key = key
  · obtain ⟨e, he, rfl⟩ := hex
    rw [find_mem hd hi he, Option.getD_some]
    refine leafBackward_hit (hlive e he) ?_ ?_
    · intro m hm hh
      obtain ⟨b, hb, hbk, hbp⟩ := hmem m hm hh
      rw [hbp, hi.unique hb he hbk]
    · obtain ⟨m, hm, hq, hh⟩ := hs.hit_of_mem hd he
      refine ⟨m, by omega, ?_, ?_, ?_⟩
      · rw [hrec m hm, hq]
      · rw [hbefore m hm, hrec m hm]
        exact hh
      · rw [hrec m hm, hq]
        exact hlive e he
  · rw [find_none (fun e he hk => hex ⟨e, he, hk⟩), Option.getD_none]
    refine leafBackward_none ?_
    intro m hm hh
    obtain ⟨e, he, hk, _⟩ := hmem m hm hh
    exact hex ⟨e, he, hk⟩

/-! ### Pages at rest -/

/-- A page between two operations of a writer. -/
structure Rests (p : Page) (es : List Entry) : Prop extends Plain p es where
  lastIndex : p.lastIndex = es.length - 1
  increasing : Increasing es
  distinct : Distinct p.leftmostPtr es
  internal : p.leftmostPtr ≠ NULL → es ≠ [] ∧ isForward p.switchCounter

theorem Rests.count_eq {p : Page} {es : List Entry} (h : Rests p es) : p.count = es.length :=
  count_of_terminator h.lastIndex h.terminator

theorem Rests.shows {p : Page} {es : List Entry} (h : Rests p es) : Shows p es := by
  have hleaf : es = [] → p.leftmostPtr = NULL := by
    intro he
    by_contra hn
    exact (h.internal hn).1 he
  by_cases hf : isForward p.switchCounter
  · exact h.toPlain.shows_forward hf hleaf
  · have hl : p.leftmostPtr = NULL := by
      by_contra hn
      exact hf (h.internal hn).2
    have hd := h.distinct
    rw [hl] at hd
    have hc := h.count_eq
    refine shows_backward hl hf (Stutter.refl _ es) hd h.increasing h.live h.record hc.ge ?_
    intro m hm hmc
    have hm0 : m = es.length := by omega
    rw [hm0]
    exact h.terminator

end PmemStudy.FastFair
