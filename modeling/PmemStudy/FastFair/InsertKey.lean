import Mathlib.Data.List.InsertIdx
import PmemStudy.FastFair.Records

/-!
# FAST: insertion into a page

`insertKey` moves the greater entries one place to the right, the last one
first, and then fills the gap. Every image on the way answers as before the
insertion or as after it.
-/

namespace PmemStudy.FastFair
open PmemStudy.Slots PmemStudy.Trace

namespace Page

theorem records_setRecord (p : Page) (i j : ℕ) (e : Entry) :
    (p.setRecord i e).records j = if j = i then e else p.records j := by
  simp [setRecord, Function.update_apply]

@[simp] theorem leftmostPtr_setRecord (p : Page) (i : ℕ) (e : Entry) :
    (p.setRecord i e).leftmostPtr = p.leftmostPtr := rfl

@[simp] theorem switchCounter_setRecord (p : Page) (i : ℕ) (e : Entry) :
    (p.setRecord i e).switchCounter = p.switchCounter := rfl

end Page

/-- `x` has the header of `p` but for the counters, and keys of `p` or `key`. -/
structure Touched (key : ℤ) (p x : Page) : Prop where
  leftmostPtr : x.leftmostPtr = p.leftmostPtr
  siblingPtr : x.siblingPtr = p.siblingPtr
  level : x.level = p.level
  isDeleted : x.isDeleted = p.isDeleted
  keys : ∀ i, (∃ j, (x.records i).key = (p.records j).key) ∨ (x.records i).key = key

theorem Touched.refl (key : ℤ) (p : Page) : Touched key p p :=
  ⟨rfl, rfl, rfl, rfl, fun i => Or.inl ⟨i, rfl⟩⟩

theorem Touched.setRecord {key : ℤ} {p x : Page} (h : Touched key p x) (i : ℕ) (e : Entry)
    (he : (∃ j, e.key = (p.records j).key) ∨ e.key = key) : Touched key p (x.setRecord i e) := by
  refine ⟨h.leftmostPtr, h.siblingPtr, h.level, h.isDeleted, ?_⟩
  intro j
  rw [Page.records_setRecord]
  split
  · exact he
  · exact h.keys j

theorem Touched.ptr {key : ℤ} {p x : Page} (h : Touched key p x) (i v : ℕ) :
    Touched key p (x.apply (.ptr i v)) := h.setRecord i _ (h.keys i)

/-- A page that answers with the entries `es` and is entered for each of them. -/
structure Serves (p : Page) (es : List Entry) : Prop where
  shows : Shows p es
  first : ∀ b ∈ es, (p.records 0).key ≤ b.key

/-- An image of `p` while `e` is put at position `c` of its entries. -/
structure Image (p : Page) (es : List Entry) (e : Entry) (c : ℕ) (x : Page) : Prop where
  touched : Touched e.key p x
  serves : Serves x es ∨ Serves x (es.insertIdx c e)

/-! ### The gap moves left -/

theorem Shifted.setGap {p : Page} {es : List Entry} {c : ℕ} (h : Shifted p es c) (e : Entry) :
    Shifted (p.setRecord c e) es c := by
  refine ⟨h.le, h.fits, ?_, ?_, h.live, ?_⟩
  · intro i hi hlt
    rw [Page.records_setRecord, if_neg (by omega)]
    exact h.left i hi hlt
  · intro i hi hge
    rw [Page.records_setRecord, if_neg (by omega)]
    exact h.right i hi hge
  · rw [Page.records_setRecord, if_neg (by have := h.le; omega)]
    exact h.terminator

theorem Shifted.down {p : Page} {es : List Entry} {c : ℕ} (h : Shifted p es (c + 1))
    (hr : ∀ hc : c < es.length, p.records (c + 1) = es[c]) : Shifted p es c := by
  refine ⟨by have := h.le; omega, h.fits, ?_, ?_, h.live, h.terminator⟩
  · intro i hi hlt
    exact h.left i hi (by omega)
  · intro i hi hge
    by_cases he : i = c
    · subst i
      exact hr hi
    · exact h.right i hi (by omega)

theorem Shifted.plain {p : Page} {es : List Entry} {c : ℕ} (h : Shifted p es c) {e : Entry}
    (he : p.records c = e) (hn : e.ptr ≠ NULL) : Plain p (es.insertIdx c e) := by
  have hh := h.holds he (fun _ => hn)
  refine ⟨hh.fits, hh.record, ?_, hh.terminator, ?_⟩
  · intro b hb
    rcases (List.mem_insertIdx h.le).mp hb with rfl | hb
    · exact hn
    · exact h.live b hb
  · intro hnil
    have := hh.pos
    simp [hnil] at this

theorem Plain.shifted {p : Page} {es : List Entry} (h : Plain p es)
    (hroom : es.length + 1 < cardinality) (ht : (p.records (es.length + 1)).ptr = NULL) :
    Shifted p es es.length := by
  refine ⟨Nat.le_refl _, hroom, ?_, ?_, h.live, ht⟩
  · intro i hi _
    exact h.record i hi
  · intro i hi hge
    omega

theorem Place.first_le {es : List Entry} {e : Entry} {c : ℕ} (hp : Place es e.key c) {k : ℤ}
    (hk : ∀ b ∈ es, k ≤ b.key) (hc : c = 0 → k ≤ e.key) :
    ∀ b ∈ es.insertIdx c e, k ≤ b.key := by
  intro b hb
  rcases (List.mem_insertIdx hp.le).mp hb with rfl | hb
  · by_cases h0 : c = 0
    · exact hc h0
    · have hpos : 0 < es.length := by
        have := hp.le
        omega
      have h1 := hk es[0] (List.getElem_mem _)
      have h2 := hp.left 0 hpos (by omega)
      omega
  · exact hk b hb

/-- Filling the gap: the pointer before it, the key, the pointer. -/
theorem fill_spec {p x : Page} {es : List Entry} {e : Entry} {c : ℕ} {v : ℕ}
    (ht : Touched e.key p x) (hs : Shifted x es c) (hx : Serves x es)
    (hv : v = before x.leftmostPtr es c) (hf : isForward x.switchCounter)
    (hp : Place es e.key c) (he : e.ptr ≠ NULL) :
    Always Page.apply (Image p es e c) x [.ptr c v, .key c e.key, .ptr c e.ptr] ∧
    Plain (x.run [.ptr c v, .key c e.key, .ptr c e.ptr]) (es.insertIdx c e) := by
  have hs1 := hs.setGap ⟨(x.records c).key, v⟩
  have ht1 := ht.ptr c v
  have hx1 : Serves (x.apply (.ptr c v)) es := by
    refine ⟨hs1.shows ?_ hf, ?_⟩
    · rw [Page.records_setRecord, if_pos rfl]
      exact hv
    · intro b hb
      show ((x.setRecord c _).records 0).key ≤ b.key
      rw [Page.records_setRecord]
      split
      · next h0 => simpa [← h0] using hx.first b hb
      · exact hx.first b hb
  have hs2 := hs1.setGap ⟨e.key, v⟩
  have hr1 : ((x.apply (.ptr c v)).records c).ptr = v := by
    show ((x.setRecord c _).records c).ptr = v
    rw [Page.records_setRecord, if_pos rfl]
  have ht2 : Touched e.key p ((x.apply (.ptr c v)).apply (.key c e.key)) :=
    ht1.setRecord c _ (Or.inr rfl)
  have heq2 : (x.apply (.ptr c v)).apply (.key c e.key)
      = (x.setRecord c ⟨(x.records c).key, v⟩).setRecord c ⟨e.key, v⟩ := by
    rw [Page.apply, hr1]
    rfl
  have hx2 : Serves ((x.apply (.ptr c v)).apply (.key c e.key)) es := by
    rw [heq2]
    refine ⟨hs2.shows ?_ hf, ?_⟩
    · rw [Page.records_setRecord, if_pos rfl]
      exact hv
    · intro b hb
      rw [Page.records_setRecord]
      split
      · next h0 =>
        obtain ⟨i, hi, rfl⟩ := List.getElem_of_mem hb
        exact (hp.right i hi (by omega)).le
      · next h0 =>
        rw [Page.records_setRecord, if_neg h0]
        exact hx.first b hb
  have heq3 : ((x.apply (.ptr c v)).apply (.key c e.key)).apply (.ptr c e.ptr)
      = ((x.setRecord c ⟨(x.records c).key, v⟩).setRecord c ⟨e.key, v⟩).setRecord c e := by
    rw [heq2, Page.apply, Page.records_setRecord, if_pos rfl]
  have hs3 := hs2.setGap e
  have hpl := hs3.plain (e := e) (by rw [Page.records_setRecord, if_pos rfl]) he
  have hx3 : Serves (((x.apply (.ptr c v)).apply (.key c e.key)).apply (.ptr c e.ptr))
      (es.insertIdx c e) := by
    rw [heq3]
    refine ⟨hpl.shows_forward hf ?_, ?_⟩
    · intro hnil
      have := List.length_insertIdx_of_le_length hp.le e
      simp [hnil] at this
    · refine Place.first_le hp ?_ ?_
      · intro b hb
        rw [Page.records_setRecord]
        split
        · next h0 =>
          obtain ⟨i, hi, rfl⟩ := List.getElem_of_mem hb
          exact (hp.right i hi (by omega)).le
        · next h0 =>
          rw [Page.records_setRecord, if_neg h0, Page.records_setRecord, if_neg h0]
          exact hx.first b hb
      · intro h0
        rw [Page.records_setRecord, if_pos h0.symm]
  refine ⟨?_, by rw [Page.run_cons, Page.run_cons, Page.run_cons, heq3]; exact hpl⟩
  simp only [always_cons, always_nil]
  exact ⟨⟨ht, Or.inl hx⟩, ⟨ht1, Or.inl hx1⟩, ⟨ht2, Or.inl hx2⟩, ⟨ht2.ptr c e.ptr, Or.inr hx3⟩⟩

/-- From record `a` on the loop shifts down to position `c` and fills it. -/
theorem fastLoop_spec {p x : Page} {es : List Entry} {e : Entry} {c : ℕ} (a : ℕ)
    (ht : Touched e.key p x) (hs : Shifted x es a) (hx : Serves x es)
    (hk : ∀ b ∈ es, ∃ j, b.key = (p.records j).key)
    (hf : isForward x.switchCounter) (hp : Place es e.key c) (hca : c ≤ a) (he : e.ptr ≠ NULL) :
    Always Page.apply (Image p es e c) x (x.fastLoop e.key e.ptr a) ∧
    Plain (x.run (x.fastLoop e.key e.ptr a)) (es.insertIdx c e) := by
  induction a generalizing x with
  | zero =>
    have h0 : c = 0 := by omega
    subst c
    exact fill_spec ht hs hx (before_zero _ _).symm hf hp he
  | succ a ih =>
    have hlt : a < es.length := hs.le
    have hra : x.records a = es[a] := hs.left a hlt (by omega)
    have hb : (x.records a).ptr = before x.leftmostPtr es (a + 1) := by
      rw [hra, before_succ _ _ _ hlt]
    rw [Page.fastLoop]
    by_cases hkey : e.key < (x.records a).key
    · rw [if_pos hkey]
      have hca' : c ≤ a := by
        by_contra hn
        have := hp.left a hlt (by omega)
        rw [hra] at hkey
        omega
      have hne : a + 1 ≠ 0 := by omega
      have hs1 := hs.setGap ⟨(x.records (a + 1)).key, (x.records a).ptr⟩
      have hx1 : Serves (x.apply (.ptr (a + 1) (x.records a).ptr)) es := by
        refine ⟨hs1.shows ?_ hf, ?_⟩
        · rw [Page.records_setRecord, if_pos rfl]
          exact hb
        · intro b hb'
          show ((x.setRecord (a + 1) _).records 0).key ≤ b.key
          rw [Page.records_setRecord, if_neg hne.symm]
          exact hx.first b hb'
      have hs2 := hs1.setGap (x.records a)
      have heq : x.run [.ptr (a + 1) (x.records a).ptr, .key (a + 1) (x.records a).key]
          = (x.setRecord (a + 1) ⟨(x.records (a + 1)).key, (x.records a).ptr⟩).setRecord (a + 1)
            (x.records a) := by
        rw [Page.run_cons, Page.run_cons, Page.run_nil, Page.apply, Page.apply,
          Page.records_setRecord, if_pos rfl]
      have ht1 := ht.ptr (a + 1) (x.records a).ptr
      have ht2 := ht1.setRecord (a + 1) (x.records a) (Or.inl (by
        rw [hra]
        exact hk _ (List.getElem_mem _)))
      have hx2 : Serves (x.run [.ptr (a + 1) (x.records a).ptr, .key (a + 1) (x.records a).key])
          es := by
        rw [heq]
        refine ⟨hs2.shows ?_ hf, ?_⟩
        · rw [Page.records_setRecord, if_pos rfl]
          exact hb
        · intro b hb'
          rw [Page.records_setRecord, if_neg hne.symm, Page.records_setRecord, if_neg hne.symm]
          exact hx.first b hb'
      have hs3 := hs2.down (fun _ => by rw [Page.records_setRecord, if_pos rfl]; exact hra)
      rw [← heq] at hs3
      have ht3 : Touched e.key p
          (x.run [.ptr (a + 1) (x.records a).ptr, .key (a + 1) (x.records a).key]) := by
        rw [heq]
        exact ht2
      have hrec := ih ht3 hs3 hx2 (by rw [heq]; exact hf) hca'
      constructor
      · rw [always_append]
        refine ⟨?_, hrec.1⟩
        simp only [always_cons, always_nil]
        exact ⟨⟨ht, Or.inl hx⟩, ⟨ht1, Or.inl hx1⟩, ⟨ht3, Or.inl hx2⟩⟩
      · rw [Page.run_append]
        exact hrec.2
    · rw [if_neg hkey]
      have hc : c = a + 1 := by
        by_contra hn
        have := hp.right a hlt (by omega)
        rw [hra] at hkey
        omega
      subst c
      exact fill_spec ht hs hx hb hf hp he

theorem fastLoop_switchCounter (x : Page) (key : ℤ) (ptr a : ℕ) :
    (x.run (x.fastLoop key ptr a)).switchCounter = x.switchCounter := by
  induction a generalizing x with
  | zero => rfl
  | succ a ih =>
    rw [Page.fastLoop]
    by_cases hkey : key < (x.records a).key
    · rw [if_pos hkey, Page.run_append, ih]
      rfl
    · rw [if_neg hkey]
      rfl

/-! ### insert_key -/

theorem Touched.trans_switch {key : ℤ} {p x : Page} (h : Touched key p x) (n : ℕ) :
    Touched key p (x.apply (.switchCounter n)) :=
  ⟨h.leftmostPtr, h.siblingPtr, h.level, h.isDeleted, h.keys⟩

theorem Touched.lastIndex {key : ℤ} {p x : Page} (h : Touched key p x) (n : ℤ) :
    Touched key p (x.apply (.lastIndex n)) :=
  ⟨h.leftmostPtr, h.siblingPtr, h.level, h.isDeleted, h.keys⟩

/-- The page once its switch counter is even. -/
theorem toForward_spec {p : Page} {es : List Entry} (h : Rests p es) :
    isForward (p.run p.toForward).switchCounter ∧ Plain (p.run p.toForward) es ∧
    (p.run p.toForward).records = p.records ∧
    (p.run p.toForward).leftmostPtr = p.leftmostPtr ∧
    ∀ key, Touched key p (p.run p.toForward) := by
  rw [Page.toForward]
  by_cases hf : isForward p.switchCounter
  · rw [if_pos hf]
    exact ⟨hf, h.toPlain, rfl, rfl, fun key => .refl key p⟩
  · rw [if_neg hf]
    refine ⟨?_, ⟨h.fits, h.record, h.live, h.terminator, h.empty⟩, rfl, rfl,
      fun key => (Touched.refl key p).trans_switch _⟩
    show (p.switchCounter + 1) % 256 % 2 = 0
    have : ¬ p.switchCounter % 2 = 0 := hf
    omega

theorem Rests.first {p : Page} {es : List Entry} (h : Rests p es) :
    ∀ b ∈ es, (p.records 0).key ≤ b.key := by
  intro b hb
  obtain ⟨i, hi, rfl⟩ := List.getElem_of_mem hb
  rw [h.record 0 (by omega)]
  by_cases h0 : i = 0
  · subst i
    exact le_refl _
  · exact (List.pairwise_iff_getElem.mp h.increasing 0 i (by omega) hi (by omega)).le

theorem Rests.serves {p : Page} {es : List Entry} (h : Rests p es) : Serves p es :=
  ⟨h.shows, h.first⟩

theorem Place.increasing {es : List Entry} {e : Entry} {c : ℕ} (hp : Place es e.key c)
    (hi : Increasing es) : Increasing (es.insertIdx c e) := by
  rw [Increasing, List.pairwise_iff_getElem] at hi ⊢
  intro i j hi' hj' hij
  rw [List.length_insertIdx_of_le_length hp.le] at hi' hj'
  rw [List.getElem_insertIdx, List.getElem_insertIdx]
  have hle := hp.le
  split
  · next h1 =>
    split
    · exact hi i j (by omega) (by omega) hij
    · split
      · exact hp.left i (by omega) h1
      · exact hi i (j - 1) (by omega) (by omega) (by omega)
  · split
    · next h1 h2 =>
      rw [dif_neg (by omega), dif_neg (by omega)]
      exact hp.right (j - 1) (by omega) (by omega)
    · next h1 h2 =>
      rw [dif_neg (by omega), dif_neg (by omega)]
      exact hi (i - 1) (j - 1) (by omega) (by omega) (by omega)

theorem insertKey_empty {p x : Page} {e : Entry} (ht : Touched e.key p x) (h : Plain x [])
    (he : e.ptr ≠ NULL) (hf : isForward x.switchCounter) (hl : x.leftmostPtr = NULL) :
    Always Page.apply (Image p [] e 0) x [.key 0 e.key, .ptr 0 e.ptr, .ptr 1 NULL] ∧
    Plain (x.run [.key 0 e.key, .ptr 0 e.ptr, .ptr 1 NULL]) [e] ∧
    (x.run [.key 0 e.key, .ptr 0 e.ptr, .ptr 1 NULL]).switchCounter = x.switchCounter := by
  have h0 : (x.records 0).ptr = NULL := h.terminator
  have h1 : (x.records 1).ptr = NULL := h.empty rfl
  have ht1 : Touched e.key p (x.apply (.key 0 e.key)) := ht.setRecord 0 _ (Or.inr rfl)
  have hp1 : Plain (x.apply (.key 0 e.key)) [] :=
    ⟨h.fits, by simp, by simp, h0, fun _ => h1⟩
  have hfull : ∀ y : Page, y.records 0 = e → (y.records 1).ptr = NULL →
      isForward y.switchCounter → Plain y [e] ∧ Serves y [e] := by
    intro y hy0 hy1 hfy
    have hpl : Plain y [e] := by
      refine ⟨by simp [cardinality_eq], ?_, by simpa using he, hy1, by simp⟩
      intro i hi
      have : i = 0 := by simpa using hi
      subst i
      exact hy0
    refine ⟨hpl, hpl.shows_forward hfy (by simp), ?_⟩
    intro b hb
    rw [hy0, List.mem_singleton.mp hb]
  have hy2 := hfull ((x.apply (.key 0 e.key)).apply (.ptr 0 e.ptr)) rfl h1 hf
  have hy3 := hfull (((x.apply (.key 0 e.key)).apply (.ptr 0 e.ptr)).apply (.ptr 1 NULL))
    rfl rfl hf
  refine ⟨?_, hy3.1, rfl⟩
  simp only [always_cons, always_nil]
  exact ⟨⟨ht, Or.inl ⟨h.shows_forward hf (fun _ => hl), by simp⟩⟩,
    ⟨ht1, Or.inl ⟨hp1.shows_forward hf (fun _ => hl), by simp⟩⟩,
    ⟨ht1.ptr 0 e.ptr, Or.inr hy2.2⟩, ⟨(ht1.ptr 0 e.ptr).ptr 1 NULL, Or.inr hy3.2⟩⟩

/-- The page before the loop: nothing has moved yet. -/
theorem opening_spec {p : Page} {es : List Entry} (h : Rests p es)
    (hroom : es.length + 1 < cardinality) (key : ℤ) :
    Always Page.apply (fun x => Touched key p x ∧ Serves x es) p (p.opening es.length) ∧
    isForward (p.run (p.opening es.length)).switchCounter ∧
    Plain (p.run (p.opening es.length)) es ∧
    (es ≠ [] → Shifted (p.run (p.opening es.length)) es es.length) := by
  obtain ⟨hf1, hp1, hrec1, hlm1, ht1⟩ := toForward_spec h
  have hs1 : Serves (p.run p.toForward) es := by
    refine ⟨hp1.shows_forward hf1 ?_, by rw [hrec1]; exact h.first⟩
    intro hnil
    rw [hlm1]
    by_contra hn
    exact (h.internal hn).1 hnil
  have hfirst : Always Page.apply (fun x => Touched key p x ∧ Serves x es) p p.toForward := by
    have hi0 : Touched key p p ∧ Serves p es := ⟨.refl key p, h.serves⟩
    have hi1 : Touched key p (p.run p.toForward) ∧ Serves (p.run p.toForward) es :=
      ⟨ht1 key, hs1⟩
    rw [Page.toForward] at hi1 ⊢
    split at hi1
    · next hif =>
      rw [if_pos hif]
      exact always_nil.mpr hi0
    · next hif =>
      rw [if_neg hif, always_cons, always_nil]
      exact ⟨hi0, hi1⟩
  by_cases hn : es.length = 0
  · have hnil : es = [] := List.length_eq_zero_iff.mp hn
    rw [Page.opening, if_pos hn, List.append_nil]
    exact ⟨hfirst, hf1, hp1, fun hne => absurd hnil hne⟩
  · have hnil : es ≠ [] := fun hnil => hn (by rw [hnil]; rfl)
    have hterm : ((p.run p.toForward).records es.length).ptr = NULL := hp1.terminator
    rw [Page.opening, if_neg hn, Page.run_append, hterm]
    have hkept : ∀ i, i ≤ es.length →
        ((p.run p.toForward).run [.ptr (es.length + 1) NULL]).records i
          = (p.run p.toForward).records i := by
      intro i hi
      show ((p.run p.toForward).setRecord (es.length + 1) _).records i = _
      rw [Page.records_setRecord, if_neg (by omega)]
    have hpx : Plain ((p.run p.toForward).run [.ptr (es.length + 1) NULL]) es := by
      refine ⟨hp1.fits, ?_, hp1.live, ?_, fun hc => absurd hc hnil⟩
      · intro i hi
        rw [hkept i (by omega)]
        exact hp1.record i hi
      · rw [hkept _ (Nat.le_refl _)]
        exact hterm
    have hsx : Serves ((p.run p.toForward).run [.ptr (es.length + 1) NULL]) es := by
      refine ⟨hpx.shows_forward hf1 (fun hc => absurd hc hnil), ?_⟩
      rw [hkept 0 (Nat.zero_le _)]
      exact hs1.first
    have htx : Touched key p ((p.run p.toForward).run [.ptr (es.length + 1) NULL]) :=
      (ht1 key).ptr (es.length + 1) NULL
    refine ⟨?_, hf1, hpx, fun _ => hpx.shifted hroom ?_⟩
    · rw [always_append, always_cons, always_nil]
      exact ⟨hfirst, ⟨ht1 key, hs1⟩, htx, hsx⟩
    · show (((p.run p.toForward).setRecord (es.length + 1) _).records (es.length + 1)).ptr = _
      rw [Page.records_setRecord, if_pos rfl]

/-- After the last store the page is at rest. -/
theorem closing_spec {p x : Page} {es : List Entry} (h : Rests p es) {e : Entry} {c : ℕ}
    (hp : Place es e.key c) (hd : Distinct p.leftmostPtr (es.insertIdx c e))
    (hlm : x.leftmostPtr = p.leftmostPtr) (hpl : Plain x (es.insertIdx c e))
    (hf : isForward x.switchCounter) :
    Rests (x.run [.lastIndex (es.length : ℕ)]) (es.insertIdx c e) := by
  have hlen := List.length_insertIdx_of_le_length hp.le e
  refine ⟨⟨hpl.fits, hpl.record, hpl.live, hpl.terminator, hpl.empty⟩, ?_,
    Place.increasing hp h.increasing, ?_, fun _ => ⟨?_, hf⟩⟩
  · rw [hlen]
    show ((es.length : ℕ) : ℤ) = _
    omega
  · show Distinct x.leftmostPtr _
    rw [hlm]
    exact hd
  · intro hnil
    simp [hnil] at hlen

/-- FAST on a page at rest that has room. -/
theorem insertKey_spec {p : Page} {es : List Entry} (h : Rests p es)
    (hroom : es.length + 1 < cardinality) {e : Entry} {c : ℕ} (hp : Place es e.key c)
    (he : e.ptr ≠ NULL) (hd : Distinct p.leftmostPtr (es.insertIdx c e)) :
    Always Page.apply (Image p es e c) p (p.insertKey e.key e.ptr es.length) ∧
    Rests (p.run (p.insertKey e.key e.ptr es.length)) (es.insertIdx c e) ∧
    isForward (p.run (p.insertKey e.key e.ptr es.length)).switchCounter := by
  obtain ⟨ho, hf, hpl, hsh⟩ := opening_spec h hroom e.key
  have hkeys : ∀ b ∈ es, ∃ j, b.key = (p.records j).key := by
    intro b hb
    obtain ⟨i, hi, rfl⟩ := List.getElem_of_mem hb
    exact ⟨i, by rw [h.record i hi]⟩
  have ht : Touched e.key p (p.run (p.opening es.length)) := ho.last.1
  have hs : Serves (p.run (p.opening es.length)) es := ho.last.2
  obtain ⟨mid, heq, ha, hpm, hsw⟩ : ∃ mid,
      p.insertKey e.key e.ptr es.length
        = p.opening es.length ++ mid ++ [.lastIndex (es.length : ℕ)] ∧
      Always Page.apply (Image p es e c) (p.run (p.opening es.length)) mid ∧
      Plain ((p.run (p.opening es.length)).run mid) (es.insertIdx c e) ∧
      ((p.run (p.opening es.length)).run mid).switchCounter
        = (p.run (p.opening es.length)).switchCounter := by
    refine ⟨_, rfl, ?_⟩
    by_cases hn : es.length = 0
    · have hnil : es = [] := List.length_eq_zero_iff.mp hn
      subst es
      have hc : c = 0 := by simpa using hp.le
      subst c
      have hl : (p.run (p.opening ([] : List Entry).length)).leftmostPtr = NULL := by
        rw [ht.leftmostPtr]
        by_contra hl
        exact (h.internal hl).1 rfl
      rw [if_pos hn]
      exact insertKey_empty ht hpl he hf hl
    · rw [if_neg hn]
      have hne : es ≠ [] := fun hnil => hn (by rw [hnil]; rfl)
      obtain ⟨ha, hpm⟩ := fastLoop_spec es.length ht (hsh hne) hs hkeys hf hp hp.le he
      exact ⟨ha, hpm, fastLoop_switchCounter _ _ _ _⟩
  have hfm : isForward ((p.run (p.opening es.length)).run mid).switchCounter := by
    rw [hsw]
    exact hf
  have hlast := closing_spec h hp hd ha.last.touched.leftmostPtr hpm hfm
  rw [heq]
  constructor
  · rw [always_append, always_append, always_cons, always_nil, List.foldl_append]
    refine ⟨⟨ho.mono (fun x hx => ⟨hx.1, Or.inl hx.2⟩), ha⟩, ha.last, ?_⟩
    exact ⟨ha.last.touched.lastIndex _, Or.inr hlast.serves⟩
  · rw [Page.run_append, Page.run_append]
    exact ⟨hlast, hfm⟩

end PmemStudy.FastFair
