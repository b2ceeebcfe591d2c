import PmemStudy.FastFair.InsertKey
import PmemStudy.FastFair.Btree

/-!
# FAIR: the two pages of a split

The new page receives its entries one by one before anything points to it. The
old page is cut off after the new one is linked; until then it shows all of its
entries.
-/

namespace PmemStudy.FastFair
open PmemStudy.Slots PmemStudy.Trace

/-! ### The new page -/

/-- `x` has the header of `q` but for the counters, and keys of `q` or of `es`. -/
structure Grown (es : List Entry) (q x : Page) : Prop where
  leftmostPtr : x.leftmostPtr = q.leftmostPtr
  siblingPtr : x.siblingPtr = q.siblingPtr
  level : x.level = q.level
  isDeleted : x.isDeleted = q.isDeleted
  keys : ∀ i, (∃ j, (x.records i).key = (q.records j).key) ∨ ∃ e ∈ es, (x.records i).key = e.key

theorem Touched.grown {e : Entry} {es : List Entry} {q x y : Page} (h : Touched e.key q x)
    (hg : Grown es x y) : Grown (e :: es) q y := by
  refine ⟨hg.leftmostPtr.trans h.leftmostPtr, hg.siblingPtr.trans h.siblingPtr,
    hg.level.trans h.level, hg.isDeleted.trans h.isDeleted, ?_⟩
  intro i
  rcases hg.keys i with ⟨j, hj⟩ | ⟨b, hb, hbk⟩
  · rw [hj]
    rcases h.keys j with ⟨j', hj'⟩ | hk
    · exact Or.inl ⟨j', hj'⟩
    · exact Or.inr ⟨e, List.mem_cons_self, hk⟩
  · exact Or.inr ⟨b, List.mem_cons_of_mem e hb, hbk⟩

theorem place_last {es : List Entry} {e : Entry} (h : ∀ b ∈ es, b.key < e.key) :
    Place es e.key es.length :=
  ⟨Nat.le_refl _, fun i hi _ => h _ (List.getElem_mem hi), fun i hi hge => absurd hi (by omega)⟩

theorem migrate_spec {es : List Entry} {q : Page} {done : List Entry} (h : Rests q done)
    (hi : Increasing (done ++ es)) (hd : Distinct q.leftmostPtr (done ++ es))
    (hlive : ∀ e ∈ es, e.ptr ≠ NULL) (hfit : (done ++ es).length < cardinality)
    (hf : isForward q.switchCounter) :
    Rests (q.run (Btree.migrate q done.length es)) (done ++ es) ∧
    Grown es q (q.run (Btree.migrate q done.length es)) ∧
    isForward (q.run (Btree.migrate q done.length es)).switchCounter := by
  induction es generalizing q done with
  | nil =>
    rw [List.append_nil]
    exact ⟨h, ⟨rfl, rfl, rfl, rfl, fun i => Or.inl ⟨i, rfl⟩⟩, hf⟩
  | cons e es ih =>
    rw [List.append_cons] at hi hd hfit
    have hlt : ∀ b ∈ done, b.key < e.key := by
      intro b hb
      have := List.pairwise_append.mp (List.pairwise_append.mp hi).1
      exact this.2.2 b hb e List.mem_cons_self
    have hroom : done.length + 1 < cardinality := by
      simp at hfit
      omega
    obtain ⟨ha, hr, hf1⟩ := insertKey_spec h hroom (place_last hlt) (hlive e List.mem_cons_self)
      (by rw [List.insertIdx_length_self]; exact hd.left)
    rw [List.insertIdx_length_self] at hr
    have ht := ha.last.touched
    have hlm : (q.run (q.insertKey e.key e.ptr done.length)).leftmostPtr = q.leftmostPtr :=
      ht.leftmostPtr
    obtain ⟨h1, h2, h3⟩ := ih hr hi (by rw [hlm]; exact hd)
      (fun b hb => hlive b (List.mem_cons_of_mem e hb)) hfit hf1
    rw [List.length_append, List.length_singleton] at h1 h2 h3
    rw [Btree.migrate, Page.run_append, List.append_cons]
    exact ⟨h1, Touched.grown ht h2, h3⟩

theorem Page.new_rests (level : ℕ) : Rests (Page.new level) [] := by
  refine ⟨⟨by simp [cardinality_eq], by simp, by simp, rfl, fun _ => rfl⟩, rfl, List.Pairwise.nil,
    by simp [Distinct], fun hl => absurd rfl hl⟩

theorem movedRecords_eq {p : Page} {es : List Entry} (h : Plain p es) (m : ℕ) :
    Btree.movedRecords p es.length m
      = es.drop (if p.leftmostPtr = NULL then m else m + 1) := by
  rw [Btree.movedRecords]
  refine List.ext_getElem (by simp) ?_
  intro i h1 h2
  simp only [List.getElem_map, List.getElem_range', List.getElem_drop, Nat.one_mul]
  simp only [List.length_drop] at h2
  exact h.record _ (by omega)

/-- The new page before it is linked. -/
structure NewPage (p : Page) (es : List Entry) (m : ℕ) (x : Page) : Prop where
  level : x.level = p.level
  live : x.isDeleted = false
  leftmostPtr : x.leftmostPtr = if p.leftmostPtr = NULL then NULL else (p.records m).ptr
  siblingPtr : x.siblingPtr = p.siblingPtr
  keys : ∀ i, (x.records i).key = longMax ∨
    ∃ e ∈ es.drop (if p.leftmostPtr = NULL then m else m + 1), (x.records i).key = e.key
  rests : Rests x (es.drop (if p.leftmostPtr = NULL then m else m + 1))

theorem siblingStores_spec {p : Page} {es : List Entry} (h : Rests p es) {m : ℕ}
    (hm : m + 1 < es.length) :
    NewPage p es m ((Page.new p.level).run (Btree.siblingStores p es.length m)) := by
  obtain ⟨start, hstart⟩ : ∃ start, start = if p.leftmostPtr = NULL then m else m + 1 := ⟨_, rfl⟩
  have hdrop : es = es.take start ++ es.drop start := (List.take_append_drop _ _).symm
  have hi : Increasing (es.drop start) := h.increasing.sublist (List.drop_sublist _ _)
  have hlive : ∀ e ∈ es.drop start, e.ptr ≠ NULL := fun e he => h.live e (List.mem_of_mem_drop he)
  have hne : es.drop start ≠ [] := by
    intro hnil
    have := congrArg List.length hnil
    simp at this
    rw [hstart] at this
    split at this <;> omega
  have hd : Distinct NULL (es.drop start) := by
    have hd := h.distinct
    have hlt : start < es.length := by
      rw [hstart]
      split <;> omega
    rw [hdrop, List.drop_eq_getElem_cons hlt] at hd
    rw [List.drop_eq_getElem_cons hlt, distinct_cons]
    exact ⟨(h.live _ (List.getElem_mem _)).symm, hd.right⟩
  have hfit : (es.drop start).length < cardinality := by
    have := h.fits
    simp
    omega
  obtain ⟨h1, h2, h3⟩ := migrate_spec (Page.new_rests p.level) hi hd hlive hfit rfl
  have hmoved : Btree.movedRecords p es.length m = es.drop start := by
    rw [hstart]
    exact movedRecords_eq h.toPlain m
  have hkeys : ∀ i, (((Page.new p.level).run (Btree.migrate (Page.new p.level) 0
      (es.drop start))).records i).key = longMax ∨ ∃ e ∈ es.drop start,
        (((Page.new p.level).run (Btree.migrate (Page.new p.level) 0
          (es.drop start))).records i).key = e.key := by
    intro i
    rcases h2.keys i with ⟨j, hj⟩ | hk
    · exact Or.inl hj
    · exact Or.inr hk
  have hr : Rests ((Page.new p.level).run (Btree.migrate (Page.new p.level) 0 (es.drop start)))
      (es.drop start) := h1
  rw [Btree.siblingStores, hmoved, Page.run_append, Page.run_append]
  by_cases hl : p.leftmostPtr = NULL
  · rw [if_pos hl]
    refine ⟨h2.level, h2.isDeleted, ?_, rfl, by rw [← hstart]; exact hkeys, ?_⟩
    · rw [if_pos hl]
      exact h2.leftmostPtr
    · rw [← hstart]
      refine ⟨⟨hr.fits, hr.record, hr.live, hr.terminator, hr.empty⟩, hr.lastIndex, hr.increasing,
        hr.distinct, ?_⟩
      intro hlm
      exact absurd h2.leftmostPtr hlm
  · rw [if_neg hl]
    refine ⟨h2.level, h2.isDeleted, by rw [if_neg hl]; rfl, rfl, by rw [← hstart]; exact hkeys, ?_⟩
    rw [← hstart]
    refine ⟨⟨hr.fits, hr.record, hr.live, hr.terminator, hr.empty⟩, hr.lastIndex, hr.increasing,
      ?_, ?_⟩
    · show Distinct (p.records m).ptr (es.drop start)
      have hst : start = m + 1 := by
        rw [hstart, if_neg hl]
      have hd' := h.distinct
      have hrec := h.record m (by omega)
      rw [hrec]
      simp only [hst]
      have hsplit : es = es.take m ++ es[m] :: es.drop (m + 1) := by
        rw [← List.drop_eq_getElem_cons, List.take_append_drop]
      rw [hsplit] at hd'
      exact hd'.right
    · intro _
      exact ⟨hne, h3⟩

/-! ### The old page -/

theorem Rests.setSibling {p : Page} {es : List Entry} (h : Rests p es) (a : ℕ) :
    Rests (p.apply (.siblingPtr a)) es :=
  ⟨⟨h.fits, h.record, h.live, h.terminator, h.empty⟩, h.lastIndex, h.increasing, h.distinct,
    h.internal⟩

/-- The old page is cut off at record `m`; before that it shows all its entries. -/
theorem truncateStores_spec {p : Page} {es : List Entry} (h : Rests p es) {m : ℕ} (hm0 : 0 < m)
    (hm : m < es.length) (key : ℤ) :
    Always Page.apply (fun x => Touched key p x ∧ (Serves x es ∨ Serves x (es.take m))) p
      (Btree.truncateStores p m) ∧
    Rests (p.run (Btree.truncateStores p m)) (es.take m) := by
  obtain ⟨c, hc⟩ : ∃ c, c = (p.switchCounter + if isForward p.switchCounter then 2 else 1) % 256 :=
    ⟨_, rfl⟩
  have hcf : isForward c := by
    show c % 2 = 0
    by_cases hif : isForward p.switchCounter
    · rw [if_pos hif] at hc
      have : p.switchCounter % 2 = 0 := hif
      omega
    · rw [if_neg hif] at hc
      have : ¬ p.switchCounter % 2 = 0 := hif
      omega
  have hlen : (es.take m).length = m := by
    rw [List.length_take]
    omega
  have hne : es.take m ≠ [] := by
    intro hnil
    rw [hnil] at hlen
    simp at hlen
    omega
  have ht1 : Touched key p (p.apply (.switchCounter c)) := (Touched.refl key p).trans_switch c
  have hp1 : Plain (p.apply (.switchCounter c)) es :=
    ⟨h.fits, h.record, h.live, h.terminator, h.empty⟩
  have hs1 : Serves (p.apply (.switchCounter c)) es := by
    refine ⟨hp1.shows_forward hcf ?_, h.first⟩
    intro hnil
    rw [hnil] at hm
    simp at hm
  have ht2 := ht1.ptr m NULL
  have hrec : ∀ i, i ≠ m → ((p.apply (.switchCounter c)).apply (.ptr m NULL)).records i
      = p.records i := by
    intro i hi
    show ((p.apply (.switchCounter c)).setRecord m _).records i = _
    rw [Page.records_setRecord, if_neg hi]
    rfl
  have hp2 : Plain ((p.apply (.switchCounter c)).apply (.ptr m NULL)) (es.take m) := by
    refine ⟨by have := h.fits; omega, ?_, fun e he => h.live e (List.mem_of_mem_take he), ?_,
      fun hnil => absurd hnil hne⟩
    · intro i hi
      rw [hlen] at hi
      rw [hrec i (by omega), List.getElem_take]
      exact h.record i (by omega)
    · rw [hlen]
      show (((p.apply (.switchCounter c)).setRecord m _).records m).ptr = NULL
      rw [Page.records_setRecord, if_pos rfl]
  have hfirst2 : ∀ b ∈ es.take m,
      (((p.apply (.switchCounter c)).apply (.ptr m NULL)).records 0).key ≤ b.key := by
    intro b hb
    rw [hrec 0 (by omega)]
    exact h.first b (List.mem_of_mem_take hb)
  have hs2 : Serves ((p.apply (.switchCounter c)).apply (.ptr m NULL)) (es.take m) :=
    ⟨hp2.shows_forward hcf (fun hnil => absurd hnil hne), hfirst2⟩
  have hr3 : Rests (((p.apply (.switchCounter c)).apply (.ptr m NULL)).apply
      (.lastIndex ((m : ℕ) - 1))) (es.take m) := by
    refine ⟨⟨hp2.fits, hp2.record, hp2.live, hp2.terminator, hp2.empty⟩, ?_,
      h.increasing.sublist (List.take_sublist _ _), ?_, fun _ => ⟨hne, hcf⟩⟩
    · rw [hlen]
      rfl
    · have hd := h.distinct
      rw [← List.take_append_drop m es] at hd
      exact hd.left
  rw [Btree.truncateStores, ← hc]
  refine ⟨?_, hr3⟩
  simp only [always_cons, always_nil]
  exact ⟨⟨.refl key p, Or.inl h.serves⟩, ⟨ht1, Or.inl hs1⟩, ⟨ht2, Or.inr hs2⟩,
    ht2.lastIndex _, Or.inr hr3.serves⟩

end PmemStudy.FastFair
