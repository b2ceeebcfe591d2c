import PmemStudy.FastFair.InsertKey

/-!
# remove_key

The pointer of the record in front is written over the pointer of the key, then
the records behind are moved one place to the left. Leaves are searched from
right to left meanwhile; every image answers as before the removal or as after
it.
-/

namespace PmemStudy.FastFair
open PmemStudy.Slots PmemStudy.Trace

/-! ### The loop -/

/-- Record `i` repeats the pointer in front of it; the records behind have not moved yet. -/
structure Closing (p : Page) (es : List Entry) (i : ℕ) (x : Page) : Prop where
  touched : Touched (p.records 0).key p x
  shifted : Shifted x es i
  gap : (x.records i).ptr = before NULL es i
  backward : ¬ isForward x.switchCounter
  lastIndex : x.lastIndex = es.length

/-- All records have moved. -/
structure Closed (p : Page) (es : List Entry) (x : Page) : Prop where
  touched : Touched (p.records 0).key p x
  plain : Plain x es
  terminator : (x.records (es.length + 1)).ptr = NULL
  backward : ¬ isForward x.switchCounter
  lastIndex : x.lastIndex = es.length

section
variable {p x : Page} {es : List Entry} {i : ℕ}

theorem Closing.shows (h : Closing p es i x) (hl : p.leftmostPtr = NULL) (hd : Distinct NULL es)
    (hi : Increasing es) : Shows x es := by
  have hlen := List.length_insertIdx_of_le_length h.shifted.le (x.records i)
  have hstutter : Stutter NULL es (es.insertIdx i (x.records i)) := by
    have hs := Stutter.gap NULL es i h.shifted.le (x.records i).key
    rwa [← h.gap] at hs
  have hholds := h.shifted.holds rfl (fun h0 => by
    rw [h.gap]
    exact before_ne_null h.shifted.live h0 h.shifted.le)
  have hc : x.count = es.length + 1 :=
    count_of_terminator (by rw [h.lastIndex]; omega) h.shifted.terminator
  refine shows_backward (h.touched.leftmostPtr.trans hl) h.backward hstutter hd hi h.shifted.live
    hholds.record (by omega) ?_
  intro m hm hmc
  omega

theorem Closed.shows (h : Closed p es x) (hl : p.leftmostPtr = NULL) (hd : Distinct NULL es)
    (hi : Increasing es) : Shows x es := by
  have hc : x.count = es.length + 1 :=
    count_of_terminator (by rw [h.lastIndex]; omega) h.terminator
  refine shows_backward (h.touched.leftmostPtr.trans hl) h.backward (Stutter.refl _ es) hd hi
    h.plain.live h.plain.record (by omega) ?_
  intro m hm hmc
  obtain rfl : m = es.length := by omega
  exact h.plain.terminator

theorem Closing.key (h : Closing p es i x) : Closing p es i (x.apply (.key i (x.records (i + 1)).key)) := by
  refine ⟨h.touched.setRecord i _ (h.touched.keys (i + 1)), h.shifted.setGap _, ?_, h.backward,
    h.lastIndex⟩
  show ((x.setRecord i _).records i).ptr = _
  rw [Page.records_setRecord, if_pos rfl]
  exact h.gap

theorem Shifted.up {e : Entry} (h : Shifted x es i) (hi : i < es.length) (he : e = es[i]) :
    Shifted (x.setRecord i e) es (i + 1) := by
  refine ⟨hi, h.fits, ?_, ?_, h.live, ?_⟩
  · intro m hm hlt
    rw [Page.records_setRecord]
    split
    · next heq =>
      subst m
      exact he
    · exact h.left m hm (by omega)
  · intro m hm hge
    rw [Page.records_setRecord, if_neg (by omega)]
    exact h.right m hm (by omega)
  · rw [Page.records_setRecord, if_neg (by omega)]
    exact h.terminator

theorem Shifted.closed {e : Entry} (h : Shifted x es es.length) (he : e.ptr = NULL) :
    Plain (x.setRecord es.length e) es := by
  refine ⟨by have := h.fits; omega, ?_, h.live, ?_, ?_⟩
  · intro m hm
    rw [Page.records_setRecord, if_neg (by omega)]
    exact h.left m hm hm
  · rw [Page.records_setRecord, if_pos rfl]
    exact he
  · intro hnil
    have ht := h.terminator
    rw [hnil] at ht ⊢
    rw [Page.records_setRecord, if_neg (by simp)]
    exact ht

/-- The two stores that move record `i + 1` to record `i`. -/
def moveStores (x : Page) (i : ℕ) : List PageStore :=
  [.key i (x.records (i + 1)).key, .ptr i (x.records (i + 1)).ptr]

theorem run_moveStores : x.run (moveStores x i) = x.setRecord i (x.records (i + 1)) := by
  show (x.setRecord i ⟨_, _⟩).setRecord i ⟨((x.setRecord i ⟨_, _⟩).records i).key, _⟩ = _
  rw [Page.records_setRecord, if_pos rfl]
  simp [Page.setRecord]

theorem Closing.move (h : Closing p es i x) :
    Always Page.apply (fun y => y = x.run (moveStores x i) ∨ Closing p es i y) x (moveStores x i) ∧
    (i < es.length → Closing p es (i + 1) (x.run (moveStores x i))) ∧
    (i = es.length → Closed p es (x.run (moveStores x i))) := by
  have htouched : Touched (p.records 0).key p (x.setRecord i (x.records (i + 1))) :=
    h.touched.setRecord i _ (h.touched.keys (i + 1))
  refine ⟨?_, ?_, ?_⟩
  · rw [moveStores, always_cons, always_cons, always_nil]
    exact ⟨Or.inr h, Or.inr h.key, Or.inl rfl⟩
  · intro hi
    rw [run_moveStores]
    have hright := h.shifted.right i hi (Nat.le_refl _)
    refine ⟨htouched, h.shifted.up hi hright, ?_, h.backward, h.lastIndex⟩
    rw [Page.records_setRecord, if_neg (by omega), hright, before_succ _ _ _ hi]
  · rintro rfl
    rw [run_moveStores]
    refine ⟨htouched, h.shifted.closed h.shifted.terminator, ?_, h.backward, h.lastIndex⟩
    rw [Page.records_setRecord, if_neg (by omega)]
    exact h.shifted.terminator

theorem removeLoop_stop (key : ℤ) (fuel : ℕ) (shift : Bool) (h : (x.records i).ptr = NULL) :
    x.removeLoop key fuel i shift = ([], shift) := by
  cases fuel with
  | zero => rfl
  | succ fuel => rw [Page.removeLoop, if_pos h]

theorem removeLoop_move (key : ℤ) (fuel : ℕ) (h : (x.records i).ptr ≠ NULL) :
    x.removeLoop key (fuel + 1) i true =
      (moveStores x i ++ ((x.run (moveStores x i)).removeLoop key fuel (i + 1) true).1,
        ((x.run (moveStores x i)).removeLoop key fuel (i + 1) true).2) := by
  rw [Page.removeLoop, if_neg h]
  rfl

/-- The records in front of the key are passed over. -/
theorem removeLoop_skip {key : ℤ} (fuel d : ℕ)
    (h : ∀ m, i ≤ m → m < i + d → (x.records m).ptr ≠ NULL ∧ (x.records m).key ≠ key) :
    x.removeLoop key (fuel + d) i false = x.removeLoop key fuel (i + d) false := by
  induction d generalizing i with
  | zero => rfl
  | succ d ih =>
    obtain ⟨hp, hk⟩ := h i (Nat.le_refl _) (by omega)
    have hskip : x.removeLoop key (fuel + d + 1) i false
        = x.removeLoop key (fuel + d) (i + 1) false := by
      rw [Page.removeLoop, if_neg hp]
      simp [beq_eq_false_iff_ne.mpr hk, Page.run_nil]
    rw [← Nat.add_assoc, hskip, ih (fun m hm hlt => h m (by omega) (by omega))]
    congr 1
    omega

theorem removeLoop_found {key : ℤ} (fuel : ℕ) (hp : (x.records i).ptr ≠ NULL)
    (hk : (x.records i).key = key) :
    ∃ y, y = x.apply (.ptr i (if i = 0 then x.leftmostPtr else (x.records (i - 1)).ptr)) ∧
    x.removeLoop key (fuel + 1) i false =
      (.ptr i (if i = 0 then x.leftmostPtr else (x.records (i - 1)).ptr) :: (moveStores y i ++
        ((y.run (moveStores y i)).removeLoop key fuel (i + 1) true).1),
        ((y.run (moveStores y i)).removeLoop key fuel (i + 1) true).2) := by
  refine ⟨_, rfl, ?_⟩
  have hmove : moveStores (x.apply (.ptr i (if i = 0 then x.leftmostPtr
      else (x.records (i - 1)).ptr))) i = moveStores x i := by
    have hnext : (x.apply (.ptr i (if i = 0 then x.leftmostPtr
        else (x.records (i - 1)).ptr))).records (i + 1) = x.records (i + 1) := by
      show (x.setRecord i _).records (i + 1) = _
      rw [Page.records_setRecord, if_neg (by omega)]
    rw [moveStores, hnext]
    rfl
  rw [hmove, Page.removeLoop, if_neg hp]
  simp [hk, moveStores, Page.run_cons]

/-- The loop from the gap on. -/
theorem Closing.loop (h : Closing p es i x) (hl : p.leftmostPtr = NULL) (hd : Distinct NULL es)
    (hi : Increasing es) (key : ℤ) (fuel : ℕ) (hf : es.length < i + fuel) (h0 : 0 < i) :
    Always Page.apply (fun y => Touched (p.records 0).key p y ∧ Shows y es) x
      (x.removeLoop key fuel i true).1 ∧
    Closed p es (x.run (x.removeLoop key fuel i true).1) ∧
    (x.removeLoop key fuel i true).2 = true := by
  induction fuel generalizing i x with
  | zero =>
    have := h.shifted.le
    omega
  | succ fuel ih =>
    have hptr : (x.records i).ptr ≠ NULL := by
      rw [h.gap]
      exact before_ne_null h.shifted.live h0 h.shifted.le
    obtain ⟨himages, hnext, hdone⟩ := h.move
    rw [removeLoop_move key fuel hptr, always_append, Page.run_append]
    rcases Nat.lt_or_ge i es.length with hlt | hge
    · obtain ⟨ha, hc, ht⟩ := ih (hnext hlt) (by omega) (Nat.succ_pos _)
      refine ⟨⟨himages.mono ?_, ha⟩, hc, ht⟩
      rintro y (rfl | hy)
      · exact ⟨(hnext hlt).touched, (hnext hlt).shows hl hd hi⟩
      · exact ⟨hy.touched, hy.shows hl hd hi⟩
    · have hie : i = es.length := by
        have := h.shifted.le
        omega
      have hclosed := hdone hie
      have hstop : (x.run (moveStores x i)).removeLoop key fuel (i + 1) true = ([], true) := by
        refine removeLoop_stop key fuel true ?_
        have ht := hclosed.terminator
        rwa [← hie] at ht
      rw [hstop, always_nil]
      refine ⟨⟨himages.mono ?_, ?_⟩, hclosed, rfl⟩
      · rintro y (rfl | hy)
        · exact ⟨hclosed.touched, hclosed.shows hl hd hi⟩
        · exact ⟨hy.touched, hy.shows hl hd hi⟩
      · exact ⟨hclosed.touched, hclosed.shows hl hd hi⟩

end

/-! ### The whole function -/

section
variable {p x : Page} {es : List Entry} {j : ℕ}

/-- Unlinking the record of the key opens the gap. -/
theorem Plain.closing (h : Plain x es) (ht : Touched (p.records 0).key p x)
    (hf : ¬ isForward x.switchCounter) (hli : x.lastIndex = es.length - 1)
    (hl : x.leftmostPtr = NULL) (hj : j < es.length) :
    Closing p (es.eraseIdx j) j
      (x.apply (.ptr j (if j = 0 then x.leftmostPtr else (x.records (j - 1)).ptr))) := by
  have hlen := List.length_eraseIdx_of_lt hj
  have hrec : ∀ m, m ≠ j → (x.apply (.ptr j (if j = 0 then x.leftmostPtr
      else (x.records (j - 1)).ptr))).records m = x.records m := by
    intro m hm
    show (x.setRecord j _).records m = _
    rw [Page.records_setRecord, if_neg hm]
  have hfits := h.fits
  refine ⟨ht.ptr j _, ⟨by omega, by omega, ?_, ?_, ?_, ?_⟩, ?_, hf, ?_⟩
  · intro m hm hlt
    rw [hrec m (by omega), List.getElem_eraseIdx_of_lt hm hlt]
    exact h.record m (by omega)
  · intro m hm hge
    rw [hrec (m + 1) (by omega), List.getElem_eraseIdx_of_ge hm hge]
    exact h.record (m + 1) (by omega)
  · exact fun e he => h.live e (List.mem_of_mem_eraseIdx he)
  · rw [hrec _ (by omega), show (es.eraseIdx j).length + 1 = es.length by omega]
    exact h.terminator
  · show ((x.setRecord j _).records j).ptr = _
    rw [Page.records_setRecord, if_pos rfl]
    cases j with
    | zero => rw [if_pos rfl, before_zero, hl]
    | succ m =>
      rw [if_neg (by omega), before_succ _ _ _ (by omega), Nat.add_sub_cancel,
        h.record m (by omega), List.getElem_eraseIdx_of_lt (by omega) (by omega)]
  · show x.lastIndex = _
    rw [hli]
    omega

/-- The loop on a leaf that holds the key in record `j`. -/
theorem Plain.removeLoop_spec (h : Plain x es) (hi : Increasing es)
    (ht : Touched (p.records 0).key p x) (hf : ¬ isForward x.switchCounter)
    (hli : x.lastIndex = es.length - 1) (hl : p.leftmostPtr = NULL) (hs : Shows x es)
    (hj : j < es.length) (hd : Distinct NULL (es.eraseIdx j)) :
    Always Page.apply (fun y => Touched (p.records 0).key p y ∧
      (Shows y es ∨ Shows y (es.eraseIdx j))) x (x.removeLoop es[j].key cardinality 0 false).1 ∧
    Closed p (es.eraseIdx j) (x.run (x.removeLoop es[j].key cardinality 0 false).1) ∧
    (x.removeLoop es[j].key cardinality 0 false).2 = true := by
  have hi' : Increasing (es.eraseIdx j) := hi.sublist (List.eraseIdx_sublist es j)
  have hlen := List.length_eraseIdx_of_lt hj
  have hfits := h.fits
  have hxl := ht.leftmostPtr.trans hl
  have hskip : x.removeLoop es[j].key cardinality 0 false
      = x.removeLoop es[j].key (cardinality - j - 1 + 1) j false := by
    have := @removeLoop_skip x 0 es[j].key (cardinality - j) j (by
      intro m _ hm
      rw [h.record m (by omega)]
      have hlt : es[m].key < es[j].key := List.pairwise_iff_getElem.mp hi m j (by omega) hj (by omega)
      exact ⟨h.live _ (List.getElem_mem _), hlt.ne⟩)
    rw [show cardinality - j + j = cardinality by omega, Nat.zero_add] at this
    rw [this]
    congr 1
    omega
  obtain ⟨y, hy, hfound⟩ := @removeLoop_found x j es[j].key (cardinality - j - 1) (by
      rw [h.record j hj]
      exact h.live _ (List.getElem_mem _)) (by rw [h.record j hj])
  have hclosing : Closing p (es.eraseIdx j) j y := by
    rw [hy]
    exact h.closing ht hf hli hxl hj
  obtain ⟨himages, hnext, hdone⟩ := hclosing.move
  have hgap : ∀ z, Closing p (es.eraseIdx j) j z → Touched (p.records 0).key p z ∧
      (Shows z es ∨ Shows z (es.eraseIdx j)) :=
    fun z hz => ⟨hz.touched, Or.inr (hz.shows hl hd hi')⟩
  rw [hskip, hfound, always_cons, ← hy, Page.run_cons, ← hy, always_append, Page.run_append]
  rcases Nat.lt_or_ge j (es.eraseIdx j).length with hlt | hge
  · have hn := hnext hlt
    obtain ⟨ha, hc, ht'⟩ := hn.loop hl hd hi' es[j].key (cardinality - j - 1) (by omega)
      (Nat.succ_pos _)
    refine ⟨⟨⟨ht, Or.inl hs⟩, himages.mono ?_, ha.mono fun z hz => ⟨hz.1, Or.inr hz.2⟩⟩, hc, ht'⟩
    rintro z (rfl | hz)
    · exact ⟨hn.touched, Or.inr (hn.shows hl hd hi')⟩
    · exact hgap z hz
  · have hje : j = (es.eraseIdx j).length := by omega
    have hc := hdone hje
    have hstop : (y.run (moveStores y j)).removeLoop es[j].key (cardinality - j - 1) (j + 1) true
        = ([], true) := by
      refine removeLoop_stop _ _ true ?_
      have := hc.terminator
      rwa [← hje] at this
    rw [hstop, always_nil]
    have hlast : Touched (p.records 0).key p (y.run (moveStores y j)) ∧
        (Shows (y.run (moveStores y j)) es ∨ Shows (y.run (moveStores y j)) (es.eraseIdx j)) :=
      ⟨hc.touched, Or.inr (hc.shows hl hd hi')⟩
    refine ⟨⟨⟨ht, Or.inl hs⟩, himages.mono ?_, hlast⟩, hc, rfl⟩
    rintro z (rfl | hz)
    · exact hlast
    · exact hgap z hz

/-- The first store makes the counter odd. -/
theorem removeSwitch_spec (h : Rests p es) (hl : p.leftmostPtr = NULL) :
    ∃ switch, switch = (if isForward p.switchCounter then
        [PageStore.switchCounter ((p.switchCounter + 1) % 256)] else []) ∧
      Rests (p.run switch) es ∧ Touched (p.records 0).key p (p.run switch) ∧
      ¬ isForward (p.run switch).switchCounter ∧
      Always Page.apply (fun y => Touched (p.records 0).key p y ∧ Shows y es) p switch := by
  refine ⟨_, rfl, ?_⟩
  by_cases hf : isForward p.switchCounter
  · have hr : Rests (p.run [.switchCounter ((p.switchCounter + 1) % 256)]) es :=
      ⟨⟨h.fits, h.record, h.live, h.terminator, h.empty⟩, h.lastIndex, h.increasing, h.distinct,
        fun hne => absurd hl hne⟩
    have ht : Touched (p.records 0).key p (p.run [.switchCounter ((p.switchCounter + 1) % 256)]) :=
      (Touched.refl _ p).trans_switch _
    rw [if_pos hf, always_cons, always_nil]
    refine ⟨hr, ht, ?_, ⟨.refl _ p, h.shows⟩, ht, hr.shows⟩
    show ¬ (p.switchCounter + 1) % 256 % 2 = 0
    have : p.switchCounter % 2 = 0 := hf
    omega
  · rw [if_neg hf, always_nil]
    exact ⟨h, .refl _ p, hf, .refl _ p, h.shows⟩

/-- `remove_key` of a stored key from a leaf at rest. -/
theorem removeKey_spec (h : Rests p es) (hl : p.leftmostPtr = NULL) (hj : j < es.length)
    (hd : Distinct NULL (es.eraseIdx j)) :
    Always Page.apply (fun y => Touched (p.records 0).key p y ∧
      (Shows y es ∨ Shows y (es.eraseIdx j))) p (p.removeKey es[j].key).1 ∧
    Rests (p.run (p.removeKey es[j].key).1) (es.eraseIdx j) ∧ (p.removeKey es[j].key).2 = true := by
  obtain ⟨switch, hsw, hr, ht, hf, ha⟩ := removeSwitch_spec h hl
  obtain ⟨himages, hc, hflag⟩ := hr.toPlain.removeLoop_spec h.increasing ht hf hr.lastIndex hl
    hr.shows hj hd
  have hlen := List.length_eraseIdx_of_lt hj
  have hlast : ∀ y, Closed p (es.eraseIdx j) y →
      Rests (y.run [.lastIndex (p.lastIndex - 1)]) (es.eraseIdx j) := by
    intro y hy
    refine ⟨⟨hy.plain.fits, hy.plain.record, hy.plain.live, hy.plain.terminator, hy.plain.empty⟩, ?_,
      h.increasing.sublist (List.eraseIdx_sublist es j), ?_, ?_⟩
    · show p.lastIndex - 1 = _
      rw [h.lastIndex]
      omega
    · show Distinct y.leftmostPtr _
      rw [hy.touched.leftmostPtr, hl]
      exact hd
    · intro hne
      exact absurd (hy.touched.leftmostPtr.trans hl) hne
  have hli : (p.run switch).lastIndex = p.lastIndex := by
    rw [hr.lastIndex, h.lastIndex]
  rw [Page.removeKey, ← hsw]
  simp only [hflag, if_true]
  refine ⟨?_, ?_, trivial⟩
  · rw [always_append, always_append, always_cons, always_nil, List.foldl_append]
    refine ⟨⟨ha.mono fun y hy => ⟨hy.1, Or.inl hy.2⟩, himages⟩, himages.last, ?_⟩
    exact ⟨hc.touched.lastIndex _, Or.inr (hlast _ hc).shows⟩
  · rw [Page.run_append, Page.run_append]
    exact hlast _ hc

/-- `remove_key` of a key that is not there leaves the records. -/
theorem removeKey_absent (h : Rests p es) (hl : p.leftmostPtr = NULL) {key : ℤ}
    (hk : ∀ e ∈ es, e.key ≠ key) :
    Rests (p.run (p.removeKey key).1) es ∧ Touched (p.records 0).key p (p.run (p.removeKey key).1) ∧
      (p.removeKey key).2 = false := by
  obtain ⟨switch, hsw, hr, ht, _, _⟩ := removeSwitch_spec h hl
  have hfits := h.fits
  have hloop : (p.run switch).removeLoop key cardinality 0 false = ([], false) := by
    have := @removeLoop_skip (p.run switch) 0 key (cardinality - es.length) es.length (by
        intro m _ hm
        rw [hr.record m (by omega)]
        exact ⟨hr.live _ (List.getElem_mem _), hk _ (List.getElem_mem _)⟩)
    rw [show cardinality - es.length + es.length = cardinality by omega, Nat.zero_add] at this
    rw [this]
    exact removeLoop_stop key _ false hr.terminator
  rw [Page.removeKey, ← hsw]
  simp only [hloop]
  rw [List.append_nil, if_neg (by simp), List.append_nil]
  exact ⟨hr, ht, trivial⟩

end

end PmemStudy.FastFair
