import PmemStudy.FastFair.RapEquivalence
import PmemStudy.FastFair.Split

/-!
# Pages with any pointers

What `insert_key`, the migration and the cut do to a page when nothing is known of its
pointers: they may be null, and records may share one. The loop moves whole records, so the
page is again the list of its records in front of a null pointer.
-/

namespace PmemStudy.FastFair

/-- The build flag `RAP_MOD`. -/
inductive Build
  | plain
  | rap

/-- Index `c` is where `insert_key` stops for `key`. -/
structure Spot (es : List Entry) (key : ℤ) (c : ℕ) : Prop where
  le : c ≤ es.length
  front : ∀ d (h : d < es.length), c = d + 1 → es[d].key ≤ key
  behind : ∀ i (h : i < es.length), c ≤ i → key < es[i].key

/-- Records that are in order; equal keys are allowed. -/
def Ascending (es : List Entry) : Prop := es.Pairwise fun a b => a.key ≤ b.key

/-- The records of the page are `es`; after them comes a null pointer. -/
structure Filled (p : Page) (es : List Entry) : Prop where
  fits : es.length < cardinality
  record : ∀ i (h : i < es.length), p.records i = es[i]
  terminator : (p.records es.length).ptr = NULL
  lastIndex : p.lastIndex = es.length - 1
  forward : isForward p.switchCounter

theorem Filled.count {p : Page} {es : List Entry} (h : Filled p es) : p.count = es.length :=
  count_of_terminator h.lastIndex h.terminator

theorem Touched.trans {key : ℤ} {p x y : Page} (h : Touched key p x) (h' : Touched key x y) :
    Touched key p y := by
  refine ⟨h'.leftmostPtr.trans h.leftmostPtr, h'.siblingPtr.trans h.siblingPtr,
    h'.level.trans h.level, h'.isDeleted.trans h.isDeleted, ?_⟩
  intro i
  rcases h'.keys i with ⟨j, hj⟩ | hk
  · rw [hj]
    exact h.keys j
  · exact Or.inr hk

/-! ### Where a key goes -/

theorem exists_spot (es : List Entry) (key : ℤ) : ∃ c, Spot es key c := by
  induction es using List.reverseRecOn with
  | nil => exact ⟨0, le_rfl, fun d h => absurd h (Nat.not_lt_zero d),
      fun i h => absurd h (Nat.not_lt_zero i)⟩
  | append_singleton es e ih =>
    obtain ⟨c, hle, hfront, hbehind⟩ := ih
    by_cases hk : key < e.key
    · refine ⟨c, by simp; omega, ?_, ?_⟩
      · intro d hd hc
        have hlt : d < es.length := by omega
        rw [List.getElem_append_left hlt]
        exact hfront d hlt hc
      · intro i hi hc
        by_cases hlt : i < es.length
        · rw [List.getElem_append_left hlt]
          exact hbehind i hlt hc
        · rw [List.getElem_append_right (by omega)]
          simpa using hk
    · refine ⟨es.length + 1, by simp, ?_, ?_⟩
      · intro d hd hc
        have hd' : d = es.length := by omega
        subst d
        simpa using not_lt.mp hk
      · intro i hi hc
        simp only [List.length_append, List.length_singleton] at hi
        omega

theorem Spot.last {es : List Entry} {key : ℤ} (h : ∀ e ∈ es, e.key ≤ key) :
    Spot es key es.length :=
  ⟨le_rfl, fun _ hd _ => h _ (List.getElem_mem hd), fun i hi hc => absurd hi (by omega)⟩

theorem Ascending.insert {es : List Entry} {e : Entry} {c : ℕ} (h : Ascending es)
    (hs : Spot es e.key c) : Ascending (es.insertIdx c e) := by
  have hsplit : es.insertIdx c e = es.take c ++ e :: es.drop c :=
    Slots.insertIdx_take_drop es c e hs.le
  have hleft : ∀ b ∈ es.take c, b.key ≤ e.key := by
    intro b hb
    obtain ⟨i, hi, rfl⟩ := List.getElem_of_mem hb
    rw [List.length_take] at hi
    rw [List.getElem_take]
    obtain ⟨d, rfl⟩ : ∃ d, c = d + 1 := ⟨c - 1, by omega⟩
    have hd : d < es.length := by
      have := hs.le
      omega
    refine le_trans ?_ (hs.front d hd rfl)
    by_cases hid : i = d
    · subst i
      exact le_rfl
    · exact List.pairwise_iff_getElem.mp h i d (by omega) hd (by omega)
  have hright : ∀ b ∈ es.drop c, e.key ≤ b.key := by
    intro b hb
    obtain ⟨i, hi, rfl⟩ := List.getElem_of_mem hb
    rw [List.getElem_drop]
    exact (hs.behind (c + i) _ (Nat.le_add_right c i)).le
  rw [hsplit]
  refine List.pairwise_append.mpr ⟨h.sublist (List.take_sublist _ _), ?_, ?_⟩
  · exact List.pairwise_cons.mpr ⟨hright, h.sublist (List.drop_sublist _ _)⟩
  · intro a ha b hb
    rcases List.mem_cons.mp hb with rfl | hb
    · exact hleft a ha
    · exact (hleft a ha).trans (hright b hb)

/-! ### `insert_key` -/

namespace Page

variable {p x : Page}

theorem run_toForward (p : Page) : (p.run p.toForward).records = p.records ∧
    isForward (p.run p.toForward).switchCounter ∧
    ∀ key, Touched key p (p.run p.toForward) := by
  unfold toForward
  by_cases hf : isForward p.switchCounter
  · rw [if_pos hf]
    exact ⟨rfl, hf, fun key => .refl key p⟩
  · rw [if_neg hf]
    refine ⟨rfl, ?_, fun key => (Touched.refl key p).trans_switch _⟩
    show (p.switchCounter + 1) % 256 % 2 = 0
    have hodd : ¬ p.switchCounter % 2 = 0 := hf
    omega

/-- The record `c` is filled: pointer, key, pointer. -/
theorem run_fill (x : Page) (c v ptr : ℕ) (key : ℤ) :
    x.run [.ptr c v, .key c key, .ptr c ptr] = x.setRecord c ⟨key, ptr⟩ := by
  simp [run, apply, setRecord]

/-- The loop for the records below `a` moves those behind `c` and fills record `c`. -/
theorem fastLoop_records (a c : ℕ) (x : Page) (key : ℤ) (ptr : ℕ) (hca : c ≤ a)
    (hfront : ∀ d, c = d + 1 → (x.records d).key ≤ key)
    (hbehind : ∀ i, c ≤ i → i < a → key < (x.records i).key) :
    ∃ r, x.run (x.fastLoop key ptr a) = { x with records := r } ∧
      (∀ i, i < c → r i = x.records i) ∧ r c = ⟨key, ptr⟩ ∧
      (∀ i, c ≤ i → i < a → r (i + 1) = x.records i) ∧ ∀ i, a < i → r i = x.records i := by
  induction a generalizing x with
  | zero =>
    obtain rfl : c = 0 := by omega
    refine ⟨_, run_fill x 0 _ ptr key, fun i hi => absurd hi (Nat.not_lt_zero i),
      Function.update_self _ _ _, fun i _ hi => absurd hi (Nat.not_lt_zero i), ?_⟩
    intro i hi
    exact Function.update_of_ne (by omega) _ _
  | succ a ih =>
    by_cases hk : key < (x.records a).key
    · have hca' : c ≤ a := by
        by_contra hc
        have := hfront a (by omega)
        omega
      have hsame : ∀ i, i ≤ a → (x.setRecord (a + 1) (x.records a)).records i = x.records i :=
        fun i hi => by rw [records_setRecord, if_neg (by omega)]
      obtain ⟨r, hrun, hleft, hc, hmoved, hright⟩ := ih (x.setRecord (a + 1) (x.records a)) hca'
        (fun d hd => by rw [hsame d (by omega)]; exact hfront d hd)
        (fun i hi hlt => by rw [hsame i (by omega)]; exact hbehind i hi (by omega))
      refine ⟨r, ?_, ?_, hc, ?_, ?_⟩
      · simp only [fastLoop, if_pos hk]
        rw [run_append, run_shift, hrun]
        rfl
      · intro i hi
        rw [hleft i hi, hsame i (by omega)]
      · intro i hi hlt
        by_cases hia : i = a
        · subst i
          rw [hright (a + 1) (by omega), records_setRecord, if_pos rfl]
        · rw [hmoved i hi (by omega), hsame i (by omega)]
      · intro i hi
        rw [hright i (by omega), records_setRecord, if_neg (by omega)]
    · have hc : c = a + 1 := by
        by_contra hne
        exact hk (hbehind a (by omega) (by omega))
      subst c
      refine ⟨Function.update x.records (a + 1) ⟨key, ptr⟩, ?_, ?_, ?_, ?_, ?_⟩
      · simp only [fastLoop, if_neg hk]
        exact run_fill x (a + 1) _ ptr key
      · intro i hi
        exact Function.update_of_ne (by omega) _ _
      · exact Function.update_self _ _ _
      · intro i hi hlt
        omega
      · intro i hi
        exact Function.update_of_ne (by omega) _ _

end Page

theorem Filled.insertKey {p : Page} {es : List Entry} {e : Entry} {c : ℕ} (h : Filled p es)
    (hroom : es.length + 1 < cardinality) (hs : Spot es e.key c) :
    Filled (p.run (p.insertKey e.key e.ptr es.length)) (es.insertIdx c e) ∧
    Touched e.key p (p.run (p.insertKey e.key e.ptr es.length)) := by
  have hlen : (es.insertIdx c e).length = es.length + 1 := List.length_insertIdx_of_le_length hs.le e
  obtain ⟨hrec, hforward, htouched⟩ := Page.run_toForward p
  have ht := htouched e.key
  by_cases h0 : es = []
  · subst es
    have hc : c = 0 := by simpa using hs.le
    subst c
    have hrun : p.run (p.insertKey e.key e.ptr 0) =
        { (p.run p.toForward) with
          lastIndex := 0
          records := Function.update (Function.update p.records 0 e) 1 ⟨(p.records 1).key, NULL⟩ } := by
      unfold Page.insertKey Page.insertKeyWith Page.opening
      rw [if_pos rfl, if_pos rfl, List.append_nil, Page.run_append, Page.run_append, ← hrec]
      simp [Page.run, Page.apply, Page.setRecord]
    show Filled (p.run (p.insertKey e.key e.ptr 0)) [e] ∧
      Touched e.key p (p.run (p.insertKey e.key e.ptr 0))
    rw [hrun]
    refine ⟨⟨by simpa using hroom, ?_, rfl, rfl, hforward⟩, ⟨ht.leftmostPtr, ht.siblingPtr,
      ht.level, ht.isDeleted, ?_⟩⟩
    · intro i hi
      have hi0 : i = 0 := by simpa using hi
      subst i
      rfl
    · intro i
      show (∃ j, (Function.update (Function.update p.records 0 e) 1 _ i).key = _) ∨ _
      by_cases h1 : i = 1
      · subst i
        exact Or.inl ⟨1, by rw [Function.update_self]⟩
      · by_cases hi0 : i = 0
        · subst i
          exact Or.inr rfl
        · refine Or.inl ⟨i, ?_⟩
          rw [Function.update_of_ne h1, Function.update_of_ne hi0]
  · have hpos : es.length ≠ 0 := fun hz => h0 (List.length_eq_zero_iff.mp hz)
    have hopen : p.run (p.opening es.length) = (p.run p.toForward).setRecord (es.length + 1)
        ⟨(p.records (es.length + 1)).key, NULL⟩ := by
      unfold Page.opening
      rw [if_neg hpos, Page.run_append, ← h.terminator, ← hrec]
      rfl
    have hx : ∀ i, i < es.length → (p.run (p.opening es.length)).records i = p.records i := by
      intro i hi
      rw [hopen, Page.records_setRecord, if_neg (by omega), hrec]
    have hkeys : ∀ i, ((p.run (p.opening es.length)).records i).key = (p.records i).key :=
      Page.opening_key p es.length
    obtain ⟨r, hrun, hleft, hc, hmoved, hright⟩ := Page.fastLoop_records es.length c
      (p.run (p.opening es.length)) e.key e.ptr hs.le
      (fun d hd => by
        have hlt : d < es.length := by
          have := hs.le
          omega
        rw [hx d hlt, h.record d hlt]
        exact hs.front d hlt hd)
      (fun i hi hlt => by
        rw [hx i hlt, h.record i hlt]
        exact hs.behind i hlt hi)
    have hwhole : p.run (p.insertKey e.key e.ptr es.length) =
        { (p.run p.toForward) with lastIndex := es.length, records := r } := by
      unfold Page.insertKey Page.insertKeyWith
      rw [if_neg hpos, Page.run_append, Page.run_append, hrun, hopen]
      rfl
    rw [hwhole]
    refine ⟨⟨by omega, ?_, ?_, by simp [hlen], hforward⟩, ⟨ht.leftmostPtr, ht.siblingPtr,
      ht.level, ht.isDeleted, ?_⟩⟩
    · intro i hi
      show r i = _
      rw [List.getElem_insertIdx]
      by_cases hic : i < c
      · rw [dif_pos hic, hleft i hic, hx i (by have := hs.le; omega)]
        exact h.record i _
      · rw [dif_neg hic]
        by_cases hie : i = c
        · rw [dif_pos hie, hie, hc]
        · rw [dif_neg hie]
          obtain ⟨d, rfl⟩ : ∃ d, i = d + 1 := ⟨i - 1, by omega⟩
          rw [hmoved d (by omega) (by omega), hx d (by omega)]
          exact h.record d _
    · show (r (es.insertIdx c e).length).ptr = NULL
      rw [hlen, hright (es.length + 1) (by omega), hopen, Page.records_setRecord, if_pos rfl]
    · intro i
      show (∃ j, (r i).key = _) ∨ (r i).key = _
      rcases Nat.lt_trichotomy i c with hic | hic | hic
      · exact Or.inl ⟨i, by rw [hleft i hic, hkeys]⟩
      · exact Or.inr (by rw [hic, hc])
      · refine Or.inl ?_
        obtain ⟨d, rfl⟩ : ∃ d, i = d + 1 := ⟨i - 1, by omega⟩
        by_cases hd : d < es.length
        · exact ⟨d, by rw [hmoved d (by omega) hd, hkeys]⟩
        · exact ⟨d + 1, by rw [hright (d + 1) (by omega), hkeys]⟩

/-! ### The two builds -/

namespace Page

/-- `insert_key` in the two builds. -/
def insertKeyOf (b : Build) (p : Page) (key : ℤ) (ptr num : ℕ) (flush : Bool) : List PageStore :=
  match b with
  | .plain => p.insertKey key ptr num
  | .rap => p.insertKeyRap key ptr num flush

/-- The values of `max_cl` at the buffered writes of `insert_key`. -/
def staging (b : Build) (p : Page) (key : ℤ) (num : ℕ) (flush : Bool) : List ℕ :=
  match b with
  | .plain => []
  | .rap => (p.insertKeyRapFill key num flush).1

theorem run_insertKeyOf (b : Build) (p : Page) (key : ℤ) (ptr num : ℕ) (flush : Bool)
    (hf : flush = true ∨ num = 0 ∨ (p.records (num - 1)).key ≤ key) :
    p.run (p.insertKeyOf b key ptr num flush) = p.run (p.insertKey key ptr num) ∧
    ∀ m ∈ p.staging b key num flush, m < wrBufClSize := by
  cases b with
  | plain => exact ⟨rfl, fun m hm => absurd hm List.not_mem_nil⟩
  | rap =>
    obtain ⟨hpage, hfill, _⟩ := insertKeyRap_eq p key ptr num flush hf
    exact ⟨congrArg Prod.fst hpage, hfill⟩

end Page

namespace Btree

/-- `migrate` in the two builds. -/
def migrateOf (b : Build) (q : Page) (cnt : ℕ) : List Entry → List PageStore
  | [] => []
  | e :: es =>
    q.insertKeyOf b e.key e.ptr cnt false ++
      migrateOf b (q.run (q.insertKeyOf b e.key e.ptr cnt false)) (cnt + 1) es

def migrateStaging (b : Build) (q : Page) (cnt : ℕ) : List Entry → List ℕ
  | [] => []
  | e :: es =>
    q.staging b e.key cnt false ++
      migrateStaging b (q.run (q.insertKeyOf b e.key e.ptr cnt false)) (cnt + 1) es

theorem migrateOf_plain (q : Page) (cnt : ℕ) (es : List Entry) :
    migrateOf .plain q cnt es = migrate q cnt es := by
  induction es generalizing q cnt with
  | nil => rfl
  | cons e es ih => simp only [migrateOf, migrate, ih, Page.insertKeyOf]

/-- Records in order arrive one behind the other. -/
theorem migrateOf_filled (b : Build) {q : Page} {done es : List Entry} (h : Filled q done)
    (ha : Ascending (done ++ es)) (hfit : (done ++ es).length < cardinality) :
    q.run (migrateOf b q done.length es) = q.run (migrate q done.length es) ∧
    (∀ m ∈ migrateStaging b q done.length es, m < wrBufClSize) ∧
    Filled (q.run (migrate q done.length es)) (done ++ es) ∧
    Grown es q (q.run (migrate q done.length es)) := by
  induction es generalizing q done with
  | nil =>
    rw [List.append_nil]
    exact ⟨rfl, fun m hm => absurd hm List.not_mem_nil, h,
      ⟨rfl, rfl, rfl, rfl, fun i => Or.inl ⟨i, rfl⟩⟩⟩
  | cons e es ih =>
    have hlast : ∀ b ∈ done, b.key ≤ e.key := fun b hb =>
      (List.pairwise_append.mp ha).2.2 b hb e List.mem_cons_self
    rw [List.append_cons] at ha hfit
    have hroom : done.length + 1 < cardinality := by
      simp only [List.length_append, List.length_singleton] at hfit
      omega
    obtain ⟨hfilled, htouched⟩ := h.insertKey hroom (Spot.last hlast)
    rw [List.insertIdx_length_self] at hfilled
    have hflush : false = true ∨ done.length = 0 ∨ (q.records (done.length - 1)).key ≤ e.key := by
      by_cases h0 : done.length = 0
      · exact Or.inr (Or.inl h0)
      · refine Or.inr (Or.inr ?_)
        rw [h.record (done.length - 1) (by omega)]
        exact hlast _ (List.getElem_mem _)
    obtain ⟨hpage, hstaged⟩ := q.run_insertKeyOf b e.key e.ptr done.length false hflush
    obtain ⟨h1, h2, h3, h4⟩ := ih hfilled ha hfit
    rw [List.length_append, List.length_singleton] at h1 h2 h3 h4
    simp only [migrateOf, migrateStaging, migrate, Page.run_append, hpage]
    refine ⟨h1, ?_, ?_, htouched.grown h4⟩
    · intro m hm
      rcases List.mem_append.mp hm with hm | hm
      · exact hstaged m hm
      · exact h2 m hm
    · rw [List.append_cons]
      exact h3

end Btree

theorem Page.new_filled (level : ℕ) : Filled (Page.new level) [] :=
  ⟨by simp [cardinality_eq], fun i h => absurd h (Nat.not_lt_zero i), rfl, rfl, rfl⟩

theorem Page.newRoot_filled (left : ℕ) (key : ℤ) (right level : ℕ) :
    Filled (Page.newRoot left key right level) [⟨key, right⟩] := by
  refine ⟨by simp [cardinality_eq], ?_, rfl, rfl, rfl⟩
  intro i hi
  have h0 : i = 0 := by simpa using hi
  subst i
  rfl

theorem Filled.moved {p : Page} {es : List Entry} (h : Filled p es) (m : ℕ) :
    Btree.movedRecords p es.length m = es.drop (if p.leftmostPtr = NULL then m else m + 1) := by
  rw [Btree.movedRecords]
  refine List.ext_getElem (by simp) ?_
  intro i h1 h2
  simp only [List.getElem_map, List.getElem_range', List.getElem_drop, Nat.one_mul]
  simp only [List.length_drop] at h2
  exact h.record _ (by omega)

theorem Filled.setSibling {p : Page} {es : List Entry} (h : Filled p es) (a : ℕ) :
    Filled (p.apply (.siblingPtr a)) es :=
  ⟨h.fits, h.record, h.terminator, h.lastIndex, h.forward⟩

/-- The old page after the cut at record `m`. -/
theorem Filled.truncate {p : Page} {es : List Entry} (h : Filled p es) {m : ℕ}
    (hm : m < es.length) (key : ℤ) :
    Filled (p.run (Btree.truncateStores p m)) (es.take m) ∧
    Touched key p (p.run (Btree.truncateStores p m)) := by
  have hlen : (es.take m).length = m := by
    rw [List.length_take]
    omega
  have heven : isForward ((p.switchCounter + 2) % 256) := by
    have hf : p.switchCounter % 2 = 0 := h.forward
    show (p.switchCounter + 2) % 256 % 2 = 0
    omega
  have hrun : p.run (Btree.truncateStores p m) =
      { p with
        switchCounter := (p.switchCounter + 2) % 256
        lastIndex := m - 1
        records := Function.update p.records m ⟨(p.records m).key, NULL⟩ } := by
    unfold Btree.truncateStores
    rw [if_pos h.forward]
    rfl
  rw [hrun]
  refine ⟨⟨by have := h.fits; omega, ?_, ?_, by simp [hlen], heven⟩, ⟨rfl, rfl, rfl, rfl, ?_⟩⟩
  · intro i hi
    rw [hlen] at hi
    rw [List.getElem_take]
    exact (Function.update_of_ne (by omega) _ _).trans (h.record i (by omega))
  · rw [hlen]
    show (Function.update p.records m ⟨(p.records m).key, NULL⟩ m).ptr = NULL
    rw [Function.update_self]
  · intro i
    refine Or.inl ⟨i, ?_⟩
    show (Function.update p.records m ⟨(p.records m).key, NULL⟩ i).key = _
    rw [Function.update_apply]
    split
    · next hi => rw [hi]
    · rfl

end PmemStudy.FastFair
