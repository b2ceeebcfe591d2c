import PmemStudy.FastFair.Filled
import PmemStudy.FastFair.SplitTree

/-!
# Locked sections of store

`store` holds the lock of one page at a time. A section runs from the lock to the unlock:
it finds the page deleted, or goes on to the right neighbour, or stores the entry. After a
split that was not of the root the separator is still to be put into the level above.
-/

namespace PmemStudy.FastFair
open PmemStudy.Slots

namespace Btree

/-- `siblingStores` in the two builds. -/
def siblingStoresOf (b : Build) (p : Page) (num m : ℕ) : List PageStore :=
  migrateOf b (Page.new p.level) 0 (movedRecords p num m) ++
  (if p.leftmostPtr = NULL then [] else [.leftmostPtr (p.records m).ptr]) ++
  [.siblingPtr p.siblingPtr]

/-- `splitStores` in the two builds. -/
def splitStoresOf (b : Build) (a sibling : ℕ) (p : Page) (num m : ℕ) : List TreeStore :=
  .newPage sibling (Page.new p.level) :: (siblingStoresOf b p num m).map (.page sibling) ++
  .page a (.siblingPtr sibling) :: (truncateStores p m).map (.page a)

/-- How a section ends: `store` returns NULL, goes on with the page at `a`, returns the page
`ret`, or calls `btree_insert_internal` with the separator before that. -/
inductive Outcome
  | deleted
  | sibling (a : ℕ)
  | stored (ret : ℕ)
  | parent (splitKey : ℤ) (sibling level ret : ℕ)

/-- `staging` are the values of `max_cl` at the buffered writes. -/
structure Section where
  stores : List TreeStore
  staging : List ℕ
  outcome : Outcome

/-- `hdr.sibling_ptr && key > hdr.sibling_ptr->records[0].key`, as nothing is passed for
`invalid_sibling`. -/
def beyond (t : Btree) (p : Page) (key : ℤ) : Option Bool :=
  if p.siblingPtr ≠ NULL then
    (t.pages p.siblingPtr).map fun s => decide ((s.records 0).key < key)
  else some false

/-- The section of `store` on the page at `a`. -/
def storeSection (b : Build) (alloc : ℕ → ℕ) (t : Btree) (a : ℕ) (key : ℤ) (right : ℕ) :
    Option Section := do
  let p ← t.pages a
  if p.isDeleted then some ⟨[], [], .deleted⟩
  else
    let beyond ← t.beyond p key
    if beyond then some ⟨[], [], .sibling p.siblingPtr⟩
    else if p.count < cardinality - 1 then
      some ⟨(p.insertKeyOf b key right p.count true).map (.page a),
        p.staging b key p.count true, .stored a⟩
    else
      let sibling := alloc t.allocated
      let m := p.count / 2
      let splitKey := (p.records m).key
      let split := splitStoresOf b a sibling p p.count m
      let migrated := migrateStaging b (Page.new p.level) 0 (movedRecords p p.count m)
      let p1 ← (t.run split).pages a
      let s1 ← (t.run split).pages sibling
      let cnt := (movedRecords p p.count m).length
      let insert := if key < splitKey then (p1.insertKeyOf b key right m true).map (.page a)
        else (s1.insertKeyOf b key right cnt true).map (.page sibling)
      let staged := if key < splitKey then p1.staging b key m true
        else s1.staging b key cnt true
      let ret := if key < splitKey then a else sibling
      let t2 := t.run (split ++ insert)
      if t.root = a then
        some ⟨split ++ insert ++
          newRootStores t2 (alloc t2.allocated) a splitKey sibling (p.level + 1),
          migrated ++ staged, .stored ret⟩
      else some ⟨split ++ insert, migrated ++ staged, .parent splitKey sibling (p.level + 1) ret⟩

/-- The tree with `y` at `a` and the new page `x` at `b`. -/
def splitInto (t : Btree) (a b : ℕ) (y x : Page) : Btree :=
  { t with
    pages := Function.update (Function.update t.pages b (some x)) a (some y)
    allocated := t.allocated + 1 }

/-- The tree under the new root `q` at `r`. -/
def growTo (t : Btree) (r : ℕ) (q : Page) : Btree where
  pages := Function.update t.pages r (some q)
  root := r
  height := t.height + 1
  allocated := t.allocated + 1

variable {t : Btree} {a b : ℕ} {p x y : Page}

theorem run_append (t : Btree) (l l' : List TreeStore) : t.run (l ++ l') = (t.run l).run l' :=
  List.foldl_append

theorem setPage_splitInto_old (t : Btree) (a b : ℕ) (y x z : Page) :
    (t.splitInto a b y x).setPage a z = t.splitInto a b z x := by
  simp [setPage, splitInto]

theorem setPage_splitInto_new (t : Btree) (y x z : Page) (hab : a ≠ b) :
    (t.splitInto a b y x).setPage b z = t.splitInto a b y z := by
  simp only [setPage, splitInto, Function.update_comm hab.symm, Function.update_idem]

theorem setPage_at (t : Btree) (a : ℕ) (p : Page) : (t.setPage a p).pages a = some p :=
  Function.update_self _ _ _

theorem setPage_other (t : Btree) (p : Page) {c : ℕ} (hc : c ≠ a) :
    (t.setPage a p).pages c = t.pages c := Function.update_of_ne hc _ _

theorem growTo_new (t : Btree) (r : ℕ) (q : Page) : (t.growTo r q).pages r = some q :=
  Function.update_self _ _ _

theorem growTo_other (t : Btree) (q : Page) {r c : ℕ} (hc : c ≠ r) :
    (t.growTo r q).pages c = t.pages c := Function.update_of_ne hc _ _

theorem splitInto_old (t : Btree) (a b : ℕ) (y x : Page) :
    (t.splitInto a b y x).pages a = some y := Function.update_self _ _ _

theorem splitInto_new (t : Btree) (y x : Page) (hab : a ≠ b) :
    (t.splitInto a b y x).pages b = some x :=
  (Function.update_of_ne hab.symm _ _).trans (Function.update_self _ _ _)

theorem splitInto_other (t : Btree) (y x : Page) {c : ℕ} (hca : c ≠ a) (hcb : c ≠ b) :
    (t.splitInto a b y x).pages c = t.pages c :=
  (Function.update_of_ne hca _ _).trans (Function.update_of_ne hcb _ _)

/-- Stores to the page at `a` of a tree that has one there. -/
theorem run_page (hp : t.pages a = some p) (l : List PageStore) :
    t.run (l.map (.page a)) = t.setPage a (p.run l) := by
  have h := run_setPage t a p l
  rwa [setPage_self hp] at h

/-- A split leaves two pages: the cut one and the new one. -/
theorem run_splitStoresOf (c : Build) (hp : t.pages a = some p) (hab : a ≠ b) (num m : ℕ) :
    t.run (splitStoresOf c a b p num m) =
      t.splitInto a b ((p.apply (.siblingPtr b)).run (truncateStores p m))
        ((Page.new p.level).run (siblingStoresOf c p num m)) := by
  have hsplit : splitStoresOf c a b p num m =
      (.newPage b (Page.new p.level) :: (siblingStoresOf c p num m).map (.page b)) ++
        (.siblingPtr b :: truncateStores p m).map (.page a) := rfl
  have hnew : t.run (.newPage b (Page.new p.level) :: (siblingStoresOf c p num m).map (.page b)) =
      t.splitInto a b p ((Page.new p.level).run (siblingStoresOf c p num m)) := by
    show (t.apply (.newPage b (Page.new p.level))).run _ = _
    rw [newPage_run, run_setPage]
    simp only [setPage, splitInto, apply, Function.update_idem]
    congr 1
    refine (Function.update_eq_iff.mpr ⟨?_, fun _ _ => rfl⟩).symm
    exact (Function.update_of_ne hab _ _).symm ▸ hp.symm
  rw [hsplit, run_append, hnew, run_page (splitInto_old t a b p _), setPage_splitInto_old]
  rfl

end Btree

/-! ### The two pages of a split -/

/-- The records from this one on move to the new page. -/
def cutAt (p : Page) : ℕ := if p.leftmostPtr = NULL then 14 else 15

theorem cutAt_cases (p : Page) : cutAt p = 14 ∨ cutAt p = 15 := by
  unfold cutAt
  split
  · exact Or.inl rfl
  · exact Or.inr rfl

/-- The new page of a split of `p`, which had the records `es`. -/
structure Sibling (p : Page) (es : List Entry) (x : Page) : Prop where
  level : x.level = p.level
  live : x.isDeleted = false
  leftmostPtr : x.leftmostPtr = if p.leftmostPtr = NULL then NULL else (p.records 14).ptr
  siblingPtr : x.siblingPtr = p.siblingPtr
  keys : ∀ i, (x.records i).key = longMax ∨ (p.records 14).key ≤ (x.records i).key
  filled : Filled x es

/-- The old page `y` and the new page `x` at `b`, after `e` was put into one of them. -/
structure Halved (p : Page) (es : List Entry) (e : Entry) (b : ℕ) (left right : List Entry)
    (y x : Page) : Prop where
  old : Touched e.key (p.apply (.siblingPtr b)) y
  filled : Filled y left
  new : Sibling p right x
  halves : (e.key < (p.records 14).key ∧ right = es.drop (cutAt p) ∧
      ∃ c, Spot (es.take 14) e.key c ∧ left = (es.take 14).insertIdx c e) ∨
    ((p.records 14).key ≤ e.key ∧ left = es.take 14 ∧
      ∃ c, Spot (es.drop (cutAt p)) e.key c ∧ right = (es.drop (cutAt p)).insertIdx c e)

section
variable {t : Btree} {a b : ℕ} {p x y : Page} {es : List Entry} {e : Entry}

theorem Ascending.right_half (ha : Ascending es) (h : Filled p es) (hlen : es.length = 29) {n : ℕ}
    (hn : 14 ≤ n) : ∀ b ∈ es.drop n, (p.records 14).key ≤ b.key := by
  intro b hb
  obtain ⟨i, hi, rfl⟩ := List.mem_drop_iff_getElem.mp hb
  rw [h.record 14 (by omega)]
  rcases Nat.eq_or_lt_of_le (show 14 ≤ n + i by omega) with heq | hlt
  · simp only [← heq]
    exact le_refl _
  · exact List.pairwise_iff_getElem.mp ha _ _ (by omega) (by omega) hlt

theorem Filled.sibling (c : Build) (h : Filled p es) (ha : Ascending es) (hlen : es.length = 29) :
    Sibling p (es.drop (cutAt p)) ((Page.new p.level).run (Btree.siblingStoresOf c p 29 14)) ∧
    ∀ m ∈ Btree.migrateStaging c (Page.new p.level) 0 (Btree.movedRecords p 29 14),
      m < wrBufClSize := by
  have hmoved := h.moved 14
  rw [hlen] at hmoved
  have hcut : es.drop (cutAt p) = Btree.movedRecords p 29 14 := hmoved.symm
  have hasc : Ascending ([] ++ es.drop (cutAt p)) := ha.sublist (List.drop_sublist _ _)
  have hfit : ([] ++ es.drop (cutAt p)).length < cardinality := by
    have := h.fits
    simp only [List.nil_append, List.length_drop]
    omega
  obtain ⟨hsame, hstaged, hfilled, hgrown⟩ :=
    Btree.migrateOf_filled c (Page.new_filled p.level) hasc hfit
  have hkeys : ∀ i, (((Page.new p.level).run
      (Btree.migrate (Page.new p.level) 0 (es.drop (cutAt p)))).records i).key = longMax ∨
      (p.records 14).key ≤ (((Page.new p.level).run
        (Btree.migrate (Page.new p.level) 0 (es.drop (cutAt p)))).records i).key := by
    intro i
    rcases hgrown.keys i with ⟨j, hj⟩ | ⟨b, hb, hbk⟩
    · exact Or.inl hj
    · refine Or.inr ?_
      rw [show (((Page.new p.level).run (Btree.migrate (Page.new p.level) 0
        (es.drop (cutAt p)))).records i).key = b.key from hbk]
      exact ha.right_half h hlen (by rcases cutAt_cases p with h | h <;> omega) b hb
  rw [hcut] at hsame hstaged hfilled hgrown hkeys ⊢
  refine ⟨?_, hstaged⟩
  unfold Btree.siblingStoresOf
  rw [Page.run_append, Page.run_append, show (Page.new p.level).run
    (Btree.migrateOf c (Page.new p.level) 0 (Btree.movedRecords p 29 14)) = _ from hsame]
  split
  · next hl =>
    exact ⟨hgrown.level, hgrown.isDeleted, by rw [if_pos hl]; exact hgrown.leftmostPtr, rfl, hkeys,
      ⟨hfilled.fits, hfilled.record, hfilled.terminator, hfilled.lastIndex, hfilled.forward⟩⟩
  · next hl =>
    exact ⟨hgrown.level, hgrown.isDeleted, by rw [if_neg hl]; rfl, rfl, hkeys,
      ⟨hfilled.fits, hfilled.record, hfilled.terminator, hfilled.lastIndex, hfilled.forward⟩⟩

theorem Sibling.insertKey (h : Sibling p es x) (hroom : es.length + 1 < cardinality) {c : ℕ}
    (hs : Spot es e.key c) (hk : (p.records 14).key ≤ e.key) :
    Sibling p (es.insertIdx c e) (x.run (x.insertKey e.key e.ptr es.length)) := by
  obtain ⟨hfilled, ht⟩ := h.filled.insertKey hroom hs
  refine ⟨ht.level.trans h.level, ht.isDeleted.trans h.live, ht.leftmostPtr.trans h.leftmostPtr,
    ht.siblingPtr.trans h.siblingPtr, ?_, hfilled⟩
  intro i
  rcases ht.keys i with ⟨j, hj⟩ | hj
  · rw [hj]
    exact h.keys j
  · rw [hj]
    exact Or.inr hk

/-- The cut page, before anything is put into it. -/
theorem Filled.cut (h : Filled p es) (hlen : es.length = 29) (b : ℕ) (key : ℤ) :
    Filled ((p.apply (.siblingPtr b)).run (Btree.truncateStores p 14)) (es.take 14) ∧
    Touched key (p.apply (.siblingPtr b))
      ((p.apply (.siblingPtr b)).run (Btree.truncateStores p 14)) :=
  (h.setSibling b).truncate (m := 14) (by omega) key

end

/-! ### What a section does -/

/-- The section of `store` for `e` on the page `p` at `a`, whose records are `es`. -/
inductive SectionOf (alloc : ℕ → ℕ) (t : Btree) (a : ℕ) (p : Page) (es : List Entry) (e : Entry)
    (s : Btree.Section) : Prop
  | deleted (hd : p.isDeleted = true) (hs : s = ⟨[], [], .deleted⟩)
  | moveOn (q : Page) (hq : t.pages p.siblingPtr = some q) (hne : p.siblingPtr ≠ NULL)
      (hk : (q.records 0).key < e.key) (hs : s = ⟨[], [], .sibling p.siblingPtr⟩)
  | room (x : Page) (c : ℕ) (hlen : es.length < 29) (hspot : Spot es e.key c)
      (hx : Filled x (es.insertIdx c e)) (ht : Touched e.key p x)
      (hrun : t.run s.stores = t.setPage a x) (hs : s.outcome = .stored a)
  | split (left right : List Entry) (y x : Page) (hlen : es.length = 29)
      (hh : Halved p es e (alloc t.allocated) left right y x) (hroot : t.root ≠ a)
      (hrun : t.run s.stores = t.splitInto a (alloc t.allocated) y x)
      (hs : s.outcome = .parent (p.records 14).key (alloc t.allocated) (p.level + 1)
        (if e.key < (p.records 14).key then a else alloc t.allocated))
  | grow (left right : List Entry) (y x : Page) (hlen : es.length = 29)
      (hh : Halved p es e (alloc t.allocated) left right y x) (hroot : t.root = a)
      (hrun : t.run s.stores = (t.splitInto a (alloc t.allocated) y x).growTo
        (alloc (t.allocated + 1))
        (Page.newRoot a (p.records 14).key (alloc t.allocated) (p.level + 1)))
      (hs : s.outcome = .stored (if e.key < (p.records 14).key then a else alloc t.allocated))

section
variable {alloc : ℕ → ℕ} {t : Btree} {a : ℕ} {p x y : Page} {es : List Entry} {e : Entry}

/-- The split and the insertion into one of the halves. -/
theorem Filled.halved (b : Build) (h : Filled p es) (ha : Ascending es) (hlen : es.length = 29)
    (hp : t.pages a = some p) (hab : a ≠ alloc t.allocated) :
    ∃ p1 s1 left right y x, 
      (t.run (Btree.splitStoresOf b a (alloc t.allocated) p 29 14)).pages a = some p1 ∧
      (t.run (Btree.splitStoresOf b a (alloc t.allocated) p 29 14)).pages (alloc t.allocated)
        = some s1 ∧
      Halved p es e (alloc t.allocated) left right y x ∧
      t.run (Btree.splitStoresOf b a (alloc t.allocated) p 29 14 ++
        if e.key < (p.records 14).key then
          (p1.insertKeyOf b e.key e.ptr 14 true).map (.page a)
        else (s1.insertKeyOf b e.key e.ptr (Btree.movedRecords p 29 14).length true).map
          (.page (alloc t.allocated))) = t.splitInto a (alloc t.allocated) y x ∧
      ∀ m ∈ if e.key < (p.records 14).key then p1.staging b e.key 14 true
        else s1.staging b e.key (Btree.movedRecords p 29 14).length true, m < wrBufClSize := by
  have hrun := Btree.run_splitStoresOf b hp hab 29 14
  obtain ⟨hcut, htouched⟩ := h.cut hlen (alloc t.allocated) e.key
  obtain ⟨hnew, _⟩ := h.sibling b ha hlen
  have hmoved := h.moved 14
  rw [hlen] at hmoved
  have htake : (es.take 14).length = 14 := by
    rw [List.length_take]
    omega
  have hdrop : (es.drop (cutAt p)).length + 1 < cardinality := by
    rw [List.length_drop, cardinality_eq]
    rcases cutAt_cases p with h | h <;> omega
  generalize hp1 : (p.apply (.siblingPtr (alloc t.allocated))).run
    (Btree.truncateStores p 14) = p1 at hrun hcut htouched
  generalize hs1 : (Page.new p.level).run (Btree.siblingStoresOf b p 29 14) = s1 at hrun hnew
  have hcnt : (Btree.movedRecords p 29 14).length = (es.drop (cutAt p)).length :=
    congrArg List.length hmoved
  simp only [Btree.run_append, hrun, hcnt]
  by_cases hk : e.key < (p.records 14).key
  · obtain ⟨c, hc⟩ := exists_spot (es.take 14) e.key
    obtain ⟨hfilled, ht⟩ := hcut.insertKey (by rw [htake, cardinality_eq]; omega) hc
    rw [htake] at hfilled ht
    obtain ⟨hsame, hstaged⟩ := p1.run_insertKeyOf b e.key e.ptr 14 true (Or.inl rfl)
    refine ⟨p1, s1, _, _, _, s1, Btree.splitInto_old t a _ p1 s1, Btree.splitInto_new t p1 s1 hab,
      ⟨htouched.trans ht, hfilled, hnew, Or.inl ⟨hk, rfl, c, hc, rfl⟩⟩, ?_, ?_⟩
    · rw [if_pos hk, Btree.run_page (Btree.splitInto_old t a _ p1 s1), hsame,
        Btree.setPage_splitInto_old]
    · rw [if_pos hk]
      exact hstaged
  · obtain ⟨c, hc⟩ := exists_spot (es.drop (cutAt p)) e.key
    have hx := hnew.insertKey hdrop hc (not_lt.mp hk)
    obtain ⟨hsame, hstaged⟩ := s1.run_insertKeyOf b e.key e.ptr (es.drop (cutAt p)).length true
      (Or.inl rfl)
    refine ⟨p1, s1, _, _, p1, _, Btree.splitInto_old t a _ p1 s1, Btree.splitInto_new t p1 s1 hab,
      ⟨htouched, hcut, hx, Or.inr ⟨not_lt.mp hk, rfl, c, hc, rfl⟩⟩, ?_, ?_⟩
    · rw [if_neg hk, Btree.run_page (Btree.splitInto_new t p1 s1 hab), hsame,
        Btree.setPage_splitInto_new t p1 s1 _ hab]
    · rw [if_neg hk]
      exact hstaged

/-- A section does one of five things, and it never buffers more than three records. -/
theorem storeSection_cases (b : Build) (hp : t.pages a = some p) (h : Filled p es)
    (ha : Ascending es) (hab : a ≠ alloc t.allocated) {s : Btree.Section}
    (hs : Btree.storeSection b alloc t a e.key e.ptr = some s) :
    SectionOf alloc t a p es e s ∧ ∀ m ∈ s.staging, m < wrBufClSize := by
  have hempty : ∀ m ∈ ([] : List ℕ), m < wrBufClSize := fun m hm => absurd hm List.not_mem_nil
  unfold Btree.storeSection at hs
  rw [hp, Option.bind_eq_bind, Option.bind_some] at hs
  cases hd : p.isDeleted with
  | true =>
    rw [hd, if_pos rfl] at hs
    obtain rfl := Option.some.inj hs
    exact ⟨.deleted hd rfl, hempty⟩
  | false =>
    rw [hd, if_neg Bool.false_ne_true] at hs
    obtain ⟨beyond, hbeyond, hs⟩ := Option.bind_eq_some_iff.mp hs
    cases beyond with
    | true =>
      rw [if_pos rfl] at hs
      obtain rfl := Option.some.inj hs
      unfold Btree.beyond at hbeyond
      split at hbeyond
      · next hne =>
        obtain ⟨q, hq, hk⟩ := Option.map_eq_some_iff.mp hbeyond
        exact ⟨.moveOn q hq hne (of_decide_eq_true hk) rfl, hempty⟩
      · cases hbeyond
    | false =>
      rw [if_neg Bool.false_ne_true, h.count] at hs
      by_cases hroom : es.length < cardinality - 1
      · rw [if_pos hroom] at hs
        obtain rfl := Option.some.inj hs
        obtain ⟨c, hc⟩ := exists_spot es e.key
        rw [cardinality_eq] at hroom
        obtain ⟨hfilled, ht⟩ := h.insertKey (by rw [cardinality_eq]; omega) hc
        obtain ⟨hsame, hstaged⟩ := p.run_insertKeyOf b e.key e.ptr es.length true (Or.inl rfl)
        refine ⟨.room _ c hroom hc hfilled ht ?_ rfl, hstaged⟩
        rw [Btree.run_page hp, hsame]
      · have hlen : es.length = 29 := by
          have := h.fits
          rw [cardinality_eq] at this hroom
          omega
        rw [if_neg hroom, hlen] at hs
        obtain ⟨p1, s1, left, right, y, x, hp1, hs1, hh, hrun, hstaged⟩ :=
          h.halved (e := e) b ha hlen hp hab
        obtain ⟨_, hmigrated⟩ := h.sibling b ha hlen
        simp only [show 29 / 2 = 14 from rfl, hp1, hs1, Option.bind_some] at hs
        have hall : ∀ m ∈ Btree.migrateStaging b (Page.new p.level) 0
            (Btree.movedRecords p 29 14) ++
              (if e.key < (p.records 14).key then p1.staging b e.key 14 true
              else s1.staging b e.key (Btree.movedRecords p 29 14).length true),
            m < wrBufClSize := by
          intro m hm
          rcases List.mem_append.mp hm with hm | hm
          · exact hmigrated m hm
          · exact hstaged m hm
        by_cases hroot : t.root = a
        · rw [if_pos hroot] at hs
          obtain rfl := Option.some.inj hs
          refine ⟨.grow left right y x hlen hh hroot ?_ rfl, hall⟩
          rw [Btree.run_append, hrun]
          rfl
        · rw [if_neg hroot] at hs
          obtain rfl := Option.some.inj hs
          exact ⟨.split left right y x hlen hh hroot hrun rfl, hall⟩

end

end PmemStudy.FastFair
