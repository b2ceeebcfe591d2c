import PmemStudy.FastFair.RapInsertKey
import PmemStudy.FastFair.RemoveKey

/-!
# Readers of a page that is being changed

`linear_search` on every image in the middle of `insert_key` and `remove_key`,
for a leaf and for an internal page, whatever lies behind the terminator.
-/

namespace PmemStudy.FastFair
open PmemStudy.Slots PmemStudy.Trace

/-- A page between two operations, with the entries `es`. -/
structure Resting (p : Page) (es : List Entry) : Prop where
  fits : es.length < cardinality
  record : ∀ i (h : i < es.length), p.records i = es[i]
  terminator : (p.records es.length).ptr = NULL
  lastIndex : p.lastIndex = es.length - 1
  increasing : Increasing es
  live : ∀ e ∈ es, e.ptr ≠ NULL
  nodup : (p.leftmostPtr :: es.map (·.ptr)).Nodup

/-- What `linear_search` gives when no record of a leaf is the key's. -/
def miss (pages : ℕ → Option Page) (p : Page) (key : ℤ) : Option ℕ :=
  if p.siblingPtr ≠ NULL then do
    let sibling ← pages p.siblingPtr
    if (sibling.records 0).key ≤ key then some p.siblingPtr else some NULL
  else some NULL

section
variable {p x : Page} {es : List Entry} (pages : ℕ → Option Page)

theorem miss_congr {key : ℤ} (h : x.siblingPtr = p.siblingPtr) :
    miss pages x key = miss pages p key := by
  rw [miss, miss, h]

theorem linearSearch_miss {key : ℤ} (hl : x.leftmostPtr = NULL) (hs : x.search key = NULL) :
    x.linearSearch pages key = miss pages x key := by
  rw [Page.linearSearch, miss]
  simp only [if_pos hl, hs]
  rw [if_neg (by simp)]

theorem Resting.distinct (h : Resting p es) : Distinct p.leftmostPtr es :=
  List.Pairwise.isChain h.nodup

theorem Resting.rests (h : Resting p es) (hempty : es = [] → (p.records 1).ptr = NULL)
    (hi : p.leftmostPtr ≠ NULL → es ≠ [] ∧ isForward p.switchCounter) : Rests p es :=
  ⟨⟨h.fits, h.record, h.live, h.terminator, hempty⟩, h.lastIndex, h.increasing, h.distinct, hi⟩

/-! ### Leaves -/

/-- A leaf that shows `E` finds the keys of `E` and no others. -/
theorem Shows.linearSearch {E : List Entry} (hx : Shows x E) (hl : x.leftmostPtr = NULL)
    (hd : Distinct NULL E) (hi : Increasing E) (hlive : ∀ e ∈ E, e.ptr ≠ NULL) :
    (∀ b ∈ E, x.linearSearch pages b.key = some b.ptr) ∧
    ∀ k, (∀ b ∈ E, b.key ≠ k) → x.linearSearch pages k = miss pages x k :=
  ⟨fun b hb => linearSearch_found pages hl (hx.mem hl hd hi hb) (hlive b hb),
    fun _ hk => linearSearch_miss pages hl (hx.absent hl hk)⟩

/-- The other stored keys are found; the key `e.key` is found with `e.ptr` or not there. -/
def LeafImage (p : Page) (others : List Entry) (e : Entry) (x : Page) : Prop :=
  (∀ b ∈ others, x.linearSearch pages b.key = some b.ptr) ∧
    (x.linearSearch pages e.key = miss pages p e.key ∨ x.linearSearch pages e.key = some e.ptr)

theorem insertKey_leaf_images (h : Resting p es) (hempty : es = [] → (p.records 1).ptr = NULL)
    (hl : p.leftmostPtr = NULL) (hroom : es.length + 1 < cardinality) {e : Entry}
    (hkey : ∀ b ∈ es, b.key ≠ e.key) (he : e.ptr ≠ NULL) (hfresh : ∀ b ∈ es, b.ptr ≠ e.ptr) :
    Always Page.apply (LeafImage pages p es e) p (p.insertKey e.key e.ptr es.length) := by
  have hr := h.rests hempty (fun hne => absurd hl hne)
  obtain ⟨c, hc⟩ := exists_place h.increasing hkey
  have hn : (es.map (·.ptr)).Nodup := (List.nodup_cons.mp h.nodup).2
  have hlive : ∀ b ∈ es.insertIdx c e, b.ptr ≠ NULL := by
    intro b hb
    rcases (List.mem_insertIdx hc.le).mp hb with rfl | hb
    · exact he
    · exact h.live b hb
  have hd : Distinct NULL es := distinct_of_nodup h.live hn
  have hd' : Distinct NULL (es.insertIdx c e) :=
    distinct_of_nodup hlive (nodup_insertIdx hc.le hn hfresh)
  refine (insertKey_spec hr hroom hc he (by rw [hl]; exact hd')).1.mono ?_
  intro x hx
  have hlx := hx.touched.leftmostPtr.trans hl
  rcases hx.serves with hs | hs
  · obtain ⟨h1, h2⟩ := hs.shows.linearSearch pages hlx hd h.increasing h.live
    refine ⟨h1, Or.inl ?_⟩
    rw [h2 _ hkey]
    exact miss_congr pages hx.touched.siblingPtr
  · obtain ⟨h1, _⟩ := hs.shows.linearSearch pages hlx hd' (Place.increasing hc h.increasing) hlive
    exact ⟨fun b hb => h1 b ((List.mem_insertIdx hc.le).mpr (Or.inr hb)),
      Or.inr (h1 e ((List.mem_insertIdx hc.le).mpr (Or.inl rfl)))⟩

theorem removeKey_leaf_images (h : Resting p es) (hl : p.leftmostPtr = NULL) {j : ℕ}
    (hj : j < es.length) :
    Always Page.apply (LeafImage pages p (es.eraseIdx j) es[j]) p (p.removeKey es[j].key).1 := by
  have hr := h.rests (fun hnil => by simp [hnil] at hj) (fun hne => absurd hl hne)
  have hsub : (es.eraseIdx j).Sublist es := List.eraseIdx_sublist es j
  have hn : (es.map (·.ptr)).Nodup := (List.nodup_cons.mp h.nodup).2
  have hlive : ∀ b ∈ es.eraseIdx j, b.ptr ≠ NULL := fun b hb => h.live b (hsub.mem hb)
  have hd : Distinct NULL es := distinct_of_nodup h.live hn
  have hd' : Distinct NULL (es.eraseIdx j) := distinct_of_nodup hlive (hn.sublist (hsub.map _))
  refine (removeKey_spec hr hl hj hd').1.mono ?_
  rintro x ⟨ht, hs | hs⟩
  · obtain ⟨h1, _⟩ := hs.linearSearch pages (ht.leftmostPtr.trans hl) hd h.increasing h.live
    exact ⟨fun b hb => h1 b (hsub.mem hb), Or.inr (h1 _ (List.getElem_mem hj))⟩
  · obtain ⟨h1, h2⟩ := hs.linearSearch pages (ht.leftmostPtr.trans hl) hd'
      (h.increasing.sublist hsub) hlive
    refine ⟨h1, Or.inl ?_⟩
    rw [h2 es[j].key ?_]
    · exact miss_congr pages ht.siblingPtr
    · intro b hb
      obtain ⟨i, hi, hne, rfl⟩ := List.mem_eraseIdx_iff_getElem.mp hb
      rcases Nat.lt_or_gt_of_ne hne with hlt | hgt
      · exact (List.pairwise_iff_getElem.mp h.increasing i j hi hj hlt).ne
      · exact (List.pairwise_iff_getElem.mp h.increasing j i hj hi hgt).ne'

/-! ### Internal pages -/

/-- `linear_search` of an internal page whose records lead to `child`. -/
def viaNode (p : Page) (key : ℤ) (child : ℕ) : Option ℕ :=
  if p.siblingPtr ≠ NULL then do
    let sibling ← pages p.siblingPtr
    if (sibling.records 0).key ≤ key then some p.siblingPtr else some child
  else some child

theorem linearSearch_viaNode {key : ℤ} (hl : x.leftmostPtr ≠ NULL) :
    x.linearSearch pages key
      = viaNode pages x key (if x.search key ≠ NULL then x.search key else x.leftmostPtr) := by
  rw [Page.linearSearch, viaNode]
  simp only [if_neg hl]
  by_cases hs : x.search key ≠ NULL
  · simp only [if_pos hs]
  · simp only [if_neg hs]

theorem viaNode_congr {key : ℤ} {child : ℕ} (h : x.siblingPtr = p.siblingPtr) :
    viaNode pages x key child = viaNode pages p key child := by
  rw [viaNode, viaNode, h]

/-- The sibling is taken whatever the records say, or the child is taken. -/
theorem viaNode_cases (key : ℤ) : (∃ r, ∀ child, viaNode pages p key child = r) ∨
    ∀ child, viaNode pages p key child = some child := by
  by_cases h0 : p.siblingPtr = NULL
  · exact Or.inr fun child => if_neg (not_not.mpr h0)
  · simp only [viaNode, if_pos h0]
    cases hs : pages p.siblingPtr with
    | none => exact Or.inl ⟨none, fun _ => rfl⟩
    | some s =>
      simp only [Option.bind_eq_bind, Option.bind_some]
      by_cases hk : (s.records 0).key ≤ key
      · exact Or.inl ⟨some p.siblingPtr, fun _ => if_pos hk⟩
      · exact Or.inr fun child => if_neg hk

theorem route_ne_null {E : List Entry} (hl : p.leftmostPtr ≠ NULL) (hlive : ∀ e ∈ E, e.ptr ≠ NULL)
    (key : ℤ) : route key p.leftmostPtr E ≠ NULL := by
  rcases route_mem key p.leftmostPtr E with hr | ⟨b, hb, hr⟩
  · rw [hr]
    exact hl
  · rw [hr]
    exact hlive b hb

theorem Shows.linearSearch_node {E : List Entry} (hx : Shows x E) (hl : x.leftmostPtr ≠ NULL)
    (hlive : ∀ e ∈ E, e.ptr ≠ NULL) (key : ℤ) :
    x.linearSearch pages key = viaNode pages x key (route key x.leftmostPtr E) := by
  have hs := hx key
  rw [answer, if_neg hl] at hs
  rw [linearSearch_viaNode pages hl, hs, if_pos (route_ne_null hl hlive key)]

/-- The backward search of an internal page gives the same child. -/
theorem nodeScanBack_eq (h : Resting p es) (key : ℤ) (i : ℕ) (hi : i ≤ es.length)
    (hgt : ∀ m (hm : m < es.length), i ≤ m → key < es[m].key) :
    (if p.nodeScanBack key i ≠ NULL then p.nodeScanBack key i else p.leftmostPtr)
      = route key p.leftmostPtr es := by
  have hd := h.distinct
  induction i with
  | zero =>
    rw [Page.nodeScanBack, if_neg (by simp)]
    refine (route_first ?_ hd).symm
    intro e he
    obtain ⟨m, hm, rfl⟩ := List.getElem_of_mem he
    exact hgt m hm (Nat.zero_le _)
  | succ i ih =>
    have hi' : i < es.length := hi
    have hsplit : es = es.take i ++ es[i] :: es.drop (i + 1) := by
      rw [← List.drop_eq_getElem_cons hi', List.take_append_drop]
    have hprev : (if i = 0 then p.leftmostPtr else (p.records (i - 1)).ptr) ≠ es[i].ptr := by
      have hn := h.nodup
      cases i with
      | zero =>
        rw [if_pos rfl]
        intro hc
        exact (List.nodup_cons.mp hn).1 (hc ▸ List.mem_map_of_mem (List.getElem_mem hi'))
      | succ i =>
        rw [if_neg (by omega), Nat.add_sub_cancel, h.record i (by omega)]
        have hpw := List.pairwise_iff_getElem.mp (List.nodup_cons.mp hn).2 i (i + 1)
          (by simp; omega) (by simpa using hi') (by omega)
        simpa using hpw
    have hscan : p.nodeScanBack key (i + 1)
        = if es[i].key ≤ key then es[i].ptr else p.nodeScanBack key i := by
      rw [Page.nodeScanBack, h.record i hi']
      simp only [hprev, ne_eq, not_false_eq_true, and_true]
    rw [hscan]
    by_cases hk : es[i].key ≤ key
    · rw [if_pos hk, if_pos (h.live _ (List.getElem_mem _))]
      conv => rhs; rw [hsplit]
      rw [hsplit] at hd
      rw [route_behind ?_ hk, route_first ?_ hd.right]
      · intro e he
        obtain ⟨m, hm, rfl⟩ := List.mem_drop_iff_getElem.mp he
        exact hgt _ _ (by omega)
      · intro e he
        obtain ⟨m, hm, rfl⟩ := List.mem_take_iff_getElem.mp he
        exact (List.pairwise_iff_getElem.mp h.increasing m i (by omega) hi' (by omega)).le.trans hk
    · rw [if_neg hk]
      refine ih (by omega) ?_
      intro m hm hge
      by_cases hmi : m = i
      · subst m
        exact not_le.mp hk
      · exact hgt m hm (by omega)

/-- An internal page at rest, of either parity. -/
theorem Resting.linearSearch_node (h : Resting p es) (hl : p.leftmostPtr ≠ NULL) (hne : es ≠ [])
    (key : ℤ) : p.linearSearch pages key = viaNode pages p key (route key p.leftmostPtr es) := by
  by_cases hf : isForward p.switchCounter
  · exact (h.rests (fun hnil => absurd hnil hne) (fun _ => ⟨hne, hf⟩)).shows.linearSearch_node
      pages hl h.live key
  · rw [linearSearch_viaNode pages hl, Page.search, if_neg hl, if_neg hf,
      count_of_terminator h.lastIndex h.terminator]
    refine congrArg _ (nodeScanBack_eq h key es.length (Nat.le_refl _) ?_)
    intro m hm hge
    omega

/-- `insert_key` is its switch of the direction and the rest. -/
theorem insertKey_switch (hf : ¬ isForward p.switchCounter) (key : ℤ) (ptr num : ℕ) :
    p.insertKey key ptr num = .switchCounter ((p.switchCounter + 1) % 256) ::
      (p.apply (.switchCounter ((p.switchCounter + 1) % 256))).insertKey key ptr num := by
  have hf' : isForward (p.apply (.switchCounter ((p.switchCounter + 1) % 256))).switchCounter := by
    show (p.switchCounter + 1) % 256 % 2 = 0
    have : ¬ p.switchCounter % 2 = 0 := hf
    omega
  simp only [Page.insertKey, Page.insertKeyWith, Page.opening, Page.toForward, if_neg hf,
    if_pos hf', List.nil_append, List.cons_append, Page.run_cons, Page.run_nil]

/-- The child is the one from before or, from the new key on, the new one. -/
def NodeImage (p : Page) (e : Entry) (x : Page) : Prop :=
  ∀ k, x.linearSearch pages k = p.linearSearch pages k ∨
    e.key ≤ k ∧ x.linearSearch pages k = some e.ptr

theorem insertKey_forward_images (h : Rests p es) (hl : p.leftmostPtr ≠ NULL)
    (hroom : es.length + 1 < cardinality) {e : Entry} (hkey : ∀ b ∈ es, b.key ≠ e.key)
    (he : e.ptr ≠ NULL) (hnodup : (p.leftmostPtr :: e.ptr :: es.map (·.ptr)).Nodup) :
    Always Page.apply (NodeImage pages p e) p (p.insertKey e.key e.ptr es.length) := by
  obtain ⟨c, hc⟩ := exists_place h.increasing hkey
  have hlive : ∀ b ∈ es.insertIdx c e, b.ptr ≠ NULL := by
    intro b hb
    rcases (List.mem_insertIdx hc.le).mp hb with rfl | hb
    · exact he
    · exact h.live b hb
  have hd' : Distinct p.leftmostPtr (es.insertIdx c e) := by
    have hperm : ((es.insertIdx c e).map (·.ptr)).Perm (e.ptr :: es.map (·.ptr)) :=
      (List.perm_insertIdx e es hc.le).map _
    exact List.Pairwise.isChain ((hperm.cons p.leftmostPtr).nodup_iff.mpr hnodup)
  refine (insertKey_spec h hroom hc he hd').1.mono ?_
  intro x hx k
  have hlx := hx.touched.leftmostPtr
  have hp := h.shows.linearSearch_node pages hl h.live k
  rcases hx.serves with hs | hs
  · left
    rw [hs.shows.linearSearch_node pages (by rw [hlx]; exact hl) h.live k, hp, hlx]
    exact viaNode_congr pages hx.touched.siblingPtr
  · have hxk := hs.shows.linearSearch_node pages (by rw [hlx]; exact hl) hlive k
    rw [viaNode_congr pages hx.touched.siblingPtr, hlx] at hxk
    have hroute : route k p.leftmostPtr (es.insertIdx c e) = route k p.leftmostPtr es ∨
        e.key ≤ k ∧ route k p.leftmostPtr (es.insertIdx c e) = e.ptr :=
      route_insert hc h.distinct hd'
    rcases hroute with hr | ⟨hge, hr⟩
    · left
      rw [hxk, hp, hr]
    · rw [hr] at hxk
      rcases viaNode_cases (p := p) pages k with ⟨r, hr'⟩ | hr'
      · left
        rw [hxk, hp, hr', hr']
      · right
        exact ⟨hge, hxk.trans (hr' e.ptr)⟩

theorem insertKey_node_images (h : Resting p es) (hl : p.leftmostPtr ≠ NULL) (hne : es ≠ [])
    (hroom : es.length + 1 < cardinality) {e : Entry} (hkey : ∀ b ∈ es, b.key ≠ e.key)
    (he : e.ptr ≠ NULL) (hlm : p.leftmostPtr ≠ e.ptr) (hfresh : ∀ b ∈ es, b.ptr ≠ e.ptr) :
    Always Page.apply (NodeImage pages p e) p (p.insertKey e.key e.ptr es.length) := by
  have hnodup : (p.leftmostPtr :: e.ptr :: es.map (·.ptr)).Nodup := by
    have hn := List.nodup_cons.mp h.nodup
    rw [List.nodup_cons, List.nodup_cons]
    refine ⟨?_, ?_, hn.2⟩
    · intro hm
      rcases List.mem_cons.mp hm with hm | hm
      · exact hlm hm
      · exact hn.1 hm
    · intro hm
      obtain ⟨b, hb, hbe⟩ := List.mem_map.mp hm
      exact hfresh b hb hbe
  by_cases hf : isForward p.switchCounter
  · exact insertKey_forward_images pages
      (h.rests (fun hnil => absurd hnil hne) (fun _ => ⟨hne, hf⟩)) hl hroom hkey he hnodup
  · obtain ⟨q, hq⟩ : ∃ q, q = p.apply (.switchCounter ((p.switchCounter + 1) % 256)) := ⟨_, rfl⟩
    have hrest : Resting q es := by
      rw [hq]
      exact ⟨h.fits, h.record, h.terminator, h.lastIndex, h.increasing, h.live, h.nodup⟩
    have hfq : isForward q.switchCounter := by
      rw [hq]
      show (p.switchCounter + 1) % 256 % 2 = 0
      have : ¬ p.switchCounter % 2 = 0 := hf
      omega
    have hlq : q.leftmostPtr = p.leftmostPtr := by
      rw [hq]
      rfl
    -- the switch alone changes no answer
    have hsame : ∀ k, q.linearSearch pages k = p.linearSearch pages k := by
      intro k
      rw [hrest.linearSearch_node pages (by rw [hlq]; exact hl) hne k,
        h.linearSearch_node pages hl hne k, hlq]
      refine viaNode_congr pages ?_
      rw [hq]
      rfl
    rw [insertKey_switch hf, always_cons, ← hq]
    refine ⟨fun k => Or.inl rfl, ?_⟩
    refine (insertKey_forward_images pages (hrest.rests (fun hnil => absurd hnil hne)
      (fun _ => ⟨hne, hfq⟩)) (by rw [hlq]; exact hl) hroom hkey he (by rw [hlq]; exact hnodup)).mono ?_
    intro x hx k
    rw [← hsame k]
    exact hx k

/-- Readers of a page at rest whose record 1 is free if it is empty. -/
theorem page_images (h : Resting p es) (hempty : es = [] → (p.records 1).ptr = NULL) :
    (∀ e : Entry, es.length + 1 < cardinality → (∀ b ∈ es, b.key ≠ e.key) → e.ptr ≠ NULL →
      p.leftmostPtr ≠ e.ptr → (∀ b ∈ es, b.ptr ≠ e.ptr) →
        (p.leftmostPtr = NULL →
          Always Page.apply (LeafImage pages p es e) p (p.insertKey e.key e.ptr es.length)) ∧
        (p.leftmostPtr ≠ NULL → es ≠ [] →
          Always Page.apply (NodeImage pages p e) p (p.insertKey e.key e.ptr es.length))) ∧
    (p.leftmostPtr = NULL → ∀ j (hj : j < es.length),
      Always Page.apply (LeafImage pages p (es.eraseIdx j) es[j]) p (p.removeKey es[j].key).1) :=
  ⟨fun _ hroom hkey he hlm hfresh =>
    ⟨fun hl => insertKey_leaf_images pages h hempty hl hroom hkey he hfresh,
      fun hl hne => insertKey_node_images pages h hl hne hroom hkey he hlm hfresh⟩,
    fun hl _ hj => removeKey_leaf_images pages h hl hj⟩

end

def leafOfTwo : List Entry := [⟨10, 1⟩, ⟨20, 2⟩]

theorem page_images_leafOfTwo :
    Always Page.apply (LeafImage (fun _ => none) (leafOf leafOfTwo) leafOfTwo ⟨15, 9⟩)
      (leafOf leafOfTwo) ((leafOf leafOfTwo).insertKey 15 9 leafOfTwo.length) :=
  ((@page_images (leafOf leafOfTwo) leafOfTwo (fun _ => none)
    ⟨by decide, by decide, rfl, rfl, by decide, by decide, by decide⟩ (by decide)).1 ⟨15, 9⟩
      (by decide) (by decide) (by decide) (by decide) (by decide)).1 rfl

/-- An empty leaf with something left in record 1. -/
def staleLeaf : Page :=
  { Page.new 0 with records := Function.update (Page.new 0).records 1 ⟨5, 77⟩ }

/-- Before the first store of an insertion of 5 the search for it gives 77. -/
theorem staleLeaf_shows_stale :
    Resting staleLeaf [] ∧ staleLeaf.leftmostPtr = NULL ∧ staleLeaf.siblingPtr = NULL ∧
    (staleLeaf.run ((staleLeaf.insertKey 5 9 0).take 0)).linearSearch (fun _ => none) 5 = some 77 ∧
    ¬ ((staleLeaf.run ((staleLeaf.insertKey 5 9 0).take 0)).linearSearch (fun _ => none) 5
        = some NULL ∨
      (staleLeaf.run ((staleLeaf.insertKey 5 9 0).take 0)).linearSearch (fun _ => none) 5
        = some 9) :=
  ⟨⟨by decide, by decide, rfl, rfl, by decide, by decide, by decide⟩, rfl, rfl, by decide,
    by decide⟩

/-- A page whose record 0 kept its key when its last entry was removed. -/
def emptiedSibling : Page :=
  { Page.new 0 with records := Function.update (Page.new 0).records 0 ⟨15, NULL⟩ }

/-- The leaf in front of it, at address 64. -/
def leafBeforeEmptied : Page := { leafOf leafOfTwo with siblingPtr := 64 }

/-- Before the first store of an insertion of 18 the search for it gives the sibling. -/
theorem emptiedSibling_shown :
    Resting leafBeforeEmptied leafOfTwo ∧ leafBeforeEmptied.leftmostPtr = NULL ∧
    Resting emptiedSibling [] ∧ (emptiedSibling.records 1).ptr = NULL ∧
    (leafBeforeEmptied.run ((leafBeforeEmptied.insertKey 18 9 2).take 0)).linearSearch
      (fun a => if a = 64 then some emptiedSibling else none) 18 = some 64 ∧
    ¬ ((leafBeforeEmptied.run ((leafBeforeEmptied.insertKey 18 9 2).take 0)).linearSearch
        (fun a => if a = 64 then some emptiedSibling else none) 18 = some NULL ∨
      (leafBeforeEmptied.run ((leafBeforeEmptied.insertKey 18 9 2).take 0)).linearSearch
        (fun a => if a = 64 then some emptiedSibling else none) 18 = some 9) :=
  ⟨⟨by decide, by decide, rfl, rfl, by decide, by decide, by decide⟩, rfl,
    ⟨by decide, by decide, rfl, rfl, by decide, by decide, by decide⟩, rfl, by decide, by decide⟩

end PmemStudy.FastFair
