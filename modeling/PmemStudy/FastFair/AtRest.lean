import PmemStudy.FastFair.OutlineSteps
import PmemStudy.FastFair.Lookup
import PmemStudy.FastFair.Split

/-!
# A tree between two operations

Every page is at rest and follows the outline. An insertion into one page turns
the outline into the one with the new entry; on the way each image is readable
with the one or the other.
-/

namespace PmemStudy.FastFair
open PmemStudy.Slots PmemStudy.Chain PmemStudy.Trace

/-- `μ` is the least number of records of a page that is not the root. -/
structure AtRest (alloc : ℕ → ℕ) (μ : ℕ) (t : Btree) (G : Outline) : Prop where
  outline : G.WellFormed
  follows : Follows alloc (fun _ a _ p => Rests p (G.entries a)) t G
  value : ∀ e ∈ G.contents, e.ptr ≠ NULL
  distinct : (G.contents.map (·.ptr)).Nodup
  height : t.height = G.height
  chain_bounded : ∀ l < G.height, ∀ x ∈ G.chain l, x.1 ≤ ↑longMax
  key_bounded : ∀ e ∈ G.contents, e.key ≤ longMax
  filled : ∀ l < G.height, ∀ x ∈ G.chain l, x.2 = G.root ∨ μ ≤ (G.entries x.2).length

section
variable {alloc : ℕ → ℕ} {μ : ℕ} {t : Btree} {G : Outline}

theorem Rests.visible {l a : ℕ} {B : List (Cell ℤ ℕ)} {p : Page} (h : Rests p (G.entries a)) :
    ∃ E, Visible G l a B p E :=
  ⟨G.entries a, h.serves, h.increasing, h.distinct, h.live, Or.inl rfl⟩

theorem AtRest.readable (h : AtRest alloc μ t G) : Readable alloc t G :=
  ⟨h.outline, h.follows.mono (fun _ _ _ _ _ _ _ _ _ hr => hr.visible)⟩

theorem AtRest.entry_bounded (h : AtRest alloc μ t G) {l : ℕ} (hl : l < G.height) {x : Cell ℤ ℕ}
    (hx : x ∈ G.chain l) {e : Entry} (he : e ∈ G.entries x.2) : e.key ≤ longMax := by
  cases l with
  | zero => exact h.key_bounded e (mem_contents hx he)
  | succ l =>
    have hmem : cell e ∈ G.above l := by
      rw [Outline.above_inner hl]
      exact List.mem_flatMap.mpr ⟨x, hx, List.mem_cons_of_mem _ (List.mem_map_of_mem he)⟩
    have hchain : cell e ∈ G.chain l := by
      rw [h.outline.chain_eq l (by omega)]
      cases G.pending l with
      | none => exact hmem
      | some b => exact mem_insert.mpr (Or.inr hmem)
    exact WithBot.coe_le_coe.mp (h.chain_bounded l (by omega) _ hchain)

/-! ### One page changes -/

def Btree.setPage (t : Btree) (a : ℕ) (p : Page) : Btree :=
  { t with pages := Function.update t.pages a (some p) }

theorem Btree.setPage_self {a : ℕ} {p : Page} (hp : t.pages a = some p) : t.setPage a p = t := by
  rw [Btree.setPage, ← hp, Function.update_eq_self]

theorem Btree.apply_setPage (t : Btree) (a : ℕ) (p : Page) (s : PageStore) :
    (t.setPage a p).apply (.page a s) = t.setPage a (p.apply s) := by
  simp [Btree.setPage, Btree.apply]

theorem Btree.run_setPage (t : Btree) (a : ℕ) (p : Page) (l : List PageStore) :
    (t.setPage a p).run (l.map (.page a)) = t.setPage a (p.run l) := by
  induction l generalizing p with
  | nil => rfl
  | cons s l ih =>
    show ((t.setPage a p).apply (.page a s)).run (l.map (.page a)) = _
    rw [Btree.apply_setPage, ih]
    rfl

/-- The images of the stores to one page. -/
theorem always_setPage {P : Page → Prop} {Q : Btree → Prop} {a : ℕ} {p : Page} {l : List PageStore}
    (h : Always Page.apply P p l) (hpq : ∀ x, P x → Q (t.setPage a x)) :
    Always Btree.apply Q (t.setPage a p) (l.map (.page a)) := by
  intro n
  have hrun : List.foldl Btree.apply (t.setPage a p) ((l.map (.page a)).take n)
      = t.setPage a (p.run (l.take n)) := by
    rw [← List.map_take]
    exact Btree.run_setPage t a p (l.take n)
  rw [hrun]
  exact hpq _ (h n)

/-- A tree still follows the outline when one page gets other records. -/
theorem Follows.setPage {R : ℕ → ℕ → List (Cell ℤ ℕ) → Page → Prop} (h : Follows alloc R t G)
    (R' : ℕ → ℕ → List (Cell ℤ ℕ) → Page → Prop) (G' : Outline) (hG : G.Apart)
    (hh : G'.height = G.height) (hr : G'.root = G.root) (hch : G'.chain = G.chain)
    (hlm : G'.leftmost = G.leftmost) {l : ℕ} (hl : l < G.height) {A B : List (Cell ℤ ℕ)} {lo : WithBot ℤ} {a : ℕ}
    (hc : G.chain l = A ++ (lo, a) :: B) {x : Page}
    (hx : Placed G l lo a B x ∧ R' l a B x)
    (hR : ∀ l' b B' p, b ≠ a → R l' b B' p → R' l' b B' p) :
    Follows alloc R' (t.setPage a x) G' := by
  have hplaced : ∀ l' lo' b B' p, Placed G l' lo' b B' p → Placed G' l' lo' b B' p := by
    intro l' lo' b B' p hp
    refine ⟨hp.level, hp.live, ?_, ?_, hp.siblingPtr, hp.keys⟩
    · rw [hlm]
      exact hp.leftmostPtr
    · rw [hlm]
      exact hp.leaf
  refine ⟨by rw [hr]; exact h.root, ?_, ?_⟩
  · intro l' hl' A' lo' b B' hc'
    rw [hh] at hl'
    rw [hch] at hc'
    by_cases hba : b = a
    · subst b
      have hll : l' = l := hG.disjoint l' hl' l hl (lo', a) (by rw [hc']; simp) (lo, a)
        (by rw [hc]; simp) rfl
      subst l'
      obtain ⟨_, rfl, rfl⟩ := hG.split_unique hl hc hc'
      exact ⟨x, Function.update_self _ _ _, hplaced _ _ _ _ _ hx.1, hx.2⟩
    · obtain ⟨p, hp, hpl, hRp⟩ := h.page l' hl' A' lo' b B' hc'
      exact ⟨p, (Function.update_of_ne hba _ _).trans hp, hplaced _ _ _ _ _ hpl,
        hR l' b B' p hba hRp⟩
  · intro l' hl' y hy
    rw [hh] at hl'
    rw [hch] at hy
    exact h.address l' hl' y hy

/-- A tree still follows the outline when pages outside of it change. -/
theorem Follows.frame {R : ℕ → ℕ → List (Cell ℤ ℕ) → Page → Prop} {t' : Btree}
    (h : Follows alloc R t G) (hr : t'.root = t.root) (ha : t.allocated ≤ t'.allocated)
    (hp : ∀ l < G.height, ∀ x ∈ G.chain l, t'.pages x.2 = t.pages x.2) :
    Follows alloc R t' G := by
  refine ⟨hr.trans h.root, ?_, ?_⟩
  · intro l hl A lo a B hc
    obtain ⟨p, h1, h2, h3⟩ := h.page l hl A lo a B hc
    exact ⟨p, by rw [hp l hl (lo, a) (by rw [hc]; simp)]; exact h1, h2, h3⟩
  · intro l hl x hx
    obtain ⟨i, hi, hxi⟩ := h.address l hl x hx
    exact ⟨i, by omega, hxi⟩

theorem Placed.touched {l a : ℕ} {lo : WithBot ℤ} {B : List (Cell ℤ ℕ)} {p x : Page} {key : ℤ}
    (h : Placed G l lo a B p) (ht : Touched key p x) (hlo : lo ≤ ↑key) : Placed G l lo a B x := by
  refine ⟨ht.level.trans h.level, ht.isDeleted.trans h.live, ht.leftmostPtr.trans h.leftmostPtr,
    h.leaf, ht.siblingPtr.trans h.siblingPtr, ?_⟩
  intro i
  rcases ht.keys i with ⟨j, hj⟩ | hk
  · rw [hj]
    exact h.keys j
  · rw [hk]
    exact hlo

/-! ### Insertion into a page -/

/-- What a new entry has to satisfy: at a leaf its pointer is a fresh value. -/
structure Fresh (G : Outline) (l : ℕ) (e : Entry) : Prop where
  key : e.key ≤ longMax
  ne_null : e.ptr ≠ NULL
  value : l = 0 → ∀ b ∈ G.contents, b.ptr ≠ e.ptr

theorem distinct_of_nodup_cons {prev : ℕ} {es : List Entry}
    (h : (prev :: es.map (·.ptr)).Nodup) : Distinct prev es := List.Pairwise.isChain h

/-- The pointers of an internal page differ. -/
theorem Outline.WellFormed.distinct_refs (h : G.WellFormed) {l : ℕ} (hl : l + 1 < G.height)
    {x : Cell ℤ ℕ} (hx : x ∈ G.chain (l + 1)) : Distinct (G.leftmost x.2) (G.entries x.2) := by
  have hn := h.nodup l (by omega)
  have hsub : ((refs x.1 (G.leftmost x.2) (G.entries x.2)).map (·.2)).Sublist
      ((G.chain l).map (·.2)) := by
    refine List.Sublist.map _ ?_
    have hab : (refs x.1 (G.leftmost x.2) (G.entries x.2)).Sublist (G.above l) := by
      rw [Outline.above_inner hl]
      obtain ⟨A, B, hAB⟩ := List.append_of_mem hx
      rw [hAB, expand_append, expand_cons]
      exact (List.sublist_append_left _ _).trans (List.sublist_append_right _ _)
    rw [h.chain_eq l (by omega)]
    cases G.pending l with
    | none => exact hab
    | some b => exact hab.trans (insert_sublist _ b)
  refine distinct_of_nodup_cons ?_
  have := hn.sublist hsub
  simpa [refs, cell, Function.comp_def] using this

theorem AtRest.insert_distinct (h : AtRest alloc μ t G) {l a c : ℕ} {e : Entry}
    (hb : G.Belongs l a c e) (hf : Fresh G l e) {lo : WithBot ℤ} {B : List (Cell ℤ ℕ)}
    {p : Page} (hpl : Placed G l lo a B p) :
    Distinct p.leftmostPtr ((G.entries a).insertIdx c e) ∧
    ((G.insertEntry l a c e).contents.map (·.ptr)).Nodup := by
  obtain ⟨x, hx, hxa⟩ := List.mem_map.mp hb.home.mem
  have hwf := h.outline.insertEntry hb
  have hself : (G.insertEntry l a c e).entries a = (G.entries a).insertIdx c e :=
    Function.update_self _ _ _
  cases l with
  | zero =>
    have hperm := (h.outline.insertEntry_increasing hb).2
    have hnodup : ((G.insertEntry 0 a c e).contents.map (·.ptr)).Nodup := by
      rw [(hperm.map (·.ptr)).nodup_iff, List.map_cons, List.nodup_cons]
      refine ⟨?_, h.distinct⟩
      intro hm
      obtain ⟨b, hbm, hbe⟩ := List.mem_map.mp hm
      exact hf.value rfl b hbm hbe
    refine ⟨?_, hnodup⟩
    have hsub : (((G.entries a).insertIdx c e).map (·.ptr)).Sublist
        ((G.insertEntry 0 a c e).contents.map (·.ptr)) := by
      refine List.Sublist.map _ ?_
      obtain ⟨A, B, hAB⟩ := List.append_of_mem hx
      have hAB' : (G.insertEntry 0 a c e).chain 0 = A ++ x :: B := hAB
      rw [Outline.contents, hAB', List.flatMap_append, List.flatMap_cons, hxa, hself]
      exact (List.sublist_append_left _ _).trans (List.sublist_append_right _ _)
    rw [hpl.leftmostPtr, hpl.leaf.mpr rfl]
    refine distinct_of_nodup_cons ?_
    rw [List.nodup_cons]
    refine ⟨?_, hnodup.sublist hsub⟩
    intro hm
    obtain ⟨b, hbm, hbe⟩ := List.mem_map.mp hm
    rcases (List.mem_insertIdx hb.place.le).mp hbm with rfl | hbm
    · exact hf.ne_null hbe
    · rw [← hxa] at hbm
      exact h.value b (mem_contents hx hbm) hbe
  | succ l =>
    refine ⟨?_, by rw [h.outline.insertEntry_contents hb]; exact h.distinct⟩
    have hd := hwf.distinct_refs (l := l) hb.level (x := x) hx
    rw [hxa, hself] at hd
    rw [hpl.leftmostPtr]
    exact hd

theorem AtRest.insert_value (h : AtRest alloc μ t G) {l a c : ℕ} {e : Entry}
    (hb : G.Belongs l a c e) (hf : Fresh G l e) :
    ∀ b ∈ (G.insertEntry l a c e).contents, b.key ≤ longMax ∧ b.ptr ≠ NULL := by
  intro b hbm
  cases l with
  | zero =>
    have hperm := (h.outline.insertEntry_increasing hb).2
    rcases List.mem_cons.mp (hperm.mem_iff.mp hbm) with rfl | hbm
    · exact ⟨hf.key, hf.ne_null⟩
    · exact ⟨h.key_bounded b hbm, h.value b hbm⟩
  | succ l =>
    rw [h.outline.insertEntry_contents hb] at hbm
    exact ⟨h.key_bounded b hbm, h.value b hbm⟩

/-- `insert_key` into one page of a tree that follows an outline. -/
theorem Follows.insert_page (h : Follows alloc (fun _ a _ p => Rests p (G.entries a)) t G)
    (hG : G.Apart) {l a c : ℕ} {e : Entry} (hl : l < G.height) {A B : List (Cell ℤ ℕ)}
    {lo : WithBot ℤ} (hc : G.chain l = A ++ (lo, a) :: B) (hlo : lo ≤ ↑e.key)
    (hplace : Place (G.entries a) e.key c) (he : e.ptr ≠ NULL) {p : Page}
    (hp : t.pages a = some p) (hdist : Distinct p.leftmostPtr ((G.entries a).insertIdx c e))
    (hroom : (G.entries a).length + 1 < cardinality) :
    Follows alloc (fun _ b _ p => Rests p ((G.insertEntry l a c e).entries b))
      (t.run ((p.insertKey e.key e.ptr (G.entries a).length).map (.page a)))
      (G.insertEntry l a c e) := by
  obtain ⟨p', hp', hpl, hrest⟩ := h.page l hl A lo a B hc
  rw [hp] at hp'
  obtain rfl := Option.some.inj hp'
  obtain ⟨himg, hlast, _⟩ := insertKey_spec hrest hroom hplace he hdist
  have hself : (G.insertEntry l a c e).entries a = (G.entries a).insertIdx c e :=
    Function.update_self _ _ _
  have hrun := Btree.run_setPage t a p (p.insertKey e.key e.ptr (G.entries a).length)
  rw [Btree.setPage_self hp] at hrun
  rw [hrun]
  refine h.setPage _ (G.insertEntry l a c e) hG rfl rfl rfl rfl hl hc
    ⟨hpl.touched himg.last.touched hlo, ?_⟩ ?_
  · rw [hself]
    exact hlast
  · intro l' b B' p' hba hr
    have hother : (G.insertEntry l a c e).entries b = G.entries b := Function.update_of_ne hba _ _
    rw [hother]
    exact hr

/-- `insert_key` into a page with room. -/
theorem AtRest.insert_page (h : AtRest alloc μ t G) {l a c : ℕ} {e : Entry}
    (hb : G.Belongs l a c e) (hf : Fresh G l e) {p : Page} (hp : t.pages a = some p)
    (hroom : (G.entries a).length + 1 < cardinality) :
    Always Btree.apply (fun t' => Readable alloc t' G ∨ Readable alloc t' (G.insertEntry l a c e))
      t ((p.insertKey e.key e.ptr (G.entries a).length).map (.page a)) ∧
    AtRest alloc μ (t.run ((p.insertKey e.key e.ptr (G.entries a).length).map (.page a)))
      (G.insertEntry l a c e) := by
  obtain ⟨A, lo, B, hc, hlo, _⟩ := hb.home
  obtain ⟨p', hp', hpl, hrest⟩ := h.follows.page l hb.level A lo a B hc
  rw [hp] at hp'
  obtain rfl := Option.some.inj hp'
  obtain ⟨hdist, hnodup⟩ := h.insert_distinct hb hf hpl
  obtain ⟨himg, _, _⟩ := insertKey_spec hrest hroom hb.place hf.ne_null hdist
  have hwf := h.outline.insertEntry hb
  have hvalue := h.insert_value hb hf
  have hself : (G.insertEntry l a c e).entries a = (G.entries a).insertIdx c e :=
    Function.update_self _ _ _
  have hother : ∀ b, b ≠ a → (G.insertEntry l a c e).entries b = G.entries b :=
    fun b hba => Function.update_of_ne hba _ _
  have hlive : ∀ b ∈ (G.entries a).insertIdx c e, b.ptr ≠ NULL := by
    intro b hbm
    rcases (List.mem_insertIdx hb.place.le).mp hbm with rfl | hbm
    · exact hf.ne_null
    · exact hrest.live b hbm
  constructor
  · have hal := always_setPage (t := t) (a := a) (Q := fun t' => Readable alloc t' G ∨
      Readable alloc t' (G.insertEntry l a c e)) himg ?_
    · rwa [Btree.setPage_self hp] at hal
    · intro x hx
      have hplx := hpl.touched hx.touched hlo
      have hlm := hx.touched.leftmostPtr
      rcases hx.serves with hs | hs
      · have hv : Visible G l a B x (G.entries a) := ⟨hs, hrest.increasing,
          by rw [hlm]; exact hrest.distinct, hrest.live, Or.inl rfl⟩
        have hfol : Follows alloc (fun l a B p => ∃ E, Visible G l a B p E) (t.setPage a x) G :=
          h.follows.setPage _ G h.outline.apart rfl rfl rfl rfl hb.level hc ⟨hplx, _, hv⟩
            (fun _ _ _ _ _ hr => hr.visible)
        exact Or.inl ⟨h.outline, hfol⟩
      · have hv : Visible (G.insertEntry l a c e) l a B x ((G.entries a).insertIdx c e) :=
          ⟨hs, Place.increasing hb.place hrest.increasing, by rw [hlm]; exact hdist, hlive,
            Or.inl hself.symm⟩
        have hfol : Follows alloc (fun l' b B p => ∃ E, Visible (G.insertEntry l a c e) l' b B p E)
            (t.setPage a x) (G.insertEntry l a c e) := by
          refine h.follows.setPage _ (G.insertEntry l a c e) h.outline.apart rfl rfl rfl rfl
            hb.level hc ⟨hplx, _, hv⟩ ?_
          intro l' b B' p' hba hr
          rw [← hother b hba] at hr
          exact hr.visible
        exact Or.inr ⟨hwf, hfol⟩
  · have hfol := h.follows.insert_page h.outline.apart hb.level hc hlo hb.place hf.ne_null hp hdist
      hroom
    have hheight : (t.run ((p.insertKey e.key e.ptr (G.entries a).length).map (.page a))).height
        = t.height := by
      have hrun := Btree.run_setPage t a p (p.insertKey e.key e.ptr (G.entries a).length)
      rw [Btree.setPage_self hp] at hrun
      rw [hrun]
      rfl
    refine ⟨hwf, hfol, fun b hbm => (hvalue b hbm).2, hnodup, hheight.trans h.height,
      h.chain_bounded, fun b hbm => (hvalue b hbm).1, ?_⟩
    intro l' hl' x hx
    rcases h.filled l' hl' x hx with hroot | hle
    · exact Or.inl hroot
    · refine Or.inr (hle.trans ?_)
      by_cases hxa : x.2 = a
      · rw [hxa, hself, List.length_insertIdx_of_le_length hb.place.le]
        omega
      · rw [hother x.2 hxa]

end

end PmemStudy.FastFair
