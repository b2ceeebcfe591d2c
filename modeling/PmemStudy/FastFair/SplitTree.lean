import PmemStudy.FastFair.AtRest

/-!
# FAIR: a split in the tree

The images of a split are readable: with the old outline until the new page is
linked, with the split outline from then on.
-/

namespace PmemStudy.FastFair
open PmemStudy.Slots PmemStudy.Chain PmemStudy.Trace

section
variable {alloc : ℕ → ℕ} {μ : ℕ} {t : Btree} {G : Outline}

theorem nextAddress_append (A2 : List (Cell ℤ ℕ)) (x : Cell ℤ ℕ) (B B' : List (Cell ℤ ℕ)) :
    nextAddress (A2 ++ x :: B) = nextAddress (A2 ++ x :: B') := by
  cases A2 <;> rfl

/-- A place of the split chain: the old page, the new one, or another page as before. -/
theorem split_place {A B A' B' : List (Cell ℤ ℕ)} {lo lo' : WithBot ℤ} {x : Cell ℤ ℕ} {a b : ℕ}
    (hn : ((A ++ (lo, a) :: x :: B).map (·.2)).Nodup)
    (heq : A ++ (lo, a) :: x :: B = A' ++ (lo', b) :: B') :
    (b = a ∧ lo' = lo ∧ B' = x :: B) ∨ (b = x.2 ∧ lo' = x.1 ∧ B' = B) ∨
    (b ≠ a ∧ b ≠ x.2 ∧ ∃ A'' B'', A ++ (lo, a) :: B = A'' ++ (lo', b) :: B'' ∧
      nextAddress B'' = nextAddress B') := by
  have hmem : (lo', b) ∈ A ++ (lo, a) :: x :: B := by
    rw [heq]
    simp
  by_cases hba : b = a
  · subst b
    obtain ⟨_, h2, h3⟩ := place_unique hn heq
    exact Or.inl ⟨rfl, h2.symm, h3.symm⟩
  by_cases hbx : b = x.2
  · have hx : A ++ (lo, a) :: x :: B = (A ++ [(lo, a)]) ++ (x.1, x.2) :: B := by simp
    rw [hx] at hn heq
    rw [hbx] at heq
    obtain ⟨_, h2, h3⟩ := place_unique hn heq
    exact Or.inr (Or.inl ⟨hbx, h2.symm, h3.symm⟩)
  refine Or.inr (Or.inr ⟨hba, hbx, ?_⟩)
  rcases List.mem_append.mp hmem with hm | hm
  · obtain ⟨A1, A2, rfl⟩ := List.append_of_mem hm
    refine ⟨A1, A2 ++ (lo, a) :: B, by simp, ?_⟩
    have heq' : A1 ++ (lo', b) :: (A2 ++ (lo, a) :: x :: B) = A' ++ (lo', b) :: B' := by
      simpa using heq
    have hn' : ((A1 ++ (lo', b) :: (A2 ++ (lo, a) :: x :: B)).map (·.2)).Nodup := by
      simpa using hn
    obtain ⟨_, _, h3⟩ := place_unique hn' heq'
    rw [← h3]
    exact nextAddress_append A2 (lo, a) B (x :: B)
  · rcases List.mem_cons.mp hm with hm | hm
    · exact absurd (Prod.mk.inj hm).2 hba
    rcases List.mem_cons.mp hm with hm | hm
    · exact absurd (congrArg Prod.snd hm) hbx
    obtain ⟨B1, B2, rfl⟩ := List.append_of_mem hm
    have heq' : (A ++ (lo, a) :: x :: B1) ++ (lo', b) :: B2 = A' ++ (lo', b) :: B' := by
      simpa using heq
    have hn' : (((A ++ (lo, a) :: x :: B1) ++ (lo', b) :: B2).map (·.2)).Nodup := by
      simpa using hn
    obtain ⟨_, _, h3⟩ := place_unique hn' heq'
    exact ⟨A ++ (lo, a) :: B1, B2, by simp, by rw [h3]⟩

/-- `G'` is `G` with the page `x` put behind the page at `a` of level `l`. -/
structure Outline.Cuts (G G' : Outline) (l : ℕ) (A B : List (Cell ℤ ℕ)) (lo : WithBot ℤ) (a : ℕ)
    (x : Cell ℤ ℕ) : Prop where
  height : G'.height = G.height
  root : G'.root = G.root
  level : l < G.height
  chain : G.chain l = A ++ (lo, a) :: B
  chain_cut : G'.chain l = A ++ (lo, a) :: x :: B
  chain_other : ∀ l', l' ≠ l → G'.chain l' = G.chain l'
  leftmost : ∀ c, c ≠ x.2 → G'.leftmost c = G.leftmost c
  fresh : ∀ l' < G.height, ∀ y ∈ G.chain l', y.2 ≠ x.2

theorem Outline.Cuts.ne {G' : Outline} {l a : ℕ} {A B : List (Cell ℤ ℕ)} {lo : WithBot ℤ}
    {x : Cell ℤ ℕ} (hs : G.Cuts G' l A B lo a x) : a ≠ x.2 :=
  hs.fresh l hs.level (lo, a) (by rw [hs.chain]; simp)

/-- The new page has no place yet. -/
theorem Outline.Cuts.nodup {G' : Outline} {l a : ℕ} {A B : List (Cell ℤ ℕ)} {lo : WithBot ℤ}
    {x : Cell ℤ ℕ} (hs : G.Cuts G' l A B lo a x) (hG : G.Apart) :
    ((A ++ (lo, a) :: x :: B).map (·.2)).Nodup := by
  have hn := hG.nodup l hs.level
  have hfresh := hs.fresh l hs.level
  rw [hs.chain] at hn hfresh
  have hperm : (A ++ (lo, a) :: x :: B).Perm (x :: (A ++ (lo, a) :: B)) := by
    have h1 : A ++ (lo, a) :: x :: B = (A ++ [(lo, a)]) ++ x :: B := by simp
    have h2 : A ++ (lo, a) :: B = (A ++ [(lo, a)]) ++ B := by simp
    rw [h1, h2]
    exact List.perm_middle
  rw [(hperm.map (·.2)).nodup_iff, List.map_cons, List.nodup_cons]
  refine ⟨?_, hn⟩
  intro hm
  obtain ⟨y, hy, hyx⟩ := List.mem_map.mp hm
  exact hfresh y hy hyx

theorem Follows.cut {R : ℕ → ℕ → List (Cell ℤ ℕ) → Page → Prop} (h : Follows alloc R t G)
    (R' : ℕ → ℕ → List (Cell ℤ ℕ) → Page → Prop) (hG : G.Apart) {G' : Outline} {l a : ℕ}
    {A B : List (Cell ℤ ℕ)} {lo : WithBot ℤ} {x : Cell ℤ ℕ} (hs : G.Cuts G' l A B lo a x)
    {t' : Btree} (hr : t'.root = t.root)
    (hal : t.allocated < t'.allocated) (hb : x.2 = alloc t.allocated)
    (hpages : ∀ c, c ≠ a → c ≠ x.2 → t'.pages c = t.pages c)
    (hold : ∃ p, t'.pages a = some p ∧ Placed G' l lo a (x :: B) p ∧ R' l a (x :: B) p)
    (hnew : ∃ p, t'.pages x.2 = some p ∧ Placed G' l x.1 x.2 B p ∧ R' l x.2 B p)
    (hR : ∀ l' c B' B'' p, c ≠ a → c ≠ x.2 → R l' c B' p → R' l' c B'' p) :
    Follows alloc R' t' G' := by
  have hplaced : ∀ l' lo' c B' B'' p, c ≠ x.2 → nextAddress B'' = nextAddress B' →
      Placed G l' lo' c B'' p → Placed G' l' lo' c B' p := by
    intro l' lo' c B' B'' p hcb hnext hp
    have hlm := hs.leftmost c hcb
    exact ⟨hp.level, hp.live, by rw [hlm]; exact hp.leftmostPtr, by rw [hlm]; exact hp.leaf,
      by rw [← hnext]; exact hp.siblingPtr, hp.keys⟩
  have ha : a ∈ (G.chain l).map (·.2) := by
    rw [hs.chain]
    simp
  refine ⟨(hr.trans h.root).trans hs.root.symm, ?_, ?_⟩
  · intro l' hl' A' lo' c B' hc'
    rw [hs.height] at hl'
    by_cases hll : l' = l
    · subst l'
      rw [hs.chain_cut] at hc'
      rcases split_place (hs.nodup hG) hc' with ⟨rfl, rfl, rfl⟩ | ⟨rfl, rfl, rfl⟩ |
        ⟨hca, hcb, A'', B'', h1, h2⟩
      · exact hold
      · exact hnew
      · obtain ⟨p, hp, hpl, hRp⟩ := h.page l hl' A'' lo' c B'' (hs.chain.trans h1)
        exact ⟨p, (hpages c hca hcb).trans hp, hplaced l lo' c B' B'' p hcb h2 hpl,
          hR l c B'' B' p hca hcb hRp⟩
    · rw [hs.chain_other l' hll] at hc'
      have hx : ((lo', c) : Cell ℤ ℕ) ∈ G.chain l' := by
        rw [hc']
        simp
      have hca : c ≠ a := hG.ne_of_level hl' hs.level hll ha hx
      have hcb : c ≠ x.2 := hs.fresh l' hl' (lo', c) hx
      obtain ⟨p, hp, hpl, hRp⟩ := h.page l' hl' A' lo' c B' hc'
      exact ⟨p, (hpages c hca hcb).trans hp, hplaced l' lo' c B' B' p hcb rfl hpl,
        hR l' c B' B' p hca hcb hRp⟩
  · intro l' hl' y hy
    rw [hs.height] at hl'
    have hmem : y = x ∨ y ∈ G.chain l' := by
      by_cases hll : l' = l
      · subst l'
        rw [hs.chain_cut] at hy
        rw [hs.chain]
        simp only [List.mem_append, List.mem_cons] at hy ⊢
        tauto
      · rw [hs.chain_other l' hll] at hy
        exact Or.inr hy
    rcases hmem with rfl | hy
    · exact ⟨t.allocated, hal, hb⟩
    · obtain ⟨i, hi, hxi⟩ := h.address l' hl' y hy
      exact ⟨i, by omega, hxi⟩

theorem Outline.WellFormed.cuts (hG : G.WellFormed) {l a b : ℕ} {s : ℤ} {lm : ℕ}
    {left right : List Entry} (hs : G.Splits l a b s lm left right) {A B : List (Cell ℤ ℕ)}
    {lo : WithBot ℤ} (hc : G.chain l = A ++ (lo, a) :: B) :
    G.Cuts (G.splitPage l a b s lm left right) l A B lo a (↑s, b) :=
  ⟨rfl, rfl, hs.level, hc, (Function.update_self _ _ _).trans (hs.chain_eq hG hc).2.2,
    fun _ hne => Function.update_of_ne hne _ _, fun _ hne => Function.update_of_ne hne _ _,
    hs.fresh⟩

/-- The address of the next page is not in use. -/
theorem Follows.unused {R : ℕ → ℕ → List (Cell ℤ ℕ) → Page → Prop} (h : Follows alloc R t G)
    (hal : Allocator alloc) {n : ℕ} (hn : t.allocated ≤ n) :
    ∀ l < G.height, ∀ x ∈ G.chain l, x.2 ≠ alloc n := by
  intro l hl x hx hxn
  obtain ⟨i, hi, hxi⟩ := h.address l hl x hx
  have := hal.injective (hxi.symm.trans hxn)
  omega

/-- The cut of a full page: 14 records stay, the 15th key is the separator. -/
theorem AtRest.splits (h : AtRest alloc μ t G) (hal : Allocator alloc) {l : ℕ}
    (hl : l < G.height) {A B : List (Cell ℤ ℕ)} {lo : WithBot ℤ} {a : ℕ}
    (hc : G.chain l = A ++ (lo, a) :: B) (hpend : G.pending l = none) {p : Page}
    (hp : t.pages a = some p) (hfull : (G.entries a).length = cardinality - 1) :
    G.Splits l a (alloc t.allocated) (p.records 14).key
      (if p.leftmostPtr = NULL then NULL else (p.records 14).ptr) ((G.entries a).take 14)
      ((G.entries a).drop (if p.leftmostPtr = NULL then 14 else 15)) := by
  obtain ⟨p', hp', hpl, hrest⟩ := h.follows.page l hl A lo a B hc
  rw [hp] at hp'
  obtain rfl := Option.some.inj hp'
  have hlen : (G.entries a).length = 29 := hfull
  have hrec := hrest.record 14 (by omega)
  have hleaf : p.leftmostPtr = NULL ↔ l = 0 := by
    rw [hpl.leftmostPtr]
    exact hpl.leaf
  have hdrop : (G.entries a).drop 14 = (G.entries a)[14] :: (G.entries a).drop 15 :=
    List.drop_eq_getElem_cons (by omega)
  refine ⟨hl, by rw [hc]; simp, hpend, h.follows.unused hal (Nat.le_refl _), ?_, ?_, ?_, ?_⟩
  · intro hnil
    have := congrArg List.length hnil
    rw [List.length_take, hlen, List.length_nil] at this
    omega
  · intro hnil
    have := congrArg List.length hnil
    rw [List.length_drop, hlen, List.length_nil] at this
    split at this <;> omega
  · by_cases h0 : l = 0
    · rw [if_pos h0, if_pos (hleaf.mpr h0), List.take_append_drop]
    · have hne : ¬ p.leftmostPtr = NULL := fun hc => h0 (hleaf.mp hc)
      rw [if_neg h0, if_neg hne, if_neg hne, hrec]
      show G.entries a = (G.entries a).take 14 ++ (G.entries a)[14] :: (G.entries a).drop 15
      rw [← hdrop, List.take_append_drop]
  · intro h0
    rw [if_pos (hleaf.mpr h0), hrec]
    exact ⟨(G.entries a)[14].ptr, (G.entries a).drop 15, hdrop⟩

theorem newPage_run (t : Btree) (b : ℕ) (p : Page) :
    t.apply (.newPage b p) = (t.apply (.newPage b p)).setPage b p := by
  rw [Btree.setPage_self]
  exact Function.update_self _ _ _

/-- Writing to a page outside of the outline. -/
theorem AtRest.outside (h : AtRest alloc μ t G) (hal : Allocator alloc) (q x : Page) :
    AtRest alloc μ ((t.apply (.newPage (alloc t.allocated) q)).setPage (alloc t.allocated) x) G := by
  refine ⟨h.outline, h.follows.frame rfl (Nat.le_succ _) ?_, h.value, h.distinct, h.height,
    h.chain_bounded, h.key_bounded, h.filled⟩
  intro l hl y hy
  have hne := h.follows.unused hal (Nat.le_refl _) l hl y hy
  show Function.update (Function.update t.pages _ _) _ _ y.2 = _
  rw [Function.update_of_ne hne, Function.update_of_ne hne]

/-- The tree with the finished new page at `b` and the page `y` at `a`. -/
def Btree.splitTree (t : Btree) (a b : ℕ) (p y : Page) : Btree :=
  ((t.apply (.newPage b (Page.new p.level))).setPage b
    ((Page.new p.level).run (Btree.siblingStores p 29 14))).setPage a y

theorem Btree.splitTree_run (t : Btree) (a b : ℕ) (p y : Page) (l : List PageStore) :
    (t.splitTree a b p y).run (l.map (.page a)) = t.splitTree a b p (y.run l) :=
  Btree.run_setPage _ a y l

/-- The new page is finished before it is linked. -/
theorem Btree.splitTree_start {a b : ℕ} {p : Page} (hp : t.pages a = some p) (hab : a ≠ b) :
    (t.apply (.newPage b (Page.new p.level))).run ((Btree.siblingStores p 29 14).map (.page b))
      = t.splitTree a b p p := by
  have hpa : ((t.apply (.newPage b (Page.new p.level))).setPage b
      ((Page.new p.level).run (Btree.siblingStores p 29 14))).pages a = some p := by
    show Function.update (Function.update t.pages _ _) _ _ a = _
    rw [Function.update_of_ne hab, Function.update_of_ne hab]
    exact hp
  rw [Btree.splitTree, Btree.setPage_self hpa, ← Btree.run_setPage, ← newPage_run]

theorem Btree.splitStores_run {a b : ℕ} {p : Page} (hp : t.pages a = some p) (hab : a ≠ b) :
    t.run (Btree.splitStores a b p 29 14)
      = t.splitTree a b p ((p.apply (.siblingPtr b)).run (Btree.truncateStores p 14)) := by
  have h1 : t.run (Btree.splitStores a b p 29 14)
      = ((t.apply (.newPage b (Page.new p.level))).run
        ((Btree.siblingStores p 29 14).map (.page b))).run
          ((.siblingPtr b :: Btree.truncateStores p 14).map (.page a)) := by
    rw [Btree.splitStores, Btree.run, List.foldl_append]
    rfl
  rw [h1, Btree.splitTree_start hp hab, Btree.splitTree_run]
  rfl

/-- What the two pages of a split hold: the new page is at `b`, its bound is the
separator. -/
structure Outline.Halves (G G' : Outline) (l : ℕ) (A B : List (Cell ℤ ℕ)) (lo : WithBot ℤ) (a : ℕ)
    (s : ℤ) (b : ℕ) (p : Page) : Prop extends G.Cuts G' l A B lo a (↑s, b) where
  separator : s = (p.records 14).key
  leftmost_new : G'.leftmost b = if p.leftmostPtr = NULL then NULL else (p.records 14).ptr
  left : G'.entries a = (G.entries a).take 14
  right : G'.entries b = (G.entries a).drop (if p.leftmostPtr = NULL then 14 else 15)

theorem Rests.right_half {p : Page} {es : List Entry} (h : Rests p es) (hlen : es.length = 29)
    {n : ℕ} (hn : 14 ≤ n) : ∀ e ∈ es.drop n, (p.records 14).key ≤ e.key := by
  intro e he
  obtain ⟨i, hi, rfl⟩ := List.mem_drop_iff_getElem.mp he
  rw [h.record 14 (by omega)]
  rcases Nat.eq_or_lt_of_le (show 14 ≤ n + i by omega) with heq | hlt
  · simp only [← heq]
    exact le_refl _
  · exact (List.pairwise_iff_getElem.mp h.increasing _ _ (by omega) (by omega) hlt).le

/-- The tree follows the cut outline from the link of the new page on. -/
theorem Follows.halves (h : Follows alloc (fun _ a _ p => Rests p (G.entries a)) t G)
    (R' : ℕ → ℕ → List (Cell ℤ ℕ) → Page → Prop) (hG : G.Apart) {G' : Outline} {l a b : ℕ}
    {A B : List (Cell ℤ ℕ)} {lo : WithBot ℤ} {s : ℤ} {p : Page} (hp : t.pages a = some p)
    (hs : G.Halves G' l A B lo a s b p) (hb : b = alloc t.allocated)
    (hfull : (G.entries a).length = cardinality - 1) (hbound : s ≤ longMax) {y : Page}
    (hy : Touched (p.records 0).key (p.apply (.siblingPtr b)) y) (hRy : R' l a ((↑s, b) :: B) y)
    (hRx : ∀ x, Rests x (G'.entries b) → R' l b B x)
    (hR : ∀ l' c B' q, c ≠ a → c ≠ b → Rests q (G.entries c) → R' l' c B' q) :
    Follows alloc R' (t.splitTree a b p y) G' := by
  obtain ⟨p', hp', hpl, hrest⟩ := h.page l hs.level A lo a B hs.chain
  rw [hp] at hp'
  obtain rfl := Option.some.inj hp'
  have hlen : (G.entries a).length = 29 := hfull
  have hab : a ≠ b := hs.ne
  have hnewp := siblingStores_spec hrest (m := 14) (by omega)
  rw [hlen] at hnewp
  have hleaf : p.leftmostPtr = NULL ↔ l = 0 := by
    rw [hpl.leftmostPtr]
    exact hpl.leaf
  have hlma : G'.leftmost a = G.leftmost a := hs.leftmost a hab
  refine h.cut R' hG hs.toCuts rfl (Nat.lt_succ_self _) hb ?_ ⟨y, ?_, ?_, hRy⟩
    ⟨(Page.new p.level).run (Btree.siblingStores p 29 14), ?_, ?_, hRx _ ?_⟩
    (fun l' c B' B'' q hca hcb hr => hR l' c B'' q hca hcb hr)
  · intro c hca hcb
    show Function.update (Function.update (Function.update t.pages _ _) _ _) _ _ c = _
    rw [Function.update_of_ne hca, Function.update_of_ne hcb, Function.update_of_ne hcb]
  · exact Function.update_self _ _ _
  · refine ⟨hy.level.trans hpl.level, hy.isDeleted.trans hpl.live,
      (hy.leftmostPtr.trans hpl.leftmostPtr).trans hlma.symm, by rw [hlma]; exact hpl.leaf,
      hy.siblingPtr, ?_⟩
    intro i
    rcases hy.keys i with ⟨j, hj⟩ | hk
    · rw [hj]
      exact hpl.keys j
    · rw [hk]
      exact hpl.keys 0
  · exact (Function.update_of_ne hab.symm _ _).trans (Function.update_self _ _ _)
  · refine ⟨hnewp.level.trans hpl.level, hnewp.live, hnewp.leftmostPtr.trans hs.leftmost_new.symm,
      ?_, hnewp.siblingPtr.trans hpl.siblingPtr, ?_⟩
    · rw [hs.leftmost_new]
      by_cases h0 : p.leftmostPtr = NULL
      · rw [if_pos h0]
        exact ⟨fun _ => hleaf.mp h0, fun _ => rfl⟩
      · rw [if_neg h0, hrest.record 14 (by omega)]
        exact ⟨fun hc => absurd hc (hrest.live _ (List.getElem_mem _)),
          fun hc => absurd (hleaf.mpr hc) h0⟩
    · intro i
      rcases hnewp.keys i with hk | ⟨e, he, hk⟩
      · rw [hk]
        exact WithBot.coe_le_coe.mpr hbound
      · rw [hk, hs.separator]
        exact WithBot.coe_le_coe.mpr (hrest.right_half hlen (by split <;> omega) e he)
  · rw [hs.right]
    exact hnewp.rests

/-- A split of a full page. -/
theorem AtRest.split_page (h : AtRest alloc μ t G) (hal : Allocator alloc) (hμ : μ ≤ 14) {l : ℕ}
    (hl : l < G.height) {a : ℕ} (ha : a ∈ (G.chain l).map (·.2)) (hpend : G.pending l = none)
    {p : Page} (hp : t.pages a = some p) (hfull : (G.entries a).length = cardinality - 1) :
    ∃ (s : ℤ) (lm : ℕ) (left right : List Entry), s = (p.records 14).key ∧
      G.Splits l a (alloc t.allocated) s lm left right ∧ left.length = 14 ∧
      14 ≤ right.length ∧ right.length ≤ 15 ∧ right.length = (Btree.movedRecords p 29 14).length ∧
      Always Btree.apply (fun t' => Readable alloc t' G ∨
          Readable alloc t' (G.splitPage l a (alloc t.allocated) s lm left right)) t
        (Btree.splitStores a (alloc t.allocated) p 29 14) ∧
      AtRest alloc μ (t.run (Btree.splitStores a (alloc t.allocated) p 29 14))
        (G.splitPage l a (alloc t.allocated) s lm left right) ∧
      t.root = (t.run (Btree.splitStores a (alloc t.allocated) p 29 14)).root := by
  obtain ⟨x, hx, rfl⟩ := List.mem_map.mp ha
  obtain ⟨A, B, hAB⟩ := List.append_of_mem hx
  obtain ⟨lo, a⟩ := x
  obtain ⟨p', hp', hpl, hrest⟩ := h.follows.page l hl A lo a B hAB
  rw [hp] at hp'
  obtain rfl := Option.some.inj hp'
  have hlen : (G.entries a).length = 29 := hfull
  have hs := h.splits hal hl hAB hpend hp hfull
  have hab : a ≠ alloc t.allocated := hs.fresh l hl _ hx
  have hnewp := siblingStores_spec hrest (m := 14) (by omega)
  rw [hlen] at hnewp
  have hmoved := movedRecords_eq hrest.toPlain 14
  rw [hlen] at hmoved
  obtain ⟨him, hcut⟩ := truncateStores_spec (hrest.setSibling (alloc t.allocated)) (m := 14)
    (by omega) (by omega) (p.records 0).key
  obtain ⟨left, hleft⟩ : ∃ left, left = (G.entries a).take 14 := ⟨_, rfl⟩
  obtain ⟨right, hright⟩ : ∃ right, right = (G.entries a).drop
    (if p.leftmostPtr = NULL then 14 else 15) := ⟨_, rfl⟩
  obtain ⟨lm, hlm⟩ : ∃ lm, lm = if p.leftmostPtr = NULL then NULL else (p.records 14).ptr :=
    ⟨_, rfl⟩
  obtain ⟨b, hb⟩ : ∃ b, b = alloc t.allocated := ⟨_, rfl⟩
  obtain ⟨s, hsep⟩ : ∃ s, s = (p.records 14).key := ⟨_, rfl⟩
  have hxrest := hnewp.rests
  rw [← hright] at hxrest
  have hxlm : (Page.new p.level |>.run (Btree.siblingStores p 29 14)).leftmostPtr = lm :=
    hnewp.leftmostPtr.trans hlm.symm
  rw [← hleft, ← hright, ← hlm, ← hsep, ← hb] at hs
  rw [← hright] at hmoved
  rw [← hleft] at hcut him
  rw [← hb] at hab him hcut ⊢
  have hllen : left.length = 14 := by
    rw [hleft, List.length_take, hlen]
    rfl
  have hrlen : 14 ≤ right.length ∧ right.length ≤ 15 := by
    rw [hright, List.length_drop, hlen]
    split <;> omega
  refine ⟨s, lm, left, right, hsep, hs, hllen, hrlen.1, hrlen.2, by rw [hmoved], ?_⟩
  have hwf := h.outline.splitPage hs
  have hself : (G.splitPage l a b s lm left right).entries b = right := Function.update_self _ _ _
  have hlmb : (G.splitPage l a b s lm left right).leftmost b = lm := Function.update_self _ _ _
  have hold : (G.splitPage l a b s lm left right).entries a = left := by
    show Function.update (Function.update G.entries a left) b right a = left
    rw [Function.update_of_ne hab, Function.update_self]
  have hother : ∀ c, c ≠ a → c ≠ b →
      (G.splitPage l a b s lm left right).entries c = G.entries c := by
    intro c hca hcb
    show Function.update (Function.update G.entries a left) b right c = _
    rw [Function.update_of_ne hcb, Function.update_of_ne hca]
  have hbound : s ≤ longMax := by
    obtain ⟨e, he, hes⟩ := (hs.keys h.outline).2.2.1
    rw [← hes]
    exact h.entry_bounded hl hx he
  have hhalves : G.Halves (G.splitPage l a b s lm left right) l A B lo a s b p :=
    ⟨h.outline.cuts hs hAB, hsep, hlmb.trans hlm, hold.trans hleft, hself.trans hright⟩
  have hvalue : ∀ e ∈ (G.splitPage l a b s lm left right).contents, e.ptr ≠ NULL := by
    rw [h.outline.splitPage_contents hs]
    exact h.value
  have hreadable : ∀ y, Touched (p.records 0).key (p.apply (.siblingPtr b)) y ∧
      (Serves y (G.entries a) ∨ Serves y left) →
      Readable alloc (t.splitTree a b p y) (G.splitPage l a b s lm left right) := by
    rintro y ⟨hy, hserves⟩
    refine ⟨hwf, h.follows.halves _ h.outline.apart hp hhalves hb hfull hbound hy ?_
      (fun x hr => hr.visible) ?_⟩
    · have hylm : y.leftmostPtr = p.leftmostPtr := hy.leftmostPtr
      rcases hserves with hsv | hsv
      · refine ⟨G.entries a, hsv, hrest.increasing, by rw [hylm]; exact hrest.distinct,
          hrest.live, Or.inr ⟨s, b, B, rfl, ?_⟩⟩
        rw [hold, Outline.behind, hself, hlmb]
        exact hs.entries
      · have hsub : left.Sublist (G.entries a) := by
          rw [hleft]
          exact List.take_sublist _ _
        refine ⟨left, hsv, hrest.increasing.sublist hsub, ?_, fun e he =>
          hrest.live e (hsub.mem he), Or.inl hold.symm⟩
        have hd := hrest.distinct
        rw [hs.entries] at hd
        rw [hylm]
        exact hd.left
    · intro l' c B' q hca hcb hr
      rw [← hother c hca hcb] at hr
      exact hr.visible
  -- before the link nothing is seen of the new page
  have houtside : ∀ z, AtRest alloc μ ((t.apply (.newPage b (Page.new p.level))).setPage b z) G := by
    intro z
    rw [hb]
    exact h.outside hal _ z
  have hTp : t.splitTree a b p p = (t.apply (.newPage b (Page.new p.level))).setPage b
      ((Page.new p.level).run (Btree.siblingStores p 29 14)) := by
    rw [← Btree.splitTree_start hp hab, ← Btree.run_setPage, ← newPage_run]
  have himages : Always Btree.apply (fun t' => Readable alloc t' G ∨
      Readable alloc t' (G.splitPage l a b s lm left right)) (t.splitTree a b p p)
      ((.siblingPtr b :: Btree.truncateStores p 14).map (.page a)) := by
    refine always_setPage (P := fun y => y = p ∨ (Touched (p.records 0).key
      (p.apply (.siblingPtr b)) y ∧ (Serves y (G.entries a) ∨ Serves y left))) ?_ ?_
    · rw [always_cons]
      exact ⟨Or.inl rfl, him.mono (fun y hy => Or.inr hy)⟩
    · rintro y (rfl | hy)
      · show Readable alloc (t.splitTree a b y y) G ∨ _
        rw [hTp]
        exact Or.inl (houtside _).readable
      · exact Or.inr (hreadable y hy)
  have hend := Btree.splitStores_run hp hab
  refine ⟨?_, ?_, by rw [hend]; rfl⟩
  · rw [Btree.splitStores, always_append, always_cons]
    refine ⟨⟨Or.inl h.readable, ?_⟩, ?_⟩
    · rw [newPage_run]
      exact always_setPage (P := fun _ => True) (fun _ => trivial)
        (fun z _ => Or.inl (houtside z).readable)
    · have h1 : List.foldl Btree.apply t (.newPage b (Page.new p.level) ::
          (Btree.siblingStores p 29 14).map (.page b)) = t.splitTree a b p p :=
        Btree.splitTree_start hp hab
      rw [h1]
      exact himages
  · rw [hend]
    have hstrong := h.follows.halves
      (fun _ c _ q => Rests q ((G.splitPage l a b s lm left right).entries c)) h.outline.apart hp
      hhalves hb hfull hbound him.last.1 (by rw [hold]; exact hcut) (fun x hr => hr)
      (fun l' c B' q hca hcb hr => by rw [hother c hca hcb]; exact hr)
    have hcont := h.outline.splitPage_contents hs
    have hupd : (G.splitPage l a b s lm left right).chain l = Chain.insert ⟨s, b⟩ (G.chain l) :=
      Function.update_self _ _ _
    have hmem : ∀ l', ∀ y ∈ (G.splitPage l a b s lm left right).chain l',
        y = (↑s, b) ∨ y ∈ G.chain l' := by
      intro l' y hy
      by_cases hll : l' = l
      · subst l'
        rw [hupd] at hy
        exact mem_insert.mp hy
      · rw [show (G.splitPage l a b s lm left right).chain l' = G.chain l' from
          Function.update_of_ne hll _ _] at hy
        exact Or.inr hy
    refine ⟨hwf, hstrong, hvalue, by rw [hcont]; exact h.distinct, h.height, ?_,
      by rw [hcont]; exact h.key_bounded, ?_⟩
    · intro l' hl' y hy
      rcases hmem l' y hy with rfl | hy
      · exact WithBot.coe_le_coe.mpr hbound
      · exact h.chain_bounded l' hl' y hy
    · intro l' hl' y hy
      by_cases hyb : y.2 = b
      · rw [hyb, hself]
        exact Or.inr (hμ.trans hrlen.1)
      · by_cases hya : y.2 = a
        · rw [hya, hold, hllen]
          exact Or.inr hμ
        · rw [hother y.2 hya hyb]
          rcases hmem l' y hy with rfl | hy
          · exact absurd rfl hyb
          · exact h.filled l' hl' y hy

end

end PmemStudy.FastFair
