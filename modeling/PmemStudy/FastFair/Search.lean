import PmemStudy.Lib.Loop
import PmemStudy.FastFair.Outline

/-!
# Searches in a tree

A tree follows an outline when its pages have the links and entries of the
outline. An image in the middle of an insertion still does, up to a page whose
moved records are not cut off yet; that is enough for `btree_search`.
-/

namespace PmemStudy.FastFair
open PmemStudy.Slots PmemStudy.Chain PmemStudy.Loop

/-- What the addresses of `operator new` have to be. -/
structure Allocator (alloc : ℕ → ℕ) : Prop where
  injective : Function.Injective alloc
  ne_null : ∀ i, alloc i ≠ NULL

def nextAddress (B : List (Cell ℤ ℕ)) : ℕ := (B.head?.map (·.2)).getD NULL

/-- The page at `a` has its place in level `l`: its bound is `lo`, `B` is to its right. -/
structure Placed (G : Outline) (l : ℕ) (lo : WithBot ℤ) (a : ℕ) (B : List (Cell ℤ ℕ)) (p : Page) :
    Prop where
  level : p.level = l
  live : p.isDeleted = false
  leftmostPtr : p.leftmostPtr = G.leftmost a
  leaf : G.leftmost a = NULL ↔ l = 0
  siblingPtr : p.siblingPtr = nextAddress B
  keys : ∀ i, lo ≤ ↑(p.records i).key

/-- The tree has the links of the outline; `R` says what its records are. -/
structure Follows (alloc : ℕ → ℕ) (R : ℕ → ℕ → List (Cell ℤ ℕ) → Page → Prop) (t : Btree)
    (G : Outline) : Prop where
  root : t.root = G.root
  page : ∀ l < G.height, ∀ (A : List (Cell ℤ ℕ)) lo a (B : List (Cell ℤ ℕ)),
    G.chain l = A ++ (lo, a) :: B → ∃ p, t.pages a = some p ∧ Placed G l lo a B p ∧ R l a B p
  address : ∀ l < G.height, ∀ x ∈ G.chain l, ∃ i < t.allocated, x.2 = alloc i

theorem Follows.mono {alloc : ℕ → ℕ} {R R' : ℕ → ℕ → List (Cell ℤ ℕ) → Page → Prop} {t : Btree}
    {G : Outline} (h : Follows alloc R t G)
    (hr : ∀ l < G.height, ∀ A lo a B p, G.chain l = A ++ (lo, a) :: B → Placed G l lo a B p →
      R l a B p → R' l a B p) : Follows alloc R' t G := by
  refine ⟨h.root, ?_, h.address⟩
  intro l hl A lo a B hc
  obtain ⟨p, h1, h2, h3⟩ := h.page l hl A lo a B hc
  exact ⟨p, h1, h2, hr l hl A lo a B p hc h2 h3⟩

/-- What a page still shows of its right neighbour `(s, b)` before it is cut off. -/
def Outline.behind (G : Outline) (l : ℕ) (s : ℤ) (b : ℕ) : List Entry :=
  if l = 0 then G.entries b else ⟨s, G.leftmost b⟩ :: G.entries b

/-- The page answers with its entries, or with them and those of its neighbour. -/
structure Visible (G : Outline) (l a : ℕ) (B : List (Cell ℤ ℕ)) (p : Page) (E : List Entry) :
    Prop where
  serves : Serves p E
  increasing : Increasing E
  distinct : Distinct p.leftmostPtr E
  live : ∀ e ∈ E, e.ptr ≠ NULL
  entries : E = G.entries a ∨ ∃ (s : ℤ) (b : ℕ) (B' : List (Cell ℤ ℕ)), B = (↑s, b) :: B' ∧
    E = G.entries a ++ G.behind l s b

/-- An image of a tree that readers can use. -/
structure Readable (alloc : ℕ → ℕ) (t : Btree) (G : Outline) : Prop where
  outline : G.WellFormed
  follows : Follows alloc (fun l a B p => ∃ E, Visible G l a B p E) t G

def Open (t : Btree) (k : ℤ) (a : ℕ) : Prop := ∃ p, t.pages a = some p ∧ (p.records 0).key ≤ k

theorem Visible.subset {G : Outline} {l a : ℕ} {B : List (Cell ℤ ℕ)} {p : Page} {E : List Entry}
    (h : Visible G l a B p E) : ∀ e ∈ G.entries a, e ∈ E := by
  intro e he
  rcases h.entries with rfl | ⟨s, b, B', _, rfl⟩
  · exact he
  · exact List.mem_append_left _ he

theorem Visible.distinct_entries {G : Outline} {l a : ℕ} {B : List (Cell ℤ ℕ)} {p : Page}
    {E : List Entry} (h : Visible G l a B p E) : Distinct p.leftmostPtr (G.entries a) := by
  have hd := h.distinct
  rcases h.entries with rfl | ⟨s, b, B', _, rfl⟩
  · exact hd
  · exact hd.left

/-! ### linear_search -/

theorem linearSearch_node {t : Btree} {a : ℕ} {p : Page} {k : ℤ} (hp : t.pages a = some p)
    (hl : p.leftmostPtr ≠ NULL) (hs : p.search k ≠ NULL)
    (hsib : p.siblingPtr = NULL ∨
      ∃ s, t.pages p.siblingPtr = some s ∧ ¬ (s.records 0).key ≤ k) :
    t.linearSearch a k = some (p.search k) := by
  rw [Btree.linearSearch, hp, Option.bind_eq_bind, Option.bind_some, Page.linearSearch]
  simp only [if_neg hl]
  rcases hsib with h0 | ⟨s, hs', hk⟩
  · rw [if_neg (not_not.mpr h0), if_pos hs]
  · by_cases h0 : p.siblingPtr = NULL
    · rw [if_neg (not_not.mpr h0), if_pos hs]
    · rw [if_pos h0, hs', Option.bind_eq_bind, Option.bind_some, if_neg hk, if_pos hs]

theorem linearSearch_right {t : Btree} {a : ℕ} {p s : Page} {k : ℤ} (hp : t.pages a = some p)
    (hs : p.leftmostPtr = NULL → p.search k = NULL) (h0 : p.siblingPtr ≠ NULL)
    (hsib : t.pages p.siblingPtr = some s) (hk : (s.records 0).key ≤ k) :
    t.linearSearch a k = some p.siblingPtr := by
  rw [Btree.linearSearch, hp, Option.bind_eq_bind, Option.bind_some, Page.linearSearch]
  by_cases hl : p.leftmostPtr = NULL
  · simp only [if_pos hl, hs hl]
    rw [if_neg (by simp), if_pos h0, hsib, Option.bind_eq_bind, Option.bind_some, if_pos hk]
  · simp only [if_neg hl]
    rw [if_pos h0, hsib, Option.bind_eq_bind, Option.bind_some, if_pos hk]

theorem linearSearch_stop {t : Btree} {a : ℕ} {p : Page} {k : ℤ} (hp : t.pages a = some p)
    (hl : p.leftmostPtr = NULL) (hs : p.search k = NULL)
    (hsib : p.siblingPtr = NULL ∨
      ∃ s, t.pages p.siblingPtr = some s ∧ ¬ (s.records 0).key ≤ k) :
    t.linearSearch a k = some NULL := by
  rw [Btree.linearSearch, hp, Option.bind_eq_bind, Option.bind_some, Page.linearSearch]
  simp only [if_pos hl, hs]
  rw [if_neg (by simp)]
  rcases hsib with h0 | ⟨s, hs', hk⟩
  · rw [if_neg (not_not.mpr h0)]
  · by_cases h0 : p.siblingPtr = NULL
    · rw [if_neg (not_not.mpr h0)]
    · rw [if_pos h0, hs', Option.bind_eq_bind, Option.bind_some, if_neg hk]

theorem linearSearch_leaf {t : Btree} {a : ℕ} {p : Page} {k : ℤ} (hp : t.pages a = some p)
    (hl : p.leftmostPtr = NULL) (hs : p.search k ≠ NULL) :
    t.linearSearch a k = some (p.search k) := by
  rw [Btree.linearSearch, hp, Option.bind_eq_bind, Option.bind_some, Page.linearSearch]
  simp only [if_pos hl]
  rw [if_pos hs]

/-! ### One level -/

section
variable {alloc : ℕ → ℕ} {t : Btree} {G : Outline}

/-- The cell next to a page is a page. -/
theorem Readable.next (h : Readable alloc t G) (hal : Allocator alloc) {l : ℕ}
    (hl : l < G.height) {A B : List (Cell ℤ ℕ)} {lo lo2 : WithBot ℤ} {c b : ℕ}
    (hc : G.chain l = A ++ (lo, c) :: (lo2, b) :: B) :
    b ≠ NULL ∧ ∃ s E, t.pages b = some s ∧ Placed G l lo2 b B s ∧ Visible G l b B s E := by
  have hc' : G.chain l = (A ++ [(lo, c)]) ++ (lo2, b) :: B := by
    rw [hc]
    simp
  obtain ⟨s, hs, hpl, E, hv⟩ := h.follows.page l hl _ _ _ _ hc'
  refine ⟨?_, s, E, hs, hpl, hv⟩
  obtain ⟨i, _, hi⟩ := h.follows.address l hl (lo2, b) (by rw [hc]; simp)
  rw [show b = alloc i from hi]
  exact hal.ne_null i

/-- From the chain above to the chain: only a missing separator lies between. -/
theorem Readable.near_chain (h : Readable alloc t G) {l : ℕ} (hl : l < G.height) {k : ℤ} {r : ℕ}
    (hn : Near (fun _ => False) (G.above l) k r) : Near (Open t k) (G.chain l) k r := by
  have heq := h.outline.chain_eq l hl
  cases hp : G.pending l with
  | none =>
    rw [hp] at heq
    rw [heq]
    obtain ⟨A, lo, B, h1, h2, h3⟩ := hn
    exact ⟨A, lo, B, h1, h2, fun M x y B' hM hy => absurd (h3 M x y B' hM hy) (by simp)⟩
  | some e =>
    rw [hp] at heq
    have hs := h.outline.sorted l hl
    rw [heq] at hs ⊢
    refine near_insert (h.outline.sorted_above hl) (ne_of_sorted_insert hs) hn ?_
    intro A x y B hins hxy hy
    have hcx : G.chain l = A ++ (x.1, x.2) :: y :: B := heq.trans hins
    obtain ⟨p, hpg, _, E, hv⟩ := h.follows.page l hl A x.1 x.2 (y :: B) hcx
    obtain ⟨b, hb⟩ := List.exists_mem_of_ne_nil _
      (h.outline.pending_filled l hl e hp A x y B hcx hxy)
    refine ⟨p, hpg, ?_⟩
    have h1 := hv.serves.first b (hv.subset b hb)
    have h2 := ((h.outline.range hl hcx b hb).2 y List.mem_cons_self).trans_le hy
    have h3 : b.key < k := WithBot.coe_lt_coe.mp h2
    omega

/-- What the search inside an internal page finds. -/
theorem Visible.search_node {l : ℕ} {B : List (Cell ℤ ℕ)} {lo : WithBot ℤ} {c : ℕ} {p : Page}
    {E : List Entry} (hpl : Placed G (l + 1) lo c B p) (hv : Visible G (l + 1) c B p E) (k : ℤ) :
    p.leftmostPtr ≠ NULL ∧ p.search k = route k (G.leftmost c) E ∧ p.search k ≠ NULL := by
  have hlm : p.leftmostPtr ≠ NULL := by
    rw [hpl.leftmostPtr]
    intro h0
    exact absurd (hpl.leaf.mp h0) (by omega)
  have hsearch : p.search k = route k (G.leftmost c) E := by
    rw [hv.serves.shows k, answer, if_neg hlm, hpl.leftmostPtr]
  refine ⟨hlm, hsearch, ?_⟩
  rw [hsearch]
  rcases route_mem k (G.leftmost c) E with h0 | ⟨e, he, h0⟩
  · rw [h0, ← hpl.leftmostPtr]
    exact hlm
  · rw [h0]
    exact hv.live e he

/-- From the internal page that the key belongs to the search goes one level down. -/
theorem Readable.home_step (h : Readable alloc t G) (hal : Allocator alloc) {l : ℕ}
    (hl : l + 1 < G.height) {c : ℕ} {k : ℤ} (hat : AtHome (G.chain (l + 1)) k c) :
    ∃ r, t.linearSearch c k = some r ∧ AtHome (G.above l) k r := by
  obtain ⟨A, lo, B, hc, hlo, hB⟩ := hat
  obtain ⟨p, hp, hpl, E, hv⟩ := h.follows.page (l + 1) hl A lo c B hc
  obtain ⟨hlm, hsearch, hne⟩ := hv.search_node hpl k
  have hdist := hv.distinct_entries
  rw [hpl.leftmostPtr] at hdist
  have hroute : p.search k = route k (G.leftmost c) (G.entries c) := by
    rw [hsearch]
    have hd := hv.distinct
    rcases hv.entries with hE | ⟨s, b, B', rfl, hE⟩
    · rw [hE]
    · have hlt : (k : WithBot ℤ) < ↑s := hB (↑s, b) List.mem_cons_self
      rw [hE, Outline.behind, if_neg (by omega), hpl.leftmostPtr] at hd
      rw [hE, Outline.behind, if_neg (by omega)]
      exact route_before (WithBot.coe_lt_coe.mp hlt) hd
  refine ⟨p.search k, linearSearch_node hp hlm hne ?_, ?_⟩
  · cases B with
    | nil => exact Or.inl hpl.siblingPtr
    | cons x B =>
      obtain ⟨_, s, _, hs, hspl, _⟩ := h.next hal hl hc
      refine Or.inr ⟨s, by rw [hpl.siblingPtr]; exact hs, ?_⟩
      have h1 : (k : WithBot ℤ) < ↑(s.records 0).key :=
        (hB x List.mem_cons_self).trans_le (hspl.keys 0)
      exact not_le.mpr (WithBot.coe_lt_coe.mp h1)
  · rw [Outline.above_inner hl, hroute]
    exact atHome_expand (h.outline.sorted_expand hl) ⟨A, lo, B, hc, hlo, hB⟩ hdist

/-- At an internal page the search goes to the right neighbour or one level down. -/
theorem Readable.node_step (h : Readable alloc t G) (hal : Allocator alloc) {l : ℕ}
    (hl : l + 1 < G.height) {A B : List (Cell ℤ ℕ)} {lo : WithBot ℤ} {c : ℕ} {k : ℤ}
    (hc : G.chain (l + 1) = A ++ (lo, c) :: B) (hlo : lo ≤ ↑k)
    (hB : ∀ M x y B', B = M ++ x :: y :: B' → y.1 ≤ (k : WithBot ℤ) → Open t k x.2) :
    ∃ r, t.linearSearch c k = some r ∧
      ((∃ (lo2 : WithBot ℤ) (B2 : List (Cell ℤ ℕ)), B = (lo2, r) :: B2 ∧ lo2 ≤ ↑k) ∨
        Near (Open t k) (G.chain l) k r) := by
  by_cases hhome : ∀ y ∈ B, (k : WithBot ℤ) < y.1
  · obtain ⟨r, h1, h2⟩ := h.home_step hal hl ⟨A, lo, B, hc, hlo, hhome⟩
    exact ⟨r, h1, Or.inr (h.near_chain (by omega) (h2.near _))⟩
  have hexp := h.outline.sorted_expand hl
  have hsorted := h.outline.sorted (l + 1) hl
  obtain ⟨lo2, b, B2, rfl⟩ : ∃ lo2 b B2, B = ((lo2, b) : Cell ℤ ℕ) :: B2 := by
    cases B with
    | nil => exact absurd (by simp) hhome
    | cons x B2 => exact ⟨x.1, x.2, B2, rfl⟩
  rw [hc, sorted_mid] at hsorted
  have hge : lo2 ≤ (k : WithBot ℤ) := by
    by_contra hlt
    refine hhome ?_
    intro y hy
    rcases List.mem_cons.mp hy with rfl | hy
    · exact not_le.mp hlt
    · exact (not_le.mp hlt).trans ((List.pairwise_cons.mp hsorted.2.1).1 y hy)
  obtain ⟨p, hp, hpl, E, hv⟩ := h.follows.page (l + 1) hl A lo c _ hc
  obtain ⟨hlm, hsearch, hne⟩ := hv.search_node hpl k
  obtain ⟨hb0, s, Eb, hs, hspl, hsv⟩ := h.next hal hl hc
  have hsib : p.siblingPtr = b := hpl.siblingPtr
  by_cases hopen : (s.records 0).key ≤ k
  · refine ⟨b, ?_, Or.inl ⟨lo2, B2, rfl, hge⟩⟩
    rw [← hsib] at hb0 hs ⊢
    exact linearSearch_right hp (fun h0 => absurd h0 hlm) hb0 hs hopen
  -- `k` belongs to the right neighbour, left of its entries
  refine ⟨p.search k, linearSearch_node hp hlm hne (Or.inr ⟨s, by rw [hsib]; exact hs, hopen⟩),
    Or.inr (h.near_chain (by omega) ?_)⟩
  have hdist := hv.distinct_entries
  rw [hpl.leftmostPtr] at hdist
  have hbk : ∀ e ∈ G.entries b, k < e.key := by
    intro e he
    have := hsv.serves.first e (hsv.subset e he)
    omega
  have hB2 : ∀ y ∈ B2, (k : WithBot ℤ) < y.1 := by
    cases B2 with
    | nil => simp
    | cons y B2 =>
      have hky : (k : WithBot ℤ) < y.1 := by
        by_contra hle
        obtain ⟨s', hs', hk'⟩ := hB [] (lo2, b) y B2 rfl (not_lt.mp hle)
        rw [hs] at hs'
        rw [Option.some.inj hs'] at hopen
        exact hopen hk'
      intro z hz
      rcases List.mem_cons.mp hz with rfl | hz
      · exact hky
      · have h2 := (List.pairwise_cons.mp hsorted.2.1).2
        exact hky.trans ((List.pairwise_cons.mp h2).1 z hz)
  rw [Outline.above_inner hl, hsearch]
  rcases hv.entries with hE | ⟨s', b', B', hcons, hE⟩
  · rw [hE]
    rw [hc] at hexp ⊢
    exact near_expand_left hexp hge hB2 hbk hdist
  · -- the records moved to the neighbour are still there
    have hcons' := List.cons.inj hcons
    have hs' : lo2 = ↑s' := (Prod.mk.inj hcons'.1).1
    have hb' : b = b' := (Prod.mk.inj hcons'.1).2
    subst b'
    have hdb := hsv.distinct_entries
    rw [hspl.leftmostPtr] at hdb
    have hck : ∀ e ∈ G.entries c, e.key ≤ k := by
      intro e he
      have h1 := (h.outline.range hl hc e he).2 (lo2, b) List.mem_cons_self
      exact (WithBot.coe_lt_coe.mp (h1.trans_le hge)).le
    have hroute : route k (G.leftmost c) E = route k (G.leftmost b) (G.entries b) := by
      rw [hE, Outline.behind, if_neg (by omega)]
      exact route_behind hck (WithBot.coe_le_coe.mp (hs' ▸ hge))
    rw [hroute]
    have hat : AtHome (G.chain (l + 1)) k b :=
      ⟨A ++ [(lo, c)], lo2, B2, by rw [hc]; simp, hge, hB2⟩
    exact (atHome_expand hexp hat hdb).near _

/-! ### The walk down -/

theorem Readable.leaf_page (h : Readable alloc t G) {l : ℕ} (hl : l < G.height)
    {A B : List (Cell ℤ ℕ)} {lo : WithBot ℤ} {c : ℕ} (hc : G.chain l = A ++ (lo, c) :: B) :
    ∃ p, t.pages c = some p ∧ p.level = l ∧ (p.leftmostPtr = NULL ↔ l = 0) := by
  obtain ⟨p, hp, hpl, _⟩ := h.follows.page l hl A lo c B hc
  refine ⟨p, hp, hpl.level, ?_⟩
  rw [hpl.leftmostPtr]
  exact hpl.leaf

theorem findLeaf_leaf {a fuel : ℕ} {p : Page} (k : ℤ) (hp : t.pages a = some p)
    (hl : p.leftmostPtr = NULL) : t.findLeaf k (fuel + 1) a = some a := by
  rw [Btree.findLeaf, hp, Option.bind_eq_bind, Option.bind_some, if_neg (not_not.mpr hl)]

theorem findLeaf_node {a fuel r : ℕ} {p : Page} {k : ℤ} (hp : t.pages a = some p)
    (hl : p.leftmostPtr ≠ NULL) (hs : t.linearSearch a k = some r) :
    t.findLeaf k (fuel + 1) a = t.findLeaf k fuel r := by
  rw [Btree.findLeaf, hp, Option.bind_eq_bind, Option.bind_some, if_pos hl, hs,
    Option.bind_eq_bind, Option.bind_some]

theorem Readable.findLeaf_near (h : Readable alloc t G) (hal : Allocator alloc) {k : ℤ} (l : ℕ)
    (hl : l < G.height) {c : ℕ} (hn : Near (Open t k) (G.chain l) k c) :
    ∃ a, Yields (fun fuel => t.findLeaf k fuel c) a ∧ Near (Open t k) (G.chain 0) k a := by
  induction l generalizing c with
  | zero =>
    have hn' := hn
    obtain ⟨A, lo, B, hc, _⟩ := hn'
    obtain ⟨p, hp, _, hleaf⟩ := h.leaf_page hl hc
    refine ⟨c, ⟨1, ?_⟩, hn⟩
    intro fuel hf
    obtain ⟨m, rfl⟩ : ∃ m, fuel = m + 1 := ⟨fuel - 1, by omega⟩
    exact findLeaf_leaf k hp (hleaf.mpr rfl)
  | succ l ih =>
    obtain ⟨A, lo, B, hc, hlo, hB⟩ := hn
    induction B generalizing A lo c with
    | nil =>
      obtain ⟨p, hp, _, hleaf⟩ := h.leaf_page hl hc
      obtain ⟨r, hr, hcase⟩ := h.node_step hal hl hc hlo hB
      have hlm : p.leftmostPtr ≠ NULL := fun h0 => absurd (hleaf.mp h0) (by omega)
      rcases hcase with ⟨lo2, B2, hnil, _⟩ | hn
      · simp at hnil
      · obtain ⟨a, hy, ha⟩ := ih (by omega) hn
        exact ⟨a, hy.step (fun fuel => findLeaf_node hp hlm hr), ha⟩
    | cons x B2 ihB =>
      obtain ⟨p, hp, _, hleaf⟩ := h.leaf_page hl hc
      obtain ⟨r, hr, hcase⟩ := h.node_step hal hl hc hlo hB
      have hlm : p.leftmostPtr ≠ NULL := fun h0 => absurd (hleaf.mp h0) (by omega)
      rcases hcase with ⟨lo2, B2', hcons, hle⟩ | hn
      · obtain ⟨rfl, rfl⟩ := List.cons.inj hcons
        have hc' : G.chain (l + 1) = (A ++ [(lo, c)]) ++ (lo2, r) :: B2 := by
          rw [hc]
          simp
        obtain ⟨a, hy, ha⟩ := ihB (A ++ [(lo, c)]) lo2 hc' hle (by
          intro M y z B' hM hz
          exact hB ((lo2, r) :: M) y z B' (by rw [hM]; rfl) hz)
        exact ⟨a, hy.step (fun fuel => findLeaf_node hp hlm hr), ha⟩
      · obtain ⟨a, hy, ha⟩ := ih (by omega) hn
        exact ⟨a, hy.step (fun fuel => findLeaf_node hp hlm hr), ha⟩

end

end PmemStudy.FastFair
