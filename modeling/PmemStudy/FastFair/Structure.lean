import PmemStudy.FastFair.Runs

/-!
# The shape of a tree

What the pages of a tree look like after insertions: their records, the levels
of their children, the keys below each child, and the chain of each level.
-/

namespace PmemStudy.FastFair
open PmemStudy.Slots PmemStudy.Chain PmemStudy.Loop

/-- The `i`-th reference of an internal page. -/
def Page.child (p : Page) (i : ℕ) : ℕ := if i = 0 then p.leftmostPtr else (p.records (i - 1)).ptr

def Page.children (p : Page) : List ℕ := (List.range (p.count + 1)).map p.child

def Page.listed (p : Page) : List Entry := (List.range p.count).map p.records

/-- The pages `d` levels below the root, as they are referenced from above. -/
def Btree.referenced (t : Btree) : ℕ → List ℕ
  | 0 => [t.root]
  | d + 1 => (t.referenced d).flatMap fun a => ((t.pages a).map Page.children).getD []

/-- The leaves' records from left to right. -/
def Btree.leafRecords (t : Btree) : List Entry :=
  (t.referenced (t.height - 1)).flatMap fun a => ((t.pages a).map Page.listed).getD []

/-- The pages from `a` on along the sibling pointers. -/
inductive SiblingChain (t : Btree) : ℕ → List ℕ → Prop
  | nil : SiblingChain t NULL []
  | cons {a : ℕ} {p : Page} {l : List ℕ} (ha : a ≠ NULL) (hp : t.pages a = some p)
      (h : SiblingChain t p.siblingPtr l) : SiblingChain t a (a :: l)

/-- `k` is a key of the page at `a` or of a page below it. -/
inductive Below (t : Btree) : ℕ → ℤ → Prop
  | own {a i : ℕ} {p : Page} (hp : t.pages a = some p) (hi : i < p.count) :
      Below t a (p.records i).key
  | child {a c : ℕ} {k : ℤ} {p : Page} (hp : t.pages a = some p) (hl : p.leftmostPtr ≠ NULL)
      (hc : c ∈ p.children) (h : Below t c k) : Below t a k

structure PageShape (t : Btree) (level a : ℕ) (p : Page) : Prop where
  level_eq : p.level = level
  leaf : p.leftmostPtr = NULL ↔ level = 0
  room : p.count ≤ cardinality - 1
  increasing : ∀ i j, i < j → j < p.count → (p.records i).key < (p.records j).key
  lastIndex : p.lastIndex = p.count - 1
  terminator : (p.records p.count).ptr = NULL
  filled : a ≠ t.root → 14 ≤ p.count
  children : p.leftmostPtr ≠ NULL → ∀ c ∈ p.children, ∃ q, t.pages c = some q ∧ q.level + 1 = p.level
  ranges : p.leftmostPtr ≠ NULL → ∀ i ≤ p.count, ∀ k, Below t (p.child i) k →
    (0 < i → (p.records (i - 1)).key ≤ k) ∧ (i < p.count → k < (p.records i).key)

/-- The shape of a tree with the pairs `m`. -/
structure Shape (t : Btree) (m : ℤ → Option ℕ) : Prop where
  height : ∃ p, t.pages t.root = some p ∧ t.height = p.level + 1
  pages : ∀ d < t.height, ∀ a ∈ t.referenced d,
    ∃ p, t.pages a = some p ∧ PageShape t (t.height - 1 - d) a p
  chains : ∀ d < t.height, SiblingChain t ((t.referenced d).headD NULL) (t.referenced d)
  leaves : Increasing t.leafRecords
  stored : ∀ k v, (⟨k, v⟩ : Entry) ∈ t.leafRecords ↔ m k = some v

section
variable {alloc : ℕ → ℕ} {μ : ℕ} {t : Btree} {m : ℤ → Option ℕ} {G : Outline}

theorem Rests.listed {p : Page} {es : List Entry} (h : Rests p es) : p.listed = es := by
  rw [Page.listed, h.count_eq]
  refine List.ext_getElem (by simp) ?_
  intro i h1 h2
  simp only [List.getElem_map, List.getElem_range]
  exact h.record i h2

theorem Rests.child_succ {p : Page} {es : List Entry} (h : Rests p es) {i : ℕ}
    (hi : i < es.length) : p.child (i + 1) = es[i].ptr := by
  rw [Page.child, if_neg (by omega), Nat.add_sub_cancel, h.record i hi]

/-- The references of a page are those of the outline. -/
theorem Rests.children {p : Page} {es : List Entry} (h : Rests p es) (lo : WithBot ℤ) :
    p.children = (refs lo p.leftmostPtr es).map (·.2) := by
  rw [Page.children, h.count_eq]
  refine List.ext_getElem (by simp [refs]) ?_
  intro i h1 h2
  simp only [List.getElem_map, List.getElem_range]
  cases i with
  | zero => rfl
  | succ i =>
    have hi : i < es.length := by simpa [refs] using h2
    rw [h.child_succ hi]
    simp [refs, cell]

theorem AtRest.chain_below (h : AtRest alloc μ t G) (hpend : ∀ l, G.pending l = none) {l : ℕ}
    (hl : l + 1 < G.height) : G.chain l = expand G.leftmost G.entries (G.chain (l + 1)) := by
  rw [h.outline.chain_eq l (by omega), hpend, Outline.above_inner hl]
  rfl

/-- The pages `d` levels below the root are the chain of that level. -/
theorem AtRest.referenced_eq (h : AtRest alloc μ t G) (hpend : ∀ l, G.pending l = none) (d : ℕ)
    (hd : d < G.height) : t.referenced d = (G.chain (G.height - 1 - d)).map (·.2) := by
  induction d with
  | zero =>
    rw [Nat.sub_zero, h.root_cell (hpend _), Btree.referenced, h.follows.root]
    rfl
  | succ d ih =>
    have hl : G.height - 1 - (d + 1) + 1 = G.height - 1 - d := by omega
    rw [h.chain_below hpend (by omega), hl, Btree.referenced, ih (by omega), expand,
      List.map_flatMap, List.flatMap_map]
    refine List.flatMap_congr ?_
    intro x hx
    obtain ⟨A, B, hAB⟩ := List.append_of_mem hx
    obtain ⟨p, hp, hpl, hr⟩ := h.follows.page _ (by omega) A x.1 x.2 B hAB
    rw [hp, Option.map_some, Option.getD_some, hr.children x.1, hpl.leftmostPtr]

theorem AtRest.siblingChain (h : AtRest alloc μ t G) (hal : Allocator alloc) {l : ℕ}
    (hl : l < G.height) (B : List (Cell ℤ ℕ)) (A : List (Cell ℤ ℕ)) (hc : G.chain l = A ++ B) :
    SiblingChain t (nextAddress B) (B.map (·.2)) := by
  induction B generalizing A with
  | nil => exact .nil
  | cons x B ih =>
    obtain ⟨p, hp, hpl, _⟩ := h.follows.page l hl A x.1 x.2 B hc
    refine .cons (h.address_ne hal hl (by rw [hc]; simp)) hp ?_
    rw [hpl.siblingPtr]
    exact ih (A ++ [x]) (by rw [hc]; simp)

/-- The keys below a page lie between its bound and the next one. -/
theorem AtRest.below_range (h : AtRest alloc μ t G) (hpend : ∀ l, G.pending l = none) {a : ℕ}
    {k : ℤ} (hb : Below t a k) {l : ℕ} (hl : l < G.height) {A B : List (Cell ℤ ℕ)}
    {lo : WithBot ℤ} (hc : G.chain l = A ++ (lo, a) :: B) :
    lo ≤ ↑k ∧ ∀ y ∈ B, (k : WithBot ℤ) < y.1 := by
  induction hb generalizing l A B lo with
  | @own a i p hp hi =>
    obtain ⟨p', hp', _, hr⟩ := h.follows.page l hl A lo a B hc
    rw [hp] at hp'
    obtain rfl := Option.some.inj hp'
    rw [hr.count_eq] at hi
    rw [hr.record i hi]
    exact h.outline.range hl hc _ (List.getElem_mem hi)
  | @child a c k p hp hlm hmem _ ih =>
    obtain ⟨p', hp', hpl, hr⟩ := h.follows.page l hl A lo a B hc
    rw [hp] at hp'
    obtain rfl := Option.some.inj hp'
    obtain ⟨l, rfl⟩ : ∃ l', l = l' + 1 := by
      cases l with
      | zero => exact absurd (hpl.leftmostPtr.trans (hpl.leaf.mpr rfl)) hlm
      | succ l => exact ⟨l, rfl⟩
    rw [hr.children lo, hpl.leftmostPtr] at hmem
    obtain ⟨x, hx, rfl⟩ := List.mem_map.mp hmem
    obtain ⟨R1, R2, hR⟩ := List.append_of_mem hx
    have hbelow := h.chain_below hpend hl
    have hs := h.outline.sorted_expand hl
    rw [hc, expand_append, expand_cons] at hs hbelow
    have hrefs := (List.pairwise_append.mp (List.pairwise_append.mp hs).2.1).1
    have hat : G.chain l = (expand G.leftmost G.entries A ++ R1) ++
        (x.1, x.2) :: (R2 ++ expand G.leftmost G.entries B) := by
      rw [hbelow, hR]
      simp
    obtain ⟨hlo, hhi⟩ := ih (by omega) hat
    refine ⟨(le_of_mem_refs hrefs hx).trans hlo, ?_⟩
    intro y hy
    refine hhi (y.1, G.leftmost y.2) (List.mem_append_right _ ?_)
    exact List.mem_flatMap.mpr ⟨y, hy, List.mem_cons_self⟩

/-- The keys below the `i`-th child lie between the `i`-th separator and the next one. -/
theorem AtRest.child_range (h : AtRest alloc μ t G) (hpend : ∀ l, G.pending l = none) {l : ℕ}
    (hl : l + 1 < G.height) {A B : List (Cell ℤ ℕ)} {lo : WithBot ℤ} {a : ℕ}
    (hc : G.chain (l + 1) = A ++ (lo, a) :: B) {p : Page}
    (hpl : Placed G (l + 1) lo a B p) (hr : Rests p (G.entries a)) {i : ℕ} (hi : i ≤ p.count)
    {k : ℤ} (hb : Below t (p.child i) k) :
    (0 < i → (p.records (i - 1)).key ≤ k) ∧ (i < p.count → k < (p.records i).key) := by
  rw [hr.count_eq] at hi ⊢
  have hbelow := h.chain_below hpend hl
  rw [hc, expand_append, expand_cons] at hbelow
  have hlen : (refs lo (G.leftmost a) (G.entries a)).length = (G.entries a).length + 1 := by
    simp [refs]
  have hi' : i < (refs lo (G.leftmost a) (G.entries a)).length := by omega
  have hcell : (refs lo (G.leftmost a) (G.entries a))[i].2 = p.child i := by
    cases i with
    | zero => exact hpl.leftmostPtr.symm
    | succ i =>
      rw [hr.child_succ (by omega)]
      simp [refs, cell]
  have hsplit := List.take_append_drop i (refs lo (G.leftmost a) (G.entries a))
  rw [List.drop_eq_getElem_cons (by omega)] at hsplit
  have hat : G.chain l =
      (expand G.leftmost G.entries A ++ (refs lo (G.leftmost a) (G.entries a)).take i) ++
        ((refs lo (G.leftmost a) (G.entries a))[i].1, p.child i) ::
        ((refs lo (G.leftmost a) (G.entries a)).drop (i + 1) ++
          expand G.leftmost G.entries B) := by
    rw [hbelow, ← hcell]
    refine (congrArg (fun R => expand G.leftmost G.entries A ++
      (R ++ expand G.leftmost G.entries B)) hsplit).symm.trans ?_
    simp only [List.append_assoc, List.cons_append]
  obtain ⟨h1, h2⟩ := h.below_range hpend hb (by omega) hat
  constructor
  · intro h0
    cases i with
    | zero => omega
    | succ i =>
      rw [Nat.add_sub_cancel, hr.record i (by omega)]
      have hkey : ((refs lo (G.leftmost a) (G.entries a))[i + 1]).1
          = ((G.entries a)[i].key : WithBot ℤ) := by
        simp [refs, cell]
      rw [hkey] at h1
      exact WithBot.coe_le_coe.mp h1
  · intro hlt
    rw [hr.record i hlt]
    have hdrop : (refs lo (G.leftmost a) (G.entries a)).drop (i + 1)
        = cell (G.entries a)[i] :: ((G.entries a).drop (i + 1)).map cell := by
      show ((G.entries a).map cell).drop i = _
      rw [← List.map_drop, List.drop_eq_getElem_cons hlt, List.map_cons]
    have := h2 (cell (G.entries a)[i]) (by rw [hdrop]; simp)
    exact WithBot.coe_lt_coe.mp this

theorem Settled.pageShape (h : Settled alloc 14 t m G) {l : ℕ} (hl : l < G.height)
    {A B : List (Cell ℤ ℕ)} {lo : WithBot ℤ} {a : ℕ} (hc : G.chain l = A ++ (lo, a) :: B) :
    ∃ p, t.pages a = some p ∧ PageShape t l a p := by
  obtain ⟨p, hp, hpl, hr⟩ := h.rest.follows.page l hl A lo a B hc
  have hcount := hr.count_eq
  have hinner : p.leftmostPtr ≠ NULL → ∃ l', l = l' + 1 := by
    intro hlm
    cases l with
    | zero => exact absurd (hpl.leftmostPtr.trans (hpl.leaf.mpr rfl)) hlm
    | succ l => exact ⟨l, rfl⟩
  refine ⟨p, hp, hpl.level, by rw [hpl.leftmostPtr]; exact hpl.leaf, ?_, ?_, ?_, ?_, ?_, ?_, ?_⟩
  · have := hr.fits
    omega
  · intro i j hij hj
    rw [hcount] at hj
    rw [hr.record i (by omega), hr.record j hj]
    exact List.pairwise_iff_getElem.mp hr.increasing i j (by omega) hj hij
  · rw [hr.lastIndex, hcount]
  · rw [hcount]
    exact hr.terminator
  · intro hroot
    rw [hcount]
    rcases h.rest.filled l hl (lo, a) (by rw [hc]; simp) with hx | hx
    · exact absurd (hx.trans h.rest.follows.root.symm) hroot
    · exact hx
  · intro hlm c hcm
    obtain ⟨l, rfl⟩ := hinner hlm
    rw [hr.children lo, hpl.leftmostPtr] at hcm
    obtain ⟨x, hx, rfl⟩ := List.mem_map.mp hcm
    have hxc : x ∈ G.chain l := by
      rw [h.rest.chain_below h.closed hl, hc, expand_append, expand_cons]
      exact List.mem_append_right _ (List.mem_append_left _ hx)
    obtain ⟨A', B', hAB⟩ := List.append_of_mem hxc
    obtain ⟨q, hq, hql, _⟩ := h.rest.follows.page l (by omega) A' x.1 x.2 B' hAB
    exact ⟨q, hq, by rw [hql.level, hpl.level]⟩
  · intro hlm i hi k hb
    obtain ⟨l, rfl⟩ := hinner hlm
    exact h.rest.child_range h.closed hl hc hpl hr hi hb

theorem Settled.shape (hal : Allocator alloc) (h : Settled alloc 14 t m G) : Shape t m := by
  have hpos := h.rest.outline.pos
  have hheight := h.rest.height
  have hchain : ∀ d < t.height, t.referenced d = (G.chain (G.height - 1 - d)).map (·.2) :=
    fun d hd => h.rest.referenced_eq h.closed d (by omega)
  have hleaf : t.leafRecords = G.contents := by
    rw [Btree.leafRecords, hchain _ (by omega), hheight, Nat.sub_self, List.flatMap_map,
      Outline.contents]
    refine List.flatMap_congr ?_
    intro x hx
    obtain ⟨A, B, hAB⟩ := List.append_of_mem hx
    obtain ⟨p, hp, _, hr⟩ := h.rest.follows.page 0 hpos A x.1 x.2 B hAB
    rw [hp, Option.map_some, Option.getD_some, hr.listed]
  refine ⟨?_, ?_, ?_, ?_, ?_⟩
  · have hcell := h.rest.root_cell (h.closed _)
    obtain ⟨p, hp, hpl, _⟩ := h.rest.follows.page _ (by omega) [] ⊥ G.root [] hcell
    refine ⟨p, by rw [h.rest.follows.root]; exact hp, ?_⟩
    rw [hpl.level]
    omega
  · intro d hd a ha
    rw [hchain d hd] at ha
    obtain ⟨x, hx, rfl⟩ := List.mem_map.mp ha
    obtain ⟨A, B, hAB⟩ := List.append_of_mem hx
    rw [hheight]
    exact h.pageShape (by omega) hAB
  · intro d hd
    have hs := h.rest.siblingChain hal (l := G.height - 1 - d) (by omega) (G.chain _) [] rfl
    rw [hchain d hd]
    convert hs using 1
    cases G.chain (G.height - 1 - d) <;> rfl
  · rw [hleaf]
    exact h.rest.outline.increasing
  · rw [hleaf]
    exact h.contents

/-- `t` is reached by insertions of new pairs, whose values may be addresses of pages. -/
inductive Growth (alloc : ℕ → ℕ) : Btree → (ℤ → Option ℕ) → Prop
  | new : Growth alloc (Btree.new alloc) fun _ => none
  | insert {t : Btree} {m : ℤ → Option ℕ} {k : ℤ} {v : ℕ} {stores : List TreeStore}
      (h : Growth alloc t m) (hi : Storable m k v)
      (hy : Yields (fun fuel => Btree.btreeInsert alloc fuel t k v) stores) :
      Growth alloc (t.run stores) (Function.update m k (some v))

theorem Run.growth (h : Run alloc false t m) : Growth alloc t m := by
  induction h with
  | new => exact .new
  | insert _ hi hy ih => exact ih.insert hi.toStorable hy
  | delete _ hd => cases hd

theorem Growth.settled (hal : Allocator alloc) (h : Growth alloc t m) :
    ∃ G, Settled alloc 14 t m G := by
  induction h with
  | new => exact ⟨_, settled_new alloc _⟩
  | insert _ hi hy ih =>
    obtain ⟨G, hG⟩ := ih
    obtain ⟨stores, C, hy', _, _, hG'⟩ := hG.insert hal (le_refl _) hi
    rw [hy.unique hy']
    exact hG'

/-- The shape of the tree after any run of insertions, each of which returns. -/
theorem run_shape (hal : Allocator alloc) (h : Growth alloc t m) :
    Shape t m ∧ ∀ k v, Storable m k v →
      ∃ stores, Yields (fun fuel => Btree.btreeInsert alloc fuel t k v) stores := by
  obtain ⟨G, hG⟩ := h.settled hal
  refine ⟨hG.shape hal, ?_⟩
  intro k v hi
  obtain ⟨stores, _, hy, _⟩ := hG.insert hal (le_refl _) hi
  exact ⟨stores, hy⟩

theorem run_shape_thirty : ∃ t,
    Yields (fun fuel => insertAll evens fuel (Btree.new evens) (pairsFrom 0 30)) t ∧
      Shape t (mapAfter (fun _ => none) (pairsFrom 0 30)) := by
  obtain ⟨t, hy, hr⟩ := Run.insertAll evens_allocator (pairsFrom 0 30)
    (Run.new : Run evens false _ _) (allInsertable_pairsFrom 30 0 (by decide) (by simp))
  exact ⟨t, hy, (run_shape evens_allocator hr.growth).1⟩

end

end PmemStudy.FastFair
