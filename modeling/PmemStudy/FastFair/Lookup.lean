import PmemStudy.FastFair.Search

/-!
# btree_search

On a readable image the search for a stored key finds its value, and a search
for any key finds nothing but a stored value. On a tree without missing
separators a walk down arrives at the very page that a key belongs to.
-/

namespace PmemStudy.FastFair
open PmemStudy.Slots PmemStudy.Chain PmemStudy.Loop

section
variable {alloc : ℕ → ℕ} {t : Btree} {G : Outline}

/-! ### The leaf chain -/

theorem mem_contents {x : Cell ℤ ℕ} {e : Entry} (hx : x ∈ G.chain 0) (he : e ∈ G.entries x.2) :
    e ∈ G.contents := List.mem_flatMap.mpr ⟨x, hx, he⟩

/-- What the search inside a leaf finds. -/
theorem Visible.search_leaf {A B : List (Cell ℤ ℕ)} {lo : WithBot ℤ}
    {c : ℕ} {p : Page} {E : List Entry} (hv : Visible G 0 c B p E)
    (hc : G.chain 0 = A ++ (lo, c) :: B) (hpl : Placed G 0 lo c B p) (k : ℤ) :
    (p.search k ≠ NULL → (⟨k, p.search k⟩ : Entry) ∈ E ∧ (⟨k, p.search k⟩ : Entry) ∈ G.contents) ∧
    (p.search k = NULL → ∀ e ∈ G.entries c, e.key ≠ k) := by
  have hlm : p.leftmostPtr = NULL := by
    rw [hpl.leftmostPtr]
    exact hpl.leaf.mpr rfl
  have hd := hv.distinct
  rw [hlm] at hd
  have hs := hv.serves.shows k
  rw [answer, if_pos hlm] at hs
  constructor
  · intro hne
    cases hf : find k NULL E with
    | none =>
      rw [hf] at hs
      exact absurd hs hne
    | some v =>
      rw [hf] at hs
      have hmem : (⟨k, v⟩ : Entry) ∈ E := find_some hf
      have hv' : p.search k = v := hs
      rw [hv']
      refine ⟨hmem, ?_⟩
      rcases hv.entries with hE | ⟨s, b, B', hB, hE⟩
      · rw [hE] at hmem
        exact mem_contents (x := (lo, c)) (by rw [hc]; simp) hmem
      · rw [hE, Outline.behind, if_pos rfl] at hmem
        rcases List.mem_append.mp hmem with hm | hm
        · exact mem_contents (x := (lo, c)) (by rw [hc]; simp) hm
        · exact mem_contents (x := (↑s, b)) (by rw [hc, hB]; simp) hm
  · intro h0 e he hk
    have hmem := hv.subset e he
    have hf := find_mem hd hv.increasing hmem
    rw [hk] at hf
    rw [hf] at hs
    exact hv.live e hmem (hs.symm.trans h0)

theorem follow_found {a fuel v : ℕ} {p : Page} {k : ℤ} (hp : t.pages a = some p)
    (hs : t.linearSearch a k = some v) (hne : v ≠ p.siblingPtr) :
    t.followSiblings k (fuel + 1) a = some (a, v) := by
  rw [Btree.followSiblings, hp, Option.bind_eq_bind, Option.bind_some, hs, Option.bind_eq_bind,
    Option.bind_some, if_neg hne]

theorem follow_end {a fuel : ℕ} {p : Page} {k : ℤ} (hp : t.pages a = some p)
    (hs : t.linearSearch a k = some NULL) (hsib : p.siblingPtr = NULL) :
    t.followSiblings k (fuel + 1) a = some (NULL, NULL) := by
  rw [Btree.followSiblings, hp, Option.bind_eq_bind, Option.bind_some, hs, Option.bind_eq_bind,
    Option.bind_some, if_pos hsib.symm, if_pos rfl]

theorem follow_right {a fuel : ℕ} {p : Page} {k : ℤ} (hp : t.pages a = some p)
    (hs : t.linearSearch a k = some p.siblingPtr) (hsib : p.siblingPtr ≠ NULL) :
    t.followSiblings k (fuel + 1) a = t.followSiblings k fuel p.siblingPtr := by
  rw [Btree.followSiblings, hp, Option.bind_eq_bind, Option.bind_some, hs, Option.bind_eq_bind,
    Option.bind_some, if_pos rfl, if_neg hsib]

/-- A stored key that a leaf on the way does not hold is further right. -/
theorem Outline.WellFormed.right_of (h : G.WellFormed) {k : ℤ} {v : ℕ} {A B : List (Cell ℤ ℕ)}
    {lo : WithBot ℤ} {c : ℕ} (hc : G.chain 0 = A ++ (lo, c) :: B) (hlo : lo ≤ ↑k)
    (hmem : (⟨k, v⟩ : Entry) ∈ G.contents) (hnot : ∀ e ∈ G.entries c, e.key ≠ k) :
    ∃ y ∈ B, (⟨k, v⟩ : Entry) ∈ G.entries y.2 ∧ y.1 ≤ ↑k := by
  obtain ⟨y, hy, hye⟩ := List.mem_flatMap.mp hmem
  obtain ⟨A', B', hAB⟩ := List.append_of_mem hy
  have hrange := h.leaf_range (a := y.2) hAB _ hye
  rw [hc] at hy
  rcases List.mem_append.mp hy with hyA | hyB
  · -- to the left of the leaf the keys are smaller
    exfalso
    obtain ⟨A1, A2, rfl⟩ := List.append_of_mem hyA
    have hc' : G.chain 0 = A1 ++ (y.1, y.2) :: (A2 ++ (lo, c) :: B) := by
      rw [hc]
      simp
    have hlt := (h.leaf_range hc' _ hye).2 (lo, c) (by simp)
    exact absurd hlo (not_le.mpr hlt)
  · rcases List.mem_cons.mp hyB with rfl | hyB
    · exact absurd rfl (hnot _ hye)
    · exact ⟨y, hyB, hye, hrange.1⟩

/-- The walk along the leaves stops at the leaf that holds the key, if one does. -/
theorem Readable.follow_yields (h : Readable alloc t G) (hal : Allocator alloc) {k : ℤ}
    {A B : List (Cell ℤ ℕ)} {lo : WithBot ℤ} {c : ℕ} (hc : G.chain 0 = A ++ (lo, c) :: B)
    (hlo : lo ≤ ↑k)
    (hB : ∀ M x y B', B = M ++ x :: y :: B' → y.1 ≤ (k : WithBot ℤ) → Open t k x.2)
    (hpage : ∀ v, (⟨k, v⟩ : Entry) ∈ G.contents → ∀ i, v ≠ alloc i) :
    ∃ q r, Yields (fun fuel => t.followSiblings k fuel c) (q, r) ∧
      (∀ v, (⟨k, v⟩ : Entry) ∈ G.contents → r = v) ∧
      (r ≠ NULL → (⟨k, r⟩ : Entry) ∈ G.contents ∧ ∃ (A' : List (Cell ℤ ℕ)) (lo' : WithBot ℤ)
        (B' : List (Cell ℤ ℕ)) (p : Page) (E : List Entry), G.chain 0 = A' ++ (lo', q) :: B' ∧
          t.pages q = some p ∧ Visible G 0 q B' p E ∧ (⟨k, r⟩ : Entry) ∈ E) := by
  induction B generalizing A lo c with
  | nil =>
    obtain ⟨p, hp, hpl, E, hv⟩ := h.follows.page 0 h.outline.pos A lo c _ hc
    obtain ⟨hsome, hnone⟩ := hv.search_leaf hc hpl k
    have hlm : p.leftmostPtr = NULL := hpl.leftmostPtr.trans (hpl.leaf.mpr rfl)
    have hsib : p.siblingPtr = NULL := hpl.siblingPtr
    by_cases hs : p.search k = NULL
    · refine ⟨NULL, NULL, Yields.step (g := fun _ => some (NULL, NULL)) (.const (fun _ => rfl))
        (fun fuel => follow_end hp (linearSearch_stop hp hlm hs (Or.inl hsib)) hsib), ?_,
        fun hne => absurd rfl hne⟩
      intro v hmem
      obtain ⟨y, hy, _⟩ := h.outline.right_of hc hlo hmem (hnone hs)
      simp at hy
    · have hmem := hsome hs
      refine ⟨c, p.search k, Yields.step (g := fun _ => some (c, p.search k))
        (.const (fun _ => rfl)) (fun fuel => follow_found hp (linearSearch_leaf hp hlm hs) ?_), ?_,
        fun _ => ⟨hmem.2, A, lo, [], p, E, hc, hp, hv, hmem.1⟩⟩
      · rw [hsib]
        exact hs
      · intro v hv'
        exact congrArg Entry.ptr (h.outline.increasing.unique hmem.2 hv' rfl)
  | cons x B2 ih =>
    obtain ⟨lo2, b⟩ := x
    obtain ⟨p, hp, hpl, E, hv⟩ := h.follows.page 0 h.outline.pos A lo c _ hc
    obtain ⟨hsome, hnone⟩ := hv.search_leaf hc hpl k
    have hlm : p.leftmostPtr = NULL := hpl.leftmostPtr.trans (hpl.leaf.mpr rfl)
    have hsib : p.siblingPtr = b := hpl.siblingPtr
    obtain ⟨hb0, s, Eb, hsb, hspl, hsv⟩ := h.next hal h.outline.pos hc
    by_cases hs : p.search k = NULL
    · by_cases hopen : (s.records 0).key ≤ k
      · have hc' : G.chain 0 = (A ++ [(lo, c)]) ++ (lo2, b) :: B2 := by
          rw [hc]
          simp
        obtain ⟨q, r, hy, h1, h2⟩ := ih hc' ((hspl.keys 0).trans (WithBot.coe_le_coe.mpr hopen))
          (by
            intro M y z B' hM hz
            exact hB ((lo2, b) :: M) y z B' (by rw [hM]; rfl) hz)
        have hb0' : p.siblingPtr ≠ NULL := by
          rw [hsib]
          exact hb0
        have hsb' : t.pages p.siblingPtr = some s := by
          rw [hsib]
          exact hsb
        refine ⟨q, r, hy.step ?_, h1, h2⟩
        intro fuel
        rw [follow_right hp (linearSearch_right hp (fun _ => hs) hb0' hsb' hopen) hb0', hsib]
      · refine ⟨c, NULL, Yields.step (g := fun _ => some (c, NULL)) (.const (fun _ => rfl))
          (fun fuel => follow_found hp (linearSearch_stop hp hlm hs
            (Or.inr ⟨s, by rw [hsib]; exact hsb, hopen⟩)) (by rw [hsib]; exact hb0.symm)), ?_,
          fun hne => absurd rfl hne⟩
        -- a leaf that holds the key or a page in front of it would be open
        intro v hmem
        exfalso
        obtain ⟨y, hy, hye, hyk⟩ := h.outline.right_of hc hlo hmem (hnone hs)
        rcases List.mem_cons.mp hy with rfl | hy
        · exact hopen (hsv.serves.first _ (hsv.subset _ hye))
        · have hsorted := h.outline.sorted 0 h.outline.pos
          rw [hc, sorted_mid] at hsorted
          obtain ⟨z, B3, rfl⟩ : ∃ z B3, B2 = z :: B3 := by
            cases B2 with
            | nil => simp at hy
            | cons z B3 => exact ⟨z, B3, rfl⟩
          have hzk : z.1 ≤ (k : WithBot ℤ) := by
            rcases List.mem_cons.mp hy with rfl | hy
            · exact hyk
            · have h2 := List.pairwise_cons.mp (List.pairwise_cons.mp hsorted.2.1).2
              exact (h2.1 y hy).le.trans hyk
          obtain ⟨s', hs', hk'⟩ := hB [] (lo2, b) z B3 rfl hzk
          rw [hsb] at hs'
          rw [Option.some.inj hs'] at hopen
          exact hopen hk'
    · have hmem := hsome hs
      refine ⟨c, p.search k, Yields.step (g := fun _ => some (c, p.search k))
        (.const (fun _ => rfl)) (fun fuel => follow_found hp (linearSearch_leaf hp hlm hs) ?_), ?_,
        fun _ => ⟨hmem.2, A, lo, _, p, E, hc, hp, hv, hmem.1⟩⟩
      · rw [hsib]
        obtain ⟨i, _, hi⟩ := h.follows.address 0 h.outline.pos (lo2, b) (by rw [hc]; simp)
        rw [show b = alloc i from hi]
        exact hpage _ hmem.2 i
      · intro v hv'
        exact congrArg Entry.ptr (h.outline.increasing.unique hmem.2 hv' rfl)

/-- `btree_search` on a readable image. -/
theorem Readable.search_yields (h : Readable alloc t G) (hal : Allocator alloc) (k : ℤ)
    (hpage : ∀ v, (⟨k, v⟩ : Entry) ∈ G.contents → ∀ i, v ≠ alloc i) :
    ∃ r, Yields (fun fuel => Btree.btreeSearch fuel t k) r ∧
      (∀ v, (⟨k, v⟩ : Entry) ∈ G.contents → r = v) ∧
      (r ≠ NULL → (⟨k, r⟩ : Entry) ∈ G.contents) := by
  have hpos := h.outline.pos
  obtain ⟨a, hleaf, A, lo, B, hc, hlo, hB⟩ :=
    h.findLeaf_near hal (G.height - 1) (by omega) (h.outline.near_root (Open t k) k)
  obtain ⟨q, r, hf, h1, h2⟩ := h.follow_yields hal hc hlo hB hpage
  refine ⟨r, ?_, h1, fun hne => (h2 hne).1⟩
  have hroot := h.follows.root
  rw [← hroot] at hleaf
  exact hleaf.bind (g := fun fuel a => (t.followSiblings k fuel a).bind fun found => some found.2)
    (hf.bind (g := fun _ found => some found.2) (.const (fun _ => rfl)))

/-! ### The page that a key belongs to -/

theorem findLevel_stop {a fuel level : ℕ} {p : Page} (k : ℤ) (hp : t.pages a = some p)
    (hl : p.level ≤ level) : t.findLevel k level (fuel + 1) a = some a := by
  rw [Btree.findLevel, hp, Option.bind_eq_bind, Option.bind_some, if_neg (by omega)]

theorem findLevel_node {a fuel r level : ℕ} {p : Page} {k : ℤ} (hp : t.pages a = some p)
    (hl : level < p.level) (hs : t.linearSearch a k = some r) :
    t.findLevel k level (fuel + 1) a = t.findLevel k level fuel r := by
  rw [Btree.findLevel, hp, Option.bind_eq_bind, Option.bind_some, if_pos hl, hs,
    Option.bind_eq_bind, Option.bind_some]

/-- Without missing separators the walk arrives at the page. -/
theorem Readable.findLevel_home (h : Readable alloc t G) (hal : Allocator alloc) {k : ℤ}
    (level d : ℕ) (hl : level + d < G.height) (hp : ∀ l, level ≤ l → G.pending l = none) {c : ℕ}
    (hat : AtHome (G.chain (level + d)) k c) :
    ∃ a, Yields (fun fuel => t.findLevel k level fuel c) a ∧ AtHome (G.chain level) k a := by
  induction d generalizing c with
  | zero =>
    have hat' := hat
    obtain ⟨A, lo, B, hc, _⟩ := hat'
    obtain ⟨p, hpg, hlev, _⟩ := h.leaf_page (by omega) hc
    exact ⟨c, Yields.step (g := fun _ => some c) (.const (fun _ => rfl))
      (fun fuel => findLevel_stop k hpg (by omega)), hat⟩
  | succ d ih =>
    have hl' : level + d + 1 < G.height := by omega
    obtain ⟨r, hr, hat'⟩ := h.home_step hal hl' hat
    obtain ⟨A, lo, B, hc, _⟩ := hat
    obtain ⟨p, hpg, hlev, _⟩ := h.leaf_page (by omega) hc
    have heq := h.outline.chain_eq (level + d) (by omega)
    rw [hp _ (by omega)] at heq
    have hat'' : AtHome (G.chain (level + d)) k r := by
      rw [heq]
      exact hat'
    obtain ⟨a, hy, ha⟩ := ih (by omega) hat''
    exact ⟨a, hy.step (fun fuel => findLevel_node hpg (by omega) hr), ha⟩

theorem Readable.findLeaf_home (h : Readable alloc t G) (hal : Allocator alloc) {k : ℤ}
    (l : ℕ) (hl : l < G.height) (hp : ∀ l, G.pending l = none) {c : ℕ}
    (hat : AtHome (G.chain l) k c) :
    ∃ a, Yields (fun fuel => t.findLeaf k fuel c) a ∧ AtHome (G.chain 0) k a := by
  induction l generalizing c with
  | zero =>
    have hat' := hat
    obtain ⟨A, lo, B, hc, _⟩ := hat'
    obtain ⟨p, hpg, _, hleaf⟩ := h.leaf_page hl hc
    exact ⟨c, Yields.step (g := fun _ => some c) (.const (fun _ => rfl))
      (fun fuel => findLeaf_leaf k hpg (hleaf.mpr rfl)), hat⟩
  | succ l ih =>
    obtain ⟨r, hr, hat'⟩ := h.home_step hal hl hat
    obtain ⟨A, lo, B, hc, _⟩ := hat
    obtain ⟨p, hpg, _, hleaf⟩ := h.leaf_page hl hc
    have hlm : p.leftmostPtr ≠ NULL := fun h0 => absurd (hleaf.mp h0) (by omega)
    have heq := h.outline.chain_eq l (by omega)
    rw [hp] at heq
    have hat'' : AtHome (G.chain l) k r := by
      rw [heq]
      exact hat'
    obtain ⟨a, hy, ha⟩ := ih (by omega) hat''
    exact ⟨a, hy.step (fun fuel => findLeaf_node hpg hlm hr), ha⟩

end

end PmemStudy.FastFair
