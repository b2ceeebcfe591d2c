import PmemStudy.FastFair.SplitTree

/-!
# setNewRoot

A new root is written before the tree points to it, so readers see the old root
and then the new one.
-/

namespace PmemStudy.FastFair
open PmemStudy.Slots PmemStudy.Chain PmemStudy.Trace

section
variable {alloc : ℕ → ℕ} {μ : ℕ} {t : Btree} {G : Outline}

theorem Page.newRoot_rests {left right : ℕ} (key : ℤ) (level : ℕ) (hl : left ≠ right)
    (hr : right ≠ NULL) : Rests (Page.newRoot left key right level) [⟨key, right⟩] := by
  have hrec : ∀ i, (Page.newRoot left key right level).records i
      = if i = 0 then ⟨key, right⟩ else ⟨longMax, NULL⟩ := by
    intro i
    show Function.update _ 0 _ i = _
    rw [Function.update_apply]
    rfl
  refine ⟨⟨by simp [cardinality_eq], ?_, ?_, ?_, by simp⟩, rfl, by simp [Increasing], ?_, ?_⟩
  · intro i hi
    have h0 : i = 0 := by simpa using hi
    subst i
    exact hrec 0
  · intro e he
    rw [List.mem_singleton.mp he]
    exact hr
  · show ((Page.newRoot left key right level).records 1).ptr = NULL
    rw [hrec]
    rfl
  · rw [distinct_cons]
    exact ⟨hl, by simp [Distinct]⟩
  · exact fun _ => ⟨by simp, rfl⟩

/-- The links of the tree with the new root. -/
theorem Follows.grow {R : ℕ → ℕ → List (Cell ℤ ℕ) → Page → Prop} (h : Follows alloc R t G)
    (R' : ℕ → ℕ → List (Cell ℤ ℕ) → Page → Prop) {e : Entry}
    (hfresh : ∀ l < G.height, ∀ x ∈ G.chain l, x.2 ≠ alloc t.allocated)
    (hroot : G.root ≠ NULL) (hpos : 0 < G.height)
    {t' : Btree} (hr : t'.root = alloc t.allocated) (ha : t.allocated < t'.allocated)
    (hnew : t'.pages (alloc t.allocated)
      = some (Page.newRoot G.root e.key e.ptr G.height))
    (hp : ∀ b, b ≠ alloc t.allocated → t'.pages b = t.pages b)
    (hRnew : R' G.height (alloc t.allocated) [] (Page.newRoot G.root e.key e.ptr G.height))
    (hR : ∀ l b B p, b ≠ alloc t.allocated → R l b B p → R' l b B p) :
    Follows alloc R' t' (G.grow (alloc t.allocated) e) := by
  have hcases : ∀ l, l < (G.grow (alloc t.allocated) e).height → l < G.height ∨ l = G.height := by
    intro l hl
    have : l < G.height + 1 := hl
    omega
  refine ⟨hr, ?_, ?_⟩
  · intro l hl A lo a B hc
    rcases hcases l hl with hl | rfl
    · rw [Outline.grow_chain hl] at hc
      have hx : ((lo, a) : Cell ℤ ℕ) ∈ G.chain l := by
        rw [hc]
        simp
      have hne : a ≠ alloc t.allocated := hfresh l hl _ hx
      obtain ⟨p, hpa, hpl, hRp⟩ := h.page l hl A lo a B hc
      have hlm : (G.grow (alloc t.allocated) e).leftmost a = G.leftmost a :=
        Function.update_of_ne hne _ _
      refine ⟨p, (hp a hne).trans hpa, ?_, hR l a B p hne hRp⟩
      exact ⟨hpl.level, hpl.live, by rw [hlm]; exact hpl.leftmostPtr, by rw [hlm]; exact hpl.leaf,
        hpl.siblingPtr, hpl.keys⟩
    · rw [Outline.grow_top] at hc
      have hplace : A = [] ∧ ((lo, a) : Cell ℤ ℕ) = (⊥, alloc t.allocated) ∧ B = [] := by
        cases A with
        | nil => exact ⟨rfl, (List.cons.inj hc).1.symm, (List.cons.inj hc).2.symm⟩
        | cons x A => simp at hc
      obtain ⟨rfl, hla, rfl⟩ := hplace
      obtain ⟨rfl, rfl⟩ := Prod.mk.inj hla
      have hlm : (G.grow (alloc t.allocated) e).leftmost (alloc t.allocated) = G.root :=
        Function.update_self _ _ _
      refine ⟨_, hnew, ⟨rfl, rfl, hlm.symm, ?_, rfl, fun _ => bot_le⟩, hRnew⟩
      rw [hlm]
      exact ⟨fun h0 => absurd h0 hroot, fun h0 => absurd h0 hpos.ne'⟩
  · intro l hl x hx
    rcases hcases l hl with hl | rfl
    · rw [Outline.grow_chain hl] at hx
      obtain ⟨i, hi, hxi⟩ := h.address l hl x hx
      exact ⟨i, by omega, hxi⟩
    · rw [Outline.grow_top] at hx
      rw [List.mem_singleton.mp hx]
      exact ⟨t.allocated, ha, rfl⟩

theorem AtRest.root_cell (h : AtRest alloc μ t G) (hpend : G.pending (G.height - 1) = none) :
    G.chain (G.height - 1) = [(⊥, G.root)] := by
  have hpos := h.outline.pos
  rw [h.outline.chain_eq _ (by omega), hpend, Outline.above_top (by omega)]
  rfl

/-- `setNewRoot` when the old root was split. -/
theorem AtRest.grow (h : AtRest alloc μ t G) (hal : Allocator alloc) {e : Entry}
    (hpend : G.pending (G.height - 1) = some e) (hfill : μ ≤ (G.entries G.root).length) :
    Always Btree.apply (fun t' => Readable alloc t' G ∨
        Readable alloc t' (G.grow (alloc t.allocated) e)) t
      (Btree.newRootStores t (alloc t.allocated) G.root e.key e.ptr G.height) ∧
    AtRest alloc μ (t.run (Btree.newRootStores t (alloc t.allocated) G.root e.key e.ptr G.height))
      (G.grow (alloc t.allocated) e) := by
  have hpos := h.outline.pos
  have htop : G.height - 1 < G.height := by omega
  have hg : G.Grows (alloc t.allocated) e := ⟨hpend, h.follows.unused hal (Nat.le_refl _)⟩
  have hchain : G.chain (G.height - 1) = [(⊥, G.root), cell e] := by
    rw [h.outline.chain_eq _ htop, hpend, Outline.above_top (by omega)]
    exact insert_split (X := [((⊥ : WithBot ℤ), G.root)]) (Y := []) (by simp) (by simp)
  have haddr := h.follows.address _ htop
  have hroot : G.root ≠ NULL := by
    obtain ⟨i, _, hi⟩ := haddr (⊥, G.root) (by rw [hchain]; simp)
    rw [show G.root = alloc i from hi]
    exact hal.ne_null i
  have he : e.ptr ≠ NULL := by
    obtain ⟨i, _, hi⟩ := haddr (cell e) (by rw [hchain]; simp)
    rw [show e.ptr = alloc i from hi]
    exact hal.ne_null i
  have hne : G.root ≠ e.ptr := by
    have hn := h.outline.nodup _ htop
    rw [hchain] at hn
    simpa [cell] using hn
  have hwf := h.outline.grow hg
  have hcont := h.outline.grow_contents hg
  obtain ⟨q, hq⟩ : ∃ q, q = Page.newRoot G.root e.key e.ptr G.height := ⟨_, rfl⟩
  obtain ⟨t1, ht1⟩ : ∃ t1, t1 = t.apply (.newPage (alloc t.allocated) q) := ⟨_, rfl⟩
  have hvalue : ∀ b ∈ (G.grow (alloc t.allocated) e).contents, b.ptr ≠ NULL := by
    rw [hcont]
    exact h.value
  have hfol : ∀ t', t'.root = alloc t.allocated → t'.pages = t1.pages →
      t'.allocated = t1.allocated →
      Follows alloc (fun _ a _ p => Rests p ((G.grow (alloc t.allocated) e).entries a)) t'
        (G.grow (alloc t.allocated) e) := by
    intro t' hr hp ha
    refine h.follows.grow _ hg.fresh hroot hpos hr ?_ ?_ ?_ ?_ ?_
    · rw [ha, ht1]
      exact Nat.lt_succ_self _
    · rw [hp, ht1, hq]
      exact Function.update_self _ _ _
    · intro b hb
      rw [hp, ht1]
      exact Function.update_of_ne hb _ _
    · rw [show (G.grow (alloc t.allocated) e).entries (alloc t.allocated) = [e] from
        Function.update_self _ _ _]
      exact Page.newRoot_rests e.key G.height hne he
    · intro l b B p hb hrest
      rw [show (G.grow (alloc t.allocated) e).entries b = G.entries b from
        Function.update_of_ne hb _ _]
      exact hrest
  have hreadable : ∀ t', t'.root = alloc t.allocated → t'.pages = t1.pages →
      t'.allocated = t1.allocated → Readable alloc t' (G.grow (alloc t.allocated) e) := by
    intro t' hr hp ha
    exact ⟨hwf, (hfol t' hr hp ha).mono (fun _ _ _ _ _ _ _ _ _ hr => hr.visible)⟩
  have hstores : Btree.newRootStores t (alloc t.allocated) G.root e.key e.ptr G.height
      = [.newPage (alloc t.allocated) q, .root (alloc t.allocated), .height (t.height + 1)] := by
    rw [hq]
    rfl
  rw [hstores]
  constructor
  · rw [always_cons, always_cons, always_cons, always_nil]
    refine ⟨Or.inl h.readable, Or.inl ?_, Or.inr ?_, Or.inr ?_⟩
    · rw [newPage_run]
      exact (h.outside hal q q).readable
    · rw [← ht1]
      exact hreadable _ rfl rfl rfl
    · rw [← ht1]
      exact hreadable _ rfl rfl rfl
  · have hrun : t.run [.newPage (alloc t.allocated) q, .root (alloc t.allocated),
        .height (t.height + 1)]
        = (t1.apply (.root (alloc t.allocated))).apply (.height (t.height + 1)) := by
      rw [ht1]
      rfl
    rw [hrun]
    have hcells : ∀ l < G.height + 1, ∀ x ∈ (G.grow (alloc t.allocated) e).chain l,
        x = (⊥, alloc t.allocated) ∨ l < G.height ∧ x ∈ G.chain l := by
      intro l hl x hx
      by_cases hlt : l < G.height
      · rw [Outline.grow_chain hlt] at hx
        exact Or.inr ⟨hlt, hx⟩
      · obtain rfl : l = G.height := by omega
        rw [Outline.grow_top] at hx
        exact Or.inl (List.mem_singleton.mp hx)
    refine ⟨hwf, hfol _ rfl rfl rfl, hvalue, by rw [hcont]; exact h.distinct, ?_, ?_,
      by rw [hcont]; exact h.key_bounded, ?_⟩
    · show t.height + 1 = G.height + 1
      rw [h.height]
    · intro l hl x hx
      rcases hcells l hl x hx with rfl | ⟨hlt, hx⟩
      · exact bot_le
      · exact h.chain_bounded l hlt x hx
    · intro l hl x hx
      rcases hcells l hl x hx with rfl | ⟨hlt, hx⟩
      · exact Or.inl rfl
      · rw [(hg.frame hlt hx).2]
        rcases h.filled l hlt x hx with hxr | hle
        · rw [hxr]
          exact Or.inr hfill
        · exact Or.inr hle

end

end PmemStudy.FastFair
