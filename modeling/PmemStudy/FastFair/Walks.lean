import PmemStudy.FastFair.Runs
import PmemStudy.FastFair.LinkedSections

/-!
# Searches while insertions are under way

A walk down may arrive to the left of the page it looks for, on every level. It goes on to
the right there, so it finds the leaf of its key, whatever separators are missing above.
-/

namespace PmemStudy.FastFair
open PmemStudy.Slots PmemStudy.Chain PmemStudy.Loop

theorem Linked.new (alloc : ℕ → ℕ) : Linked alloc (Btree.new alloc) (Outline.new alloc) := by
  have hl0 : ∀ l < (Outline.new alloc).height, l = 0 := fun l hl => Nat.lt_one_iff.mp hl
  refine ⟨⟨Nat.one_pos, ⟨fun _ _ => List.nodup_singleton _, ?_⟩, ?_, ?_, ?_, ?_, ?_, ?_, ?_, ?_⟩,
    rfl, ⟨rfl, ?_, ?_⟩, ?_⟩
  · intro l hl l' hl' _ _ _ _ _
    rw [hl0 l hl, hl0 l' hl']
  · exact fun l hl => absurd (hl0 _ hl) (Nat.succ_ne_zero l)
  · exact fun l hl => absurd (hl0 _ hl) (Nat.succ_ne_zero l)
  · exact fun _ _ _ _ e he => absurd he List.not_mem_nil
  · exact fun _ _ _ _ => List.Pairwise.nil
  · intro l _ x hx _
    rw [List.mem_singleton.mp hx]
    exact ⟨rfl, rfl⟩
  · exact List.pairwise_singleton _ _
  · exact fun _ _ _ _ _ e he => absurd he List.not_mem_nil
  · intro x hx
    rw [List.mem_singleton.mp hx]
    exact Or.inl rfl
  · intro l hl A lo a B hA
    have hA' : [((⊥ : WithBot ℤ), alloc 0)] = A ++ (lo, a) :: B := hA
    have hnil : A = [] ∧ B = [] := by
      have hlen := congrArg List.length hA'
      simp only [List.length_append, List.length_cons, List.length_nil] at hlen
      exact ⟨List.length_eq_zero_iff.mp (by omega), List.length_eq_zero_iff.mp (by omega)⟩
    obtain ⟨rfl, rfl⟩ := hnil
    obtain ⟨rfl, rfl⟩ := Prod.mk.inj (List.singleton_inj.mp hA')
    refine ⟨Page.new 0, by simp [Btree.new], ⟨(hl0 l hl).symm, rfl, rfl,
      ⟨fun _ => hl0 l hl, fun _ => rfl⟩, rfl, fun _ => bot_le⟩, Page.new_filled 0, fun _ => rfl⟩
  · intro l hl x hx
    exact ⟨0, Nat.one_pos, by rw [List.mem_singleton.mp hx]⟩
  · exact fun _ _ _ _ e he => absurd he List.not_mem_nil

/-! ### Inside a leaf -/

/-- The records that a search of a leaf looks at: it stops at a null pointer, but for the
first record. -/
def visible : List Entry → List Entry
  | [] => []
  | e :: es => e :: es.takeWhile fun d => decide (d.ptr ≠ NULL)

/-- What a leaf with the records `es` answers. -/
def read (es : List Entry) (key : ℤ) : ℕ := (find key NULL (visible es)).getD NULL

theorem visible_sublist (es : List Entry) : (visible es).Sublist es := by
  cases es with
  | nil => exact List.Sublist.refl _
  | cons e es => exact (List.takeWhile_sublist _).cons_cons e

theorem read_of_absent {es : List Entry} {k : ℤ} (h : ∀ e ∈ es, e.key ≠ k) : read es k = NULL := by
  unfold read
  rw [find_none (fun e he => h e ((visible_sublist es).mem he))]
  rfl

/-- An answer is the pointer of a record with the key. -/
theorem read_mem {es : List Entry} {k : ℤ} (h : read es k ≠ NULL) :
    (⟨k, read es k⟩ : Entry) ∈ es := by
  unfold read at h ⊢
  cases hf : find k NULL (visible es) with
  | none =>
    rw [hf] at h
    exact absurd rfl h
  | some v => exact (visible_sublist es).mem (find_some hf)

theorem visible_of_live {es : List Entry} (h : ∀ e ∈ es, e.ptr ≠ NULL) : visible es = es := by
  cases es with
  | nil => rfl
  | cons e es =>
    refine congrArg (List.cons e) (List.takeWhile_eq_self_iff.mpr ?_)
    intro d hd
    exact decide_eq_true (h d (List.mem_cons_of_mem e hd))

theorem takeWhile_stop {p : Entry → Bool} {l : List Entry} (h : (l.takeWhile p).length < l.length) :
    p l[(l.takeWhile p).length] = false := by
  induction l with
  | nil => exact absurd h (Nat.not_lt_zero _)
  | cons a l ih =>
    by_cases ha : p a = true
    · simp only [List.takeWhile_cons_of_pos ha, List.length_cons, List.getElem_cons_succ] at h ⊢
      exact ih (Nat.lt_of_succ_lt_succ h)
    · simp only [List.takeWhile_cons_of_neg ha, List.length_nil, List.getElem_cons_zero]
      exact Bool.eq_false_iff.mpr ha

/-- The first record that a search does not look at has a null pointer. -/
theorem visible_holds {p : Page} {es : List Entry} (h : Filled p es) (hne : es ≠ []) :
    Holds p (visible es) := by
  obtain ⟨e, rest, rfl⟩ := List.exists_cons_of_ne_nil hne
  have hpre : visible (e :: rest) <+: e :: rest :=
    List.cons_prefix_cons.mpr ⟨rfl, List.takeWhile_prefix _⟩
  have hle := hpre.length_le
  refine ⟨Nat.succ_pos _, by have := h.fits; omega, ?_, ?_, ?_⟩
  · intro i hi
    rw [h.record i (by omega)]
    exact (hpre.getElem hi).symm
  · intro i hi hpos
    obtain ⟨j, rfl⟩ : ∃ j, i = j + 1 := ⟨i - 1, by omega⟩
    have hmem : (visible (e :: rest))[j + 1] ∈ rest.takeWhile fun d => decide (d.ptr ≠ NULL) :=
      List.getElem_mem _
    exact of_decide_eq_true (List.mem_takeWhile_imp (p := fun d : Entry => decide (d.ptr ≠ NULL)) hmem)
  · rcases Nat.eq_or_lt_of_le hle with heq | hlt
    · rw [heq]
      exact h.terminator
    · rw [h.record _ hlt]
      have hstop : (rest.takeWhile fun d => decide (d.ptr ≠ NULL)).length < rest.length :=
        Nat.lt_of_succ_lt_succ hlt
      have hnot := takeWhile_stop hstop
      exact not_not.mp (of_decide_eq_false hnot)

theorem Stands.search {p : Page} {es : List Entry} (h : Stands p es) (hl : p.leftmostPtr = NULL)
    (k : ℤ) : p.search k = read es k := by
  by_cases hne : es = []
  · subst es
    have hplain : Plain p [] := ⟨h.fits, h.record, fun e he => absurd he List.not_mem_nil,
      h.terminator, h.empty⟩
    rw [hplain.shows_forward h.forward (fun _ => hl) k, answer, if_pos hl]
    rfl
  · rw [(visible_holds h.toFilled hne).shows (Stutter.refl _ _) h.forward k, answer, if_pos hl]
    rfl

section
variable {alloc : ℕ → ℕ} {t : Btree} {G : Outline} {l a : ℕ} {A B : List (Cell ℤ ℕ)}
  {lo : WithBot ℤ} {k : ℤ} {p : Page}

/-! ### One page on the way down -/

theorem Linked.node_live (h : Linked alloc t G) (hal : Allocator alloc) (hl : l + 1 < G.height)
    (ha : (lo, a) ∈ G.chain (l + 1)) :
    G.leftmost a ≠ NULL ∧ G.entries a ≠ [] ∧ ∀ e ∈ G.entries a, e.ptr ≠ NULL := by
  have hsub := h.woven.refs_subset hl ha
  refine ⟨?_, ?_, ?_⟩
  · exact h.follows.ne_null hal (by omega) (hsub (List.mem_cons_self (a := (lo, G.leftmost a))))
  · intro hnil
    have := (h.woven.lone _ hl _ ha hnil).1
    omega
  · intro e he
    have hcell : cell e ∈ refs lo (G.leftmost a) (G.entries a) :=
      List.mem_cons_of_mem _ (List.mem_map_of_mem he)
    exact h.follows.ne_null hal (by omega) (hsub hcell)

/-- The search of an internal page. -/
theorem Linked.node_search (h : Linked alloc t G) (hal : Allocator alloc) (hl : l + 1 < G.height)
    (hc : G.chain (l + 1) = A ++ (lo, a) :: B) (hp : t.pages a = some p) (k : ℤ) :
    p.leftmostPtr ≠ NULL ∧ p.search k = route k (G.leftmost a) (G.entries a) ∧
      p.search k ≠ NULL := by
  obtain ⟨p', hp', hpl, hstands⟩ := h.page hl hc
  rw [hp] at hp'
  obtain rfl := Option.some.inj hp'
  have hmem : ((lo, a) : Cell ℤ ℕ) ∈ G.chain (l + 1) := by
    rw [hc]
    simp
  obtain ⟨hlm, hne, hlive⟩ := h.node_live hal hl hmem
  have hlm' : p.leftmostPtr ≠ NULL := by
    rw [hpl.leftmostPtr]
    exact hlm
  have hplain : Plain p (G.entries a) := ⟨hstands.fits, hstands.record, hlive, hstands.terminator,
    hstands.empty⟩
  have hsearch : p.search k = route k (G.leftmost a) (G.entries a) := by
    rw [hplain.shows_forward hstands.forward (fun h0 => absurd h0 hne) k, answer, if_neg hlm',
      hpl.leftmostPtr]
  refine ⟨hlm', hsearch, ?_⟩
  rw [hsearch]
  rcases route_mem k (G.leftmost a) (G.entries a) with h0 | ⟨e, he, h0⟩
  · rw [h0]
    exact hlm
  · rw [h0]
    exact hlive e he

/-- At an internal page the search goes to the right neighbour, or one level down. -/
theorem Linked.node_step (h : Linked alloc t G) (hal : Allocator alloc) (hl : l + 1 < G.height)
    (hc : G.chain (l + 1) = A ++ (lo, a) :: B) (hlo : lo ≤ ↑k) :
    ∃ r, t.linearSearch a k = some r ∧
      ((∃ (z : Cell ℤ ℕ) (B' : List (Cell ℤ ℕ)), B = z :: B' ∧ z.1 ≤ ↑k ∧ r = z.2) ∨
        Landing (G.chain l) k r) := by
  obtain ⟨p, hp, _⟩ := h.page hl hc
  have hmem : ((lo, a) : Cell ℤ ℕ) ∈ G.chain (l + 1) := by
    rw [hc]
    simp
  obtain ⟨hlm, hsearch, hne⟩ := h.node_search hal hl hc hp k
  have hdown : Landing (G.chain l) k (p.search k) := by
    rw [hsearch]
    exact (landing_route hlo (h.woven.distinct hl hmem)).mono (h.woven.refs_subset hl hmem)
  rcases h.neighbour hal hl hc hp with ⟨_, h0⟩ | ⟨z, B', q, rfl, hsib, hz, hq, hqpl, _⟩
  · exact ⟨p.search k, linearSearch_node hp hlm hne (Or.inl h0), Or.inr hdown⟩
  · by_cases hk : (q.records 0).key ≤ k
    · refine ⟨z.2, ?_, Or.inl ⟨z, B', rfl, (hqpl.keys 0).trans (WithBot.coe_le_coe.mpr hk), rfl⟩⟩
      rw [← hsib] at hz hq ⊢
      exact linearSearch_right hp (fun h0 => absurd h0 hlm) hz hq hk
    · exact ⟨p.search k, linearSearch_node hp hlm hne (Or.inr ⟨q, by rw [hsib]; exact hq, hk⟩),
        Or.inr hdown⟩

theorem Linked.page_level (h : Linked alloc t G) (hl : l < G.height)
    (hc : G.chain l = A ++ (lo, a) :: B) :
    ∃ p, t.pages a = some p ∧ p.level = l ∧ (p.leftmostPtr = NULL ↔ l = 0) := by
  obtain ⟨p, hp, hpl, _⟩ := h.page hl hc
  refine ⟨p, hp, hpl.level, ?_⟩
  rw [hpl.leftmostPtr]
  exact hpl.leaf

theorem Linked.root_landing (h : Linked alloc t G) (k : ℤ) :
    Landing (G.chain (G.height - 1)) k t.root := by
  rw [h.top, h.follows.root]
  exact ⟨(⊥, G.root), List.mem_singleton_self _, rfl, bot_le⟩

/-! ### The walk down -/

theorem Linked.findLevel_lands (h : Linked alloc t G) (hal : Allocator alloc) (level d : ℕ)
    (hl : level + d < G.height) {c : ℕ} (hc : Landing (G.chain (level + d)) k c) :
    ∃ a, Yields (fun fuel => t.findLevel k level fuel c) a ∧ Landing (G.chain level) k a := by
  induction d generalizing c with
  | zero =>
    obtain ⟨A, lo, B, hAB, _⟩ := hc.split
    obtain ⟨p, hp, hlev, _⟩ := h.page_level hl hAB
    exact ⟨c, Yields.step (g := fun _ => some c) (.const (fun _ => rfl))
      (fun fuel => findLevel_stop k hp (by omega)), hc⟩
  | succ d ih =>
    obtain ⟨A, lo, B, hAB, hlo⟩ := hc.split
    clear hc
    -- along the level to the right, until the search goes down
    induction B generalizing A lo c with
    | nil =>
      obtain ⟨p, hp, hlev, _⟩ := h.page_level hl hAB
      obtain ⟨r, hr, hcase⟩ := h.node_step hal (l := level + d) hl hAB hlo
      rcases hcase with ⟨z, B', hnil, _⟩ | hdown
      · cases hnil
      · obtain ⟨a, hy, ha⟩ := ih (by omega) hdown
        exact ⟨a, hy.step (fun fuel => findLevel_node hp (by omega) hr), ha⟩
    | cons z B ihB =>
      obtain ⟨p, hp, hlev, _⟩ := h.page_level hl hAB
      obtain ⟨r, hr, hcase⟩ := h.node_step hal (l := level + d) hl hAB hlo
      rcases hcase with ⟨z', B', hcons, hz, rfl⟩ | hdown
      · obtain ⟨rfl, rfl⟩ := List.cons.inj hcons
        have hAB' : G.chain (level + (d + 1)) = (A ++ [(lo, c)]) ++ (z.1, z.2) :: B := by
          rw [hAB]
          simp
        obtain ⟨a, hy, ha⟩ := ihB (A ++ [(lo, c)]) z.1 hAB' hz
        exact ⟨a, hy.step (fun fuel => findLevel_node hp (by omega) hr), ha⟩
      · obtain ⟨a, hy, ha⟩ := ih (by omega) hdown
        exact ⟨a, hy.step (fun fuel => findLevel_node hp (by omega) hr), ha⟩

/-- A walk to the leaves stops where one to level 0 does. -/
theorem Linked.findLeaf_eq (h : Linked alloc t G) (hal : Allocator alloc) (k : ℤ) (fuel : ℕ)
    {c : ℕ} (hl : l < G.height) (hc : Landing (G.chain l) k c) :
    t.findLeaf k fuel c = t.findLevel k 0 fuel c := by
  induction fuel generalizing l c with
  | zero => rfl
  | succ fuel ih =>
    obtain ⟨A, lo, B, hAB, hlo⟩ := hc.split
    obtain ⟨p, hp, hlev, hleaf⟩ := h.page_level hl hAB
    cases l with
    | zero => rw [findLeaf_leaf k hp (hleaf.mpr rfl), findLevel_stop k hp (by omega)]
    | succ l =>
      have hlm : p.leftmostPtr ≠ NULL := fun h0 => absurd (hleaf.mp h0) (Nat.succ_ne_zero l)
      obtain ⟨r, hr, hcase⟩ := h.node_step hal hl hAB hlo
      rw [findLeaf_node hp hlm hr, findLevel_node hp (by omega) hr]
      rcases hcase with ⟨z, B', rfl, hz, rfl⟩ | hdown
      · exact ih hl ⟨z, by rw [hAB]; simp, rfl, hz⟩
      · exact ih (by omega) hdown

theorem Linked.findLeaf_lands (h : Linked alloc t G) (hal : Allocator alloc) (k : ℤ) :
    ∃ a, Yields (fun fuel => t.findLeaf k fuel t.root) a ∧ Landing (G.chain 0) k a := by
  have hpos := h.woven.pos
  have hroot := h.root_landing k
  obtain ⟨a, ha, hland⟩ := h.findLevel_lands hal (k := k) 0 (G.height - 1) (by omega)
    (c := t.root) (by rw [Nat.zero_add]; exact hroot)
  refine ⟨a, ?_, hland⟩
  obtain ⟨n, hn⟩ := ha
  refine ⟨n, ?_⟩
  intro fuel hf
  exact (h.findLeaf_eq hal k fuel (show G.height - 1 < G.height by omega) hroot).trans (hn fuel hf)

/-! ### Along the leaves -/

theorem Linked.leaf_search (h : Linked alloc t G) (hc : G.chain 0 = A ++ (lo, a) :: B)
    (hp : t.pages a = some p) (k : ℤ) :
    p.leftmostPtr = NULL ∧ p.search k = read (G.entries a) k := by
  obtain ⟨p', hp', hpl, hstands⟩ := h.page h.woven.pos hc
  rw [hp] at hp'
  obtain rfl := Option.some.inj hp'
  have hlm : p.leftmostPtr = NULL := by
    rw [hpl.leftmostPtr]
    exact hpl.leaf.mpr rfl
  exact ⟨hlm, hstands.search hlm k⟩

/-- The leaf that the key belongs to answers, or no leaf does. -/
theorem Linked.leaf_answers (h : Linked alloc t G) (hal : Allocator alloc)
    (hc : G.chain 0 = A ++ (lo, a) :: B) (hB : ∀ z ∈ B, (k : WithBot ℤ) < z.1)
    (hread : read (G.entries a) k = nextAddress B → read (G.entries a) k = NULL) :
    ∃ q, Yields (fun fuel => t.followSiblings k fuel a) (q, read (G.entries a) k) := by
  have hpos := h.woven.pos
  obtain ⟨p, hp, hpl, _⟩ := h.page hpos hc
  obtain ⟨hlm, hsearch⟩ := h.leaf_search hc hp k
  have hone : ∀ {q : ℕ}, (∀ fuel, t.followSiblings k (fuel + 1) a =
      some (q, read (G.entries a) k)) →
      Yields (fun fuel => t.followSiblings k fuel a) (q, read (G.entries a) k) := fun hq =>
    Yields.step (g := fun _ => some (_, read (G.entries a) k)) (.const (fun _ => rfl)) hq
  have hsib : p.siblingPtr = NULL ∨
      ∃ s, t.pages p.siblingPtr = some s ∧ ¬ (s.records 0).key ≤ k := by
    rcases h.neighbour hal hpos hc hp with ⟨_, h0⟩ | ⟨z, B', q, rfl, hz, _, hq, hqpl, _⟩
    · exact Or.inl h0
    · refine Or.inr ⟨q, by rw [hz]; exact hq, ?_⟩
      have hlt := (hB z List.mem_cons_self).trans_le (hqpl.keys 0)
      exact not_le.mpr (WithBot.coe_lt_coe.mp hlt)
  by_cases h0 : p.search k = NULL
  · have hstop := linearSearch_stop hp hlm h0 hsib
    rw [← hsearch, h0] at hone ⊢
    by_cases hend : p.siblingPtr = NULL
    · exact ⟨NULL, hone (fun fuel => follow_end hp hstop hend)⟩
    · exact ⟨a, hone (fun fuel => follow_found hp hstop (Ne.symm hend))⟩
  · have hleaf := linearSearch_leaf hp hlm h0
    have hne : p.search k ≠ p.siblingPtr := by
      rw [hsearch, hpl.siblingPtr] at *
      exact fun heq => h0 (hread heq)
    rw [← hsearch] at hone ⊢
    exact ⟨a, hone (fun fuel => follow_found hp hleaf hne)⟩

/-- A pointer to the right neighbour is taken for the neighbour. -/
theorem Linked.leaf_home (h : Linked alloc t G) (hal : Allocator alloc)
    (hc : G.chain 0 = A ++ (lo, a) :: B) (hB : ∀ z ∈ B, (k : WithBot ℤ) < z.1) :
    ∃ q, Yields (fun fuel => t.followSiblings k fuel a)
      (q, if read (G.entries a) k = nextAddress B then NULL else read (G.entries a) k) := by
  have hpos := h.woven.pos
  by_cases hread : read (G.entries a) k = nextAddress B → read (G.entries a) k = NULL
  · obtain ⟨q, hq⟩ := h.leaf_answers hal hc hB hread
    refine ⟨q, ?_⟩
    split
    · next heq => rwa [hread heq] at hq
    · exact hq
  · obtain ⟨heq, hne⟩ := Classical.not_imp.mp hread
    rw [if_pos heq]
    obtain ⟨p, hp, hpl, _⟩ := h.page hpos hc
    obtain ⟨hlm, hsearch⟩ := h.leaf_search hc hp k
    cases B with
    | nil => exact absurd heq hne
    | cons z B =>
      have hz : p.siblingPtr = z.2 := hpl.siblingPtr
      have hzk := hB z List.mem_cons_self
      have hc' : G.chain 0 = (A ++ [(lo, a)]) ++ (z.1, z.2) :: B := by
        rw [hc]
        simp
      have habsent : ∀ e ∈ G.entries z.2, e.key ≠ k := by
        intro e he hek
        have hbound := h.woven.bound 0 hpos z (by rw [hc]; simp) e he
        rw [hek] at hbound
        exact not_le.mpr hzk hbound
      have hnull := read_of_absent habsent
      obtain ⟨q, hq⟩ := h.leaf_answers hal hc' (fun w hw => hB w (List.mem_cons_of_mem z hw))
        (fun _ => hnull)
      rw [hnull] at hq
      have hlinear : t.linearSearch a k = some p.siblingPtr := by
        rw [linearSearch_leaf hp hlm (by rwa [hsearch]), hsearch, heq, hz]
        rfl
      refine ⟨q, Yields.step hq fun fuel => ?_⟩
      rw [← hz]
      refine follow_right hp hlinear ?_
      rw [hz]
      exact fun h0 => hne (heq.trans h0)

/-- A leaf to the left of the one that the key belongs to sends the search to the right. -/
theorem Linked.leaf_right (h : Linked alloc t G) (hal : Allocator alloc) {z : Cell ℤ ℕ}
    (hc : G.chain 0 = A ++ (lo, a) :: z :: B) (hz : z.1 ≤ ↑k) :
    ∃ p, t.pages a = some p ∧ p.siblingPtr = z.2 ∧ z.2 ≠ NULL ∧
      t.linearSearch a k = some p.siblingPtr := by
  have hpos := h.woven.pos
  obtain ⟨p, hp, _⟩ := h.page hpos hc
  obtain ⟨hlm, hsearch⟩ := h.leaf_search hc hp k
  have hs := h.woven.leaf_sorted
  rw [hc, sorted_mid] at hs
  have habsent : ∀ e ∈ G.entries a, e.key ≠ k := by
    intro e he hek
    have hlt := h.woven.leaf_below (lo, a) (by rw [hc]; simp) z (by rw [hc]; simp)
      (hs.2.2.2 z List.mem_cons_self) e he
    rw [hek] at hlt
    exact absurd hz (not_le.mpr hlt)
  rcases h.neighbour hal hpos hc hp with ⟨hnil, _⟩ | ⟨z', B', q, hcons, hsib, hne, hq, _, hqs⟩
  · cases hnil
  · obtain ⟨rfl, rfl⟩ := List.cons.inj hcons
    have hbound := h.leaf_bound hc hqs
    rw [hbound] at hz
    refine ⟨p, hp, hsib, hne, linearSearch_right hp (fun _ => ?_) (by rw [hsib]; exact hne)
      (by rw [hsib]; exact hq) (WithBot.coe_le_coe.mp hz)⟩
    rw [hsearch]
    exact read_of_absent habsent

/-- The walk along the leaves comes to the leaf that the key belongs to. -/
theorem Linked.follow_walk (h : Linked alloc t G) (hal : Allocator alloc)
    (hc : G.chain 0 = A ++ (lo, a) :: B) (hlo : lo ≤ ↑k) :
    ∃ b, AtHome (G.chain 0) k b ∧ ∀ found, Yields (fun fuel => t.followSiblings k fuel b) found →
      Yields (fun fuel => t.followSiblings k fuel a) found := by
  induction B generalizing A lo a with
  | nil => exact ⟨a, ⟨A, lo, [], hc, hlo, by simp⟩, fun _ hy => hy⟩
  | cons z B ih =>
    by_cases hz : z.1 ≤ (k : WithBot ℤ)
    · have hc' : G.chain 0 = (A ++ [(lo, a)]) ++ (z.1, z.2) :: B := by
        rw [hc]
        simp
      obtain ⟨b, hb, hq⟩ := ih hc' hz
      obtain ⟨p, hp, hsib, hne, hr⟩ := h.leaf_right hal hc hz
      refine ⟨b, hb, fun found hy => (hq found hy).step (fun fuel => ?_)⟩
      rw [← hsib] at hne ⊢
      exact follow_right hp hr hne
    · have hs := h.woven.leaf_sorted
      rw [hc, sorted_mid] at hs
      have hB : ∀ w ∈ z :: B, (k : WithBot ℤ) < w.1 := by
        intro w hw
        rcases List.mem_cons.mp hw with rfl | hw
        · exact not_le.mp hz
        · exact (not_le.mp hz).trans ((List.pairwise_cons.mp hs.2.1).1 w hw)
      exact ⟨a, ⟨A, lo, z :: B, hc, hlo, hB⟩, fun _ hy => hy⟩

/-- `btree_search` gives what the walk along the leaves finds at the leaf of the key. -/
theorem Linked.search_walk (h : Linked alloc t G) (hal : Allocator alloc) (k : ℤ) :
    ∃ b, AtHome (G.chain 0) k b ∧ ∀ q r, Yields (fun fuel => t.followSiblings k fuel b) (q, r) →
      Yields (fun fuel => Btree.btreeSearch fuel t k) r := by
  obtain ⟨a, hleaf, hland⟩ := h.findLeaf_lands hal k
  obtain ⟨A, lo, B, hc, hlo⟩ := hland.split
  obtain ⟨b, hb, hf⟩ := h.follow_walk hal hc hlo
  refine ⟨b, hb, fun q r hy => ?_⟩
  exact hleaf.bind (g := fun fuel a => (t.followSiblings k fuel a).bind fun found => some found.2)
    ((hf (q, r) hy).bind (g := fun _ found => some found.2) (.const (fun _ => rfl)))

/-- `btree_search` answers what the leaf of the key does. -/
theorem Linked.search_home (h : Linked alloc t G) (hal : Allocator alloc) (k : ℤ) :
    ∃ A lo b B, G.chain 0 = A ++ (lo, b) :: B ∧ AtHome (G.chain 0) k b ∧
      Yields (fun fuel => Btree.btreeSearch fuel t k)
        (if read (G.entries b) k = nextAddress B then NULL else read (G.entries b) k) := by
  obtain ⟨b, hb, hf⟩ := h.search_walk hal k
  obtain ⟨A, lo, B, hc, _, hB⟩ := id hb
  obtain ⟨q, hq⟩ := h.leaf_home hal hc hB
  exact ⟨A, lo, b, B, hc, hb, hf q _ hq⟩

/-- The right neighbour is a page of the tree. -/
theorem Linked.nextAddress_eq (h : Linked alloc t G) (hc : G.chain 0 = A ++ (lo, a) :: B) :
    nextAddress B = NULL ∨ ∃ i, nextAddress B = alloc i := by
  cases B with
  | nil => exact .inl rfl
  | cons z B =>
    obtain ⟨i, _, hi⟩ := h.follows.address 0 h.woven.pos z (by rw [hc]; simp)
    exact .inr ⟨i, hi⟩

/-- An answer that is not the address of a page is given. -/
theorem Linked.search_yields_read (h : Linked alloc t G) (hal : Allocator alloc) (k : ℤ) :
    ∃ b, AtHome (G.chain 0) k b ∧ ((∀ i, read (G.entries b) k ≠ alloc i) →
      Yields (fun fuel => Btree.btreeSearch fuel t k) (read (G.entries b) k)) := by
  obtain ⟨A, lo, b, B, hc, hb, hy⟩ := h.search_home hal k
  refine ⟨b, hb, fun hread => ?_⟩
  split at hy
  · next heq =>
    rcases h.nextAddress_eq hc with h0 | ⟨i, hi⟩
    · rwa [← h0, ← heq] at hy
    · exact absurd (heq.trans hi) (hread i)
  · exact hy

theorem Linked.search_yields (h : Linked alloc t G) (hal : Allocator alloc)
    (hvalue : ∀ e ∈ G.contents, ∀ i, e.ptr ≠ alloc i) (k : ℤ) :
    ∃ b, AtHome (G.chain 0) k b ∧
      Yields (fun fuel => Btree.btreeSearch fuel t k) (read (G.entries b) k) := by
  obtain ⟨b, hb, hy⟩ := h.search_yields_read hal k
  refine ⟨b, hb, hy fun i => ?_⟩
  by_cases h0 : read (G.entries b) k = NULL
  · rw [h0]
    exact (hal.ne_null i).symm
  · obtain ⟨x, hx, rfl⟩ := List.mem_map.mp hb.mem
    exact hvalue _ (mem_contents hx (read_mem h0)) i

/-- A stored entry is in the leaf that its key belongs to. -/
theorem Outline.Woven.entry_home (h : G.Woven) {x : Cell ℤ ℕ} (hx : x ∈ G.chain 0) {e : Entry}
    (he : e ∈ G.entries x.2) : AtHome (G.chain 0) e.key x.2 :=
  .of_cell h.leaf_sorted hx (h.bound 0 h.pos x hx e he)
    (fun y hy hlt => h.leaf_below x hx y hy hlt e he)

/-- The records of a leaf are in strict order when no key is stored twice. -/
theorem Outline.Woven.leaf_increasing (h : G.Woven) (hn : (G.contents.map (·.key)).Nodup)
    {x : Cell ℤ ℕ} (hx : x ∈ G.chain 0) : Increasing (G.entries x.2) := by
  obtain ⟨A, B, hAB⟩ := List.append_of_mem hx
  have hsub : (G.entries x.2).Sublist G.contents := Outline.entries_sublist hAB
  have hkeys := hn.sublist (hsub.map (·.key))
  rw [List.Nodup, List.pairwise_map] at hkeys
  exact ((h.ascending 0 h.pos x hx).and hkeys).imp fun hab => lt_of_le_of_ne hab.1 hab.2

end

end PmemStudy.FastFair
