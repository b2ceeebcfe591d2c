import PmemStudy.Lib.RightLinks
import PmemStudy.FastFair.Filled
import PmemStudy.FastFair.SplitTree

/-!
# Levels held together by right links

Between a split and the insertion of its separator other insertions go on, and separators
arrive in any order. The outline then says less than that of a tree at rest: what a level
refers to is in the level below, no page is referred to twice, and only the leaves are in the
order of their bounds.
-/

namespace PmemStudy.FastFair
open PmemStudy.Slots PmemStudy.Chain

namespace Outline

/-- The pages of level `l` that level `l + 1` refers to. -/
def referred (G : Outline) (l : ℕ) : List (Cell ℤ ℕ) :=
  expand G.leftmost G.entries (G.chain (l + 1))

structure Woven (G : Outline) : Prop where
  pos : 0 < G.height
  apart : G.Apart
  child : ∀ l, l + 1 < G.height → G.referred l ⊆ G.chain l
  once : ∀ l, l + 1 < G.height → ((G.referred l).map (·.2)).Nodup
  bound : ∀ l < G.height, ∀ x ∈ G.chain l, ∀ e ∈ G.entries x.2, x.1 ≤ ↑e.key
  ascending : ∀ l < G.height, ∀ x ∈ G.chain l, Ascending (G.entries x.2)
  lone : ∀ l < G.height, ∀ x ∈ G.chain l, G.entries x.2 = [] → G.height = 1 ∧ G.chain 0 = [x]
  leaf_sorted : Sorted (G.chain 0)
  leaf_below : ∀ x ∈ G.chain 0, ∀ y ∈ G.chain 0, x.1 < y.1 → ∀ e ∈ G.entries x.2, ↑e.key < y.1
  leaf_first : ∀ x ∈ G.chain 0, x.1 = ⊥ ∨ ∃ e es, G.entries x.2 = e :: es ∧ x.1 = ↑e.key

/-- The separator `e` of a page of level `l` is still to be put into the level above. -/
structure Missing (G : Outline) (l : ℕ) (e : Entry) : Prop where
  level : l + 1 < G.height
  page : cell e ∈ G.chain l
  unreferred : e.ptr ∉ (G.referred l).map (·.2)

variable {G : Outline}

theorem Apart.cell_unique (h : G.Apart) {l l' : ℕ} (hl : l < G.height) (hl' : l' < G.height)
    {x y : Cell ℤ ℕ} (hx : x ∈ G.chain l) (hy : y ∈ G.chain l') (hxy : x.2 = y.2) :
    l = l' ∧ x = y := by
  obtain rfl := h.disjoint l hl l' hl' x hx y hy hxy
  obtain ⟨A, B, hAB⟩ := List.append_of_mem hx
  obtain ⟨A', B', hAB'⟩ := List.append_of_mem hy
  have hc : G.chain l = A ++ (x.1, x.2) :: B := hAB
  have hc' : G.chain l = A' ++ (y.1, x.2) :: B' := by
    rw [hxy]
    exact hAB'
  exact ⟨rfl, Prod.ext (h.split_unique hl hc hc').2.1 hxy⟩

/-- The pointers of an internal page differ. -/
theorem Woven.distinct (h : G.Woven) {l : ℕ} (hl : l + 1 < G.height) {x : Cell ℤ ℕ}
    (hx : x ∈ G.chain (l + 1)) : Distinct (G.leftmost x.2) (G.entries x.2) := by
  have hn := h.once l hl
  obtain ⟨A, B, hAB⟩ := List.append_of_mem hx
  unfold referred at hn
  rw [hAB, expand_append, expand_cons] at hn
  have hsub : (refs x.1 (G.leftmost x.2) (G.entries x.2)).Sublist
      (expand G.leftmost G.entries A ++ (refs x.1 (G.leftmost x.2) (G.entries x.2) ++
        expand G.leftmost G.entries B)) :=
    (List.sublist_append_left _ _).trans (List.sublist_append_right _ _)
  have hrefs := hn.sublist (hsub.map _)
  refine distinct_of_nodup_cons ?_
  simpa [refs, cell, Function.comp_def] using hrefs

/-- What a page refers to is in the level below. -/
theorem Woven.refs_subset (h : G.Woven) {l : ℕ} (hl : l + 1 < G.height) {x : Cell ℤ ℕ}
    (hx : x ∈ G.chain (l + 1)) : refs x.1 (G.leftmost x.2) (G.entries x.2) ⊆ G.chain l := by
  intro y hy
  exact h.child l hl (List.mem_flatMap.mpr ⟨x, hx, hy⟩)

/-! ### An entry is put into a page -/

/-- The entry goes to position `c` of the page at `a`. In a leaf that is the page of its key;
above it is any page the key may be to the right of. -/
structure Puts (G : Outline) (l a c : ℕ) (e : Entry) : Prop where
  level : l < G.height
  spot : Spot (G.entries a) e.key c
  landing : Landing (G.chain l) e.key a
  leaf : l = 0 → AtHome (G.chain 0) e.key a
  node : ∀ l', l' + 1 = l → G.Missing l' e

section
variable {l a c : ℕ} {e : Entry}

theorem insertEntry_self : (G.insertEntry l a c e).entries a = (G.entries a).insertIdx c e :=
  Function.update_self _ _ _

theorem insertEntry_other {b : ℕ} (hb : b ≠ a) :
    (G.insertEntry l a c e).entries b = G.entries b := Function.update_of_ne hb _ _

/-- The levels above other pages refer to the same pages. -/
theorem insertEntry_referred (h : G.Apart) (hl : l < G.height) (ha : a ∈ (G.chain l).map (·.2))
    {l' : ℕ} (hl' : l' + 1 < G.height) (hne : l' + 1 ≠ l) :
    (G.insertEntry l a c e).referred l' = G.referred l' := by
  refine expand_congr ?_
  intro x hx
  exact ⟨rfl, insertEntry_other (h.ne_of_level hl' hl hne ha hx)⟩

theorem Puts.mem (hp : G.Puts l a c e) : a ∈ (G.chain l).map (·.2) := by
  obtain ⟨x, hx, rfl, _⟩ := hp.landing
  exact List.mem_map_of_mem hx

/-- An entry that is put into a leaf is stored; above the leaves it is not. -/
theorem Puts.contents (hp : G.Puts l a c e) (h : G.Apart) (hpos : 0 < G.height) :
    (l = 0 → (G.insertEntry l a c e).contents.Perm (e :: G.contents)) ∧
    (l ≠ 0 → (G.insertEntry l a c e).contents = G.contents) := by
  constructor
  · rintro rfl
    obtain ⟨A, lo, B, hc, _⟩ := hp.landing.split
    exact h.insertEntry_perm hpos hc hp.spot.le
  · intro hl
    obtain ⟨m, rfl⟩ : ∃ m, l = m + 1 := ⟨l - 1, by omega⟩
    exact h.insertEntry_contents hpos hp.level hp.mem

theorem Puts.referred (hp : G.Puts (l + 1) a c e) (h : G.Apart) :
    ((G.insertEntry (l + 1) a c e).referred l).Perm (cell e :: G.referred l) := by
  obtain ⟨A, lo, B, hc, _⟩ := hp.landing.split
  have hn := h.nodup _ hp.level
  rw [hc] at hn
  unfold Outline.referred
  rw [show (G.insertEntry (l + 1) a c e).chain (l + 1) = G.chain (l + 1) from rfl, hc]
  exact expand_put hn hp.spot.le

theorem Spot.first {es : List Entry} {e0 : Entry} (hs : Spot (e0 :: es) e.key c)
    (h0 : e0.key ≤ e.key) : ∃ d, c = d + 1 ∧ (e0 :: es).insertIdx c e = e0 :: es.insertIdx d e := by
  cases c with
  | zero =>
    have := hs.behind 0 (Nat.succ_pos _) (le_refl 0)
    rw [List.getElem_cons_zero] at this
    omega
  | succ d => exact ⟨d, rfl, rfl⟩

theorem Woven.insertEntry (h : G.Woven) (hp : G.Puts l a c e) : (G.insertEntry l a c e).Woven := by
  obtain ⟨⟨lo, a'⟩, hx, rfl, hlo⟩ := hp.landing
  have hother : ∀ l' < G.height, ∀ x ∈ G.chain l', x ≠ (lo, a') →
      (G.insertEntry l a' c e).entries x.2 = G.entries x.2 := by
    intro l' hl' x hx' hne
    refine insertEntry_other ?_
    intro hxa
    exact hne (h.apart.cell_unique hl' hp.level hx' hx hxa).2
  have hself : (G.insertEntry l a' c e).entries a' = (G.entries a').insertIdx c e :=
    insertEntry_self
  have hmem : ∀ l' < G.height, ∀ x ∈ G.chain l', ∀ b ∈ (G.insertEntry l a' c e).entries x.2,
      (x = (lo, a') ∧ b = e) ∨ b ∈ G.entries x.2 := by
    intro l' hl' x hx' b hb
    by_cases hxa : x = (lo, a')
    · subst x
      rw [hself] at hb
      rcases (List.mem_insertIdx hp.spot.le).mp hb with rfl | hb
      · exact Or.inl ⟨rfl, rfl⟩
      · exact Or.inr hb
    · rw [hother l' hl' x hx' hxa] at hb
      exact Or.inr hb
  refine ⟨h.pos, ⟨h.apart.nodup, h.apart.disjoint⟩, ?_, ?_, ?_, ?_, ?_, h.leaf_sorted, ?_, ?_⟩
  · intro l' hl'
    by_cases hll : l' + 1 = l
    · subst l
      intro y hy
      rcases List.mem_cons.mp ((hp.referred h.apart).mem_iff.mp hy) with rfl | hy
      · exact (hp.node l' rfl).page
      · exact h.child l' hl' hy
    · rw [insertEntry_referred h.apart hp.level hp.mem hl' hll]
      exact h.child l' hl'
  · intro l' hl'
    by_cases hll : l' + 1 = l
    · subst l
      rw [((hp.referred h.apart).map (·.2)).nodup_iff, List.map_cons, List.nodup_cons]
      exact ⟨(hp.node l' rfl).unreferred, h.once l' hl'⟩
    · rw [insertEntry_referred h.apart hp.level hp.mem hl' hll]
      exact h.once l' hl'
  · intro l' hl' x hx' b hb
    rcases hmem l' hl' x hx' b hb with ⟨rfl, rfl⟩ | hb
    · exact hlo
    · exact h.bound l' hl' x hx' b hb
  · intro l' hl' x hx'
    by_cases hxa : x = (lo, a')
    · subst x
      rw [hself]
      exact (h.ascending l' hl' _ hx').insert hp.spot
    · rw [hother l' hl' x hx' hxa]
      exact h.ascending l' hl' x hx'
  · intro l' hl' x hx' hnil
    by_cases hxa : x = (lo, a')
    · subst x
      rw [hself] at hnil
      have hlen := List.length_insertIdx_of_le_length hp.spot.le e
      rw [hnil] at hlen
      cases hlen
    · rw [hother l' hl' x hx' hxa] at hnil
      exact h.lone l' hl' x hx' hnil
  · intro x hx' y hy hxy b hb
    rcases hmem 0 h.pos x hx' b hb with ⟨rfl, rfl⟩ | hb
    · obtain ⟨rfl, _⟩ := h.apart.cell_unique h.pos hp.level hx' hx rfl
      obtain ⟨A, lo', B, hc, _, hB⟩ := hp.leaf rfl
      have hxc : ((lo', a') : Cell ℤ ℕ) ∈ G.chain 0 := by
        rw [hc]
        simp
      obtain ⟨_, hcell⟩ := h.apart.cell_unique h.pos h.pos hx' hxc rfl
      obtain rfl : lo = lo' := congrArg Prod.fst hcell
      have hs := h.leaf_sorted
      rw [hc, sorted_mid] at hs
      have hyc : y ∈ G.chain 0 := hy
      rw [hc] at hyc
      rcases List.mem_append.mp hyc with hy | hy
      · exact absurd hxy (lt_asymm (hs.2.2.1 y hy))
      · rcases List.mem_cons.mp hy with rfl | hy
        · exact absurd hxy (lt_irrefl _)
        · exact hB y hy
    · exact h.leaf_below x hx' y hy hxy b hb
  · intro x hx'
    by_cases hxa : x = (lo, a')
    · subst x
      rcases h.leaf_first _ hx' with hbot | ⟨e0, es, hes, he0⟩
      · exact Or.inl hbot
      · refine Or.inr ?_
        rw [hself]
        have hs := hp.spot
        dsimp only at hes he0
        rw [hes] at hs ⊢
        rw [he0] at hlo
        obtain ⟨d, _, hins⟩ := Spot.first hs (WithBot.coe_le_coe.mp hlo)
        exact ⟨e0, es.insertIdx d e, hins, he0⟩
    · rw [hother 0 h.pos x hx' hxa]
      exact h.leaf_first x hx'

end

/-! ### A page is cut in two -/

/-- The page at `a` keeps `left`; the new page at `b` comes behind it and gets `right`. -/
def sever (G : Outline) (l : ℕ) (A : List (Cell ℤ ℕ)) (lo : WithBot ℤ) (a : ℕ)
    (B : List (Cell ℤ ℕ)) (s : ℤ) (b lm : ℕ) (left right : List Entry) : Outline :=
  { G with
    chain := Function.update G.chain l (A ++ (lo, a) :: (↑s, b) :: B)
    leftmost := Function.update G.leftmost b lm
    entries := Function.update (Function.update G.entries a left) b right }

/-- In an internal page the separator leaves the page, and its pointer becomes the leftmost
one of the new page. -/
structure Severs (G : Outline) (l : ℕ) (A : List (Cell ℤ ℕ)) (lo : WithBot ℤ) (a : ℕ)
    (B : List (Cell ℤ ℕ)) (s : ℤ) (b lm : ℕ) (left right : List Entry) : Prop where
  level : l < G.height
  chain : G.chain l = A ++ (lo, a) :: B
  fresh : ∀ l' < G.height, ∀ x ∈ G.chain l', x.2 ≠ b
  left_ne : left ≠ []
  right_ne : right ≠ []
  entries : G.entries a = left ++ if l = 0 then right else ⟨s, lm⟩ :: right
  least : ∀ e ∈ right, s ≤ e.key
  leaf : l = 0 → (∀ e ∈ left, e.key < s) ∧ ∃ v ys, right = ⟨s, v⟩ :: ys

section
variable {l a b lm : ℕ} {A B : List (Cell ℤ ℕ)} {lo : WithBot ℤ} {s : ℤ} {left right : List Entry}

theorem Severs.cuts (hs : G.Severs l A lo a B s b lm left right) :
    G.Cuts (G.sever l A lo a B s b lm left right) l A B lo a (↑s, b) :=
  ⟨rfl, rfl, hs.level, hs.chain, Function.update_self _ _ _,
    fun _ hne => Function.update_of_ne hne _ _, fun _ hne => Function.update_of_ne hne _ _,
    hs.fresh⟩

theorem Cuts.mem {G' : Outline} {x : Cell ℤ ℕ} (hs : G.Cuts G' l A B lo a x) {l' : ℕ}
    {y : Cell ℤ ℕ} (hy : y ∈ G'.chain l') : (l' = l ∧ y = x) ∨ y ∈ G.chain l' := by
  by_cases hll : l' = l
  · subst l'
    rw [hs.chain_cut] at hy
    rw [hs.chain]
    simp only [List.mem_append, List.mem_cons] at hy ⊢
    tauto
  · rw [hs.chain_other l' hll] at hy
    exact Or.inr hy

theorem Cuts.subset {G' : Outline} {x : Cell ℤ ℕ} (hs : G.Cuts G' l A B lo a x) (l' : ℕ) :
    G.chain l' ⊆ G'.chain l' := by
  intro y hy
  by_cases hll : l' = l
  · subst l'
    rw [hs.chain] at hy
    rw [hs.chain_cut]
    simp only [List.mem_append, List.mem_cons] at hy ⊢
    tauto
  · rw [hs.chain_other l' hll]
    exact hy

theorem Cuts.apart {G' : Outline} {x : Cell ℤ ℕ} (hs : G.Cuts G' l A B lo a x) (h : G.Apart) :
    G'.Apart := by
  constructor
  · intro l' hl'
    rw [hs.height] at hl'
    by_cases hll : l' = l
    · subst l'
      rw [hs.chain_cut]
      exact hs.nodup h
    · rw [hs.chain_other l' hll]
      exact h.nodup l' hl'
  · intro l1 hl1 l2 hl2 y hy z hz hyz
    rw [hs.height] at hl1 hl2
    rcases hs.mem hy with ⟨rfl, rfl⟩ | hy
    · rcases hs.mem hz with ⟨rfl, _⟩ | hz
      · rfl
      · exact absurd hyz.symm (hs.fresh l2 hl2 z hz)
    · rcases hs.mem hz with ⟨rfl, rfl⟩ | hz
      · exact absurd hyz (hs.fresh l1 hl1 y hy)
      · exact h.disjoint l1 hl1 l2 hl2 y hy z hz hyz

theorem Severs.page (hs : G.Severs l A lo a B s b lm left right) : (lo, a) ∈ G.chain l := by
  rw [hs.chain]
  simp

theorem Severs.old (hs : G.Severs l A lo a B s b lm left right) :
    (G.sever l A lo a B s b lm left right).entries a = left := by
  show Function.update (Function.update G.entries a left) b right a = left
  rw [Function.update_of_ne hs.cuts.ne, Function.update_self]

theorem Severs.new : (G.sever l A lo a B s b lm left right).entries b = right :=
  Function.update_self _ _ _

theorem Severs.other (hs : G.Severs l A lo a B s b lm left right) (h : G.Apart) {l' : ℕ}
    (hl' : l' < G.height) {x : Cell ℤ ℕ} (hx : x ∈ G.chain l') (hne : x ≠ (lo, a)) :
    (G.sever l A lo a B s b lm left right).entries x.2 = G.entries x.2 := by
  have hxa : x.2 ≠ a := fun hxa => hne (h.cell_unique hl' hs.level hx hs.page hxa).2
  show Function.update (Function.update G.entries a left) b right x.2 = _
  rw [Function.update_of_ne (hs.fresh l' hl' x hx), Function.update_of_ne hxa]

/-- The entries of the halves were entries of the page. -/
theorem Severs.left_subset (hs : G.Severs l A lo a B s b lm left right) :
    left.Sublist (G.entries a) := by
  rw [hs.entries]
  exact List.sublist_append_left _ _

theorem Severs.right_subset (hs : G.Severs l A lo a B s b lm left right) :
    right.Sublist (G.entries a) := by
  rw [hs.entries]
  split
  · exact List.sublist_append_right _ _
  · exact (List.sublist_cons_self _ _).trans (List.sublist_append_right _ _)

/-- The old page keeps its right to be where it is. -/
theorem Severs.referred (hs : G.Severs l A lo a B s b lm left right) (h : G.Apart) {l' : ℕ}
    (hl' : l' + 1 < G.height) :
    (G.sever l A lo a B s b lm left right).referred l' = G.referred l' := by
  by_cases hll : l' + 1 = l
  · subst l
    have hent := hs.entries
    rw [if_neg (Nat.succ_ne_zero l')] at hent
    have hn := h.nodup _ hs.level
    have hb := hs.fresh _ hs.level
    rw [hs.chain] at hn hb
    unfold Outline.referred
    rw [hs.cuts.chain_cut, hs.chain]
    exact expand_split hent hn hb
  · unfold Outline.referred
    rw [hs.cuts.chain_other _ hll]
    refine expand_congr ?_
    intro x hx
    refine ⟨hs.cuts.leftmost x.2 (hs.fresh _ hl' x hx), hs.other h hl' hx ?_⟩
    rintro rfl
    exact hll (h.cell_unique hl' hs.level hx hs.page rfl).1

theorem Woven.sever (h : G.Woven) (hs : G.Severs l A lo a B s b lm left right) :
    (G.sever l A lo a B s b lm left right).Woven := by
  have hcases : ∀ {l'}, l' < G.height → ∀ x ∈ (G.sever l A lo a B s b lm left right).chain l',
      (l' = l ∧ x = (↑s, b) ∧ (G.sever l A lo a B s b lm left right).entries x.2 = right) ∨
      (l' = l ∧ x = (lo, a) ∧ (G.sever l A lo a B s b lm left right).entries x.2 = left) ∨
      (x ∈ G.chain l' ∧ x ≠ (lo, a) ∧
        (G.sever l A lo a B s b lm left right).entries x.2 = G.entries x.2) := by
    intro l' hl' x hx
    rcases hs.cuts.mem hx with ⟨hll, rfl⟩ | hx
    · exact Or.inl ⟨hll, rfl, Severs.new⟩
    · by_cases hxa : x = (lo, a)
      · subst x
        exact Or.inr (Or.inl ⟨(h.apart.cell_unique hl' hs.level hx hs.page rfl).1, rfl, hs.old⟩)
      · exact Or.inr (Or.inr ⟨hx, hxa, hs.other h.apart hl' hx hxa⟩)
  have hbound : ∀ e ∈ G.entries a, lo ≤ ↑e.key := h.bound l hs.level _ hs.page
  have hasc := h.ascending l hs.level _ hs.page
  have hleaf : l = 0 → lo < ↑s ∧ ∀ y ∈ B, ↑s < y.1 := by
    rintro rfl
    obtain ⟨hlt, v, ys, hright⟩ := hs.leaf rfl
    obtain ⟨e, he⟩ := List.exists_mem_of_ne_nil _ hs.left_ne
    refine ⟨(hbound e (hs.left_subset.mem he)).trans_lt (WithBot.coe_lt_coe.mpr (hlt e he)), ?_⟩
    intro y hy
    have hsorted := h.leaf_sorted
    rw [hs.chain, sorted_mid] at hsorted
    have hyc : y ∈ G.chain 0 := by
      rw [hs.chain]
      simp [hy]
    refine h.leaf_below _ hs.page y hyc (hsorted.2.2.2 y hy) ⟨s, v⟩ (hs.right_subset.mem ?_)
    rw [hright]
    exact List.mem_cons_self
  refine ⟨h.pos, hs.cuts.apart h.apart, ?_, ?_, ?_, ?_, ?_, ?_, ?_, ?_⟩
  · intro l' hl'
    rw [hs.referred h.apart hl']
    exact fun y hy => hs.cuts.subset l' (h.child l' hl' hy)
  · intro l' hl'
    rw [hs.referred h.apart hl']
    exact h.once l' hl'
  · intro l' hl' x hx e he
    rcases hcases hl' x hx with ⟨rfl, rfl, hent⟩ | ⟨rfl, rfl, hent⟩ | ⟨hx, _, hent⟩
    · rw [hent] at he
      exact WithBot.coe_le_coe.mpr (hs.least e he)
    · rw [hent] at he
      exact hbound e (hs.left_subset.mem he)
    · rw [hent] at he
      exact h.bound l' hl' x hx e he
  · intro l' hl' x hx
    rcases hcases hl' x hx with ⟨rfl, rfl, hent⟩ | ⟨rfl, rfl, hent⟩ | ⟨hx, _, hent⟩
    · rw [hent]
      exact hasc.sublist hs.right_subset
    · rw [hent]
      exact hasc.sublist hs.left_subset
    · rw [hent]
      exact h.ascending l' hl' x hx
  · intro l' hl' x hx hnil
    rcases hcases hl' x hx with ⟨rfl, rfl, hent⟩ | ⟨rfl, rfl, hent⟩ | ⟨hx, hne, hent⟩
    · exact absurd (hent.symm.trans hnil) hs.right_ne
    · exact absurd (hent.symm.trans hnil) hs.left_ne
    · obtain ⟨h1, hone⟩ := h.lone l' hl' x hx (hent.symm.trans hnil)
      have hl0 : l = 0 := by
        have := hs.level
        omega
      have hpage := hs.page
      rw [hl0, hone] at hpage
      exact absurd (List.mem_singleton.mp hpage).symm hne
  · by_cases hl : l = 0
    · subst l
      obtain ⟨h1, h2⟩ := hleaf rfl
      have hsorted := h.leaf_sorted
      rw [hs.chain, sorted_mid] at hsorted
      rw [hs.cuts.chain_cut, sorted_mid]
      refine ⟨hsorted.1, List.pairwise_cons.mpr ⟨h2, hsorted.2.1⟩, hsorted.2.2.1, ?_⟩
      intro y hy
      rcases List.mem_cons.mp hy with rfl | hy
      · exact h1
      · exact hsorted.2.2.2 y hy
    · rw [hs.cuts.chain_other 0 (Ne.symm hl)]
      exact h.leaf_sorted
  · intro x hx y hy hxy e he
    by_cases hl : 0 = l
    · subst l
      obtain ⟨hlo, _⟩ := hleaf rfl
      have hsorted := h.leaf_sorted
      rw [hs.chain, sorted_mid] at hsorted
      have hplace : ∀ z ∈ G.chain 0, z ≠ (lo, a) → z.1 < lo ∨ ↑s < z.1 := by
        intro z hz hne
        rw [hs.chain] at hz
        rcases List.mem_append.mp hz with hz | hz
        · exact Or.inl (hsorted.2.2.1 z hz)
        · rcases List.mem_cons.mp hz with rfl | hz
          · exact absurd rfl hne
          · exact Or.inr ((hleaf rfl).2 z hz)
      rcases hcases h.pos x hx with ⟨_, rfl, hent⟩ | ⟨_, rfl, hent⟩ | ⟨hx, hne, hent⟩
      · rw [hent] at he
        rcases hs.cuts.mem hy with ⟨_, rfl⟩ | hy
        · exact absurd hxy (lt_irrefl _)
        · exact h.leaf_below _ hs.page y hy (hlo.trans hxy) e (hs.right_subset.mem he)
      · rw [hent] at he
        rcases hs.cuts.mem hy with ⟨_, rfl⟩ | hy
        · exact WithBot.coe_lt_coe.mpr ((hs.leaf rfl).1 e he)
        · exact h.leaf_below _ hs.page y hy hxy e (hs.left_subset.mem he)
      · rw [hent] at he
        rcases hs.cuts.mem hy with ⟨_, rfl⟩ | hy
        · rcases hplace x hx hne with hlt | hlt
          · exact (h.leaf_below x hx _ hs.page hlt e he).trans hlo
          · exact absurd hxy (lt_asymm hlt)
        · exact h.leaf_below x hx y hy hxy e he
    · have hother : ∀ {z}, z ∈ (G.sever l A lo a B s b lm left right).chain 0 → z ∈ G.chain 0 := by
        intro z hz
        rwa [hs.cuts.chain_other 0 hl] at hz
      rcases hcases h.pos x hx with ⟨h0, _⟩ | ⟨h0, _⟩ | ⟨hx, _, hent⟩
      · exact absurd h0 hl
      · exact absurd h0 hl
      · rw [hent] at he
        exact h.leaf_below x hx y (hother hy) hxy e he
  · intro x hx
    rcases hcases h.pos x hx with ⟨rfl, rfl, hent⟩ | ⟨rfl, rfl, hent⟩ | ⟨hx, _, hent⟩
    · obtain ⟨v, ys, hright⟩ := (hs.leaf rfl).2
      exact Or.inr ⟨⟨s, v⟩, ys, hent.trans hright, rfl⟩
    · rcases h.leaf_first _ hs.page with hbot | ⟨e, es, hes, he⟩
      · exact Or.inl hbot
      · refine Or.inr ?_
        have hent' := hs.entries
        rw [hes, if_pos rfl] at hent'
        rw [hent]
        cases hleft : left with
        | nil => exact absurd hleft hs.left_ne
        | cons e' es' =>
          rw [hleft] at hent'
          obtain rfl : e = e' := (List.cons.inj hent').1
          exact ⟨e, es', rfl, he⟩
    · rw [hent]
      exact h.leaf_first x hx

/-- A cut leaves the stored pairs alone. -/
theorem Severs.contents (hs : G.Severs l A lo a B s b lm left right) (h : G.Apart)
    (hpos : 0 < G.height) : (G.sever l A lo a B s b lm left right).contents = G.contents := by
  by_cases hl : 0 = l
  · subst l
    have hn := h.nodup 0 hpos
    rw [hs.chain, List.map_append, List.map_cons, List.nodup_append, List.nodup_cons] at hn
    have hA : ∀ x ∈ A, (G.sever 0 A lo a B s b lm left right).entries x.2 = G.entries x.2 := by
      intro x hx
      refine hs.other h hpos (by rw [hs.chain]; simp [hx]) ?_
      rintro rfl
      exact hn.2.2 a (List.mem_map_of_mem hx) a List.mem_cons_self rfl
    have hB : ∀ x ∈ B, (G.sever 0 A lo a B s b lm left right).entries x.2 = G.entries x.2 := by
      intro x hx
      refine hs.other h hpos (by rw [hs.chain]; simp [hx]) ?_
      rintro rfl
      exact hn.2.1.1 (List.mem_map_of_mem hx)
    have hent := hs.entries
    rw [if_pos rfl] at hent
    have hcut : (G.sever 0 A lo a B s b lm left right).chain 0 = A ++ (lo, a) :: (↑s, b) :: B :=
      hs.cuts.chain_cut
    rw [Outline.contents, hcut, contents_split hs.chain, List.flatMap_append, List.flatMap_cons,
      List.flatMap_cons, List.flatMap_congr hA, List.flatMap_congr hB, hs.old, Severs.new, hent,
      List.append_assoc]
  · unfold Outline.contents
    rw [hs.cuts.chain_other 0 hl]
    refine List.flatMap_congr ?_
    intro x hx
    refine hs.other h hpos hx ?_
    rintro rfl
    exact hl (h.cell_unique hpos hs.level hx hs.page rfl).1

/-- The separator of the cut is not referred to yet. -/
theorem Severs.missing (hs : G.Severs l A lo a B s b lm left right) (h : G.Woven)
    (hl : l + 1 < G.height) :
    (G.sever l A lo a B s b lm left right).Missing l ⟨s, b⟩ := by
  refine ⟨hl, ?_, ?_⟩
  · rw [hs.cuts.chain_cut]
    exact List.mem_append_right _ (List.mem_cons_of_mem _ List.mem_cons_self)
  · rw [hs.referred h.apart hl]
    intro hb
    obtain ⟨x, hx, hxb⟩ := List.mem_map.mp hb
    exact hs.fresh l (by omega) x (h.child l hl hx) hxb

end

/-! ### A new root above the halves of the old one -/

/-- The old root was split; `e` leads to its right half. -/
structure Tops (G : Outline) (r : ℕ) (e : Entry) : Prop where
  chain : G.chain (G.height - 1) = [(⊥, G.root), cell e]
  fresh : ∀ l < G.height, ∀ x ∈ G.chain l, x.2 ≠ r

section
variable {r : ℕ} {e : Entry}

theorem Tops.frame (ht : G.Tops r e) {l : ℕ} (hl : l < G.height) {x : Cell ℤ ℕ}
    (hx : x ∈ G.chain l) : (G.grow r e).leftmost x.2 = G.leftmost x.2 ∧
      (G.grow r e).entries x.2 = G.entries x.2 :=
  ⟨Function.update_of_ne (ht.fresh l hl x hx) _ _, Function.update_of_ne (ht.fresh l hl x hx) _ _⟩

theorem grow_root : (G.grow r e).entries r = [e] := Function.update_self _ _ _

/-- The new root refers to the two halves. -/
theorem Tops.referred (ht : G.Tops r e) {l : ℕ} (hl : l < G.height) :
    (l + 1 = G.height ∧ (G.grow r e).referred l = G.chain l) ∨
    (l + 1 < G.height ∧ (G.grow r e).referred l = G.referred l) := by
  by_cases htop : l + 1 = G.height
  · refine Or.inl ⟨htop, ?_⟩
    have hroot : (G.grow r e).leftmost r = G.root := Function.update_self _ _ _
    have hl' : G.height - 1 = l := by omega
    have hchain := ht.chain
    rw [hl'] at hchain
    unfold Outline.referred
    rw [htop, grow_top, hchain, expand_cons, hroot, grow_root]
    rfl
  · have hin : l + 1 < G.height := by omega
    refine Or.inr ⟨hin, ?_⟩
    unfold Outline.referred
    rw [grow_chain hin]
    exact expand_congr (fun x hx => ht.frame hin hx)

theorem Tops.contents (ht : G.Tops r e) (hpos : 0 < G.height) :
    (G.grow r e).contents = G.contents := by
  unfold Outline.contents
  rw [grow_chain hpos]
  exact List.flatMap_congr (fun x hx => (ht.frame hpos hx).2)

theorem Woven.grow (h : G.Woven) (ht : G.Tops r e) : (G.grow r e).Woven := by
  have hpos := h.pos
  have hcases : ∀ l, l < G.height + 1 → ∀ x ∈ (G.grow r e).chain l,
      (l < G.height ∧ x ∈ G.chain l ∧ (G.grow r e).entries x.2 = G.entries x.2) ∨
      (l = G.height ∧ x = (⊥, r)) := by
    intro l hl x hx
    by_cases hlt : l < G.height
    · rw [grow_chain hlt] at hx
      exact Or.inl ⟨hlt, hx, (ht.frame hlt hx).2⟩
    · obtain rfl : l = G.height := by omega
      rw [grow_top] at hx
      exact Or.inr ⟨rfl, List.mem_singleton.mp hx⟩
  refine ⟨Nat.succ_pos _, ⟨?_, ?_⟩, ?_, ?_, ?_, ?_, ?_, ?_, ?_, ?_⟩
  · intro l hl
    rcases Nat.lt_succ_iff_lt_or_eq.mp hl with hl | rfl
    · rw [grow_chain hl]
      exact h.apart.nodup l hl
    · rw [grow_top]
      exact List.nodup_singleton r
  · intro l hl l' hl' x hx y hy hxy
    rcases hcases l hl x hx with ⟨hl, hx, _⟩ | ⟨rfl, rfl⟩
    · rcases hcases l' hl' y hy with ⟨hl', hy, _⟩ | ⟨rfl, rfl⟩
      · exact h.apart.disjoint l hl l' hl' x hx y hy hxy
      · exact absurd hxy (ht.fresh l hl x hx)
    · rcases hcases l' hl' y hy with ⟨hl', hy, _⟩ | ⟨rfl, rfl⟩
      · exact absurd hxy.symm (ht.fresh l' hl' y hy)
      · rfl
  · intro l hl
    have hl' : l < G.height := Nat.lt_of_succ_lt_succ hl
    rw [grow_chain hl']
    rcases ht.referred hl' with ⟨_, heq⟩ | ⟨hin, heq⟩
    · rw [heq]
      exact fun y hy => hy
    · rw [heq]
      exact h.child l hin
  · intro l hl
    have hl' : l < G.height := Nat.lt_of_succ_lt_succ hl
    rcases ht.referred hl' with ⟨_, heq⟩ | ⟨hin, heq⟩
    · rw [heq]
      exact h.apart.nodup l hl'
    · rw [heq]
      exact h.once l hin
  · intro l hl x hx b hb
    rcases hcases l hl x hx with ⟨hl, hx, hent⟩ | ⟨_, rfl⟩
    · rw [hent] at hb
      exact h.bound l hl x hx b hb
    · exact bot_le
  · intro l hl x hx
    rcases hcases l hl x hx with ⟨hl, hx, hent⟩ | ⟨_, rfl⟩
    · rw [hent]
      exact h.ascending l hl x hx
    · rw [grow_root]
      exact List.pairwise_singleton _ _
  · intro l hl x hx hnil
    rcases hcases l hl x hx with ⟨hl, hx, hent⟩ | ⟨_, rfl⟩
    · obtain ⟨h1, hone⟩ := h.lone l hl x hx (hent.symm.trans hnil)
      have hchain := ht.chain
      rw [h1, show 1 - 1 = 0 from rfl, hone] at hchain
      exact absurd (congrArg List.length hchain) (by simp)
    · rw [grow_root] at hnil
      cases hnil
  · rw [grow_chain hpos]
    exact h.leaf_sorted
  · rw [grow_chain hpos]
    intro x hx y hy hxy b hb
    rw [(ht.frame hpos hx).2] at hb
    exact h.leaf_below x hx y hy hxy b hb
  · rw [grow_chain hpos]
    intro x hx
    rw [(ht.frame hpos hx).2]
    exact h.leaf_first x hx

end

end Outline

end PmemStudy.FastFair
