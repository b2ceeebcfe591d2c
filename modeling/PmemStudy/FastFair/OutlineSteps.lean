import PmemStudy.FastFair.Outline

/-!
# Insertion, split and a new root on outlines

The three changes an insertion makes to the meaning of the tree, each of which
keeps the outline well-formed.
-/

namespace PmemStudy.FastFair
open PmemStudy.Slots PmemStudy.Chain

namespace Outline

/-- `e` is put at position `c` of the page at `a` of level `l`; it is no longer
missing there. -/
def insertEntry (G : Outline) (l a c : ℕ) (e : Entry) : Outline :=
  { G with
    entries := Function.update G.entries a ((G.entries a).insertIdx c e)
    pending := fun l' => if l' + 1 = l then none else G.pending l' }

/-- The page at `a` keeps `left`; the new page at `b` gets `right`. -/
def splitPage (G : Outline) (l a b : ℕ) (s : ℤ) (lm : ℕ) (left right : List Entry) : Outline :=
  { G with
    chain := Function.update G.chain l (Chain.insert ⟨s, b⟩ (G.chain l))
    leftmost := Function.update G.leftmost b lm
    entries := Function.update (Function.update G.entries a left) b right
    pending := Function.update G.pending l (some ⟨s, b⟩) }

/-- A new root above the old one and its right neighbour `e.ptr`. -/
def grow (G : Outline) (r : ℕ) (e : Entry) : Outline :=
  { G with
    height := G.height + 1
    root := r
    chain := Function.update G.chain G.height [(⊥, r)]
    leftmost := Function.update G.leftmost r G.root
    entries := Function.update G.entries r [e]
    pending := fun l => if l + 1 = G.height ∨ l = G.height then none else G.pending l }

variable {G : Outline}

/-! ### Insertion -/

/-- The key belongs to the page at `a`, at position `c` of its entries. -/
structure Belongs (G : Outline) (l a c : ℕ) (e : Entry) : Prop where
  level : l < G.height
  home : AtHome (G.chain l) e.key a
  place : Place (G.entries a) e.key c
  missing : ∀ l', l' + 1 = l → G.pending l' = some e

theorem WellFormed.separator_above (h : G.WellFormed) {l : ℕ} (hl : l + 1 < G.height)
    {e : Entry} (hp : G.pending l = some e) {x : Cell ℤ ℕ} (hx : x ∈ G.chain (l + 1)) :
    x.1 ≠ ↑e.key := by
  have hs := h.sorted l (by omega)
  have heq := h.chain_eq l (by omega)
  rw [hp] at heq
  rw [heq] at hs
  refine ne_of_sorted_insert hs (x.1, G.leftmost x.2) ?_
  rw [above_inner hl]
  exact List.mem_flatMap.mpr ⟨x, hx, List.mem_cons_self⟩

/-- The stored pairs, seen from one leaf; `E` may differ from the entries of the outline at
that leaf. -/
theorem Apart.contents_update (h : G.Apart) (hpos : 0 < G.height) {A B : List (Cell ℤ ℕ)}
    {lo : WithBot ℤ} {a : ℕ} (hc : G.chain 0 = A ++ (lo, a) :: B) (E : List Entry) :
    (G.chain 0).flatMap (fun x => Function.update G.entries a E x.2) =
      A.flatMap (fun x => G.entries x.2) ++ (E ++ B.flatMap (fun x => G.entries x.2)) := by
  have hn := h.nodup 0 hpos
  rw [hc, List.map_append, List.map_cons, List.nodup_append, List.nodup_cons] at hn
  have hA : ∀ x ∈ A, Function.update G.entries a E x.2 = G.entries x.2 := fun x hx =>
    Function.update_of_ne (hn.2.2 x.2 (List.mem_map_of_mem hx) a List.mem_cons_self) _ _
  have hB : ∀ x ∈ B, Function.update G.entries a E x.2 = G.entries x.2 := by
    intro x hx
    refine Function.update_of_ne ?_ _ _
    intro hxa
    exact hn.2.1.1 (List.mem_map.mpr ⟨x, hx, hxa⟩)
  rw [hc, List.flatMap_append, List.flatMap_cons, List.flatMap_congr hA, List.flatMap_congr hB,
    Function.update_self]

theorem contents_split {A B : List (Cell ℤ ℕ)} {lo : WithBot ℤ} {a : ℕ}
    (hc : G.chain 0 = A ++ (lo, a) :: B) : G.contents = A.flatMap (fun x => G.entries x.2) ++
      (G.entries a ++ B.flatMap (fun x => G.entries x.2)) := by
  rw [contents, hc, List.flatMap_append, List.flatMap_cons]

theorem entries_sublist {A B : List (Cell ℤ ℕ)} {lo : WithBot ℤ} {a : ℕ}
    (hc : G.chain 0 = A ++ (lo, a) :: B) : (G.entries a).Sublist G.contents := by
  rw [contents_split hc]
  exact (List.sublist_append_left _ _).trans (List.sublist_append_right _ _)

theorem Apart.insertEntry_perm (h : G.Apart) (hpos : 0 < G.height) {A B : List (Cell ℤ ℕ)}
    {lo : WithBot ℤ} {a c : ℕ} {e : Entry} (hc : G.chain 0 = A ++ (lo, a) :: B)
    (hle : c ≤ (G.entries a).length) :
    (G.insertEntry 0 a c e).contents.Perm (e :: G.contents) := by
  have hnew : (G.insertEntry 0 a c e).contents = A.flatMap (fun x => G.entries x.2) ++
      ((G.entries a).insertIdx c e ++ B.flatMap (fun x => G.entries x.2)) :=
    h.contents_update hpos hc _
  rw [hnew, contents_split hc]
  have hp : ((G.entries a).insertIdx c e).Perm (e :: G.entries a) := List.perm_insertIdx e _ hle
  have h3 := ((hp.append_right (B.flatMap fun x => G.entries x.2)).append_left
    (A.flatMap fun x => G.entries x.2))
  exact h3.trans List.perm_middle

/-- Insertion above the leaves leaves the stored pairs alone. -/
theorem Apart.insertEntry_contents (h : G.Apart) (hpos : 0 < G.height) {l a c : ℕ} {e : Entry}
    (hl : l + 1 < G.height) (ha : a ∈ (G.chain (l + 1)).map (·.2)) :
    (G.insertEntry (l + 1) a c e).contents = G.contents := by
  refine List.flatMap_congr ?_
  intro x hx
  exact Function.update_of_ne (h.ne_of_level hpos hl (by omega) ha hx) _ _

theorem WellFormed.insertEntry_increasing (h : G.WellFormed) {a c : ℕ} {e : Entry}
    (hb : G.Belongs 0 a c e) : Increasing (G.insertEntry 0 a c e).contents ∧
      (G.insertEntry 0 a c e).contents.Perm (e :: G.contents) := by
  obtain ⟨A, lo, B, hc, hlo, hB⟩ := hb.home
  refine ⟨?_, h.apart.insertEntry_perm h.pos hc hb.place.le⟩
  have hnew : (G.insertEntry 0 a c e).contents = A.flatMap (fun x => G.entries x.2) ++
      ((G.entries a).insertIdx c e ++ B.flatMap (fun x => G.entries x.2)) :=
    h.apart.contents_update h.pos hc _
  have hi := h.increasing
  rw [contents_split hc] at hi
  have h1 := List.pairwise_append.mp hi
  have h2 := List.pairwise_append.mp h1.2.1
  have hins := Place.increasing (e := e) hb.place h2.1
  have hmem : ∀ x ∈ (G.entries a).insertIdx c e, x = e ∨ x ∈ G.entries a := fun x hx =>
    (List.mem_insertIdx hb.place.le).mp hx
  rw [hnew]
  refine List.pairwise_append.mpr ⟨h1.1, List.pairwise_append.mpr ⟨hins, h2.2.1, ?_⟩, ?_⟩
  · intro x hx y hy
    rcases hmem x hx with rfl | hx
    · obtain ⟨z, hz, hyz⟩ := List.mem_flatMap.mp hy
      exact WithBot.coe_lt_coe.mp ((hB z hz).trans_le
        (h.leaf_above z (by rw [hc]; simp [hz]) y hyz))
    · exact h2.2.2 x hx y hy
  · intro x hx y hy
    rcases List.mem_append.mp hy with hy | hy
    · rcases hmem y hy with rfl | hy
      · obtain ⟨z, hz, hxz⟩ := List.mem_flatMap.mp hx
        have hb := h.leaf_below
        rw [hc] at hb
        exact WithBot.coe_lt_coe.mp (((List.pairwise_append.mp hb).2.2 z hz (lo, a)
          List.mem_cons_self x hxz).trans_le hlo)
      · exact h1.2.2 x hx y (List.mem_append_left _ hy)
    · exact h1.2.2 x hx y (List.mem_append_right _ hy)

theorem WellFormed.insertEntry_contents (h : G.WellFormed) {l a c : ℕ} {e : Entry}
    (hb : G.Belongs (l + 1) a c e) : (G.insertEntry (l + 1) a c e).contents = G.contents :=
  h.apart.insertEntry_contents h.pos hb.level hb.home.mem

theorem WellFormed.insertEntry (h : G.WellFormed) {l a c : ℕ} {e : Entry}
    (hb : G.Belongs l a c e) : (G.insertEntry l a c e).WellFormed := by
  have hframe : ∀ l' < G.height, l' ≠ l → ∀ x ∈ G.chain l',
      (G.insertEntry l a c e).entries x.2 = G.entries x.2 := by
    intro l' hl' hne x hx
    exact Function.update_of_ne (h.apart.ne_of_level hl' hb.level hne hb.home.mem hx) _ _
  have hself : (G.insertEntry l a c e).entries a = (G.entries a).insertIdx c e :=
    Function.update_self _ _ _
  have hmem : ∀ x, ∀ b ∈ (G.insertEntry l a c e).entries x, (x = a ∧ b = e) ∨ b ∈ G.entries x := by
    intro x b hbx
    by_cases hxa : x = a
    · subst x
      rw [hself] at hbx
      rcases (List.mem_insertIdx hb.place.le).mp hbx with rfl | hbx
      · exact Or.inl ⟨rfl, rfl⟩
      · exact Or.inr hbx
    · have : (G.insertEntry l a c e).entries x = G.entries x := Function.update_of_ne hxa _ _
      rw [this] at hbx
      exact Or.inr hbx
  obtain ⟨A, lo, B, hc, hlo, hB⟩ := hb.home
  refine ⟨h.pos, ?_, h.sorted, h.nodup, h.disjoint, ?_, ?_, ?_, ?_⟩
  · intro l' hl'
    by_cases hll : l' + 1 = l
    · subst l
      have hp := hb.missing l' rfl
      have heq := h.chain_eq l' hl'
      rw [hp, above_inner hb.level] at heq
      have hne : lo ≠ ↑e.key := h.separator_above hb.level hp (x := (lo, a)) (by rw [hc]; simp)
      have hexp := h.sorted_expand hb.level
      have hn := h.nodup _ hb.level
      rw [hc] at hexp hn heq
      have hins := expand_insert hexp hn hb.place (lt_of_le_of_ne hlo hne) hB
      have habove : (G.insertEntry (l' + 1) a c e).above l'
          = expand G.leftmost (Function.update G.entries a ((G.entries a).insertIdx c e))
            (A ++ (lo, a) :: B) := by
        rw [← hc]
        exact above_inner (G := G.insertEntry (l' + 1) a c e) hb.level
      have hpend : (G.insertEntry (l' + 1) a c e).pending l' = none := if_pos rfl
      rw [hpend, habove, hins]
      exact heq
    · have hpend : (G.insertEntry l a c e).pending l' = G.pending l' := if_neg hll
      have habove : (G.insertEntry l a c e).above l' = G.above l' := by
        by_cases hin : l' + 1 < G.height
        · rw [above_inner hin]
          rw [above_inner (G := G.insertEntry l a c e) hin]
          exact expand_congr (fun x hx => ⟨rfl, hframe _ hin hll x hx⟩)
        · rw [above_top hin]
          exact above_top (G := G.insertEntry l a c e) hin
      rw [hpend, habove]
      exact h.chain_eq l' hl'
  · intro x hx b hbx
    rcases hmem x.2 b hbx with ⟨hxa, rfl⟩ | hbx
    · have hl0 : 0 = l := by
        by_contra hne
        exact h.apart.ne_of_level h.pos hb.level hne hb.home.mem hx hxa
      subst l
      obtain ⟨A', B', hAB⟩ := List.append_of_mem hx
      have hAB' : G.chain 0 = A' ++ (x.1, a) :: B' := by
        rw [← hxa]
        exact hAB
      obtain ⟨_, hlo', _⟩ := h.apart.split_unique h.pos hc hAB'
      rw [← hlo']
      exact hlo
    · exact h.leaf_above x hx b hbx
  · by_cases hl0 : 0 = l
    · subst l
      have hbelow := h.leaf_below
      show (G.chain 0).Pairwise _
      have hn := h.nodup 0 h.pos
      rw [hc] at hbelow hn ⊢
      rw [List.map_append, List.map_cons, List.nodup_append, List.nodup_cons] at hn
      rw [List.pairwise_append, List.pairwise_cons] at hbelow ⊢
      have hkeep : ∀ x y : Cell ℤ ℕ, x.2 ≠ a → (∀ b ∈ G.entries x.2, ↑b.key < y.1) →
          ∀ b ∈ (G.insertEntry 0 a c e).entries x.2, ↑b.key < y.1 := by
        intro x y hxa hxy b hbx
        rcases hmem x.2 b hbx with ⟨hxa', _⟩ | hbx
        · exact absurd hxa' hxa
        · exact hxy b hbx
      have hA : ∀ x ∈ A, x.2 ≠ a := fun x hx =>
        hn.2.2 x.2 (List.mem_map_of_mem hx) a List.mem_cons_self
      have hBa : ∀ x ∈ B, x.2 ≠ a := by
        intro x hx hxa
        exact hn.2.1.1 (List.mem_map.mpr ⟨x, hx, hxa⟩)
      refine ⟨?_, ⟨?_, ?_⟩, ?_⟩
      · exact hbelow.1.imp_of_mem (fun hx _ hxy => hkeep _ _ (hA _ hx) hxy)
      · intro y hy b hbx
        rcases hmem a b hbx with ⟨_, rfl⟩ | hbx
        · exact hB y hy
        · exact hbelow.2.1.1 y hy b hbx
      · exact hbelow.2.1.2.imp_of_mem (fun hx _ hxy => hkeep _ _ (hBa _ hx) hxy)
      · intro x hx y hy
        exact hkeep x y (hA x hx) (hbelow.2.2 x hx y hy)
    · refine h.leaf_below.imp_of_mem ?_
      intro x y hx _ hxy
      rw [hframe 0 h.pos hl0 x hx]
      exact hxy
  · by_cases hl0 : 0 = l
    · subst l
      exact (h.insertEntry_increasing hb).1
    · obtain ⟨m, rfl⟩ : ∃ m, l = m + 1 := ⟨l - 1, by omega⟩
      rw [h.insertEntry_contents hb]
      exact h.increasing
  · intro l' hl' b hp A' x y B' hAB hxy
    have hll : l' + 1 ≠ l := by
      intro hll
      have : (G.insertEntry l a c e).pending l' = none := if_pos hll
      rw [this] at hp
      simp at hp
    have hpend : (G.insertEntry l a c e).pending l' = G.pending l' := if_neg hll
    rw [hpend] at hp
    have hne := h.pending_filled l' hl' b hp A' x y B' hAB hxy
    by_cases hxa : x.2 = a
    · rw [hxa, hself]
      intro hnil
      have := List.length_insertIdx_of_le_length hb.place.le e
      simp [hnil] at this
    · have : (G.insertEntry l a c e).entries x.2 = G.entries x.2 := Function.update_of_ne hxa _ _
      rw [this]
      exact hne

/-! ### Split -/

/-- The page at `a` is cut into `left` and `right`; in an internal page the
separator leaves the page and its pointer becomes the leftmost one of `right`. -/
structure Splits (G : Outline) (l a b : ℕ) (s : ℤ) (lm : ℕ) (left right : List Entry) : Prop where
  level : l < G.height
  page : a ∈ (G.chain l).map (·.2)
  closed : G.pending l = none
  fresh : ∀ l' < G.height, ∀ x ∈ G.chain l', x.2 ≠ b
  left_ne : left ≠ []
  right_ne : right ≠ []
  entries : G.entries a = left ++ if l = 0 then right else ⟨s, lm⟩ :: right
  first : l = 0 → ∃ v ys, right = ⟨s, v⟩ :: ys

section Split
variable {l a b : ℕ} {s : ℤ} {lm : ℕ} {left right : List Entry}

theorem Splits.keys (h : G.WellFormed) (hs : G.Splits l a b s lm left right) :
    (∀ e ∈ left, e.key < s) ∧ (∀ e ∈ right, s ≤ e.key) ∧
    (∃ e ∈ G.entries a, e.key = s) ∧ ∀ e, e ∈ left ∨ e ∈ right → e ∈ G.entries a := by
  obtain ⟨x, hx, hxa⟩ := List.mem_map.mp hs.page
  have hi := h.entries_increasing hs.level hx
  rw [hxa, hs.entries] at hi
  have hp := List.pairwise_append.mp hi
  rw [hs.entries]
  by_cases hl : l = 0
  · obtain ⟨v, ys, hr⟩ := hs.first hl
    simp only [if_pos hl] at hp ⊢
    refine ⟨fun e he => hp.2.2 e he ⟨s, v⟩ (by rw [hr]; exact List.mem_cons_self), ?_,
      ⟨⟨s, v⟩, by rw [hr]; simp, rfl⟩, fun e he => List.mem_append.mpr he⟩
    intro e he
    have h2 := hp.2.1
    rw [hr] at h2 he
    rcases List.mem_cons.mp he with rfl | he
    · exact le_refl _
    · exact ((List.pairwise_cons.mp h2).1 e he).le
  · simp only [if_neg hl] at hp ⊢
    refine ⟨fun e he => hp.2.2 e he ⟨s, lm⟩ List.mem_cons_self, ?_, ⟨⟨s, lm⟩, by simp, rfl⟩, ?_⟩
    · intro e he
      exact ((List.pairwise_cons.mp hp.2.1).1 e he).le
    · rintro e (he | he)
      · exact List.mem_append_left _ he
      · exact List.mem_append_right _ (List.mem_cons_of_mem _ he)

/-- The new page comes right behind the old one. -/
theorem Splits.chain_eq (h : G.WellFormed) (hs : G.Splits l a b s lm left right)
    {A B : List (Cell ℤ ℕ)} {lo : WithBot ℤ} (hc : G.chain l = A ++ (lo, a) :: B) :
    lo < ↑s ∧ (∀ y ∈ B, (s : WithBot ℤ) < y.1) ∧
    Chain.insert ⟨s, b⟩ (G.chain l) = A ++ (lo, a) :: (↑s, b) :: B := by
  obtain ⟨hleft, _, ⟨e, he, hes⟩, hsub⟩ := hs.keys h
  have hrange := h.range hs.level hc
  obtain ⟨e0, he0⟩ := List.exists_mem_of_ne_nil _ hs.left_ne
  have hlo : lo < ↑s := ((hrange e0 (hsub e0 (Or.inl he0))).1).trans_lt
    (WithBot.coe_lt_coe.mpr (hleft e0 he0))
  have hB : ∀ y ∈ B, (s : WithBot ℤ) < y.1 := by
    rw [← hes]
    exact (hrange e he).2
  refine ⟨hlo, hB, ?_⟩
  have hsorted := h.sorted l hs.level
  rw [hc, sorted_mid] at hsorted
  have := insert_split (X := A ++ [(lo, a)]) (Y := B) (e := ⟨s, b⟩) (by
    intro x hx
    rcases List.mem_append.mp hx with hx | hx
    · exact (hsorted.2.2.1 x hx).trans hlo
    · rw [List.mem_singleton.mp hx]
      exact hlo) hB
  rw [hc]
  simpa [cell] using this

theorem Splits.frame (h : G.WellFormed) (hs : G.Splits l a b s lm left right) {l' : ℕ}
    (hl' : l' < G.height) (hne : l' ≠ l) {x : Cell ℤ ℕ} (hx : x ∈ G.chain l') :
    (G.splitPage l a b s lm left right).leftmost x.2 = G.leftmost x.2 ∧
    (G.splitPage l a b s lm left right).entries x.2 = G.entries x.2 := by
  have hb := hs.fresh l' hl' x hx
  have ha := h.apart.ne_of_level hl' hs.level hne hs.page hx
  refine ⟨Function.update_of_ne hb _ _, ?_⟩
  show Function.update (Function.update G.entries a left) b right x.2 = _
  rw [Function.update_of_ne hb, Function.update_of_ne ha]

/-- A split leaves the stored pairs alone. -/
theorem WellFormed.splitPage_contents (h : G.WellFormed)
    (hs : G.Splits l a b s lm left right) :
    (G.splitPage l a b s lm left right).contents = G.contents := by
  by_cases hl : 0 = l
  · subst l
    obtain ⟨x, hx, hxa⟩ := List.mem_map.mp hs.page
    obtain ⟨A, B, hAB⟩ := List.append_of_mem hx
    have hc : G.chain 0 = A ++ (x.1, a) :: B := by
      rw [← hxa]
      exact hAB
    obtain ⟨_, _, hins⟩ := hs.chain_eq h hc
    have hn := h.nodup 0 hs.level
    rw [hc, List.map_append, List.map_cons, List.nodup_append, List.nodup_cons] at hn
    have hab : a ≠ b := hs.fresh 0 hs.level (x.1, a) (by rw [hc]; simp)
    have hself : (G.splitPage 0 a b s lm left right).entries b = right :=
      Function.update_self _ _ _
    have hold : (G.splitPage 0 a b s lm left right).entries a = left := by
      show Function.update (Function.update G.entries a left) b right a = left
      rw [Function.update_of_ne hab, Function.update_self]
    have hother : ∀ y : Cell ℤ ℕ, y.2 ≠ a → y.2 ≠ b →
        (G.splitPage 0 a b s lm left right).entries y.2 = G.entries y.2 := by
      intro y hya hyb
      show Function.update (Function.update G.entries a left) b right y.2 = _
      rw [Function.update_of_ne hyb, Function.update_of_ne hya]
    have hupd : (G.splitPage 0 a b s lm left right).chain 0 = Chain.insert ⟨s, b⟩ (G.chain 0) := by
      show Function.update G.chain 0 (Chain.insert ⟨s, b⟩ (G.chain 0)) 0 = _
      rw [Function.update_self]
    have hchain := hupd.trans hins
    have hA : ∀ y ∈ A, (G.splitPage 0 a b s lm left right).entries y.2 = G.entries y.2 :=
      fun y hy => hother y (hn.2.2 y.2 (List.mem_map_of_mem hy) a List.mem_cons_self)
        (hs.fresh 0 hs.level y (by rw [hc]; simp [hy]))
    have hB : ∀ y ∈ B, (G.splitPage 0 a b s lm left right).entries y.2 = G.entries y.2 := by
      intro y hy
      refine hother y ?_ (hs.fresh 0 hs.level y (by rw [hc]; simp [hy]))
      intro hya
      exact hn.2.1.1 (List.mem_map.mpr ⟨y, hy, hya⟩)
    have he := hs.entries
    rw [if_pos rfl] at he
    rw [contents, contents, hchain, hc]
    simp only [List.flatMap_append, List.flatMap_cons, hself, hold, he]
    rw [List.flatMap_congr hA, List.flatMap_congr hB, List.append_assoc]
  · have hchain : (G.splitPage l a b s lm left right).chain 0 = G.chain 0 :=
      Function.update_of_ne hl _ _
    rw [contents, contents, hchain]
    exact List.flatMap_congr (fun x hx => (hs.frame h h.pos hl hx).2)

theorem WellFormed.splitPage (h : G.WellFormed) (hs : G.Splits l a b s lm left right) :
    (G.splitPage l a b s lm left right).WellFormed := by
  obtain ⟨x, hx, hxa⟩ := List.mem_map.mp hs.page
  obtain ⟨A, B, hAB⟩ := List.append_of_mem hx
  obtain ⟨lo, hc⟩ : ∃ lo, G.chain l = A ++ (lo, a) :: B := ⟨x.1, by rw [← hxa]; exact hAB⟩
  obtain ⟨hlo, hB, hins⟩ := hs.chain_eq h hc
  obtain ⟨hleft, hright, ⟨e, he, hes⟩, hsub⟩ := hs.keys h
  have hab : a ≠ b := hs.fresh l hs.level (lo, a) (by rw [hc]; simp)
  have hself : (G.splitPage l a b s lm left right).entries b = right :=
    Function.update_self _ _ _
  have hold : (G.splitPage l a b s lm left right).entries a = left := by
    show Function.update (Function.update G.entries a left) b right a = left
    rw [Function.update_of_ne hab, Function.update_self]
  have hother : ∀ y, y ≠ a → y ≠ b →
      (G.splitPage l a b s lm left right).entries y = G.entries y := by
    intro y hya hyb
    show Function.update (Function.update G.entries a left) b right y = _
    rw [Function.update_of_ne hyb, Function.update_of_ne hya]
  have hupd : (G.splitPage l a b s lm left right).chain l = Chain.insert ⟨s, b⟩ (G.chain l) :=
    Function.update_self _ _ _
  have hchain := hupd.trans hins
  have hchains : ∀ l', l' ≠ l → (G.splitPage l a b s lm left right).chain l' = G.chain l' :=
    fun l' hne => Function.update_of_ne hne _ _
  have hmem : ∀ l' < G.height, ∀ y ∈ (G.splitPage l a b s lm left right).chain l',
      (l' = l ∧ y = (↑s, b)) ∨ y ∈ G.chain l' := by
    intro l' _ y hy
    by_cases hne : l' = l
    · subst l'
      rw [hchain] at hy
      rw [hc]
      rcases List.mem_append.mp hy with hy | hy
      · exact Or.inr (List.mem_append_left _ hy)
      · rcases List.mem_cons.mp hy with rfl | hy
        · exact Or.inr (by simp)
        · rcases List.mem_cons.mp hy with rfl | hy
          · exact Or.inl ⟨rfl, rfl⟩
          · exact Or.inr (by simp [hy])
    · rw [hchains l' hne] at hy
      exact Or.inr hy
  have hsorted := h.sorted l hs.level
  have hn := h.nodup l hs.level
  rw [hc] at hsorted hn
  have hsorted' := sorted_mid.mp hsorted
  rw [List.map_append, List.map_cons, List.nodup_append, List.nodup_cons] at hn
  have hnew : ∀ y ∈ A ++ (lo, a) :: B, y.2 ≠ b := by
    intro y hy
    exact hs.fresh l hs.level y (by rw [hc]; exact hy)
  refine ⟨h.pos, ?_, ?_, ?_, ?_, ?_, ?_, ?_, ?_⟩
  · -- the chain of the level has a separator that is missing above
    intro l' hl'
    by_cases hll : l' = l
    · subst l'
      have hpend : (G.splitPage l a b s lm left right).pending l = some ⟨s, b⟩ :=
        Function.update_self _ _ _
      have habove : (G.splitPage l a b s lm left right).above l = G.above l := by
        by_cases hin : l + 1 < G.height
        · rw [above_inner hin]
          rw [above_inner (G := G.splitPage l a b s lm left right) hin, hchains _ (by omega)]
          exact expand_congr (fun y hy => hs.frame h hin (by omega) hy)
        · rw [above_top hin]
          exact above_top (G := G.splitPage l a b s lm left right) hin
      have heq := h.chain_eq l hs.level
      rw [hs.closed] at heq
      rw [hpend, habove, hupd, heq]
      rfl
    · have hpend : (G.splitPage l a b s lm left right).pending l' = G.pending l' :=
        Function.update_of_ne hll _ _
      have habove : (G.splitPage l a b s lm left right).above l' = G.above l' := by
        by_cases hin : l' + 1 < G.height
        · rw [above_inner hin]
          rw [above_inner (G := G.splitPage l a b s lm left right) hin]
          by_cases hup : l' + 1 = l
          · subst l
            have hent := hs.entries
            rw [if_neg (by omega)] at hent
            rw [hchain, hc]
            exact expand_split (e := ⟨s, lm⟩) hent (by
              have := h.nodup _ hs.level
              rwa [hc] at this) hnew
          · rw [hchains _ hup]
            exact expand_congr (fun y hy => hs.frame h hin hup hy)
        · rw [above_top hin]
          exact above_top (G := G.splitPage l a b s lm left right) hin
      rw [hpend, habove, hchains l' hll]
      exact h.chain_eq l' hl'
  · intro l' hl'
    by_cases hll : l' = l
    · subst l'
      rw [hchain]
      refine sorted_mid.mpr ⟨hsorted'.1, List.pairwise_cons.mpr ⟨hB, hsorted'.2.1⟩,
        hsorted'.2.2.1, ?_⟩
      intro y hy
      rcases List.mem_cons.mp hy with rfl | hy
      · exact hlo
      · exact hsorted'.2.2.2 y hy
    · rw [hchains l' hll]
      exact h.sorted l' hl'
  · intro l' hl'
    by_cases hll : l' = l
    · subst l'
      rw [hupd, ((insert_perm (G.chain l) ⟨s, b⟩).map (·.2)).nodup_iff, List.map_cons,
        List.nodup_cons]
      refine ⟨?_, h.nodup l hl'⟩
      intro hbm
      obtain ⟨y, hy, hyb⟩ := List.mem_map.mp hbm
      exact hs.fresh l hl' y hy hyb
    · rw [hchains l' hll]
      exact h.nodup l' hl'
  · intro l1 hl1 l2 hl2 y hy z hz hyz
    rcases hmem l1 hl1 y hy with ⟨h1, rfl⟩ | hy
    · rcases hmem l2 hl2 z hz with ⟨h2, _⟩ | hz
      · rw [h1, h2]
      · exact absurd hyz.symm (hs.fresh l2 hl2 z hz)
    · rcases hmem l2 hl2 z hz with ⟨h2, rfl⟩ | hz
      · exact absurd hyz (hs.fresh l1 hl1 y hy)
      · exact h.disjoint l1 hl1 l2 hl2 y hy z hz hyz
  · intro y hy b' hb'
    rcases hmem 0 h.pos y hy with ⟨rfl, rfl⟩ | hy
    · have hb'' : b' ∈ (G.splitPage 0 a b s lm left right).entries b := hb'
      rw [hself] at hb''
      exact WithBot.coe_le_coe.mpr (hright b' hb'')
    · refine h.leaf_above y hy b' ?_
      by_cases hya : y.2 = a
      · rw [hya, hold] at hb'
        rw [hya]
        exact hsub b' (Or.inl hb')
      · rwa [hother y.2 hya (hs.fresh 0 h.pos y hy)] at hb'
  · by_cases hl : 0 = l
    · subst l
      have hbelow := h.leaf_below
      rw [hchain]
      rw [hc] at hbelow
      rw [List.pairwise_append, List.pairwise_cons] at hbelow ⊢
      have hA : ∀ y ∈ A, (G.splitPage 0 a b s lm left right).entries y.2 = G.entries y.2 :=
        fun y hy => hother y.2 (hn.2.2 y.2 (List.mem_map_of_mem hy) a List.mem_cons_self)
          (hnew y (by simp [hy]))
      have hBe : ∀ y ∈ B, (G.splitPage 0 a b s lm left right).entries y.2 = G.entries y.2 := by
        intro y hy
        refine hother y.2 ?_ (hnew y (by simp [hy]))
        intro hya
        exact hn.2.1.1 (List.mem_map.mpr ⟨y, hy, hya⟩)
      refine ⟨hbelow.1.imp_of_mem ?_, ⟨?_, List.pairwise_cons.mpr ⟨?_, ?_⟩⟩, ?_⟩
      · intro y z hy _ hyz
        rw [hA y hy]
        exact hyz
      · intro y hy b' hb'
        rw [hold] at hb'
        rcases List.mem_cons.mp hy with rfl | hy
        · exact WithBot.coe_lt_coe.mpr (hleft b' hb')
        · exact hbelow.2.1.1 y hy b' (hsub b' (Or.inl hb'))
      · intro y hy b' hb'
        rw [hself] at hb'
        exact hbelow.2.1.1 y hy b' (hsub b' (Or.inr hb'))
      · refine hbelow.2.1.2.imp_of_mem ?_
        intro y z hy _ hyz
        rw [hBe y hy]
        exact hyz
      · intro y hy z hz
        rw [hA y hy]
        rcases List.mem_cons.mp hz with rfl | hz
        · exact hbelow.2.2 y hy (lo, a) List.mem_cons_self
        · rcases List.mem_cons.mp hz with rfl | hz
          · intro b' hb'
            exact (hbelow.2.2 y hy (lo, a) List.mem_cons_self b' hb').trans hlo
          · exact hbelow.2.2 y hy z (List.mem_cons_of_mem _ hz)
    · rw [hchains 0 hl]
      refine h.leaf_below.imp_of_mem ?_
      intro y z hy _ hyz
      rw [(hs.frame h h.pos hl hy).2]
      exact hyz
  · rw [h.splitPage_contents hs]
    exact h.increasing
  · intro l' hl' e' hp A' y z B' hAB' hyz
    by_cases hll : l' = l
    · subst l'
      have hpend : (G.splitPage l a b s lm left right).pending l = some ⟨s, b⟩ :=
        Function.update_self _ _ _
      rw [hpend] at hp
      have he' : cell e' = (↑s, b) := by
        rw [← Option.some.inj hp]
        rfl
      rcases hyz with rfl | rfl
      · rw [he']
        rw [show (G.splitPage l a b s lm left right).entries ((↑s, b) : Cell ℤ ℕ).2 = right
          from hself]
        exact hs.right_ne
      · -- the page before the new one is the old one
        have hn' : ((A ++ [(lo, a)] ++ (↑s, b) :: B).map (·.2)).Nodup := by
          have h1 := ((insert_perm (G.chain l) ⟨s, b⟩).map (·.2)).nodup_iff.mpr (by
            rw [List.map_cons, List.nodup_cons]
            refine ⟨?_, h.nodup l hl'⟩
            intro hbm
            obtain ⟨w, hw, hwb⟩ := List.mem_map.mp hbm
            exact hs.fresh l hl' w hw hwb)
          rw [hins] at h1
          simpa using h1
        have heq : A ++ [(lo, a)] ++ (↑s, b) :: B = (A' ++ [y]) ++ (↑s, b) :: B' := by
          have h1 := hchain.symm.trans hAB'
          rw [he'] at h1
          simpa using h1
        obtain ⟨h1, _, _⟩ := place_unique hn' heq
        have hy : y = (lo, a) := by
          have h2 := congrArg List.getLast? h1
          simp only [List.getLast?_append, List.getLast?_singleton, Option.some_or,
            Option.some.injEq] at h2
          exact h2.symm
        rw [hy]
        rw [show (G.splitPage l a b s lm left right).entries ((lo, a) : Cell ℤ ℕ).2 = left
          from hold]
        exact hs.left_ne
    · have hpend : (G.splitPage l a b s lm left right).pending l' = G.pending l' :=
        Function.update_of_ne hll _ _
      rw [hpend] at hp
      rw [hchains l' hll] at hAB'
      rw [(hs.frame h hl' hll (by rw [hAB']; simp)).2]
      exact h.pending_filled l' hl' e' hp A' y z B' hAB' hyz

end Split

/-! ### A new root -/

/-- The old root `e.ptr` was split off from has no page above it yet. -/
structure Grows (G : Outline) (r : ℕ) (e : Entry) : Prop where
  missing : G.pending (G.height - 1) = some e
  fresh : ∀ l < G.height, ∀ x ∈ G.chain l, x.2 ≠ r

section Grow
variable {r : ℕ} {e : Entry}

theorem Grows.frame (hg : G.Grows r e) {l : ℕ} (hl : l < G.height) {x : Cell ℤ ℕ}
    (hx : x ∈ G.chain l) : (G.grow r e).leftmost x.2 = G.leftmost x.2 ∧
      (G.grow r e).entries x.2 = G.entries x.2 :=
  ⟨Function.update_of_ne (hg.fresh l hl x hx) _ _, Function.update_of_ne (hg.fresh l hl x hx) _ _⟩

theorem grow_chain {l : ℕ} (hl : l < G.height) : (G.grow r e).chain l = G.chain l :=
  Function.update_of_ne (by omega) _ _

theorem grow_top : (G.grow r e).chain G.height = [(⊥, r)] := by
  show Function.update G.chain G.height [(⊥, r)] G.height = _
  rw [Function.update_self]

theorem WellFormed.grow_contents (h : G.WellFormed) (hg : G.Grows r e) :
    (G.grow r e).contents = G.contents := by
  rw [contents, contents, grow_chain h.pos]
  exact List.flatMap_congr (fun x hx => (hg.frame h.pos hx).2)

theorem WellFormed.grow (h : G.WellFormed) (hg : G.Grows r e) : (G.grow r e).WellFormed := by
  have hcases : ∀ l, l < (G.grow r e).height → l < G.height ∨ l = G.height := by
    intro l hl
    have : l < G.height + 1 := hl
    omega
  have hpos := h.pos
  refine ⟨Nat.succ_pos _, ?_, ?_, ?_, ?_, ?_, ?_, ?_, ?_⟩
  · intro l hl
    rcases hcases l hl with hl | rfl
    · rw [grow_chain hl]
      by_cases htop : l + 1 = G.height
      · have hpend : (G.grow r e).pending l = none := if_pos (Or.inl htop)
        have hroot : (G.grow r e).leftmost r = G.root := Function.update_self _ _ _
        have hent : (G.grow r e).entries r = [e] := Function.update_self _ _ _
        have habove : (G.grow r e).above l = [(⊥, G.root), cell e] := by
          rw [above_inner (G := G.grow r e) (by show l + 1 < G.height + 1; omega), htop, grow_top,
            expand_cons, hroot, hent]
          rfl
        have heq := h.chain_eq l hl
        have hp : G.pending l = some e := by
          rw [← hg.missing]
          congr 1
          omega
        rw [hp, above_top (by omega)] at heq
        rw [hpend, habove, heq]
        exact insert_split (X := [((⊥ : WithBot ℤ), G.root)]) (Y := []) (by simp) (by simp)
      · have hpend : (G.grow r e).pending l = G.pending l := if_neg (by omega)
        have hin : l + 1 < G.height := by omega
        have habove : (G.grow r e).above l = G.above l := by
          rw [above_inner hin]
          rw [above_inner (G := G.grow r e) (by show l + 1 < G.height + 1; omega),
            grow_chain hin]
          exact expand_congr (fun x hx => hg.frame hin hx)
        rw [hpend, habove]
        exact h.chain_eq l hl
    · have hpend : (G.grow r e).pending G.height = none := if_pos (Or.inr rfl)
      have habove : (G.grow r e).above G.height = [(⊥, r)] :=
        above_top (G := G.grow r e) (by show ¬ G.height + 1 < G.height + 1; omega)
      rw [hpend, habove]
      exact grow_top
  · intro l hl
    rcases hcases l hl with hl | rfl
    · rw [grow_chain hl]
      exact h.sorted l hl
    · rw [grow_top]
      simp [Sorted]
  · intro l hl
    rcases hcases l hl with hl | rfl
    · rw [grow_chain hl]
      exact h.nodup l hl
    · rw [grow_top]
      simp
  · intro l hl l' hl' x hx y hy hxy
    rcases hcases l hl with hl | rfl
    · rw [grow_chain hl] at hx
      rcases hcases l' hl' with hl' | rfl
      · rw [grow_chain hl'] at hy
        exact h.disjoint l hl l' hl' x hx y hy hxy
      · rw [grow_top, List.mem_singleton] at hy
        rw [hy] at hxy
        exact absurd hxy (hg.fresh l hl x hx)
    · rcases hcases l' hl' with hl' | rfl
      · rw [grow_top, List.mem_singleton] at hx
        rw [grow_chain hl'] at hy
        rw [hx] at hxy
        exact absurd hxy.symm (hg.fresh l' hl' y hy)
      · rfl
  · rw [grow_chain h.pos]
    intro x hx b hb
    rw [(hg.frame h.pos hx).2] at hb
    exact h.leaf_above x hx b hb
  · rw [grow_chain h.pos]
    refine h.leaf_below.imp_of_mem ?_
    intro x y hx _ hxy
    rw [(hg.frame h.pos hx).2]
    exact hxy
  · rw [h.grow_contents hg]
    exact h.increasing
  · intro l hl b hp A x y B hAB hxy
    rcases hcases l hl with hl | rfl
    · have hne : ¬ (l + 1 = G.height ∨ l = G.height) := by
        intro hor
        rw [show (G.grow r e).pending l = none from if_pos hor] at hp
        simp at hp
      rw [show (G.grow r e).pending l = G.pending l from if_neg hne] at hp
      rw [grow_chain hl] at hAB
      rw [(hg.frame hl (by rw [hAB]; simp)).2]
      exact h.pending_filled l hl b hp A x y B hAB hxy
    · rw [show (G.grow r e).pending G.height = none from if_pos (Or.inr rfl)] at hp
      simp at hp

end Grow

end Outline

end PmemStudy.FastFair
