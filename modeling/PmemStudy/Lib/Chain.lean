import Mathlib.Order.WithBot
import Mathlib.Data.List.Sort
import Mathlib.Data.List.InsertIdx
import PmemStudy.Lib.Slots

/-!
# Chains of pages

One level of a search tree as a chain: each page with the least key that
belongs to it, `⊥` for the first one. `expand` is the chain of the level below.
A separator is inserted into a chain, a page is split in two; the chain below
follows. A page that has no separator above yet is entered from its left
neighbour, so a search may arrive a little to the left of the page it looks for.
-/

namespace PmemStudy.Chain
open PmemStudy.Slots

variable {κ α : Type*}

abbrev Cell (κ α : Type*) := WithBot κ × α

def cell (e : Entry κ α) : Cell κ α := (↑e.key, e.ptr)

/-- The pages that a page refers to. -/
def refs (lo : WithBot κ) (lm : α) (es : List (Entry κ α)) : List (Cell κ α) :=
  (lo, lm) :: es.map cell

def expand (lm : α → α) (es : α → List (Entry κ α)) (ch : List (Cell κ α)) : List (Cell κ α) :=
  ch.flatMap fun x => refs x.1 (lm x.2) (es x.2)

theorem expand_append (lm : α → α) (es : α → List (Entry κ α)) (A B : List (Cell κ α)) :
    expand lm es (A ++ B) = expand lm es A ++ expand lm es B := by
  simp [expand]

theorem expand_cons (lm : α → α) (es : α → List (Entry κ α)) (x : Cell κ α)
    (B : List (Cell κ α)) :
    expand lm es (x :: B) = refs x.1 (lm x.2) (es x.2) ++ expand lm es B := by
  simp [expand]

/-- The chain below depends on the pages of the chain only. -/
theorem expand_congr {lm lm' : α → α} {es es' : α → List (Entry κ α)} {ch : List (Cell κ α)}
    (h : ∀ x ∈ ch, lm' x.2 = lm x.2 ∧ es' x.2 = es x.2) :
    expand lm' es' ch = expand lm es ch := by
  induction ch with
  | nil => rfl
  | cons x ch ih =>
    obtain ⟨h1, h2⟩ := h x List.mem_cons_self
    rw [expand_cons, expand_cons, h1, h2, ih (fun y hy => h y (List.mem_cons_of_mem x hy))]

/-- A page has one place in a chain. -/
theorem place_unique {A B A' B' : List (Cell κ α)} {lo lo' : WithBot κ} {a : α}
    (hn : ((A ++ (lo, a) :: B).map (·.2)).Nodup)
    (heq : A ++ (lo, a) :: B = A' ++ (lo', a) :: B') : A = A' ∧ lo = lo' ∧ B = B' := by
  rw [List.map_append, List.map_cons, List.nodup_append, List.nodup_cons] at hn
  rcases List.append_eq_append_iff.mp heq with ⟨Z, h1, h2⟩ | ⟨Z, h1, h2⟩
  · cases Z with
    | nil =>
      have h3 := List.cons.inj h2
      exact ⟨by simpa using h1.symm, (Prod.mk.inj h3.1).1, h3.2⟩
    | cons z Z =>
      have h3 := List.cons.inj h2
      refine absurd ?_ hn.2.1.1
      rw [h3.2]
      simp
  · cases Z with
    | nil =>
      have h3 := List.cons.inj h2
      exact ⟨by simpa using h1, (Prod.mk.inj h3.1).1.symm, h3.2.symm⟩
    | cons z Z =>
      have h3 := List.cons.inj h2
      refine absurd rfl (hn.2.2 a ?_ a List.mem_cons_self)
      rw [h1, ← h3.1]
      simp

/-- A split in which the separator leaves the page keeps the chain below. -/
theorem expand_split [DecidableEq α] {lm : α → α} {es : α → List (Entry κ α)}
    {A B : List (Cell κ α)} {lo : WithBot κ} {a b : α} {e : Entry κ α}
    {xs ys : List (Entry κ α)} (he : es a = xs ++ e :: ys)
    (hn : ((A ++ (lo, a) :: B).map (·.2)).Nodup)
    (hb : ∀ x ∈ A ++ (lo, a) :: B, x.2 ≠ b) :
    expand (Function.update lm b e.ptr) (Function.update (Function.update es a xs) b ys)
        (A ++ (lo, a) :: (↑e.key, b) :: B)
      = expand lm es (A ++ (lo, a) :: B) := by
  rw [List.map_append, List.map_cons, List.nodup_append, List.nodup_cons] at hn
  have hab : a ≠ b := hb (lo, a) (by simp)
  have hframe : ∀ x : Cell κ α, x.2 ≠ a → x.2 ≠ b → (Function.update lm b e.ptr) x.2 = lm x.2 ∧
      (Function.update (Function.update es a xs) b ys) x.2 = es x.2 := by
    intro x hxa hxb
    rw [Function.update_of_ne hxb, Function.update_of_ne hxb, Function.update_of_ne hxa]
    exact ⟨rfl, rfl⟩
  have hA : ∀ x ∈ A, x.2 ≠ a := fun x hx =>
    hn.2.2 x.2 (List.mem_map_of_mem hx) a List.mem_cons_self
  have hB' : ∀ x ∈ B, x.2 ≠ a := by
    intro x hx hxa
    exact hn.2.1.1 (List.mem_map.mpr ⟨x, hx, hxa⟩)
  have hcA : expand (Function.update lm b e.ptr) (Function.update (Function.update es a xs) b ys) A
      = expand lm es A :=
    expand_congr (fun x hx => hframe x (hA x hx) (hb x (by simp [hx])))
  have hcB : expand (Function.update lm b e.ptr) (Function.update (Function.update es a xs) b ys) B
      = expand lm es B :=
    expand_congr (fun x hx => hframe x (hB' x hx) (hb x (by simp [hx])))
  rw [expand_append, expand_cons, expand_cons, expand_append, expand_cons, hcA, hcB]
  simp only [Function.update_self, Function.update_of_ne hab, he]
  simp [refs, cell]

variable [LinearOrder κ]

def Sorted (ch : List (Cell κ α)) : Prop := ch.Pairwise fun x y => x.1 < y.1

def insert (e : Entry κ α) (ch : List (Cell κ α)) : List (Cell κ α) :=
  ch.orderedInsert (fun x y => x.1 < y.1) (cell e)

theorem insert_split {X Y : List (Cell κ α)} {e : Entry κ α} (hX : ∀ x ∈ X, x.1 < ↑e.key)
    (hY : ∀ y ∈ Y, ↑e.key < y.1) : insert e (X ++ Y) = X ++ cell e :: Y := by
  induction X with
  | nil =>
    cases Y with
    | nil => rfl
    | cons y Y =>
      exact List.orderedInsert_cons_of_le _ Y (hY y List.mem_cons_self)
  | cons x X ih =>
    have hx : x.1 < ↑e.key := hX x List.mem_cons_self
    have hstep : insert e (x :: (X ++ Y)) = x :: insert e (X ++ Y) :=
      List.orderedInsert_of_not_le _ _ (not_lt_of_gt hx)
    rw [List.cons_append, hstep, ih (fun z hz => hX z (List.mem_cons_of_mem x hz)),
      List.cons_append]

theorem exists_split {ch : List (Cell κ α)} (hs : Sorted ch) {k : κ}
    (hk : ∀ x ∈ ch, x.1 ≠ ↑k) :
    ∃ X Y, ch = X ++ Y ∧ (∀ x ∈ X, x.1 < ↑k) ∧ ∀ y ∈ Y, (k : WithBot κ) < y.1 := by
  induction ch with
  | nil => exact ⟨[], [], rfl, by simp, by simp⟩
  | cons x ch ih =>
    have hs' := List.pairwise_cons.mp hs
    rcases lt_or_gt_of_ne (hk x List.mem_cons_self) with hlt | hgt
    · obtain ⟨X, Y, rfl, hX, hY⟩ := ih hs'.2 (fun y hy => hk y (List.mem_cons_of_mem x hy))
      refine ⟨x :: X, Y, rfl, ?_, hY⟩
      intro y hy
      rcases List.mem_cons.mp hy with rfl | hy
      · exact hlt
      · exact hX y hy
    · refine ⟨[], x :: ch, rfl, by simp, ?_⟩
      intro y hy
      rcases List.mem_cons.mp hy with rfl | hy
      · exact hgt
      · exact hgt.trans (hs'.1 y hy)

theorem sorted_mid {X Y : List (Cell κ α)} {x : Cell κ α} :
    Sorted (X ++ x :: Y) ↔ Sorted X ∧ Sorted Y ∧ (∀ y ∈ X, y.1 < x.1) ∧ (∀ y ∈ Y, x.1 < y.1) := by
  unfold Sorted
  rw [List.pairwise_append, List.pairwise_cons]
  constructor
  · rintro ⟨h1, ⟨h2, h3⟩, h4⟩
    exact ⟨h1, h3, fun y hy => h4 y hy x List.mem_cons_self, h2⟩
  · rintro ⟨h1, h2, h3, h4⟩
    refine ⟨h1, ⟨h4, h2⟩, ?_⟩
    intro a ha b hb
    rcases List.mem_cons.mp hb with rfl | hb
    · exact h3 a ha
    · exact (h3 a ha).trans (h4 b hb)

theorem insert_sublist (ch : List (Cell κ α)) (e : Entry κ α) : ch.Sublist (insert e ch) :=
  List.sublist_orderedInsert _ _

theorem insert_perm (ch : List (Cell κ α)) (e : Entry κ α) : (insert e ch).Perm (cell e :: ch) :=
  List.perm_orderedInsert _ _ _

/-- The key of an inserted separator was not there before. -/
theorem ne_of_sorted_insert {ch : List (Cell κ α)} {e : Entry κ α} (hs : Sorted (insert e ch)) :
    ∀ x ∈ ch, x.1 ≠ ↑e.key := by
  have hn : ((insert e ch).map (·.1)).Nodup := by
    rw [List.Nodup, List.pairwise_map]
    exact hs.imp (fun h => h.ne)
  have hp := ((insert_perm ch e).map (·.1)).nodup_iff.mp hn
  rw [List.map_cons, List.nodup_cons] at hp
  intro x hx hxe
  exact hp.1 (List.mem_map.mpr ⟨x, hx, hxe⟩)

theorem mem_insert {ch : List (Cell κ α)} {e : Entry κ α} {x : Cell κ α} :
    x ∈ insert e ch ↔ x = cell e ∨ x ∈ ch := List.mem_orderedInsert _

/-! ### The pages below one page -/

theorem refs_sorted {lo : WithBot κ} {lm : α} {es : List (Entry κ α)} :
    Sorted (refs lo lm es) ↔ (∀ e ∈ es, lo < ↑e.key) ∧ Increasing es := by
  unfold Sorted Increasing refs
  rw [List.pairwise_cons, List.pairwise_map]
  simp [cell]

theorem le_of_mem_refs {lo : WithBot κ} {lm : α} {es : List (Entry κ α)}
    (hs : Sorted (refs lo lm es)) {y : Cell κ α} (hy : y ∈ refs lo lm es) : lo ≤ y.1 := by
  rcases List.mem_cons.mp hy with rfl | hy
  · exact le_refl _
  · exact ((List.pairwise_cons.mp hs).1 y hy).le

theorem sorted_refs_of_expand {lm : α → α} {es : α → List (Entry κ α)} {ch : List (Cell κ α)}
    (hs : Sorted (expand lm es ch)) {x : Cell κ α} (hx : x ∈ ch) :
    Sorted (refs x.1 (lm x.2) (es x.2)) := by
  obtain ⟨A, B, rfl⟩ := List.append_of_mem hx
  rw [expand_append, expand_cons] at hs
  exact (List.pairwise_append.mp (List.pairwise_append.mp hs).2.1).1

/-- Keys to the right of a bound stay there in the chain below. -/
theorem lt_expand {lm : α → α} {es : α → List (Entry κ α)} {ch : List (Cell κ α)}
    (hs : Sorted (expand lm es ch)) {k : κ} (h : ∀ x ∈ ch, (k : WithBot κ) < x.1) :
    ∀ y ∈ expand lm es ch, (k : WithBot κ) < y.1 := by
  intro y hy
  obtain ⟨x, hx, hxy⟩ := List.mem_flatMap.mp hy
  exact (h x hx).trans_le (le_of_mem_refs (sorted_refs_of_expand hs hx) hxy)

/-- Where the routing search of a page leads. -/
theorem route_refs [DecidableEq α] {k : κ} {lo : WithBot κ} {lm : α} {es : List (Entry κ α)}
    (hlo : lo ≤ ↑k) (hd : Distinct lm es) (hi : Increasing es) :
    ∃ (A : List (Cell κ α)) (lo' : WithBot κ) (B : List (Cell κ α)),
      refs lo lm es = A ++ (lo', route k lm es) :: B ∧ lo' ≤ ↑k ∧
      ∀ y ∈ B, (k : WithBot κ) < y.1 := by
  induction es generalizing lo lm with
  | nil => exact ⟨[], lo, [], rfl, hlo, by simp⟩
  | cons e es ih =>
    rw [distinct_cons] at hd
    have hi' := List.pairwise_cons.mp hi
    by_cases hk : k < e.key
    · refine ⟨[], lo, (e :: es).map cell, ?_, hlo, ?_⟩
      · rw [route_stop hk hd.1]
        rfl
      · intro y hy
        obtain ⟨b, hb, rfl⟩ := List.mem_map.mp hy
        rcases List.mem_cons.mp hb with rfl | hb
        · exact WithBot.coe_lt_coe.mpr hk
        · exact WithBot.coe_lt_coe.mpr (hk.trans (hi'.1 b hb))
    · have hk' : (e.key : WithBot κ) ≤ ↑k := WithBot.coe_le_coe.mpr (not_lt.mp hk)
      obtain ⟨A, lo', B, hAB, h1, h2⟩ := ih hk' hd.2 hi'.2
      refine ⟨(lo, lm) :: A, lo', B, ?_, h1, h2⟩
      have hroute : route k lm (e :: es) = route k e.ptr es := by
        rw [route, if_neg (fun hc => hk hc.1)]
      rw [hroute, List.cons_append, ← hAB]
      rfl

/-! ### Where a search may arrive -/

/-- `a` is the page that `k` belongs to. -/
def AtHome (ch : List (Cell κ α)) (k : κ) (a : α) : Prop :=
  ∃ (A : List (Cell κ α)) (lo : WithBot κ) (B : List (Cell κ α)), ch = A ++ (lo, a) :: B ∧
    lo ≤ ↑k ∧ ∀ y ∈ B, (k : WithBot κ) < y.1

/-- `a` is that page or to its left, and all pages strictly between are open. -/
def Near (isOpen : α → Prop) (ch : List (Cell κ α)) (k : κ) (a : α) : Prop :=
  ∃ (A : List (Cell κ α)) (lo : WithBot κ) (B : List (Cell κ α)), ch = A ++ (lo, a) :: B ∧
    lo ≤ ↑k ∧ ∀ M x y B', B = M ++ x :: y :: B' → y.1 ≤ (k : WithBot κ) →
      isOpen x.2

theorem AtHome.mem {ch : List (Cell κ α)} {k : κ} {a : α} (h : AtHome ch k a) :
    a ∈ ch.map (·.2) := by
  obtain ⟨A, lo, B, rfl, _⟩ := h
  simp

theorem AtHome.near {ch : List (Cell κ α)} {k : κ} {a : α} (h : AtHome ch k a)
    (isOpen : α → Prop) : Near isOpen ch k a := by
  obtain ⟨A, lo, B, rfl, hlo, hB⟩ := h
  refine ⟨A, lo, B, rfl, hlo, ?_⟩
  rintro M x y B' rfl hy
  exact absurd (hB y (by simp)) (not_lt.mpr hy)

/-- At the page a key belongs to, the search leads to the page below. -/
theorem atHome_expand [DecidableEq α] {lm : α → α} {es : α → List (Entry κ α)}
    {ch : List (Cell κ α)} (hs : Sorted (expand lm es ch)) {k : κ} {a : α} (h : AtHome ch k a)
    (hd : Distinct (lm a) (es a)) : AtHome (expand lm es ch) k (route k (lm a) (es a)) := by
  obtain ⟨A, lo, B, rfl, hlo, hB⟩ := h
  rw [expand_append, expand_cons] at hs ⊢
  have h2 := List.pairwise_append.mp (List.pairwise_append.mp hs).2.1
  obtain ⟨A', lo', B', hAB, h3, h4⟩ := route_refs hlo hd (refs_sorted.mp h2.1).2
  refine ⟨expand lm es A ++ A', lo', B' ++ expand lm es B, ?_, h3, ?_⟩
  · rw [hAB]
    simp
  · intro y hy
    rcases List.mem_append.mp hy with hy | hy
    · exact h4 y hy
    · exact lt_expand h2.2.1 hB y hy

/-- At the left neighbour of a page whose entries are all greater, the search
leads to the left neighbour below. -/
theorem near_expand_left [DecidableEq α] {lm : α → α} {es : α → List (Entry κ α)}
    {A B : List (Cell κ α)} {lo lo2 : WithBot κ} {a b : α}
    (hs : Sorted (expand lm es (A ++ (lo, a) :: (lo2, b) :: B))) {k : κ} (hlo2 : lo2 ≤ ↑k)
    (hB : ∀ y ∈ B, (k : WithBot κ) < y.1) (hb : ∀ e ∈ es b, k < e.key)
    (hd : Distinct (lm a) (es a)) :
    Near (fun _ => False) (expand lm es (A ++ (lo, a) :: (lo2, b) :: B)) k
      (route k (lm a) (es a)) := by
  rw [expand_append, expand_cons, expand_cons] at hs ⊢
  have h2 := List.pairwise_append.mp (List.pairwise_append.mp hs).2.1
  have h3 := List.pairwise_append.mp h2.2.1
  have hlo : lo < lo2 := h2.2.2 (lo, lm a) List.mem_cons_self (lo2, lm b)
    (List.mem_append_left _ List.mem_cons_self)
  obtain ⟨A', lo', B', hAB, h4, h5⟩ :=
    route_refs (hlo.le.trans hlo2) hd (refs_sorted.mp h2.1).2
  have hB' : B' = [] := by
    cases B' with
    | nil => rfl
    | cons y B' =>
      have hmem : y ∈ refs lo (lm a) (es a) := by
        rw [hAB]
        simp
      have hlt : y.1 < lo2 := h2.2.2 y hmem (lo2, lm b)
        (List.mem_append_left _ List.mem_cons_self)
      exact absurd (h5 y List.mem_cons_self) (not_lt.mpr (hlt.le.trans hlo2))
  subst B'
  refine ⟨expand lm es A ++ A', lo', (lo2, lm b) :: ((es b).map cell ++ expand lm es B), ?_, h4, ?_⟩
  · rw [hAB]
    simp [refs]
  · intro M x y B' hM hy
    have hmem : y ∈ (es b).map cell ++ expand lm es B := by
      cases M with
      | nil =>
        have : (es b).map cell ++ expand lm es B = y :: B' := (List.cons.inj hM).2
        rw [this]
        exact List.mem_cons_self
      | cons m M =>
        have : (es b).map cell ++ expand lm es B = M ++ x :: y :: B' := (List.cons.inj hM).2
        rw [this]
        simp
    rcases List.mem_append.mp hmem with hm | hm
    · obtain ⟨e, he, rfl⟩ := List.mem_map.mp hm
      exact absurd (WithBot.coe_lt_coe.mpr (hb e he)) (not_lt.mpr hy)
    · exact absurd (lt_expand h3.2.1 hB y hm) (not_lt.mpr hy)

/-- A separator that is still missing above: the page it belongs to and its left
neighbour have to be open. -/
theorem near_insert {isOpen : α → Prop} {ch : List (Cell κ α)} {k : κ} {a : α} {e : Entry κ α}
    (hs : Sorted ch) (he : ∀ x ∈ ch, x.1 ≠ ↑e.key) (h : Near (fun _ => False) ch k a)
    (hopen : ∀ A x y B, insert e ch = A ++ x :: y :: B → (x = cell e ∨ y = cell e) →
      y.1 ≤ ↑k → isOpen x.2) : Near isOpen (insert e ch) k a := by
  obtain ⟨A, lo, B, rfl, hlo, hB⟩ := h
  have hmid := sorted_mid.mp hs
  have hne : lo ≠ ↑e.key := he (lo, a) (by simp)
  rcases lt_or_gt_of_ne hne with hlt | hgt
  · obtain ⟨X, Y, rfl, hX, hY⟩ := exists_split hmid.2.1 (fun y hy => he y (by simp [hy]))
    have hins : insert e (A ++ (lo, a) :: (X ++ Y)) = A ++ (lo, a) :: (X ++ cell e :: Y) := by
      have := insert_split (X := A ++ (lo, a) :: X) (Y := Y) (e := e) (by
        intro x hx
        rcases List.mem_append.mp hx with hx | hx
        · exact (hmid.2.2.1 x hx).trans hlt
        · rcases List.mem_cons.mp hx with rfl | hx
          · exact hlt
          · exact hX x hx) hY
      simpa using this
    rw [hins] at hopen ⊢
    refine ⟨A, lo, X ++ cell e :: Y, rfl, hlo, ?_⟩
    intro M x y B' hM hy
    by_cases hxy : x = cell e ∨ y = cell e
    · exact hopen (A ++ (lo, a) :: M) x y B' (by rw [hM]; simp) hxy hy
    · -- both were neighbours before
      exfalso
      rcases List.append_eq_append_iff.mp hM with ⟨Z, h1, h2⟩ | ⟨Z, h1, h2⟩
      · cases Z with
        | nil =>
          have := (List.cons.inj h2).1
          exact hxy (Or.inl this.symm)
        | cons z Z =>
          have hY' : Y = Z ++ x :: y :: B' := (List.cons.inj h2).2
          exact hB (X ++ Z) x y B' (by rw [hY']; simp) hy
      · cases Z with
        | nil =>
          have := (List.cons.inj h2).1
          exact hxy (Or.inl this)
        | cons z Z =>
          have hz : x = z := (List.cons.inj h2).1
          cases Z with
          | nil =>
            have := (List.cons.inj (List.cons.inj h2).2).1
            exact hxy (Or.inr this)
          | cons z' Z =>
            have hz' : y = z' := (List.cons.inj (List.cons.inj h2).2).1
            subst z z'
            exact hB M x y (Z ++ Y) (by rw [h1]; simp) hy
  · obtain ⟨X, Y, rfl, hX, hY⟩ := exists_split hmid.1 (fun y hy => he y (by simp [hy]))
    have hins : insert e ((X ++ Y) ++ (lo, a) :: B) = X ++ cell e :: (Y ++ (lo, a) :: B) := by
      have := insert_split (X := X) (Y := Y ++ (lo, a) :: B) (e := e) hX (by
        intro y hy
        rcases List.mem_append.mp hy with hy | hy
        · exact hY y hy
        · rcases List.mem_cons.mp hy with rfl | hy
          · exact hgt
          · exact hgt.trans (hmid.2.2.2 y hy))
      simpa using this
    rw [hins]
    refine ⟨X ++ cell e :: Y, lo, B, by simp, hlo, ?_⟩
    intro M x y B' hM hy
    exact absurd (hB M x y B' hM hy) (by simp)

/-! ### Insertion and split -/

/-- An entry put into the page it belongs to is put into the chain below. -/
theorem expand_insert [DecidableEq α] {lm : α → α} {es : α → List (Entry κ α)}
    {A B : List (Cell κ α)} {lo : WithBot κ} {a : α} {e : Entry κ α} {c : ℕ}
    (hs : Sorted (expand lm es (A ++ (lo, a) :: B)))
    (hn : ((A ++ (lo, a) :: B).map (·.2)).Nodup) (hp : Place (es a) e.key c)
    (hlo : lo < ↑e.key) (hB : ∀ y ∈ B, ↑e.key < y.1) :
    expand lm (Function.update es a ((es a).insertIdx c e)) (A ++ (lo, a) :: B)
      = insert e (expand lm es (A ++ (lo, a) :: B)) := by
  rw [List.map_append, List.map_cons, List.nodup_append, List.nodup_cons] at hn
  have hA : ∀ x ∈ A, x.2 ≠ a := fun x hx =>
    hn.2.2 x.2 (List.mem_map_of_mem hx) a List.mem_cons_self
  have hB' : ∀ x ∈ B, x.2 ≠ a := by
    intro x hx hxa
    exact hn.2.1.1 (List.mem_map.mpr ⟨x, hx, hxa⟩)
  rw [expand_append, expand_cons] at hs
  have h1 := List.pairwise_append.mp hs
  have h2 := List.pairwise_append.mp h1.2.1
  have hcA : expand lm (Function.update es a ((es a).insertIdx c e)) A = expand lm es A :=
    expand_congr (fun x hx => ⟨rfl, Function.update_of_ne (hA x hx) _ _⟩)
  have hcB : expand lm (Function.update es a ((es a).insertIdx c e)) B = expand lm es B :=
    expand_congr (fun x hx => ⟨rfl, Function.update_of_ne (hB' x hx) _ _⟩)
  rw [expand_append, expand_cons, expand_append, expand_cons, hcA, hcB]
  simp only [Function.update_self]
  have hr : refs lo (lm a) ((es a).insertIdx c e)
      = ((lo, lm a) :: ((es a).take c).map cell) ++ cell e :: ((es a).drop c).map cell := by
    rw [insertIdx_take_drop _ _ _ hp.le, refs, List.map_append, List.map_cons, List.cons_append]
  have hr' : refs lo (lm a) (es a)
      = ((lo, lm a) :: ((es a).take c).map cell) ++ ((es a).drop c).map cell := by
    rw [refs, List.cons_append, ← List.map_append, List.take_append_drop]
  have hins := insert_split (X := expand lm es A ++ ((lo, lm a) :: ((es a).take c).map cell))
    (Y := ((es a).drop c).map cell ++ expand lm es B) (e := e) ?_ ?_
  · rw [hr, hr']
    simp only [List.append_assoc, List.cons_append] at hins ⊢
    exact hins.symm
  · intro x hx
    rcases List.mem_append.mp hx with hx | hx
    · exact (h1.2.2 x hx (lo, lm a) (List.mem_append_left _ List.mem_cons_self)).trans hlo
    · rcases List.mem_cons.mp hx with rfl | hx
      · exact hlo
      · obtain ⟨b, hb, rfl⟩ := List.mem_map.mp hx
        obtain ⟨i, hi, rfl⟩ := List.getElem_of_mem hb
        rw [List.getElem_take]
        simp only [List.length_take] at hi
        exact WithBot.coe_lt_coe.mpr (hp.left i (by omega) (by omega))
  · intro y hy
    rcases List.mem_append.mp hy with hy | hy
    · obtain ⟨b, hb, rfl⟩ := List.mem_map.mp hy
      obtain ⟨i, hi, rfl⟩ := List.getElem_of_mem hb
      rw [List.getElem_drop]
      simp only [List.length_drop] at hi
      exact WithBot.coe_lt_coe.mpr (hp.right (c + i) (by omega) (by omega))
    · exact lt_expand h2.2.1 hB y hy

end PmemStudy.Chain
