import PmemStudy.Lib.Chain

/-!
# Right links

A chain whose separators may be missing above, or stand above a page to the left of the one
they belong to. A search that arrives at a page with a bound not greater than its key still
finds the way: to the right, or down to such a page again. The bounds need not be in order.
-/

namespace PmemStudy.Chain
open PmemStudy.Slots

variable {κ α : Type*}

/-- A page that an entry is put into refers to one more page. -/
theorem expand_put [DecidableEq α] {lm : α → α} {es : α → List (Entry κ α)}
    {A B : List (Cell κ α)} {lo : WithBot κ} {a : α} {e : Entry κ α} {c : ℕ}
    (hn : ((A ++ (lo, a) :: B).map (·.2)).Nodup) (hc : c ≤ (es a).length) :
    (expand lm (Function.update es a ((es a).insertIdx c e)) (A ++ (lo, a) :: B)).Perm
      (cell e :: expand lm es (A ++ (lo, a) :: B)) := by
  rw [List.map_append, List.map_cons, List.nodup_append, List.nodup_cons] at hn
  have hA : ∀ x ∈ A, x.2 ≠ a := fun x hx =>
    hn.2.2 x.2 (List.mem_map_of_mem hx) a List.mem_cons_self
  have hB : ∀ x ∈ B, x.2 ≠ a := by
    intro x hx hxa
    exact hn.2.1.1 (List.mem_map.mpr ⟨x, hx, hxa⟩)
  have hcA : expand lm (Function.update es a ((es a).insertIdx c e)) A = expand lm es A :=
    expand_congr (fun x hx => ⟨rfl, Function.update_of_ne (hA x hx) _ _⟩)
  have hcB : expand lm (Function.update es a ((es a).insertIdx c e)) B = expand lm es B :=
    expand_congr (fun x hx => ⟨rfl, Function.update_of_ne (hB x hx) _ _⟩)
  rw [expand_append, expand_cons, expand_append, expand_cons, hcA, hcB]
  simp only [Function.update_self]
  have hrefs : (refs lo (lm a) ((es a).insertIdx c e)).Perm (cell e :: refs lo (lm a) (es a)) :=
    (((List.perm_insertIdx e _ hc).map cell).cons (lo, lm a)).trans (List.Perm.swap _ _ _)
  exact ((hrefs.append_right (expand lm es B)).append_left (expand lm es A)).trans
    List.perm_middle

variable [LinearOrder κ]

/-- `a` is a page of the chain whose bound is not greater than `k`. -/
def Landing (ch : List (Cell κ α)) (k : κ) (a : α) : Prop := ∃ x ∈ ch, x.2 = a ∧ x.1 ≤ ↑k

theorem Landing.mono {ch ch' : List (Cell κ α)} {k : κ} {a : α} (h : Landing ch k a)
    (hsub : ch ⊆ ch') : Landing ch' k a := by
  obtain ⟨x, hx, hxa, hxk⟩ := h
  exact ⟨x, hsub hx, hxa, hxk⟩

theorem Landing.split {ch : List (Cell κ α)} {k : κ} {a : α} (h : Landing ch k a) :
    ∃ (A : List (Cell κ α)) (lo : WithBot κ) (B : List (Cell κ α)),
      ch = A ++ (lo, a) :: B ∧ lo ≤ ↑k := by
  obtain ⟨⟨lo, b⟩, hx, rfl, hlo⟩ := h
  obtain ⟨A, B, hAB⟩ := List.append_of_mem hx
  exact ⟨A, lo, B, hAB, hlo⟩

theorem AtHome.landing {ch : List (Cell κ α)} {k : κ} {a : α} (h : AtHome ch k a) :
    Landing ch k a := by
  obtain ⟨A, lo, B, rfl, hlo, _⟩ := h
  exact ⟨(lo, a), by simp, rfl, hlo⟩

/-- The routing search inside a page leads to a page below that the key may be to the
right of. -/
theorem landing_route [DecidableEq α] {k : κ} {lo : WithBot κ} {lm : α} {es : List (Entry κ α)}
    (hlo : lo ≤ ↑k) (hd : Distinct lm es) : Landing (refs lo lm es) k (route k lm es) := by
  induction es generalizing lo lm with
  | nil => exact ⟨(lo, lm), List.mem_cons_self, rfl, hlo⟩
  | cons e es ih =>
    rw [distinct_cons] at hd
    by_cases hk : k < e.key
    · rw [route_stop hk hd.1]
      exact ⟨(lo, lm), List.mem_cons_self, rfl, hlo⟩
    · have hroute : route k lm (e :: es) = route k e.ptr es := by
        rw [route, if_neg (fun hc => hk hc.1)]
      rw [hroute]
      exact (ih (WithBot.coe_le_coe.mpr (not_lt.mp hk)) hd.2).mono
        (fun y hy => List.mem_cons_of_mem (lo, lm) hy)

theorem AtHome.unique {ch : List (Cell κ α)} (hs : Sorted ch) {k : κ} {a b : α}
    (ha : AtHome ch k a) (hb : AtHome ch k b) : a = b := by
  obtain ⟨A, lo, B, rfl, hlo, hB⟩ := ha
  obtain ⟨A', lo', B', hc, hlo', hB'⟩ := hb
  have hmem : ((lo', b) : Cell κ α) ∈ A ++ (lo, a) :: B := by
    rw [hc]
    simp
  have hmem' : ((lo, a) : Cell κ α) ∈ A' ++ (lo', b) :: B' := by
    rw [← hc]
    simp
  have hs' := hs
  rw [hc] at hs'
  have h1 := sorted_mid.mp hs
  have h2 := sorted_mid.mp hs'
  rcases List.mem_append.mp hmem with hm | hm
  · -- the second page would be left of the first, and the first right of the second
    have hlt := h1.2.2.1 _ hm
    rcases List.mem_append.mp hmem' with hm' | hm'
    · exact absurd (h2.2.2.1 _ hm') (lt_asymm hlt)
    · rcases List.mem_cons.mp hm' with heq | hm'
      · exact congrArg Prod.snd heq
      · exact absurd (hB' _ hm') (not_lt.mpr hlo)
  · rcases List.mem_cons.mp hm with heq | hm
    · exact (congrArg Prod.snd heq).symm
    · exact absurd (hB _ hm) (not_lt.mpr hlo')

theorem AtHome.next {ch : List (Cell κ α)} (hs : Sorted ch) {k : κ} {a : α} (h : AtHome ch k a) :
    ∃ lo, (lo, a) ∈ ch ∧ lo ≤ ↑k ∧ ∀ y ∈ ch, lo < y.1 → (k : WithBot κ) < y.1 := by
  obtain ⟨A, lo, B, rfl, hlo, hB⟩ := h
  refine ⟨lo, by simp, hlo, ?_⟩
  intro y hy hlt
  rcases List.mem_append.mp hy with hy | hy
  · exact absurd hlt ((sorted_mid.mp hs).2.2.1 y hy).not_gt
  · rcases List.mem_cons.mp hy with rfl | hy
    · exact absurd hlt (lt_irrefl _)
    · exact hB y hy

theorem AtHome.of_cell {ch : List (Cell κ α)} (hs : Sorted ch) {k : κ} {a : α} {lo : WithBot κ}
    (hmem : (lo, a) ∈ ch) (hlo : lo ≤ ↑k) (hnext : ∀ y ∈ ch, lo < y.1 → (k : WithBot κ) < y.1) :
    AtHome ch k a := by
  obtain ⟨A, B, rfl⟩ := List.append_of_mem hmem
  exact ⟨A, lo, B, rfl, hlo, fun y hy => hnext y (by simp [hy]) ((sorted_mid.mp hs).2.2.2 y hy)⟩

/-- The page at `a` is cut at `s`; the keys of the right half go to the page at `b`. -/
theorem AtHome.cut [DecidableEq α] {A B : List (Cell κ α)} {lo s : WithBot κ} {a b c : α} {k : κ}
    (hn : ((A ++ (lo, a) :: B).map (·.2)).Nodup) (hs : Sorted (A ++ (lo, a) :: (s, b) :: B))
    (h : AtHome (A ++ (lo, a) :: B) k c) :
    AtHome (A ++ (lo, a) :: (s, b) :: B) k (if c = a then if ↑k < s then a else b else c) := by
  have hold : Sorted (A ++ (lo, a) :: B) := by
    refine hs.sublist (List.Sublist.append_left ?_ A)
    exact (List.sublist_cons_self (s, b) B).cons_cons (lo, a)
  by_cases hca : c = a
  · subst c
    obtain ⟨A', lo', B', hc, hlo, hB⟩ := h
    obtain ⟨rfl, rfl, rfl⟩ := place_unique hn hc
    rw [if_pos rfl]
    by_cases hk : (k : WithBot κ) < s
    · rw [if_pos hk]
      refine ⟨A, lo, (s, b) :: B, rfl, hlo, ?_⟩
      intro y hy
      rcases List.mem_cons.mp hy with rfl | hy
      · exact hk
      · exact hB y hy
    · rw [if_neg hk]
      exact ⟨A ++ [(lo, a)], s, B, by simp, not_lt.mp hk, hB⟩
  · rw [if_neg hca]
    obtain ⟨lo', hmem, hlo, hnext⟩ := h.next hold
    refine .of_cell hs ?_ hlo ?_
    · simp only [List.mem_append, List.mem_cons] at hmem ⊢
      tauto
    · intro y hy hlt
      have hcase : y = (s, b) ∨ y ∈ A ++ (lo, a) :: B := by
        simp only [List.mem_append, List.mem_cons] at hy ⊢
        tauto
      rcases hcase with rfl | hy
      · have hlos : lo < s := (sorted_mid.mp hs).2.2.2 (s, b) List.mem_cons_self
        rcases List.mem_append.mp hmem with hm | hm
        · have hlt' : lo' < lo := (sorted_mid.mp hs).2.2.1 _ hm
          exact (hnext (lo, a) (by simp) hlt').trans hlos
        · rcases List.mem_cons.mp hm with heq | hm
          · exact absurd (congrArg Prod.snd heq) hca
          · have hs' := (sorted_mid.mp hs).2.1
            exact absurd ((List.pairwise_cons.mp hs').1 _ hm) hlt.not_gt
      · exact hnext y hy hlt

end PmemStudy.Chain
