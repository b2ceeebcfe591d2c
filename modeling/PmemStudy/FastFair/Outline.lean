import Mathlib
import PmemStudy.Lib.Chain
import PmemStudy.FastFair.Btree
import PmemStudy.FastFair.InsertKey

/-!
# The outline of a tree

What the pages of a tree mean: the chain of each level, the entries of each
page, and the separators that the level above does not have yet. The chain of a
level is what the level above refers to, plus the missing separator.
-/

namespace PmemStudy.FastFair
open PmemStudy.Slots PmemStudy.Chain

structure Outline where
  height : ℕ
  root : ℕ
  chain : ℕ → List (Cell ℤ ℕ)
  leftmost : ℕ → ℕ
  entries : ℕ → List Entry
  pending : ℕ → Option Entry

namespace Outline

/-- The pages of level `l` that are referenced from above. -/
def above (G : Outline) (l : ℕ) : List (Cell ℤ ℕ) :=
  if l + 1 < G.height then expand G.leftmost G.entries (G.chain (l + 1)) else [(⊥, G.root)]

def insertPending : Option Entry → List (Cell ℤ ℕ) → List (Cell ℤ ℕ)
  | none, ch => ch
  | some e, ch => Chain.insert e ch

/-- The stored pairs, leaf by leaf. -/
def contents (G : Outline) : List Entry := (G.chain 0).flatMap fun x => G.entries x.2

structure WellFormed (G : Outline) : Prop where
  pos : 0 < G.height
  chain_eq : ∀ l < G.height, G.chain l = insertPending (G.pending l) (G.above l)
  sorted : ∀ l < G.height, Sorted (G.chain l)
  nodup : ∀ l < G.height, ((G.chain l).map (·.2)).Nodup
  disjoint : ∀ l < G.height, ∀ l' < G.height, ∀ x ∈ G.chain l, ∀ y ∈ G.chain l',
    x.2 = y.2 → l = l'
  leaf_above : ∀ x ∈ G.chain 0, ∀ e ∈ G.entries x.2, x.1 ≤ ↑e.key
  leaf_below : (G.chain 0).Pairwise fun x y => ∀ e ∈ G.entries x.2, ↑e.key < y.1
  increasing : Increasing G.contents
  pending_filled : ∀ l < G.height, ∀ e, G.pending l = some e → ∀ A x y B,
    G.chain l = A ++ x :: y :: B → (x = cell e ∨ y = cell e) → G.entries x.2 ≠ []

/-- A page has one place in one level. -/
structure Apart (G : Outline) : Prop where
  nodup : ∀ l < G.height, ((G.chain l).map (·.2)).Nodup
  disjoint : ∀ l < G.height, ∀ l' < G.height, ∀ x ∈ G.chain l, ∀ y ∈ G.chain l',
    x.2 = y.2 → l = l'

variable {G : Outline}

theorem WellFormed.apart (h : G.WellFormed) : G.Apart := ⟨h.nodup, h.disjoint⟩

theorem Apart.split_unique (h : G.Apart) {l : ℕ} (hl : l < G.height)
    {A B A' B' : List (Cell ℤ ℕ)} {lo lo' : WithBot ℤ} {a : ℕ}
    (hc : G.chain l = A ++ (lo, a) :: B) (hc' : G.chain l = A' ++ (lo', a) :: B') :
    A = A' ∧ lo = lo' ∧ B = B' := by
  have hn := h.nodup l hl
  rw [hc] at hn
  exact place_unique hn (hc.symm.trans hc')

theorem Apart.ne_of_level (h : G.Apart) {l l' a : ℕ} (hl : l < G.height) (hl' : l' < G.height)
    (hne : l ≠ l') (ha : a ∈ (G.chain l').map (·.2)) {x : Cell ℤ ℕ} (hx : x ∈ G.chain l) :
    x.2 ≠ a := by
  obtain ⟨y, hy, rfl⟩ := List.mem_map.mp ha
  intro hxy
  exact hne (h.disjoint l hl l' hl' x hx y hy hxy)

theorem above_inner {l : ℕ} (hl : l + 1 < G.height) :
    G.above l = expand G.leftmost G.entries (G.chain (l + 1)) := by
  rw [above, if_pos hl]

theorem above_top {l : ℕ} (hl : ¬ l + 1 < G.height) : G.above l = [(⊥, G.root)] := by
  rw [above, if_neg hl]

theorem WellFormed.sorted_above (h : G.WellFormed) {l : ℕ} (hl : l < G.height) :
    Sorted (G.above l) := by
  have hs := h.sorted l hl
  rw [h.chain_eq l hl] at hs
  cases hp : G.pending l with
  | none =>
    rw [hp] at hs
    exact hs
  | some e =>
    rw [hp] at hs
    exact hs.sublist (insert_sublist _ e)

theorem WellFormed.sorted_expand (h : G.WellFormed) {l : ℕ} (hl : l + 1 < G.height) :
    Sorted (expand G.leftmost G.entries (G.chain (l + 1))) := by
  rw [← above_inner hl]
  exact h.sorted_above (by omega)

theorem WellFormed.leaf_range (h : G.WellFormed) {A B : List (Cell ℤ ℕ)} {lo : WithBot ℤ} {a : ℕ}
    (hc : G.chain 0 = A ++ (lo, a) :: B) :
    ∀ e ∈ G.entries a, lo ≤ ↑e.key ∧ ∀ y ∈ B, ↑e.key < y.1 := by
  intro e he
  have hb := h.leaf_below
  rw [hc] at hb
  refine ⟨h.leaf_above (lo, a) (by rw [hc]; simp) e he, ?_⟩
  intro y hy
  exact (List.pairwise_cons.mp (List.pairwise_append.mp hb).2.1).1 y hy e he

/-- The keys of a page lie between its bound and the next. -/
theorem WellFormed.range (h : G.WellFormed) {l : ℕ} (hl : l < G.height)
    {A B : List (Cell ℤ ℕ)} {lo : WithBot ℤ} {a : ℕ} (hc : G.chain l = A ++ (lo, a) :: B) :
    ∀ e ∈ G.entries a, lo ≤ ↑e.key ∧ ∀ y ∈ B, ↑e.key < y.1 := by
  cases l with
  | zero => exact h.leaf_range hc
  | succ l =>
    intro e he
    have hs := h.sorted_expand hl
    rw [hc, expand_append, expand_cons] at hs
    have h2 := List.pairwise_append.mp (List.pairwise_append.mp hs).2.1
    have hmem : cell e ∈ refs lo (G.leftmost a) (G.entries a) :=
      List.mem_cons_of_mem _ (List.mem_map_of_mem he)
    refine ⟨(refs_sorted.mp h2.1).1 e he |>.le, ?_⟩
    intro y hy
    refine h2.2.2 (cell e) hmem (y.1, G.leftmost y.2) ?_
    exact List.mem_flatMap.mpr ⟨y, hy, List.mem_cons_self⟩

theorem WellFormed.entries_increasing (h : G.WellFormed) {l : ℕ} (hl : l < G.height)
    {x : Cell ℤ ℕ} (hx : x ∈ G.chain l) : Increasing (G.entries x.2) := by
  cases l with
  | zero =>
    obtain ⟨A, B, hAB⟩ := List.append_of_mem hx
    have hi := h.increasing
    rw [contents, hAB, List.flatMap_append, List.flatMap_cons] at hi
    exact (List.pairwise_append.mp (List.pairwise_append.mp hi).2.1).1
  | succ l => exact (refs_sorted.mp (sorted_refs_of_expand (h.sorted_expand hl) hx)).2

/-- The root is where every search starts. -/
theorem WellFormed.near_root (h : G.WellFormed) (isOpen : ℕ → Prop) (k : ℤ) :
    Near isOpen (G.chain (G.height - 1)) k G.root := by
  have hpos := h.pos
  have hl : G.height - 1 < G.height := by omega
  have htop : G.above (G.height - 1) = [(⊥, G.root)] := above_top (by omega)
  have hins : ∀ e : Entry, Chain.insert e [((⊥ : WithBot ℤ), G.root)] = [(⊥, G.root), cell e] :=
    fun e => insert_split (X := [((⊥ : WithBot ℤ), G.root)]) (Y := []) (by simp) (by simp)
  rw [h.chain_eq _ hl, htop]
  cases hp : G.pending (G.height - 1) with
  | none => exact AtHome.near ⟨[], ⊥, [], rfl, bot_le, by simp⟩ isOpen
  | some e =>
    refine ⟨[], ⊥, [cell e], by rw [insertPending, hins]; rfl, bot_le, ?_⟩
    intro M x y B' hM
    have := congrArg List.length hM
    simp at this
    omega

end Outline

end PmemStudy.FastFair
