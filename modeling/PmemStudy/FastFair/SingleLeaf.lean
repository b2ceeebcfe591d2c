import PmemStudy.FastFair.Operations

/-!
# Trees of one leaf

As long as the root is a leaf with room, an operation on the tree is the
operation on its page.
-/

namespace PmemStudy.FastFair
open PmemStudy.Slots PmemStudy.Loop

namespace Btree

/-- The tree `new alloc` with another page. -/
def single (alloc : ℕ → ℕ) (p : Page) : Btree :=
  { new alloc with pages := Function.update (fun _ => none) (alloc 0) (some p) }

theorem single_new (alloc : ℕ → ℕ) : single alloc (Page.new 0) = new alloc := rfl

theorem single_page (alloc : ℕ → ℕ) (p : Page) : (single alloc p).pages (alloc 0) = some p := by
  show Function.update (fun _ => none) (alloc 0) (some p) (alloc 0) = some p
  exact Function.update_self ..

theorem page_single {alloc : ℕ → ℕ} {p q : Page} {a : ℕ} (h : (single alloc p).pages a = some q) :
    q = p := by
  by_cases ha : a = alloc 0
  · subst a
    rw [single_page] at h
    exact (Option.some.inj h).symm
  · have hnone : Function.update (fun _ => none) (alloc 0) (some p) a = some q := h
    rw [Function.update_of_ne ha] at hnone
    cases hnone

theorem run_single (alloc : ℕ → ℕ) (p : Page) (l : List PageStore) :
    (single alloc p).run (l.map (.page (alloc 0))) = single alloc (p.run l) := by
  have hset : ∀ q, (single alloc p).setPage (alloc 0) q = single alloc q := by
    intro q
    simp only [setPage, single, Function.update_idem]
  rw [← hset p, run_setPage, hset]

end Btree

namespace Page

/-- The page after `insert_key`. -/
def afterInsert (p : Page) (key : ℤ) (ptr : ℕ) : Page := p.run (p.insertKey key ptr p.count)

/-- The page after `remove_key`. -/
def afterRemove (p : Page) (key : ℤ) : Page := p.run (p.removeKey key).1

/-- A leaf without neighbours. -/
structure Alone (p : Page) : Prop where
  leaf : p.leftmostPtr = NULL
  live : p.isDeleted = false
  last : p.siblingPtr = NULL

end Page

section
variable {alloc : ℕ → ℕ} {p : Page}

theorem single_findLeaf (hp : p.Alone) (k : ℤ) (fuel : ℕ) :
    (Btree.single alloc p).findLeaf k (fuel + 1) (Btree.single alloc p).root = some (alloc 0) :=
  findLeaf_leaf k (Btree.single_page alloc p) hp.leaf

theorem single_linearSearch (hp : p.Alone) (k : ℤ) :
    (Btree.single alloc p).linearSearch (alloc 0) k = some (p.search k) := by
  by_cases hs : p.search k = NULL
  · rw [hs]
    exact linearSearch_stop (Btree.single_page alloc p) hp.leaf hs (Or.inl hp.last)
  · exact linearSearch_leaf (Btree.single_page alloc p) hp.leaf hs

theorem single_insert (hal : Allocator alloc) (hp : p.Alone) (hroom : p.count < cardinality - 1)
    (k : ℤ) (v : ℕ) : Yields (fun fuel => Btree.btreeInsert alloc fuel (Btree.single alloc p) k v)
      ((p.insertKey k v p.count).map (.page (alloc 0))) := by
  have hstore : ∀ fuel, Btree.store alloc (fuel + 1) (Btree.single alloc p) (alloc 0) k v =
      some ((p.insertKey k v p.count).map (.page (alloc 0)), alloc 0) := by
    intro fuel
    rw [Btree.store, Btree.single_page, Option.bind_eq_bind, Option.bind_some,
      if_neg (by rw [hp.live]; exact Bool.false_ne_true), hp.last, if_neg (not_not.mpr rfl),
      Option.bind_eq_bind, Option.bind_some]
    simp only [Bool.false_eq_true, if_false, if_pos hroom]
  refine ⟨2, ?_⟩
  intro fuel hf
  obtain ⟨n, rfl⟩ : ∃ n, fuel = n + 1 + 1 := ⟨fuel - 2, by omega⟩
  show Btree.btreeInsert alloc (n + 1 + 1) (Btree.single alloc p) k v = _
  rw [Btree.btreeInsert, single_findLeaf hp, Option.bind_eq_bind, Option.bind_some, hstore,
    Option.bind_eq_bind, Option.bind_some, if_neg (hal.ne_null 0)]

theorem single_delete (hal : Allocator alloc) (hp : p.Alone) (k : ℤ) (hs : p.search k ≠ NULL)
    (hr : (p.removeKey k).2 = true) :
    Yields (fun fuel => Btree.btreeDelete fuel (Btree.single alloc p) k)
      ((p.removeKey k).1.map (.page (alloc 0))) := by
  have hfollow : ∀ fuel, (Btree.single alloc p).followSiblings k (fuel + 1) (alloc 0) =
      some (alloc 0, p.search k) := fun fuel =>
    follow_found (Btree.single_page alloc p) (single_linearSearch hp k) (by rw [hp.last]; exact hs)
  refine delete_rounds ⟨1, ?_⟩ hfollow ?_
  · intro fuel hf
    obtain ⟨n, rfl⟩ : ∃ n, fuel = n + 1 := ⟨fuel - 1, by omega⟩
    exact single_findLeaf hp k n
  · intro fuel
    rw [if_pos (hal.ne_null 0), Btree.single_page, Option.bind_some, if_pos hr]

theorem single_search (hp : p.Alone) (k : ℤ) :
    Yields (fun fuel => Btree.btreeSearch fuel (Btree.single alloc p) k) (p.search k) := by
  refine ⟨1, ?_⟩
  intro fuel hf
  obtain ⟨n, rfl⟩ : ∃ n, fuel = n + 1 := ⟨fuel - 1, by omega⟩
  show Btree.btreeSearch (n + 1) (Btree.single alloc p) k = _
  rw [Btree.btreeSearch, single_findLeaf hp, Option.bind_eq_bind, Option.bind_some]
  by_cases hs : p.search k = NULL
  · have hstop : (Btree.single alloc p).linearSearch (alloc 0) k = some (p.search k) :=
      single_linearSearch hp k
    rw [hs] at hstop ⊢
    rw [follow_end (Btree.single_page alloc p) hstop hp.last, Option.bind_eq_bind, Option.bind_some]
  · rw [follow_found (Btree.single_page alloc p) (single_linearSearch hp k)
      (by rw [hp.last]; exact hs), Option.bind_eq_bind, Option.bind_some]

/-! ### Insertions in the order of a list -/

/-- Insertions in the order of a list. -/
def insertAll (alloc : ℕ → ℕ) (fuel : ℕ) : Btree → List (ℤ × ℕ) → Option Btree
  | t, [] => some t
  | t, (k, v) :: l => do
    let stores ← Btree.btreeInsert alloc fuel t k v
    insertAll alloc fuel (t.run stores) l

/-- The page after these insertions. -/
def Page.insertAll (p : Page) (l : List (ℤ × ℕ)) : Page :=
  l.foldl (fun p x => p.afterInsert x.1 x.2) p

/-- Every insertion finds a leaf with room. -/
def Page.TakesAll : Page → List (ℤ × ℕ) → Prop
  | _, [] => True
  | p, x :: l => (p.leftmostPtr = NULL ∧ p.isDeleted = false ∧ p.siblingPtr = NULL) ∧
      p.count < cardinality - 1 ∧ (p.afterInsert x.1 x.2).TakesAll l

instance Page.decidableTakesAll : ∀ (p : Page) (l : List (ℤ × ℕ)), Decidable (p.TakesAll l)
  | _, [] => instDecidableTrue
  | p, x :: l =>
    have := decidableTakesAll (p.afterInsert x.1 x.2) l
    inferInstanceAs (Decidable (_ ∧ _))

theorem single_insertAll (hal : Allocator alloc) (l : List (ℤ × ℕ)) (hp : p.TakesAll l) :
    Yields (fun fuel => insertAll alloc fuel (Btree.single alloc p) l)
      (Btree.single alloc (p.insertAll l)) := by
  induction l generalizing p with
  | nil => exact .const fun _ => rfl
  | cons x l ih =>
    obtain ⟨k, v⟩ := x
    obtain ⟨⟨hleaf, hlive, hlast⟩, hroom, hl⟩ := hp
    refine (single_insert hal ⟨hleaf, hlive, hlast⟩ hroom k v).bind
      (g := fun fuel stores => insertAll alloc fuel ((Btree.single alloc p).run stores) l) ?_
    rw [Btree.run_single]
    exact ih hl

/-- The pairs `(s, 2 s + 1)`, .. for `n` keys in a row. -/
def pairsFrom (s n : ℕ) : List (ℤ × ℕ) := (List.range' s n).map fun i : ℕ => (↑i, 2 * i + 1)

end

end PmemStudy.FastFair
