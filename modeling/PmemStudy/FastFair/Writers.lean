import PmemStudy.FastFair.Sections

/-!
# One insertion, step by step

`btree_insert` as a thread runs it beside others: a step reads the root, or searches one
page, or is one locked section of `store`. After a split the same call goes on with
`btree_insert_internal`, one level higher; nothing is left to do below when that returns.
-/

namespace PmemStudy.FastFair

/-- What `btree_insert` (no level) or `btree_insert_internal` was called with. -/
structure Job where
  key : ℤ
  right : ℕ
  level : Option ℕ

/-- Where the call is: at its first line, at `p = root`, in the loop with `p`, or in
`p->store`. -/
inductive Point
  | start
  | root
  | down (p : ℕ)
  | store (p : ℕ)
  | returned
  deriving DecidableEq

structure Insertion where
  job : Job
  point : Point

/-- The condition of the loop: not a leaf yet, or not the level yet. -/
def Job.descends (j : Job) (p : Page) : Bool :=
  match j.level with
  | none => decide (p.leftmostPtr ≠ NULL)
  | some level => decide (level < p.level)

namespace Insertion

/-- A call of `btree_insert(key, right)`. -/
def call (key : ℤ) (right : ℕ) : Insertion := ⟨⟨key, right, none⟩, .start⟩

/-- After a section: again from the start, at the right neighbour, done, or upwards. -/
def after (j : Job) : Btree.Outcome → Insertion
  | .deleted => ⟨j, .start⟩
  | .sibling a => ⟨j, .store a⟩
  | .stored _ => ⟨j, .returned⟩
  | .parent splitKey sibling level _ => ⟨⟨splitKey, sibling, some level⟩, .start⟩

/-- The next step: the tree, the values of `max_cl` at buffered writes, and the call. -/
def next (b : Build) (alloc : ℕ → ℕ) (t : Btree) (i : Insertion) :
    Option (Btree × List ℕ × Insertion) :=
  match i.point with
  | .start =>
    match i.job.level with
    | none => some (t, [], ⟨i.job, .down t.root⟩)
    | some level => do
      let r ← t.pages t.root
      if r.level < level then some (t, [], ⟨i.job, .returned⟩) else some (t, [], ⟨i.job, .root⟩)
  | .root => some (t, [], ⟨i.job, .down t.root⟩)
  | .down a => do
    let p ← t.pages a
    if i.job.descends p then
      let c ← t.linearSearch a i.job.key
      some (t, [], ⟨i.job, .down c⟩)
    else some (t, [], ⟨i.job, .store a⟩)
  | .store a => do
    let s ← t.storeSection b alloc a i.job.key i.job.right
    some (t.run s.stores, s.staging, after i.job s.outcome)
  | .returned => none

variable {b : Build} {alloc : ℕ → ℕ} {t : Btree} {i : Insertion} {t' : Btree} {staged : List ℕ}
  {i' : Insertion}

/-- A step is a section, or it leaves the tree alone. -/
theorem next_cases (h : i.next b alloc t = some (t', staged, i')) :
    (∃ a s, i.point = .store a ∧ t.storeSection b alloc a i.job.key i.job.right = some s ∧
      t' = t.run s.stores ∧ staged = s.staging ∧ i' = after i.job s.outcome) ∨
    (t' = t ∧ staged = [] ∧ i'.job = i.job ∧ ∀ a, i.point ≠ .store a) := by
  unfold next at h
  cases hp : i.point with
  | start =>
    rw [hp] at h
    refine Or.inr ?_
    dsimp only at h
    split at h
    · obtain ⟨rfl, rfl, rfl⟩ : t = t' ∧ [] = staged ∧ _ = i' := by simpa using h
      exact ⟨rfl, rfl, rfl, fun a ha => by cases ha⟩
    · obtain ⟨r, _, h⟩ := Option.bind_eq_some_iff.mp h
      split at h <;>
      · obtain ⟨rfl, rfl, rfl⟩ : t = t' ∧ [] = staged ∧ _ = i' := by simpa using h
        exact ⟨rfl, rfl, rfl, fun a ha => by cases ha⟩
  | root =>
    rw [hp] at h
    obtain ⟨rfl, rfl, rfl⟩ : t = t' ∧ [] = staged ∧ _ = i' := by simpa using h
    exact Or.inr ⟨rfl, rfl, rfl, fun a ha => by cases ha⟩
  | down a =>
    rw [hp] at h
    refine Or.inr ?_
    obtain ⟨p, _, h⟩ := Option.bind_eq_some_iff.mp h
    split at h
    · obtain ⟨c, _, h⟩ := Option.bind_eq_some_iff.mp h
      obtain ⟨rfl, rfl, rfl⟩ : t = t' ∧ [] = staged ∧ _ = i' := by simpa using h
      exact ⟨rfl, rfl, rfl, fun a ha => by cases ha⟩
    · obtain ⟨rfl, rfl, rfl⟩ : t = t' ∧ [] = staged ∧ _ = i' := by simpa using h
      exact ⟨rfl, rfl, rfl, fun a ha => by cases ha⟩
  | store a =>
    rw [hp] at h
    obtain ⟨s, hs, h⟩ := Option.bind_eq_some_iff.mp h
    obtain ⟨rfl, rfl, rfl⟩ : t.run s.stores = t' ∧ s.staging = staged ∧ _ = i' := by simpa using h
    exact Or.inl ⟨a, s, rfl, hs, rfl, rfl, rfl⟩
  | returned =>
    rw [hp] at h
    cases h

end Insertion

/-! ### Pages stay in order -/

/-- Every page has its records in order, and was handed out by the allocator. -/
structure Ordered (alloc : ℕ → ℕ) (t : Btree) : Prop where
  page : ∀ a p, t.pages a = some p → ∃ es, Filled p es ∧ Ascending es
  allotted : ∀ a p, t.pages a = some p → ∃ i < t.allocated, a = alloc i

section
variable {b : Build} {alloc : ℕ → ℕ} {t : Btree} {a : ℕ} {p : Page} {es : List Entry} {e : Entry}

theorem Ordered.new (alloc : ℕ → ℕ) : Ordered alloc (Btree.new alloc) := by
  have hpage : ∀ a p, (Btree.new alloc).pages a = some p → a = alloc 0 ∧ p = Page.new 0 := by
    intro a p hp
    change Function.update (fun _ => none) (alloc 0) (some (Page.new 0)) a = some p at hp
    by_cases ha : a = alloc 0
    · subst a
      rw [Function.update_self] at hp
      exact ⟨rfl, (Option.some.inj hp).symm⟩
    · rw [Function.update_of_ne ha] at hp
      cases hp
  constructor
  · intro a p hp
    obtain ⟨_, rfl⟩ := hpage a p hp
    exact ⟨[], Page.new_filled 0, List.Pairwise.nil⟩
  · intro a p hp
    exact ⟨0, Nat.one_pos, (hpage a p hp).1⟩

theorem Ordered.fresh (h : Ordered alloc t) (hal : Allocator alloc) (hp : t.pages a = some p)
    {n : ℕ} (hn : t.allocated ≤ n) : a ≠ alloc n := by
  obtain ⟨i, hi, rfl⟩ := h.allotted a p hp
  intro he
  have := hal.injective he
  omega

theorem Halved.ascending {sib : ℕ} {left right : List Entry} {y x : Page}
    (h : Halved p es e sib left right y x) (ha : Ascending es) : Ascending left ∧ Ascending right := by
  have htake : Ascending (es.take 14) := ha.sublist (List.take_sublist _ _)
  have hdrop : Ascending (es.drop (cutAt p)) := ha.sublist (List.drop_sublist _ _)
  rcases h.halves with ⟨_, rfl, c, hc, rfl⟩ | ⟨_, rfl, c, hc, rfl⟩
  · exact ⟨htake.insert hc, hdrop⟩
  · exact ⟨htake, hdrop.insert hc⟩

/-- A section keeps the records of all pages in order. -/
theorem Ordered.section (h : Ordered alloc t) (hal : Allocator alloc) {key : ℤ} {right : ℕ}
    {s : Btree.Section} (hs : t.storeSection b alloc a key right = some s) :
    Ordered alloc (t.run s.stores) ∧ ∀ m ∈ s.staging, m < wrBufClSize := by
  obtain ⟨p, hp⟩ : ∃ p, t.pages a = some p := by
    unfold Btree.storeSection at hs
    obtain ⟨p, hp, _⟩ := Option.bind_eq_some_iff.mp hs
    exact ⟨p, hp⟩
  obtain ⟨es, hfilled, hasc⟩ := h.page a p hp
  have hfresh := h.fresh hal hp (le_refl _)
  obtain ⟨hcase, hstaged⟩ := storeSection_cases (e := ⟨key, right⟩) b hp hfilled hasc hfresh hs
  refine ⟨?_, hstaged⟩
  have hsplit : ∀ left right' y x, Halved p es ⟨key, right⟩ (alloc t.allocated) left right' y x →
      Ordered alloc (t.splitInto a (alloc t.allocated) y x) := by
    intro left right' y x hh
    obtain ⟨hleft, hright⟩ := hh.ascending hasc
    constructor
    · intro c q hq
      by_cases hca : c = a
      · subst c
        rw [Btree.splitInto_old] at hq
        obtain rfl := Option.some.inj hq
        exact ⟨_, hh.filled, hleft⟩
      · by_cases hcb : c = alloc t.allocated
        · subst c
          rw [Btree.splitInto_new t y x hfresh] at hq
          obtain rfl := Option.some.inj hq
          exact ⟨_, hh.new.filled, hright⟩
        · rw [Btree.splitInto_other t y x hca hcb] at hq
          exact h.page c q hq
    · intro c q hq
      by_cases hca : c = a
      · subst c
        obtain ⟨i, hi, hai⟩ := h.allotted _ p hp
        exact ⟨i, Nat.lt_succ_of_lt hi, hai⟩
      · by_cases hcb : c = alloc t.allocated
        · exact ⟨t.allocated, Nat.lt_succ_self _, hcb⟩
        · rw [Btree.splitInto_other t y x hca hcb] at hq
          obtain ⟨i, hi, hci⟩ := h.allotted c q hq
          exact ⟨i, Nat.lt_succ_of_lt hi, hci⟩
  cases hcase with
  | deleted _ hs =>
    rw [hs]
    exact h
  | moveOn _ _ _ _ hs =>
    rw [hs]
    exact h
  | room x c _ hspot hx _ hrun _ =>
    rw [hrun]
    constructor
    · intro d q hq
      by_cases hda : d = a
      · subst d
        rw [Btree.setPage_at] at hq
        obtain rfl := Option.some.inj hq
        exact ⟨_, hx, hasc.insert hspot⟩
      · rw [Btree.setPage_other t x hda] at hq
        exact h.page d q hq
    · intro d q hq
      by_cases hda : d = a
      · subst d
        exact h.allotted _ p hp
      · rw [Btree.setPage_other t x hda] at hq
        exact h.allotted d q hq
  | split left right' y x _ hh _ hrun _ =>
    rw [hrun]
    exact hsplit left right' y x hh
  | grow left right' y x _ hh _ hrun _ =>
    rw [hrun]
    have h2 := hsplit left right' y x hh
    constructor
    · intro d q hq
      by_cases hd : d = alloc (t.allocated + 1)
      · subst d
        rw [Btree.growTo_new] at hq
        obtain rfl := Option.some.inj hq
        exact ⟨_, Page.newRoot_filled _ _ _ _, List.pairwise_singleton _ _⟩
      · rw [Btree.growTo_other _ _ hd] at hq
        exact h2.page d q hq
    · intro d q hq
      by_cases hd : d = alloc (t.allocated + 1)
      · exact ⟨t.allocated + 1, Nat.lt_succ_self _, hd⟩
      · rw [Btree.growTo_other _ _ hd] at hq
        obtain ⟨i, hi, hdi⟩ := h2.allotted d q hq
        exact ⟨i, Nat.lt_succ_of_lt hi, hdi⟩

theorem Ordered.next (h : Ordered alloc t) (hal : Allocator alloc) {i i' : Insertion} {t' : Btree}
    {staged : List ℕ} (hn : i.next b alloc t = some (t', staged, i')) :
    Ordered alloc t' ∧ ∀ m ∈ staged, m < wrBufClSize := by
  rcases Insertion.next_cases hn with ⟨a, s, _, hs, rfl, rfl, _⟩ | ⟨rfl, rfl, _⟩
  · exact h.section hal hs
  · exact ⟨h, fun m hm => absurd hm List.not_mem_nil⟩

end

end PmemStudy.FastFair
