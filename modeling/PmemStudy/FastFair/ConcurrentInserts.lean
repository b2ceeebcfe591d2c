import PmemStudy.Lib.Threads
import PmemStudy.FastFair.Walks
import PmemStudy.FastFair.Writers

/-!
# Many threads insert

Each thread has entries to insert, one call of `btree_insert` after the other. Whatever the
order of the steps, an entry that has gone into a leaf is found from then on; the separators
that are still on their way make the search longer, not wrong.
-/

namespace PmemStudy.FastFair
open PmemStudy.Slots PmemStudy.Chain PmemStudy.Loop PmemStudy.Threads

section
variable {alloc : ℕ → ℕ} {t t' : Btree} {G G' : Outline} {b : Build} {i i' : Insertion}
  {staged : List ℕ}

/-! ### One call -/

/-- The level that the call stores its entry in. -/
def Job.target (j : Job) : ℕ := j.level.getD 0

def Job.entry (j : Job) : Entry := ⟨j.key, j.right⟩

/-- Where the call may be: on its way down it has not passed its level, and its page is not
to the right of the key. -/
def Outline.Found (G : Outline) (j : Job) : Point → Prop
  | .down a => ∃ l, j.target ≤ l ∧ l < G.height ∧ Landing (G.chain l) j.key a
  | .store a => Landing (G.chain j.target) j.key a
  | _ => True

structure Underway (G : Outline) (i : Insertion) : Prop where
  key : i.job.key ≤ longMax
  level : i.job.target < G.height
  missing : ∀ l, i.job.level = some l → ∃ m, l = m + 1 ∧ G.Missing m i.job.entry
  found : G.Found i.job i.point

/-- Other threads may change the tree in the meantime. -/
theorem Underway.mono (h : Underway G i) (hheight : G.height ≤ G'.height)
    (hsub : ∀ l < G.height, G.chain l ⊆ G'.chain l)
    (hmissing : i.job.level ≠ none → ∀ m, G.Missing m i.job.entry → G'.Missing m i.job.entry) :
    Underway G' i := by
  refine ⟨h.key, h.level.trans_le hheight, ?_, ?_⟩
  · intro l hl
    obtain ⟨m, hm, hmiss⟩ := h.missing l hl
    exact ⟨m, hm, hmissing (by rw [hl]; exact Option.some_ne_none l) m hmiss⟩
  · have hfound := h.found
    cases hp : i.point with
    | start => trivial
    | root => trivial
    | returned => trivial
    | down a =>
      rw [hp] at hfound
      obtain ⟨l, hle, hl, hland⟩ := hfound
      exact ⟨l, hle, hl.trans_le hheight, hland.mono (hsub l hl)⟩
    | store a =>
      rw [hp] at hfound
      exact Landing.mono hfound (hsub _ h.level)

theorem Linked.level_of (h : Linked alloc t G) {l a : ℕ} (hl : l < G.height) {k : ℤ}
    (ha : Landing (G.chain l) k a) {p : Page} (hp : t.pages a = some p) :
    p.level = l ∧ (p.leftmostPtr = NULL ↔ l = 0) := by
  obtain ⟨A, lo, B, hc, _⟩ := ha.split
  obtain ⟨p', hp', hlev⟩ := h.page_level hl hc
  rw [hp] at hp'
  obtain rfl := Option.some.inj hp'
  exact hlev

/-- The search of one page: to the right, or down to a level that is not too low. -/
theorem Linked.search_step (h : Linked alloc t G) (hal : Allocator alloc) {l a : ℕ} {k : ℤ}
    (hl : l + 1 < G.height) (ha : Landing (G.chain (l + 1)) k a) :
    ∃ r, t.linearSearch a k = some r ∧
      (Landing (G.chain (l + 1)) k r ∨ Landing (G.chain l) k r) := by
  obtain ⟨A, lo, B, hc, hlo⟩ := ha.split
  obtain ⟨r, hr, ⟨z, B', rfl, hz, rfl⟩ | hdown⟩ := h.node_step hal hl hc hlo
  · exact ⟨z.2, hr, Or.inl ⟨z, by rw [hc]; simp, rfl, hz⟩⟩
  · exact ⟨r, hr, Or.inr hdown⟩

/-- A step that is not a section keeps the call on its way. -/
theorem Underway.walk (h : Linked alloc t G) (hal : Allocator alloc) (hu : Underway G i)
    (hn : i.next b alloc t = some (t', staged, i')) (hp : ∀ a, i.point ≠ .store a) :
    Underway G i' ∧ i'.point ≠ .returned := by
  have hpos := h.woven.pos
  have hroot : ∃ l, i.job.target ≤ l ∧ l < G.height ∧ Landing (G.chain l) i.job.key t.root :=
    ⟨G.height - 1, by have := hu.level; omega, by omega, h.root_landing _⟩
  have hjob : ∀ {pt}, G.Found i.job pt → Underway G ⟨i.job, pt⟩ := fun hf =>
    ⟨hu.key, hu.level, hu.missing, hf⟩
  unfold Insertion.next at hn
  cases hpoint : i.point with
  | start =>
    rw [hpoint] at hn
    dsimp only at hn
    split at hn
    · obtain ⟨rfl, rfl, rfl⟩ : t = t' ∧ [] = staged ∧ _ = i' := by simpa using hn
      exact ⟨hjob hroot, fun hr => by cases hr⟩
    · next level hlevel =>
      obtain ⟨r, hr, hn⟩ := Option.bind_eq_some_iff.mp hn
      obtain ⟨hrl, _⟩ := h.level_of (l := G.height - 1) (by omega) (h.root_landing i.job.key) hr
      have htarget : i.job.target = level := by
        unfold Job.target
        rw [hlevel]
        rfl
      have hlt := hu.level
      rw [if_neg (by omega)] at hn
      obtain ⟨rfl, rfl, rfl⟩ : t = t' ∧ [] = staged ∧ _ = i' := by simpa using hn
      exact ⟨hjob trivial, fun hr => by cases hr⟩
  | root =>
    rw [hpoint] at hn
    obtain ⟨rfl, rfl, rfl⟩ : t = t' ∧ [] = staged ∧ _ = i' := by simpa using hn
    exact ⟨hjob hroot, fun hr => by cases hr⟩
  | down a =>
    have hfound := hu.found
    rw [hpoint] at hn hfound
    obtain ⟨l, hle, hl, hland⟩ := hfound
    obtain ⟨p, hp, hn⟩ := Option.bind_eq_some_iff.mp hn
    obtain ⟨hlev, hleaf⟩ := h.level_of hl hland hp
    have hdesc : i.job.descends p = true ↔ i.job.target < l := by
      unfold Job.descends Job.target
      cases i.job.level with
      | none =>
        rw [decide_eq_true_iff, Ne, hleaf]
        exact Nat.pos_iff_ne_zero.symm
      | some level => rw [decide_eq_true_iff, hlev, Option.getD_some]
    split at hn
    · next hd =>
      have hlt := hdesc.mp hd
      obtain ⟨r, hr, hn⟩ := Option.bind_eq_some_iff.mp hn
      obtain ⟨rfl, rfl, rfl⟩ : t = t' ∧ [] = staged ∧ _ = i' := by simpa using hn
      refine ⟨hjob ?_, fun hr => by cases hr⟩
      obtain ⟨m, rfl⟩ : ∃ m, l = m + 1 := ⟨l - 1, by omega⟩
      obtain ⟨r', hr', hland'⟩ := h.search_step hal hl hland
      rw [hr] at hr'
      obtain rfl := Option.some.inj hr'
      rcases hland' with hland' | hland'
      · exact ⟨m + 1, hle, hl, hland'⟩
      · exact ⟨m, by omega, by omega, hland'⟩
    · next hd =>
      have hge : ¬ i.job.target < l := fun hlt => hd (hdesc.mpr hlt)
      obtain ⟨rfl, rfl, rfl⟩ : t = t' ∧ [] = staged ∧ _ = i' := by simpa using hn
      obtain rfl : i.job.target = l := by omega
      exact ⟨hjob hland, fun hr => by cases hr⟩
  | store a => exact absurd hpoint (hp a)
  | returned =>
    rw [hpoint] at hn
    cases hn

theorem Underway.arrival (hu : Underway G i) {a : ℕ} (hp : i.point = .store a)
    (hleaf : i.job.level = none → Increasing (G.entries a) ∧
      (AtHome (G.chain 0) i.job.key a ∨ ∀ d ∈ G.contents, d.key ≠ i.job.key)) :
    Arrival G i.job.target a i.job.entry := by
  have hfound := hu.found
  rw [hp] at hfound
  refine ⟨hu.level, hfound, hu.key, ?_, ?_⟩
  · intro h0
    refine hleaf ?_
    cases hl : i.job.level with
    | none => rfl
    | some l =>
      obtain ⟨m, rfl, _⟩ := hu.missing l hl
      unfold Job.target at h0
      rw [hl] at h0
      cases h0
  · intro l' hl'
    unfold Job.target at hl'
    cases hl : i.job.level with
    | none =>
      rw [hl] at hl'
      cases hl'
    | some l =>
      obtain ⟨m, rfl, hmiss⟩ := hu.missing l hl
      rw [hl] at hl'
      obtain rfl : l' = m := Nat.succ.inj hl'
      exact hmiss

/-- A section moves the call to the right, or stores its entry; then the call has returned,
or goes on one level higher with the separator of the split. -/
theorem Underway.section (h : Linked alloc t G) (hal : Allocator alloc) (hu : Underway G i)
    {a : ℕ} (hp : i.point = .store a)
    (hleaf : i.job.level = none → Increasing (G.entries a) ∧
      (AtHome (G.chain 0) i.job.key a ∨ ∀ d ∈ G.contents, d.key ≠ i.job.key))
    {s : Btree.Section} (hs : t.storeSection b alloc a i.job.key i.job.right = some s) :
    (s.stores = [] ∧ (∃ r, Insertion.after i.job s.outcome = ⟨i.job, .store r⟩) ∧
      Underway G (Insertion.after i.job s.outcome)) ∨
    ∃ G', StoredAs alloc t G i.job.target a i.job.entry s.outcome G' ∧
      Linked alloc (t.run s.stores) G' ∧
      ((Insertion.after i.job s.outcome).point = .returned ∨
        (Insertion.after i.job s.outcome).point = .start ∧
        (Insertion.after i.job s.outcome).job.level ≠ none ∧
        (Insertion.after i.job s.outcome).job.right = alloc t.allocated ∧
        Underway G' (Insertion.after i.job s.outcome)) := by
  have ha := hu.arrival hp hleaf
  rcases h.section hal ha hs with ⟨A, lo, z, B, hc, hz, rfl⟩ | ⟨G', hstored, hlinked⟩
  · have hmem : z ∈ G.chain i.job.target := by
      rw [hc]
      simp
    exact Or.inl ⟨rfl, ⟨z.2, rfl⟩, hu.key, hu.level, hu.missing, ⟨z, hmem, rfl, hz⟩⟩
  · refine Or.inr ⟨G', hstored, hlinked, ?_⟩
    cases ho : s.outcome with
    | deleted =>
      rw [ho] at hstored
      cases hstored
    | sibling r =>
      rw [ho] at hstored
      cases hstored
    | stored ret => exact Or.inl rfl
    | parent k r u ret =>
      rw [ho] at hstored
      obtain ⟨rfl, rfl, hk, hlevel, hmiss⟩ := hstored.parent h
      refine Or.inr ⟨rfl, Option.some_ne_none _, rfl, hk, hlevel, ?_, trivial⟩
      intro l hl
      obtain rfl := Option.some.inj hl
      exact ⟨_, rfl, hmiss⟩

end

/-! ### Many calls -/

/-- A thread: the call under way, and the entries that it has not called `btree_insert` with
yet. -/
structure Writer where
  now : Option Insertion
  rest : List Entry

namespace Writer

def begin (entries : List Entry) : Writer := ⟨none, entries⟩

/-- The next call begins, or the call under way takes a step; with that it may return. -/
def next (b : Build) (alloc : ℕ → ℕ) (t : Btree) (w : Writer) : Option (Btree × Writer) :=
  match w.now with
  | none =>
    match w.rest with
    | [] => none
    | e :: es => some (t, ⟨some (.call e.key e.ptr), es⟩)
  | some i => (i.next b alloc t).map fun r =>
    (r.1, ⟨if r.2.2.point = .returned then none else some r.2.2, w.rest⟩)

/-- The entries that are in no leaf yet. -/
def unsaved (w : Writer) : List Entry :=
  match w.now with
  | none => w.rest
  | some i => if i.job.level = none then i.job.entry :: w.rest else w.rest

end Writer

/-- What the threads are to insert. -/
structure Work {ι : Type*} (alloc : ℕ → ℕ) (work : ι → List Entry) : Prop where
  key : ∀ i, ∀ e ∈ work i, IsKey e.key
  nodup : ∀ i, ((work i).map (·.key)).Nodup
  apart : ∀ i j, i ≠ j → ∀ e ∈ work i, ∀ d ∈ work j, e.key ≠ d.key
  ne_null : ∀ i, ∀ e ∈ work i, e.ptr ≠ NULL
  page : ∀ i, ∀ e ∈ work i, ∀ n, e.ptr ≠ alloc n
  distinct : ∀ i j, ∀ e ∈ work i, ∀ d ∈ work j, e.ptr = d.ptr → e.key = d.key

/-- Between two steps: what is stored is what has been saved, and the separators that are on
their way lead to different pages. -/
structure Working {ι : Type*} (alloc : ℕ → ℕ) (work : ι → List Entry) (t : Btree)
    (f : ι → Writer) (G : Outline) : Prop where
  linked : Linked alloc t G
  underway : ∀ i ins, (f i).now = some ins → Underway G ins
  separators : ∀ i j, i ≠ j → ∀ x y, (f i).now = some x → (f j).now = some y →
    x.job.level ≠ none → y.job.level ≠ none → x.job.right ≠ y.job.right
  unsaved : ∀ i, (f i).unsaved.Sublist (work i)
  stored : ∀ e, e ∈ G.contents ↔ ∃ i, e ∈ work i ∧ e ∉ (f i).unsaved
  nodup : (G.contents.map (·.key)).Nodup

section
variable {ι : Type*} {alloc : ℕ → ℕ} {work : ι → List Entry} {t : Btree} {G : Outline}
  {f : ι → Writer}

theorem Working.new (alloc : ℕ → ℕ) (work : ι → List Entry) :
    Working alloc work (Btree.new alloc) (fun i => .begin (work i)) (Outline.new alloc) := by
  refine ⟨.new alloc, fun i ins h => (Option.some_ne_none ins h.symm).elim,
    fun i j _ x y h => (Option.some_ne_none x h.symm).elim, fun i => List.Sublist.refl _, ?_,
    List.nodup_nil⟩
  intro e
  refine ⟨fun he => absurd he List.not_mem_nil, ?_⟩
  rintro ⟨i, he, hn⟩
  exact absurd he hn

/-- An entry that a thread has not saved yet has a new key. -/
theorem Working.new_key (h : Working alloc work t f G) (hw : Work alloc work) {i : ι} {e : Entry}
    (he : e ∈ (f i).unsaved) : ∀ d ∈ G.contents, d.key ≠ e.key := by
  intro d hd hk
  obtain ⟨j, hdj, hnot⟩ := (h.stored d).mp hd
  have hei := (h.unsaved i).mem he
  by_cases hij : i = j
  · subst j
    have hde : d = e := List.inj_on_of_nodup_map (hw.nodup i) hdj hei hk
    exact hnot (hde ▸ he)
  · exact hw.apart i j hij e hei d hdj hk.symm

/-- A thread takes a step that leaves the tree, and what it has saved, alone. -/
theorem Working.local_step [DecidableEq ι] (h : Working alloc work t f G) {i : ι} {w : Writer}
    (hunsaved : w.unsaved = (f i).unsaved)
    (hnow : ∀ ins, w.now = some ins → Underway G ins ∧ (ins.job.level ≠ none →
      ∃ old, (f i).now = some old ∧ old.job = ins.job)) :
    Working alloc work t (Function.update f i w) G := by
  have hsame : ∀ j, (Function.update f i w j).unsaved = (f j).unsaved := by
    intro j
    by_cases hji : j = i
    · subst j
      rw [Function.update_self, hunsaved]
    · rw [Function.update_of_ne hji]
  have hold : ∀ j ins, (Function.update f i w j).now = some ins → Underway G ins ∧
      (ins.job.level ≠ none → ∃ old, (f j).now = some old ∧ old.job = ins.job) := by
    intro j ins hj
    by_cases hji : j = i
    · subst j
      rw [Function.update_self] at hj
      exact hnow ins hj
    · rw [Function.update_of_ne hji] at hj
      exact ⟨h.underway j ins hj, fun _ => ⟨ins, hj, rfl⟩⟩
  refine ⟨h.linked, fun j ins hj => (hold j ins hj).1, ?_, ?_, ?_, h.nodup⟩
  · intro j k hjk x y hx hy hxl hyl
    obtain ⟨x', hx', hxj⟩ := (hold j x hx).2 hxl
    obtain ⟨y', hy', hyj⟩ := (hold k y hy).2 hyl
    rw [← hxj] at hxl ⊢
    rw [← hyj] at hyl ⊢
    exact h.separators j k hjk x' y' hx' hy' hxl hyl
  · intro j
    rw [hsame j]
    exact h.unsaved j
  · intro e
    simp only [hsame]
    exact h.stored e

/-- The separator of a call leads to a page that was allotted before. -/
theorem Underway.allotted (h : Linked alloc t G) (hal : Allocator alloc) {ins : Insertion}
    (hu : Underway G ins) (hl : ins.job.level ≠ none) : ins.job.right ≠ alloc t.allocated := by
  obtain ⟨l, hl⟩ := Option.ne_none_iff_exists'.mp hl
  obtain ⟨m, _, hmiss⟩ := hu.missing l hl
  exact h.follows.unused hal (le_refl _) m (Nat.lt_of_succ_lt hmiss.level) _ hmiss.page

/-- A thread stores the entry of its call; `w` is the thread after that. -/
theorem Working.stored_step [DecidableEq ι] (h : Working alloc work t f G) (hal : Allocator alloc)
    (hw : Work alloc work) {i : ι} {ins : Insertion} {w : Writer} {a : ℕ} {o : Btree.Outcome}
    {t' : Btree} {G' : Outline} (hins : (f i).now = some ins)
    (hs : StoredAs alloc t G ins.job.target a ins.job.entry o G') (hlinked : Linked alloc t' G')
    (hrest : w.unsaved = (f i).rest)
    (hnow : ∀ ins', w.now = some ins' → Underway G' ins' ∧ ins'.job.level ≠ none ∧
      ins'.job.right = alloc t.allocated) :
    Working alloc work t' (Function.update f i w) G' := by
  have hother : ∀ j, j ≠ i → ∀ y, (f j).now = some y → y.job.level ≠ none →
      y.job.right ≠ ins.job.right ∨ ins.job.level = none := by
    intro j hji y hy hyl
    by_cases hl : ins.job.level = none
    · exact Or.inr hl
    · exact Or.inl (h.separators j i hji y ins hy hins hyl hl)
  have htarget : ins.job.target = 0 ↔ ins.job.level = none := by
    unfold Job.target
    cases hl : ins.job.level with
    | none => simp
    | some l =>
      obtain ⟨m, rfl, _⟩ := (h.underway i ins hins).missing l hl
      simp
  have hcontents := hs.contents h.linked.woven
  have hunsaved : (f i).unsaved = if ins.job.level = none then ins.job.entry :: (f i).rest
      else (f i).rest := by
    unfold Writer.unsaved
    rw [hins]
  refine ⟨hlinked, ?_, ?_, ?_, ?_, ?_⟩
  · intro j y hy
    by_cases hji : j = i
    · subst j
      rw [Function.update_self] at hy
      exact (hnow y hy).1
    · rw [Function.update_of_ne hji] at hy
      refine (h.underway j y hy).mono hs.height_le (fun l hl => hs.subset hl) ?_
      intro hyl m hm
      refine hs.missing h.linked.woven hm ?_
      intro hlev
      rcases hother j hji y hy hyl with hne | hnone
      · exact hne
      · rw [htarget.mpr hnone] at hlev
        cases hlev
  · intro j k hjk x y hx hy hxl hyl
    have hfresh : ∀ j' z, (f j').now = some z → z.job.level ≠ none →
        z.job.right ≠ alloc t.allocated := fun j' z hz hzl =>
      (h.underway j' z hz).allotted h.linked hal hzl
    by_cases hji : j = i
    · subst j
      rw [Function.update_self] at hx
      rw [Function.update_of_ne (Ne.symm hjk)] at hy
      rw [(hnow x hx).2.2]
      exact (hfresh k y hy hyl).symm
    · rw [Function.update_of_ne hji] at hx
      by_cases hki : k = i
      · subst k
        rw [Function.update_self] at hy
        rw [(hnow y hy).2.2]
        exact hfresh j x hx hxl
      · rw [Function.update_of_ne hki] at hy
        exact h.separators j k hjk x y hx hy hxl hyl
  · intro j
    by_cases hji : j = i
    · subst j
      rw [Function.update_self, hrest]
      refine List.Sublist.trans ?_ (h.unsaved i)
      rw [hunsaved]
      split
      · exact List.sublist_cons_self _ _
      · exact List.Sublist.refl _
    · rw [Function.update_of_ne hji]
      exact h.unsaved j
  · intro d
    have hthreads : (∃ j, d ∈ work j ∧ d ∉ (Function.update f i w j).unsaved) ↔
        (d ∈ work i ∧ d ∉ (f i).rest) ∨ ∃ j, j ≠ i ∧ d ∈ work j ∧ d ∉ (f j).unsaved := by
      constructor
      · rintro ⟨j, hd, hn⟩
        by_cases hji : j = i
        · subst j
          rw [Function.update_self, hrest] at hn
          exact Or.inl ⟨hd, hn⟩
        · rw [Function.update_of_ne hji] at hn
          exact Or.inr ⟨j, hji, hd, hn⟩
      · rintro (⟨hd, hn⟩ | ⟨j, hji, hd, hn⟩)
        · refine ⟨i, hd, ?_⟩
          rw [Function.update_self, hrest]
          exact hn
        · refine ⟨j, hd, ?_⟩
          rw [Function.update_of_ne hji]
          exact hn
    have hold : d ∈ G.contents ↔
        (d ∈ work i ∧ d ∉ (f i).unsaved) ∨ ∃ j, j ≠ i ∧ d ∈ work j ∧ d ∉ (f j).unsaved := by
      rw [h.stored d]
      constructor
      · rintro ⟨j, hd, hn⟩
        by_cases hji : j = i
        · subst j
          exact Or.inl ⟨hd, hn⟩
        · exact Or.inr ⟨j, hji, hd, hn⟩
      · rintro (⟨hd, hn⟩ | ⟨j, _, hd, hn⟩)
        · exact ⟨i, hd, hn⟩
        · exact ⟨j, hd, hn⟩
    rw [hthreads]
    by_cases hl : ins.job.level = none
    · rw [if_pos hl] at hunsaved
      have hsub := h.unsaved i
      rw [hunsaved] at hsub
      have hmem : ins.job.entry ∈ work i := hsub.mem List.mem_cons_self
      have hnotin : ins.job.entry ∉ (f i).rest := by
        have hn := (hw.nodup i).sublist (hsub.map (·.key))
        rw [List.map_cons, List.nodup_cons] at hn
        exact fun hin => hn.1 (List.mem_map_of_mem hin)
      rw [(hcontents.1 (htarget.mpr hl)).mem_iff, List.mem_cons, hold, hunsaved, List.mem_cons]
      by_cases hde : d = ins.job.entry
      · subst d
        simp [hmem, hnotin]
      · simp [hde]
    · rw [if_neg hl] at hunsaved
      rw [hcontents.2 (fun h0 => hl (htarget.mp h0)), hold, hunsaved]
  · by_cases hl : ins.job.level = none
    · rw [if_pos hl] at hunsaved
      rw [((hcontents.1 (htarget.mpr hl)).map (·.key)).nodup_iff, List.map_cons, List.nodup_cons]
      refine ⟨?_, h.nodup⟩
      intro hk
      obtain ⟨d, hd, hdk⟩ := List.mem_map.mp hk
      exact h.new_key hw (i := i) (by rw [hunsaved]; exact List.mem_cons_self) d hd hdk
    · rw [hcontents.2 (fun h0 => hl (htarget.mp h0))]
      exact h.nodup

/-- A step of a thread. -/
theorem Working.step [DecidableEq ι] (hal : Allocator alloc) (hw : Work alloc work) (b : Build)
    {i : ι} {w : Writer} {t' : Btree} (h : Working alloc work t f G)
    (hn : (f i).next b alloc t = some (t', w)) :
    ∃ G', Working alloc work t' (Function.update f i w) G' := by
  unfold Writer.next at hn
  cases hnow : (f i).now with
  | none =>
    rw [hnow] at hn
    dsimp only at hn
    cases hrest : (f i).rest with
    | nil =>
      rw [hrest] at hn
      cases hn
    | cons e es =>
      rw [hrest] at hn
      obtain ⟨rfl, rfl⟩ := Prod.mk.inj (Option.some.inj hn)
      have hunsaved : (f i).unsaved = e :: es := by
        unfold Writer.unsaved
        rw [hnow, hrest]
      have hmem : e ∈ work i := (h.unsaved i).mem (by rw [hunsaved]; exact List.mem_cons_self)
      refine ⟨G, h.local_step (by rw [hunsaved]; rfl) ?_⟩
      intro ins hins
      obtain rfl := Option.some.inj hins
      refine ⟨⟨(hw.key i e hmem).2, h.linked.woven.pos, fun l hl => ?_, trivial⟩,
        fun hl => absurd rfl hl⟩
      cases hl
  | some ins =>
    rw [hnow] at hn
    obtain ⟨⟨t1, staged, ins'⟩, hstep, heq⟩ := Option.map_eq_some_iff.mp hn
    obtain ⟨rfl, rfl⟩ := Prod.mk.inj heq
    have hu := h.underway i ins hnow
    have hunsaved : (f i).unsaved = if ins.job.level = none then ins.job.entry :: (f i).rest
        else (f i).rest := by
      unfold Writer.unsaved
      rw [hnow]
    rcases Insertion.next_cases hstep with ⟨a, s, hp, hs, ht, _, hafter⟩ | ⟨ht, _, hjob, hp⟩
    · have hleaf : ins.job.level = none → Increasing (G.entries a) ∧
          (AtHome (G.chain 0) ins.job.key a ∨ ∀ d ∈ G.contents, d.key ≠ ins.job.key) := by
        intro hl
        have hfound := hu.found
        rw [hp] at hfound
        have htarget : ins.job.target = 0 := by
          unfold Job.target
          rw [hl]
          rfl
        obtain ⟨x, hx, rfl, _⟩ := hfound
        rw [htarget] at hx
        refine ⟨h.linked.woven.leaf_increasing h.nodup hx, Or.inr ?_⟩
        exact h.new_key hw (i := i) (by rw [hunsaved, if_pos hl]; exact List.mem_cons_self)
      rcases hu.section h.linked hal hp hleaf hs with ⟨hnil, ⟨r, hr⟩, hu'⟩ |
        ⟨G', hstored, hlinked, hreturned⟩
      · rw [hnil] at ht
        subst ht hafter
        rw [hr] at hu' ⊢
        refine ⟨G, h.local_step ?_ ?_⟩
        · rw [hunsaved]
          rfl
        · intro ins' hins'
          obtain rfl := Option.some.inj hins'
          exact ⟨hu', fun _ => ⟨ins, hnow, rfl⟩⟩
      · subst ht hafter
        refine ⟨G', h.stored_step hal hw hnow hstored hlinked ?_ ?_⟩
        · rcases hreturned with hret | ⟨hstart, hl, _⟩
          · unfold Writer.unsaved
            dsimp only
            rw [if_pos hret]
          · unfold Writer.unsaved
            dsimp only
            rw [if_neg (by rw [hstart]; exact fun hc => by cases hc)]
            dsimp only
            rw [if_neg hl]
        · intro ins' hins'
          dsimp only at hins'
          rcases hreturned with hret | ⟨hstart, hl, hright, hu'⟩
          · rw [if_pos hret] at hins'
            cases hins'
          · rw [if_neg (by rw [hstart]; exact fun hc => by cases hc)] at hins'
            obtain rfl := Option.some.inj hins'
            exact ⟨hu', hl, hright⟩
    · obtain ⟨hu', hne⟩ := hu.walk h.linked hal hstep hp
      subst ht
      rw [if_neg hne]
      refine ⟨G, h.local_step ?_ ?_⟩
      · rw [hunsaved]
        unfold Writer.unsaved
        dsimp only
        rw [hjob]
      · intro ins2 hins2
        obtain rfl := Option.some.inj hins2
        exact ⟨hu', fun _ => ⟨ins, hnow, hjob.symm⟩⟩

/-- Every interleaving. -/
theorem Working.reaches [DecidableEq ι] (hal : Allocator alloc) (hw : Work alloc work) (b : Build)
    {c : Config ι Btree Writer}
    (h : Reaches (fun (_ : ι) (_ : Unit) => fun t w => Writer.next b alloc t w)
      ⟨Btree.new alloc, fun i => .begin (work i)⟩ c) :
    ∃ G, Working alloc work c.shared c.threads G := by
  refine Reaches.invariant (P := fun t f => ∃ G, Working alloc work t f G)
    ⟨_, .new alloc work⟩ ?_ h
  rintro t f i _ t' w ⟨G, hG⟩ hn
  exact hG.step hal hw b hn

/-! ### What is found -/

/-- A stored entry is found. -/
theorem Linked.search_found (h : Linked alloc t G) (hal : Allocator alloc)
    (hvalue : ∀ e ∈ G.contents, e.ptr ≠ NULL ∧ ∀ n, e.ptr ≠ alloc n)
    (hkeys : (G.contents.map (·.key)).Nodup) (hptrs : (G.contents.map (·.ptr)).Nodup) {e : Entry}
    (he : e ∈ G.contents) : Yields (fun fuel => Btree.btreeSearch fuel t e.key) e.ptr := by
  obtain ⟨x, hx, hex⟩ := List.mem_flatMap.mp he
  obtain ⟨b, hb, hy⟩ := h.search_yields hal (fun d hd => (hvalue d hd).2) e.key
  obtain ⟨A, B, hAB⟩ := List.append_of_mem hx
  obtain rfl := (h.woven.entry_home hx hex).unique h.woven.leaf_sorted hb
  have hsub : (G.entries x.2).Sublist G.contents := Outline.entries_sublist hAB
  have hlive : ∀ d ∈ G.entries x.2, d.ptr ≠ NULL := fun d hd => (hvalue d (hsub.mem hd)).1
  have hdistinct : Distinct NULL (G.entries x.2) := by
    refine distinct_of_nodup_cons (List.nodup_cons.mpr ⟨?_, hptrs.sublist (hsub.map (·.ptr))⟩)
    intro h0
    obtain ⟨d, hd, hd0⟩ := List.mem_map.mp h0
    exact hlive d hd hd0
  have hread : read (G.entries x.2) e.key = e.ptr := by
    unfold read
    rw [visible_of_live hlive, find_mem hdistinct (h.woven.leaf_increasing hkeys hx) hex]
    rfl
  rw [← hread]
  exact hy

/-- Whatever the threads are doing, every entry that is in a leaf is found. -/
theorem Working.found (h : Working alloc work t f G) (hal : Allocator alloc)
    (hw : Work alloc work) {i : ι} {e : Entry} (he : e ∈ work i) (hs : e ∉ (f i).unsaved) :
    Yields (fun fuel => Btree.btreeSearch fuel t e.key) e.ptr := by
  have hmem : ∀ d ∈ G.contents, ∃ j, d ∈ work j := by
    intro d hd
    obtain ⟨j, hj, _⟩ := (h.stored d).mp hd
    exact ⟨j, hj⟩
  have hptrs : (G.contents.map (·.ptr)).Nodup := by
    have hkeys := h.nodup
    rw [List.Nodup, List.pairwise_map] at hkeys ⊢
    refine hkeys.imp_of_mem ?_
    intro x y hx hy hxy hptr
    obtain ⟨j, hj⟩ := hmem x hx
    obtain ⟨k, hk⟩ := hmem y hy
    exact hxy (hw.distinct j k x hj y hk hptr)
  refine h.linked.search_found hal ?_ h.nodup hptrs ((h.stored e).mpr ⟨i, he, hs⟩)
  intro d hd
  obtain ⟨j, hj⟩ := hmem d hd
  exact ⟨hw.ne_null j d hj, hw.page j d hj⟩

/-- Whenever all calls have returned, `btree_search` finds every key that was inserted. -/
theorem inserts_kept [DecidableEq ι] (b : Build) (hal : Allocator alloc) (hw : Work alloc work)
    {c : Config ι Btree Writer}
    (h : Reaches (fun (_ : ι) (_ : Unit) => fun t w => Writer.next b alloc t w)
      ⟨Btree.new alloc, fun i => .begin (work i)⟩ c)
    (hreturned : ∀ i, (c.threads i).now = none) :
    ∀ i, ∀ e ∈ work i, e ∉ (c.threads i).rest →
      Yields (fun fuel => Btree.btreeSearch fuel c.shared e.key) e.ptr := by
  intro i e he hrest
  obtain ⟨G, hG⟩ := Working.reaches hal hw b h
  refine hG.found hal hw he ?_
  unfold Writer.unsaved
  rw [hreturned i]
  exact hrest

end

/-- Two threads with 16 entries each; a page holds 29. -/
def twoWork (i : Fin 2) : List Entry :=
  (List.range 16).map fun n => ⟨((2 * n + i : ℕ) : ℤ), 4 * n + 2 * i + 1⟩

theorem mem_twoWork {i : Fin 2} {e : Entry} (he : e ∈ twoWork i) :
    ∃ n < 16, e = ⟨((2 * n + i : ℕ) : ℤ), 4 * n + 2 * i + 1⟩ := by
  obtain ⟨n, hn, rfl⟩ := List.mem_map.mp he
  exact ⟨n, List.mem_range.mp hn, rfl⟩

theorem twoWork_work : Work evens twoWork := by
  refine ⟨?_, by decide, ?_, ?_, ?_, ?_⟩
  · intro i e he
    obtain ⟨n, hn, rfl⟩ := mem_twoWork he
    have := i.isLt
    unfold IsKey longMax
    constructor <;> dsimp only <;> omega
  · intro i j hij e he d hd hkey
    obtain ⟨n, _, rfl⟩ := mem_twoWork he
    obtain ⟨k, _, rfl⟩ := mem_twoWork hd
    have := Int.ofNat_inj.mp hkey
    exact hij (Fin.ext (by omega))
  · intro i e he
    obtain ⟨n, _, rfl⟩ := mem_twoWork he
    exact Nat.succ_ne_zero _
  · intro i e he k
    obtain ⟨n, _, rfl⟩ := mem_twoWork he
    unfold evens
    dsimp only
    omega
  · intro i j e he d hd hptr
    obtain ⟨n, _, rfl⟩ := mem_twoWork he
    obtain ⟨k, _, rfl⟩ := mem_twoWork hd
    have : 4 * n + 2 * i.val + 1 = 4 * k + 2 * j.val + 1 := hptr
    exact Int.ofNat_inj.mpr (by omega)

/-- The two threads take turns. -/
def twoWork.order : List (Fin 2 × Unit) :=
  (List.replicate 65 ((List.finRange 2).map fun i => (i, ()))).flatten

/-- The 30th insertion splits the leaf. -/
theorem twoWork_returns : ((schedule (fun (_ : Fin 2) (_ : Unit) => fun t w =>
      Writer.next .plain evens t w) twoWork.order
      ⟨Btree.new evens, fun i => .begin (twoWork i)⟩).map fun c =>
        (c.shared.height, (c.threads 0).now.isNone && (c.threads 0).rest.isEmpty,
          (c.threads 1).now.isNone && (c.threads 1).rest.isEmpty)) = some (2, true, true) := by
  decide +kernel

theorem inserts_kept_two : ∃ c : Config (Fin 2) Btree Writer,
    Reaches (fun (_ : Fin 2) (_ : Unit) => fun t w => Writer.next .plain evens t w)
      ⟨Btree.new evens, fun i => .begin (twoWork i)⟩ c ∧
    (∀ i, (c.threads i).now = none) ∧ c.shared.height = 2 ∧
    ∀ i, ∀ e ∈ twoWork i, Yields (fun fuel => Btree.btreeSearch fuel c.shared e.key) e.ptr := by
  obtain ⟨c, hc, hend⟩ := Option.map_eq_some_iff.mp twoWork_returns
  obtain ⟨hheight, h0, h1⟩ : _ ∧ _ ∧ _ := by simpa only [Prod.mk.injEq] using hend
  have hreach := schedule_reaches hc
  have hended : ∀ i, ((c.threads i).now.isNone && (c.threads i).rest.isEmpty) = true := by
    intro i
    match i with
    | 0 => exact h0
    | 1 => exact h1
  have hnow : ∀ i, (c.threads i).now = none := fun i =>
    Option.isNone_iff_eq_none.mp (Bool.and_eq_true_iff.mp (hended i)).1
  refine ⟨c, hreach, hnow, hheight, ?_⟩
  intro i e he
  refine inserts_kept .plain evens_allocator twoWork_work hreach hnow i e he ?_
  rw [List.isEmpty_iff.mp (Bool.and_eq_true_iff.mp (hended i)).2]
  exact List.not_mem_nil

end PmemStudy.FastFair
