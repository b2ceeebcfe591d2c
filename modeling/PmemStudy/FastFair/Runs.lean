import PmemStudy.FastFair.SingleLeaf

/-!
# Runs of one thread

A tree that starts empty and goes through insertions of absent keys and, if
they are allowed, deletions that end. It is a finite map after each of them,
and on every image in the middle of an insertion.
-/

namespace PmemStudy.FastFair
open PmemStudy.Slots PmemStudy.Chain PmemStudy.Trace PmemStudy.Loop

/-- The range of `entry_key_t`. -/
def IsKey (k : ℤ) : Prop := -longMax - 1 ≤ k ∧ k ≤ longMax

/-- A new pair for the map `m`. -/
structure Storable (m : ℤ → Option ℕ) (k : ℤ) (v : ℕ) : Prop where
  key : IsKey k
  absent : m k = none
  ne_null : v ≠ NULL
  fresh : ∀ k', m k' ≠ some v

/-- An insertion that callers may ask for when the map is `m`. -/
structure Insertable (alloc : ℕ → ℕ) (m : ℤ → Option ℕ) (k : ℤ) (v : ℕ) : Prop
    extends Storable m k v where
  page : ∀ i, v ≠ alloc i

/-- `t` is reached by a sequence of operations, after which the stored pairs are `m`. -/
inductive Run (alloc : ℕ → ℕ) (deletes : Bool) : Btree → (ℤ → Option ℕ) → Prop
  | new : Run alloc deletes (Btree.new alloc) fun _ => none
  | insert {t : Btree} {m : ℤ → Option ℕ} {k : ℤ} {v : ℕ} {stores : List TreeStore}
      (h : Run alloc deletes t m) (hi : Insertable alloc m k v)
      (hy : Yields (fun fuel => Btree.btreeInsert alloc fuel t k v) stores) :
      Run alloc deletes (t.run stores) (Function.update m k (some v))
  | delete {t : Btree} {m : ℤ → Option ℕ} {k : ℤ} {stores : List TreeStore}
      (h : Run alloc deletes t m) (hd : deletes = true)
      (hy : Yields (fun fuel => Btree.btreeDelete fuel t k) stores) :
      Run alloc deletes (t.run stores) (Function.update m k none)

/-- The least number of records of a page that is not the root. -/
def leastFill (deletes : Bool) : ℕ := if deletes then 0 else 14

theorem leastFill_le (deletes : Bool) : leastFill deletes ≤ 14 := by
  cases deletes <;> simp [leastFill]

/-- Between two operations the tree is at rest and holds the pairs of the map. -/
structure Settled (alloc : ℕ → ℕ) (μ : ℕ) (t : Btree) (m : ℤ → Option ℕ) (G : Outline) : Prop where
  rest : AtRest alloc μ t G
  closed : ∀ l, G.pending l = none
  contents : ∀ k v, (⟨k, v⟩ : Entry) ∈ G.contents ↔ m k = some v

section
variable {alloc : ℕ → ℕ} {μ : ℕ} {deletes : Bool} {t : Btree} {m : ℤ → Option ℕ}

def Outline.new (alloc : ℕ → ℕ) : Outline where
  height := 1
  root := alloc 0
  chain := fun _ => [(⊥, alloc 0)]
  leftmost := fun _ => NULL
  entries := fun _ => []
  pending := fun _ => none

theorem settled_new (alloc : ℕ → ℕ) (μ : ℕ) :
    Settled alloc μ (Btree.new alloc) (fun _ => none) (Outline.new alloc) := by
  have hc : (Outline.new alloc).contents = [] := rfl
  have hl0 : ∀ l < (Outline.new alloc).height, l = 0 := by
    intro l hl
    have : l < 1 := hl
    omega
  refine ⟨⟨⟨Nat.one_pos, ?_, ?_, ?_, ?_, ?_, ?_, ?_, ?_⟩, ⟨rfl, ?_, ?_⟩, ?_, ?_, rfl, ?_, ?_, ?_⟩,
    fun _ => rfl, ?_⟩
  · intro l hl
    rw [Outline.above_top (G := Outline.new alloc) (by have := hl0 l hl; show ¬ l + 1 < 1; omega)]
    rfl
  · exact fun _ _ => List.pairwise_singleton _ _
  · exact fun _ _ => List.nodup_singleton _
  · intro l hl l' hl' _ _ _ _ _
    rw [hl0 l hl, hl0 l' hl']
  · exact fun _ _ e he => absurd he List.not_mem_nil
  · exact List.pairwise_singleton _ _
  · rw [hc]
    exact List.Pairwise.nil
  · exact fun _ _ e he => absurd he (by simp [Outline.new])
  · intro l hl A lo a B hA
    have hA' : [((⊥ : WithBot ℤ), alloc 0)] = A ++ (lo, a) :: B := hA
    have hnil : A = [] ∧ B = [] := by
      have hlen := congrArg List.length hA'
      simp only [List.length_append, List.length_cons, List.length_nil] at hlen
      exact ⟨List.length_eq_zero_iff.mp (by omega), List.length_eq_zero_iff.mp (by omega)⟩
    obtain ⟨rfl, rfl⟩ := hnil
    obtain ⟨rfl, rfl⟩ := Prod.mk.inj (List.singleton_inj.mp hA')
    refine ⟨Page.new 0, ?_, ⟨(hl0 l hl).symm, rfl, rfl,
      ⟨fun _ => hl0 l hl, fun _ => rfl⟩, rfl, fun _ => bot_le⟩, Page.new_rests 0⟩
    simp [Btree.new]
  · intro l hl x hx
    exact ⟨0, Nat.one_pos, by rw [List.mem_singleton.mp hx]⟩
  · rw [hc]
    simp
  · rw [hc]
    exact List.nodup_nil
  · intro l hl x hx
    rw [List.mem_singleton.mp hx]
    exact bot_le
  · rw [hc]
    simp
  · intro l hl x hx
    rw [List.mem_singleton.mp hx]
    exact Or.inl rfl
  · intro k v
    rw [hc]
    simp

theorem Settled.fresh {G : Outline} (h : Settled alloc μ t m G) {k : ℤ} {v : ℕ}
    (hi : Storable m k v) : Fresh G 0 ⟨k, v⟩ ∧ ∀ b ∈ G.contents, b.key ≠ k := by
  refine ⟨⟨hi.key.2, hi.ne_null, fun _ => ?_⟩, ?_⟩
  · intro b hb hbv
    have hbv' : b.ptr = v := hbv
    exact hi.fresh b.key ((h.contents b.key v).mp (by rw [← hbv']; exact hb))
  · intro b hb hbk
    have := (h.contents b.key b.ptr).mp hb
    rw [hbk, hi.absent] at this
    simp at this

/-- An insertion step: its images and the tree after it. -/
theorem Settled.insert {G : Outline} (hal : Allocator alloc) (hμ : μ ≤ 14)
    (h : Settled alloc μ t m G) {k : ℤ} {v : ℕ} (hi : Storable m k v) :
    ∃ stores C, Yields (fun fuel => Btree.btreeInsert alloc fuel t k v) stores ∧
      Always Btree.apply (Shown alloc G.contents C) t stores ∧
      (∀ k' v', (⟨k', v'⟩ : Entry) ∈ C ↔ Function.update m k (some v) k' = some v') ∧
      ∃ G', Settled alloc μ (t.run stores) (Function.update m k (some v)) G' := by
  obtain ⟨hf, hnew⟩ := h.fresh hi
  obtain ⟨stores, C, hy, hs, hperm⟩ := h.rest.insert_yields hal hμ h.closed hf hnew
  have hC : ∀ k' v', (⟨k', v'⟩ : Entry) ∈ C ↔ Function.update m k (some v) k' = some v' := by
    intro k' v'
    rw [hperm.mem_iff, List.mem_cons, h.contents, Function.update_apply]
    by_cases hk : k' = k
    · rw [if_pos hk, hk, hi.absent]
      simp [eq_comm]
    · rw [if_neg hk]
      simp [hk]
  obtain ⟨G', hrest, hclosed, hcont⟩ := hs.rest
  exact ⟨stores, C, hy, hs.images, hC, G', hrest, hclosed, by rw [hcont]; exact hC⟩

theorem Settled.delete {G : Outline} (hal : Allocator alloc) (h : Settled alloc 0 t m G) {k : ℤ}
    (hk : m k ≠ none) (hpage : ∀ v, m k = some v → ∀ i, v ≠ alloc i) :
    ∃ stores, Yields (fun fuel => Btree.btreeDelete fuel t k) stores ∧
      ∃ G', Settled alloc 0 (t.run stores) (Function.update m k none) G' := by
  obtain ⟨v, hv⟩ := Option.ne_none_iff_exists'.mp hk
  have hmem := (h.contents k v).mpr hv
  obtain ⟨stores, hy, G', hrest, hclosed, hperm⟩ := h.rest.delete_yields hal h.closed hmem (hpage v hv)
  refine ⟨stores, hy, G', hrest, hclosed, ?_⟩
  -- the key had one entry, so it is gone
  have hkeys : (G.contents.map (·.key)).Nodup :=
    List.pairwise_map.mpr (h.rest.outline.increasing.imp fun hlt => hlt.ne)
  rw [(hperm.map (·.key)).nodup_iff, List.map_cons, List.nodup_cons] at hkeys
  intro k' v'
  rw [Function.update_apply]
  by_cases hkk : k' = k
  · rw [if_pos hkk, hkk]
    exact ⟨fun hm => absurd (List.mem_map_of_mem hm) hkeys.1, fun hc => absurd hc (by simp)⟩
  · rw [if_neg hkk, ← h.contents, hperm.mem_iff, List.mem_cons]
    simp [hkk]

/-- A deletion of an absent key that ends stores nothing: its walk comes to the last leaf. -/
theorem Settled.delete_absent {G : Outline} (hal : Allocator alloc) (h : Settled alloc μ t m G)
    {k : ℤ} (hk : m k = none) {stores : List TreeStore}
    (hy : Yields (fun fuel => Btree.btreeDelete fuel t k) stores) :
    G.InLast k ∧ stores = [] := by
  have habs : ∀ e ∈ G.contents, e.key ≠ k := by
    rintro e he rfl
    rw [(h.contents e.key e.ptr).mp he] at hk
    simp at hk
  have hlast : G.InLast k := by
    by_contra hlast
    obtain ⟨n, hn⟩ := hy
    have hfuel : Btree.btreeDelete n t k = some stores := hn n (Nat.le_refl _)
    rw [AtRest.delete_diverges hal h.closed habs hlast n h.rest] at hfuel
    simp at hfuel
  exact ⟨hlast, hy.unique (h.rest.delete_last hal h.closed habs hlast)⟩

/-- No value is the address of a page. -/
theorem Run.value_ne_page (h : Run alloc deletes t m) :
    ∀ k v, m k = some v → ∀ i, v ≠ alloc i := by
  induction h with
  | new =>
    intro k v hk
    cases hk
  | @insert t m k w _ _ hi _ ih =>
    intro k' v hk
    rw [Function.update_apply] at hk
    split at hk
    · rw [← Option.some.inj hk]
      exact hi.page
    · exact ih k' v hk
  | @delete t m k _ _ _ _ ih =>
    intro k' v hk
    rw [Function.update_apply] at hk
    split at hk
    · cases hk
    · exact ih k' v hk

/-- The invariant of a run. -/
theorem Run.settled (hal : Allocator alloc) (h : Run alloc deletes t m) :
    ∃ G, Settled alloc (leastFill deletes) t m G := by
  induction h with
  | new => exact ⟨_, settled_new alloc _⟩
  | insert _ hi hy ih =>
    obtain ⟨G, hG⟩ := ih
    obtain ⟨stores, C, hy', _, _, hG'⟩ := hG.insert hal (leastFill_le _) hi.toStorable
    rw [hy.unique hy']
    exact hG'
  | @delete t m k _ hr hd hy ih =>
    obtain ⟨G, hG⟩ := ih
    subst hd
    by_cases hk : m k = none
    · obtain ⟨_, rfl⟩ := hG.delete_absent hal hk hy
      rw [Function.update_eq_self_iff.mpr hk.symm]
      exact ⟨G, hG⟩
    · obtain ⟨stores, hy', hG'⟩ := hG.delete hal hk (hr.value_ne_page k)
      rw [hy.unique hy']
      exact hG'

/-! ### Insertions in the order of a list -/

/-- Even addresses. -/
def evens (i : ℕ) : ℕ := 2 * i + 2

theorem evens_allocator : Allocator evens :=
  ⟨fun i j h => by simp only [evens] at h; omega, fun i => by simp [evens, NULL]⟩

theorem insertable_evens {m : ℤ → Option ℕ} {k : ℤ} {v : ℕ} (hk : IsKey k) (hm : m k = none)
    (hf : ∀ k', m k' ≠ some v) (hv : v % 2 = 1) : Insertable evens m k v :=
  ⟨⟨hk, hm, by rintro rfl; simp [NULL] at hv, hf⟩, by intro i hi; simp only [evens] at hi; omega⟩

def mapAfter : (ℤ → Option ℕ) → List (ℤ × ℕ) → ℤ → Option ℕ
  | m, [] => m
  | m, (k, v) :: l => mapAfter (Function.update m k (some v)) l

def AllInsertable (alloc : ℕ → ℕ) : (ℤ → Option ℕ) → List (ℤ × ℕ) → Prop
  | _, [] => True
  | m, (k, v) :: l => Insertable alloc m k v ∧ AllInsertable alloc (Function.update m k (some v)) l

theorem Run.insertAll (hal : Allocator alloc) (l : List (ℤ × ℕ)) (h : Run alloc deletes t m)
    (hl : AllInsertable alloc m l) :
    ∃ t', Yields (fun fuel => insertAll alloc fuel t l) t' ∧
      Run alloc deletes t' (mapAfter m l) := by
  induction l generalizing t m with
  | nil => exact ⟨t, .const fun _ => rfl, h⟩
  | cons x l ih =>
    obtain ⟨k, v⟩ := x
    obtain ⟨G, hG⟩ := h.settled hal
    obtain ⟨stores, _, hy, _⟩ := hG.insert hal (leastFill_le _) hl.1.toStorable
    obtain ⟨t', hy', hr⟩ := ih (h.insert hl.1 hy) hl.2
    exact ⟨t', hy.bind (g := fun fuel stores => FastFair.insertAll alloc fuel (t.run stores) l) hy',
      hr⟩

theorem mapAfter_pairsFrom (n s : ℕ) (m : ℤ → Option ℕ) (k : ℤ) :
    mapAfter m (pairsFrom s n) k
      = if (s : ℤ) ≤ k ∧ k < s + n then some (2 * k.toNat + 1) else m k := by
  induction n generalizing s m with
  | zero =>
    rw [if_neg (by omega)]
    rfl
  | succ n ih =>
    rw [pairsFrom, List.range'_succ, List.map_cons, mapAfter]
    show mapAfter _ (pairsFrom (s + 1) n) k = _
    rw [ih, Function.update_apply]
    by_cases hk : k = (s : ℤ)
    · rw [if_neg (by omega), if_pos hk, if_pos (by omega), hk, Int.toNat_natCast]
    · by_cases hin : (s : ℤ) ≤ k ∧ k < s + (n + 1 : ℕ)
      · rw [if_pos (by omega), if_pos hin]
      · rw [if_neg (by omega), if_neg hk, if_neg hin]

theorem allInsertable_pairsFrom (n s : ℕ) (hn : s + n < 0x7fffffffffffffff) {m : ℤ → Option ℕ}
    (hm : ∀ k v, m k = some v → k < s ∧ v < 2 * s) : AllInsertable evens m (pairsFrom s n) := by
  induction n generalizing s m with
  | zero => trivial
  | succ n ih =>
    rw [pairsFrom, List.range'_succ, List.map_cons]
    refine ⟨insertable_evens ?_ ?_ ?_ (by omega), ih (s + 1) (by omega) ?_⟩
    · unfold IsKey longMax
      omega
    · cases hk : m s with
      | none => rfl
      | some v =>
        have := (hm s v hk).1
        omega
    · intro k' hk
      have := (hm k' _ hk).2
      omega
    · intro k v hk
      rw [Function.update_apply] at hk
      split at hk
      · have := Option.some.inj hk
        omega
      · have := hm k v hk
        omega

/-- With 30 keys or more there are two leaves, and the last one starts behind the
least key. -/
theorem Settled.not_inLast {G : Outline} (h : Settled alloc 14 t m G) {k : ℤ}
    (hmany : cardinality ≤ G.contents.length) (hk : ∀ e ∈ G.contents, k < e.key) :
    ¬ G.InLast k := by
  rintro ⟨A, lo, a, hc, hlo⟩
  have hrest := h.rest
  cases A with
  | nil =>
    obtain ⟨p, _, _, hr⟩ := hrest.follows.page 0 hrest.outline.pos [] lo a [] hc
    have hfits := hr.fits
    rw [Outline.contents, hc] at hmany
    simp at hmany
    omega
  | cons y A =>
    have hy : y ∈ G.chain 0 := by
      rw [hc]
      simp
    have hfill : G.entries y.2 ≠ [] := by
      rcases hrest.filled 0 hrest.outline.pos y hy with hroot | hle
      · exfalso
        have hcell := hrest.root_cell (h.closed _)
        have h0 := hrest.outline.disjoint 0 hrest.outline.pos (G.height - 1)
          (by have := hrest.outline.pos; omega) y hy (⊥, G.root) (by rw [hcell]; simp) hroot
        rw [← h0, hc] at hcell
        have := congrArg List.length hcell
        simp at this
      · intro hnil
        rw [hnil] at hle
        simp at hle
    obtain ⟨e, he⟩ := List.exists_mem_of_ne_nil _ hfill
    have hlt : (↑e.key : WithBot ℤ) < lo := by
      have hb := hrest.outline.leaf_below
      rw [hc] at hb
      exact (List.pairwise_cons.mp hb).1 (lo, a) (by simp) e he
    have := WithBot.coe_lt_coe.mp (hlt.trans_le hlo)
    have := hk e (mem_contents hy he)
    omega

/-- The pairs of the keys 0 to 29. -/
def thirtyMap : ℤ → Option ℕ := mapAfter (fun _ => none) (pairsFrom 0 30)

theorem thirtyMap_eq (k : ℤ) :
    thirtyMap k = if 0 ≤ k ∧ k < 30 then some (2 * k.toNat + 1) else none :=
  mapAfter_pairsFrom 30 0 _ k

/-- They fill two leaves. -/
theorem Settled.thirty_leaves {G : Outline} (h : Settled evens 14 t thirtyMap G) {k : ℤ}
    (hk : k < 0) : ¬ G.InLast k := by
  have hm := h.contents
  simp only [thirtyMap_eq] at hm
  refine h.not_inLast ?_ ?_
  · have hsub : ((List.range 30).map fun i : ℕ => (⟨i, 2 * i + 1⟩ : Entry)) ⊆ G.contents := by
      intro e he
      obtain ⟨i, hi, rfl⟩ := List.mem_map.mp he
      have := List.mem_range.mp hi
      rw [hm, if_pos (by omega), Int.toNat_natCast]
    have hnd : ((List.range 30).map fun i : ℕ => (⟨i, 2 * i + 1⟩ : Entry)).Nodup := by
      refine List.nodup_range.map ?_
      intro i j hij
      have := congrArg Entry.key hij
      exact Int.ofNat.inj this
    have := (List.subperm_of_subset hnd hsub).length_le
    simpa [cardinality_eq] using this
  · intro e he
    have := (hm e.key e.ptr).mp he
    split at this
    · omega
    · simp at this

theorem Run.of_false (h : Run alloc false t m) : Run alloc true t m := by
  induction h with
  | new => exact .new
  | insert _ hi hy ih => exact ih.insert hi hy
  | delete _ hd => cases hd

/-- The walk down for `k` arrives at a leaf without a right neighbour. -/
def ReachesLast (t : Btree) (k : ℤ) : Prop :=
  ∃ a p, Yields (fun fuel => t.findLeaf k fuel t.root) a ∧ t.pages a = some p ∧
    p.siblingPtr = NULL

theorem AtRest.reachesLast_iff {G : Outline} (h : AtRest alloc μ t G) (hal : Allocator alloc)
    (hpend : ∀ l, G.pending l = none) (k : ℤ) : ReachesLast t k ↔ G.InLast k := by
  obtain ⟨a, hfind, A, lo, B, hc, hlo, hB⟩ := h.findLeaf_home hal hpend k
  obtain ⟨p, hp, hpl, _⟩ := h.follows.page 0 h.outline.pos A lo a B hc
  rw [Outline.inLast_iff hc hlo hB]
  constructor
  · rintro ⟨a', p', hfind', hp', hsib⟩
    obtain rfl := hfind.unique hfind'
    rw [hp] at hp'
    obtain rfl := Option.some.inj hp'
    rw [hpl.siblingPtr] at hsib
    cases B with
    | nil => rfl
    | cons y B => exact absurd hsib (h.address_ne hal h.outline.pos (x := y) (by rw [hc]; simp))
  · rintro rfl
    exact ⟨a, p, hfind, hp, hpl.siblingPtr⟩

/-- A tree with the keys 0 to 29: the leaf of the least keys has a right neighbour. -/
theorem thirty_run : ∃ t,
    Yields (fun fuel => insertAll evens fuel (Btree.new evens) (pairsFrom 0 30)) t ∧
      Run evens false t thirtyMap ∧ ¬ ReachesLast t (-1) := by
  obtain ⟨t, hy, hr⟩ := Run.insertAll evens_allocator (pairsFrom 0 30)
    (Run.new : Run evens false _ _) (allInsertable_pairsFrom 30 0 (by decide) (by simp))
  obtain ⟨G, hG⟩ := hr.settled evens_allocator
  refine ⟨t, hy, hr, fun hlast => ?_⟩
  rw [hG.rest.reachesLast_iff evens_allocator hG.closed] at hlast
  exact Settled.thirty_leaves hG (by decide) hlast

/-! ### Searches -/

theorem Readable.search_map {G : Outline} (h : Readable alloc t G) (hal : Allocator alloc)
    (hm : ∀ k v, (⟨k, v⟩ : Entry) ∈ G.contents ↔ m k = some v)
    (hpage : ∀ k v, m k = some v → ∀ i, v ≠ alloc i) (k : ℤ) :
    Yields (fun fuel => Btree.btreeSearch fuel t k) ((m k).getD NULL) := by
  obtain ⟨r, hy, hsome, hnull⟩ := h.search_yields hal k fun v hv => hpage k v ((hm k v).mp hv)
  have hr : r = (m k).getD NULL := by
    cases hk : m k with
    | some v => exact hsome v ((hm k v).mpr hk)
    | none =>
      by_contra hne
      have := (hm k r).mp (hnull hne)
      rw [hk] at this
      simp at this
  rw [← hr]
  exact hy

/-- The tree is a finite map: each operation ends, and a search returns the value
of the latest insertion of its key. -/
theorem run_search_map (hal : Allocator alloc) (h : Run alloc true t m) :
    (∀ k, Yields (fun fuel => Btree.btreeSearch fuel t k) ((m k).getD NULL)) ∧
    (∀ k v, Insertable alloc m k v →
      ∃ stores, Yields (fun fuel => Btree.btreeInsert alloc fuel t k v) stores) ∧
    ∀ k, m k ≠ none → ∃ stores, Yields (fun fuel => Btree.btreeDelete fuel t k) stores := by
  obtain ⟨G, hG⟩ := h.settled hal
  refine ⟨hG.rest.readable.search_map hal hG.contents h.value_ne_page, ?_, ?_⟩
  · intro k v hi
    obtain ⟨stores, _, hy, _⟩ := hG.insert hal (leastFill_le _) hi.toStorable
    exact ⟨stores, hy⟩
  · intro k hk
    obtain ⟨stores, hy, _⟩ := hG.delete hal hk (h.value_ne_page k)
    exact ⟨stores, hy⟩

/-- After the keys 0 to 29, which two leaves hold, key 5 is deleted. -/
theorem run_search_map_thirty : ∃ t stores,
    Yields (fun fuel => insertAll evens fuel (Btree.new evens) (pairsFrom 0 30)) t ∧
      ¬ ReachesLast t (-1) ∧ Yields (fun fuel => Btree.btreeDelete fuel t 5) stores ∧
      Yields (fun fuel => Btree.btreeSearch fuel (t.run stores) 5) NULL ∧
      Yields (fun fuel => Btree.btreeSearch fuel (t.run stores) 29) 59 := by
  obtain ⟨t, hy, hr, hlast⟩ := thirty_run
  obtain ⟨stores, hdelete⟩ := (run_search_map evens_allocator hr.of_false).2.2 5
    (by rw [thirtyMap_eq]; decide)
  have hs := (run_search_map evens_allocator (hr.of_false.delete rfl hdelete)).1
  refine ⟨t, stores, hy, hlast, hdelete, ?_, ?_⟩
  · have := hs 5
    rwa [Function.update_self] at this
  · have := hs 29
    rwa [Function.update_of_ne (by decide), thirtyMap_eq] at this

/-! ### Images in the middle of an insertion -/

/-- After every prefix of the stores of an insertion all stored keys are found; the
new key is found or not there yet. -/
theorem run_insert_images (hal : Allocator alloc) (h : Run alloc true t m) {k : ℤ} {v : ℕ}
    (hi : Insertable alloc m k v) :
    ∃ stores, Yields (fun fuel => Btree.btreeInsert alloc fuel t k v) stores ∧
      ∀ n, (∀ k' v', m k' = some v' →
          Yields (fun fuel => Btree.btreeSearch fuel (t.run (stores.take n)) k') v') ∧
        (Yields (fun fuel => Btree.btreeSearch fuel (t.run (stores.take n)) k) NULL ∨
          Yields (fun fuel => Btree.btreeSearch fuel (t.run (stores.take n)) k) v) := by
  obtain ⟨G, hG⟩ := h.settled hal
  obtain ⟨stores, C, hy, himages, hC, _⟩ := hG.insert hal (leastFill_le _) hi.toStorable
  refine ⟨stores, hy, ?_⟩
  intro n
  obtain ⟨G', hr, hold | hnew⟩ := himages n
  · have hs := Readable.search_map (t := t.run (stores.take n)) hr hal
      (by rw [hold]; exact hG.contents) h.value_ne_page
    refine ⟨?_, Or.inl ?_⟩
    · intro k' v' hk
      have := hs k'
      rwa [hk] at this
    · have := hs k
      rwa [hi.absent] at this
  · have hs := Readable.search_map (t := t.run (stores.take n)) hr hal (by rw [hnew]; exact hC)
      (h.insert hi hy).value_ne_page
    refine ⟨?_, Or.inr ?_⟩
    · intro k' v' hk
      have hne : k' ≠ k := by
        rintro rfl
        rw [hi.absent] at hk
        simp at hk
      have := hs k'
      rwa [Function.update_of_ne hne, hk] at this
    · have := hs k
      rwa [Function.update_self] at this

/-- The insertion of key 29 splits the only leaf. -/
theorem run_insert_images_thirtieth : ∃ p stores,
    Yields (fun fuel => insertAll evens fuel (Btree.new evens) (pairsFrom 0 29))
      (Btree.single evens p) ∧
    Yields (fun fuel => Btree.btreeInsert evens fuel (Btree.single evens p) 29 59) stores ∧
    ¬ ReachesLast ((Btree.single evens p).run stores) (-1) ∧
    ∀ n, (∀ k : ℤ, 0 ≤ k → k < 29 → Yields (fun fuel =>
        Btree.btreeSearch fuel ((Btree.single evens p).run (stores.take n)) k) (2 * k.toNat + 1)) ∧
      (Yields (fun fuel =>
          Btree.btreeSearch fuel ((Btree.single evens p).run (stores.take n)) 29) NULL ∨
        Yields (fun fuel =>
          Btree.btreeSearch fuel ((Btree.single evens p).run (stores.take n)) 29) 59) := by
  have hleaf := single_insertAll evens_allocator (p := Page.new 0) (pairsFrom 0 29)
    (by decide +kernel)
  obtain ⟨t, hy, hr⟩ := Run.insertAll evens_allocator (pairsFrom 0 29)
    (Run.new : Run evens false _ _) (allInsertable_pairsFrom 29 0 (by decide) (by simp))
  obtain rfl := hy.unique hleaf
  have hm := mapAfter_pairsFrom 29 0 fun _ => none
  have hi : Insertable evens (mapAfter (fun _ => none) (pairsFrom 0 29)) 29 59 := by
    refine insertable_evens (by unfold IsKey; decide) (by rw [hm]; rfl) (fun k hk => ?_) rfl
    rw [hm] at hk
    split at hk
    · have := Option.some.inj hk
      omega
    · cases hk
  obtain ⟨stores, hstores, hs⟩ := run_insert_images evens_allocator hr.of_false hi
  refine ⟨_, stores, hleaf, hstores, fun hlast => ?_, fun n => ⟨fun k h0 hk => ?_, (hs n).2⟩⟩
  · obtain ⟨G, hG⟩ := (hr.insert hi hstores).settled evens_allocator
    have hthirty : Function.update (mapAfter (fun _ => none) (pairsFrom 0 29)) 29 (some 59) =
        thirtyMap := rfl
    rw [hthirty] at hG
    rw [hG.rest.reachesLast_iff evens_allocator hG.closed] at hlast
    exact Settled.thirty_leaves hG (by decide) hlast
  · refine (hs n).1 k _ ?_
    rw [hm, if_pos (by omega)]

/-! ### Deletions end or do not -/

/-- A deletion ends, and one of an absent key changes no search. -/
def DeleteEnds (t : Btree) (m : ℤ → Option ℕ) (k : ℤ) : Prop :=
  ∃ stores, Yields (fun fuel => Btree.btreeDelete fuel t k) stores ∧
    (m k = none → ∀ k', ∃ r, Yields (fun fuel => Btree.btreeSearch fuel t k') r ∧
      Yields (fun fuel => Btree.btreeSearch fuel (t.run stores) k') r)

theorem run_delete_ends_iff (hal : Allocator alloc) (h : Run alloc true t m) (k : ℤ) :
    DeleteEnds t m k ↔ (m k ≠ none ∨ ReachesLast t k) := by
  obtain ⟨G, hG⟩ := h.settled hal
  by_cases hk : m k = none
  · have habs : ∀ e ∈ G.contents, e.key ≠ k := by
      rintro e he rfl
      rw [(hG.contents e.key e.ptr).mp he] at hk
      simp at hk
    rw [hG.rest.reachesLast_iff hal hG.closed]
    constructor
    · rintro ⟨stores, hy, _⟩
      exact Or.inr (hG.delete_absent hal hk hy).1
    · rintro (hc | hlast)
      · exact absurd hk hc
      · refine ⟨[], hG.rest.delete_last hal hG.closed habs hlast, ?_⟩
        intro _ k'
        have hs := hG.rest.readable.search_map hal hG.contents h.value_ne_page k'
        exact ⟨_, hs, hs⟩
  · constructor
    · exact fun _ => Or.inl hk
    · intro _
      obtain ⟨stores, hy, _⟩ := hG.delete hal hk (h.value_ne_page k)
      exact ⟨stores, hy, fun hc => absurd hc hk⟩

/-- Of the keys 0 to 29, 5 can be deleted and -1 cannot; a second deletion of 5 ends if its
walk comes to the last leaf. -/
theorem run_delete_ends_iff_thirty : ∃ t stores,
    Yields (fun fuel => insertAll evens fuel (Btree.new evens) (pairsFrom 0 30)) t ∧
      Yields (fun fuel => Btree.btreeDelete fuel t 5) stores ∧
      DeleteEnds t thirtyMap 5 ∧ ¬ DeleteEnds t thirtyMap (-1) ∧
      (DeleteEnds (t.run stores) (Function.update thirtyMap 5 none) 5 ↔
        ReachesLast (t.run stores) 5) := by
  obtain ⟨t, hy, hr, hlast⟩ := thirty_run
  have hends (k : ℤ) := run_delete_ends_iff evens_allocator hr.of_false k
  have hfive : DeleteEnds t thirtyMap 5 := (hends 5).mpr (Or.inl (by rw [thirtyMap_eq]; decide))
  obtain ⟨stores, hdelete, hsame⟩ := hfive
  refine ⟨t, stores, hy, hdelete, ⟨stores, hdelete, hsame⟩, fun hc => ?_, ?_⟩
  · rcases (hends (-1)).mp hc with hstored | hc
    · rw [thirtyMap_eq] at hstored
      exact hstored (by decide)
    · exact hlast hc
  · rw [run_delete_ends_iff evens_allocator (hr.of_false.delete rfl hdelete), Function.update_self]
    exact or_iff_right (not_not.mpr rfl)

/-- Deleting -1 from a tree with the keys 0 to 29 does not end. -/
theorem delete_absent_never_ends : ∃ t,
    Yields (fun fuel => insertAll evens fuel (Btree.new evens) (pairsFrom 0 30)) t ∧
      Yields (fun fuel => Btree.btreeSearch fuel t (-1)) NULL ∧
      ∀ fuel, Btree.btreeDelete fuel t (-1) = none := by
  obtain ⟨t, hy, hr, _⟩ := thirty_run
  obtain ⟨G, hG⟩ := hr.settled evens_allocator
  have hnone : thirtyMap (-1) = none := by rw [thirtyMap_eq]; decide
  refine ⟨t, hy, ?_, fun fuel => AtRest.delete_diverges evens_allocator hG.closed ?_
    (Settled.thirty_leaves hG (by decide)) fuel hG.rest⟩
  · have := hG.rest.readable.search_map evens_allocator hG.contents hr.value_ne_page (-1)
    rwa [hnone] at this
  · rintro e he hk
    have := (hG.contents e.key e.ptr).mp he
    rw [hk, hnone] at this
    cases this

/-! ### Runs on one leaf -/

variable {p : Page}

theorem Run.single_insert (hal : Allocator alloc) (h : Run alloc true (Btree.single alloc p) m)
    (hp : p.Alone) (hroom : p.count < cardinality - 1) {k : ℤ} {v : ℕ}
    (hi : Insertable alloc m k v) :
    Run alloc true (Btree.single alloc (p.afterInsert k v)) (Function.update m k (some v)) := by
  have hrun := h.insert hi (FastFair.single_insert hal hp hroom k v)
  rw [Btree.run_single] at hrun
  exact hrun

theorem Run.single_delete (hal : Allocator alloc) (h : Run alloc true (Btree.single alloc p) m)
    (hp : p.Alone) {k : ℤ} (hs : p.search k ≠ NULL)
    (hr : (p.removeKey k).2 = true) :
    Run alloc true (Btree.single alloc (p.afterRemove k)) (Function.update m k none) := by
  have hrun := h.delete rfl (FastFair.single_delete hal hp k hs hr)
  rw [Btree.run_single] at hrun
  exact hrun

end

end PmemStudy.FastFair
