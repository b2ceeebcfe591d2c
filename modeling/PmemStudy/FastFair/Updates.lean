import PmemStudy.FastFair.StrayRecords

/-!
# Updates through the index interface

`Update` casts the addresses of its two parameters and inserts that pair. In a tree that was
filled by insertions of new keys with new values, such a stray pair never changes the value
that is found for the key.
-/

namespace PmemStudy.FastFair
open PmemStudy.Slots PmemStudy.Chain PmemStudy.Loop

namespace Wrap

/-- `fast_fair::Update`: `bt->btree_insert((entry_key_t)&key, (char *)&value)`. The parameters
are only used for their addresses. -/
def update (alloc : ℕ → ℕ) (fuel : ℕ) (t : Btree) (_key _value keyAddr valueAddr : BitVec 64) :
    Option (List TreeStore) := Btree.btreeInsert alloc fuel t keyAddr.toInt valueAddr.toNat

end Wrap

/-- The right neighbour of the leaf that will hold the key. -/
def Btree.rightOf (alloc : ℕ → ℕ) (t : Btree) (p : Page) (key : ℤ) : ℕ :=
  if p.count < cardinality - 1 ∨ (p.records 14).key ≤ key then p.siblingPtr
  else alloc t.allocated

section
variable {alloc : ℕ → ℕ} {t : Btree} {G G' : Outline} {a : ℕ} {e : Entry}

/-- The half of a full leaf that takes the entry. -/
theorem halve_right {A B : List (Cell ℤ ℕ)} {lo : WithBot ℤ} {p : Page}
    (hl : Linked alloc t G) (hp : t.pages a = some p) (hT : Target G 0 A lo a B e)
    (hlen : (G.entries a).length = 29)
    (hc : G'.chain 0 = A ++ (lo, a) :: (↑(p.records 14).key, alloc t.allocated) :: B) :
    ∃ A lo b B, G'.chain 0 = A ++ (lo, b) :: B ∧ AtHome (G'.chain 0) e.key b ∧
      nextAddress B = t.rightOf alloc p e.key := by
  have hcard := cardinality_eq
  obtain ⟨q, hq, hpl, hstands⟩ := hl.page hT.level hT.chain
  rw [hp] at hq
  obtain rfl := Option.some.inj hq
  have hB := (hT.leaf rfl).1
  by_cases hk : e.key < (p.records 14).key
  · refine ⟨A, lo, a, _, hc, ⟨A, lo, _, hc, hT.low, ?_⟩, ?_⟩
    · intro z hz
      rcases List.mem_cons.mp hz with rfl | hz
      · exact WithBot.coe_lt_coe.mpr hk
      · exact hB z hz
    · rw [Btree.rightOf, hstands.count, if_neg]
      · rfl
      · rw [not_or, not_le]
        exact ⟨by omega, hk⟩
  · have hc' : G'.chain 0 = (A ++ [(lo, a)]) ++ (↑(p.records 14).key, alloc t.allocated) :: B := by
      rw [hc]
      simp
    refine ⟨_, _, _, B, hc', ⟨_, _, B, hc', WithBot.coe_le_coe.mpr (not_lt.mp hk), hB⟩, ?_⟩
    rw [Btree.rightOf, if_pos (.inr (not_lt.mp hk))]
    exact hpl.siblingPtr.symm

/-- The leaf of the entry after it was stored. -/
theorem StoredAs.right_eq {o : Btree.Outcome} {G1 : Outline} {t' : Btree} {p : Page}
    (h : StoredAs alloc t G 0 a e o G1) (hl : Linked alloc t G) (hsame : SameLeaves G1 G')
    (hl' : Linked alloc t' G') (hp : t.pages a = some p) :
    ∃ A lo b B, G'.chain 0 = A ++ (lo, b) :: B ∧ AtHome (G'.chain 0) e.key b ∧
      nextAddress B = t.rightOf alloc p e.key := by
  have hcard := cardinality_eq
  cases h with
  | put c ret hputs =>
    obtain ⟨A, lo, B, hc, hlo, hB⟩ := hputs.leaf rfl
    obtain ⟨q, hq, hpl, hstands⟩ := hl.page hl.woven.pos hc
    rw [hp] at hq
    obtain rfl := Option.some.inj hq
    have hlen := hl'.put_room hsame hc hputs.spot.le
    have hc' : G'.chain 0 = A ++ (lo, a) :: B := hsame.chain.trans hc
    refine ⟨A, lo, a, B, hc', ⟨A, lo, B, hc', hlo, hB⟩, ?_⟩
    rw [Btree.rightOf, hstands.count, if_pos (.inl (by omega))]
    exact hpl.siblingPtr.symm
  | split A B lo q c ret hq hT hlen hs =>
    rw [hp] at hq
    obtain rfl := Option.some.inj hq
    exact halve_right hl hp hT hlen (hsame.chain.trans hs.cuts.chain_cut)
  | grow A B lo q c ret hq hT hlen hs hspot ht =>
    rw [hp] at hq
    obtain rfl := Option.some.inj hq
    exact halve_right hl hp hT hlen
      ((hsame.chain.trans (ht.sameLeaves hl.woven.pos).chain).trans hs.cuts.chain_cut)

/-! ### Trees with distinct values -/

/-- A tree that was filled by insertions only, with the pairs of the map. -/
structure Known (alloc : ℕ → ℕ) (t : Btree) (m : ℤ → Option ℕ) (G : Outline) : Prop where
  linked : Linked alloc t G
  contents : ∀ k v, (⟨k, v⟩ : Entry) ∈ G.contents ↔ m k = some v
  keys : (G.contents.map (·.key)).Nodup
  ptrs : (G.contents.map (·.ptr)).Nodup
  value : ∀ d ∈ G.contents, d.ptr ≠ NULL ∧ ∀ i, d.ptr ≠ alloc i

section
variable {m : ℤ → Option ℕ} {k : ℤ} {b v w : ℕ}

theorem Known.live (hG : Known alloc t m G) {x : Cell ℤ ℕ} (hx : x ∈ G.chain 0) :
    ∀ d ∈ G.entries x.2, d.ptr ≠ NULL := fun _ hd => (hG.value _ (mem_contents hx hd)).1

theorem Known.increasing (hG : Known alloc t m G) {x : Cell ℤ ℕ} (hx : x ∈ G.chain 0) :
    Increasing (G.entries x.2) := hG.linked.woven.leaf_increasing hG.keys hx

theorem Known.distinct (hG : Known alloc t m G) {x : Cell ℤ ℕ} (hx : x ∈ G.chain 0) :
    Distinct NULL (G.entries x.2) := by
  obtain ⟨A, B, hAB⟩ := List.append_of_mem hx
  have hsub : (G.entries x.2).Sublist G.contents := Outline.entries_sublist hAB
  refine distinct_of_nodup_cons (List.nodup_cons.mpr ⟨?_, hG.ptrs.sublist (hsub.map (·.ptr))⟩)
  intro hmem
  obtain ⟨d, hd, h0⟩ := List.mem_map.mp hmem
  exact hG.live hx d hd h0

/-- A stored pair is in the leaf of its key. -/
theorem Known.mem_leaf (hG : Known alloc t m G) (hb : AtHome (G.chain 0) k b) :
    (⟨k, v⟩ : Entry) ∈ G.entries b ↔ m k = some v := by
  rw [← hG.contents]
  constructor
  · intro hmem
    obtain ⟨x, hx, rfl⟩ := List.mem_map.mp hb.mem
    exact mem_contents hx hmem
  · intro hmem
    obtain ⟨x, hx, he⟩ := List.mem_flatMap.mp hmem
    obtain rfl := hb.unique hG.linked.woven.leaf_sorted (hG.linked.woven.entry_home hx he)
    exact he

theorem Known.absent_leaf (hG : Known alloc t m G) (hb : AtHome (G.chain 0) k b)
    (hm : m k = none) : ∀ d ∈ G.entries b, d.key ≠ k := by
  rintro ⟨k', v⟩ hd rfl
  rw [hG.mem_leaf hb, hm] at hd
  cases hd

theorem Known.read_eq (hG : Known alloc t m G) (hb : AtHome (G.chain 0) k b) :
    read (G.entries b) k = (m k).getD NULL := by
  cases hm : m k with
  | none => exact read_of_absent (hG.absent_leaf hb hm)
  | some v =>
    have hmem := (hG.mem_leaf hb).mpr hm
    obtain ⟨x, hx, rfl⟩ := List.mem_map.mp hb.mem
    exact read_live (d := ⟨k, v⟩) (hG.increasing hx) (hG.distinct hx) (hG.live hx) hmem

theorem Known.insert (hG : Known alloc t m G) (hal : Allocator alloc)
    (hi : Insertable alloc m k v) {stores : List TreeStore}
    (hy : Yields (fun fuel => Btree.btreeInsert alloc fuel t k v) stores) :
    ∃ G', Known alloc (t.run stores) (Function.update m k (some v)) G' := by
  have hnew : ∀ d ∈ G.contents, d.key ≠ k := by
    rintro ⟨k', w⟩ hd rfl
    have := (hG.contents k' w).mp hd
    rw [hi.absent] at this
    cases this
  obtain ⟨stores', _, _, hy', ⟨G', hlinked, hperm⟩, _⟩ :=
    hG.linked.insert_undisturbed (e := ⟨k, v⟩) hal hG.keys (fun d hd => (hG.value d hd).2)
      hi.key.2 hi.page hnew
  obtain rfl := hy'.unique hy
  refine ⟨G', hlinked, ?_, ?_, ?_, ?_⟩
  · intro k' v'
    rw [hperm.mem_iff, List.mem_cons, hG.contents, Function.update_apply]
    by_cases hk : k' = k
    · rw [if_pos hk, hk, hi.absent]
      simp [eq_comm]
    · rw [if_neg hk]
      simp [hk]
  · rw [(hperm.map (·.key)).nodup_iff, List.map_cons, List.nodup_cons]
    refine ⟨fun hmem => ?_, hG.keys⟩
    obtain ⟨d, hd, hdk⟩ := List.mem_map.mp hmem
    exact hnew d hd hdk
  · rw [(hperm.map (·.ptr)).nodup_iff, List.map_cons, List.nodup_cons]
    refine ⟨fun hmem => ?_, hG.ptrs⟩
    obtain ⟨⟨k', w⟩, hd, rfl⟩ := List.mem_map.mp hmem
    exact hi.fresh k' ((hG.contents k' w).mp hd)
  · intro d hd
    rcases List.mem_cons.mp (hperm.mem_iff.mp hd) with rfl | hd
    · exact ⟨hi.ne_null, hi.page⟩
    · exact hG.value d hd

theorem Run.known {deletes : Bool} (hal : Allocator alloc) (h : Run alloc deletes t m)
    (hdel : deletes = false) : ∃ G, Known alloc t m G := by
  induction h with
  | new =>
    have hnil : (Outline.new alloc).contents = [] := rfl
    refine ⟨_, .new alloc, ?_, ?_, ?_, ?_⟩
    · intro k v
      rw [hnil]
      simp
    · rw [hnil]
      exact List.nodup_nil
    · rw [hnil]
      exact List.nodup_nil
    · rw [hnil]
      exact fun d hd => absurd hd List.not_mem_nil
  | insert _ hi hy ih =>
    obtain ⟨G, hG⟩ := ih
    exact hG.insert hal hi hy
  | delete _ hd =>
    rw [hdel] at hd
    cases hd

/-- The walk for a stored key ends at its leaf: a tree without pending separators leads there,
and the records of the page tell that it is the leaf of the key. -/
theorem Known.findLeaf_stored (hG : Known alloc t m G) (hal : Allocator alloc)
    (h : Run alloc false t m) (hk : m k = some w) (a : ℕ)
    (ha : Yields (fun fuel => t.findLeaf k fuel t.root) a) : AtHome (G.chain 0) k a := by
  obtain ⟨S, hS⟩ := h.settled hal
  obtain ⟨a', ha', hhome⟩ := hS.rest.findLeaf_home hal hS.closed k
  obtain rfl := ha.unique ha'
  have hmem := hS.rest.entries_home hhome ((hS.contents k w).mpr hk)
  obtain ⟨A, lo, B, hc, _⟩ := hhome
  obtain ⟨p, hp, _, hrests⟩ := hS.rest.follows.page 0 hS.rest.outline.pos A lo a B hc
  obtain ⟨a', ha', hland⟩ := hG.linked.findLeaf_lands hal k
  obtain rfl := ha.unique ha'
  obtain ⟨A', lo', B', hc', _⟩ := hland.split
  obtain ⟨q, hq, _, hstands⟩ := hG.linked.page hG.linked.woven.pos hc'
  rw [hp] at hq
  obtain rfl := Option.some.inj hq
  have hlen : (S.entries a).length = (G.entries a).length :=
    hrests.count_eq.symm.trans hstands.count
  have hsame : S.entries a = G.entries a := by
    refine List.ext_getElem hlen fun i hi hi' => ?_
    rw [← hrests.record i hi, hstands.record i hi']
  rw [hsame] at hmem
  exact hG.linked.woven.entry_home (x := (lo', a)) (by rw [hc']; simp) hmem

/-! ### Any pair is inserted -/

/-- The tree `t` after `e` was put into the leaf `p` at `a`. -/
structure Strayed (alloc : ℕ → ℕ) (t : Btree) (G : Outline) (e : Entry) (a : ℕ) (p : Page)
    (part : ℤ → List Entry) (t' : Btree) (G' : Outline) : Prop where
  filled : Filled p (G.entries a)
  home : AtHome (G.chain 0) e.key a
  parted : Parted p (G.entries a) e part
  reads : Reads G G' a part
  linked : Linked alloc t' G'
  right : ∃ A lo b B, G'.chain 0 = A ++ (lo, b) :: B ∧ AtHome (G'.chain 0) e.key b ∧
    nextAddress B = t.rightOf alloc p e.key

theorem Known.insert_any (hG : Known alloc t m G) (hal : Allocator alloc)
    (h : Run alloc false t m) (hk : e.key ≤ longMax) :
    ∃ stores a p part G', Yields (fun fuel => Btree.btreeInsert alloc fuel t e.key e.ptr) stores ∧
      Yields (t.leafOf e.key) a ∧ t.pages a = some p ∧
      Strayed alloc t G e a p part (t.run stores) G' := by
  have hinc : ∀ x ∈ G.chain 0, Increasing (G.entries x.2) := fun x hx => hG.increasing hx
  have hleaf : (∀ a, Yields (fun fuel => t.findLeaf e.key fuel t.root) a →
      AtHome (G.chain 0) e.key a) ∨ ∀ d ∈ G.contents, d.key ≠ e.key := by
    cases hm : m e.key with
    | some w => exact .inl (hG.findLeaf_stored hal h hm)
    | none =>
      refine .inr ?_
      rintro ⟨k', w⟩ hd hkey
      have := (hG.contents k' w).mp hd
      rw [show k' = e.key from hkey, hm] at this
      cases this
  obtain ⟨stores, hy, a, o, G1, G', hstored, hsame, hlinked⟩ :=
    hG.linked.insert_yields hal hk hinc hleaf
  obtain ⟨hhome, p, part, hp, hpart, hreads⟩ := hstored.parted hG.linked hsame hlinked
  obtain ⟨b, hb, hhome'⟩ := hG.linked.leafOf_yields hal hk hinc hleaf
  obtain rfl := hhome.unique hG.linked.woven.leaf_sorted hhome'
  obtain ⟨A, lo, B, hc, _⟩ := id hhome
  obtain ⟨q, hq, _, hstands⟩ := hG.linked.page hG.linked.woven.pos hc
  rw [hp] at hq
  obtain rfl := Option.some.inj hq
  exact ⟨stores, a, p, part, G', hy, hb, hp, hstands.toFilled, hhome, hpart, hreads, hlinked,
    hstored.right_eq hG.linked hsame hlinked hp⟩

section
variable {p : Page} {part : ℤ → List Entry} {t' : Btree}

/-- A stored key answers as before or not at all. -/
theorem Strayed.stored_answer (hS : Strayed alloc t G e a p part t' G') (hG : Known alloc t m G)
    (hm : m k = some w) (hb : AtHome (G.chain 0) k a) :
    read (part k) k = w ∨ read (part k) k = NULL := by
  have hmem := (hG.mem_leaf hb).mpr hm
  by_cases hkey : k = e.key
  · obtain ⟨x, hx, rfl⟩ := List.mem_map.mp hb.mem
    exact .inl (hS.parted.read_old (d := ⟨k, w⟩) hS.filled (hG.increasing hx) (hG.distinct hx)
      (hG.live hx) hmem hkey)
  · refine or_iff_not_imp_right.mpr fun hne => ?_
    rcases hS.parted.subset (read_mem hne) with heq | hold
    · exact absurd (congrArg Entry.key heq) hkey
    · have := (hG.mem_leaf hb).mp hold
      rw [hm] at this
      exact (Option.some.inj this).symm

theorem Strayed.absent_answer (hS : Strayed alloc t G e a p part t' G') (hG : Known alloc t m G)
    (hm : m k = none) (hkey : k ≠ e.key) (hb : AtHome (G.chain 0) k a) :
    read (part k) k = NULL := by
  refine read_of_absent fun d hd hdk => ?_
  rcases hS.parted.subset hd with rfl | hold
  · exact hkey hdk.symm
  · exact hG.absent_leaf hb hm d hold hdk

/-- The search for a key that was stored, or that is not the stray one. -/
theorem Strayed.search (hS : Strayed alloc t G e a p part t' G') (hG : Known alloc t m G)
    (hal : Allocator alloc) (hk : m k = none → k ≠ e.key) :
    ∃ b, AtHome (G.chain 0) k b ∧ Yields (fun fuel => Btree.btreeSearch fuel t' k)
      (if b = a then read (part k) k else (m k).getD NULL) := by
  obtain ⟨_, _, b, _, _, hb, _⟩ := hG.linked.search_home hal k
  obtain ⟨b', hb', hy⟩ := hS.linked.search_yields_read hal k
  obtain ⟨c, hc, hent⟩ := hS.reads k b hb
  obtain rfl := hb'.unique hS.linked.woven.leaf_sorted hc
  rw [hent] at hy
  have hold : ∀ i, (m k).getD NULL ≠ alloc i := by
    intro i
    cases hm : m k with
    | none => exact (hal.ne_null i).symm
    | some w => exact (hG.value _ ((hG.contents k w).mpr hm)).2 i
  refine ⟨b, hb, ?_⟩
  by_cases hba : b = a
  · subst b
    rw [if_pos rfl] at hy ⊢
    refine hy fun i => ?_
    cases hm : m k with
    | none =>
      rw [hS.absent_answer hG hm (hk hm) hb]
      exact (hal.ne_null i).symm
    | some w =>
      rcases hS.stored_answer hG hm hb with hr | hr
      · have := hold i
        rwa [hr, ← show (m k).getD NULL = w by rw [hm]; rfl]
      · rw [hr]
        exact (hal.ne_null i).symm
  · rw [if_neg hba, hG.read_eq hb] at hy
    rw [if_neg hba]
    exact hy hold

/-- The search for the stray key when it is new. -/
theorem Strayed.search_own (hS : Strayed alloc t G e a p part t' G') (hal : Allocator alloc) :
    Yields (fun fuel => Btree.btreeSearch fuel t' e.key)
      (if read (part e.key) e.key = t.rightOf alloc p e.key then NULL
        else read (part e.key) e.key) := by
  obtain ⟨A, lo, b, B, hc, hb, hy⟩ := hS.linked.search_home hal e.key
  obtain ⟨A', lo', b', B', hc', hb', hright⟩ := hS.right
  obtain ⟨c, hc0, hent⟩ := hS.reads e.key a hS.home
  have hsorted := hS.linked.woven.leaf_sorted
  obtain rfl := hb.unique hsorted hb'
  obtain rfl := hb.unique hsorted hc0
  obtain ⟨_, _, rfl⟩ := hS.linked.woven.apart.split_unique hS.linked.woven.pos hc hc'
  rwa [hent, if_pos rfl, hright] at hy

theorem Strayed.stored_result (hS : Strayed alloc t G e a p part t' G') (hG : Known alloc t m G)
    (hal : Allocator alloc) (hm : m k = some w) {r : ℕ}
    (hr : Yields (fun fuel => Btree.btreeSearch fuel t' k) r) : r = w ∨ r = NULL := by
  obtain ⟨b, hb, hy⟩ := hS.search hG hal (k := k) (fun h => by rw [hm] at h; cases h)
  obtain rfl := hr.unique hy
  by_cases hba : b = a
  · subst b
    rw [if_pos rfl]
    exact hS.stored_answer hG hm hb
  · rw [if_neg hba, hm]
    exact .inl rfl

/-- The stray pair is not seen exactly if every search answers as before. -/
theorem Strayed.unseen_iff (hS : Strayed alloc t G e a p part t' G') (hG : Known alloc t m G) :
    p.Unseen e.key e.ptr (t.rightOf alloc p e.key) ↔
      (∀ d ∈ G.entries a, read (part d.key) d.key = d.ptr) ∧
        (m e.key = none → read (part e.key) e.key = NULL ∨
          read (part e.key) e.key = t.rightOf alloc p e.key) := by
  have habsent : (∀ d ∈ G.entries a, d.key ≠ e.key) ↔ m e.key = none := by
    constructor
    · intro h
      refine Option.eq_none_iff_forall_ne_some.mpr fun w hw => ?_
      exact h _ ((hG.mem_leaf hS.home).mpr hw) rfl
    · exact hG.absent_leaf hS.home
  obtain ⟨x, hx, rfl⟩ := List.mem_map.mp hS.home.mem
  rw [hS.parted.unseen_iff hS.filled (hG.increasing hx) (hG.distinct hx) (hG.live hx), habsent]

theorem Strayed.search_of_unseen (hS : Strayed alloc t G e a p part t' G')
    (hG : Known alloc t m G) (hal : Allocator alloc)
    (hu : p.Unseen e.key e.ptr (t.rightOf alloc p e.key)) (k : ℤ) :
    Yields (fun fuel => Btree.btreeSearch fuel t' k) ((m k).getD NULL) := by
  obtain ⟨hold, hown⟩ := (hS.unseen_iff hG).mp hu
  by_cases hk : m k = none → k ≠ e.key
  · obtain ⟨b, hb, hy⟩ := hS.search hG hal hk
    by_cases hba : b = a
    · subst b
      rw [if_pos rfl] at hy
      cases hm : m k with
      | none => rwa [hS.absent_answer hG hm (hk hm) hb] at hy
      | some w => rwa [hold _ ((hG.mem_leaf hb).mpr hm)] at hy
    · rwa [if_neg hba] at hy
  · obtain ⟨hm, hkey⟩ := Classical.not_imp.mp hk
    obtain rfl := not_not.mp hkey
    have hy := hS.search_own hal
    rw [hm]
    rcases hown hm with h0 | h0
    · rwa [h0, ite_self] at hy
    · rwa [if_pos h0] at hy

theorem Strayed.unseen_of_search (hS : Strayed alloc t G e a p part t' G')
    (hG : Known alloc t m G) (hal : Allocator alloc)
    (hstored : ∀ k w, m k = some w → Yields (fun fuel => Btree.btreeSearch fuel t' k) w)
    (hown : m e.key = none → Yields (fun fuel => Btree.btreeSearch fuel t' e.key) NULL) :
    p.Unseen e.key e.ptr (t.rightOf alloc p e.key) := by
  refine (hS.unseen_iff hG).mpr ⟨?_, fun hm => ?_⟩
  · rintro ⟨k, w⟩ hd
    obtain ⟨x, hx, rfl⟩ := List.mem_map.mp hS.home.mem
    have hb' := hG.linked.woven.entry_home hx hd
    have hm := (hG.mem_leaf hb').mp hd
    obtain ⟨b, hb, hy⟩ := hS.search hG hal (k := k) (fun h => by rw [hm] at h; cases h)
    obtain rfl := hb.unique hG.linked.woven.leaf_sorted hb'
    rw [if_pos rfl] at hy
    exact hy.unique (hstored k w hm)
  · have hy := (hS.search_own hal).unique (hown hm)
    split at hy
    · next heq => exact .inr heq
    · exact .inl hy

end

theorem Run.isKey {deletes : Bool} (h : Run alloc deletes t m) (hk : m k ≠ none) : IsKey k := by
  induction h with
  | new => exact absurd rfl hk
  | insert _ hi _ ih =>
    rw [Function.update_apply] at hk
    split at hk
    · next heq => exact heq ▸ hi.key
    · exact ih hk
  | delete _ _ _ ih =>
    rw [Function.update_apply] at hk
    split at hk
    · exact absurd rfl hk
    · exact ih hk

theorem toInt_ofInt_of_isKey (h : IsKey k) : (BitVec.ofInt 64 k).toInt = k := by
  obtain ⟨h1, h2⟩ := h
  unfold longMax at h1 h2
  rw [BitVec.toInt_ofInt]
  exact Int.bmod_eq_of_le (by omega) (by omega)

end

end

/-- What an update of `k` should make of the tree with the pairs of the map. -/
structure Updated (m : ℤ → Option ℕ) (t' : Btree) (k v : BitVec 64) : Prop where
  value : Yields (fun fuel => Wrap.get fuel t' k) v.toNat
  others : ∀ k', k' ≠ k → ∀ w, m k'.toInt = some w → Yields (fun fuel => Wrap.get fuel t' k') w
  absent : ∀ k', m k'.toInt = none → Yields (fun fuel => Wrap.get fuel t' k') NULL

/-- An update does what it should exactly when the key has the value already and no search
sees the stray pair. -/
theorem run_update_iff {alloc : ℕ → ℕ} {t : Btree} {m : ℤ → Option ℕ} (hal : Allocator alloc)
    (h : Run alloc false t m) {k v : BitVec 64} (hk : m k.toInt ≠ none) (hv : v ≠ 0)
    (keyAddr valueAddr : BitVec 64) :
    ∃ stores a p,
      Yields (fun fuel => Wrap.update alloc fuel t k v keyAddr valueAddr) stores ∧
      Yields (t.leafOf keyAddr.toInt) a ∧ t.pages a = some p ∧
      (Updated m (t.run stores) k v ↔ m k.toInt = some v.toNat ∧
        p.Unseen keyAddr.toInt valueAddr.toNat (t.rightOf alloc p keyAddr.toInt)) := by
  obtain ⟨G, hG⟩ := h.known hal rfl
  obtain ⟨stores, a, p, part, G', hy, ha, hp, hS⟩ :=
    hG.insert_any (e := ⟨keyAddr.toInt, valueAddr.toNat⟩) hal h (toInt_le_longMax keyAddr)
  refine ⟨stores, a, p, hy, ha, hp, ?_⟩
  constructor
  · intro hu
    obtain ⟨w, hw⟩ := Option.ne_none_iff_exists'.mp hk
    have hsame : m k.toInt = some v.toNat := by
      rcases hS.stored_result hG hal hw hu.value with heq | h0
      · rw [hw, heq]
      · exact absurd (BitVec.eq_of_toNat_eq h0) hv
    refine ⟨hsame, hS.unseen_of_search hG hal ?_ (hu.absent keyAddr)⟩
    intro κ w' hm
    have hκ := toInt_ofInt_of_isKey (h.isKey (k := κ) (by rw [hm]; simp))
    by_cases heq : BitVec.ofInt 64 κ = k
    · rw [heq] at hκ
      rw [← hκ, hsame] at hm
      rw [← hκ, ← Option.some.inj hm]
      exact hu.value
    · have := hu.others _ heq w' (by rwa [hκ])
      simpa only [Wrap.get, hκ] using this
  · rintro ⟨hsame, hunseen⟩
    have hall := hS.search_of_unseen hG hal hunseen
    refine ⟨?_, ?_, ?_⟩
    · have := hall k.toInt
      rwa [hsame] at this
    · intro k' _ w hw
      have := hall k'.toInt
      rwa [hw] at this
    · intro k' hm
      have := hall k'.toInt
      rwa [hm] at this

/-- The pairs 3 -> 11 and 7 -> 13. -/
def threeAndSevenMap : ℤ → Option ℕ :=
  Function.update (Function.update (fun _ => none) 3 (some 11)) 7 (some 13)

theorem threeAndSeven_run : Run evens false (Btree.single evens threeAndSeven) threeAndSevenMap := by
  have h1 : Run evens false _ (Function.update (fun _ => none) 3 (some 11)) :=
    .insert (k := 3) (v := 11) .new
      (insertable_evens (by unfold IsKey; decide) rfl (fun _ => by simp) rfl)
      (single_insert evens_allocator (p := Page.new 0) ⟨rfl, rfl, rfl⟩ (by decide) 3 11)
  have hroom : ((Page.new 0).afterInsert 3 11).Alone :=
    ⟨by decide +kernel, by decide +kernel, by decide +kernel⟩
  have h2 : Run evens false _ threeAndSevenMap :=
    .insert (k := 7) (v := 13) h1
      (insertable_evens (by unfold IsKey; decide) rfl (fun k => by
        rw [Function.update_apply]
        split <;> simp) rfl) (by
        rw [← Btree.single_new, Btree.run_single]
        exact single_insert evens_allocator hroom (by decide +kernel) 7 13)
  rw [← Btree.single_new, Btree.run_single, Btree.run_single] at h2
  exact h2

/-- The value 11 is given to key 3 again; the stray value 13 repeats the pointer before it. -/
theorem run_update_iff_again : ∃ stores,
    Yields (fun fuel => Wrap.update evens fuel (Btree.single evens threeAndSeven) 3 11 101 13)
      stores ∧
    Updated threeAndSevenMap ((Btree.single evens threeAndSeven).run stores) 3 11 := by
  obtain ⟨stores, a, p, hy, _, hp, hiff⟩ :=
    run_update_iff (k := 3) (v := 11) evens_allocator threeAndSeven_run (by decide) (by decide) 101 13
  obtain rfl := Btree.page_single hp
  refine ⟨stores, hy, hiff.mpr ⟨by decide, ?_, fun _ => .inr (.inr ?_)⟩⟩
  · decide +kernel
  · decide +kernel

/-- `Update(3, 15)` leaves 11 for key 3. -/
theorem update_keeps_old_value : ∃ t m stores, Run evens false t m ∧
    m (3 : BitVec 64).toInt = some 11 ∧ (∀ k, m k ≠ some (15 : BitVec 64).toNat) ∧
    Yields (fun fuel => Wrap.update evens fuel t 3 15 101 103) stores ∧
    Yields (fun fuel => Wrap.get fuel (t.run stores) 3) 11 ∧ ¬ Updated m (t.run stores) 3 15 := by
  have hins := single_insert evens_allocator threeAndSeven_alone (by decide +kernel) 101 103
  have hafter : (threeAndSeven.afterInsert 101 103).Alone :=
    ⟨by decide +kernel, by decide +kernel, by decide +kernel⟩
  have hget : Yields (fun fuel => Wrap.get fuel (Btree.single evens
      (threeAndSeven.afterInsert 101 103)) 3) _ := single_search hafter 3
  rw [show (threeAndSeven.afterInsert 101 103).search 3 = 11 by decide +kernel,
    Page.afterInsert, ← Btree.run_single] at hget
  refine ⟨_, _, _, threeAndSeven_run, by decide, fun k => ?_, hins, hget, fun hu => ?_⟩
  · unfold threeAndSevenMap
    rw [Function.update_apply, Function.update_apply]
    split
    · decide
    · split <;> simp
  · exact absurd (hget.unique hu.value) (by decide)

end PmemStudy.FastFair
