import PmemStudy.FastFair.Store
import PmemStudy.FastFair.Walks

/-!
# One thread inserts

With one thread a call of `btree_insert` runs through: its sections follow one another, to the
right and then up, until a page takes the last separator. The leaves are what the section on
the leaf has made of them.
-/

namespace PmemStudy.FastFair
open PmemStudy.Slots PmemStudy.Chain PmemStudy.Loop

/-! ### store is a sequence of sections -/

namespace Btree

theorem siblingStoresOf_plain (p : Page) (num m : ℕ) :
    siblingStoresOf .plain p num m = siblingStores p num m := by
  unfold siblingStoresOf siblingStores
  rw [migrateOf_plain]

theorem splitStoresOf_plain (a sibling : ℕ) (p : Page) (num m : ℕ) :
    splitStoresOf .plain a sibling p num m = splitStores a sibling p num m := by
  unfold splitStoresOf splitStores
  rw [siblingStoresOf_plain]

/-- What `store` does after its section. -/
def afterSection (alloc : ℕ → ℕ) (fuel : ℕ) (t : Btree) (key : ℤ) (right : ℕ) (s : Section) :
    Option (List TreeStore × ℕ) :=
  match s.outcome with
  | .deleted => some (s.stores, NULL)
  | .sibling r => store alloc fuel t r key right
  | .stored ret => some (s.stores, ret)
  | .parent splitKey sibling level ret =>
    (btreeInsertInternal (store alloc fuel) fuel (t.run s.stores) splitKey sibling level).map
      fun up => (s.stores ++ up, ret)

theorem bind_beyond {τ : Type} (t : Btree) (p : Page) (key : ℤ) (f : Bool → Option τ) :
    (if p.siblingPtr ≠ NULL then
      ((t.pages p.siblingPtr).map fun s => decide ((s.records 0).key < key)).bind f
    else (some false).bind f) = (t.beyond p key).bind f := by
  unfold beyond
  split <;> rfl

theorem store_succ (alloc : ℕ → ℕ) (fuel : ℕ) (t : Btree) (a : ℕ) (key : ℤ) (right : ℕ) :
    store alloc (fuel + 1) t a key right =
      (t.storeSection .plain alloc a key right).bind (afterSection alloc fuel t key right) := by
  rw [store, storeSection]
  cases hp : t.pages a with
  | none => rfl
  | some p =>
    show (if p.isDeleted = true then _ else _) = Option.bind (if p.isDeleted = true then _ else _) _
    by_cases hd : p.isDeleted = true
    · rw [if_pos hd, if_pos hd]
      rfl
    · rw [if_neg hd, if_neg hd]
      refine (bind_beyond t p key _).trans ?_
      cases hpast : t.beyond p key with
      | none => rfl
      | some past =>
        cases past with
        | true => rfl
        | false =>
          show (if p.count < cardinality - 1 then _ else _) =
            Option.bind (if p.count < cardinality - 1 then _ else _) _
          by_cases hroom : p.count < cardinality - 1
          · rw [if_pos hroom, if_pos hroom]
            rfl
          · rw [if_neg hroom, if_neg hroom, splitStoresOf_plain]
            cases hp1 : (t.run (splitStores a (alloc t.allocated) p p.count (p.count / 2))).pages a with
            | none => rfl
            | some p1 =>
              cases hs1 : (t.run (splitStores a (alloc t.allocated) p p.count
                  (p.count / 2))).pages (alloc t.allocated) with
              | none => rfl
              | some s1 =>
                simp only [Option.bind_eq_bind, Option.bind_some, Page.insertKeyOf]
                by_cases hroot : t.root = a
                · rw [if_pos hroot, if_pos hroot]
                  rfl
                · rw [if_neg hroot, if_neg hroot]
                  simp only [Option.bind_some, afterSection, Option.map_eq_bind]
                  rfl

end Btree

section
variable {alloc : ℕ → ℕ} {t : Btree} {G G' : Outline} {l a : ℕ} {A B : List (Cell ℤ ℕ)}
  {lo : WithBot ℤ} {e : Entry} {b : Build}

/-- In a linked tree a section finds all pages it needs. -/
theorem Linked.section_runs (h : Linked alloc t G) (hal : Allocator alloc) (hl : l < G.height)
    (hc : G.chain l = A ++ (lo, a) :: B) (b : Build) (e : Entry) :
    ∃ s, t.storeSection b alloc a e.key e.ptr = some s := by
  obtain ⟨p, hp, hpl, hstands⟩ := h.page hl hc
  have hmem : ((lo, a) : Cell ℤ ℕ) ∈ G.chain l := by
    rw [hc]
    simp
  obtain ⟨past, hpast⟩ : ∃ past, t.beyond p e.key = some past := by
    unfold Btree.beyond
    rcases h.neighbour hal hl hc hp with ⟨_, h0⟩ | ⟨z, _, q, _, hsib, hz, hq, _⟩
    · exact ⟨false, if_neg (not_not.mpr h0)⟩
    · rw [hsib, if_pos hz, hq]
      exact ⟨_, rfl⟩
  unfold Btree.storeSection
  simp only [hp, hpl.live, hpast, Option.bind_eq_bind, Option.bind_some, Bool.false_eq_true, if_false]
  cases past with
  | true => exact ⟨_, rfl⟩
  | false =>
    by_cases hroom : p.count < cardinality - 1
    · exact ⟨_, by rw [if_neg Bool.false_ne_true, if_pos hroom]⟩
    · have hlen : (G.entries a).length = 29 := by
        have := hstands.fits
        rw [hstands.count, cardinality_eq] at hroom
        rw [cardinality_eq] at this
        omega
      obtain ⟨p1, s1, _, _, _, _, hp1, hs1, _⟩ := hstands.toFilled.halved (e := e) b
        (h.woven.ascending l hl _ hmem) hlen hp (h.follows.unused hal (le_refl _) l hl _ hmem)
      rw [if_neg Bool.false_ne_true, if_neg hroom, hstands.count, hlen]
      simp only [show 29 / 2 = 14 from rfl, hp1, hs1, Option.bind_some]
      split
      · exact ⟨_, rfl⟩
      · exact ⟨_, rfl⟩

/-! ### Above the leaves -/

/-- The leaves of two outlines are the same. -/
structure SameLeaves (G G' : Outline) : Prop where
  chain : G'.chain 0 = G.chain 0
  entries : ∀ x ∈ G.chain 0, G'.entries x.2 = G.entries x.2

theorem SameLeaves.refl (G : Outline) : SameLeaves G G := ⟨rfl, fun _ _ => rfl⟩

theorem SameLeaves.trans {G'' : Outline} (h : SameLeaves G G') (h' : SameLeaves G' G'') :
    SameLeaves G G'' := by
  refine ⟨h'.chain.trans h.chain, ?_⟩
  intro x hx
  rw [h'.entries x (by rw [h.chain]; exact hx)]
  exact h.entries x hx

theorem Outline.Tops.sameLeaves {r : ℕ} (ht : G.Tops r e) (hpos : 0 < G.height) :
    SameLeaves G (G.grow r e) :=
  ⟨Outline.grow_chain hpos, fun _ hx => (ht.frame hpos hx).2⟩

/-- A section above the leaves leaves them alone. -/
theorem StoredAs.sameLeaves {o : Btree.Outcome} (h : StoredAs alloc t G l a e o G') (hw : G.Woven)
    (hl : l ≠ 0) : SameLeaves G G' := by
  have hpos := hw.pos
  have hne : ∀ {d}, l < G.height → d ∈ (G.chain l).map (·.2) → ∀ x ∈ G.chain 0, x.2 ≠ d :=
    fun hlt hd x hx => hw.apart.ne_of_level hpos hlt (Ne.symm hl) hd hx
  have hhalve : ∀ {A B lo p c}, G.Severs l A lo a B (p.records 14).key (alloc t.allocated)
      (newLeftmost p) ((G.entries a).take 14) ((G.entries a).drop (cutAt p)) →
      SameLeaves G (G.halve l A lo a B p (alloc t.allocated) c e) := by
    intro A B lo p c hs
    refine ⟨hs.cuts.chain_other 0 (Ne.symm hl), ?_⟩
    intro x hx
    refine halve_other (hne hs.level ?_ x hx) (hs.fresh 0 hpos x hx)
    exact List.mem_map_of_mem hs.page
  cases h with
  | put c ret hp =>
    refine ⟨rfl, ?_⟩
    intro x hx
    refine Outline.insertEntry_other ?_
    obtain ⟨z, hz, rfl, _⟩ := hp.landing
    exact hne hp.level (List.mem_map_of_mem hz) x hx
  | split A B lo p c ret hp hT hlen hs => exact hhalve hs
  | grow A B lo p c ret hp hT hlen hs hspot ht => exact (hhalve hs).trans (ht.sameLeaves hpos)

/-! ### store and btree_insert -/

/-- One section stores the entry in level `l`; what comes after it leaves the leaves alone. -/
def Inserted (alloc : ℕ → ℕ) (t : Btree) (G : Outline) (l : ℕ) (e : Entry)
    (stores : List TreeStore) : Prop :=
  ∃ (a : ℕ) (o : Btree.Outcome) (G1 G' : Outline), StoredAs alloc t G l a e o G1 ∧
    SameLeaves G1 G' ∧ Linked alloc (t.run stores) G'

/-- A section returns a page. -/
theorem Linked.section_ret (h : Linked alloc t G) (hal : Allocator alloc) (hl : l < G.height)
    (hc : G.chain l = A ++ (lo, a) :: B) {s : Btree.Section}
    (hs : t.storeSection b alloc a e.key e.ptr = some s) :
    (∀ ret, s.outcome = .stored ret → ret ≠ NULL) ∧
      ∀ k r u ret, s.outcome = .parent k r u ret → ret ≠ NULL := by
  obtain ⟨p, hp, _, hstands⟩ := h.page hl hc
  have hmem : ((lo, a) : Cell ℤ ℕ) ∈ G.chain l := by
    rw [hc]
    simp
  have ha : a ≠ NULL := h.follows.ne_null hal hl hmem
  have hhalf : (if e.key < (p.records 14).key then a else alloc t.allocated) ≠ NULL := by
    split
    · exact ha
    · exact hal.ne_null _
  obtain ⟨hcase, _⟩ := storeSection_cases b hp hstands.toFilled (h.woven.ascending l hl _ hmem)
    (h.follows.unused hal (le_refl _) l hl _ hmem) hs
  cases hcase with
  | deleted _ hs => exact ⟨by simp [hs], by simp [hs]⟩
  | moveOn _ _ _ _ hs => exact ⟨by simp [hs], by simp [hs]⟩
  | room _ _ _ _ _ _ _ hs => exact ⟨by simpa [hs] using ha, by simp [hs]⟩
  | split _ _ _ _ _ _ _ _ hs =>
    refine ⟨by simp [hs], ?_⟩
    intro k r u ret ho
    rw [hs] at ho
    obtain ⟨_, _, _, rfl⟩ := Btree.Outcome.parent.inj ho
    exact hhalf
  | grow _ _ _ _ _ _ _ _ hs =>
    refine ⟨?_, by simp [hs]⟩
    intro ret ho
    rw [hs] at ho
    exact Btree.Outcome.stored.inj ho ▸ hhalf

theorem StoredAs.parent_height {k : ℤ} {r u ret : ℕ}
    (h : StoredAs alloc t G l a e (.parent k r u ret) G') : G'.height = G.height := by
  cases h
  rfl

/-- `store` is done after the section that stores the entry, or after the call that puts the
separator one level higher. -/
theorem Linked.store_section (h : Linked alloc t G) (hal : Allocator alloc) (hl : l < G.height)
    (hc : G.chain l = A ++ (lo, a) :: B) {s : Btree.Section}
    (hs : t.storeSection .plain alloc a e.key e.ptr = some s)
    (hstored : StoredAs alloc t G l a e s.outcome G') (hlinked : Linked alloc (t.run s.stores) G')
    (hup : ∀ k r u ret, s.outcome = .parent k r u ret → ∃ up G'',
      Yields (fun fuel => Btree.btreeInsertInternal (Btree.store alloc fuel) fuel (t.run s.stores)
        k r u) up ∧ SameLeaves G' G'' ∧ Linked alloc ((t.run s.stores).run up) G'') :
    ∃ stores ret, Yields (fun fuel => Btree.store alloc fuel t a e.key e.ptr) (stores, ret) ∧
      ret ≠ NULL ∧ Inserted alloc t G l e stores := by
  obtain ⟨hret, hret'⟩ := h.section_ret hal hl hc hs
  have hstep : ∀ fuel, Btree.store alloc (fuel + 1) t a e.key e.ptr =
      Btree.afterSection alloc fuel t e.key e.ptr s := by
    intro fuel
    rw [Btree.store_succ, hs]
    rfl
  cases ho : s.outcome with
  | deleted =>
    rw [ho] at hstored
    cases hstored
  | sibling r =>
    rw [ho] at hstored
    cases hstored
  | stored ret =>
    refine ⟨s.stores, ret, Yields.step (.const fun _ => rfl) ?_, hret ret ho,
      a, s.outcome, G', G', hstored, .refl G', hlinked⟩
    intro fuel
    rw [hstep, Btree.afterSection, ho]
  | parent k r u ret =>
    obtain ⟨up, G'', hy, hsame, hlinked'⟩ := hup k r u ret ho
    refine ⟨s.stores ++ up, ret, (hy.map fun up => (s.stores ++ up, ret)).step ?_, hret' k r u ret ho,
      a, s.outcome, G', G'', hstored, hsame, ?_⟩
    · intro fuel
      rw [hstep, Btree.afterSection, ho]
    · rw [Btree.run_append]
      exact hlinked'

/-- `store` goes along the level to the page that takes the entry. -/
theorem Linked.store_along (h : Linked alloc t G) (hal : Allocator alloc)
    (hc : G.chain l = A ++ (lo, a) :: B) (ha : Arrival G l a e)
    (hinc : l = 0 → ∀ x ∈ G.chain 0, Increasing (G.entries x.2)) {P : List TreeStore → ℕ → Prop}
    (hstep : ∀ a s G', Landing (G.chain l) e.key a →
      t.storeSection .plain alloc a e.key e.ptr = some s →
      StoredAs alloc t G l a e s.outcome G' → Linked alloc (t.run s.stores) G' →
      ∃ stores ret, Yields (fun fuel => Btree.store alloc fuel t a e.key e.ptr) (stores, ret) ∧
        P stores ret) :
    ∃ stores ret, Yields (fun fuel => Btree.store alloc fuel t a e.key e.ptr) (stores, ret) ∧
      P stores ret := by
  induction B generalizing A lo a with
  | nil =>
    obtain ⟨s, hs⟩ := h.section_runs hal ha.level hc .plain e
    rcases h.section hal ha hs with ⟨A', lo', z, B', hc', _⟩ | ⟨G', hstored, hlinked⟩
    · obtain ⟨_, _, hB⟩ := h.woven.apart.split_unique ha.level hc hc'
      cases hB
    · exact hstep a s G' ha.landing hs hstored hlinked
  | cons z B ih =>
    obtain ⟨s, hs⟩ := h.section_runs hal ha.level hc .plain e
    rcases h.section hal ha hs with ⟨A', lo', z', B', hc', hz, rfl⟩ | ⟨G', hstored, hlinked⟩
    · obtain ⟨rfl, rfl, hB⟩ := h.woven.apart.split_unique ha.level hc hc'
      obtain ⟨rfl, rfl⟩ := List.cons.inj hB
      have hzc : G.chain l = (A ++ [(lo, a)]) ++ (z.1, z.2) :: B := by
        rw [hc]
        simp
      have hmem : z ∈ G.chain l := by
        rw [hc]
        simp
      have ha' : Arrival G l z.2 e := by
        refine ⟨ha.level, ⟨z, hmem, rfl, hz⟩, ha.key, ?_, ha.node⟩
        rintro rfl
        refine ⟨hinc rfl z hmem, ?_⟩
        rcases (ha.leaf rfl).2 with ⟨A', lo', B', hc', _, hB'⟩ | hnew
        · obtain ⟨_, _, rfl⟩ := h.woven.apart.split_unique ha.level hc hc'
          exact absurd hz (not_le.mpr (hB' z List.mem_cons_self))
        · exact Or.inr hnew
      obtain ⟨stores, ret, hy, hP⟩ := ih hzc ha'
      refine ⟨stores, ret, hy.step ?_, hP⟩
      intro fuel
      rw [Btree.store_succ, hs]
      rfl
    · exact hstep a s G' ha.landing hs hstored hlinked

/-- The call that puts a separator into its level. -/
theorem Linked.internal_yields (h : Linked alloc t G) (hal : Allocator alloc) {k : ℤ} {r : ℕ}
    (hl : l + 1 < G.height) (hk : k ≤ longMax) (hm : G.Missing l ⟨k, r⟩)
    (hstore : ∀ a, Arrival G (l + 1) a ⟨k, r⟩ → ∃ stores ret,
      Yields (fun fuel => Btree.store alloc fuel t a k r) (stores, ret) ∧ ret ≠ NULL ∧
        Inserted alloc t G (l + 1) ⟨k, r⟩ stores) :
    ∃ up G', Yields (fun fuel => Btree.btreeInsertInternal (Btree.store alloc fuel) fuel t k r
      (l + 1)) up ∧ SameLeaves G G' ∧ Linked alloc (t.run up) G' := by
  have hroot := h.root_landing k
  obtain ⟨d, hd⟩ : ∃ d, G.height - 1 = l + 1 + d := ⟨G.height - 1 - (l + 1), by omega⟩
  obtain ⟨A, lo, B, hc, _⟩ := hroot.split
  obtain ⟨q, hq, hlev, _⟩ := h.page_level (by omega) hc
  rw [hd] at hroot
  obtain ⟨a, hfind, hland⟩ := h.findLevel_lands hal (l + 1) d (by omega) hroot
  have ha : Arrival G (l + 1) a ⟨k, r⟩ := by
    refine ⟨hl, hland, hk, fun h0 => absurd h0 (Nat.succ_ne_zero l), ?_⟩
    intro l' hl'
    obtain rfl := Nat.succ.inj hl'
    exact hm
  obtain ⟨up, ret, hy, hret, a', o, G1, G', hstored, hsame, hlinked⟩ := hstore a ha
  refine ⟨up, G', insertInternal_yields hq (by omega) hfind hy hret, ?_, hlinked⟩
  exact (hstored.sameLeaves h.woven (Nat.succ_ne_zero l)).trans hsame

/-- `store` on a page of the level, to the right along it and then up. -/
theorem Linked.store_yields (hal : Allocator alloc) (d : ℕ) (h : Linked alloc t G)
    (hd : l + d + 1 = G.height) (ha : Arrival G l a e)
    (hinc : l = 0 → ∀ x ∈ G.chain 0, Increasing (G.entries x.2)) :
    ∃ stores ret, Yields (fun fuel => Btree.store alloc fuel t a e.key e.ptr) (stores, ret) ∧
      ret ≠ NULL ∧ Inserted alloc t G l e stores := by
  induction d generalizing t G l a e with
  | zero =>
    obtain ⟨A, lo, B, hc, _⟩ := ha.landing.split
    refine h.store_along hal hc ha hinc ?_
    intro a s G' hland hs hstored hlinked
    obtain ⟨A, lo, B, hc, _⟩ := hland.split
    refine h.store_section hal ha.level hc hs hstored hlinked ?_
    intro k r u ret ho
    rw [ho] at hstored
    obtain ⟨rfl, _, _, hu, _⟩ := hstored.parent h
    have := hstored.parent_height
    omega
  | succ d ih =>
    obtain ⟨A, lo, B, hc, _⟩ := ha.landing.split
    refine h.store_along hal hc ha hinc ?_
    intro a s G' hland hs hstored hlinked
    obtain ⟨A, lo, B, hc, _⟩ := hland.split
    refine h.store_section hal ha.level hc hs hstored hlinked ?_
    intro k r u ret ho
    rw [ho] at hstored
    obtain ⟨rfl, _, hk, hu, hm⟩ := hstored.parent h
    have hheight := hstored.parent_height
    refine hlinked.internal_yields hal hu hk hm ?_
    intro a' ha'
    exact ih hlinked (by omega) ha' (fun h0 => absurd h0 (Nat.succ_ne_zero l))

/-- `btree_insert` of a key that is new, or that the walk finds the leaf of. -/
theorem Linked.insert_yields (h : Linked alloc t G) (hal : Allocator alloc) (hk : e.key ≤ longMax)
    (hinc : ∀ x ∈ G.chain 0, Increasing (G.entries x.2))
    (hleaf : (∀ a, Yields (fun fuel => t.findLeaf e.key fuel t.root) a →
      AtHome (G.chain 0) e.key a) ∨ ∀ d ∈ G.contents, d.key ≠ e.key) :
    ∃ stores, Yields (fun fuel => Btree.btreeInsert alloc fuel t e.key e.ptr) stores ∧
      Inserted alloc t G 0 e stores := by
  have hpos := h.woven.pos
  obtain ⟨a, hfind, hland⟩ := h.findLeaf_lands hal e.key
  have ha : Arrival G 0 a e := by
    refine ⟨hpos, hland, hk, ?_, fun l' hl' => absurd hl' (Nat.succ_ne_zero l')⟩
    intro _
    obtain ⟨x, hx, rfl, _⟩ := hland
    exact ⟨hinc x hx, hleaf.imp_left fun hhome => hhome _ hfind⟩
  obtain ⟨stores, ret, hy, hret, hins⟩ := h.store_yields hal (G.height - 1) (by omega) ha
    (fun _ => hinc)
  refine ⟨stores, ?_, hins⟩
  refine Yields.step (hfind.bind (g := fun fuel a =>
    (Btree.store alloc fuel t a e.key e.ptr).bind fun stored =>
      if stored.2 = NULL then
        (Btree.btreeInsert alloc fuel (t.run stored.1) e.key e.ptr).map (stored.1 ++ ·)
      else some stored.1) ?_) (fun fuel => rfl)
  exact hy.bind (.const fun fuel => if_neg hret)

end

end PmemStudy.FastFair
