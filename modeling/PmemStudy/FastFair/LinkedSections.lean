import PmemStudy.FastFair.LinkedTree

/-!
# A section of a tree with insertions under way

The caller of `store` knows little: that the page has the level it wants, and that the bound
of the page is not greater than the key. With that a section moves on to the right, or the
tree follows the changed outline after it.
-/

namespace PmemStudy.FastFair
open PmemStudy.Slots PmemStudy.Chain

section
variable {alloc : ℕ → ℕ} {t : Btree} {G : Outline} {l a : ℕ} {A B : List (Cell ℤ ℕ)}
  {lo : WithBot ℤ} {p x y : Page} {e : Entry} {b : Build} {s : Btree.Section}

/-- A section that neither fails nor moves on has made the sibling test. -/
theorem storeSection_stop (hp : t.pages a = some p) (hd : p.isDeleted = false)
    (hs : t.storeSection b alloc a e.key e.ptr = some s) (hm : ∀ r, s.outcome ≠ .sibling r) :
    t.beyond p e.key = some false := by
  unfold Btree.storeSection at hs
  rw [hp, Option.bind_eq_bind, Option.bind_some, hd, if_neg Bool.false_ne_true] at hs
  obtain ⟨beyond, hbeyond, hs⟩ := Option.bind_eq_some_iff.mp hs
  cases beyond with
  | true =>
    rw [if_pos rfl] at hs
    obtain rfl := Option.some.inj hs
    exact absurd rfl (hm p.siblingPtr)
  | false => exact hbeyond

theorem Linked.page (h : Linked alloc t G) (hl : l < G.height) (hc : G.chain l = A ++ (lo, a) :: B) :
    ∃ p, t.pages a = some p ∧ Placed G l lo a B p ∧ Stands p (G.entries a) :=
  h.follows.page l hl A lo a B hc

/-- The right neighbour of a page. -/
theorem Linked.neighbour (h : Linked alloc t G) (hal : Allocator alloc) (hl : l < G.height)
    (hc : G.chain l = A ++ (lo, a) :: B) (hp : t.pages a = some p) :
    (B = [] ∧ p.siblingPtr = NULL) ∨ ∃ z B' q, B = z :: B' ∧ p.siblingPtr = z.2 ∧ z.2 ≠ NULL ∧
      t.pages z.2 = some q ∧ Placed G l z.1 z.2 B' q ∧ Stands q (G.entries z.2) := by
  obtain ⟨p', hp', hpl, _⟩ := h.page hl hc
  rw [hp] at hp'
  obtain rfl := Option.some.inj hp'
  cases B with
  | nil => exact Or.inl ⟨rfl, hpl.siblingPtr⟩
  | cons z B' =>
    have hc' : G.chain l = (A ++ [(lo, a)]) ++ (z.1, z.2) :: B' := by
      rw [hc]
      simp
    obtain ⟨q, hq, hqpl, hqs⟩ := h.page hl hc'
    have hz : z ∈ G.chain l := by
      rw [hc]
      simp
    exact Or.inr ⟨z, B', q, rfl, hpl.siblingPtr, h.follows.ne_null hal hl hz, hq, hqpl, hqs⟩

/-- A leaf that has a left neighbour begins with its bound. -/
theorem Linked.leaf_bound (h : Linked alloc t G) {z : Cell ℤ ℕ}
    (hc : G.chain 0 = A ++ (lo, a) :: z :: B) {q : Page} (hq : Stands q (G.entries z.2)) :
    z.1 = ↑(q.records 0).key := by
  have hz : z ∈ G.chain 0 := by
    rw [hc]
    simp
  have hs := h.woven.leaf_sorted
  rw [hc, sorted_mid] at hs
  rcases h.woven.leaf_first z hz with hbot | ⟨e0, es, hes, he0⟩
  · have := hs.2.2.2 z List.mem_cons_self
    rw [hbot] at this
    exact absurd this not_lt_bot
  · have hrec := hq.record 0 (by rw [hes]; exact Nat.succ_pos _)
    rw [hrec, he0]
    simp only [hes, List.getElem_cons_zero]

/-- What the caller of `store` knows of the page at `a`, which is of level `l`. -/
structure Arrival (G : Outline) (l a : ℕ) (e : Entry) : Prop where
  level : l < G.height
  landing : Landing (G.chain l) e.key a
  key : e.key ≤ longMax
  leaf : l = 0 → Increasing (G.entries a) ∧
    (AtHome (G.chain 0) e.key a ∨ ∀ d ∈ G.contents, d.key ≠ e.key)
  node : ∀ l', l' + 1 = l → G.Missing l' e

/-- When the sibling test fails at a leaf, a new key belongs there. -/
theorem Linked.target (h : Linked alloc t G) (hal : Allocator alloc) (ha : Arrival G l a e)
    (hc : G.chain l = A ++ (lo, a) :: B) (hlo : lo ≤ ↑e.key) (hp : t.pages a = some p)
    (hstop : t.beyond p e.key = some false) : Target G l A lo a B e := by
  refine ⟨ha.level, hc, hlo, ha.key, ?_, ha.node⟩
  rintro rfl
  obtain ⟨hinc, hhome⟩ := ha.leaf rfl
  refine ⟨?_, hinc⟩
  rcases hhome with ⟨A', lo', B', hc', _, hB⟩ | hnew
  · obtain ⟨_, _, rfl⟩ := h.woven.apart.split_unique ha.level hc hc'
    exact hB
  · rcases h.neighbour hal ha.level hc hp with ⟨rfl, _⟩ | ⟨z, B', q, rfl, hsib, hz, hq, _, hqs⟩
    · exact fun z hz => absurd hz List.not_mem_nil
    · have hzmem : z ∈ G.chain 0 := by
        rw [hc]
        simp
      have hbound := h.leaf_bound hc hqs
      have hs := h.woven.leaf_sorted
      rw [hc, sorted_mid] at hs
      unfold Btree.beyond at hstop
      rw [if_pos (by rw [hsib]; exact hz), hsib, hq, Option.map_some] at hstop
      have hge : ¬ (q.records 0).key < e.key := of_decide_eq_false (Option.some.inj hstop)
      have hne : (q.records 0).key ≠ e.key := by
        rcases h.woven.leaf_first z hzmem with hbot | ⟨e0, es, hes, _⟩
        · rw [hbot] at hbound
          exact absurd hbound.symm (WithBot.coe_ne_bot)
        · have hmem : e0 ∈ G.contents := List.mem_flatMap.mpr
            ⟨z, hzmem, by rw [hes]; exact List.mem_cons_self⟩
          rw [hqs.record 0 (by rw [hes]; exact Nat.succ_pos _)]
          simp only [hes, List.getElem_cons_zero]
          exact hnew e0 hmem
      have hlt : (e.key : WithBot ℤ) < z.1 := by
        rw [hbound]
        exact WithBot.coe_lt_coe.mpr (by omega)
      intro w hw
      rcases List.mem_cons.mp hw with rfl | hw
      · exact hlt
      · exact hlt.trans ((List.pairwise_cons.mp hs.2.1).1 w hw)

/-- The outlines after a section that stored its entry `e` in level `l`. -/
inductive StoredAs (alloc : ℕ → ℕ) (t : Btree) (G : Outline) (l a : ℕ) (e : Entry) :
    Btree.Outcome → Outline → Prop
  | put (c ret : ℕ) (hp : G.Puts l a c e) :
      StoredAs alloc t G l a e (.stored ret) (G.insertEntry l a c e)
  | split (A B : List (Cell ℤ ℕ)) (lo : WithBot ℤ) (p : Page) (c ret : ℕ)
      (hp : t.pages a = some p) (hT : Target G l A lo a B e) (hlen : (G.entries a).length = 29)
      (hs : G.Severs l A lo a B (p.records 14).key (alloc t.allocated) (newLeftmost p)
        ((G.entries a).take 14) ((G.entries a).drop (cutAt p)))
      (hspot : Spot (if e.key < (p.records 14).key then (G.entries a).take 14
        else (G.entries a).drop (cutAt p)) e.key c)
      (hup : l + 1 < G.height) :
      StoredAs alloc t G l a e
        (.parent (p.records 14).key (alloc t.allocated) (l + 1) ret)
        (G.halve l A lo a B p (alloc t.allocated) c e)
  | grow (A B : List (Cell ℤ ℕ)) (lo : WithBot ℤ) (p : Page) (c ret : ℕ)
      (hp : t.pages a = some p) (hT : Target G l A lo a B e) (hlen : (G.entries a).length = 29)
      (hs : G.Severs l A lo a B (p.records 14).key (alloc t.allocated) (newLeftmost p)
        ((G.entries a).take 14) ((G.entries a).drop (cutAt p)))
      (hspot : Spot (if e.key < (p.records 14).key then (G.entries a).take 14
        else (G.entries a).drop (cutAt p)) e.key c)
      (ht : (G.halve l A lo a B p (alloc t.allocated) c e).Tops (alloc (t.allocated + 1))
        ⟨(p.records 14).key, alloc t.allocated⟩) :
      StoredAs alloc t G l a e (.stored ret)
        ((G.halve l A lo a B p (alloc t.allocated) c e).grow (alloc (t.allocated + 1))
          ⟨(p.records 14).key, alloc t.allocated⟩)

theorem Linked.section (h : Linked alloc t G) (hal : Allocator alloc) (ha : Arrival G l a e)
    (hs : t.storeSection b alloc a e.key e.ptr = some s) :
    (∃ (A : List (Cell ℤ ℕ)) (lo : WithBot ℤ) (z : Cell ℤ ℕ) (B : List (Cell ℤ ℕ)),
      G.chain l = A ++ (lo, a) :: z :: B ∧ z.1 ≤ ↑e.key ∧
      s = ⟨[], [], .sibling z.2⟩) ∨
    ∃ G', StoredAs alloc t G l a e s.outcome G' ∧ Linked alloc (t.run s.stores) G' := by
  obtain ⟨A, lo, B, hc, hlo⟩ := ha.landing.split
  obtain ⟨p, hp, hpl, hstands⟩ := h.page ha.level hc
  have hmem : ((lo, a) : Cell ℤ ℕ) ∈ G.chain l := by
    rw [hc]
    simp
  have hfresh : a ≠ alloc t.allocated :=
    h.follows.unused hal (le_refl _) l ha.level _ hmem
  obtain ⟨hcase, _⟩ := storeSection_cases b hp hstands.toFilled
    (h.woven.ascending l ha.level _ hmem) hfresh hs
  have htarget : (∀ r, s.outcome ≠ .sibling r) → Target G l A lo a B e := fun hm =>
    h.target hal ha hc hlo hp (storeSection_stop hp hpl.live hs hm)
  cases hcase with
  | deleted hd _ =>
    rw [hpl.live] at hd
    cases hd
  | moveOn q hq hne hk hs =>
    refine Or.inl ?_
    rcases h.neighbour hal ha.level hc hp with ⟨_, h0⟩ | ⟨z, B', q', rfl, hsib, _, hq', hqpl, _⟩
    · exact absurd h0 hne
    · rw [hsib, hq'] at hq
      obtain rfl := Option.some.inj hq
      exact ⟨A, lo, z, B', hc, (hqpl.keys 0).trans (WithBot.coe_le_coe.mpr hk.le), by rw [hs, hsib]⟩
  | room x c hlen hspot hx ht hrun hs =>
    have hT := htarget (fun r hr => by rw [hs] at hr; cases hr)
    refine Or.inr ⟨G.insertEntry l a c e, ?_, ?_⟩
    · rw [hs]
      exact .put c a (hT.puts hspot)
    · rw [hrun]
      exact h.put (hT.puts hspot) hp hx ht ha.key
  | split left right y x hlen hh hroot hrun hs =>
    have hT := htarget (fun r hr => by rw [hs] at hr; cases hr)
    obtain ⟨c, hsev, hspot, hwoven, hfollows, hbounded⟩ := h.halve hal hT hp hlen hh
    have hup := h.below_root ha.level hmem hroot
    refine Or.inr ⟨G.halve l A lo a B p (alloc t.allocated) c e, ?_, ?_⟩
    · rw [hs, hpl.level]
      exact .split A B lo p c _ hp hT hlen hsev hspot hup
    · rw [hrun]
      refine ⟨hwoven, ?_, hfollows, hbounded⟩
      exact (hsev.cuts.chain_other _ (show G.height - 1 ≠ l by omega)).trans h.top
  | grow left right y x hlen hh hroot hrun hs =>
    have hT := htarget (fun r hr => by rw [hs] at hr; cases hr)
    obtain ⟨c, hsev, hspot, hwoven, hfollows, hbounded⟩ := h.halve hal hT hp hlen hh
    obtain ⟨hlev, rfl⟩ := h.root_level ha.level hmem hroot
    have htop := h.top
    rw [show G.height - 1 = l by omega, hc] at htop
    obtain ⟨rfl, hcell, rfl⟩ : A = [] ∧ a = G.root ∧ B = [] := by
      cases A with
      | nil =>
        obtain ⟨h1, h2⟩ := List.cons.inj htop
        exact ⟨rfl, congrArg Prod.snd h1, h2⟩
      | cons w A =>
        have := congrArg List.length htop
        simp at this
    have ht : (G.halve l [] ⊥ a [] p (alloc t.allocated) c e).Tops (alloc (t.allocated + 1))
        ⟨(p.records 14).key, alloc t.allocated⟩ := by
      refine ⟨?_, ?_⟩
      · have hchain : (G.halve l [] ⊥ a [] p (alloc t.allocated) c e).chain l =
            [(⊥, a), (↑(p.records 14).key, alloc t.allocated)] := hsev.cuts.chain_cut
        show (G.halve l [] ⊥ a [] p (alloc t.allocated) c e).chain (G.height - 1) = [(⊥, G.root), _]
        rw [show G.height - 1 = l by omega, hchain, hcell]
        rfl
      · exact hfollows.unused hal (le_refl (t.allocated + 1))
    have hroot0 : G.root ≠ NULL := by
      rw [← hcell]
      exact h.follows.ne_null hal ha.level hmem
    refine Or.inr ⟨(G.halve l [] ⊥ a [] p (alloc t.allocated) c e).grow
      (alloc (t.allocated + 1)) ⟨(p.records 14).key, alloc t.allocated⟩, ?_, ?_⟩
    · rw [hs]
      exact .grow [] [] ⊥ p c _ hp hT hlen hsev hspot ht
    · have hkey : (p.records 14).key ≤ longMax := by
        rw [hstands.record 14 (by omega)]
        exact h.bounded l ha.level _ hmem _ (List.getElem_mem _)
      have hnew : Page.newRoot a (p.records 14).key (alloc t.allocated) (p.level + 1) =
          Page.newRoot G.root (p.records 14).key (alloc t.allocated) G.height := by
        rw [hcell, hpl.level, hlev]
      rw [hrun, hnew]
      exact hfollows.crown hwoven hbounded ht hroot0 hkey

/-! ### What a storing section leaves alone -/

section
variable {o : Btree.Outcome} {G' : Outline}

theorem StoredAs.height_le (h : StoredAs alloc t G l a e o G') : G.height ≤ G'.height := by
  cases h with
  | put => exact le_refl _
  | split => exact le_refl _
  | grow => exact Nat.le_succ _

/-- Pages stay where they are. -/
theorem StoredAs.subset (h : StoredAs alloc t G l a e o G') {l' : ℕ} (hl' : l' < G.height) :
    G.chain l' ⊆ G'.chain l' := by
  cases h with
  | put => exact fun z hz => hz
  | split _ _ _ _ _ _ _ _ _ hs => exact hs.cuts.subset l'
  | grow A B lo p c ret hp hT hlen hs =>
    rw [Outline.grow_chain (G := G.halve l A lo a B p (alloc t.allocated) c e) hl']
    exact hs.cuts.subset l'

/-- What is stored afterwards. -/
theorem StoredAs.contents (h : StoredAs alloc t G l a e o G') (hw : G.Woven) :
    (l = 0 → G'.contents.Perm (e :: G.contents)) ∧ (l ≠ 0 → G'.contents = G.contents) := by
  have hhalve : ∀ {A B lo p c b}, G.Severs l A lo a B (p.records 14).key b (newLeftmost p)
      ((G.entries a).take 14) ((G.entries a).drop (cutAt p)) → Target G l A lo a B e →
      Spot (if e.key < (p.records 14).key then (G.entries a).take 14
        else (G.entries a).drop (cutAt p)) e.key c →
      (l = 0 → (G.halve l A lo a B p b c e).contents.Perm (e :: G.contents)) ∧
      (l ≠ 0 → (G.halve l A lo a B p b c e).contents = G.contents) := by
    intro A B lo p c b hs hT hspot
    obtain ⟨h1, h2⟩ := (hT.puts_sever hw.apart hs hspot).contents (hs.cuts.apart hw.apart) hw.pos
    rw [hs.contents hw.apart hw.pos] at h1 h2
    exact ⟨h1, h2⟩
  cases h with
  | put c ret hp => exact hp.contents hw.apart hw.pos
  | split A B lo p c ret hp hT hlen hs hspot hup => exact hhalve hs hT hspot
  | grow A B lo p c ret hp hT hlen hs hspot ht =>
    rw [ht.contents hw.pos]
    exact hhalve hs hT hspot

/-- A separator that is on its way, other than the one that was put, still is. -/
theorem StoredAs.missing (h : StoredAs alloc t G l a e o G') (hw : G.Woven) {l' : ℕ} {e' : Entry}
    (hm : G.Missing l' e') (hne : l' + 1 = l → e'.ptr ≠ e.ptr) : G'.Missing l' e' := by
  have hhalve : ∀ {A B lo p c b}, G.Severs l A lo a B (p.records 14).key b (newLeftmost p)
      ((G.entries a).take 14) ((G.entries a).drop (cutAt p)) → Target G l A lo a B e →
      Spot (if e.key < (p.records 14).key then (G.entries a).take 14
        else (G.entries a).drop (cutAt p)) e.key c →
      (G.halve l A lo a B p b c e).Missing l' e' := by
    intro A B lo p c b hs hT hspot
    exact (hm.sever hs hw.apart).insertEntry (hT.puts_sever hw.apart hs hspot)
      (hs.cuts.apart hw.apart) hne
  cases h with
  | put c ret hp => exact hm.insertEntry hp hw.apart hne
  | split A B lo p c ret hp hT hlen hs hspot hup => exact hhalve hs hT hspot
  | grow A B lo p c ret hp hT hlen hs hspot ht => exact (hhalve hs hT hspot).grow ht

/-- After a split the separator of the new page is on its way. -/
theorem StoredAs.parent {k : ℤ} {r u ret : ℕ}
    (h : StoredAs alloc t G l a e (.parent k r u ret) G') (hl : Linked alloc t G) :
    u = l + 1 ∧ r = alloc t.allocated ∧ k ≤ longMax ∧ u < G'.height ∧ G'.Missing l ⟨k, r⟩ := by
  cases h with
  | split A B lo p c ret hp hT hlen hs hspot hup =>
    refine ⟨rfl, rfl, ?_, hup, ?_⟩
    · obtain ⟨p', hp', _, hstands⟩ := hl.page hT.level hT.chain
      rw [hp] at hp'
      obtain rfl := Option.some.inj hp'
      rw [hstands.record 14 (by omega)]
      exact hl.bounded l hT.level _ hs.page _ (List.getElem_mem _)
    · refine (hs.missing hl.woven hup).insertEntry (hT.puts_sever hl.woven.apart hs hspot)
        (hs.cuts.apart hl.woven.apart) ?_
      intro hll
      omega

end

end

end PmemStudy.FastFair
