import PmemStudy.FastFair.NewRoot

/-!
# store

An entry is stored in the page that its key belongs to. A full page is split
first, and its separator is stored one level above in the same way, up to a new
root. Every image on the way shows the old pairs or the new ones.
-/

namespace PmemStudy.FastFair
open PmemStudy.Slots PmemStudy.Chain PmemStudy.Trace PmemStudy.Loop

/-- An image with these stored pairs, `C` or `C'`. -/
def Shown (alloc : ℕ → ℕ) (C C' : List Entry) (t : Btree) : Prop :=
  ∃ G, Readable alloc t G ∧ (G.contents = C ∨ G.contents = C')

section
variable {alloc : ℕ → ℕ} {μ : ℕ} {t : Btree} {G : Outline}

theorem shown_of_or {G' : Outline} {C C' : List Entry}
    (h : Readable alloc t G ∨ Readable alloc t G') (hG : G.contents = C ∨ G.contents = C')
    (hG' : G'.contents = C ∨ G'.contents = C') : Shown alloc C C' t := by
  rcases h with h | h
  · exact ⟨G, h, hG⟩
  · exact ⟨G', h, hG'⟩

/-! ### The new entry after a split -/

/-- Outlines with the same pairs get the same pairs from an insertion. -/
theorem Outline.WellFormed.insert_contents_eq (h : G.WellFormed) {G' : Outline}
    (h' : G'.WellFormed) (hc : G'.contents = G.contents) {l a c a' c' : ℕ} {e : Entry}
    (hb : G.Belongs l a c e) (hb' : G'.Belongs l a' c' e) :
    (G'.insertEntry l a' c' e).contents = (G.insertEntry l a c e).contents := by
  cases l with
  | zero =>
    obtain ⟨hi, hp⟩ := h.insertEntry_increasing hb
    obtain ⟨hi', hp'⟩ := h'.insertEntry_increasing hb'
    rw [hc] at hp'
    exact hi'.eq_of_perm hi (hp'.trans hp.symm)
  | succ l => rw [h.insertEntry_contents hb, h'.insertEntry_contents hb', hc]

/-- The half that the key belongs to. -/
theorem Outline.WellFormed.belongs_split (h : G.WellFormed) {l a b c : ℕ} {s : ℤ} {lm : ℕ}
    {left right : List Entry} (hs : G.Splits l a b s lm left right) (hab : a ≠ b) {e : Entry}
    (hb : G.Belongs l a c e) :
    ∃ c', (G.splitPage l a b s lm left right).Belongs l (if e.key < s then a else b) c' e := by
  obtain ⟨A, lo, B, hc, hlo, hB⟩ := hb.home
  obtain ⟨_, _, hins⟩ := hs.chain_eq h hc
  have hupd : (G.splitPage l a b s lm left right).chain l = Chain.insert ⟨s, b⟩ (G.chain l) :=
    Function.update_self _ _ _
  have hold : (G.splitPage l a b s lm left right).entries a = left := by
    show Function.update (Function.update G.entries a left) b right a = left
    rw [Function.update_of_ne hab, Function.update_self]
  have hnew : (G.splitPage l a b s lm left right).entries b = right := Function.update_self _ _ _
  have hsub := (hs.keys h).2.2.2
  have hwf := h.splitPage hs
  have hmissing : ∀ l', l' + 1 = l →
      (G.splitPage l a b s lm left right).pending l' = some e := by
    intro l' hl'
    rw [show (G.splitPage l a b s lm left right).pending l' = G.pending l' from
      Function.update_of_ne (by omega) _ _]
    exact hb.missing l' hl'
  have hchain := hupd.trans hins
  by_cases hk : e.key < s
  · rw [if_pos hk]
    have hi : Increasing left := by
      have := hwf.entries_increasing hs.level (x := (lo, a)) (by rw [hchain]; simp)
      rwa [hold] at this
    obtain ⟨c', hc'⟩ := exists_place hi (fun b hb' => hb.place.ne b (hsub b (Or.inl hb')))
    refine ⟨c', hs.level, ⟨A, lo, (↑s, b) :: B, hchain, hlo, ?_⟩, by rw [hold]; exact hc',
      hmissing⟩
    intro y hy
    rcases List.mem_cons.mp hy with rfl | hy
    · exact WithBot.coe_lt_coe.mpr hk
    · exact hB y hy
  · rw [if_neg hk]
    have hi : Increasing right := by
      have := hwf.entries_increasing hs.level (x := (↑s, b)) (by rw [hchain]; simp)
      rwa [hnew] at this
    obtain ⟨c', hc'⟩ := exists_place hi (fun b hb' => hb.place.ne b (hsub b (Or.inr hb')))
    exact ⟨c', hs.level, ⟨A ++ [(lo, a)], ↑s, B, by rw [hchain]; simp,
      WithBot.coe_le_coe.mpr (not_lt.mp hk), hB⟩, by rw [hnew]; exact hc', hmissing⟩

/-- What `store` writes for the new entry after the split. -/
def Btree.storeSplit (p1 s1 : Page) (a sibling : ℕ) (e : Entry) (s : ℤ) (m cnt : ℕ) :
    List TreeStore :=
  if e.key < s then (p1.insertKey e.key e.ptr m).map (.page a)
  else (s1.insertKey e.key e.ptr cnt).map (.page sibling)

/-- The tree after a split of the page at `a` and the insertion into one of the halves:
only the separator `e'` is missing above. -/
structure HalfDone (alloc : ℕ → ℕ) (μ : ℕ) (t : Btree) (G G' : Outline) (l a : ℕ) (e' : Entry) :
    Prop where
  rest : AtRest alloc μ t G'
  height : G'.height = G.height
  root : G'.root = G.root
  missing : G'.pending l = some e'
  closed : ∀ l', l' ≠ l → G'.pending l' = none
  bounded : e'.key ≤ longMax
  half : 14 ≤ (G'.entries a).length

/-- A full page is split and the entry put into one of the halves. -/
theorem AtRest.split_insert (h : AtRest alloc μ t G) (hal : Allocator alloc) (hμ : μ ≤ 14)
    {l a c : ℕ} {e : Entry} (hb : G.Belongs l a c e) (hf : Fresh G l e)
    (hclosed : ∀ l', l' + 1 ≠ l → G.pending l' = none) {p : Page} (hp : t.pages a = some p)
    (hfull : (G.entries a).length = cardinality - 1) :
    ∃ p1 s1 stores, (t.run (Btree.splitStores a (alloc t.allocated) p 29 14)).pages a = some p1 ∧
      (t.run (Btree.splitStores a (alloc t.allocated) p 29 14)).pages (alloc t.allocated)
        = some s1 ∧
      stores = Btree.splitStores a (alloc t.allocated) p 29 14 ++
        Btree.storeSplit p1 s1 a (alloc t.allocated) e (p.records 14).key 14
          (Btree.movedRecords p 29 14).length ∧
      Always Btree.apply (Shown alloc G.contents (G.insertEntry l a c e).contents) t stores ∧
      ∃ G', HalfDone alloc μ (t.run stores) G G' l a ⟨(p.records 14).key, alloc t.allocated⟩ ∧
        G'.contents = (G.insertEntry l a c e).contents := by
  obtain ⟨s, lm, left, right, hsep, hs, hllen, hrlen, hrlen', hmoved, himages, hrest, hroot⟩ :=
    h.split_page hal hμ hb.level hb.home.mem (hclosed l (by omega)) hp hfull
  rw [← hsep, ← hmoved]
  obtain ⟨b, hbdef⟩ : ∃ b, b = alloc t.allocated := ⟨_, rfl⟩
  rw [← hbdef] at hs himages hrest ⊢
  obtain ⟨split, hsplit⟩ : ∃ split, split = Btree.splitStores a b p 29 14 := ⟨_, rfl⟩
  rw [← hsplit] at himages hrest ⊢
  obtain ⟨A, lo, B, hc, _, _⟩ := hb.home
  have hab : a ≠ b := hs.fresh l hb.level (lo, a) (by rw [hc]; simp)
  have hold : (G.splitPage l a b s lm left right).entries a = left := by
    show Function.update (Function.update G.entries a left) b right a = left
    rw [Function.update_of_ne hab, Function.update_self]
  have hnew : (G.splitPage l a b s lm left right).entries b = right := Function.update_self _ _ _
  have hcont := h.outline.splitPage_contents hs
  have hchain : (G.splitPage l a b s lm left right).chain l
      = A ++ (lo, a) :: (↑s, b) :: B :=
    (Function.update_self _ _ _).trans (hs.chain_eq h.outline hc).2.2
  obtain ⟨p1, hp1, _, hr1⟩ := hrest.follows.page l hb.level A lo a _ hchain
  obtain ⟨s1, hs1, _, hr2⟩ := hrest.follows.page l hb.level (A ++ [(lo, a)]) ↑s b B
    (by rw [hchain]; simp)
  rw [hold] at hr1
  rw [hnew] at hr2
  obtain ⟨c', hb'⟩ := h.outline.belongs_split hs hab hb
  have hcont' := h.outline.insert_contents_eq (h.outline.splitPage hs) hcont hb hb'
  have hf' : Fresh (G.splitPage l a b s lm left right) l e := by
    refine ⟨hf.key, hf.ne_null, ?_⟩
    rw [hcont]
    exact hf.value
  -- the half with room, and what is written to it
  obtain ⟨a', ha'⟩ : ∃ a', a' = if e.key < s then a else b := ⟨_, rfl⟩
  rw [← ha'] at hb' hcont'
  obtain ⟨q, hq, hqlen, hstores⟩ : ∃ q, (t.run split).pages a' = some q ∧
      ((G.splitPage l a b s lm left right).entries a').length + 1 < cardinality ∧
      Btree.storeSplit p1 s1 a b e s 14 right.length = (q.insertKey e.key e.ptr
        ((G.splitPage l a b s lm left right).entries a').length).map (.page a') := by
    rw [Btree.storeSplit]
    by_cases hk : e.key < s
    · rw [if_pos hk] at ha' ⊢
      rw [ha', hold, hllen]
      exact ⟨p1, hp1, by simp [cardinality_eq], rfl⟩
    · rw [if_neg hk] at ha' ⊢
      rw [ha', hnew]
      exact ⟨s1, hs1, by rw [cardinality_eq]; omega, rfl⟩
  obtain ⟨hins, hdone⟩ := hrest.insert_page hb' hf' hq hqlen
  refine ⟨p1, s1, _, hp1, hs1, rfl, ?_,
    (G.splitPage l a b s lm left right).insertEntry l a' c' e,
    ⟨?_, rfl, rfl, ?_, ?_, ?_, ?_⟩, hcont'⟩
  · rw [always_append]
    refine ⟨himages.mono (fun _ ht => shown_of_or ht (Or.inl rfl) (Or.inl hcont)), ?_⟩
    rw [hstores]
    exact hins.mono (fun _ ht => shown_of_or ht (Or.inl hcont) (Or.inr hcont'))
  · rw [hstores, Btree.run, List.foldl_append]
    exact hdone
  · show (if l + 1 = l then none else Function.update G.pending l (some ⟨s, b⟩) l) = _
    rw [if_neg (by omega), Function.update_self]
  · intro l' hl'
    show (if l' + 1 = l then none else Function.update G.pending l (some ⟨s, b⟩) l') = none
    split
    · rfl
    · next hne =>
      rw [Function.update_of_ne hl']
      exact hclosed l' hne
  · obtain ⟨e', he', hes⟩ := (hs.keys h.outline).2.2.1
    have hx : ((lo, a) : Cell ℤ ℕ) ∈ G.chain l := by
      rw [hc]
      simp
    have hbound : e'.key ≤ longMax := h.entry_bounded hb.level hx he'
    rwa [hes] at hbound
  · show 14 ≤ (Function.update (G.splitPage l a b s lm left right).entries a'
      (((G.splitPage l a b s lm left right).entries a').insertIdx c' e) a).length
    by_cases haa : a = a'
    · subst a'
      rw [← haa] at hb' ⊢
      rw [Function.update_self, List.length_insertIdx_of_le_length hb'.place.le, hold, hllen]
      omega
    · rw [Function.update_of_ne haa, hold, hllen]

/-! ### The recursion of store -/

/-- The right neighbour of a page starts behind the key. -/
def Stays (t : Btree) (p : Page) (key : ℤ) : Prop :=
  p.siblingPtr = NULL ∨ ∃ s, t.pages p.siblingPtr = some s ∧ key ≤ (s.records 0).key

theorem Stays.beyond {τ : Type} {p : Page} {key : ℤ} (h : Stays t p key) (f : Bool → Option τ) :
    (if p.siblingPtr ≠ NULL then
      ((t.pages p.siblingPtr).map fun s => decide ((s.records 0).key < key)).bind f
    else (some false).bind f) = f false := by
  rcases h with h0 | ⟨s, hs, hk⟩
  · rw [if_neg (not_not.mpr h0), Option.bind_some]
  · by_cases h0 : p.siblingPtr = NULL
    · rw [if_neg (not_not.mpr h0), Option.bind_some]
    · rw [if_pos h0, hs, Option.map_some, Option.bind_some, decide_eq_false (not_lt.mpr hk)]

theorem store_room {a fuel : ℕ} {p : Page} {key : ℤ} {right : ℕ} (hp : t.pages a = some p)
    (hlive : p.isDeleted = false) (hstay : Stays t p key) (hroom : p.count < cardinality - 1) :
    Btree.store alloc (fuel + 1) t a key right
      = some ((p.insertKey key right p.count).map (.page a), a) := by
  rw [Btree.store, hp, Option.bind_eq_bind, Option.bind_some, hlive, if_neg (by simp)]
  exact (hstay.beyond _).trans ((if_neg Bool.false_ne_true).trans (if_pos hroom))

theorem store_full {a fuel : ℕ} {p p1 s1 : Page} {e : Entry} {stores : List TreeStore}
    (hp : t.pages a = some p) (hlive : p.isDeleted = false) (hstay : Stays t p e.key)
    (hfull : p.count = 29)
    (hp1 : (t.run (Btree.splitStores a (alloc t.allocated) p 29 14)).pages a = some p1)
    (hs1 : (t.run (Btree.splitStores a (alloc t.allocated) p 29 14)).pages (alloc t.allocated)
      = some s1)
    (hstores : stores = Btree.splitStores a (alloc t.allocated) p 29 14 ++
        Btree.storeSplit p1 s1 a (alloc t.allocated) e (p.records 14).key 14
          (Btree.movedRecords p 29 14).length) :
    Btree.store alloc (fuel + 1) t a e.key e.ptr =
      if t.root = a then
        some (stores ++ Btree.newRootStores (t.run stores) (alloc (t.run stores).allocated) a
          (p.records 14).key (alloc t.allocated) (p.level + 1),
          if e.key < (p.records 14).key then a else alloc t.allocated)
      else
        (Btree.btreeInsertInternal (Btree.store alloc fuel) fuel (t.run stores) (p.records 14).key
          (alloc t.allocated) (p.level + 1)).bind fun up =>
            some (stores ++ up, if e.key < (p.records 14).key then a else alloc t.allocated) := by
  rw [Btree.store, hp, Option.bind_eq_bind, Option.bind_some, hlive, if_neg (by simp)]
  refine (hstay.beyond _).trans ((if_neg Bool.false_ne_true).trans ?_)
  rw [hfull, if_neg (by decide)]
  simp only [show 29 / 2 = 14 from rfl, hp1, hs1, Option.bind_eq_bind, Option.bind_some]
  rw [hstores, Btree.storeSplit]

theorem insertInternal_yields {a level ret : ℕ} {r : Page} {key : ℤ} {right : ℕ}
    {up : List TreeStore} (hroot : t.pages t.root = some r) (hl : level ≤ r.level)
    (hfind : Yields (fun fuel => t.findLevel key level fuel t.root) a)
    (hstore : Yields (fun fuel => Btree.store alloc fuel t a key right) (up, ret))
    (hret : ret ≠ NULL) :
    Yields (fun fuel => Btree.btreeInsertInternal (Btree.store alloc fuel) fuel t key right level)
      up := by
  refine Yields.step (hfind.bind (g := fun fuel a =>
    (Btree.store alloc (fuel + 1) t a key right).bind fun stored =>
      if stored.2 = NULL then
        (Btree.btreeInsertInternal (Btree.store alloc (fuel + 1)) fuel (t.run stored.1) key right
          level).map (stored.1 ++ ·)
      else some stored.1) ?_) ?_
  · refine hstore.succ.bind (.const ?_)
    intro fuel
    exact if_neg hret
  · intro fuel
    rw [Btree.btreeInsertInternal, hroot, Option.bind_eq_bind, Option.bind_some,
      if_neg (by omega)]
    rfl

/-! ### store at the page a key belongs to -/

/-- What an entry that is stored at its place comes to. -/
structure Stored (alloc : ℕ → ℕ) (μ : ℕ) (t : Btree) (C C' : List Entry)
    (stores : List TreeStore) : Prop where
  images : Always Btree.apply (Shown alloc C C') t stores
  rest : ∃ G, AtRest alloc μ (t.run stores) G ∧ (∀ l, G.pending l = none) ∧ G.contents = C'

theorem AtRest.page_of (h : AtRest alloc μ t G) (hal : Allocator alloc) {l a c : ℕ} {e : Entry}
    (hb : G.Belongs l a c e) :
    ∃ p, t.pages a = some p ∧ p.isDeleted = false ∧ p.level = l ∧
      p.count = (G.entries a).length ∧ Stays t p e.key ∧ a ≠ NULL := by
  obtain ⟨A, lo, B, hc, _, hB⟩ := hb.home
  obtain ⟨p, hp, hpl, hrest⟩ := h.follows.page l hb.level A lo a B hc
  obtain ⟨i, _, hi⟩ := h.follows.address l hb.level (lo, a) (by rw [hc]; simp)
  refine ⟨p, hp, hpl.live, hpl.level, hrest.count_eq, ?_, ?_⟩
  · cases B with
    | nil => exact Or.inl hpl.siblingPtr
    | cons y B =>
      obtain ⟨_, s, _, hs, hspl, _⟩ := h.readable.next hal hb.level hc
      refine Or.inr ⟨s, by rw [hpl.siblingPtr]; exact hs, ?_⟩
      have hlt := (hB y List.mem_cons_self).trans_le (hspl.keys 0)
      exact (WithBot.coe_lt_coe.mp hlt).le
  · rw [show a = alloc i from hi]
    exact hal.ne_null i

theorem AtRest.store_of_room (h : AtRest alloc μ t G) (hal : Allocator alloc) {l a c : ℕ}
    {e : Entry} (hb : G.Belongs l a c e) (hf : Fresh G l e)
    (hclosed : ∀ l', l' + 1 ≠ l → G.pending l' = none)
    (hroom : (G.entries a).length + 1 < cardinality) :
    ∃ stores, Yields (fun fuel => Btree.store alloc fuel t a e.key e.ptr) (stores, a) ∧
      Stored alloc μ t G.contents (G.insertEntry l a c e).contents stores := by
  obtain ⟨p, hp, hlive, _, hcount, hstay, _⟩ := h.page_of hal hb
  obtain ⟨himages, hrest⟩ := h.insert_page hb hf hp hroom
  rw [← hcount] at himages hrest hroom
  refine ⟨_, Yields.step (.const fun _ => rfl)
    (fun fuel => store_room hp hlive hstay (by omega)), ?_, _, hrest, ?_, rfl⟩
  · exact himages.mono (fun _ ht => shown_of_or ht (Or.inl rfl) (Or.inr rfl))
  · intro l'
    show (if l' + 1 = l then none else G.pending l') = none
    split
    · rfl
    · next hne => exact hclosed l' hne

theorem Outline.WellFormed.separator_entries (h : G.WellFormed) {l : ℕ} (hl : l + 1 < G.height)
    {e : Entry} (hp : G.pending l = some e) {x : Cell ℤ ℕ} (hx : x ∈ G.chain (l + 1)) :
    ∀ b ∈ G.entries x.2, b.key ≠ e.key := by
  intro b hb hbe
  have hs := h.sorted l (by omega)
  have heq := h.chain_eq l (by omega)
  rw [hp] at heq
  rw [heq] at hs
  refine ne_of_sorted_insert hs (cell b) ?_ (congrArg _ hbe)
  rw [Outline.above_inner hl]
  exact List.mem_flatMap.mpr ⟨x, hx, List.mem_cons_of_mem _ (List.mem_map_of_mem hb)⟩

/-- A page below the top level is not the root. -/
theorem AtRest.root_ne (h : AtRest alloc μ t G) (hpend : G.pending (G.height - 1) = none) {l a : ℕ}
    (ha : a ∈ (G.chain l).map (·.2)) (hl : l + 1 < G.height) : t.root ≠ a := by
  obtain ⟨x, hx, rfl⟩ := List.mem_map.mp ha
  intro hr
  have hroot := h.root_cell hpend
  have := h.outline.disjoint (G.height - 1) (by omega) l (by omega) (⊥, G.root)
    (by rw [hroot]; simp) x hx (h.follows.root.symm.trans hr)
  omega

/-- `store` on the full root. -/
theorem AtRest.store_root (h : AtRest alloc μ t G) (hal : Allocator alloc) (hμ : μ ≤ 14)
    {l a c : ℕ} {e : Entry} (hl : l + 1 = G.height) (hb : G.Belongs l a c e)
    (hf : Fresh G l e) (hclosed : ∀ l', l' + 1 ≠ l → G.pending l' = none)
    (hfull : (G.entries a).length = cardinality - 1) :
    ∃ stores ret, Yields (fun fuel => Btree.store alloc fuel t a e.key e.ptr) (stores, ret) ∧
      ret ≠ NULL ∧ Stored alloc μ t G.contents (G.insertEntry l a c e).contents stores := by
  obtain ⟨p, hp, hlive, hlevel, hcount, hstay, ha0⟩ := h.page_of hal hb
  obtain ⟨p1, s1, stores, hp1, hs1, hstores, himages, G', hd, hcont⟩ :=
    h.split_insert hal hμ hb hf hclosed hp hfull
  have hroot : a = G.root := by
    have hcell := h.root_cell (hclosed _ (by omega))
    have hmem := hb.home.mem
    rw [show l = G.height - 1 by omega, hcell] at hmem
    simpa using hmem
  have hpend : G'.pending (G'.height - 1) = some ⟨(p.records 14).key, alloc t.allocated⟩ := by
    rw [hd.height, show G.height - 1 = l by omega]
    exact hd.missing
  obtain ⟨hg, hrest⟩ := hd.rest.grow hal hpend (by
    rw [hd.root, ← hroot]
    exact hμ.trans hd.half)
  have hcont' : (G'.grow (alloc (t.run stores).allocated)
      ⟨(p.records 14).key, alloc t.allocated⟩).contents = (G.insertEntry l a c e).contents := by
    rw [hd.rest.outline.grow_contents ⟨hpend, hd.rest.follows.unused hal (Nat.le_refl _)⟩]
    exact hcont
  have hat : G'.root = a ∧ G'.height = p.level + 1 := by
    rw [hd.root, hd.height, hroot, hlevel]
    exact ⟨rfl, hl.symm⟩
  rw [hat.1, hat.2] at hg hrest
  have hret : (if e.key < (p.records 14).key then a else alloc t.allocated) ≠ NULL := by
    split
    · exact ha0
    · exact hal.ne_null _
  have hy : Yields (fun fuel => Btree.store alloc fuel t a e.key e.ptr)
      (stores ++ Btree.newRootStores (t.run stores) (alloc (t.run stores).allocated) a
        (p.records 14).key (alloc t.allocated) (p.level + 1),
        if e.key < (p.records 14).key then a else alloc t.allocated) := by
    refine Yields.step (.const fun _ => rfl) ?_
    intro fuel
    rw [store_full hp hlive hstay (hcount.trans hfull) hp1 hs1 hstores,
      if_pos (h.follows.root.trans hroot.symm)]
  refine ⟨_, _, hy, hret, ?_, _, ?_, ?_, hcont'⟩
  · rw [always_append]
    exact ⟨himages, hg.mono (fun _ ht => shown_of_or ht (Or.inr hcont) (Or.inr hcont'))⟩
  · rw [Btree.run, List.foldl_append]
    exact hrest
  · intro l'
    show (if l' + 1 = G'.height ∨ l' = G'.height then none else G'.pending l') = none
    split
    · rfl
    · next hne =>
      rw [hd.height] at hne
      exact hd.closed l' (by omega)

theorem AtRest.length_lt (h : AtRest alloc μ t G) {l a c : ℕ} {e : Entry}
    (hb : G.Belongs l a c e) : (G.entries a).length < cardinality := by
  obtain ⟨A, lo, B, hc, _, _⟩ := hb.home
  obtain ⟨_, _, _, hrest⟩ := h.follows.page l hb.level A lo a B hc
  exact hrest.fits

/-- `store` at its place, by induction on the levels above. -/
theorem AtRest.store_yields (hal : Allocator alloc) (hμ : μ ≤ 14) (d : ℕ) {l a c : ℕ} {e : Entry}
    (h : AtRest alloc μ t G) (hl : l + d + 1 = G.height) (hb : G.Belongs l a c e)
    (hf : Fresh G l e) (hclosed : ∀ l', l' + 1 ≠ l → G.pending l' = none) :
    ∃ stores ret, Yields (fun fuel => Btree.store alloc fuel t a e.key e.ptr) (stores, ret) ∧
      ret ≠ NULL ∧ Stored alloc μ t G.contents (G.insertEntry l a c e).contents stores := by
  induction d generalizing t G l a c e with
  | zero =>
    by_cases hroom : (G.entries a).length + 1 < cardinality
    · obtain ⟨_, _, _, _, _, _, ha0⟩ := h.page_of hal hb
      obtain ⟨stores, hy, hs⟩ := h.store_of_room hal hb hf hclosed hroom
      exact ⟨stores, a, hy, ha0, hs⟩
    · have hlen := h.length_lt hb
      exact h.store_root hal hμ hl hb hf hclosed (by omega)
  | succ d ih =>
    obtain ⟨p, hp, hlive, hlevel, hcount, hstay, ha0⟩ := h.page_of hal hb
    by_cases hroom : (G.entries a).length + 1 < cardinality
    · obtain ⟨stores, hy, hs⟩ := h.store_of_room hal hb hf hclosed hroom
      exact ⟨stores, a, hy, ha0, hs⟩
    have hlen := h.length_lt hb
    have hfull : (G.entries a).length = cardinality - 1 := by omega
    obtain ⟨p1, s1, stores, hp1, hs1, hstores, himages, G', hd, hcont⟩ :=
      h.split_insert hal hμ hb hf hclosed hp hfull
    obtain ⟨e', he'⟩ : ∃ e' : Entry, e' = ⟨(p.records 14).key, alloc t.allocated⟩ := ⟨_, rfl⟩
    rw [← he'] at hd
    have hheight := hd.height
    have hpos := h.outline.pos
    have htop : G'.pending (G'.height - 1) = none := hd.closed _ (by omega)
    have hcell := hd.rest.root_cell htop
    -- the separator belongs to a page of the level above
    have hat : AtHome (G'.chain (l + 1 + d)) e'.key G'.root := by
      rw [show l + 1 + d = G'.height - 1 by omega, hcell]
      exact ⟨[], ⊥, [], rfl, bot_le, by simp⟩
    obtain ⟨a', hfind, hat'⟩ := hd.rest.readable.findLevel_home hal (l + 1) d (by omega)
      (fun l' hl' => hd.closed l' (by omega)) hat
    obtain ⟨x, hx, hxa⟩ := List.mem_map.mp hat'.mem
    have hne := hd.rest.outline.separator_entries (by omega) hd.missing hx
    rw [hxa] at hne
    have hinc := hd.rest.outline.entries_increasing (by omega) hx
    rw [hxa] at hinc
    obtain ⟨c', hc'⟩ := exists_place hinc hne
    have hb' : G'.Belongs (l + 1) a' c' e' := by
      refine ⟨by omega, hat', hc', ?_⟩
      intro l' hl'
      obtain rfl : l' = l := by omega
      exact hd.missing
    have hf' : Fresh G' (l + 1) e' := by
      refine ⟨hd.bounded, ?_, fun h0 => absurd h0 (by omega)⟩
      rw [he']
      exact hal.ne_null _
    obtain ⟨up, ret', hy', hret', hs'⟩ := ih hd.rest (by omega) hb' hf'
      (fun l' hl' => hd.closed l' (by omega))
    have hsame := hd.rest.outline.insertEntry_contents hb'
    -- the walk starts at the root
    obtain ⟨r, hr, hrl, _⟩ := hd.rest.readable.leaf_page (l := G'.height - 1) (by omega)
      (A := []) (B := []) hcell
    rw [← hd.rest.follows.root] at hr hfind
    have hup : Yields (fun fuel => Btree.btreeInsertInternal (Btree.store alloc fuel) fuel
        (t.run stores) (p.records 14).key (alloc t.allocated) (p.level + 1)) up := by
      rw [he'] at hy' hfind
      rw [hlevel]
      exact insertInternal_yields hr (by omega) hfind hy' hret'
    have hret : (if e.key < (p.records 14).key then a else alloc t.allocated) ≠ NULL := by
      split
      · exact ha0
      · exact hal.ne_null _
    refine ⟨stores ++ up, _, ?_, hret, ?_, ?_⟩
    · refine Yields.step (hup.bind (g := fun _ up => some (stores ++ up, _))
        (.const fun _ => rfl)) ?_
      intro fuel
      rw [store_full hp hlive hstay (hcount.trans hfull) hp1 hs1 hstores,
        if_neg (h.root_ne (hclosed _ (by omega)) hb.home.mem (by omega))]
    · rw [always_append]
      refine ⟨himages, ?_⟩
      refine hs'.images.mono ?_
      rintro t' ⟨G'', hr'', hor⟩
      rw [hsame, or_self] at hor
      exact ⟨G'', hr'', Or.inr (hor.trans hcont)⟩
    · obtain ⟨G'', hrest, hnone, hc''⟩ := hs'.rest
      refine ⟨G'', ?_, hnone, hc''.trans (hsame.trans hcont)⟩
      rw [Btree.run, List.foldl_append]
      exact hrest

end

end PmemStudy.FastFair
