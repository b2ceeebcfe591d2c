import PmemStudy.FastFair.Runs
import PmemStudy.FastFair.SerialInserts
import PmemStudy.FastFair.AnyValues

/-!
# The index interface of FAST&FAIR (fastfair/wrap.cpp)

The interface takes any 64-bit number for a key or a value and casts it. A tree that was
filled through it has keys that differ; of its values only that none is the address of a page
is known here.
-/

namespace PmemStudy.FastFair
open PmemStudy.Slots PmemStudy.Chain PmemStudy.Loop

namespace Wrap

/-- `fast_fair::Insert`: `bt->btree_insert((entry_key_t)key, (char *)value)`. -/
def insert (alloc : ℕ → ℕ) (fuel : ℕ) (t : Btree) (key value : BitVec 64) :
    Option (List TreeStore) := Btree.btreeInsert alloc fuel t key.toInt value.toNat

/-- `fast_fair::Get`: `(uint64_t)bt->btree_search((entry_key_t)key)`. -/
def get (fuel : ℕ) (t : Btree) (key : BitVec 64) : Option ℕ := t.btreeSearch fuel key.toInt

end Wrap

/-! ### The leaf that an insertion is stored in -/

namespace Btree

/-- Where `store` stops when it is called with the page at `a`. -/
def storePage (t : Btree) (key : ℤ) : ℕ → ℕ → Option ℕ
  | 0, _ => none
  | fuel + 1, a => do
    let p ← t.pages a
    let past ← t.beyond p key
    if past then storePage t key fuel p.siblingPtr else some a

/-- The leaf that `btree_insert` stores the key in. -/
def leafOf (t : Btree) (key : ℤ) (fuel : ℕ) : Option ℕ := do
  let a ← t.findLeaf key fuel t.root
  t.storePage key fuel a

end Btree

section
variable {alloc : ℕ → ℕ} {t : Btree} {G G' : Outline} {a : ℕ} {A B : List (Cell ℤ ℕ)}
  {lo : WithBot ℤ} {e : Entry}

/-- When the sibling test fails, the key belongs to the leaf. -/
theorem Linked.storePage_stop (h : Linked alloc t G) (hal : Allocator alloc)
    (hc : G.chain 0 = A ++ (lo, a) :: B) (hlo : lo ≤ ↑e.key) (hk : e.key ≤ longMax)
    (hinc : ∀ x ∈ G.chain 0, Increasing (G.entries x.2))
    (hleaf : AtHome (G.chain 0) e.key a ∨ ∀ d ∈ G.contents, d.key ≠ e.key)
    {p : Page} (hp : t.pages a = some p) (hbeyond : t.beyond p e.key = some false) :
    ∃ b, Yields (fun fuel => t.storePage e.key fuel a) b ∧ AtHome (G.chain 0) e.key b := by
  have hmem : ((lo, a) : Cell ℤ ℕ) ∈ G.chain 0 := by
    rw [hc]
    simp
  have ha : Arrival G 0 a e := ⟨h.woven.pos, ⟨_, hmem, rfl, hlo⟩, hk,
    fun _ => ⟨hinc _ hmem, hleaf⟩, fun l' hl' => absurd hl' (Nat.succ_ne_zero l')⟩
  refine ⟨a, Yields.step (g := fun _ => some a) (.const fun _ => rfl) ?_, A, lo, B, hc, hlo,
    ((h.target hal ha hc hlo hp hbeyond).leaf rfl).1⟩
  intro fuel
  rw [Btree.storePage, hp, Option.bind_eq_bind, Option.bind_some, hbeyond]
  rfl

theorem Linked.storePage_yields (h : Linked alloc t G) (hal : Allocator alloc)
    (hc : G.chain 0 = A ++ (lo, a) :: B) (hlo : lo ≤ ↑e.key) (hk : e.key ≤ longMax)
    (hinc : ∀ x ∈ G.chain 0, Increasing (G.entries x.2))
    (hleaf : AtHome (G.chain 0) e.key a ∨ ∀ d ∈ G.contents, d.key ≠ e.key) :
    ∃ b, Yields (fun fuel => t.storePage e.key fuel a) b ∧ AtHome (G.chain 0) e.key b := by
  have hpos := h.woven.pos
  induction B generalizing A lo a with
  | nil =>
    obtain ⟨p, hp, _⟩ := h.page hpos hc
    rcases h.neighbour hal hpos hc hp with ⟨_, h0⟩ | ⟨z, B', _, hnil, _⟩
    · refine h.storePage_stop hal hc hlo hk hinc hleaf hp ?_
      unfold Btree.beyond
      rw [if_neg (not_not.mpr h0)]
    · cases hnil
  | cons z B ih =>
    obtain ⟨p, hp, _⟩ := h.page hpos hc
    rcases h.neighbour hal hpos hc hp with ⟨hnil, _⟩ | ⟨z', B', q, hcons, hsib, hz, hq, hqpl, _⟩
    · cases hnil
    · obtain ⟨rfl, rfl⟩ := List.cons.inj hcons
      have hbeyond : t.beyond p e.key = some (decide ((q.records 0).key < e.key)) := by
        unfold Btree.beyond
        rw [hsib, if_pos hz, hq]
        rfl
      by_cases hk0 : (q.records 0).key < e.key
      · rw [decide_eq_true hk0] at hbeyond
        have hlt : z.1 ≤ ↑e.key := (hqpl.keys 0).trans (WithBot.coe_le_coe.mpr hk0.le)
        have hleaf' : AtHome (G.chain 0) e.key z.2 ∨ ∀ d ∈ G.contents, d.key ≠ e.key := by
          refine hleaf.imp_left fun hhome => ?_
          obtain ⟨A', lo', B', hc', _, hB'⟩ := hhome
          obtain ⟨_, _, rfl⟩ := h.woven.apart.split_unique hpos hc hc'
          exact absurd hlt (not_le.mpr (hB' z List.mem_cons_self))
        obtain ⟨b, hb, hhome⟩ := ih (show G.chain 0 = (A ++ [(lo, a)]) ++ (z.1, z.2) :: B by
          rw [hc]; simp) hlt hleaf'
        refine ⟨b, hb.step ?_, hhome⟩
        intro fuel
        rw [Btree.storePage, hp, Option.bind_eq_bind, Option.bind_some, hbeyond, hsib]
        rfl
      · rw [decide_eq_false hk0] at hbeyond
        exact h.storePage_stop hal hc hlo hk hinc hleaf hp hbeyond

theorem Linked.leafOf_yields (h : Linked alloc t G) (hal : Allocator alloc) (hk : e.key ≤ longMax)
    (hinc : ∀ x ∈ G.chain 0, Increasing (G.entries x.2))
    (hleaf : (∀ a, Yields (fun fuel => t.findLeaf e.key fuel t.root) a →
      AtHome (G.chain 0) e.key a) ∨ ∀ d ∈ G.contents, d.key ≠ e.key) :
    ∃ b, Yields (t.leafOf e.key) b ∧ AtHome (G.chain 0) e.key b := by
  obtain ⟨a, hfind, hland⟩ := h.findLeaf_lands hal e.key
  obtain ⟨A, lo, B, hc, hlo⟩ := hland.split
  obtain ⟨b, hb, hhome⟩ := h.storePage_yields hal hc hlo hk hinc
    (hleaf.imp_left fun hhome => hhome a hfind)
  exact ⟨b, hfind.bind hb, hhome⟩

/-! ### The leaf after the insertion -/

/-- Afterwards the keys of the leaf at `a` are looked up in `part`, all others where they were. -/
def Reads (G G' : Outline) (a : ℕ) (part : ℤ → List Entry) : Prop :=
  ∀ k b, AtHome (G.chain 0) k b →
    ∃ b', AtHome (G'.chain 0) k b' ∧ G'.entries b' = if b = a then part k else G.entries b

theorem Reads.sameLeaves {G'' : Outline} {part : ℤ → List Entry} (h : Reads G G' a part)
    (hs : SameLeaves G' G'') : Reads G G'' a part := by
  intro k b hb
  obtain ⟨b', hb', hent⟩ := h k b hb
  obtain ⟨x, hx, rfl⟩ := List.mem_map.mp hb'.mem
  refine ⟨x.2, ?_, (hs.entries x hx).trans hent⟩
  rw [hs.chain]
  exact hb'

theorem Outline.insertEntry_reads (G : Outline) (a c : ℕ) (e : Entry) :
    Reads G (G.insertEntry 0 a c e) a fun _ => (G.entries a).insertIdx c e := by
  intro k b hb
  refine ⟨b, hb, ?_⟩
  by_cases hba : b = a
  · rw [if_pos hba, hba, Outline.insertEntry_self]
  · rw [if_neg hba, Outline.insertEntry_other hba]

/-- The two halves of a full leaf. -/
theorem Linked.halve_reads (h : Linked alloc t G) {p : Page} {c b : ℕ} (hp : t.pages a = some p)
    (hT : Target G 0 A lo a B e) (hlen : (G.entries a).length = 29)
    (hs : G.Severs 0 A lo a B (p.records 14).key b (newLeftmost p) ((G.entries a).take 14)
      ((G.entries a).drop (cutAt p)))
    (hspot : Spot (if e.key < (p.records 14).key then (G.entries a).take 14
      else (G.entries a).drop (cutAt p)) e.key c)
    (hsorted : Sorted ((G.halve 0 A lo a B p b c e).chain 0)) :
    ∃ part, Parted p (G.entries a) e part ∧ Reads G (G.halve 0 A lo a B p b c e) a part := by
  have hab : a ≠ b := hs.cuts.ne
  have hcut : cutAt p = 14 := by
    obtain ⟨p', hp', hpl, _⟩ := h.page hT.level hT.chain
    rw [hp] at hp'
    obtain rfl := Option.some.inj hp'
    refine if_pos ?_
    rw [hpl.leftmostPtr]
    exact hpl.leaf.mpr rfl
  have hchain : (G.halve 0 A lo a B p b c e).chain 0 =
      A ++ (lo, a) :: (↑(p.records 14).key, b) :: B := hs.cuts.chain_cut
  have hn := h.woven.apart.nodup 0 h.woven.pos
  rw [hchain] at hsorted
  rw [hs.chain] at hn
  rw [hcut] at hspot
  have hhome : ∀ {k d}, AtHome (G.chain 0) k d → AtHome ((G.halve 0 A lo a B p b c e).chain 0) k
      (if d = a then if (k : WithBot ℤ) < ↑(p.records 14).key then a else b else d) := by
    intro k d hd
    rw [hs.chain] at hd
    rw [hchain]
    exact hd.cut hn hsorted
  have hother : ∀ {k d}, AtHome (G.chain 0) k d → d ≠ a →
      (G.halve 0 A lo a B p b c e).entries d = G.entries d := by
    intro k d hd hda
    obtain ⟨x, hx, rfl⟩ := List.mem_map.mp hd.mem
    exact halve_other hda (hs.fresh 0 h.woven.pos x hx)
  have hold := hs.old
  have hnew : (G.sever 0 A lo a B (p.records 14).key b (newLeftmost p) ((G.entries a).take 14)
      ((G.entries a).drop (cutAt p))).entries b = (G.entries a).drop 14 := by
    rw [Outline.Severs.new, hcut]
  by_cases hk : e.key < (p.records 14).key
  · rw [if_pos hk] at hspot
    refine ⟨_, .left c hlen hk hspot, ?_⟩
    intro k d hd
    refine ⟨_, hhome hd, ?_⟩
    by_cases hda : d = a
    · rw [if_pos hda, if_pos hda]
      unfold Outline.halve
      rw [if_pos hk]
      beta_reduce
      by_cases hks : k < (p.records 14).key
      · rw [if_pos (WithBot.coe_lt_coe.mpr hks), if_pos hks, Outline.insertEntry_self, hold]
      · rw [if_neg (fun hc => hks (WithBot.coe_lt_coe.mp hc)), if_neg hks,
          Outline.insertEntry_other hab.symm, hnew]
    · rw [if_neg hda, if_neg hda]
      exact hother hd hda
  · rw [if_neg hk] at hspot
    refine ⟨_, .right c hlen (not_lt.mp hk) hspot, ?_⟩
    intro k d hd
    refine ⟨_, hhome hd, ?_⟩
    by_cases hda : d = a
    · rw [if_pos hda, if_pos hda]
      unfold Outline.halve
      rw [if_neg hk]
      beta_reduce
      by_cases hks : k < (p.records 14).key
      · rw [if_pos (WithBot.coe_lt_coe.mpr hks), if_pos hks, Outline.insertEntry_other hab, hold]
      · rw [if_neg (fun hc => hks (WithBot.coe_lt_coe.mp hc)), if_neg hks,
          Outline.insertEntry_self, hnew]
    · rw [if_neg hda, if_neg hda]
      exact hother hd hda

/-- A leaf that has taken an entry had room for it. -/
theorem Linked.put_room {t' : Btree} {c : ℕ} (h : Linked alloc t' G')
    (hsame : SameLeaves (G.insertEntry 0 a c e) G') (hc : G.chain 0 = A ++ (lo, a) :: B)
    (hle : c ≤ (G.entries a).length) : (G.entries a).length < 29 := by
  have hc' : G'.chain 0 = A ++ (lo, a) :: B := hsame.chain.trans hc
  obtain ⟨q, _, _, hq⟩ := h.page h.woven.pos hc'
  have hfits := hq.fits
  rw [hsame.entries (lo, a) (by rw [show (G.insertEntry 0 a c e).chain 0 = _ from hc]; simp),
    Outline.insertEntry_self, List.length_insertIdx_of_le_length hle, cardinality_eq] at hfits
  omega

/-- What the section on the leaf has made of it. -/
theorem StoredAs.parted {o : Btree.Outcome} {G1 : Outline} {t' : Btree}
    (h : StoredAs alloc t G 0 a e o G1) (hl : Linked alloc t G) (hsame : SameLeaves G1 G')
    (hl' : Linked alloc t' G') :
    AtHome (G.chain 0) e.key a ∧ ∃ p part, t.pages a = some p ∧ Parted p (G.entries a) e part ∧
      Reads G G' a part := by
  have hsorted := hl'.woven.leaf_sorted
  rw [hsame.chain] at hsorted
  cases h with
  | put c ret hp =>
    obtain ⟨A, lo, B, hc, _⟩ := hp.landing.split
    obtain ⟨p, hpage, _⟩ := hl.page hl.woven.pos hc
    have hlen := hl'.put_room hsame hc hp.spot.le
    exact ⟨hp.leaf rfl, p, _, hpage, .whole c hlen hp.spot, (G.insertEntry_reads a c e).sameLeaves hsame⟩
  | split A B lo p c ret hp hT hlen hs hspot hup =>
    obtain ⟨part, hpart, hreads⟩ := hl.halve_reads hp hT hlen hs hspot hsorted
    exact ⟨⟨A, lo, B, hT.chain, hT.low, (hT.leaf rfl).1⟩, p, part, hp, hpart,
      hreads.sameLeaves hsame⟩
  | grow A B lo p c ret hp hT hlen hs hspot ht =>
    have hleaves := ht.sameLeaves hl.woven.pos
    rw [hleaves.chain] at hsorted
    obtain ⟨part, hpart, hreads⟩ := hl.halve_reads hp hT hlen hs hspot hsorted
    exact ⟨⟨A, lo, B, hT.chain, hT.low, (hT.leaf rfl).1⟩, p, part, hp, hpart,
      (hreads.sameLeaves hleaves).sameLeaves hsame⟩

/-! ### One insertion -/

/-- The search for `k` gives the same result in both trees. -/
def SameSearch (t t' : Btree) (k : ℤ) : Prop :=
  ∃ r, Yields (fun fuel => t.btreeSearch fuel k) r ∧ Yields (fun fuel => t'.btreeSearch fuel k) r

theorem SameLeaves.contents (h : SameLeaves G G') : G'.contents = G.contents := by
  unfold Outline.contents
  rw [h.chain]
  exact List.flatMap_congr h.entries

theorem sameSearch_iff (h : Linked alloc t G) (hal : Allocator alloc) {t' : Btree}
    (h' : Linked alloc t' G') (hvalue : ∀ d ∈ G.contents, ∀ i, d.ptr ≠ alloc i)
    (hvalue' : ∀ d ∈ G'.contents, ∀ i, d.ptr ≠ alloc i) {part : ℤ → List Entry}
    (hreads : Reads G G' a part) (k : ℤ) : ∃ b, AtHome (G.chain 0) k b ∧
      (SameSearch t t' k ↔ (b = a → read (part k) k = read (G.entries a) k)) := by
  obtain ⟨b, hb, hy⟩ := h.search_yields hal hvalue k
  obtain ⟨c, hc, hy'⟩ := h'.search_yields hal hvalue' k
  obtain ⟨c', hc', hent⟩ := hreads k b hb
  obtain rfl := hc.unique h'.woven.leaf_sorted hc'
  rw [hent] at hy'
  refine ⟨b, hb, ?_⟩
  constructor
  · rintro ⟨r, h1, h2⟩ hba
    rw [if_pos hba] at hy'
    rw [hba] at hy
    rw [hy'.unique h2, hy.unique h1]
  · intro heq
    refine ⟨_, hy, ?_⟩
    by_cases hba : b = a
    · rw [if_pos hba, heq hba] at hy'
      rw [hba]
      exact hy'
    · rw [if_neg hba] at hy'
      exact hy'

/-- An insertion of a new key leaves the answers for the others alone exactly when the leaf of
the key is undisturbed. -/
theorem Linked.insert_undisturbed (h : Linked alloc t G) (hal : Allocator alloc)
    (hnodup : (G.contents.map (·.key)).Nodup)
    (hvalue : ∀ d ∈ G.contents, ∀ i, d.ptr ≠ alloc i) (hk : e.key ≤ longMax)
    (hv : ∀ i, e.ptr ≠ alloc i) (hnew : ∀ d ∈ G.contents, d.key ≠ e.key) :
    ∃ stores a p, Yields (fun fuel => Btree.btreeInsert alloc fuel t e.key e.ptr) stores ∧
      (∃ G', Linked alloc (t.run stores) G' ∧ G'.contents.Perm (e :: G.contents)) ∧
      Yields (t.leafOf e.key) a ∧ t.pages a = some p ∧
      (p.Undisturbed e.key e.ptr → ∀ k, k ≠ e.key → SameSearch t (t.run stores) k) ∧
      ((∀ d ∈ G.contents, SameSearch t (t.run stores) d.key) → p.Undisturbed e.key e.ptr) := by
  have hinc : ∀ x ∈ G.chain 0, Increasing (G.entries x.2) :=
    fun x hx => h.woven.leaf_increasing hnodup hx
  obtain ⟨stores, hy, a, o, G1, G', hstored, hsame, hlinked⟩ :=
    h.insert_yields hal hk hinc (Or.inr hnew)
  obtain ⟨hhome, p, part, hp, hpart, hreads⟩ := hstored.parted h hsame hlinked
  obtain ⟨b, hb, hhome'⟩ := h.leafOf_yields hal hk hinc (Or.inr hnew)
  obtain rfl := hhome.unique h.woven.leaf_sorted hhome'
  have hperm : G'.contents.Perm (e :: G.contents) := by
    rw [hsame.contents]
    exact (hstored.contents h.woven).1 rfl
  have hvalue' : ∀ d ∈ G'.contents, ∀ i, d.ptr ≠ alloc i := by
    intro d hd
    rcases List.mem_cons.mp (hperm.mem_iff.mp hd) with rfl | hd
    · exact hv
    · exact hvalue d hd
  obtain ⟨x, hx, rfl⟩ := List.mem_map.mp hhome.mem
  have hfilled : Filled p (G.entries x.2) := by
    obtain ⟨A, B, hAB⟩ := List.append_of_mem hx
    obtain ⟨q, hq, _, hstands⟩ := h.page h.woven.pos hAB
    rw [hp] at hq
    obtain rfl := Option.some.inj hq
    exact hstands.toFilled
  have hnew' : ∀ d ∈ G.entries x.2, d.key ≠ e.key := fun d hd => hnew d (mem_contents hx hd)
  have hiff := hpart.undisturbed_iff hfilled (hinc x hx) hnew'
  refine ⟨stores, x.2, p, hy, ⟨G', hlinked, hperm⟩, hb, hp, ?_, ?_⟩
  · intro hund k hke
    obtain ⟨b, hbk, hsearch⟩ := sameSearch_iff h hal hlinked hvalue hvalue' hreads k
    refine hsearch.mpr ?_
    rintro rfl
    by_cases hkey : ∃ d ∈ G.entries x.2, d.key = k
    · obtain ⟨d, hd, rfl⟩ := hkey
      obtain ⟨i, hi, rfl⟩ := List.getElem_of_mem hd
      exact hiff.mpr hund i hi
    · have habsent : ∀ d ∈ G.entries x.2, d.key ≠ k := fun d hd hdk => hkey ⟨d, hd, hdk⟩
      rw [read_of_absent habsent, read_of_absent]
      intro d hd
      rcases hpart.subset hd with rfl | hd
      · exact hke.symm
      · exact habsent d hd
  · intro hall
    refine hiff.mp ?_
    intro i hi
    have hd := List.getElem_mem hi
    obtain ⟨b, hbk, hsearch⟩ :=
      sameSearch_iff h hal hlinked hvalue hvalue' hreads (G.entries x.2)[i].key
    exact hsearch.mp (hall _ (mem_contents hx hd))
      (hbk.unique h.woven.leaf_sorted (h.woven.entry_home hx hd))

end

/-! ### Trees filled through the interface -/

/-- `t` is reached by insertions of the keys `ks`, the last one first. -/
inductive Filling (alloc : ℕ → ℕ) : Btree → List (BitVec 64) → Prop
  | new : Filling alloc (Btree.new alloc) []
  | insert {t : Btree} {ks : List (BitVec 64)} {k v : BitVec 64} {stores : List TreeStore}
      (h : Filling alloc t ks) (hk : k ∉ ks) (hv : ∀ n, v.toNat ≠ alloc n)
      (hy : Yields (fun fuel => Wrap.insert alloc fuel t k v) stores) :
      Filling alloc (t.run stores) (k :: ks)

/-- What is known of a tree with these keys. -/
structure Holding (alloc : ℕ → ℕ) (t : Btree) (ks : List (BitVec 64)) (G : Outline) : Prop where
  linked : Linked alloc t G
  nodup : (G.contents.map (·.key)).Nodup
  keys : ∀ d ∈ G.contents, ∃ k ∈ ks, d.key = k.toInt
  values : ∀ d ∈ G.contents, ∀ n, d.ptr ≠ alloc n

section
variable {alloc : ℕ → ℕ} {t : Btree} {ks : List (BitVec 64)} {k v : BitVec 64} {G : Outline}

theorem toInt_le_longMax (k : BitVec 64) : k.toInt ≤ longMax := by
  have h := BitVec.toInt_lt (x := k)
  unfold longMax
  omega

theorem Holding.new_key (h : Holding alloc t ks G) (hk : k ∉ ks) :
    ∀ d ∈ G.contents, d.key ≠ k.toInt := by
  intro d hd hdk
  obtain ⟨k', hk', hkey⟩ := h.keys d hd
  rw [hdk] at hkey
  exact hk (BitVec.eq_of_toInt_eq hkey ▸ hk')

theorem Filling.holding (hal : Allocator alloc) (h : Filling alloc t ks) :
    ∃ G, Holding alloc t ks G := by
  induction h with
  | new =>
    have hnil : (Outline.new alloc).contents = [] := rfl
    refine ⟨_, .new alloc, ?_, ?_, ?_⟩
    · rw [hnil]
      exact List.nodup_nil
    · rw [hnil]
      exact fun d hd => absurd hd List.not_mem_nil
    · rw [hnil]
      exact fun d hd => absurd hd List.not_mem_nil
  | insert h hk hv hy ih =>
    rename_i t ks k v stores
    obtain ⟨G, hG⟩ := ih
    obtain ⟨stores', _, _, hy', ⟨G', hlinked, hperm⟩, _⟩ :=
      hG.linked.insert_undisturbed (e := ⟨k.toInt, v.toNat⟩) hal hG.nodup hG.values
        (toInt_le_longMax k) hv (hG.new_key hk)
    obtain rfl := hy'.unique hy
    refine ⟨G', hlinked, ?_, ?_, ?_⟩
    · rw [(hperm.map (·.key)).nodup_iff, List.map_cons, List.nodup_cons]
      refine ⟨?_, hG.nodup⟩
      intro hmem
      obtain ⟨d, hd, hdk⟩ := List.mem_map.mp hmem
      exact hG.new_key hk d hd hdk
    · intro d hd
      rcases List.mem_cons.mp (hperm.mem_iff.mp hd) with rfl | hd
      · exact ⟨k, List.mem_cons_self, rfl⟩
      · obtain ⟨k', hk', hkey⟩ := hG.keys d hd
        exact ⟨k', List.mem_cons_of_mem k hk', hkey⟩
    · intro d hd
      rcases List.mem_cons.mp (hperm.mem_iff.mp hd) with rfl | hd
      · exact hv
      · exact hG.values d hd

/-- `Insert` of a new key leaves `Get` of all other keys alone exactly when the leaf that the
key goes to is undisturbed. -/
theorem filling_insert_iff (hal : Allocator alloc) (h : Filling alloc t ks) (hk : k ∉ ks)
    (hv : ∀ n, v.toNat ≠ alloc n) :
    ∃ stores a p, Yields (fun fuel => Wrap.insert alloc fuel t k v) stores ∧
      Yields (t.leafOf k.toInt) a ∧ t.pages a = some p ∧
      ((∀ k', k' ≠ k → ∃ r, Yields (fun fuel => Wrap.get fuel t k') r ∧
        Yields (fun fuel => Wrap.get fuel (t.run stores) k') r) ↔
          p.Undisturbed k.toInt v.toNat) := by
  obtain ⟨G, hG⟩ := h.holding hal
  obtain ⟨stores, a, p, hy, _, ha, hp, hto, hfrom⟩ :=
    hG.linked.insert_undisturbed (e := ⟨k.toInt, v.toNat⟩) hal hG.nodup hG.values
      (toInt_le_longMax k) hv (hG.new_key hk)
  refine ⟨stores, a, p, hy, ha, hp, ?_, ?_⟩
  · intro hall
    refine hfrom ?_
    intro d hd
    obtain ⟨k', hk', hkey⟩ := hG.keys d hd
    rw [hkey]
    exact hall k' (fun heq => hk (heq ▸ hk'))
  · intro hund k' hk'
    exact hto hund k'.toInt (fun heq => hk' (BitVec.eq_of_toInt_eq heq))

end

/-- The leaf with 3 -> 11 and 7 -> 13. -/
def threeAndSeven : Page := ((Page.new 0).afterInsert 3 11).afterInsert 7 13

theorem threeAndSeven_alone : threeAndSeven.Alone :=
  ⟨by decide +kernel, by decide +kernel, by decide +kernel⟩

theorem threeAndSeven_filling : Filling evens (Btree.single evens threeAndSeven) [7, 3] := by
  have hodd : ∀ m n, 2 * m + 1 ≠ evens n := fun m n => by
    unfold evens
    omega
  have h1 : Filling evens _ [3] := .insert (k := 3) (v := 11) .new List.not_mem_nil (hodd 5)
    (single_insert evens_allocator (p := Page.new 0) ⟨rfl, rfl, rfl⟩ (by decide) 3 11)
  have hroom : ((Page.new 0).afterInsert 3 11).Alone :=
    ⟨by decide +kernel, by decide +kernel, by decide +kernel⟩
  have h2 : Filling evens _ [7, 3] := .insert (k := 7) (v := 13) h1 (by decide) (hodd 6) (by
    rw [← Btree.single_new, Btree.run_single]
    exact single_insert evens_allocator hroom (by decide +kernel) 7 13)
  rw [← Btree.single_new, Btree.run_single, Btree.run_single] at h2
  exact h2

/-- 5 -> 15 goes between the two and hides neither. -/
theorem filling_insert_iff_between : ∃ stores,
    Yields (fun fuel => Wrap.insert evens fuel (Btree.single evens threeAndSeven) 5 15) stores ∧
      ∀ k', k' ≠ 5 → ∃ r,
        Yields (fun fuel => Wrap.get fuel (Btree.single evens threeAndSeven) k') r ∧
        Yields (fun fuel => Wrap.get fuel ((Btree.single evens threeAndSeven).run stores) k') r := by
  obtain ⟨stores, a, p, hy, _, hp, hiff⟩ := filling_insert_iff (k := 5) (v := 15) evens_allocator
    threeAndSeven_filling (by decide) (fun n => by unfold evens; simp; omega)
  obtain rfl := Btree.page_single hp
  exact ⟨stores, hy, hiff.mpr (by decide +kernel)⟩

/-- `Insert(5, 0)` hides key 7. -/
theorem null_value_hides : ∃ t stores, Filling evens t [7, 3] ∧ (5 : BitVec 64) ∉ [7, 3] ∧
    (∀ n, (0 : BitVec 64).toNat ≠ evens n) ∧
    Yields (fun fuel => Wrap.insert evens fuel t 5 0) stores ∧
    Yields (fun fuel => Wrap.get fuel t 7) 13 ∧
    Yields (fun fuel => Wrap.get fuel (t.run stores) 7) NULL := by
  have hins := single_insert evens_allocator threeAndSeven_alone (by decide +kernel) 5 0
  have hafter : (threeAndSeven.afterInsert 5 0).Alone :=
    ⟨by decide +kernel, by decide +kernel, by decide +kernel⟩
  refine ⟨_, _, threeAndSeven_filling, by decide, fun n => by unfold evens; simp, hins, ?_, ?_⟩
  · have hy : Yields (fun fuel => Wrap.get fuel (Btree.single evens threeAndSeven) 7) _ :=
      single_search threeAndSeven_alone 7
    rwa [show threeAndSeven.search 7 = 13 by decide +kernel] at hy
  · rw [Btree.run_single]
    have hy : Yields (fun fuel => Wrap.get fuel (Btree.single evens
      (threeAndSeven.afterInsert 5 0)) 7) _ := single_search hafter 7
    rwa [show (threeAndSeven.afterInsert 5 0).search 7 = NULL by decide +kernel] at hy

end PmemStudy.FastFair
