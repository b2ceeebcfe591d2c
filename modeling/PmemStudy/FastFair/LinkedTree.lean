import PmemStudy.FastFair.Links
import PmemStudy.FastFair.NewRoot
import PmemStudy.FastFair.Sections

/-!
# Trees with insertions under way

A tree follows a woven outline between any two locked sections, however many separators are
on their way. A section that stores its entry changes the outline in one of three ways: an
entry more, a page cut in two, a new root.
-/

namespace PmemStudy.FastFair
open PmemStudy.Slots PmemStudy.Chain

/-- A page from which nothing was ever removed: there is nothing behind its records. -/
structure Stands (p : Page) (es : List Entry) : Prop extends Filled p es where
  empty : es = [] → (p.records 1).ptr = NULL

structure Linked (alloc : ℕ → ℕ) (t : Btree) (G : Outline) : Prop where
  woven : G.Woven
  top : G.chain (G.height - 1) = [(⊥, G.root)]
  follows : Follows alloc (fun _ a _ p => Stands p (G.entries a)) t G
  bounded : ∀ l < G.height, ∀ x ∈ G.chain l, ∀ e ∈ G.entries x.2, e.key ≤ longMax

section
variable {alloc : ℕ → ℕ} {t : Btree} {G : Outline} {l a : ℕ} {A B : List (Cell ℤ ℕ)}
  {lo : WithBot ℤ} {p x y : Page} {e : Entry}

theorem Filled.stands {es : List Entry} (h : Filled p es) (hne : es ≠ []) : Stands p es :=
  ⟨h, fun h0 => absurd h0 hne⟩

theorem insertIdx_ne_nil {es : List Entry} {c : ℕ} (hc : c ≤ es.length) : es.insertIdx c e ≠ [] := by
  intro hnil
  have hlen := List.length_insertIdx_of_le_length hc e
  rw [hnil] at hlen
  cases hlen

/-- The address of a page of the tree is not null. -/
theorem Follows.ne_null {R : ℕ → ℕ → List (Cell ℤ ℕ) → Page → Prop} (h : Follows alloc R t G)
    (hal : Allocator alloc) (hl : l < G.height) {z : Cell ℤ ℕ} (hz : z ∈ G.chain l) :
    z.2 ≠ NULL := by
  obtain ⟨i, _, hi⟩ := h.address l hl z hz
  rw [hi]
  exact hal.ne_null i

/-- Only the root is alone in its level. -/
theorem Linked.below_root (h : Linked alloc t G) (hl : l < G.height)
    (ha : (lo, a) ∈ G.chain l) (hroot : t.root ≠ a) : l + 1 < G.height := by
  by_contra htop
  have htop' : G.height - 1 = l := by omega
  have hchain := h.top
  rw [htop'] at hchain
  rw [hchain] at ha
  have hra : a = G.root := congrArg Prod.snd (List.mem_singleton.mp ha)
  exact hroot (h.follows.root.trans hra.symm)

theorem Linked.root_level (h : Linked alloc t G) (hl : l < G.height)
    (ha : (lo, a) ∈ G.chain l) (hroot : t.root = a) : l + 1 = G.height ∧ lo = ⊥ := by
  have htop : ((⊥, G.root) : Cell ℤ ℕ) ∈ G.chain (G.height - 1) := by
    rw [h.top]
    exact List.mem_singleton_self _
  have hpos := h.woven.pos
  obtain ⟨hlev, hcell⟩ := h.woven.apart.cell_unique hl (by omega) ha htop
    (hroot.symm.trans h.follows.root)
  exact ⟨by omega, congrArg Prod.fst hcell⟩

/-! ### One entry more -/

theorem Linked.put (h : Linked alloc t G) {c : ℕ} (hp : G.Puts l a c e)
    (hpage : t.pages a = some p) (hx : Filled x ((G.entries a).insertIdx c e))
    (ht : Touched e.key p x) (hk : e.key ≤ longMax) :
    Linked alloc (t.setPage a x) (G.insertEntry l a c e) := by
  obtain ⟨A, lo, B, hc, hlo⟩ := hp.landing.split
  obtain ⟨p', hp', hpl, _⟩ := h.follows.page l hp.level A lo a B hc
  rw [hpage] at hp'
  obtain rfl := Option.some.inj hp'
  refine ⟨h.woven.insertEntry hp, h.top, ?_, ?_⟩
  · refine h.follows.setPage (fun _ b _ q => Stands q ((G.insertEntry l a c e).entries b))
      (G.insertEntry l a c e) h.woven.apart rfl rfl rfl rfl hp.level hc ⟨hpl.touched ht hlo, ?_⟩ ?_
    · rw [Outline.insertEntry_self]
      exact hx.stands (insertIdx_ne_nil hp.spot.le)
    · intro l' b B' q hb hq
      rw [Outline.insertEntry_other hb]
      exact hq
  · intro l' hl' z hz b hb
    by_cases hza : z.2 = a
    · rw [hza, Outline.insertEntry_self] at hb
      rcases (List.mem_insertIdx hp.spot.le).mp hb with rfl | hb
      · exact hk
      · rw [← hza] at hb
        exact h.bounded l' hl' z hz b hb
    · rw [Outline.insertEntry_other hza] at hb
      exact h.bounded l' hl' z hz b hb

/-! ### A new root -/

theorem Follows.crown (hf : Follows alloc (fun _ d _ q => Stands q (G.entries d)) t G)
    (hw : G.Woven)
    (hb : ∀ l < G.height, ∀ z ∈ G.chain l, ∀ d ∈ G.entries z.2, d.key ≤ longMax)
    (ht : G.Tops (alloc t.allocated) e) (hroot : G.root ≠ NULL) (hk : e.key ≤ longMax) :
    Linked alloc (t.growTo (alloc t.allocated) (Page.newRoot G.root e.key e.ptr G.height))
      (G.grow (alloc t.allocated) e) := by
  refine ⟨hw.grow ht, Outline.grow_top, ?_, ?_⟩
  · refine hf.grow _ ht.fresh hroot hw.pos rfl (Nat.lt_succ_self _) (Btree.growTo_new _ _ _)
      (fun d hd => Btree.growTo_other _ _ hd) ?_ ?_
    · rw [Outline.grow_root]
      exact (Page.newRoot_filled _ _ _ _).stands (List.cons_ne_nil _ _)
    · intro l' d B' q hd hq
      rw [show (G.grow (alloc t.allocated) e).entries d = G.entries d from
        Function.update_of_ne hd _ _]
      exact hq
  · intro l' hl' z hz d hd
    by_cases hlt : l' < G.height
    · rw [Outline.grow_chain hlt] at hz
      rw [(ht.frame hlt hz).2] at hd
      exact hb l' hlt z hz d hd
    · obtain rfl : l' = G.height := by
        have : l' < G.height + 1 := hl'
        omega
      rw [Outline.grow_top] at hz
      rw [List.mem_singleton.mp hz, Outline.grow_root] at hd
      rw [List.mem_singleton.mp hd]
      exact hk

/-! ### A full page -/

/-- The leftmost pointer of the new page of a split. -/
def newLeftmost (p : Page) : ℕ := if p.leftmostPtr = NULL then NULL else (p.records 14).ptr

/-- A full page is cut at its record 14. -/
theorem Linked.severs (h : Linked alloc t G) (hal : Allocator alloc) (hl : l < G.height)
    (hc : G.chain l = A ++ (lo, a) :: B) (hp : t.pages a = some p)
    (hlen : (G.entries a).length = 29) (hstrict : l = 0 → Increasing (G.entries a)) :
    G.Severs l A lo a B (p.records 14).key (alloc t.allocated) (newLeftmost p)
      ((G.entries a).take 14) ((G.entries a).drop (cutAt p)) := by
  obtain ⟨p', hp', hpl, hstands⟩ := h.follows.page l hl A lo a B hc
  rw [hp] at hp'
  obtain rfl := Option.some.inj hp'
  have hmem : ((lo, a) : Cell ℤ ℕ) ∈ G.chain l := by
    rw [hc]
    simp
  have hrec := hstands.record 14 (by omega)
  have hleaf : p.leftmostPtr = NULL ↔ l = 0 := by
    rw [hpl.leftmostPtr]
    exact hpl.leaf
  have hdrop : (G.entries a).drop 14 = (G.entries a)[14] :: (G.entries a).drop 15 :=
    List.drop_eq_getElem_cons (by omega)
  have hcut : 14 ≤ cutAt p := by rcases cutAt_cases p with h | h <;> omega
  refine ⟨hl, hc, h.follows.unused hal (le_refl _), ?_, ?_, ?_, ?_, ?_⟩
  · intro hnil
    have := congrArg List.length hnil
    rw [List.length_take, hlen, List.length_nil] at this
    omega
  · intro hnil
    have := congrArg List.length hnil
    rw [List.length_drop, hlen, List.length_nil] at this
    rcases cutAt_cases p with h | h <;> omega
  · by_cases h0 : l = 0
    · rw [if_pos h0, cutAt, if_pos (hleaf.mpr h0), List.take_append_drop]
    · have hne : ¬ p.leftmostPtr = NULL := fun hn => h0 (hleaf.mp hn)
      rw [if_neg h0, cutAt, if_neg hne, newLeftmost, if_neg hne, hrec]
      show G.entries a = (G.entries a).take 14 ++ (G.entries a)[14] :: (G.entries a).drop 15
      rw [← hdrop, List.take_append_drop]
  · exact (h.woven.ascending l hl _ hmem).right_half hstands.toFilled hlen hcut
  · intro h0
    rw [cutAt, if_pos (hleaf.mpr h0), hrec]
    refine ⟨?_, (G.entries a)[14].ptr, (G.entries a).drop 15, hdrop⟩
    intro b hb
    obtain ⟨i, hi, rfl⟩ := List.mem_take_iff_getElem.mp hb
    exact List.pairwise_iff_getElem.mp (hstrict h0) i 14 (by omega) (by omega) (by omega)

/-- The page at `a` is cut, and `e` is put into the half that it belongs to. -/
def Outline.halve (G : Outline) (l : ℕ) (A : List (Cell ℤ ℕ)) (lo : WithBot ℤ) (a : ℕ)
    (B : List (Cell ℤ ℕ)) (p : Page) (b c : ℕ) (e : Entry) : Outline :=
  (G.sever l A lo a B (p.records 14).key b (newLeftmost p) ((G.entries a).take 14)
    ((G.entries a).drop (cutAt p))).insertEntry l
      (if e.key < (p.records 14).key then a else b) c e

/-- What a storing section has to know of its page, which is at `a`, and its entry. -/
structure Target (G : Outline) (l : ℕ) (A : List (Cell ℤ ℕ)) (lo : WithBot ℤ) (a : ℕ)
    (B : List (Cell ℤ ℕ)) (e : Entry) : Prop where
  level : l < G.height
  chain : G.chain l = A ++ (lo, a) :: B
  low : lo ≤ ↑e.key
  key : e.key ≤ longMax
  leaf : l = 0 → (∀ z ∈ B, ↑e.key < z.1) ∧ Increasing (G.entries a)
  node : ∀ l', l' + 1 = l → G.Missing l' e

theorem Target.puts {G : Outline} (h : Target G l A lo a B e) {c : ℕ}
    (hs : Spot (G.entries a) e.key c) : G.Puts l a c e := by
  refine ⟨h.level, hs, ⟨(lo, a), by rw [h.chain]; simp, rfl, h.low⟩, ?_, h.node⟩
  rintro rfl
  exact ⟨A, lo, B, h.chain, h.low, (h.leaf rfl).1⟩

theorem Outline.Missing.sever {s : ℤ} {b lm l' : ℕ} {left right : List Entry} {e' : Entry}
    (h : G.Missing l' e') (hs : G.Severs l A lo a B s b lm left right) (hG : G.Apart) :
    (G.sever l A lo a B s b lm left right).Missing l' e' := by
  refine ⟨h.level, hs.cuts.subset l' h.page, ?_⟩
  rw [hs.referred hG h.level]
  exact h.unreferred

theorem Outline.Missing.insertEntry {c l' : ℕ} {e' : Entry} (h : G.Missing l' e')
    (hp : G.Puts l a c e) (hG : G.Apart) (hne : l' + 1 = l → e'.ptr ≠ e.ptr) :
    (G.insertEntry l a c e).Missing l' e' := by
  refine ⟨h.level, h.page, ?_⟩
  by_cases hll : l' + 1 = l
  · subst l
    rw [((hp.referred hG).map (·.2)).mem_iff, List.map_cons, List.mem_cons, not_or]
    exact ⟨hne rfl, h.unreferred⟩
  · rw [insertEntry_referred hG hp.level hp.mem h.level hll]
    exact h.unreferred

theorem Outline.Missing.grow {r l' : ℕ} {e' : Entry} (h : G.Missing l' e') (ht : G.Tops r e) :
    (G.grow r e).Missing l' e' := by
  have hl : l' < G.height := by
    have := h.level
    omega
  refine ⟨Nat.lt_succ_of_lt h.level, ?_, ?_⟩
  · rw [grow_chain hl]
    exact h.page
  · rcases ht.referred hl with ⟨htop, _⟩ | ⟨_, heq⟩
    · exact absurd h.level (by omega)
    · rw [heq]
      exact h.unreferred

/-- After the cut the entry can be put into the half that `halve` takes. -/
theorem Target.puts_sever (h : Target G l A lo a B e) (hG : G.Apart) {b lm c : ℕ}
    {left right : List Entry} {s : ℤ} (hs : G.Severs l A lo a B s b lm left right)
    (hspot : Spot (if e.key < s then left else right) e.key c) :
    (G.sever l A lo a B s b lm left right).Puts l (if e.key < s then a else b) c e := by
  have hcut := hs.cuts.chain_cut
  by_cases hk : e.key < s
  · rw [if_pos hk] at hspot ⊢
    refine ⟨h.level, by rw [hs.old]; exact hspot, ⟨(lo, a), ?_, rfl, h.low⟩, ?_,
      fun l' hl' => (h.node l' hl').sever hs hG⟩
    · rw [hcut]
      simp
    · rintro rfl
      refine ⟨A, lo, (↑s, b) :: B, hcut, h.low, ?_⟩
      intro z hz
      rcases List.mem_cons.mp hz with rfl | hz
      · exact WithBot.coe_lt_coe.mpr hk
      · exact (h.leaf rfl).1 z hz
  · rw [if_neg hk] at hspot ⊢
    have hge : (s : WithBot ℤ) ≤ ↑e.key := WithBot.coe_le_coe.mpr (not_lt.mp hk)
    refine ⟨h.level, by rw [Outline.Severs.new]; exact hspot, ⟨(↑s, b), ?_, rfl, hge⟩, ?_,
      fun l' hl' => (h.node l' hl').sever hs hG⟩
    · rw [hcut]
      simp
    · rintro rfl
      exact ⟨A ++ [(lo, a)], ↑s, B, by rw [hcut]; simp, hge, (h.leaf rfl).1⟩

/-- The entries of the two halves. -/
theorem Halved.entries {b : ℕ} {left right : List Entry} (hh : Halved p (G.entries a) e b left right y x)
    (hs : G.Severs l A lo a B (p.records 14).key b (newLeftmost p) ((G.entries a).take 14)
      ((G.entries a).drop (cutAt p))) :
    ∃ c, Spot (if e.key < (p.records 14).key then (G.entries a).take 14
        else (G.entries a).drop (cutAt p)) e.key c ∧
      (G.halve l A lo a B p b c e).entries a = left ∧
      (G.halve l A lo a B p b c e).entries b = right := by
  have hab : a ≠ b := hs.cuts.ne
  rcases hh.halves with ⟨hk, hright, c, hc, hleft⟩ | ⟨hk, hleft, c, hc, hright⟩
  · refine ⟨c, by rw [if_pos hk]; exact hc, ?_, ?_⟩
    · unfold Outline.halve
      rw [if_pos hk, Outline.insertEntry_self, hs.old, hleft]
    · unfold Outline.halve
      rw [if_pos hk, Outline.insertEntry_other hab.symm, Outline.Severs.new, hright]
  · refine ⟨c, by rw [if_neg (not_lt.mpr hk)]; exact hc, ?_, ?_⟩
    · unfold Outline.halve
      rw [if_neg (not_lt.mpr hk), Outline.insertEntry_other hab, hs.old, hleft]
    · unfold Outline.halve
      rw [if_neg (not_lt.mpr hk), Outline.insertEntry_self, Outline.Severs.new, hright]

theorem halve_other {b c d : ℕ} (hda : d ≠ a) (hdb : d ≠ b) :
    (G.halve l A lo a B p b c e).entries d = G.entries d := by
  unfold Outline.halve
  rw [Outline.insertEntry_other (by split <;> assumption)]
  show Function.update (Function.update G.entries a _) b _ d = _
  rw [Function.update_of_ne hdb, Function.update_of_ne hda]

/-- A split: the tree follows the halved outline, up to its root. -/
theorem Linked.halve (h : Linked alloc t G) (hal : Allocator alloc) (hT : Target G l A lo a B e)
    (hp : t.pages a = some p) (hlen : (G.entries a).length = 29) {left right : List Entry}
    (hh : Halved p (G.entries a) e (alloc t.allocated) left right y x) :
    ∃ c, G.Severs l A lo a B (p.records 14).key (alloc t.allocated) (newLeftmost p)
        ((G.entries a).take 14) ((G.entries a).drop (cutAt p)) ∧
      Spot (if e.key < (p.records 14).key then (G.entries a).take 14
        else (G.entries a).drop (cutAt p)) e.key c ∧
      (G.halve l A lo a B p (alloc t.allocated) c e).Woven ∧
      Follows alloc (fun _ d _ q => Stands q ((G.halve l A lo a B p (alloc t.allocated) c e).entries d))
        (t.splitInto a (alloc t.allocated) y x) (G.halve l A lo a B p (alloc t.allocated) c e) ∧
      ∀ l' < G.height, ∀ z ∈ (G.halve l A lo a B p (alloc t.allocated) c e).chain l',
        ∀ b ∈ (G.halve l A lo a B p (alloc t.allocated) c e).entries z.2, b.key ≤ longMax := by
  have hs := h.severs hal hT.level hT.chain hp hlen (fun h0 => (hT.leaf h0).2)
  obtain ⟨c, hspot, hleft, hright⟩ := hh.entries hs
  obtain ⟨p', hp', hpl, hstands⟩ := h.follows.page l hT.level A lo a B hT.chain
  rw [hp] at hp'
  obtain rfl := Option.some.inj hp'
  have hputs := hT.puts_sever h.woven.apart hs hspot
  have hmem : ((lo, a) : Cell ℤ ℕ) ∈ G.chain l := hs.page
  have hrec := hstands.record 14 (by omega)
  have hab : a ≠ alloc t.allocated := hs.cuts.ne
  have hcuts : G.Cuts (G.halve l A lo a B p (alloc t.allocated) c e) l A B lo a
      (↑(p.records 14).key, alloc t.allocated) :=
    ⟨rfl, rfl, hs.level, hs.chain, hs.cuts.chain_cut, hs.cuts.chain_other, hs.cuts.leftmost,
      hs.fresh⟩
  have hkeys : ∀ b, b ∈ left ∨ b ∈ right → b = e ∨ b ∈ G.entries a := by
    intro b hb
    rcases hh.halves with ⟨_, hr, d, hd, hl⟩ | ⟨_, hl, d, hd, hr⟩
    · rw [hl, hr] at hb
      rcases hb with hb | hb
      · exact (List.mem_insertIdx hd.le).mp hb |>.imp_right (hs.left_subset.mem ·)
      · exact Or.inr (hs.right_subset.mem hb)
    · rw [hl, hr] at hb
      rcases hb with hb | hb
      · exact Or.inr (hs.left_subset.mem hb)
      · exact (List.mem_insertIdx hd.le).mp hb |>.imp_right (hs.right_subset.mem ·)
  have hleaf : p.leftmostPtr = NULL ↔ l = 0 := by
    rw [hpl.leftmostPtr]
    exact hpl.leaf
  have hlma := hcuts.leftmost a hab
  have hlmb : (G.halve l A lo a B p (alloc t.allocated) c e).leftmost (alloc t.allocated) =
    newLeftmost p := Function.update_self _ _ _
  have hlm0 : newLeftmost p = NULL ↔ l = 0 := by
    unfold newLeftmost
    by_cases h0 : p.leftmostPtr = NULL
    · rw [if_pos h0]
      exact ⟨fun _ => hleaf.mp h0, fun _ => rfl⟩
    · rw [if_neg h0]
      obtain ⟨l', rfl⟩ : ∃ l', l = l' + 1 :=
        ⟨l - 1, by have : l ≠ 0 := fun hl0 => h0 (hleaf.mpr hl0); omega⟩
      refine ⟨fun hn => absurd hn ?_, fun hl => absurd hl (Nat.succ_ne_zero l')⟩
      rw [hrec]
      have hin : cell (G.entries a)[14] ∈ refs lo (G.leftmost a) (G.entries a) :=
        List.mem_cons_of_mem _ (List.mem_map_of_mem (List.getElem_mem _))
      exact h.follows.ne_null hal (Nat.lt_of_succ_lt hT.level)
        (h.woven.refs_subset hT.level hmem hin)
  refine ⟨c, hs, hspot, (h.woven.sever hs).insertEntry hputs, ?_, ?_⟩
  · refine h.follows.cut _ h.woven.apart hcuts rfl (Nat.lt_succ_self _) rfl ?_ ⟨y, ?_, ?_, ?_⟩
      ⟨x, ?_, ?_, ?_⟩ ?_
    · intro d hda hdb
      exact Btree.splitInto_other t y x hda hdb
    · exact Btree.splitInto_old t a _ y x
    · refine ⟨hh.old.level.trans hpl.level, hh.old.isDeleted.trans hpl.live,
        (hh.old.leftmostPtr.trans hpl.leftmostPtr).trans hlma.symm, by rw [hlma]; exact hpl.leaf,
        hh.old.siblingPtr, ?_⟩
      intro i
      rcases hh.old.keys i with ⟨j, hj⟩ | hk
      · rw [hj]
        exact hpl.keys j
      · rw [hk]
        exact hT.low
    · rw [hleft]
      refine hh.filled.stands ?_
      rcases hh.halves with ⟨_, _, d, hd, hl⟩ | ⟨_, hl, _⟩
      · rw [hl]
        exact insertIdx_ne_nil hd.le
      · rw [hl]
        exact hs.left_ne
    · exact Btree.splitInto_new t y x hab
    · refine ⟨hh.new.level.trans hpl.level, hh.new.live, hh.new.leftmostPtr.trans hlmb.symm,
        by rw [hlmb]; exact hlm0, hh.new.siblingPtr.trans hpl.siblingPtr, ?_⟩
      intro i
      refine WithBot.coe_le_coe.mpr ?_
      rcases hh.new.keys i with hi | hi
      · rw [hi, hrec]
        exact h.bounded l hT.level _ hmem _ (List.getElem_mem _)
      · exact hi
    · show Stands x ((G.halve l A lo a B p (alloc t.allocated) c e).entries (alloc t.allocated))
      rw [hright]
      refine hh.new.filled.stands ?_
      rcases hh.halves with ⟨_, hr, _⟩ | ⟨_, _, d, hd, hr⟩
      · rw [hr]
        exact hs.right_ne
      · rw [hr]
        exact insertIdx_ne_nil hd.le
    · intro l' d B' B'' q hda hdb hq
      rw [halve_other hda hdb]
      exact hq
  · intro l' hl' z hz b hb
    have hpage : ∀ b, b = e ∨ b ∈ G.entries a → b.key ≤ longMax := by
      rintro b (rfl | hb)
      · exact hT.key
      · exact h.bounded l hT.level _ hmem b hb
    by_cases hza : z.2 = a
    · rw [hza, hleft] at hb
      exact hpage b (hkeys b (Or.inl hb))
    · by_cases hzb : z.2 = alloc t.allocated
      · rw [hzb, hright] at hb
        exact hpage b (hkeys b (Or.inr hb))
      · rw [halve_other hza hzb] at hb
        rcases hcuts.mem hz with ⟨_, rfl⟩ | hz
        · exact absurd rfl hzb
        · exact h.bounded l' hl' z hz b hb

end

end PmemStudy.FastFair
