import Mathlib.Data.List.Perm.Basic
import PmemStudy.FastFair.RemoveKey
import PmemStudy.FastFair.Store

/-!
# btree_insert and btree_delete

Both walk down to the leaf that the key belongs to. An insertion ends there in
`store`, a deletion in `remove_key`; a deletion of an absent key ends only if
that leaf is the last one.
-/

namespace PmemStudy.FastFair
open PmemStudy.Slots PmemStudy.Chain PmemStudy.Trace PmemStudy.Loop

section
variable {alloc : ℕ → ℕ} {μ : ℕ} {t : Btree} {G : Outline}

theorem AtRest.findLeaf_home (h : AtRest alloc μ t G) (hal : Allocator alloc)
    (hp : ∀ l, G.pending l = none) (k : ℤ) :
    ∃ a, Yields (fun fuel => t.findLeaf k fuel t.root) a ∧ AtHome (G.chain 0) k a := by
  have hpos := h.outline.pos
  have hcell := h.root_cell (hp _)
  rw [h.follows.root]
  refine h.readable.findLeaf_home hal (G.height - 1) (by omega) hp ?_
  rw [hcell]
  exact ⟨[], ⊥, [], rfl, bot_le, by simp⟩

/-! ### Insertion -/

/-- `btree_insert` of an absent key. -/
theorem AtRest.insert_yields (h : AtRest alloc μ t G) (hal : Allocator alloc) (hμ : μ ≤ 14)
    (hp : ∀ l, G.pending l = none) {e : Entry} (hf : Fresh G 0 e)
    (hnew : ∀ b ∈ G.contents, b.key ≠ e.key) :
    ∃ stores C, Yields (fun fuel => Btree.btreeInsert alloc fuel t e.key e.ptr) stores ∧
      Stored alloc μ t G.contents C stores ∧ C.Perm (e :: G.contents) := by
  have hpos := h.outline.pos
  obtain ⟨a, hfind, hat⟩ := h.findLeaf_home hal hp e.key
  obtain ⟨x, hx, hxa⟩ := List.mem_map.mp hat.mem
  have hinc := h.outline.entries_increasing hpos hx
  rw [hxa] at hinc
  obtain ⟨c, hc⟩ := exists_place hinc (by
    intro b hb
    rw [← hxa] at hb
    exact hnew b (mem_contents hx hb))
  have hb : G.Belongs 0 a c e := ⟨hpos, hat, hc, fun l hl => absurd hl (by omega)⟩
  obtain ⟨stores, ret, hy, hret, hs⟩ := h.store_yields hal hμ (G.height - 1) (by omega) hb hf
    (fun l _ => hp l)
  refine ⟨stores, _, ?_, hs, (h.outline.insertEntry_increasing hb).2⟩
  refine Yields.step (hfind.bind (g := fun fuel a =>
    (Btree.store alloc fuel t a e.key e.ptr).bind fun stored =>
      if stored.2 = NULL then
        (Btree.btreeInsert alloc fuel (t.run stored.1) e.key e.ptr).map (stored.1 ++ ·)
      else some stored.1) (hy.bind (.const fun _ => if_neg hret))) ?_
  intro fuel
  rfl

/-! ### The leaf a key belongs to -/

theorem AtRest.entries_home (h : AtRest alloc μ t G) {k : ℤ} {c v : ℕ}
    (hat : AtHome (G.chain 0) k c) (hmem : (⟨k, v⟩ : Entry) ∈ G.contents) :
    (⟨k, v⟩ : Entry) ∈ G.entries c := by
  obtain ⟨A, lo, B, hc, hlo, hB⟩ := hat
  by_contra hnot
  have habs : ∀ e ∈ G.entries c, e.key ≠ k := by
    intro e he hk
    have hx : ((lo, c) : Cell ℤ ℕ) ∈ G.chain 0 := by
      rw [hc]
      simp
    have := h.outline.increasing.unique (mem_contents hx he) hmem hk
    rw [this] at he
    exact hnot he
  obtain ⟨y, hy, _, hyk⟩ := h.outline.right_of hc hlo hmem habs
  exact absurd (hB y hy) (not_lt.mpr hyk)

/-- Where the walk along the leaves ends. -/
theorem AtRest.follow_home (h : AtRest alloc μ t G) (hal : Allocator alloc) {k : ℤ}
    {A B : List (Cell ℤ ℕ)} {lo : WithBot ℤ} {c : ℕ} (hc : G.chain 0 = A ++ (lo, c) :: B)
    (hB : ∀ y ∈ B, (k : WithBot ℤ) < y.1) (fuel : ℕ) :
    (∀ v, (⟨k, v⟩ : Entry) ∈ G.entries c → (∀ i, v ≠ alloc i) →
      t.followSiblings k (fuel + 1) c = some (c, v)) ∧
    ((∀ e ∈ G.entries c, e.key ≠ k) →
      t.followSiblings k (fuel + 1) c = if B = [] then some (NULL, NULL) else some (c, NULL)) := by
  obtain ⟨p, hp, hpl, hr⟩ := h.follows.page 0 h.outline.pos A lo c B hc
  have hlm : p.leftmostPtr = NULL := hpl.leftmostPtr.trans (hpl.leaf.mpr rfl)
  have hshows := hr.shows k
  rw [answer, if_pos hlm] at hshows
  have hd := hr.distinct
  rw [hlm] at hd
  have hx : ((lo, c) : Cell ℤ ℕ) ∈ G.chain 0 := by
    rw [hc]
    simp
  constructor
  · intro v hv hpage
    rw [find_mem (e := ⟨k, v⟩) hd hr.increasing hv, Option.getD_some] at hshows
    have hv' : p.search k = v := hshows
    have hv0 : p.search k ≠ NULL := by
      rw [hshows]
      exact hr.live _ hv
    rw [← hv']
    refine follow_found hp (linearSearch_leaf hp hlm hv0) ?_
    have hval := h.value _ (mem_contents hx hv)
    rw [hv', hpl.siblingPtr]
    cases B with
    | nil => exact hval
    | cons y B =>
      obtain ⟨i, _, hi⟩ := h.follows.address 0 h.outline.pos y (by rw [hc]; simp)
      show v ≠ y.2
      rw [hi]
      exact hpage i
  · intro habs
    rw [find_none habs, Option.getD_none] at hshows
    cases B with
    | nil =>
      rw [if_pos rfl]
      exact follow_end hp (linearSearch_stop hp hlm hshows (Or.inl hpl.siblingPtr)) hpl.siblingPtr
    | cons y B =>
      rw [if_neg (by simp)]
      obtain ⟨hb0, s, _, hs, hspl, _⟩ := h.readable.next hal h.outline.pos hc
      have hsib : p.siblingPtr = y.2 := hpl.siblingPtr
      have hgt : ¬ (s.records 0).key ≤ k := by
        have hlt := (hB y List.mem_cons_self).trans_le (hspl.keys 0)
        exact not_le.mpr (WithBot.coe_lt_coe.mp hlt)
      refine follow_found hp (linearSearch_stop hp hlm hshows (Or.inr ⟨s, ?_, hgt⟩)) ?_
      · rw [hsib]
        exact hs
      · rw [hsib]
        exact hb0.symm

/-! ### Deletion -/

/-- Record `j` of the leaf at `a` is gone. -/
def Outline.removeEntry (G : Outline) (a j : ℕ) : Outline :=
  { G with entries := Function.update G.entries a ((G.entries a).eraseIdx j) }

theorem Outline.WellFormed.removeEntry_other (h : G.WellFormed) {a j l : ℕ}
    (ha : a ∈ (G.chain 0).map (·.2)) (hl : l + 1 < G.height) {x : Cell ℤ ℕ}
    (hx : x ∈ G.chain (l + 1)) : (G.removeEntry a j).entries x.2 = G.entries x.2 :=
  Function.update_of_ne (h.apart.ne_of_level hl h.pos (by omega) ha hx) _ _

theorem Outline.removeEntry_sublist {a j : ℕ} (c : ℕ) :
    ((G.removeEntry a j).entries c).Sublist (G.entries c) := by
  by_cases hc : c = a
  · subst c
    show (Function.update G.entries a _ a).Sublist _
    rw [Function.update_self]
    exact List.eraseIdx_sublist _ _
  · show (Function.update G.entries a _ c).Sublist _
    rw [Function.update_of_ne hc]

theorem Outline.WellFormed.removeEntry_contents (h : G.WellFormed) {a j : ℕ}
    (ha : a ∈ (G.chain 0).map (·.2)) (hj : j < (G.entries a).length) :
    (G.removeEntry a j).contents.Sublist G.contents ∧
    G.contents.Perm ((G.entries a)[j] :: (G.removeEntry a j).contents) := by
  obtain ⟨x, hx, rfl⟩ := List.mem_map.mp ha
  obtain ⟨A, B, hAB⟩ := List.append_of_mem hx
  have hn := h.nodup 0 h.pos
  rw [hAB, List.map_append, List.map_cons, List.nodup_append, List.nodup_cons] at hn
  have hother : ∀ l : List (Cell ℤ ℕ), (∀ y ∈ l, y.2 ≠ x.2) →
      l.flatMap (fun y => (G.removeEntry x.2 j).entries y.2) = l.flatMap fun y => G.entries y.2 :=
    fun l hl => List.flatMap_congr fun y hy => Function.update_of_ne (hl y hy) _ _
  have hself : (G.removeEntry x.2 j).entries x.2 = (G.entries x.2).eraseIdx j :=
    Function.update_self _ _ _
  have hA := hother A (fun y hy hyx => hn.2.2 y.2 (List.mem_map_of_mem hy) x.2
    List.mem_cons_self hyx)
  have hB := hother B (fun y hy hyx => hn.2.1.1 (by rw [← hyx]; exact List.mem_map_of_mem hy))
  have hold : G.contents = A.flatMap (fun y => G.entries y.2) ++
      (G.entries x.2 ++ B.flatMap fun y => G.entries y.2) := by
    rw [Outline.contents, hAB, List.flatMap_append, List.flatMap_cons]
  have hnew : (G.removeEntry x.2 j).contents = A.flatMap (fun y => G.entries y.2) ++
      ((G.entries x.2).eraseIdx j ++ B.flatMap fun y => G.entries y.2) := by
    rw [Outline.contents, show (G.removeEntry x.2 j).chain 0 = A ++ x :: B from hAB,
      List.flatMap_append, List.flatMap_cons, hA, hB, hself]
  rw [hold, hnew]
  constructor
  · exact ((List.eraseIdx_sublist _ _).append_right _).append_left _
  · refine List.Perm.trans ?_ List.perm_middle
    refine List.Perm.append_left _ ?_
    rw [← List.cons_append]
    exact (List.getElem_cons_eraseIdx_perm hj).symm.append_right _

theorem Outline.WellFormed.removeEntry (h : G.WellFormed) (hp : ∀ l, G.pending l = none)
    {a j : ℕ} (ha : a ∈ (G.chain 0).map (·.2)) (hj : j < (G.entries a).length) :
    (G.removeEntry a j).WellFormed := by
  refine ⟨h.pos, ?_, h.sorted, h.nodup, h.disjoint, ?_, ?_, ?_, ?_⟩
  · intro l hl
    rw [show (G.removeEntry a j).chain l = G.chain l from rfl, h.chain_eq l hl]
    refine congrArg _ ?_
    by_cases hin : l + 1 < G.height
    · rw [Outline.above_inner hin, Outline.above_inner (G := G.removeEntry a j) hin]
      exact expand_congr fun x hx => ⟨rfl, (h.removeEntry_other ha hin hx).symm⟩
    · rw [Outline.above_top hin, Outline.above_top (G := G.removeEntry a j) hin]
      rfl
  · exact fun x hx e he => h.leaf_above x hx e ((Outline.removeEntry_sublist x.2).mem he)
  · refine h.leaf_below.imp ?_
    exact fun hxy e he => hxy e ((Outline.removeEntry_sublist _).mem he)
  · exact h.increasing.sublist (h.removeEntry_contents ha hj).1
  · intro l _ e hpe
    rw [show (G.removeEntry a j).pending l = none from hp l] at hpe
    simp at hpe

/-- The tree after `remove_key` on a leaf, for any outline that its new entries have. -/
theorem AtRest.follows_leaf (h : AtRest alloc μ t G) {A B : List (Cell ℤ ℕ)} {lo : WithBot ℤ}
    {a : ℕ} (hc : G.chain 0 = A ++ (lo, a) :: B) {p : Page} (hp : t.pages a = some p)
    {l : List PageStore} (ht : Touched (p.records 0).key p (p.run l)) {G' : Outline}
    (hh : G'.height = G.height) (hr : G'.root = G.root) (hch : G'.chain = G.chain)
    (hlm : G'.leftmost = G.leftmost) (hself : Rests (p.run l) (G'.entries a))
    (hother : ∀ b, b ≠ a → G'.entries b = G.entries b) :
    Follows alloc (fun _ b _ q => Rests q (G'.entries b)) (t.run (l.map (.page a))) G' := by
  obtain ⟨p', hp', hpl, _⟩ := h.follows.page 0 h.outline.pos A lo a B hc
  rw [hp] at hp'
  obtain rfl := Option.some.inj hp'
  have hrun := Btree.run_setPage t a p l
  rw [Btree.setPage_self hp] at hrun
  rw [hrun]
  refine h.follows.setPage _ G' h.outline.apart hh hr hch hlm h.outline.pos hc
    ⟨hpl.touched ht (hpl.keys 0), hself⟩ ?_
  intro l' b B' q hba hq
  rw [hother b hba]
  exact hq

theorem AtRest.remove_page (h : AtRest alloc 0 t G) (hpend : ∀ l, G.pending l = none)
    {A B : List (Cell ℤ ℕ)} {lo : WithBot ℤ} {a j : ℕ} (hc : G.chain 0 = A ++ (lo, a) :: B)
    {p : Page} (hp : t.pages a = some p) (hj : j < (G.entries a).length) :
    (p.removeKey (G.entries a)[j].key).2 = true ∧
    AtRest alloc 0 (t.run ((p.removeKey (G.entries a)[j].key).1.map (.page a)))
      (G.removeEntry a j) := by
  obtain ⟨p', hp', hpl, hrest⟩ := h.follows.page 0 h.outline.pos A lo a B hc
  rw [hp] at hp'
  obtain rfl := Option.some.inj hp'
  have hx : ((lo, a) : Cell ℤ ℕ) ∈ G.chain 0 := by
    rw [hc]
    simp
  have ha : a ∈ (G.chain 0).map (·.2) := List.mem_map_of_mem hx
  have hlm : p.leftmostPtr = NULL := hpl.leftmostPtr.trans (hpl.leaf.mpr rfl)
  obtain ⟨hsub, _⟩ := h.outline.removeEntry_contents ha hj
  have hd : Distinct NULL ((G.entries a).eraseIdx j) := by
    refine distinct_of_nodup_cons ?_
    have hentries : ((G.entries a).eraseIdx j).Sublist G.contents := by
      refine (List.eraseIdx_sublist _ _).trans ?_
      rw [Outline.contents, hc, List.flatMap_append, List.flatMap_cons]
      exact (List.sublist_append_left _ _).trans (List.sublist_append_right _ _)
    rw [List.nodup_cons]
    refine ⟨?_, h.distinct.sublist (hentries.map _)⟩
    intro hm
    obtain ⟨b, hb, hb0⟩ := List.mem_map.mp hm
    exact h.value b (hentries.mem hb) hb0
  obtain ⟨himages, hafter, hflag⟩ := removeKey_spec hrest hlm hj hd
  have hself : (G.removeEntry a j).entries a = (G.entries a).eraseIdx j :=
    Function.update_self _ _ _
  refine ⟨hflag, h.outline.removeEntry hpend ha hj, ?_, fun e he => h.value e (hsub.mem he),
    h.distinct.sublist (hsub.map _), ?_, h.chain_bounded, fun e he => h.key_bounded e (hsub.mem he),
    fun _ _ _ _ => Or.inr (Nat.zero_le _)⟩
  · exact h.follows_leaf hc hp himages.last.1 rfl rfl rfl rfl (by rw [hself]; exact hafter)
      fun b hb => Function.update_of_ne hb _ _
  · have hrun := Btree.run_setPage t a p (p.removeKey (G.entries a)[j].key).1
    rw [Btree.setPage_self hp] at hrun
    rw [hrun]
    exact h.height

/-- One round of `btree_delete`, when the walk ends at `found`. -/
theorem delete_round {k : ℤ} {a fuel : ℕ} {found : ℕ × ℕ}
    (hfind : t.findLeaf k fuel t.root = some a)
    (hfollow : t.followSiblings k fuel a = some found) :
    Btree.btreeDelete (fuel + 1) t k = if found.1 ≠ NULL then
      (t.pages found.1).bind fun p =>
        if (p.removeKey k).2 then some ((p.removeKey k).1.map (.page found.1))
        else (Btree.btreeDelete fuel (t.run ((p.removeKey k).1.map (.page found.1))) k).map
          ((p.removeKey k).1.map (.page found.1) ++ ·)
    else some [] := by
  rw [Btree.btreeDelete, hfind, Option.bind_eq_bind, Option.bind_some, hfollow,
    Option.bind_eq_bind, Option.bind_some]
  rfl

theorem delete_rounds {k : ℤ} {a : ℕ} {found : ℕ × ℕ} {stores : List TreeStore}
    (hfind : Yields (fun fuel => t.findLeaf k fuel t.root) a)
    (hfollow : ∀ fuel, t.followSiblings k (fuel + 1) a = some found)
    (hround : ∀ fuel, (if found.1 ≠ NULL then
      (t.pages found.1).bind fun p =>
        if (p.removeKey k).2 then some ((p.removeKey k).1.map (.page found.1))
        else (Btree.btreeDelete fuel (t.run ((p.removeKey k).1.map (.page found.1))) k).map
          ((p.removeKey k).1.map (.page found.1) ++ ·)
    else some []) = some stores) : Yields (fun fuel => Btree.btreeDelete fuel t k) stores := by
  obtain ⟨n, hn⟩ := hfind
  refine ⟨n + 2, ?_⟩
  intro fuel hf
  obtain ⟨m, rfl⟩ : ∃ m, fuel = m + 2 := ⟨fuel - 2, by omega⟩
  show Btree.btreeDelete (m + 1 + 1) t k = some stores
  rw [delete_round (hn (m + 1) (by omega)) (hfollow m)]
  exact hround (m + 1)

theorem AtRest.address_ne (h : AtRest alloc μ t G) (hal : Allocator alloc) {l : ℕ}
    (hl : l < G.height) {x : Cell ℤ ℕ} (hx : x ∈ G.chain l) : x.2 ≠ NULL := by
  obtain ⟨i, _, hi⟩ := h.follows.address l hl x hx
  rw [hi]
  exact hal.ne_null i

/-- `btree_delete` of a stored key. -/
theorem AtRest.delete_yields (h : AtRest alloc 0 t G) (hal : Allocator alloc)
    (hpend : ∀ l, G.pending l = none) {k : ℤ} {v : ℕ} (hmem : (⟨k, v⟩ : Entry) ∈ G.contents)
    (hpage : ∀ i, v ≠ alloc i) :
    ∃ stores, Yields (fun fuel => Btree.btreeDelete fuel t k) stores ∧
      ∃ G', AtRest alloc 0 (t.run stores) G' ∧ (∀ l, G'.pending l = none) ∧
        G.contents.Perm (⟨k, v⟩ :: G'.contents) := by
  obtain ⟨a, hfind, hat⟩ := h.findLeaf_home hal hpend k
  have hin := h.entries_home hat hmem
  have ha := hat.mem
  obtain ⟨A, lo, B, hc, _, hB⟩ := hat
  obtain ⟨p, hp, _, _⟩ := h.follows.page 0 h.outline.pos A lo a B hc
  obtain ⟨j, hj, hjk⟩ := List.getElem_of_mem hin
  obtain ⟨hflag, hrest⟩ := h.remove_page hpend hc hp hj
  have hperm := (h.outline.removeEntry_contents ha hj).2
  rw [hjk] at hflag hrest hperm
  have hx : ((lo, a) : Cell ℤ ℕ) ∈ G.chain 0 := by
    rw [hc]
    simp
  refine ⟨(p.removeKey k).1.map (.page a), ?_, _, hrest, hpend, hperm⟩
  refine delete_rounds hfind (fun fuel => (h.follow_home hal hc hB fuel).1 v hin hpage) ?_
  intro fuel
  rw [if_pos (h.address_ne hal h.outline.pos hx), hp, Option.bind_some, if_pos hflag]

/-! ### Deletion of an absent key -/

/-- The key belongs to the last leaf. -/
def Outline.InLast (G : Outline) (k : ℤ) : Prop :=
  ∃ (A : List (Cell ℤ ℕ)) (lo : WithBot ℤ) (a : ℕ), G.chain 0 = A ++ [(lo, a)] ∧ lo ≤ ↑k

theorem Outline.inLast_iff {A B : List (Cell ℤ ℕ)} {lo : WithBot ℤ} {a : ℕ} {k : ℤ}
    (hc : G.chain 0 = A ++ (lo, a) :: B) (hlo : lo ≤ ↑k) (hB : ∀ y ∈ B, (k : WithBot ℤ) < y.1) :
    G.InLast k ↔ B = [] := by
  constructor
  · rintro ⟨A', lo', a', hc', hlo'⟩
    by_contra hne
    obtain ⟨B', y, rfl⟩ := List.eq_nil_or_concat B |>.resolve_left hne
    have heq : (A ++ (lo, a) :: B') ++ [y] = A' ++ [(lo', a')] := by
      rw [← hc', hc]
      simp
    have hy : y = (lo', a') := (List.append_inj' heq rfl).2 |> List.singleton_inj.mp
    have hlt := hB y (by simp)
    rw [hy] at hlt
    exact absurd hlo' (not_le.mpr hlt)
  · rintro rfl
    exact ⟨A, lo, a, hc, hlo⟩

/-- In the last leaf the walk ends without a page. -/
theorem AtRest.delete_last (h : AtRest alloc μ t G) (hal : Allocator alloc)
    (hpend : ∀ l, G.pending l = none) {k : ℤ} (habs : ∀ e ∈ G.contents, e.key ≠ k)
    (hlast : G.InLast k) : Yields (fun fuel => Btree.btreeDelete fuel t k) [] := by
  obtain ⟨a, hfind, A, lo, B, hc, hlo, hB⟩ := h.findLeaf_home hal hpend k
  obtain rfl := (Outline.inLast_iff hc hlo hB).mp hlast
  have hx : ((lo, a) : Cell ℤ ℕ) ∈ G.chain 0 := by
    rw [hc]
    simp
  refine delete_rounds hfind (fun fuel => (h.follow_home hal hc hB fuel).2
    fun e he => habs e (mem_contents hx he)) ?_
  intro fuel
  exact if_neg (by simp)

theorem findLeaf_mono {k : ℤ} {fuel a b : ℕ} (h : t.findLeaf k fuel a = some b) (d : ℕ) :
    t.findLeaf k (fuel + d) a = some b := by
  induction fuel generalizing a with
  | zero => simp [Btree.findLeaf] at h
  | succ fuel ih =>
    rw [Btree.findLeaf] at h
    rw [show fuel + 1 + d = fuel + d + 1 by omega, Btree.findLeaf]
    cases hp : t.pages a with
    | none =>
      rw [hp] at h
      exact absurd h (by simp)
    | some p =>
      rw [hp, Option.bind_eq_bind, Option.bind_some] at h
      rw [Option.bind_eq_bind, Option.bind_some]
      by_cases hl : p.leftmostPtr ≠ NULL
      · rw [if_pos hl] at h ⊢
        cases hs : t.linearSearch a k with
        | none =>
          rw [hs] at h
          exact absurd h (by simp)
        | some c =>
          rw [hs, Option.bind_eq_bind, Option.bind_some] at h
          exact ih h
      · rw [if_neg hl] at h ⊢
        exact h

/-- Before the last leaf each round fails and starts another one. -/
theorem AtRest.delete_diverges (hal : Allocator alloc) (hpend : ∀ l, G.pending l = none) {k : ℤ}
    (habs : ∀ e ∈ G.contents, e.key ≠ k) (hlast : ¬ G.InLast k) (fuel : ℕ)
    (h : AtRest alloc μ t G) : Btree.btreeDelete fuel t k = none := by
  induction fuel generalizing t with
  | zero => rfl
  | succ fuel ih =>
    obtain ⟨a, hfind, A, lo, B, hc, hlo, hB⟩ := h.findLeaf_home hal hpend k
    have hne : B ≠ [] := fun hnil => hlast ((Outline.inLast_iff hc hlo hB).mpr hnil)
    have hx : ((lo, a) : Cell ℤ ℕ) ∈ G.chain 0 := by
      rw [hc]
      simp
    have habs' : ∀ e ∈ G.entries a, e.key ≠ k := fun e he => habs e (mem_contents hx he)
    obtain ⟨p, hp, hpl, hr⟩ := h.follows.page 0 h.outline.pos A lo a B hc
    have hlm : p.leftmostPtr = NULL := hpl.leftmostPtr.trans (hpl.leaf.mpr rfl)
    obtain ⟨hrest, htouched, hflag⟩ := removeKey_absent hr hlm habs'
    have hagain : AtRest alloc μ (t.run ((p.removeKey k).1.map (.page a))) G := by
      refine ⟨h.outline, ?_, h.value, h.distinct, ?_, h.chain_bounded, h.key_bounded, h.filled⟩
      · exact h.follows_leaf hc hp htouched rfl rfl rfl rfl hrest fun _ _ => rfl
      · have hrun := Btree.run_setPage t a p (p.removeKey k).1
        rw [Btree.setPage_self hp] at hrun
        rw [hrun]
        exact h.height
    -- a walk that has not ended has no result either
    cases hfa : t.findLeaf k fuel t.root with
    | none =>
      rw [Btree.btreeDelete, hfa]
      rfl
    | some a' =>
      obtain ⟨n, hn⟩ := hfind
      have haa : a' = a := by
        have h1 := findLeaf_mono hfa n
        have h2 := hn (fuel + n) (by omega)
        exact Option.some.inj (h1.symm.trans h2)
      subst a'
      cases fuel with
      | zero => simp [Btree.findLeaf] at hfa
      | succ f =>
        have hround := (h.follow_home hal hc hB f).2 habs'
        rw [if_neg hne] at hround
        rw [delete_round hfa hround, if_pos (h.address_ne hal h.outline.pos hx), hp,
          Option.bind_some, if_neg (by simp [hflag]), ih hagain]
        rfl

end

end PmemStudy.FastFair
