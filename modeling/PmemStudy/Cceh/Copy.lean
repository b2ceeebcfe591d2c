import PmemStudy.Cceh.Segment
import PmemStudy.Lib.Loop

/-!
# What `split` copies

Each half of a split is a first-fit placement of the pairs with that next
bit, in slot order. `SplitFits` says that this placement drops no live pair.
-/

namespace PmemStudy.Cceh
open PmemStudy.FirstFit PmemStudy.Loop

/-- The slots `split` tries for a key. -/
def candidates (b : Build) (H : HashFuncs) (key : Key) : List Slot :=
  match b with
  | .cow => window (windowIdx (H.f key))
  | .inplace => windows H key

theorem candidates_sub (b : Build) (H : HashFuncs) (key : Key) (c : Slot)
    (h : c ∈ candidates b H key) : c ∈ windows H key := by
  cases b with
  | cow => exact List.mem_append_left _ h
  | inplace => exact h

namespace Segment

/-- A slot that holds a pair, stale or not. -/
def Occupied (s : Segment) (i : Slot) : Prop := (s.bucket i).key ≠ INVALID

/-- The slot holds a pair that `Split` sends to the half `bit`. -/
def Moves (H : HashFuncs) (s : Segment) (bit : Bool) (i : Slot) : Prop :=
  s.Occupied i ∧ nextBit (H.f (s.bucket i).key) s.localDepth = bit

/-- `dst` holds exactly the pairs of `src` that `pos` places. -/
structure Holds (src dst : Segment) (pos : Slot → Option Slot) : Prop where
  placed : ∀ i c, pos i = some c → dst.bucket c = src.bucket i
  free : ∀ c, (∀ i, pos i ≠ some c) → (dst.bucket c).key = INVALID

/-- `Insert4split` on the candidates of a key. -/
def put (b : Build) (H : HashFuncs) (dst : Segment) (p : Pair) : Segment :=
  match (candidates b H p.key).find? (fun c => decide ((dst.bucket c).key = INVALID)) with
  | some c => dst.setPair c p
  | none => dst

/-- The copying loop of one half. -/
def copyHalf (b : Build) (H : HashFuncs) (src : Segment) (bit : Bool) (i : Slot) (dst : Segment) :
    Segment :=
  if nextBit (H.f (src.bucket i).key) src.localDepth = bit then put b H dst (src.bucket i) else dst

theorem put_cow (H : HashFuncs) (dst : Segment) (p : Pair) :
    (dst.insert4split p.key p.value (windowIdx (H.f p.key))).1 = put .cow H dst p := by
  simp only [insert4split, put, candidates]
  cases (window (windowIdx (H.f p.key))).find? (fun c => decide ((dst.bucket c).key = INVALID)) with
  | none => rfl
  | some c => rfl

theorem put_inplace (H : HashFuncs) (dst : Segment) (p : Pair) :
    (if (dst.insert4split p.key p.value (windowIdx (H.f p.key))).2 then
      (dst.insert4split p.key p.value (windowIdx (H.f p.key))).1
     else ((dst.insert4split p.key p.value (windowIdx (H.f p.key))).1.insert4split
      p.key p.value (windowIdx (H.s p.key))).1) = put .inplace H dst p := by
  cases h : (window (windowIdx (H.f p.key))).find?
      (fun c => decide ((dst.bucket c).key = INVALID)) with
  | some c => simp only [insert4split, put, candidates, windows, List.find?_append, h,
      Option.some_or, if_true]
  | none =>
    simp only [insert4split, put, candidates, windows, List.find?_append, h, Option.none_or,
      Bool.false_eq_true, if_false]
    cases (window (windowIdx (H.s p.key))).find?
        (fun c => decide ((dst.bucket c).key = INVALID)) with
    | none => rfl
    | some c => rfl

theorem split_cow (H : HashFuncs) (src raw0 raw1 : Segment) :
    split .cow H src raw0 raw1 =
      (Nat.fold kNumSlot (fun i hi dst => copyHalf .cow H src false ⟨i, hi⟩ dst)
        (raw0.initSegment (src.localDepth + 1)),
       Nat.fold kNumSlot (fun i hi dst => copyHalf .cow H src true ⟨i, hi⟩ dst)
        (raw1.initSegment (src.localDepth + 1))) := by
  have hrel := fold_relation
    (fun (h : Segment × Segment) (t : Segment × Segment) => h = t) kNumSlot
    (fun i hi halves => copyBoth H src ⟨i, hi⟩ halves)
    (fun i hi t => (copyHalf .cow H src false ⟨i, hi⟩ t.1, copyHalf .cow H src true ⟨i, hi⟩ t.2))
    (raw0.initSegment (src.localDepth + 1), raw1.initSegment (src.localDepth + 1))
    (raw0.initSegment (src.localDepth + 1), raw1.initSegment (src.localDepth + 1)) rfl (by
      intro i hi s t he
      subst s
      simp only [copyBoth, copyHalf, put_cow]
      cases nextBit (H.f (src.bucket ⟨i, hi⟩).key) src.localDepth <;> simp)
  refine Eq.trans hrel (Prod.ext ?_ ?_)
  · exact fold_relation (fun (t : Segment × Segment) (s : Segment) => t.1 = s) kNumSlot _ _ _ _ rfl
      (by intro i hi t s he; rw [← he])
  · exact fold_relation (fun (t : Segment × Segment) (s : Segment) => t.2 = s) kNumSlot _ _ _ _ rfl
      (by intro i hi t s he; rw [← he])

theorem split_inplace (H : HashFuncs) (src raw0 raw1 : Segment) :
    split .inplace H src raw0 raw1 =
      (src, Nat.fold kNumSlot (fun i hi dst => copyHalf .inplace H src true ⟨i, hi⟩ dst)
        (raw1.initSegment (src.localDepth + 1))) := by
  refine Prod.ext rfl ?_
  exact fold_relation (fun (a : Segment) (c : Segment) => a = c) kNumSlot _ _ _ _ rfl (by
    intro i hi s t he
    subst s
    simp only [copyUpper, copyHalf, put_inplace])

/-! ### The copy is a first-fit placement -/

theorem holds_taken (src dst : Segment) (pos : Slot → Option Slot) (item : Slot → Prop)
    (cand : Slot → List Slot) (hp : Placement cand item pos) (hh : Holds src dst pos)
    (hocc : ∀ i, item i → src.Occupied i) (c : Slot) :
    (dst.bucket c).key = INVALID ↔ ∀ i, pos i ≠ some c := by
  constructor
  · intro he i hi
    have ho := hocc i (hp.item_of_some i c hi)
    rw [Occupied, ← hh.placed i c hi] at ho
    exact ho he
  · exact hh.free c

/-- One iteration of the copying loop. -/
theorem copyHalf_step (b : Build) (H : HashFuncs) (src dst : Segment) (bit : Bool) (i : Slot)
    (pos : Slot → Option Slot)
    (hp : Placement (fun p => candidates b H (src.bucket p).key)
      (fun p => src.Moves H bit p ∧ p < i) pos) (hh : Holds src dst pos) :
    ∃ pos', Placement (fun p => candidates b H (src.bucket p).key)
      (fun p => src.Moves H bit p ∧ p ≤ i) pos' ∧ Holds src (copyHalf b H src bit i dst) pos' := by
  have htaken := holds_taken src dst pos _ _ hp hh (fun p hm => hm.1.1)
  have hnone : pos i = none := hp.skip i (fun hx => lt_irrefl i hx.2)
  by_cases hm : src.Moves H bit i
  · simp only [copyHalf, if_pos hm.2, put]
    cases hf : (candidates b H (src.bucket i).key).find?
        (fun c => decide ((dst.bucket c).key = INVALID)) with
    | none =>
      refine ⟨Function.update pos i none, place_next i none hp hm (by intro c hc; cases hc) ?_, ?_⟩
      · intro _ c hc
        have hx := List.find?_eq_none.mp hf c hc
        simp only [decide_eq_true_eq] at hx
        by_contra hall
        exact hx ((htaken c).mpr (fun q hq => hall ⟨q, hq⟩))
      · have he : Function.update pos i none = pos := by rw [← hnone, Function.update_eq_self]
        rw [he]
        exact hh
    | some c =>
      obtain ⟨hfree, pre, post, hc, hpre⟩ := List.find?_eq_some_iff_append.mp hf
      have hfree' := (htaken c).mp (of_decide_eq_true hfree)
      refine ⟨Function.update pos i (some c), place_next i (some c) hp hm ?_ (by intro hn; cases hn),
        ?_, ?_⟩
      · intro c' hc'
        cases hc'
        refine ⟨pre, post, hc, ?_, hfree'⟩
        intro c' hm'
        have hx := hpre c' hm'
        simp only [Bool.not_eq_true', decide_eq_false_iff_not] at hx
        by_contra hall
        exact hx ((htaken c').mpr (fun q hq => hall ⟨q, hq⟩))
      · intro q c' hq
        by_cases he : q = i
        · subst q
          rw [Function.update_self] at hq
          cases hq
          exact setPair_self dst c _
        · rw [Function.update_of_ne he] at hq
          have hne : c' ≠ c := fun hx => hfree' q (hx ▸ hq)
          rw [setPair_of_ne dst c c' _ hne]
          exact hh.placed q c' hq
      · intro c' hall
        have hne : c' ≠ c := by
          intro hx
          exact hall i (by rw [Function.update_self, hx])
        rw [setPair_of_ne dst c c' _ hne]
        apply hh.free
        intro q hq
        by_cases he : q = i
        · rw [he, hnone] at hq
          cases hq
        · exact hall q (by rw [Function.update_of_ne he, hq])
  · refine ⟨pos, hp.congr_item ?_, ?_⟩
    · intro p
      constructor
      · rintro ⟨hmp, hle⟩
        exact ⟨hmp, lt_of_le_of_ne hle (fun he => hm (he ▸ hmp))⟩
      · rintro ⟨hmp, hlt⟩
        exact ⟨hmp, hlt.le⟩
    · -- an empty slot is copied as an empty slot, a slot of the other half is not copied
      simp only [copyHalf]
      by_cases hbit : nextBit (H.f (src.bucket i).key) src.localDepth = bit
      · have hempty : (src.bucket i).key = INVALID := by
          by_contra ho
          exact hm ⟨ho, hbit⟩
        simp only [if_pos hbit, put]
        cases hf : (candidates b H (src.bucket i).key).find?
            (fun c => decide ((dst.bucket c).key = INVALID)) with
        | none => exact hh
        | some c =>
          have hfound := List.find?_some hf
          have hfree := (htaken c).mp (of_decide_eq_true hfound)
          constructor
          · intro q c' hq
            have hne : c' ≠ c := fun hx => hfree q (hx ▸ hq)
            rw [setPair_of_ne dst c c' _ hne]
            exact hh.placed q c' hq
          · intro c' hall
            by_cases he : c' = c
            · rw [he, setPair_self]
              exact hempty
            · rw [setPair_of_ne dst c c' _ he]
              exact hh.free c' hall
      · rw [if_neg hbit]
        exact hh

theorem put_shape (b : Build) (H : HashFuncs) (dst : Segment) (p : Pair) :
    (put b H dst p).localDepth = dst.localDepth ∧ (put b H dst p).sema = dst.sema := by
  unfold put
  split <;> exact ⟨rfl, rfl⟩

/-- The finished copy of one half. -/
theorem copyHalf_fold (b : Build) (H : HashFuncs) (src raw : Segment) (bit : Bool) (depth : ℕ) :
    ∃ pos, Placement (fun p => candidates b H (src.bucket p).key) (src.Moves H bit) pos ∧
      Holds src (Nat.fold kNumSlot (fun i hi dst => copyHalf b H src bit ⟨i, hi⟩ dst)
        (raw.initSegment depth)) pos := by
  have hloop := fold_invariant (fun n (dst : Segment) =>
    ∃ pos, Placement (fun p => candidates b H (src.bucket p).key)
      (fun p => src.Moves H bit p ∧ p.val < n) pos ∧ Holds src dst pos) kNumSlot
    (fun i hi dst => copyHalf b H src bit ⟨i, hi⟩ dst) (raw.initSegment depth)
    ⟨fun _ => none, empty_placement _ _ (fun p hx => Nat.not_lt_zero _ hx.2),
      ⟨(fun i c hi => by cases hi), (fun c _ => rfl)⟩⟩ (by
      rintro i hi dst ⟨pos, hp, hh⟩
      obtain ⟨pos', hp', hh'⟩ := copyHalf_step b H src dst bit ⟨i, hi⟩ pos hp hh
      have hlt : ∀ p : Slot, p.val < i + 1 ↔ p ≤ ⟨i, hi⟩ := fun p => by
        rw [Fin.le_def, Nat.lt_succ_iff]
      exact ⟨pos', hp'.congr_item (fun p => and_congr_right fun _ => hlt p), hh'⟩)
  obtain ⟨pos, hp, hh⟩ := hloop
  exact ⟨pos, hp.congr_item (fun p => ⟨fun hx => ⟨hx, p.isLt⟩, And.left⟩), hh⟩

theorem copyHalf_fold_shape (b : Build) (H : HashFuncs) (src raw : Segment) (bit : Bool)
    (depth : ℕ) :
    (Nat.fold kNumSlot (fun i hi dst => copyHalf b H src bit ⟨i, hi⟩ dst)
      (raw.initSegment depth)).localDepth = depth ∧
    (Nat.fold kNumSlot (fun i hi dst => copyHalf b H src bit ⟨i, hi⟩ dst)
      (raw.initSegment depth)).sema = 0 := by
  apply fold_invariant (fun _ (dst : Segment) => dst.localDepth = depth ∧ dst.sema = 0)
  · exact ⟨rfl, rfl⟩
  · rintro i hi dst ⟨hd, hs⟩
    dsimp only [copyHalf]
    split
    · have hp := put_shape b H dst (src.bucket ⟨i, hi⟩)
      exact ⟨hp.1.trans hd, hp.2.trans hs⟩
    · exact ⟨hd, hs⟩

/-! ### Room for every live pair -/

/-- The halves that `split` fills by copying. -/
def Copies : Build → Bool → Prop
  | .cow, _ => True
  | .inplace, bit => bit = true

/-- The slot holds a pair whose first hash has the prefix `pattern` of the segment. -/
def Live (H : HashFuncs) (s : Segment) (pattern : ℕ) (i : Slot) : Prop :=
  s.Occupied i ∧ topBits (H.f (s.bucket i).key) s.localDepth = pattern

/-- Placed in slot order, each pair into the first slot of its candidates that
no earlier one took, every live pair of a copied half gets a slot. -/
def SplitFits (b : Build) (H : HashFuncs) (s : Segment) (pattern : ℕ) : Prop :=
  ∀ bit, Copies b bit → ∃ pos,
    Placement (fun p => candidates b H (s.bucket p).key) (s.Moves H bit) pos ∧
      ∀ i, s.Live H pattern i → s.Moves H bit i → pos i ≠ none

/-- Effect of `split` on the half `bit`: `dst` holds only pairs of `src` with
this bit, each in one of its windows and none twice. -/
structure CopyOf (H : HashFuncs) (src : Segment) (bit : Bool) (dst : Segment) : Prop where
  localDepth : dst.localDepth = src.localDepth + 1
  sema : dst.sema = 0
  source : ∀ c, dst.Occupied c → ∃ i, src.Moves H bit i ∧ dst.bucket c = src.bucket i ∧
    c ∈ windows H (src.bucket i).key
  once : ∀ c c' i, dst.Occupied c → dst.Occupied c' → dst.bucket c = src.bucket i →
    dst.bucket c' = src.bucket i → (∀ j, (src.bucket j).key = (src.bucket i).key → j = i) → c = c'

theorem copyOf_of_placement (b : Build) (H : HashFuncs) (src dst : Segment) (bit : Bool)
    (pos : Slot → Option Slot)
    (hp : Placement (fun p => candidates b H (src.bucket p).key) (src.Moves H bit) pos)
    (hh : Holds src dst pos) (hd : dst.localDepth = src.localDepth + 1) (hs : dst.sema = 0) :
    CopyOf H src bit dst := by
  have origin : ∀ c, dst.Occupied c → ∃ i, pos i = some c := by
    intro c ho
    by_contra hn
    exact ho (hh.free c (fun i hi => hn ⟨i, hi⟩))
  refine ⟨hd, hs, ?_, ?_⟩
  · intro c ho
    obtain ⟨i, hi⟩ := origin c ho
    exact ⟨i, hp.item_of_some i c hi, hh.placed i c hi,
      candidates_sub b H _ c (hp.mem_cand i c hi)⟩
  · intro c c' i ho ho' hc hc' huniq
    obtain ⟨j, hj⟩ := origin c ho
    obtain ⟨j', hj'⟩ := origin c' ho'
    have e := huniq j (by rw [← hh.placed j c hj, hc])
    have e' := huniq j' (by rw [← hh.placed j' c' hj', hc'])
    rw [e] at hj
    rw [e', hj] at hj'
    exact Option.some.inj hj'

end Segment

end PmemStudy.Cceh
