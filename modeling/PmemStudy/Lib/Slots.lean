import Mathlib.Data.List.Chain
import Mathlib.Data.List.InsertIdx
import Mathlib.Order.Lattice

/-!
# Slot arrays with repeated pointers

An array of keys and pointers read from left to right, where a slot counts only
if its pointer differs from the pointer before it. While entries are shifted one
by one, the array holds the same pointer twice for a moment; such a slot is
ignored, so both searches answer as on the array without it.
-/

namespace PmemStudy.Slots

@[ext]
structure Entry (κ α : Type*) where
  key : κ
  ptr : α
  deriving DecidableEq, Repr

variable {κ α : Type*}

/-- `q` is `es` with some slots added that repeat the pointer before them. -/
inductive Stutter : α → List (Entry κ α) → List (Entry κ α) → Prop
  | nil (prev : α) : Stutter prev [] []
  | skip (prev : α) (k : κ) {es q : List (Entry κ α)} (h : Stutter prev es q) :
      Stutter prev es (⟨k, prev⟩ :: q)
  | keep (prev : α) (e : Entry κ α) {es q : List (Entry κ α)} (h : Stutter e.ptr es q) :
      Stutter prev (e :: es) (e :: q)

/-- The pointer in front of position `c`. -/
def before (prev : α) (es : List (Entry κ α)) (c : ℕ) : α := ((prev :: es.map (·.ptr))[c]?).getD prev

theorem before_zero (prev : α) (es : List (Entry κ α)) : before prev es 0 = prev := by
  simp [before]

theorem before_succ (prev : α) (es : List (Entry κ α)) (c : ℕ) (h : c < es.length) :
    before prev es (c + 1) = es[c].ptr := by
  simp [before, h]

theorem Stutter.refl (prev : α) (es : List (Entry κ α)) : Stutter prev es es := by
  induction es generalizing prev with
  | nil => exact .nil prev
  | cons e es ih => exact .keep prev e (ih e.ptr)

theorem before_cons (prev : α) (e : Entry κ α) (es : List (Entry κ α)) {c : ℕ}
    (hc : c ≤ es.length) : before prev (e :: es) (c + 1) = before e.ptr es c := by
  cases c with
  | zero => simp [before]
  | succ c =>
    have : c < es.length := hc
    simp [before, this]

/-- One ignored slot at position `c`. -/
theorem Stutter.gap (prev : α) (es : List (Entry κ α)) (c : ℕ) (hc : c ≤ es.length) (k : κ) :
    Stutter prev es (es.insertIdx c ⟨k, before prev es c⟩) := by
  induction es generalizing prev c with
  | nil =>
    have : c = 0 := by simpa using hc
    subst c
    rw [before_zero, List.insertIdx_zero]
    exact .skip prev k (.nil prev)
  | cons e es ih =>
    cases c with
    | zero =>
      rw [before_zero, List.insertIdx_zero]
      exact .skip prev k (.refl prev (e :: es))
    | succ c =>
      have hc' : c ≤ es.length := by simpa using hc
      rw [before_cons prev e es hc', List.insertIdx_succ_cons]
      exact .keep prev e (ih e.ptr c hc')

/-- A slot that is not ignored is an entry. -/
theorem Stutter.mem_of_hit {prev : α} {es q : List (Entry κ α)} (h : Stutter prev es q) (m : ℕ)
    (hm : m < q.length) (hh : before prev q m ≠ q[m].ptr) : q[m] ∈ es := by
  induction h generalizing m with
  | nil prev => simp at hm
  | skip prev k _ ih =>
    cases m with
    | zero => exact absurd rfl hh
    | succ m =>
      have hm' := Nat.lt_of_succ_lt_succ hm
      rw [before_cons _ _ _ hm'.le] at hh
      exact ih m hm' hh
  | keep prev e _ ih =>
    cases m with
    | zero => exact List.mem_cons_self
    | succ m =>
      have hm' := Nat.lt_of_succ_lt_succ hm
      rw [before_cons _ _ _ hm'.le] at hh
      exact List.mem_cons_of_mem e (ih m hm' hh)

section

variable [LinearOrder κ] [DecidableEq α]

/-- Exact search; `prev` is the pointer in front of the array. -/
def find (key : κ) : α → List (Entry κ α) → Option α
  | _, [] => none
  | prev, e :: q => if e.key = key ∧ prev ≠ e.ptr then some e.ptr else find key e.ptr q

/-- Routing search: the pointer in front of the first greater key. -/
def route (key : κ) : α → List (Entry κ α) → α
  | prev, [] => prev
  | prev, e :: q => if key < e.key ∧ prev ≠ e.ptr then prev else route key e.ptr q

theorem find_stutter (key : κ) {prev : α} {es q : List (Entry κ α)} (h : Stutter prev es q) :
    find key prev q = find key prev es := by
  induction h with
  | nil prev => rfl
  | skip prev k h ih => simpa [find] using ih
  | keep prev e h ih => simp only [find, ih]

theorem route_stutter (key : κ) {prev : α} {es q : List (Entry κ α)} (h : Stutter prev es q) :
    route key prev q = route key prev es := by
  induction h with
  | nil prev => rfl
  | skip prev k h ih => simpa [route] using ih
  | keep prev e h ih => simp only [route, ih]

end

/-! ### Arrays without repetition -/

/-- No two neighbouring pointers are equal. -/
def Distinct (prev : α) (es : List (Entry κ α)) : Prop :=
  (prev :: es.map (·.ptr)).IsChain (· ≠ ·)

instance [DecidableEq α] (prev : α) (es : List (Entry κ α)) : Decidable (Distinct prev es) :=
  inferInstanceAs (Decidable (List.IsChain _ _))

theorem distinct_cons {prev : α} {e : Entry κ α} {es : List (Entry κ α)} :
    Distinct prev (e :: es) ↔ prev ≠ e.ptr ∧ Distinct e.ptr es := by
  simp [Distinct, List.isChain_cons_cons]

/-- Every entry has a slot that is not ignored. -/
theorem Stutter.hit_of_mem {prev : α} {es q : List (Entry κ α)} (h : Stutter prev es q)
    (hd : Distinct prev es) {e : Entry κ α} (he : e ∈ es) :
    ∃ (m : ℕ) (hm : m < q.length), q[m] = e ∧ before prev q m ≠ q[m].ptr := by
  induction h with
  | nil prev => simp at he
  | skip prev k _ ih =>
    obtain ⟨m, hm, hq, hh⟩ := ih hd he
    refine ⟨m + 1, Nat.succ_lt_succ hm, hq, ?_⟩
    rw [before_cons _ _ _ hm.le]
    exact hh
  | keep prev b _ ih =>
    rw [distinct_cons] at hd
    rcases List.mem_cons.mp he with rfl | he
    · exact ⟨0, Nat.succ_pos _, rfl, hd.1⟩
    · obtain ⟨m, hm, hq, hh⟩ := ih hd.2 he
      refine ⟨m + 1, Nat.succ_lt_succ hm, hq, ?_⟩
      rw [before_cons _ _ _ hm.le]
      exact hh

theorem Distinct.left {prev : α} {xs ys : List (Entry κ α)} (h : Distinct prev (xs ++ ys)) :
    Distinct prev xs := by
  induction xs generalizing prev with
  | nil => simp [Distinct]
  | cons e xs ih =>
    rw [List.cons_append, distinct_cons] at h
    exact distinct_cons.mpr ⟨h.1, ih h.2⟩

theorem Distinct.right {prev : α} {xs ys : List (Entry κ α)} {e : Entry κ α}
    (h : Distinct prev (xs ++ e :: ys)) : Distinct e.ptr ys := by
  induction xs generalizing prev with
  | nil => exact (distinct_cons.mp h).2
  | cons x xs ih =>
    rw [List.cons_append, distinct_cons] at h
    exact ih h.2

theorem insertIdx_take_drop {β : Type*} (l : List β) (c : ℕ) (x : β) (hc : c ≤ l.length) :
    l.insertIdx c x = l.take c ++ x :: l.drop c := by
  induction l generalizing c with
  | nil =>
    have : c = 0 := by simpa using hc
    subst c
    rfl
  | cons b l ih =>
    cases c with
    | zero => rfl
    | succ c =>
      rw [List.insertIdx_succ_cons, ih c (by simpa using hc)]
      rfl

section

variable [LinearOrder κ]

/-- Keys in strictly increasing order. -/
def Increasing (es : List (Entry κ α)) : Prop := es.Pairwise (fun a b => a.key < b.key)

instance (es : List (Entry κ α)) : Decidable (Increasing es) :=
  inferInstanceAs (Decidable (List.Pairwise _ _))

/-- Where `key` belongs among the keys of `es`. -/
structure Place (es : List (Entry κ α)) (key : κ) (c : ℕ) : Prop where
  le : c ≤ es.length
  left : ∀ i (h : i < es.length), i < c → es[i].key < key
  right : ∀ i (h : i < es.length), c ≤ i → key < es[i].key

theorem exists_place {es : List (Entry κ α)} (hi : Increasing es) {key : κ}
    (hk : ∀ e ∈ es, e.key ≠ key) : ∃ c, Place es key c := by
  induction es with
  | nil => exact ⟨0, by simp, by simp, by simp⟩
  | cons a es ih =>
    have hi' := List.pairwise_cons.mp hi
    rcases lt_or_gt_of_ne (hk a List.mem_cons_self) with hlt | hgt
    · obtain ⟨c, hc⟩ := ih hi'.2 (fun e he => hk e (List.mem_cons_of_mem a he))
      refine ⟨c + 1, by have := hc.le; simp; omega, ?_, ?_⟩
      · intro i h hic
        cases i with
        | zero => exact hlt
        | succ i => exact hc.left i (by simpa using h) (by omega)
      · intro i h hic
        cases i with
        | zero => omega
        | succ i => exact hc.right i (by simpa using h) (by omega)
    · refine ⟨0, by simp, by simp, ?_⟩
      intro i h _
      cases i with
      | zero => exact hgt
      | succ i => exact hgt.trans (hi'.1 _ (List.getElem_mem _))

theorem Place.ne {es : List (Entry κ α)} {key : κ} {c : ℕ} (hp : Place es key c) :
    ∀ e ∈ es, e.key ≠ key := by
  intro e he
  obtain ⟨i, hi, rfl⟩ := List.getElem_of_mem he
  by_cases hic : i < c
  · exact (hp.left i hi hic).ne
  · exact (hp.right i hi (by omega)).ne'

/-- The order of increasing entries is determined. -/
theorem Increasing.eq_of_perm {xs ys : List (Entry κ α)} (hx : Increasing xs)
    (hy : Increasing ys) (hp : xs.Perm ys) : xs = ys :=
  hp.eq_of_pairwise (fun _ _ _ _ h h' => absurd h h'.not_gt) hx hy

/-- A key has one entry. -/
theorem Increasing.unique {es : List (Entry κ α)} (hi : Increasing es) {a b : Entry κ α}
    (ha : a ∈ es) (hb : b ∈ es) (hk : a.key = b.key) : a = b := by
  obtain ⟨i, hi', rfl⟩ := List.getElem_of_mem ha
  obtain ⟨j, hj', rfl⟩ := List.getElem_of_mem hb
  rcases lt_trichotomy i j with h | h | h
  · exact absurd hk (List.pairwise_iff_getElem.mp hi i j hi' hj' h).ne
  · subst j
    rfl
  · exact absurd hk (List.pairwise_iff_getElem.mp hi j i hj' hi' h).ne'

variable [DecidableEq α]

theorem find_some {key : κ} {prev v : α} {es : List (Entry κ α)} (h : find key prev es = some v) :
    (⟨key, v⟩ : Entry κ α) ∈ es := by
  induction es generalizing prev with
  | nil => simp [find] at h
  | cons e es ih =>
    by_cases hk : e.key = key ∧ prev ≠ e.ptr
    · rw [find, if_pos hk] at h
      have hv : e.ptr = v := by simpa using h
      rw [← hk.1, ← hv]
      exact List.mem_cons_self
    · rw [find, if_neg hk] at h
      exact List.mem_cons_of_mem e (ih h)

theorem find_mem {prev : α} {es : List (Entry κ α)} (hd : Distinct prev es) (hi : Increasing es)
    {e : Entry κ α} (he : e ∈ es) : find e.key prev es = some e.ptr := by
  induction es generalizing prev with
  | nil => simp at he
  | cons a es ih =>
    rw [distinct_cons] at hd
    have hi' := List.pairwise_cons.mp hi
    rcases List.mem_cons.mp he with rfl | hmem
    · rw [find, if_pos ⟨rfl, hd.1⟩]
    · have hlt : a.key < e.key := hi'.1 e hmem
      rw [find, if_neg (fun hc => hlt.ne hc.1)]
      exact ih hd.2 hi'.2 hmem

theorem find_none {key : κ} {prev : α} {es : List (Entry κ α)} (h : ∀ e ∈ es, e.key ≠ key) :
    find key prev es = none := by
  cases hf : find key prev es with
  | none => rfl
  | some v => exact absurd rfl (h _ (find_some hf))

theorem route_stop {key : κ} {prev : α} {e : Entry κ α} {es : List (Entry κ α)} (h : key < e.key)
    (hd : prev ≠ e.ptr) : route key prev (e :: es) = prev := by
  rw [route, if_pos ⟨h, hd⟩]

/-- Entries behind a greater key do not matter. -/
theorem route_before {key : κ} {prev : α} {es ys : List (Entry κ α)} {t : Entry κ α}
    (h : key < t.key) (hd : Distinct prev (es ++ t :: ys)) :
    route key prev (es ++ t :: ys) = route key prev es := by
  induction es generalizing prev with
  | nil =>
    rw [List.nil_append] at hd ⊢
    exact route_stop h (distinct_cons.mp hd).1
  | cons e es ih =>
    have hd' := distinct_cons.mp hd
    simp only [List.cons_append, route]
    rw [ih hd'.2]

/-- Entries up to a key that is not greater do not matter. -/
theorem route_behind {key : κ} {prev : α} {es ys : List (Entry κ α)} {t : Entry κ α}
    (h : ∀ e ∈ es, e.key ≤ key) (ht : t.key ≤ key) :
    route key prev (es ++ t :: ys) = route key t.ptr ys := by
  induction es generalizing prev with
  | nil => rw [List.nil_append, route, if_neg (fun hc => absurd hc.1 (not_lt.mpr ht))]
  | cons e es ih =>
    have he : ¬ (key < e.key ∧ prev ≠ e.ptr) := fun hc =>
      absurd hc.1 (not_lt.mpr (h e List.mem_cons_self))
    rw [List.cons_append, route, if_neg he, ih (fun x hx => h x (List.mem_cons_of_mem e hx))]

theorem route_first {key : κ} {prev : α} {es : List (Entry κ α)} (h : ∀ e ∈ es, key < e.key)
    (hd : Distinct prev es) : route key prev es = prev := by
  cases es with
  | nil => rfl
  | cons e es => exact route_stop (h e List.mem_cons_self) (distinct_cons.mp hd).1

theorem route_between {key : κ} {prev : α} {xs ys : List (Entry κ α)} {e : Entry κ α}
    (hx : ∀ b ∈ xs, b.key < e.key) (hy : ∀ b ∈ ys, e.key < b.key) (hd : Distinct prev (xs ++ ys))
    (hd' : Distinct prev (xs ++ e :: ys)) :
    route key prev (xs ++ e :: ys) = route key prev (xs ++ ys) ∨
      e.key ≤ key ∧ route key prev (xs ++ e :: ys) = e.ptr := by
  rcases lt_or_ge key e.key with hlt | hge
  · left
    rw [route_before hlt hd']
    cases ys with
    | nil => rw [List.append_nil]
    | cons t ys => rw [route_before (hlt.trans (hy t List.mem_cons_self)) hd]
  · have hle : ∀ b ∈ xs, b.key ≤ key := fun b hb => (hx b hb).le.trans hge
    rw [route_behind hle hge]
    cases ys with
    | nil => exact Or.inr ⟨hge, rfl⟩
    | cons t ys =>
      rcases lt_or_ge key t.key with hlt | hge'
      · exact Or.inr ⟨hge, route_stop hlt (distinct_cons.mp hd'.right).1⟩
      · left
        rw [route_behind hle hge']
        exact route_behind (fun b (hb : b ∈ []) => absurd hb List.not_mem_nil) hge'

/-- An inserted entry takes the keys from its own on, up to the next one. -/
theorem route_insert {key : κ} {prev : α} {es : List (Entry κ α)} {e : Entry κ α} {c : ℕ}
    (hp : Place es e.key c) (hd : Distinct prev es) (hd' : Distinct prev (es.insertIdx c e)) :
    route key prev (es.insertIdx c e) = route key prev es ∨
      e.key ≤ key ∧ route key prev (es.insertIdx c e) = e.ptr := by
  have hsplit : es.take c ++ es.drop c = es := List.take_append_drop c es
  rw [insertIdx_take_drop es c e hp.le] at hd' ⊢
  have h : route key prev (es.take c ++ e :: es.drop c) = route key prev (es.take c ++ es.drop c) ∨
      e.key ≤ key ∧ route key prev (es.take c ++ e :: es.drop c) = e.ptr :=
    route_between ?_ ?_ (by rw [hsplit]; exact hd) hd'
  · rwa [hsplit] at h
  · intro b hb
    obtain ⟨i, hi, rfl⟩ := List.mem_take_iff_getElem.mp hb
    exact hp.left i (by omega) (by omega)
  · intro b hb
    obtain ⟨i, hi, rfl⟩ := List.mem_drop_iff_getElem.mp hb
    exact hp.right (c + i) (by omega) (by omega)

theorem route_mem (key : κ) (prev : α) (es : List (Entry κ α)) :
    route key prev es = prev ∨ ∃ e ∈ es, route key prev es = e.ptr := by
  induction es generalizing prev with
  | nil => exact Or.inl rfl
  | cons e es ih =>
    rw [route]
    split
    · exact Or.inl rfl
    · rcases ih e.ptr with h | ⟨b, hb, h⟩
      · exact Or.inr ⟨e, List.mem_cons_self, h⟩
      · exact Or.inr ⟨b, List.mem_cons_of_mem e hb, h⟩

end

end PmemStudy.Slots
