import Mathlib.Data.List.Nodup
import Mathlib.Data.List.Perm.Basic

/-!
# Dictionaries

A dictionary keeps its keys in the order in which they were first set. Built from a list
of pairs, it maps each key to the last value that the list has for it.
-/

namespace PmemStudy.Dict

variable {α β : Type*} [BEq α]

/-- `d[k] = v` -/
def set (k : α) (v : β) : List (α × β) → List (α × β)
  | [] => [(k, v)]
  | p :: d => if p.1 == k then (p.1, v) :: d else p :: set k v d

def setAll (d ps : List (α × β)) : List (α × β) := ps.foldl (fun d p => set p.1 p.2 d) d

variable {d ps qs : List (α × β)} {k n : α} {v w : β}

theorem mem_keys_set (h : n ∈ (set k v d).map Prod.fst) : n = k ∨ n ∈ d.map Prod.fst := by
  induction d with
  | nil => exact .inl (List.mem_singleton.mp h)
  | cons p d ih =>
    simp only [set] at h
    split at h
    · exact .inr h
    · rcases List.mem_cons.mp h with rfl | h
      · exact .inr List.mem_cons_self
      · exact (ih h).imp_right (List.mem_cons_of_mem p.1)

variable [LawfulBEq α]

theorem lookup_set (k n : α) (v : β) (d : List (α × β)) :
    (set k v d).lookup n = if n == k then some v else d.lookup n := by
  induction d with
  | nil =>
    rw [set, List.lookup_cons, List.lookup_nil]
    cases n == k <;> rfl
  | cons p d ih =>
    obtain ⟨k', v'⟩ := p
    simp only [set]
    by_cases hk : k' = k
    · subst hk
      simp only [beq_self_eq_true, if_true, List.lookup_cons]
      cases n == k' <;> rfl
    · have hkb : (k' == k) = false := beq_eq_false_iff_ne.mpr hk
      simp only [hkb, Bool.false_eq_true, if_false, List.lookup_cons, ih]
      by_cases hn : n = k'
      · subst hn
        simp only [beq_self_eq_true, hkb, Bool.false_eq_true, if_false]
      · have hb : (n == k') = false := beq_eq_false_iff_ne.mpr hn
        simp only [hb]

theorem lookup_setAll (d ps : List (α × β)) (n : α) :
    (setAll d ps).lookup n = (ps.reverse.lookup n).or (d.lookup n) := by
  induction ps generalizing d with
  | nil => rfl
  | cons p ps ih =>
    show (setAll (set p.1 p.2 d) ps).lookup n = _
    rw [ih, lookup_set, List.reverse_cons, List.lookup_append, Option.or_assoc]
    congr 1
    obtain ⟨k, v⟩ := p
    rw [List.lookup_cons, List.lookup_nil]
    cases n == k <;> rfl

theorem nodup_set (h : (d.map Prod.fst).Nodup) : ((set k v d).map Prod.fst).Nodup := by
  induction d with
  | nil => exact List.nodup_singleton k
  | cons p d ih =>
    obtain ⟨hp, hd⟩ := List.nodup_cons.mp h
    simp only [set]
    split
    · exact h
    · next hk =>
      refine List.nodup_cons.mpr ⟨?_, ih hd⟩
      intro hm
      rcases mem_keys_set hm with heq | hm
      · exact hk (beq_iff_eq.mpr heq)
      · exact hp hm

theorem nodup_setAll (h : (d.map Prod.fst).Nodup) : ((setAll d ps).map Prod.fst).Nodup := by
  induction ps generalizing d with
  | nil => exact h
  | cons p ps ih => exact ih (nodup_set h)

/-- The entries of a dictionary are what it maps its keys to. -/
theorem mem_iff_lookup (h : (d.map Prod.fst).Nodup) : (n, v) ∈ d ↔ d.lookup n = some v := by
  induction d with
  | nil =>
    constructor
    · intro hm
      exact absurd hm List.not_mem_nil
    · intro hm
      cases hm
  | cons p d ih =>
    obtain ⟨k, w⟩ := p
    obtain ⟨hk, hd⟩ := List.nodup_cons.mp h
    rw [List.mem_cons, List.lookup_cons, ih hd]
    by_cases hn : n = k
    · subst hn
      have hnone : d.lookup n = none := by
        rw [List.lookup_eq_none_iff]
        intro q hq
        have hne : n ≠ q.1 := fun he => hk (List.mem_map.mpr ⟨q, hq, he.symm⟩)
        simpa using hne
      simp only [beq_self_eq_true, hnone, Prod.mk.injEq, true_and, reduceCtorEq, or_false,
        Option.some.injEq, eq_comm]
    · have hb : (n == k) = false := beq_eq_false_iff_ne.mpr hn
      simp only [hb, Prod.mk.injEq, hn, false_and, false_or]

/-- The last value of a key is one of its values. -/
theorem mem_of_lookup_reverse (h : ps.reverse.lookup n = some v) : (n, v) ∈ ps := by
  obtain ⟨l₁, l₂, heq, -⟩ := List.lookup_eq_some_iff.mp h
  have hm : (n, v) ∈ ps.reverse := heq ▸ List.mem_append_right l₁ List.mem_cons_self
  exact List.mem_reverse.mp hm

theorem lookup_reverse_isSome (h : n ∈ ps.map Prod.fst) : (ps.reverse.lookup n).isSome := by
  obtain ⟨p, hp, rfl⟩ := List.mem_map.mp h
  rw [List.lookup_isSome_iff]
  exact ⟨p, List.mem_reverse.mpr hp, beq_self_eq_true p.1⟩

theorem setAll_eq_nil_iff : setAll [] ps = [] ↔ ps = [] := by
  constructor
  · intro h
    cases ps with
    | nil => rfl
    | cons p ps =>
      have hsome : ((p :: ps).reverse.lookup p.1).isSome :=
        lookup_reverse_isSome (List.mem_map.mpr ⟨p, List.mem_cons_self, rfl⟩)
      have hlook := lookup_setAll [] (p :: ps) p.1
      rw [h, List.lookup_nil, Option.or_none] at hlook
      rw [← hlook] at hsome
      cases hsome
  · rintro rfl
    rfl

end PmemStudy.Dict
