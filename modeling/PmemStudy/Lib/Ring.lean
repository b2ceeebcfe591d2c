import Mathlib.Data.List.Iterate
import Mathlib.GroupTheory.Perm.List

/-!
# Rings of linked nodes

The links of a list of nodes form a ring if each node leads to the next one and the last
leads to the first. A walk along the links visits every node once, from wherever it
starts, and comes back to its start after as many steps as there are nodes.
-/

namespace PmemStudy.LinkRing

variable {α : Type*}

theorem around_lt {nodes : List α} {i : ℕ} (hi : i < nodes.length) (k : ℕ) :
    (i + k) % nodes.length < nodes.length := Nat.mod_lt _ (Nat.lt_of_le_of_lt (Nat.zero_le i) hi)

theorem iterate_concat (f : α → α) (a : α) (k : ℕ) :
    List.iterate f a k ++ [f^[k] a] = List.iterate f a (k + 1) := (List.iterate_add f a k 1).symm

variable [DecidableEq α]

/-- One single cycle through the nodes of the list, in their order. -/
structure IsRing (next : α → α) (nodes : List α) : Prop where
  nodup : nodes.Nodup
  next_eq : ∀ x ∈ nodes, next x = nodes.formPerm x

variable {next next' : α → α} {nodes : List α} {x y : α}

theorem isRing_of_getElem (hn : nodes.Nodup)
    (h : ∀ i (hi : i < nodes.length), next nodes[i] = nodes.get ⟨_, around_lt hi 1⟩) :
    IsRing next nodes where
  nodup := hn
  next_eq := by
    intro x hx
    obtain ⟨i, hi, rfl⟩ := List.getElem_of_mem hx
    rw [h i hi, List.formPerm_apply_getElem nodes hn i hi]
    rfl

theorem isRing_formPerm (hn : nodes.Nodup) : IsRing nodes.formPerm nodes := ⟨hn, fun _ _ => rfl⟩

namespace IsRing

theorem congr (h : IsRing next nodes) (heq : ∀ x ∈ nodes, next' x = next x) :
    IsRing next' nodes := ⟨h.nodup, fun x hx => (heq x hx).trans (h.next_eq x hx)⟩

theorem next_mem (h : IsRing next nodes) (hx : x ∈ nodes) : next x ∈ nodes := by
  rw [h.next_eq x hx]
  exact List.formPerm_apply_mem_of_mem hx

theorem iterate_mem (h : IsRing next nodes) (hx : x ∈ nodes) (k : ℕ) : next^[k] x ∈ nodes := by
  induction k with
  | zero => exact hx
  | succ k ih =>
    rw [Function.iterate_succ_apply']
    exact h.next_mem ih

theorem iterate_getElem (h : IsRing next nodes) (k : ℕ) {i : ℕ} (hi : i < nodes.length) :
    next^[k] nodes[i] = nodes.get ⟨_, around_lt hi k⟩ := by
  have hpow : next^[k] nodes[i] = (nodes.formPerm ^ k) nodes[i] := by
    induction k with
    | zero => rfl
    | succ k ih =>
      have hmem := h.iterate_mem (List.getElem_mem hi) k
      rw [Function.iterate_succ_apply', h.next_eq _ hmem, ih, pow_succ', Equiv.Perm.mul_apply]
  rw [hpow, List.formPerm_pow_apply_getElem nodes h.nodup k i hi]
  rfl

/-- A full round is the list of the nodes, rotated to the start of the walk. -/
theorem round_eq (h : IsRing next nodes) {i : ℕ} (hi : i < nodes.length) :
    List.iterate next nodes[i] nodes.length = nodes.rotate i := by
  apply List.ext_getElem
  · rw [List.length_iterate, List.length_rotate]
  · intro k hk _
    rw [List.getElem_iterate, List.getElem_rotate, h.iterate_getElem k hi]
    simp only [List.get_eq_getElem, Nat.add_comm]

theorem round_perm (h : IsRing next nodes) (hx : x ∈ nodes) :
    (List.iterate next x nodes.length).Perm nodes := by
  obtain ⟨i, hi, rfl⟩ := List.getElem_of_mem hx
  rw [h.round_eq hi]
  exact List.rotate_perm nodes i

theorem iterate_length (h : IsRing next nodes) (hx : x ∈ nodes) :
    next^[nodes.length] x = x := by
  obtain ⟨i, hi, rfl⟩ := List.getElem_of_mem hx
  rw [h.iterate_getElem _ hi]
  simp only [Nat.add_mod_right, Nat.mod_eq_of_lt hi, List.get_eq_getElem]

/-- The walk does not come back earlier. -/
theorem iterate_ne (h : IsRing next nodes) (hx : x ∈ nodes) {k : ℕ} (h0 : 0 < k)
    (hk : k < nodes.length) : next^[k] x ≠ x := by
  intro heq
  have hnodup := (h.round_perm hx).nodup_iff.mpr h.nodup
  have hk' : k < (List.iterate next x nodes.length).length := by rwa [List.length_iterate]
  have h0' : 0 < (List.iterate next x nodes.length).length := by omega
  have hsame : (List.iterate next x nodes.length)[k] = (List.iterate next x nodes.length)[0] := by
    rw [List.getElem_iterate, List.getElem_iterate]
    exact heq
  have := hnodup.getElem_inj_iff.mp hsame
  omega

/-- The nodes visited so far are distinct nodes of the ring. -/
theorem part_nodup (h : IsRing next nodes) (hx : x ∈ nodes) {k : ℕ} (hk : k ≤ nodes.length) :
    (List.iterate next x k).Nodup := by
  have hnodup := (h.round_perm hx).nodup_iff.mpr h.nodup
  have htake := List.take_iterate next x k nodes.length
  rw [Nat.min_eq_left hk] at htake
  rw [← htake]
  exact hnodup.sublist (List.take_sublist k _)

theorem part_subset (h : IsRing next nodes) (hx : x ∈ nodes) (k : ℕ) :
    ∀ y ∈ List.iterate next x k, y ∈ nodes := by
  intro y hy
  obtain ⟨m, -, rfl⟩ := List.mem_iterate.mp hy
  exact h.iterate_mem hx m

end IsRing

end PmemStudy.LinkRing
