import Mathlib.Data.List.Dedup
import Mathlib.Data.List.Perm.Basic

/-!
# Rows grouped by a key

A group is a non-empty list of rows: all rows of one key, in the order they have among
the rows. The groups may come in any order.
-/

namespace PmemStudy

structure Grouped {R K : Type*} [DecidableEq K] (key : R → K) (rows : List R) where
  groups : List (List R)
  perm : groups.flatten.Perm rows
  ne_nil : ∀ g ∈ groups, g ≠ []
  eq_filter : ∀ g ∈ groups, ∀ r ∈ g, g = rows.filter fun r' => key r' = key r

namespace Grouped

variable {R K : Type*} [DecidableEq K] {key : R → K} {rows : List R}

theorem mem_rows_iff (d : Grouped key rows) {r : R} : r ∈ rows ↔ ∃ g ∈ d.groups, r ∈ g := by
  rw [← d.perm.mem_iff, List.mem_flatten]

/-- The rows of a group have one key. -/
theorem key_eq (d : Grouped key rows) {g : List R} (hg : g ∈ d.groups) {r r' : R} (hr : r ∈ g)
    (hr' : r' ∈ g) : key r' = key r := by
  rw [d.eq_filter g hg r hr] at hr'
  exact of_decide_eq_true (List.mem_filter.mp hr').2

/-! ### One group for each key -/

theorem flatten_filter (key : R → K) (rows : List R) {ks : List K} (hks : ks.Nodup) :
    (ks.map fun k => rows.filter fun r => key r = k).flatten.Perm
      (rows.filter fun r => key r ∈ ks) := by
  induction ks with
  | nil =>
    simp only [List.map_nil, List.flatten_nil, List.not_mem_nil, decide_false,
      List.filter_false, List.Perm.refl]
  | cons k ks ih =>
    obtain ⟨hk, hks⟩ := List.nodup_cons.mp hks
    have hfirst : (rows.filter fun r => key r ∈ k :: ks).filter (fun r => key r = k) =
        rows.filter fun r => key r = k := by
      rw [List.filter_filter]
      refine List.filter_congr fun r _ => ?_
      by_cases h : key r = k <;> simp [h]
    have hothers : (rows.filter fun r => key r ∈ k :: ks).filter (fun r => !(key r = k : Bool)) =
        rows.filter fun r => key r ∈ ks := by
      rw [List.filter_filter]
      refine List.filter_congr fun r _ => ?_
      by_cases h : key r = k
      · simp [h, hk]
      · simp [h]
    have hsplit := List.filter_append_perm (fun r => decide (key r = k))
      (rows.filter fun r => key r ∈ k :: ks)
    rw [hfirst, hothers] at hsplit
    exact (List.Perm.append_left _ (ih hks)).trans hsplit

/-- The rows of each key that occurs. -/
def byKey (key : R → K) (rows : List R) : Grouped key rows where
  groups := (rows.map key).dedup.map fun k => rows.filter fun r => key r = k
  perm := by
    have hall : (rows.filter fun r => key r ∈ (rows.map key).dedup) = rows := by
      refine List.filter_eq_self.mpr fun r hr => decide_eq_true ?_
      exact List.mem_dedup.mpr (List.mem_map_of_mem hr)
    have hflat := flatten_filter key rows (List.nodup_dedup (rows.map key))
    rwa [hall] at hflat
  ne_nil := by
    intro g hg
    obtain ⟨k, hk, rfl⟩ := List.mem_map.mp hg
    obtain ⟨r, hr, rfl⟩ := List.mem_map.mp (List.mem_dedup.mp hk)
    exact List.ne_nil_of_mem (List.mem_filter.mpr ⟨hr, decide_eq_true rfl⟩)
  eq_filter := by
    intro g hg r hr
    obtain ⟨k, -, rfl⟩ := List.mem_map.mp hg
    have hk : key r = k := of_decide_eq_true (List.mem_filter.mp hr).2
    rw [hk]

end Grouped

end PmemStudy
