import Mathlib.Data.List.FinRange
import PmemStudy.Lib.Loop
import PmemStudy.Lib.Ring

/-!
# Rings of 256-byte units

The pointer chasing tests cut their working set into units whose first word is the
pointer to the next one, and link them in a shuffled order.
-/

namespace PmemStudy.Micro

open LinkRing

/-- The 8-byte words by their addresses. -/
abbrev Memory := BitVec 64 → BitVec 64

def Memory.store (m : Memory) (addr w : BitVec 64) : Memory := Function.update m addr w

theorem Memory.store_self (m : Memory) (addr w : BitVec 64) : m.store addr w addr = w :=
  Function.update_self _ _ _

theorem Memory.store_of_ne {m : Memory} {addr a : BitVec 64} (w : BitVec 64) (h : a ≠ addr) :
    m.store addr w a = m a := Function.update_of_ne h _ _

/-- The units of one thread and the order in which they are linked. -/
structure Slice where
  base : BitVec 64
  unitNum : ℕ
  order : Equiv.Perm (Fin unitNum)
  pos : 0 < unitNum
  fits : 256 * unitNum ≤ 2 ^ 64

namespace Slice

variable (s : Slice)

/-- The address of unit `i`, and of its field `next`. -/
def unit (i : Fin s.unitNum) : BitVec 64 := s.base + BitVec.ofNat 64 (256 * i)

/-- The store that links the `k`-th unit of the order. -/
def link (k : Fin s.unitNum) : BitVec 64 × BitVec 64 :=
  if h : k + 1 < s.unitNum then (s.unit (s.order k), s.unit (s.order ⟨k + 1, h⟩))
  -- behind the loop
  else (s.unit (s.order k), s.unit (s.order ⟨0, s.pos⟩))

def build (m : Memory) : Memory :=
  Nat.fold s.unitNum (fun k hk m => m.store (s.link ⟨k, hk⟩).1 (s.link ⟨k, hk⟩).2) m

/-- The units in the order of their links. -/
def units : List (BitVec 64) := (List.finRange s.unitNum).map fun k => s.unit (s.order k)

/-- The first `n` links are in place. -/
def LinkedTo (n : ℕ) (m : Memory) : Prop :=
  ∀ k : Fin s.unitNum, k.val < n → m (s.unit (s.order k)) = (s.link k).2

variable {s} {m m' : Memory}

theorem unit_injective : Function.Injective s.unit := by
  intro i j h
  have heq := congrArg BitVec.toNat h
  have := s.fits
  simp only [unit, BitVec.toNat_add, BitVec.toNat_ofNat] at heq
  apply Fin.ext
  omega

theorem link_fst (k : Fin s.unitNum) : (s.link k).1 = s.unit (s.order k) := by
  unfold link
  split <;> rfl

theorem length_units : s.units.length = s.unitNum := by
  rw [units, List.length_map, List.length_finRange]

theorem getElem_units {k : ℕ} (hk : k < s.units.length) :
    s.units[k] = s.unit (s.order ⟨k, length_units ▸ hk⟩) := by
  simp only [units, List.getElem_map, List.getElem_finRange]
  rfl

theorem mem_units {a : BitVec 64} : a ∈ s.units ↔ ∃ i, s.unit i = a := by
  constructor
  · intro h
    obtain ⟨k, -, rfl⟩ := List.mem_map.mp h
    exact ⟨s.order k, rfl⟩
  · rintro ⟨i, rfl⟩
    exact List.mem_map.mpr ⟨s.order.symm i, List.mem_finRange _, by rw [Equiv.apply_symm_apply]⟩

theorem unit_mem (i : Fin s.unitNum) : s.unit i ∈ s.units := mem_units.mpr ⟨i, rfl⟩

theorem nodup_units : s.units.Nodup :=
  (List.nodup_finRange s.unitNum).map (unit_injective.comp s.order.injective)

/-- The `k`-th link is set after the ones before it, at a unit of its own. -/
theorem LinkedTo.step {n : ℕ} (h : s.LinkedTo n m) (hn : n < s.unitNum) :
    s.LinkedTo (n + 1) (m.store (s.link ⟨n, hn⟩).1 (s.link ⟨n, hn⟩).2) := by
  intro k hk
  rw [link_fst]
  by_cases hkn : k = ⟨n, hn⟩
  · rw [hkn, Memory.store_self]
  · have hne : s.unit (s.order k) ≠ s.unit (s.order ⟨n, hn⟩) := by
      intro heq
      exact hkn (s.order.injective (unit_injective heq))
    rw [Memory.store_of_ne _ hne]
    apply h k
    have : k.val ≠ n := fun heq => hkn (Fin.ext heq)
    omega

theorem LinkedTo.congr {n : ℕ} (h : s.LinkedTo n m) (heq : ∀ i, m' (s.unit i) = m (s.unit i)) :
    s.LinkedTo n m' := fun k hk => (heq _).trans (h k hk)

theorem build_linked (m : Memory) : s.LinkedTo s.unitNum (s.build m) :=
  Loop.fold_invariant (fun n m => s.LinkedTo n m) s.unitNum _ m
    (fun k hk => absurd hk (Nat.not_lt_zero k)) fun _ hn _ h => h.step hn

/-- The links form one cycle through all units. -/
theorem LinkedTo.isRing (h : s.LinkedTo s.unitNum m) : IsRing m s.units := by
  refine isRing_of_getElem nodup_units ?_
  intro i hi
  have hi' : i < s.unitNum := length_units ▸ hi
  rw [List.get_eq_getElem, getElem_units hi, h ⟨i, hi'⟩ hi', getElem_units, link]
  split
  · next hlt =>
    have hmod : (i + 1) % s.units.length = i + 1 := by
      rw [length_units]
      exact Nat.mod_eq_of_lt hlt
    simp only [hmod]
  · next hge =>
    have hmod : (i + 1) % s.units.length = 0 := by
      have hlast : i + 1 = s.unitNum := by
        have : ¬ i + 1 < s.unitNum := hge
        omega
      rw [length_units, hlast, Nat.mod_self]
    simp only [hmod]

theorem build_isRing (m : Memory) : IsRing (s.build m) s.units := (build_linked m).isRing

end Slice

end PmemStudy.Micro
