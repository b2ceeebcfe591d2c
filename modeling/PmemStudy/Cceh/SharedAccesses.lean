import PmemStudy.Cceh.SharedRuns

/-!
# What interleaved calls read and write

Every directory that a call reads is complete, whether it is the newest one or not, and an
entry is stored in the newest one or in one that is still being built.
-/

namespace PmemStudy.Cceh

open Threads

/-- The entry of a directory that the next step reads or writes. -/
def Pc.entry : Pc → Option (ℕ × ℕ)
  | .find (.entry x D) => some (D, x)
  | .check _ _ (.entry x D) => some (D, x)
  | .recheck x _ _ (.entry D) => some (D, x)
  | .update u (.copyRead x d _ j) => if (u.own x j).isSome then none else some (d, j / 2)
  | .update _ (.copyStore _ _ _dir j _) => some (_dir, j)
  | .update _ (.store D _ (.entry i _) _) => some (D, i)
  | _ => none

/-- The segment that the next step reads or writes. -/
def Pc.segment : Pc → Option ℕ
  | .sema _ (.seg p) _ _ => some p
  | .readPattern _ target => some target
  | .probe _ target _ _ => some target
  | .test _ target _ _ _ _ => some target
  | .claim _ target _ _ _ _ => some target
  | .value target _ => some target
  | .key target _ => some target
  | .depth _ target => some target
  | .recheck _ _ _ (.level p) => some p
  | .release target => some target
  | .split target _ => some target
  | .update u .level => some u.target
  | .update u (.buddyLevel ..) => some u.target
  | .update u .bump => some u.s0
  | .scan target _ => some target
  | .found target _ => some target
  | _ => none

/-- The directory that the next step stores an entry in. -/
def Pc.storesIn : Pc → Option ℕ
  | .update _ (.copyStore _ _ _dir _ _) => some _dir
  | .update _ (.store D ..) => some D
  | _ => none

section Steps

variable {ι : Type} {b : Build} {H : HashFuncs} {st : CCEH} {f : ι → Worker} {i : ι}
  {call : Call} {pc : Pc}

theorem Known.in_bounds {D x : ℕ} (h : Known b st f D) (hlt : st.dir < st.ndir)
    (hx : x < 2 ^ (st.dirs D).depth) : D < st.ndir ∧ x < (st.dirs D).capacity :=
  ⟨h.le.trans_lt hlt, by rw [h.capacity]; exact hx⟩

section

variable [Fintype ι]

theorem Sound.entry_in_bounds (h : Sound b st f) (hnow : (f i).now = some (call, pc)) {D x : ℕ}
    (he : pc.entry = some (D, x)) : D < st.ndir ∧ x < (st.dirs D).capacity := by
  have hfits := h.fits_at hnow
  cases pc with
  | find r =>
    cases r with
    | entry y E =>
      cases he
      exact hfits.1.in_bounds h.dir_lt hfits.2
    | _ => cases he
  | check y t r =>
    cases r with
    | entry z E =>
      cases he
      exact hfits.2.2.1.in_bounds h.dir_lt hfits.2.2.2
    | _ => cases he
  | recheck y t d r =>
    cases r with
    | entry E =>
      cases he
      exact hfits.2.2.2.1.in_bounds h.dir_lt hfits.2.2.2.2
    | _ => cases he
  | update u k =>
    cases k with
    | copyRead y d n j =>
      obtain ⟨_, hc, hj⟩ := hfits
      simp only [Pc.entry] at he
      split at he
      · cases he
      · cases he
        rw [hc.source]
        refine ⟨h.dir_lt, ?_⟩
        show j / 2 < st.curDir.capacity
        omega
    | copyStore y d n j s =>
      obtain ⟨_, hc, hj, _⟩ := hfits
      cases he
      refine ⟨hc.allocated, ?_⟩
      rw [hc.capacity, pow_succ, ← h.capacity]
      omega
    | store E begun s rest =>
      obtain ⟨_, hheld, rfl, _, _, hstores⟩ := hfits
      obtain ⟨y, hy, s, rfl, _⟩ := hstores _ (List.mem_cons_self ..)
      cases he
      exact h.known_dir.in_bounds h.dir_lt hy
    | _ => cases he
  | _ => cases he

theorem Sound.segment_allocated (h : Sound b st f) (hnow : (f i).now = some (call, pc)) {p : ℕ}
    (hp : pc.segment = some p) : p ≠ OID_NULL ∧ p < st.nseg := by
  have hfits := h.fits_at hnow
  have hpub : ∀ {t}, Public b st f t → some t = some p → p ≠ OID_NULL ∧ p < st.nseg := by
    intro t ht he
    cases he
    exact ⟨ht.ne_null, ht.lt⟩
  cases pc with
  | sema op m s k =>
    cases m with
    | seg t =>
      cases hp
      exact h.locks.has hnow
    | dir D => cases hp
  | readPattern x t => exact hpub hfits.1.shared hp
  | probe x t pattern slots => exact hpub hfits.1.shared hp
  | test x t pattern loc _key slots => exact hpub hfits.1.shared hp
  | claim x t pattern loc _key slots => exact hpub hfits.1.shared hp
  | value t loc => exact hpub hfits.1.shared hp
  | key t loc => exact hpub hfits.1.shared hp
  | depth x t => exact hpub hfits.1.shared hp
  | recheck x t d r =>
    cases r with
    | level q => exact hpub hfits.2.2.1 hp
    | _ => cases hp
  | release t => exact hpub (show Suspended b st f (f i).owns t from hfits).shared hp
  | split t d => exact hpub hfits.1.shared hp
  | update u k =>
    cases k with
    | level => exact hpub hfits.1.target.shared hp
    | buddyLevel x n => exact hpub hfits.1.target.shared hp
    | bump =>
      refine hpub ?_ hp
      rw [hfits.1.inplace hfits.2.1]
      exact hfits.1.target.shared
    | _ => cases hp
  | scan t slots => exact hpub (show Locked b st f (f i).held call t from hfits).shared hp
  | found t loc => exact hpub (show Locked b st f (f i).held call t from hfits).shared hp
  | _ => cases hp

theorem Sound.stores_in_newest (h : Sound b st f) (hnow : (f i).now = some (call, pc)) {D : ℕ}
    (hD : pc.storesIn = some D) : D = st.dir ∨ st.dir < D := by
  have hfits := h.fits_at hnow
  cases pc with
  | update u k =>
    cases k with
    | copyStore x d n j s =>
      cases hD
      exact Or.inr hfits.2.1.lt
    | store E begun s rest =>
      cases hD
      exact Or.inl hfits.2.2.1
    | _ => cases hD
  | _ => cases hD

/-- In every interleaving the newest directory is complete, its entries are segments whose
local depth is at most its depth, every access stays inside of its array, and no entry is
stored in a directory that has been superseded. -/
theorem accesses_in_bounds [DecidableEq ι] {segs : ℕ → Segment} {dirs : ℕ → Directory}
    {initCap : ℕ} {c : Config ι CCEH Worker}
    (hr : Reaches (given (Steady b) (Worker.next b H)) (startThreads segs dirs initCap) c) :
    c.shared.curDir.capacity = 2 ^ c.shared.curDir.depth ∧
    (∀ x < c.shared.curDir.capacity, c.shared.curDir.segment x ≠ OID_NULL ∧
      c.shared.curDir.segment x < c.shared.nseg ∧
      (c.shared.segs (c.shared.curDir.segment x)).localDepth ≤ c.shared.curDir.depth) ∧
    ∀ i call pc, (c.threads i).now = some (call, pc) →
      (∀ D x, pc.entry = some (D, x) → D < c.shared.ndir ∧ x < (c.shared.dirs D).capacity) ∧
      (∀ p, pc.segment = some p → p ≠ OID_NULL ∧ p < c.shared.nseg) ∧
      ∀ D, pc.storesIn = some D → c.shared.dir ≤ D := by
  have h := reaches_sound hr
  refine ⟨h.capacity, fun x hx => ?_, fun i call pc hnow => ⟨fun D x => h.entry_in_bounds hnow,
    fun p => h.segment_allocated hnow, fun D hD => ?_⟩⟩
  · rw [h.capacity] at hx
    have hp := h.dir x hx
    exact ⟨hp.ne_null, hp.lt, hp.level_le⟩
  · rcases h.stores_in_newest hnow hD with rfl | hlt
    · exact le_rfl
    · exact hlt.le

theorem accesses_in_bounds_two : ∃ c,
    schedule (given (Steady .cow) (Worker.next .cow crowdedHash)) insertAndGet smallStart = some c ∧
      (c.threads false).now = some (.get 5, .check 0 1 (.entry 0 0)) ∧
      0 < (c.shared.dirs 0).capacity := by
  obtain ⟨c, hc, hnow⟩ : ∃ c, schedule (given (Steady .cow) (Worker.next .cow crowdedHash))
      insertAndGet smallStart = some c ∧
      (c.threads false).now = some (.get 5, .check 0 1 (.entry 0 0)) := ⟨_, rfl, rfl⟩
  exact ⟨c, hc, hnow,
    (((accesses_in_bounds (schedule_reaches hc)).2.2 false _ _ hnow).1 0 0 rfl).2⟩

end

end Steps

end PmemStudy.Cceh
