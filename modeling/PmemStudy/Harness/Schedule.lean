import PmemStudy.Lib.Threads
import PmemStudy.Harness.Worker

/-!
# Every operation runs once

Each index below the counter was executed, or some worker has it in its batch. The
same account holds for the latency slots, and the tallies that were not merged yet
make up the difference between `global_status` and the operations executed.
-/

namespace PmemStudy.Harness

open Threads

variable {ι K V : Type}

namespace Worker

variable {W : Workload K V} {id : ι} {rd : V} {clock : ℕ} {s : Shared ι K V} {w : Worker}

/-- The local variables agree with the vectors. -/
def Fits (W : Workload K V) (w : Worker) : Prop :=
  match w.control with
  | .while_ => w.endIdx ≤ W.maxOps
  | .for_ => 0 ≤ w.i ∧ w.i ≤ W.maxOps ∧ w.endIdx ≤ W.maxOps
  | .timing => 0 ≤ w.i ∧ w.i < w.endIdx ∧ w.endIdx ≤ W.maxOps
  | .threw => False
  | _ => True

/-- What a step of a worker can be. -/
inductive Moves [DecidableEq V] (W : Workload K V) (id : ι) (rd : V) (clock : ℕ)
    (s : Shared ι K V) (w : Worker) : Shared ι K V × Worker → Prop
  | fetch (hc : w.control = .fetch) : Moves W id rd clock s w (fetch W s w)
  | enter (hc : w.control = .while_) (hi : w.startIdx < W.maxOps) :
      Moves W id rd clock s w (s, { w with
        sync := ⟨w.startIdx, w.startIdx, w.endIdx⟩
        i := uint64ToInt w.startIdx
        control := .for_ })
  | leave (hc : w.control = .while_) (hi : ¬ w.startIdx < W.maxOps) :
      Moves W id rd clock s w (s, { w with control := .merge 0 })
  | execute (hc : w.control = .for_) (hi : intToUint64 w.i < w.endIdx) (op : Operation)
      (pair : K × V) (ho : W.runtimeOps[intToUint64 w.i]? = some op)
      (hp : W.runPairs[intToUint64 w.i]? = some pair) :
      Moves W id rd clock s w
        ({ s with executed := s.executed ++ [⟨id, intToUint64 w.i, call op pair⟩] },
          { w with status := tally op (rd ≠ pair.2) w.status, control := .timing })
  | batch (hc : w.control = .for_) (hi : ¬ intToUint64 w.i < w.endIdx) :
      Moves W id rd clock s w (s, { w with control := .fetch })
  | time (hc : w.control = .timing) : Moves W id rd clock s w
      ({ s with
          latency := s.latency.set (intToUint64 w.i) clock
          written := s.written ++ [intToUint64 w.i] },
        { w with
          i := w.i + 1
          sync := { w.sync with currProgress := toUint64 (w.sync.currProgress + 1) }
          control := .for_ })
  | merge (slot : ℕ) (hc : w.control = .merge slot) (o : Operation)
      (ho : operations[slot]? = some o) :
      Moves W id rd clock s w ({ s with globalStatus := raise s.globalStatus o (w.status o) },
        { w with control := .merge (slot + 1) })
  | finish (slot : ℕ) (hc : w.control = .merge slot) (ho : operations[slot]? = none) :
      Moves W id rd clock s w (s, { w with control := .returned })

theorem intToUint64_natCast {a : ℕ} (h : a < 2 ^ 64) : intToUint64 (a : ℤ) = a := by
  unfold intToUint64
  omega

/-- Inside the vectors nothing throws. -/
theorem next_moves [DecidableEq V] (hfits : Fits W w) (hlen : W.runPairs.length = W.runtimeOps.length)
    (hn : W.maxOps < 2 ^ 31) (hlat : s.latency.length = W.maxOps) {r : Shared ι K V × Worker}
    (h : next W id rd clock s w = some r) : Moves W id rd clock s w r := by
  cases hc : w.control with
  | fetch =>
    simp only [next, hc, Option.some.injEq] at h
    exact h ▸ .fetch hc
  | while_ =>
    simp only [next, hc] at h
    split at h
    · next hi => exact Option.some.inj h ▸ .enter hc hi
    · next hi => exact Option.some.inj h ▸ .leave hc hi
  | for_ =>
    simp only [next, hc] at h
    simp only [Fits, hc] at hfits
    split at h
    · next hi =>
      have hlt : intToUint64 w.i < W.runPairs.length := hi.trans_le hfits.2.2
      have ho : W.runtimeOps[intToUint64 w.i]? = some W.runtimeOps[intToUint64 w.i] :=
        List.getElem?_eq_getElem (hlen ▸ hlt)
      have hp : W.runPairs[intToUint64 w.i]? = some W.runPairs[intToUint64 w.i] :=
        List.getElem?_eq_getElem hlt
      rw [Worker.execute, ho, hp] at h
      exact Option.some.inj h ▸ .execute hc hi _ _ ho hp
    · next hi => exact Option.some.inj h ▸ .batch hc hi
  | timing =>
    simp only [next, hc, Option.some.injEq] at h
    simp only [Fits, hc] at hfits
    have hlt : intToUint64 w.i < s.latency.length := by
      rw [hlat]
      unfold intToUint64
      omega
    rw [Worker.time, if_pos hlt] at h
    exact h ▸ .time hc
  | merge slot =>
    simp only [next, hc] at h
    split at h
    · next o ho => exact Option.some.inj h ▸ .merge slot hc o ho
    · next ho => exact Option.some.inj h ▸ .finish slot hc ho
  | returned => simp [next, hc] at h
  | threw => simp [next, hc] at h

/-! ### Shares of a worker -/

/-- Index `j` is in the batch and was not executed yet. -/
def owes (j : ℕ) (w : Worker) : ℕ :=
  match w.control with
  | .while_ => if w.startIdx ≤ j ∧ j < w.endIdx then 1 else 0
  | .for_ => if intToUint64 w.i ≤ j ∧ j < w.endIdx then 1 else 0
  | .timing => if intToUint64 w.i < j ∧ j < w.endIdx then 1 else 0
  | _ => 0

/-- Index `j` is in the batch and its latency was not written yet. -/
def untimed (j : ℕ) (w : Worker) : ℕ :=
  match w.control with
  | .while_ => if w.startIdx ≤ j ∧ j < w.endIdx then 1 else 0
  | .for_ => if intToUint64 w.i ≤ j ∧ j < w.endIdx then 1 else 0
  | .timing => if intToUint64 w.i ≤ j ∧ j < w.endIdx then 1 else 0
  | _ => 0

/-- The tally of `o` that was not merged yet. -/
def unmerged (o : Operation) (w : Worker) : ℕ :=
  match w.control with
  | .merge slot => if operations.idxOf o < slot then 0 else w.status o
  | .returned => 0
  | _ => w.status o

/-- What a worker that found no batch has added to the counter. -/
def past (W : Workload K V) (w : Worker) : ℕ :=
  match w.control with
  | .while_ => if w.startIdx < W.maxOps then 0 else W.miniBatch
  | .merge _ => W.miniBatch
  | .returned => W.miniBatch
  | _ => 0

/-- Index `j` was claimed. -/
def claimed (W : Workload K V) (s : Shared ι K V) (j : ℕ) : ℕ :=
  if j < s.progress ∧ j < W.maxOps then 1 else 0

def timesExecuted (s : Shared ι K V) (j : ℕ) : ℕ := (s.executed.map Execution.index).count j

/-- How many of the executed operations are `o`. -/
def executedOf (W : Workload K V) (s : Shared ι K V) (o : Operation) : ℕ :=
  s.executed.countP fun e => W.runtimeOps[e.index]? = some o

theorem uint64ToInt_of_lt {a : ℕ} (h : a < 2 ^ 31) : uint64ToInt a = a := by
  unfold uint64ToInt
  exact Int.bmod_eq_of_le (by omega) (by omega)

theorem intToUint64_succ {x : ℤ} (h0 : 0 ≤ x) (h : x < 2 ^ 31) :
    intToUint64 (x + 1) = intToUint64 x + 1 := by
  unfold intToUint64
  omega

/-! ### The tallies -/

theorem raise_apply (status : Operation → ℕ) (slot o : Operation) {d : ℕ}
    (h : status slot + d < 2 ^ 64) :
    raise status slot d o = status o + if o = slot then d else 0 := by
  unfold raise toUint64
  rw [Nat.mod_eq_of_lt h, Function.update_apply]
  split
  · next ho => rw [ho]
  · rfl

theorem tally_apply (op o : Operation) (missed : Bool) (status : Operation → ℕ)
    (h : ∀ o, status o + 1 < 2 ^ 64) (ho : o ≠ .READ_NOTFOUND) :
    tally op missed status o = status o + if op = o then 1 else 0 := by
  cases op with
  | READ =>
    cases missed with
    | false => simp [tally, raise_apply _ _ _ (h _), eq_comm]
    | true =>
      have hread := raise_apply status .READ .READ_NOTFOUND (h .READ)
      simp only [reduceCtorEq, if_false] at hread
      rw [tally, if_pos rfl, raise_apply _ _ _ (by rw [hread]; exact h _), if_neg ho,
        raise_apply _ _ _ (h _)]
      simp [eq_comm]
  | INSERT => simp [tally, raise_apply _ _ _ (h _), eq_comm]
  | DELETE => simp [tally, raise_apply _ _ _ (h _), eq_comm]
  | UPDATE => simp [tally, raise_apply _ _ _ (h _), eq_comm]
  | READ_NOTFOUND => simp [tally, ho.symm]

/-- A missed read is a read. -/
theorem tally_missed (op : Operation) (missed : Bool) (status : Operation → ℕ)
    (h : ∀ o, status o + 1 < 2 ^ 64) :
    tally op missed status .READ_NOTFOUND + status .READ
      ≤ status .READ_NOTFOUND + tally op missed status .READ := by
  cases op with
  | READ =>
    cases missed with
    | false => simp [tally, raise_apply _ _ _ (h _)]
    | true =>
      have hread := raise_apply status .READ .READ_NOTFOUND (h .READ)
      simp only [reduceCtorEq, if_false] at hread
      have hlt : raise status .READ 1 .READ_NOTFOUND + 1 < 2 ^ 64 := by
        rw [hread]
        exact h _
      rw [tally, if_pos rfl, raise_apply _ _ _ hlt, raise_apply _ _ _ hlt,
        raise_apply _ _ _ (h _), raise_apply _ _ _ (h _)]
      simp
      omega
  | INSERT => simp [tally, raise_apply _ _ _ (h _)]
  | DELETE => simp [tally, raise_apply _ _ _ (h _)]
  | UPDATE => simp [tally, raise_apply _ _ _ (h _)]
  | READ_NOTFOUND => simp [tally]

theorem operations_idxOf {slot : ℕ} {o : Operation} (h : operations[slot]? = some o) :
    operations.idxOf o = slot := by
  obtain ⟨hlt, rfl⟩ := List.getElem?_eq_some_iff.mp h
  exact List.Nodup.idxOf_getElem (by decide) slot hlt

theorem idxOf_lt (o : Operation) : operations.idxOf o < 5 := by
  cases o <;> decide

/-- Merging one slot moves a tally from the worker to `global_status`. -/
theorem merge_unmerged {slot : ℕ} {q : Operation} (hc : w.control = .merge slot)
    (hq : operations[slot]? = some q)
    (hb : ∀ o, s.globalStatus o + unmerged o w + 1 < 2 ^ 64) (o : Operation) :
    raise s.globalStatus q (w.status q) o + unmerged o { w with control := .merge (slot + 1) }
      = s.globalStatus o + unmerged o w := by
  have hidx := operations_idxOf hq
  simp only [unmerged, hc] at hb ⊢
  have hbound := hb q
  rw [hidx, if_neg (lt_irrefl _)] at hbound
  rw [raise_apply _ _ _ (by omega)]
  by_cases heq : o = q
  · subst q
    rw [if_pos rfl, hidx, if_pos (Nat.lt_succ_self _), if_neg (lt_irrefl _), Nat.add_zero]
  · have hne : operations.idxOf o ≠ slot := by
      intro hs
      rw [← hidx] at hs
      exact heq ((List.idxOf_inj (by cases o <;> decide)).mp hs)
    rw [if_neg heq, Nat.add_zero]
    split_ifs <;> omega

theorem finish_unmerged {slot : ℕ} (hc : w.control = .merge slot)
    (hs : operations[slot]? = none) (o : Operation) : unmerged o w = 0 := by
  have hge : 5 ≤ slot := List.getElem?_eq_none_iff.mp hs
  have hlt := idxOf_lt o
  simp only [unmerged, hc]
  rw [if_pos (by omega)]

/-! ### What a step changes -/

section Moves

variable [DecidableEq V] {r : Shared ι K V × Worker}

theorem Moves.fits (h : Moves W id rd clock s w r) (hfits : Fits W w) (hn : W.maxOps < 2 ^ 31) :
    Fits W r.2 := by
  cases h with
  | fetch hc => exact min_le_left _ _
  | enter hc hi =>
    simp only [Fits, hc] at hfits ⊢
    rw [uint64ToInt_of_lt (by omega)]
    omega
  | leave hc hi => trivial
  | execute hc hi op pair ho hp =>
    simp only [Fits, hc] at hfits ⊢
    unfold intToUint64 at hi
    omega
  | batch hc hi => trivial
  | time hc =>
    simp only [Fits, hc] at hfits ⊢
    omega
  | merge slot hc o ho => trivial
  | finish slot hc ho => trivial

/-- The counter passes the end only by the batches that nobody gets. -/
theorem Moves.progress (h : Moves W id rd clock s w r)
    (hb : w.control = .fetch → s.progress + W.miniBatch < 2 ^ 64) :
    (past W w ≤ past W r.2 ∧ (r.1.progress + past W w ≤ s.progress + past W r.2 ∨
      r.1.progress < W.maxOps + W.miniBatch)) ∧
    s.progress ≤ r.1.progress ∧ (past W w < past W r.2 → W.maxOps ≤ r.1.progress) := by
  cases h with
  | fetch hc =>
    have hwrap : toUint64 (s.progress + W.miniBatch) = s.progress + W.miniBatch :=
      Nat.mod_eq_of_lt (hb hc)
    simp only [past, hc, Worker.fetch, hwrap]
    split <;> omega
  | enter hc hi => simp [past, hc, hi]
  | leave hc hi => simp [past, hc, hi]
  | execute hc hi op pair ho hp => simp [past, hc]
  | batch hc hi => simp [past, hc]
  | time hc => simp [past, hc]
  | merge slot hc o ho => simp [past, hc]
  | finish slot hc ho => simp [past, hc]

/-- An index leaves the batch when it is executed. -/
theorem Moves.owes (h : Moves W id rd clock s w r) (hfits : Fits W w) (hn : W.maxOps < 2 ^ 31)
    (hb : w.control = .fetch → s.progress + W.miniBatch < 2 ^ 64) (j : ℕ) :
    timesExecuted r.1 j + owes j r.2 + claimed W s j
      = timesExecuted s j + owes j w + claimed W r.1 j := by
  cases h with
  | fetch hc =>
    have hwrap : toUint64 (s.progress + W.miniBatch) = s.progress + W.miniBatch :=
      Nat.mod_eq_of_lt (hb hc)
    simp only [timesExecuted, Worker.owes, claimed, hc, Worker.fetch, hwrap]
    split_ifs <;> omega
  | enter hc hi =>
    simp only [Worker.owes, hc]
    rw [uint64ToInt_of_lt (by omega), intToUint64_natCast (by omega)]
  | leave hc hi =>
    simp only [Fits, hc] at hfits
    simp only [Worker.owes, hc]
    rw [if_neg (by omega)]
  | execute hc hi op pair ho hp =>
    have hcount : timesExecuted
        { s with executed := s.executed ++ [⟨id, intToUint64 w.i, call op pair⟩] } j
          = timesExecuted s j + if intToUint64 w.i = j then 1 else 0 := by
      simp [timesExecuted, List.count_append, List.count_singleton]
    rw [hcount]
    simp only [Worker.owes, hc, claimed]
    split_ifs <;> omega
  | batch hc hi =>
    simp only [Worker.owes, hc]
    rw [if_neg (by omega)]
  | time hc =>
    simp only [Fits, hc] at hfits
    simp only [timesExecuted, Worker.owes, claimed, hc]
    rw [intToUint64_succ (by omega) (by omega)]
    simp only [Nat.succ_le_iff]
  | merge slot hc o ho => simp only [timesExecuted, Worker.owes, claimed, hc]
  | finish slot hc ho => simp only [Worker.owes, hc]

/-- An index is timed once for every batch that holds it. -/
theorem Moves.untimed (h : Moves W id rd clock s w r) (hfits : Fits W w) (hn : W.maxOps < 2 ^ 31)
    (hb : w.control = .fetch → s.progress + W.miniBatch < 2 ^ 64) (j : ℕ) :
    r.1.written.count j + untimed j r.2 + claimed W s j
      = s.written.count j + untimed j w + claimed W r.1 j := by
  cases h with
  | fetch hc =>
    have hwrap : toUint64 (s.progress + W.miniBatch) = s.progress + W.miniBatch :=
      Nat.mod_eq_of_lt (hb hc)
    simp only [Worker.untimed, claimed, hc, Worker.fetch, hwrap]
    split_ifs <;> omega
  | enter hc hi =>
    simp only [Worker.untimed, hc]
    rw [uint64ToInt_of_lt (by omega), intToUint64_natCast (by omega)]
  | leave hc hi =>
    simp only [Fits, hc] at hfits
    simp only [Worker.untimed, hc]
    rw [if_neg (by omega)]
  | execute hc hi op pair ho hp => simp only [Worker.untimed, hc, claimed]
  | batch hc hi =>
    simp only [Worker.untimed, hc]
    rw [if_neg (by omega)]
  | time hc =>
    simp only [Fits, hc] at hfits
    have hlt : intToUint64 w.i < w.endIdx := by
      unfold intToUint64
      omega
    have hcount : (s.written ++ [intToUint64 w.i]).count j
        = s.written.count j + if intToUint64 w.i = j then 1 else 0 := by
      simp [List.count_append, List.count_singleton]
    simp only [Worker.untimed, hc, claimed, hcount]
    rw [intToUint64_succ (by omega) (by omega)]
    split_ifs <;> omega
  | merge slot hc o ho => simp only [Worker.untimed, claimed, hc]
  | finish slot hc ho => simp only [Worker.untimed, hc]

/-- The tallies of the operations executed are merged or with their worker. -/
theorem Moves.tallies (h : Moves W id rd clock s w r)
    (hb : ∀ o, s.globalStatus o + unmerged o w + 1 < 2 ^ 64) {o : Operation}
    (ho : o ≠ .READ_NOTFOUND) :
    r.1.globalStatus o + unmerged o r.2 + executedOf W s o
      = s.globalStatus o + unmerged o w + executedOf W r.1 o := by
  cases h with
  | fetch hc => simp only [unmerged, hc, Worker.fetch, executedOf]
  | enter hc hi => simp only [unmerged, hc]
  | leave hc hi => simp only [unmerged, hc, Nat.not_lt_zero, if_false]
  | execute hc hi op pair hop hp =>
    simp only [unmerged, hc] at hb ⊢
    rw [tally_apply op o _ _ (fun o => by have := hb o; omega) ho]
    simp only [executedOf, List.countP_append, List.countP_singleton, hop]
    simp
    omega
  | batch hc hi => simp only [unmerged, hc]
  | time hc => simp only [unmerged, hc, executedOf]
  | merge slot hc q hq =>
    have := merge_unmerged hc hq hb o
    simp only [executedOf]
    omega
  | finish slot hc hs => rw [finish_unmerged hc hs, show unmerged o _ = 0 from rfl]

/-- There are no more missed reads than reads. -/
theorem Moves.missed (h : Moves W id rd clock s w r)
    (hb : ∀ o, s.globalStatus o + unmerged o w + 1 < 2 ^ 64) :
    r.1.globalStatus .READ_NOTFOUND + unmerged .READ_NOTFOUND r.2
        + (s.globalStatus .READ + unmerged .READ w)
      ≤ s.globalStatus .READ_NOTFOUND + unmerged .READ_NOTFOUND w
        + (r.1.globalStatus .READ + unmerged .READ r.2) := by
  cases h with
  | fetch hc => simp only [unmerged, hc, Worker.fetch, le_refl]
  | enter hc hi => simp only [unmerged, hc, le_refl]
  | leave hc hi => simp only [unmerged, hc, Nat.not_lt_zero, if_false, le_refl]
  | execute hc hi op pair hop hp =>
    simp only [unmerged, hc] at hb ⊢
    have := tally_missed op (rd ≠ pair.2) w.status (fun o => by have := hb o; omega)
    omega
  | batch hc hi => simp only [unmerged, hc, le_refl]
  | time hc => simp only [unmerged, hc, le_refl]
  | merge slot hc q hq =>
    have h1 := merge_unmerged hc hq hb .READ
    have h2 := merge_unmerged hc hq hb .READ_NOTFOUND
    simp only at h1 h2 ⊢
    omega
  | finish slot hc hs =>
    rw [finish_unmerged hc hs, finish_unmerged hc hs]
    simp only [unmerged, le_refl]

end Moves

end Worker

open Worker

section Schedules

variable {threadNum : ℕ} {W : Workload K V}

/-- The steps of the workers; a `Get` may return anything, and the clock say anything. -/
def workers [DecidableEq V] (W : Workload K V) (id : Fin threadNum) (input : V × ℕ)
    (s : Shared (Fin threadNum) K V) (w : Worker) : Option (Shared (Fin threadNum) K V × Worker) :=
  Worker.next W id input.1 input.2 s w

/-- The execute phase begins. -/
def begun (W : Workload K V) : Config (Fin threadNum) (Shared (Fin threadNum) K V) Worker :=
  ⟨Shared.start W, fun _ => Worker.start⟩

/-- The accounts that every step keeps. -/
structure Accounts (W : Workload K V) (s : Shared (Fin threadNum) K V)
    (f : Fin threadNum → Worker) : Prop where
  latency : s.latency.length = W.maxOps
  fits : ∀ i, Fits W (f i)
  progress : s.progress < W.maxOps + W.miniBatch + ∑ i, past W (f i)
  ended : 0 < ∑ i, past W (f i) → W.maxOps ≤ s.progress
  executed : ∀ j, timesExecuted s j + ∑ i, owes j (f i) = claimed W s j
  timed : ∀ j, s.written.count j + ∑ i, untimed j (f i) = claimed W s j
  tallies : ∀ o, o ≠ .READ_NOTFOUND →
    s.globalStatus o + ∑ i, unmerged o (f i) = executedOf W s o
  missed : s.globalStatus .READ_NOTFOUND + ∑ i, unmerged .READ_NOTFOUND (f i)
    ≤ s.globalStatus .READ + ∑ i, unmerged .READ (f i)
  made : ∀ e ∈ s.executed, ∃ op pair, W.runtimeOps[e.index]? = some op ∧
    W.runPairs[e.index]? = some pair ∧ e.made = call op pair

variable {s : Shared (Fin threadNum) K V} {f : Fin threadNum → Worker}

theorem Accounts.begun (hmb : 1 ≤ W.miniBatch) :
    Accounts W (Shared.start W) fun _ : Fin threadNum => Worker.start where
  latency := List.length_replicate
  fits _ := trivial
  progress := by
    show 0 < _
    omega
  ended := by simp [past, Worker.start]
  executed j := by simp [Shared.start, timesExecuted, claimed, owes, Worker.start]
  timed j := by simp [Shared.start, claimed, untimed, Worker.start]
  tallies o _ := by simp [Shared.start, executedOf, unmerged, Worker.start]
  missed := by simp [Shared.start, unmerged, Worker.start]
  made e he := absurd he List.not_mem_nil

/-- No more operations were executed than there are. -/
theorem Accounts.length_le (h : Accounts W s f) : s.executed.length ≤ W.maxOps := by
  have hcount : ∀ j, timesExecuted s j ≤ claimed W s j := fun j => by
    have := h.executed j
    omega
  have hnodup : (s.executed.map Execution.index).Nodup := by
    rw [List.nodup_iff_count_le_one]
    intro j
    have := hcount j
    unfold claimed at this
    exact this.trans (by split <;> omega)
  have hsub : (s.executed.map Execution.index) ⊆ List.range W.maxOps := by
    intro j hj
    have h1 : 0 < timesExecuted s j := List.count_pos_iff.mpr hj
    have := hcount j
    unfold claimed at this
    rw [List.mem_range]
    split at this
    · next hlt => exact hlt.2
    · omega
  have := (hnodup.subperm hsub).length_le
  rwa [List.length_map, List.length_range] at this

/-- The tallies are far from wrapping. -/
theorem Accounts.bound (h : Accounts W s f) (hn : W.maxOps < 2 ^ 31) (i : Fin threadNum)
    (o : Operation) : s.globalStatus o + unmerged o (f i) + 1 < 2 ^ 64 := by
  have hlen := h.length_le
  have hle : ∀ o, o ≠ .READ_NOTFOUND →
      s.globalStatus o + ∑ i, unmerged o (f i) ≤ W.maxOps := by
    intro o ho
    rw [h.tallies o ho]
    exact List.countP_le_length.trans hlen
  have hmine := le_sum (unmerged o) f i
  by_cases ho : o = .READ_NOTFOUND
  · have hread := hle .READ (by decide)
    have hmissed := h.missed
    rw [ho] at hmine ⊢
    omega
  · have := hle o ho
    omega

/-- A worker that still fetches leaves room for one more batch in the counter. -/
theorem Accounts.room (h : Accounts W s f)
    (hroom : W.maxOps + (threadNum + 1) * W.miniBatch < 2 ^ 64) {i : Fin threadNum}
    (hc : (f i).control = .fetch) : s.progress + W.miniBatch < 2 ^ 64 := by
  have hsum := sum_update (past W) f i { f i with control := .returned }
  have hle : ∑ j, past W (Function.update f i { f i with control := .returned } j)
      ≤ threadNum * W.miniBatch := by
    have hone : ∀ j ∈ Finset.univ, past W (Function.update f i { f i with control := .returned } j)
        ≤ W.miniBatch := by
      intro j _
      unfold past
      split
      · split <;> omega
      · exact le_refl _
      · exact le_refl _
      · exact Nat.zero_le _
    refine (Finset.sum_le_sum hone).trans_eq ?_
    rw [Finset.sum_const_nat fun _ _ => rfl, Finset.card_univ, Fintype.card_fin]
  have hmine : past W (f i) = 0 := by simp only [past, hc]
  have hreturned : past W { f i with control := .returned } = W.miniBatch := rfl
  have hprogress := h.progress
  have hmul : (threadNum + 1) * W.miniBatch = threadNum * W.miniBatch + W.miniBatch :=
    Nat.succ_mul _ _
  omega

/-- The operations executed, in some order, are those of `runtime_ops`. -/
theorem executedOf_eq {s : Shared (Fin threadNum) K V}
    (h : ∀ j, timesExecuted s j = if j < W.runtimeOps.length then 1 else 0) (o : Operation) :
    executedOf W s o = W.runtimeOps.count o := by
  have hperm : (s.executed.map Execution.index).Perm (List.range W.runtimeOps.length) := by
    rw [List.perm_iff_count]
    intro j
    refine (h j).trans ?_
    split
    · next hj => exact (List.count_eq_one_of_mem List.nodup_range (List.mem_range.mpr hj)).symm
    · next hj => exact (List.count_eq_zero.mpr fun hc => hj (List.mem_range.mp hc)).symm
  have hops : (List.range W.runtimeOps.length).map (W.runtimeOps[·]?)
      = W.runtimeOps.map some := by
    refine List.ext_getElem (by simp) fun j h1 h2 => ?_
    simp only [List.getElem_map, List.getElem_range]
    exact List.getElem?_eq_getElem _
  calc executedOf W s o
      = ((s.executed.map Execution.index).map (W.runtimeOps[·]?)).count (some o) := by
        rw [executedOf, List.count, List.countP_map, List.countP_map]
        refine List.countP_congr fun e _ => ?_
        simp
    _ = ((List.range W.runtimeOps.length).map (W.runtimeOps[·]?)).count (some o) :=
        (hperm.map _).count_eq _
    _ = W.runtimeOps.count o := by
        rw [hops, List.count_map_of_injective _ _ (Option.some_injective _)]

variable [DecidableEq V]

/-- A step of any worker keeps the accounts. -/
theorem Accounts.step (h : Accounts W s f) (hlen : W.runPairs.length = W.runtimeOps.length)
    (hn : W.maxOps < 2 ^ 31) (hroom : W.maxOps + (threadNum + 1) * W.miniBatch < 2 ^ 64)
    {i : Fin threadNum} {input : V × ℕ} {s' : Shared (Fin threadNum) K V} {x : Worker}
    (hstep : workers W i input s (f i) = some (s', x)) :
    Accounts W s' (Function.update f i x) := by
  have hm := next_moves (h.fits i) hlen hn h.latency hstep
  have hb : (f i).control = .fetch → s.progress + W.miniBatch < 2 ^ 64 := h.room hroom
  have hbound := h.bound hn i
  have hpast := sum_update (past W) f i x
  obtain ⟨hprogress, hmono, hended⟩ := hm.progress hb
  simp only at hprogress hmono hended
  refine ⟨?_, ?_, ?_, ?_, ?_, ?_, ?_, ?_, ?_⟩
  · have hlat := h.latency
    cases hm with
    | time hc => exact List.length_set.trans hlat
    | _ => exact hlat
  · intro j
    rw [Function.update_apply]
    split
    · exact hm.fits (h.fits i) hn
    · exact h.fits j
  · have := h.progress
    omega
  · intro hpos
    by_cases hold : 0 < ∑ j, past W (f j)
    · exact (h.ended hold).trans hmono
    · exact hended (by omega)
  · intro j
    exact sum_balance (h.executed j) (hm.owes (h.fits i) hn hb j)
  · intro j
    exact sum_balance (h.timed j) (hm.untimed (h.fits i) hn hb j)
  · intro o ho
    exact sum_balance (h.tallies o ho) (hm.tallies hbound ho)
  · have h1 := sum_update (unmerged .READ) f i x
    have h2 := sum_update (unmerged .READ_NOTFOUND) f i x
    have h3 := hm.missed hbound
    have h4 := h.missed
    simp only at h3
    omega
  · have hmade := h.made
    cases hm with
    | execute hc hi op pair ho hp =>
      intro e he
      rcases List.mem_append.mp he with he | he
      · exact hmade e he
      · rw [List.mem_singleton.mp he]
        exact ⟨op, pair, ho, hp, rfl⟩
    | _ => exact hmade

theorem reaches_accounts (hlen : W.runPairs.length = W.runtimeOps.length) (hmb : 1 ≤ W.miniBatch)
    (hn : W.maxOps < 2 ^ 31) (hroom : W.maxOps + (threadNum + 1) * W.miniBatch < 2 ^ 64)
    {c : Config (Fin threadNum) (Shared (Fin threadNum) K V) Worker}
    (hr : Reaches (workers W) (begun W) c) : Accounts W c.shared c.threads :=
  hr.invariant (Accounts.begun hmb) fun _ _ _ _ _ _ h hstep => h.step hlen hn hroom hstep

/-- Whatever the schedule: every operation was run by one worker, and the merged tallies
count the operations. -/
theorem test_executes (W : Workload K V) (hlen : W.runPairs.length = W.runtimeOps.length)
    (hn : W.maxOps < 2 ^ 31) (hthreads : 1 ≤ threadNum) (hmb : 1 ≤ W.miniBatch)
    (hroom : W.maxOps + (threadNum + 1) * W.miniBatch < 2 ^ 64)
    {c : Config (Fin threadNum) (Shared (Fin threadNum) K V) Worker}
    (hr : Reaches (workers W) (begun W) c) (hdone : ∀ i, (c.threads i).control = .returned) :
    (∀ (j : ℕ) (op : Operation) (pair : K × V),
      W.runtimeOps[j]? = some op → W.runPairs[j]? = some pair →
        (∃ i, c.shared.executed.filter (·.index = j) = [⟨i, j, call op pair⟩]) ∧
        c.shared.written.count j = 1) ∧
    (∀ e ∈ c.shared.executed, e.index < W.maxOps) ∧
    (∀ j ∈ c.shared.written, j < W.maxOps) ∧
    (∀ o, o ≠ .READ_NOTFOUND → c.shared.globalStatus o = W.runtimeOps.count o) ∧
    c.shared.globalStatus .READ_NOTFOUND ≤ c.shared.globalStatus .READ := by
  have h := reaches_accounts hlen hmb hn hroom hr
  have hzero : ∀ g : Worker → ℕ, (∀ w : Worker, w.control = .returned → g w = 0) →
      ∑ i, g (c.threads i) = 0 := fun g hg => Finset.sum_eq_zero fun i _ => hg _ (hdone i)
  have hunmerged : ∀ o, ∑ i, unmerged o (c.threads i) = 0 := fun o =>
    hzero _ fun w hw => by simp only [unmerged, hw]
  have hclaimed : ∀ j, claimed W c.shared j = if j < W.maxOps then 1 else 0 := by
    intro j
    have hmine := le_sum (past W) c.threads ⟨0, hthreads⟩
    have hpast : past W (c.threads ⟨0, hthreads⟩) = W.miniBatch := by
      simp only [past, hdone]
    have hprogress : W.maxOps ≤ c.shared.progress := h.ended (by omega)
    unfold claimed
    split_ifs <;> omega
  have hexec : ∀ j, timesExecuted c.shared j = if j < W.maxOps then 1 else 0 := by
    intro j
    have := h.executed j
    rwa [hzero _ fun w hw => by simp only [owes, hw], Nat.add_zero, hclaimed] at this
  have htimed : ∀ j, c.shared.written.count j = if j < W.maxOps then 1 else 0 := by
    intro j
    have := h.timed j
    rwa [hzero _ fun w hw => by simp only [untimed, hw], Nat.add_zero, hclaimed] at this
  refine ⟨?_, ?_, ?_, ?_, ?_⟩
  · intro j op pair hop hpair
    have hj : j < W.maxOps := (List.getElem?_eq_some_iff.mp hpair).1
    refine ⟨?_, by rw [htimed, if_pos hj]⟩
    have hone : (c.shared.executed.filter (·.index = j)).length = 1 := by
      have := hexec j
      rw [if_pos hj, timesExecuted, List.count, List.countP_map, List.countP_eq_length_filter]
        at this
      rw [← this]
      exact congrArg List.length (List.filter_congr fun e _ => rfl)
    obtain ⟨e, he⟩ := List.length_eq_one_iff.mp hone
    have hmem := List.mem_filter.mp (he ▸ List.mem_singleton_self e)
    have hindex : e.index = j := of_decide_eq_true hmem.2
    obtain ⟨op', pair', hop', hpair', hmade⟩ := h.made e hmem.1
    rw [hindex, hop] at hop'
    rw [hindex, hpair] at hpair'
    obtain rfl := Option.some.inj hop'
    obtain rfl := Option.some.inj hpair'
    refine ⟨e.worker, ?_⟩
    rw [he, ← hindex, ← hmade]
  · intro e he
    by_contra hge
    have := hexec e.index
    rw [if_neg hge] at this
    exact List.count_eq_zero.mp this (List.mem_map_of_mem he)
  · intro j hj
    by_contra hge
    have := htimed j
    rw [if_neg hge] at this
    exact List.count_eq_zero.mp this hj
  · intro o ho
    have := h.tallies o ho
    rw [hunmerged, Nat.add_zero] at this
    rw [this]
    exact executedOf_eq (by rw [← hlen]; exact hexec) o
  · have := h.missed
    rwa [hunmerged, hunmerged] at this

/-- A read and an insertion by two workers, in batches of one. -/
def twoOps : Workload ℕ ℕ := ⟨[(4, 40), (5, 50)], [.READ, .INSERT], 1⟩

/-- Worker 0 claims the read, then worker 1 does all that it can, then worker 0. -/
def twoWorkers : List (Fin 2 × ℕ × ℕ) :=
  ((0 : Fin 2) :: List.replicate 13 1 ++ List.replicate 12 0).map fun i => (i, 40, 7)

theorem test_executes_twoOps : ∃ c, schedule (workers twoOps) twoWorkers (begun twoOps) = some c ∧
    c.shared.globalStatus .INSERT = 1 := by
  obtain ⟨c, hc⟩ : ∃ c, schedule (workers twoOps) twoWorkers (begun twoOps) = some c := ⟨_, rfl⟩
  have hdone : ∀ d ∈ schedule (workers twoOps) twoWorkers (begun twoOps), ∀ i,
      (d.threads i).control = .returned := by decide
  exact ⟨c, hc, (test_executes twoOps rfl (by decide) (by decide) (by decide) (by decide)
    (schedule_reaches hc) (hdone c hc)).2.2.2.1 .INSERT (by decide)⟩

end Schedules

end PmemStudy.Harness
