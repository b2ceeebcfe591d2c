import PmemStudy.Cceh.Insertions
import PmemStudy.Cceh.SoloCalls

/-!
# Calls one after another

Threads that take turns, each with a whole call, come to the same tables as the calls of
one thread.
-/

namespace PmemStudy.Cceh

open Threads

/-! ### Steps of one thread -/

/-- A step of a call that `C` admits, at which `Orderly` holds and the reads of a check agree;
no pair is dropped if `L` holds. -/
def Serial (L : Prop) (C : Call → Prop) (b : Build) (H : HashFuncs) (st : CCEH) (w : Worker) :
    Prop :=
  Orderly b H st w ∧
  match w.now with
  | some (call, pc) => C call ∧ pc.Lands H st call ∧ (L → pc.Roomy b H st)
  | none => True

open Classical in
noncomputable instance (L : Prop) (C : Call → Prop) (b : Build) (H : HashFuncs) (st : CCEH)
    (w : Worker) : Decidable (Serial L C b H st w) := propDecidable _

section Steps

variable {ι : Type} {L : Prop} {C : Call → Prop} {b : Build} {H : HashFuncs} {call : Call}
  {st st' : CCEH} {c d : CCEH × Pc} {pc : Pc} {w : Worker} {i : ι}

theorem Serial.idle (hw : w.now = none) : Serial L C b H st w := by
  unfold Serial Orderly Steady
  rw [hw]
  exact ⟨⟨trivial, trivial⟩, trivial⟩

theorem Admitted.serial (h : Admitted L b H call (st, pc)) (hC : C call)
    (hw : w.now = some (call, pc)) : Serial L C b H st w := by
  obtain ⟨ho, hlands, hroomy⟩ := h
  unfold Orderly Steady at ho
  unfold Serial Orderly Steady
  rw [hw]
  exact ⟨ho, hC, hlands, hroomy⟩

theorem Admitted.run (h : Admitted L b H call (st, pc)) (hC : C call)
    (hw : w.now = some (call, pc)) :
    given (Serial L C b H) (Worker.next b H) i none st w =
      some ((pc.next b H call st).1, w.after b H st call pc) := by
  refine given_eq_some.mpr ⟨h.serial hC hw, ?_⟩
  simp only [Worker.next, Worker.run, hw]
  rfl

theorem Goes.alone (h : Goes L b H call c d) (hC : C call) (hw : w.now = some (call, c.2)) :
    ∃ x, Alone (given (Serial L C b H) (Worker.next b H)) i (c.1, w) (d.1, x) ∧
      x.now = some (call, d.2) := by
  induction h with
  | refl => exact ⟨w, .refl, hw⟩
  | @tail d e _ hstep ih =>
    obtain ⟨x, hx, hnow⟩ := ih
    obtain ⟨ho, hn⟩ := hstep
    refine ⟨x.after b H d.1 call d.2, hx.tail ⟨none, ?_⟩, ?_⟩
    · have hrun := Admitted.run (i := i) ho hC hnow
      rw [hn] at hrun
      exact hrun
    · simp only [Worker.after, hn, Worker.continued]

variable [DecidableEq ι] {f : ι → Worker}

/-- A thread between calls comes to the last step of a whole one. -/
theorem Ends.last {v : Option Value} (h : Ends L b H call (st, call.retry) st' v) (hC : C call)
    (hw : (f i).now = none) : ∃ (c : Config ι CCEH Worker) (pc : Pc) (w : Worker),
    Reaches (given (Serial L C b H) (Worker.next b H)) ⟨st, f⟩ c ∧
      (c.threads i).now = some (call, pc) ∧
      given (Serial L C b H) (Worker.next b H) i none c.shared (c.threads i) = some (st', w) ∧
      Function.update c.threads i w = Function.update f i w ∧ w.now = none ∧ w.returned = v := by
  obtain ⟨d, hgo, ho, hn⟩ := h
  obtain ⟨x, hx, hnow⟩ := hgo.alone (i := i) hC (w := { f i with now := some (call, call.retry) }) rfl
  have henter : given (Serial L C b H) (Worker.next b H) i (some call) st (f i) =
      some (st, { f i with now := some (call, call.retry) }) := by
    refine given_eq_some.mpr ⟨Serial.idle hw, ?_⟩
    simp only [Worker.next, Worker.enter, hw, Option.map_some]
  have hturn : Alone (given (Serial L C b H) (Worker.next b H)) i (st, f i) (d.1, x) :=
    .head ⟨some call, henter⟩ hx
  have hself : Function.update f i x i = x := Function.update_self ..
  refine ⟨⟨d.1, Function.update f i x⟩, d.2, x.after b H d.1 call d.2, hturn.reaches rfl,
    (congrArg Worker.now hself).trans hnow, ?_, Function.update_idem _ _ _, ?_, ?_⟩
  · have hrun := Admitted.run (i := i) ho hC hnow
    rw [hn] at hrun
    show given _ _ i none d.1 (Function.update f i x i) = _
    rw [hself]
    exact hrun
  · simp only [Worker.after, hn, Worker.continued]
  · simp only [Worker.after, hn, Worker.continued]

/-- A thread between calls makes a whole one. -/
theorem Ends.turn {v : Option Value} (h : Ends L b H call (st, call.retry) st' v) (hC : C call)
    (hw : (f i).now = none) : ∃ w,
    Reaches (given (Serial L C b H) (Worker.next b H)) ⟨st, f⟩ ⟨st', Function.update f i w⟩ ∧
      w.now = none ∧ w.returned = v := by
  obtain ⟨c, pc, w, hreach, _, hlast, hthreads, hnow, hv⟩ := h.last (i := i) hC hw
  exact ⟨w, hreach.tail ⟨i, none, w, hlast, hthreads.symm⟩, hnow, hv⟩

end Steps

/-! ### Calls -/

section Calls

variable {L : Prop} {C : Call → Prop} {b : Build} {H : HashFuncs} {Ok : CCEH → Key → Prop}
  {key : Key} {value : Value} {st st' : CCEH}

/-- The pass that splits finds a slot for every pair that it copies. -/
def RoomToSplit (b : Build) (H : HashFuncs) (st : CCEH) (key : Key) : Prop :=
  findSlot H (st.segs (st.route (H.f key))) key = none →
    ∀ pattern, (st.segs (st.route (H.f key))).SplitFits b H pattern

theorem freeOk_roomToSplit (b : Build) (H : HashFuncs) : FreeOk H (RoomToSplit b H) := by
  intro st key loc hf hn
  rw [hf] at hn
  cases hn

theorem AtRest.served (h : AtRest st) (key : Key) :
    Served H st key (st.route (H.f key)) (st.segs (st.route (H.f key))).localDepth := by
  have hx := topBits_lt_pow (H.f key) st.curDir.depth
  refine ⟨(h.rest.allocated _ hx).2, h.rest.dir_lt, rfl, h.consistent.blocked.level_le _ hx, ?_⟩
  intro j hj hblock
  exact ((h.consistent.blocked.same_iff _ hx j hj).mpr hblock.symm).symm

theorem agrees_pass (hL : L → RoomToSplit b H st key) (hi : DirectoryInvariant st) :
    (insertPass b H st key value).Agrees L b H (.insert key value) (st, .find .dir) :=
  agrees_insertPass (hi.toAtRest.served key) fun hf h => hL h hf

theorem Retried.goes {st1 : CCEH} (h : Retried b H Ok key value st st1) (h0 : DirectoryInvariant st)
    (hL : L → ∀ st key, Ok st key → RoomToSplit b H st key) :
    Goes L b H (.insert key value) (st, .find .dir) (st1, .find .dir) ∧ DirectoryInvariant st1 := by
  induction h with
  | refl => exact ⟨.refl _, h0⟩
  | again st1 st2 _ hd ok hpass ih =>
    obtain ⟨hgo, hi⟩ := ih
    have hagrees : (insertPass b H st1 key value).Agrees L b H (.insert key value)
        (st1, .find .dir) := agrees_pass (fun h => hL h st1 key ok) hi
    rw [hpass] at hagrees
    exact ⟨hgo.trans hagrees, (insertPass_again_invariant st1 st2 key value hi hd hpass).2.2⟩

/-- A call that returns does so in the steps of one thread. -/
theorem Returns.ends (h : Returns b H Ok st key value st') (h0 : DirectoryInvariant st)
    (hL : L → ∀ st key, Ok st key → RoomToSplit b H st key) :
    Ends L b H (.insert key value) (st, .find .dir) st' none := by
  obtain ⟨st1, hre, _, ok, hpass⟩ := h
  obtain ⟨hgo, hi⟩ := hre.goes h0 hL
  have hagrees : (insertPass b H st1 key value).Agrees L b H (.insert key value)
      (st1, .find .dir) := agrees_pass (fun h => hL h st1 key ok) hi
  rw [hpass] at hagrees
  exact hgo.ends hagrees

theorem Run.nil {start : CCEH} (h : Run b H Ok start [] st) : st = start := by
  generalize hc : ([] : List (Key × Value)) = l at h
  cases h with
  | start => rfl
  | insert => simp at hc

theorem Run.concat {start : CCEH} {calls : List (Key × Value)} {p : Key × Value}
    (h : Run b H Ok start (calls ++ [p]) st) :
    ∃ st1, Run b H Ok start calls st1 ∧ Returns b H Ok st1 p.1 p.2 st := by
  generalize hc : calls ++ [p] = l at h
  cases h with
  | start => simp at hc
  | insert calls' st1 st' key value before _ call =>
    obtain ⟨rfl, hp⟩ := List.append_inj' hc rfl
    cases List.singleton_injective hp
    exact ⟨st1, before, call⟩

variable {ι : Type} [DecidableEq ι]

/-- The calls of a run, each made by the thread whose turn it is. -/
theorem Run.turns {start : CCEH} (h0 : DirectoryInvariant start)
    (hL : L → ∀ st key, Ok st key → RoomToSplit b H st key) (turns : List (ι × Key × Value))
    (hC : ∀ p ∈ turns, C (.insert p.2.1 p.2.2))
    (run : Run b H Ok start (turns.map Prod.snd) st) :
    ∃ f : ι → Worker,
      Reaches (given (Serial L C b H) (Worker.next b H)) ⟨start, fun _ => .start⟩ ⟨st, f⟩ ∧
      (∀ i, (f i).now = none) ∧ ∀ i, i ∉ turns.map Prod.fst → f i = .start := by
  induction turns using List.reverseRecOn generalizing st with
  | nil =>
    rw [run.nil]
    exact ⟨fun _ => .start, .refl, fun _ => rfl, fun _ _ => rfl⟩
  | append_singleton turns p ih =>
    obtain ⟨i, q⟩ := p
    rw [List.map_append, List.map_singleton] at run
    obtain ⟨st1, before, call⟩ := run.concat
    obtain ⟨f, hreach, hidle, hrest⟩ := ih (fun p hp => hC p (List.mem_append_left _ hp)) before
    have hi := run_directoryInvariant start h0 _ st1 before
    have hadmitted : C (.insert q.1 q.2) := hC (i, q) (List.mem_append_right _ (List.mem_singleton_self _))
    obtain ⟨w, hturn, hnow, _⟩ := Ends.turn (call.ends hi hL) hadmitted (hidle i)
    refine ⟨Function.update f i w, hreach.trans hturn, fun j => ?_, fun j hj => ?_⟩
    · by_cases hji : j = i
      · rw [hji, Function.update_self, hnow]
      · rw [Function.update_of_ne hji, hidle j]
    · simp only [List.map_append, List.map_singleton, List.mem_append, List.mem_singleton,
        not_or] at hj
      rw [Function.update_of_ne hj.2, hrest j hj.1]

theorem reaches_orderly {c d : Config ι CCEH Worker}
    (h : Reaches (given (Serial L C b H) (Worker.next b H)) c d) :
    Reaches (given (Orderly b H) (Worker.next b H)) c d :=
  h.given_of fun _ _ _ _ hs => hs.1

/-- Threads that take turns with whole `Insert`s come to the table of the run by one thread,
in steps that `Orderly` admits, and a `Get` by any of them returns then what `get` does. -/
theorem serial_runs {segs : ℕ → Segment} {dirs : ℕ → Directory} {n : ℕ} (hn : 1 ≤ n)
    (turns : List (ι × Key × Value))
    (run : Run b H Ok (initCCEH (freshPool segs dirs) (2 ^ n)) (turns.map Prod.snd) st) :
    ∃ f : ι → Worker,
      Reaches (given (Orderly b H) (Worker.next b H)) (startThreads segs dirs (2 ^ n)) ⟨st, f⟩ ∧
      (∀ i, (f i).now = none) ∧ (∀ i, i ∉ turns.map Prod.fst → f i = .start) ∧
      ∀ i key v, get b H st key = some v → ∃ w,
        Reaches (given (Orderly b H) (Worker.next b H)) ⟨st, f⟩ ⟨st, Function.update f i w⟩ ∧
        w.now = none ∧ w.returned = some v := by
  have h0 := (initCCEH_spec segs dirs n).directoryInvariant hn
  obtain ⟨f, hreach, hidle, hrest⟩ := Run.turns (L := False) (C := fun _ => True) h0 nofun turns
    (fun _ _ => trivial) run
  refine ⟨f, reaches_orderly hreach, hidle, hrest, fun i key v hget => ?_⟩
  obtain ⟨w, hturn, hw⟩ := Ends.turn (L := False) (C := fun _ => True) (ends_get hget) trivial (hidle i)
  exact ⟨w, reaches_orderly hturn, hw⟩

/-- Two threads make the 65 calls that split a segment of `smallTable`. -/
theorem serial_runs_two : ∃ (st : CCEH) (f : Bool → Worker),
    Reaches (given (Orderly .inplace crowdedHash) (Worker.next .inplace crowdedHash))
      (startThreads (fun _ => zeroSegment) (fun _ => zeroDirectory) (2 ^ 1)) ⟨st, f⟩ ∧
    ∀ i, (f i).now = none := by
  obtain ⟨st, run, _⟩ := crowded_lost .inplace
  have hcalls : ((crowdedCalls 65).map fun c => (c.1.getLsbD 0, c)).map Prod.snd =
      crowdedCalls 65 := by
    simp [Function.comp_def]
  obtain ⟨f, hreach, hidle, _⟩ := serial_runs (le_refl 1)
    ((crowdedCalls 65).map fun c => (c.1.getLsbD 0, c)) (hcalls.symm ▸ run)
  exact ⟨st, f, hreach, hidle⟩

end Calls

end PmemStudy.Cceh
