import PmemStudy.Cceh.SharedUpdates

/-!
# Runs of interleaved calls

`Sound` holds at first and is kept by every step, so that it holds in every configuration
that the threads reach.
-/

namespace PmemStudy.Cceh

open SuspendLock Threads

section Steps

variable {ι : Type} {b : Build} {H : HashFuncs} {st st' : CCEH}
  {f : ι → Worker} {i : ι} {w : Worker} {call : Call} {pc : Pc}

/-! ### One step -/

/-- What the next step of a thread can be. -/
theorem Worker.next_cases {x : Worker} {choice : Option Call}
    (h : Worker.next b H i choice st w = some (st', x)) :
    (∃ call, choice = some call ∧ st' = st ∧ w.enter call = some x) ∨
    ∃ call pc, choice = none ∧ w.now = some (call, pc) ∧ st' = (pc.next b H call st).1 ∧
      x = w.after b H st call pc := by
  cases choice with
  | some call =>
    obtain ⟨w', hw, he⟩ := Option.map_eq_some_iff.mp h
    cases he
    exact Or.inl ⟨call, rfl, rfl, hw⟩
  | none =>
    obtain ⟨⟨call, pc⟩, hnow, he⟩ := Option.map_eq_some_iff.mp h
    cases he
    exact Or.inr ⟨call, pc, rfl, hnow, rfl, rfl⟩

section

variable [Fintype ι] [DecidableEq ι]

theorem Sound.run_update (h : Sound b st f) {u : Halves} {k : UpdatePc}
    (hnow : (f i).now = some (call, .update u k)) :
    Sound b (u.next b H call st k).1 (Function.update f i
      ((f i).continued call (.goto (u.next b H call st k).2))) := by
  cases k with
  | level => exact h.run_reading hnow rfl trivial
  | dir use => exact h.run_reading hnow rfl trivial
  | depth use D => exact h.run_reading hnow rfl trivial
  | newDir x d n => exact h.run_newDir hnow
  | copyTest x d n j D => exact h.run_reading hnow rfl trivial
  | copyRead x d n j => exact h.run_reading hnow rfl trivial
  | copyStore x d n j s => exact h.run_copyStore hnow
  | publish n => exact h.run_publish hnow
  | buddyLevel x n => exact h.run_reading hnow rfl trivial
  | store D begun s rest => exact h.run_store hnow
  | bump => exact h.run_bump hnow

/-- A step of a call, with one case for each program point. -/
theorem Sound.run (h : Sound b st f) (hs : Steady b st (f i)) (hnow : (f i).now = some (call, pc)) :
    Sound b (pc.next b H call st).1 (Function.update f i ((f i).after b H st call pc)) := by
  cases pc with
  | spin => exact h.read_goto hnow (by simp) trivial rfl trivial
  | spinSema D =>
    unfold Worker.after
    simp only [Pc.next]
    split
    · exact h.read_goto hnow (by simp) trivial rfl trivial
    · exact h.read_goto hnow (by simp) trivial rfl trivial
  | find r => exact h.run_find hnow
  | sema op m s k => exact h.run_sema hnow
  | check x target r => exact h.run_check hs hnow
  | readPattern x target =>
    obtain ⟨hlocked, hx, hl⟩ := h.fits_at hnow
    exact h.read_goto hnow (by simp) trivial rfl ⟨hlocked, hx, hl⟩
  | probe x target pattern slots =>
    have := h.run_slots (H := H) hnow
    cases slots <;> exact this
  | test x target pattern loc _key slots => exact h.run_test hnow
  | claim x target pattern loc _key slots => exact h.run_claim hnow
  | value target loc => exact h.run_pair (Or.inl rfl) hnow
  | key target loc => exact h.run_pair (Or.inr rfl) hnow
  | depth x target => exact h.run_full hnow
  | recheck x target d r =>
    have := h.run_recheck (H := H) hnow
    cases r <;> exact this
  | release target => exact h.run_release hnow
  | split target d => exact h.run_split hnow
  | update u k => exact h.run_update hnow
  | scan target slots =>
    have := h.run_scan (H := H) hnow
    cases slots <;> exact this
  | found target loc => exact h.run_answer _ hnow (by simp) (h.fits_at hnow)

/-- A thread enters a call. -/
theorem Sound.enter (h : Sound b st f) (hw : (f i).enter call = some w) :
    Sound b st (Function.update f i w) := by
  unfold Worker.enter at hw
  split at hw
  · next hnow =>
    cases hw
    have hout := (f i).caller_outside fun c op m s k => by simp [hnow]
    refine h.same_shape (.refl st) (h.locks.same fun m => ?_) (fun _ _ hD => hD) ?_
      Call.retry_fits
    · rw [hout, Worker.caller_outside]
      intro c op m' s k
      cases call <;> simp [Call.retry]
    · rintro p ⟨u, hu, _⟩
      rw [show Worker.progress b { f i with now := some (call, call.retry) } =
        call.retry.progress b from rfl, Call.retry_progress] at hu
      cases hu
  · cases hw

theorem Sound.step (h : Sound b st f) {choice : Option Call}
    (hn : given (Steady b) (Worker.next b H) i choice st (f i) = some (st', w)) :
    Sound b st' (Function.update f i w) := by
  obtain ⟨hs, hn⟩ := given_eq_some.mp hn
  rcases Worker.next_cases hn with ⟨call, _, rfl, hw⟩ | ⟨call, pc, _, hnow, rfl, rfl⟩
  · exact h.enter hw
  · exact h.run hs hnow

end

/-! ### The start -/

theorem initCCEH_log2 (pool : CCEH) (initCap : ℕ) :
    initCCEH pool initCap = initCCEH pool (2 ^ Nat.log2 initCap) := by
  unfold initCCEH
  rw [Nat.log2_two_pow]

/-- `initCCEH` allocates one directory. -/
theorem initCCEH_ndir (pool : CCEH) (initCap : ℕ) :
    (initCCEH pool initCap).dir = pool.ndir ∧ (initCCEH pool initCap).ndir = pool.ndir + 1 := by
  unfold initCCEH
  exact Loop.fold_invariant (fun _ (st : CCEH) => st.dir = pool.ndir ∧ st.ndir = pool.ndir + 1) _
    _ _ ⟨rfl, rfl⟩ fun _ _ _ h => h

/-- An empty table, and the threads before their first calls. -/
def startThreads (segs : ℕ → Segment) (dirs : ℕ → Directory) (initCap : ℕ) : Config ι CCEH Worker :=
  ⟨initCCEH (freshPool segs dirs) initCap, fun _ => .start⟩

/-- In place every call locks, so that every run is of this kind. -/
theorem steady_inplace (st : CCEH) (w : Worker) : Steady .inplace st w := by
  unfold Steady
  split
  · next call _ _ _ _ _ =>
    refine Or.inl ?_
    cases call with
    | insert key value => trivial
    | get key => exact rfl
  · trivial

theorem given_steady_inplace :
    given (Steady .inplace) (Worker.next (ι := ι) .inplace H) = Worker.next .inplace H := by
  funext i choice st w
  exact if_pos (steady_inplace st w)

section

variable [Fintype ι]

theorem Sound.start (segs : ℕ → Segment) (dirs : ℕ → Directory) (initCap : ℕ) :
    Sound b (initCCEH (freshPool segs dirs) initCap) fun _ : ι => Worker.start := by
  have hinit := initCCEH_spec segs dirs (Nat.log2 initCap)
  rw [← initCCEH_log2] at hinit
  obtain ⟨hdir, hndir⟩ := initCCEH_ndir (freshPool segs dirs) initCap
  generalize initCCEH (freshPool segs dirs) initCap = st at *
  have hfresh : ∀ p, ¬ Worker.start.Fresh b p := by
    rintro p ⟨u, hu, _⟩
    cases hu
  refine ⟨⟨fun m hm => ?_, fun _ _ _ => rfl⟩, ?_, hinit.dir_lt, fun x hx => ?_,
    fun i j p hi => absurd hi (hfresh p), fun _ => trivial⟩
  · have hzero : st.sema m = 0 := by
      cases m with
      | seg p =>
        obtain ⟨hne, hlt⟩ := hm
        rw [hinit.nseg] at hlt
        have hp : p ≠ 0 := hne
        obtain ⟨x, rfl⟩ : ∃ x, p = 1 + x := ⟨p - 1, by omega⟩
        exact (hinit.seg x (by omega)).1
      | dir D =>
        have hlt : D < st.ndir := hm
        have hD : D = st.dir := by
          rw [hndir] at hlt
          rw [hdir]
          exact Nat.lt_one_iff.mp hlt
        rw [hD]
        exact hinit.sema
    rw [hzero]
    exact Protocol.start
  · rw [hinit.capacity, hinit.depth_eq]
  · rw [hinit.depth_eq] at hx
    obtain ⟨_, hlevel, _⟩ := hinit.seg x hx
    rw [hinit.entry x hx]
    refine ⟨?_, ?_, ?_, fun _ => hfresh _⟩
    · show 1 + x ≠ 0
      omega
    · rw [hinit.nseg]
      omega
    · rw [hlevel, hinit.depth_eq]

variable [DecidableEq ι]

/-- A run in which every call that does not lock finds the entry unchanged at its check. -/
theorem reaches_sound {segs : ℕ → Segment} {dirs : ℕ → Directory} {initCap : ℕ}
    {c : Config ι CCEH Worker}
    (hr : Reaches (given (Steady b) (Worker.next b H)) (startThreads segs dirs initCap) c) :
    Sound b c.shared c.threads :=
  Reaches.invariant (P := Sound b) (Sound.start segs dirs initCap)
    (fun _ _ _ _ _ _ h hn => h.step hn) hr

end

end Steps

/-- One thread comes to the check of its `Insert`, another one to that of its `Get`. -/
def insertAndGet : List (Bool × Option Call) :=
  (true, some (.insert 5 7)) :: List.replicate 6 (true, none) ++
    (false, some (.get 5)) :: List.replicate 9 (false, none)

/-- The table with two segments of zeroes. -/
def smallStart : Config Bool CCEH Worker :=
  startThreads (fun _ => zeroSegment) (fun _ => zeroDirectory) 2

end PmemStudy.Cceh
