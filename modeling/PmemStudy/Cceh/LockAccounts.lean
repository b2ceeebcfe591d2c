import PmemStudy.Cceh.SharedRuns

/-!
# Which locks a call holds

The program point says it: a call holds at most one lock, gives it back before it calls
`lock()` or `suspend()` on anything else, and holds none when it returns.
-/

namespace PmemStudy.Cceh

open SuspendLock Threads

/-! ### The lock of a program point -/

def DepthUse.locked : DepthUse → Bool
  | .index => true
  | .buddy _ => true
  | .stride _ => true
  | _ => false

def DirUse.locked : DirUse → Bool
  | .depth use => use.locked
  | .store .. => true
  | .unlock => true
  | _ => false

/-- The normal split holds the lock of the directory. -/
def UpdatePc.locked : UpdatePc → Bool
  | .dir use => use.locked
  | .depth use _ => use.locked
  | .buddyLevel .. => true
  | .store .. => true
  | _ => false

/-- The semaphore on which the call has succeeded in `lock()` and not called `unlock()` since,
or is in `unlock()`. -/
def Pc.holding (b : Build) (st : CCEH) (call : Call) : Pc → Option Sem
  | .check _ target _ => if call.Locks b then some (.seg target) else none
  | .readPattern _ target => some (.seg target)
  | .probe _ target _ _ => some (.seg target)
  | .test _ target _ _ _ _ => some (.seg target)
  | .claim _ target _ _ _ _ => some (.seg target)
  | .value target _ => some (.seg target)
  | .key target _ => some (.seg target)
  | .depth _ target => some (.seg target)
  | .scan target _ => if b = .inplace then some (.seg target) else none
  | .found target _ => if b = .inplace then some (.seg target) else none
  | .sema .unlock m _ _ => some m
  | .update _ k => if k.locked then some (.dir st.dir) else none
  | _ => none

def Worker.holding (b : Build) (st : CCEH) (w : Worker) : Option Sem :=
  match w.now with
  | some (call, pc) => pc.holding b st call
  | none => none

def Outcome.holding (b : Build) (st : CCEH) (call : Call) : Outcome → Option Sem
  | .goto pc => pc.holding b st call
  | .ret _ => none

/-- A call that locks a segment before its check is one that does so in this build. -/
def Worker.Honest (b : Build) (w : Worker) : Prop :=
  ∀ call op m s x target, w.now = some (call, .sema op m s (.locked x target)) → call.Locks b

/-- A thread holds what its program point says. -/
structure Accounted (b : Build) (st : CCEH) (w : Worker) : Prop where
  held : ∀ m, w.held m = if w.holding b st = some m then 1 else 0
  honest : w.Honest b

section Steps

variable {ι : Type} {b : Build} {H : HashFuncs} {st st' : CCEH}
  {f : ι → Worker} {i : ι} {w : Worker} {call : Call} {pc : Pc}

theorem Call.retry_holding : call.retry.holding b st call = none := by
  cases call <;> rfl

theorem Worker.continued_holding (w : Worker) (out : Outcome) :
    (w.continued call out).holding b st = out.holding b st call := by
  cases out <;> rfl

theorem Call.answer_holding (target : ℕ) (v : Value) :
    (Call.answer b target v).holding b st call = if b = .inplace then some (.seg target) else none := by
  cases b <;> rfl

theorem Halves.storing_locked (begun : Bool) (l : List Store) :
    (Halves.storing begun l).locked = true := by
  cases l <;> rfl

/-- A step of an update keeps the lock of the directory. -/
theorem Halves.next_holding {held : Sem → ℕ} {owns : Sem → Bool} {u : Halves} {k : UpdatePc}
    (hk : k.Fits b st f held owns u) :
    (u.next b H call st k).2.holding b (u.next b H call st k).1 call =
      if k.locked then some (.dir st.dir) else none := by
  cases k with
  | dir use => cases use <;> rfl
  | depth use D =>
    cases use with
    | compare l =>
      simp only [Halves.next, Halves.withDepth, Pc.holding]
      split <;> rfl
    | stride x =>
      simp only [Halves.next, Halves.withDepth, Pc.holding, storing_locked]
      rfl
    | _ => rfl
  | copyTest x d n j D =>
    simp only [Halves.next, Pc.holding]
    split <;> rfl
  | copyStore x d n j s =>
    simp only [Halves.next, Pc.holding]
    split <;> rfl
  | publish n =>
    cases b with
    | cow => exact Call.retry_holding
    | inplace => rfl
  | buddyLevel x n =>
    simp only [Halves.next, Pc.holding]
    split
    · rw [storing_locked]
      rfl
    · rfl
  | store D begun s rest =>
    obtain ⟨x, _, s, rfl, _⟩ := hk.2.2.2.2 _ (List.mem_cons_self ..)
    simp only [Halves.next, Pc.holding, storing_locked]
    rfl
  | _ => rfl

/-- Outside of the semaphores a step keeps the lock of the call, also when the next thing is
to give it back. -/
theorem Pc.next_holding (hs : Steady b st w) (hnow : w.now = some (call, pc))
    (hpc : ∀ op m s k, pc ≠ .sema op m s k) (hfits : pc.Fits b st f w.held w.owns call) :
    (pc.next b H call st).2.holding b (pc.next b H call st).1 call = pc.holding b st call := by
  cases pc with
  | sema op m s k => exact absurd rfl (hpc op m s k)
  | spinSema D =>
    simp only [Pc.next, Outcome.holding]
    split <;> rfl
  | find r =>
    simp only [Pc.next, Outcome.holding]
    split
    · rfl
    · split
      · exact Call.retry_holding
      · split
        · rfl
        · next hl => exact if_neg hl
  | check x target r =>
    simp only [Pc.next, Outcome.holding]
    split
    · rfl
    · next y entry hr =>
      split
      · next hne =>
        have hl : call.Locks b := by
          cases r with
          | entry z D =>
            obtain ⟨-, rfl⟩ := Prod.mk.inj (Sum.inr.inj hr)
            unfold Steady at hs
            rw [hnow] at hs
            exact hs.resolve_right (Ne.symm hne)
          | _ => cases hr
        exact (if_pos hl).symm
      · cases call with
        | insert key value => rfl
        | get key => rfl
  | probe x target pattern slots => cases slots <;> rfl
  | test x target pattern loc _key slots =>
    simp only [Pc.next, Outcome.holding]
    split <;> rfl
  | claim x target pattern loc _key slots =>
    simp only [Pc.next]
    split <;> rfl
  | recheck x target d r =>
    cases r with
    | level p =>
      simp only [Pc.next, Outcome.holding]
      split <;> rfl
    | _ => rfl
  | release target => exact Call.retry_holding
  | update u k => exact Halves.next_holding hfits.2
  | scan target slots =>
    cases slots with
    | nil => exact Call.answer_holding target NONE
    | cons loc slots =>
      simp only [Pc.next, Outcome.holding]
      split <;> rfl
  | found target loc => exact Call.answer_holding target _
  | _ => rfl

/-- Only a call that locks comes to the lock of a segment. -/
theorem Pc.next_locked (hpc : ∀ op m s k, pc ≠ .sema op m s k) {op : SemaOp} {m : Sem} {s : SemaPc}
    {x target : ℕ} (hn : (pc.next b H call st).2 = .goto (.sema op m s (.locked x target))) :
    call.Locks b := by
  have hretry : call.retry ≠ .sema op m s (.locked x target) := by cases call <;> simp [Call.retry]
  cases pc with
  | sema op m s k => exact absurd rfl (hpc op m s k)
  | spinSema D =>
    simp only [Pc.next] at hn
    split at hn <;> cases hn
  | find r =>
    simp only [Pc.next] at hn
    split at hn
    · cases hn
    · split at hn
      · exact absurd (Outcome.goto.inj hn) hretry
      · split at hn
        · next hl => exact hl
        · cases hn
  | check y t r =>
    simp only [Pc.next] at hn
    split at hn
    · cases hn
    · split at hn
      · cases hn
      · cases call <;> cases hn
  | probe y t pattern slots => cases slots <;> cases hn
  | test y t pattern loc _key slots =>
    simp only [Pc.next] at hn
    split at hn <;> cases hn
  | claim y t pattern loc _key slots =>
    simp only [Pc.next] at hn
    split at hn <;> cases hn
  | recheck y t d r =>
    cases r with
    | level p =>
      simp only [Pc.next] at hn
      split at hn <;> cases hn
    | _ => cases hn
  | release t => exact absurd (Outcome.goto.inj hn) hretry
  | update u k =>
    have hn := Outcome.goto.inj hn
    cases k with
    | dir use => cases use <;> cases hn
    | publish n =>
      cases b with
      | cow => exact absurd hn hretry
      | inplace => cases hn
    | _ => cases hn
  | scan t slots =>
    cases slots with
    | nil => cases b <;> cases hn
    | cons loc slots =>
      simp only [Pc.next] at hn
      split at hn <;> cases hn
  | found t loc => cases b <;> cases hn
  | _ => cases hn

/-- No lock of a segment follows directly on a call on a semaphore. -/
theorem After.next_unlocked {k : After} {ok : Bool} {op : SemaOp} {m : Sem} {s : SemaPc}
    {x target : ℕ} (h : k.next b call ok = .goto (.sema op m s (.locked x target))) : False := by
  have hretry : call.retry ≠ .sema op m s (.locked x target) := by cases call <;> simp [Call.retry]
  cases k with
  | locked y t =>
    cases ok with
    | false => exact hretry (Outcome.goto.inj h)
    | true => cases h
  | retry => exact hretry (Outcome.goto.inj h)
  | suspended y t d =>
    cases ok with
    | false => exact hretry (Outcome.goto.inj h)
    | true => cases h
  | updated u =>
    cases b with
    | cow => exact hretry (Outcome.goto.inj h)
    | inplace => cases h
  | _ => cases h

/-- Only the publication of a new directory changes `dir`. -/
theorem Pc.next_dir (hfits : pc.Fits b st f w.held w.owns call) :
    (pc.next b H call st).1.dir = st.dir ∨ ∃ u n, pc = .update u (.publish n) := by
  cases pc with
  | sema op m s k => cases m <;> exact Or.inl rfl
  | probe x target pattern slots => cases slots <;> exact Or.inl rfl
  | claim x target pattern loc _key slots =>
    simp only [Pc.next]
    split <;> exact Or.inl rfl
  | recheck x target d r => cases r <;> exact Or.inl rfl
  | split target d => exact Or.inl (allocSplit_spec b H st target).2.dir
  | scan target slots => cases slots <;> exact Or.inl rfl
  | update u k =>
    cases k with
    | publish n => exact Or.inr ⟨u, n, rfl⟩
    | store D begun s rest =>
      obtain ⟨x, _, s, rfl, _⟩ := hfits.2.2.2.2.2 _ (List.mem_cons_self ..)
      exact Or.inl rfl
    | _ => exact Or.inl rfl
  | _ => exact Or.inl rfl

theorem Pc.holding_congr (hd : st'.dir = st.dir) : pc.holding b st' call = pc.holding b st call := by
  cases pc <;> simp only [Pc.holding, hd]

/-- The lock of a directory is the only one that depends on `dir`. -/
theorem Pc.holding_of_ne (h : pc.holding b st call ≠ some (.dir st.dir)) :
    pc.holding b st' call = pc.holding b st call := by
  cases pc with
  | update u k =>
    simp only [Pc.holding] at h ⊢
    split
    · next hk => exact absurd (if_pos hk) h
    · rfl
  | sema op m s k => cases op <;> rfl
  | _ => rfl

section

variable [Fintype ι]

/-- The lock that the call holds after its call on the semaphore. -/
theorem Sound.sema_holding (h : Sound b st f) {op : SemaOp} {m : Sem} {s : SemaPc} {k : After}
    {ok : Bool} (hnow : (f i).now = some (call, .sema op m s k))
    (hr : (semaStep op (st.sema m) s).2 = .ret ok) (hl : (f i).Honest b) (v : ℤ) :
    (k.next b call ok).holding b (st.setSem m v) call =
      match op, ok with
      | .lock, true => some m
      | _, _ => none := by
  have hk : k.Fits b st f (f i).held (f i).owns op m s := h.fits_at hnow
  have hdir : (st.setSem m v).dir = st.dir := by cases m <;> rfl
  cases k with
  | locked x target =>
    obtain ⟨rfl, rfl, _⟩ := hk
    cases ok with
    | false => exact Call.retry_holding
    | true => exact if_pos (hl call _ _ _ _ _ hnow)
  | retry =>
    obtain rfl : op = .unlock := hk
    exact Call.retry_holding
  | stored =>
    obtain rfl : op = .unlock := hk
    rfl
  | collide x target d =>
    obtain ⟨rfl, _⟩ := hk
    rfl
  | suspended x target d =>
    obtain ⟨rfl, _⟩ := hk
    cases ok with
    | false => exact Call.retry_holding
    | true => rfl
  | answer v =>
    obtain rfl : op = .unlock := hk
    rfl
  | double u =>
    obtain ⟨rfl, _⟩ := hk
    cases ok <;> rfl
  | normal u =>
    obtain ⟨rfl, ⟨D, rfl, hD⟩, _⟩ := hk
    cases ok with
    | false => rfl
    | true =>
      have hcall : ((f i).caller (.dir D)).call = some (.lock, s) := by simp [Worker.caller, hnow]
      have hpos : 0 ≤ (st.dirs D).sema :=
        lock_returns ((h.locks.protocol _ (h.locks.has hnow)).knows i) hcall hr
      have hnewest : D = st.dir := hD.newest.resolve_right fun hneg => by omega
      show some (Sem.dir (st.setSem (.dir D) v).dir) = some (.dir D)
      rw [hdir, hnewest]
  | updated u =>
    obtain ⟨rfl, _⟩ := hk
    cases b with
    | cow => exact Call.retry_holding
    | inplace => rfl

/-- The thread that moves. -/
theorem Accounted.moves (ha : Accounted b st (f i)) (h : Sound b st f) (hs : Steady b st (f i))
    (hnow : (f i).now = some (call, pc)) :
    Accounted b (pc.next b H call st).1 ((f i).after b H st call pc) := by
  have hhold : (f i).holding b st = pc.holding b st call := by simp only [Worker.holding, hnow]
  by_cases hpc : ∃ op m s k, pc = .sema op m s k
  · obtain ⟨op, m, s, k, rfl⟩ := hpc
    cases hr : (semaStep op (st.sema m) s).2 with
    | goto s' =>
      have hnext : ((Pc.sema op m s k).next b H call st).2 = .goto (.sema op m s' k) := by
        simp only [Pc.next, hr]
      have hnote : (f i).note st (.sema op m s k) = f i := by simp only [Worker.note, hr]
      rw [Worker.after, hnext, hnote]
      refine ⟨fun m' => ?_, fun c op' m' s'' x target hc => ?_⟩
      · rw [show ((f i).continued call (.goto (.sema op m s' k))).held m' = (f i).held m' from rfl,
          ha.held m', hhold]
        cases op <;> rfl
      · cases hc
        exact ha.honest _ _ _ _ _ _ hnow
    | ret ok =>
      have hnext : ((Pc.sema op m s k).next b H call st).2 = k.next b call ok := by
        simp only [Pc.next, hr]
      have hheld : ((f i).note st (.sema op m s k)).held =
          Function.update (f i).held m (((f i).caller m).ret op ok).held := by
        simp only [Worker.note, hr]
      rw [Worker.after, hnext]
      refine ⟨fun m' => ?_, fun c op' m' s' x target hc => ?_⟩
      · rw [Worker.continued_holding]
        change _ = if (k.next b call ok).holding b (st.setSem m _) call = some m' then 1 else 0
        rw [h.sema_holding hnow hr ha.honest]
        have hnow' : (((f i).note st (.sema op m s k)).continued call (k.next b call ok)).held m' =
            Function.update (f i).held m (((f i).caller m).ret op ok).held m' := by
          rw [← hheld]
          cases k.next b call ok <;> rfl
        have hbefore := ha.held m'
        rw [hhold] at hbefore
        rw [hnow']
        by_cases hm : m' = m
        · subst m'
          rw [Function.update_self]
          cases op with
          | lock =>
            cases ok with
            | true =>
              show (f i).held m + 1 = _
              rw [hbefore]
              simp [Pc.holding]
            | false => exact hbefore
          | unlock =>
            have hone : (f i).held m = 1 := by rw [hbefore, Pc.holding, if_pos rfl]
            show (f i).held m - 1 = _
            rw [hone]
            cases ok <;> rfl
          | suspend => cases ok <;> exact hbefore
        · rw [Function.update_of_ne hm, hbefore]
          cases op <;> cases ok <;> simp [Pc.holding, Ne.symm hm]
      · cases hk : k.next b call ok with
        | ret v =>
          rw [hk] at hc
          cases hc
        | goto pc' =>
          rw [hk] at hc
          cases hc
          exact absurd hk After.next_unlocked
  · have hpc' : ∀ op m s k, pc ≠ .sema op m s k := fun op m s k he => hpc ⟨op, m, s, k, he⟩
    have hnote : ((f i).note st pc).held = (f i).held := by
      cases pc with
      | sema op m s k => exact absurd rfl (hpc' op m s k)
      | _ => rfl
    refine ⟨fun m => ?_, fun c op m s x target hc => ?_⟩
    · rw [Worker.after, Worker.continued_holding, Pc.next_holding hs hnow hpc' (h.fits_at hnow)]
      rw [← hhold, ← ha.held m, ← hnote]
      cases (pc.next b H call st).2 <;> rfl
    · rw [Worker.after] at hc
      cases hout : (pc.next b H call st).2 with
      | ret v =>
        rw [hout] at hc
        cases hc
      | goto pc' =>
        rw [hout] at hc
        cases hc
        exact Pc.next_locked hpc' hout

/-- A thread that does not move. -/
theorem Accounted.stands {j : ι} (ha : Accounted b st (f j)) (h : Sound b st f)
    (hnow : (f i).now = some (call, pc)) : Accounted b (pc.next b H call st).1 (f j) := by
  refine ⟨fun m => ?_, ha.honest⟩
  rw [ha.held m]
  suffices hsame : (f j).holding b (pc.next b H call st).1 = (f j).holding b st by rw [hsame]
  unfold Worker.holding
  split
  · next c pc' hj =>
    rcases Pc.next_dir (H := H) (h.fits_at hnow) with hd | ⟨u, n, rfl⟩
    · exact Pc.holding_congr hd
    · refine Pc.holding_of_ne fun hdir => ?_
      obtain ⟨_, x, d, hc⟩ := h.fits_at hnow
      have hzero := (h.locks.of_owns hc.owned).2.1 j
      have hheld := ha.held (.dir st.dir)
      rw [if_pos (by simp only [Worker.holding, hj, hdir])] at hheld
      omega
  · rfl

variable [DecidableEq ι]

/-- A step of any thread, given that it is steady. -/
theorem Accounted.step (h : Sound b st f) (ha : ∀ j, Accounted b st (f j)) {choice : Option Call}
    (hn : given (Steady b) (Worker.next b H) i choice st (f i) = some (st', w)) (j : ι) :
    Accounted b st' (Function.update f i w j) := by
  obtain ⟨hs, hn⟩ := given_eq_some.mp hn
  rcases Worker.next_cases hn with ⟨call, _, rfl, hw⟩ | ⟨call, pc, _, hnow, rfl, rfl⟩
  · by_cases hj : j = i
    · rw [hj, Function.update_self]
      unfold Worker.enter at hw
      split at hw
      · next hnow =>
        cases hw
        refine ⟨fun m => ?_, fun c op m s x target hc => ?_⟩
        · refine ((ha i).held m).trans ?_
          simp only [Worker.holding, hnow, Call.retry_holding]
        · cases call <;> cases hc
      · cases hw
    · rw [Function.update_of_ne hj]
      exact ha j
  · by_cases hj : j = i
    · rw [hj, Function.update_self]
      exact (ha i).moves h hs hnow
    · rw [Function.update_of_ne hj]
      exact (ha j).stands h hnow

theorem reaches_accounted {segs : ℕ → Segment} {dirs : ℕ → Directory} {initCap : ℕ}
    {c : Config ι CCEH Worker}
    (hr : Reaches (given (Steady b) (Worker.next b H)) (startThreads segs dirs initCap) c) :
    Sound b c.shared c.threads ∧ ∀ i, Accounted b c.shared (c.threads i) := by
  refine Reaches.invariant (P := fun st f => Sound b st f ∧ ∀ i, Accounted b st (f i))
    ⟨Sound.start segs dirs initCap, fun _ => ⟨fun _ => rfl, fun _ _ _ _ _ _ hc => ?_⟩⟩
    (fun _ _ _ _ _ _ h hn => ⟨h.1.step hn, Accounted.step h.1 h.2 hn⟩) hr
  cases hc

end

/-! ### Every interleaving -/

/-- Whoever is in `unlock()` holds the lock. -/
def Disciplined (f : ι → Worker) : Prop :=
  ∀ i call m s k, (f i).now = some (call, .sema .unlock m s k) → 0 < (f i).held m

/-- No thread has suspended the semaphore or waits for its holders. -/
def Unsuspended (f : ι → Worker) (m : Sem) : Prop :=
  ∀ i, (f i).owns m = false ∧
    ∀ call val k, (f i).now ≠ some (call, .sema .suspend m (.wait val) k)

theorem Accounted.disciplined (ha : ∀ i, Accounted b st (f i)) : Disciplined f := by
  intro i call m s k hnow
  rw [(ha i).held m, if_pos (by simp only [Worker.holding, hnow, Pc.holding])]
  exact Nat.one_pos

section

variable [Fintype ι]

theorem Locks.sema_eq (h : Locks st f) {m : Sem} (hm : st.Has m) (hu : Unsuspended f m) :
    st.sema m = (∑ i, (f i).held m : ℕ) := by
  refine (h.protocol m hm).guarded.counter_eq fun i => ?_
  obtain ⟨ho, hwait⟩ := hu i
  unfold Caller.stake
  split
  · next val hc =>
    unfold Worker.caller at hc
    dsimp only at hc
    split at hc
    · next call op m' s k hnow =>
      split at hc
      · next he =>
        cases hc
        exact absurd (he ▸ hnow) (hwait call val k)
      · cases hc
    · cases hc
  · rw [if_neg]
    rw [show ((f i).caller m).owns = (f i).owns m from rfl, ho]
    exact Bool.false_ne_true

end

section

variable [DecidableEq ι]

/-- A call that does not lock and finds another entry at its check unlocks a segment that it
does not hold. -/
theorem Accounted.unsteady (ha : ∀ j, Accounted b st (f j)) (hs : ¬ Steady b st (f i))
    {choice : Option Call} (hn : Worker.next b H i choice st (f i) = some (st', w)) :
    ¬ Disciplined (Function.update f i w) := by
  unfold Steady at hs
  split at hs
  · next call y target x D hnow =>
    obtain ⟨hl, hne⟩ := not_or.mp hs
    rcases Worker.next_cases hn with ⟨c, _, _, hw⟩ | ⟨c, pc, _, hc, rfl, rfl⟩
    · unfold Worker.enter at hw
      rw [hnow] at hw
      cases hw
    · rw [hnow] at hc
      cases hc
      intro hd
      have hzero : (f i).held (.seg target) = 0 := by
        rw [(ha i).held]
        simp only [Worker.holding, hnow, Pc.holding, if_neg hl]
        rfl
      have hout : ((Pc.check y target (.entry x D)).next b H call st).2 =
          .goto (.sema .unlock (.seg target) .load .retry) := by
        simp only [Pc.next, RoutePc.next, if_pos (Ne.symm hne)]
      have := hd i call (.seg target) .load .retry (by
        rw [Function.update_self, Worker.after, hout]
        rfl)
      rw [Function.update_self] at this
      exact absurd this (by rw [Worker.after, hout]; exact Nat.not_lt.mpr hzero.le)
  · exact absurd trivial hs

end

section

variable [Fintype ι] [DecidableEq ι]

/-- In a run in which every `Get` of the copy-on-write build finds the entry unchanged at its
check, whoever unlocks holds the lock, and a `sema` that nobody suspends counts the holders.
The first step that is not of this kind unlocks a segment that its thread does not hold. -/
theorem unlocks_by_holders {segs : ℕ → Segment} {dirs : ℕ → Directory} {initCap : ℕ}
    {c : Config ι CCEH Worker}
    (hr : Reaches (given (Steady b) (Worker.next b H)) (startThreads segs dirs initCap) c) :
    Disciplined c.threads ∧
    (∀ m, c.shared.Has m → Unsuspended c.threads m →
      c.shared.sema m = (∑ i, (c.threads i).held m : ℕ)) ∧
    ∀ i choice st' w, Worker.next b H i choice c.shared (c.threads i) = some (st', w) →
      (Disciplined (Function.update c.threads i w) ↔ Steady b c.shared (c.threads i)) := by
  obtain ⟨h, ha⟩ := reaches_accounted hr
  refine ⟨Accounted.disciplined ha, fun m hm hu => h.locks.sema_eq hm hu,
    fun i choice st' w hn => ⟨fun hd => ?_, fun hs => ?_⟩⟩
  · by_contra hs
    exact Accounted.unsteady ha hs hn hd
  · exact Accounted.disciplined (Accounted.step h ha (given_eq_some.mpr ⟨hs, hn⟩))

theorem unlocks_by_holders_two : ∃ c,
    schedule (given (Steady .cow) (Worker.next .cow crowdedHash)) insertAndGet smallStart = some c ∧
      (c.threads true).held (.seg 2) = 0 ∧ (c.threads true).held (.seg 1) = 1 ∧
      Disciplined c.threads := by
  obtain ⟨c, hc⟩ : ∃ c, schedule (given (Steady .cow) (Worker.next .cow crowdedHash)) insertAndGet
      smallStart = some c := ⟨_, rfl⟩
  have hheld : ∀ d ∈ schedule (given (Steady .cow) (Worker.next .cow crowdedHash)) insertAndGet
      smallStart, (d.threads true).held (.seg 2) = 0 ∧ (d.threads true).held (.seg 1) = 1 := by
    decide
  exact ⟨c, hc, (hheld c hc).1, (hheld c hc).2, (unlocks_by_holders (schedule_reaches hc)).1⟩

/-- Between calls a thread holds no lock, in a call at most one, and none while it is in
`lock()` or `suspend()`. Whoever waits for holders waits for a thread that does not wait. -/
theorem no_hold_and_wait {segs : ℕ → Segment} {dirs : ℕ → Directory} {initCap : ℕ}
    {c : Config ι CCEH Worker}
    (hr : Reaches (given (Steady b) (Worker.next b H)) (startThreads segs dirs initCap) c) :
    (∀ i, (c.threads i).now = none → ∀ m, (c.threads i).held m = 0) ∧
    (∀ i m m', 0 < (c.threads i).held m → 0 < (c.threads i).held m' →
      m = m' ∧ (c.threads i).held m = 1) ∧
    (∀ i call op m s k, (c.threads i).now = some (call, .sema op m s k) → op ≠ .unlock →
      ∀ m', (c.threads i).held m' = 0) ∧
    ∀ i call m val k, (c.threads i).now = some (call, .sema .suspend m (.wait val) k) →
      val ≠ 0 ∧ c.shared.sema m ≠ 0 - val - 1 →
      ∃ j, 0 < (c.threads j).held m ∧
        ∀ call op m' s k, (c.threads j).now = some (call, .sema op m' s k) → op = .unlock ∧ m' = m := by
  obtain ⟨h, ha⟩ := reaches_accounted hr
  have hone : ∀ {i m}, 0 < (c.threads i).held m → (c.threads i).holding b c.shared = some m := by
    intro i m hm
    by_contra hne
    rw [(ha i).held, if_neg hne] at hm
    omega
  refine ⟨fun i hnow m => ?_, fun i m m' hm hm' => ⟨?_, ?_⟩, fun i call op m s k hnow hop m' => ?_,
    fun i call m val k hnow hwait => ?_⟩
  · rw [(ha i).held]
    simp only [Worker.holding, hnow]
    rfl
  · exact Option.some.inj ((hone hm).symm.trans (hone hm'))
  · rw [(ha i).held, if_pos (hone hm)]
  · rw [(ha i).held]
    simp only [Worker.holding, hnow]
    cases op with
    | unlock => exact absurd rfl hop
    | _ => rfl
  · have hp := h.locks.protocol m (h.locks.has hnow)
    have hstake : ((c.threads i).caller m).stake = .waits val := by
      simp [Caller.stake, Worker.caller, hnow]
    obtain ⟨j, hj⟩ := hp.guarded.holder_of_waits hstake hwait.2
    refine ⟨j, hj, fun call' op m' s k' hnow' => ?_⟩
    have hhold := hone hj
    simp only [Worker.holding, hnow'] at hhold
    cases op with
    | unlock => exact ⟨rfl, Option.some.inj hhold⟩
    | _ => cases hhold

theorem no_hold_and_wait_two : ∃ c,
    schedule (given (Steady .cow) (Worker.next .cow crowdedHash)) insertAndGet smallStart = some c ∧
      ∀ m, 0 < (c.threads true).held m → Sem.seg 1 = m := by
  obtain ⟨c, hc⟩ : ∃ c, schedule (given (Steady .cow) (Worker.next .cow crowdedHash)) insertAndGet
      smallStart = some c := ⟨_, rfl⟩
  have hheld : ∀ d ∈ schedule (given (Steady .cow) (Worker.next .cow crowdedHash)) insertAndGet
      smallStart, 0 < (d.threads true).held (.seg 1) := by decide
  exact ⟨c, hc, fun m hm =>
    ((no_hold_and_wait (schedule_reaches hc)).2.1 true (.seg 1) m (hheld c hc) hm).1⟩

end

end Steps

end PmemStudy.Cceh
