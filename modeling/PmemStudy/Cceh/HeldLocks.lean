import PmemStudy.Cceh.Interleaving

/-!
# The semaphores under interleaved calls

At every `sema` of the pool the calls follow the protocol of the semaphore: a step of a call
enters `lock()`, `unlock()` or `suspend()`, takes a step in it, stores `sema = 0`, or leaves
the semaphore alone.
-/

namespace PmemStudy.Cceh

open SuspendLock Threads

/-- The objects that have been allocated. -/
def CCEH.Has (st : CCEH) : Sem → Prop
  | .seg p => p ≠ OID_NULL ∧ p < st.nseg
  | .dir D => D < st.ndir

section

variable {ι : Type} [Fintype ι]

/-- What a thread returned last does not matter. -/
theorem Protocol.congr {sema : ℤ} {g g' : ι → Caller} (h : Protocol sema g)
    (hcall : ∀ j, (g' j).call = (g j).call) (hheld : ∀ j, (g' j).held = (g j).held)
    (howns : ∀ j, (g' j).owns = (g j).owns) : Protocol sema g' := by
  have hstake : ∀ j, (g' j).stake = (g j).stake := by
    intro j
    simp only [Caller.stake, hcall j, howns j]
  refine ⟨?_, fun j => ?_⟩
  · simp only [hheld, hstake]
    exact h.guarded
  · have := h.knows j
    simp only [Caller.Knows, hcall j, hheld j, howns j]
    exact this

/-- Every semaphore follows its protocol, and nobody knows one that is not allocated yet. -/
structure Locks (st : CCEH) (f : ι → Worker) : Prop where
  protocol : ∀ m, st.Has m → Protocol (st.sema m) fun j => (f j).caller m
  fresh : ∀ m, ¬ st.Has m → ∀ j, (f j).caller m = .start

variable {st st' : CCEH} {f : ι → Worker} {i : ι} {w : Worker} {call : Call} {pc : Pc}

/-- Objects may be allocated, with `sema = 0`. -/
theorem Locks.extend (h : Locks st f) (hold : ∀ m, st.Has m → st'.Has m ∧ st'.sema m = st.sema m)
    (hnew : ∀ m, st'.Has m → ¬ st.Has m → st'.sema m = 0) : Locks st' f := by
  refine ⟨?_, ?_⟩
  · intro m hm
    by_cases hs : st.Has m
    · rw [(hold m hs).2]
      exact h.protocol m hs
    · rw [hnew m hm hs]
      exact Protocol.start.congr (fun j => by rw [h.fresh m hs j]) (fun j => by rw [h.fresh m hs j])
        fun j => by rw [h.fresh m hs j]
  · intro m hm
    exact h.fresh m fun hs => hm (hold m hs).1

/-- A thread is inside of calls on allocated semaphores only. -/
theorem Locks.has (h : Locks st f) {op : SemaOp} {m : Sem} {s : SemaPc} {k : After}
    (hnow : (f i).now = some (call, .sema op m s k)) : st.Has m := by
  by_contra hm
  have hstart := congrArg Caller.call (h.fresh m hm i)
  simp [Worker.caller, hnow, Caller.start] at hstart

theorem Locks.has_of_owns (h : Locks st f) {m : Sem} (hi : (f i).owns m = true) : st.Has m := by
  by_contra hm
  have := congrArg Caller.owns (h.fresh m hm i)
  rw [show ((f i).caller m).owns = (f i).owns m from rfl, hi] at this
  cases this

/-- While a thread owns a semaphore nobody holds it, and nobody else suspends it. -/
theorem Locks.of_owns (h : Locks st f) {m : Sem} (hi : (f i).owns m = true) :
    st.sema m < 0 ∧ (∀ j, (f j).held m = 0) ∧ ∀ j, j ≠ i → ((f j).caller m).stake = .free := by
  have hp := h.protocol m (h.has_of_owns hi)
  obtain ⟨hheld, hneg, hfree⟩ := hp.guarded.of_owns (hp.stake_of_owns hi)
  exact ⟨hneg, hheld, hfree⟩

theorem Locks.owner_unique (h : Locks st f) {m : Sem} {i j : ι} (hi : (f i).owns m = true)
    (hj : (f j).owns m = true) : i = j := by
  by_contra hne
  have hp := h.protocol m (h.has_of_owns hi)
  have hfree := (h.of_owns hi).2.2 j (Ne.symm hne)
  rw [hp.stake_of_owns (i := j) hj] at hfree
  cases hfree

variable [DecidableEq ι]

/-- A thread changes and is at each semaphore the same caller as before. -/
theorem Locks.same (h : Locks st f) (hw : ∀ m, w.caller m = (f i).caller m) :
    Locks st (Function.update f i w) := by
  have heq : ∀ m j, (Function.update f i w j).caller m = (f j).caller m := by
    intro m j
    by_cases hj : j = i
    · rw [hj, Function.update_self, hw]
    · rw [Function.update_of_ne hj]
  refine ⟨fun m hm => ?_, fun m hm j => ?_⟩
  · simp only [heq]
    exact h.protocol m hm
  · rw [heq]
    exact h.fresh m hm j

/-- A thread takes a step of the protocol at `m`. -/
theorem Locks.at (h : Locks st f) {m : Sem} (hm : st.Has m) {a : Choice} {x : Caller}
    (hn : Caller.next i a (st.sema m) ((f i).caller m) = some (st'.sema m, x))
    (hcall : (w.caller m).call = x.call) (hheld : (w.caller m).held = x.held)
    (howns : (w.caller m).owns = x.owns) (hhas : ∀ m', st'.Has m' ↔ st.Has m')
    (hother : ∀ m', m' ≠ m → st'.sema m' = st.sema m' ∧ w.caller m' = (f i).caller m') :
    Locks st' (Function.update f i w) := by
  have hrest : ∀ m' j, m' ≠ m ∨ j ≠ i →
      (Function.update f i w j).caller m' = (f j).caller m' := by
    intro m' j hne
    by_cases hj : j = i
    · rw [hj, Function.update_self, (hother m' (hne.resolve_right fun hx => hx hj)).2]
    · rw [Function.update_of_ne hj]
  refine ⟨?_, ?_⟩
  · intro m' hm'
    have hs := (hhas m').mp hm'
    by_cases he : m' = m
    · subst m'
      refine ((h.protocol m hs).step hn).congr ?_ ?_ ?_ <;> intro j <;> by_cases hj : j = i
      · rw [hj, Function.update_self, Function.update_self, hcall]
      · rw [hrest m j (Or.inr hj), Function.update_of_ne hj]
      · rw [hj, Function.update_self, Function.update_self, hheld]
      · rw [hrest m j (Or.inr hj), Function.update_of_ne hj]
      · rw [hj, Function.update_self, Function.update_self, howns]
      · rw [hrest m j (Or.inr hj), Function.update_of_ne hj]
    · simp only [hrest m' _ (Or.inl he), (hother m' he).1]
      exact h.protocol m' hs
  · intro m' hm' j
    have hs : ¬ st.Has m' := fun hx => hm' ((hhas m').mpr hx)
    rw [hrest m' j (Or.inl fun he => hs (he ▸ hm))]
    exact h.fresh m' hs j

/-! ### Steps of a call -/

/-- The call may go on at `pc`: it enters a call on an allocated semaphore, `unlock()` with
the lock held, or is not in such a call. -/
def Pc.Enters (st : CCEH) (w : Worker) : Pc → Prop
  | .sema op m s _ => s = .load ∧ st.Has m ∧ (op = .unlock → 0 < w.held m)
  | _ => True

def Outcome.Enters (st : CCEH) (w : Worker) : Outcome → Prop
  | .goto pc => pc.Enters st w
  | .ret _ => True

theorem Worker.caller_outside {w : Worker} (hout : ∀ call op m s k, w.now ≠ some (call, .sema op m s k))
    (m : Sem) : w.caller m = ⟨none, none, w.held m, w.owns m⟩ := by
  unfold caller
  split
  · next h => exact absurd h (hout _ _ _ _ _)
  · rfl

/-- The call goes on from a point outside of the semaphores. -/
theorem Locks.continued (h : Locks st (Function.update f i w)) (hout : w.now = none) (call : Call)
    {out : Outcome} (henter : out.Enters st w) :
    Locks st (Function.update f i (w.continued call out)) := by
  have hcaller := w.caller_outside fun c op m s k => by simp [hout]
  have hsame : (∀ m, (w.continued call out).caller m = w.caller m) →
      Locks st (Function.update f i (w.continued call out)) := by
    intro hw
    have := h.same (i := i) (w := w.continued call out) fun m => by rw [Function.update_self, hw]
    rwa [Function.update_idem] at this
  cases out with
  | ret v => exact hsame fun m => by rw [hcaller]; rfl
  | goto pc =>
    cases pc with
    | sema op m s k =>
      obtain ⟨rfl, hm, hheld⟩ := henter
      have hnext : Caller.next i (.enter op) (st.sema m) ((Function.update f i w i).caller m) =
          some (st.sema m, ⟨some (op, .load), none, w.held m, w.owns m⟩) := by
        rw [Function.update_self, hcaller]
        simp only [Caller.next]
        rw [if_pos hheld]
      have : Locks st (Function.update (Function.update f i w) i
          (w.continued call (.goto (.sema op m .load k)))) := h.at hm hnext
        (by simp [Worker.caller, Worker.continued]) rfl rfl (fun _ => Iff.rfl)
        fun m' hne => ⟨rfl, by
          rw [Function.update_self, hcaller]
          simp [Worker.caller, Worker.continued, Ne.symm hne]⟩
      rwa [Function.update_idem] at this
    | _ => exact hsame fun m => by rw [hcaller]; rfl

@[simp] theorem CCEH.setSem_sema (st : CCEH) (m : Sem) (v : ℤ) : (st.setSem m v).sema m = v := by
  cases m with
  | seg p => simp [sema, setSem]
  | dir D => simp [sema, setSem, setDirSema]

theorem CCEH.setSem_sema_of_ne (st : CCEH) {m n : Sem} (v : ℤ) (h : n ≠ m) :
    (st.setSem m v).sema n = st.sema n := by
  cases m with
  | seg p =>
    cases n with
    | seg q => simp only [sema, setSem, setSema, setSeg_segs_of_ne _ p q _ fun hq => h (hq ▸ rfl)]
    | dir D => rfl
  | dir D =>
    cases n with
    | seg q => rfl
    | dir E =>
      have hne : E ≠ D := fun he => h (he ▸ rfl)
      simp only [sema, setSem, setDirSema, setDir, Function.update_of_ne hne]

theorem CCEH.setSem_has (st : CCEH) (m m' : Sem) (v : ℤ) :
    (st.setSem m v).Has m' ↔ st.Has m' := by
  cases m <;> cases m' <;> rfl

/-- A step in a call on a semaphore. -/
theorem Locks.sema_step (h : Locks st f) {b : Build} {H : HashFuncs} {op : SemaOp} {m : Sem}
    {s : SemaPc} {k : After} (hnow : (f i).now = some (call, .sema op m s k))
    (henter : ∀ ok, (semaStep op (st.sema m) s).2 = .ret ok →
      (k.next b call ok).Enters (st.setSem m (semaStep op (st.sema m) s).1)
        ((f i).note st (.sema op m s k))) :
    Locks (st.setSem m (semaStep op (st.sema m) s).1) (Function.update f i
      (((f i).note st (.sema op m s k)).continued call
        ((Pc.sema op m s k).next b H call st).2)) := by
  have hm := h.has hnow
  have hcall : ((f i).caller m).call = some (op, s) := by simp [Worker.caller, hnow]
  have hother : ∀ m' ≠ m, ((f i).caller m').call = none := by
    intro m' hne
    simp [Worker.caller, hnow, hne.symm]
  cases hr : (semaStep op (st.sema m) s).2 with
  | goto s' =>
    have hnote : (f i).note st (.sema op m s k) = f i := by simp only [Worker.note, hr]
    have hnext : ((Pc.sema op m s k).next b H call st).2 = .goto (.sema op m s' k) := by
      simp only [Pc.next, hr]
    rw [hnote, hnext]
    refine h.at (a := .run) hm (x := { (f i).caller m with call := some (op, s') }) ?_
      (by simp [Worker.caller, Worker.continued]) rfl rfl (fun m' => st.setSem_has m m' _) ?_
    · simp only [Caller.next, hcall, hr, CCEH.setSem_sema]
    · intro m' hne
      refine ⟨st.setSem_sema_of_ne _ hne, ?_⟩
      simp [Worker.caller, Worker.continued, hnow, hne.symm]
  | ret ok =>
    have hnext : ((Pc.sema op m s k).next b H call st).2 = k.next b call ok := by
      simp only [Pc.next, hr]
    rw [hnext]
    have hnote : (f i).note st (.sema op m s k) = { f i with
        held := Function.update (f i).held m (((f i).caller m).ret op ok).held
        owns := Function.update (f i).owns m (((f i).caller m).ret op ok).owns } := by
      simp only [Worker.note, hr]
    have hleft : Locks (st.setSem m (semaStep op (st.sema m) s).1) (Function.update f i
        { (f i).note st (.sema op m s k) with now := none }) := by
      rw [hnote]
      refine h.at (a := .run) hm (x := ((f i).caller m).ret op ok) ?_ ?_ ?_ ?_
        (fun m' => st.setSem_has m m' _) ?_
      · simp only [Caller.next, hcall, hr, CCEH.setSem_sema]
      · simp [Worker.caller, Caller.ret]
      · simp [Worker.caller]
      · simp [Worker.caller]
      · intro m' hne
        refine ⟨st.setSem_sema_of_ne _ hne, ?_⟩
        rw [Worker.caller_outside (by simp)]
        simp [Worker.caller, hnow, hne, hne.symm]
    have henter' : (k.next b call ok).Enters (st.setSem m (semaStep op (st.sema m) s).1)
        { (f i).note st (.sema op m s k) with now := none } := henter ok hr
    have := hleft.continued rfl call henter'
    cases hk : k.next b call ok <;> rw [hk] at this <;> exact this

/-- The thread stores `sema = 0`. -/
theorem Locks.release_step (h : Locks st f) {b : Build} {H : HashFuncs} {target : ℕ}
    (hnow : (f i).now = some (call, .release target)) (hm : st.Has (.seg target))
    (howns : (f i).owns (.seg target) = true) :
    Locks (st.setSem (.seg target) 0) (Function.update f i
      (((f i).note st (.release target)).continued call
        ((Pc.release target).next b H call st).2)) := by
  have hcaller := (f i).caller_outside fun c op m s k => by simp [hnow]
  have hleft : Locks (st.setSem (.seg target) 0) (Function.update f i
      { (f i).note st (.release target) with now := none }) := by
    refine h.at (a := .release) hm
      (x := { (f i).caller (.seg target) with owns := false }) ?_ ?_ ?_ ?_
      (fun m' => st.setSem_has _ m' _) ?_
    · rw [hcaller]
      simp [Caller.next, howns]
    · simp [Worker.caller, hnow]
    · rfl
    · simp [Worker.caller, Worker.note]
    · intro m' hne
      refine ⟨st.setSem_sema_of_ne _ hne, ?_⟩
      rw [hcaller, Worker.caller_outside (by simp)]
      simp [Worker.note, hne]
  have hretry : (Outcome.goto call.retry).Enters (st.setSem (.seg target) 0)
      { (f i).note st (.release target) with now := none } := by
    cases call <;> trivial
  exact hleft.continued rfl call hretry

/-- A step outside of the semaphores: objects may be allocated, and a call on a semaphore may
begin. -/
theorem Locks.other_step (h : Locks st f) {out : Outcome} (hnow : (f i).now = some (call, pc))
    (hpc : ∀ op m s k, pc ≠ .sema op m s k)
    (hold : ∀ m, st.Has m → st'.Has m ∧ st'.sema m = st.sema m)
    (hnew : ∀ m, st'.Has m → ¬ st.Has m → st'.sema m = 0) (henter : out.Enters st' (f i)) :
    Locks st' (Function.update f i ((f i).continued call out)) := by
  have hcaller := (f i).caller_outside fun c op m s k hc => by
    rw [hnow] at hc
    exact hpc op m s k (Prod.mk.inj (Option.some.inj hc)).2
  have hleft : Locks st' (Function.update f i { f i with now := none }) :=
    (h.extend hold hnew).same fun m => by rw [hcaller, Worker.caller_outside (by simp)]
  have henter' : out.Enters st' { f i with now := none } := by
    cases out with
    | ret v => trivial
    | goto pc => cases pc <;> exact henter
  have := hleft.continued rfl call henter'
  cases out <;> exact this

end

end PmemStudy.Cceh
