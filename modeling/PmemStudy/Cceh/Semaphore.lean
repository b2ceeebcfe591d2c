import Mathlib.Order.Fin.Basic
import Mathlib.Tactic.Ring
import PmemStudy.Lib.SuspendLock
import PmemStudy.Lib.Threads

/-!
# The semaphores of CCEH (CCEH-PMDK/src/CCEH.h)

`Segment` and `Directory` have the same `suspend`, `lock` and `unlock` on their
`sema`. Every load of `sema` and every CAS is one step.
-/

namespace PmemStudy.Cceh

open SuspendLock Threads

inductive SemaOp
  | lock | unlock | suspend
  deriving DecidableEq

/-- Where a call is: before its load of `sema`, before its CAS, or in the wait loop. -/
inductive SemaPc
  | load
  | cas (val : ℤ)
  | wait (val : ℤ)
  deriving DecidableEq

/-- A step of a call goes on or returns; `unlock` returns nothing. -/
inductive SemaStep
  | goto (pc : SemaPc)
  | ret (b : Bool)
  deriving DecidableEq

/-- `lock()`. A failed CAS is followed by `val = sema`. -/
def lockStep (sema : ℤ) : SemaPc → ℤ × SemaStep
  | .load => (sema, if sema > -1 then .goto (.cas sema) else .ret false)
  | .cas val => if sema = val then (val + 1, .ret true) else (sema, .goto .load)
  | .wait _ => (sema, .ret false)

/-- `unlock()`. -/
def unlockStep (sema : ℤ) : SemaPc → ℤ × SemaStep
  | .load => (sema, .goto (.cas sema))
  | .cas val => if sema = val then (val - 1, .ret true) else (sema, .goto .load)
  | .wait _ => (sema, .ret true)

/-- `suspend()`. The wait loop does not read `sema` when `val` is 0. -/
def suspendStep (sema : ℤ) : SemaPc → ℤ × SemaStep
  | .load => (sema, if sema < 0 then .ret false else .goto (.cas sema))
  | .cas val => if sema = val then (-1, .goto (.wait val)) else (sema, .goto .load)
  | .wait val => (sema, if val ≠ 0 ∧ sema ≠ 0 - val - 1 then .goto (.wait val) else .ret true)

def semaStep : SemaOp → ℤ → SemaPc → ℤ × SemaStep
  | .lock => lockStep
  | .unlock => unlockStep
  | .suspend => suspendStep

/-! ### Any number of callers -/

/-- A thread: the call it is in, the last call that returned, how often it holds the
lock, and whether its `suspend()` returned true and `sema` was not set to 0 since. -/
structure Caller where
  call : Option (SemaOp × SemaPc)
  returned : Option (SemaOp × Bool)
  held : ℕ
  owns : Bool

/-- What a thread does next: it enters a call, takes a step of the one that it is in,
or stores `sema = 0`. -/
inductive Choice
  | enter (op : SemaOp)
  | run
  | release

namespace Caller

def start : Caller := ⟨none, none, 0, false⟩

/-- What a call that returned changes for its thread. -/
def ret (w : Caller) (op : SemaOp) (b : Bool) : Caller :=
  { call := none
    returned := some (op, b)
    held := match op, b with
      | .lock, true => w.held + 1
      | .unlock, _ => w.held - 1
      | _, _ => w.held
    owns := w.owns || (op == .suspend && b) }

/-- The next step of a thread. Only a holder calls `unlock()`, and only the thread whose
`suspend()` returned true stores `sema = 0`. -/
def next {ι : Type} (_ : ι) (choice : Choice) (sema : ℤ) (w : Caller) : Option (ℤ × Caller) :=
  match choice, w.call with
  | .enter op, none =>
    if op = .unlock → 0 < w.held then some (sema, { w with call := some (op, .load) }) else none
  | .run, some (op, pc) =>
    match (semaStep op sema pc).2 with
    | .goto pc' => some ((semaStep op sema pc).1, { w with call := some (op, pc') })
    | .ret b => some ((semaStep op sema pc).1, w.ret op b)
  | .release, none => if w.owns then some (0, { w with owns := false }) else none
  | _, _ => none

end Caller

/-! ### The protocol -/

/-- The call of the thread returns `b` in this step. -/
def Caller.Returns (w x : Caller) (op : SemaOp) (b : Bool) : Prop :=
  w.call ≠ none ∧ x.call = none ∧ x.returned = some (op, b)

/-- What the thread has to do with the suspension. -/
def Caller.stake (w : Caller) : Stake :=
  match w.call with
  | some (.suspend, .wait val) => .waits val
  | _ => if w.owns then .owns else .free

/-- What the thread knows inside of a call. -/
def Caller.Knows (w : Caller) : Prop :=
  match w.call with
  | some (.lock, .cas val) => 0 ≤ val
  | some (.lock, .wait _) => False
  | some (.unlock, .wait _) => False
  | some (.unlock, _) => 0 < w.held
  | some (.suspend, .cas val) => 0 ≤ val
  | some (.suspend, .wait _) => w.owns = false
  | _ => True

theorem same_held {ι : Type} [DecidableEq ι] (f : ι → Caller) (i : ι) :
    Function.update (fun j => (f j).held) i (f i).held = fun j => (f j).held :=
  Function.update_eq_self i fun j => (f j).held

theorem same_stake {ι : Type} [DecidableEq ι] (f : ι → Caller) (i : ι) :
    Function.update (fun j => (f j).stake) i (f i).stake = fun j => (f j).stake :=
  Function.update_eq_self i fun j => (f j).stake

section Protocol

variable {ι : Type} [Fintype ι] {sema : ℤ} {f : ι → Caller}

/-- The invariant of the protocol. -/
structure Protocol (sema : ℤ) (f : ι → Caller) : Prop where
  guarded : Guarded sema (fun i => (f i).held) fun i => (f i).stake
  knows : ∀ i, (f i).Knows

theorem Protocol.start : Protocol 0 fun _ : ι => Caller.start :=
  ⟨guarded_start, fun _ => trivial⟩

variable [DecidableEq ι]

/-- Thread `i` moved: the lock fits its new share, and it knows what it has to. -/
theorem Protocol.move (h : Protocol sema f) {i : ι} {x : Caller} {s' : ℤ} {n : ℕ} {k : Stake}
    (hheld : x.held = n) (hstake : x.stake = k)
    (hg : Guarded s' (Function.update (fun j => (f j).held) i n)
      (Function.update (fun j => (f j).stake) i k)) (hx : x.Knows) :
    Protocol s' (Function.update f i x) := by
  refine ⟨?_, ?_⟩
  · rw [← hheld, ← hstake] at hg
    convert hg using 1
    · exact funext fun j => Function.apply_update (fun _ w => w.held) f i x j
    · exact funext fun j => Function.apply_update (fun _ w => w.stake) f i x j
  · intro j
    rw [Function.update_apply]
    split
    · exact hx
    · exact h.knows j

/-- A step that leaves the share of the thread as it was. -/
theorem Protocol.quiet (h : Protocol sema f) {i : ι} {x : Caller} (hheld : x.held = (f i).held)
    (hstake : x.stake = (f i).stake) (hx : x.Knows) : Protocol sema (Function.update f i x) :=
  h.move hheld hstake (by rw [same_held, same_stake]; exact h.guarded) hx

theorem Caller.stake_of_call {w : Caller} {op : SemaOp} {pc : SemaPc} (hc : w.call = some (op, pc))
    (hw : op = .suspend → ∀ val, pc ≠ .wait val) : w.stake = if w.owns then .owns else .free := by
  cases op with
  | lock => simp only [stake, hc]
  | unlock => simp only [stake, hc]
  | suspend =>
    cases pc with
    | load => simp only [stake, hc]
    | cas val => simp only [stake, hc]
    | wait val => exact absurd rfl (hw rfl val)

theorem Protocol.lock_step (h : Protocol sema f) {i : ι} {pc : SemaPc}
    (hc : (f i).call = some (.lock, pc)) {s' : ℤ} {x : Caller}
    (hn : Caller.next i .run sema (f i) = some (s', x)) : Protocol s' (Function.update f i x) := by
  have hknows := h.knows i
  have hstake := Caller.stake_of_call hc (fun hop => absurd hop (by decide))
  simp only [Caller.next, hc, semaStep, lockStep] at hn
  cases pc with
  | load =>
    by_cases hpos : sema > -1
    · simp only [if_pos hpos, Option.some.injEq, Prod.mk.injEq] at hn
      obtain ⟨rfl, rfl⟩ := hn
      refine h.quiet rfl (by rw [hstake]; rfl) ?_
      show 0 ≤ sema
      omega
    · simp only [if_neg hpos, Option.some.injEq, Prod.mk.injEq] at hn
      obtain ⟨rfl, rfl⟩ := hn
      refine h.quiet rfl ?_ trivial
      rw [hstake]
      simp [Caller.stake, Caller.ret]
  | cas val =>
    have hval : 0 ≤ val := by simpa only [Caller.Knows, hc] using hknows
    by_cases heq : sema = val
    · simp only [if_pos heq, Option.some.injEq, Prod.mk.injEq] at hn
      obtain ⟨rfl, rfl⟩ := hn
      have hsame : ((f i).ret .lock true).stake = (f i).stake := by
        rw [hstake]
        simp [Caller.stake, Caller.ret]
      refine h.move (show _ = (f i).held + 1 from rfl) hsame ?_ trivial
      rw [same_stake]
      exact heq ▸ h.guarded.lock (heq ▸ hval) i
    · simp only [if_neg heq, Option.some.injEq, Prod.mk.injEq] at hn
      obtain ⟨rfl, rfl⟩ := hn
      exact h.quiet rfl (by rw [hstake]; rfl) trivial
  | wait val => exact absurd hknows (by simp [Caller.Knows, hc])

theorem Protocol.unlock_step (h : Protocol sema f) {i : ι} {pc : SemaPc}
    (hc : (f i).call = some (.unlock, pc)) {s' : ℤ} {x : Caller}
    (hn : Caller.next i .run sema (f i) = some (s', x)) : Protocol s' (Function.update f i x) := by
  have hknows := h.knows i
  have hstake := Caller.stake_of_call hc (fun hop => absurd hop (by decide))
  simp only [Caller.next, hc, semaStep, unlockStep] at hn
  cases pc with
  | load =>
    simp only [Option.some.injEq, Prod.mk.injEq] at hn
    obtain ⟨rfl, rfl⟩ := hn
    refine h.quiet rfl (by rw [hstake]; rfl) ?_
    simpa only [Caller.Knows, hc] using hknows
  | cas val =>
    have hheld : 0 < (f i).held := by simpa only [Caller.Knows, hc] using hknows
    by_cases heq : sema = val
    · simp only [if_pos heq, Option.some.injEq, Prod.mk.injEq] at hn
      obtain ⟨rfl, rfl⟩ := hn
      have hsame : ((f i).ret .unlock true).stake = (f i).stake := by
        rw [hstake]
        simp [Caller.stake, Caller.ret]
      refine h.move (show _ = (f i).held - 1 from rfl) hsame ?_ trivial
      rw [same_stake]
      exact heq ▸ h.guarded.unlock hheld
    · simp only [if_neg heq, Option.some.injEq, Prod.mk.injEq] at hn
      obtain ⟨rfl, rfl⟩ := hn
      exact h.quiet rfl (by rw [hstake]; rfl) hheld
  | wait val => exact absurd hknows (by simp [Caller.Knows, hc])

theorem Protocol.suspend_step (h : Protocol sema f) {i : ι} {pc : SemaPc}
    (hc : (f i).call = some (.suspend, pc)) {s' : ℤ} {x : Caller}
    (hn : Caller.next i .run sema (f i) = some (s', x)) : Protocol s' (Function.update f i x) := by
  have hknows := h.knows i
  simp only [Caller.next, hc, semaStep, suspendStep] at hn
  cases pc with
  | load =>
    have hstake := Caller.stake_of_call hc (fun _ val hv => by cases hv)
    by_cases hneg : sema < 0
    · simp only [if_pos hneg, Option.some.injEq, Prod.mk.injEq] at hn
      obtain ⟨rfl, rfl⟩ := hn
      refine h.quiet rfl ?_ trivial
      rw [hstake]
      simp [Caller.stake, Caller.ret]
    · simp only [if_neg hneg, Option.some.injEq, Prod.mk.injEq] at hn
      obtain ⟨rfl, rfl⟩ := hn
      refine h.quiet rfl (by rw [hstake]; rfl) ?_
      show 0 ≤ sema
      omega
  | cas val =>
    have hval : 0 ≤ val := by simpa only [Caller.Knows, hc] using hknows
    have hstake := Caller.stake_of_call hc (fun _ val hv => by cases hv)
    by_cases heq : sema = val
    · simp only [if_pos heq, Option.some.injEq, Prod.mk.injEq] at hn
      obtain ⟨rfl, rfl⟩ := hn
      obtain ⟨hfree, hswap⟩ := h.guarded.swap (heq ▸ hval) i
      refine h.move (show _ = (f i).held from rfl) (show _ = Stake.waits val from rfl) ?_ ?_
      · rw [same_held]
        exact heq ▸ hswap
      · show (f i).owns = false
        have := hfree i
        rw [hstake] at this
        cases ho : (f i).owns with
        | false => rfl
        | true =>
          rw [ho] at this
          cases this
    · simp only [if_neg heq, Option.some.injEq, Prod.mk.injEq] at hn
      obtain ⟨rfl, rfl⟩ := hn
      exact h.quiet rfl (by rw [hstake]; rfl) trivial
  | wait val =>
    have howns : (f i).owns = false := by simpa only [Caller.Knows, hc] using hknows
    have hstake : (f i).stake = .waits val := by simp only [Caller.stake, hc]
    by_cases hwait : val ≠ 0 ∧ sema ≠ 0 - val - 1
    · simp only [if_pos hwait, Option.some.injEq, Prod.mk.injEq] at hn
      obtain ⟨rfl, rfl⟩ := hn
      exact h.quiet rfl (by rw [hstake]; rfl) howns
    · simp only [if_neg hwait, Option.some.injEq, Prod.mk.injEq] at hn
      obtain ⟨rfl, rfl⟩ := hn
      have hx : ((f i).ret .suspend true).stake = .owns := by simp [Caller.stake, Caller.ret]
      refine h.move (show _ = (f i).held from rfl) hx ?_ trivial
      rw [same_held]
      exact (h.guarded.drained hstake (by omega)).2

theorem Protocol.step (h : Protocol sema f) {i : ι} {choice : Choice} {s' : ℤ} {x : Caller}
    (hn : Caller.next i choice sema (f i) = some (s', x)) :
    Protocol s' (Function.update f i x) := by
  have hnone : (f i).call = none → (f i).stake = if (f i).owns then .owns else .free :=
    fun hc => by simp only [Caller.stake, hc]
  cases choice with
  | enter op =>
    cases hc : (f i).call with
    | some y => simp [Caller.next, hc] at hn
    | none =>
      simp only [Caller.next, hc] at hn
      split at hn
      · next hop =>
        simp only [Option.some.injEq, Prod.mk.injEq] at hn
        obtain ⟨rfl, rfl⟩ := hn
        refine h.quiet rfl ?_ ?_
        · rw [hnone hc]
          cases op <;> rfl
        · cases op with
          | lock => trivial
          | unlock => exact hop rfl
          | suspend => trivial
      · cases hn
  | run =>
    cases hc : (f i).call with
    | none => simp [Caller.next, hc] at hn
    | some y =>
      obtain ⟨op, pc⟩ := y
      cases op with
      | lock => exact h.lock_step hc hn
      | unlock => exact h.unlock_step hc hn
      | suspend => exact h.suspend_step hc hn
  | release =>
    cases hc : (f i).call with
    | some y => simp [Caller.next, hc] at hn
    | none =>
      simp only [Caller.next, hc] at hn
      split at hn
      · next ho =>
        simp only [Option.some.injEq, Prod.mk.injEq] at hn
        obtain ⟨rfl, rfl⟩ := hn
        refine h.move (show _ = (f i).held from rfl) (show _ = Stake.free from rfl) ?_ trivial
        rw [same_held]
        exact h.guarded.release (by rw [hnone hc, if_pos ho])
      · cases hn

theorem reaches_protocol {c : Config ι ℤ Caller}
    (hr : Reaches Caller.next ⟨0, fun _ => Caller.start⟩ c) : Protocol c.shared c.threads :=
  hr.invariant .start fun _ _ _ _ _ _ h hn => h.step hn

end Protocol

/-! ### What the calls return -/

section Returns

variable {ι : Type} {i : ι} {choice : Choice} {sema s' : ℤ} {w x : Caller}

theorem Caller.Returns.ret {op : SemaOp} {b : Bool} (h : w.Returns x op b)
    (hn : Caller.next i choice sema w = some (s', x)) :
    ∃ pc, w.call = some (op, pc) ∧ (semaStep op sema pc).2 = .ret b ∧ x = w.ret op b := by
  obtain ⟨hcall, hx, hret⟩ := h
  cases hc : w.call with
  | none => exact absurd hc hcall
  | some y =>
    obtain ⟨op', pc⟩ := y
    cases choice with
    | enter op => simp [Caller.next, hc] at hn
    | release => simp [Caller.next, hc] at hn
    | run =>
      simp only [Caller.next, hc] at hn
      split at hn
      · simp only [Option.some.injEq, Prod.mk.injEq] at hn
        rw [← hn.2] at hx
        cases hx
      · next b' hb =>
        simp only [Option.some.injEq, Prod.mk.injEq] at hn
        rw [← hn.2] at hret
        simp only [Caller.ret, Option.some.injEq, Prod.mk.injEq] at hret
        obtain ⟨rfl, rfl⟩ := hret
        exact ⟨pc, rfl, hb, hn.2.symm⟩

/-- `lock()` returns true after a CAS on a value that is not negative. -/
theorem Caller.Returns.lock_cas (h : w.Returns x .lock true) (hk : w.Knows)
    (hn : Caller.next i choice sema w = some (s', x)) : 0 ≤ sema := by
  obtain ⟨pc, hc, hstep, _⟩ := h.ret hn
  simp only [semaStep] at hstep
  cases pc with
  | load =>
    simp only [lockStep] at hstep
    split at hstep <;> cases hstep
  | cas val =>
    have hval : 0 ≤ val := by simpa only [Caller.Knows, hc] using hk
    simp only [lockStep] at hstep
    split at hstep
    · next heq => rwa [heq]
    · cases hstep
  | wait val => cases hstep

/-- `suspend()` returns true from the wait loop. -/
theorem Caller.Returns.suspend_wait (h : w.Returns x .suspend true)
    (hn : Caller.next i choice sema w = some (s', x)) :
    x = w.ret .suspend true ∧ ∃ val, w.call = some (.suspend, .wait val) := by
  obtain ⟨pc, hc, hstep, hx⟩ := h.ret hn
  refine ⟨hx, ?_⟩
  simp only [semaStep] at hstep
  cases pc with
  | load =>
    simp only [suspendStep] at hstep
    split at hstep <;> cases hstep
  | cas val =>
    simp only [suspendStep] at hstep
    split at hstep <;> cases hstep
  | wait val => exact ⟨val, hc⟩

end Returns

section Protocol

variable {ι : Type} [Fintype ι] {sema : ℤ} {f : ι → Caller}

theorem Protocol.stake_of_owns (h : Protocol sema f) {i : ι} (ho : (f i).owns = true) :
    (f i).stake = .owns := by
  have hk := h.knows i
  unfold Caller.stake
  split
  · next val hc =>
    have : (f i).owns = false := by simpa only [Caller.Knows, hc] using hk
    rw [ho] at this
    cases this
  · rw [if_pos ho]

/-- Any number of threads, any interleaving: when `suspend()` returns true nobody holds
the lock; until the release no `lock()` and no `suspend()` returns true; and whenever
nobody suspends, from the release on, `sema` is the number of holders. -/
theorem semaphore_protocol [DecidableEq ι] {c : Config ι ℤ Caller}
    (hr : Reaches Caller.next ⟨0, fun _ => Caller.start⟩ c) :
    (∀ i choice s x, Caller.next i choice c.shared (c.threads i) = some (s, x) →
      (c.threads i).Returns x .suspend true →
        ∀ j, (Function.update c.threads i x j).held = 0) ∧
    (∀ i, (c.threads i).owns = true → (∀ j, (c.threads j).held = 0) ∧
      ∀ j choice s x, Caller.next j choice c.shared (c.threads j) = some (s, x) →
        ¬ (c.threads j).Returns x .lock true ∧ ¬ (c.threads j).Returns x .suspend true) ∧
    (∀ i s x, Caller.next i .release c.shared (c.threads i) = some (s, x) →
      s = (∑ j, (Function.update c.threads i x j).held : ℕ)) ∧
    ((∀ i, (c.threads i).owns = false ∧ ∀ val, (c.threads i).call ≠ some (.suspend, .wait val)) →
      c.shared = (∑ j, (c.threads j).held : ℕ)) := by
  have h := reaches_protocol hr
  refine ⟨?_, ?_, ?_, ?_⟩
  · intro i choice s x hn hret
    have ho : (Function.update c.threads i x i).owns = true := by
      rw [Function.update_self, (hret.suspend_wait hn).1]
      simp [Caller.ret]
    exact ((h.step hn).guarded.of_owns ((h.step hn).stake_of_owns ho)).1
  · intro i ho
    obtain ⟨hheld, hneg, hfree⟩ := h.guarded.of_owns (h.stake_of_owns ho)
    refine ⟨hheld, fun j choice s x hn => ⟨fun hret => ?_, fun hret => ?_⟩⟩
    · have := hret.lock_cas (h.knows j) hn
      omega
    · obtain ⟨_, val, hc⟩ := hret.suspend_wait hn
      have hwaits : (c.threads j).stake = .waits val := by simp only [Caller.stake, hc]
      by_cases hji : j = i
      · rw [hji, h.stake_of_owns ho] at hwaits
        cases hwaits
      · rw [hfree j hji] at hwaits
        cases hwaits
  · intro i s x hn
    cases hc : (c.threads i).call with
    | some y => simp [Caller.next, hc] at hn
    | none =>
      simp only [Caller.next, hc] at hn
      split at hn
      · next ho =>
        simp only [Option.some.injEq, Prod.mk.injEq] at hn
        obtain ⟨rfl, rfl⟩ := hn
        have hzero := (h.guarded.of_owns (h.stake_of_owns ho)).1
        refine (congrArg Nat.cast (Finset.sum_eq_zero fun j _ => ?_)).symm
        rw [Function.update_apply]
        split
        · exact hzero i
        · exact hzero j
      · cases hn
  · intro hfree
    refine h.guarded.counter_eq fun i => ?_
    obtain ⟨ho, hc⟩ := hfree i
    unfold Caller.stake
    split
    · next val hcall => exact absurd hcall (hc val)
    · rw [ho]
      rfl

/-- One thread suspends while the other one holds the lock, and waits for it. -/
def suspendWhileHeld : List (Bool × Choice) :=
  [(false, .enter .lock), (false, .run), (true, .enter .suspend), (true, .run), (false, .run),
    (true, .run), (true, .run), (true, .run), (true, .run), (false, .enter .unlock), (true, .run),
    (false, .run), (false, .run), (true, .run)]

theorem semaphore_protocol_two : ∃ c,
    schedule Caller.next suspendWhileHeld ⟨0, fun _ => Caller.start⟩ = some c ∧
      (c.threads true).owns = true ∧ ∀ j, (c.threads j).held = 0 := by
  obtain ⟨c, hc⟩ : ∃ c, schedule Caller.next suspendWhileHeld ⟨0, fun _ => Caller.start⟩ = some c :=
    ⟨_, rfl⟩
  have howns : ∀ d ∈ schedule Caller.next suspendWhileHeld ⟨0, fun _ => Caller.start⟩,
      (d.threads true).owns = true := by decide
  exact ⟨c, hc, howns c hc, ((semaphore_protocol (schedule_reaches hc)).2.1 true (howns c hc)).1⟩

end Protocol

end PmemStudy.Cceh
