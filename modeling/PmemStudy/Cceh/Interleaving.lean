import PmemStudy.Cceh.CrashedLocks
import PmemStudy.Cceh.Semaphore

/-!
# Calls of CCEH that interleave (CCEH-PMDK/src/CCEH.h, CCEH.cpp)

Any number of threads call `Insert` and `Get`. One step of a thread reads `dir`, a depth, a
directory entry or a slot, takes a step on a `sema`, or makes one store; `Split`, whose
copies no other thread can see yet, is one step.
-/

namespace PmemStudy.Cceh

open Threads

/-! ### Semaphores of the pool -/

inductive Sem
  | seg (p : ℕ)
  | dir (D : ℕ)
  deriving DecidableEq

namespace CCEH

def sema (st : CCEH) : Sem → ℤ
  | .seg p => (st.segs p).sema
  | .dir D => (st.dirs D).sema

def setSem (st : CCEH) (m : Sem) (v : ℤ) : CCEH :=
  match m with
  | .seg p => st.setSema p v
  | .dir D => st.setDirSema D v

end CCEH

/-! ### Where a call is -/

inductive Call
  | insert (key : Key) (value : Value)
  | get (key : Key)
  deriving DecidableEq

/-- From `dir` to a directory entry: `D_RO(dir)` is read for the depth and again for the
array. -/
inductive RoutePc
  | dir
  | depth (D : ℕ)
  | segment (x : ℕ)
  | entry (x D : ℕ)

/-- The locals of `Insert` after `Split`. -/
structure Halves where
  target : ℕ
  target_local_depth : ℕ
  s0 : ℕ
  s1 : ℕ

/-- What the call does with a depth that it reads. -/
inductive DepthUse
  | compare (local_depth : ℕ)
  | double
  | newDir (x d : ℕ)
  | index
  | buddy (x : ℕ)
  | stride (x : ℕ)

/-- What the call does with `dir`. A store of an entry comes with the stores that follow it;
`begun` says whether one has been made before. -/
inductive DirUse
  | depth (use : DepthUse)
  | suspend
  | source (x : ℕ)
  | copy (x d _dir i : ℕ)
  | lock
  | store (begun : Bool) (w : Store) (rest : List Store)
  | unlock

/-- From `DIR_RETRY` on. The copying loop counts the entries of the new array. -/
inductive UpdatePc
  | level
  | dir (use : DirUse)
  | depth (use : DepthUse) (D : ℕ)
  | newDir (x d depth : ℕ)
  | copyTest (x d _dir i D : ℕ)
  | copyRead (x d _dir j : ℕ)
  | copyStore (x d _dir j s : ℕ)
  | publish (_dir : ℕ)
  | buddyLevel (x depth : ℕ)
  | store (D : ℕ) (begun : Bool) (w : Store) (rest : List Store)
  | bump

/-- The check after `suspend()`. -/
inductive RecheckPc
  | dir
  | entry (D : ℕ)
  | level (p : ℕ)

/-- What follows a call on a semaphore. -/
inductive After
  | locked (x target : ℕ)
  | retry
  | stored
  | collide (x target target_local_depth : ℕ)
  | suspended (x target target_local_depth : ℕ)
  | answer (v : Value)
  | double (u : Halves)
  | normal (u : Halves)
  | updated (u : Halves)

inductive Pc
  | spin
  | spinSema (D : ℕ)
  | find (r : RoutePc)
  | sema (op : SemaOp) (m : Sem) (s : SemaPc) (k : After)
  | check (x target : ℕ) (r : RoutePc)
  | readPattern (x target : ℕ)
  | probe (x target pattern : ℕ) (slots : List Slot)
  | test (x target pattern : ℕ) (loc : Slot) (_key : Key) (slots : List Slot)
  | claim (x target pattern : ℕ) (loc : Slot) (_key : Key) (slots : List Slot)
  | value (target : ℕ) (loc : Slot)
  | key (target : ℕ) (loc : Slot)
  | depth (x target : ℕ)
  | recheck (x target target_local_depth : ℕ) (r : RecheckPc)
  | release (target : ℕ)
  | split (target target_local_depth : ℕ)
  | update (u : Halves) (k : UpdatePc)
  | scan (target : ℕ) (slots : List Slot)
  | found (target : ℕ) (loc : Slot)

/-- A step goes on or returns; `Insert` returns nothing. -/
inductive Outcome
  | goto (pc : Pc)
  | ret (v : Option Value)

/-! ### The calls -/

namespace Call

def key : Call → Key
  | .insert key _ => key
  | .get key => key

def value : Call → Value
  | .insert _ value => value
  | .get _ => NONE

/-- `RETRY`: `Get` first waits until the directory is not suspended. -/
def retry : Call → Pc
  | .insert .. => .find .dir
  | .get _ => .spin

/-- `Get` takes the lock of the segment in the in-place build only. -/
def Locks (b : Build) : Call → Prop
  | .insert .. => True
  | .get _ => b = .inplace

instance (b : Build) (call : Call) : Decidable (call.Locks b) := by
  cases call <;> unfold Locks <;> infer_instance

/-- After the check of the entry. -/
def body (H : HashFuncs) (call : Call) (x target : ℕ) : Pc :=
  match call with
  | .insert .. => .readPattern x target
  | .get key => .scan target (windows H key)

/-- `Get` returns `v`. -/
def answer (b : Build) (target : ℕ) (v : Value) : Outcome :=
  match b with
  | .cow => .ret (some v)
  | .inplace => .goto (.sema .unlock (.seg target) .load (.answer v))

end Call

/-- Reading the way from `dir` to the entry of a hash: a step, or the index and the entry. -/
def RoutePc.next (st : CCEH) (f_hash : BitVec 64) : RoutePc → RoutePc ⊕ ℕ × ℕ
  | .dir => .inl (.depth st.dir)
  | .depth D => .inl (.segment (topBits f_hash (st.dirs D).depth))
  | .segment x => .inl (.entry x st.dir)
  | .entry x D => .inr (x, (st.dirs D).segment x)

/-- The first step of the check after `suspend()`. -/
def RecheckPc.start (b : Build) (target : ℕ) : RecheckPc :=
  match b with
  | .cow => .dir
  | .inplace => .level target

/-- After the directory update of `Insert`. -/
def Halves.finish (b : Build) (u : Halves) (call : Call) : Pc :=
  match b with
  | .cow => call.retry
  | .inplace => .update u .bump

def After.next (b : Build) (call : Call) : After → Bool → Outcome
  | .locked x target, ok => .goto (if ok then .check x target .dir else call.retry)
  | .retry, _ => .goto call.retry
  | .stored, _ => .ret none
  | .collide x target d, _ => .goto (.sema .suspend (.seg target) .load (.suspended x target d))
  | .suspended x target d, ok =>
    .goto (if ok then .recheck x target d (.start b target) else call.retry)
  | .answer v, _ => .ret (some v)
  | .double u, ok => .goto (.update u (if ok then .dir (.depth .double) else .level))
  | .normal u, ok => .goto (.update u (.dir (if ok then .depth .index else .lock)))
  | .updated u, _ => .goto (u.finish b call)

namespace Halves

variable (b : Build) (H : HashFuncs) (call : Call) (st : CCEH) (u : Halves)

/-- `dir` has been read: `D`. -/
def withDir (D : ℕ) : DirUse → Pc
  | .depth use => .update u (.depth use D)
  | .suspend => .sema .suspend (.dir D) .load (.double u)
  | .source x => .update u (.dir (.depth (.newDir x D)))
  | .copy x d _dir i => .update u (.copyTest x d _dir i D)
  | .lock => .sema .lock (.dir D) .load (.normal u)
  | .store begun w rest => .update u (.store D begun w rest)
  | .unlock => .sema .unlock (.dir D) .load (.updated u)

/-- The stores still to be made, then `unlock()`. -/
def storing (begun : Bool) : List Store → UpdatePc
  | [] => .dir .unlock
  | w :: rest => .dir (.store begun w rest)

/-- A depth has been read. -/
def withDepth (depth : ℕ) : DepthUse → UpdatePc
  | .compare local_depth => .dir (if local_depth = depth then .suspend else .lock)
  | .double => .dir (.source (topBits (H.f call.key) depth))
  | .newDir x d => .newDir x d (depth + 1)
  | .index => .dir (.depth (.buddy (topBits (H.f call.key) depth)))
  | .buddy x => .buddyLevel x depth
  | .stride x => storing false (strideStores b (2 ^ (depth - u.target_local_depth)) x u.s0 u.s1)

/-- The value that the copying loop stores at `j` of the new array, if it reads no entry. -/
def own (x j : ℕ) : Option ℕ :=
  if j / 2 = x then some (if j % 2 = 0 then u.s0 else u.s1) else none

/-- One step of the directory update. -/
def next : UpdatePc → CCEH × Pc
  | .level => (st, .update u (.dir (.depth (.compare (st.segs u.target).localDepth))))
  | .dir use => (st, u.withDir st.dir use)
  | .depth use D => (st, .update u (u.withDepth b H call (st.dirs D).depth use))
  | .newDir x d depth => (st.poolStore (.newDir depth), .update u (.dir (.copy x d st.ndir 0)))
  | .copyTest x d _dir i D =>
    (st, .update u (if i < (st.dirs D).capacity then .copyRead x d _dir (2 * i) else .publish _dir))
  | .copyRead x d _dir j =>
    (st, .update u (.copyStore x d _dir j ((u.own x j).getD ((st.dirs d).segment (j / 2)))))
  | .copyStore x d _dir j s =>
    (st.store (.newEntry _dir j s),
      .update u (if j % 2 = 0 then .copyRead x d _dir (j + 1) else .dir (.copy x d _dir (j / 2 + 1))))
  | .publish _dir => (st.store (.dirPtr _dir), u.finish b call)
  | .buddyLevel x depth =>
    (st, .update u (if depth = (st.segs u.target).localDepth + 1
      then storing false (buddyStores b x u.s0 u.s1) else .dir (.depth (.stride x))))
  | .store D _ w rest =>
    (st.store (match w with
      | .entry i s => .newEntry D i s
      | w => w), .update u (storing true rest))
  | .bump => (st.store (.localDepth u.s0), .release u.s0)

end Halves

/-- One step of a call. -/
def Pc.next (b : Build) (H : HashFuncs) (call : Call) (st : CCEH) : Pc → CCEH × Outcome
  | .spin => (st, .goto (.spinSema st.dir))
  | .spinSema D => (st, .goto (if (st.dirs D).sema < 0 then .spin else .find .dir))
  | .find r =>
    (st, .goto (match r.next st (H.f call.key) with
      | .inl r => .find r
      | .inr (x, target) =>
        if target = OID_NULL then call.retry
        else if call.Locks b then .sema .lock (.seg target) .load (.locked x target)
        else .check x target .dir))
  | .sema op m s k =>
    let r := semaStep op (st.sema m) s
    (st.setSem m r.1, match r.2 with
      | .goto s => .goto (.sema op m s k)
      | .ret ok => k.next b call ok)
  | .check x target r =>
    (st, .goto (match r.next st (H.f call.key) with
      | .inl r => .check x target r
      | .inr (_, entry) =>
        if target ≠ entry then .sema .unlock (.seg target) .load .retry else call.body H x target))
  | .readPattern x target =>
    (st, .goto (.probe x target (topBits (H.f call.key) (st.segs target).localDepth)
      (windows H call.key)))
  | .probe x target _ [] => (st, .goto (.depth x target))
  | .probe x target pattern (loc :: slots) =>
    (st, .goto (.test x target pattern loc ((st.segs target).bucket loc).key slots))
  | .test x target pattern loc _key slots =>
    (st, .goto (if reusable H (st.segs target) pattern loc then .claim x target pattern loc _key slots
      else .probe x target pattern slots))
  | .claim x target pattern loc _key slots =>
    if ((st.segs target).bucket loc).key = _key then
      (st.poolStore (.slotKey target loc SENTINEL), .goto (.value target loc))
    else (st, .goto (.probe x target pattern slots))
  | .value target loc =>
    (st.poolStore (.slotValue target loc call.value), .goto (.key target loc))
  | .key target loc =>
    (st.poolStore (.slotKey target loc call.key), .goto (.sema .unlock (.seg target) .load .stored))
  | .depth x target =>
    (st, .goto (.sema .unlock (.seg target) .load (.collide x target (st.segs target).localDepth)))
  | .recheck x target d .dir => (st, .goto (.recheck x target d (.entry st.dir)))
  | .recheck x target d (.entry D) =>
    (st, .goto (.recheck x target d (.level ((st.dirs D).segment x))))
  | .recheck _ target d (.level p) =>
    (st, .goto (if d ≠ (st.segs p).localDepth then .release target else .split target d))
  | .release target => (st.setSem (.seg target) 0, .goto call.retry)
  | .split target d =>
    let a := allocSplit b H st target
    (a.1, .goto (.update ⟨target, d, a.2.1, a.2.2⟩ .level))
  | .update u k =>
    let r := u.next b H call st k
    (r.1, .goto r.2)
  | .scan target [] => (st, Call.answer b target NONE)
  | .scan target (loc :: slots) =>
    (st, .goto (if ((st.segs target).bucket loc).key = call.key then .found target loc
      else .scan target slots))
  | .found target loc => (st, Call.answer b target ((st.segs target).bucket loc).value)

/-! ### Threads -/

/-- A thread: the call that it is in, what its last call returned, and for each `sema` how
often it holds the lock and whether its `suspend()` returned true and it has not stored
`sema = 0` since. -/
structure Worker where
  now : Option (Call × Pc)
  returned : Option Value
  held : Sem → ℕ
  owns : Sem → Bool

namespace Worker

def start : Worker := ⟨none, none, fun _ => 0, fun _ => false⟩

/-- The thread as a caller of one semaphore. -/
def caller (w : Worker) (m : Sem) : Caller where
  call := match w.now with
    | some (_, .sema op m' s _) => if m' = m then some (op, s) else none
    | _ => none
  returned := none
  held := w.held m
  owns := w.owns m

/-- What the step changes in the locks of its thread. -/
def note (w : Worker) (st : CCEH) : Pc → Worker
  | .sema op m s _ =>
    match (semaStep op (st.sema m) s).2 with
    | .goto _ => w
    | .ret ok => { w with
        held := Function.update w.held m ((w.caller m).ret op ok).held
        owns := Function.update w.owns m ((w.caller m).ret op ok).owns }
  | .release target => { w with owns := Function.update w.owns (.seg target) false }
  | _ => w

/-- After a step of `call`. -/
def continued (w : Worker) (call : Call) : Outcome → Worker
  | .goto pc => { w with now := some (call, pc) }
  | .ret v => { w with now := none, returned := v }

/-- The call under way takes a step. -/
def run (b : Build) (H : HashFuncs) (st : CCEH) (w : Worker) : Option (CCEH × Worker) :=
  w.now.map fun c =>
    let r := c.2.next b H c.1 st
    (r.1, (w.note st c.2).continued c.1 r.2)

/-- A thread between calls enters the next one. -/
def enter (w : Worker) (call : Call) : Option Worker :=
  match w.now with
  | none => some { w with now := some (call, call.retry) }
  | some _ => none

/-- The next step of a thread: it enters a call, or takes a step of the one that it is in. -/
def next {ι : Type*} (b : Build) (H : HashFuncs) (_ : ι) (choice : Option Call) (st : CCEH)
    (w : Worker) : Option (CCEH × Worker) :=
  match choice with
  | some call => (w.enter call).map fun w => (st, w)
  | none => w.run b H st

end Worker

end PmemStudy.Cceh
