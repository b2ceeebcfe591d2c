import PmemStudy.Cceh.Segment

/-!
# The CCEH table for one thread (CCEH-PMDK/src/CCEH.h, CCEH.cpp)

`insertPass` is one pass of `CCEH::Insert` from `RETRY:` to the next
`goto RETRY` or `return`. With a single thread a spin loop either falls
through at once or never ends.
-/

namespace PmemStudy.Cceh

def OID_NULL : ℕ := 0

structure Directory where
  segment : ℕ → ℕ
  sema : ℤ
  capacity : ℕ
  depth : ℕ

/-- The pool: segments and directories by address, the next address of each
that the allocator hands out, and the `dir` pointer of the root object. Memory
from `nseg` and `ndir` on is not initialised. -/
structure CCEH where
  segs : ℕ → Segment
  nseg : ℕ
  dirs : ℕ → Directory
  ndir : ℕ
  dir : ℕ

namespace CCEH

/-- `D_RO(dir)`. -/
def curDir (st : CCEH) : Directory := st.dirs st.dir

def setSeg (st : CCEH) (p : ℕ) (s : Segment) : CCEH :=
  { st with segs := Function.update st.segs p s }

def setDir (st : CCEH) (d : ℕ) (D : Directory) : CCEH :=
  { st with dirs := Function.update st.dirs d D }

@[simp] theorem setSeg_segs_self (st : CCEH) (p : ℕ) (s : Segment) :
    (st.setSeg p s).segs p = s := Function.update_self ..
theorem setSeg_segs_of_ne (st : CCEH) (p q : ℕ) (s : Segment) (h : q ≠ p) :
    (st.setSeg p s).segs q = st.segs q := Function.update_of_ne h ..
@[simp] theorem setSeg_dirs (st : CCEH) (p : ℕ) (s : Segment) :
    (st.setSeg p s).dirs = st.dirs := rfl
@[simp] theorem setSeg_dir (st : CCEH) (p : ℕ) (s : Segment) :
    (st.setSeg p s).dir = st.dir := rfl
@[simp] theorem setSeg_curDir (st : CCEH) (p : ℕ) (s : Segment) :
    (st.setSeg p s).curDir = st.curDir := rfl
@[simp] theorem setSeg_nseg (st : CCEH) (p : ℕ) (s : Segment) :
    (st.setSeg p s).nseg = st.nseg := rfl
@[simp] theorem setSeg_ndir (st : CCEH) (p : ℕ) (s : Segment) :
    (st.setSeg p s).ndir = st.ndir := rfl
@[simp] theorem setSeg_setSeg (st : CCEH) (p : ℕ) (s s' : Segment) :
    (st.setSeg p s).setSeg p s' = st.setSeg p s' := by
  simp only [setSeg, Function.update_idem]
@[simp] theorem setDir_segs (st : CCEH) (d : ℕ) (D : Directory) :
    (st.setDir d D).segs = st.segs := rfl
@[simp] theorem setDir_dir (st : CCEH) (d : ℕ) (D : Directory) :
    (st.setDir d D).dir = st.dir := rfl
@[simp] theorem setDir_dirs_self (st : CCEH) (d : ℕ) (D : Directory) :
    (st.setDir d D).dirs d = D := Function.update_self ..

end CCEH

/-! ### Semaphores of one thread -/

/-- How `suspend()` ends when no other thread runs. -/
inductive Wait where
  | refused
  | acquired
  | stuck

/-- `val = sema`; a negative value is refused, otherwise `sema` becomes -1 and the
thread waits for `-val - 1`, which nobody will store unless `val` is 0. -/
def suspendAlone (sema : ℤ) : Wait :=
  if sema < 0 then .refused else if sema = 0 then .acquired else .stuck

def Segment.withSema (s : Segment) (v : ℤ) : Segment := { s with sema := v }

@[simp] theorem Segment.withSema_bucket (s : Segment) (v : ℤ) :
    (s.withSema v).bucket = s.bucket := rfl
@[simp] theorem Segment.withSema_localDepth (s : Segment) (v : ℤ) :
    (s.withSema v).localDepth = s.localDepth := rfl
@[simp] theorem Segment.withSema_sema (s : Segment) (v : ℤ) : (s.withSema v).sema = v := rfl
@[simp] theorem Segment.withSema_withSema (s : Segment) (v w : ℤ) :
    (s.withSema v).withSema w = s.withSema w := rfl
@[simp] theorem Segment.withSema_same (s : Segment) : s.withSema s.sema = s := rfl

def CCEH.setSema (st : CCEH) (p : ℕ) (v : ℤ) : CCEH := st.setSeg p ((st.segs p).withSema v)

/-- `lock()` on a semaphore that is not negative, and `unlock()`. -/
def CCEH.lockSeg (st : CCEH) (p : ℕ) : CCEH := st.setSema p ((st.segs p).sema + 1)
def CCEH.unlockSeg (st : CCEH) (p : ℕ) : CCEH := st.setSema p ((st.segs p).sema - 1)

/-- The segment a hash is routed to. -/
def CCEH.route (st : CCEH) (f_hash : BitVec 64) : ℕ :=
  st.curDir.segment (topBits f_hash st.curDir.depth)

@[simp] theorem CCEH.setSema_segs_self (st : CCEH) (p : ℕ) (v : ℤ) :
    (st.setSema p v).segs p = (st.segs p).withSema v := Function.update_self ..
@[simp] theorem CCEH.setSema_curDir (st : CCEH) (p : ℕ) (v : ℤ) :
    (st.setSema p v).curDir = st.curDir := rfl
@[simp] theorem CCEH.setSema_setSema (st : CCEH) (p : ℕ) (v w : ℤ) :
    (st.setSema p v).setSema p w = st.setSema p w := by
  simp only [setSema, setSeg_segs_self, setSeg_setSeg, Segment.withSema_withSema]
theorem CCEH.setSema_same (st : CCEH) (p : ℕ) : st.setSema p (st.segs p).sema = st := by
  simp only [setSema, setSeg, Segment.withSema_same, Function.update_eq_self]

/-! ### Initialisation -/

/-- A pool without objects; its memory is arbitrary. -/
def freshPool (segs : ℕ → Segment) (dirs : ℕ → Directory) : CCEH := ⟨segs, 1, dirs, 0, 0⟩

/-- `initDirectory(_depth)`. -/
def Directory.initDirectory (D : Directory) (depth : ℕ) : Directory :=
  { D with depth := depth, capacity := 2 ^ depth, sema := 0 }

/-- Iteration `i` of the loop of `initCCEH`: allocate and initialise segment `i`. -/
def initEntry (depth i : ℕ) (st : CCEH) : CCEH :=
  { st with
    segs := Function.update st.segs st.nseg ((st.segs st.nseg).initSegment depth)
    nseg := st.nseg + 1
    dirs := Function.update st.dirs st.dir
      { st.curDir with segment := Function.update st.curDir.segment i st.nseg } }

/-- `initCCEH(pop, initCap)`. -/
def initCCEH (pool : CCEH) (initCap : ℕ) : CCEH :=
  let depth := Nat.log2 initCap
  Nat.fold (2 ^ depth) (fun i _ st => initEntry depth i st)
    { pool with
      dirs := Function.update pool.dirs pool.ndir ((pool.dirs pool.ndir).initDirectory depth)
      ndir := pool.ndir + 1
      dir := pool.ndir }

/-! ### Directory stores -/

/-- Stores that decide what a crash leaves of the directory. -/
inductive Store where
  | entry (i s : ℕ)
  | newEntry (d i s : ℕ)
  | dirPtr (d : ℕ)
  | localDepth (s : ℕ)
  deriving DecidableEq

def CCEH.store (st : CCEH) : Store → CCEH
  | .entry i s => st.setDir st.dir
      { st.curDir with segment := Function.update st.curDir.segment i s }
  | .newEntry d i s => st.setDir d
      { st.dirs d with segment := Function.update (st.dirs d).segment i s }
  | .dirPtr d => { st with dir := d }
  | .localDepth s => st.setSeg s { st.segs s with localDepth := (st.segs s).localDepth + 1 }

def CCEH.stores (st : CCEH) (l : List Store) : CCEH := l.foldl CCEH.store st

/-- Doubling loop: every entry of the old array goes to two entries of the new
one, entry `x` to the two halves. -/
def doublingStores (D : Directory) (d x s0 s1 : ℕ) : List Store :=
  (List.range D.capacity).flatMap fun i =>
    if i = x then [.newEntry d (2 * i) s0, .newEntry d (2 * i + 1) s1]
    else [.newEntry d (2 * i) (D.segment i), .newEntry d (2 * i + 1) (D.segment i)]

/-- Buddy pair, `dir->depth == target->local_depth + 1`. -/
def buddyStores (b : Build) (x s0 s1 : ℕ) : List Store :=
  if x % 2 = 0 then
    match b with
    | .cow => [.entry (x + 1) s1, .entry x s0]
    | .inplace => [.entry (x + 1) s1]
  else
    match b with
    | .cow => [.entry x s1, .entry (x - 1) s0]
    | .inplace => [.entry x s1]

/-- Stride block: upper half first, then (copy-on-write) the lower half. -/
def strideStores (b : Build) (stride x s0 s1 : ℕ) : List Store :=
  let loc := x - x % stride
  let upper := (List.range (stride / 2)).map fun i => Store.entry (loc + stride / 2 + i) s1
  match b with
  | .cow => upper ++ (List.range (stride / 2)).map fun i => Store.entry (loc + i) s0
  | .inplace => upper

/-- `D_RW(s[0])->local_depth++`, in place only. -/
def bumpStores (b : Build) (s0 : ℕ) : List Store :=
  match b with
  | .cow => []
  | .inplace => [.localDepth s0]

/-- All directory stores of one split in program order; `d` is the directory
that a doubling allocates. -/
def splitStores (b : Build) (D : Directory) (d : ℕ) (f_hash : BitVec 64)
    (target_local_depth s0 s1 : ℕ) : List Store :=
  let x := topBits f_hash D.depth
  if target_local_depth = D.depth then doublingStores D d x s0 s1 ++ [.dirPtr d] ++ bumpStores b s0
  else if D.depth = target_local_depth + 1 then buddyStores b x s0 s1 ++ bumpStores b s0
  else strideStores b (2 ^ (D.depth - target_local_depth)) x s0 s1 ++ bumpStores b s0

/-! ### Insert -/

/-- The test of the slot loops of `Insert`: an empty slot or a pair of another
prefix, and not a slot another thread is filling. -/
def reusable (H : HashFuncs) (s : Segment) (pattern : ℕ) (loc : Slot) : Bool :=
  decide ((topBits (H.f (s.bucket loc).key) s.localDepth ≠ pattern ∨ (s.bucket loc).key = INVALID) ∧
    (s.bucket loc).key ≠ SENTINEL)

def findSlot (H : HashFuncs) (s : Segment) (key : Key) : Option Slot :=
  (windows H key).find? (reusable H s (topBits (H.f key) s.localDepth))

/-- `Split(pop)`: the pool with the new segments, and the addresses `s[0]`, `s[1]`. -/
def allocSplit (b : Build) (H : HashFuncs) (st : CCEH) (target : ℕ) : CCEH × ℕ × ℕ :=
  match b with
  | .cow =>
    let halves := (st.segs target).split b H (st.segs st.nseg) (st.segs (st.nseg + 1))
    ({ (st.setSeg st.nseg halves.1).setSeg (st.nseg + 1) halves.2 with nseg := st.nseg + 2 },
      st.nseg, st.nseg + 1)
  | .inplace =>
    let halves := (st.segs target).split b H (st.segs target) (st.segs st.nseg)
    ({ st.setSeg st.nseg halves.2 with nseg := st.nseg + 1 }, target, st.nseg)

/-- `D_RW(s[0])->sema = 0` of the in-place build. -/
def releaseSplit (b : Build) (st : CCEH) (s0 : ℕ) : CCEH :=
  match b with
  | .cow => st
  | .inplace => st.setSema s0 0

/-- From `Split` to the first directory store: the pool, the stores that follow
and `s[0]`; `none` when a lock on the directory never comes free. The check
before `Split` has compared `target_local_depth` with `target->local_depth`. -/
def beforeStores (b : Build) (H : HashFuncs) (st : CCEH) (f_hash : BitVec 64) (target : ℕ) :
    Option (CCEH × List Store × ℕ) :=
  let a := allocSplit b H st target
  let st := a.1
  let D := st.curDir
  let l := splitStores b D st.ndir f_hash (st.segs target).localDepth a.2.1 a.2.2
  if (st.segs target).localDepth = D.depth then
    match suspendAlone D.sema with
    | .acquired =>
      let st := st.setDir st.dir { D with sema := -1 }
      some ({ st.setDir st.ndir ((st.dirs st.ndir).initDirectory (D.depth + 1)) with
        ndir := st.ndir + 1 }, l, a.2.1)
    | _ => none
  else if D.sema < 0 then none
  else some (st, l, a.2.1)

/-- From `Split` to the end of the directory update. -/
def splitTarget (b : Build) (H : HashFuncs) (st : CCEH) (f_hash : BitVec 64) (target : ℕ) :
    Option CCEH :=
  (beforeStores b H st f_hash target).map fun p => releaseSplit b (p.1.stores p.2.1) p.2.2

/-- Outcome of a pass: `return`, `goto RETRY`, or a loop without end. -/
inductive Pass where
  | done (st : CCEH)
  | again (st : CCEH)
  | spin

/-- The local depth that the check after `suspend()` reads. -/
def seenDepth (b : Build) (st : CCEH) (x target : ℕ) : ℕ :=
  match b with
  | .cow => (st.segs (st.curDir.segment x)).localDepth
  | .inplace => (st.segs target).localDepth

/-- After `COLLISION !!`: the lock has been given back, the segment is suspended
and split. `x` is the index read at `RETRY`. -/
def collide (b : Build) (H : HashFuncs) (st : CCEH) (f_hash : BitVec 64)
    (x target target_local_depth : ℕ) : Pass :=
  match suspendAlone (st.segs target).sema with
  | .refused => .again st
  | .stuck => .spin
  | .acquired =>
    let st := st.setSema target (-1)
    if target_local_depth ≠ seenDepth b st x target then .again (st.setSema target 0)
    else match splitTarget b H st f_hash target with
      | some st => .again st
      | none => .spin

/-- From the re-check of the entry on, with the lock of `target` held. -/
def insertLocked (b : Build) (H : HashFuncs) (st : CCEH) (key : Key) (value : Value)
    (x target : ℕ) : Pass :=
  if target ≠ st.route (H.f key) then .again (st.unlockSeg target)
  else match findSlot H (st.segs target) key with
    | some loc =>
      .done ((st.setSeg target ((st.segs target).setPair loc ⟨key, value⟩)).unlockSeg target)
    | none => collide b H (st.unlockSeg target) (H.f key) x target (st.segs target).localDepth

/-- One pass from `RETRY:`. -/
def insertPass (b : Build) (H : HashFuncs) (st : CCEH) (key : Key) (value : Value) : Pass :=
  let x := topBits (H.f key) st.curDir.depth
  let target := st.curDir.segment x
  if target = OID_NULL then .again st
  else if (st.segs target).sema < 0 then .again st
  else insertLocked b H (st.lockSeg target) key value x target

/-- `CCEH::Insert`, at most `fuel` passes. -/
def insert (b : Build) (H : HashFuncs) : ℕ → CCEH → Key → Value → Option CCEH
  | 0, _, _, _ => none
  | fuel + 1, st, key, value =>
    match insertPass b H st key value with
    | .done st => some st
    | .again st => insert b H fuel st key value
    | .spin => none

/-! ### Get -/

/-- The scan of both windows in `Get`. -/
def Segment.scan (H : HashFuncs) (s : Segment) (key : Key) : Option Slot :=
  (windows H key).find? fun loc => decide ((s.bucket loc).key = key)

/-- `CCEH::Get`; `none` when it waits for a semaphore that stays negative. The
in-place build takes and gives back the lock of the segment. -/
def get (b : Build) (H : HashFuncs) (st : CCEH) (key : Key) : Option Value :=
  if st.curDir.sema < 0 then none
  else
    let target := st.route (H.f key)
    if target = OID_NULL ∨ b = .inplace ∧ (st.segs target).sema < 0 then none
    else match (st.segs target).scan H key with
      | some loc => some ((st.segs target).bucket loc).value
      | none => some NONE

end PmemStudy.Cceh
