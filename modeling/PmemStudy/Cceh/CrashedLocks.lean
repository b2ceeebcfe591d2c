import PmemStudy.Lib.Trace
import PmemStudy.Cceh.CrashRecovery

/-!
# The locks after a crash

The semaphores lie in the pool with the data. `passStores` lists what one pass of
`Insert` stores, the semaphores included, and a crash keeps a prefix of it.
`Recovery` repairs directory entries and leaves every `sema` as it finds it.
-/

namespace PmemStudy.Cceh
open PmemStudy.AlignedBlocks PmemStudy.Trace

/-! ### The stores of a pass -/

/-- The stores that a pass of the copy-on-write `Insert` makes to the pool. -/
inductive PoolStore where
  | segSema (p : ℕ) (v : ℤ)
  | dirSema (d : ℕ) (v : ℤ)
  | slotKey (p : ℕ) (loc : Slot) (key : Key)
  | slotValue (p : ℕ) (loc : Slot) (value : Value)
  | allocSegs (n : ℕ)
  | segment (p : ℕ) (s : Segment)
  | newDir (depth : ℕ)
  | dir (s : Store)

namespace CCEH

def setDirSema (st : CCEH) (d : ℕ) (v : ℤ) : CCEH := st.setDir d { st.dirs d with sema := v }

def poolStore (st : CCEH) : PoolStore → CCEH
  | .segSema p v => st.setSema p v
  | .dirSema d v => st.setDirSema d v
  | .slotKey p loc key =>
    st.setSeg p ((st.segs p).setPair loc ⟨key, ((st.segs p).bucket loc).value⟩)
  | .slotValue p loc value =>
    st.setSeg p ((st.segs p).setPair loc ⟨((st.segs p).bucket loc).key, value⟩)
  | .allocSegs n => { st with nseg := st.nseg + n }
  | .segment p s => st.setSeg p s
  | .newDir depth =>
    { st.setDir st.ndir ((st.dirs st.ndir).initDirectory depth) with ndir := st.ndir + 1 }
  | .dir s => st.store s

def poolStores (st : CCEH) (l : List PoolStore) : CCEH := l.foldl poolStore st

theorem poolStores_append (st : CCEH) (l l' : List PoolStore) :
    st.poolStores (l ++ l') = (st.poolStores l).poolStores l' := List.foldl_append

theorem poolStores_dir (st : CCEH) (l : List Store) :
    st.poolStores (l.map .dir) = st.stores l := List.foldl_map

end CCEH

/-- The halves after `k` rounds of the loop of `Split`. -/
def halvesAfter (H : HashFuncs) (src raw0 raw1 : Segment) (k : ℕ) : Segment × Segment :=
  Nat.fold k (fun i _ halves =>
      if hi : i < kNumSlot then Segment.copyBoth H src ⟨i, hi⟩ halves else halves)
    (raw0.initSegment (src.localDepth + 1), raw1.initSegment (src.localDepth + 1))

/-- `Split`: two segments are allocated, cleared and filled. -/
def splitCopies (H : HashFuncs) (st : CCEH) (target : ℕ) (k : ℕ) : List PoolStore :=
  (List.range k).flatMap fun i =>
    let halves := halvesAfter H (st.segs target) (st.segs st.nseg) (st.segs (st.nseg + 1)) i
    [.segment st.nseg halves.1, .segment (st.nseg + 1) halves.2]

/-- From `DIR_RETRY` to the next `goto RETRY`. -/
def updateStores (st : CCEH) (f_hash : BitVec 64) : List PoolStore :=
  if (st.segs (st.route f_hash)).localDepth = st.curDir.depth then
    [.dirSema st.dir (-1), .newDir (st.curDir.depth + 1)] ++ (routeStores .cow st f_hash).map .dir
  else
    .dirSema st.dir (st.curDir.sema + 1) :: (routeStores .cow st f_hash).map .dir ++
      [.dirSema st.dir st.curDir.sema]

/-- All stores of a pass that starts with no lock held. -/
def passStores (H : HashFuncs) (st : CCEH) (key : Key) (value : Value) : List PoolStore :=
  let target := st.route (H.f key)
  let sema := (st.segs target).sema
  match findSlot H (st.segs target) key with
  | some loc =>
    [.segSema target (sema + 1), .slotKey target loc SENTINEL, .slotValue target loc value,
      .slotKey target loc key, .segSema target sema]
  | none =>
    [.segSema target (sema + 1), .segSema target sema, .segSema target (-1)] ++
      (.allocSegs 2 :: splitCopies H (st.setSema target (-1)) target (kNumSlot + 1)) ++
      updateStores st (H.f key)

/-- `Init` on an existing pool: `crashed` is set by `initCCEH` and stays so. -/
def CCEH.reopen (st : CCEH) : CCEH := st.recovery

/-- The directory and the segments reachable from it are not locked. -/
def LocksFree (st : CCEH) : Prop :=
  st.curDir.sema = 0 ∧ ∀ i < st.curDir.capacity, (st.segs (st.curDir.segment i)).sema = 0

/-- A crash after `n` stores finds the call between taking and giving back its locks,
unless it falls before the first lock, after the pass, or between the `unlock()` and
the `suspend()` of a full segment. -/
def NothingHeld (H : HashFuncs) (st : CCEH) (key : Key) (value : Value) (n : ℕ) : Prop :=
  n = 0 ∨ (passStores H st key value).length ≤ n ∨
    (findSlot H (st.segs (st.route (H.f key))) key = none ∧ n = 2)

/-! ### The whole pass -/

theorem halvesAfter_all (H : HashFuncs) (src raw0 raw1 : Segment) :
    halvesAfter H src raw0 raw1 kNumSlot = src.split .cow H raw0 raw1 := by
  rw [halvesAfter, Segment.split]
  congr 1
  funext i hi halves
  rw [dif_pos hi]

theorem splitCopies_run (H : HashFuncs) (st : CCEH) (target k : ℕ) :
    st.poolStores (.allocSegs 2 :: splitCopies H st target (k + 1)) =
      let halves := halvesAfter H (st.segs target) (st.segs st.nseg) (st.segs (st.nseg + 1)) k
      { (st.setSeg st.nseg halves.1).setSeg (st.nseg + 1) halves.2 with nseg := st.nseg + 2 } := by
  induction k with
  | zero => rfl
  | succ k ih =>
    have hsplit : splitCopies H st target (k + 1 + 1) = splitCopies H st target (k + 1) ++
        (let halves := halvesAfter H (st.segs target) (st.segs st.nseg) (st.segs (st.nseg + 1)) (k + 1)
        [.segment st.nseg halves.1, .segment (st.nseg + 1) halves.2]) := by
      rw [splitCopies, List.range_succ, List.flatMap_append, List.flatMap_singleton, splitCopies]
    rw [hsplit, ← List.cons_append, CCEH.poolStores_append, ih]
    have hne : st.nseg ≠ st.nseg + 1 := by omega
    simp only [CCEH.poolStores, List.foldl_cons, List.foldl_nil, CCEH.poolStore, CCEH.setSeg]
    rw [Function.update_comm hne, Function.update_idem, Function.update_comm hne.symm,
      Function.update_idem]

section Pass

variable {H : HashFuncs} {st : CCEH} {f_hash : BitVec 64}

theorem length_splitCopies (H : HashFuncs) (st : CCEH) (target k : ℕ) :
    (splitCopies H st target k).length = 2 * k := by
  simp [splitCopies, Nat.mul_comm]

theorem splitCopies_allocSplit (H : HashFuncs) (st : CCEH) (target : ℕ) :
    st.poolStores (.allocSegs 2 :: splitCopies H st target (kNumSlot + 1)) =
      (allocSplit .cow H st target).1 := by
  rw [splitCopies_run, halvesAfter_all]
  rfl

/-- Entry stores do not touch the semaphore of the directory. -/
theorem stores_setDirSema (st : CCEH) (l : List Store) (v : ℤ) (h : ∀ e ∈ l, ∃ i s, e = .entry i s) :
    (st.setDirSema st.dir v).stores l = (st.stores l).setDirSema st.dir v := by
  induction l generalizing st with
  | nil => rfl
  | cons e l ih =>
    obtain ⟨i, s, rfl⟩ := h e List.mem_cons_self
    have hcomm : (st.setDirSema st.dir v).store (.entry i s)
        = (st.store (.entry i s)).setDirSema st.dir v := by
      simp only [CCEH.store, CCEH.setDirSema, CCEH.setDir, CCEH.curDir, Function.update_self,
        Function.update_idem]
    have hdir : (st.store (.entry i s)).dir = st.dir := rfl
    show ((st.setDirSema st.dir v).store (.entry i s)).stores l
      = ((st.store (.entry i s)).stores l).setDirSema st.dir v
    rw [hcomm, ← hdir]
    exact ih _ fun e he => h e (List.mem_cons_of_mem _ he)

theorem routeStores_entry (hl : (st.segs (st.route f_hash)).localDepth ≠ st.curDir.depth) :
    ∀ e ∈ routeStores .cow st f_hash, ∃ i s, e = .entry i s := by
  intro e he
  rw [routeStores, splitStores] at he
  simp only [if_neg hl] at he
  split at he
  · simp only [buddyStores, bumpStores, List.append_nil] at he
    split at he <;> simp only [List.mem_cons, List.not_mem_nil, or_false] at he <;>
      rcases he with rfl | rfl <;> exact ⟨_, _, rfl⟩
  · simp only [strideStores, bumpStores, List.append_nil, List.mem_append, List.mem_map] at he
    rcases he with ⟨i, _, rfl⟩ | ⟨i, _, rfl⟩ <;> exact ⟨_, _, rfl⟩

theorem routeStores_double (hl : (st.segs (st.route f_hash)).localDepth = st.curDir.depth) :
    routeStores .cow st f_hash = doublingStores st.curDir st.ndir (topBits f_hash st.curDir.depth)
      (st.half .cow (st.route f_hash) false) (st.half .cow (st.route f_hash) true) ++
        [.dirPtr st.ndir] := by
  rw [routeStores, splitStores]
  simp only [if_pos hl, bumpStores, List.append_nil]

theorem found_run {key : Key} {value : Value} {loc : Slot} (t : ℕ) :
    st.poolStores [.segSema t ((st.segs t).sema + 1), .slotKey t loc SENTINEL,
        .slotValue t loc value, .slotKey t loc key, .segSema t (st.segs t).sema] =
      st.setSeg t ((st.segs t).setPair loc ⟨key, value⟩) := by
  simp only [CCEH.poolStores, List.foldl_cons, List.foldl_nil, CCEH.poolStore, CCEH.setSema,
    CCEH.setSeg_segs_self, CCEH.setSeg_setSeg, Segment.setPair, Segment.withSema,
    Function.update_self, Function.update_idem]

/-- From `DIR_RETRY` on, after the copies. -/
theorem updateStores_run (hr : Rest st) (hd : st.curDir.depth ≤ 63) :
    splitTarget .cow H (st.setSema (st.route f_hash) (-1)) f_hash (st.route f_hash) =
      some ((allocSplit .cow H (st.setSema (st.route f_hash) (-1)) (st.route f_hash)).1.poolStores
        (updateStores st f_hash)) := by
  have hx := route_index_lt st f_hash (by omega)
  have ht : st.route f_hash < st.nseg := (hr.allocated _ hx).2
  have hsema := hr.dir_sema
  obtain ⟨hptr, ha⟩ := allocSplit_spec .cow H (st.setSema (st.route f_hash) (-1)) (st.route f_hash)
  generalize hadef : allocSplit .cow H (st.setSema (st.route f_hash) (-1)) (st.route f_hash) = a at *
  obtain ⟨a, s0, s1⟩ := a
  obtain ⟨hs0, hs1⟩ := Prod.mk.inj hptr
  dsimp only at ha hs0 hs1 ⊢
  have hdir : a.dir = st.dir := ha.dir
  have hndir : a.ndir = st.ndir := ha.ndir
  have hcur : a.curDir = st.curDir := by
    rw [CCEH.curDir, ha.dirs, ha.dir]
    rfl
  have hld : (a.segs (st.route f_hash)).localDepth = (st.segs (st.route f_hash)).localDepth := by
    rw [ha.older _ ht, CCEH.setSema_segs_self]
    rfl
  have hroute : routeStores .cow st f_hash = splitStores .cow st.curDir st.ndir f_hash
      (st.segs (st.route f_hash)).localDepth s0 s1 := by
    rw [routeStores, hs0, hs1]
    rfl
  rw [splitTarget]
  simp only [beforeStores, hadef, hcur, hld, hndir]
  by_cases hl : (st.segs (st.route f_hash)).localDepth = st.curDir.depth
  · have hacq : suspendAlone st.curDir.sema = .acquired := by
      rw [hsema]
      rfl
    simp only [if_pos hl, hacq, Option.map_some, releaseSplit, updateStores]
    rw [CCEH.poolStores_append, CCEH.poolStores_dir, hroute]
    have hopen : a.poolStores [.dirSema st.dir (-1), .newDir (st.curDir.depth + 1)] =
        { (a.setDir a.dir { st.curDir with sema := -1 }).setDir a.ndir
            (((a.setDir a.dir { st.curDir with sema := -1 }).dirs a.ndir).initDirectory
              (st.curDir.depth + 1)) with ndir := a.ndir + 1 } := by
      rw [← hcur, ← hdir]
      rfl
    rw [hopen]
    rfl
  · have hneg : ¬ st.curDir.sema < 0 := by omega
    simp only [if_neg hl, if_neg hneg, Option.map_some, releaseSplit, updateStores]
    have hall : a.poolStores (.dirSema st.dir (st.curDir.sema + 1) ::
        (routeStores .cow st f_hash).map .dir ++ [.dirSema st.dir st.curDir.sema]) =
        ((a.setDirSema a.dir (st.curDir.sema + 1)).stores (routeStores .cow st f_hash)).setDirSema
          a.dir st.curDir.sema := by
      rw [← hdir, ← CCEH.poolStores_dir]
      simp only [CCEH.poolStores, List.foldl_append, List.foldl_cons, List.foldl_nil,
        CCEH.poolStore]
    have hback := stores_setDirSema (a.setDirSema a.dir (st.curDir.sema + 1)) _ st.curDir.sema
      (routeStores_entry hl)
    have hsame : (a.setDirSema a.dir (st.curDir.sema + 1)).setDirSema a.dir st.curDir.sema = a := by
      rw [← hcur]
      simp only [CCEH.setDirSema, CCEH.setDir, CCEH.curDir, Function.update_self,
        Function.update_idem, Function.update_eq_self]
    rw [show (a.setDirSema a.dir (st.curDir.sema + 1)).dir = a.dir from rfl, hsame] at hback
    rw [hall, ← hback, hroute]

/-- A pass is the list of its stores. -/
theorem passStores_insertPass (hr : Rest st) (hd : st.curDir.depth ≤ 63) (key : Key)
    (value : Value) :
    insertPass .cow H st key value =
      if (findSlot H (st.segs (st.route (H.f key))) key).isSome then
        .done (st.poolStores (passStores H st key value))
      else .again (st.poolStores (passStores H st key value)) := by
  cases hf : findSlot H (st.segs (st.route (H.f key))) key with
  | some loc =>
    rw [insertPass_found .cow H st key value hr (by omega) loc hf]
    simp only [passStores, hf, Option.isSome_some, if_true, found_run, CCEH.put]
  | none =>
    have hlocks : st.poolStores [.segSema (st.route (H.f key)) ((st.segs (st.route (H.f key))).sema + 1),
        .segSema (st.route (H.f key)) (st.segs (st.route (H.f key))).sema,
        .segSema (st.route (H.f key)) (-1)] = st.setSema (st.route (H.f key)) (-1) := by
      simp only [CCEH.poolStores, List.foldl_cons, List.foldl_nil, CCEH.poolStore,
        CCEH.setSema_setSema]
    rw [insertPass_split .cow H st key value hr (by omega) _ hf (updateStores_run hr hd)]
    simp only [passStores, hf, Option.isSome_none, Bool.false_eq_true, if_false]
    rw [CCEH.poolStores_append, CCEH.poolStores_append, hlocks, splitCopies_allocSplit]

/-! ### What a crash finds -/

/-- The segment that the key is routed to is locked or suspended; the directory is as
before. -/
structure SegHeld (st : CCEH) (f_hash : BitVec 64) (X : CCEH) : Prop where
  dir : X.dir = st.dir
  ndir : X.ndir = st.ndir
  segment : X.curDir.segment = st.curDir.segment
  depth : X.curDir.depth = st.curDir.depth
  capacity : X.curDir.capacity = st.curDir.capacity
  localDepth : ∀ p < st.nseg, (X.segs p).localDepth = (st.segs p).localDepth
  held : (X.segs (st.route f_hash)).sema ≠ 0

/-- The directory is locked or suspended. -/
structure DirHeld (st : CCEH) (X : CCEH) : Prop where
  dir : X.dir = st.dir
  dir_lt : X.dir < X.ndir
  held : X.curDir.sema ≠ 0

theorem AtRest.locksFree (h : AtRest st) : LocksFree st.reopen := by
  rw [CCEH.reopen, h.consistent.recovery_eq]
  refine ⟨h.rest.dir_sema, fun i hi => h.rest.seg_sema i ?_⟩
  rwa [h.consistent.capacity] at hi

theorem SegHeld.not_locksFree {X : CCEH} (hX : SegHeld st f_hash X) (h : AtRest st)
    (hd : st.curDir.depth ≤ 63) : ¬ LocksFree X.reopen := by
  have hx := route_index_lt st f_hash (by omega)
  have hcons : Consistent X := by
    refine ⟨by rw [hX.capacity, hX.depth, h.consistent.capacity], ?_⟩
    rw [hX.depth]
    exact h.consistent.blocked.congr (fun i _ => by rw [hX.segment])
      fun i hi => hX.localDepth _ (h.rest.allocated i hi).2
  rw [CCEH.reopen, hcons.recovery_eq]
  rintro ⟨_, hfree⟩
  have := hfree (topBits f_hash st.curDir.depth) (by rw [hX.capacity, h.consistent.capacity]; exact hx)
  rw [hX.segment] at this
  exact hX.held this

theorem DirHeld.not_locksFree {X : CCEH} (hX : DirHeld st X) : ¬ LocksFree X.reopen := by
  rintro ⟨hsema, _⟩
  rw [CCEH.reopen, X.recovery_curDir] at hsema
  exact hX.held hsema

theorem segHeld_sema (st : CCEH) (f_hash : BitVec 64) {v : ℤ} (hv : v ≠ 0) :
    SegHeld st f_hash (st.setSema (st.route f_hash) v) := by
  refine ⟨rfl, rfl, rfl, rfl, rfl, ?_, ?_⟩
  · intro p _
    by_cases hp : p = st.route f_hash
    · rw [hp, CCEH.setSema_segs_self]
      rfl
    · rw [CCEH.setSema, CCEH.setSeg_segs_of_ne _ _ _ _ hp]
  · rw [CCEH.setSema_segs_self]
    exact hv

/-- The stores made while the segment is locked or suspended. -/
def KeepsSeg (st : CCEH) (f_hash : BitVec 64) : PoolStore → Prop
  | .slotKey p _ _ => p = st.route f_hash
  | .slotValue p _ _ => p = st.route f_hash
  | .allocSegs _ => True
  | .segment p _ => st.nseg ≤ p
  | _ => False

theorem SegHeld.setSeg {X : CCEH} (h : SegHeld st f_hash X) {p : ℕ} {s : Segment}
    (hp : st.nseg ≤ p ∨ s.localDepth = (X.segs p).localDepth)
    (hs : p = st.route f_hash → s.sema ≠ 0) : SegHeld st f_hash (X.setSeg p s) := by
  refine ⟨h.dir, h.ndir, h.segment, h.depth, h.capacity, ?_, ?_⟩
  · intro q hq
    by_cases hqp : q = p
    · subst q
      rw [CCEH.setSeg_segs_self]
      rcases hp with hp | hp
      · omega
      · rw [hp]
        exact h.localDepth p hq
    · rw [CCEH.setSeg_segs_of_ne _ _ _ _ hqp]
      exact h.localDepth q hq
  · by_cases hrp : st.route f_hash = p
    · rw [hrp, CCEH.setSeg_segs_self]
      exact hs hrp.symm
    · rw [CCEH.setSeg_segs_of_ne _ _ _ _ hrp]
      exact h.held

theorem SegHeld.poolStore {X : CCEH} (h : SegHeld st f_hash X) (ht : st.route f_hash < st.nseg)
    {a : PoolStore} (ha : KeepsSeg st f_hash a) : SegHeld st f_hash (X.poolStore a) := by
  cases a with
  | slotKey p loc key =>
    refine h.setSeg (Or.inr rfl) fun hp => ?_
    rw [Segment.setPair_sema, hp]
    exact h.held
  | slotValue p loc value =>
    refine h.setSeg (Or.inr rfl) fun hp => ?_
    rw [Segment.setPair_sema, hp]
    exact h.held
  | allocSegs n => exact ⟨h.dir, h.ndir, h.segment, h.depth, h.capacity, h.localDepth, h.held⟩
  | segment p s =>
    have hp : st.nseg ≤ p := ha
    exact h.setSeg (Or.inl hp) fun hpr => by omega
  | segSema p v => exact ha.elim
  | dirSema d v => exact ha.elim
  | newDir depth => exact ha.elim
  | dir s => exact ha.elim

/-- The stores made while the directory is locked or suspended. -/
def KeepsDir (st : CCEH) : PoolStore → Prop
  | .newDir _ => True
  | .dir (.entry _ _) => True
  | .dir (.newEntry d _ _) => d ≠ st.dir
  | _ => False

theorem DirHeld.poolStore {X : CCEH} (h : DirHeld st X) {a : PoolStore} (ha : KeepsDir st a) :
    DirHeld st (X.poolStore a) := by
  have hlt := h.dir_lt
  cases a with
  | newDir depth =>
    refine ⟨h.dir, Nat.lt_succ_of_lt hlt, ?_⟩
    show (Function.update X.dirs X.ndir _ X.dir).sema ≠ 0
    rw [Function.update_of_ne (by omega)]
    exact h.held
  | dir s =>
    cases s with
    | entry i s =>
      refine ⟨h.dir, hlt, ?_⟩
      show (Function.update X.dirs X.dir _ X.dir).sema ≠ 0
      rw [Function.update_self]
      exact h.held
    | newEntry d i s =>
      have hd : d ≠ st.dir := ha
      refine ⟨h.dir, hlt, ?_⟩
      show (Function.update X.dirs d _ X.dir).sema ≠ 0
      rw [Function.update_of_ne (by rw [h.dir]; exact hd.symm)]
      exact h.held
    | dirPtr d => exact ha.elim
    | localDepth p => exact ha.elim
  | slotKey p loc key => exact ha.elim
  | slotValue p loc value => exact ha.elim
  | allocSegs n => exact ha.elim
  | segment p s => exact ha.elim
  | segSema p v => exact ha.elim
  | dirSema d v => exact ha.elim

theorem SegHeld.dirSema {X : CCEH} (h : SegHeld st f_hash X) (hlt : st.dir < st.ndir) {v : ℤ}
    (hv : v ≠ 0) : DirHeld st (X.poolStore (.dirSema st.dir v)) := by
  refine ⟨h.dir, ?_, ?_⟩
  · show X.dir < X.ndir
    rw [h.dir, h.ndir]
    exact hlt
  · rw [← h.dir]
    show (CCEH.curDir (CCEH.setDir _ _ _)).sema ≠ 0
    rw [CCEH.setDir_curDir]
    exact hv

/-- The update of the directory: a lock on it is taken first, and the last store gives it
back or publishes a directory without lock. -/
theorem updateStores_shape (h : AtRest st) :
    ∃ v l last, updateStores st f_hash = .dirSema st.dir v :: l ++ [last] ∧ v ≠ 0 ∧
      ∀ a ∈ l, KeepsDir st a := by
  have hsema := h.rest.dir_sema
  by_cases hl : (st.segs (st.route f_hash)).localDepth = st.curDir.depth
  · refine ⟨-1, .newDir (st.curDir.depth + 1) :: (doublingStores st.curDir st.ndir
      (topBits f_hash st.curDir.depth) (st.half .cow (st.route f_hash) false)
      (st.half .cow (st.route f_hash) true)).map .dir, .dir (.dirPtr st.ndir), ?_, by decide, ?_⟩
    · rw [updateStores, if_pos hl, routeStores_double hl, List.map_append]
      simp
    · intro a ha
      rcases List.mem_cons.mp ha with rfl | ha
      · trivial
      · obtain ⟨e, he, rfl⟩ := List.mem_map.mp ha
        obtain ⟨i, s, rfl⟩ := doublingStores_newEntry _ _ _ _ _ e he
        exact h.rest.dir_lt.ne'
  · refine ⟨st.curDir.sema + 1, (routeStores .cow st f_hash).map .dir,
      .dirSema st.dir st.curDir.sema, ?_, by omega, ?_⟩
    · rw [updateStores, if_neg hl]
    · intro a ha
      obtain ⟨e, he, rfl⟩ := List.mem_map.mp ha
      obtain ⟨i, s, rfl⟩ := routeStores_entry hl e he
      trivial

/-- From the suspension of the segment up to the last store of the pass, the segment or
the directory is not free. -/
theorem split_held (h : AtRest st) (hd : st.curDir.depth ≤ 63) :
    ∃ l last, (.allocSegs 2 :: splitCopies H (st.setSema (st.route f_hash) (-1)) (st.route f_hash)
        (kNumSlot + 1)) ++ updateStores st f_hash = l ++ [last] ∧
      Always CCEH.poolStore (fun X => SegHeld st f_hash X ∨ DirHeld st X)
        (st.setSema (st.route f_hash) (-1)) l := by
  have ht : st.route f_hash < st.nseg :=
    (h.rest.allocated _ (route_index_lt st f_hash (by omega))).2
  obtain ⟨v, l, last, hupdate, hv, hl⟩ : ∃ v l last, updateStores st f_hash = _ ∧ _ :=
    updateStores_shape h
  have hcopies : Always CCEH.poolStore (SegHeld st f_hash) (st.setSema (st.route f_hash) (-1))
      (.allocSegs 2 :: splitCopies H (st.setSema (st.route f_hash) (-1)) (st.route f_hash)
        (kNumSlot + 1)) := by
    refine always_of_kept (segHeld_sema st f_hash (by decide)) fun a ha X hX => hX.poolStore ht ?_
    rcases List.mem_cons.mp ha with rfl | ha
    · trivial
    · obtain ⟨i, _, hi⟩ := List.mem_flatMap.mp ha
      simp only [List.mem_cons, List.not_mem_nil, or_false] at hi
      rcases hi with rfl | rfl
      · exact le_refl st.nseg
      · exact Nat.le_succ st.nseg
  refine ⟨_, last, by rw [hupdate, ← List.append_assoc], ?_⟩
  refine always_append.mpr ⟨hcopies.mono fun X hX => Or.inl hX, always_cons.mpr ⟨Or.inl hcopies.last, ?_⟩⟩
  exact (always_of_kept (hcopies.last.dirSema h.rest.dir_lt hv) fun a ha X hX =>
    hX.poolStore (hl a ha)).mono fun X hX => Or.inr hX

/-- A pass that finds a slot holds the segment in between. -/
theorem slot_pass_held (h : AtRest st) (hd : st.curDir.depth ≤ 63) {key : Key} (value : Value)
    {loc : Slot} (hf : findSlot H (st.segs (st.route (H.f key))) key = some loc) {m : ℕ}
    (hm : m + 1 < (passStores H st key value).length) :
    ¬ LocksFree (st.poolStores ((passStores H st key value).take (m + 1))).reopen := by
  have ht : st.route (H.f key) < st.nseg :=
    (h.rest.allocated _ (route_index_lt st (H.f key) (by omega))).2
  have hsema := h.rest.seg_sema _ (route_index_lt st (H.f key) (by omega))
  change (st.segs (st.route (H.f key))).sema = 0 at hsema
  have hpass : passStores H st key value =
      .segSema (st.route (H.f key)) ((st.segs (st.route (H.f key))).sema + 1) ::
        ([.slotKey (st.route (H.f key)) loc SENTINEL, .slotValue (st.route (H.f key)) loc value,
          .slotKey (st.route (H.f key)) loc key] ++
        [.segSema (st.route (H.f key)) (st.segs (st.route (H.f key))).sema]) := by
    simp only [passStores, hf, List.cons_append, List.nil_append]
  have hheld : Always CCEH.poolStore (SegHeld st (H.f key))
      (st.poolStore (.segSema (st.route (H.f key)) ((st.segs (st.route (H.f key))).sema + 1)))
      [.slotKey (st.route (H.f key)) loc SENTINEL, .slotValue (st.route (H.f key)) loc value,
        .slotKey (st.route (H.f key)) loc key] := by
    refine always_of_kept (segHeld_sema st (H.f key) (by omega)) fun a ha X hX =>
      hX.poolStore ht ?_
    simp only [List.mem_cons, List.not_mem_nil, or_false] at ha
    rcases ha with rfl | rfl | rfl <;> rfl
  have hm3 : m ≤ 3 := by
    rw [hpass] at hm
    simp only [List.length_cons, List.length_append, List.length_nil] at hm
    omega
  rw [hpass, List.take_succ_cons, List.take_append_of_le_length (by simpa using hm3)]
  exact (hheld m).not_locksFree h hd

/-- A pass that splits holds nothing after its second store only. -/
theorem split_pass_free_iff (h : AtRest st) (hd : st.curDir.depth ≤ 63) {key : Key} (value : Value)
    (hf : findSlot H (st.segs (st.route (H.f key))) key = none) {m : ℕ}
    (hm : m + 1 < (passStores H st key value).length) :
    LocksFree (st.poolStores ((passStores H st key value).take (m + 1))).reopen ↔ m = 1 := by
  have hsema := h.rest.seg_sema _ (route_index_lt st (H.f key) (by omega))
  change (st.segs (st.route (H.f key))).sema = 0 at hsema
  obtain ⟨l, last, hsplit, hheld⟩ : ∃ l last, (.allocSegs 2 :: splitCopies H
      (st.setSema (st.route (H.f key)) (-1)) (st.route (H.f key)) (kNumSlot + 1)) ++
      updateStores st (H.f key) = l ++ [last] ∧ Always CCEH.poolStore
        (fun X => SegHeld st (H.f key) X ∨ DirHeld st X)
        (st.setSema (st.route (H.f key)) (-1)) l := split_held h hd
  have hpass : passStores H st key value =
      .segSema (st.route (H.f key)) ((st.segs (st.route (H.f key))).sema + 1) ::
      .segSema (st.route (H.f key)) (st.segs (st.route (H.f key))).sema ::
      .segSema (st.route (H.f key)) (-1) :: (l ++ [last]) := by
    rw [← hsplit]
    simp only [passStores, hf, List.cons_append, List.nil_append]
  match m, hm with
  | 0, _ =>
    rw [hpass]
    exact iff_of_false (SegHeld.not_locksFree (segHeld_sema st (H.f key) (by omega)) h hd) (by decide)
  | 1, _ =>
    have hsame : st.poolStores ((passStores H st key value).take 2) = st := by
      rw [hpass]
      show (st.setSema _ _).setSema _ _ = st
      rw [CCEH.setSema_setSema, CCEH.setSema_same]
    rw [hsame]
    exact iff_of_true h.locksFree rfl
  | k + 2, hm =>
    have hk : k ≤ l.length := by
      rw [hpass] at hm
      simp only [List.length_cons, List.length_append, List.length_nil] at hm
      omega
    have himage : st.poolStores ((passStores H st key value).take (k + 2 + 1)) =
        (l.take k).foldl CCEH.poolStore (st.setSema (st.route (H.f key)) (-1)) := by
      rw [hpass, List.take_succ_cons, List.take_succ_cons, List.take_succ_cons,
        List.take_append_of_le_length hk]
      show List.foldl _ (((st.setSema _ _).setSema _ _).setSema _ _) _ = _
      rw [CCEH.setSema_setSema, CCEH.setSema_setSema]
    rw [himage]
    refine iff_of_false ?_ (by omega)
    rcases hheld k with hX | hX
    · exact hX.not_locksFree h hd
    · exact hX.not_locksFree

/-- After a crash in a pass `Recovery` leaves no lock exactly when the pass held none. -/
theorem pass_locksFree_iff (h : AtRest st) (hd : st.curDir.depth ≤ 63) (key : Key) (value : Value)
    (hend : AtRest (st.poolStores (passStores H st key value))) (n : ℕ) :
    LocksFree (st.poolStores ((passStores H st key value).take n)).reopen ↔
      NothingHeld H st key value n := by
  rcases Nat.lt_or_ge n (passStores H st key value).length with hlen | hlen
  · cases n with
    | zero => exact iff_of_true h.locksFree (Or.inl rfl)
    | succ m =>
      unfold NothingHeld
      cases hf : findSlot H (st.segs (st.route (H.f key))) key with
      | some loc =>
        refine iff_of_false (slot_pass_held h hd value hf hlen) ?_
        rintro (hc | hc | ⟨hc, _⟩)
        · omega
        · omega
        · cases hc
      | none =>
        rw [split_pass_free_iff h hd value hf hlen]
        constructor
        · rintro rfl
          exact Or.inr (Or.inr ⟨rfl, rfl⟩)
        · rintro (hc | hc | ⟨_, hc⟩) <;> omega
  · rw [List.take_of_length_le hlen]
    exact iff_of_true hend.locksFree (Or.inr (Or.inl hlen))

end Pass

/-! ### Every crash -/

/-- After a crash inside an `Insert` and `Recovery`, no lock is left on the directory and on
the reachable segments exactly when the call held nothing at the crash. -/
theorem recovery_locks_iff (H : HashFuncs) (segs : ℕ → Segment) (dirs : ℕ → Directory) (n : ℕ)
    (hn : 1 ≤ n) (calls : List (Key × Value)) (st st1 : CCEH) (key : Key) (value : Value)
    (run : Run .cow H (fun _ _ => True) (initCCEH (freshPool segs dirs) (2 ^ n)) calls st)
    (retried : Retried .cow H (fun _ _ => True) key value st st1)
    (hd : st1.curDir.depth ≤ maxDepth) (k : ℕ) :
    LocksFree (st1.poolStores ((passStores H st1 key value).take k)).reopen ↔
      NothingHeld H st1 key value k := by
  have h0 : DirectoryInvariant (initCCEH (freshPool segs dirs) (2 ^ n)) :=
    (initCCEH_spec segs dirs n).directoryInvariant hn
  have h1 : DirectoryInvariant st1 := retried_preserves DirectoryInvariant key value
    (fun s s' hi hd _ hp => (insertPass_again_invariant s s' key value hi hd hp).2.2)
    st st1 retried (run_directoryInvariant _ h0 calls st run)
  have hd' : st1.curDir.depth ≤ 63 := hd.trans (by decide)
  have hpass := passStores_insertPass (H := H) h1.rest hd' key value
  refine pass_locksFree_iff h1.toAtRest hd' key value ?_ k
  by_cases hf : (findSlot H (st1.segs (st1.route (H.f key))) key).isSome
  · rw [if_pos hf] at hpass
    obtain ⟨loc, _, he⟩ := insertPass_done_put st1 _ key value h1 hd hpass
    rw [he]
    exact h1.toAtRest.put (H.f key) loc ⟨key, value⟩
  · rw [if_neg hf] at hpass
    exact (insertPass_again_invariant st1 _ key value h1 hd hpass).2.2.toAtRest

theorem smallTable_upTo : InitUpTo 1 2 smallTable := initCCEH_spec _ _ 1

/-- After 32 calls, the one on key 64 has to split: a crash between its `unlock()` and
`suspend()` leaves no lock, any later one inside of the pass does. -/
theorem recovery_locks_iff_split : ∃ st,
    Run .cow crowdedHash (fun _ _ => True) smallTable (crowdedCalls 32) st ∧
    (∃ st1, insertPass .cow crowdedHash st 64 1 = .again st1) ∧
    2000 < (passStores crowdedHash st 64 1).length ∧
    LocksFree (st.poolStores ((passStores crowdedHash st 64 1).take 2)).reopen ∧
    ∀ k, 2 < k → k < (passStores crowdedHash st 64 1).length →
      ¬ LocksFree (st.poolStores ((passStores crowdedHash st 64 1).take k)).reopen := by
  have hok : FreeOk crowdedHash fun _ _ => True := fun _ _ _ _ => trivial
  obtain ⟨st, hrun, hst⟩ := crowded_run .cow hok 32 (by omega)
  obtain ⟨hfull, st1, hpass, _, _⟩ :=
    Filled.split .cow hst (fillable_crowded.mono (by omega)) (le_refl _) 1
  have hlength : 2000 < (passStores crowdedHash st 64 1).length := by
    have hcopies := length_splitCopies crowdedHash (st.setSema (st.route (crowdedHash.f 64)) (-1))
      (st.route (crowdedHash.f 64)) (kNumSlot + 1)
    rw [kNumSlot_eq] at hcopies
    simp only [passStores, hfull, kNumSlot_eq, List.length_append, List.length_cons, hcopies]
    omega
  have hiff := recovery_locks_iff crowdedHash _ _ 1 (le_refl 1) _ st st 64 1 hrun (.refl st)
    hst.depth_le
  refine ⟨st, hrun, ⟨st1, hpass⟩, hlength, (hiff 2).mpr (Or.inr (Or.inr ⟨hfull, rfl⟩)), ?_⟩
  intro k hk hlt hfree
  rcases (hiff k).mp hfree with h0 | hend | ⟨_, h2⟩ <;> omega

/-- A crash right after the `lock()` of the first `Insert`: `Recovery` leaves the segment
locked. -/
theorem recovery_keeps_lock :
    Run .cow crowdedHash (fun _ _ => True) smallTable [] smallTable ∧
    Retried .cow crowdedHash (fun _ _ => True) 0 1 smallTable smallTable ∧
    smallTable.curDir.depth ≤ maxDepth ∧
    ¬ LocksFree (smallTable.poolStores ((passStores crowdedHash smallTable 0 1).take 1)).reopen := by
  have hrest := (smallTable_upTo.directoryInvariant (le_refl 1)).toAtRest
  have hd : smallTable.curDir.depth = 1 := smallTable_upTo.depth_eq
  have hsema := hrest.rest.seg_sema _ (route_index_lt smallTable (crowdedHash.f 0) (by omega))
  have htake : (passStores crowdedHash smallTable 0 1).take 1
      = [.segSema (smallTable.route (crowdedHash.f 0))
        ((smallTable.segs (smallTable.route (crowdedHash.f 0))).sema + 1)] := by
    unfold passStores
    dsimp only
    split <;> rfl
  refine ⟨.start, .refl _, by rw [hd]; decide, ?_⟩
  rw [htake]
  refine SegHeld.not_locksFree (segHeld_sema smallTable (crowdedHash.f 0) ?_) hrest (by omega)
  change (smallTable.segs (smallTable.route (crowdedHash.f 0))).sema = 0 at hsema
  omega

end PmemStudy.Cceh
