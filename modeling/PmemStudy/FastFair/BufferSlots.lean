import PmemStudy.Lib.Threads
import PmemStudy.Harness.Schedule
import PmemStudy.FastFair.Writers

/-!
# The buffer slots of the threads

With RAP_MOD a thread takes its `thread_id` from a counter when it first calls
`btree_insert`, and buffers records in the slots from `thread_id * WR_BUF_CL_SIZE` on. The
harness runs a load phase and a run phase with new threads; the counter goes on.
-/

namespace PmemStudy.FastFair
open Harness Threads

/-- `MAX_THREAD`; both regions hold `WR_BUF_CL_SIZE * MAX_THREAD` entries. -/
def maxThread : ℕ := 100

inductive Phase
  | load
  | run
  deriving DecidableEq

abbrev TestWorkload := Workload (BitVec 64) (BitVec 64)

/-- A worker with the `btree_insert` that it is in, and its `thread_id`. -/
structure TestThread where
  worker : Worker
  insertion : Option Insertion
  threadId : ℤ

/-- What the calls of both phases work on: the tree, `thread_ids`, and the slots that were
written to so far, each with the thread that did. -/
structure Index (ι : Type) where
  tree : Btree
  threadIds : ℤ
  used : List ((Phase × ι) × ℤ)

structure TestShared (ι : Type) where
  harness : Shared ι (BitVec 64) (BitVec 64)
  index : Index ι

/-- What a step does not determine: the result of a `Get`, the clock, and where the
parameters of an `Update` are. -/
structure Outside where
  rd : BitVec 64
  clock : ℕ
  keyAddr : BitVec 64
  valueAddr : BitVec 64

/-- The `btree_insert` of a call: `Insert` passes its parameters, `Update` their addresses. -/
def insertionOf (o : Outside) : Call (BitVec 64) (BitVec 64) → Option Insertion
  | .Insert key value => some (.call key.toInt value.toNat)
  | .Update _ _ => some (.call o.keyAddr.toInt o.valueAddr.toNat)
  | .Get _ => none
  | .Delete _ => none

/-- At the first line of `btree_insert`. -/
def Insertion.Entering (i : Insertion) : Prop := i.point = .start ∧ i.job.level = none

instance (i : Insertion) : Decidable i.Entering := inferInstanceAs (Decidable (_ ∧ _))

variable {ι : Type}

namespace TestThread

def start : TestThread := ⟨.start, none, -1⟩

/-- The call made by the step that led to `after`. -/
def made (before after : Shared ι (BitVec 64) (BitVec 64)) : Option (Call (BitVec 64) (BitVec 64)) :=
  (after.executed.drop before.executed.length).head?.bind Execution.made

/-- The next step of thread `id` of a phase. -/
def next (alloc : ℕ → ℕ) (W : TestWorkload) (phase : Phase) (id : ι) (o : Outside)
    (s : TestShared ι) (th : TestThread) : Option (TestShared ι × TestThread) :=
  match th.insertion with
  | none =>
    (Worker.next W id o.rd o.clock s.harness th.worker).map fun r =>
      ({ s with harness := r.1 },
        { th with worker := r.2, insertion := (made s.harness r.1).bind (insertionOf o) })
  | some i =>
    if i.Entering ∧ th.threadId = -1 then
      some ({ s with index := { s.index with threadIds := s.index.threadIds + 1 } },
        { th with threadId := s.index.threadIds })
    else if i.point = .returned then some (s, { th with insertion := none })
    else
      (i.next .rap alloc s.index.tree).map fun r =>
        ({ s with index := { s.index with
            tree := r.1
            used := s.index.used ++
              r.2.1.map fun (max_cl : ℕ) => ((phase, id), th.threadId * wrBufClSize + max_cl) } },
          { th with insertion := some r.2.2 })

end TestThread

abbrev TestConfig (threadNum : ℕ) :=
  Config (Fin threadNum) (TestShared (Fin threadNum)) TestThread

/-- The start of a phase. -/
def beginPhase {threadNum : ℕ} (W : TestWorkload) (x : Index (Fin threadNum)) :
    TestConfig threadNum := ⟨⟨.start W, x⟩, fun _ => .start⟩

/-- The states of a test: of the load phase, and of the run phase after all threads of the
load phase have returned. -/
inductive TestReaches (alloc : ℕ → ℕ) {threadNum : ℕ} (load run : TestWorkload) :
    TestConfig threadNum → Prop
  | load (c : TestConfig threadNum)
      (h : Reaches (TestThread.next alloc load .load) (beginPhase load ⟨.new alloc, 0, []⟩) c) :
      TestReaches alloc load run c
  | run (c d : TestConfig threadNum)
      (hl : Reaches (TestThread.next alloc load .load) (beginPhase load ⟨.new alloc, 0, []⟩) c)
      (hret : ∀ i, (c.threads i).worker.control = .returned)
      (hr : Reaches (TestThread.next alloc run .run) (beginPhase run c.shared.index) d) :
      TestReaches alloc load run d

/-! ### The owners of the slots -/

/-- `owner` says which `thread_id` each thread has got so far, -1 if none. -/
structure Owned (alloc : ℕ → ℕ) (phase : Phase) (x : Index ι) (threads : ι → TestThread)
    (owner : Phase × ι → ℤ) : Prop where
  tree : Ordered alloc x.tree
  now : ∀ i, owner (phase, i) = (threads i).threadId
  later : phase = .load → ∀ i, owner (.run, i) = -1
  count : 0 ≤ x.threadIds
  range : ∀ t, owner t = -1 ∨ 0 ≤ owner t ∧ owner t < x.threadIds
  distinct : ∀ t t', owner t ≠ -1 → owner t = owner t' → t = t'
  slot : ∀ u ∈ x.used, owner u.1 ≠ -1 ∧ ∃ m : ℕ, m < wrBufClSize ∧ u.2 = owner u.1 * wrBufClSize + m
  entered : ∀ i j, (threads i).insertion = some j → j.Entering ∨ (threads i).threadId ≠ -1

theorem insertionOf_entering {o : Outside} {c : Call (BitVec 64) (BitVec 64)} {i : Insertion}
    (h : insertionOf o c = some i) : i.Entering := by
  cases c with
  | Insert key value => exact Option.some.inj h ▸ ⟨rfl, rfl⟩
  | Update key value => exact Option.some.inj h ▸ ⟨rfl, rfl⟩
  | Get key => cases h
  | Delete key => cases h

section
variable [DecidableEq ι] {alloc : ℕ → ℕ} {phase : Phase} {owner : Phase × ι → ℤ}

/-- One thread moves and keeps its `thread_id`. -/
theorem Owned.move {x x' : Index ι} {threads : ι → TestThread} (h : Owned alloc phase x threads owner)
    (i : ι) {th : TestThread} (hid : th.threadId = (threads i).threadId)
    (hids : x'.threadIds = x.threadIds) (htree : Ordered alloc x'.tree)
    (hused : ∀ u ∈ x'.used, u ∈ x.used ∨ u.1 = (phase, i) ∧ (threads i).threadId ≠ -1 ∧
      ∃ m : ℕ, m < wrBufClSize ∧ u.2 = (threads i).threadId * wrBufClSize + m)
    (hent : ∀ j, th.insertion = some j → j.Entering ∨ th.threadId ≠ -1) :
    Owned alloc phase x' (Function.update threads i th) owner := by
  refine ⟨htree, ?_, h.later, by rw [hids]; exact h.count, by rw [hids]; exact h.range, h.distinct,
    ?_, ?_⟩
  · intro k
    rw [Function.update_apply]
    split
    · next hk => rw [hk, hid, h.now i]
    · exact h.now k
  · intro u hu
    rcases hused u hu with hu | ⟨hu, hne, hm⟩
    · exact h.slot u hu
    · rw [hu, h.now i]
      exact ⟨hne, hm⟩
  · intro k j hj
    rw [Function.update_apply] at hj ⊢
    split at hj
    · next hk =>
      rw [if_pos hk]
      exact hent j hj
    · next hk =>
      rw [if_neg hk]
      exact h.entered k j hj

/-- A thread gets the value of the counter. -/
theorem Owned.assign {x : Index ι} {threads : ι → TestThread} (h : Owned alloc phase x threads owner)
    (i : ι) (hid : (threads i).threadId = -1) :
    Owned alloc phase { x with threadIds := x.threadIds + 1 }
      (Function.update threads i { threads i with threadId := x.threadIds })
      (Function.update owner (phase, i) x.threadIds) := by
  have hcount := h.count
  have hother : ∀ t, t ≠ (phase, i) → Function.update owner (phase, i) x.threadIds t = owner t :=
    fun t ht => Function.update_of_ne ht _ _
  refine ⟨h.tree, ?_, ?_, by show 0 ≤ x.threadIds + 1; omega, ?_, ?_, ?_, ?_⟩
  · intro k
    by_cases hk : k = i
    · subst k
      rw [Function.update_self, Function.update_self]
    · rw [Function.update_of_ne hk, hother _ (fun he => hk (Prod.mk.inj he).2)]
      exact h.now k
  · intro hload k
    subst phase
    rw [hother (.run, k) (fun he => by cases (Prod.mk.inj he).1)]
    exact h.later rfl k
  · intro t
    show _ ∨ _ ∧ _ < x.threadIds + 1
    by_cases ht : t = (phase, i)
    · subst t
      rw [Function.update_self]
      omega
    · rw [hother t ht]
      have := h.range t
      omega
  · intro t t' hne he
    have hfree : ∀ s, owner s ≠ x.threadIds := by
      intro s hs
      have := h.range s
      omega
    by_cases ht : t = (phase, i)
    · by_cases ht' : t' = (phase, i)
      · rw [ht, ht']
      · rw [ht, Function.update_self, hother t' ht'] at he
        exact absurd he.symm (hfree t')
    · rw [hother t ht] at hne he
      by_cases ht' : t' = (phase, i)
      · rw [ht', Function.update_self] at he
        exact absurd he (hfree t)
      · rw [hother t' ht'] at he
        exact h.distinct t t' hne he
  · intro u hu
    have hu' := h.slot u hu
    have hne : u.1 ≠ (phase, i) := by
      intro he
      rw [he, h.now i] at hu'
      exact hu'.1 hid
    rw [hother _ hne]
    exact hu'
  · intro k j hj
    by_cases hk : k = i
    · subst k
      rw [Function.update_self]
      refine Or.inr ?_
      show x.threadIds ≠ -1
      omega
    · rw [Function.update_of_ne hk] at hj ⊢
      exact h.entered k j hj

theorem Owned.step {W : TestWorkload} (hal : Allocator alloc) {s s' : TestShared ι}
    {threads : ι → TestThread} {i : ι} {o : Outside} {th : TestThread}
    (h : Owned alloc phase s.index threads owner)
    (hn : TestThread.next alloc W phase i o s (threads i) = some (s', th)) :
    ∃ owner', Owned alloc phase s'.index (Function.update threads i th) owner' := by
  unfold TestThread.next at hn
  cases hins : (threads i).insertion with
  | none =>
    rw [hins] at hn
    obtain ⟨r, _, hr⟩ := Option.map_eq_some_iff.mp hn
    obtain ⟨rfl, rfl⟩ := Prod.mk.inj hr
    refine ⟨owner, h.move i rfl rfl h.tree (fun u hu => Or.inl hu) ?_⟩
    intro j hj
    obtain ⟨c, _, hc⟩ := Option.bind_eq_some_iff.mp hj
    exact Or.inl (insertionOf_entering hc)
  | some j =>
    rw [hins] at hn
    by_cases hent : j.Entering ∧ (threads i).threadId = -1
    · simp only [if_pos hent] at hn
      obtain ⟨rfl, rfl⟩ := Prod.mk.inj (Option.some.inj hn)
      rw [← hins]
      exact ⟨_, h.assign i hent.2⟩
    · simp only [if_neg hent] at hn
      have hid : (threads i).threadId ≠ -1 := by
        intro hid
        rcases h.entered i j hins with he | he
        · exact hent ⟨he, hid⟩
        · exact he hid
      by_cases hret : j.point = .returned
      · simp only [if_pos hret] at hn
        obtain ⟨rfl, rfl⟩ := Prod.mk.inj (Option.some.inj hn)
        exact ⟨owner, h.move i rfl rfl h.tree (fun u hu => Or.inl hu) (fun k hk => by cases hk)⟩
      · simp only [if_neg hret] at hn
        obtain ⟨⟨t, staged, j'⟩, hj, hr⟩ := Option.map_eq_some_iff.mp hn
        obtain ⟨rfl, rfl⟩ := Prod.mk.inj hr
        obtain ⟨htree, hstaged⟩ := h.tree.next hal hj
        refine ⟨owner, h.move i rfl rfl htree ?_ (fun _ _ => Or.inr hid)⟩
        intro u hu
        rcases List.mem_append.mp hu with hu | hu
        · exact Or.inl hu
        · obtain ⟨m, hm, rfl⟩ := List.mem_map.mp hu
          exact Or.inr ⟨rfl, hid, m, hstaged m hm, rfl⟩

theorem Owned.reaches {W : TestWorkload} (hal : Allocator alloc)
    {c d : Config ι (TestShared ι) TestThread}
    (h : ∃ owner, Owned alloc phase c.shared.index c.threads owner)
    (hr : Reaches (TestThread.next alloc W phase) c d) :
    ∃ owner, Owned alloc phase d.shared.index d.threads owner :=
  hr.invariant (P := fun s f => ∃ owner, Owned alloc phase s.index f owner) h
    (fun _ _ _ _ _ _ ⟨_, hp⟩ hn => hp.step hal hn)

end

theorem TestReaches.owned {alloc : ℕ → ℕ} (hal : Allocator alloc) {threadNum : ℕ}
    {load run : TestWorkload} {c : TestConfig threadNum} (h : TestReaches alloc load run c) :
    ∃ phase owner, Owned alloc phase c.shared.index c.threads owner := by
  have hstart : Owned alloc .load (⟨.new alloc, 0, []⟩ : Index (Fin threadNum))
      (fun _ => TestThread.start) (fun _ => -1) :=
    ⟨Ordered.new alloc, fun _ => rfl, fun _ _ => rfl, le_rfl, fun _ => Or.inl rfl,
      fun _ _ hne _ => absurd rfl hne, fun u hu => absurd hu List.not_mem_nil,
      fun _ _ hj => by cases hj⟩
  cases h with
  | load _ h =>
    obtain ⟨owner, ho⟩ := Owned.reaches hal ⟨_, hstart⟩ h
    exact ⟨.load, owner, ho⟩
  | run c' _ hl _ hr =>
    obtain ⟨owner, ho⟩ := Owned.reaches hal ⟨_, hstart⟩ hl
    -- the new threads have no `thread_id` yet
    have hnew : Owned alloc .run c'.shared.index (fun _ => TestThread.start) owner :=
      ⟨ho.tree, ho.later rfl, (fun hp => by cases hp), ho.count, ho.range, ho.distinct, ho.slot,
        (fun _ _ hj => by cases hj)⟩
    obtain ⟨owner', ho'⟩ := Owned.reaches hal ⟨_, hnew⟩ hr
    exact ⟨.run, owner', ho'⟩

/-- As long as no more than `MAX_THREAD` threads have called `btree_insert`, the slots are
inside the regions and no two threads share one. -/
theorem slots_apart {alloc : ℕ → ℕ} (hal : Allocator alloc) {threadNum : ℕ}
    {load run : TestWorkload} {c : TestConfig threadNum} (h : TestReaches alloc load run c)
    (hids : c.shared.index.threadIds ≤ maxThread) :
    (∀ u ∈ c.shared.index.used, 0 ≤ u.2 ∧ u.2 < wrBufClSize * maxThread) ∧
    ∀ u ∈ c.shared.index.used, ∀ v ∈ c.shared.index.used, u.1 ≠ v.1 → u.2 ≠ v.2 := by
  obtain ⟨phase, owner, ho⟩ := h.owned hal
  unfold maxThread at hids
  unfold wrBufClSize maxThread
  have hslot := ho.slot
  unfold wrBufClSize at hslot
  constructor
  · intro u hu
    obtain ⟨hne, m, hm, hu2⟩ := hslot u hu
    have := ho.range u.1
    omega
  · intro u hu v hv hne he
    obtain ⟨hne1, m, hm, hu2⟩ := hslot u hu
    obtain ⟨hne2, m', hm', hv2⟩ := hslot v hv
    have h1 := ho.range u.1
    have h2 := ho.range v.1
    exact hne (ho.distinct u.1 v.1 hne1 (by omega))

/-! ### A thread whose slots are outside -/

/-- The batches of `n` threads begin with key 2, the next one with key 1. -/
def lateWorkload (n : ℕ) : TestWorkload where
  runPairs := List.replicate (n * 100000) (2, 2) ++ [(1, 1)]
  runtimeOps := List.replicate (n * 100000 + 1) .INSERT
  miniBatch := 100000

variable {n : ℕ} {alloc : ℕ → ℕ} {phase : Phase} {x : Index (Fin n)}

theorem lateWorkload_maxOps (n : ℕ) : (lateWorkload n).maxOps = n * 100000 + 1 := by
  unfold lateWorkload Workload.maxOps
  rw [List.length_append, List.length_replicate]
  rfl

def nextAddr (i : ℕ) : ℕ := i + 1

theorem nextAddr_allocator : Allocator nextAddr :=
  ⟨fun _ _ h => Nat.succ.inj h, fun i => Nat.succ_ne_zero i⟩

/-- The key of the first insertion of a thread. -/
def lateKey (n k : ℕ) : BitVec 64 := if k < n then 2 else 1

def lateInsertion (n k : ℕ) : Insertion := .call (lateKey n k).toInt (lateKey n k).toNat

/-- The first `k` threads are at their first insertion and have their `thread_id`. -/
structure Late (n k : ℕ) (c : TestConfig (n + 1)) : Prop where
  progress : c.shared.harness.progress = k * 100000
  index : c.shared.index = ⟨.new nextAddr, k, []⟩
  ready : ∀ i, i.val < k → (c.threads i).insertion = some (lateInsertion n i) ∧
    (c.threads i).threadId = i.val
  rest : ∀ i, k ≤ i.val → c.threads i = .start

theorem TestThread.next_worker {W : TestWorkload} {id : Fin n} {o : Outside}
    {s s' : Shared (Fin n) (BitVec 64) (BitVec 64)} {w w' : Worker} {k : ℤ}
    (h : Worker.next W id o.rd o.clock s w = some (s', w')) :
    TestThread.next alloc W phase id o ⟨s, x⟩ ⟨w, none, k⟩ =
      some (⟨s', x⟩, ⟨w', (TestThread.made s s').bind (insertionOf o), k⟩) := by
  simp only [TestThread.next, h, Option.map_some]

theorem TestThread.made_none {s s' : Shared (Fin n) (BitVec 64) (BitVec 64)}
    (h : s'.executed = s.executed) : TestThread.made s s' = none := by
  unfold TestThread.made
  rw [h, List.drop_length]
  rfl

/-- A new worker claims a batch and comes to its first operation. -/
theorem first_insertion (alloc : ℕ → ℕ) (phase : Phase) (x : Index (Fin n)) (W : TestWorkload)
    (id : Fin n) (o : Outside) (s : Shared (Fin n) (BitVec 64) (BitVec 64)) (key : BitVec 64)
    (hmax : W.maxOps < 2 ^ 31) (hs : s.progress < W.maxOps) (hb : 0 < W.miniBatch)
    (hwrap : s.progress + W.miniBatch < 2 ^ 64)
    (hop : W.runtimeOps[s.progress]? = some .INSERT)
    (hpair : W.runPairs[s.progress]? = some (key, key)) :
    ∃ s' th, Alone (TestThread.next alloc W phase) id (⟨s, x⟩, .start)
        (⟨s', { x with threadIds := x.threadIds + 1 }⟩, th) ∧
      s'.progress = s.progress + W.miniBatch ∧
      th.insertion = some (.call key.toInt key.toNat) ∧ th.threadId = x.threadIds := by
  have hfetch : toUint64 (s.progress + W.miniBatch) = s.progress + W.miniBatch :=
    Nat.mod_eq_of_lt hwrap
  have hint : uint64ToInt s.progress = s.progress := Worker.uint64ToInt_of_lt (by omega)
  have hback : intToUint64 (s.progress : ℤ) = s.progress := Worker.intToUint64_natCast (by omega)
  have hend : s.progress < min W.maxOps (s.progress + W.miniBatch) := by omega
  let s1 : Shared (Fin n) (BitVec 64) (BitVec 64) := { s with progress := s.progress + W.miniBatch }
  let w1 : Worker := { Worker.start with
    startIdx := s.progress
    endIdx := min W.maxOps (s.progress + W.miniBatch)
    control := .while_ }
  let w2 : Worker := { w1 with
    sync := ⟨s.progress, s.progress, min W.maxOps (s.progress + W.miniBatch)⟩
    i := s.progress
    control := .for_ }
  let s3 : Shared (Fin n) (BitVec 64) (BitVec 64) :=
    { s1 with executed := s.executed ++ [⟨id, s.progress, some (.Insert key key)⟩] }
  let w3 : Worker := { w2 with status := tally .INSERT (o.rd ≠ key) w2.status, control := .timing }
  have h1 : Worker.next W id o.rd o.clock s .start = some (s1, w1) := by
    simp only [Worker.next, Worker.start, Worker.fetch, hfetch]
    rfl
  have h2 : Worker.next W id o.rd o.clock s1 w1 = some (s1, w2) := by
    have hlt : w1.startIdx < W.maxOps := hs
    simp only [Worker.next, w1, w2, hint]
    exact if_pos hs
  have h3 : Worker.next W id o.rd o.clock s1 w2 = some (s3, w3) := by
    simp only [Worker.next, w2, w1, hback, if_pos hend, Worker.execute, hop, hpair]
    rfl
  have hm1 : TestThread.made s s1 = none := TestThread.made_none rfl
  have hm2 : TestThread.made s1 s1 = none := TestThread.made_none rfl
  have hm3 : TestThread.made s1 s3 = some (.Insert key key) := by
    show ((s.executed ++ [_]).drop s.executed.length).head?.bind Execution.made = _
    rw [List.drop_left]
    rfl
  refine ⟨s3, ⟨w3, some (.call key.toInt key.toNat), x.threadIds⟩, ?_, rfl, rfl, rfl⟩
  have e1 : TestThread.next alloc W phase id o ⟨s, x⟩ .start = some (⟨s1, x⟩, ⟨w1, none, -1⟩) := by
    rw [TestThread.start, TestThread.next_worker h1, hm1]
    rfl
  have e2 : TestThread.next alloc W phase id o ⟨s1, x⟩ ⟨w1, none, -1⟩ =
      some (⟨s1, x⟩, ⟨w2, none, -1⟩) := by
    rw [TestThread.next_worker h2, hm2]
    rfl
  have e3 : TestThread.next alloc W phase id o ⟨s1, x⟩ ⟨w2, none, -1⟩ =
      some (⟨s3, x⟩, ⟨w3, some (.call key.toInt key.toNat), -1⟩) := by
    rw [TestThread.next_worker h3, hm3]
    rfl
  have e4 : TestThread.next alloc W phase id o ⟨s3, x⟩ ⟨w3, some (.call key.toInt key.toNat), -1⟩ =
      some (⟨s3, { x with threadIds := x.threadIds + 1 }⟩,
        ⟨w3, some (.call key.toInt key.toNat), x.threadIds⟩) := by
    unfold TestThread.next
    exact if_pos ⟨⟨rfl, rfl⟩, rfl⟩
  exact (((Relation.ReflTransGen.single ⟨o, e1⟩).tail ⟨o, e2⟩).tail ⟨o, e3⟩).tail ⟨o, e4⟩

theorem lateWorkload_op {k : ℕ} (hk : k ≤ n) :
    (lateWorkload n).runtimeOps[k * 100000]? = some .INSERT := by
  unfold lateWorkload
  rw [List.getElem?_replicate, if_pos (by omega)]

theorem lateWorkload_pair {k : ℕ} (hk : k ≤ n) :
    (lateWorkload n).runPairs[k * 100000]? = some (lateKey n k, lateKey n k) := by
  unfold lateWorkload lateKey
  by_cases hlt : k < n
  · rw [if_pos hlt, List.getElem?_append_left (by rw [List.length_replicate]; omega),
      List.getElem?_replicate, if_pos (by omega)]
  · obtain rfl : k = n := by omega
    rw [if_neg hlt, List.getElem?_append_right (by rw [List.length_replicate]),
      List.length_replicate, Nat.sub_self]
    rfl

theorem Late.step {n k : ℕ} (hn : n ≤ 100) (hk : k ≤ n) {c : TestConfig (n + 1)} (h : Late n k c) :
    ∃ d, Reaches (TestThread.next nextAddr (lateWorkload n) .load) c d ∧ Late n (k + 1) d := by
  have hmax := lateWorkload_maxOps n
  have hprogress := h.progress
  obtain ⟨s', th, halone, hs', hins, hid⟩ := first_insertion nextAddr .load
    ⟨.new nextAddr, k, []⟩ (lateWorkload n) (⟨k, by omega⟩ : Fin (n + 1)) ⟨0, 0, 0, 0⟩
    c.shared.harness (lateKey n k) (by omega) (by omega)
    (show 0 < 100000 by omega) (by show _ + 100000 < _; omega)
    (by rw [hprogress]; exact lateWorkload_op hk) (by rw [hprogress]; exact lateWorkload_pair hk)
  have hstart : c.threads ⟨k, by omega⟩ = .start := h.rest _ (le_refl k)
  have hreach := halone.reaches hstart
  have hc : (⟨⟨c.shared.harness, ⟨.new nextAddr, k, []⟩⟩, c.threads⟩ : TestConfig (n + 1)) = c := by
    rw [← h.index]
  rw [hc] at hreach
  refine ⟨_, hreach, ?_, ?_, ?_, ?_⟩
  · show s'.progress = _
    rw [hs', hprogress]
    show k * 100000 + 100000 = _
    omega
  · rfl
  · intro i hi
    show (Function.update c.threads _ th i).insertion = _ ∧ (Function.update c.threads _ th i).threadId = _
    by_cases hik : i = ⟨k, by omega⟩
    · rw [hik, Function.update_self]
      exact ⟨hins, hid⟩
    · rw [Function.update_of_ne hik]
      exact h.ready i (by have : i.val ≠ k := fun he => hik (Fin.ext he); omega)
  · intro i hi
    show Function.update c.threads _ th i = _
    have hne : i ≠ ⟨k, by omega⟩ := by
      intro he
      have hval : i.val = k := congrArg Fin.val he
      omega
    rw [Function.update_of_ne hne]
    exact h.rest i (by omega)

theorem late_reaches {n k : ℕ} (hn : n ≤ 100) (hk : k ≤ n + 1) :
    ∃ c, Reaches (TestThread.next nextAddr (lateWorkload n) .load)
      (beginPhase (lateWorkload n) ⟨.new nextAddr, 0, []⟩) c ∧ Late n k c := by
  induction k with
  | zero =>
    exact ⟨_, .refl, (Nat.zero_mul _).symm, rfl, fun i hi => absurd hi (Nat.not_lt_zero _),
      fun i _ => rfl⟩
  | succ k ih =>
    obtain ⟨c, hc, hlate⟩ := ih (by omega)
    obtain ⟨d, hd, hlate'⟩ := hlate.step hn (by omega)
    exact ⟨d, hc.trans hd, hlate'⟩

/-- An insertion into a tree of one leaf, up to the end of its section. -/
theorem alone_store (alloc : ℕ → ℕ) (phase : Phase) (W : TestWorkload) (id : Fin n) (o : Outside)
    (s : Shared (Fin n) (BitVec 64) (BitVec 64)) (x : Index (Fin n)) (th : TestThread) {key : ℤ}
    {right : ℕ} {p : Page} {sec : Btree.Section} (hins : th.insertion = some (.call key right))
    (hid : th.threadId ≠ -1) (hp : x.tree.pages x.tree.root = some p) (hl : p.leftmostPtr = NULL)
    (hsec : x.tree.storeSection .rap alloc x.tree.root key right = some sec) :
    ∃ th', Alone (TestThread.next alloc W phase) id (⟨s, x⟩, th)
      (⟨s, { x with
        tree := x.tree.run sec.stores
        used := x.used ++ sec.staging.map fun (max_cl : ℕ) =>
          ((phase, id), th.threadId * wrBufClSize + max_cl) }⟩, th') := by
  obtain ⟨w, ins, k⟩ := th
  simp only at hins hid
  subst hins
  have h1 : TestThread.next alloc W phase id o ⟨s, x⟩ ⟨w, some (.call key right), k⟩ =
      some (⟨s, x⟩, ⟨w, some ⟨⟨key, right, none⟩, .down x.tree.root⟩, k⟩) := by
    unfold TestThread.next
    simp [Insertion.call, Insertion.next, hid]
  have h2 : TestThread.next alloc W phase id o ⟨s, x⟩
      ⟨w, some ⟨⟨key, right, none⟩, .down x.tree.root⟩, k⟩ =
      some (⟨s, x⟩, ⟨w, some ⟨⟨key, right, none⟩, .store x.tree.root⟩, k⟩) := by
    unfold TestThread.next
    simp [Insertion.next, hid, hp, Job.descends, hl]
  have h3 : TestThread.next alloc W phase id o ⟨s, x⟩
      ⟨w, some ⟨⟨key, right, none⟩, .store x.tree.root⟩, k⟩ =
      some (⟨s, { x with
        tree := x.tree.run sec.stores
        used := x.used ++ sec.staging.map fun (max_cl : ℕ) =>
          ((phase, id), k * wrBufClSize + max_cl) }⟩,
        ⟨w, some (Insertion.after ⟨key, right, none⟩ sec.outcome), k⟩) := by
    unfold TestThread.next
    simp [Insertion.next, hid, hsec]
  exact ⟨_, ((Relation.ReflTransGen.single ⟨o, h1⟩).tail ⟨o, h2⟩).tail ⟨o, h3⟩⟩

/-- Key 2 goes into the empty leaf; key 1 moves it, over the buffer. -/
theorem two_sections : ∃ s₀ s₁ p,
    (Btree.new nextAddr).storeSection .rap nextAddr 1 2 2 = some s₀ ∧ s₀.staging = [] ∧
    ((Btree.new nextAddr).run s₀.stores).root = 1 ∧
    ((Btree.new nextAddr).run s₀.stores).pages 1 = some p ∧ p.leftmostPtr = NULL ∧
    ((Btree.new nextAddr).run s₀.stores).storeSection .rap nextAddr 1 1 1 = some s₁ ∧
    s₁.staging = [0] :=
  ⟨_, _, _, rfl, rfl, rfl, rfl, rfl, rfl, rfl⟩

/-- After `n` threads have taken their `thread_id`, the next one uses slot
`n * WR_BUF_CL_SIZE`. -/
theorem late_slot {n : ℕ} (h0 : 0 < n) (hn : n ≤ 100) :
    ∃ c : TestConfig (n + 1), TestReaches nextAddr (lateWorkload n) (lateWorkload n) c ∧
      c.shared.index.threadIds = n + 1 ∧
      ((Phase.load, Fin.last n), (n : ℤ) * wrBufClSize) ∈ c.shared.index.used := by
  obtain ⟨c, hc, hlate⟩ := late_reaches hn (le_refl (n + 1))
  obtain ⟨s₀, s₁, p, hs₀, hstaged₀, hroot, hp, hl, hs₁, hstaged₁⟩ := two_sections
  obtain ⟨hins₀, hid₀⟩ := hlate.ready 0 (Nat.succ_pos n)
  obtain ⟨hins₁, hid₁⟩ := hlate.ready (Fin.last n) (Nat.lt_succ_self n)
  have hkey₀ : lateInsertion n 0 = .call 2 2 := by
    unfold lateInsertion lateKey
    rw [if_pos h0]
    rfl
  have hkey₁ : lateInsertion n n = .call 1 1 := by
    unfold lateInsertion lateKey
    rw [if_neg (lt_irrefl n)]
    rfl
  have hins₀' : (c.threads 0).insertion = some (.call 2 2) := hins₀.trans (congrArg some hkey₀)
  have hins₁' : (c.threads (Fin.last n)).insertion = some (.call 1 1) :=
    hins₁.trans (congrArg some hkey₁)
  have hne₀ : (c.threads 0).threadId ≠ -1 := by
    rw [hid₀]
    omega
  have hne₁ : (c.threads (Fin.last n)).threadId ≠ -1 := by
    rw [hid₁]
    omega
  obtain ⟨th₀, h₀⟩ := alone_store nextAddr .load (lateWorkload n) (0 : Fin (n + 1)) ⟨0, 0, 0, 0⟩
    c.shared.harness ⟨.new nextAddr, (n + 1 : ℕ), []⟩ _ hins₀' hne₀ rfl rfl hs₀
  have hlast : Fin.last n ≠ 0 := fun he => by
    have : n = 0 := congrArg Fin.val he
    omega
  have hthread : Function.update c.threads 0 th₀ (Fin.last n) = c.threads (Fin.last n) :=
    Function.update_of_ne hlast _ _
  obtain ⟨th₁, h₁⟩ := alone_store nextAddr .load (lateWorkload n) (Fin.last n) ⟨0, 0, 0, 0⟩
    c.shared.harness ⟨(Btree.new nextAddr).run s₀.stores, (n + 1 : ℕ), []⟩ _ hins₁' hne₁
    (by rw [hroot]; exact hp) hl (by rw [hroot]; exact hs₁)
  have hreach₀ := h₀.reaches (f := c.threads) rfl
  have hreach₁ := h₁.reaches hthread
  have hc' : (⟨⟨c.shared.harness, ⟨.new nextAddr, (n + 1 : ℕ), []⟩⟩, c.threads⟩ :
      TestConfig (n + 1)) = c := by
    rw [← hlate.index]
  rw [hc', hstaged₀] at hreach₀
  refine ⟨_, .load _ ((hc.trans hreach₀).trans hreach₁), by simp, ?_⟩
  show _ ∈ [] ++ s₁.staging.map _
  rw [hstaged₁, hid₁]
  simp

/-- The slots of the 101st thread are behind the end of the regions. -/
theorem slot_400 : ¬ ∀ c : TestConfig 101,
    TestReaches nextAddr (lateWorkload 100) (lateWorkload 100) c →
    ∀ u ∈ c.shared.index.used, u.2 < wrBufClSize * maxThread := by
  intro hall
  obtain ⟨c, hc, _, hmem⟩ := late_slot (n := 100) (by omega) (le_refl 100)
  have := hall c hc _ hmem
  unfold maxThread at this
  omega

theorem slots_apart_two : ∃ c : TestConfig 2, TestReaches nextAddr (lateWorkload 1) (lateWorkload 1) c ∧
    ((Phase.load, Fin.last 1), 4) ∈ c.shared.index.used ∧
    (∀ u ∈ c.shared.index.used, 0 ≤ u.2 ∧ u.2 < wrBufClSize * maxThread) ∧
    ∀ u ∈ c.shared.index.used, ∀ v ∈ c.shared.index.used, u.1 ≠ v.1 → u.2 ≠ v.2 := by
  obtain ⟨c, hc, hids, hmem⟩ := late_slot (n := 1) (by omega) (by omega)
  exact ⟨c, hc, hmem, slots_apart nextAddr_allocator hc (by rw [hids]; decide)⟩

end PmemStudy.FastFair
