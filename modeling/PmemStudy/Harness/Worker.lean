import Mathlib.Tactic.Ring
import Mathlib.Logic.Function.Basic

/-!
# The workers of the test harness

The worker lambda of `test`: batches of indices are claimed from one counter, the
operations of a batch are run one after the other, and the tallies are merged when
no index is left. The index under test is outside of the model: a `Get` may return
any value.
-/

namespace PmemStudy.Harness

variable {ι K V : Type}

/-- `enum operation`, in the order of the array slots. -/
inductive Operation
  | READ | INSERT | DELETE | UPDATE | READ_NOTFOUND
  deriving DecidableEq, Repr

/-- The slots of `status` and `global_status`. -/
def operations : List Operation :=
  [.READ, .INSERT, .DELETE, .UPDATE, .READ_NOTFOUND]

/-- A call that a worker makes on the index. -/
inductive Call (K V : Type)
  | Get (key : K)
  | Insert (key : K) (value : V)
  | Update (key : K) (value : V)
  | Delete (key : K)

/-- The call of one entry of `runtime_ops`; `READ_NOTFOUND` is only a slot. -/
def call (op : Operation) (pair : K × V) : Option (Call K V) :=
  match op with
  | .READ => some (.Get pair.1)
  | .INSERT => some (.Insert pair.1 pair.2)
  | .UPDATE => some (.Update pair.1 pair.2)
  | .DELETE => some (.Delete pair.1)
  | .READ_NOTFOUND => none

/-- `uint64_t` arithmetic. -/
def toUint64 (x : ℕ) : ℕ := x % 2 ^ 64

def subUint64 (a b : ℕ) : ℕ := toUint64 (a + 2 ^ 64 - b)

/-- The conversions between `uint64_t` and `int`. -/
def uint64ToInt (x : ℕ) : ℤ := Int.bmod x (2 ^ 32)

def intToUint64 (x : ℤ) : ℕ := (x % 2 ^ 64).toNat

/-- What `test` hands to its workers. -/
structure Workload (K V : Type) where
  runPairs : List (K × V)
  runtimeOps : List Operation
  miniBatch : ℕ

/-- `max_ops`. -/
def Workload.maxOps (W : Workload K V) : ℕ := W.runPairs.length

/-- One operation that was run: by whom, for which index, with which call. -/
structure Execution (ι K V : Type) where
  worker : ι
  index : ℕ
  made : Option (Call K V)

/-- What the workers share. `executed` and `written` record the operations run and the
latency slots written, in their order. -/
structure Shared (ι K V : Type) where
  progress : ℕ
  latency : List ℕ
  globalStatus : Operation → ℕ
  executed : List (Execution ι K V)
  written : List ℕ

/-- `sync_buffer`, one for each worker. -/
structure SyncBuffer where
  currProgress : ℕ
  begin_ : ℕ
  end_ : ℕ

inductive Control
  | fetch | while_ | for_ | timing | merge (slot : ℕ) | returned | threw
  deriving DecidableEq

/-- The local variables of the lambda. -/
structure Worker where
  control : Control
  startIdx : ℕ
  endIdx : ℕ
  i : ℤ
  status : Operation → ℕ
  sync : SyncBuffer

/-- A slot of a status array is raised by `d`. -/
def raise (status : Operation → ℕ) (slot : Operation) (d : ℕ) : Operation → ℕ :=
  Function.update status slot (toUint64 (status slot + d))

/-- The tallies of one operation; `missed` says that `rd` is not the expected value. -/
def tally (op : Operation) (missed : Bool) (status : Operation → ℕ) : Operation → ℕ :=
  match op with
  | .READ =>
    if missed then raise (raise status .READ 1) .READ_NOTFOUND 1 else raise status .READ 1
  | .INSERT => raise status .INSERT 1
  | .UPDATE => raise status .UPDATE 1
  | .DELETE => raise status .DELETE 1
  | .READ_NOTFOUND => status

namespace Worker

/-- `progress.fetch_add(mini_batch)` and the batch that it claims. -/
def fetch (W : Workload K V) (s : Shared ι K V) (w : Worker) : Shared ι K V × Worker :=
  ({ s with progress := toUint64 (s.progress + W.miniBatch) },
    { w with
      startIdx := s.progress
      endIdx := min W.maxOps (toUint64 (s.progress + W.miniBatch))
      control := .while_ })

/-- The operation at `i`; `at` throws outside of a vector. -/
def execute [DecidableEq V] (W : Workload K V) (id : ι) (rd : V) (s : Shared ι K V) (w : Worker) :
    Shared ι K V × Worker :=
  match W.runtimeOps[intToUint64 w.i]?, W.runPairs[intToUint64 w.i]? with
  | some op, some pair =>
    ({ s with executed := s.executed ++ [⟨id, intToUint64 w.i, call op pair⟩] },
      { w with status := tally op (rd ≠ pair.2) w.status, control := .timing })
  | _, _ => (s, { w with control := .threw })

/-- The latency of the operation at `i`, and the next round of the loop. -/
def time (clock : ℕ) (s : Shared ι K V) (w : Worker) : Shared ι K V × Worker :=
  if intToUint64 w.i < s.latency.length then
    ({ s with
        latency := s.latency.set (intToUint64 w.i) clock
        written := s.written ++ [intToUint64 w.i] },
      { w with
        i := w.i + 1
        sync := { w.sync with currProgress := toUint64 (w.sync.currProgress + 1) }
        control := .for_ })
  else (s, { w with control := .threw })

/-- The next step of worker `id`, where a `Get` returns `rd` and the clock says `clock`. -/
def next [DecidableEq V] (W : Workload K V) (id : ι) (rd : V) (clock : ℕ) (s : Shared ι K V)
    (w : Worker) : Option (Shared ι K V × Worker) :=
  match w.control with
  | .fetch => some (fetch W s w)
  | .while_ =>
    if w.startIdx < W.maxOps then
      some (s, { w with
        sync := ⟨w.startIdx, w.startIdx, w.endIdx⟩
        i := uint64ToInt w.startIdx
        control := .for_ })
    else some (s, { w with control := .merge 0 })
  | .for_ =>
    if intToUint64 w.i < w.endIdx then some (execute W id rd s w)
    else some (s, { w with control := .fetch })
  | .timing => some (time clock s w)
  | .merge slot =>
    match operations[slot]? with
    | some o =>
      some ({ s with globalStatus := raise s.globalStatus o (w.status o) },
        { w with control := .merge (slot + 1) })
    | none => some (s, { w with control := .returned })
  | .returned => none
  | .threw => none

/-- A worker that was just started. -/
def start : Worker where
  control := .fetch
  startIdx := 0
  endIdx := 0
  i := 0
  status _ := 0
  sync := ⟨0, 0, 0⟩

end Worker

/-- The shared variables before the execute phase. -/
def Shared.start (W : Workload K V) : Shared ι K V where
  progress := 0
  latency := List.replicate W.maxOps 0
  globalStatus _ := 0
  executed := []
  written := []

end PmemStudy.Harness
