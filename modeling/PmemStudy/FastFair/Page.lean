import Mathlib.Logic.Function.Basic
import PmemStudy.Lib.Trace
import PmemStudy.Lib.Slots

/-!
# Pages of the FAST&FAIR tree (fastfair/fastfair.h)

A page is a header and 30 records. Writers change it by single stores in an
order that lets readers search it without a lock; so a function that writes is
modelled by the list of its stores. Addresses and values are naturals, `NULL`
is 0.
-/

namespace PmemStudy.FastFair

abbrev Entry := Slots.Entry ℤ ℕ

def longMax : ℤ := 0x7fffffffffffffff
def NULL : ℕ := 0

/-- `(PAGESIZE - sizeof(header)) / sizeof(entry)`. -/
def cardinality : ℕ := (512 - 32) / 16

/-- The header without its mutex, and the records. -/
structure Page where
  leftmostPtr : ℕ
  siblingPtr : ℕ
  level : ℕ
  switchCounter : ℕ
  isDeleted : Bool
  lastIndex : ℤ
  records : ℕ → Entry

/-- `page(level)`. -/
def Page.new (level : ℕ) : Page where
  leftmostPtr := NULL
  siblingPtr := NULL
  level := level
  switchCounter := 0
  isDeleted := false
  lastIndex := -1
  records := fun _ => ⟨longMax, NULL⟩

/-- `page(left, key, right, level)`, used when the tree grows. -/
def Page.newRoot (left : ℕ) (key : ℤ) (right : ℕ) (level : ℕ) : Page :=
  { Page.new level with
    leftmostPtr := left
    records := Function.update (Page.new level).records 0 ⟨key, right⟩
    lastIndex := 0 }

/-- `IS_FORWARD(c)`. -/
def isForward (c : ℕ) : Prop := c % 2 = 0

instance (c : ℕ) : Decidable (isForward c) := inferInstanceAs (Decidable (_ = _))

/-! ### Stores -/

/-- One store to a page; `record` writes both words of a record. -/
inductive PageStore where
  | switchCounter (c : ℕ)
  | key (i : ℕ) (k : ℤ)
  | ptr (i : ℕ) (v : ℕ)
  | record (i : ℕ) (e : Entry)
  | lastIndex (n : ℤ)
  | siblingPtr (a : ℕ)
  | leftmostPtr (a : ℕ)

namespace Page

def setRecord (p : Page) (i : ℕ) (e : Entry) : Page :=
  { p with records := Function.update p.records i e }

def apply (p : Page) : PageStore → Page
  | .switchCounter c => { p with switchCounter := c }
  | .key i k => p.setRecord i ⟨k, (p.records i).ptr⟩
  | .ptr i v => p.setRecord i ⟨(p.records i).key, v⟩
  | .record i e => p.setRecord i e
  | .lastIndex n => { p with lastIndex := n }
  | .siblingPtr a => { p with siblingPtr := a }
  | .leftmostPtr a => { p with leftmostPtr := a }

def run (p : Page) (l : List PageStore) : Page := l.foldl apply p

theorem run_nil (p : Page) : p.run [] = p := rfl

theorem run_cons (p : Page) (s : PageStore) (l : List PageStore) :
    p.run (s :: l) = (p.apply s).run l := rfl

theorem run_append (p : Page) (l l' : List PageStore) : p.run (l ++ l') = (p.run l).run l' :=
  List.foldl_append

/-! ### count -/

/-- `++count` while there is a pointer. -/
def countUp (p : Page) : ℕ → ℕ → ℕ
  | 0, c => c
  | fuel + 1, c => if (p.records c).ptr = NULL then c else countUp p fuel (c + 1)

/-- `--count` while there is a pointer; `none` when the counter gets negative. -/
def countDown (p : Page) : ℕ → Option ℕ
  | 0 => if (p.records 0).ptr = NULL then some 0 else none
  | c + 1 => if (p.records (c + 1)).ptr = NULL then some (c + 1) else countDown p c

def count (p : Page) : ℕ :=
  if p.lastIndex + 1 < 0 then countUp p cardinality 0
  else if isForward p.switchCounter then countUp p cardinality (p.lastIndex + 1).toNat
  else (countDown p (p.lastIndex + 1).toNat).getD (countUp p cardinality 0)

/-! ### linear_search inside one page

No other thread changes the page while it is searched, so the switch counter is
the same before and after and the outer loop runs once. -/

/-- Leaf, left to right, from record 1 on. -/
def leafScan (p : Page) (key : ℤ) : ℕ → ℕ → ℕ
  | 0, _ => NULL
  | fuel + 1, i =>
    if (p.records i).ptr = NULL then NULL
    else if (p.records i).key = key ∧ (p.records (i - 1)).ptr ≠ (p.records i).ptr then
      (p.records i).ptr
    else leafScan p key fuel (i + 1)

def leafForward (p : Page) (key : ℤ) : ℕ :=
  if (p.records 0).key = key ∧ (p.records 0).ptr ≠ NULL then (p.records 0).ptr
  else leafScan p key cardinality 1

/-- Leaf, right to left, from record `i` down to record 1. -/
def leafScanBack (p : Page) (key : ℤ) : ℕ → ℕ
  | 0 => NULL
  | i + 1 =>
    if (p.records (i + 1)).key = key ∧ (p.records i).ptr ≠ (p.records (i + 1)).ptr ∧
        (p.records (i + 1)).ptr ≠ NULL then
      (p.records (i + 1)).ptr
    else leafScanBack p key i

def leafBackward (p : Page) (key : ℤ) : ℕ :=
  if leafScanBack p key (p.count - 1) ≠ NULL then leafScanBack p key (p.count - 1)
  else if (p.records 0).key = key ∧ (p.records 0).ptr ≠ NULL then (p.records 0).ptr
  else NULL

/-- Internal page, left to right, from record 1 on; after the loop the pointer
of the last record. -/
def nodeScan (p : Page) (key : ℤ) : ℕ → ℕ → ℕ
  | 0, i => (p.records (i - 1)).ptr
  | fuel + 1, i =>
    if (p.records i).ptr = NULL then (p.records (i - 1)).ptr
    else if key < (p.records i).key ∧ (p.records (i - 1)).ptr ≠ (p.records i).ptr then
      (p.records (i - 1)).ptr
    else nodeScan p key fuel (i + 1)

def nodeForward (p : Page) (key : ℤ) : ℕ :=
  if key < (p.records 0).key ∧ p.leftmostPtr ≠ (p.records 0).ptr then p.leftmostPtr
  else nodeScan p key cardinality 1

/-- Internal page, right to left, the records below `i`. -/
def nodeScanBack (p : Page) (key : ℤ) : ℕ → ℕ
  | 0 => NULL
  | i + 1 =>
    if (p.records i).key ≤ key ∧
        (if i = 0 then p.leftmostPtr else (p.records (i - 1)).ptr) ≠ (p.records i).ptr then
      (p.records i).ptr
    else nodeScanBack p key i

def search (p : Page) (key : ℤ) : ℕ :=
  if p.leftmostPtr = NULL then
    if isForward p.switchCounter then p.leafForward key else p.leafBackward key
  else
    if isForward p.switchCounter then p.nodeForward key else nodeScanBack p key p.count

/-- `linear_search`; `pages` is the memory that a sibling pointer is followed
in, `none` where there is no page. -/
def linearSearch (pages : ℕ → Option Page) (p : Page) (key : ℤ) : Option ℕ :=
  let ret := p.search key
  if p.leftmostPtr = NULL then
    if ret ≠ NULL then some ret
    else if p.siblingPtr ≠ NULL then do
      let sibling ← pages p.siblingPtr
      if (sibling.records 0).key ≤ key then some p.siblingPtr else some NULL
    else some NULL
  else if p.siblingPtr ≠ NULL then do
    let sibling ← pages p.siblingPtr
    if (sibling.records 0).key ≤ key then some p.siblingPtr
    else if ret ≠ NULL then some ret else some p.leftmostPtr
  else if ret ≠ NULL then some ret
  else some p.leftmostPtr

/-! ### insert_key (without RAP_MOD) -/

/-- The loop for `i` of the FAST branch and the part after it; the argument is
`i + 1`, 0 when the loop ended without a `break`. -/
def fastLoop (p : Page) (key : ℤ) (ptr : ℕ) : ℕ → List PageStore
  | 0 => [.ptr 0 p.leftmostPtr, .key 0 key, .ptr 0 ptr]
  | i + 1 =>
    if key < (p.records i).key then
      let shift := [.ptr (i + 1) (p.records i).ptr, .key (i + 1) (p.records i).key]
      shift ++ fastLoop (p.run shift) key ptr i
    else [.ptr (i + 1) (p.records i).ptr, .key (i + 1) key, .ptr (i + 1) ptr]

/-- `if (!IS_FORWARD(hdr.switch_counter)) ++hdr.switch_counter`. -/
def toForward (p : Page) : List PageStore :=
  if isForward p.switchCounter then [] else [.switchCounter ((p.switchCounter + 1) % 256)]

/-- `insert_key` up to the loop: the switch counter, and the terminator copied
one place to the right if there are entries. -/
def opening (p : Page) (num : ℕ) : List PageStore :=
  p.toForward ++
  (if num = 0 then [] else [.ptr (num + 1) ((p.run p.toForward).records num).ptr])

/-- `insert_key` with `*num_entries = num`; the FAST loop differs between the
builds. -/
def insertKeyWith (loop : Page → List PageStore) (p : Page) (key : ℤ) (ptr : ℕ) (num : ℕ) :
    List PageStore :=
  p.opening num ++
  (if num = 0 then [.key 0 key, .ptr 0 ptr, .ptr 1 NULL] else loop (p.run (p.opening num))) ++
  [.lastIndex num]

def insertKey (p : Page) (key : ℤ) (ptr : ℕ) (num : ℕ) : List PageStore :=
  insertKeyWith (fun q => fastLoop q key ptr num) p key ptr num

/-! ### remove_key -/

/-- The loop of `remove_key` from record `i` on; the flag is `shift`. -/
def removeLoop (p : Page) (key : ℤ) : ℕ → ℕ → Bool → List PageStore × Bool
  | 0, _, shift => ([], shift)
  | fuel + 1, i, shift =>
    if (p.records i).ptr = NULL then ([], shift)
    else
      let found := !shift && (p.records i).key == key
      let unlink := if found then
        [.ptr i (if i = 0 then p.leftmostPtr else (p.records (i - 1)).ptr)] else []
      let move := if shift || found then
        [.key i (p.records (i + 1)).key, .ptr i (p.records (i + 1)).ptr] else []
      let rest := removeLoop (p.run (unlink ++ move)) key fuel (i + 1) (shift || found)
      (unlink ++ move ++ rest.1, rest.2)

/-- The stores of `remove_key` and whether the key was there. -/
def removeKey (p : Page) (key : ℤ) : List PageStore × Bool :=
  let switch := if isForward p.switchCounter then
    [.switchCounter ((p.switchCounter + 1) % 256)] else []
  let loop := removeLoop (p.run switch) key cardinality 0 false
  (switch ++ loop.1 ++ (if loop.2 then [.lastIndex (p.lastIndex - 1)] else []), loop.2)

end Page

end PmemStudy.FastFair
