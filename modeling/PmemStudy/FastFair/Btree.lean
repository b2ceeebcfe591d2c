import PmemStudy.FastFair.Page

/-!
# The tree of FAST&FAIR (fastfair/fastfair.h)

`store` puts a key into a page or into a right neighbour, splits the page when
it is full and hands the separator to the level above. A function that writes
is again the list of its stores, in program order. Loops and calls that need
not end take fuel; `none` is a walk that has not ended or a pointer to no page.
-/

namespace PmemStudy.FastFair

/-- `btree` and the pages it was given by `operator new`. -/
structure Btree where
  pages : ℕ → Option Page
  root : ℕ
  height : ℕ
  allocated : ℕ

inductive TreeStore where
  | page (a : ℕ) (s : PageStore)
  | newPage (a : ℕ) (p : Page)
  | root (a : ℕ)
  | height (n : ℕ)

namespace Btree

def apply (t : Btree) : TreeStore → Btree
  | .page a s => { t with pages := Function.update t.pages a ((t.pages a).map (·.apply s)) }
  | .newPage a p =>
    { t with pages := Function.update t.pages a (some p), allocated := t.allocated + 1 }
  | .root a => { t with root := a }
  | .height n => { t with height := n }

def run (t : Btree) (l : List TreeStore) : Btree := l.foldl apply t

/-- `btree()`; `alloc i` is the address that the `i`-th `new page` returns. -/
def new (alloc : ℕ → ℕ) : Btree where
  pages := Function.update (fun _ => none) (alloc 0) (some (Page.new 0))
  root := alloc 0
  height := 1
  allocated := 1

/-! ### Searches -/

def linearSearch (t : Btree) (a : ℕ) (key : ℤ) : Option ℕ := do
  let p ← t.pages a
  p.linearSearch t.pages key

/-- `while (p->hdr.leftmost_ptr != NULL) p = p->linear_search(key)`. -/
def findLeaf (t : Btree) (key : ℤ) : ℕ → ℕ → Option ℕ
  | 0, _ => none
  | fuel + 1, a => do
    let p ← t.pages a
    if p.leftmostPtr ≠ NULL then
      let b ← t.linearSearch a key
      findLeaf t key fuel b
    else some a

/-- `while (p->hdr.level > level) p = p->linear_search(key)`. -/
def findLevel (t : Btree) (key : ℤ) (level : ℕ) : ℕ → ℕ → Option ℕ
  | 0, _ => none
  | fuel + 1, a => do
    let p ← t.pages a
    if level < p.level then
      let b ← t.linearSearch a key
      findLevel t key level fuel b
    else some a

/-- `while ((t = p->linear_search(key)) == p->hdr.sibling_ptr) { p = t; if (!p) break; }`;
the result is `p` and `t`. -/
def followSiblings (t : Btree) (key : ℤ) : ℕ → ℕ → Option (ℕ × ℕ)
  | 0, _ => none
  | fuel + 1, a => do
    let p ← t.pages a
    let r ← t.linearSearch a key
    if r = p.siblingPtr then
      if r = NULL then some (r, r) else followSiblings t key fuel r
    else some (a, r)

def btreeSearch (fuel : ℕ) (t : Btree) (key : ℤ) : Option ℕ := do
  let a ← t.findLeaf key fuel t.root
  let found ← t.followSiblings key fuel a
  some found.2

/-! ### store -/

/-- `sibling->insert_key(.., &sibling_cnt, false)` for each of the entries. -/
def migrate (q : Page) (cnt : ℕ) : List Entry → List PageStore
  | [] => []
  | e :: es =>
    q.insertKey e.key e.ptr cnt ++ migrate (q.run (q.insertKey e.key e.ptr cnt)) (cnt + 1) es

/-- The records that move to the sibling: from `m` on in a leaf, behind `m` in
an internal page. -/
def movedRecords (p : Page) (num m : ℕ) : List Entry :=
  let start := if p.leftmostPtr = NULL then m else m + 1
  (List.range' start (num - start)).map p.records

/-- What is written to the sibling before it is linked. -/
def siblingStores (p : Page) (num m : ℕ) : List PageStore :=
  migrate (Page.new p.level) 0 (movedRecords p num m) ++
  (if p.leftmostPtr = NULL then [] else [.leftmostPtr (p.records m).ptr]) ++
  [.siblingPtr p.siblingPtr]

/-- The old page after the sibling is linked. -/
def truncateStores (p : Page) (m : ℕ) : List PageStore :=
  [.switchCounter ((p.switchCounter + if isForward p.switchCounter then 2 else 1) % 256),
    .ptr m NULL, .lastIndex (m - 1)]

def splitStores (a sibling : ℕ) (p : Page) (num m : ℕ) : List TreeStore :=
  .newPage sibling (Page.new p.level) :: (siblingStores p num m).map (.page sibling) ++
  .page a (.siblingPtr sibling) :: (truncateStores p m).map (.page a)

/-- `btree_insert_internal`, over the `store` it calls. -/
def btreeInsertInternal (store : Btree → ℕ → ℤ → ℕ → Option (List TreeStore × ℕ)) :
    ℕ → Btree → ℤ → ℕ → ℕ → Option (List TreeStore)
  | 0, _, _, _, _ => none
  | fuel + 1, t, key, right, level => do
    let r ← t.pages t.root
    if r.level < level then some []
    else
      let a ← t.findLevel key level fuel t.root
      let stored ← store t a key right
      if stored.2 = NULL then
        (btreeInsertInternal store fuel (t.run stored.1) key right level).map (stored.1 ++ ·)
      else some stored.1

/-- `setNewRoot(new page(this, split_key, sibling, level + 1))`. -/
def newRootStores (t : Btree) (newRoot a : ℕ) (splitKey : ℤ) (sibling level : ℕ) :
    List TreeStore :=
  [.newPage newRoot (Page.newRoot a splitKey sibling level), .root newRoot, .height (t.height + 1)]

/-- `store` on the page at `a`: its stores and the page it returns. -/
def store (alloc : ℕ → ℕ) : ℕ → Btree → ℕ → ℤ → ℕ → Option (List TreeStore × ℕ)
  | 0, _, _, _, _ => none
  | fuel + 1, t, a, key, right => do
    let p ← t.pages a
    if p.isDeleted then some ([], NULL)
    else
      let beyond ←
        if p.siblingPtr ≠ NULL then
          (t.pages p.siblingPtr).map fun s => decide ((s.records 0).key < key)
        else some false
      if beyond then store alloc fuel t p.siblingPtr key right
      else if p.count < cardinality - 1 then
        some ((p.insertKey key right p.count).map (.page a), a)
      else
        let sibling := alloc t.allocated
        let m := p.count / 2
        let splitKey := (p.records m).key
        let split := splitStores a sibling p p.count m
        let p1 ← (t.run split).pages a
        let s1 ← (t.run split).pages sibling
        let ret := if key < splitKey then a else sibling
        let insert := if key < splitKey then (p1.insertKey key right m).map (.page a)
          else (s1.insertKey key right (movedRecords p p.count m).length).map (.page sibling)
        let t2 := t.run (split ++ insert)
        if t.root = a then
          some (split ++ insert ++
            newRootStores t2 (alloc t2.allocated) a splitKey sibling (p.level + 1), ret)
        else
          let up ← btreeInsertInternal (store alloc fuel) fuel t2 splitKey sibling (p.level + 1)
          some (split ++ insert ++ up, ret)

/-! ### The operations -/

def btreeInsert (alloc : ℕ → ℕ) : ℕ → Btree → ℤ → ℕ → Option (List TreeStore)
  | 0, _, _, _ => none
  | fuel + 1, t, key, right => do
    let a ← t.findLeaf key fuel t.root
    let stored ← store alloc fuel t a key right
    if stored.2 = NULL then
      (btreeInsert alloc fuel (t.run stored.1) key right).map (stored.1 ++ ·)
    else some stored.1

def btreeDelete : ℕ → Btree → ℤ → Option (List TreeStore)
  | 0, _, _ => none
  | fuel + 1, t, key => do
    let a ← t.findLeaf key fuel t.root
    let found ← t.followSiblings key fuel a
    if found.1 ≠ NULL then
      let p ← t.pages found.1
      let removed := p.removeKey key
      let l := removed.1.map (.page found.1)
      if removed.2 then some l else (btreeDelete fuel (t.run l) key).map (l ++ ·)
    else some []

end Btree

end PmemStudy.FastFair
