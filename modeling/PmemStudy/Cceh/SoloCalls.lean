import PmemStudy.Cceh.SharedContents

/-!
# A call that runs alone

Without other threads the steps of `Insert` from `RETRY` on add up to `insertPass`, and the
steps of `Get` to `get`. None of them is a step that `Orderly` excludes, and the reads of a
check agree. Whether `Split` may drop pairs is left open.
-/

namespace PmemStudy.Cceh

open AlignedBlocks Threads

section Solo

variable (L : Prop) (b : Build) (H : HashFuncs) (call : Call)

/-- The next step is one that `Orderly` admits, and it drops no pair if `L` holds. -/
def Admitted (c : CCEH × Pc) : Prop :=
  Orderly b H c.1 ⟨some (call, c.2), none, fun _ => 0, fun _ => false⟩ ∧
    c.2.Lands H c.1 call ∧ (L → c.2.Roomy b H c.1)

/-- The call goes on after one step. -/
def Solo (c d : CCEH × Pc) : Prop := Admitted L b H call c ∧ c.2.next b H call c.1 = (d.1, .goto d.2)

def Goes : CCEH × Pc → CCEH × Pc → Prop := Relation.ReflTransGen (Solo L b H call)

/-- The call comes to return `v`. -/
def Ends (c : CCEH × Pc) (st : CCEH) (v : Option Value) : Prop :=
  ∃ d, Goes L b H call c d ∧ Admitted L b H call d ∧ d.2.next b H call d.1 = (st, .ret v)

/-- The steps from `c` on do what a pass does. -/
def Pass.Agrees (c : CCEH × Pc) : Pass → Prop
  | .done st => Ends L b H call c st none
  | .again st => Goes L b H call c (st, call.retry)
  | .spin => True

end Solo

section Steps

variable {L : Prop} {b : Build} {H : HashFuncs} {call : Call} {st s : CCEH} {c d e : CCEH × Pc} {pc q : Pc}

theorem Goes.refl (c : CCEH × Pc) : Goes L b H call c c := Relation.ReflTransGen.refl

theorem Goes.trans (h : Goes L b H call c d) (h' : Goes L b H call d e) : Goes L b H call c e :=
  Relation.ReflTransGen.trans h h'

/-- Nothing is asked for at this point. -/
def Pc.free : Pc → Bool
  | .check _ _ (.entry ..) => false
  | .update _ (.depth .double _) => false
  | .update _ (.store _ false _ _) => false
  | .split .. => false
  | _ => true

theorem Admitted.of_free (hf : pc.free = true) : Admitted L b H call (st, pc) := by
  cases pc with
  | check x target r =>
    cases r with
    | entry y D => cases hf
    | _ => exact ⟨⟨trivial, trivial⟩, trivial, fun _ => trivial⟩
  | update u k =>
    cases k with
    | depth use D =>
      cases use with
      | double => cases hf
      | _ => exact ⟨⟨trivial, trivial⟩, trivial, fun _ => trivial⟩
    | store D begun w rest =>
      cases begun with
      | false => cases hf
      | true => exact ⟨⟨trivial, trivial⟩, trivial, fun _ => trivial⟩
    | _ => exact ⟨⟨trivial, trivial⟩, trivial, fun _ => trivial⟩
  | split target d => cases hf
  | _ => exact ⟨⟨trivial, trivial⟩, trivial, fun _ => trivial⟩

theorem Goes.admitted (ho : Admitted L b H call (st, pc))
    (h : pc.next b H call st = (s, .goto q)) (h' : Goes L b H call (s, q) e) :
    Goes L b H call (st, pc) e :=
  Relation.ReflTransGen.head (show Solo L b H call (st, pc) (s, q) from ⟨ho, h⟩) h'

theorem Goes.step (hf : pc.free = true) (h : pc.next b H call st = (s, .goto q))
    (h' : Goes L b H call (s, q) e) : Goes L b H call (st, pc) e :=
  .admitted (.of_free hf) h h'

theorem Goes.one (hf : pc.free = true) (h : pc.next b H call st = (s, .goto q)) :
    Goes L b H call (st, pc) (s, q) :=
  .step hf h (.refl _)

theorem Goes.ends {v : Option Value} (h : Goes L b H call c d) (h' : Ends L b H call d st v) :
    Ends L b H call c st v := by
  obtain ⟨r, hr, hv⟩ := h'
  exact ⟨r, h.trans hr, hv⟩

theorem Goes.agrees {r : Pass} (h : Goes L b H call c d) (h' : r.Agrees L b H call d) :
    r.Agrees L b H call c := by
  cases r with
  | done st => exact h.ends h'
  | again st => exact h.trans h'
  | spin => trivial

/-! ### Semaphores -/

theorem CCEH.setSem_same (st : CCEH) (m : Sem) : st.setSem m (st.sema m) = st := by
  cases m with
  | seg p => exact st.setSema_same p
  | dir D =>
    show st.setDir D { st.dirs D with sema := (st.dirs D).sema } = st
    unfold CCEH.setDir
    rw [Function.update_eq_self D st.dirs]

theorem CCEH.setSem_setSem (st : CCEH) (m : Sem) (v w : ℤ) :
    (st.setSem m v).setSem m w = st.setSem m w := by
  cases m with
  | seg p => exact st.setSema_setSema p v w
  | dir D => simp only [setSem, setDirSema, setDir, Function.update_self, Function.update_idem]

/-- `lock()` takes two steps. -/
theorem goes_lock {m : Sem} {k : After} (h : 0 ≤ st.sema m) (hk : k.next b call true = .goto q) :
    Goes L b H call (st, .sema .lock m .load k) (st.setSem m (st.sema m + 1), q) := by
  refine .step (s := st) (q := .sema .lock m (.cas (st.sema m)) k) rfl ?_ (.one rfl ?_)
  · have hopen : st.sema m > -1 := by omega
    simp only [Pc.next, semaStep, lockStep, if_pos hopen, CCEH.setSem_same]
  · simp only [Pc.next, semaStep, lockStep, if_true, hk]

theorem goes_lock_refused {m : Sem} {k : After} (h : st.sema m < 0)
    (hk : k.next b call false = .goto q) :
    Goes L b H call (st, .sema .lock m .load k) (st, q) := by
  refine .one rfl ?_
  have hshut : ¬ st.sema m > -1 := by omega
  simp only [Pc.next, semaStep, lockStep, if_neg hshut, CCEH.setSem_same, hk]

theorem goes_unlock_cas {m : Sem} {k : After} :
    Goes L b H call (st, .sema .unlock m .load k) (st, .sema .unlock m (.cas (st.sema m)) k) := by
  refine .one rfl ?_
  simp only [Pc.next, semaStep, unlockStep, CCEH.setSem_same]

theorem goes_unlock {m : Sem} {k : After} (hk : k.next b call true = .goto q) :
    Goes L b H call (st, .sema .unlock m .load k) (st.setSem m (st.sema m - 1), q) := by
  refine goes_unlock_cas.trans (.one rfl ?_)
  simp only [Pc.next, semaStep, unlockStep, if_true, hk]

theorem ends_unlock {m : Sem} {k : After} {v : Option Value} (hk : k.next b call true = .ret v) :
    Ends L b H call (st, .sema .unlock m .load k) (st.setSem m (st.sema m - 1)) v := by
  refine ⟨_, goes_unlock_cas, .of_free rfl, ?_⟩
  simp only [Pc.next, semaStep, unlockStep, if_true, hk]

/-- `suspend()` finds no holders. -/
theorem goes_suspend {m : Sem} {k : After} (h : st.sema m = 0)
    (hk : k.next b call true = .goto q) :
    Goes L b H call (st, .sema .suspend m .load k) (st.setSem m (-1), q) := by
  refine .step (s := st) (q := .sema .suspend m (.cas 0) k) rfl ?_ (.step (s := st.setSem m (-1))
    (q := .sema .suspend m (.wait 0) k) rfl ?_ (.one rfl ?_))
  · have hopen : ¬ st.sema m < 0 := by omega
    simp only [Pc.next, semaStep, suspendStep, if_neg hopen, CCEH.setSem_same]
    rw [h]
  · simp only [Pc.next, semaStep, suspendStep, h, if_true]
  · simp [Pc.next, semaStep, suspendStep, CCEH.setSem_setSem, hk]

theorem goes_suspend_refused {m : Sem} {k : After} (h : st.sema m < 0)
    (hk : k.next b call false = .goto q) :
    Goes L b H call (st, .sema .suspend m .load k) (st, q) := by
  refine .one rfl ?_
  simp only [Pc.next, semaStep, suspendStep, if_pos h, CCEH.setSem_same, hk]

/-! ### The directory and the slots -/

theorem goes_find : Goes L b H call (st, .find .dir)
    (st, .find (.entry (topBits (H.f call.key) st.curDir.depth) st.dir)) :=
  .step rfl rfl (.step rfl rfl (.one rfl rfl))

theorem goes_check (x target : ℕ) : Goes L b H call (st, .check x target .dir)
    (st, .check x target (.entry (topBits (H.f call.key) st.curDir.depth) st.dir)) :=
  .step rfl rfl (.step rfl rfl (.one rfl rfl))

/-- The slot loop finds the first slot that can be taken. -/
theorem goes_probe {x target pattern : ℕ} (slots : List Slot) :
    Goes L b H call (st, .probe x target pattern slots)
      (match slots.find? (reusable H (st.segs target) pattern) with
      | some loc => (st.poolStore (.slotKey target loc SENTINEL), .value target loc)
      | none => (st, .depth x target)) := by
  induction slots with
  | nil => exact .one rfl rfl
  | cons loc slots ih =>
    by_cases hr : reusable H (st.segs target) pattern loc
    · rw [List.find?_cons_of_pos hr]
      refine .step (s := st) rfl rfl (.step (s := st)
        (q := .claim x target pattern loc ((st.segs target).bucket loc).key slots) rfl ?_ (.one rfl ?_))
      · simp only [Pc.next, if_pos hr]
      · simp only [Pc.next, if_true]
    · rw [List.find?_cons_of_neg hr]
      refine .step (s := st) rfl rfl (.step (s := st) (q := .probe x target pattern slots) rfl ?_ ih)
      simp only [Pc.next, if_neg hr]

/-- The scan of `Get`. -/
theorem goes_scan {target : ℕ} (slots : List Slot) :
    Goes L b H call (st, .scan target slots)
      (match slots.find? fun loc => decide (((st.segs target).bucket loc).key = call.key) with
      | some loc => (st, .found target loc)
      | none => (st, .scan target [])) := by
  induction slots with
  | nil => exact .refl _
  | cons loc slots ih =>
    by_cases hr : ((st.segs target).bucket loc).key = call.key
    · rw [List.find?_cons_of_pos (by simpa using hr)]
      refine .one rfl ?_
      simp only [Pc.next, if_pos hr]
    · rw [List.find?_cons_of_neg (by simpa using hr)]
      refine .step (s := st) (q := .scan target slots) rfl ?_ ih
      simp only [Pc.next, if_neg hr]

/-! ### The directory update -/

variable {u : Halves}

/-- The stores of a normal split. -/
theorem goes_storing (begun : Bool) (l : List Store)
    (h : begun = false → ∀ w ∈ l, w.Replaces st.curDir u.target) :
    Goes L b H call (st, .update u (Halves.storing begun l))
      (st.stores l, .update u (.dir .unlock)) := by
  induction l generalizing st begun with
  | nil => exact .refl _
  | cons w l ih =>
    refine .step (s := st) (q := .update u (.store st.dir begun w l)) rfl rfl
      (.admitted (s := st.store w) (q := .update u (Halves.storing true l)) ?_ ?_ (ih true (by simp)))
    · cases begun with
      | true => exact .of_free rfl
      | false => exact ⟨⟨trivial, h rfl⟩, trivial, fun _ => trivial⟩
    · cases w <;> rfl

theorem Halves.own_even (x i s : ℕ) : (u.own x (2 * i)).getD s = if i = x then u.s0 else s := by
  have hd : 2 * i / 2 = i := by omega
  have hm : 2 * i % 2 = 0 := by omega
  simp only [own, hd, hm, if_true]
  split <;> rfl

theorem Halves.own_odd (x i s : ℕ) : (u.own x (2 * i + 1)).getD s = if i = x then u.s1 else s := by
  have hd : (2 * i + 1) / 2 = i := by omega
  have hm : ¬ (2 * i + 1) % 2 = 0 := by omega
  simp only [own, hd, if_neg hm]
  split <;> rfl

/-- The copying loop from entry `i` on. -/
theorem goes_copies {x n : ℕ} (hn : st.dir ≠ n) (k i : ℕ) (hk : i + k = st.curDir.capacity) :
    Goes L b H call (st, .update u (.dir (.copy x st.dir n i)))
      (st.stores ((List.range' i k).flatMap fun i =>
        if i = x then [.newEntry n (2 * i) u.s0, .newEntry n (2 * i + 1) u.s1]
        else [.newEntry n (2 * i) (st.curDir.segment i), .newEntry n (2 * i + 1)
          (st.curDir.segment i)]), .update u (.publish n)) := by
  induction k generalizing st i with
  | zero =>
    have hi : ¬ i < (st.dirs st.dir).capacity := by
      show ¬ i < st.curDir.capacity
      omega
    refine .step (s := st) (q := .update u (.copyTest x st.dir n i st.dir)) rfl rfl (.one rfl ?_)
    simp only [Pc.next, Halves.next, if_neg hi]
    rfl
  | succ k ih =>
    have hi : i < (st.dirs st.dir).capacity := by
      show i < st.curDir.capacity
      omega
    have hd0 : 2 * i / 2 = i := by omega
    have hd1 : (2 * i + 1) / 2 = i := by omega
    have hm0 : 2 * i % 2 = 0 := by omega
    have hm1 : ¬ (2 * i + 1) % 2 = 0 := by omega
    let v0 := if i = x then u.s0 else st.curDir.segment i
    let v1 := if i = x then u.s1 else st.curDir.segment i
    let st1 := st.store (.newEntry n (2 * i) v0)
    let st2 := st1.store (.newEntry n (2 * i + 1) v1)
    have hcur1 : st1.dirs st.dir = st.curDir := Function.update_of_ne hn ..
    have hcur2 : st2.curDir = st.curDir := (Function.update_of_ne hn ..).trans hcur1
    have hown0 : (u.own x (2 * i)).getD ((st.dirs st.dir).segment (2 * i / 2)) = v0 := by
      rw [hd0, u.own_even]
      rfl
    have hown1 : (u.own x (2 * i + 1)).getD ((st1.dirs st.dir).segment ((2 * i + 1) / 2)) = v1 := by
      rw [hd1, hcur1, u.own_odd]
    have hgo : Goes L b H call (st, .update u (.dir (.copy x st.dir n i)))
        (st2, .update u (.dir (.copy x st.dir n (i + 1)))) := by
      refine .step (s := st) (q := .update u (.copyTest x st.dir n i st.dir)) rfl rfl
        (.step (s := st) (q := .update u (.copyRead x st.dir n (2 * i))) rfl ?_
        (.step (s := st) (q := .update u (.copyStore x st.dir n (2 * i) v0)) rfl ?_
        (.step (s := st1) (q := .update u (.copyRead x st.dir n (2 * i + 1))) rfl ?_
        (.step (s := st1) (q := .update u (.copyStore x st.dir n (2 * i + 1) v1)) rfl ?_ (.one rfl ?_)))))
      · simp only [Pc.next, Halves.next, if_pos hi]
      · simp only [Pc.next, Halves.next, hown0]
      · simp only [Pc.next, Halves.next, if_pos hm0]
        rfl
      · simp only [Pc.next, Halves.next, hown1]
      · simp only [Pc.next, Halves.next, if_neg hm1, hd1]
        rfl
    refine hgo.trans ?_
    have hrest := ih (show st2.dir ≠ n from hn) (i + 1) (by rw [hcur2]; omega)
    rw [hcur2] at hrest
    rw [List.range'_succ, List.flatMap_cons, CCEH.stores_append]
    have hpair : st.stores (if i = x then [.newEntry n (2 * i) u.s0, .newEntry n (2 * i + 1) u.s1]
        else [.newEntry n (2 * i) (st.curDir.segment i), .newEntry n (2 * i + 1)
          (st.curDir.segment i)]) = st2 := by
      by_cases hx : i = x
      · simp only [if_pos hx, st2, st1, v0, v1]
        rfl
      · simp only [if_neg hx, st2, st1, v0, v1]
        rfl
    rw [hpair]
    exact hrest

/-- After the last directory store of the update. -/
theorem goes_finish : Goes L b H call (st, u.finish b call)
    (releaseSplit b (bumpDepth b st u.s0) u.s0, call.retry) := by
  cases b with
  | cow => exact .refl _
  | inplace => exact .step (s := st.store (.localDepth u.s0)) (q := .release u.s0) rfl rfl (.one rfl rfl)

theorem stores_stride_full (b : Build) (st : CCEH) (stride x s0 s1 : ℕ) :
    st.stores (strideStores b stride x s0 s1) = st.setDir st.dir { st.curDir with
      segment := strideSegment b stride x stride s0 s1 st.curDir.segment } := by
  rw [← stores_stride_take, strideStores_take_full b stride x s0 s1 stride le_rfl]

/-- The lock of the directory around the stores of a normal split leaves no trace. -/
theorem stores_stride_locked (b : Build) (st : CCEH) (stride x s0 s1 : ℕ) (v : ℤ) :
    (((st.setSem (.dir st.dir) v).stores (strideStores b stride x s0 s1)).setSem (.dir st.dir)
      (st.sema (.dir st.dir))) = st.stores (strideStores b stride x s0 s1) := by
  simp only [stores_stride_full, CCEH.setSem, CCEH.setDirSema, CCEH.setDir, CCEH.curDir, CCEH.sema,
    Function.update_self, Function.update_idem]

theorem stores_stride_sema (b : Build) (st : CCEH) (stride x s0 s1 : ℕ) :
    (st.stores (strideStores b stride x s0 s1)).sema (.dir st.dir) = st.sema (.dir st.dir) := by
  simp only [stores_stride_full, CCEH.sema, CCEH.setDir, CCEH.curDir, Function.update_self]

/-- What a call needs of the table: the segment of its key fills one block. -/
structure Served (H : HashFuncs) (st : CCEH) (key : Key) (target d : ℕ) : Prop where
  target_lt : target < st.nseg
  dir_lt : st.dir < st.ndir
  level : (st.segs target).localDepth = d
  level_le : d ≤ st.curDir.depth
  block : ∀ j < 2 ^ st.curDir.depth, j / 2 ^ (st.curDir.depth - d) =
    topBits (H.f key) st.curDir.depth / 2 ^ (st.curDir.depth - d) → st.curDir.segment j = target

theorem Served.setSema {key : Key} {target d : ℕ} (h : Served H st key target d) (p : ℕ) (v : ℤ) :
    Served H (st.setSema p v) key target d := by
  refine ⟨h.target_lt, h.dir_lt, ?_, h.level_le, h.block⟩
  rw [← h.level]
  by_cases hp : target = p
  · rw [hp, CCEH.setSema_segs_self, Segment.withSema_localDepth]
  · rw [CCEH.setSema, CCEH.setSeg_segs_of_ne _ _ _ _ hp]

theorem Served.allocSplit {key : Key} {target d : ℕ} (h : Served H st key target d) (p : ℕ) :
    Served H (allocSplit b H st p).1 key target d := by
  have ha := (allocSplit_spec b H st p).2
  have hcur : (Cceh.allocSplit b H st p).1.curDir = st.curDir := by
    rw [CCEH.curDir, ha.dirs, ha.dir]
    rfl
  have hnseg : st.nseg ≤ (Cceh.allocSplit b H st p).1.nseg := by
    rw [ha.nseg]
    cases b <;> simp
  refine ⟨h.target_lt.trans_le hnseg, ?_, ?_, ?_, ?_⟩
  · rw [ha.dir, ha.ndir]
    exact h.dir_lt
  · rw [ha.older target h.target_lt, h.level]
  · rw [hcur]
    exact h.level_le
  · rw [hcur]
    exact h.block

/-- The update of a segment whose depth is that of the directory. -/
theorem goes_double (h : Served H st call.key u.target u.target_local_depth)
    (hs : st.curDir.sema = 0) (hl : (st.segs u.target).localDepth = st.curDir.depth) :
    let P := st.setDir st.dir { st.curDir with sema := -1 }
    let A : CCEH := { P.setDir P.ndir ((P.dirs P.ndir).initDirectory (st.curDir.depth + 1)) with
      ndir := P.ndir + 1 }
    Goes L b H call (st, .update u .level)
      (releaseSplit b (A.stores (splitStores b st.curDir st.ndir (H.f call.key)
        (st.segs u.target).localDepth u.s0 u.s1)) u.s0, call.retry) := by
  intro P A
  have hne : st.dir ≠ st.ndir := h.dir_lt.ne
  have hP : P.curDir = { st.curDir with sema := -1 } := st.setDir_curDir _
  have hA : A.curDir = { st.curDir with sema := -1 } := (Function.update_of_ne hne ..).trans hP
  let x := topBits (H.f call.key) st.curDir.depth
  have hsuspend : Goes L b H call (st, .update u .level) (P, .update u (.dir (.depth .double))) := by
    refine .step (s := st) (q := .update u (.dir (.depth (.compare (st.segs u.target).localDepth)))) rfl
      rfl (.step (s := st) (q := .update u (.depth (.compare (st.segs u.target).localDepth) st.dir)) rfl
      rfl (.step (s := st) (q := .update u (.dir .suspend)) rfl ?_ (.step (s := st)
      (q := .sema .suspend (.dir st.dir) .load (.double u)) rfl rfl (goes_suspend hs rfl))))
    have hd : (st.segs u.target).localDepth = (st.dirs st.dir).depth := hl
    simp only [Pc.next, Halves.next, Halves.withDepth, if_pos hd]
  have hnew : Goes L b H call (P, .update u (.dir (.depth .double)))
      (A, .update u (.dir (.copy x A.dir st.ndir 0))) := by
    have hdepth : (P.dirs st.dir).depth = st.curDir.depth := by
      show P.curDir.depth = _
      rw [hP]
    refine .step (s := P) (q := .update u (.depth .double st.dir)) rfl rfl
      (.admitted (s := P) (q := .update u (.dir (.source x))) ?_ ?_
      (.step (s := P) (q := .update u (.dir (.depth (.newDir x st.dir)))) rfl rfl
      (.step (s := P) (q := .update u (.depth (.newDir x st.dir) st.dir)) rfl rfl
      (.step (s := P) (q := .update u (.newDir x st.dir (st.curDir.depth + 1))) rfl ?_ (.one rfl rfl)))))
    · refine ⟨⟨trivial, hdepth.trans (hl.symm.trans h.level), ?_⟩, trivial, fun _ => trivial⟩
      show P.curDir.segment (topBits (H.f call.key) (P.dirs st.dir).depth) = u.target
      rw [hdepth, hP]
      exact h.block x (topBits_lt_pow _ _) rfl
    · simp only [Pc.next, Halves.next, Halves.withDepth, hdepth, x]
    · simp only [Pc.next, Halves.next, Halves.withDepth, hdepth]
  have hcopy : Goes L b H call (A, .update u (.dir (.copy x A.dir st.ndir 0))) _ :=
    goes_copies (show A.dir ≠ st.ndir from hne) A.curDir.capacity 0 (Nat.zero_add _)
  rw [hA] at hcopy
  have hlist : splitStores b st.curDir st.ndir (H.f call.key) (st.segs u.target).localDepth u.s0
      u.s1 = doublingStores st.curDir st.ndir x u.s0 u.s1 ++ [.dirPtr st.ndir] ++ bumpStores b u.s0 := by
    simp only [splitStores, if_pos hl, x]
  have hstored : bumpDepth b ((A.stores (doublingStores st.curDir st.ndir x u.s0 u.s1)).store
      (.dirPtr st.ndir)) u.s0 = A.stores (splitStores b st.curDir st.ndir (H.f call.key)
      (st.segs u.target).localDepth u.s0 u.s1) := by
    rw [hlist, CCEH.stores_append, CCEH.stores_append]
    cases b <;> rfl
  rw [← hstored]
  refine hsuspend.trans (hnew.trans (hcopy.trans (.step (s := (A.stores (doublingStores st.curDir
    st.ndir x u.s0 u.s1)).store (.dirPtr st.ndir)) (q := u.finish b call) rfl ?_ goes_finish)))
  simp only [Pc.next, Halves.next, doublingStores, List.range_eq_range']

/-- The update of a segment whose depth is not that of the directory. -/
theorem goes_normal (h : Served H st call.key u.target u.target_local_depth)
    (hs : 0 ≤ st.curDir.sema) (hl : (st.segs u.target).localDepth ≠ st.curDir.depth) :
    Goes L b H call (st, .update u .level)
      (releaseSplit b (st.stores (splitStores b st.curDir st.ndir (H.f call.key)
        (st.segs u.target).localDepth u.s0 u.s1)) u.s0, call.retry) := by
  let X := st.setSem (.dir st.dir) (st.sema (.dir st.dir) + 1)
  let x := topBits (H.f call.key) st.curDir.depth
  have hX : X.curDir = { st.curDir with sema := st.sema (.dir st.dir) + 1 } := st.setDir_curDir _
  have hlock : Goes L b H call (st, .update u .level) (X, .update u (.dir (.depth .index))) := by
    refine .step (s := st) (q := .update u (.dir (.depth (.compare (st.segs u.target).localDepth)))) rfl
      rfl (.step (s := st) (q := .update u (.depth (.compare (st.segs u.target).localDepth) st.dir)) rfl
      rfl (.step (s := st) (q := .update u (.dir .lock)) rfl ?_ (.step (s := st)
      (q := .sema .lock (.dir st.dir) .load (.normal u)) rfl rfl (goes_lock hs rfl))))
    have hd : ¬ (st.segs u.target).localDepth = (st.dirs st.dir).depth := hl
    simp only [Pc.next, Halves.next, Halves.withDepth, if_neg hd]
  have hdepth : (X.dirs st.dir).depth = st.curDir.depth := by
    show X.curDir.depth = _
    rw [hX]
  have hindex : Goes L b H call (X, .update u (.dir (.depth .index)))
      (X, .update u (.buddyLevel x st.curDir.depth)) := by
    refine .step (s := X) (q := .update u (.depth .index st.dir)) rfl rfl
      (.step (s := X) (q := .update u (.dir (.depth (.buddy x)))) rfl ?_
      (.step (s := X) (q := .update u (.depth (.buddy x) st.dir)) rfl rfl (.one rfl ?_)))
    · simp only [Pc.next, Halves.next, Halves.withDepth, hdepth, x]
    · simp only [Pc.next, Halves.next, Halves.withDepth, hdepth]
  have hlt : (st.segs u.target).localDepth < st.curDir.depth :=
    lt_of_le_of_ne (h.level.le.trans h.level_le) hl
  let stride := 2 ^ (st.curDir.depth - (st.segs u.target).localDepth)
  have hlist := splitStores_stride b st.curDir st.ndir (H.f call.key) _ u.s0 u.s1 hlt
  have hgo : Goes L b H call (X, .update u (.buddyLevel x st.curDir.depth))
      (X, .update u (Halves.storing false (strideStores b stride x u.s0 u.s1))) := by
    by_cases hbuddy : st.curDir.depth = (st.segs u.target).localDepth + 1
    · -- the buddy pair is a stride of length 2
      have hb : st.curDir.depth = (X.segs u.target).localDepth + 1 := hbuddy
      have hstride : stride = 2 := by
        have : st.curDir.depth - (st.segs u.target).localDepth = 1 := by omega
        simp only [stride, this, pow_one]
      refine .one rfl ?_
      simp only [Pc.next, Halves.next, if_pos hb, buddyStores_eq, hstride]
    · have hb : ¬ st.curDir.depth = (X.segs u.target).localDepth + 1 := hbuddy
      refine .step (s := X) (q := .update u (.dir (.depth (.stride x)))) rfl ?_
        (.step (s := X) (q := .update u (.depth (.stride x) st.dir)) rfl rfl (.one rfl ?_))
      · simp only [Pc.next, Halves.next, if_neg hb]
      · simp only [Pc.next, Halves.next, Halves.withDepth, hdepth, ← h.level, stride]
  have hreplaces : ∀ w ∈ strideStores b stride x u.s0 u.s1, w.Replaces X.curDir u.target := by
    intro w hw
    obtain ⟨i, hi, s, rfl, _⟩ := mem_strideStores hlt (topBits_lt_pow _ _) hw
    have hblock := (stride_splitBlock hlt hw : _ ∧ splitBlock _ _ _ _ _ st.curDir.segment i = s).1
    rw [h.level] at hblock
    show X.curDir.segment i = u.target
    rw [hX]
    exact h.block i hi hblock
  have hstored : bumpDepth b (st.stores (strideStores b stride x u.s0 u.s1)) u.s0 =
      st.stores (splitStores b st.curDir st.ndir (H.f call.key) (st.segs u.target).localDepth u.s0
        u.s1) := by
    rw [hlist, CCEH.stores_append]
    cases b <;> rfl
  let S := X.stores (strideStores b stride x u.s0 u.s1)
  have hdir : S.dir = st.dir := by
    show (X.stores (strideStores b stride x u.s0 u.s1)).dir = st.dir
    rw [stores_stride_full]
    rfl
  have hunlocked : S.setSem (.dir S.dir) (S.sema (.dir S.dir) - 1) =
      st.stores (strideStores b stride x u.s0 u.s1) := by
    have hsema : S.sema (.dir st.dir) = st.sema (.dir st.dir) + 1 :=
      (stores_stride_sema b X stride x u.s0 u.s1).trans (congrArg Directory.sema hX)
    rw [hdir, hsema, add_sub_cancel_right]
    exact stores_stride_locked b st stride x u.s0 u.s1 _
  have hunlock : Goes L b H call (S, .update u (.dir .unlock))
      (st.stores (strideStores b stride x u.s0 u.s1), u.finish b call) := by
    rw [← hunlocked]
    exact .step (s := S) (q := .sema .unlock (.dir S.dir) .load (.updated u)) rfl rfl (goes_unlock rfl)
  rw [← hstored]
  exact hlock.trans (hindex.trans (hgo.trans ((goes_storing _ _ fun _ => hreplaces).trans
    (hunlock.trans goes_finish))))

end Steps

/-! ### `Insert` -/

section Insert

variable {L : Prop} {b : Build} {H : HashFuncs} {key : Key} {value : Value} {st s : CCEH}
  {x target d : ℕ}

/-- Whatever its semaphore is, the segment has room in a split. -/
def SegmentRoom (L : Prop) (b : Build) (H : HashFuncs) (st : CCEH) (target : ℕ) : Prop :=
  L → ∀ pattern, (st.segs target).SplitFits b H pattern

theorem SegmentRoom.setSema (h : SegmentRoom L b H st target) (v : ℤ) :
    SegmentRoom L b H (st.setSema target v) target := by
  intro hL pattern
  rw [CCEH.setSema_segs_self]
  exact h hL pattern

theorem suspendAlone_acquired {v : ℤ} (h : suspendAlone v = .acquired) : v = 0 := by
  unfold suspendAlone at h
  split at h
  · cases h
  · split at h
    · assumption
    · cases h

/-- `Split` and the directory update. -/
theorem goes_split (hserved : Served H st key target d) (hroom : SegmentRoom L b H st target)
    (h : splitTarget b H st (H.f key) target = some s) :
    Goes L b H (.insert key value) (st, .split target d) (s, .find .dir) := by
  let u : Halves := ⟨target, d, (allocSplit b H st target).2.1, (allocSplit b H st target).2.2⟩
  refine .admitted (s := (allocSplit b H st target).1) (q := .update u .level)
    ⟨⟨trivial, trivial⟩, trivial, hroom⟩ rfl ?_
  have hsplit : Served H (allocSplit b H st target).1 key u.target u.target_local_depth :=
    hserved.allocSplit target
  unfold splitTarget beforeStores at h
  by_cases hl : ((allocSplit b H st target).1.segs target).localDepth =
      (allocSplit b H st target).1.curDir.depth
  · simp only [if_pos hl] at h
    cases hw : suspendAlone (allocSplit b H st target).1.curDir.sema with
    | acquired =>
      simp only [hw, Option.map_some, Option.some.injEq] at h
      rw [← h]
      exact goes_double hsplit (suspendAlone_acquired hw) hl
    | refused => simp [hw] at h
    | stuck => simp [hw] at h
  · simp only [if_neg hl] at h
    by_cases hs : (allocSplit b H st target).1.curDir.sema < 0
    · simp [if_pos hs] at h
    · simp only [if_neg hs, Option.map_some, Option.some.injEq] at h
      rw [← h]
      exact goes_normal hsplit (Int.not_lt.mp hs) hl

/-- The check after `suspend()`. -/
theorem goes_recheck (st : CCEH) : Goes L b H (.insert key value) (st, .recheck x target d (.start b target))
    (st, if d ≠ seenDepth b st x target then .release target else .split target d) := by
  cases b with
  | cow => exact .step (s := st) rfl rfl (.step (s := st) rfl rfl (.one rfl rfl))
  | inplace => exact .one rfl rfl

theorem agrees_collide (h : Served H st key target d) (hroom : SegmentRoom L b H st target) :
    (collide b H st (H.f key) x target d).Agrees L b H (.insert key value)
      (st, .sema .suspend (.seg target) .load (.suspended x target d)) := by
  unfold collide
  cases hw : suspendAlone (st.segs target).sema with
  | stuck => trivial
  | refused =>
    have hneg : (st.segs target).sema < 0 := by
      unfold suspendAlone at hw
      split at hw
      · assumption
      · split at hw <;> cases hw
    exact goes_suspend_refused hneg rfl
  | acquired =>
    have hgo : Goes L b H (.insert key value)
        (st, .sema .suspend (.seg target) .load (.suspended x target d))
        (st.setSema target (-1), if d ≠ seenDepth b (st.setSema target (-1)) x target
          then .release target else .split target d) :=
      (goes_suspend (show st.sema (.seg target) = 0 from suspendAlone_acquired hw) rfl).trans
        (goes_recheck _)
    refine hgo.agrees ?_
    simp only
    by_cases hseen : d ≠ seenDepth b (st.setSema target (-1)) x target
    · simp only [if_pos hseen]
      exact .one rfl rfl
    · simp only [if_neg hseen]
      split
      · next s hs => exact goes_split (h.setSema target (-1)) (hroom.setSema (-1)) hs
      · trivial

/-- The three stores into a slot. -/
theorem CCEH.store_pair (st : CCEH) (target : ℕ) (loc : Slot) (key : Key) (value : Value) :
    ((st.poolStore (.slotKey target loc SENTINEL)).poolStore (.slotValue target loc value)).poolStore
      (.slotKey target loc key) = st.setSeg target ((st.segs target).setPair loc ⟨key, value⟩) := by
  simp only [poolStore, setSeg_segs_self, setSeg_setSeg, Segment.setPair, Function.update_self,
    Function.update_idem]

/-- From the check of the entry on. -/
theorem agrees_locked (h : Served H st key target d)
    (hroom : findSlot H (st.segs target) key = none → SegmentRoom L b H st target) :
    (insertLocked b H st key value x target).Agrees L b H (.insert key value)
      (st, .check x target .dir) := by
  refine (goes_check x target).agrees ?_
  unfold insertLocked
  by_cases hroute : target ≠ st.route (H.f key)
  · rw [if_pos hroute]
    refine .admitted (s := st) (q := .sema .unlock (.seg target) .load .retry)
      ⟨⟨Or.inl trivial, trivial⟩, fun he => absurd he.symm hroute, fun _ => trivial⟩ ?_
      (goes_unlock rfl)
    have hne : target ≠ (st.dirs st.dir).segment (topBits (H.f key) st.curDir.depth) := hroute
    simp only [Pc.next, RoutePc.next, Call.key, if_pos hne]
  · rw [if_neg hroute]
    have heq : ¬ target ≠ (st.dirs st.dir).segment (topBits (H.f key) st.curDir.depth) := hroute
    have hbody : Goes L b H (.insert key value)
        (st, .check x target (.entry (topBits (H.f key) st.curDir.depth) st.dir))
        (st, .probe x target (topBits (H.f key) (st.segs target).localDepth) (windows H key)) := by
      refine .admitted (s := st) (q := .readPattern x target)
        ⟨⟨Or.inl trivial, trivial⟩, fun he => he, fun _ => trivial⟩ ?_ (.one rfl rfl)
      simp only [Pc.next, RoutePc.next, if_neg heq]
      rfl
    refine hbody.agrees (Goes.agrees (goes_probe _) ?_)
    unfold findSlot at hroom ⊢
    cases hf : List.find? (reusable H (st.segs target) (topBits (H.f key)
      (st.segs target).localDepth)) (windows H key) with
    | some loc =>
      show Ends L b H _ _ ((st.setSeg target ((st.segs target).setPair loc ⟨key, value⟩)).unlockSeg
        target) none
      rw [← st.store_pair]
      exact Goes.ends (.step rfl rfl (.one rfl rfl)) (ends_unlock rfl)
    | none =>
      refine Goes.agrees (.one rfl rfl) (Goes.agrees (goes_unlock rfl) ?_)
      rw [h.level]
      exact agrees_collide (h.setSema target _) ((hroom hf).setSema _)

/-- Alone, the steps from `RETRY` on are the pass. -/
theorem agrees_insertPass (h : Served H st key (st.route (H.f key)) d)
    (hroom : findSlot H (st.segs (st.route (H.f key))) key = none →
      SegmentRoom L b H st (st.route (H.f key))) :
    (insertPass b H st key value).Agrees L b H (.insert key value) (st, .find .dir) := by
  refine goes_find.agrees ?_
  unfold insertPass
  simp only
  by_cases hnull : st.route (H.f key) = OID_NULL
  · have hnull' : st.curDir.segment (topBits (H.f key) st.curDir.depth) = OID_NULL := hnull
    rw [if_pos hnull']
    refine .one rfl ?_
    have hread : (st.dirs st.dir).segment (topBits (H.f key) st.curDir.depth) = OID_NULL := hnull
    simp only [Pc.next, RoutePc.next, Call.key, if_pos hread]
  · have hnull' : ¬ st.curDir.segment (topBits (H.f key) st.curDir.depth) = OID_NULL := hnull
    rw [if_neg hnull']
    have hfound : Goes L b H (.insert key value)
        (st, .find (.entry (topBits (H.f key) st.curDir.depth) st.dir))
        (st, .sema .lock (.seg (st.route (H.f key))) .load
          (.locked (topBits (H.f key) st.curDir.depth) (st.route (H.f key)))) := by
      refine .one rfl ?_
      have hread : ¬ (st.dirs st.dir).segment (topBits (H.f key) st.curDir.depth) = OID_NULL := hnull
      have hlocks : (Call.insert key value).Locks b := trivial
      simp only [Pc.next, RoutePc.next, if_neg hread, if_pos hlocks]
      rfl
    refine Goes.agrees hfound ?_
    by_cases hs : (st.segs (st.route (H.f key))).sema < 0
    · have hs' : (st.segs (st.curDir.segment (topBits (H.f key) st.curDir.depth))).sema < 0 := hs
      rw [if_pos hs']
      exact goes_lock_refused hs rfl
    · have hs' : ¬ (st.segs (st.curDir.segment (topBits (H.f key) st.curDir.depth))).sema < 0 := hs
      rw [if_neg hs']
      have hopen : 0 ≤ st.sema (.seg (st.route (H.f key))) := Int.not_lt.mp hs
      refine (goes_lock hopen rfl).agrees (agrees_locked (h.setSema _ _) fun hf => ?_)
      have hfull : findSlot H ((st.setSema (st.route (H.f key))
          ((st.segs (st.route (H.f key))).sema + 1)).segs (st.route (H.f key))) key = none := hf
      rw [CCEH.setSema_segs_self] at hfull
      exact (hroom hfull).setSema _

end Insert

/-! ### `Get` -/

section Get

variable {L : Prop} {b : Build} {H : HashFuncs} {key : Key} {v : Value} {st : CCEH}
  {x target : ℕ} {pc : Pc}

/-- What the scan of a segment returns. -/
def Segment.read (H : HashFuncs) (s : Segment) (key : Key) : Value :=
  match s.scan H key with
  | some loc => (s.bucket loc).value
  | none => NONE

/-- `Get` gives the lock of the segment back, if it has taken it. -/
def CCEH.answered (b : Build) (st : CCEH) (target : ℕ) : CCEH :=
  match b with
  | .cow => st
  | .inplace => st.unlockSeg target

theorem ends_answer (ho : Admitted L b H (.get key) (st, pc))
    (h : pc.next b H (.get key) st = (st, Call.answer b target v)) :
    Ends L b H (.get key) (st, pc) (st.answered b target) (some v) := by
  cases b with
  | cow => exact ⟨_, .refl _, ho, h⟩
  | inplace => exact Goes.ends (.admitted ho h (.refl _)) (ends_unlock rfl)

theorem ends_scan : Ends L b H (.get key) (st, .scan target (windows H key)) (st.answered b target)
    (some ((st.segs target).read H key)) := by
  refine (goes_scan _).ends ?_
  unfold Segment.read Segment.scan
  show Ends L b H _ (match List.find? (fun loc => decide (((st.segs target).bucket loc).key = key)) _
    with | some loc => _ | none => _) _ _
  cases List.find? (fun loc => decide (((st.segs target).bucket loc).key = key)) (windows H key) with
  | some loc => exact ends_answer (.of_free rfl) rfl
  | none => exact ends_answer (.of_free rfl) rfl

/-- From the check of the entry on. -/
theorem ends_check (h : st.route (H.f key) = target) :
    Ends L b H (.get key) (st, .check x target .dir) (st.answered b target)
      (some ((st.segs target).read H key)) := by
  have hread : (st.dirs st.dir).segment (topBits (H.f key) st.curDir.depth) = target := h
  refine (goes_check x target).ends (Goes.ends (.admitted
    ⟨⟨Or.inr hread, trivial⟩, fun _ => h, fun _ => trivial⟩ ?_ (.refl _)) ends_scan)
  have heq : ¬ target ≠ (st.dirs st.dir).segment (topBits (H.f key) st.curDir.depth) :=
    fun hne => hne hread.symm
  simp only [Pc.next, RoutePc.next, Call.key, if_neg heq]
  rfl

/-- Alone, the steps of `Get` are `get`. -/
theorem ends_get (h : get b H st key = some v) : Ends L b H (.get key) (st, .spin) st (some v) := by
  unfold get at h
  split at h
  · cases h
  next hdir =>
  simp only at h
  split at h
  · cases h
  next hfree =>
  obtain ⟨hnull, hopen⟩ := not_or.mp hfree
  have hv : (st.segs (st.route (H.f key))).read H key = v := by
    unfold Segment.read
    cases hscan : (st.segs (st.route (H.f key))).scan H key with
    | some loc =>
      rw [hscan] at h
      exact Option.some.inj h
    | none =>
      rw [hscan] at h
      exact Option.some.inj h
  rw [← hv]
  have hspin : Goes L b H (.get key) (st, .spin) (st, .find .dir) := by
    refine .step (s := st) (q := .spinSema st.dir) rfl rfl (.one rfl ?_)
    have hs : ¬ (st.dirs st.dir).sema < 0 := hdir
    simp only [Pc.next, if_neg hs]
  refine hspin.ends (goes_find.ends ?_)
  have hread : ¬ (st.dirs st.dir).segment (topBits (H.f key) st.curDir.depth) = OID_NULL := hnull
  cases b with
  | cow =>
    have hlocks : ¬ (Call.get key).Locks .cow := by
      rintro ⟨⟩
    refine Goes.ends (.one (s := st) (q := .check (topBits (H.f key) st.curDir.depth)
      (st.route (H.f key)) .dir) rfl ?_) (ends_check rfl)
    simp only [Pc.next, RoutePc.next, Call.key, if_neg hread, if_neg hlocks]
    rfl
  | inplace =>
    have hlocks : (Call.get key).Locks .inplace := rfl
    have hs : 0 ≤ st.sema (.seg (st.route (H.f key))) := Int.not_lt.mp fun hneg => hopen ⟨rfl, hneg⟩
    have hfind : Goes L .inplace H (.get key)
        (st, .find (.entry (topBits (H.f key) st.curDir.depth) st.dir))
        (st, .sema .lock (.seg (st.route (H.f key))) .load
          (.locked (topBits (H.f key) st.curDir.depth) (st.route (H.f key)))) := by
      refine .one rfl ?_
      simp only [Pc.next, RoutePc.next, if_neg hread, if_pos hlocks]
      rfl
    have hcheck : Ends L .inplace H (.get key) (st.lockSeg (st.route (H.f key)),
        .check (topBits (H.f key) st.curDir.depth) (st.route (H.f key)) .dir)
        ((st.lockSeg (st.route (H.f key))).unlockSeg (st.route (H.f key)))
        (some (((st.lockSeg (st.route (H.f key))).segs (st.route (H.f key))).read H key)) :=
      ends_check rfl
    rw [CCEH.unlock_lock, CCEH.lockSeg, CCEH.setSema_segs_self] at hcheck
    exact hfind.ends ((goes_lock hs rfl).ends hcheck)

end Get

end PmemStudy.Cceh
