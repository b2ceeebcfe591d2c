import PmemStudy.Cceh.HeldLocks
import PmemStudy.Cceh.DirectoryInvariant

/-!
# The table shared by the threads

A thread reads `dir` and the entries without a lock, so what it has read may be out of date.
`Sound` says what stays true of it: a directory that was read is complete, and is the newest
one or is suspended for ever; an entry is an allocated segment; whoever holds the directory
or has suspended it keeps the others from changing it.
-/

namespace PmemStudy.Cceh

open SuspendLock Threads

/-! ### How far an update is -/

/-- Between `Split` and the last store of the directory update: no entry has been stored yet,
or `rest` is still to be stored. -/
inductive Progress
  | none
  | fresh (u : Halves)
  | storing (u : Halves) (rest : List Store)

/-- All entries are stored; in place the local depth of `s[0]` is still to be raised. -/
def Halves.stored (b : Build) (u : Halves) : Progress :=
  match b with
  | .cow => .none
  | .inplace => .storing u []

def UpdatePc.progress (b : Build) (u : Halves) : UpdatePc → Progress
  | .dir (.store true w rest) => .storing u (w :: rest)
  | .store _ true w rest => .storing u (w :: rest)
  | .dir .unlock => u.stored b
  | .bump => u.stored b
  | _ => .fresh u

def Pc.progress (b : Build) : Pc → Progress
  | .update u k => k.progress b u
  | .sema _ _ _ (.double u) => .fresh u
  | .sema _ _ _ (.normal u) => .fresh u
  | .sema _ _ _ (.updated u) => u.stored b
  | _ => .none

def Worker.progress (b : Build) (w : Worker) : Progress :=
  match w.now with
  | some (_, pc) => pc.progress b
  | none => .none

/-- The segments that `Split` has allocated; in place `s[0]` is the target. -/
def Halves.New (b : Build) (u : Halves) (p : ℕ) : Prop :=
  match b with
  | .cow => p = u.s0 ∨ p = u.s1
  | .inplace => p = u.s1

/-- `p` is a half that the thread has not stored in the directory yet. -/
def Worker.Fresh (b : Build) (w : Worker) (p : ℕ) : Prop :=
  ∃ u, w.progress b = .fresh u ∧ u.New b p

section Knowledge

variable {ι : Type} (b : Build) (st : CCEH) (f : ι → Worker)

/-- An entry of a directory may be `p`. -/
structure Public (p : ℕ) : Prop where
  ne_null : p ≠ OID_NULL
  lt : p < st.nseg
  level_le : (st.segs p).localDepth ≤ st.curDir.depth
  shared : ∀ i, ¬ (f i).Fresh b p

/-- What stays true of a directory that was read from `dir`. -/
structure Known (D : ℕ) : Prop where
  le : D ≤ st.dir
  capacity : (st.dirs D).capacity = 2 ^ (st.dirs D).depth
  depth_le : (st.dirs D).depth ≤ st.curDir.depth
  entry : ∀ x < 2 ^ (st.dirs D).depth, Public b st f ((st.dirs D).segment x)
  newest : D = st.dir ∨ (st.dirs D).sema < 0

variable (held : Sem → ℕ) (owns : Sem → Bool)

def RoutePc.Fits : RoutePc → Prop
  | .dir => True
  | .depth D => Known b st f D
  | .segment x => x < 2 ^ st.curDir.depth
  | .entry x D => Known b st f D ∧ x < 2 ^ (st.dirs D).depth

/-- The segment is locked, if the call locks it. -/
structure Locked (call : Call) (target : ℕ) : Prop where
  shared : Public b st f target
  held : call.Locks b → 0 < held (.seg target)

/-- The thread has suspended the segment. -/
structure Suspended (target : ℕ) : Prop where
  shared : Public b st f target
  owns : owns (.seg target) = true

/-- A segment that `Split` has allocated: fresh, with the level of the halves, until the first
store of the update. -/
structure NewHalf (begun : Bool) (d s : ℕ) : Prop where
  ne_null : s ≠ OID_NULL
  lt : s < st.nseg
  level : begun = false → (st.segs s).localDepth = d + 1
  shared : begun = true → Public b st f s

/-- The locals after `Split`. -/
structure Halves.Fits (begun : Bool) (u : Halves) : Prop where
  target : Suspended b st f owns u.target
  level : (st.segs u.target).localDepth = u.target_local_depth
  new : ∀ s, u.New b s → NewHalf b st f begun u.target_local_depth s
  inplace : b = .inplace → u.s0 = u.target
  ne : u.s0 ≠ u.s1

def HoldsDir : Prop := 0 < held (.dir st.dir)

def OwnsDir : Prop := owns (.dir st.dir) = true

/-- The thread waits for the holders of the newest directory. -/
def AwaitsDir (w : Worker) : Prop := ∃ val, (w.caller (.dir st.dir)).call = some (.suspend, .wait val)

/-- The stores of a normal split that are still to be made. -/
def Halves.StoresFit (u : Halves) (begun : Bool) (l : List Store) : Prop :=
  u.target_local_depth < st.curDir.depth ∧
    (begun = false → ∃ x < 2 ^ st.curDir.depth,
      l = strideStores b (2 ^ (st.curDir.depth - u.target_local_depth)) x u.s0 u.s1) ∧
    ∀ e ∈ l, ∃ i < 2 ^ st.curDir.depth, ∃ s, e = .entry i s ∧ u.New b s

/-- The directory is being doubled: entries below `j` of the new array are stored. -/
structure Copying (u : Halves) (x d n j : ℕ) : Prop where
  owned : OwnsDir st owns
  index : x < 2 ^ st.curDir.depth
  source : d = st.dir
  lt : st.dir < n
  allocated : n < st.ndir
  depth : (st.dirs n).depth = st.curDir.depth + 1
  capacity : (st.dirs n).capacity = 2 ^ (st.curDir.depth + 1)
  copied : ∀ i < j, (st.dirs n).segment i = doubledSegment st.curDir x u.s0 u.s1 i

def DepthUse.Fits (u : Halves) : DepthUse → Prop
  | .compare local_depth => local_depth = u.target_local_depth
  | .double => OwnsDir st owns
  | .newDir x d => OwnsDir st owns ∧ d = st.dir ∧ x < 2 ^ st.curDir.depth
  | .index => HoldsDir st held ∧ u.target_local_depth < st.curDir.depth
  | .buddy x => HoldsDir st held ∧ u.target_local_depth < st.curDir.depth ∧ x < 2 ^ st.curDir.depth
  | .stride x => HoldsDir st held ∧ u.target_local_depth < st.curDir.depth ∧ x < 2 ^ st.curDir.depth

/-- The depth that is read must be that of the newest directory. -/
def DepthUse.Newest : DepthUse → Prop
  | .compare _ => False
  | _ => True

def DirUse.Fits (u : Halves) : DirUse → Prop
  | .depth use => use.Fits st held owns u
  | .suspend => True
  | .source x => OwnsDir st owns ∧ x < 2 ^ st.curDir.depth
  | .copy x d n i => Copying st owns u x d n (2 * i)
  | .lock => u.target_local_depth < st.curDir.depth
  | .store begun s rest => HoldsDir st held ∧ u.StoresFit b st begun (s :: rest)
  | .unlock => HoldsDir st held ∧ u.target_local_depth < st.curDir.depth

def UpdatePc.Fits (u : Halves) : UpdatePc → Prop
  | .level => True
  | .dir use => use.Fits b st held owns u
  | .depth use D => Known b st f D ∧ use.Fits st held owns u ∧ (use.Newest → D = st.dir) ∧
      u.target_local_depth ≤ (st.dirs D).depth
  | .newDir x d n => OwnsDir st owns ∧ d = st.dir ∧ n = st.curDir.depth + 1 ∧
      x < 2 ^ st.curDir.depth
  | .copyTest x d n i D => Copying st owns u x d n (2 * i) ∧ D = st.dir
  | .copyRead x d n j => Copying st owns u x d n j ∧ j < 2 * st.curDir.capacity
  | .copyStore x d n j s => Copying st owns u x d n j ∧ j < 2 * st.curDir.capacity ∧
      s = doubledSegment st.curDir x u.s0 u.s1 j
  | .publish n => ∃ x d, Copying st owns u x d n (2 * st.curDir.capacity)
  | .buddyLevel x n => HoldsDir st held ∧ n = st.curDir.depth ∧
      u.target_local_depth < st.curDir.depth ∧ x < 2 ^ st.curDir.depth
  | .store D begun s rest => HoldsDir st held ∧ D = st.dir ∧ u.StoresFit b st begun (s :: rest)
  | .bump => b = .inplace ∧ u.target_local_depth < st.curDir.depth

/-- Whether the update has made its first store. -/
def UpdatePc.begun : UpdatePc → Bool
  | .dir (.store begun _ _) => begun
  | .store _ begun _ _ => begun
  | .dir .unlock => true
  | .bump => true
  | _ => false

def RecheckPc.Fits (x target : ℕ) : RecheckPc → Prop
  | .dir => b = .cow ∧ x < 2 ^ st.curDir.depth
  | .entry D => b = .cow ∧ Known b st f D ∧ x < 2 ^ (st.dirs D).depth
  | .level p => Public b st f p ∧ (b = .inplace → p = target)

def After.Fits (op : SemaOp) (m : Sem) (s : SemaPc) : After → Prop
  | .locked x target => op = .lock ∧ m = .seg target ∧ Public b st f target ∧
      x < 2 ^ st.curDir.depth
  | .retry => op = .unlock
  | .stored => op = .unlock
  | .collide x target d => op = .unlock ∧ m = .seg target ∧ Public b st f target ∧
      x < 2 ^ st.curDir.depth ∧ (b = .cow → d = (st.segs target).localDepth)
  | .suspended x target d => op = .suspend ∧ m = .seg target ∧ Public b st f target ∧
      x < 2 ^ st.curDir.depth ∧ (b = .cow → d = (st.segs target).localDepth)
  | .answer _ => op = .unlock
  | .double u => op = .suspend ∧ (∃ D, m = .dir D ∧ Known b st f D) ∧ u.Fits b st f owns false ∧
      ∀ val, s = .wait val → m = .dir st.dir
  | .normal u => op = .lock ∧ (∃ D, m = .dir D ∧ Known b st f D) ∧ u.Fits b st f owns false ∧
      u.target_local_depth < st.curDir.depth
  | .updated u => op = .unlock ∧ m = .dir st.dir ∧ HoldsDir st held ∧ u.Fits b st f owns true ∧
      u.target_local_depth < st.curDir.depth

/-- What the thread knows at a point of its call. -/
def Pc.Fits (call : Call) : Pc → Prop
  | .spin => True
  | .spinSema _ => True
  | .find r => r.Fits b st f
  | .sema op m s k => k.Fits b st f held owns op m s
  | .check x target r => Locked b st f held call target ∧ x < 2 ^ st.curDir.depth ∧ r.Fits b st f
  | .readPattern x target => Locked b st f held call target ∧ x < 2 ^ st.curDir.depth ∧ call.Locks b
  | .probe x target _ _ => Locked b st f held call target ∧ x < 2 ^ st.curDir.depth ∧ call.Locks b
  | .test x target _ _ _ _ => Locked b st f held call target ∧ x < 2 ^ st.curDir.depth ∧ call.Locks b
  | .claim x target _ _ _ _ => Locked b st f held call target ∧ x < 2 ^ st.curDir.depth ∧ call.Locks b
  | .value target _ => Locked b st f held call target ∧ call.Locks b
  | .key target _ => Locked b st f held call target ∧ call.Locks b
  | .depth x target => Locked b st f held call target ∧ x < 2 ^ st.curDir.depth ∧ call.Locks b
  | .recheck x target d r => Suspended b st f owns target ∧
      (b = .cow → d = (st.segs target).localDepth) ∧ r.Fits b st f x target
  | .release target => Suspended b st f owns target
  | .split target d => Suspended b st f owns target ∧ d = (st.segs target).localDepth
  | .update u k => u.Fits b st f owns k.begun ∧ k.Fits b st f held owns u
  | .scan target _ => Locked b st f held call target
  | .found target _ => Locked b st f held call target

def Worker.Fits (w : Worker) : Prop :=
  match w.now with
  | some (call, pc) => pc.Fits b st f w.held w.owns call
  | none => True

end Knowledge

/-- Holds between the steps of the threads. -/
structure Sound {ι : Type} [Fintype ι] (b : Build) (st : CCEH) (f : ι → Worker) : Prop where
  locks : Locks st f
  capacity : st.curDir.capacity = 2 ^ st.curDir.depth
  dir_lt : st.dir < st.ndir
  dir : ∀ x < 2 ^ st.curDir.depth, Public b st f (st.curDir.segment x)
  apart : ∀ i j p, (f i).Fresh b p → (f j).Fresh b p → i = j
  fits : ∀ i, (f i).Fits b st f

/-! ### What the steps of the others leave alone -/

/-- How the table changes in one step. -/
structure Evolves {ι : Type} (b : Build) (st st' : CCEH) (f f' : ι → Worker) : Prop where
  nseg : st.nseg ≤ st'.nseg
  ndir : st.ndir ≤ st'.ndir
  dir : st.dir ≤ st'.dir
  depth : st.curDir.depth ≤ st'.curDir.depth
  old : ∀ D ≤ st.dir, (st'.dirs D).depth = (st.dirs D).depth ∧
    (st'.dirs D).capacity = (st.dirs D).capacity
  entry : ∀ D ≤ st.dir, ∀ x, (st'.dirs D).segment x = (st.dirs D).segment x ∨
    Public b st' f' ((st'.dirs D).segment x)
  level : ∀ p, Public b st f p → (st'.segs p).localDepth ≤ st'.curDir.depth
  shared : ∀ i p, (f' i).Fresh b p → (f i).Fresh b p ∨ st.nseg ≤ p
  retired : ∀ D ≤ st.dir, D = st.dir ∨ (st.dirs D).sema < 0 → D = st'.dir ∨ (st'.dirs D).sema < 0

/-- What the step leaves alone for a thread that does not move. -/
structure Frame (st st' : CCEH) (b : Build) (w : Worker) : Prop where
  cow : b = .cow → ∀ p < st.nseg, (st'.segs p).localDepth = (st.segs p).localDepth
  owned : ∀ p, w.owns (.seg p) = true → (st'.segs p).localDepth = (st.segs p).localDepth
  fresh : ∀ p, w.Fresh b p → (st'.segs p).localDepth = (st.segs p).localDepth
  dir : HoldsDir st w.held ∨ OwnsDir st w.owns ∨ AwaitsDir st w → st'.dir = st.dir
  copy : OwnsDir st w.owns → st'.curDir.segment = st.curDir.segment ∧
    ∀ n, st.dir < n → n < st.ndir → (st'.dirs n).depth = (st.dirs n).depth ∧
      (st'.dirs n).capacity = (st.dirs n).capacity ∧ (st'.dirs n).segment = (st.dirs n).segment

section Frames

variable {ι : Type} {b : Build} {st st' : CCEH} {f f' : ι → Worker} {w : Worker} {D p x : ℕ}

theorem Public.evolves (h : Public b st f p) (e : Evolves b st st' f f') : Public b st' f' p := by
  refine ⟨h.ne_null, h.lt.trans_le e.nseg, e.level p h, ?_⟩
  intro i hi
  rcases e.shared i p hi with hf | hn
  · exact h.shared i hf
  · exact absurd h.lt (Nat.not_lt.mpr hn)

theorem Known.evolves (h : Known b st f D) (e : Evolves b st st' f f') : Known b st' f' D := by
  obtain ⟨hdepth, hcap⟩ := e.old D h.le
  refine ⟨h.le.trans e.dir, ?_, ?_, ?_, e.retired D h.le h.newest⟩
  · rw [hcap, hdepth]
    exact h.capacity
  · rw [hdepth]
    exact h.depth_le.trans e.depth
  · intro x hx
    rw [hdepth] at hx
    rcases e.entry D h.le x with heq | hp
    · rw [heq]
      exact (h.entry x hx).evolves e
    · exact hp

theorem index_evolves (hx : x < 2 ^ st.curDir.depth) (e : Evolves b st st' f f') :
    x < 2 ^ st'.curDir.depth :=
  hx.trans_le (Nat.pow_le_pow_right Nat.zero_lt_two e.depth)

theorem Suspended.frame (h : Suspended b st f w.owns p) (e : Evolves b st st' f f') :
    Suspended b st' f' w.owns p := ⟨h.shared.evolves e, h.owns⟩

theorem Locked.frame {call : Call} (h : Locked b st f w.held call p) (e : Evolves b st st' f f') :
    Locked b st' f' w.held call p := ⟨h.shared.evolves e, h.held⟩

theorem RoutePc.Fits.frame {r : RoutePc} (h : r.Fits b st f) (e : Evolves b st st' f f') :
    r.Fits b st' f' := by
  cases r with
  | dir => trivial
  | depth D => exact Known.evolves h e
  | segment x => exact index_evolves h e
  | entry x D =>
    refine ⟨h.1.evolves e, ?_⟩
    rw [(e.old D h.1.le).1]
    exact h.2

theorem HoldsDir.frame (h : HoldsDir st w.held) (hf : Frame st st' b w) : HoldsDir st' w.held := by
  unfold HoldsDir
  rw [hf.dir (Or.inl h)]
  exact h

theorem OwnsDir.frame (h : OwnsDir st w.owns) (hf : Frame st st' b w) : OwnsDir st' w.owns := by
  unfold OwnsDir
  rw [hf.dir (Or.inr (Or.inl h))]
  exact h

/-- The newest directory is the same, and so is its depth. -/
theorem Frame.depth (hf : Frame st st' b w) (e : Evolves b st st' f f')
    (h : HoldsDir st w.held ∨ OwnsDir st w.owns ∨ AwaitsDir st w) : st'.curDir.depth = st.curDir.depth := by
  unfold CCEH.curDir
  rw [hf.dir h]
  exact (e.old st.dir le_rfl).1

theorem Halves.Fits.frame {u : Halves} {begun : Bool} (h : u.Fits b st f w.owns begun)
    (hfresh : begun = false → w.progress b = .fresh u) (e : Evolves b st st' f f')
    (hf : Frame st st' b w) : u.Fits b st' f' w.owns begun := by
  refine ⟨h.target.frame e, ?_, ?_, h.inplace, h.ne⟩
  · rw [hf.owned _ h.target.owns]
    exact h.level
  · intro s hs
    have hn := h.new s hs
    refine ⟨hn.ne_null, hn.lt.trans_le e.nseg, ?_, fun hb => (hn.shared hb).evolves e⟩
    intro hb
    rw [hf.fresh s ⟨u, hfresh hb, hs⟩]
    exact hn.level hb

theorem Copying.frame {u : Halves} {d n j : ℕ} (h : Copying st w.owns u x d n j)
    (e : Evolves b st st' f f') (hf : Frame st st' b w) : Copying st' w.owns u x d n j := by
  have hdir := hf.dir (Or.inr (Or.inl h.owned))
  have hdepth := hf.depth e (Or.inr (Or.inl h.owned))
  obtain ⟨hseg, hnew⟩ := hf.copy h.owned
  obtain ⟨hndepth, hncap, hnseg⟩ := hnew n h.lt h.allocated
  refine ⟨h.owned.frame hf, index_evolves h.index e, h.source.trans hdir.symm, by rw [hdir]; exact h.lt,
    h.allocated.trans_le e.ndir, ?_, ?_, ?_⟩
  · rw [hndepth, hdepth]
    exact h.depth
  · rw [hncap, hdepth]
    exact h.capacity
  · intro i hi
    rw [hnseg]
    unfold doubledSegment
    rw [hseg]
    exact h.copied i hi

theorem DepthUse.Fits.frame {u : Halves} {use : DepthUse} (h : use.Fits st w.held w.owns u)
    (e : Evolves b st st' f f') (hf : Frame st st' b w) : use.Fits st' w.held w.owns u := by
  cases use with
  | compare l => exact h
  | double => exact OwnsDir.frame h hf
  | newDir x d =>
    exact ⟨h.1.frame hf, h.2.1.trans (hf.dir (Or.inr (Or.inl h.1))).symm, index_evolves h.2.2 e⟩
  | index =>
    refine ⟨h.1.frame hf, ?_⟩
    rw [hf.depth e (Or.inl h.1)]
    exact h.2
  | buddy x =>
    refine ⟨h.1.frame hf, ?_⟩
    rw [hf.depth e (Or.inl h.1)]
    exact h.2
  | stride x =>
    refine ⟨h.1.frame hf, ?_⟩
    rw [hf.depth e (Or.inl h.1)]
    exact h.2

theorem Halves.StoresFit.frame {u : Halves} {begun : Bool} {l : List Store}
    (h : u.StoresFit b st begun l) (hd : st'.curDir.depth = st.curDir.depth) :
    u.StoresFit b st' begun l := by
  unfold StoresFit
  rw [hd]
  exact h

theorem DirUse.Fits.frame {u : Halves} {use : DirUse} (h : use.Fits b st w.held w.owns u)
    (e : Evolves b st st' f f') (hf : Frame st st' b w) : use.Fits b st' w.held w.owns u := by
  cases use with
  | depth use => exact DepthUse.Fits.frame h e hf
  | suspend => trivial
  | source x => exact ⟨h.1.frame hf, index_evolves h.2 e⟩
  | copy x d n i => exact Copying.frame h e hf
  | lock => exact Nat.lt_of_lt_of_le h e.depth
  | store begun s rest => exact ⟨h.1.frame hf, h.2.frame (hf.depth e (Or.inl h.1))⟩
  | unlock =>
    refine ⟨h.1.frame hf, ?_⟩
    rw [hf.depth e (Or.inl h.1)]
    exact h.2

theorem curDir_capacity (e : Evolves b st st' f f') (hdir : st'.dir = st.dir) :
    st'.curDir.capacity = st.curDir.capacity := by
  unfold CCEH.curDir
  rw [hdir]
  exact (e.old st.dir le_rfl).2

theorem UpdatePc.Fits.frame {u : Halves} {k : UpdatePc} (h : k.Fits b st f w.held w.owns u)
    (e : Evolves b st st' f f') (hf : Frame st st' b w) : k.Fits b st' f' w.held w.owns u := by
  cases k with
  | level => trivial
  | dir use => exact DirUse.Fits.frame h e hf
  | depth use D =>
    obtain ⟨hk, huse, hnew, hl⟩ := h
    refine ⟨hk.evolves e, huse.frame e hf, fun hn => (hnew hn).trans ?_, ?_⟩
    rotate_left
    · rw [(e.old D hk.le).1]
      exact hl
    cases use with
    | compare l => exact absurd hn id
    | double => exact (hf.dir (Or.inr (Or.inl huse))).symm
    | newDir x d => exact (hf.dir (Or.inr (Or.inl huse.1))).symm
    | index => exact (hf.dir (Or.inl huse.1)).symm
    | buddy x => exact (hf.dir (Or.inl huse.1)).symm
    | stride x => exact (hf.dir (Or.inl huse.1)).symm
  | newDir x d n =>
    refine ⟨h.1.frame hf, h.2.1.trans (hf.dir (Or.inr (Or.inl h.1))).symm, ?_⟩
    rw [hf.depth e (Or.inr (Or.inl h.1))]
    exact h.2.2
  | copyTest x d n i D => exact ⟨h.1.frame e hf, h.2.trans (hf.dir (Or.inr (Or.inl h.1.owned))).symm⟩
  | copyRead x d n j =>
    refine ⟨h.1.frame e hf, ?_⟩
    rw [curDir_capacity e (hf.dir (Or.inr (Or.inl h.1.owned)))]
    exact h.2
  | copyStore x d n j s =>
    obtain ⟨hc, hj, hs⟩ := h
    refine ⟨hc.frame e hf, ?_, ?_⟩
    · rw [curDir_capacity e (hf.dir (Or.inr (Or.inl hc.owned)))]
      exact hj
    · unfold doubledSegment
      rw [(hf.copy hc.owned).1]
      exact hs
  | publish n =>
    obtain ⟨x, d, hc⟩ := h
    refine ⟨x, d, ?_⟩
    rw [curDir_capacity e (hf.dir (Or.inr (Or.inl hc.owned)))]
    exact hc.frame e hf
  | buddyLevel x n =>
    refine ⟨h.1.frame hf, ?_⟩
    rw [hf.depth e (Or.inl h.1)]
    exact h.2
  | store D begun s rest =>
    exact ⟨h.1.frame hf, h.2.1.trans (hf.dir (Or.inl h.1)).symm,
      h.2.2.frame (hf.depth e (Or.inl h.1))⟩
  | bump => exact ⟨h.1, h.2.trans_le e.depth⟩

theorem RecheckPc.Fits.frame {target : ℕ} {r : RecheckPc} (h : r.Fits b st f x target)
    (e : Evolves b st st' f f') : r.Fits b st' f' x target := by
  cases r with
  | dir => exact ⟨h.1, index_evolves h.2 e⟩
  | entry D =>
    refine ⟨h.1, h.2.1.evolves e, ?_⟩
    rw [(e.old D h.2.1.le).1]
    exact h.2.2
  | level p => exact ⟨h.1.evolves e, h.2⟩

theorem UpdatePc.fresh_of_begun {u : Halves} {k : UpdatePc} (h : k.begun = false) :
    k.progress b u = .fresh u := by
  cases k with
  | dir use =>
    cases use with
    | store begun s rest => cases begun with
      | false => rfl
      | true => cases h
    | unlock => cases h
    | _ => rfl
  | store D begun s rest => cases begun with
    | false => rfl
    | true => cases h
  | bump => cases h
  | _ => rfl

/-- What a thread knows stays true while others move. -/
theorem Pc.Fits.frame {call : Call} {pc : Pc} (h : pc.Fits b st f w.held w.owns call)
    (hnow : w.now = some (call, pc)) (e : Evolves b st st' f f') (hf : Frame st st' b w) :
    pc.Fits b st' f' w.held w.owns call := by
  have hfresh : w.progress b = pc.progress b := by simp only [Worker.progress, hnow]
  have hcow : ∀ {d p}, Public b st f p → (b = .cow → d = (st.segs p).localDepth) →
      b = .cow → d = (st'.segs p).localDepth := by
    intro d p hp hd hb
    rw [hf.cow hb p hp.lt]
    exact hd hb
  cases pc with
  | spin => trivial
  | spinSema D => trivial
  | find r => exact RoutePc.Fits.frame h e
  | sema op m s k =>
    cases k with
    | locked x target => exact ⟨h.1, h.2.1, h.2.2.1.evolves e, index_evolves h.2.2.2 e⟩
    | retry => exact h
    | stored => exact h
    | collide x target d =>
      obtain ⟨hop, hm, hp, hx, hd⟩ := h
      exact ⟨hop, hm, hp.evolves e, index_evolves hx e, hcow hp hd⟩
    | suspended x target d =>
      obtain ⟨hop, hm, hp, hx, hd⟩ := h
      exact ⟨hop, hm, hp.evolves e, index_evolves hx e, hcow hp hd⟩
    | answer v => exact h
    | double u =>
      obtain ⟨hop, ⟨D, hm, hk⟩, hu, hwait⟩ := h
      refine ⟨hop, ⟨D, hm, hk.evolves e⟩, hu.frame (fun _ => hfresh) e hf, ?_⟩
      intro val hs
      have hcall : (w.caller (.dir st.dir)).call = some (.suspend, .wait val) := by
        simp [Worker.caller, hnow, hwait val hs, hop, hs]
      rw [hf.dir (Or.inr (Or.inr ⟨val, hcall⟩))]
      exact hwait val hs
    | normal u =>
      obtain ⟨hop, ⟨D, hm, hk⟩, hu, hl⟩ := h
      exact ⟨hop, ⟨D, hm, hk.evolves e⟩, hu.frame (fun _ => hfresh) e hf, hl.trans_le e.depth⟩
    | updated u =>
      obtain ⟨hop, hm, hheld, hu, hl⟩ := h
      refine ⟨hop, ?_, hheld.frame hf, hu.frame (fun hb => by cases hb) e hf, hl.trans_le e.depth⟩
      rw [hf.dir (Or.inl hheld)]
      exact hm
  | check x target r => exact ⟨h.1.frame e, index_evolves h.2.1 e, h.2.2.frame e⟩
  | readPattern x target => exact ⟨h.1.frame e, index_evolves h.2.1 e, h.2.2⟩
  | probe x target pattern slots => exact ⟨h.1.frame e, index_evolves h.2.1 e, h.2.2⟩
  | test x target pattern loc _key slots => exact ⟨h.1.frame e, index_evolves h.2.1 e, h.2.2⟩
  | claim x target pattern loc _key slots => exact ⟨h.1.frame e, index_evolves h.2.1 e, h.2.2⟩
  | value target loc => exact ⟨h.1.frame e, h.2⟩
  | key target loc => exact ⟨h.1.frame e, h.2⟩
  | depth x target => exact ⟨h.1.frame e, index_evolves h.2.1 e, h.2.2⟩
  | recheck x target d r =>
    obtain ⟨hs, hd, hr⟩ := h
    exact ⟨hs.frame e, hcow hs.shared hd, hr.frame e⟩
  | release target => exact Suspended.frame h e
  | split target d =>
    refine ⟨h.1.frame e, ?_⟩
    rw [hf.owned _ h.1.owns]
    exact h.2
  | update u k =>
    refine ⟨h.1.frame (fun hb => ?_) e hf, h.2.frame e hf⟩
    rw [hfresh]
    exact UpdatePc.fresh_of_begun hb
  | scan target slots => exact Locked.frame h e
  | found target loc => exact Locked.frame h e

theorem Worker.Fits.frame (h : w.Fits b st f) (e : Evolves b st st' f f') (hf : Frame st st' b w) :
    w.Fits b st' f' := by
  unfold Worker.Fits at h ⊢
  split
  · next call pc hnow =>
    rw [hnow] at h
    exact Pc.Fits.frame h hnow e hf
  · trivial

end Frames

end PmemStudy.Cceh
