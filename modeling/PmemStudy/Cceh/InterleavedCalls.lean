import PmemStudy.Cceh.SerialRuns

/-!
# Interleaved calls

What holds of any number of threads that insert and look up at once, each result with a run
by two threads in which a segment is split and the directory is doubled.
-/

namespace PmemStudy.Cceh

open AlignedBlocks Threads

/-! ### Runs by turns -/

section Turns

variable {ι : Type} [Fintype ι] [DecidableEq ι] {C : Call → Prop} {b : Build} {H : HashFuncs}
  {P : Key → Value → Prop} {st st' : CCEH} {c d e : Config ι CCEH Worker} {i : ι} {w : Worker}

theorem reaches_depth_le (h : Sound b c.shared c.threads) (ht : Tidy b c.shared c.threads)
    (hr : Reaches (given (Orderly b H) (Worker.next b H)) c d) :
    c.shared.curDir.depth ≤ d.shared.curDir.depth := by
  have hd := Reaches.invariant
    (P := fun st f => (Sound b st f ∧ Tidy b st f) ∧ c.shared.curDir.depth ≤ st.curDir.depth)
    ⟨⟨h, ht⟩, le_refl _⟩ (fun st f i a st' w hs hn => ?_) hr
  · exact hd.2
  · obtain ⟨ho, hn'⟩ := given_eq_some.mp hn
    refine ⟨⟨hs.1.1.step (given_eq_some.mpr ⟨ho.1, hn'⟩), Tidy.step hs.1.1 hs.1.2 hn⟩, ?_⟩
    rcases Worker.next_cases hn' with ⟨call, _, rfl, _⟩ | ⟨call, pc, _, hnow, rfl, rfl⟩
    · exact hs.2
    · exact hs.2.trans (hs.1.1.next_depth_le hnow)

theorem Serial.lossless (hC : ∀ call, C call → ValidKey call.key ∧ call.Passes P)
    (h : Serial True C b H st w) (hd : st.curDir.depth ≤ 63) : Lossless b H P st w := by
  obtain ⟨ho, h⟩ := h
  unfold Lossless Regular
  cases hnow : w.now with
  | none => exact ⟨⟨ho, hd, trivial⟩, trivial⟩
  | some x =>
    rw [hnow] at h
    obtain ⟨hcall, hlands, hroomy⟩ := h
    exact ⟨⟨ho, hd, (hC _ hcall).1, (hC _ hcall).2, hlands⟩, hroomy trivial⟩

variable {segs : ℕ → Segment} {dirs : ℕ → Directory} {initCap : ℕ}

/-- A run by turns is lossless while the depths are small. -/
theorem reaches_lossless [∀ st w, Decidable (Lossless b H P st w)]
    (hC : ∀ call, C call → ValidKey call.key ∧ call.Passes P)
    (hr : Reaches (given (Serial True C b H) (Worker.next b H)) (startThreads segs dirs initCap) c)
    (hd : Reaches (given (Serial True C b H) (Worker.next b H)) c d)
    (he : Reaches (given (Serial True C b H) (Worker.next b H)) d e)
    (hdepth : e.shared.curDir.depth ≤ 63) :
    Reaches (given (Lossless b H P) (Worker.next b H)) c d := by
  refine hd.given_of fun a i hca had hs => hs.lossless hC ?_
  obtain ⟨h, ht⟩ := reaches_tidy (reaches_orderly (hr.trans hca))
  exact (reaches_depth_le h ht (reaches_orderly (had.trans he))).trans hdepth

theorem reaches_regular [∀ st w, Decidable (Regular b H P st w)]
    (hC : ∀ call, C call → ValidKey call.key ∧ call.Passes P)
    (hr : Reaches (given (Serial True C b H) (Worker.next b H)) (startThreads segs dirs initCap) c)
    (he : Reaches (given (Serial True C b H) (Worker.next b H)) c e)
    (hdepth : e.shared.curDir.depth ≤ 63) :
    Reaches (given (Regular b H P) (Worker.next b H)) (startThreads segs dirs initCap) c := by
  classical
  exact (reaches_lossless hC .refl hr he hdepth).given_of fun _ _ _ _ hs => hs.1

theorem regular_step [∀ st w, Decidable (Regular b H P st w)]
    (hC : ∀ call, C call → ValidKey call.key ∧ call.Passes P)
    (hr : Reaches (given (Serial True C b H) (Worker.next b H)) (startThreads segs dirs initCap) c)
    {a : Option Call}
    (hn : given (Serial True C b H) (Worker.next b H) i a c.shared (c.threads i) = some (st', w))
    (he : Reaches (given (Serial True C b H) (Worker.next b H))
      ⟨st', Function.update c.threads i w⟩ e) (hdepth : e.shared.curDir.depth ≤ 63) :
    given (Regular b H P) (Worker.next b H) i a c.shared (c.threads i) = some (st', w) := by
  obtain ⟨hs, hn'⟩ := given_eq_some.mp hn
  obtain ⟨h, ht⟩ := reaches_tidy (reaches_orderly hr)
  have hle := reaches_depth_le h ht (reaches_orderly (he.head ⟨i, a, w, hn, rfl⟩))
  exact given_eq_some.mpr ⟨(hs.lossless hC (hle.trans hdepth)).1, hn'⟩

end Turns

/-- What two threads insert: keys 0 to 31 and key 64, all with value 1. -/
def Inserted (key : Key) (value : Value) : Prop := (key, value) ∈ roomyCalls

instance (key : Key) (value : Value) : Decidable (Inserted key value) :=
  inferInstanceAs (Decidable (_ ∈ roomyCalls))

/-- The calls of the runs below. -/
def Inserted.Admits (call : Call) : Prop :=
  (call.key ≠ INVALID ∧ call.key ≠ SENTINEL) ∧ call.Passes Inserted

instance (call : Call) : Decidable (Inserted.Admits call) :=
  inferInstanceAs (Decidable (_ ∧ call.Passes Inserted))

/-- Two threads take turns. The `Insert` of key 31 makes the segment full, and that of key 64
splits it and doubles the directory. -/
theorem roomy_turns (b : Build) : ∃ (st0 st1 st : CCEH) (f : Bool → Worker),
    Reaches (given (Serial True Inserted.Admits b crowdedHash) (Worker.next b crowdedHash))
      smallStart ⟨st0, f⟩ ∧ (∀ i, (f i).now = none) ∧
    Ends True b crowdedHash (.insert 31 1) (st0, .find .dir) st1 none ∧
    Ends True b crowdedHash (.insert 64 1) (st1, .find .dir) st none ∧
    st1.curDir.depth = 1 ∧ st.curDir.depth = 2 ∧ ∃ v, get b crowdedHash st 31 = some v := by
  obtain ⟨st0, st1, st, hrun0, hcall1, hcall2, hrun, hd1, hd⟩ :=
    roomy_run b (freeOk_roomToSplit b crowdedHash) fun _ hfits _ => hfits
  have h0 : DirectoryInvariant smallTable := (initCCEH_spec _ _ 1).directoryInvariant (le_refl 1)
  have hrun1 := Run.insert _ st0 st1 31 1 hrun0 (ofNat_valid 31 (by omega)) hcall1
  have hcalls : ((crowdedCalls 31).map fun c => (c.1.getLsbD 0, c)).map Prod.snd =
      crowdedCalls 31 := by
    simp [Function.comp_def]
  have hadmits : ∀ p ∈ (crowdedCalls 31).map fun c => (c.1.getLsbD 0, c),
      Inserted.Admits (.insert p.2.1 p.2.2) := by
    intro p hp
    obtain ⟨c, hc, rfl⟩ := List.mem_map.mp hp
    obtain ⟨i, hi, rfl⟩ := List.mem_map.mp hc
    have hi' := List.mem_range.mp hi
    exact ⟨ofNat_valid i (by omega), List.mem_append_left _ (List.mem_map.mpr
      ⟨i, List.mem_range.mpr (by omega), rfl⟩)⟩
  obtain ⟨f, hreach, hidle, _⟩ := Run.turns (L := True) h0 (fun _ _ _ h => h) _ hadmits
    (hcalls.symm ▸ hrun0)
  have hi := run_directoryInvariant _ h0 _ st hrun
  exact ⟨st0, st1, st, f, hreach, hidle,
    hcall1.ends (run_directoryInvariant _ h0 _ st0 hrun0) fun _ _ _ h => h,
    hcall2.ends (run_directoryInvariant _ h0 _ st1 hrun1) fun _ _ _ h => h, hd1, hd,
    hi.toAtRest.get_some (by omega) 31⟩

theorem admits_31 : Inserted.Admits (.insert 31 1) := by decide

theorem admits_64 : Inserted.Admits (.insert 64 1) := by decide

theorem idle_update {ι : Type} [DecidableEq ι] {f : ι → Worker} {i : ι} {w : Worker}
    (hf : ∀ j, (f j).now = none) (hw : w.now = none) (j : ι) :
    (Function.update f i w j).now = none := by
  by_cases hj : j = i
  · rw [hj, Function.update_self]
    exact hw
  · rw [Function.update_of_ne hj]
    exact hf j

/-! ### The directory -/

section Results

variable {ι : Type} [Fintype ι] [DecidableEq ι] {b : Build} {H : HashFuncs}
  {P : Key → Value → Prop} {st' : CCEH} {i j : ι} {pc : Pc} {key : Key} {w : Worker}

/-- In every interleaving of steps that `Orderly` admits, every segment fills exactly its
aligned block whenever no thread is between its `Split` and the end of its directory update. -/
theorem interleaved_blocks {segs : ℕ → Segment} {dirs : ℕ → Directory} {initCap : ℕ}
    {c : Config ι CCEH Worker}
    (hr : Reaches (given (Orderly b H) (Worker.next b H)) (startThreads segs dirs initCap) c)
    (hq : ∀ i, (c.threads i).progress b = .none) :
    c.shared.curDir.capacity = 2 ^ c.shared.curDir.depth ∧
    Blocked c.shared.curDir.depth c.shared.curDir.segment
      fun p => (c.shared.segs p).localDepth := by
  obtain ⟨h, ht⟩ := reaches_tidy hr
  obtain ⟨entry, hS⟩ := ht.settles
  have hidle : ∀ j v rest, progresses b c.threads j ≠ .storing v rest := by
    intro j v rest hj
    rw [progresses, hq j] at hj
    cases hj
  have hentry : ∀ e < 2 ^ c.shared.curDir.depth, c.shared.curDir.segment e = entry e :=
    fun e he => (hS.settled e he fun j v rest hj => absurd hj (hidle j v rest)).symm
  refine ⟨h.capacity, hS.blocked.congr hentry fun e _ => (level_of_not_raised ?_).symm⟩
  rintro ⟨_, j, v, rest, hj, _⟩
  exact hidle j v rest hj

/-- After both `Insert`s. -/
theorem interleaved_blocks_roomy : ∃ c : Config Bool CCEH Worker,
    Reaches (given (Orderly .cow crowdedHash) (Worker.next .cow crowdedHash)) smallStart c ∧
    c.shared.curDir.depth = 2 ∧ c.shared.curDir.capacity = 2 ^ c.shared.curDir.depth ∧
    Blocked c.shared.curDir.depth c.shared.curDir.segment
      fun p => (c.shared.segs p).localDepth := by
  obtain ⟨st0, st1, st, f, hreach, hidle, hfirst, hsplit, _, hd, _⟩ := roomy_turns .cow
  obtain ⟨w, hturn, hw, _⟩ := hfirst.turn (i := true) admits_31 (hidle true)
  obtain ⟨w', hturn', hw', _⟩ := hsplit.turn (i := false) admits_64 (idle_update hidle hw false)
  have hr := reaches_orderly (hreach.trans (hturn.trans hturn'))
  refine ⟨_, hr, hd, interleaved_blocks hr fun i => ?_⟩
  simp only [Worker.progress, idle_update (idle_update hidle hw) hw' i]

/-! ### The pairs -/

section Regular

variable [∀ st w, Decidable (Regular b H P st w)]

/-- In every interleaving of regular steps, `Get` returns `NONE` or a value that was stored with
its key. -/
theorem get_returns_stored {segs : ℕ → Segment} {dirs : ℕ → Directory} {initCap : ℕ}
    {c : Config ι CCEH Worker} {key : Key}
    (hr : Reaches (given (Regular b H P) (Worker.next b H)) (startThreads segs dirs initCap) c)
    (hnow : (c.threads i).now = some (.get key, pc))
    (hn : Worker.next b H i none c.shared (c.threads i) = some (st', w)) (hend : w.now = none) :
    ∃ v, w.returned = some v ∧ (v = NONE ∨ P key v) := by
  obtain ⟨h, _, hc⟩ := reaches_clean hr
  obtain ⟨hret, _⟩ := Worker.last_step hnow hn hend
  rcases hc.ended h hnow hret with ⟨v, hv, _, hp⟩ | ⟨hstores, _⟩
  · exact ⟨v, hv, hp⟩
  · exact absurd hstores id

/-- A `Get` after both `Insert`s. -/
theorem get_returns_stored_roomy :
    ∃ (c : Config Bool CCEH Worker) (pc : Pc) (st' : CCEH) (w : Worker),
    Reaches (given (Regular .cow crowdedHash Inserted) (Worker.next .cow crowdedHash))
      smallStart c ∧
    (c.threads true).now = some (.get 31, pc) ∧
    Worker.next .cow crowdedHash true none c.shared (c.threads true) = some (st', w) ∧
    st'.curDir.depth = 2 ∧ ∃ v, w.returned = some v ∧ (v = NONE ∨ Inserted 31 v) := by
  obtain ⟨st0, st1, st, f, hreach, hidle, hfirst, hsplit, _, hd, v, hget⟩ := roomy_turns .cow
  obtain ⟨w, hturn, hw, _⟩ := hfirst.turn (i := true) admits_31 (hidle true)
  obtain ⟨w', hturn', hw', _⟩ := hsplit.turn (i := false) admits_64 (idle_update hidle hw false)
  obtain ⟨c, pc, x, hcall, hnow, hlast, hthreads, hx, _⟩ := (ends_get hget).last (i := true)
    (C := Inserted.Admits) (L := True) (by decide) (idle_update (idle_update hidle hw) hw' true)
  have hr := reaches_regular (P := Inserted) (C := Inserted.Admits)
    (e := ⟨st, Function.update c.threads true x⟩) (fun _ h => h)
    (hreach.trans (hturn.trans (hturn'.trans hcall))) (.single ⟨true, none, x, hlast, rfl⟩)
    (hd.trans_le (by decide))
  have hn := (given_eq_some.mp hlast).2
  exact ⟨c, pc, st, x, hr, hnow, hn, hd, get_returns_stored hr hnow hn hx⟩

/-- In every interleaving of regular steps, when `Insert` returns its pair is in the segment of
its key. -/
theorem insert_leaves_pair {segs : ℕ → Segment} {dirs : ℕ → Directory} {initCap : ℕ}
    {c : Config ι CCEH Worker} {key : Key} {value : Value}
    (hr : Reaches (given (Regular b H P) (Worker.next b H)) (startThreads segs dirs initCap) c)
    (hnow : (c.threads i).now = some (.insert key value, pc))
    (hn : Worker.next b H i none c.shared (c.threads i) = some (st', w)) (hend : w.now = none) :
    ∃ loc ∈ windows H key, (st'.segs (st'.route (H.f key))).bucket loc = ⟨key, value⟩ := by
  obtain ⟨h, _, hc⟩ := reaches_clean hr
  obtain ⟨hret, rfl, _⟩ := Worker.last_step hnow hn hend
  rcases hc.ended h hnow hret with ⟨_, _, hreads, _⟩ | ⟨_, _, hpair⟩
  · exact absurd hreads id
  · exact hpair

/-- The `Insert` that splits. -/
theorem insert_leaves_pair_roomy :
    ∃ (c : Config Bool CCEH Worker) (pc : Pc) (st' : CCEH) (w : Worker),
    Reaches (given (Regular .cow crowdedHash Inserted) (Worker.next .cow crowdedHash))
      smallStart c ∧
    (c.threads false).now = some (.insert 64 1, pc) ∧
    Worker.next .cow crowdedHash false none c.shared (c.threads false) = some (st', w) ∧
    st'.curDir.depth = 2 ∧ ∃ loc ∈ windows crowdedHash 64,
      (st'.segs (st'.route (crowdedHash.f 64))).bucket loc = ⟨64, 1⟩ := by
  obtain ⟨st0, st1, st, f, hreach, hidle, hfirst, hsplit, _, hd, _⟩ := roomy_turns .cow
  obtain ⟨w, hturn, hw, _⟩ := hfirst.turn (i := true) admits_31 (hidle true)
  obtain ⟨c, pc, x, hcall, hnow, hlast, hthreads, hx, _⟩ :=
    hsplit.last (i := false) admits_64 (idle_update hidle hw false)
  have hr := reaches_regular (P := Inserted) (C := Inserted.Admits)
    (e := ⟨st, Function.update c.threads false x⟩) (fun _ h => h)
    (hreach.trans (hturn.trans hcall)) (.single ⟨false, none, x, hlast, rfl⟩)
    (hd.trans_le (by decide))
  have hn := (given_eq_some.mp hlast).2
  exact ⟨c, pc, st, x, hr, hnow, hn, hd, insert_leaves_pair hr hnow hn hx⟩

variable [∀ st w, Decidable (Lossless b H P st w)]

/-- Once an `Insert` has returned after regular steps, its key stays in the segment that it is
routed to, in every interleaving of steps that are regular and drop no pair. -/
theorem inserted_key_stays {segs : ℕ → Segment} {dirs : ℕ → Directory} {initCap : ℕ}
    {c d : Config ι CCEH Worker} {value : Value} {w : Worker}
    (hr : Reaches (given (Regular b H P) (Worker.next b H)) (startThreads segs dirs initCap) c)
    (hnow : (c.threads i).now = some (.insert key value, pc))
    (hn : given (Regular b H P) (Worker.next b H) i none c.shared (c.threads i) = some (st', w))
    (hend : w.now = none)
    (hd : Reaches (given (Lossless b H P) (Worker.next b H))
      ⟨st', Function.update c.threads i w⟩ d) :
    ∃ loc ∈ windows H key, ((d.shared.segs (d.shared.route (H.f key))).bucket loc).key = key := by
  obtain ⟨h, ht, hc⟩ := reaches_clean hr
  have hidle : (Function.update c.threads i w i).now = none := by
    rw [Function.update_self]
    exact hend
  obtain ⟨_, hk⟩ := ((Serves.inserted hc h ht hnow hn hend hidle).reaches hd).kept
  exact hk.routed

/-- One thread stores key 31, then another one splits the segment. -/
theorem stored_then_split : ∃ (c d : Config Bool CCEH Worker) (pc : Pc) (st' : CCEH) (w : Worker),
    Reaches (given (Serial True Inserted.Admits .cow crowdedHash) (Worker.next .cow crowdedHash))
      smallStart c ∧
    (c.threads true).now = some (.insert 31 1, pc) ∧
    given (Serial True Inserted.Admits .cow crowdedHash) (Worker.next .cow crowdedHash) true none
      c.shared (c.threads true) = some (st', w) ∧
    w.now = none ∧ (Function.update c.threads true w false).now = none ∧
    Reaches (given (Serial True Inserted.Admits .cow crowdedHash) (Worker.next .cow crowdedHash))
      ⟨st', Function.update c.threads true w⟩ d ∧
    (∀ i, (d.threads i).now = none) ∧ st'.curDir.depth = 1 ∧ d.shared.curDir.depth = 2 ∧
    ∃ v, get .cow crowdedHash d.shared 31 = some v := by
  obtain ⟨st0, st1, st, f, hreach, hidle, hfirst, hsplit, hd1, hd, hget⟩ := roomy_turns .cow
  obtain ⟨c, pc, w, hcall, hnow, hlast, hthreads, hw, _⟩ :=
    hfirst.last (i := true) admits_31 (hidle true)
  obtain ⟨w', hturn, hw', _⟩ := hsplit.turn (i := false) admits_64 (idle_update hidle hw false)
  rw [← hthreads] at hturn
  refine ⟨c, _, pc, st1, w, hreach.trans hcall, hnow, hlast, hw, ?_, hturn, ?_, hd1, hd, hget⟩
  · rw [hthreads]
    exact idle_update hidle hw false
  · intro i
    refine idle_update (fun j => ?_) hw' i
    rw [hthreads]
    exact idle_update hidle hw j

theorem inserted_key_stays_roomy :
    ∃ (c d : Config Bool CCEH Worker) (pc : Pc) (st' : CCEH) (w : Worker),
    Reaches (given (Regular .cow crowdedHash Inserted) (Worker.next .cow crowdedHash))
      smallStart c ∧
    (c.threads true).now = some (.insert 31 1, pc) ∧
    given (Regular .cow crowdedHash Inserted) (Worker.next .cow crowdedHash) true none
      c.shared (c.threads true) = some (st', w) ∧
    Reaches (given (Lossless .cow crowdedHash Inserted) (Worker.next .cow crowdedHash))
      ⟨st', Function.update c.threads true w⟩ d ∧
    st'.curDir.depth = 1 ∧ d.shared.curDir.depth = 2 ∧ ∃ loc ∈ windows crowdedHash 31,
      ((d.shared.segs (d.shared.route (crowdedHash.f 31))).bucket loc).key = 31 := by
  obtain ⟨c, d, pc, st', w, hreach, hnow, hlast, hw, _, hturn, _, hd1, hd, _⟩ := stored_then_split
  have hC : ∀ call, Inserted.Admits call → ValidKey call.key ∧ call.Passes Inserted := fun _ h => h
  have hdepth : d.shared.curDir.depth ≤ 63 := hd.trans_le (by decide)
  have hstep : Reaches (given (Serial True Inserted.Admits .cow crowdedHash)
      (Worker.next .cow crowdedHash)) smallStart ⟨st', Function.update c.threads true w⟩ :=
    hreach.tail ⟨true, none, w, hlast, rfl⟩
  have hr := reaches_regular hC hreach (hturn.head ⟨true, none, w, hlast, rfl⟩) hdepth
  have hn := regular_step hC hreach hlast hturn hdepth
  have hlossless := reaches_lossless hC hstep hturn .refl hdepth
  exact ⟨c, d, pc, st', w, hr, hnow, hn, hlossless, hd1, hd,
    inserted_key_stays hr hnow hn hw hlossless⟩

end Regular

end Results

end PmemStudy.Cceh
