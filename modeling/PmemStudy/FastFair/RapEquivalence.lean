import PmemStudy.FastFair.RapInsertKey

/-!
# The two builds of insert_key

With and without RAP_MOD `insert_key` leaves the same page, whatever was in it:
the buffered records are those that the plain loop moves, and they are written
back before anything reads them. The buffer never holds more than the three
records of a cache line that do not start it.
-/

namespace PmemStudy.FastFair

/-- `WR_BUF_CL_SIZE`. -/
def wrBufClSize : ℕ := 4

namespace Page

/-- The values of `max_cl` at the buffered writes of the RAP loop, and at its end. -/
def rapFill (p : Page) (key : ℤ) (flush : Bool) : ℕ → List ClBufferEntry → List ℕ × ℕ
  | 0, _ => ([], 0)
  | i + 1, buf =>
    if key < (p.records i).key then
      if ¬ lineAligned (i + 1) then
        let rest := rapFill p key flush i (buf ++ [⟨p.records i, i + 1⟩])
        (buf.length :: rest.1, rest.2)
      else
        let direct := .record (i + 1) (p.records i)
        let back := if flush then writeBack buf else []
        rapFill (p.run (direct :: back)) key flush i (if flush then [] else buf)
    else ([], 0)

/-- `max_cl` during `insert_key` with RAP_MOD; it is 0 on entry. -/
def insertKeyRapFill (p : Page) (key : ℤ) (num : ℕ) (flush : Bool) : List ℕ × ℕ :=
  if num = 0 then ([], 0) else rapFill (p.run (p.opening num)) key flush num []

/-- The page and `*num_entries` after `insert_key`. -/
def inserted (p : Page) (key : ℤ) (ptr num : ℕ) : Page × ℕ :=
  (p.run (p.insertKey key ptr num), num + 1)

def insertedRap (p : Page) (key : ℤ) (ptr num : ℕ) (flush : Bool) : Page × ℕ :=
  (p.run (p.insertKeyRap key ptr num flush), num + 1)

/-! ### The loops -/

theorem setRecord_comm (p : Page) {i j : ℕ} (h : i ≠ j) (e b : Entry) :
    (p.setRecord i e).setRecord j b = (p.setRecord j b).setRecord i e := by
  rw [setRecord, setRecord, setRecord, setRecord, Function.update_comm h.symm]

theorem writeBack_records (buf : List ClBufferEntry) (p : Page) {a : ℕ}
    (h : ∀ b ∈ buf, a < b.address) {m : ℕ} (hm : m ≤ a) :
    (p.run (writeBack buf)).records m = p.records m := by
  induction buf generalizing p with
  | nil => rfl
  | cons b buf ih =>
    show ((p.setRecord b.address b.data).run (writeBack buf)).records m = _
    have hb := h b List.mem_cons_self
    rw [ih _ (fun b' hb' => h b' (List.mem_cons_of_mem b hb')), records_setRecord,
      if_neg (by omega)]

theorem writeBack_setRecord (buf : List ClBufferEntry) (p : Page) {a : ℕ}
    (h : ∀ b ∈ buf, a < b.address) (e : Entry) :
    (p.setRecord a e).run (writeBack buf) = (p.run (writeBack buf)).setRecord a e := by
  induction buf generalizing p with
  | nil => rfl
  | cons b buf ih =>
    show ((p.setRecord a e).setRecord b.address b.data).run (writeBack buf)
      = ((p.setRecord b.address b.data).run (writeBack buf)).setRecord a e
    have hb := h b List.mem_cons_self
    rw [setRecord_comm p (by omega), ih _ (fun b' hb' => h b' (List.mem_cons_of_mem b hb'))]

theorem run_shift (p : Page) (i : ℕ) :
    p.run [.ptr (i + 1) (p.records i).ptr, .key (i + 1) (p.records i).key]
      = p.setRecord (i + 1) (p.records i) := by
  show (p.setRecord (i + 1) ⟨_, _⟩).setRecord (i + 1)
    ⟨_, ((p.setRecord (i + 1) ⟨_, _⟩).records (i + 1)).ptr⟩ = _
  rw [records_setRecord, if_pos rfl]
  simp [setRecord]

/-- The RAP loop with entries in its buffer is the plain loop on the page that the
buffer stands for. -/
theorem rapLoop_eq (a : ℕ) (x : Page) (key : ℤ) (ptr : ℕ) (buf : List ClBufferEntry)
    (h : ∀ b ∈ buf, a < b.address) :
    x.run (x.rapLoop key ptr true a buf)
      = (x.run (writeBack buf)).run ((x.run (writeBack buf)).fastLoop key ptr a) := by
  induction a generalizing x buf with
  | zero => rw [rapLoop, run_append, fastLoop]
  | succ a ih =>
    have hrec := writeBack_records buf x h (Nat.le_succ a)
    rw [rapLoop, fastLoop, hrec]
    by_cases hk : key < (x.records a).key
    · rw [if_pos hk, if_pos hk]
      have hplain : (x.run (writeBack buf)).run
          [.ptr (a + 1) (x.records a).ptr, .key (a + 1) (x.records a).key]
          = (x.run (writeBack buf)).setRecord (a + 1) (x.records a) := by
        rw [← hrec]
        exact run_shift _ a
      rw [run_append, hplain]
      by_cases hal : ¬ lineAligned (a + 1)
      · -- staged: the record moves when the buffer is written back
        rw [if_pos hal, ih]
        · have hback : x.run (writeBack (buf ++ [⟨x.records a, a + 1⟩]))
              = (x.run (writeBack buf)).setRecord (a + 1) (x.records a) := by
            rw [writeBack, List.map_append, run_append]
            rfl
          rw [hback]
        · intro b hb
          rcases List.mem_append.mp hb with hb | hb
          · exact Nat.lt_of_succ_lt (h b hb)
          · rw [List.mem_singleton.mp hb]
            exact Nat.lt_succ_self a
      · -- written directly, then the buffer
        rw [if_neg hal, if_pos rfl, if_pos rfl, run_append, ih _ [] (by simp)]
        have hdirect : x.run (.record (a + 1) (x.records a) :: writeBack buf)
            = (x.run (writeBack buf)).setRecord (a + 1) (x.records a) :=
          writeBack_setRecord buf x h (x.records a)
        rw [hdirect]
        rfl
    · rw [if_neg hk, if_neg hk, run_append]

/-! ### The buffer -/

theorem rapFill_last (key : ℤ) (flush : Bool) (a : ℕ) (x : Page) (buf : List ClBufferEntry) :
    (x.rapFill key flush a buf).2 = 0 := by
  induction a generalizing x buf with
  | zero => rfl
  | succ a ih =>
    rw [rapFill]
    by_cases hk : key < (x.records a).key
    · rw [if_pos hk]
      by_cases hal : ¬ lineAligned (a + 1)
      · rw [if_pos hal]
        exact ih _ _
      · rw [if_neg hal]
        exact ih _ _
    · rw [if_neg hk]

/-- The buffer holds records that follow each other and do not start a line. -/
theorem rapFill_lt (key : ℤ) (a : ℕ) (x : Page) (buf : List ClBufferEntry)
    (h : ∀ j, 0 < j → j ≤ buf.length → ¬ lineAligned (a + j)) :
    ∀ m ∈ (x.rapFill key true a buf).1, m < wrBufClSize := by
  induction a generalizing x buf with
  | zero =>
    intro m hm
    simp [rapFill] at hm
  | succ a ih =>
    intro m hm
    rw [rapFill] at hm
    by_cases hk : key < (x.records a).key
    · rw [if_pos hk] at hm
      by_cases hal : ¬ lineAligned (a + 1)
      · rw [if_pos hal] at hm
        have hstep : ∀ j, 0 < j → j ≤ (buf ++ [(⟨x.records a, a + 1⟩ : ClBufferEntry)]).length →
            ¬ lineAligned (a + j) := by
          intro j h0 hj
          rw [List.length_append, List.length_singleton] at hj
          by_cases h1 : j = 1
          · rw [h1]
            exact hal
          · have := h (j - 1) (by omega) (by omega)
            rwa [show a + 1 + (j - 1) = a + j by omega] at this
        rcases List.mem_cons.mp hm with rfl | hm
        · -- four records in a row cannot all be inside a line
          by_contra hge
          unfold wrBufClSize at hge
          have h1 := hstep 1 (by omega) (by simp)
          have h2 := hstep 2 (by omega) (by simp; omega)
          have h3 := hstep 3 (by omega) (by simp; omega)
          have h4 := hstep 4 (by omega) (by simp; omega)
          unfold lineAligned at h1 h2 h3 h4
          omega
        · exact ih _ _ hstep m hm
      · rw [if_neg hal] at hm
        exact ih _ _ (fun j h0 hj => absurd hj (by simp; omega)) m hm
    · rw [if_neg hk] at hm
      simp at hm

/-! ### The whole function -/

/-- The loop is left at once: the key is not smaller than the last one. -/
theorem rapLoop_append (x : Page) {key : ℤ} (ptr : ℕ) (flush : Bool) {num : ℕ} (h0 : num ≠ 0)
    (hk : (x.records (num - 1)).key ≤ key) :
    x.rapLoop key ptr flush num [] = x.fastLoop key ptr num ∧
      x.rapFill key flush num [] = ([], 0) := by
  obtain ⟨a, rfl⟩ := Nat.exists_eq_succ_of_ne_zero h0
  have hk' : ¬ key < (x.records a).key := not_lt.mpr hk
  rw [rapLoop, fastLoop, rapFill, if_neg hk', if_neg hk', if_neg hk']
  exact ⟨rfl, rfl⟩

theorem opening_key (p : Page) (num i : ℕ) :
    ((p.run (p.opening num)).records i).key = (p.records i).key := by
  have hforward : (p.run p.toForward).records = p.records := by
    rw [toForward]
    split <;> rfl
  rw [opening, run_append]
  split
  · rw [run_nil, hforward]
  · show (((p.run p.toForward).setRecord (num + 1) _).records i).key = _
    rw [records_setRecord, hforward]
    split
    · next h => rw [h]
    · rfl

/-- Both builds leave the same page; `max_cl` stays inside the buffer and ends at 0. -/
theorem insertKeyRap_eq (p : Page) (key : ℤ) (ptr num : ℕ) (flush : Bool)
    (hf : flush = true ∨ num = 0 ∨ (p.records (num - 1)).key ≤ key) :
    p.insertedRap key ptr num flush = p.inserted key ptr num ∧
    (∀ m ∈ (p.insertKeyRapFill key num flush).1, m < wrBufClSize) ∧
    (p.insertKeyRapFill key num flush).2 = 0 := by
  rw [insertedRap, inserted, insertKeyRapFill, insertKeyRap, insertKey, insertKeyWith,
    insertKeyWith]
  by_cases h0 : num = 0
  · rw [if_pos h0, if_pos h0, if_pos h0]
    exact ⟨rfl, fun m hm => absurd hm List.not_mem_nil, rfl⟩
  rw [if_neg h0, if_neg h0, if_neg h0]
  refine ⟨?_, ?_, rapFill_last _ _ _ _ _⟩
  · rw [run_append, run_append, run_append, run_append]
    rcases hf with rfl | h | hk
    · rw [rapLoop_eq num _ key ptr [] (by simp)]
      rfl
    · exact absurd h h0
    · rw [(rapLoop_append (p.run (p.opening num)) ptr flush h0 (by rw [opening_key]; exact hk)).1]
  · rcases hf with rfl | h | hk
    · exact rapFill_lt key num _ [] (fun j h1 hj => absurd hj (by simp; omega))
    · exact absurd h h0
    · rw [(rapLoop_append (p.run (p.opening num)) ptr flush h0 (by rw [opening_key]; exact hk)).2]
      exact fun m hm => absurd hm List.not_mem_nil

theorem insertKeyRap_eq_three :
    (leafOf leafOfThree).insertedRap 5 9 3 true = (leafOf leafOfThree).inserted 5 9 3 :=
  (insertKeyRap_eq (leafOf leafOfThree) 5 9 3 true (Or.inl rfl)).1

end Page

end PmemStudy.FastFair
