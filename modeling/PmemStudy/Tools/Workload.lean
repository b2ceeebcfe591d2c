import Mathlib.Data.List.Forall2
import Mathlib.Data.List.TakeWhile
import PmemStudy.Harness.Worker
import PmemStudy.Lib.Text

/-!
# The workload file

`prepare` takes an operation and a key out of each matching line of a YCSB log. The driver
reads them back as words, two at a time.
-/

namespace PmemStudy.Tools

open Text Harness

/-! ### The writer -/

def dropPrefix : Text → Text → Option Text
  | [], t => some t
  | _ :: _, [] => none
  | c :: p, d :: t => if c = d then dropPrefix p t else none

/-- The pattern `([A-Z]*) usertable user([0-9]*) ` at the start of a text. -/
def matchOperation (t : Text) : Option (Text × Text) :=
  match dropPrefix " usertable user".toList (t.dropWhile Char.isUpper) with
  | some t' =>
    match t'.dropWhile Char.isDigit with
    | ' ' :: _ => some (t.takeWhile Char.isUpper, t'.takeWhile Char.isDigit)
    | _ => none
  | none => none

/-- `re.search` -/
def searchOperation : Text → Option (Text × Text)
  | [] => matchOperation []
  | c :: t => (matchOperation (c :: t)).or (searchOperation t)

/-- The operations and keys that are found in a log. -/
def extracted (log : Text) : List (Text × Text) := (readlines log).filterMap searchOperation

/-- `out_file.write(op + " " + key + "\n")` -/
def writeLine (m : Text × Text) : Text := m.1 ++ ' ' :: m.2 ++ ['\n']

def prepare (log : Text) : Text := (extracted log).flatMap writeLine

/-! ### The reader -/

/-- `strtoull(s, nullptr, 10)` -/
def strtoull (s : Text) : ℕ :=
  let s := s.dropWhile isSpace
  let signed : Bool × Text :=
    match s with
    | '-' :: s => (true, s)
    | '+' :: s => (false, s)
    | s => (false, s)
  let n := Nat.ofDigitChars 10 (signed.2.takeWhile Char.isDigit) 0
  if 2 ^ 64 ≤ n then 2 ^ 64 - 1
  else if signed.1 then subUint64 0 n
  else n

/-- The operations by their names in the file. -/
def readOperation (op : Text) : Option Operation :=
  if op = "INSERT".toList then some .INSERT
  else if op = "READ".toList then some .READ
  else if op = "UPDATE".toList then some .UPDATE
  else if op = "DELETE".toList then some .DELETE
  -- `illegal operation`
  else none

/-- The loop over `infile >> op >> key`. There is no result if the driver exits. -/
def readWords : List Text → Option (List (ℕ × ℕ) × List Operation)
  | op :: key :: rest =>
    (readOperation op).bind fun o =>
      (readWords rest).map fun r => ((strtoull key, strtoull key) :: r.1, o :: r.2)
  | _ => some ([], [])

/-- `run_kv` and `runtime_ops`. -/
def readRun (file : Text) : Option (List (ℕ × ℕ) × List Operation) := readWords (words file)

/-! ### Reading back -/

/-- The names of the enumerators. -/
def operationName : Operation → Text
  | .READ => "READ".toList
  | .INSERT => "INSERT".toList
  | .DELETE => "DELETE".toList
  | .UPDATE => "UPDATE".toList
  | .READ_NOTFOUND => "READ_NOTFOUND".toList

/-- The number that the digits of a key denote. -/
def keyNumber (key : Text) : ℕ := Nat.ofDigitChars 10 key 0

/-- The driver reads the file of a log to its end, and has the same operations and keys in
the same order. -/
def ReadBack (log : Text) : Prop :=
  ∃ kv ops, readRun (prepare log) = some (kv, ops) ∧
    List.Forall₂ (fun m o => m.1 = operationName o) (extracted log) ops ∧
    List.Forall₂ (fun m p => p = (keyNumber m.2, keyNumber m.2)) (extracted log) kv

/-- An operation that the driver knows, and a key of 64 bits. -/
structure Readable (m : Text × Text) : Prop where
  operation : ∃ o, o ∈ [Operation.INSERT, .READ, .UPDATE, .DELETE] ∧ m.1 = operationName o
  key_ne : m.2 ≠ []
  key_lt : keyNumber m.2 < 2 ^ 64

/-! ### Matches -/

theorem matchOperation_chars {t : Text} {m : Text × Text} (h : matchOperation t = some m) :
    (∀ c ∈ m.1, c.isUpper = true) ∧ ∀ c ∈ m.2, c.isDigit = true := by
  unfold matchOperation at h
  split at h
  · split at h
    · cases h
      constructor
      · exact fun c hc => List.mem_takeWhile_imp hc
      · exact fun c hc => List.mem_takeWhile_imp hc
    · cases h
  · cases h

theorem searchOperation_chars {t : Text} {m : Text × Text} (h : searchOperation t = some m) :
    (∀ c ∈ m.1, c.isUpper = true) ∧ ∀ c ∈ m.2, c.isDigit = true := by
  induction t with
  | nil => exact matchOperation_chars h
  | cons c t ih =>
    rw [searchOperation, Option.or_eq_some_iff] at h
    rcases h with h | ⟨-, h⟩
    · exact matchOperation_chars h
    · exact ih h

theorem extracted_chars {log : Text} {m : Text × Text} (h : m ∈ extracted log) :
    (∀ c ∈ m.1, c.isUpper = true) ∧ ∀ c ∈ m.2, c.isDigit = true := by
  obtain ⟨line, -, hline⟩ := List.mem_filterMap.mp h
  exact searchOperation_chars hline

theorem not_isSpace {c : Char} (h : c.isUpper = true ∨ c.isDigit = true) : isSpace c = false := by
  rw [Bool.eq_false_iff]
  intro hs
  simp only [isSpace, Bool.or_eq_true, decide_eq_true_eq] at hs
  rcases hs with ((((rfl | rfl) | rfl) | rfl) | rfl) | rfl <;> exact absurd h (by decide)

/-! ### Words and numbers -/

theorem words_lines {ms : List (Text × Text)}
    (hchars : ∀ m ∈ ms, (∀ c ∈ m.1, c.isUpper = true) ∧ ∀ c ∈ m.2, c.isDigit = true)
    (hne : ∀ m ∈ ms, m.1 ≠ [] ∧ m.2 ≠ []) :
    words (ms.flatMap writeLine) = ms.flatMap fun m => [m.1, m.2] := by
  induction ms with
  | nil => rfl
  | cons m ms ih =>
    obtain ⟨hop, hkey⟩ := hchars m List.mem_cons_self
    obtain ⟨hop', hkey'⟩ := hne m List.mem_cons_self
    have hrest := ih (fun m' hm => hchars m' (List.mem_cons_of_mem m hm))
      fun m' hm => hne m' (List.mem_cons_of_mem m hm)
    have hline : writeLine m ++ ms.flatMap writeLine =
        m.1 ++ ' ' :: (m.2 ++ '\n' :: ms.flatMap writeLine) := by
      simp only [writeLine, List.cons_append, List.append_assoc, List.nil_append]
    rw [List.flatMap_cons, List.flatMap_cons, hline,
      words_word hop' (fun c hc => not_isSpace (.inl (hop c hc))) rfl,
      words_word hkey' (fun c hc => not_isSpace (.inr (hkey c hc))) rfl, hrest]
    rfl

/-- A number of 64 bits is read as it is. -/
theorem strtoull_digits {key : Text} (h : ∀ c ∈ key, c.isDigit = true)
    (hlt : keyNumber key < 2 ^ 64) : strtoull key = keyNumber key := by
  have htake : key.takeWhile Char.isDigit = key := List.takeWhile_eq_self_iff.mpr h
  cases key with
  | nil => rfl
  | cons c t =>
    have hc := h c List.mem_cons_self
    have hspace : (c :: t).dropWhile isSpace = c :: t := by
      rw [List.dropWhile_cons, not_isSpace (.inr hc), if_neg Bool.false_ne_true]
    have hminus : c ≠ '-' := by
      rintro rfl
      exact absurd hc (by decide)
    have hplus : c ≠ '+' := by
      rintro rfl
      exact absurd hc (by decide)
    unfold strtoull
    simp only [hspace]
    split
    · next heq => exact absurd (List.cons.inj heq).1 hminus
    · next heq => exact absurd (List.cons.inj heq).1 hplus
    · rw [htake]
      have : ¬ 2 ^ 64 ≤ Nat.ofDigitChars 10 (c :: t) 0 := Nat.not_le.mpr hlt
      rw [if_neg this]
      rfl

theorem readOperation_name {o : Operation} (h : o ∈ [Operation.INSERT, .READ, .UPDATE, .DELETE]) :
    readOperation (operationName o) = some o := by
  cases o with
  | INSERT | READ | UPDATE | DELETE => decide +kernel
  | READ_NOTFOUND => exact absurd h (by decide)

theorem readWords_readable {ms : List (Text × Text)} (h : ∀ m ∈ ms, Readable m)
    (hdigits : ∀ m ∈ ms, ∀ c ∈ m.2, c.isDigit = true) :
    ∃ kv ops, readWords (ms.flatMap fun m => [m.1, m.2]) = some (kv, ops) ∧
      List.Forall₂ (fun m o => m.1 = operationName o) ms ops ∧
      List.Forall₂ (fun m p => p = (keyNumber m.2, keyNumber m.2)) ms kv := by
  induction ms with
  | nil => exact ⟨[], [], rfl, .nil, .nil⟩
  | cons m ms ih =>
    obtain ⟨⟨o, ho, hname⟩, -, hlt⟩ := h m List.mem_cons_self
    obtain ⟨kv, ops, hrest, hops, hkv⟩ := ih (fun m' hm => h m' (List.mem_cons_of_mem m hm))
      fun m' hm => hdigits m' (List.mem_cons_of_mem m hm)
    have hkey := strtoull_digits (hdigits m List.mem_cons_self) hlt
    refine ⟨(keyNumber m.2, keyNumber m.2) :: kv, o :: ops, ?_, .cons hname hops, .cons rfl hkv⟩
    show readWords (m.1 :: m.2 :: ms.flatMap fun m => [m.1, m.2]) = _
    rw [readWords, hname, readOperation_name ho, Option.bind_some, hrest, hkey]
    rfl

/-- The operations and keys of a log are read back, as far as the driver knows them. -/
theorem readBack_of_readable (log : Text) (h : ∀ m ∈ extracted log, Readable m) :
    ReadBack log := by
  have hne : ∀ m ∈ extracted log, m.1 ≠ [] ∧ m.2 ≠ [] := by
    intro m hm
    obtain ⟨⟨o, -, hname⟩, hkey, -⟩ := h m hm
    refine ⟨?_, hkey⟩
    rw [hname]
    cases o <;> decide
  unfold ReadBack readRun prepare
  rw [words_lines (fun m hm => extracted_chars hm) hne]
  exact readWords_readable h fun m hm => (extracted_chars hm).2

theorem readBack_insert_read :
    ReadBack "INSERT usertable user3341382696024442574 [ ]\nREAD usertable user5 [ ]\n".toList := by
  refine readBack_of_readable _ ?_
  have hlog : extracted "INSERT usertable user3341382696024442574 [ ]\nREAD usertable user5 [ ]\n".toList =
      [("INSERT".toList, "3341382696024442574".toList), ("READ".toList, "5".toList)] := by
    decide +kernel
  rw [hlog]
  intro m hm
  rcases List.mem_cons.mp hm with rfl | hm
  · exact ⟨⟨.INSERT, by decide, rfl⟩, by decide +kernel, by decide +kernel⟩
  · rw [List.mem_singleton.mp hm]
    exact ⟨⟨.READ, by decide, rfl⟩, by decide +kernel, by decide +kernel⟩

/-- The driver exits at any other operation. -/
theorem scan_not_readBack : ¬ ReadBack "SCAN usertable user7 10 [ ]\n".toList := by
  rintro ⟨kv, ops, h, -⟩
  have hexit : readRun (prepare "SCAN usertable user7 10 [ ]\n".toList) = none := by
    decide +kernel
  rw [hexit] at h
  cases h

end PmemStudy.Tools
