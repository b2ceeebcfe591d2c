import Mathlib.Data.List.Forall2
import PmemStudy.Tools.LogParser

/-!
# Printed logs

The tests print a record as a start line, lines with pairs between other text, and an end
line. Such a log is read back: one dictionary for each record, with the last value that was
printed for each name.
-/

namespace PmemStudy.Tools

open Text

/-! ### The layout -/

/-- What may be printed as a name, as a value or around them. -/
structure Plain (t : Text) : Prop where
  no_bracket : '[' ∉ t ∧ ']' ∉ t
  no_newline : '\n' ∉ t ∧ '\r' ∉ t
  not_start : ¬ seperatorStart <:+: t
  not_end : ¬ seperatorEnd <:+: t

abbrev PlainText := { t : Text // Plain t }

/-- A pair, printed with or without a blank behind the colon, and the text after it. -/
structure Field where
  name : PlainText
  value : PlainText
  spaced : Bool
  gap : PlainText

structure RecordLine where
  text : PlainText
  fields : List Field

structure Record where
  lines : List RecordLine
  nonempty : ∃ line ∈ lines, line.fields ≠ []

def Field.blank (f : Field) : Text := if f.spaced then [' '] else []

def Field.print (f : Field) : Text :=
  '[' :: f.name ++ ']' :: ':' :: f.blank ++ '[' :: f.value ++ ']' :: f.gap

def RecordLine.print (l : RecordLine) : Text := l.text ++ l.fields.flatMap Field.print

def Record.print (r : Record) : List Text :=
  seperatorStart :: r.lines.map RecordLine.print ++ [seperatorEnd]

/-- Every line is ended by `std::endl`. -/
def printLog (rs : List Record) : Text := (rs.flatMap Record.print).flatMap (· ++ ['\n'])

def RecordLine.pairs (l : RecordLine) : Pairs := l.fields.map fun f => (f.name, f.value)

def Record.pairs (r : Record) : Pairs := r.lines.flatMap RecordLine.pairs

/-- The last value that a list of pairs has for a name. -/
def lastValue (ps : Pairs) (n : Text) : Option Text := ps.reverse.lookup n

/-! ### Matching -/

theorem closeGroup_length {t v rest : Text} (h : closeGroup t = some (v, rest)) :
    rest.length < t.length := by
  induction t generalizing v with
  | nil => cases h
  | cons c t ih =>
    simp only [closeGroup] at h
    split at h
    · cases h
      exact Nat.lt_succ_self _
    · split at h
      · cases h
      · obtain ⟨⟨v', rest'⟩, hr, he⟩ := Option.map_eq_some_iff.mp h
        cases he
        exact Nat.lt_succ_of_lt (ih hr)

theorem matchColon_length {t rest : Text} (h : matchColon t = some rest) :
    rest.length < t.length := by
  unfold matchColon at h
  split at h
  · next t' ht =>
    split at h
    · next t'' ht' =>
      cases h
      have h1 := (List.dropWhile_sublist (fun c => decide (c = ' ')) (l := t)).length_le
      have h2 := (List.dropWhile_sublist (fun c => decide (c = ' ')) (l := t')).length_le
      rw [ht, List.length_cons] at h1
      rw [ht', List.length_cons] at h2
      omega
    · cases h
  · cases h

theorem matchGroups_length {t k v rest : Text} (h : matchGroups t = some (k, v, rest)) :
    rest.length < t.length := by
  induction t generalizing k with
  | nil => cases h
  | cons c t ih =>
    simp only [matchGroups] at h
    split at h
    · next v' rest' hclose =>
      cases h
      split at hclose
      · obtain ⟨t', ht, hc⟩ := Option.bind_eq_some_iff.mp hclose
        have h1 := matchColon_length ht
        have h2 := closeGroup_length hc
        rw [List.length_cons]
        omega
      · cases hclose
    · split at h
      · cases h
      · obtain ⟨⟨k', v', rest'⟩, hr, he⟩ := Option.map_eq_some_iff.mp h
        cases he
        exact Nat.lt_succ_of_lt (ih hr)

/-- Any bound on the length will do. -/
theorem findallFrom_of_le (n : ℕ) {t : Text} (h : t.length ≤ n) : findallFrom n t = findall t := by
  suffices ∀ m n (t : Text), t.length ≤ m → t.length ≤ n → findallFrom n t = findallFrom m t from
    this t.length n t le_rfl h
  intro m
  induction m with
  | zero =>
    intro n t hm hn
    obtain rfl : t = [] := List.length_eq_zero_iff.mp (Nat.le_zero.mp hm)
    cases n <;> rfl
  | succ m ih =>
    intro n t hm hn
    cases t with
    | nil => cases n <;> rfl
    | cons c t =>
      obtain ⟨n, rfl⟩ : ∃ n', n = n' + 1 := ⟨n - 1, by rw [List.length_cons] at hn; omega⟩
      rw [List.length_cons] at hm hn
      simp only [findallFrom]
      split
      · next k v rest hmatch =>
        split at hmatch
        · have := matchGroups_length hmatch
          rw [ih n rest (by omega) (by omega)]
        · cases hmatch
      · exact ih n t (by omega) (by omega)

theorem findall_skip {c : Char} (h : c ≠ '[') (t : Text) : findall (c :: t) = findall t := by
  show findallFrom (t.length + 1) (c :: t) = findallFrom t.length t
  simp only [findallFrom, h, if_false]

theorem findall_match {t k v rest : Text} (h : matchGroups t = some (k, v, rest)) :
    findall ('[' :: t) = (k, v) :: findall rest := by
  show findallFrom (t.length + 1) ('[' :: t) = _
  simp only [findallFrom, if_true, h]
  rw [findallFrom_of_le _ (matchGroups_length h).le]

theorem findall_plain {t : Text} (h : '[' ∉ t) (rest : Text) :
    findall (t ++ rest) = findall rest := by
  induction t with
  | nil => rfl
  | cons c t ih =>
    have hc : c ≠ '[' := fun he => h (he ▸ List.mem_cons_self)
    rw [List.cons_append, findall_skip hc, ih fun hm => h (List.mem_cons_of_mem c hm)]

theorem closeGroup_plain {v : Text} (hv : Plain v) (rest : Text) :
    closeGroup (v ++ ']' :: rest) = some (v, rest) := by
  obtain ⟨⟨-, hb⟩, ⟨hn, -⟩, -, -⟩ := hv
  induction v with
  | nil => rfl
  | cons c v ih =>
    have hc : c ≠ ']' := fun he => hb (he ▸ List.mem_cons_self)
    have hc' : c ≠ '\n' := fun he => hn (he ▸ List.mem_cons_self)
    have hrest := ih (fun hm => hb (List.mem_cons_of_mem c hm)) fun hm => hn (List.mem_cons_of_mem c hm)
    rw [List.cons_append, closeGroup, if_neg hc, if_neg hc', hrest]
    rfl

theorem matchColon_blank (f : Field) (t : Text) :
    matchColon (':' :: f.blank ++ '[' :: t) = some t := by
  unfold Field.blank
  cases f.spaced <;> rfl

theorem matchGroups_plain {k : Text} (hk : Plain k) {t v rest : Text}
    (ht : (matchColon t).bind closeGroup = some (v, rest)) :
    matchGroups (k ++ ']' :: t) = some (k, v, rest) := by
  obtain ⟨⟨-, hb⟩, ⟨hn, -⟩, -, -⟩ := hk
  induction k with
  | nil =>
    show matchGroups (']' :: t) = _
    simp only [matchGroups, if_true, ht]
  | cons c k ih =>
    have hc : c ≠ ']' := fun he => hb (he ▸ List.mem_cons_self)
    have hc' : c ≠ '\n' := fun he => hn (he ▸ List.mem_cons_self)
    have hrest := ih (fun hm => hb (List.mem_cons_of_mem c hm)) fun hm => hn (List.mem_cons_of_mem c hm)
    rw [List.cons_append]
    simp only [matchGroups, hc, hc', if_false, hrest, Option.map_some]

/-- A printed pair is found, and the search goes on behind it. -/
theorem findall_field (f : Field) (rest : Text) :
    findall (f.print ++ rest) = (f.name.1, f.value.1) :: findall rest := by
  have hprint : f.print ++ rest = '[' :: (f.name.1 ++ ']' ::
      (':' :: f.blank ++ '[' :: (f.value.1 ++ ']' :: (f.gap.1 ++ rest)))) := by
    simp only [Field.print, List.cons_append, List.append_assoc]
  have hclose : (matchColon (':' :: f.blank ++ '[' :: (f.value.1 ++ ']' :: (f.gap.1 ++ rest)))).bind
      closeGroup = some (f.value.1, f.gap.1 ++ rest) := by
    rw [matchColon_blank, Option.bind_some, closeGroup_plain f.value.2]
  rw [hprint, findall_match (matchGroups_plain f.name.2 hclose),
    findall_plain f.gap.2.no_bracket.1]

theorem findall_line (l : RecordLine) : findall (l.print ++ ['\n']) = l.pairs := by
  unfold RecordLine.print RecordLine.pairs
  rw [List.append_assoc, findall_plain l.text.2.no_bracket.1]
  induction l.fields with
  | nil => rfl
  | cons f fields ih =>
    rw [List.flatMap_cons, List.append_assoc, findall_field, ih]
    rfl

/-! ### Lines of a record -/

theorem not_infix_cons {pattern a b : Text} {c : Char} (hc : c ∉ pattern) (ha : ¬ pattern <:+: a)
    (hb : ¬ pattern <:+: b) : ¬ pattern <:+: a ++ c :: b := by
  intro h
  rcases infix_of_append_cons hc h with h | h
  · exact ha h
  · exact hb h

theorem plain_nil : Plain [] where
  no_bracket := ⟨List.not_mem_nil, List.not_mem_nil⟩
  no_newline := ⟨List.not_mem_nil, List.not_mem_nil⟩
  not_start := by
    rw [← search_iff]
    decide +kernel
  not_end := by
    rw [← search_iff]
    decide +kernel

/-- The characters between the texts of a line are in no separator, so that a separator on
the line would be in one of the texts. -/
theorem not_infix_line {pattern : Text} (hb : '[' ∉ pattern) (hb' : ']' ∉ pattern)
    (hc : ':' ∉ pattern) (hs : ¬ pattern <:+: [' ']) (hn : '\n' ∉ pattern)
    (hplain : ∀ t, Plain t → ¬ pattern <:+: t) (l : RecordLine) :
    ¬ pattern <:+: l.print ++ ['\n'] := by
  have hnil : ¬ pattern <:+: [] := hplain [] plain_nil
  have hblank : ∀ f : Field, ¬ pattern <:+: f.blank := by
    intro f
    unfold Field.blank
    split
    · exact hs
    · exact hnil
  unfold RecordLine.print
  generalize l.text = t
  induction l.fields generalizing t with
  | nil =>
    rw [List.flatMap_nil, List.append_nil]
    exact not_infix_cons hn (hplain _ t.2) hnil
  | cons f fields ih =>
    have hline : t.1 ++ (f :: fields).flatMap Field.print ++ ['\n'] =
        t.1 ++ '[' :: (f.name.1 ++ ']' :: (':' :: (f.blank ++ '[' :: (f.value.1 ++ ']' ::
          (f.gap.1 ++ fields.flatMap Field.print ++ ['\n']))))) := by
      simp only [List.flatMap_cons, Field.print, List.cons_append, List.append_assoc]
    have hvalue := not_infix_cons hb' (hplain _ f.value.2) (ih f.gap)
    have hcolon := not_infix_cons hc hnil (not_infix_cons hb (hblank f) hvalue)
    rw [hline]
    exact not_infix_cons hb (hplain _ t.2) (not_infix_cons hb' (hplain _ f.name.2) hcolon)

theorem not_isStart_line (l : RecordLine) : ¬ IsStart (l.print ++ ['\n']) := by
  unfold IsStart
  rw [search_iff]
  have hblank : ¬ seperatorStart <:+: [' '] := by
    rw [← search_iff]
    decide +kernel
  exact not_infix_line (by decide) (by decide) (by decide) hblank (by decide)
    (fun _ h => h.not_start) l

theorem not_isEnd_line (l : RecordLine) : ¬ IsEnd (l.print ++ ['\n']) := by
  unfold IsEnd
  rw [search_iff]
  have hblank : ¬ seperatorEnd <:+: [' '] := by
    rw [← search_iff]
    decide +kernel
  exact not_infix_line (by decide) (by decide) (by decide) hblank (by decide)
    (fun _ h => h.not_end) l

/-- A record has no newlines but the ends of its lines. -/
theorem not_mem_line {c : Char} (hn : c = '\n' ∨ c = '\r') (l : RecordLine) : c ∉ l.print := by
  have hplain : ∀ t : PlainText, c ∉ t.1 := by
    intro t
    rcases hn with rfl | rfl
    · exact t.2.no_newline.1
    · exact t.2.no_newline.2
  have hsep : c ≠ '[' ∧ c ≠ ']' ∧ c ≠ ':' ∧ c ≠ ' ' := by
    rcases hn with rfl | rfl <;> decide
  have hfield : ∀ f : Field, c ∉ f.print := by
    intro f
    have hblank : c ∉ f.blank := by
      unfold Field.blank
      split
      · rw [List.mem_singleton]
        exact hsep.2.2.2
      · exact List.not_mem_nil
    simp only [Field.print, List.cons_append, List.append_assoc, List.mem_cons, List.mem_append,
      hsep.1, hsep.2.1, hsep.2.2.1, hplain, hblank, or_self, not_false_eq_true]
  simp only [RecordLine.print, List.mem_append, List.mem_flatMap, hplain, hfield, and_false,
    exists_false, or_self, not_false_eq_true]

theorem readlines_printLog (rs : List Record) :
    readlines (printLog rs) = (rs.flatMap Record.print).map (· ++ ['\n']) := by
  have hlines : ∀ l ∈ rs.flatMap Record.print, '\n' ∉ l ∧ '\r' ∉ l := by
    intro l hl
    obtain ⟨r, -, hl⟩ := List.mem_flatMap.mp hl
    rcases List.mem_cons.mp hl with rfl | hl
    · decide
    · rcases List.mem_append.mp hl with hl | hl
      · obtain ⟨line, -, rfl⟩ := List.mem_map.mp hl
        exact ⟨not_mem_line (.inl rfl) line, not_mem_line (.inr rfl) line⟩
      · rw [List.mem_singleton.mp hl]
        decide
  have hcr : '\r' ∉ printLog rs := by
    intro hm
    obtain ⟨l, hl, hm⟩ := List.mem_flatMap.mp hm
    rcases List.mem_append.mp hm with hm | hm
    · exact (hlines l hl).2 hm
    · exact absurd (List.mem_singleton.mp hm) (by decide)
  unfold readlines
  rw [universalNewlines_of_not_mem hcr]
  exact splitLines_flatMap fun l hl => (hlines l hl).1

/-! ### Scanning a record -/

theorem setAll_append {ps qs : Pairs} (d : Pairs) :
    Dict.setAll d (ps ++ qs) = Dict.setAll (Dict.setAll d ps) qs := List.foldl_append

theorem scanLine_start (s : LogParser) (h : s.kvDict = []) :
    s.scanLine (seperatorStart ++ ['\n']) = ⟨1, [], s.dataList⟩ := by
  have hs : IsStart (seperatorStart ++ ['\n']) := by decide +kernel
  have he : ¬ IsEnd (seperatorStart ++ ['\n']) := by decide +kernel
  have hf : findall (seperatorStart ++ ['\n']) = [] := by decide +kernel
  obtain ⟨flag, d, l⟩ := s
  obtain rfl : d = [] := h
  simp [LogParser.scanLine, LogParser.seperate, hs, he, hf, Dict.setAll]

theorem scanLine_end (d : Pairs) (l : List Pairs) (h : d ≠ []) :
    (⟨1, d, l⟩ : LogParser).scanLine (seperatorEnd ++ ['\n']) = ⟨0, [], l ++ [d]⟩ := by
  have hs : ¬ IsStart (seperatorEnd ++ ['\n']) := by decide +kernel
  have he : IsEnd (seperatorEnd ++ ['\n']) := by decide +kernel
  simp [LogParser.scanLine, LogParser.seperate, hs, he, h]

theorem scanLine_pairs (d : Pairs) (l : List Pairs) (line : RecordLine) :
    (⟨1, d, l⟩ : LogParser).scanLine (line.print ++ ['\n']) =
      ⟨1, Dict.setAll d line.pairs, l⟩ := by
  simp [LogParser.scanLine, LogParser.seperate, not_isStart_line, not_isEnd_line, findall_line]

theorem foldl_lines (lines : List RecordLine) (d : Pairs) (l : List Pairs) :
    ((lines.map RecordLine.print).map (· ++ ['\n'])).foldl LogParser.scanLine ⟨1, d, l⟩ =
      ⟨1, Dict.setAll d (lines.flatMap RecordLine.pairs), l⟩ := by
  induction lines generalizing d with
  | nil => rfl
  | cons line lines ih =>
    rw [List.map_cons, List.map_cons, List.foldl_cons, scanLine_pairs, ih, List.flatMap_cons,
      setAll_append]

theorem pairs_ne_nil (r : Record) : r.pairs ≠ [] := by
  obtain ⟨line, hline, hne⟩ := r.nonempty
  intro h
  have hnil := List.flatMap_eq_nil_iff.mp h line hline
  exact hne (List.map_eq_nil_iff.mp hnil)

/-- From an empty dictionary a record appends the dictionary of its pairs. -/
theorem foldl_record (r : Record) (s : LogParser) (h : s.kvDict = []) :
    (r.print.map (· ++ ['\n'])).foldl LogParser.scanLine s =
      ⟨0, [], s.dataList ++ [Dict.setAll [] r.pairs]⟩ := by
  have hne : Dict.setAll [] r.pairs ≠ [] := by
    rw [Ne, Dict.setAll_eq_nil_iff]
    exact pairs_ne_nil r
  unfold Record.print
  rw [List.map_append, List.map_cons, List.foldl_append, List.foldl_cons, scanLine_start s h,
    foldl_lines]
  exact scanLine_end _ _ hne

theorem foldl_records (rs : List Record) (s : LogParser) (h : s.kvDict = []) :
    (((rs.flatMap Record.print).map (· ++ ['\n'])).foldl LogParser.scanLine s).dataList =
      s.dataList ++ rs.map fun r => Dict.setAll [] r.pairs := by
  induction rs generalizing s with
  | nil => exact (List.append_nil _).symm
  | cons r rs ih =>
    rw [List.flatMap_cons, List.map_append, List.foldl_append, foldl_record r s h, ih _ rfl,
      List.append_assoc]
    rfl

/-- A printed log is read back. -/
theorem scanFile_printLog (rs : List Record) :
    List.Forall₂ (fun d r => ∀ n, d.lookup n = lastValue r.pairs n)
      (LogParser.scanFile (printLog rs)) rs := by
  have hdata : LogParser.scanFile (printLog rs) = rs.map fun r => Dict.setAll [] r.pairs := by
    unfold LogParser.scanFile LogParser.scanLines
    rw [readlines_printLog, foldl_records rs LogParser.new rfl]
    rfl
  rw [hdata, List.forall₂_map_left_iff]
  refine List.forall₂_same.mpr ?_
  intro r _ n
  rw [Dict.lookup_setAll, List.lookup_nil, Option.or_none]
  rfl

end PmemStudy.Tools
