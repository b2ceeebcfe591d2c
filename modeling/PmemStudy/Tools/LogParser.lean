import PmemStudy.Lib.Dict
import PmemStudy.Lib.Text

/-!
# The log parser

`LogParser.scanFile` collects the pairs `[name]:[value]` of a record in a dictionary. A
start line switches the collecting on and an end line switches it off; the dictionary is
emptied by the end line only.
-/

namespace PmemStudy.Tools

open Text

abbrev Pairs := List (Text × Text)

/-! ### The pattern of a pair -/

/-- `(.*?)\]`: the group, and the text behind the match. -/
def closeGroup : Text → Option (Text × Text)
  | [] => none
  | c :: t =>
    if c = ']' then some ([], t)
    else if c = '\n' then none
    else (closeGroup t).map fun r => (c :: r.1, r.2)

/-- `\ *:\ *\[` -/
def matchColon (t : Text) : Option Text :=
  match t.dropWhile (· = ' ') with
  | ':' :: t =>
    match t.dropWhile (· = ' ') with
    | '[' :: t => some t
    | _ => none
  | _ => none

/-- `(.*?)\]\ *:\ *\[(.*?)\]`: the groups, and the text behind the match. -/
def matchGroups : Text → Option (Text × Text × Text)
  | [] => none
  | c :: t =>
    -- the first group is as short as the rest of the pattern allows
    match if c = ']' then (matchColon t).bind closeGroup else none with
    | some (value, rest) => some ([], value, rest)
    | none => if c = '\n' then none else (matchGroups t).map fun r => (c :: r.1, r.2)

/-- The matches in a text of at most `n` characters, from the left. -/
def findallFrom : ℕ → Text → Pairs
  | 0, _ => []
  | _ + 1, [] => []
  | n + 1, c :: t =>
    match if c = '[' then matchGroups t else none with
    | some (name, value, rest) => (name, value) :: findallFrom n rest
    | none => findallFrom n t

/-- `re.findall` with the pattern of a pair. -/
def findall (t : Text) : Pairs := findallFrom t.length t

/-! ### The scanner -/

def seperatorStart : Text := "-------result--------".toList
def seperatorEnd : Text := "---------------------".toList

def IsStart (line : Text) : Prop := search seperatorStart line = true
def IsEnd (line : Text) : Prop := search seperatorEnd line = true

instance (line : Text) : Decidable (IsStart line) := inferInstanceAs (Decidable (_ = true))
instance (line : Text) : Decidable (IsEnd line) := inferInstanceAs (Decidable (_ = true))

/-- The parser, with the dictionary that `scanFile` fills. -/
structure LogParser where
  stageFlag : ℕ
  kvDict : Pairs
  dataList : List Pairs

namespace LogParser

def new : LogParser := ⟨0, [], []⟩

/-- What is done with a start line and with an end line. -/
def seperate (s : LogParser) (line : Text) : LogParser :=
  let s := if IsStart line then { s with stageFlag := 1 } else s
  if IsEnd line then
    ⟨0, [], if s.kvDict = [] then s.dataList else s.dataList ++ [s.kvDict]⟩
  else s

def scanLine (s : LogParser) (line : Text) : LogParser :=
  let s := s.seperate line
  if s.stageFlag = 0 then s
  else { s with kvDict := Dict.setAll s.kvDict (findall line) }

def scanLines (lines : List Text) : LogParser := lines.foldl scanLine new

/-- `data_list_` of a new parser, before it is written to a file. -/
def scanFile (file : Text) : List Pairs := (scanLines (readlines file)).dataList

/-- The dictionary that a line makes the parser append. -/
def appends (s : LogParser) (line : Text) : Option Pairs :=
  ((s.scanLine line).dataList.drop s.dataList.length).head?

theorem scanLine_dataList (s : LogParser) (line : Text) :
    (s.scanLine line).dataList =
      if IsEnd line ∧ s.kvDict ≠ [] then s.dataList ++ [s.kvDict] else s.dataList := by
  have hsep : (s.scanLine line).dataList = (s.seperate line).dataList := by
    unfold scanLine
    simp only
    split <;> rfl
  rw [hsep]
  unfold seperate
  by_cases he : IsEnd line
  · by_cases hs : IsStart line <;> by_cases hk : s.kvDict = [] <;> simp [he, hs, hk]
  · by_cases hs : IsStart line <;> simp [he, hs]

theorem appends_eq (s : LogParser) (line : Text) :
    s.appends line = if IsEnd line ∧ s.kvDict ≠ [] then some s.kvDict else none := by
  unfold appends
  rw [scanLine_dataList]
  split
  · rw [List.drop_left]
    rfl
  · rw [List.drop_length]
    rfl

/-- A line appends at most one dictionary. -/
theorem dataList_append (s : LogParser) (line : Text) :
    (s.scanLine line).dataList = s.dataList ++ (s.appends line).toList := by
  rw [appends_eq, scanLine_dataList]
  split
  · rfl
  · exact (List.append_nil _).symm

theorem scanLines_concat (lines : List Text) (line : Text) :
    scanLines (lines ++ [line]) = (scanLines lines).scanLine line := by
  unfold scanLines
  rw [List.foldl_append]
  rfl

end LogParser

/-! ### Records -/

/-- A log; none of its lines is both a start and an end line. -/
structure Log where
  text : Text
  apart : ∀ line ∈ readlines text, ¬ (IsStart line ∧ IsEnd line)

def Log.lines (L : Log) : List Text := readlines L.text

def pairs (lines : List Text) : Pairs := lines.flatMap findall

def names (lines : List Text) : List Text := (pairs lines).map Prod.fst

/-- The lines `s :: b` go from a start line up to the next line, with no start line after
it. -/
def FromLastStart (s : Text) (b : List Text) : Prop := IsStart s ∧ ∀ line ∈ b, ¬ IsStart line

/-- Records do not leak into each other. -/
structure Separated (lines : List Text) : Prop where
  /-- A dictionary has pairs only from the lines from the last start line before its end line
  up to the end line. -/
  own : ∀ pre line post d, lines = pre ++ line :: post →
    (LogParser.scanLines pre).appends line = some d →
    ∃ a s b, pre = a ++ s :: b ∧ FromLastStart s b ∧ ∀ p ∈ d, p ∈ pairs (s :: b)
  /-- An end line that closes a start line appends a dictionary if there are pairs between
  them. -/
  complete : ∀ pre line post a s b, lines = pre ++ line :: post → IsEnd line →
    pre = a ++ s :: b → FromLastStart s b → (∀ x ∈ b, ¬ IsEnd x) → pairs (s :: b) ≠ [] →
    ((LogParser.scanLines pre).appends line).isSome

/-- Where a start line `f` is left without an end line, the names on the lines up to the
next record are all on the lines of the record that is closed after it. -/
def NamedAgain (lines : List Text) : Prop :=
  ∀ pre line post a f mid s b, lines = pre ++ line :: post → IsEnd line →
    pre = a ++ f :: mid ++ s :: b → IsStart f → FromLastStart s b →
    (∀ x ∈ mid ++ s :: b, ¬ IsEnd x) → ∀ n ∈ names (f :: mid), n ∈ names (s :: b)

theorem pairs_append (l l' : List Text) : pairs (l ++ l') = pairs l ++ pairs l' :=
  List.flatMap_append

theorem names_append (l l' : List Text) : names (l ++ l') = names l ++ names l' := by
  rw [names, pairs_append, List.map_append]
  rfl

/-! ### The open record -/

/-- The lines since the first start line that no end line has followed. -/
def openStep (l : List Text) (line : Text) : List Text :=
  if IsEnd line then []
  else if l = [] then (if IsStart line then [line] else [])
  else l ++ [line]

def openLines (lines : List Text) : List Text := lines.foldl openStep []

theorem openLines_concat (lines : List Text) (line : Text) :
    openLines (lines ++ [line]) = openStep (openLines lines) line := by
  unfold openLines
  rw [List.foldl_append]
  rfl

/-- The dictionary holds the pairs of all the open lines. -/
theorem scanLines_open {lines : List Text} (h : ∀ line ∈ lines, ¬ (IsStart line ∧ IsEnd line)) :
    (LogParser.scanLines lines).stageFlag = (if openLines lines = [] then 0 else 1) ∧
      (LogParser.scanLines lines).kvDict = Dict.setAll [] (pairs (openLines lines)) := by
  induction lines using List.reverseRecOn with
  | nil => exact ⟨rfl, rfl⟩
  | append_singleton lines line ih =>
    obtain ⟨hflag, hdict⟩ := ih fun x hx => h x (List.mem_append_left _ hx)
    have hline := h line (List.mem_append_right _ List.mem_cons_self)
    rw [LogParser.scanLines_concat, openLines_concat]
    generalize LogParser.scanLines lines = s at hflag hdict ⊢
    generalize openLines lines = l at hflag hdict ⊢
    unfold LogParser.scanLine LogParser.seperate openStep
    by_cases he : IsEnd line
    · simp [he, pairs, Dict.setAll]
    · by_cases hs : IsStart line
      · by_cases hl : l = []
        · subst hl
          simp only [pairs, List.flatMap_nil] at hdict
          simp [he, hs, hdict, pairs, Dict.setAll]
        · simp [he, hs, hl, hdict, pairs, Dict.setAll]
      · by_cases hl : l = []
        · subst hl
          simp only [if_true] at hflag
          simp [he, hs, hflag, hdict]
        · rw [if_neg hl] at hflag
          simp [he, hs, hl, hflag, hdict, pairs, Dict.setAll]

/-- The open lines begin with a start line, and have no end line. -/
theorem openLines_spec (lines : List Text) :
    openLines lines = [] ∨ ∃ a f r, lines = a ++ f :: r ∧ openLines lines = f :: r ∧
      IsStart f ∧ ∀ x ∈ f :: r, ¬ IsEnd x := by
  induction lines using List.reverseRecOn with
  | nil => exact .inl rfl
  | append_singleton lines line ih =>
    rw [openLines_concat, openStep]
    split
    · exact .inl rfl
    · next he =>
      rcases ih with hnil | ⟨a, f, r, hlines, hopen, hf, hr⟩
      · rw [if_pos hnil]
        split
        · next hs =>
          refine .inr ⟨lines, line, [], rfl, rfl, hs, ?_⟩
          intro x hx
          rwa [List.mem_singleton.mp hx]
        · exact .inl rfl
      · rw [hopen, if_neg (List.cons_ne_nil f r)]
        refine .inr ⟨a, f, r ++ [line], ?_, rfl, hf, ?_⟩
        · rw [hlines, List.append_assoc]
          rfl
        · intro x hx
          rcases List.mem_append.mp (show x ∈ (f :: r) ++ [line] from hx) with hx | hx
          · exact hr x hx
          · rwa [List.mem_singleton.mp hx]

/-- Lines behind a start line are open as long as there is no end line. -/
theorem openLines_suffix {a r : List Text} {f : Text} (hf : IsStart f)
    (hr : ∀ x ∈ f :: r, ¬ IsEnd x) : ∃ c, openLines (a ++ f :: r) = c ++ f :: r := by
  induction r using List.reverseRecOn with
  | nil =>
    refine ⟨openLines a, ?_⟩
    rw [openLines_concat, openStep, if_neg (hr f List.mem_cons_self)]
    split
    · next hnil =>
      rw [hnil]
      rfl
    · rfl
  | append_singleton r x ih =>
    obtain ⟨c, hc⟩ := ih fun y hy => hr y (by
      rcases List.mem_cons.mp hy with rfl | hy
      · exact List.mem_cons_self
      · exact List.mem_cons_of_mem _ (List.mem_append_left _ hy))
    refine ⟨c, ?_⟩
    have hx : ¬ IsEnd x := hr x (List.mem_cons_of_mem _ (List.mem_append_right _ List.mem_cons_self))
    have hne : c ++ f :: r ≠ [] := List.append_ne_nil_of_right_ne_nil c (List.cons_ne_nil f r)
    rw [← List.cons_append, ← List.append_assoc, openLines_concat, hc, openStep, if_neg hx,
      if_neg hne, List.append_assoc]

/-! ### The last start line -/

theorem exists_fromLastStart {f : Text} (hf : IsStart f) (r : List Text) :
    ∃ s b, FromLastStart s b ∧ (f :: r = s :: b ∨ ∃ mid, f :: r = f :: mid ++ s :: b) := by
  induction r using List.reverseRecOn with
  | nil => exact ⟨f, [], ⟨hf, fun x hx => absurd hx List.not_mem_nil⟩, .inl rfl⟩
  | append_singleton r x ih =>
    by_cases hx : IsStart x
    · exact ⟨x, [], ⟨hx, fun y hy => absurd hy List.not_mem_nil⟩, .inr ⟨r, rfl⟩⟩
    · obtain ⟨s, b, ⟨hs, hb⟩, heq⟩ := ih
      refine ⟨s, b ++ [x], ⟨hs, ?_⟩, ?_⟩
      · intro y hy
        rcases List.mem_append.mp hy with hy | hy
        · exact hb y hy
        · rwa [List.mem_singleton.mp hy]
      · rcases heq with heq | ⟨mid, heq⟩
        · left
          rw [← List.cons_append, heq]
          rfl
        · right
          refine ⟨mid, ?_⟩
          rw [← List.cons_append, heq, List.append_assoc]
          rfl

theorem fromLastStart_unique {a a' b b' : List Text} {s s' : Text} (h : FromLastStart s b)
    (h' : FromLastStart s' b') (heq : a ++ s :: b = a' ++ s' :: b') : s :: b = s' :: b' := by
  rcases List.append_eq_append_iff.mp heq with ⟨c, -, hc⟩ | ⟨c, -, hc⟩
  · cases c with
    | nil => exact hc
    | cons x c =>
      obtain ⟨-, hb⟩ := List.cons.inj hc
      have hmem : s' ∈ b := hb ▸ List.mem_append_right c List.mem_cons_self
      exact absurd h'.1 (h.2 s' hmem)
  · cases c with
    | nil => exact hc.symm
    | cons x c =>
      obtain ⟨-, hb⟩ := List.cons.inj hc
      have hmem : s ∈ b' := hb ▸ List.mem_append_right c List.mem_cons_self
      exact absurd h.1 (h'.2 s hmem)

/-! ### Leaks -/

section Leaks

variable {lines pre : List Text} {line : Text}

/-- The dictionary appended by an end line is the one of the open lines. -/
theorem appends_open (h : ∀ line ∈ pre, ¬ (IsStart line ∧ IsEnd line)) (he : IsEnd line) :
    (LogParser.scanLines pre).appends line =
      if pairs (openLines pre) = [] then none else some (Dict.setAll [] (pairs (openLines pre))) := by
  rw [LogParser.appends_eq, (scanLines_open h).2]
  simp only [ne_eq, Dict.setAll_eq_nil_iff, he, true_and, ite_not]

theorem mem_setAll_iff {ps : Pairs} {n v : Text} :
    (n, v) ∈ Dict.setAll [] ps ↔ ps.reverse.lookup n = some v := by
  rw [Dict.mem_iff_lookup (Dict.nodup_setAll (d := []) List.nodup_nil), Dict.lookup_setAll, List.lookup_nil,
    Option.or_none]

/-- A name that the later pairs have again has its value from there. -/
theorem lookup_reverse_append {ps qs : Pairs} {n : Text} (h : n ∈ qs.map Prod.fst) :
    (ps ++ qs).reverse.lookup n = qs.reverse.lookup n := by
  obtain ⟨v, hv⟩ := Option.isSome_iff_exists.mp (Dict.lookup_reverse_isSome h)
  rw [List.reverse_append, List.lookup_append, hv, Option.some_or]

/-- The names of an interrupted record are kept until the next end line. -/
theorem namedAgain_of_separated (hap : ∀ line ∈ lines, ¬ (IsStart line ∧ IsEnd line))
    (h : Separated lines) : NamedAgain lines := by
  intro pre line post a f mid s b hlines he hpre hf hlast hend n hn
  have happre : ∀ x ∈ pre, ¬ (IsStart x ∧ IsEnd x) := by
    intro x hx
    exact hap x (hlines ▸ List.mem_append_left _ hx)
  have hfend : ¬ IsEnd f := by
    intro hfe
    refine happre f ?_ ⟨hf, hfe⟩
    rw [hpre, List.append_assoc]
    exact List.mem_append_right _ List.mem_cons_self
  have hopen : ∃ c, openLines pre = c ++ f :: (mid ++ s :: b) := by
    rw [hpre, List.append_assoc]
    refine openLines_suffix hf ?_
    intro x hx
    rcases List.mem_cons.mp hx with rfl | hx
    · exact hfend
    · exact hend x hx
  obtain ⟨c, hc⟩ := hopen
  have hn' : n ∈ names (openLines pre) := by
    rw [hc, names_append, ← List.cons_append, names_append]
    exact List.mem_append_right _ (List.mem_append_left _ hn)
  obtain ⟨v, hv⟩ := Option.isSome_iff_exists.mp (Dict.lookup_reverse_isSome hn')
  have hne : pairs (openLines pre) ≠ [] := by
    intro hnil
    rw [names, hnil] at hn'
    exact absurd hn' List.not_mem_nil
  have happ := appends_open happre he
  rw [if_neg hne] at happ
  obtain ⟨a', s', b', hpre', hlast', hsub⟩ := h.own pre line post _ hlines happ
  have hsame : s' :: b' = s :: b := fromLastStart_unique hlast' hlast (hpre'.symm.trans hpre)
  have hmem := hsub (n, v) (mem_setAll_iff.mpr hv)
  rw [hsame] at hmem
  exact List.mem_map.mpr ⟨(n, v), hmem, rfl⟩

theorem separated_of_namedAgain (hap : ∀ line ∈ lines, ¬ (IsStart line ∧ IsEnd line))
    (h : NamedAgain lines) : Separated lines where
  own := by
    intro pre line post d hlines happ
    have happre : ∀ x ∈ pre, ¬ (IsStart x ∧ IsEnd x) := by
      intro x hx
      exact hap x (hlines ▸ List.mem_append_left _ hx)
    have he : IsEnd line := by
      by_contra hne
      rw [LogParser.appends_eq, if_neg fun hc => hne hc.1] at happ
      cases happ
    rw [appends_open happre he] at happ
    split at happ
    · cases happ
    · next hne =>
      obtain rfl := Option.some.inj happ
      rcases openLines_spec pre with hnil | ⟨a, f, r, hpre, hopen, hf, hend⟩
      · rw [hnil] at hne
        exact absurd rfl hne
      · obtain ⟨s, b, hlast, heq⟩ := exists_fromLastStart hf r
        rcases heq with heq | ⟨mid, heq⟩
        · refine ⟨a, s, b, by rw [hpre, heq], hlast, ?_⟩
          rintro ⟨n, v⟩ hp
          rw [hopen, heq, mem_setAll_iff] at hp
          exact Dict.mem_of_lookup_reverse hp
        · have hpre' : pre = a ++ f :: mid ++ s :: b := by
            rw [hpre, heq, List.append_assoc]
          refine ⟨a ++ f :: mid, s, b, hpre', hlast, ?_⟩
          rintro ⟨n, v⟩ hp
          rw [hopen, heq, mem_setAll_iff, pairs_append] at hp
          have hend' : ∀ x ∈ mid ++ s :: b, ¬ IsEnd x := by
            intro x hx
            apply hend x
            rw [heq]
            exact List.mem_cons_of_mem f hx
          have hagain := h pre line post a f mid s b hlines he hpre' hf hlast hend'
          have hn : n ∈ names (s :: b) := by
            have hmem := Dict.mem_of_lookup_reverse hp
            rcases List.mem_append.mp hmem with hm | hm
            · exact hagain n (List.mem_map.mpr ⟨(n, v), hm, rfl⟩)
            · exact List.mem_map.mpr ⟨(n, v), hm, rfl⟩
          rw [lookup_reverse_append hn] at hp
          exact Dict.mem_of_lookup_reverse hp
  complete := by
    intro pre line post a s b hlines he hpre hlast hend hne
    have happre : ∀ x ∈ pre, ¬ (IsStart x ∧ IsEnd x) := by
      intro x hx
      exact hap x (hlines ▸ List.mem_append_left _ hx)
    have hsend : ¬ IsEnd s := by
      intro hse
      exact happre s (hpre ▸ List.mem_append_right a List.mem_cons_self) ⟨hlast.1, hse⟩
    have hopen : ∃ c, openLines pre = c ++ s :: b := by
      rw [hpre]
      refine openLines_suffix hlast.1 ?_
      intro x hx
      rcases List.mem_cons.mp hx with rfl | hx
      · exact hsend
      · exact hend x hx
    obtain ⟨c, hc⟩ := hopen
    rw [appends_open happre he, if_neg]
    · rfl
    · rw [hc, pairs_append]
      exact List.append_ne_nil_of_right_ne_nil _ hne

end Leaks

/-- The records of a log stay apart exactly when every interrupted record is followed by one
that has all of its names again. -/
theorem separated_iff (L : Log) : Separated L.lines ↔ NamedAgain L.lines :=
  ⟨namedAgain_of_separated L.apart, separated_of_namedAgain L.apart⟩

/-- A run that was killed after its first pair, and the next run. -/
def killedRun : Log where
  text := "-------result--------\n[a]:[1]\n-------result--------\n[b]:[2]\n---------------------\n".toList
  apart := by decide +kernel

theorem killedRun_leaks : ¬ Separated killedRun.lines := by
  intro h
  have hagain := namedAgain_of_separated killedRun.apart h
  have hstart : IsStart "-------result--------\n".toList := by decide +kernel
  have hmem := hagain _ "---------------------\n".toList [] [] "-------result--------\n".toList
    ["[a]:[1]\n".toList] "-------result--------\n".toList ["[b]:[2]\n".toList] (by decide +kernel)
    (by decide +kernel) rfl hstart ⟨hstart, by decide +kernel⟩ (by decide +kernel)
    "a".toList (by decide +kernel)
  exact absurd hmem (by decide +kernel)

end PmemStudy.Tools
