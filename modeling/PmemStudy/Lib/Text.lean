import Mathlib.Data.List.Infix

/-!
# Texts

A text is the list of its characters. A file that is read by lines gives them with their
newlines, all spelled the same.
-/

namespace PmemStudy

abbrev Text := List Char

namespace Text

/-- The pattern occurs somewhere in the text. -/
def search (pattern : Text) : Text → Bool
  | [] => pattern.isPrefixOf []
  | c :: t => pattern.isPrefixOf (c :: t) || search pattern t

theorem search_iff {pattern t : Text} : search pattern t = true ↔ pattern <:+: t := by
  induction t with
  | nil =>
    rw [search, List.isPrefixOf_iff_prefix, List.prefix_nil, List.infix_nil]
  | cons c t ih =>
    rw [search, Bool.or_eq_true, List.isPrefixOf_iff_prefix, ih, List.infix_cons_iff]

/-- A character that is not in the pattern keeps an occurrence on one side. -/
theorem infix_of_append_cons {pattern a b : Text} {c : Char} (hc : c ∉ pattern)
    (h : pattern <:+: a ++ c :: b) : pattern <:+: a ∨ pattern <:+: b := by
  obtain ⟨s, t, heq⟩ := h
  have heq' : s ++ (pattern ++ t) = a ++ (c :: b) := by rw [← heq, List.append_assoc]
  rcases List.append_eq_append_iff.mp heq' with ⟨u, ha, hp⟩ | ⟨u, hs, hb⟩
  · rcases List.append_eq_append_iff.mp hp with ⟨w, hu, -⟩ | ⟨w, hpat, htail⟩
    · left
      exact ⟨s, w, by rw [ha, hu, List.append_assoc]⟩
    · cases w with
      | nil =>
        left
        rw [List.append_nil] at hpat
        exact ⟨s, [], by rw [ha, hpat, List.append_nil]⟩
      | cons d w =>
        have hd : c = d := by
          have := congrArg List.head? htail
          simpa using this
        exact absurd (hpat ▸ List.mem_append_right u (hd ▸ List.mem_cons_self)) hc
  · right
    cases u with
    | nil =>
      cases pattern with
      | nil => exact List.nil_infix
      | cons d p =>
        have hd : c = d := by
          have := congrArg List.head? hb
          simpa using this
        exact absurd (hd ▸ List.mem_cons_self) hc
    | cons d u =>
      have htail := (List.cons.inj hb).2
      exact ⟨u, t, by rw [List.append_assoc]; exact htail.symm⟩

/-- Carriage returns, alone or before a newline, are read as newlines. -/
def universalNewlines : Text → Text
  | [] => []
  | '\r' :: '\n' :: t => '\n' :: universalNewlines t
  | '\r' :: t => '\n' :: universalNewlines t
  | c :: t => c :: universalNewlines t

theorem universalNewlines_of_not_mem {t : Text} (h : '\r' ∉ t) : universalNewlines t = t := by
  induction t with
  | nil => rfl
  | cons c t ih =>
    have hc : c ≠ '\r' := fun he => h (he ▸ List.mem_cons_self)
    have ht := ih fun hm => h (List.mem_cons_of_mem c hm)
    rw [universalNewlines, ht]
    · exact fun t' he _ => hc he
    · exact fun he => hc he

/-- The lines of a text, with their newlines. -/
def splitLines : Text → List Text
  | [] => []
  | c :: t =>
    if c = '\n' then [c] :: splitLines t
    else
      match splitLines t with
      | [] => [[c]]
      | l :: ls => (c :: l) :: ls

theorem splitLines_line {l : Text} (h : '\n' ∉ l) (t : Text) :
    splitLines (l ++ '\n' :: t) = (l ++ ['\n']) :: splitLines t := by
  induction l with
  | nil => rfl
  | cons c l ih =>
    have hc : c ≠ '\n' := fun he => h (he ▸ List.mem_cons_self)
    have ht := ih fun hm => h (List.mem_cons_of_mem c hm)
    rw [List.cons_append, splitLines, if_neg hc, ht]
    rfl

theorem splitLines_flatMap {ls : List Text} (h : ∀ l ∈ ls, '\n' ∉ l) :
    splitLines (ls.flatMap (· ++ ['\n'])) = ls.map (· ++ ['\n']) := by
  induction ls with
  | nil => rfl
  | cons l ls ih =>
    rw [List.flatMap_cons, List.append_assoc, List.singleton_append,
      splitLines_line (h l List.mem_cons_self), ih fun l' hl => h l' (List.mem_cons_of_mem l hl)]
    rfl

/-- What `readline` gives, call by call, until the end of the file. -/
def readlines (t : Text) : List Text := splitLines (universalNewlines t)

/-! ### Words -/

/-- White space in the C locale. -/
def isSpace (c : Char) : Bool :=
  c = ' ' || c = '\t' || c = '\n' || c = Char.ofNat 11 || c = Char.ofNat 12 || c = '\r'

/-- A character in front of a text with these words. -/
def consWord (c : Char) (t : Text) (ws : List Text) : List Text :=
  if (t.head?.map isSpace).getD true then [c] :: ws
  else
    match ws with
    | w :: ws => (c :: w) :: ws
    | [] => [[c]]

/-- The words between the white space. -/
def words : Text → List Text
  | [] => []
  | c :: t => if isSpace c then words t else consWord c t (words t)

theorem words_space {c : Char} (h : isSpace c = true) (t : Text) : words (c :: t) = words t :=
  if_pos h

theorem words_word {w : Text} (hne : w ≠ []) (hw : ∀ c ∈ w, isSpace c = false) {d : Char}
    (hd : isSpace d = true) (t : Text) : words (w ++ d :: t) = w :: words t := by
  induction w with
  | nil => exact absurd rfl hne
  | cons c w ih =>
    have hc : ¬ isSpace c = true := by
      rw [hw c List.mem_cons_self]
      exact Bool.false_ne_true
    rw [List.cons_append, words, if_neg hc]
    cases w with
    | nil =>
      rw [List.nil_append, words_space hd]
      exact if_pos hd
    | cons c' w =>
      have hc' : ¬ isSpace c' = true := by
        rw [hw c' (List.mem_cons_of_mem c List.mem_cons_self)]
        exact Bool.false_ne_true
      rw [ih (List.cons_ne_nil c' w) fun x hx => hw x (List.mem_cons_of_mem c hx)]
      exact if_neg hc'

end Text

end PmemStudy
