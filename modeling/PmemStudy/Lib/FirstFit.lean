import Mathlib.Order.WellFounded
import Mathlib.Logic.Function.Basic

/-!
# First-fit placement

Items come in the order of `ι`; each is put into the first of its candidate
cells that no earlier item has taken, and is dropped when there is none.
`Placement` describes the outcome without running the procedure; there is
exactly one, and `place_next` extends it by the next item.
-/

namespace PmemStudy.FirstFit

variable {ι κ : Type*}

structure Placement [LT ι] (cand : ι → List κ) (item : ι → Prop) (pos : ι → Option κ) : Prop where
  skip : ∀ p, ¬ item p → pos p = none
  fit : ∀ p c, pos p = some c → ∃ pre post, cand p = pre ++ c :: post ∧
    (∀ c' ∈ pre, ∃ q, q < p ∧ pos q = some c') ∧ ∀ q, q < p → pos q ≠ some c
  full : ∀ p, item p → pos p = none → ∀ c ∈ cand p, ∃ q, q < p ∧ pos q = some c

section Basic
variable [LinearOrder ι] {cand : ι → List κ} {item : ι → Prop} {pos : ι → Option κ}

theorem Placement.item_of_some (h : Placement cand item pos) (p : ι) (c : κ)
    (hp : pos p = some c) : item p := by
  by_contra hn
  rw [h.skip p hn] at hp
  cases hp

theorem Placement.mem_cand (h : Placement cand item pos) (p : ι) (c : κ)
    (hp : pos p = some c) : c ∈ cand p := by
  obtain ⟨pre, post, he, _, _⟩ := h.fit p c hp
  rw [he]
  exact List.mem_append_right pre (List.mem_cons_self ..)

/-- No cell is taken twice. -/
theorem Placement.injective (h : Placement cand item pos) (p q : ι) (c : κ)
    (hp : pos p = some c) (hq : pos q = some c) : p = q := by
  obtain ⟨_, _, _, _, hfp⟩ := h.fit p c hp
  obtain ⟨_, _, _, _, hfq⟩ := h.fit q c hq
  rcases lt_trichotomy p q with hlt | he | hlt
  · exact absurd hp (hfq p hlt)
  · exact he
  · exact absurd hq (hfp q hlt)

theorem Placement.congr_item {item' : ι → Prop} (h : Placement cand item pos)
    (hi : ∀ p, item' p ↔ item p) : Placement cand item' pos :=
  ⟨fun p hp => h.skip p (fun hx => hp ((hi p).mpr hx)), h.fit,
    fun p hp => h.full p ((hi p).mp hp)⟩

theorem empty_placement (cand : ι → List κ) (item : ι → Prop) (h : ∀ p, ¬ item p) :
    Placement cand item fun _ => none := by
  constructor
  · intro p _
    rfl
  · intro p c hp
    cases hp
  · intro p hp
    exact absurd hp (h p)

/-- The first candidate of `p` that is still free decides where `p` goes. -/
theorem place_next (p : ι) (r : Option κ)
    (h : Placement cand (fun q => item q ∧ q < p) pos) (hp : item p)
    (hsome : ∀ c, r = some c → ∃ pre post, cand p = pre ++ c :: post ∧
      (∀ c' ∈ pre, ∃ q, pos q = some c') ∧ ∀ q, pos q ≠ some c)
    (hnone : r = none → ∀ c ∈ cand p, ∃ q, pos q = some c) :
    Placement cand (fun q => item q ∧ q ≤ p) (Function.update pos p r) := by
  have before : ∀ q c, pos q = some c → q < p := fun q c hq => (h.item_of_some q c hq).2
  have later : ∀ q, ¬ q < p → pos q = none := fun q hq => h.skip q (fun hx => hq hx.2)
  have keep : ∀ q, q < p → Function.update pos p r q = pos q :=
    fun q hq => Function.update_of_ne (ne_of_lt hq) r pos
  constructor
  · intro q hq
    by_cases he : q = p
    · subst q
      exact absurd ⟨hp, le_refl p⟩ hq
    · rw [Function.update_of_ne he]
      exact h.skip q (fun hx => hq ⟨hx.1, hx.2.le⟩)
  · intro q c hq
    by_cases he : q = p
    · subst q
      rw [Function.update_self] at hq
      obtain ⟨pre, post, hc, htaken, hfree⟩ := hsome c hq
      refine ⟨pre, post, hc, ?_, ?_⟩
      · intro c' hm
        obtain ⟨q, hq'⟩ := htaken c' hm
        exact ⟨q, before q c' hq', (keep q (before q c' hq')).trans hq'⟩
      · intro q hlt
        rw [keep q hlt]
        exact hfree q
    · rw [Function.update_of_ne he] at hq
      have hlt := before q c hq
      obtain ⟨pre, post, hc, htaken, hfree⟩ := h.fit q c hq
      refine ⟨pre, post, hc, ?_, ?_⟩
      · intro c' hm
        obtain ⟨q', hq', hs⟩ := htaken c' hm
        exact ⟨q', hq', (keep q' (hq'.trans hlt)).trans hs⟩
      · intro q' hq'
        rw [keep q' (hq'.trans hlt)]
        exact hfree q' hq'
  · intro q hq hn c hc
    by_cases he : q = p
    · subst q
      rw [Function.update_self] at hn
      obtain ⟨q, hq'⟩ := hnone hn c hc
      exact ⟨q, before q c hq', (keep q (before q c hq')).trans hq'⟩
    · rw [Function.update_of_ne he] at hn
      have hlt : q < p := lt_of_le_of_ne hq.2 he
      obtain ⟨q', hq', hs⟩ := h.full q ⟨hq.1, hlt⟩ hn c hc
      exact ⟨q', hq', (keep q' (hq'.trans hlt)).trans hs⟩

end Basic

/-- The outcome is determined by the candidates and the order. -/
theorem Placement.unique [LinearOrder ι] [WellFoundedLT ι] {cand : ι → List κ} {item : ι → Prop}
    {pos pos' : ι → Option κ} (h : Placement cand item pos) (h' : Placement cand item pos') :
    pos = pos' := by
  funext p
  induction p using WellFoundedLT.induction with
  | ind p ih =>
    by_cases hp : item p
    · cases hs : pos p with
      | none =>
        cases hs' : pos' p with
        | none => rfl
        | some c =>
          obtain ⟨q, hlt, hq⟩ := h.full p hp hs c (h'.mem_cand p c hs')
          obtain ⟨_, _, _, _, hfree⟩ := h'.fit p c hs'
          exact absurd ((ih q hlt).symm.trans hq) (hfree q hlt)
      | some c =>
        obtain ⟨pre, post, hc, htaken, hfree⟩ := h.fit p c hs
        cases hs' : pos' p with
        | none =>
          obtain ⟨q, hlt, hq⟩ := h'.full p hp hs' c (h.mem_cand p c hs)
          exact absurd ((ih q hlt).trans hq) (hfree q hlt)
        | some c' =>
          obtain ⟨pre', post', hc', htaken', hfree'⟩ := h'.fit p c' hs'
          have hcc : pre ++ c :: post = pre' ++ c' :: post' := hc.symm.trans hc'
          -- whichever candidate comes later would already have been taken
          rcases List.append_eq_append_iff.mp hcc with ⟨m, hm, hm'⟩ | ⟨m, hm, hm'⟩
          · cases m with
            | nil => simpa using (List.cons.inj hm').1
            | cons a m =>
              have ha : c = a := (List.cons.inj hm').1
              obtain ⟨q, hlt, hq⟩ := htaken' c (by rw [hm, ha]; simp)
              exact absurd ((ih q hlt).trans hq) (hfree q hlt)
          · cases m with
            | nil => simpa using (List.cons.inj hm').1.symm
            | cons a m =>
              have ha : c' = a := (List.cons.inj hm').1
              obtain ⟨q, hlt, hq⟩ := htaken c' (by rw [hm, ha]; simp)
              exact absurd ((ih q hlt).symm.trans hq) (hfree' q hlt)
    · rw [h.skip p hp, h'.skip p hp]

end PmemStudy.FirstFit
