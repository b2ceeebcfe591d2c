import Mathlib.Data.List.Basic

/-!
# Stores in program order

A piece of straight-line code is the list of its stores. `Always` says that a
property holds of the memory before the first store and after each of them, so
of every image at which another thread or a crash may look at it.
-/

namespace PmemStudy.Trace

variable {σ α : Type*} {apply : σ → α → σ}

def Always (apply : σ → α → σ) (P : σ → Prop) (s : σ) (l : List α) : Prop :=
  ∀ n, P ((l.take n).foldl apply s)

theorem always_nil {P : σ → Prop} {s : σ} : Always apply P s [] ↔ P s := by
  simp [Always]

theorem always_cons {P : σ → Prop} {s : σ} {a : α} {l : List α} :
    Always apply P s (a :: l) ↔ P s ∧ Always apply P (apply s a) l := by
  constructor
  · intro h
    exact ⟨by simpa using h 0, fun n => by simpa using h (n + 1)⟩
  · rintro ⟨h0, h⟩ n
    cases n with
    | zero => simpa using h0
    | succ n => simpa using h n

theorem always_append {P : σ → Prop} {s : σ} {l l' : List α} :
    Always apply P s (l ++ l') ↔ Always apply P s l ∧ Always apply P (l.foldl apply s) l' := by
  induction l generalizing s with
  | nil =>
    simp only [List.nil_append, List.foldl_nil, always_nil]
    constructor
    · intro h
      exact ⟨by simpa using h 0, h⟩
    · intro h
      exact h.2
  | cons a l ih => simp only [List.cons_append, always_cons, List.foldl_cons, ih, and_assoc]

theorem Always.mono {P Q : σ → Prop} {s : σ} {l : List α} (h : Always apply P s l)
    (hpq : ∀ x, P x → Q x) : Always apply Q s l := fun n => hpq _ (h n)

theorem Always.last {P : σ → Prop} {s : σ} {l : List α} (h : Always apply P s l) :
    P (l.foldl apply s) := by
  have := h l.length
  rwa [List.take_length] at this

theorem Always.first {P : σ → Prop} {s : σ} {l : List α} (h : Always apply P s l) : P s := by
  simpa using h 0

/-- A property that every store keeps holds all along. -/
theorem always_of_kept {P : σ → Prop} {s : σ} {l : List α} (h0 : P s)
    (hstep : ∀ a ∈ l, ∀ x, P x → P (apply x a)) : Always apply P s l := by
  induction l generalizing s with
  | nil => exact always_nil.mpr h0
  | cons a l ih =>
    refine always_cons.mpr ⟨h0, ?_⟩
    exact ih (hstep a List.mem_cons_self s h0) fun b hb => hstep b (List.mem_cons_of_mem a hb)

end PmemStudy.Trace
