import Mathlib.Data.Nat.Basic

/-!
# Loops

`Nat.fold n body init` runs `body 0`, `body 1`, .., `body (n-1)`. An invariant
that holds before iteration 0 and is carried by every iteration holds after
the loop.

A loop without a bound takes fuel. It yields a result if it gives it with all
fuel from some amount on.
-/

namespace PmemStudy.Loop

variable {σ τ : Type*}

theorem fold_invariant (P : ℕ → σ → Prop) (n : ℕ) (body : (i : ℕ) → i < n → σ → σ) (init : σ)
    (h0 : P 0 init) (hs : ∀ i (hi : i < n) s, P i s → P (i + 1) (body i hi s)) :
    P n (Nat.fold n body init) := by
  induction n with
  | zero => simpa using h0
  | succ n ih =>
    rw [Nat.fold_succ]
    apply hs n
    exact ih (fun i hi s => body i (by omega) s) (fun i hi s hp => hs i (by omega) s hp)

/-- A relation between two loops of the same length. -/
theorem fold_relation (R : σ → τ → Prop) (n : ℕ) (f : (i : ℕ) → i < n → σ → σ)
    (g : (i : ℕ) → i < n → τ → τ) (a : σ) (b : τ) (h0 : R a b)
    (hs : ∀ i (hi : i < n) s t, R s t → R (f i hi s) (g i hi t)) :
    R (Nat.fold n f a) (Nat.fold n g b) := by
  induction n with
  | zero => simpa using h0
  | succ n ih =>
    rw [Nat.fold_succ, Nat.fold_succ]
    apply hs n
    exact ih (fun i hi s => f i (by omega) s) (fun i hi t => g i (by omega) t)
      (fun i hi s t hr => hs i (by omega) s t hr)

def Yields (f : ℕ → Option σ) (r : σ) : Prop := ∃ n, ∀ fuel, n ≤ fuel → f fuel = some r

theorem Yields.unique {f : ℕ → Option σ} {r r' : σ} (h : Yields f r) (h' : Yields f r') :
    r = r' := by
  obtain ⟨n, hn⟩ := h
  obtain ⟨n', hn'⟩ := h'
  have h1 := hn (max n n') (le_max_left n n')
  have h2 := hn' (max n n') (le_max_right n n')
  exact Option.some.inj (h1.symm.trans h2)

theorem Yields.const {f : ℕ → Option σ} {r : σ} (h : ∀ fuel, f fuel = some r) : Yields f r :=
  ⟨0, fun fuel _ => h fuel⟩

/-- One unit of fuel is spent before the rest. -/
theorem Yields.step {f g : ℕ → Option σ} {r : σ} (h : Yields g r)
    (hs : ∀ fuel, f (fuel + 1) = g fuel) : Yields f r := by
  obtain ⟨n, hn⟩ := h
  refine ⟨n + 1, ?_⟩
  intro fuel hf
  obtain ⟨m, rfl⟩ : ∃ m, fuel = m + 1 := ⟨fuel - 1, by omega⟩
  rw [hs, hn m (by omega)]

theorem Yields.succ {f : ℕ → Option σ} {r : σ} (h : Yields f r) :
    Yields (fun fuel => f (fuel + 1)) r := by
  obtain ⟨n, hn⟩ := h
  exact ⟨n, fun fuel hf => hn (fuel + 1) (by omega)⟩

theorem Yields.bind {f : ℕ → Option σ} {g : ℕ → σ → Option τ} {a : σ} {r : τ} (hf : Yields f a)
    (hg : Yields (fun fuel => g fuel a) r) : Yields (fun fuel => (f fuel).bind (g fuel)) r := by
  obtain ⟨n, hn⟩ := hf
  obtain ⟨n', hn'⟩ := hg
  refine ⟨max n n', ?_⟩
  intro fuel hle
  have h1 := hn fuel (le_trans (le_max_left n n') hle)
  have h2 := hn' fuel (le_trans (le_max_right n n') hle)
  show (f fuel).bind (g fuel) = some r
  rw [h1]
  exact h2

theorem Yields.map {f : ℕ → Option σ} {r : σ} (g : σ → τ) (h : Yields f r) :
    Yields (fun fuel => (f fuel).map g) (g r) := by
  obtain ⟨n, hn⟩ := h
  refine ⟨n, ?_⟩
  intro fuel hf
  simp only [hn fuel hf, Option.map_some]

end PmemStudy.Loop
