import Mathlib.Data.List.Basic
import Mathlib.Logic.Function.Iterate
import PmemStudy.Lib.Loop

/-!
# While loops

`whileLoop go body` runs `body` as long as `go` holds of the state, and lists what the
iterations leave behind. The body may have no result, and may contain loops of its own,
which take the fuel that is left. `Ends` is the finite execution behind a result.
-/

namespace PmemStudy.Loop

variable {σ α : Type*}

/-- More fuel does not change a result. -/
def Steady (f : ℕ → Option σ) : Prop := ∀ fuel r, f fuel = some r → f (fuel + 1) = some r

theorem Steady.le {f : ℕ → Option σ} (hf : Steady f) {n m : ℕ} {r : σ} (h : f n = some r)
    (hle : n ≤ m) : f m = some r := by
  induction hle with
  | refl => exact h
  | step _ ih => exact hf _ r ih

theorem Steady.yields {f : ℕ → Option σ} (hf : Steady f) {fuel : ℕ} {r : σ}
    (h : f fuel = some r) : Yields f r := ⟨fuel, fun _ hle => hf.le h hle⟩

theorem Steady.map {τ : Type*} {f : ℕ → Option σ} (g : σ → τ) (hf : Steady f) :
    Steady fun fuel => (f fuel).map g := by
  intro fuel r h
  obtain ⟨a, ha, rfl⟩ := Option.map_eq_some_iff.mp h
  show (f (fuel + 1)).map g = some (g a)
  rw [hf fuel a ha, Option.map_some]

theorem Steady.yields_map_iff {τ : Type*} {f : ℕ → Option σ} {g : σ → τ} {r : τ} (hf : Steady f) :
    Yields (fun fuel => (f fuel).map g) r ↔ ∃ a, Yields f a ∧ g a = r := by
  constructor
  · rintro ⟨n, hn⟩
    obtain ⟨a, ha, hr⟩ := Option.map_eq_some_iff.mp (hn n le_rfl)
    exact ⟨a, hf.yields ha, hr⟩
  · rintro ⟨a, ha, rfl⟩
    exact ha.map g

theorem steady_const (r : Option σ) : Steady fun _ => r := fun _ _ h => h

theorem Steady.bind {τ : Type*} {f : ℕ → Option σ} {g : ℕ → σ → Option τ} (hf : Steady f)
    (hg : ∀ a, Steady fun fuel => g fuel a) : Steady fun fuel => (f fuel).bind (g fuel) := by
  intro fuel r h
  obtain ⟨a, ha, hr⟩ := Option.bind_eq_some_iff.mp h
  show (f (fuel + 1)).bind (g (fuel + 1)) = some r
  rw [hf fuel a ha]
  exact hg a fuel r hr

def whileLoop (go : σ → Bool) (body : ℕ → σ → Option (α × σ)) : ℕ → σ → Option (List α × σ)
  | 0, _ => none
  | fuel + 1, s =>
    if go s then do
      let (a, t) ← body fuel s
      let (l, u) ← whileLoop go body fuel t
      some (a :: l, u)
    else some ([], s)

/-- From `s` the loop stops in `u`, with one entry of the list for each iteration. -/
inductive Ends (go : σ → Bool) (body : ℕ → σ → Option (α × σ)) : σ → List α → σ → Prop
  | stop {s : σ} (h : go s = false) : Ends go body s [] s
  | step {s t u : σ} {a : α} {l : List α} (h : go s = true)
      (hb : Yields (fun fuel => body fuel s) (a, t)) (hl : Ends go body t l u) :
      Ends go body s (a :: l) u

variable {go : σ → Bool} {body : ℕ → σ → Option (α × σ)} {s t u : σ} {a : α} {l : List α}

theorem whileLoop_stop (h : go s = false) (fuel : ℕ) :
    whileLoop go body (fuel + 1) s = some ([], s) := by
  simp only [whileLoop, h, Bool.false_eq_true, if_false]

theorem whileLoop_step (h : go s = true) (fuel : ℕ) :
    whileLoop go body (fuel + 1) s =
      (body fuel s).bind fun r => (whileLoop go body fuel r.2).map fun q => (r.1 :: q.1, q.2) := by
  simp only [whileLoop, h, if_true]
  cases hb : body fuel s with
  | none => rfl
  | some r =>
    obtain ⟨a, t⟩ := r
    show (whileLoop go body fuel t >>= _) = (whileLoop go body fuel t).map _
    cases whileLoop go body fuel t <;> rfl

theorem Ends.yields (h : Ends go body s l u) :
    Yields (fun fuel => whileLoop go body fuel s) (l, u) := by
  induction h with
  | stop h => exact Yields.step (Yields.const fun _ => rfl) (whileLoop_stop h)
  | step h hb _ ih =>
    refine Yields.step (hb.bind ?_) (whileLoop_step h)
    exact ih.map _

theorem steady_whileLoop (hb : ∀ s, Steady fun fuel => body fuel s) (s : σ) :
    Steady fun fuel => whileLoop go body fuel s := by
  intro fuel
  show ∀ r, whileLoop go body fuel s = some r → whileLoop go body (fuel + 1) s = some r
  induction fuel generalizing s with
  | zero =>
    intro r h
    cases h
  | succ fuel ih =>
    intro r h
    cases hg : go s with
    | false =>
      rw [whileLoop_stop hg] at h ⊢
      exact h
    | true =>
      rw [whileLoop_step hg] at h ⊢
      obtain ⟨x, hx, hr⟩ := Option.bind_eq_some_iff.mp h
      obtain ⟨q, hq, rfl⟩ := Option.map_eq_some_iff.mp hr
      have hx' : body (fuel + 1) s = some x := hb s fuel x hx
      simp only [hx', Option.bind_some, ih x.2 q hq, Option.map_some]

/-- A result comes from a finite execution. -/
theorem ends_of_whileLoop (hb : ∀ s, Steady fun fuel => body fuel s) {fuel : ℕ}
    (h : whileLoop go body fuel s = some (l, u)) : Ends go body s l u := by
  induction fuel generalizing s l with
  | zero => cases h
  | succ fuel ih =>
    cases hg : go s with
    | false =>
      rw [whileLoop_stop hg] at h
      cases h
      exact .stop hg
    | true =>
      rw [whileLoop_step hg] at h
      obtain ⟨⟨a, t⟩, hx, hr⟩ := Option.bind_eq_some_iff.mp h
      obtain ⟨⟨l', u'⟩, hq, he⟩ := Option.map_eq_some_iff.mp hr
      cases he
      exact .step hg ((hb s).yields hx) (ih hq)

theorem yields_whileLoop_iff (hb : ∀ s, Steady fun fuel => body fuel s) :
    Yields (fun fuel => whileLoop go body fuel s) (l, u) ↔ Ends go body s l u := by
  constructor
  · rintro ⟨n, hn⟩
    exact ends_of_whileLoop hb (hn n le_rfl)
  · exact Ends.yields

/-- A body that has a result wherever the invariant holds, and lowers the measure. -/
theorem exists_ends (P : σ → Prop) (μ : σ → ℕ)
    (hstep : ∀ s, P s → go s = true →
      ∃ a t, Yields (fun fuel => body fuel s) (a, t) ∧ P t ∧ μ t < μ s) (hs : P s) :
    ∃ l u, Ends go body s l u := by
  induction hm : μ s using Nat.strong_induction_on generalizing s with
  | _ m ih =>
    cases hg : go s with
    | false => exact ⟨[], s, .stop hg⟩
    | true =>
      obtain ⟨a, t, hb, ht, hlt⟩ := hstep s hs hg
      obtain ⟨l, u, hl⟩ := ih (μ t) (hm ▸ hlt) ht rfl
      exact ⟨a :: l, u, .step hg hb hl⟩

/-! ### Bodies that always have a result -/

section Total

variable {f : σ → σ} {g : σ → α}

theorem ends_of_iterate (n : ℕ) (hgo : ∀ k < n, go (f^[k] s) = true) (hstop : go (f^[n] s) = false) :
    Ends go (fun _ s => some (g s, f s)) s ((List.range n).map fun k => g (f^[k] s)) (f^[n] s) := by
  induction n generalizing s with
  | zero => exact .stop hstop
  | succ n ih =>
    rw [List.range_succ_eq_map, List.map_cons, List.map_map]
    refine .step (hgo 0 (Nat.succ_pos n)) (.const fun _ => rfl) (ih ?_ hstop)
    intro k hk
    exact hgo (k + 1) (Nat.succ_lt_succ hk)

/-- The loop runs along the iterates of its step up to the first one where it stops. -/
theorem Ends.iterate (h : Ends go (fun _ s => some (g s, f s)) s l u) :
    (∀ k < l.length, go (f^[k] s) = true) ∧ go (f^[l.length] s) = false ∧
      l = (List.range l.length).map (fun k => g (f^[k] s)) ∧ u = f^[l.length] s := by
  induction h with
  | stop h => exact ⟨fun k hk => absurd hk (Nat.not_lt_zero k), h, rfl, rfl⟩
  | @step s t u a l h hb _ ih =>
    obtain ⟨rfl, rfl⟩ : g s = a ∧ f s = t := by
      obtain ⟨n, hn⟩ := hb
      exact Prod.mk.inj (Option.some.inj (hn n le_rfl))
    obtain ⟨hgo, hstop, hl, hu⟩ := ih
    refine ⟨?_, hstop, ?_, hu⟩
    · intro k hk
      cases k with
      | zero => exact h
      | succ k => exact hgo k (Nat.succ_lt_succ_iff.mp hk)
    · rw [List.length_cons, List.range_succ_eq_map, List.map_cons, List.map_map]
      exact congrArg (g s :: ·) hl

end Total

/-! ### Loops over a list -/

section ForEach

variable {β γ : Type*} {f : β → ℕ → Option γ}

def forEach (f : β → ℕ → Option γ) : List β → ℕ → Option (List γ)
  | [], _ => some []
  | b :: l, fuel => (f b fuel).bind fun r => (forEach f l fuel).map (r :: ·)

theorem steady_forEach (hf : ∀ b, Steady (f b)) (l : List β) : Steady (forEach f l) := by
  induction l with
  | nil => exact steady_const _
  | cons b l ih => exact (hf b).bind fun r => ih.map (r :: ·)

theorem forEach_yields {l : List β} {Q : β → γ → Prop}
    (h : ∀ b ∈ l, ∃ r, Yields (f b) r ∧ Q b r) :
    ∃ rs, Yields (forEach f l) rs ∧ List.Forall₂ Q l rs := by
  induction l with
  | nil => exact ⟨[], .const fun _ => rfl, .nil⟩
  | cons b l ih =>
    obtain ⟨r, hr, hq⟩ := h b List.mem_cons_self
    obtain ⟨rs, hrs, hqs⟩ := ih fun c hc => h c (List.mem_cons_of_mem b hc)
    exact ⟨r :: rs, hr.bind (hrs.map (r :: ·)), .cons hq hqs⟩

theorem yields_forEach (hf : ∀ b, Steady (f b)) {l : List β} {rs : List γ}
    (h : Yields (forEach f l) rs) : List.Forall₂ (fun b r => Yields (f b) r) l rs := by
  obtain ⟨n, hn⟩ := h
  replace hn := hn n le_rfl
  induction l generalizing rs with
  | nil =>
    cases hn
    exact .nil
  | cons b l ih =>
    obtain ⟨r, hr, h⟩ := Option.bind_eq_some_iff.mp hn
    obtain ⟨rs, hrs, rfl⟩ := Option.map_eq_some_iff.mp h
    exact .cons ((hf b).yields hr) (ih hrs)

/-- The loop has a result of good entries exactly when each round has a good result. -/
theorem forEach_good_iff (hf : ∀ b, Steady (f b)) {l : List β} {Q : γ → Prop} :
    (∃ rs, Yields (forEach f l) rs ∧ ∀ r ∈ rs, Q r) ↔ ∀ b ∈ l, ∃ r, Yields (f b) r ∧ Q r := by
  constructor
  · rintro ⟨rs, hrs, hq⟩
    have hall := yields_forEach hf hrs
    clear hrs
    induction hall with
    | nil =>
      intro b hb
      exact absurd hb List.not_mem_nil
    | @cons b r l rs hr _ ih =>
      intro c hc
      rcases List.mem_cons.mp hc with rfl | hc
      · exact ⟨r, hr, hq r List.mem_cons_self⟩
      · exact ih (fun r hr => hq r (List.mem_cons_of_mem _ hr)) c hc
  · intro h
    obtain ⟨rs, hrs, hall⟩ := forEach_yields h
    refine ⟨rs, hrs, ?_⟩
    clear hrs h
    induction hall with
    | nil =>
      intro r hr
      exact absurd hr List.not_mem_nil
    | cons hq _ ih =>
      intro r hr
      rcases List.mem_cons.mp hr with rfl | hr
      · exact hq
      · exact ih r hr

end ForEach

end PmemStudy.Loop
