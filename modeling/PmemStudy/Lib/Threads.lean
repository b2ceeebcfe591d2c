import Mathlib.Algebra.Order.BigOperators.Group.Finset
import Mathlib.Data.Fintype.BigOperators

/-!
# Threads over shared memory

A configuration is the shared memory with the local state of each thread. One
step is one step of one thread. What the threads hold together is counted by a
sum over the threads, and a step changes one summand of it.
-/

namespace PmemStudy.Threads

variable {ι σ τ α : Type*}

/-- The shared memory and the threads. -/
structure Config (ι σ τ : Type*) where
  shared : σ
  threads : ι → τ

section Given

variable {P : σ → τ → Prop} [∀ s t, Decidable (P s t)] {next : ι → α → σ → τ → Option (σ × τ)}

/-- The steps before which `P` holds of the shared memory and of the thread that moves. -/
def given (P : σ → τ → Prop) [∀ s t, Decidable (P s t)]
    (next : ι → α → σ → τ → Option (σ × τ)) : ι → α → σ → τ → Option (σ × τ) :=
  fun i a s t => if P s t then next i a s t else none

theorem given_eq_some {i : ι} {a : α} {s : σ} {t : τ} {r : σ × τ} :
    given P next i a s t = some r ↔ P s t ∧ next i a s t = some r := by
  unfold given
  split
  · next h => exact (and_iff_right h).symm
  · next h => simp [h]

end Given

section Runs

variable [DecidableEq ι] {next : ι → α → σ → τ → Option (σ × τ)}

/-- Thread `i` takes the step that `next` gives on some input; the others stay where they
are. -/
def Step (next : ι → α → σ → τ → Option (σ × τ)) (c d : Config ι σ τ) : Prop :=
  ∃ i a x, next i a c.shared (c.threads i) = some (d.shared, x) ∧
    d.threads = Function.update c.threads i x

/-- `d` is reached from `c` by some interleaving. -/
def Reaches (next : ι → α → σ → τ → Option (σ × τ)) : Config ι σ τ → Config ι σ τ → Prop :=
  Relation.ReflTransGen (Step next)

/-- What holds at first and is kept by every step of every thread holds in every
configuration reached. -/
theorem Reaches.invariant {P : σ → (ι → τ) → Prop} {c d : Config ι σ τ}
    (hc : P c.shared c.threads)
    (hstep : ∀ s f i a s' x, P s f → next i a s (f i) = some (s', x) →
      P s' (Function.update f i x))
    (h : Reaches next c d) : P d.shared d.threads := by
  induction h with
  | refl => exact hc
  | @tail a b _ hab ih =>
    obtain ⟨i, y, x, hn, hf⟩ := hab
    rw [hf]
    exact hstep a.shared a.threads i y b.shared x ih hn

/-- The steps of a run satisfy what follows from `P` between its ends. -/
theorem Reaches.given_of {P Q : σ → τ → Prop} [∀ s t, Decidable (P s t)]
    [∀ s t, Decidable (Q s t)] {c d : Config ι σ τ} (h : Reaches (given P next) c d)
    (hQ : ∀ e i, Reaches (given P next) c e → Reaches (given P next) e d →
      P e.shared (e.threads i) → Q e.shared (e.threads i)) : Reaches (given Q next) c d := by
  have hrun : ∀ e, Reaches (given P next) c e → Reaches (given P next) e d →
      Reaches (given Q next) c e := by
    intro e hce hed
    induction hce with
    | refl => exact .refl
    | @tail a b hab hstep ih =>
      have had : Reaches (given P next) a d := .head hstep hed
      obtain ⟨i, y, x, hn, hf⟩ := hstep
      obtain ⟨hP, hn⟩ := given_eq_some.mp hn
      exact (ih had).tail ⟨i, y, x, given_eq_some.mpr ⟨hQ a i hab had hP, hn⟩, hf⟩
  exact hrun d h .refl

/-- The threads take their steps in the order of a schedule. -/
def schedule (next : ι → α → σ → τ → Option (σ × τ)) :
    List (ι × α) → Config ι σ τ → Option (Config ι σ τ)
  | [], c => some c
  | (i, a) :: l, c =>
    match next i a c.shared (c.threads i) with
    | some (s, x) => schedule next l ⟨s, Function.update c.threads i x⟩
    | none => none

theorem schedule_reaches {l : List (ι × α)} {c d : Config ι σ τ} (h : schedule next l c = some d) :
    Reaches next c d := by
  induction l generalizing c with
  | nil => exact Option.some.inj h ▸ .refl
  | cons x l ih =>
    obtain ⟨i, a⟩ := x
    simp only [schedule] at h
    split at h
    · next s x hn => exact .head ⟨i, a, x, hn, rfl⟩ (ih h)
    · cases h

/-- Some steps of thread `i` alone, from its local state and the shared memory. -/
def Alone (next : ι → α → σ → τ → Option (σ × τ)) (i : ι) : σ × τ → σ × τ → Prop :=
  Relation.ReflTransGen fun c d => ∃ a, next i a c.1 c.2 = some d

theorem Alone.reaches {i : ι} {c d : σ × τ} (h : Alone next i c d) {f : ι → τ} (hf : f i = c.2) :
    Reaches next ⟨c.1, f⟩ ⟨d.1, Function.update f i d.2⟩ := by
  induction h with
  | refl =>
    rw [← hf, Function.update_eq_self]
    exact .refl
  | @tail d e _ hstep ih =>
    obtain ⟨a, ha⟩ := hstep
    refine ih.tail ⟨i, a, e.2, ?_, ?_⟩
    · show next i a d.1 (Function.update f i d.2 i) = _
      rw [Function.update_self]
      exact ha
    · exact (Function.update_idem _ _ _).symm

end Runs

/-! ### Shares of the threads -/

variable [Fintype ι]

/-- One thread moves: the sum loses its old share and gets its new one. -/
theorem sum_update [DecidableEq ι] (g : τ → ℕ) (f : ι → τ) (i : ι) (x : τ) :
    ∑ j, g (Function.update f i x j) + g (f i) = ∑ j, g (f j) + g x := by
  have hcomp : ∀ j, g (Function.update f i x j) = Function.update (g ∘ f) i (g x) j := by
    intro j
    rw [← Function.comp_update]
    rfl
  have hold : g (f i) + ∑ j ∈ Finset.univ.erase i, g (f j) = ∑ j, g (f j) :=
    Finset.add_sum_erase Finset.univ (fun j => g (f j)) (Finset.mem_univ i)
  have hnew : ∑ j, g (Function.update f i x j) = g x + ∑ j ∈ Finset.univ.erase i, g (f j) := by
    rw [Finset.sum_congr rfl fun j _ => hcomp j, Finset.sum_update_of_mem (Finset.mem_univ i),
      Finset.sdiff_singleton_eq_erase]
    rfl
  omega

/-- Where every step takes one from what is left for its thread, a run is as long as what it
has taken. -/
theorem schedule_length [DecidableEq ι] {next : ι → α → σ → τ → Option (σ × τ)} (g : τ → ℕ) {P : σ → (ι → τ) → Prop}
    (hstep : ∀ s f i a s' x, P s f → next i a s (f i) = some (s', x) →
      P s' (Function.update f i x) ∧ g (f i) = g x + 1)
    {l : List (ι × α)} {c d : Config ι σ τ} (hc : P c.shared c.threads)
    (h : schedule next l c = some d) :
    l.length + ∑ j, g (d.threads j) = ∑ j, g (c.threads j) := by
  induction l generalizing c with
  | nil =>
    rw [Option.some.inj h, List.length_nil, Nat.zero_add]
  | cons y l ih =>
    obtain ⟨i, a⟩ := y
    simp only [schedule] at h
    split at h
    · next s x hn =>
      obtain ⟨hP, hg⟩ := hstep _ _ _ _ _ _ hc hn
      have hrest : l.length + ∑ j, g (d.threads j) = ∑ j, g (Function.update c.threads i x j) :=
        ih hP h
      have hmove := sum_update g c.threads i x
      rw [List.length_cons]
      omega
    · cases h

/-- A balance between the shared memory and the threads is kept when the moving thread
keeps it. -/
theorem sum_balance [DecidableEq ι] {g : τ → ℕ} {f : ι → τ} {i : ι} {x : τ} {a b a' b' : ℕ}
    (h : a + ∑ j, g (f j) = b) (hlocal : a' + g x + b = a + g (f i) + b') :
    a' + ∑ j, g (Function.update f i x j) = b' := by
  have := sum_update g f i x
  omega

/-- A thread's own share is at most the whole. -/
theorem le_sum (g : τ → ℕ) (f : ι → τ) (i : ι) : g (f i) ≤ ∑ j, g (f j) :=
  Finset.single_le_sum (f := fun j => g (f j)) (fun _ _ => Nat.zero_le _) (Finset.mem_univ i)

end PmemStudy.Threads
