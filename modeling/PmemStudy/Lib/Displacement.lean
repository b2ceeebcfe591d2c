import Mathlib.Data.List.Nodup

/-!
# Displacement along a path

Every busy cell names a next cell. A walk follows these names up to the first cell
that is not busy; it cannot come back to a cell, for it would go round for ever.
Moving the content of each cell of the walk to the next one makes room in the first
cell and keeps the content of every busy one.
-/

namespace PmemStudy.Displacement

variable {κ α β : Type*} {busy : κ → Prop} {next : κ → κ}

/-- The cells from the first one on, up to one that is not busy. -/
inductive Walk (busy : κ → Prop) (next : κ → κ) : κ → List κ → Prop
  | stop (c : κ) (h : ¬ busy c) : Walk busy next c [c]
  | step (c : κ) (path : List κ) (h : busy c) (rest : Walk busy next (next c) path) :
      Walk busy next c (c :: path)

theorem Walk.head {c : κ} {path : List κ} (h : Walk busy next c path) : path[0]? = some c := by
  cases h with
  | stop => rfl
  | step => rfl

theorem Walk.unique {c : κ} {path path' : List κ} (h : Walk busy next c path)
    (h' : Walk busy next c path') : path = path' := by
  induction h generalizing path' with
  | stop c hc =>
    cases h' with
    | stop => rfl
    | step _ _ hb _ => exact absurd hb hc
  | step c path hb _ ih =>
    cases h' with
    | stop _ hc => exact absurd hb hc
    | step _ path' _ rest' => rw [ih rest']

/-- From every cell on the walk goes on as a walk of its own. -/
theorem Walk.from_mem {c d : κ} {path : List κ} (h : Walk busy next c path) (hd : d ∈ path) :
    ∃ path', Walk busy next d path' ∧ path'.length ≤ path.length := by
  induction h with
  | stop c hc =>
    rw [List.mem_singleton.mp hd]
    exact ⟨[c], .stop c hc, Nat.le_refl _⟩
  | step c path hb rest ih =>
    rcases List.mem_cons.mp hd with rfl | hd
    · exact ⟨d :: path, .step d path hb rest, Nat.le_refl _⟩
    · obtain ⟨path', hw, hlen⟩ := ih hd
      exact ⟨path', hw, Nat.le_succ_of_le hlen⟩

theorem Walk.nodup {c : κ} {path : List κ} (h : Walk busy next c path) : path.Nodup := by
  induction h with
  | stop c _ => exact List.nodup_singleton c
  | step c path hb rest ih =>
    refine List.nodup_cons.mpr ⟨?_, ih⟩
    intro hmem
    -- the walk from `c` would be shorter than itself
    obtain ⟨path', hw, hlen⟩ := rest.from_mem hmem
    have he := hw.unique (.step c path hb rest)
    rw [he, List.length_cons] at hlen
    omega

/-- A busy cell is not the last of the walk, and its next cell follows it. -/
theorem Walk.next_getElem {c : κ} {path : List κ} (h : Walk busy next c path) (m : ℕ)
    (hm : m < path.length) (hb : busy path[m]) :
    ∃ h' : m + 1 < path.length, path[m + 1] = next path[m] := by
  induction h generalizing m with
  | stop c hc =>
    have h0 : m = 0 := by simpa using hm
    subst m
    exact absurd hb hc
  | step c path _ rest ih =>
    cases m with
    | zero =>
      obtain ⟨h0, he⟩ := List.getElem?_eq_some_iff.mp rest.head
      exact ⟨Nat.succ_lt_succ h0, he⟩
    | succ m =>
      obtain ⟨h', he⟩ := ih m (Nat.lt_of_succ_lt_succ hm) hb
      exact ⟨Nat.succ_lt_succ h', he⟩

/-- `g` is `f` with every content on the path moved by one cell, and `x` put into the first. -/
structure Displaced (f g : κ → α) (path : List κ) (x : α) : Prop where
  first : ∀ c, path[0]? = some c → g c = x
  moved : ∀ m (h : m + 1 < path.length), g path[m + 1] = f path[m]
  other : ∀ c, c ∉ path → g c = f c

/-- The content of a busy cell is in that cell or in the next one. -/
theorem Displaced.kept {f g : κ → α} {path : List κ} {x : α} {c : κ}
    (h : Displaced f g path x) (hw : Walk busy next c path) {d : κ} (hd : busy d) :
    (d ∉ path ∧ g d = f d) ∨ (d ∈ path ∧ g (next d) = f d) := by
  by_cases hmem : d ∈ path
  · obtain ⟨m, hm, rfl⟩ := List.getElem_of_mem hmem
    obtain ⟨h', he⟩ := hw.next_getElem m hm hd
    refine Or.inr ⟨hmem, ?_⟩
    rw [← he]
    exact h.moved m h'
  · exact Or.inl ⟨hmem, h.other d hmem⟩

/-- A key that one cell held is held by one cell afterwards. -/
theorem Displaced.once {f g : κ → α} {path : List κ} {x : α} {c : κ} (key : α → β)
    (h : Displaced f g path x) (hw : Walk busy next c path) {d : κ} (hd : busy d)
    (hone : ∀ e, key (f e) = key (f d) → e = d) (hnew : key x ≠ key (f d)) (e : κ)
    (he : key (g e) = key (f d)) : (d ∉ path ∧ e = d) ∨ (d ∈ path ∧ e = next d) := by
  by_cases hmem : e ∈ path
  · obtain ⟨m, hm, rfl⟩ := List.getElem_of_mem hmem
    cases m with
    | zero =>
      rw [h.first _ (List.getElem?_eq_getElem hm)] at he
      exact absurd he hnew
    | succ m =>
      rw [h.moved m hm] at he
      have hsrc := hone _ he
      subst hsrc
      obtain ⟨_, hnext⟩ := hw.next_getElem m (Nat.lt_of_succ_lt hm) hd
      exact Or.inr ⟨List.getElem_mem _, hnext⟩
  · rw [h.other e hmem] at he
    have hsame := hone e he
    subst hsame
    exact Or.inl ⟨hmem, rfl⟩

end PmemStudy.Displacement
