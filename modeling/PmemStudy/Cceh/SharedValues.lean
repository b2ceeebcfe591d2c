import PmemStudy.Cceh.SharedRoutes

/-!
# Values of the shared table

A slot changes hands by a CAS of its key to `SENTINEL`. Nobody can take a slot whose key
leads to the segment that it is in, so that a pair stays in its slot while its segment is
locked or left out of the directory, and `Get` returns a value that belongs to its key.
-/

namespace PmemStudy.Cceh

open AlignedBlocks SuspendLock Threads

/-- A pair with this key may be replaced by one of `pattern`. -/
def Replaceable (H : HashFuncs) (d pattern : ℕ) (key : Key) : Prop :=
  (topBits (H.f key) d ≠ pattern ∨ key = INVALID) ∧ key ≠ SENTINEL

theorem reusable_iff {H : HashFuncs} {s : Segment} {pattern : ℕ} {loc : Slot} :
    reusable H s pattern loc = true ↔ Replaceable H s.localDepth pattern (s.bucket loc).key :=
  decide_eq_true_iff

theorem not_replaceable_sentinel {H : HashFuncs} {d pattern : ℕ} :
    ¬ Replaceable H d pattern SENTINEL := fun h => h.2 rfl

theorem not_replaceable_of_pattern {H : HashFuncs} {d pattern : ℕ} {key : Key} (hk : ValidKey key)
    (h : topBits (H.f key) d = pattern) : ¬ Replaceable H d pattern key := by
  rintro ⟨hne | hinv, _⟩
  · exact hne h
  · exact hk.1 hinv

/-- The slot that the call has taken. -/
def Pc.fills : Pc → Option (ℕ × Slot)
  | .value target loc => some (target, loc)
  | .key target loc => some (target, loc)
  | _ => none

/-- The pair of an `Insert` satisfies `P`. -/
def Call.Passes (P : Key → Value → Prop) : Call → Prop
  | .insert key value => P key value
  | .get _ => True

/-- The call is an `Insert` of a pair that satisfies `P`. -/
def Call.Stores (P : Key → Value → Prop) : Call → Prop
  | .insert key value => P key value
  | .get _ => False

def Call.Reads : Call → Prop
  | .insert .. => False
  | .get _ => True

/-- A slot that is free, or taken, or holds a pair that satisfies `P`. -/
def Pair.Passes (P : Key → Value → Prop) (q : Pair) : Prop :=
  q.key = INVALID ∨ q.key = SENTINEL ∨ P q.key q.value

section Knowledge

variable {ι : Type} (b : Build) (H : HashFuncs) (P : Key → Value → Prop) (st : CCEH)
  (g : ι → Progress)

/-- The call is at the segment that its key leads to. -/
structure Reached (call : Call) (target : ℕ) : Prop where
  valid : ValidKey call.key
  route : call.Locks b → st.route (H.f call.key) = target
  read : ¬ call.Locks b → ∀ entry, Settles b st g entry → ∀ e < 2 ^ st.curDir.depth,
    entry e = target → topBits (H.f call.key) (st.segs target).localDepth =
      e / 2 ^ (st.curDir.depth - (st.segs target).localDepth)

/-- The slots that the call is still to try are slots of its key. -/
structure Probes (call : Call) (target pattern : ℕ) (slots : List Slot) : Prop where
  stores : call.Stores P
  reached : Reached b H st g call target
  pattern_eq : pattern = topBits (H.f call.key) (st.segs target).localDepth
  slots : ∀ c ∈ slots, c ∈ windows H call.key

/-- The slot of the call has this key. -/
structure Fills (call : Call) (target : ℕ) (loc : Slot) (key : Key) : Prop where
  reached : Reached b H st g call target
  slot : loc ∈ windows H call.key
  key_eq : ((st.segs target).bucket loc).key = key

/-- What the thread knows of the slots at a point of its call. -/
def Pc.Sees (held : Sem → ℕ) (call : Call) : Pc → Prop
  | .readPattern _ target => Reached b H st g call target ∧ call.Stores P
  | .probe _ target pattern slots => Probes b H P st g call target pattern slots
  | .test _ target pattern loc _key slots => Probes b H P st g call target pattern (loc :: slots) ∧
      (Replaceable H (st.segs target).localDepth pattern _key ∨
        ¬ Replaceable H (st.segs target).localDepth pattern ((st.segs target).bucket loc).key)
  | .claim _ target pattern loc _key slots => Probes b H P st g call target pattern (loc :: slots) ∧
      Replaceable H (st.segs target).localDepth pattern _key
  | .value target loc => Fills b H st g call target loc SENTINEL ∧ call.Stores P
  | .key target loc => Fills b H st g call target loc SENTINEL ∧ call.Stores P ∧
      ((st.segs target).bucket loc).value = call.value
  | .scan target slots => Reached b H st g call target ∧ call.Reads ∧
      ∀ c ∈ slots, c ∈ windows H call.key
  | .found target loc => Fills b H st g call target loc call.key ∧ call.Reads
  | .sema _ m _ .stored => ∃ target loc, m = .seg target ∧ call.Stores P ∧
      0 < held (.seg target) ∧ Fills b H st g call target loc call.key ∧
      ((st.segs target).bucket loc).value = call.value
  | .sema _ _ _ (.answer v) => call.Reads ∧ (v = NONE ∨ P call.key v)
  | _ => True

end Knowledge

/-- The slots between the steps of the threads. -/
structure Clean {ι : Type} (b : Build) (H : HashFuncs) (P : Key → Value → Prop) (st : CCEH)
    (f : ι → Worker) : Prop where
  pairs : ∀ p, p ≠ OID_NULL → p < st.nseg → ∀ c, ((st.segs p).bucket c).Passes P
  sees : ∀ i call pc, (f i).now = some (call, pc) →
    pc.Sees b H P st (progresses b f) (f i).held call
  apart : ∀ i j ci cj pi pj s, (f i).now = some (ci, pi) → (f j).now = some (cj, pj) →
    pi.fills = some s → pj.fills = some s → i = j
  cleared : b = .cow → ∀ entry, Settles b st (progresses b f) entry →
    Cleared st (progresses b f) entry

/-- The check leads to the segment of the key, unless it fails. -/
def Pc.Lands (H : HashFuncs) (st : CCEH) (call : Call) : Pc → Prop
  | .check _ target (.entry x D) =>
    (st.dirs D).segment x = target → st.route (H.f call.key) = target
  | _ => True

/-- A step of a run with small depths in which updates do not overlap, a call that does not
lock its segment finds the entry unchanged at its check (`Steady`), no doubling comes between
the two reads of a check, keys are valid and what is inserted satisfies `P`. -/
def Regular (b : Build) (H : HashFuncs) (P : Key → Value → Prop) (st : CCEH) (w : Worker) : Prop :=
  Orderly b H st w ∧ st.curDir.depth ≤ 63 ∧
  match w.now with
  | some (call, pc) => ValidKey call.key ∧ call.Passes P ∧ pc.Lands H st call
  | none => True

instance (H : HashFuncs) (st : CCEH) (call : Call) (pc : Pc) : Decidable (pc.Lands H st call) := by
  unfold Pc.Lands
  split <;> infer_instance

instance (P : Key → Value → Prop) [∀ key value, Decidable (P key value)] :
    ∀ call : Call, Decidable (call.Passes P)
  | .insert key value => inferInstanceAs (Decidable (P key value))
  | .get _ => instDecidableTrue

instance (key : Key) : Decidable (ValidKey key) :=
  inferInstanceAs (Decidable (key ≠ INVALID ∧ key ≠ SENTINEL))

instance (b : Build) (H : HashFuncs) (P : Key → Value → Prop)
    [∀ key value, Decidable (P key value)] (st : CCEH) : ∀ w : Worker, Decidable (Regular b H P st w)
  | ⟨some (call, pc), r, held, owns⟩ => inferInstanceAs
    (Decidable (Orderly b H st ⟨some (call, pc), r, held, owns⟩ ∧ st.curDir.depth ≤ 63 ∧
      ValidKey call.key ∧ call.Passes P ∧ pc.Lands H st call))
  | ⟨none, r, held, owns⟩ => inferInstanceAs
    (Decidable (Orderly b H st ⟨none, r, held, owns⟩ ∧ st.curDir.depth ≤ 63 ∧ True))

section Steps

variable {ι : Type} {b : Build} {H : HashFuncs}
  {P : Key → Value → Prop} {st : CCEH} {f : ι → Worker} {i k : ι} {call c : Call} {pc : Pc}
  {p : ℕ} {loc : Slot}

/-- What a step stores to a slot. -/
theorem Pc.next_pair (b : Build) (H : HashFuncs) (call : Call) (pc : Pc) (loc : Slot)
    (hp : p < st.nseg) :
    ((pc.next b H call st).1.segs p).bucket loc = (st.segs p).bucket loc ∨
    (∃ x pattern slots, pc = .claim x p pattern loc ((st.segs p).bucket loc).key slots ∧
      ((pc.next b H call st).1.segs p).bucket loc = ⟨SENTINEL, ((st.segs p).bucket loc).value⟩) ∨
    (pc = .value p loc ∧ ((pc.next b H call st).1.segs p).bucket loc =
      ⟨((st.segs p).bucket loc).key, call.value⟩) ∨
    (pc = .key p loc ∧ ((pc.next b H call st).1.segs p).bucket loc =
      ⟨call.key, ((st.segs p).bucket loc).value⟩) := by
  have hself : ∀ q, ((st.setSeg p ((st.segs p).setPair loc q)).segs p).bucket loc = q := by
    intro q
    rw [CCEH.setSeg_segs_self]
    exact Function.update_self ..
  by_cases hs : pc.slot = some (p, loc)
  · cases pc with
    | claim x target pattern loc' _key slots =>
      cases hs
      by_cases hkey : ((st.segs p).bucket loc).key = _key
      · subst hkey
        refine Or.inr (Or.inl ⟨x, pattern, slots, rfl, ?_⟩)
        simp only [Pc.next, if_true]
        exact hself _
      · refine Or.inl ?_
        simp only [Pc.next, if_neg hkey]
    | value target loc' =>
      cases hs
      exact Or.inr (Or.inr (Or.inl ⟨rfl, hself _⟩))
    | key target loc' =>
      cases hs
      exact Or.inr (Or.inr (Or.inr ⟨rfl, hself _⟩))
    | _ => cases hs
  · exact Or.inl (Pc.next_bucket hp hs)

theorem Call.Stores.locks (hs : c.Stores P) : c.Locks b := by
  cases c with
  | insert key value => trivial
  | get key => cases hs

theorem Call.cow_of_not_locks (hl : ¬ c.Locks b) : b = .cow := by
  cases b with
  | cow => rfl
  | inplace => cases c <;> exact absurd (by first | rfl | trivial) hl

/-- The call has locked the segment, or needs no lock. -/
def Stays (b : Build) (st : CCEH) (f : ι → Worker) (k : ι) (c : Call) (p : ℕ) : Prop :=
  c.Locks b ∧ 0 < (f k).held (.seg p) ∨ ¬ c.Locks b ∧ Public b st f p

theorem Locked.stays (h : Locked b st f (f k).held c p) : Stays b st f k c p := by
  by_cases hl : c.Locks b
  · exact Or.inl ⟨hl, h.held hl⟩
  · exact Or.inr ⟨hl, h.shared⟩

section

variable [Fintype ι]

theorem Locks.has_of_held (h : Locks st f) {m : Sem} (hk : 0 < (f k).held m) : st.Has m := by
  by_contra hm
  have hheld : (f k).held m = 0 := congrArg Caller.held (h.fresh m hm k)
  omega

theorem Stays.lt (hp : Stays b st f k c p) (h : Sound b st f) : p < st.nseg := by
  rcases hp with ⟨_, hheld⟩ | ⟨_, hpub⟩
  · exact (h.locks.has_of_held hheld).2
  · exact hpub.lt

/-- Calls at one segment agree in its local depth, if one of them has locked it. -/
theorem Reached.agree {c' : Call} (hr : Reached b H st (progresses b f) c p)
    (hr' : Reached b H st (progresses b f) c' p) (h : Sound b st f) (ht : Tidy b st f)
    (hd : st.curDir.depth ≤ 63) (hl : c'.Locks b) (hheld : 0 < (f k).held (.seg p)) :
    topBits (H.f c.key) (st.segs p).localDepth = topBits (H.f c'.key) (st.segs p).localDepth := by
  obtain ⟨entry, hS⟩ := ht.settles
  have hfree := h.not_owned hheld
  have hx := topBits_lt_pow (H.f c'.key) st.curDir.depth
  have hroot := hS.of_segment h hfree hx (hr'.route hl)
  rw [hS.route_block h (by omega) hfree (hr'.route hl) hx hroot]
  by_cases hlc : c.Locks b
  · exact hS.route_block h (by omega) hfree (hr.route hlc) hx hroot
  · exact hr.read hlc entry hS _ hx hroot

variable [DecidableEq ι]

/-- A call stays at the segment that its key leads to. -/
theorem Reached.next (hr : Reached b H st (progresses b f) c p) (h : Sound b st f)
    (ht : Tidy b st f) (hC : b = .cow → ∀ entry, Settles b st (progresses b f) entry →
      Cleared st (progresses b f) entry)
    (ho : Orderly b H st (f i)) (hd : st.curDir.depth ≤ 63)
    (hnow : (f i).now = some (call, pc)) (hp : Stays b st f k c p) :
    Reached b H (pc.next b H call st).1
        (Function.update (progresses b f) i ((pc.next b H call st).2.progress b)) c p ∧
      ((pc.next b H call st).1.segs p).localDepth = (st.segs p).localDepth := by
  have hlevel : ((pc.next b H call st).1.segs p).localDepth = (st.segs p).localDepth := by
    refine h.next_level hnow (hp.lt h) ?_
    rcases hp with ⟨_, hheld⟩ | ⟨hl, _⟩
    · exact Or.inr (h.not_owned hheld)
    · exact Or.inl (Call.cow_of_not_locks hl)
  refine ⟨⟨hr.valid, fun hl => ?_, fun hl entry'' hS'' e he hep => ?_⟩, hlevel⟩
  · obtain ⟨_, hheld⟩ := hp.resolve_right fun hn => hn.1 hl
    exact h.next_route ht ho hd hnow (h.not_owned hheld) (hr.route hl)
  · obtain ⟨_, hpub⟩ := hp.resolve_left fun hn => hl hn.1
    obtain rfl := Call.cow_of_not_locks hl
    obtain ⟨entry, hS⟩ := ht.settles
    obtain ⟨entry', hS', hle, hcomes, _⟩ := ht.next_comes h ho hnow hS (hC rfl entry hS)
    rw [hS''.unique hS' he] at hep
    have hold := hr.read hl entry hS _ (Comes.index hle he) (hcomes.old hpub he hep)
    have hpl := hpub.level_le
    rw [hlevel, hold, Nat.div_div_eq_div_mul, ← pow_add]
    congr 2
    omega

end

/-! ### Slots that the others leave alone -/

theorem Clean.filling (hc : Clean b H P st f) (hnow : (f i).now = some (call, pc))
    (hpc : pc = .value p loc ∨ pc = .key p loc) :
    Fills b H st (progresses b f) call p loc SENTINEL ∧ pc.fills = some (p, loc) := by
  rcases hpc with rfl | rfl
  · exact ⟨(hc.sees i call _ hnow).1, rfl⟩
  · exact ⟨(hc.sees i call _ hnow).1, rfl⟩

/-- A slot that a call has taken is its own. -/
theorem Clean.kept_slot (hc : Clean b H P st f) (hnow : (f i).now = some (call, pc))
    (hp : p < st.nseg) {q : Pc} (hk : (f k).now = some (c, q)) (hne : k ≠ i)
    (hq : q.fills = some (p, loc)) (hkey : ((st.segs p).bucket loc).key = SENTINEL) :
    ((pc.next b H call st).1.segs p).bucket loc = (st.segs p).bucket loc := by
  have hfill : ¬ (pc = .value p loc ∨ pc = .key p loc) := fun hpc =>
    hne (hc.apart k i c call q pc _ hk hnow hq (hc.filling hnow hpc).2)
  rcases Pc.next_pair b H call pc loc hp with
    heq | ⟨x, pattern, slots, rfl, _⟩ | ⟨rfl, _⟩ | ⟨rfl, _⟩
  · exact heq
  · have hrep := (hc.sees i call _ hnow).2
    rw [hkey] at hrep
    exact absurd hrep not_replaceable_sentinel
  · exact absurd (Or.inl rfl) hfill
  · exact absurd (Or.inr rfl) hfill

section

variable [Fintype ι]

/-- A call takes no slot of a key that leads to its segment. -/
theorem Clean.claimed (hc : Clean b H P st f) (h : Sound b st f) (ht : Tidy b st f)
    (hd : st.curDir.depth ≤ 63) {x pattern : ℕ} {_key : Key} {slots : List Slot}
    (hnow : (f i).now = some (call, .claim x p pattern loc _key slots))
    (hr : Reached b H st (progresses b f) c p) :
    Replaceable H (st.segs p).localDepth (topBits (H.f c.key) (st.segs p).localDepth) _key := by
  obtain ⟨hprobes, hrep⟩ := hc.sees i call _ hnow
  obtain ⟨hlocked, _, hl⟩ := h.fits_at hnow
  rw [hr.agree hprobes.reached h ht hd hl (hlocked.held hl), ← hprobes.pattern_eq]
  exact hrep

/-- A pair stays in its slot while a call at its segment looks for it. -/
theorem Clean.kept_pair (hc : Clean b H P st f) (h : Sound b st f) (ht : Tidy b st f)
    (hd : st.curDir.depth ≤ 63) (hnow : (f i).now = some (call, pc)) (hp : p < st.nseg)
    (hr : Reached b H st (progresses b f) c p) (hkey : ((st.segs p).bucket loc).key = c.key) :
    ((pc.next b H call st).1.segs p).bucket loc = (st.segs p).bucket loc := by
  have hfill : ¬ (pc = .value p loc ∨ pc = .key p loc) := fun hpc =>
    hr.valid.2 (hkey.symm.trans (hc.filling hnow hpc).1.key_eq)
  rcases Pc.next_pair b H call pc loc hp with
    heq | ⟨x, pattern, slots, rfl, _⟩ | ⟨rfl, _⟩ | ⟨rfl, _⟩
  · exact heq
  · have hrep := hc.claimed h ht hd hnow hr
    rw [hkey] at hrep
    exact absurd hrep (not_replaceable_of_pattern hr.valid rfl)
  · exact absurd (Or.inl rfl) hfill
  · exact absurd (Or.inr rfl) hfill

/-- A slot that may not be replaced is not taken by another call. -/
theorem Clean.kept_taken (hc : Clean b H P st f) (h : Sound b st f) (ht : Tidy b st f)
    (hd : st.curDir.depth ≤ 63) (hnow : (f i).now = some (call, pc)) (hp : p < st.nseg)
    (hr : Reached b H st (progresses b f) c p)
    (hkey : ¬ Replaceable H (st.segs p).localDepth (topBits (H.f c.key) (st.segs p).localDepth)
      ((st.segs p).bucket loc).key) :
    ¬ Replaceable H (st.segs p).localDepth (topBits (H.f c.key) (st.segs p).localDepth)
      (((pc.next b H call st).1.segs p).bucket loc).key := by
  rcases Pc.next_pair b H call pc loc hp with
    heq | ⟨x, pattern, slots, rfl, _⟩ | ⟨rfl, heq⟩ | ⟨rfl, heq⟩
  · rw [heq]
    exact hkey
  · exact absurd (hc.claimed h ht hd hnow hr) hkey
  · rw [heq]
    exact hkey
  · obtain ⟨hlocked, hl⟩ := h.fits_at hnow
    have hr' := (hc.filling hnow (Or.inr rfl)).1.reached
    rw [heq]
    exact not_replaceable_of_pattern hr'.valid (hr.agree hr' h ht hd hl (hlocked.held hl)).symm

variable [DecidableEq ι]

/-- What a thread knows of the slots stays true while another one moves. -/
theorem Clean.sees_other (hc : Clean b H P st f) (h : Sound b st f) (ht : Tidy b st f)
    (ho : Orderly b H st (f i)) (hd : st.curDir.depth ≤ 63) (hnow : (f i).now = some (call, pc))
    (hne : k ≠ i) {q : Pc} (hk : (f k).now = some (c, q)) :
    q.Sees b H P (pc.next b H call st).1
      (Function.update (progresses b f) i ((pc.next b H call st).2.progress b)) (f k).held c := by
  have hsees := hc.sees k c q hk
  have hfits := h.fits_at hk
  have hreached : ∀ {p}, Stays b st f k c p → Reached b H st (progresses b f) c p →
      Reached b H (pc.next b H call st).1
        (Function.update (progresses b f) i ((pc.next b H call st).2.progress b)) c p ∧
      ((pc.next b H call st).1.segs p).localDepth = (st.segs p).localDepth :=
    fun hp hr => hr.next h ht hc.cleared ho hd hnow hp
  have hprobes : ∀ {p pattern slots}, Stays b st f k c p →
      Probes b H P st (progresses b f) c p pattern slots →
      Probes b H P (pc.next b H call st).1
        (Function.update (progresses b f) i ((pc.next b H call st).2.progress b)) c p pattern slots := by
    intro p pattern slots hp hs
    obtain ⟨hr, hlevel⟩ := hreached hp hs.reached
    exact ⟨hs.stores, hr, by rw [hlevel]; exact hs.pattern_eq, hs.slots⟩
  have hslot : ∀ {p loc}, Stays b st f k c p → q.fills = some (p, loc) →
      Fills b H st (progresses b f) c p loc SENTINEL →
      Fills b H (pc.next b H call st).1
        (Function.update (progresses b f) i ((pc.next b H call st).2.progress b)) c p loc SENTINEL ∧
      ((pc.next b H call st).1.segs p).bucket loc = (st.segs p).bucket loc := by
    intro p loc hp hq hs
    have hkept := hc.kept_slot hnow (hp.lt h) hk hne hq hs.key_eq
    exact ⟨⟨(hreached hp hs.reached).1, hs.slot, by rw [hkept]; exact hs.key_eq⟩, hkept⟩
  have hpair : ∀ {p loc}, Stays b st f k c p → Fills b H st (progresses b f) c p loc c.key →
      Fills b H (pc.next b H call st).1
        (Function.update (progresses b f) i ((pc.next b H call st).2.progress b)) c p loc c.key ∧
      ((pc.next b H call st).1.segs p).bucket loc = (st.segs p).bucket loc := by
    intro p loc hp hs
    have hkept := hc.kept_pair h ht hd hnow (hp.lt h) hs.reached hs.key_eq
    exact ⟨⟨(hreached hp hs.reached).1, hs.slot, by rw [hkept]; exact hs.key_eq⟩, hkept⟩
  cases q with
  | readPattern x p => exact ⟨(hreached hfits.1.stays hsees.1).1, hsees.2⟩
  | probe x p pattern slots => exact hprobes hfits.1.stays hsees
  | test x p pattern loc _key slots =>
    obtain ⟨hs, hrep⟩ := hsees
    obtain ⟨_, hlevel⟩ := hreached hfits.1.stays hs.reached
    refine ⟨hprobes hfits.1.stays hs, ?_⟩
    rw [hlevel]
    refine hrep.imp_right fun htaken => ?_
    rw [hs.pattern_eq] at htaken ⊢
    exact hc.kept_taken h ht hd hnow (hfits.1.stays.lt h) hs.reached htaken
  | claim x p pattern loc _key slots =>
    obtain ⟨hs, hrep⟩ := hsees
    obtain ⟨_, hlevel⟩ := hreached hfits.1.stays hs.reached
    refine ⟨hprobes hfits.1.stays hs, ?_⟩
    rw [hlevel]
    exact hrep
  | value p loc => exact ⟨(hslot hfits.1.stays rfl hsees.1).1, hsees.2⟩
  | key p loc =>
    obtain ⟨hs, hstores, hvalue⟩ := hsees
    obtain ⟨hs', hkept⟩ := hslot hfits.1.stays rfl hs
    refine ⟨hs', hstores, ?_⟩
    rw [hkept]
    exact hvalue
  | scan p slots => exact ⟨(hreached hfits.stays hsees.1).1, hsees.2⟩
  | found p loc => exact ⟨(hpair hfits.stays hsees.1).1, hsees.2⟩
  | sema op m s a =>
    cases a with
    | stored =>
      obtain ⟨p, loc, hm, hstores, hheld, hs, hvalue⟩ := hsees
      obtain ⟨hs', hkept⟩ := hpair (Or.inl ⟨hstores.locks, hheld⟩) hs
      refine ⟨p, loc, hm, hstores, hheld, hs', ?_⟩
      rw [hkept]
      exact hvalue
    | answer v => exact hsees
    | _ => trivial
  | _ => trivial

end

end Steps

end PmemStudy.Cceh
