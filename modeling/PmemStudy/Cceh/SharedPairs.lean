import PmemStudy.Cceh.RepeatedKeys
import PmemStudy.Cceh.SharedValues

/-!
# What interleaved calls store and return

Every value that `Get` returns was stored with its key, and when `Insert` returns its pair is
in a slot of its key, in the segment that the key is routed to.
-/

namespace PmemStudy.Cceh

open AlignedBlocks SuspendLock Threads

section Steps

variable {ι : Type} {b : Build} {H : HashFuncs}
  {P : Key → Value → Prop} {st st' : CCEH} {f : ι → Worker} {i : ι} {call c : Call} {pc : Pc}
  {p : ℕ} {loc : Slot} {w : Worker}

/-! ### The thread that moves -/

/-- A key that is routed to a segment has come to it. -/
theorem Reached.of_route (hk : ValidKey c.key) (hroute : st.route (H.f c.key) = p)
    (hd : st.curDir.depth ≤ 63) (hC : b = .cow → ∀ entry, Settles b st (progresses b f) entry →
      Cleared st (progresses b f) entry) : Reached b H st (progresses b f) c p := by
  refine ⟨hk, fun _ => hroute, fun hl entry hS e he hep => ?_⟩
  obtain rfl := Call.cow_of_not_locks hl
  have hx := topBits_lt_pow (H.f c.key) st.curDir.depth
  have hroot : entry (topBits (H.f c.key) st.curDir.depth) = p := by
    rw [hS.settled _ hx fun k v rest hk s hs => ?_]
    · exact hroute
    · -- a store that is pending here would leave the segment out
      refine hC rfl entry hS k v rest hk e he ?_
      rw [hep, ← hroute]
      exact (hS.pending k v rest hk _ s hs).2
  have hlevel : level .cow st (progresses .cow f) p = (st.segs p).localDepth :=
    level_of_not_raised fun hr => by cases hr.1
  have hle := hS.blocked.level_le e he
  have hiff := hS.blocked.same_iff e he _ hx
  rw [hep, hlevel] at hle hiff
  rw [← topBits_coarser _ _ _ hle (by omega)]
  exact (hiff.mp hroot.symm).symm

theorem Regular.at (hr : Regular b H P st (f i)) (hnow : (f i).now = some (call, pc)) :
    ValidKey call.key ∧ call.Passes P ∧ pc.Lands H st call := by
  have := hr.2.2
  rw [hnow] at this
  exact this

theorem Call.retry_sees {g : ι → Progress} {held : Sem → ℕ} :
    call.retry.Sees b H P st g held call := by
  cases call <;> trivial

theorem After.next_sees {g : ι → Progress} {held : Sem → ℕ} {a : After} {ok : Bool} {q : Pc}
    (hn : a.next b call ok = .goto q) : q.Sees b H P st g held call := by
  cases a with
  | locked x target => cases ok <;> cases hn <;> first | exact Call.retry_sees | trivial
  | suspended x target d => cases ok <;> cases hn <;> first | exact Call.retry_sees | trivial
  | retry =>
    cases hn
    exact Call.retry_sees
  | double u => cases ok <;> cases hn <;> trivial
  | normal u => cases ok <;> cases hn <;> trivial
  | updated u =>
    cases hn
    cases b with
    | cow => exact Call.retry_sees
    | inplace => trivial
  | collide x target d =>
    cases hn
    trivial
  | _ => cases hn

theorem Halves.next_sees {g : ι → Progress} {held : Sem → ℕ} {s : CCEH} {u : Halves} {k : UpdatePc} :
    (u.next b H call st k).2.Sees b H P s g held call := by
  have hfinish : (u.finish b call).Sees b H P s g held call := by
    cases b with
    | cow => exact Call.retry_sees
    | inplace => trivial
  cases k with
  | dir use => cases use <;> trivial
  | publish n => exact hfinish
  | _ => trivial

theorem Call.answer_sees {g : ι → Progress} {held : Sem → ℕ} {v : Value} (hr : call.Reads)
    (hv : v = NONE ∨ P call.key v) {q : Pc} (hn : Call.answer b p v = .goto q) : q.Sees b H P st g held call := by
  cases b with
  | cow => cases hn
  | inplace =>
    cases hn
    exact ⟨hr, hv⟩

theorem CCEH.setPair_self (st : CCEH) (p : ℕ) (loc : Slot) (q : Pair) :
    ((st.setSeg p ((st.segs p).setPair loc q)).segs p).bucket loc = q := by
  rw [CCEH.setSeg_segs_self]
  exact Function.update_self ..

section

variable [Fintype ι]

/-- The value in a slot of the key was stored with it. -/
theorem Clean.found_value (hc : Clean b H P st f) (h : Sound b st f)
    (hnow : (f i).now = some (call, .found p loc)) :
    P call.key ((st.segs p).bucket loc).value := by
  obtain ⟨hs, _⟩ := hc.sees i call _ hnow
  have hlocked := h.fits_at hnow
  have hvalid := hs.reached.valid
  rcases hc.pairs p hlocked.shared.ne_null hlocked.shared.lt loc with hinv | hsen | hp
  · exact absurd (hs.key_eq.symm.trans hinv) hvalid.1
  · exact absurd (hs.key_eq.symm.trans hsen) hvalid.2
  · rw [hs.key_eq] at hp
    exact hp

end

section

variable [DecidableEq ι]

/-- What the thread knows of the slots at `q`, where its step leads. -/
def Learns (b : Build) (H : HashFuncs) (P : Key → Value → Prop) (st : CCEH) (f : ι → Worker) (i : ι)
    (call : Call) (pc q : Pc) : Prop :=
  q.Sees b H P (pc.next b H call st).1
    (Function.update (progresses b f) i ((pc.next b H call st).2.progress b))
    ((f i).note st pc).held call

end

section

variable [Fintype ι] [DecidableEq ι]

section Learning

variable {x target pattern : ℕ} {slots : List Slot} {q : Pc}
  (hc : Clean b H P st f) (h : Sound b st f) (ht : Tidy b st f) (hr : Regular b H P st (f i))

include hc h ht hr

theorem Clean.reached_self (hnow : (f i).now = some (call, pc)) (hp : Stays b st f i call p)
    (hs : Reached b H st (progresses b f) call p) :
    Reached b H (pc.next b H call st).1
      (Function.update (progresses b f) i ((pc.next b H call st).2.progress b)) call p :=
  (hs.next h ht hc.cleared hr.1 hr.2.1 hnow hp).1

theorem Clean.probes_self (hnow : (f i).now = some (call, pc)) (hp : Stays b st f i call p)
    (hs : Probes b H P st (progresses b f) call p pattern slots) :
    Probes b H P (pc.next b H call st).1
      (Function.update (progresses b f) i ((pc.next b H call st).2.progress b)) call p pattern
      slots := by
  obtain ⟨hreached, hlevel⟩ := hs.reached.next h ht hc.cleared hr.1 hr.2.1 hnow hp
  exact ⟨hs.stores, hreached, by rw [hlevel]; exact hs.pattern_eq, hs.slots⟩

theorem Clean.learns_sema {op : SemaOp} {m : Sem} {s : SemaPc} {a : After}
    (hnow : (f i).now = some (call, .sema op m s a))
    (hn : (Pc.next b H call st (.sema op m s a)).2 = .goto q) :
    Learns b H P st f i call (.sema op m s a) q := by
  have hsees := hc.sees i call _ hnow
  unfold Learns
  simp only [Pc.next] at hn
  split at hn
  · next s' hs' =>
    cases hn
    have hnote : (f i).note st (.sema op m s a) = f i := by simp only [Worker.note, hs']
    rw [hnote]
    cases a with
    | stored =>
      obtain ⟨p, loc, hm, hstores, hheld, hs, hvalue⟩ := hsees
      have hkept := congrFun (CCEH.setSem_bucket st m (semaStep op (st.sema m) s).1 p) loc
      refine ⟨p, loc, hm, hstores, hheld,
        ⟨hc.reached_self h ht hr hnow (Or.inl ⟨hstores.locks, hheld⟩) hs.reached, hs.slot, ?_⟩, ?_⟩
      · exact (congrArg Pair.key hkept).trans hs.key_eq
      · exact (congrArg Pair.value hkept).trans hvalue
    | answer v => exact hsees
    | _ => trivial
  · exact After.next_sees hn

theorem Clean.learns_entry {y D : ℕ} (hnow : (f i).now = some (call, .check x target (.entry y D)))
    (hn : (Pc.next b H call st (.check x target (.entry y D))).2 = .goto q) :
    Learns b H P st f i call (.check x target (.entry y D)) q := by
  obtain ⟨hvalid, hpasses, hlands⟩ := hr.at hnow
  have hstays := (h.fits_at hnow).1.stays
  unfold Learns
  simp only [Pc.next, RoutePc.next] at hn
  split at hn
  · cases hn
    trivial
  · next heq =>
    have hreached := hc.reached_self h ht hr hnow hstays
      (.of_route hvalid (hlands (not_not.mp heq).symm) hr.2.1 hc.cleared)
    cases call with
    | insert key value =>
      cases hn
      exact ⟨hreached, hpasses⟩
    | get key =>
      cases hn
      exact ⟨hreached, trivial, fun _ hmem => hmem⟩

theorem Clean.learns_claim {_key : Key}
    (hnow : (f i).now = some (call, .claim x target pattern loc _key slots))
    (hn : (Pc.next b H call st (.claim x target pattern loc _key slots)).2 = .goto q) :
    Learns b H P st f i call (.claim x target pattern loc _key slots) q := by
  obtain ⟨hs, _⟩ := hc.sees i call _ hnow
  have hstays := (h.fits_at hnow).1.stays
  have hreached := hc.reached_self h ht hr hnow hstays hs.reached
  have hprobes := hc.probes_self h ht hr hnow hstays
    ⟨hs.stores, hs.reached, hs.pattern_eq, fun c hmem => hs.slots c (.tail _ hmem)⟩
  unfold Learns
  by_cases hkey : ((st.segs target).bucket loc).key = _key
  · simp only [Pc.next, if_pos hkey] at hn hreached ⊢
    cases hn
    refine ⟨⟨hreached, hs.slots loc (List.mem_cons_self ..), ?_⟩, hs.stores⟩
    exact congrArg Pair.key (st.setPair_self target loc _)
  · simp only [Pc.next, if_neg hkey] at hn hprobes ⊢
    cases hn
    exact hprobes

theorem Clean.learns_value (hnow : (f i).now = some (call, .value target loc)) :
    Learns b H P st f i call (.value target loc) (.key target loc) := by
  obtain ⟨hs, hstores⟩ := hc.sees i call _ hnow
  have hreached := hc.reached_self h ht hr hnow (h.fits_at hnow).1.stays hs.reached
  refine ⟨⟨hreached, hs.slot, ?_⟩, hstores, ?_⟩
  · exact (congrArg Pair.key (st.setPair_self target loc _)).trans hs.key_eq
  · exact congrArg Pair.value (st.setPair_self target loc _)

theorem Clean.learns_key (hnow : (f i).now = some (call, .key target loc)) :
    Learns b H P st f i call (.key target loc) (.sema .unlock (.seg target) .load .stored) := by
  obtain ⟨hs, hstores, hvalue⟩ := hc.sees i call _ hnow
  obtain ⟨hlocked, hl⟩ := h.fits_at hnow
  have hreached := hc.reached_self h ht hr hnow hlocked.stays hs.reached
  refine ⟨target, loc, rfl, hstores, hlocked.held hl, ⟨hreached, hs.slot, ?_⟩, ?_⟩
  · exact congrArg Pair.key (st.setPair_self target loc _)
  · exact (congrArg Pair.value (st.setPair_self target loc _)).trans hvalue

theorem Clean.learns_scan (hnow : (f i).now = some (call, .scan target slots))
    (hn : (Pc.next b H call st (.scan target slots)).2 = .goto q) :
    Learns b H P st f i call (.scan target slots) q := by
  obtain ⟨hs, hreads, hslots⟩ := hc.sees i call _ hnow
  cases slots with
  | nil => exact Call.answer_sees hreads (Or.inl rfl) hn
  | cons loc slots =>
    have hreached := hc.reached_self h ht hr hnow (h.fits_at hnow).stays hs
    simp only [Pc.next] at hn
    split at hn
    · next hkey =>
      cases hn
      exact ⟨⟨hreached, hslots loc (List.mem_cons_self ..), hkey⟩, hreads⟩
    · cases hn
      exact ⟨hreached, hreads, fun c hmem => hslots c (.tail _ hmem)⟩

/-- What the thread knows of the slots after its step. -/
theorem Clean.sees_self (hnow : (f i).now = some (call, pc))
    (hn : (pc.next b H call st).2 = .goto q) : Learns b H P st f i call pc q := by
  have hsees := hc.sees i call pc hnow
  have hfits := h.fits_at hnow
  have hflow : Flow b H call st pc _ := pc.flows
  rw [hn] at hflow
  cases hflow with
  | absent r _ he =>
    cases he
    exact Call.retry_sees
  | sema op m s s' a => exact hc.learns_sema h ht hr hnow hn
  | after op m s a ok _ he => exact hc.learns_sema h ht hr hnow hn
  | body x target y D _ same he => exact hc.learns_entry h ht hr hnow hn
  | pattern x target =>
    exact hc.probes_self h ht hr hnow hfits.1.stays ⟨hsees.2, hsees.1, rfl, fun _ hmem => hmem⟩
  | probe x target pattern loc slots =>
    exact ⟨hc.probes_self h ht hr hnow hfits.1.stays hsees, Classical.em _⟩
  | usable x target pattern loc _key slots hre =>
    obtain ⟨hs, hrep⟩ := hsees
    exact ⟨hc.probes_self h ht hr hnow hfits.1.stays hs,
      hrep.resolve_right fun hnot => hnot (reusable_iff.mp hre)⟩
  | passed x target pattern loc _key slots =>
    obtain ⟨hs, _⟩ := hsees
    exact hc.probes_self h ht hr hnow hfits.1.stays
      ⟨hs.stores, hs.reached, hs.pattern_eq, fun c hmem => hs.slots c (.tail _ hmem)⟩
  | claimed x target pattern loc slots => exact hc.learns_claim h ht hr hnow hn
  | lost x target pattern loc _key slots => exact hc.learns_claim h ht hr hnow hn
  | value target loc => exact hc.learns_value h ht hr hnow
  | key target loc => exact hc.learns_key h ht hr hnow
  | released target _ he =>
    cases he
    exact Call.retry_sees
  | update u k _ he =>
    cases he
    exact Halves.next_sees
  | found target loc slots he => exact hc.learns_scan h ht hr hnow hn
  | other target loc slots he => exact hc.learns_scan h ht hr hnow hn
  | missing target _ he => exact hc.learns_scan h ht hr hnow hn
  | answer target loc _ he =>
    exact Call.answer_sees hsees.2 (Or.inr (hc.found_value h hnow)) hn
  | _ => trivial

end Learning

end

/-! ### Every step -/

def Outcome.fills : Outcome → Option (ℕ × Slot)
  | .goto pc => pc.fills
  | .ret _ => none

theorem Call.retry_fills : call.retry.fills = none := by
  cases call <;> rfl

theorem After.next_fills {a : After} {ok : Bool} : (a.next b call ok).fills = none := by
  cases a with
  | locked x target =>
    cases ok with
    | false => exact Call.retry_fills
    | true => rfl
  | retry => exact Call.retry_fills
  | suspended x target d =>
    cases ok with
    | false => exact Call.retry_fills
    | true => rfl
  | updated u =>
    cases b with
    | cow => exact Call.retry_fills
    | inplace => rfl
  | _ => rfl

theorem Halves.next_fills {u : Halves} {k : UpdatePc} : (u.next b H call st k).2.fills = none := by
  cases k with
  | dir use => cases use <;> rfl
  | publish n =>
    cases b with
    | cow => exact Call.retry_fills
    | inplace => rfl
  | _ => rfl

/-- A call comes to a slot of its own by the CAS of its key only. -/
theorem Pc.next_fills (hs : (pc.next b H call st).2.fills = some (p, loc)) :
    pc.fills = some (p, loc) ∨
      ∃ x pattern slots, pc = .claim x p pattern loc ((st.segs p).bucket loc).key slots := by
  have hretry : (Outcome.goto call.retry).fills = none := Call.retry_fills
  have hanswer : ∀ target v, (Call.answer b target v).fills = none := by
    intro target v
    cases b <;> rfl
  have hflow : Flow b H call st pc _ := pc.flows
  generalize (pc.next b H call st).2 = out at hs hflow
  cases hflow with
  | absent r out he =>
    rw [he, hretry] at hs
    cases hs
  | after op m s a ok out he =>
    rw [he, After.next_fills] at hs
    cases hs
  | body x target y D out same he =>
    rw [he] at hs
    cases call <;> cases hs
  | claimed x target pattern loc' slots =>
    cases hs
    exact Or.inr ⟨x, pattern, slots, rfl⟩
  | value target loc' =>
    cases hs
    exact Or.inl rfl
  | released target out he =>
    rw [he, hretry] at hs
    cases hs
  | update u k out he =>
    rw [he, Outcome.fills, Halves.next_fills] at hs
    cases hs
  | missing target out he =>
    rw [he, hanswer] at hs
    cases hs
  | answer target loc' out he =>
    rw [he, hanswer] at hs
    cases hs
  | _ => cases hs

/-- After a step that does not return, the call is where the step led to. -/
theorem Worker.after_goto {q : Pc} (hq : (w.after b H st call pc).now = some (c, q)) :
    (pc.next b H call st).2 = .goto q ∧ c = call ∧
      (w.after b H st call pc).held = (w.note st pc).held := by
  unfold Worker.after at hq ⊢
  cases hn : (pc.next b H call st).2 with
  | ret v =>
    rw [hn] at hq
    cases hq
  | goto pc' =>
    rw [hn] at hq
    cases hq
    exact ⟨rfl, rfl, rfl⟩

/-- No other thread fills the slot that the step has come to. -/
theorem Clean.fills_apart (hc : Clean b H P st f) (hnow : (f i).now = some (call, pc)) {j : ι}
    {c' : Call} {q q' : Pc} {s : ℕ × Slot}
    (hq : ((f i).after b H st call pc).now = some (c, q)) (hne : j ≠ i)
    (hj : (f j).now = some (c', q')) (hs : q.fills = some s) (hs' : q'.fills = some s) : False := by
  obtain ⟨p, loc⟩ := s
  obtain ⟨hn, _⟩ := Worker.after_goto hq
  rw [show q.fills = ((pc.next b H call st).2).fills by rw [hn]; rfl] at hs
  rcases Pc.next_fills hs with hs | ⟨x, pattern, slots, rfl⟩
  · exact hne (hc.apart j i c' call q' pc _ hj hnow hs' hs)
  · have hfill : q' = .value p loc ∨ q' = .key p loc := by
      cases q' with
      | value target loc' =>
        cases hs'
        exact Or.inl rfl
      | key target loc' =>
        cases hs'
        exact Or.inr rfl
      | _ => cases hs'
    have hrep := (hc.sees i call _ hnow).2
    rw [(hc.filling hj hfill).1.key_eq] at hrep
    exact not_replaceable_sentinel hrep

/-- At first every slot is free. -/
theorem Clean.start (segs : ℕ → Segment) (dirs : ℕ → Directory) (initCap : ℕ) :
    Clean b H P (initCCEH (freshPool segs dirs) initCap) fun _ : ι => Worker.start := by
  have hinit := initCCEH_spec segs dirs (Nat.log2 initCap)
  rw [← initCCEH_log2] at hinit
  refine ⟨fun p hne hlt loc => Or.inl ?_, fun _ _ _ hj => (by cases hj),
    fun _ _ _ _ _ _ _ hj => (by cases hj), fun _ _ _ k u rest hk => (by cases hk)⟩
  rw [hinit.nseg] at hlt
  have hpos : p ≠ 0 := hne
  obtain ⟨x, rfl⟩ : ∃ x, p = 1 + x := ⟨p - 1, by omega⟩
  exact (hinit.seg x (by omega)).2.2 loc

section

variable [Fintype ι]

/-- The pairs after a step; `Split` copies pairs of its segment. -/
theorem Clean.next_pairs (hc : Clean b H P st f) (h : Sound b st f)
    (hnow : (f i).now = some (call, pc)) : ∀ p, p ≠ OID_NULL → p < (pc.next b H call st).1.nseg →
    ∀ loc, (((pc.next b H call st).1.segs p).bucket loc).Passes P := by
  intro p hne hlt loc
  by_cases hp : p < st.nseg
  · rcases Pc.next_pair b H call pc loc hp with
      heq | ⟨x, pattern, slots, rfl, heq⟩ | ⟨rfl, heq⟩ | ⟨rfl, heq⟩
    · rw [heq]
      exact hc.pairs p hne hp loc
    · rw [heq]
      exact Or.inr (Or.inl rfl)
    · rw [heq]
      exact Or.inr (Or.inl (hc.filling hnow (Or.inl rfl)).1.key_eq)
    · obtain ⟨_, hstores, hvalue⟩ := hc.sees i call _ hnow
      rw [heq, hvalue]
      cases call with
      | insert key value => exact Or.inr (Or.inr hstores)
      | get key => exact absurd hstores id
  · rcases Pc.next_shape b H st call pc with hs | ⟨target, d, rfl⟩ | ⟨u, k, rfl, _⟩
    · rw [hs.nseg] at hlt
      exact absurd hlt hp
    · have ha := (allocSplit_spec b H st target).2
      obtain ⟨htarget, _⟩ := h.fits_at hnow
      obtain ⟨bit, hbit, rfl⟩ := ha.new_half hlt (Nat.le_of_not_lt hp)
      obtain ⟨origin, horigin, _⟩ := (ha.copied bit hbit).origin
      by_cases hocc : ((allocSplit b H st target).1.segs (st.half b target bit)).Occupied loc
      · show (((allocSplit b H st target).1.segs _).bucket loc).Passes P
        rw [(horigin loc hocc).1]
        exact hc.pairs target htarget.shared.ne_null htarget.shared.lt _
      · exact Or.inl (not_not.mp hocc)
    · refine absurd (lt_of_lt_of_eq hlt ?_) hp
      cases k with
      | store D begun s rest => cases s <;> rfl
      | _ => rfl

end

section

variable [DecidableEq ι]

theorem Clean.enter (hc : Clean b H P st f) (hw : (f i).enter call = some w) :
    Clean b H P st (Function.update f i w) := by
  have hprog := progresses_enter (b := b) hw
  obtain ⟨_, rfl⟩ := Worker.enter_cases hw
  have hfills : ∀ {j c q}, (Function.update f i { f i with now := some (call, call.retry) } j).now =
      some (c, q) → q.fills ≠ none → (f j).now = some (c, q) := by
    intro j c q hj hq
    by_cases hji : j = i
    · rw [hji, Function.update_self] at hj
      cases hj
      exact absurd Call.retry_fills hq
    · rwa [Function.update_of_ne hji] at hj
  refine ⟨hc.pairs, ?_, ?_, ?_⟩
  · intro j c q hj
    rw [hprog]
    by_cases hji : j = i
    · rw [hji, Function.update_self] at hj
      cases hj
      exact Call.retry_sees
    · rw [Function.update_of_ne hji] at hj ⊢
      exact hc.sees j c q hj
  · intro j k cj ck qj qk s hj hk hsj hsk
    exact hc.apart j k cj ck qj qk s (hfills hj (by rw [hsj]; simp)) (hfills hk (by rw [hsk]; simp))
      hsj hsk
  · rw [hprog]
    exact hc.cleared

end

section

variable [Fintype ι] [DecidableEq ι]

/-- What one step keeps of the slots. -/
theorem Clean.run (hc : Clean b H P st f) (h : Sound b st f) (ht : Tidy b st f)
    (hr : Regular b H P st (f i)) (hnow : (f i).now = some (call, pc)) :
    Clean b H P (pc.next b H call st).1 (Function.update f i ((f i).after b H st call pc)) := by
  have hprog : progresses b (Function.update f i ((f i).after b H st call pc)) =
      Function.update (progresses b f) i ((pc.next b H call st).2.progress b) := by
    rw [progresses_update, Worker.after, Worker.continued_progress]
  refine ⟨hc.next_pairs h hnow, ?_, ?_, ?_⟩
  · intro j c' q hj
    rw [hprog]
    by_cases hji : j = i
    · subst hji
      rw [Function.update_self] at hj ⊢
      obtain ⟨hn, rfl, hheld⟩ := Worker.after_goto hj
      rw [hheld]
      exact hc.sees_self h ht hr hnow hn
    · rw [Function.update_of_ne hji] at hj ⊢
      exact hc.sees_other h ht hr.1 hr.2.1 hnow hji hj
  · intro j k cj ck qj qk s hj hk hsj hsk
    by_cases hji : j = i
    · by_cases hki : k = i
      · rw [hji, hki]
      · subst hji
        rw [Function.update_self] at hj
        rw [Function.update_of_ne hki] at hk
        exact (hc.fills_apart hnow hj hki hk hsj hsk).elim
    · rw [Function.update_of_ne hji] at hj
      by_cases hki : k = i
      · subst hki
        rw [Function.update_self] at hk
        exact (hc.fills_apart hnow hk hji hj hsk hsj).elim
      · rw [Function.update_of_ne hki] at hk
        exact hc.apart j k cj ck qj qk s hj hk hsj hsk
  · rintro rfl entry'' hS''
    rw [hprog] at hS'' ⊢
    obtain ⟨entry, hS⟩ := ht.settles
    obtain ⟨entry', hS', _, _, hC'⟩ := ht.next_comes h hr.1 hnow hS (hc.cleared rfl entry hS)
    intro k u rest hk e he
    rw [hS''.unique hS' he]
    exact hC' k u rest hk e he

variable [∀ st w, Decidable (Regular b H P st w)]

theorem Clean.step (hc : Clean b H P st f) (h : Sound b st f) (ht : Tidy b st f)
    {choice : Option Call}
    (hn : given (Regular b H P) (Worker.next b H) i choice st (f i) = some (st', w)) :
    Clean b H P st' (Function.update f i w) := by
  obtain ⟨hr, hn⟩ := given_eq_some.mp hn
  rcases Worker.next_cases hn with ⟨call, _, rfl, hw⟩ | ⟨call, pc, _, hnow, rfl, rfl⟩
  · exact hc.enter hw
  · exact hc.run h ht hr hnow

theorem reaches_clean {segs : ℕ → Segment} {dirs : ℕ → Directory} {initCap : ℕ}
    {c : Config ι CCEH Worker}
    (hr : Reaches (given (Regular b H P) (Worker.next b H)) (startThreads segs dirs initCap) c) :
    Sound b c.shared c.threads ∧ Tidy b c.shared c.threads ∧ Clean b H P c.shared c.threads := by
  refine Reaches.invariant
    (P := fun st f => Sound b st f ∧ Tidy b st f ∧ Clean b H P st f)
    ⟨.start segs dirs initCap, .start segs dirs initCap, .start segs dirs initCap⟩
    (fun st f i a st' w h hn => ?_) hr
  obtain ⟨hreg, hnext⟩ := given_eq_some.mp hn
  exact ⟨h.1.step (given_eq_some.mpr ⟨hreg.1.1, hnext⟩),
    h.2.1.step h.1 (given_eq_some.mpr ⟨hreg.1, hnext⟩), h.2.2.step h.1 h.2.1 hn⟩

end

/-! ### What the calls return -/

/-- The last step of a call. -/
theorem Worker.last_step (hnow : w.now = some (call, pc)) {w' : Worker}
    (hn : Worker.next b H i none st w = some (st', w')) (hend : w'.now = none) :
    (pc.next b H call st).2 = .ret w'.returned ∧ st' = (pc.next b H call st).1 ∧
      w' = w.after b H st call pc := by
  rcases Worker.next_cases hn with ⟨_, hc, _⟩ | ⟨call', pc', _, hnow', rfl, rfl⟩
  · cases hc
  · rw [hnow] at hnow'
    cases hnow'
    unfold Worker.after at hend ⊢
    cases hr : (pc.next b H call st).2 with
    | goto q =>
      rw [hr] at hend
      cases hend
    | ret v => exact ⟨rfl, rfl, rfl⟩

section

variable [Fintype ι]

/-- How a call ends: `Get` with its answer, `Insert` with the unlock after its last store. -/
theorem Clean.ended (hc : Clean b H P st f) (h : Sound b st f) {r : Option Value}
    (hnow : (f i).now = some (call, pc)) (hret : (pc.next b H call st).2 = .ret r) :
    (∃ v, r = some v ∧ call.Reads ∧ (v = NONE ∨ P call.key v)) ∨
    call.Stores P ∧ (∃ op m s, pc = .sema op m s .stored) ∧ ∃ loc ∈ windows H call.key,
      ((pc.next b H call st).1.segs ((pc.next b H call st).1.route (H.f call.key))).bucket loc =
        ⟨call.key, call.value⟩ := by
  have hsees := hc.sees i call pc hnow
  have hanswer : ∀ {target v}, Call.answer b target v = .ret r → r = some v := by
    intro target v hv
    cases b with
    | cow =>
      cases hv
      rfl
    | inplace => cases hv
  cases pc with
  | sema op m s a =>
    have hbucket := CCEH.setSem_bucket st m (semaStep op (st.sema m) s).1
    have hroute : (st.setSem m (semaStep op (st.sema m) s).1).route (H.f call.key) =
        st.route (H.f call.key) := by
      obtain ⟨hdepth, _, hsegment⟩ := (setSem_shape st m (semaStep op (st.sema m) s).1).curDir
      unfold CCEH.route
      rw [hdepth, hsegment]
    simp only [Pc.next] at hret ⊢
    split at hret
    · cases hret
    · cases a with
      | stored =>
        obtain ⟨target, loc, _, hstores, _, hs, hvalue⟩ := hsees
        cases hret
        refine Or.inr ⟨hstores, ⟨op, m, s, rfl⟩, loc, hs.slot, ?_⟩
        rw [hroute, hs.reached.route hstores.locks, hbucket, ← hs.key_eq, ← hvalue]
      | answer v =>
        cases hret
        exact Or.inl ⟨v, rfl, hsees⟩
      | _ => cases hret
  | probe x target pattern slots => cases slots <;> cases hret
  | claim x target pattern loc' _key slots =>
    simp only [Pc.next] at hret
    split at hret <;> cases hret
  | recheck x target d r => cases r <;> cases hret
  | scan target slots =>
    cases slots with
    | nil => exact Or.inl ⟨NONE, hanswer hret, hsees.2.1, Or.inl rfl⟩
    | cons loc' slots => cases hret
  | found target loc' => exact Or.inl ⟨_, hanswer hret, hsees.2, Or.inr (hc.found_value h hnow)⟩
  | _ => cases hret

end

end Steps

end PmemStudy.Cceh
