import Mathlib.Data.List.Range
import PmemStudy.Lib.Threads

/-!
# Reading behind a writer

T1 writes one line a round and hands the lock to T2, which reads the line that was
written `distance` rounds ago. Each thread has a cursor of its own; it goes back to zero
when it is above the size of the working set, while the address that is read goes around
at the size itself.
-/

namespace PmemStudy.Micro

/-- What `run` is called with. -/
structure Contention where
  wss : ℕ
  distance : ℕ
  readFlag : Bool
  wss_ge : 64 ≤ wss
  wss_lt : wss < 2 ^ 64
  distance_le : distance * 64 ≤ wss

inductive Party
  | run | T1 | T2
deriving DecidableEq

inductive Turn
  | spinning | critical | unlocking | finished
deriving DecidableEq

structure PartyState where
  turn : Turn
  j : ℤ

/-- The lock and the flag, with the order of the critical sections, the offsets that T1
wrote and the ones that T2 read, by rounds. -/
structure Handshake where
  threadLock : ℕ
  endFlag : Bool
  entries : List Party
  writes : List ℤ
  reads : List (Option ℕ)

/-- An `int` next to a `uint64_t`. -/
def asUint64 (i : ℤ) : ℕ := (i % 2 ^ 64).toNat

/-- Signed arithmetic has no result outside of the type. -/
def asInt (i : ℤ) : Option ℤ := if -2 ^ 31 ≤ i ∧ i < 2 ^ 31 then some i else none

namespace Contention

variable (C : Contention)

/-- `j += 64; if (j > wss) j = 0` -/
def advance (j : ℤ) : Option ℤ :=
  (asInt (j + 64)).map fun j => if asUint64 j > C.wss then 0 else j

/-- `(j + wss - (distance << 6)) % wss` -/
def readOffset (j : ℤ) : Option ℕ :=
  (asInt (C.distance * 64)).map fun shifted => asUint64 (j + C.wss - shifted) % C.wss

/-- A compare-exchange that may fail without a reason. -/
def exchange (spurious : Bool) (p : Party) (targetUnlock target : ℕ) (g : Handshake)
    (w : PartyState) : Handshake × PartyState :=
  if spurious = false ∧ g.threadLock = targetUnlock then
    ({ g with threadLock := target, entries := g.entries ++ [p] }, { w with turn := .critical })
  else (g, w)

/-- A step of a party; `spurious` is whether a compare-exchange fails on its own. -/
def next (p : Party) (spurious : Bool) (g : Handshake) (w : PartyState) :
    Option (Handshake × PartyState) :=
  match p, w.turn with
  | .run, .spinning => some ({ g with endFlag := true }, { w with turn := .finished })
  | .T1, .spinning =>
    if g.endFlag = true then some (g, { w with turn := .finished })
    else some (exchange spurious .T1 0 1 g w)
  | .T1, .critical =>
    (C.advance w.j).map fun j =>
      ({ g with writes := g.writes ++ [w.j] }, { w with turn := .unlocking, j := j })
  | .T1, .unlocking => some ({ g with threadLock := 2 }, { w with turn := .spinning })
  | .T2, .spinning =>
    if g.endFlag = true then some (g, { w with turn := .finished })
    else some (exchange spurious .T2 2 3 g w)
  | .T2, .critical =>
    (if C.readFlag = true then (C.readOffset w.j).map some else some none).bind fun r =>
      (C.advance w.j).map fun j =>
        ({ g with reads := g.reads ++ [r] }, { w with turn := .unlocking, j := j })
  | .T2, .unlocking => some ({ g with threadLock := 0 }, { w with turn := .spinning })
  | _, _ => none

def initial : Threads.Config Party Handshake PartyState where
  shared := ⟨0, false, [], [], []⟩
  threads := fun _ => ⟨.spinning, 0⟩

/-! ### Cursors -/

/-- The number of rounds after which a cursor is back at zero. -/
def period : ℕ := C.wss / 64 + 1

/-- The cursor of either thread in round `k`. -/
def cursor (k : ℕ) : ℕ := 64 * (k % C.period)

/-- The offset that T2 reads in round `k`. -/
def readAt (k : ℕ) : ℕ := (C.cursor k + C.wss - C.distance * 64) % 2 ^ 64 % C.wss

variable {C}

theorem mod_period_lt (k : ℕ) : k % C.period < C.wss / 64 + 1 :=
  Nat.mod_lt k (Nat.succ_pos (C.wss / 64))

theorem cursor_le (k : ℕ) : C.cursor k ≤ C.wss := by
  have hlt := C.mod_period_lt k
  unfold cursor
  omega

theorem asUint64_of_lt {i : ℤ} (h0 : 0 ≤ i) (hlt : i < 2 ^ 64) : asUint64 i = i.toNat := by
  unfold asUint64
  rw [Int.emod_eq_of_lt h0 hlt]

theorem cursor_succ (k : ℕ) :
    C.cursor (k + 1) = if C.cursor k + 64 > C.wss then 0 else C.cursor k + 64 := by
  have hlt := C.mod_period_lt k
  have hmod : (k + 1) % C.period = (k % C.period + 1) % C.period := (Nat.mod_add_mod k _ 1).symm
  unfold cursor
  rcases Nat.lt_or_ge (k % C.period + 1) C.period with hin | hout
  · have hle : k % C.period + 1 < C.wss / 64 + 1 := hin
    rw [hmod, Nat.mod_eq_of_lt hin, if_neg (by omega)]
    omega
  · have hlast : k % C.period + 1 = C.period := Nat.le_antisymm hlt hout
    have hge : C.wss / 64 + 1 ≤ k % C.period + 1 := hout
    rw [hmod, hlast, Nat.mod_self, if_pos (by omega)]

/-- A cursor that does not overflow goes from one round to the next. -/
theorem advance_cursor {k : ℕ} {j : ℤ} (h : C.advance (C.cursor k) = some j) :
    j = C.cursor (k + 1) := by
  unfold advance asInt at h
  split at h
  · rw [Option.map_some, Option.some.injEq] at h
    have hu : asUint64 ((C.cursor k : ℤ) + 64) = C.cursor k + 64 := by
      rw [asUint64_of_lt (by omega) (by omega)]
      omega
    rw [hu] at h
    rw [← h, cursor_succ]
    split <;> rfl
  · cases h

theorem readOffset_cursor {k r : ℕ} (h : C.readOffset (C.cursor k) = some r) :
    r = C.readAt k := by
  have hd := C.distance_le
  have hw := C.wss_lt
  have hle := C.cursor_le k
  unfold readOffset asInt at h
  split at h
  · rw [Option.map_some, Option.some.injEq] at h
    rw [← h]
    unfold readAt asUint64
    congr 1
    omega
  · cases h

/-! ### The handshake -/

/-- The entries of a list follow a function of their positions. -/
def Follows {α : Type*} (F : ℕ → α) (l : List α) : Prop := ∀ k a, l[k]? = some a → a = F k

theorem Follows.concat {α : Type*} {F : ℕ → α} {l : List α} {a : α} (h : Follows F l)
    (ha : a = F l.length) : Follows F (l ++ [a]) := by
  intro k b hb
  rcases Nat.lt_trichotomy k l.length with hk | rfl | hk
  · rw [List.getElem?_append_left hk] at hb
    exact h k b hb
  · rw [List.getElem?_concat_length, Option.some.injEq] at hb
    rw [← hb, ha]
  · have hnone : (l ++ [a])[k]? = none := by
      rw [List.getElem?_eq_none_iff, List.length_append, List.length_singleton]
      omega
    rw [hnone] at hb
    cases hb

/-- T1 has the even entries and T2 the odd ones. -/
def partyOf (i : ℕ) : Party := if i % 2 = 0 then .T1 else .T2

def Idle (t : Turn) : Prop := t = .spinning ∨ t = .finished

/-- Who may be in its critical section, by the value of the lock. After the `writes` rounds
of T1 and the `reads` rounds of T2 there were `entries` critical sections. -/
inductive Phase : ℕ → Turn → Turn → (writes reads entries : ℕ) → Prop
  | free {t₁ t₂ n} : Idle t₁ → Idle t₂ → Phase 0 t₁ t₂ n n (2 * n)
  | writing {t₂ n} : Idle t₂ → Phase 1 .critical t₂ n n (2 * n + 1)
  | written {t₂ n} : Idle t₂ → Phase 1 .unlocking t₂ (n + 1) n (2 * n + 1)
  | handed {t₁ t₂ n} : Idle t₁ → Idle t₂ → Phase 2 t₁ t₂ (n + 1) n (2 * n + 1)
  | reading {t₁ n} : Idle t₁ → Phase 3 t₁ .critical (n + 1) n (2 * n + 2)
  | done {t₁ n} : Idle t₁ → Phase 3 t₁ .unlocking (n + 1) (n + 1) (2 * n + 2)

structure Alternating (C : Contention) (g : Handshake) (f : Party → PartyState) : Prop where
  phase : Phase g.threadLock (f .T1).turn (f .T2).turn g.writes.length g.reads.length
    g.entries.length
  entries_eq : Follows partyOf g.entries
  writes_eq : Follows (fun k => (C.cursor k : ℤ)) g.writes
  reads_eq : Follows (fun k => if C.readFlag = true then some (C.readAt k) else none) g.reads
  j₁ : (f .T1).j = C.cursor g.writes.length
  j₂ : (f .T2).j = C.cursor g.reads.length

theorem alternating_initial : Alternating C initial.shared initial.threads where
  phase := .free (n := 0) (.inl rfl) (.inl rfl)
  entries_eq := fun _ _ h => nomatch h
  writes_eq := fun _ _ h => nomatch h
  reads_eq := fun _ _ h => nomatch h
  j₁ := rfl
  j₂ := rfl

section Step

variable {g g' : Handshake} {f : Party → PartyState} {x : PartyState} {l a b e : ℕ}
  {t₁ t₂ t : Turn}

theorem Idle.spinning : Idle .spinning := .inl rfl

theorem not_idle_critical : ¬ Idle .critical := by rintro (h | h) <;> cases h

theorem not_idle_unlocking : ¬ Idle .unlocking := by rintro (h | h) <;> cases h

theorem Phase.idle₁ (h : Phase l t₁ t₂ a b e) (hi : Idle t₁) (ht : Idle t) :
    Phase l t t₂ a b e := by
  cases h with
  | free _ h₂ => exact .free ht h₂
  | writing _ => exact absurd hi not_idle_critical
  | written _ => exact absurd hi not_idle_unlocking
  | handed _ h₂ => exact .handed ht h₂
  | reading _ => exact .reading ht
  | done _ => exact .done ht

theorem Phase.idle₂ (h : Phase l t₁ t₂ a b e) (hi : Idle t₂) (ht : Idle t) :
    Phase l t₁ t a b e := by
  cases h with
  | free h₁ _ => exact .free h₁ ht
  | writing _ => exact .writing ht
  | written _ => exact .written ht
  | handed h₁ _ => exact .handed h₁ ht
  | reading _ => exact absurd hi not_idle_critical
  | done _ => exact absurd hi not_idle_unlocking

theorem partyOf_even (n : ℕ) : partyOf (2 * n) = .T1 := by
  unfold partyOf
  rw [if_pos (by omega)]

theorem partyOf_odd (n : ℕ) : partyOf (2 * n + 1) = .T2 := by
  unfold partyOf
  rw [if_neg (by omega)]

theorem Phase.enter₁ (h : Phase 0 t₁ t₂ a b e) :
    Phase 1 .critical t₂ a b (e + 1) ∧ partyOf e = .T1 := by
  cases h with
  | free _ h₂ => exact ⟨.writing h₂, partyOf_even _⟩

theorem Phase.write (h : Phase l .critical t₂ a b e) : Phase l .unlocking t₂ (a + 1) b e := by
  cases h with
  | free h₁ _ | handed h₁ _ | reading h₁ | done h₁ => exact absurd h₁ not_idle_critical
  | writing h₂ => exact .written h₂

theorem Phase.hand (h : Phase l .unlocking t₂ a b e) : Phase 2 .spinning t₂ a b e := by
  cases h with
  | free h₁ _ | handed h₁ _ | reading h₁ | done h₁ => exact absurd h₁ not_idle_unlocking
  | written h₂ => exact .handed .spinning h₂

theorem Phase.enter₂ (h : Phase 2 t₁ t₂ a b e) :
    Phase 3 t₁ .critical a b (e + 1) ∧ partyOf e = .T2 := by
  cases h with
  | handed h₁ _ => exact ⟨.reading h₁, partyOf_odd _⟩

theorem Phase.read (h : Phase l t₁ .critical a b e) : Phase l t₁ .unlocking a (b + 1) e := by
  cases h with
  | free _ h₂ | writing h₂ | written h₂ | handed _ h₂ => exact absurd h₂ not_idle_critical
  | reading h₁ => exact .done h₁

theorem Phase.release (h : Phase l t₁ .unlocking a b e) : Phase 0 t₁ .spinning a b e := by
  cases h with
  | free _ h₂ | writing h₂ | written h₂ | handed _ h₂ => exact absurd h₂ not_idle_unlocking
  | @done _ n h₁ => exact .free (n := n + 1) h₁ .spinning

/-- T1 takes a step. -/
theorem Alternating.step₁ (h : Alternating C g f) {spurious : Bool}
    (hn : C.next .T1 spurious g (f .T1) = some (g', x)) :
    Alternating C g' (Function.update f .T1 x) := by
  have hself : Function.update f .T1 x .T1 = x := Function.update_self _ _ _
  have hother : Function.update f .T1 x .T2 = f .T2 := Function.update_of_ne (by decide) _ _
  have hphase := h.phase
  have hj := h.j₁
  cases hturn : (f .T1).turn with
  | spinning =>
    rw [hturn] at hphase
    simp only [next, hturn] at hn
    split at hn
    · cases hn
      refine ⟨?_, h.entries_eq, h.writes_eq, h.reads_eq, ?_, ?_⟩
      · rw [hself, hother]
        exact hphase.idle₁ .spinning (.inr rfl)
      · rw [hself]
        exact hj
      · rw [hother]
        exact h.j₂
    · unfold exchange at hn
      split at hn
      · next hlock =>
        cases hn
        rw [hlock.2] at hphase
        obtain ⟨hentered, hparty⟩ := hphase.enter₁
        refine ⟨?_, h.entries_eq.concat hparty.symm, h.writes_eq, h.reads_eq, ?_, ?_⟩
        · rw [hself, hother, List.length_append, List.length_singleton]
          exact hentered
        · rw [hself]
          exact hj
        · rw [hother]
          exact h.j₂
      · cases hn
        rw [Function.update_eq_self]
        exact h
  | critical =>
    rw [hturn] at hphase
    simp only [next, hturn] at hn
    obtain ⟨j, hadv, he⟩ := Option.map_eq_some_iff.mp hn
    cases he
    rw [hj] at hadv
    refine ⟨?_, h.entries_eq, h.writes_eq.concat hj, h.reads_eq, ?_, ?_⟩
    · rw [hself, hother, List.length_append, List.length_singleton]
      exact hphase.write
    · rw [hself, List.length_append, List.length_singleton]
      exact advance_cursor hadv
    · rw [hother]
      exact h.j₂
  | unlocking =>
    rw [hturn] at hphase
    simp only [next, hturn] at hn
    cases hn
    refine ⟨?_, h.entries_eq, h.writes_eq, h.reads_eq, ?_, ?_⟩
    · rw [hself, hother]
      exact hphase.hand
    · rw [hself]
      exact hj
    · rw [hother]
      exact h.j₂
  | finished =>
    simp only [next, hturn] at hn
    cases hn

/-- T2 takes a step. -/
theorem Alternating.step₂ (h : Alternating C g f) {spurious : Bool}
    (hn : C.next .T2 spurious g (f .T2) = some (g', x)) :
    Alternating C g' (Function.update f .T2 x) := by
  have hself : Function.update f .T2 x .T2 = x := Function.update_self _ _ _
  have hother : Function.update f .T2 x .T1 = f .T1 := Function.update_of_ne (by decide) _ _
  have hphase := h.phase
  have hj := h.j₂
  cases hturn : (f .T2).turn with
  | spinning =>
    rw [hturn] at hphase
    simp only [next, hturn] at hn
    split at hn
    · cases hn
      refine ⟨?_, h.entries_eq, h.writes_eq, h.reads_eq, ?_, ?_⟩
      · rw [hself, hother]
        exact hphase.idle₂ .spinning (.inr rfl)
      · rw [hother]
        exact h.j₁
      · rw [hself]
        exact hj
    · unfold exchange at hn
      split at hn
      · next hlock =>
        cases hn
        rw [hlock.2] at hphase
        obtain ⟨hentered, hparty⟩ := hphase.enter₂
        refine ⟨?_, h.entries_eq.concat hparty.symm, h.writes_eq, h.reads_eq, ?_, ?_⟩
        · rw [hself, hother, List.length_append, List.length_singleton]
          exact hentered
        · rw [hother]
          exact h.j₁
        · rw [hself]
          exact hj
      · cases hn
        rw [Function.update_eq_self]
        exact h
  | critical =>
    rw [hturn] at hphase
    simp only [next, hturn] at hn
    obtain ⟨r, hr, hn⟩ := Option.bind_eq_some_iff.mp hn
    obtain ⟨j, hadv, he⟩ := Option.map_eq_some_iff.mp hn
    cases he
    rw [hj] at hadv hr
    have hread : r = if C.readFlag = true then some (C.readAt g.reads.length) else none := by
      split at hr
      · next hflag =>
        obtain ⟨o, ho, rfl⟩ := Option.map_eq_some_iff.mp hr
        rw [if_pos hflag, readOffset_cursor ho]
      · next hflag =>
        rw [if_neg hflag]
        exact (Option.some.inj hr).symm
    refine ⟨?_, h.entries_eq, h.writes_eq, h.reads_eq.concat hread, ?_, ?_⟩
    · rw [hself, hother, List.length_append, List.length_singleton]
      exact hphase.read
    · rw [hother]
      exact h.j₁
    · rw [hself, List.length_append, List.length_singleton]
      exact advance_cursor hadv
  | unlocking =>
    rw [hturn] at hphase
    simp only [next, hturn] at hn
    cases hn
    refine ⟨?_, h.entries_eq, h.writes_eq, h.reads_eq, ?_, ?_⟩
    · rw [hself, hother]
      exact hphase.release
    · rw [hother]
      exact h.j₁
    · rw [hself]
      exact hj
  | finished =>
    simp only [next, hturn] at hn
    cases hn

theorem Alternating.step (h : Alternating C g f) {p : Party} {spurious : Bool}
    (hn : C.next p spurious g (f p) = some (g', x)) :
    Alternating C g' (Function.update f p x) := by
  cases p with
  | run =>
    have h₁ : Function.update f .run x .T1 = f .T1 := Function.update_of_ne (by decide) _ _
    have h₂ : Function.update f .run x .T2 = f .T2 := Function.update_of_ne (by decide) _ _
    cases hturn : (f .run).turn with
    | spinning =>
      simp only [next, hturn] at hn
      cases hn
      refine ⟨?_, h.entries_eq, h.writes_eq, h.reads_eq, ?_, ?_⟩
      · rw [h₁, h₂]
        exact h.phase
      · rw [h₁]
        exact h.j₁
      · rw [h₂]
        exact h.j₂
    | critical | unlocking | finished =>
      simp only [next, hturn] at hn
      cases hn
  | T1 => exact h.step₁ hn
  | T2 => exact h.step₂ hn

end Step

theorem alternating_of_reaches {d : Threads.Config Party Handshake PartyState}
    (h : Threads.Reaches C.next initial d) : Alternating C d.shared d.threads :=
  Threads.Reaches.invariant (P := fun g f => Alternating C g f) alternating_initial
    (fun _ _ _ _ _ _ hf hn => hf.step hn) h

/-! ### Lines -/

theorem sub_mod_of_le {n p d : ℕ} (hd : d ≤ n % p) : (n - d) % p = n % p - d := by
  have hsplit := Nat.div_add_mod n p
  have hsub : n - d = p * (n / p) + (n % p - d) := by omega
  rcases Nat.eq_zero_or_pos p with rfl | hp
  · simp only [Nat.mod_zero]
  · rw [hsub, Nat.mul_add_mod]
    exact Nat.mod_eq_of_lt (Nat.lt_of_le_of_lt (Nat.sub_le _ _) (Nat.mod_lt n hp))

theorem sub_mod_of_lt {n p d : ℕ} (hd : n % p < d) (hn : d ≤ n) (hp : d < p) :
    (n - d) % p = p + n % p - d := by
  have hsplit := Nat.div_add_mod n p
  obtain ⟨q, hq⟩ : ∃ q, n / p = q + 1 := by
    refine ⟨n / p - 1, ?_⟩
    have : 0 < n / p := by
      rw [Nat.pos_iff_ne_zero]
      intro h0
      rw [h0] at hsplit
      omega
    omega
  rw [hq, Nat.mul_succ] at hsplit
  have hsub : n - d = p * q + (p + n % p - d) := by omega
  rw [hsub, Nat.mul_add_mod]
  exact Nat.mod_eq_of_lt (by omega)

/-- In round `k` the address has not gone around behind the cursor, nor left 64 bits. -/
def Behind (C : Contention) (k : ℕ) : Prop :=
  C.distance ≤ k % C.period ∧ 64 * (k % C.period - C.distance) < C.wss ∧
    64 * (k % C.period - C.distance) + C.wss < 2 ^ 64

/-- The line that is read in round `k` is the one of the cursor in round `k - distance`. -/
theorem readAt_line_iff {k : ℕ} (hk : C.distance ≤ k) :
    C.readAt k / 64 = C.cursor (k - C.distance) / 64 ↔ C.Behind k := by
  have hge := C.wss_ge
  have hlt := C.wss_lt
  have hd := C.distance_le
  have hq := C.mod_period_lt k
  have hperiod : C.period = C.wss / 64 + 1 := rfl
  unfold Behind readAt cursor
  rw [Nat.mul_div_cancel_left _ (by decide)]
  rcases Nat.lt_or_ge (k % C.period) C.distance with hwrap | hin
  · -- the address goes around at `wss`, one line before the cursor does
    have hline := sub_mod_of_lt hwrap hk (by omega)
    have hsum : (64 * (k % C.period) + C.wss - C.distance * 64) % 2 ^ 64 % C.wss =
        C.wss - 64 * (C.distance - k % C.period) := by
      rw [Nat.mod_eq_of_lt (by omega), Nat.mod_eq_of_lt (by omega)]
      omega
    rw [hsum, hline]
    constructor
    · intro h
      omega
    · rintro ⟨h, -, -⟩
      omega
  · have hline := sub_mod_of_le hin
    have hsum : 64 * (k % C.period) + C.wss - C.distance * 64 =
        64 * (k % C.period - C.distance) + C.wss := by omega
    rw [hline, hsum]
    rcases Nat.lt_or_ge (64 * (k % C.period - C.distance) + C.wss) (2 ^ 64) with h64 | h64
    · rw [Nat.mod_eq_of_lt h64, Nat.add_mod_right]
      rcases Nat.lt_or_ge (64 * (k % C.period - C.distance)) C.wss with hw | hw
      · rw [Nat.mod_eq_of_lt hw, Nat.mul_div_cancel_left _ (by decide)]
        exact ⟨fun _ => ⟨hin, hw, h64⟩, fun _ => rfl⟩
      · have hall : 64 * (k % C.period - C.distance) = C.wss := by omega
        rw [hall, Nat.mod_self]
        constructor
        · intro h
          omega
        · rintro ⟨-, h, -⟩
          omega
    · have hover : (64 * (k % C.period - C.distance) + C.wss) % 2 ^ 64 =
          64 * (k % C.period - C.distance) + C.wss - 2 ^ 64 := by omega
      rw [hover, Nat.mod_eq_of_lt (by omega)]
      constructor
      · intro h
        omega
      · rintro ⟨-, -, h⟩
        omega

/-! ### Runs -/

def Inside (t : Turn) : Prop := t = .critical ∨ t = .unlocking

/-- What the test is said to do, of the rounds so far. -/
structure KeepsDistance (C : Contention) (g : Handshake) (f : Party → PartyState) : Prop where
  alternate : ∀ i p, g.entries[i]? = some p → p = partyOf i
  exclusive : ¬ (Inside (f .T1).turn ∧ Inside (f .T2).turn)
  writes_lt : ∀ (k : ℕ) (o : ℤ), g.writes[k]? = some o → 0 ≤ o ∧ o < C.wss
  reads_lt : ∀ (k o : ℕ), g.reads[k]? = some (some o) → o < C.wss
  behind : ∀ (k o : ℕ), g.reads[k]? = some (some o) → C.distance ≤ k →
    ∃ o' : ℤ, g.writes[k - C.distance]? = some o' ∧ (o : ℤ) / 64 = o' / 64

variable {g : Handshake} {f : Party → PartyState}

theorem Phase.exclusive {l a b e : ℕ} {t₁ t₂ : Turn} (h : Phase l t₁ t₂ a b e) :
    ¬ (Inside t₁ ∧ Inside t₂) := by
  have hidle : ∀ t, Idle t → ¬ Inside t := by
    rintro t (rfl | rfl) (h | h) <;> cases h
  rintro ⟨h₁, h₂⟩
  cases h with
  | free hi _ | handed hi _ | reading hi | done hi => exact hidle _ hi h₁
  | writing hi | written hi => exact hidle _ hi h₂

theorem Phase.reads_le {l a b e : ℕ} {t₁ t₂ : Turn} (h : Phase l t₁ t₂ a b e) : b ≤ a := by
  cases h <;> omega

theorem Alternating.write_eq (h : Alternating C g f) {k : ℕ} (hk : k < g.writes.length) :
    g.writes[k]? = some (C.cursor k : ℤ) := by
  rw [List.getElem?_eq_getElem hk, h.writes_eq k _ (List.getElem?_eq_getElem hk)]

theorem Alternating.read_eq (h : Alternating C g f) (hflag : C.readFlag = true) {k : ℕ}
    (hk : k < g.reads.length) : g.reads[k]? = some (some (C.readAt k)) := by
  rw [List.getElem?_eq_getElem hk, h.reads_eq k _ (List.getElem?_eq_getElem hk)]
  exact congrArg some (if_pos hflag)

theorem Alternating.readAt_of_read (h : Alternating C g f) {k o : ℕ}
    (ho : g.reads[k]? = some (some o)) :
    C.readFlag = true ∧ o = C.readAt k ∧ k < g.reads.length := by
  have hread := h.reads_eq k _ ho
  split at hread
  · next hflag =>
    obtain ⟨hk, -⟩ := List.getElem?_eq_some_iff.mp ho
    exact ⟨hflag, Option.some.inj hread, hk⟩
  · cases hread

theorem Alternating.keeps_iff (h : Alternating C g f) :
    C.KeepsDistance g f ↔
      (∀ k < g.writes.length, 64 * (k % C.period) < C.wss) ∧
      (C.readFlag = true → ∀ k < g.reads.length, C.distance ≤ k → C.Behind k) := by
  have hle := h.phase.reads_le
  have hline : ∀ k, ((C.readAt k : ℤ) / 64 = (C.cursor (k - C.distance) : ℤ) / 64) ↔
      C.readAt k / 64 = C.cursor (k - C.distance) / 64 := by
    intro k
    omega
  constructor
  · intro hkeep
    constructor
    · intro k hk
      have := (hkeep.writes_lt k _ (h.write_eq hk)).2
      unfold cursor at this
      omega
    · intro hflag k hk hdist
      obtain ⟨o', ho', heq⟩ := hkeep.behind k _ (h.read_eq hflag hk) hdist
      rw [h.write_eq (by omega), Option.some.injEq] at ho'
      rw [← ho', hline] at heq
      exact (readAt_line_iff hdist).mp heq
  · rintro ⟨hwrites, hreads⟩
    refine ⟨h.entries_eq, h.phase.exclusive, ?_, ?_, ?_⟩
    · intro k o ho
      obtain ⟨hk, -⟩ := List.getElem?_eq_some_iff.mp ho
      have hlt := hwrites k hk
      rw [h.write_eq hk, Option.some.injEq] at ho
      rw [← ho]
      unfold cursor
      omega
    · intro k o ho
      obtain ⟨-, rfl, -⟩ := h.readAt_of_read ho
      have := C.wss_ge
      exact Nat.mod_lt _ (by omega)
    · intro k o ho hdist
      obtain ⟨hflag, rfl, hk⟩ := h.readAt_of_read ho
      refine ⟨_, h.write_eq (by omega), ?_⟩
      rw [hline]
      exact (readAt_line_iff hdist).mpr (hreads hflag k hk hdist)

/-- In every run the test keeps its distance exactly as long as the cursor of T1 was below
`wss` in every round and the address of T2 has not gone around. -/
theorem keepsDistance_iff (C : Contention) (d : Threads.Config Party Handshake PartyState)
    (h : Threads.Reaches C.next initial d) :
    C.KeepsDistance d.shared d.threads ↔
      (∀ k < d.shared.writes.length, 64 * (k % C.period) < C.wss) ∧
      (C.readFlag = true → ∀ k < d.shared.reads.length, C.distance ≤ k → C.Behind k) :=
  (alternating_of_reaches h).keeps_iff

/-- The cursors are at 0 and 64 in turn. -/
def hundred : Contention where
  wss := 100
  distance := 1
  readFlag := true
  wss_ge := by decide
  wss_lt := by decide
  distance_le := by decide

/-- Three rounds of both threads. -/
def threeRounds : List (Party × Bool) :=
  (List.replicate 3 [.T1, .T1, .T1, .T2, .T2, .T2]).flatten.map fun p => (p, false)

theorem threeRounds_accesses :
    (Threads.schedule hundred.next threeRounds initial).map
      (fun d => (d.shared.writes, d.shared.reads)) =
      some ([0, 64, 0], [some 36, some 0, some 36]) := by
  decide +kernel

theorem keepsDistance_iff_hundred :
    ∃ d, Threads.Reaches hundred.next initial d ∧
      (hundred.KeepsDistance d.shared d.threads ↔
        (∀ k < d.shared.writes.length, 64 * (k % hundred.period) < hundred.wss) ∧
        (hundred.readFlag = true → ∀ k < d.shared.reads.length, hundred.distance ≤ k →
          hundred.Behind k)) := by
  obtain ⟨d, hd, -⟩ := Option.map_eq_some_iff.mp threeRounds_accesses
  exact ⟨d, Threads.schedule_reaches hd, keepsDistance_iff hundred d (Threads.schedule_reaches hd)⟩

/-- In its third round T2 reads the line that T1 wrote in round 0, not the one of round 1. -/
theorem hundred_loses_distance :
    ¬ ∀ d, Threads.Reaches hundred.next initial d → hundred.KeepsDistance d.shared d.threads := by
  intro hall
  obtain ⟨d, hd, hacc⟩ := Option.map_eq_some_iff.mp threeRounds_accesses
  obtain ⟨hwrites, hreads⟩ := Prod.mk.inj hacc
  have hread : d.shared.reads[2]? = some (some 36) := by rw [hreads]; rfl
  obtain ⟨o, ho, heq⟩ := (hall d (Threads.schedule_reaches hd)).behind 2 36 hread (by decide)
  rw [hwrites] at ho
  cases ho
  exact absurd heq (by decide)

end Contention

end PmemStudy.Micro
