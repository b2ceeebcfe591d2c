import PmemStudy.Cceh.Insertions
import PmemStudy.Lib.Displacement

/-!
# Displacement of `Insert` with `CUCKOO`

`find_path` follows a chain of slots: the pair of each slot would move to the slot
with the same offset in its other window. A path of 16 steps is given up; a shorter
one ends at a slot that is not live, and never comes back to a slot.
-/

namespace PmemStudy.Cceh
open PmemStudy.Displacement

def kCuckooThreshold : ℕ := 16

/-- The entries of a path: a slot and the key it holds. -/
abbrev Path := List (Slot × Key)

namespace Segment

/-- The inner loop of `find_path`: the slot that the pair at `cur` would move to. -/
def otherSlot (H : HashFuncs) (s : Segment) (cur : Slot) : Option Slot :=
  let key := (s.bucket cur).key
  (List.range (kNumPairPerCacheLine * kNumCacheLine)).findSome? fun j =>
    let f_idx := slotAt (windowIdx (H.f key)) j
    let s_idx := slotAt (windowIdx (H.s key)) j
    if f_idx = cur then some s_idx else if s_idx = cur then some f_idx else none

/-- The loop of `find_path` with `n` iterations left: the path and what is left of `n`. -/
def findPathFrom (H : HashFuncs) (s : Segment) (pattern : ℕ) : ℕ → Slot → Path → Path × ℕ
  | 0, _, path => (path, 0)
  | n + 1, cur, path =>
    let key := (s.bucket cur).key
    if topBits (H.f key) s.localDepth ≠ pattern ∨ key = INVALID then (path, n + 1)
    else match s.otherSlot H cur with
      | some next => findPathFrom H s pattern n next (path ++ [(next, (s.bucket next).key)])
      | none => findPathFrom H s pattern n cur path

/-- `find_path(target, pattern)` -/
def findPath (H : HashFuncs) (s : Segment) (target : Slot) (pattern : ℕ) : Path :=
  let r := s.findPathFrom H pattern kCuckooThreshold target [(target, (s.bucket target).key)]
  if r.2 = 0 then [] else r.1

/-- The loop of `execute_path` from index `i` down to 1. -/
def shiftPath (path : Path) : ℕ → Segment → Segment
  | 0, s => s
  | i + 1, s =>
    match path[i + 1]?, path[i]? with
    | some p, some q => shiftPath path i (s.setPair p.1 (s.bucket q.1))
    | _, _ => s

/-- `execute_path(pop, path, key, value)` -/
def executePath (path : Path) (key : Key) (value : Value) (s : Segment) : Segment :=
  match path[0]? with
  | some p => (shiftPath path (path.length - 1) s).setPair p.1 ⟨key, value⟩
  | none => s

/-- The path that `Insert` takes. -/
def choosePath (path1 path2 : Path) : Path :=
  if path1.length = 0 ∨ path2.length ≠ 0 ∧ path2.length < path1.length ∨
    path2.length ≠ 0 ∧ path1[0]?.map Prod.snd = some INVALID then path2 else path1

/-- The branch of `Insert` after `suspend()`; without a path it goes on to split. -/
def cuckoo (H : HashFuncs) (s : Segment) (key : Key) (value : Value) : Option Segment :=
  let pattern := topBits (H.f key) s.localDepth
  let path1 := s.findPath H (slotAt (windowIdx (H.f key)) 0) pattern
  let path2 := s.findPath H (slotAt (windowIdx (H.s key)) 0) pattern
  if path1.length ≠ 0 ∨ path2.length ≠ 0 then
    some ((executePath (choosePath path1 path2) key value s).withSema 0)
  else none

variable {H : HashFuncs} {s : Segment} {pattern : ℕ}

/-! ### The path -/

theorem otherSlot_of_mem {cur : Slot} (h : cur ∈ windows H (s.bucket cur).key) :
    ∃ next, s.otherSlot H cur = some next ∧ next ∈ windows H (s.bucket cur).key := by
  have hwin : ∀ loc : ℕ, ∀ j < kNumPairPerCacheLine * kNumCacheLine, slotAt loc j ∈ window loc :=
    fun loc j hj => List.mem_map.mpr ⟨j, List.mem_range.mpr hj, rfl⟩
  cases ho : s.otherSlot H cur with
  | none =>
    have hnone := List.findSome?_eq_none_iff.mp ho
    rcases List.mem_append.mp h with hc | hc
    · obtain ⟨j, hj, he⟩ := List.mem_map.mp hc
      have hx := hnone j hj
      dsimp only at hx
      rw [if_pos he] at hx
      cases hx
    · obtain ⟨j, hj, he⟩ := List.mem_map.mp hc
      have hx := hnone j hj
      dsimp only at hx
      rw [if_pos he] at hx
      split at hx <;> cases hx
  | some next =>
    refine ⟨next, rfl, ?_⟩
    obtain ⟨j, hj, hx⟩ := List.exists_of_findSome?_eq_some ho
    have hj' := List.mem_range.mp hj
    dsimp only at hx
    split at hx
    · rw [← Option.some.inj hx]
      exact List.mem_append_right _ (hwin _ j hj')
    · split at hx
      · rw [← Option.some.inj hx]
        exact List.mem_append_left _ (hwin _ j hj')
      · cases hx

/-- Where the pair at a slot moves to. -/
def nextSlot (H : HashFuncs) (s : Segment) (cur : Slot) : Slot := (s.otherSlot H cur).getD cur

theorem live_iff (cur : Slot) : s.Live H pattern cur ↔
    ¬ (topBits (H.f (s.bucket cur).key) s.localDepth ≠ pattern ∨ (s.bucket cur).key = INVALID) := by
  unfold Live Occupied
  tauto

/-- With an iteration left the loop has found a walk. -/
theorem findPathFrom_walk (hseated : ∀ c, s.Live H pattern c → c ∈ windows H (s.bucket c).key)
    (n : ℕ) (cur : Slot) (path : Path) (hleft : (s.findPathFrom H pattern n cur path).2 ≠ 0) :
    ∃ rest, Walk (s.Live H pattern) (s.nextSlot H) cur (cur :: rest) ∧
      (s.findPathFrom H pattern n cur path).1 = path ++ rest.map fun c => (c, (s.bucket c).key) := by
  induction n generalizing cur path with
  | zero => exact absurd rfl hleft
  | succ n ih =>
    by_cases hstop : topBits (H.f (s.bucket cur).key) s.localDepth ≠ pattern ∨
        (s.bucket cur).key = INVALID
    · refine ⟨[], .stop cur (fun hl => (live_iff cur).mp hl hstop), ?_⟩
      simp only [findPathFrom, if_pos hstop, List.map_nil, List.append_nil]
    · have hlive := (live_iff cur).mpr hstop
      obtain ⟨next, ho, _⟩ := otherSlot_of_mem (hseated cur hlive)
      have hnext : s.nextSlot H cur = next := by
        rw [nextSlot, ho]
        rfl
      simp only [findPathFrom, if_neg hstop, ho] at hleft ⊢
      obtain ⟨rest, hwalk, he⟩ := ih next _ hleft
      refine ⟨next :: rest, .step cur _ hlive (by rw [hnext]; exact hwalk), ?_⟩
      rw [he, List.map_cons, List.append_assoc, List.singleton_append]

theorem findPath_walk (hseated : ∀ c, s.Live H pattern c → c ∈ windows H (s.bucket c).key)
    {target : Slot} (hne : s.findPath H target pattern ≠ []) :
    ∃ slots, Walk (s.Live H pattern) (s.nextSlot H) target slots ∧
      s.findPath H target pattern = slots.map fun c => (c, (s.bucket c).key) := by
  have hleft : (s.findPathFrom H pattern kCuckooThreshold target
      [(target, (s.bucket target).key)]).2 ≠ 0 := by
    intro h0
    exact hne (if_pos h0)
  obtain ⟨rest, hwalk, he⟩ := findPathFrom_walk hseated _ _ _ hleft
  refine ⟨target :: rest, hwalk, ?_⟩
  have hpath : s.findPath H target pattern = _ := if_neg hleft
  rw [hpath, he, List.map_cons, List.singleton_append]

/-! ### The moves -/

theorem shiftPath_bucket {slots : List Slot} {g : Slot → Key} (hnodup : slots.Nodup) (k : ℕ)
    (hk : k < slots.length) (s : Segment) :
    (∀ m (h : m < k), (shiftPath (slots.map fun c => (c, g c)) k s).bucket
      (slots[m + 1]) = s.bucket slots[m]) ∧
    ∀ c, (∀ m (h : m < k), c ≠ slots[m + 1]) →
      (shiftPath (slots.map fun c => (c, g c)) k s).bucket c = s.bucket c := by
  induction k generalizing s with
  | zero => exact ⟨fun m h => absurd h (Nat.not_lt_zero m), fun _ _ => rfl⟩
  | succ k ih =>
    obtain ⟨hmoved, hother⟩ := ih (by omega) (s.setPair slots[k + 1] (s.bucket slots[k]))
    have hstep : shiftPath (slots.map fun c => (c, g c)) (k + 1) s =
        shiftPath (slots.map fun c => (c, g c)) k
          (s.setPair slots[k + 1] (s.bucket slots[k])) := by
      have h1 : (slots.map fun c => (c, g c))[k + 1]? = some (slots[k + 1], g slots[k + 1]) := by
        rw [List.getElem?_map, List.getElem?_eq_getElem hk]
        rfl
      have h0 : (slots.map fun c => (c, g c))[k]? = some (slots[k], g slots[k]) := by
        rw [List.getElem?_map, List.getElem?_eq_getElem (by omega)]
        rfl
      simp only [shiftPath, h1, h0]
    have hne : ∀ m (h : m < k + 1), slots[m] ≠ slots[k + 1] := by
      intro m h he
      have := (hnodup.getElem_inj_iff).mp he
      omega
    rw [hstep]
    constructor
    · intro m h
      by_cases hm : m = k
      · subst m
        rw [hother slots[k + 1], setPair_self]
        intro m h' he
        have := (hnodup.getElem_inj_iff).mp he
        omega
      · rw [hmoved m (by omega), setPair_of_ne _ _ _ _ (hne m h)]
    · intro c hc
      rw [hother c (fun m h => hc m (by omega)), setPair_of_ne _ _ _ _ (hc k (by omega))]

theorem executePath_displaced {slots : List Slot} {k : Slot → Key} (hnodup : slots.Nodup)
    (hlen : 0 < slots.length) (key : Key) (value : Value) (s : Segment) :
    Displaced s.bucket (executePath (slots.map fun c => (c, k c)) key value s).bucket slots
      ⟨key, value⟩ := by
  have hhead : (slots.map fun c => (c, k c))[0]? = some (slots[0], k slots[0]) := by
    rw [List.getElem?_map, List.getElem?_eq_getElem hlen]
    rfl
  have hexec : executePath (slots.map fun c => (c, k c)) key value s =
      (shiftPath (slots.map fun c => (c, k c)) (slots.length - 1) s).setPair slots[0]
        ⟨key, value⟩ := by
    simp only [executePath, hhead, List.length_map]
  obtain ⟨hmoved, hother⟩ := shiftPath_bucket (g := k) hnodup (slots.length - 1) (by omega) s
  rw [hexec]
  constructor
  · intro c hc
    rw [List.getElem?_eq_getElem hlen] at hc
    rw [← Option.some.inj hc, setPair_self]
  · intro m hm
    have hne : slots[m + 1] ≠ slots[0] := by
      intro he
      have := (hnodup.getElem_inj_iff).mp he
      omega
    rw [setPair_of_ne _ _ _ _ hne, hmoved m (by omega)]
  · intro c hc
    have hne : c ≠ slots[0] := fun he => hc (he ▸ List.getElem_mem _)
    rw [setPair_of_ne _ _ _ _ hne]
    exact hother c fun m _ he => hc (he ▸ List.getElem_mem _)

/-! ### `Insert` along the path -/

/-- The pair is in one slot of its windows and its key in no other slot. -/
def StoredOnce (H : HashFuncs) (s : Segment) (p : Pair) : Prop :=
  ∃ c ∈ windows H p.key, s.bucket c = p ∧ ∀ c', (s.bucket c').key = p.key → c' = c

/-- Shifting the pairs of a walk by one slot keeps the live ones in their windows. -/
theorem storedOnce_of_displaced {s' : Segment} {slots : List Slot} {target : Slot} {p : Pair}
    (hlive : ∀ c, s.Live H pattern c → s.StoredOnce H (s.bucket c))
    (hnew : ∀ c, s.Live H pattern c → (s.bucket c).key ≠ p.key)
    (hw : Walk (s.Live H pattern) (s.nextSlot H) target slots)
    (h : Displaced s.bucket s'.bucket slots p) (c : Slot) (hc : s.Live H pattern c) :
    s'.StoredOnce H (s.bucket c) := by
  obtain ⟨c₀, hmem, he, hone⟩ := hlive c hc
  have hself := hone c rfl
  subst hself
  have hone' := h.once Pair.key hw hc (fun e => hone e) (hnew c hc).symm
  rcases h.kept hw hc with ⟨hout, hsame⟩ | ⟨hin, hmoved⟩
  · refine ⟨c, hmem, hsame, fun c' hk => ?_⟩
    rcases hone' c' hk with ⟨_, he'⟩ | ⟨hin, _⟩
    · exact he'
    · exact absurd hin hout
  · obtain ⟨next, ho, hnext⟩ := otherSlot_of_mem hmem
    have hn : s.nextSlot H c = next := by
      unfold nextSlot
      rw [ho]
      rfl
    rw [hn] at hmoved hone'
    refine ⟨next, hnext, hmoved, fun c' hk => ?_⟩
    rcases hone' c' hk with ⟨hout, _⟩ | ⟨_, he'⟩
    · exact absurd hin hout
    · exact he'

theorem choosePath_or (path1 path2 : Path) (h : path1 ≠ [] ∨ path2 ≠ []) :
    (choosePath path1 path2 = path1 ∧ path1 ≠ []) ∨
      (choosePath path1 path2 = path2 ∧ path2 ≠ []) := by
  have hlen : ∀ path : Path, path.length ≠ 0 ↔ path ≠ [] := fun path =>
    not_congr List.length_eq_zero_iff
  unfold choosePath
  split
  · rename_i hc
    refine Or.inr ⟨rfl, ?_⟩
    rcases hc with h1 | h2 | h3
    · exact h.resolve_left (not_not.mpr (List.length_eq_zero_iff.mp h1))
    · exact (hlen path2).mp h2.1
    · exact (hlen path2).mp h3.1
  · rename_i hc
    exact Or.inl ⟨rfl, (hlen path1).mp fun h1 => hc (Or.inl h1)⟩

/-- With a path `Insert` keeps every live pair and stores the new one, whether its windows
are full or not. -/
theorem cuckoo_keeps (H : HashFuncs) (s : Segment) (key : Key) (value : Value)
    (hlive : ∀ c, s.Live H (topBits (H.f key) s.localDepth) c → s.StoredOnce H (s.bucket c))
    (hnew : ∀ c, s.Live H (topBits (H.f key) s.localDepth) c → (s.bucket c).key ≠ key)
    (hpath : s.findPath H (slotAt (windowIdx (H.f key)) 0) (topBits (H.f key) s.localDepth) ≠ [] ∨
      s.findPath H (slotAt (windowIdx (H.s key)) 0) (topBits (H.f key) s.localDepth) ≠ []) :
    ∃ s', s.cuckoo H key value = some s' ∧
      (∀ c, s.Live H (topBits (H.f key) s.localDepth) c → s'.StoredOnce H (s.bucket c)) ∧
      ∃ c ∈ windows H key, s'.bucket c = ⟨key, value⟩ := by
  have hseated : ∀ c, s.Live H (topBits (H.f key) s.localDepth) c →
      c ∈ windows H (s.bucket c).key := by
    intro c hc
    obtain ⟨c₀, hmem, _, hone⟩ := hlive c hc
    have hself := hone c rfl
    subst hself
    exact hmem
  -- the chosen path is a walk from a slot of the new key
  have hchosen : ∃ target ∈ windows H key, ∃ slots,
      Walk (s.Live H (topBits (H.f key) s.localDepth)) (s.nextSlot H) target slots ∧
      choosePath (s.findPath H (slotAt (windowIdx (H.f key)) 0) (topBits (H.f key) s.localDepth))
        (s.findPath H (slotAt (windowIdx (H.s key)) 0) (topBits (H.f key) s.localDepth)) =
          slots.map fun c => (c, (s.bucket c).key) := by
    have hfirst : ∀ loc, slotAt loc 0 ∈ window loc := fun loc =>
      List.mem_map.mpr ⟨0, List.mem_range.mpr (by decide), rfl⟩
    rcases choosePath_or _ _ hpath with ⟨he, hne⟩ | ⟨he, hne⟩
    · obtain ⟨slots, hw, hs⟩ := findPath_walk hseated hne
      exact ⟨_, List.mem_append_left _ (hfirst _), slots, hw, he.trans hs⟩
    · obtain ⟨slots, hw, hs⟩ := findPath_walk hseated hne
      exact ⟨_, List.mem_append_right _ (hfirst _), slots, hw, he.trans hs⟩
  obtain ⟨target, htarget, slots, hw, hs⟩ := hchosen
  obtain ⟨hlen, hhead⟩ := List.getElem?_eq_some_iff.mp hw.head
  have hmoved := executePath_displaced (k := fun c => (s.bucket c).key) hw.nodup hlen key value s
  refine ⟨_, if_pos ?_, ?_, target, htarget, ?_⟩
  · simp only [ne_eq, List.length_eq_zero_iff]
    exact hpath
  · rw [hs]
    exact storedOnce_of_displaced hlive hnew hw hmoved
  · rw [hs]
    exact hmoved.first target hw.head

/-- Slots 0 to 31 hold the keys 1 to 32, the rest is empty. -/
def fullWindow : Segment where
  bucket c := if c.val < 32 then ⟨BitVec.ofNat 64 (c.val + 1), 1⟩ else ⟨INVALID, 0⟩
  sema := -1
  localDepth := 1

/-- Every key has its first window at slot 0; key 0 also has its second one there, all
other keys have it at slot 32. -/
def fullHash : HashFuncs where
  f _ := 0
  s key := if key = 0 then 0 else 8

theorem fullWindow_key (i : ℕ) (hi : i < 32) :
    BitVec.ofNat 64 (i + 1) ≠ INVALID ∧ BitVec.ofNat 64 (i + 1) ≠ 0 := by
  have hi' := ofNat_toNat (i + 1) (by omega)
  refine ⟨(ofNat_valid (i + 1) (by omega)).1, fun he => ?_⟩
  rw [he] at hi'
  have h0 : (0 : BitVec 64).toNat = 0 := rfl
  omega

theorem fullWindow_taken (c : Slot) (hc : c.val < 32) :
    fullWindow.bucket c = ⟨BitVec.ofNat 64 (c.val + 1), 1⟩ := if_pos hc

theorem fullWindow_free (c : Slot) (hc : ¬ c.val < 32) : fullWindow.bucket c = ⟨INVALID, 0⟩ :=
  if_neg hc

theorem fullWindow_live (c : Slot) : fullWindow.Live fullHash 0 c ↔ c.val < 32 := by
  have htop : topBits 0 1 = 0 := by decide
  constructor
  · rintro ⟨ho, _⟩
    by_contra hn
    rw [Occupied, fullWindow_free c hn] at ho
    exact ho rfl
  · intro hc
    refine ⟨?_, htop⟩
    rw [Occupied, fullWindow_taken c hc]
    exact (fullWindow_key c.val hc).1

theorem fullWindow_storedOnce (c : Slot) (hc : c.val < 32) :
    fullWindow.StoredOnce fullHash (fullWindow.bucket c) := by
  refine ⟨c, ?_, rfl, ?_⟩
  · refine List.mem_append_left _ ((mem_window_iff _ c).mpr ⟨c.val, hc, ?_⟩)
    have h0 : windowIdx 0 = 0 := by decide
    change c = slotAt (windowIdx 0) c.val
    rw [h0]
    refine Fin.ext ?_
    rw [slotAt_val 0 c.val (by omega), Nat.zero_add]
  · intro c' hk
    by_cases hc' : c'.val < 32
    · rw [fullWindow_taken c hc, fullWindow_taken c' hc'] at hk
      have he := ofNat_ne _ _ (by omega) (by omega) hk
      exact Fin.ext (by omega)
    · rw [fullWindow_taken c hc, fullWindow_free c' hc'] at hk
      exact absurd hk.symm (fullWindow_key c.val hc).1

theorem cuckoo_keeps_full : ∃ s', fullWindow.cuckoo fullHash 0 7 = some s' ∧
    (∀ c, fullWindow.Live fullHash 0 c → s'.StoredOnce fullHash (fullWindow.bucket c)) ∧
    ∃ c ∈ windows fullHash 0, s'.bucket c = ⟨0, 7⟩ := by
  refine cuckoo_keeps fullHash fullWindow 0 7 ?_ ?_ ?_
  · exact fun c hc => fullWindow_storedOnce c ((fullWindow_live c).mp hc)
  · intro c hc
    have hlt := (fullWindow_live c).mp hc
    rw [fullWindow_taken c hlt]
    exact (fullWindow_key c.val hlt).2
  · exact Or.inl (by decide +kernel)

end Segment

end PmemStudy.Cceh
