import PmemStudy.FastFair.InsertKey

/-!
# insert_key with RAP_MOD

The loop does not shift record by record: records that do not start a cache
line go through a buffer, and the buffer is written back after the next record
that does start one has been overwritten. In between that record is nowhere in
the page if it held an entry.
-/

namespace PmemStudy.FastFair
open PmemStudy.Slots PmemStudy.Trace

/-- An entry of the side buffer with the record it is for. -/
structure ClBufferEntry where
  data : Entry
  address : ℕ

/-- `((uint64_t)(records + i) & 0x3f) == 0` in a 64-byte aligned page; the
header takes 32 bytes. -/
def lineAligned (i : ℕ) : Prop := (32 + 16 * i) % 64 = 0

instance (i : ℕ) : Decidable (lineAligned i) := inferInstanceAs (Decidable (_ = _))

namespace Page

/-- The buffered entries go to their records; `max_cl` becomes 0. -/
def writeBack (buf : List ClBufferEntry) : List PageStore :=
  buf.map fun b => .record b.address b.data

/-- The loop for `i` and the part after it, as in `fastLoop`; `buf` are the
first `max_cl` entries of the buffer. A record that starts a line has
`remainder == 0`, so `do_flush` holds. -/
def rapLoop (p : Page) (key : ℤ) (ptr : ℕ) (flush : Bool) : ℕ → List ClBufferEntry →
    List PageStore
  | 0, buf => writeBack buf ++ [.ptr 0 (p.run (writeBack buf)).leftmostPtr, .key 0 key, .ptr 0 ptr]
  | i + 1, buf =>
    if key < (p.records i).key then
      if ¬ lineAligned (i + 1) then rapLoop p key ptr flush i (buf ++ [⟨p.records i, i + 1⟩])
      else
        let direct := .record (i + 1) (p.records i)
        let back := if flush then writeBack buf else []
        (direct :: back) ++
          rapLoop (p.run (direct :: back)) key ptr flush i (if flush then [] else buf)
    else
      writeBack buf ++
        [.ptr (i + 1) ((p.run (writeBack buf)).records i).ptr, .key (i + 1) key, .ptr (i + 1) ptr]

def insertKeyRap (p : Page) (key : ℤ) (ptr : ℕ) (num : ℕ) (flush : Bool) : List PageStore :=
  insertKeyWith (fun q => rapLoop q key ptr flush num []) p key ptr num

end Page

/-! ### The records to the right of the gap have moved -/

/-- Everything from `c` on has been copied one place to the right; record `c`
still has its entry. -/
structure Ready (p : Page) (es : List Entry) (c : ℕ) : Prop extends Shifted p es c where
  gap : ∀ h : c < es.length, p.records c = es[c]
  tail : c = es.length → (p.records c).ptr = NULL

theorem Ready.shows {p : Page} {es : List Entry} {c : ℕ} (h : Ready p es c) (hne : es ≠ [])
    (hf : isForward p.switchCounter) : Shows p es := by
  rcases Nat.lt_or_ge c es.length with hlt | hge
  · have hs : Shifted p es (c + 1) := by
      refine ⟨hlt, h.fits, ?_, fun i hi hc => h.right i hi (by omega), h.live, h.terminator⟩
      intro i hi hc
      by_cases he : i = c
      · subst i
        exact h.gap hi
      · exact h.left i hi (by omega)
    refine hs.shows ?_ hf
    rw [h.right c hlt (Nat.le_refl _), before_succ _ _ _ hlt]
  · have hc : c = es.length := by
      have := h.le
      omega
    have hp : Plain p es := by
      refine ⟨by have := h.fits; omega, fun i hi => h.left i hi (by omega), h.live, ?_,
        fun hnil => absurd hnil hne⟩
      rw [← hc]
      exact h.tail hc
    exact hp.shows_forward hf (fun hnil => absurd hnil hne)

theorem Ready.serves {p : Page} {es : List Entry} {c : ℕ} (h : Ready p es c) (hne : es ≠ [])
    (hi : Increasing es) (hf : isForward p.switchCounter) : Serves p es := by
  refine ⟨h.shows hne hf, ?_⟩
  have hpos := List.length_pos_of_ne_nil hne
  have h0 : p.records 0 = es[0] := by
    by_cases hc : c = 0
    · subst c
      exact h.gap hpos
    · exact h.left 0 hpos (by omega)
  intro b hb
  obtain ⟨i, hi', rfl⟩ := List.getElem_of_mem hb
  rw [h0]
  by_cases hz : i = 0
  · subst i
    exact le_refl _
  · exact (List.pairwise_iff_getElem.mp hi 0 i hpos hi' (by omega)).le

theorem Ready.write {p : Page} {es : List Entry} {d : ℕ} (h : Ready p es (d + 1))
    (hd : d < es.length) : Ready (p.setRecord (d + 1) es[d]) es d := by
  have hs := (h.toShifted.setGap es[d]).down (fun _ => by rw [Page.records_setRecord, if_pos rfl])
  refine ⟨hs, ?_, fun hc => absurd hc (by omega)⟩
  intro _
  rw [Page.records_setRecord, if_neg (by omega)]
  exact h.left d hd (by omega)

/-- Record `d + 1` is overwritten while its entry is only in the buffer. -/
theorem Ready.overwrite {p : Page} {es : List Entry} {d c : ℕ} (h : Ready p es c)
    (hdc : d + 1 < c) (hd : d < es.length) :
    Ready (p.setRecord (d + 1) es[d]) (es.set (d + 1) es[d]) c := by
  have hlen : (es.set (d + 1) es[d]).length = es.length := List.length_set
  refine ⟨⟨by rw [hlen]; exact h.le, by rw [hlen]; exact h.fits, ?_, ?_, ?_, ?_⟩, ?_, ?_⟩
  · intro i hi hic
    rw [Page.records_setRecord, List.getElem_set]
    by_cases he : i = d + 1
    · rw [if_pos he, if_pos he.symm]
    · rw [if_neg he, if_neg (fun hc => he hc.symm)]
      exact h.left i (by omega) hic
  · intro i hi hic
    rw [Page.records_setRecord, if_neg (by omega), List.getElem_set, if_neg (by omega)]
    exact h.right i (by omega) hic
  · intro b hb
    rcases List.mem_or_eq_of_mem_set hb with hb | rfl
    · exact h.live b hb
    · exact h.live _ (List.getElem_mem _)
  · rw [hlen, Page.records_setRecord, if_neg (by have := h.le; omega)]
    exact h.terminator
  · intro hc
    rw [Page.records_setRecord, if_neg (by omega), List.getElem_set, if_neg (by omega)]
    exact h.gap (by omega)
  · intro hc
    rw [Page.records_setRecord, if_neg (by omega)]
    exact h.tail (by omega)

/-- The buffered entry comes back behind the record that replaced it. -/
theorem Ready.restore {p : Page} {es : List Entry} {d : ℕ} (hd : d < es.length)
    (hlt : d + 1 < es.length) (h : Ready p (es.set (d + 1) es[d]) (d + 2))
    (hlive : es[d + 1].ptr ≠ NULL) : Ready (p.setRecord (d + 2) es[d + 1]) es d := by
  have hlen : (es.set (d + 1) es[d]).length = es.length := List.length_set
  refine ⟨⟨by omega, by have := h.fits; omega, ?_, ?_, ?_, ?_⟩, ?_, fun hc => absurd hc (by omega)⟩
  · intro i hi hic
    have := h.left i (by omega) (by omega)
    rw [List.getElem_set, if_neg (by omega)] at this
    rw [Page.records_setRecord, if_neg (by omega)]
    exact this
  · intro i hi hic
    rw [Page.records_setRecord]
    by_cases he : i = d + 1
    · subst i
      rw [if_pos rfl]
    · rw [if_neg (by omega)]
      by_cases hed : i = d
      · subst i
        have := h.left (d + 1) (by omega) (by omega)
        rwa [List.getElem_set, if_pos rfl] at this
      · have := h.right i (by omega) (by omega)
        rwa [List.getElem_set, if_neg (by omega)] at this
  · intro b hb
    obtain ⟨i, hi, rfl⟩ := List.getElem_of_mem hb
    by_cases he : i = d + 1
    · subst i
      exact hlive
    · refine h.live _ ?_
      rw [List.mem_iff_getElem]
      exact ⟨i, by omega, by rw [List.getElem_set, if_neg (by omega)]⟩
  · have := h.terminator
    rw [hlen] at this
    rw [Page.records_setRecord, if_neg (by omega)]
    exact this
  · intro hc
    have := h.left d (by omega) (by omega)
    rw [List.getElem_set, if_neg (by omega)] at this
    rw [Page.records_setRecord, if_neg (by omega)]
    exact this

/-- What a page answers after `overwrite`. -/
theorem Ready.lost {p : Page} {es : List Entry} {d c : ℕ} (hd : d + 1 < es.length)
    (h : Ready p (es.set (d + 1) es[d]) c) (hf : isForward p.switchCounter) :
    Shows p (es.eraseIdx (d + 1)) := by
  have hne : es.set (d + 1) es[d] ≠ [] := by
    intro hnil
    have : (es.set (d + 1) es[d]).length = es.length := List.length_set
    rw [hnil] at this
    simp at this
    omega
  have hlen : (es.eraseIdx (d + 1)).length = es.length - 1 := List.length_eraseIdx_of_lt hd
  have hb : before p.leftmostPtr (es.eraseIdx (d + 1)) (d + 1) = es[d].ptr := by
    rw [before_succ _ _ _ (by omega), List.getElem_eraseIdx_of_lt _ (by omega)]
  have hst := Stutter.gap p.leftmostPtr (es.eraseIdx (d + 1)) (d + 1) (by omega) es[d].key
  rw [hb, List.insertIdx_eraseIdx_self (by omega)] at hst
  intro key
  rw [h.shows hne hf key, answer, answer]
  by_cases hl : p.leftmostPtr = NULL
  · rw [hl] at hst
    rw [if_pos hl, if_pos hl, find_stutter key hst]
  · rw [if_neg hl, if_neg hl, route_stutter key hst]

/-! ### The buffer -/

/-- The buffer after `n` records in front of record `a` were put there. -/
def staged (r : ℕ → Entry) (a : ℕ) : ℕ → List ClBufferEntry
  | 0 => []
  | n + 1 => ⟨r (a + n), a + n + 1⟩ :: staged r a n

theorem staged_snoc (r : ℕ → Entry) (a n : ℕ) :
    staged r (a + 1) n ++ [⟨r a, a + 1⟩] = staged r a (n + 1) := by
  induction n with
  | zero => rfl
  | succ n ih =>
    rw [staged, List.cons_append, ih]
    conv => rhs; rw [staged]
    rw [show a + 1 + n = a + (n + 1) by omega]

section
variable {p : Page} {es : List Entry} {e : Entry}

theorem Touched.entry {x : Page} {b : Entry} (h : Rests p es) (ht : Touched e.key p x) (i : ℕ)
    (hb : b ∈ es) : Touched e.key p (x.setRecord i b) := by
  obtain ⟨j, hj, rfl⟩ := List.getElem_of_mem hb
  exact ht.setRecord i _ (Or.inl ⟨j, by rw [h.record j hj]⟩)

theorem writeBack_keeps (h : Rests p es) (hne : es ≠ []) (a n : ℕ) {x : Page}
    (ht : Touched e.key p x) (hr : Ready x es (a + n)) (hf : isForward x.switchCounter) :
    Always Page.apply (fun y => Touched e.key p y ∧ Serves y es) x
      (Page.writeBack (staged p.records a n)) ∧
    Ready (x.run (Page.writeBack (staged p.records a n))) es a ∧
    isForward (x.run (Page.writeBack (staged p.records a n))).switchCounter := by
  induction n generalizing x with
  | zero => exact ⟨always_nil.mpr ⟨ht, hr.serves hne h.increasing hf⟩, hr, hf⟩
  | succ n ih =>
    have hlt : a + n < es.length := hr.le
    have hrec : p.records (a + n) = es[a + n] := h.record _ hlt
    have hr' : Ready (x.setRecord (a + n + 1) (p.records (a + n))) es (a + n) := by
      rw [hrec]
      exact hr.write hr.le
    have ht' : Touched e.key p (x.setRecord (a + n + 1) (p.records (a + n))) := by
      rw [hrec]
      exact ht.entry h _ (List.getElem_mem _)
    obtain ⟨h1, h2, h3⟩ := ih ht' hr' hf
    refine ⟨?_, h2, h3⟩
    rw [staged, Page.writeBack, List.map_cons, always_cons]
    exact ⟨⟨ht, hr.serves hne h.increasing hf⟩, h1⟩

theorem writeBack_restores (h : Rests p es) (hne : es ≠ []) (a n : ℕ) (ha : a < es.length)
    (ha1 : a + 1 < es.length) {x : Page} (ht : Touched e.key p x)
    (hr : Ready x (es.set (a + 1) es[a]) (a + 1 + (n + 1))) (hf : isForward x.switchCounter) :
    Always Page.apply (fun y => Touched e.key p y ∧
        (Serves y es ∨ Shows y (es.eraseIdx (a + 1)))) x
      (Page.writeBack (staged p.records (a + 1) (n + 1))) ∧
    Ready (x.run (Page.writeBack (staged p.records (a + 1) (n + 1)))) es a ∧
    isForward (x.run (Page.writeBack (staged p.records (a + 1) (n + 1)))).switchCounter := by
  induction n generalizing x with
  | zero =>
    have hrec : p.records (a + 1) = es[a + 1] := h.record _ ha1
    have hr' : Ready (x.setRecord (a + 2) (p.records (a + 1))) es a := by
      rw [hrec]
      exact Ready.restore ha ha1 hr (h.live _ (List.getElem_mem _))
    have ht' : Touched e.key p (x.setRecord (a + 2) (p.records (a + 1))) := by
      rw [hrec]
      exact ht.entry h _ (List.getElem_mem _)
    refine ⟨?_, hr', hf⟩
    rw [staged, staged, Page.writeBack, List.map_cons, List.map_nil, always_cons, always_nil]
    exact ⟨⟨ht, Or.inr (Ready.lost ha1 hr hf)⟩, ht', Or.inl (hr'.serves hne h.increasing hf)⟩
  | succ n ih =>
    have hlen : (es.set (a + 1) es[a]).length = es.length := List.length_set
    have hlt : a + 1 + (n + 1) < es.length := by
      have := hr.le
      omega
    have hrec : p.records (a + 1 + (n + 1)) = es[a + 1 + (n + 1)] := h.record _ hlt
    have hr' : Ready (x.setRecord (a + 1 + (n + 1) + 1) (p.records (a + 1 + (n + 1))))
        (es.set (a + 1) es[a]) (a + 1 + (n + 1)) := by
      have hr1 : Ready x (es.set (a + 1) es[a]) (a + 1 + (n + 1) + 1) := hr
      have := hr1.write hr1.le
      rwa [List.getElem_set, if_neg (by omega), ← hrec] at this
    have ht' : Touched e.key p
        (x.setRecord (a + 1 + (n + 1) + 1) (p.records (a + 1 + (n + 1)))) := by
      rw [hrec]
      exact ht.entry h _ (List.getElem_mem _)
    obtain ⟨h1, h2, h3⟩ := ih ht' hr' hf
    refine ⟨?_, h2, h3⟩
    rw [staged, Page.writeBack, List.map_cons, always_cons]
    exact ⟨⟨ht, Or.inr (Ready.lost ha1 hr hf)⟩, h1⟩

/-- All images of the loop satisfy `Q` if and only if `D` holds of each record
that starts a line and is overwritten while its entry waits in the buffer. -/
theorem rapLoop_always (h : Rests p es) (hne : es ≠ []) {c : ℕ} (hp : Place es e.key c)
    (he : e.ptr ≠ NULL) {Q : Page → Prop} {D : ℕ → Prop} (hQ : ∀ x, Image p es e c x → Q x)
    (hD : ∀ x t, t < es.length → Touched e.key p x → Shows x (es.eraseIdx t) → (Q x ↔ D t))
    (a n : ℕ) {x : Page} (ht : Touched e.key p x) (hr : Ready x es (a + n))
    (hf : isForward x.switchCounter) (hca : c ≤ a)
    (hn : n = 0 → a = es.length ∨ ¬ lineAligned a) :
    Always Page.apply Q x (x.rapLoop e.key e.ptr true a (staged p.records a n)) ↔
      ∀ t, t < es.length → lineAligned t → c < t → t ≤ a → D t := by
  have hfill : ∀ a n (x : Page) v, Touched e.key p x → Ready x es (a + n) →
      isForward x.switchCounter → c = a →
      v = before (x.run (Page.writeBack (staged p.records a n))).leftmostPtr es a →
      Always Page.apply Q x (Page.writeBack (staged p.records a n) ++
        [.ptr a v, .key a e.key, .ptr a e.ptr]) := by
    intro a n x v ht hr hf hca hv
    obtain ⟨h1, h2, h3⟩ := writeBack_keeps h hne a n ht hr hf
    subst a
    have h4 := (fill_spec h1.last.1 h2.toShifted h1.last.2 hv h3 hp he).1
    rw [always_append]
    exact ⟨h1.mono (fun y hy => hQ y ⟨hy.1, Or.inl hy.2⟩), h4.mono hQ⟩
  induction a generalizing x n with
  | zero =>
    rw [Page.rapLoop]
    constructor
    · intro _ t _ _ hct hta
      omega
    · intro _
      exact hfill 0 n x _ ht hr hf (by omega) (before_zero _ _).symm
  | succ a ih =>
    have hlt : a < es.length := by
      have := hr.le
      omega
    have hra : x.records a = es[a] := hr.left a hlt (by omega)
    have hpa : p.records a = es[a] := h.record a hlt
    rw [Page.rapLoop]
    by_cases hkey : e.key < (x.records a).key
    · rw [if_pos hkey]
      have hca' : c ≤ a := by
        by_contra hc
        have := hp.left a hlt (by omega)
        rw [hra] at hkey
        omega
      by_cases hal : lineAligned (a + 1)
      · rw [if_neg (not_not.mpr hal), if_pos rfl, if_pos rfl]
        have hnal : ¬ lineAligned a := by
          unfold lineAligned at hal ⊢
          omega
        have hsplit : (∀ t, t < es.length → lineAligned t → c < t → t ≤ a + 1 → D t) ↔
            (a + 1 < es.length → D (a + 1)) ∧
            (∀ t, t < es.length → lineAligned t → c < t → t ≤ a → D t) := by
          constructor
          · intro hall
            exact ⟨fun hl => hall (a + 1) hl hal (by omega) (Nat.le_refl _),
              fun t h1 h2 h3 h4 => hall t h1 h2 h3 (by omega)⟩
          · rintro ⟨h1, h2⟩ t ht1 ht2 ht3 ht4
            by_cases hta : t = a + 1
            · subst t
              exact h1 ht1
            · exact h2 t ht1 ht2 ht3 (by omega)
        rw [hsplit, hra, always_append, always_cons]
        have ht1 := ht.entry h (a + 1) (List.getElem_mem hlt)
        cases n with
        | zero =>
          -- nothing waits in the buffer
          have hr1 : Ready _ es a := hr.write hr.le
          have hend : a + 1 = es.length := by
            rcases hn rfl with h1 | h1
            · exact h1
            · exact absurd hal h1
          have hrec := ih 0 ht1 hr1 hf hca' (fun _ => Or.inr hnal)
          have hQx := hQ x ⟨ht, Or.inl (hr.serves hne h.increasing hf)⟩
          have hQ1 := hQ _ ⟨ht1, Or.inl (hr1.serves hne h.increasing hf)⟩
          constructor
          · rintro ⟨_, h2⟩
            exact ⟨fun hl => absurd hl (by omega), hrec.mp h2⟩
          · rintro ⟨_, h2⟩
            exact ⟨⟨hQx, always_nil.mpr hQ1⟩, hrec.mpr h2⟩
        | succ n =>
          have ha1 : a + 1 < es.length := by
            have := hr.le
            omega
          have hr1 := hr.overwrite (d := a) (by omega) hlt
          obtain ⟨hb1, hb2, hb3⟩ := writeBack_restores h hne a n hlt ha1 ht1 hr1 hf
          have hrec := ih 0 hb1.last.1 hb2 hb3 hca' (fun _ => Or.inr hnal)
          have hQx := hQ x ⟨ht, Or.inl (hr.serves hne h.increasing hf)⟩
          have hlost := hD _ (a + 1) ha1 ht1 (Ready.lost ha1 hr1 hf)
          constructor
          · rintro ⟨⟨_, h1⟩, h2⟩
            exact ⟨fun _ => hlost.mp h1.first, hrec.mp h2⟩
          · rintro ⟨h1, h2⟩
            refine ⟨⟨hQx, hb1.mono ?_⟩, hrec.mpr h2⟩
            rintro y ⟨hy, hs | hs⟩
            · exact hQ y ⟨hy, Or.inl hs⟩
            · exact (hD y (a + 1) ha1 hy hs).mpr (h1 ha1)
      · have hr1 : Ready x es (a + (n + 1)) := by
          rw [show a + (n + 1) = a + 1 + n by omega]
          exact hr
        have hrec := ih (n + 1) ht hr1 hf hca' (fun h0 => absurd h0 (by omega))
        rw [if_pos hal, hra, ← hpa, staged_snoc]
        refine hrec.trans ?_
        constructor
        · intro hall t h1 h2 h3 h4
          by_cases hta : t = a + 1
          · subst t
            exact absurd h2 hal
          · exact hall t h1 h2 h3 (by omega)
        · intro hall t h1 h2 h3 h4
          exact hall t h1 h2 h3 (by omega)
    · rw [if_neg hkey]
      have hc : c = a + 1 := by
        by_contra hc
        have := hp.right a hlt (by omega)
        rw [hra] at hkey
        omega
      constructor
      · intro _ t _ _ h3 h4
        omega
      · intro _
        refine hfill (a + 1) n x _ ht hr hf hc ?_
        obtain ⟨_, h2, _⟩ := writeBack_keeps h hne (a + 1) n ht hr hf
        rw [h2.left a hlt (by omega), before_succ _ _ _ hlt]

end

/-! ### Readers of a leaf -/

/-- Every image on the way answers a search for each of the entries `es`. -/
def KeepsVisible (pages : ℕ → Option Page) (p : Page) (es : List Entry)
    (stores : List PageStore) : Prop :=
  Always Page.apply (fun x => ∀ b ∈ es, x.linearSearch pages b.key = some b.ptr) p stores

theorem linearSearch_found {x : Page} {key : ℤ} {v : ℕ} (pages : ℕ → Option Page)
    (hl : x.leftmostPtr = NULL) (hs : x.search key = v) (hv : v ≠ NULL) :
    x.linearSearch pages key = some v := by
  rw [Page.linearSearch]
  simp only [if_pos hl, hs]
  rw [if_pos hv]

theorem distinct_of_nodup {es : List Entry} (hlive : ∀ e ∈ es, e.ptr ≠ NULL)
    (hn : (es.map (·.ptr)).Nodup) : Distinct NULL es := by
  refine List.Pairwise.isChain ?_
  rw [List.pairwise_cons]
  refine ⟨?_, hn⟩
  intro v hv
  obtain ⟨e, he, rfl⟩ := List.mem_map.mp hv
  exact (hlive e he).symm

theorem Shows.mem {x : Page} {es : List Entry} (hx : Shows x es) (hl : x.leftmostPtr = NULL)
    (hd : Distinct NULL es) (hi : Increasing es) {b : Entry} (hb : b ∈ es) :
    x.search b.key = b.ptr := by
  rw [hx b.key, answer, if_pos hl, find_mem hd hi hb]
  rfl

theorem Shows.absent {x : Page} {es : List Entry} (hx : Shows x es) (hl : x.leftmostPtr = NULL)
    {key : ℤ} (hk : ∀ b ∈ es, b.key ≠ key) : x.search key = NULL := by
  rw [hx key, answer, if_pos hl, find_none hk]
  rfl

/-- With the entry `t` lost a search for it ends at the sibling. -/
theorem lost_visible_iff (pages : ℕ → Option Page) {p x : Page} {es : List Entry} {key : ℤ}
    {t : ℕ} (h : Rests p es) (hl : p.leftmostPtr = NULL) (hn : (es.map (·.ptr)).Nodup)
    (ht : t < es.length) (htx : Touched key p x) (hx : Shows x (es.eraseIdx t)) :
    (∀ b ∈ es, x.linearSearch pages b.key = some b.ptr) ↔
      ∃ s, pages p.siblingPtr = some s ∧ (s.records 0).key ≤ es[t].key ∧
        p.siblingPtr = es[t].ptr := by
  have hlx : x.leftmostPtr = NULL := by
    rw [htx.leftmostPtr]
    exact hl
  have hsub : (es.eraseIdx t).Sublist es := List.eraseIdx_sublist es t
  have hi : Increasing (es.eraseIdx t) := h.increasing.sublist hsub
  have hd : Distinct NULL (es.eraseIdx t) :=
    distinct_of_nodup (fun e he => h.live e (hsub.mem he)) (hn.sublist (hsub.map _))
  have hlive : es[t].ptr ≠ NULL := h.live _ (List.getElem_mem _)
  have hgone : x.search es[t].key = NULL := by
    refine hx.absent hlx ?_
    intro b hb
    obtain ⟨i, hi', hne, rfl⟩ := List.mem_eraseIdx_iff_getElem.mp hb
    rcases Nat.lt_or_gt_of_ne hne with hlt | hgt
    · exact (List.pairwise_iff_getElem.mp h.increasing i t hi' ht hlt).ne
    · exact (List.pairwise_iff_getElem.mp h.increasing t i ht hi' hgt).ne'
  have hsearch : x.linearSearch pages es[t].key = some es[t].ptr ↔
      ∃ s, pages p.siblingPtr = some s ∧ (s.records 0).key ≤ es[t].key ∧
        p.siblingPtr = es[t].ptr := by
    rw [Page.linearSearch]
    simp only [if_pos hlx, hgone, htx.siblingPtr]
    rw [if_neg (by simp)]
    by_cases hsib : p.siblingPtr = NULL
    · rw [if_neg (not_not.mpr hsib)]
      constructor
      · intro hc
        exact absurd (Option.some.inj hc).symm hlive
      · rintro ⟨s, _, _, hc⟩
        exact absurd (hc ▸ hsib) hlive
    · rw [if_pos hsib]
      cases hpg : pages p.siblingPtr with
      | none => simp
      | some s =>
        simp only [Option.bind_eq_bind, Option.bind_some, Option.some.injEq]
        by_cases hk : (s.records 0).key ≤ es[t].key
        · rw [if_pos hk]
          constructor
          · intro hc
            exact ⟨s, rfl, hk, Option.some.inj hc⟩
          · rintro ⟨_, _, _, hc⟩
            rw [hc]
        · rw [if_neg hk]
          constructor
          · intro hc
            exact absurd (Option.some.inj hc).symm hlive
          · rintro ⟨s', hs', hk', _⟩
            rw [← hs'] at hk'
            exact absurd hk' hk
  rw [← hsearch]
  constructor
  · intro hall
    exact hall _ (List.getElem_mem ht)
  · intro ht' b hb
    obtain ⟨i, hi', rfl⟩ := List.getElem_of_mem hb
    by_cases hit : i = t
    · subst i
      exact ht'
    · refine linearSearch_found pages hlx (hx.mem hlx hd hi ?_) (h.live _ (List.getElem_mem _))
      exact List.mem_eraseIdx_iff_getElem.mpr ⟨i, hi', hit, rfl⟩

theorem rapLoop_header (x : Page) (key : ℤ) (ptr a : ℕ) (buf : List ClBufferEntry) :
    (x.run (x.rapLoop key ptr true a buf)).switchCounter = x.switchCounter ∧
    (x.run (x.rapLoop key ptr true a buf)).leftmostPtr = x.leftmostPtr := by
  have hback : ∀ (y : Page) (l : List ClBufferEntry),
      (y.run (Page.writeBack l)).switchCounter = y.switchCounter ∧
      (y.run (Page.writeBack l)).leftmostPtr = y.leftmostPtr := by
    intro y l
    induction l generalizing y with
    | nil => exact ⟨rfl, rfl⟩
    | cons b l ih => exact ih (y.setRecord b.address b.data)
  induction a generalizing x buf with
  | zero =>
    rw [Page.rapLoop, Page.run_append]
    exact hback x buf
  | succ a ih =>
    rw [Page.rapLoop]
    by_cases hkey : key < (x.records a).key
    · rw [if_pos hkey]
      by_cases hal : lineAligned (a + 1)
      · rw [if_neg (not_not.mpr hal), if_pos rfl, if_pos rfl, Page.run_append]
        obtain ⟨h1, h2⟩ := ih (x.run (.record (a + 1) (x.records a) :: Page.writeBack buf)) []
        rw [h1, h2]
        exact hback (x.setRecord (a + 1) (x.records a)) buf
      · rw [if_pos hal]
        exact ih x _
    · rw [if_neg hkey, Page.run_append]
      exact hback x buf

/-- A forward search does not read `last_index`. -/
theorem linearSearch_lastIndex (pages : ℕ → Option Page) {x : Page} (n : ℤ)
    (hl : x.leftmostPtr = NULL) (hf : isForward x.switchCounter) (key : ℤ) :
    (x.apply (.lastIndex n)).linearSearch pages key = x.linearSearch pages key := by
  have hscan : ∀ fuel i, (x.apply (.lastIndex n)).leafScan key fuel i = x.leafScan key fuel i := by
    intro fuel
    induction fuel with
    | zero => exact fun _ => rfl
    | succ fuel ih =>
      intro i
      simp only [Page.leafScan, ih]
      rfl
  have hs : (x.apply (.lastIndex n)).search key = x.search key := by
    have hl' : (x.apply (.lastIndex n)).leftmostPtr = NULL := hl
    have hf' : isForward (x.apply (.lastIndex n)).switchCounter := hf
    rw [Page.search, Page.search, if_pos hl, if_pos hl', if_pos hf, if_pos hf', Page.leafForward,
      Page.leafForward, hscan]
    rfl
  rw [Page.linearSearch, Page.linearSearch, hs]
  rfl

theorem nodup_insertIdx {es : List Entry} {e : Entry} {c : ℕ} (hc : c ≤ es.length)
    (hn : (es.map (·.ptr)).Nodup) (hfresh : ∀ b ∈ es, b.ptr ≠ e.ptr) :
    ((es.insertIdx c e).map (·.ptr)).Nodup := by
  have hperm : ((es.insertIdx c e).map (·.ptr)).Perm ((e :: es).map (·.ptr)) :=
    (List.perm_insertIdx e es hc).map _
  rw [hperm.nodup_iff, List.map_cons, List.nodup_cons]
  refine ⟨?_, hn⟩
  intro hmem
  obtain ⟨b, hb, hbe⟩ := List.mem_map.mp hmem
  exact hfresh b hb hbe

/-- An insertion into a leaf keeps the old entries visible in every image if and
only if each record that starts a line, holds an entry and is entered by a
shifted one has a pointer that the search finds as the sibling's. -/
theorem insertKeyRap_visible_iff (pages : ℕ → Option Page) {p : Page} {es : List Entry}
    (h : Rests p es) (hl : p.leftmostPtr = NULL) (hn : (es.map (·.ptr)).Nodup)
    (hroom : es.length < cardinality - 1) {key : ℤ} {ptr : ℕ} (hkey : ∀ b ∈ es, b.key ≠ key)
    (hptr : ptr ≠ NULL) (hfresh : ∀ b ∈ es, b.ptr ≠ ptr) :
    KeepsVisible pages p es (p.insertKeyRap key ptr p.count true) ↔
      ∀ t (ht : t < es.length), lineAligned t → key < es[t - 1].key →
        ∃ s, pages p.siblingPtr = some s ∧ (s.records 0).key ≤ es[t].key ∧
          p.siblingPtr = es[t].ptr := by
  have hroom' : es.length + 1 < cardinality := by omega
  obtain ⟨c, hp⟩ := exists_place h.increasing hkey
  rw [h.count_eq]
  by_cases hne : es = []
  · subst es
    constructor
    · intro _ t ht
      simp at ht
    · intro _ k b hb
      simp at hb
  have hn0 : es.length ≠ 0 := fun h0 => hne (List.length_eq_zero_iff.mp h0)
  have hd' : Distinct NULL (es.insertIdx c ⟨key, ptr⟩) := by
    refine distinct_of_nodup ?_ (nodup_insertIdx hp.le hn hfresh)
    intro b hb
    rcases (List.mem_insertIdx hp.le).mp hb with rfl | hb
    · exact hptr
    · exact h.live b hb
  have hd : Distinct NULL es := distinct_of_nodup h.live hn
  have hQ : ∀ x, Image p es ⟨key, ptr⟩ c x →
      ∀ b ∈ es, x.linearSearch pages b.key = some b.ptr := by
    intro x hx b hb
    have hlx : x.leftmostPtr = NULL := by
      rw [hx.touched.leftmostPtr]
      exact hl
    refine linearSearch_found pages hlx ?_ (h.live b hb)
    rcases hx.serves with hs | hs
    · exact hs.shows.mem hlx hd h.increasing hb
    · exact hs.shows.mem hlx hd' (Place.increasing (e := ⟨key, ptr⟩) hp h.increasing)
        ((List.mem_insertIdx hp.le).mpr (Or.inr hb))
  obtain ⟨ho, hf, hpl, hsh⟩ := opening_spec h hroom' key
  have hready : Ready (p.run (p.opening es.length)) es (es.length + 0) := by
    refine ⟨hsh hne, fun hlt => absurd hlt (by omega), fun _ => hpl.terminator⟩
  have hloop := rapLoop_always (e := ⟨key, ptr⟩) h hne hp hptr hQ
    (D := fun t => ∀ ht : t < es.length, ∃ s, pages p.siblingPtr = some s ∧
      (s.records 0).key ≤ es[t].key ∧ p.siblingPtr = es[t].ptr)
    (fun x t ht htx hx => by
      rw [lost_visible_iff pages h hl hn ht htx hx]
      exact ⟨fun hd _ => hd, fun hd => hd ht⟩)
    es.length 0 ho.last.1 hready hf hp.le (fun _ => Or.inl rfl)
  have hwhole : KeepsVisible pages p es (p.insertKeyRap key ptr es.length true) ↔
      Always Page.apply (fun x => ∀ b ∈ es, x.linearSearch pages b.key = some b.ptr)
        (p.run (p.opening es.length))
        ((p.run (p.opening es.length)).rapLoop key ptr true es.length
          (staged p.records es.length 0)) := by
    rw [KeepsVisible, Page.insertKeyRap, Page.insertKeyWith, if_neg hn0, always_append,
      always_append, always_cons, always_nil]
    constructor
    · intro hall
      exact hall.1.2
    · intro hall
      have hlast := hall.last
      refine ⟨⟨ho.mono (fun x hx => hQ x ⟨hx.1, Or.inl hx.2⟩), hall⟩, ?_, ?_⟩
      · rw [List.foldl_append]
        exact hlast
      · rw [List.foldl_append]
        intro b hb
        obtain ⟨h1, h2⟩ := rapLoop_header (p.run (p.opening es.length)) key ptr es.length []
        have hll := h2.trans (ho.last.1.leftmostPtr.trans hl)
        rw [← h1] at hf
        exact (linearSearch_lastIndex pages _ hll hf b.key).trans (hlast b hb)
  rw [hwhole]
  refine hloop.trans ?_
  constructor
  · intro hall t ht hal hlt
    refine hall t ht hal ?_ (by omega) ht
    by_contra hct
    have h1 : 0 < t := by
      unfold lineAligned at hal
      omega
    have := hp.left (t - 1) (by omega) (by omega)
    omega
  · intro hall t ht hal hct _ _
    exact hall t ht hal (hp.right (t - 1) (by omega) (by omega))

/-! ### Two leaves -/

/-- A leaf without a sibling. -/
def leafOf (es : List Entry) : Page :=
  { Page.new 0 with
    lastIndex := es.length - 1
    records := fun i => es.getD i ⟨longMax, NULL⟩ }

theorem leafOf_rests {es : List Entry} (hfits : es.length < cardinality)
    (hlive : ∀ e ∈ es, e.ptr ≠ NULL) (hi : Increasing es) (hd : Distinct NULL es) :
    Rests (leafOf es) es := by
  refine ⟨⟨hfits, ?_, hlive, ?_, ?_⟩, rfl, hi, hd, fun hl => absurd rfl hl⟩
  · intro i hi
    show es.getD i _ = es[i]
    simp [hi]
  · show (es.getD es.length ⟨longMax, NULL⟩).ptr = NULL
    simp
  · rintro rfl
    rfl

def leafOfThree : List Entry := [⟨10, 1⟩, ⟨20, 2⟩, ⟨30, 3⟩]

theorem leafOfThree_rests : Rests (leafOf leafOfThree) leafOfThree :=
  leafOf_rests (by decide) (by decide) (by decide) (by decide)

/-- While 5 is inserted, 30 is only in the buffer after the second store. -/
theorem insertKeyRap_hides_entry :
    Rests (leafOf leafOfThree) leafOfThree ∧ (leafOf leafOfThree).leftmostPtr = NULL ∧
    ⟨30, 3⟩ ∈ leafOfThree ∧
    ((leafOf leafOfThree).run (((leafOf leafOfThree).insertKeyRap 5 9
      (leafOf leafOfThree).count true).take 2)).linearSearch (fun _ => none) 30 = some NULL ∧
    ¬ KeepsVisible (fun _ => none) (leafOf leafOfThree) leafOfThree
      ((leafOf leafOfThree).insertKeyRap 5 9 (leafOf leafOfThree).count true) := by
  have hgone : ((leafOf leafOfThree).run (((leafOf leafOfThree).insertKeyRap 5 9
      (leafOf leafOfThree).count true).take 2)).linearSearch (fun _ => none) 30 = some NULL := by
    decide
  refine ⟨leafOfThree_rests, rfl, by decide, hgone, ?_⟩
  intro h
  have h2 := h 2 ⟨30, 3⟩ (by decide)
  exact absurd (hgone.symm.trans h2) (by decide)

/-- Record 2 starts a line. -/
def leafOfFour : List Entry := [⟨10, 1⟩, ⟨20, 2⟩, ⟨30, 3⟩, ⟨40, 4⟩]

/-- 35 goes behind the record that starts the line. -/
theorem insertKeyRap_visible_iff_leafOfFour :
    KeepsVisible (fun _ => none) (leafOf leafOfFour) leafOfFour
      ((leafOf leafOfFour).insertKeyRap 35 9 (leafOf leafOfFour).count true) :=
  (insertKeyRap_visible_iff (fun _ => none)
    (@leafOf_rests leafOfFour (by decide) (by decide) (by decide) (by decide)) rfl
    (by decide) (by decide) (by decide) (by decide) (by decide)).mpr (by decide)

end PmemStudy.FastFair
