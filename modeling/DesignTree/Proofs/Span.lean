import DesignTree.Span
import Mathlib.Data.Set.Card
import Mathlib.Order.Interval.Finset.Nat
/-!
# DesignTree.Proofs.Span

Spans as sets of bytes.

The queries about spans compare offsets, each in its own way. A span denotes the bytes that it
contains, and the queries are the relations of these sets: overlapping is having a byte in common,
containing is inclusion, and the length is how many bytes there are.

This rests on the end not lying before the start. Every span that checked offsets make is of this
kind, and so is every span that is made of such by merging (`constructed_iff`); an inverted one,
read back from storage, answers some of the queries otherwise. That spans are ordered by containing
one another does not need it.
-/

namespace DesignTree.Span

/-- A span that was made from checked offsets, or by merging such spans. -/
inductive Constructed : Span → Prop
  | tryNew {source : SourceId} {start stop : UInt32} {s : Span}
    (made : tryNew source start stop = .ok s) : Constructed s
  | tryFromRange {source : SourceId} {start stop : Nat} {s : Span}
    (made : tryFromRange source start stop = .ok s) : Constructed s
  | point (source : SourceId) (offset : UInt32) : Constructed (point source offset)
  /-- The default span, that of nodes that come from no text. -/
  | default : Constructed default
  | merge {s t : Span} (left : Constructed s) (right : Constructed t) : Constructed (s.merge t)

/-- The bytes that a span denotes. -/
def bytes (s : Span) : Set UInt32 :=
  {offset | s.contains offset = true}

variable {s t u : Span} {source : SourceId}

/-! ### What the queries compare -/

@[simp] theorem mem_bytes {offset : UInt32} :
    offset ∈ s.bytes ↔ s.start ≤ offset ∧ offset < s.stop := by
  simp [bytes, contains]

theorem isEmpty_iff : s.isEmpty = true ↔ s.start = s.stop :=
  beq_iff_eq

theorem isEmpty_eq_false_iff : s.isEmpty = false ↔ s.start ≠ s.stop := by
  rw [← Bool.not_eq_true, isEmpty_iff]

theorem containsSpan_iff :
    s.containsSpan t = true ↔ s.source = t.source ∧ s.start ≤ t.start ∧ t.stop ≤ s.stop := by
  simp [containsSpan, and_assoc]

theorem overlaps_iff :
    s.overlaps t = true ↔ s.source = t.source ∧ s.start ≠ s.stop ∧ t.start ≠ t.stop ∧
      s.start < t.stop ∧ t.start < s.stop := by
  simp [overlaps, isEmpty, and_assoc]

theorem overlaps_symm (h : s.overlaps t = true) : t.overlaps s = true := by
  obtain ⟨same, first, second, before, after⟩ := overlaps_iff.mp h
  exact overlaps_iff.mpr ⟨same.symm, second, first, after, before⟩

theorem overlaps_comm (s t : Span) : s.overlaps t = t.overlaps s :=
  Bool.eq_iff_iff.mpr ⟨overlaps_symm, overlaps_symm⟩

theorem overlaps_of_isEmpty (h : s.isEmpty = true) : s.overlaps t = false :=
  Bool.eq_false_iff.mpr fun overlaps => (overlaps_iff.mp overlaps).2.1 (isEmpty_iff.mp h)

/-! ### Order by containing -/

/-- A span lies below those that contain it. -/
instance : PartialOrder Span where
  le t s := s.containsSpan t = true
  le_refl s := containsSpan_iff.mpr ⟨rfl, UInt32.le_refl _, UInt32.le_refl _⟩
  le_trans s t u below above := by
    obtain ⟨source, start, stop⟩ := containsSpan_iff.mp below
    obtain ⟨source', start', stop'⟩ := containsSpan_iff.mp above
    exact containsSpan_iff.mpr
      ⟨source'.trans source, UInt32.le_trans start' start, UInt32.le_trans stop stop'⟩
  le_antisymm s t below above := by
    obtain ⟨source, start, stop⟩ := containsSpan_iff.mp below
    obtain ⟨-, start', stop'⟩ := containsSpan_iff.mp above
    cases s
    cases t
    exact (Span.mk.injEq ..).mpr
      ⟨source.symm, UInt32.le_antisymm start' start, UInt32.le_antisymm stop stop'⟩

theorem le_iff_containsSpan : t ≤ s ↔ s.containsSpan t = true :=
  Iff.rfl

/-- What contains a span that is not inverted is not inverted either. -/
theorem start_le_stop_of_le (inside : s ≤ t) (ordered : s.start ≤ s.stop) : t.start ≤ t.stop := by
  obtain ⟨-, start, stop⟩ := containsSpan_iff.mp (le_iff_containsSpan.mp inside)
  exact UInt32.le_trans start (UInt32.le_trans ordered stop)

/-! ### Merging -/

@[simp] theorem source_merge (s t : Span) : (s.merge t).source = s.source := by
  unfold merge
  split <;> rfl

theorem merge_of_source_eq (h : t.source = s.source) :
    s.merge t = ⟨s.source, min s.start t.start, max s.stop t.stop⟩ :=
  if_pos h.symm

theorem merge_of_source_ne (h : t.source ≠ s.source) : s.merge t = s :=
  if_neg (Ne.symm h)

/-- Merging gives the smallest span around both, if the second one lies in the first one's
buffer. -/
theorem merge_le_iff : s.merge t ≤ u ↔ s ≤ u ∧ (t.source = s.source → t ≤ u) := by
  by_cases same : t.source = s.source
  · simp only [le_iff_containsSpan, containsSpan_iff, merge_of_source_eq same, same,
      forall_true_left, UInt32.le_iff_toNat_le, UInt32.toNat_min, UInt32.toNat_max, Nat.le_min,
      Nat.max_le]
    tauto
  · simp only [merge_of_source_ne same, same, false_imp_iff, and_true]

/-! ### Spans that are not inverted -/

theorem tryNew_eq_ok_iff {start stop : UInt32} :
    tryNew source start stop = .ok s ↔ start ≤ stop ∧ s = ⟨source, start, stop⟩ := by
  unfold tryNew
  split
  next inverted => simpa using fun order => absurd inverted (UInt32.not_lt.mpr order)
  next order => simp [UInt32.not_lt.mp order, eq_comm]

/-- Offsets that fit a word are checked as words. -/
theorem exists_tryNew_of_tryFromRange {start stop : Nat}
    (h : tryFromRange source start stop = .ok s) :
    ∃ first last, tryNew source first last = .ok s := by
  unfold tryFromRange at h
  split at h
  · cases h
  · split at h
    · cases h
    · exact ⟨_, _, h⟩

theorem Constructed.start_le_stop (h : s.Constructed) : s.start ≤ s.stop := by
  induction h with
  | tryNew made =>
    obtain ⟨order, rfl⟩ := tryNew_eq_ok_iff.mp made
    exact order
  | tryFromRange made =>
    obtain ⟨first, last, made⟩ := exists_tryNew_of_tryFromRange made
    obtain ⟨order, rfl⟩ := tryNew_eq_ok_iff.mp made
    exact order
  | point source offset => exact UInt32.le_refl offset
  | default => exact UInt32.le_refl 0
  | @merge s t _ _ ordered _ =>
    -- The merged span contains the first one, whatever the buffer of the second.
    exact start_le_stop_of_le (merge_le_iff.mp (le_refl (s.merge t))).1 ordered

/-- The spans that can be made are those whose end does not lie before the start. -/
theorem constructed_iff : s.Constructed ↔ s.start ≤ s.stop :=
  ⟨Constructed.start_le_stop, fun order => .tryNew (tryNew_eq_ok_iff.mpr ⟨order, rfl⟩)⟩

/-! ### Bytes -/

/-- A span that is not inverted contains its first byte, if it contains any. -/
theorem Constructed.start_mem_bytes (h : s.Constructed) (nonempty : s.start ≠ s.stop) :
    s.start ∈ s.bytes :=
  mem_bytes.mpr ⟨UInt32.le_refl _, UInt32.lt_of_le_of_ne h.start_le_stop nonempty⟩

theorem start_ne_stop_of_mem {offset : UInt32} (h : offset ∈ s.bytes) : s.start ≠ s.stop :=
  have ⟨first, last⟩ := mem_bytes.mp h
  UInt32.ne_of_lt (UInt32.lt_of_le_of_lt first last)

theorem Constructed.isEmpty_iff_bytes (h : s.Constructed) :
    s.isEmpty = true ↔ s.bytes = ∅ := by
  rw [isEmpty_iff, Set.eq_empty_iff_forall_notMem]
  constructor
  · intro empty offset member
    exact start_ne_stop_of_mem member empty
  · intro noByte
    by_contra nonempty
    exact noByte s.start (h.start_mem_bytes nonempty)

/-- Of two spans that overlap, the one that starts later starts with a common byte. -/
theorem Constructed.overlaps_iff_bytes (hs : s.Constructed) (ht : t.Constructed) :
    s.overlaps t = true ↔ s.source = t.source ∧ (s.bytes ∩ t.bytes).Nonempty := by
  rw [overlaps_iff]
  refine and_congr_right fun _ => ⟨?_, ?_⟩
  · rintro ⟨first, second, before, after⟩
    rcases UInt32.le_total s.start t.start with earlier | later
    · exact ⟨t.start, mem_bytes.mpr ⟨earlier, after⟩, ht.start_mem_bytes second⟩
    · exact ⟨s.start, hs.start_mem_bytes first, mem_bytes.mpr ⟨later, before⟩⟩
  · rintro ⟨offset, inFirst, inSecond⟩
    have ⟨first, last⟩ := mem_bytes.mp inFirst
    have ⟨first', last'⟩ := mem_bytes.mp inSecond
    exact ⟨start_ne_stop_of_mem inFirst, start_ne_stop_of_mem inSecond,
      UInt32.lt_of_le_of_lt first last', UInt32.lt_of_le_of_lt first' last⟩

/-- Containing a span that has a byte is containing its bytes. -/
theorem Constructed.containsSpan_iff_bytes (ht : t.Constructed) (nonempty : t.isEmpty = false) :
    s.containsSpan t = true ↔ s.source = t.source ∧ t.bytes ⊆ s.bytes := by
  rw [containsSpan_iff]
  refine and_congr_right fun _ => ⟨?_, fun inside => ?_⟩
  · rintro ⟨start, stop⟩ offset member
    have ⟨first, last⟩ := mem_bytes.mp member
    exact mem_bytes.mpr ⟨UInt32.le_trans start first, UInt32.lt_of_lt_of_le last stop⟩
  · have first := ht.start_mem_bytes (isEmpty_eq_false_iff.mp nonempty)
    have ⟨start, before⟩ := mem_bytes.mp (inside first)
    refine ⟨start, UInt32.not_lt.mp fun short => ?_⟩
    -- The byte where the first span stops would lie in the second one, and so in the first.
    have beyond : s.stop ∈ s.bytes := inside (mem_bytes.mpr ⟨UInt32.le_of_lt before, short⟩)
    exact UInt32.lt_irrefl _ (mem_bytes.mp beyond).2

/-- The numbers of the bytes are those from the start to the end. -/
theorem image_toNat_bytes (s : Span) :
    UInt32.toNat '' s.bytes = Finset.Ico s.start.toNat s.stop.toNat := by
  ext n
  simp only [Set.mem_image, mem_bytes, Finset.coe_Ico, Set.mem_Ico, UInt32.le_iff_toNat_le,
    UInt32.lt_iff_toNat_lt]
  constructor
  · rintro ⟨offset, within, rfl⟩
    exact within
  · intro within
    have fits : n < UInt32.size := Nat.lt_trans within.2 s.stop.toNat_lt
    have value : (UInt32.ofNat n).toNat = n := UInt32.toNat_ofNat_of_lt' fits
    exact ⟨UInt32.ofNat n, by rwa [value], value⟩

/-- The length is the number of bytes, also of a span that is inverted and has none. -/
theorem encard_bytes (s : Span) : s.bytes.encard = s.length := by
  have injective : Set.InjOn UInt32.toNat s.bytes := fun _ _ _ _ same => UInt32.toNat_inj.mp same
  rw [← injective.encard_image, image_toNat_bytes, Set.encard_coe_eq_coe_finsetCard, Nat.card_Ico]
  rfl

/-- No subtraction is cut off in the length of a span that is not inverted. -/
theorem Constructed.start_add_length (h : s.Constructed) :
    s.start.toNat + s.length = s.stop.toNat :=
  Nat.add_sub_cancel' (UInt32.le_iff_toNat_le.mp h.start_le_stop)

/-- The queries about two spans that were made from checked offsets, or by merging such spans, are
relations of the bytes that the spans denote:

* two spans overlap exactly if they lie in one buffer and have a byte in common, whichever of them
  is asked, and an empty span overlaps none;
* a span contains another one that is not empty exactly if they lie in one buffer and all bytes of
  the other one are bytes of it;
* containing orders the spans;
* the length is the number of bytes, and the subtraction in it is never cut off;
* and the empty spans are those without bytes. -/
theorem queries_agree_with_bytes (hs : s.Constructed) (ht : t.Constructed) :
    (s.overlaps t = true ↔ s.source = t.source ∧ (s.bytes ∩ t.bytes).Nonempty) ∧
    s.overlaps t = t.overlaps s ∧
    (s.isEmpty = true ∨ t.isEmpty = true → s.overlaps t = false) ∧
    (t.isEmpty = false →
      (s.containsSpan t = true ↔ s.source = t.source ∧ t.bytes ⊆ s.bytes)) ∧
    s.containsSpan s = true ∧
    (∀ u, s.containsSpan t = true → t.containsSpan u = true → s.containsSpan u = true) ∧
    (s.containsSpan t = true → t.containsSpan s = true → s = t) ∧
    s.bytes.encard = s.length ∧
    s.start.toNat + s.length = s.stop.toNat ∧
    (s.isEmpty = true ↔ s.bytes = ∅) := by
  refine ⟨hs.overlaps_iff_bytes ht, overlaps_comm s t, ?_, ht.containsSpan_iff_bytes, le_refl s,
    fun u outer inner => ?_, fun outer inner => ?_, encard_bytes s, hs.start_add_length,
    hs.isEmpty_iff_bytes⟩
  · rintro (empty | empty)
    · exact overlaps_of_isEmpty empty
    · exact (overlaps_comm s t).trans (overlaps_of_isEmpty empty)
  · exact le_trans (le_iff_containsSpan.mpr inner) (le_iff_containsSpan.mpr outer)
  · exact le_antisymm (le_iff_containsSpan.mpr inner) (le_iff_containsSpan.mpr outer)

/-- A span that was merged with the end of its buffer, and one inside it; a point that it contains
overlaps neither. -/
theorem queries_of_merged_span :
    let outer := (⟨⟨1⟩, 10, 20⟩ : Span).merge (point ⟨1⟩ 4294967295)
    let inner : Span := ⟨⟨1⟩, 15, 30⟩
    outer.Constructed ∧ inner.Constructed ∧ (outer.bytes ∩ inner.bytes).Nonempty ∧
      inner.bytes ⊆ outer.bytes ∧ inner.overlaps outer = true ∧
      outer.bytes.encard = 4294967285 ∧ outer.bytes ≠ ∅ ∧
      outer.overlaps (point ⟨1⟩ 15) = false ∧ outer.containsSpan (point ⟨1⟩ 15) = true := by
  intro outer inner
  have made : tryNew ⟨1⟩ 10 20 = .ok ⟨⟨1⟩, 10, 20⟩ := by decide
  have ranged : tryFromRange ⟨1⟩ 15 30 = .ok inner := by decide
  have ho : outer.Constructed := .merge (.tryNew made) (.point ⟨1⟩ 4294967295)
  have hi : inner.Constructed := .tryFromRange ranged
  obtain ⟨overlap, symmetric, -, inside, -, -, -, count, -, empty⟩ :=
    queries_agree_with_bytes ho hi
  obtain ⟨-, -, none, -, -, through, -⟩ := queries_agree_with_bytes ho (.point ⟨1⟩ 15)
  have overlaps : outer.overlaps inner = true := by decide
  refine ⟨ho, hi, (overlap.mp overlaps).2, ((inside (by decide)).mp (by decide)).2,
    symmetric.symm.trans overlaps, count, fun noBytes => ?_, none (.inr (by decide)),
    through (point ⟨1⟩ 15) (by decide) (by decide)⟩
  exact absurd (empty.mpr noBytes) (by decide)

/-- The offsets have to be checked: an inverted span has no bytes, and overlaps another one. -/
example : let inverted : Span := ⟨⟨1⟩, 5, 3⟩
    inverted.length = 0 ∧ inverted.overlaps ⟨⟨1⟩, 0, 10⟩ = true := by decide

end DesignTree.Span
