import DesignTree.Proofs.Span
import Mathlib.Order.Bounds.Basic
/-!
# DesignTree.Proofs.Span.Hull

Merging a list of spans onto a first one.

Merging keeps the first of two spans in different buffers, so it does not commute. What a list of
spans adds to a first one is still independent of the order: the result is the least span that
contains the first one and those of the list that lie in its buffer (`isLUB_foldl_merge`). Two lists
that have the same spans in that buffer give the same result, in whatever order and however often
they list them.
-/

namespace DesignTree.Span

/-- The spans that are merged when a list is merged onto a first span: the first one, and those of
the list that lie in its buffer. -/
def joined (s : Span) (spans : List Span) : Set Span :=
  {t | t ∈ s :: spans ∧ t.source = s.source}

variable {s t u : Span} {spans : List Span}

instance : Decidable (t ∈ joined s spans) :=
  inferInstanceAs (Decidable (t ∈ s :: spans ∧ t.source = s.source))

theorem forall_mem_joined {p : Span → Prop} :
    (∀ t ∈ joined s spans, p t) ↔ p s ∧ ∀ t ∈ spans, t.source = s.source → p t := by
  simp [joined, and_imp]

theorem self_mem_joined (s : Span) (spans : List Span) : s ∈ joined s spans :=
  ⟨List.mem_cons_self, rfl⟩

/-- The order of the list does not matter for what is merged. -/
theorem joined_perm {other : List Span} (h : other.Perm spans) :
    joined s other = joined s spans := by
  ext t
  exact and_congr_left' (h.cons s).mem_iff

@[simp] theorem source_foldl_merge (s : Span) (spans : List Span) :
    (spans.foldl merge s).source = s.source := by
  induction spans generalizing s with
  | nil => rfl
  | cons t rest ih => exact (ih (s.merge t)).trans (source_merge s t)

/-! ### The least span around all -/

theorem foldl_merge_le_iff :
    spans.foldl merge s ≤ u ↔ ∀ t ∈ joined s spans, t ≤ u := by
  rw [forall_mem_joined]
  induction spans generalizing s with
  | nil => simp
  | cons t rest ih =>
    -- The merged span takes the first one's place, and lies in the same buffer.
    rw [List.foldl_cons, ih, merge_le_iff, source_merge, List.forall_mem_cons, and_assoc]

theorem isLUB_foldl_merge (s : Span) (spans : List Span) :
    IsLUB (joined s spans) (spans.foldl merge s) :=
  isLUB_iff_le_iff.mpr fun _ => foldl_merge_le_iff

/-- The result depends only on the set of spans that are merged. -/
theorem foldl_merge_congr {other : List Span} (h : joined s other = joined s spans) :
    other.foldl merge s = spans.foldl merge s :=
  (h ▸ isLUB_foldl_merge s other).unique (isLUB_foldl_merge s spans)

/-! ### Its offsets -/

/-- An offset that merging takes from one of two spans is taken from one of all that are merged. -/
theorem exists_offset_eq {offset : Span → UInt32}
    (chosen : ∀ s t, offset (s.merge t) = offset s ∨
      t.source = s.source ∧ offset (s.merge t) = offset t) :
    ∃ t ∈ joined s spans, offset t = offset (spans.foldl merge s) := by
  induction spans generalizing s with
  | nil => exact ⟨s, self_mem_joined s [], rfl⟩
  | cons t rest ih =>
    obtain ⟨u, ⟨member, same⟩, taken⟩ := ih (s := s.merge t)
    rw [source_merge] at same
    rcases List.mem_cons.mp member with rfl | later
    · rcases chosen s t with first | ⟨beside, second⟩
      · exact ⟨s, self_mem_joined s _, first.symm.trans taken⟩
      · exact ⟨t, ⟨by simp, beside⟩, second.symm.trans taken⟩
    · exact ⟨u, ⟨by simp [later], same⟩, taken⟩

theorem start_merge (s t : Span) : (s.merge t).start = s.start ∨
    t.source = s.source ∧ (s.merge t).start = t.start := by
  by_cases same : t.source = s.source
  · rw [merge_of_source_eq same]
    exact Std.min_eq_or.imp_right fun second => ⟨same, second⟩
  · exact .inl (by rw [merge_of_source_ne same])

theorem stop_merge (s t : Span) : (s.merge t).stop = s.stop ∨
    t.source = s.source ∧ (s.merge t).stop = t.stop := by
  by_cases same : t.source = s.source
  · rw [merge_of_source_eq same]
    by_cases shorter : s.stop ≤ t.stop
    · exact .inr ⟨same, if_pos shorter⟩
    · exact .inl (if_neg shorter)
  · exact .inl (by rw [merge_of_source_ne same])

theorem isLeast_start (s : Span) (spans : List Span) :
    IsLeast (start '' joined s spans) (spans.foldl merge s).start := by
  refine ⟨exists_offset_eq start_merge, ?_⟩
  rintro _ ⟨t, member, rfl⟩
  exact (containsSpan_iff.mp ((isLUB_foldl_merge s spans).1 member)).2.1

theorem isGreatest_stop (s : Span) (spans : List Span) :
    IsGreatest (stop '' joined s spans) (spans.foldl merge s).stop := by
  refine ⟨exists_offset_eq stop_merge, ?_⟩
  rintro _ ⟨t, member, rfl⟩
  exact (containsSpan_iff.mp ((isLUB_foldl_merge s spans).1 member)).2.2

/-- Merging a list of spans onto a first one gives the hull of the first one and those of the list
that lie in its buffer:

* it lies in this buffer, starts where the first of them starts, and stops where the last of them
  stops;
* a list in another order, with repetitions, or with other spans of other buffers, gives the same;
* it is not inverted, if the first span is not;
* it contains all of them, and is contained in every span that does. -/
theorem merging_gives_hull (s : Span) (spans : List Span) :
    let hull := spans.foldl merge s
    hull.source = s.source ∧
    IsLeast (start '' joined s spans) hull.start ∧
    IsGreatest (stop '' joined s spans) hull.stop ∧
    (∀ other : List Span, other.Perm spans → other.foldl merge s = hull) ∧
    (∀ other : List Span, joined s other = joined s spans → other.foldl merge s = hull) ∧
    (s.Constructed → hull.start ≤ hull.stop) ∧
    (∀ t ∈ joined s spans, hull.containsSpan t = true) ∧
    ∀ outer : Span, (∀ t ∈ joined s spans, outer.containsSpan t = true) →
      outer.containsSpan hull = true := by
  intro hull
  have least : IsLUB (joined s spans) hull := isLUB_foldl_merge s spans
  refine ⟨source_foldl_merge s spans, isLeast_start s spans, isGreatest_stop s spans,
    fun other perm => foldl_merge_congr (joined_perm perm), fun other => foldl_merge_congr,
    fun made => ?_, fun t member => least.1 member, fun outer contains => least.2 contains⟩
  exact start_le_stop_of_le (least.1 (self_mem_joined s spans)) made.start_le_stop

/-- Spans of two buffers around and inside a first one, a point and one that ends at the last offset
among them: turned around, and with one of them twice and the foreign one left out, they give the
same. -/
theorem merging_across_buffers :
    let first : Span := ⟨⟨1⟩, 20, 30⟩
    let foreign : Span := ⟨⟨2⟩, 0, 99⟩
    let late : Span := ⟨⟨1⟩, 25, 4294967295⟩
    let spans := [foreign, point ⟨1⟩ 10, late]
    let hull := spans.foldl merge first
    hull = ⟨⟨1⟩, 10, 4294967295⟩ ∧ hull.start ≤ hull.stop ∧
      spans.reverse.foldl merge first = hull ∧
      [late, point ⟨1⟩ 10, late, first].foldl merge first = hull ∧
      hull.containsSpan (point ⟨1⟩ 10) = true ∧
      (⟨⟨1⟩, 0, 4294967295⟩ : Span).containsSpan hull = true := by
  intro first foreign late spans hull
  obtain ⟨-, -, -, ordered, depends, upright, contains, least⟩ := merging_gives_hull first spans
  have made : first.Constructed := constructed_iff.mpr (by decide)
  have same : joined first [late, point ⟨1⟩ 10, late, first] = joined first spans :=
    Set.Subset.antisymm (forall_mem_joined.mpr ⟨by decide, by decide⟩)
      (forall_mem_joined.mpr ⟨by decide, by decide⟩)
  exact ⟨by decide, upright made, ordered _ (List.reverse_perm _), depends _ same,
    contains _ (by decide), least _ (forall_mem_joined.mpr ⟨by decide, by decide⟩)⟩

end DesignTree.Span
