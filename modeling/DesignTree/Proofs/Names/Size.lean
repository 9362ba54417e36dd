import DesignTree.Proofs.Names.Interning
import Mathlib.Data.Set.Card
/-!
# DesignTree.Proofs.Names.Size

How many names a table holds.

The size of a table is a number that it keeps beside its shards and raises when it stores a text for
a class. At every point of a run this is how many pairs of a text and a class names were issued for
(`encard_pairsAt`), and how many of all words the table resolves (`encard_tags`): a pair that is
asked for again is found and not stored, and two pairs never share a word.
-/

namespace DesignTree.NameTable

/-- The pairs of a text and a class that names were issued for before a point of a run. -/
def pairsAt (requests : List NameRequest) (point : Nat) : Set (String × CaseClass) :=
  {pair | ∃ name, IssuedBefore requests point pair.1 pair.2 name}

/-- The words that a table resolves. -/
def tags (table : NameTable) : Set UInt32 :=
  {tag | ∃ text, table.resolve (.ofRaw tag) = .ok text}

variable {table after : NameTable} {requests : List NameRequest} {point : Nat} {text : String}
  {cls : CaseClass} {name : Name}

/-! ### One step -/

@[simp] theorem size_empty : empty.size = 1 := rfl

@[simp] theorem size_store (slot : Slot) :
    (table.store text cls slot).size = table.size + 1 := rfl

/-- Interning counts a text that is not found in the class. -/
theorem size_intern (h : table.intern text cls = .ok (name, after)) :
    after.size = table.size + if (table.get? text cls).isSome then 0 else 1 := by
  unfold intern at h
  unfold get?
  cases hfind : (table.shard (home text)).find? text cls with
  | some slot =>
    simp only [hfind] at h
    cases h
    rfl
  | none =>
    simp only [hfind] at h
    split at h
    next => cases h
    next slot hslot =>
      cases h
      exact size_store slot

/-- A request that is answered by a name counts exactly if it is the first for this text and
class. -/
theorem InternedAt.size_succ (h : InternedAt requests point text cls name) :
    ((text, cls) ∈ pairsAt requests point →
      (tableAt requests (point + 1)).size = (tableAt requests point).size) ∧
    ((text, cls) ∉ pairsAt requests point →
      (tableAt requests (point + 1)).size = (tableAt requests point).size + 1) := by
  obtain ⟨-, after, hintern⟩ := (internedAt_iff h.1).mp h
  have counted := size_intern hintern
  have next : tableAt requests (point + 1) = after := by
    rw [tableAt_succ, h.1]
    simp only [serve, hintern]
  rw [next, counted]
  constructor
  · intro old
    obtain ⟨known, issued⟩ := old
    rw [get?_tableAt_iff.mpr issued]
    rfl
  · intro new
    have unknown : (tableAt requests point).get? text cls = none :=
      Option.eq_none_iff_forall_ne_some.mpr fun known found =>
        new ⟨known, get?_tableAt_iff.mp found⟩
    rw [unknown]
    rfl

/-- A request that issues no name leaves the table as it is. -/
theorem tableAt_succ_of_forall_not (h : ∀ text cls name,
      ¬ InternedAt requests point text cls name) :
    tableAt requests (point + 1) = tableAt requests point := by
  rw [tableAt_succ]
  cases hrequest : requests[point]? with
  | none => rfl
  | some request =>
    cases request with
    | get text cls => rfl
    | resolve name => rfl
    | intern text cls =>
      cases hintern : (tableAt requests point).intern text cls with
      | ok result =>
        exact absurd ((internedAt_iff hrequest).mpr ⟨rfl, result.2, hintern⟩)
          (h text cls result.1)
      | error e => simp only [serve, hintern]

/-! ### A run -/

@[simp] theorem mem_pairsAt :
    (text, cls) ∈ pairsAt requests point ↔ ∃ name, IssuedBefore requests point text cls name :=
  Iff.rfl

@[simp] theorem mem_tags {tag : UInt32} :
    tag ∈ table.tags ↔ ∃ text, table.resolve (.ofRaw tag) = .ok text :=
  Iff.rfl

theorem pairsAt_zero : pairsAt requests 0 = {("", .insensitive)} := by
  ext ⟨text, cls⟩
  simp [issuedBefore_zero]

theorem InternedAt.pairsAt_succ (h : InternedAt requests point text cls name) :
    pairsAt requests (point + 1) = insert (text, cls) (pairsAt requests point) := by
  ext ⟨t, c⟩
  simp only [mem_pairsAt, Set.mem_insert_iff, issuedBefore_succ, exists_or, Prod.mk.injEq]
  constructor
  · rintro (before | ⟨n, now⟩)
    · exact .inr before
    · cases h.1.symm.trans now.1
      exact .inl ⟨rfl, rfl⟩
  · rintro (⟨rfl, rfl⟩ | before)
    · exact .inr ⟨name, h⟩
    · exact .inl before

/-- The size is the number of pairs that names were issued for. -/
theorem encard_pairsAt (requests : List NameRequest) (point : Nat) :
    (pairsAt requests point).encard = (tableAt requests point).size := by
  induction point with
  | zero =>
    rw [pairsAt_zero, Set.encard_singleton]
    rfl
  | succ point ih =>
    by_cases issues : ∃ text cls name, InternedAt requests point text cls name
    · obtain ⟨text, cls, name, interned⟩ := issues
      rw [interned.pairsAt_succ]
      by_cases known : (text, cls) ∈ pairsAt requests point
      · rw [interned.size_succ.1 known, Set.insert_eq_of_mem known, ih]
      · rw [interned.size_succ.2 known, Set.encard_insert_of_notMem known, ih]
        rfl
    · simp only [not_exists] at issues
      rw [tableAt_succ_of_forall_not issues, ← ih]
      simp only [pairsAt, issuedBefore_succ_of_forall_not issues]

/-- Each word that a table resolves is that of one pair, and each pair has one. -/
theorem pairsAt_eq_image (requests : List NameRequest) (point : Nat) :
    let table := tableAt requests point
    let pairOf := fun tag : UInt32 =>
      ((table.resolve (.ofRaw tag)).toOption.getD "", (Name.ofRaw tag).caseClass)
    Set.InjOn pairOf table.tags ∧ pairOf '' table.tags = pairsAt requests point := by
  intro table pairOf
  have wf := (reflects_tableAt requests point).wellFormed
  have pairOf_eq {tag : UInt32} {text : String} (h : table.resolve (.ofRaw tag) = .ok text) :
      pairOf tag = (text, (Name.ofRaw tag).caseClass) := by
    simp [pairOf, h, Except.toOption]
  constructor
  · intro tag ⟨text, resolved⟩ other ⟨text', resolved'⟩ same
    rw [pairOf_eq resolved, pairOf_eq resolved', Prod.mk.injEq] at same
    have issued := resolve_tableAt_iff.mp resolved
    have names := (issued.name_eq_iff (resolve_tableAt_iff.mp resolved')).mpr same
    rw [← Name.raw_ofRaw tag, names, Name.raw_ofRaw]
  · ext ⟨text, cls⟩
    constructor
    · intro ⟨tag, ⟨t, resolved⟩, same⟩
      rw [pairOf_eq resolved] at same
      cases same
      exact ⟨.ofRaw tag, resolve_tableAt_iff.mp resolved⟩
    · intro ⟨name, issued⟩
      obtain ⟨resolved, hclass⟩ := (get?_eq_some_iff wf).mp (get?_tableAt_iff.mpr issued)
      rw [← Name.ofRaw_raw name] at resolved
      refine ⟨name.raw, ⟨text, resolved⟩, ?_⟩
      rw [pairOf_eq resolved, Name.ofRaw_raw, hclass]

/-- The size is the number of words that the table resolves. -/
theorem encard_tags (requests : List NameRequest) (point : Nat) :
    (tableAt requests point).tags.encard = (tableAt requests point).size := by
  obtain ⟨injective, image⟩ := pairsAt_eq_image requests point
  rw [← encard_pairsAt, ← image, injective.encard_image]

/-- A table is empty as long as no name was issued but that of the empty text. -/
theorem isEmpty_tableAt_iff :
    (tableAt requests point).isEmpty = true ↔
      ∀ i < point, ∀ t c n, InternedAt requests i t c n → t = "" ∧ c = .insensitive := by
  have seeded : ("", CaseClass.insensitive) ∈ pairsAt requests point :=
    ⟨.empty, .inl ⟨rfl, rfl, rfl⟩⟩
  have small : (tableAt requests point).isEmpty = true ↔ (pairsAt requests point).encard ≤ 1 := by
    rw [encard_pairsAt, isEmpty, decide_eq_true_iff]
    exact Nat.cast_le_one.symm
  rw [small, Set.encard_le_one_iff]
  constructor
  · intro single i hi t c n interned
    have pair : (t, c) ∈ pairsAt requests point := ⟨n, interned.issuedBefore hi⟩
    exact Prod.mk.inj (single _ _ pair seeded)
  · intro only
    have pairs : ∀ pair ∈ pairsAt requests point, pair = ("", .insensitive) := by
      rintro ⟨t, c⟩ ⟨n, ⟨rfl, rfl, -⟩ | ⟨i, hi, interned⟩⟩
      · rfl
      · exact Prod.ext_iff.mpr (only i hi t c n interned)
    intro a b ha hb
    rw [pairs a ha, pairs b hb]

/-- At every point of a run the size of the table is how many words it resolves, and how many pairs
of a text and a class were interned, with the empty text in the insensitive class. A request that is
answered by a name raises it by one if the pair is new and leaves it otherwise, and only a text for
which all slots are taken gets no name; every other request leaves the table as it is. The table is
empty exactly if no other pair was interned. -/
theorem size_counts_names (requests : List NameRequest) (point : Nat) :
    (tableAt requests point).tags.encard = (tableAt requests point).size ∧
    (pairsAt requests point).encard = (tableAt requests point).size ∧
    (∀ t c n, InternedAt requests point t c n →
      ((t, c) ∈ pairsAt requests point →
        (tableAt requests (point + 1)).size = (tableAt requests point).size) ∧
      ((t, c) ∉ pairsAt requests point →
        (tableAt requests (point + 1)).size = (tableAt requests point).size + 1)) ∧
    (∀ t c, requests[point]? = some (.intern t c) →
      (∃ n, InternedAt requests point t c n) ∨ SlotsTaken requests point t) ∧
    ((∀ t c n, ¬ InternedAt requests point t c n) →
      tableAt requests (point + 1) = tableAt requests point) ∧
    ((tableAt requests point).isEmpty = true ↔
      ∀ i < point, ∀ t c n, InternedAt requests i t c n → t = "" ∧ c = .insensitive) :=
  ⟨encard_tags requests point, encard_pairsAt requests point,
    fun _ _ _ interned => interned.size_succ, fun _ _ => internedAt_or_slotsTaken,
    tableAt_succ_of_forall_not, isEmpty_tableAt_iff⟩

/-- One text in both classes, and once more in the first: it counts twice. -/
theorem size_of_text_in_both_classes :
    let requests : List NameRequest := [.intern "a" .insensitive, .intern "a" .sensitive,
      .resolve .empty, .intern "a" .insensitive]
    (tableAt requests 2).size = (tableAt requests 1).size + 1 ∧
      tableAt requests 3 = tableAt requests 2 ∧
      (tableAt requests 4).size = (tableAt requests 3).size ∧
      (tableAt requests 4).tags.encard = 3 ∧ (pairsAt requests 4).encard = 3 ∧
      ((∃ n, InternedAt requests 3 "a" .insensitive n) ∨ SlotsTaken requests 3 "a") ∧
      (tableAt requests 4).isEmpty = false := by
  intro requests
  obtain ⟨first, second, again, size⟩ :
      InternedAt requests 0 "a" .insensitive ⟨.insensitive, 1, 0⟩ ∧
        InternedAt requests 1 "a" .sensitive ⟨.sensitive, 1, 0⟩ ∧
          InternedAt requests 3 "a" .insensitive ⟨.insensitive, 1, 0⟩ ∧
            (tableAt requests 4).size = 3 := by
    simp [requests, InternedAt, tableAt, serveAll, serve, intern, home_a,
      shard_store, shard_one_empty, NameShard.find?, NameShard.slotFor, NameShard.empty,
      NameShard.store, NameEntry.fresh, NameEntry.withClass, NameEntry.holds]
  have new : ("a", CaseClass.sensitive) ∉ pairsAt requests 1 := by
    simp [requests, IssuedBefore, InternedAt]
  obtain ⟨-, -, counts, -⟩ := size_counts_names requests 1
  obtain ⟨-, -, -, -, keeps, -⟩ := size_counts_names requests 2
  obtain ⟨-, -, recounts, answered, -⟩ := size_counts_names requests 3
  obtain ⟨resolved, pairs, -, -, -, empty⟩ := size_counts_names requests 4
  refine ⟨(counts _ _ _ second).2 new, keeps ?_, (recounts _ _ _ again).1 ?_, ?_, ?_,
    answered _ _ rfl, ?_⟩
  · simp [requests, InternedAt]
  · exact ⟨_, first.issuedBefore (by decide)⟩
  · rw [resolved, size]
    rfl
  · rw [pairs, size]
    rfl
  · rw [← Bool.not_eq_true, empty]
    intro only
    exact absurd (only 0 (by decide) _ _ _ first).1 (by decide)

end DesignTree.NameTable
