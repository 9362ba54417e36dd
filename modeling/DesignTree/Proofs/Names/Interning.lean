import DesignTree.Proofs.Names.Run
/-!
# DesignTree.Proofs.Names.Interning

What names mean to those who hold them.

Over a whole run a name is as good as the text and class that it was issued for: different pairs
never share a tag, a pair never has two, and neither interning more nor asking ever changes what a
name resolves to (`names_identify_text_and_class`). A table that is shown any 32-bit word resolves
it only if it issued that word (`resolve_accepts_what_was_issued`).
-/

namespace DesignTree.NameTable

variable {requests : List NameRequest} {point : Nat} {text : String} {cls : CaseClass}
  {name : Name}

/-- All slots of the shard in which a text belongs were taken before a point of the run, by as many
other texts. -/
def SlotsTaken (requests : List NameRequest) (point : Nat) (text : String) : Prop :=
  ∃ texts : List String, texts.length = slotCount ∧ texts.Nodup ∧ text ∉ texts ∧
    ∀ other ∈ texts, home other = home text ∧
      ∃ cls name, IssuedBefore requests point other cls name

/-- A request to intern is answered with a name, unless all slots are taken. -/
theorem internedAt_or_slotsTaken (h : requests[point]? = some (.intern text cls)) :
    (∃ name, InternedAt requests point text cls name) ∨ SlotsTaken requests point text := by
  have reflects := reflects_tableAt requests point
  cases hintern : (tableAt requests point).intern text cls with
  | ok result => exact .inl ⟨result.1, (internedAt_iff h).mpr ⟨rfl, result.2, hintern⟩⟩
  | error e =>
    obtain ⟨texts, hlength, hnodup, hnew, htexts⟩ :=
      (full_of_intern reflects.wellFormed hintern).2.exists_texts reflects.wellFormed
    refine .inr ⟨texts, hlength, hnodup, hnew, fun other hother => ?_⟩
    obtain ⟨hhome, n, hresolve⟩ := htexts other hother
    exact ⟨hhome, n.caseClass, n, resolve_tableAt_iff.mp hresolve⟩

/-- Two names that were issued before a point are one name exactly if they were issued for the same
text and class. -/
theorem IssuedBefore.name_eq_iff {t₁ t₂ : String} {c₁ c₂ : CaseClass} {n₁ n₂ : Name}
    (h₁ : IssuedBefore requests point t₁ c₁ n₁) (h₂ : IssuedBefore requests point t₂ c₂ n₂) :
    n₁ = n₂ ↔ t₁ = t₂ ∧ c₁ = c₂ := by
  have found₁ := get?_tableAt_iff.mpr h₁
  have found₂ := get?_tableAt_iff.mpr h₂
  constructor
  · rintro rfl
    obtain ⟨resolved₁, hclass₁⟩ :=
      (get?_eq_some_iff (reflects_tableAt requests point).wellFormed).mp found₁
    obtain ⟨resolved₂, hclass₂⟩ :=
      (get?_eq_some_iff (reflects_tableAt requests point).wellFormed).mp found₂
    rw [resolved₁] at resolved₂
    exact ⟨Except.ok.inj resolved₂, hclass₁.symm.trans hclass₂⟩
  · rintro ⟨rfl, rfl⟩
    rw [found₁] at found₂
    exact Option.some.inj found₂

/-- Over any run on one table: two answers to intern are the same tag exactly if the texts and
the classes are the same; a name tells its class, and from when it is issued on it resolves to its
text; a text is found in a class exactly if it was interned in it before, and then under the name
it got; asking changes nothing; and interning only fails where all slots are taken. -/
theorem names_identify_text_and_class (requests : List NameRequest) :
    (∀ i j t₁ c₁ n₁ t₂ c₂ n₂, InternedAt requests i t₁ c₁ n₁ → InternedAt requests j t₂ c₂ n₂ →
      (n₁.raw = n₂.raw ↔ t₁ = t₂ ∧ c₁ = c₂)) ∧
    (∀ i t c n, InternedAt requests i t c n →
      (n.isCaseSensitive = true ↔ c = .sensitive) ∧
        ∀ k, i < k → (tableAt requests k).resolve n = .ok t) ∧
    (∀ k t c n, (tableAt requests k).get? t c = some n ↔
      (t = "" ∧ c = .insensitive ∧ n = .empty) ∨ ∃ i < k, InternedAt requests i t c n) ∧
    (∀ k, (∀ t c, requests[k]? ≠ some (.intern t c)) →
      tableAt requests (k + 1) = tableAt requests k) ∧
    ∀ i t c, requests[i]? = some (.intern t c) →
      (∃ n, InternedAt requests i t c n) ∨ SlotsTaken requests i t := by
  refine ⟨?_, ?_, fun k t c n => get?_tableAt_iff, ?_, fun i t c => internedAt_or_slotsTaken⟩
  · intro i j t₁ c₁ n₁ t₂ c₂ n₂ first second
    have issued₁ := first.issuedBefore (Nat.lt_succ_of_le (Nat.le_max_left i j))
    have issued₂ := second.issuedBefore (Nat.lt_succ_of_le (Nat.le_max_right i j))
    rw [← issued₁.name_eq_iff issued₂]
    exact ⟨Name.raw_injective, congrArg Name.raw⟩
  · intro i t c n interned
    have hclass := (reflects_tableAt requests (i + 1)).class_eq t c n
      (interned.issuedBefore (Nat.lt_succ_self i))
    refine ⟨by rw [← hclass, Name.isCaseSensitive, beq_iff_eq], fun k hk => ?_⟩
    exact resolve_tableAt_iff.mpr (hclass.symm ▸ interned.issuedBefore hk)
  · intro k asks
    rw [tableAt_succ]
    cases hrequest : requests[k]? with
    | none => rfl
    | some request =>
      cases request with
      | intern t c => exact absurd hrequest (asks t c)
      | get t c => rfl
      | resolve n => rfl

theorem home_a : home "a" = 1 := by
  decide +kernel

theorem shard_one_empty : empty.shard 1 = .empty := by
  rw [shard_empty]
  exact if_neg (by decide)

/-- One text in both classes, and once more in the first: it has one tag for each class. -/
theorem names_of_text_in_both_classes :
    let requests : List NameRequest := [.intern "a" .insensitive, .intern "a" .sensitive,
      .resolve .empty, .intern "a" .insensitive]
    let plain : Name := ⟨.insensitive, 1, 0⟩
    let extended : Name := ⟨.sensitive, 1, 0⟩
    (InternedAt requests 0 "a" .insensitive plain ∧ InternedAt requests 1 "a" .sensitive extended ∧
      InternedAt requests 3 "a" .insensitive plain) ∧
    plain.raw ≠ extended.raw ∧ (tableAt requests 3).resolve extended = .ok "a" ∧
      tableAt requests 3 = tableAt requests 2 ∧
        ((∃ n, InternedAt requests 3 "a" .insensitive n) ∨ SlotsTaken requests 3 "a") := by
  intro requests plain extended
  obtain ⟨first, second, again⟩ : InternedAt requests 0 "a" .insensitive plain ∧
      InternedAt requests 1 "a" .sensitive extended ∧
        InternedAt requests 3 "a" .insensitive plain := by
    simp [requests, plain, extended, InternedAt, tableAt, serveAll, serve, intern, home_a,
      shard_store, shard_one_empty, NameShard.find?, NameShard.slotFor, NameShard.empty,
      NameShard.store, NameEntry.fresh, NameEntry.withClass, NameEntry.holds]
  obtain ⟨same, resolved, -, asked, answered⟩ := names_identify_text_and_class requests
  refine ⟨⟨first, second, again⟩, ?_, (resolved 1 _ _ _ second).2 3 (by decide),
    asked 2 (by simp [requests]), answered 3 _ _ rfl⟩
  rw [ne_eq, same 0 1 _ _ _ _ _ _ first second]
  simp

/-- Whatever word a table is shown at any point of a run: it resolves the word exactly if this is
the tag of the empty text or was issued before, and then to the text it was issued for; otherwise
it answers that this very name is not known. So a tag some bits of which were flipped resolves only
if it was issued as well, for a text in the class that it then has. All slots that the table reads
are slots that the shard has. -/
theorem resolve_accepts_what_was_issued (requests : List NameRequest) (point : Nat)
    (tag : UInt32) :
    (∀ text, (tableAt requests point).resolve (.ofRaw tag) = .ok text ↔
      (tag = Name.empty.raw ∧ text = "") ∨
        ∃ i < point, ∃ cls issued, InternedAt requests i text cls issued ∧ issued.raw = tag) ∧
    ((∀ text, (tableAt requests point).resolve (.ofRaw tag) ≠ .ok text) →
      (tableAt requests point).resolve (.ofRaw tag) = .error (.notFound (.ofRaw tag)) ∧
        (Name.ofRaw tag).raw = tag) ∧
    (∀ mask text, (tableAt requests point).resolve (.ofRaw (tag ^^^ mask)) = .ok text →
      IssuedBefore requests point text (Name.ofRaw (tag ^^^ mask)).caseClass
        (.ofRaw (tag ^^^ mask))) ∧
    (∀ text, (tableAt requests point).resolve (.ofRaw tag) = .ok text →
      (Name.ofRaw tag).slot.val <
        ((tableAt requests point).shard (Name.ofRaw tag).shard).entries.size) ∧
    ∀ (id : ShardId) (text : String) (slot : Slot),
      ((tableAt requests point).shard id).slots[text]? = some slot →
        slot.val < ((tableAt requests point).shard id).entries.size := by
  have reflects := reflects_tableAt requests point
  refine ⟨fun text => ?_, fun unknown => ⟨resolve_eq_error unknown, Name.raw_ofRaw tag⟩,
    fun mask text => resolve_tableAt_iff.mp, fun text hresolve => ?_, fun id text slot hslot => ?_⟩
  · rw [reflects.resolve_iff]
    constructor
    · rintro ⟨cls, ⟨rfl, -, hempty⟩ | ⟨i, hi, interned⟩⟩
      · exact .inl ⟨by rw [← hempty, Name.raw_ofRaw], rfl⟩
      · exact .inr ⟨i, hi, cls, .ofRaw tag, interned, Name.raw_ofRaw tag⟩
    · rintro (⟨rfl, rfl⟩ | ⟨i, hi, cls, issued, interned, rfl⟩)
      · exact ⟨.insensitive, .inl ⟨rfl, rfl, Name.ofRaw_raw .empty⟩⟩
      · exact ⟨cls, .inr ⟨i, hi, (Name.ofRaw_raw issued).symm ▸ interned⟩⟩
  · obtain ⟨entry, hentry, -⟩ := resolve_eq_ok_iff.mp hresolve
    exact (Array.getElem?_eq_some_iff.mp hentry).1
  · exact (reflects.wellFormed id).slot_lt hslot

/-- The tag of a text, and the word that differs from it in the class. -/
theorem resolve_refuses_other_class :
    let requests : List NameRequest := [.intern "a" .insensitive]
    let tag : UInt32 := 0x08000000
    let flipped : UInt32 := 0x88000000
    (tableAt requests 1).resolve (.ofRaw tag) = .ok "a" ∧
      (tableAt requests 1).resolve (.ofRaw flipped) = .error (.notFound (.ofRaw flipped)) ∧
      IssuedBefore requests 1 "a" (Name.ofRaw (flipped ^^^ 0x80000000)).caseClass
        (.ofRaw (flipped ^^^ 0x80000000)) ∧
      (Name.ofRaw tag).slot.val <
        ((tableAt requests 1).shard (Name.ofRaw tag).shard).entries.size ∧
      (0 : Slot).val < ((tableAt requests 1).shard 1).entries.size := by
  intro requests tag flipped
  have hflipped : Name.ofRaw flipped = ⟨.sensitive, 1, 0⟩ := by decide
  obtain ⟨interned, unknown, stored⟩ :
      InternedAt requests 0 "a" .insensitive ⟨.insensitive, 1, 0⟩ ∧
        (∀ text, (tableAt requests 1).resolve (.ofRaw flipped) ≠ .ok text) ∧
          ((tableAt requests 1).shard 1).slots["a"]? = some 0 := by
    simp [requests, hflipped, InternedAt, tableAt, serveAll, serve, intern, resolve, home_a,
      shard_store, shard_one_empty, NameShard.find?, NameShard.slotFor, NameShard.empty,
      NameShard.store, NameEntry.fresh, NameEntry.withClass, NameEntry.holds]
  obtain ⟨accepts, -, -, bounded, slots⟩ := resolve_accepts_what_was_issued requests 1 tag
  obtain ⟨-, refuses, flips, -⟩ := resolve_accepts_what_was_issued requests 1 flipped
  have known : (tableAt requests 1).resolve (.ofRaw tag) = .ok "a" :=
    (accepts "a").mpr (.inr ⟨0, by decide, _, _, interned, by decide⟩)
  have restored : flipped ^^^ 0x80000000 = tag := by decide
  refine ⟨known, (refuses unknown).1, flips 0x80000000 "a" ?_, bounded "a" known,
    slots 1 "a" 0 stored⟩
  rw [restored]
  exact known

end DesignTree.NameTable
