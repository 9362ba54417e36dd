import DesignTree.Proofs.Names.Shard
/-!
# DesignTree.Proofs.Names.Table

What a name table knows, and how interning changes it.

The knowledge of a table is which names it resolves, and to which texts. In a well-formed table a
name is found for a text and class exactly if it resolves to that text and is of that class
(`get?_eq_some_iff`); so no two names stand for the same text and class. Interning adds one name to
what the table resolves and keeps all others (`Interns`), or it fails because all slots of the shard
are taken by other texts (`Full`).
-/

namespace DesignTree.NameTable

/-- All shards are well-formed. -/
def WellFormed (table : NameTable) : Prop :=
  ∀ id : ShardId, (table.shard id).WellFormed id

variable {table after : NameTable} {name : Name} {text : String} {cls : CaseClass}

/-! ### Resolving and finding -/

theorem resolve_eq_ok_iff :
    table.resolve name = .ok text ↔
      (table.shard name.shard).Holds name.slot text name.caseClass := by
  unfold resolve NameShard.Holds
  cases hentry : (table.shard name.shard).entries[name.slot.val]? with
  | none => simp
  | some entry =>
    by_cases hclass : entry.holds name.caseClass = true
    · simp [hclass]
    · simp [hclass]

/-- A table that cannot resolve a name says which one. -/
theorem resolve_eq_error (h : ∀ text, table.resolve name ≠ .ok text) :
    table.resolve name = .error (.notFound name) := by
  unfold resolve at h ⊢
  split
  next => rfl
  next entry hentry =>
    split
    next hclass =>
      refine absurd ?_ (h entry.text)
      rw [hentry]
      exact if_pos hclass
    next => rfl

theorem get?_eq_some_iff (wf : table.WellFormed) :
    table.get? text cls = some name ↔ table.resolve name = .ok text ∧ name.caseClass = cls := by
  rw [resolve_eq_ok_iff]
  unfold get?
  constructor
  · intro h
    split at h
    next => cases h
    next slot hfind =>
      cases h
      exact ⟨(wf (home text)).find?_eq_some_iff.mp hfind, rfl⟩
  · obtain ⟨c, id, slot⟩ := name
    rintro ⟨held, rfl⟩
    -- The shard of a name that resolves is the one where its text belongs.
    obtain rfl : home text = id := by
      obtain ⟨entry, hentry, rfl, -⟩ := held
      exact (wf id).home _ entry hentry
    rw [(wf (home text)).find?_eq_some_iff.mpr held]

/-! ### Interning -/

/-- Interning a text in a class: the name is of that class, and after it the table resolves this
name to the text and every other name as before. -/
structure Interns (table : NameTable) (text : String) (cls : CaseClass) (name : Name)
    (after : NameTable) : Prop where
  wellFormed : after.WellFormed
  class_eq : name.caseClass = cls
  resolve_iff : ∀ n t, after.resolve n = .ok t ↔
    table.resolve n = .ok t ∨ n = name ∧ t = text

/-- The shard of a text has no slot for it, because it has so many other texts. -/
structure Full (table : NameTable) (text : String) : Prop where
  absent : (table.shard (home text)).slots[text]? = none
  size_eq : (table.shard (home text)).entries.size = slotCount

/-- The shards of a table in which one text was stored. -/
theorem shard_store (slot : Slot) (id : ShardId) :
    (table.store text cls slot).shard id =
      if home text = id then (table.shard (home text)).store text cls slot
      else table.shard id :=
  getElem_modifyShard table.shards (home text) id (·.store text cls slot)

/-- Storing a text at the slot that its shard has for it. -/
theorem interns_store {slot : Slot} (wf : table.WellFormed)
    (h : (table.shard (home text)).slotFor text = .ok slot) :
    table.Interns text cls ⟨cls, home text, slot⟩ (table.store text cls slot) where
  wellFormed := by
    intro id
    rw [shard_store]
    split
    next hid => exact hid ▸ NameShard.wellFormed_store (wf (home text)) rfl h
    next => exact wf id
  class_eq := rfl
  resolve_iff := by
    rintro ⟨c, id, other⟩ t
    simp only [resolve_eq_ok_iff, shard_store]
    split
    next hid =>
      subst hid
      rw [NameShard.holds_store (wf (home text)) h]
      simp only [Name.mk.injEq, true_and, and_assoc, and_comm]
    next hid =>
      have elsewhere : (⟨c, id, other⟩ : Name) ≠ ⟨cls, home text, slot⟩ := by
        intro e
        cases e
        exact hid rfl
      simp [elsewhere]

/-- What interning does: the text is found, or it is stored, or there is no slot for it. -/
theorem intern_cases (table : NameTable) (text : String) (cls : CaseClass) :
    (∃ slot, (table.shard (home text)).find? text cls = some slot ∧
      table.intern text cls = .ok (⟨cls, home text, slot⟩, table)) ∨
    (∃ slot, (table.shard (home text)).slotFor text = .ok slot ∧
      table.intern text cls = .ok (⟨cls, home text, slot⟩, table.store text cls slot)) ∨
    ∃ count, (table.shard (home text)).slotFor text = .error count ∧
      table.intern text cls = .error (.shardOverflow (home text) count) := by
  unfold intern
  dsimp only
  split
  next slot hfind => exact .inl ⟨slot, hfind, rfl⟩
  next =>
    split
    next count hslot => exact .inr (.inr ⟨count, hslot, rfl⟩)
    next slot hslot => exact .inr (.inl ⟨slot, hslot, rfl⟩)

theorem interns_of_intern (wf : table.WellFormed)
    (h : table.intern text cls = .ok (name, after)) : table.Interns text cls name after := by
  obtain ⟨slot, hfind, hintern⟩ | ⟨slot, hslot, hintern⟩ | ⟨count, -, hintern⟩ :=
    intern_cases table text cls
  · rw [hintern] at h
    cases h
    have known := (wf (home text)).find?_eq_some_iff.mp hfind
    refine ⟨wf, rfl, fun n t => ⟨.inl, ?_⟩⟩
    rintro (held | ⟨rfl, rfl⟩)
    · exact held
    · exact resolve_eq_ok_iff.mpr known
  · rw [hintern] at h
    cases h
    exact interns_store wf hslot
  · rw [hintern] at h
    cases h

theorem full_of_intern (wf : table.WellFormed) {e : NameError}
    (h : table.intern text cls = .error e) :
    e = .shardOverflow (home text) slotCount ∧ table.Full text := by
  obtain ⟨slot, -, hintern⟩ | ⟨slot, -, hintern⟩ | ⟨count, hslot, hintern⟩ :=
    intern_cases table text cls
  · rw [hintern] at h
    cases h
  · rw [hintern] at h
    cases h
  · rw [hintern] at h
    cases h
    obtain ⟨absent, rfl, enough⟩ := NameShard.slotFor_eq_error hslot
    have full := Nat.le_antisymm (wf (home text)).size_le enough
    exact ⟨by rw [full], absent, full⟩

/-- The texts that fill a shard: as many as there are slots, all different, each with a name that
the table resolves, and the text that was refused is not among them. -/
theorem Full.exists_texts (wf : table.WellFormed) (full : table.Full text) :
    ∃ texts : List String, texts.length = slotCount ∧ texts.Nodup ∧ text ∉ texts ∧
      ∀ other ∈ texts, home other = home text ∧ ∃ name, table.resolve name = .ok other := by
  have shard := wf (home text)
  refine ⟨(table.shard (home text)).entries.toList.map (·.text), ?_, shard.nodup_texts, ?_, ?_⟩
  · rw [List.length_map, Array.length_toList, full.size_eq]
  · intro hmem
    obtain ⟨entry, hentry, htext⟩ := List.mem_map.mp hmem
    obtain ⟨i, hi, rfl⟩ := List.getElem_of_mem hentry
    rw [Array.length_toList] at hi
    have known := (shard.slot_iff text ⟨i, full.size_eq ▸ hi⟩).mpr
      ⟨_, Array.getElem?_eq_getElem hi, htext⟩
    rw [full.absent] at known
    cases known
  · intro other hmem
    obtain ⟨entry, hentry, rfl⟩ := List.mem_map.mp hmem
    obtain ⟨i, hi, rfl⟩ := List.getElem_of_mem hentry
    rw [Array.length_toList] at hi
    have present := Array.getElem?_eq_getElem hi
    obtain ⟨cls, hclass⟩ := shard.inhabited i _ present
    refine ⟨shard.home i _ present, ⟨cls, home text, ⟨i, full.size_eq ▸ hi⟩⟩, ?_⟩
    exact resolve_eq_ok_iff.mpr ⟨_, present, rfl, hclass⟩

/-! ### A fresh table -/

/-- A fresh table is what storing the empty text leaves of a table without texts. -/
theorem shard_empty (id : ShardId) :
    empty.shard id = if Name.empty.shard = id then
      NameShard.empty.store "" .insensitive Name.empty.slot else .empty := by
  by_cases hid : Name.empty.shard = id
  · subst hid
    rfl
  · have hval : (0 : Nat) ≠ id.val := fun e => hid (Fin.ext e)
    simp [shard, empty, hid, hval]

theorem home_empty : home "" = Name.empty.shard := by
  decide +kernel

theorem slotFor_empty : NameShard.empty.slotFor "" = .ok Name.empty.slot := by
  simp [NameShard.slotFor, NameShard.empty, Name.empty]

theorem wellFormed_empty : empty.WellFormed := by
  intro id
  rw [shard_empty]
  split
  next hid =>
    exact NameShard.wellFormed_store (NameShard.wellFormed_empty id) (home_empty.trans hid)
      slotFor_empty
  next => exact NameShard.wellFormed_empty id

theorem resolve_empty_iff : empty.resolve name = .ok text ↔ name = .empty ∧ text = "" := by
  have nothing : ∀ slot, ¬ NameShard.empty.Holds slot text name.caseClass := by
    rintro slot ⟨entry, hentry, -⟩
    simp [NameShard.empty] at hentry
  rw [resolve_eq_ok_iff, shard_empty]
  split
  next hid =>
    rw [NameShard.holds_store (NameShard.wellFormed_empty name.shard) slotFor_empty]
    obtain ⟨c, id, slot⟩ := name
    subst hid
    simp [nothing, Name.empty, and_comm, and_assoc]
  next hid =>
    have elsewhere : name ≠ .empty := fun e => hid (by rw [e])
    simp [nothing, elsewhere]

end DesignTree.NameTable
