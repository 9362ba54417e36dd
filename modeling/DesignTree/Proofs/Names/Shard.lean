import DesignTree.Name.Table
import Std.Data.HashMap.Lemmas
/-!
# DesignTree.Proofs.Names.Shard

One shard of a name table.

`NameShard.Holds` is what a shard knows: at which slot a text is stored, and for which classes. In
a well-formed shard the map from texts to slots is the inverse of the entries
(`NameShard.WellFormed`), so looking a text up finds just what the shard holds
(`find?_eq_some_iff`). Storing a text adds one fact to what the shard holds and takes none away
(`holds_store`), and keeps it well-formed (`wellFormed_store`).
-/

namespace DesignTree

namespace NameEntry

@[simp] theorem text_withClass (entry : NameEntry) (cls : CaseClass) :
    (entry.withClass cls).text = entry.text := by
  cases cls <;> rfl

theorem holds_withClass (entry : NameEntry) (cls c : CaseClass) :
    (entry.withClass cls).holds c = true ↔ entry.holds c = true ∨ c = cls := by
  cases cls <;> cases c <;> simp [withClass, holds]

@[simp] theorem text_fresh (text : String) (cls : CaseClass) : (fresh text cls).text = text := by
  simp [fresh]

theorem holds_fresh (text : String) (cls c : CaseClass) :
    (fresh text cls).holds c = true ↔ c = cls := by
  cases cls <;> cases c <;> simp [fresh, withClass, holds]

end NameEntry

namespace NameShard

/-- A text was interned in a class and is stored at a slot. -/
def Holds (shard : NameShard) (slot : Slot) (text : String) (cls : CaseClass) : Prop :=
  ∃ entry : NameEntry, shard.entries[slot.val]? = some entry ∧ entry.text = text ∧
    entry.holds cls = true

/-- The map and the entries of a shard say the same. The shard with the number `id` has only texts
that belong there, each of them for one class at least. -/
structure WellFormed (shard : NameShard) (id : ShardId) : Prop where
  slot_iff : ∀ text (slot : Slot), shard.slots[text]? = some slot ↔
    ∃ entry : NameEntry, shard.entries[slot.val]? = some entry ∧ entry.text = text
  home : ∀ (i : Nat) (entry : NameEntry), shard.entries[i]? = some entry →
    NameTable.home entry.text = id
  inhabited : ∀ (i : Nat) (entry : NameEntry), shard.entries[i]? = some entry →
    ∃ cls, entry.holds cls = true
  size_le : shard.entries.size ≤ slotCount

variable {shard : NameShard} {id : ShardId} {text : String} {cls : CaseClass} {slot : Slot}

theorem wellFormed_empty (id : ShardId) : empty.WellFormed id where
  slot_iff := by simp [empty]
  home := by simp [empty]
  inhabited := by simp [empty]
  size_le := by simp [empty]

/-- Every slot on record is a slot that the shard has. -/
theorem WellFormed.slot_lt (wf : shard.WellFormed id) (h : shard.slots[text]? = some slot) :
    slot.val < shard.entries.size := by
  obtain ⟨entry, hentry, -⟩ := (wf.slot_iff text slot).mp h
  exact (Array.getElem?_eq_some_iff.mp hentry).1

/-- A text is found in a class exactly if it is held. -/
theorem WellFormed.find?_eq_some_iff (wf : shard.WellFormed id) :
    shard.find? text cls = some slot ↔ shard.Holds slot text cls := by
  unfold find?
  constructor
  · intro h
    cases hslot : shard.slots[text]? with
    | none => simp [hslot] at h
    | some found =>
      obtain ⟨entry, hentry, htext⟩ := (wf.slot_iff text found).mp hslot
      simp only [hslot, hentry] at h
      split at h
      next hclass =>
        cases h
        exact ⟨entry, hentry, htext, hclass⟩
      next => cases h
  · rintro ⟨entry, hentry, htext, hclass⟩
    have hslot := (wf.slot_iff text slot).mpr ⟨entry, hentry, htext⟩
    simp only [hslot, hentry, hclass, if_true]

/-! ### Storing a text -/

/-- The slot of a text is the one it has, or else the first that is free. -/
theorem slotFor_eq_ok (h : shard.slotFor text = .ok slot) :
    shard.slots[text]? = some slot ∨
      shard.slots[text]? = none ∧ slot.val = shard.entries.size := by
  unfold slotFor at h
  cases hslot : shard.slots[text]? with
  | some found =>
    simp only [hslot] at h
    cases h
    exact .inl rfl
  | none =>
    simp only [hslot] at h
    split at h
    next room =>
      cases h
      exact .inr ⟨rfl, rfl⟩
    next => cases h

/-- Only a shard without a free slot has none for a text that it does not store. -/
theorem slotFor_eq_error {count : Nat} (h : shard.slotFor text = .error count) :
    shard.slots[text]? = none ∧ count = shard.entries.size ∧ slotCount ≤ shard.entries.size := by
  unfold slotFor at h
  cases hslot : shard.slots[text]? with
  | some found =>
    simp only [hslot] at h
    cases h
  | none =>
    simp only [hslot] at h
    split at h
    next room => cases h
    next full =>
      cases h
      exact ⟨rfl, rfl, Nat.not_lt.mp full⟩

/-- All that storing a text changes: the entry of its slot, which is new or has one more class,
and the slot that the map has for the text. -/
structure Stores (before : NameShard) (text : String) (cls : CaseClass) (slot : Slot)
    (entry : NameEntry) (after : NameShard) : Prop where
  text_eq : entry.text = text
  holds_iff : ∀ c, entry.holds c = true ↔ before.Holds slot text c ∨ c = cls
  replaces : ∀ old : NameEntry, before.entries[slot.val]? = some old → old.text = text
  entries : ∀ i : Nat, after.entries[i]? = if slot.val = i then some entry else before.entries[i]?
  slots : ∀ t, after.slots[t]? = if text = t then some slot else before.slots[t]?
  size_le : after.entries.size ≤ slotCount

theorem stores_store (wf : shard.WellFormed id) (h : shard.slotFor text = .ok slot)
    (cls : CaseClass) :
    ∃ entry, shard.Stores text cls slot entry (shard.store text cls slot) := by
  obtain hslot | ⟨hslot, hsize⟩ := slotFor_eq_ok h
  · -- The text is there already, for the other class: its entry gets one more.
    obtain ⟨entry, hentry, htext⟩ := (wf.slot_iff text slot).mp hslot
    have modified : shard.store text cls slot =
        ⟨shard.slots, shard.entries.modify slot.val (·.withClass cls)⟩ :=
      if_pos (wf.slot_lt hslot)
    rw [modified]
    refine ⟨entry.withClass cls,
      ⟨?_, fun c => ?_, fun old hold => ?_, fun i => ?_, fun t => ?_, ?_⟩⟩
    · rw [NameEntry.text_withClass, htext]
    · rw [NameEntry.holds_withClass]
      simp [Holds, hentry, htext]
    · rw [hentry] at hold
      cases hold
      exact htext
    · simp only [Array.getElem?_modify]
      split
      next hi => rw [← hi, hentry, Option.map_some]
      next => rfl
    · split
      next ht => rw [← ht, hslot]
      next => rfl
    · rw [Array.size_modify]
      exact wf.size_le
  · have outside : ¬ slot.val < shard.entries.size := by omega
    have pushed : shard.store text cls slot =
        ⟨shard.slots.insert text slot, shard.entries.push (.fresh text cls)⟩ := if_neg outside
    have absent : ∀ entry, shard.entries[slot.val]? ≠ some entry := by
      simp [hsize]
    rw [pushed]
    refine ⟨.fresh text cls, ⟨?_, fun c => ?_, fun old hold => ?_, fun i => ?_, fun t => ?_, ?_⟩⟩
    · exact NameEntry.text_fresh text cls
    · rw [NameEntry.holds_fresh]
      simp [Holds, absent]
    · exact absurd hold (absent old)
    · simp only [Array.getElem?_push, hsize, eq_comm]
    · simp only [Std.HashMap.getElem?_insert, beq_iff_eq]
    · have room := slot.isLt
      simp only [Array.size_push]
      omega

/-- Storing adds the fact that it is asked for, and no other. -/
theorem holds_store (wf : shard.WellFormed id) (h : shard.slotFor text = .ok slot)
    {other : Slot} {t : String} {c : CaseClass} :
    (shard.store text cls slot).Holds other t c ↔
      shard.Holds other t c ∨ other = slot ∧ t = text ∧ c = cls := by
  obtain ⟨entry, stores⟩ := stores_store wf h cls
  by_cases hslot : other = slot
  · subst hslot
    have before : shard.Holds other t c → t = text := by
      rintro ⟨old, hold, rfl, -⟩
      exact stores.replaces old hold
    simp only [Holds, stores.entries, if_true, Option.some.injEq, exists_eq_left', stores.text_eq,
      stores.holds_iff, true_and]
    constructor
    · rintro ⟨rfl, held | rfl⟩
      · exact .inl held
      · exact .inr ⟨rfl, rfl⟩
    · rintro (held | ⟨rfl, rfl⟩)
      · cases before held
        exact ⟨rfl, .inl held⟩
      · exact ⟨rfl, .inr rfl⟩
  · have hval : slot.val ≠ other.val := fun e => hslot (Fin.ext e.symm)
    simp [Holds, stores.entries, hval, hslot]

theorem wellFormed_store (wf : shard.WellFormed id) (hhome : NameTable.home text = id)
    (h : shard.slotFor text = .ok slot) : (shard.store text cls slot).WellFormed id := by
  obtain ⟨entry, stores⟩ := stores_store wf h cls
  refine ⟨fun t other => ?_, fun i found hfound => ?_, fun i found hfound => ?_, stores.size_le⟩
  · rw [stores.slots, stores.entries]
    by_cases ht : text = t
    · subst ht
      rw [if_pos rfl, Option.some.injEq]
      constructor
      · rintro rfl
        exact ⟨entry, if_pos rfl, stores.text_eq⟩
      · rintro ⟨found, hfound, htext⟩
        by_cases hslot : slot.val = other.val
        · exact Fin.ext hslot
        · -- Elsewhere the text can only stand where the map has it.
          rw [if_neg hslot] at hfound
          have hold := (wf.slot_iff text other).mpr ⟨found, hfound, htext⟩
          obtain same | ⟨none, -⟩ := slotFor_eq_ok h
          · rw [same] at hold
            exact Option.some.inj hold
          · rw [none] at hold
            cases hold
    · rw [if_neg ht, wf.slot_iff]
      by_cases hslot : slot.val = other.val
      · rw [if_pos hslot, ← hslot]
        constructor
        · rintro ⟨old, hold, rfl⟩
          exact absurd (stores.replaces old hold).symm ht
        · rintro ⟨found, hfound, rfl⟩
          cases hfound
          exact absurd stores.text_eq.symm ht
      · rw [if_neg hslot]
  · rw [stores.entries] at hfound
    split at hfound
    next =>
      cases hfound
      rw [stores.text_eq, hhome]
    next => exact wf.home i found hfound
  · rw [stores.entries] at hfound
    split at hfound
    next =>
      cases hfound
      exact ⟨cls, (stores.holds_iff cls).mpr (.inr rfl)⟩
    next => exact wf.inhabited i found hfound

/-- The texts of a well-formed shard all differ. -/
theorem WellFormed.nodup_texts (wf : shard.WellFormed id) :
    (shard.entries.toList.map (·.text)).Nodup := by
  refine List.pairwise_iff_getElem.mpr fun i j hi hj hij same => ?_
  simp only [List.getElem_map, Array.getElem_toList] at same
  rw [List.length_map, Array.length_toList] at hi hj
  have bound := wf.size_le
  have first := (wf.slot_iff shard.entries[i].text ⟨i, by omega⟩).mpr
    ⟨shard.entries[i], Array.getElem?_eq_getElem hi, rfl⟩
  have second := (wf.slot_iff shard.entries[j].text ⟨j, by omega⟩).mpr
    ⟨shard.entries[j], Array.getElem?_eq_getElem hj, rfl⟩
  rw [same, second] at first
  cases first
  omega

end NameShard

end DesignTree
