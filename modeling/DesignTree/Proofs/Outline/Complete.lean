import DesignTree.Proofs.Faults
import DesignTree.Proofs.Outline
/-!
# DesignTree.Proofs.Outline.Complete

Nothing is missing in the outline of a unit without a fault (`SourceUnit.complete_outline`): what
an outline has no content for is just what the audit finds fault with.
-/

namespace DesignTree

open Outline

variable {items : List SourceItem}

/-! ### Headers -/

/-- References in a header without a fault are declared. -/
theorem exists_declaredName {refs : List PortRef} (sound : (auditRefs items refs).fault = none)
    {ref : PortRef} (href : ref ∈ refs) :
    ∃ port, (declaredNames items).find? (·.name == ref.name) = some port := by
  rw [fault_auditRefs, undeclaredRef?, Option.map_eq_none_iff] at sound
  have declared : items.any (·.declaresPort ref.name) = true := by
    simpa using List.find?_eq_none.mp sound ref href
  rwa [← Option.isSome_iff_exists, isSome_find?_declaredNames]

theorem complete_refOutline {refs : List PortRef} (sound : (auditRefs items refs).fault = none) :
    ∀ outline ∈ refs.map (refOutline items), outline.Complete := by
  intro outline h
  obtain ⟨ref, href, rfl⟩ := List.mem_map.mp h
  obtain ⟨port, hport⟩ := exists_declaredName sound href
  rw [refOutline, hport]
  exact .plain

theorem complete_sliceOutlines {previous : Option AnsiPort} {entry : HeaderEntry}
    (sound : (entry.auditSlices items).fault = none) :
    ∀ outline ∈ sliceOutlines items previous entry, outline.Complete := by
  intro outline h
  cases entry with
  | ansi span entry =>
    rw [List.mem_singleton.mp h]
    exact .plain
  | named span outer refs =>
    cases refs with
    | none => cases h
    | some refs => exact complete_refOutline sound outline h
  | unnamed span refs => exact complete_refOutline sound outline h

theorem complete_portOutlines {previous : Option AnsiPort} {entries : List HeaderEntry}
    (sound : (auditEntries items entries).fault = none) :
    ∀ outline ∈ portOutlines items previous entries, outline.Complete := by
  induction entries generalizing previous with
  | nil => simp [portOutlines]
  | cons entry rest ih =>
    intro outline h
    obtain ⟨hentry, hrest⟩ := Audit.fault_andThen_eq_none.mp sound
    rcases List.mem_cons.mp h with rfl | hlater
    · exact .port (complete_sliceOutlines (Audit.fault_andThen_eq_none.mp hentry).2)
    · exact ih hrest outline hlater

/-! ### Units and scopes -/

mutual

theorem SourceUnit.complete_outline :
    ∀ source : SourceUnit, source.audit.fault = none → source.outline.Complete
  | ⟨kind, name, nameSpan, span, header, items⟩, sound => by
    obtain ⟨-, hscope, hheader⟩ := SourceUnit.sound_parts sound
    obtain ⟨hitems, -, hexpand⟩ := fault_auditScope_eq_none.mp hscope
    have hentries := auditHeader_of_fault_eq_none hheader ▸ hheader
    rw [SourceUnit.outline]
    exact .unit (complete_portOutlines hentries) (complete_memberOutlines items hitems)
      (complete_scopeOutlines items hexpand)

theorem SourceItem.complete_outline :
    ∀ item : SourceItem, item.declareAudit.fault = none → item.outline.Complete
  | .unit nested, sound => SourceUnit.complete_outline nested sound
  | .declaration .., _ => .plain
  | .inst .., _ => .plain
  | .generateIf _ _ none _ _, sound => by simp [SourceItem.declareAudit] at sound
  | .generateIf _ _ (some _) _ _, _ => .plain
  | .generateFor _ _ _ none _, sound => by simp [SourceItem.declareAudit] at sound
  | .generateFor _ _ _ (some _) _, _ => .plain
  | .generateBlock .., _ => .plain
  | .malformed _, sound => by simp [SourceItem.declareAudit] at sound

theorem complete_memberOutlines :
    ∀ items : List SourceItem, (declareAudits items).fault = none →
      ∀ bucket, ∀ outline ∈ memberOutlines items bucket, outline.Complete
  | [], _, bucket, outline, h => by simp [memberOutlines] at h
  | item :: rest, sound, bucket, outline, h => by
    obtain ⟨hitem, hrest⟩ := Audit.fault_andThen_eq_none.mp sound
    rw [memberOutlines] at h
    by_cases hbucket : item.bucket = bucket
    · rw [if_pos hbucket] at h
      rcases List.mem_cons.mp h with rfl | hlater
      · exact SourceItem.complete_outline item hitem
      · exact complete_memberOutlines rest hrest bucket outline hlater
    · rw [if_neg hbucket] at h
      exact complete_memberOutlines rest hrest bucket outline h

theorem SourceItem.complete_scopeOutlines :
    ∀ item : SourceItem, item.expandAudit.fault = none →
      ∀ outline ∈ item.scopeOutlines, outline.Complete
  | .unit _, _, _, h => by simp [SourceItem.scopeOutlines] at h
  | .declaration .., _, _, h => by simp [SourceItem.scopeOutlines] at h
  | .inst .., _, _, h => by simp [SourceItem.scopeOutlines] at h
  | .generateIf _ _ none _ _, _, _, h => by simp [SourceItem.scopeOutlines] at h
  | .generateIf _ _ (some true) thenBlock _, sound, _, h =>
    List.mem_singleton.mp h ▸ SourceBlock.complete_outline thenBlock .thenBranch sound
  | .generateIf _ _ (some false) _ none, _, _, h => by simp [SourceItem.scopeOutlines] at h
  | .generateIf _ _ (some false) _ (some elseBlock), sound, _, h =>
    List.mem_singleton.mp h ▸ SourceBlock.complete_outline elseBlock .elseBranch sound
  | .generateFor _ _ _ none _, _, _, h => by simp [SourceItem.scopeOutlines] at h
  | .generateFor _ _ _ (some iterations) block, sound, outline, h => by
    obtain ⟨value, hvalue, rfl⟩ := List.mem_map.mp h
    have positive := List.length_pos_of_mem hvalue
    have hsound := (Audit.fault_times_eq_none.mp sound).resolve_left (by omega)
    exact SourceBlock.complete_outline block (.iteration value) hsound
  | .generateBlock _ _ block, sound, _, h =>
    List.mem_singleton.mp h ▸ SourceBlock.complete_outline block .block sound
  | .malformed _, _, _, h => by simp [SourceItem.scopeOutlines] at h

theorem complete_scopeOutlines :
    ∀ items : List SourceItem, (expandAudits items).fault = none →
      ∀ outline ∈ scopeOutlines items, outline.Complete
  | [], _, outline, h => by simp [scopeOutlines] at h
  | item :: rest, sound, outline, h => by
    obtain ⟨hitem, hrest⟩ := Audit.fault_andThen_eq_none.mp sound
    rw [scopeOutlines] at h
    rcases List.mem_append.mp h with hfirst | hlater
    · exact SourceItem.complete_scopeOutlines item hitem outline hfirst
    · exact complete_scopeOutlines rest hrest outline hlater

theorem SourceBlock.complete_outline :
    ∀ (source : SourceBlock) (branch : Branch), source.audit.fault = none →
      (source.outline branch).Complete
  | ⟨span, label, items⟩, branch, sound => by
    have hscope := (Audit.fault_andThen_eq_none.mp sound).2
    obtain ⟨hitems, -, hexpand⟩ := fault_auditScope_eq_none.mp hscope
    rw [SourceBlock.outline]
    exact .generateScope (complete_memberOutlines items hitems)
      (complete_scopeOutlines items hexpand)

end

end DesignTree
