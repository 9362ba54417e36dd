import DesignTree.Design.Elaborate
import DesignTree.Proofs.Index.InPlace
import DesignTree.Proofs.Outcome
/-!
# DesignTree.Proofs.Assembly

What a design is made of.

A design that was put together from elaborated units holds the trees of those units and nothing
else: its index has every node of them once, and its list of units names the roots
(`Design.Holds`). Adding one more unit adds one more tree (`holds_addUnit`); a unit that cannot be
added changes nothing. Both ways of putting a design together are repetitions of that step.
-/

namespace DesignTree

open NodeTree Layout

/-- The design consists of the given trees, each of them a laid-out unit. -/
structure Design.Holds (design : Design) (roots : List NodeTree) : Prop where
  unitIds : design.unitIds.toList = roots.map NodeTree.id
  adds : NodeIndex.empty.Adds (nodesOf roots) design.index
  distinct : ((nodesOf roots).map (·.id)).Nodup
  laid : ∀ tree ∈ roots, ∃ name source k, tree = unitTree name source k

namespace Assembly

variable {assembly extended : Assembly} {added : ElaboratedUnit} {roots : List NodeTree}

theorem holds_new (config : DesignConfig) : (new config).design.Holds [] where
  unitIds := rfl
  adds := .refl _
  distinct := List.nodup_nil
  laid := by simp

/-- A unit that is added is the one that its name stands for. -/
theorem getElem?_byName_extend (design : Design) (unit : Placed DesignUnit) (index : NodeIndex)
    (wanted : Name) :
    (extend design unit index).byName[wanted]? =
      if unit.content.name = wanted then
        some { id := unit.id, nameSpan := unit.content.nameSpan }
      else design.byName[wanted]? := by
  rw [extend, Std.ExtTreeMap.getElem?_insert]
  simp only [Std.LawfulEqOrd.compare_eq_iff_eq]

/-- What it takes for a unit to be added: no conflict of names, and numbers that are all new and
all different from the unit's own. -/
structure Admits (assembly : Assembly) (added : ElaboratedUnit) : Prop where
  name : assembly.conflict? added.unit.content = none
  unused : assembly.design.index.get? added.unit.id = none
  own : added.nodes.get? added.unit.id = none
  apart : ∀ id node, added.nodes.get? id = some node → assembly.design.index.get? id = none

/-- Why a unit is not added. A reason counts only if there is none before it. -/
inductive Rejects (assembly : Assembly) (added : ElaboratedUnit) : DesignError → Prop
  /-- The unit's name is defined elsewhere. -/
  | name {previous : Span} (conflict : assembly.conflict? added.unit.content = some previous) :
    Rejects assembly added
      (.duplicateDefinition added.unit.content.name added.unit.content.nameSpan previous)
  /-- The unit's number is taken, in the design or by one of its own nodes. -/
  | own (name : assembly.conflict? added.unit.content = none)
    (taken : assembly.design.index.contains added.unit.id = true ∨
      added.nodes.contains added.unit.id = true) :
    Rejects assembly added (.duplicateId added.unit.id)
  /-- The number of one of its nodes is taken in the design. -/
  | shared {id : NodeId} (name : assembly.conflict? added.unit.content = none)
    (unused : assembly.design.index.get? added.unit.id = none)
    (own : added.nodes.get? added.unit.id = none)
    (old : assembly.design.index.contains id = true) (new : added.nodes.contains id = true) :
    Rejects assembly added (.duplicateId id)

/-- Once the nodes of an admitted unit are merged, there is room for the unit itself. -/
theorem exists_register_of_merge {merged : NodeIndex}
    (unused : assembly.design.index.get? added.unit.id = none)
    (own : added.nodes.get? added.unit.id = none)
    (hmerge : assembly.design.index.merge added.nodes = .ok merged) :
    ∃ index, merged.register added.node = .ok index ∧ ∀ id node, index.get? id = some node ↔
      assembly.design.index.get? id = some node ∨ added.nodes.get? id = some node ∨
        node = added.node ∧ node.id = id := by
  obtain ⟨-, hmerged⟩ := NodeIndex.get?_of_merge hmerge
  have room : merged.get? added.node.id = none := by
    refine Option.eq_none_iff_forall_ne_some.mpr fun node hnode => ?_
    rcases (hmerged _ node).mp hnode with hold | hnew
    · exact Option.some_ne_none node (hold.symm.trans unused)
    · exact Option.some_ne_none node (hnew.symm.trans own)
  obtain ⟨index, hregister, hadds⟩ := NodeIndex.register_of_get?_eq_none room
  refine ⟨index, hregister, fun id node => ?_⟩
  rw [hadds id node, hmerged id node, List.mem_singleton, or_assoc]

theorem run_onIndex {α : Type} (step : IndexStep α) (assembly : Assembly) :
    (onIndex step).run assembly =
      match step.run assembly.design.index with
      | .ok a index => .ok a { assembly with design := { assembly.design with index } }
      | .error e index => .error e { assembly with design := { assembly.design with index } } :=
  rfl

/-- What each step comes to. Only where the last one failed would the assembly not be what it was
before. -/
theorem offer_eq (added : ElaboratedUnit) (assembly : Assembly) :
    (offer added).run assembly =
      match assembly.conflict? added.unit.content with
      | some previous =>
        .error (.duplicateDefinition added.unit.content.name added.unit.content.nameSpan previous)
          assembly
      | none =>
        if assembly.design.index.contains added.unit.id || added.nodes.contains added.unit.id then
          .error (.duplicateId added.unit.id) assembly
        else
          match assembly.design.index.merge added.nodes with
          | .error e => .error e assembly
          | .ok merged =>
            match merged.register added.node with
            | .error e =>
              .error e { assembly with design := extend assembly.design added.unit merged }
            | .ok index =>
              .ok added.unit.id
                { assembly with design := extend assembly.design added.unit index } := by
  rw [offer, EStateM.run_bind, EStateM.run_get]
  dsimp only
  cases assembly.conflict? added.unit.content with
  | some previous => rfl
  | none =>
    cases assembly.design.index.contains added.unit.id || added.nodes.contains added.unit.id with
    | true => rfl
    | false =>
      simp only [Bool.false_eq_true, if_false, EStateM.run_bind, run_onIndex]
      cases hmerge : assembly.design.index.merge added.nodes with
      | error e => rw [NodeIndex.run_absorb_of_error hmerge]
      | ok merged =>
        rw [NodeIndex.run_absorb_of_ok hmerge]
        dsimp only [enlist, EStateM.run_modify, extend]
        cases hregister : merged.register added.node with
        | error e => rw [NodeIndex.run_enter_of_error hregister]
        | ok index =>
          rw [NodeIndex.run_enter_of_ok hregister]
          rfl

/-- A unit that is offered is added if it is admitted, together with just its nodes; otherwise it
is rejected, and the assembly is what it was. -/
theorem offer_cases (assembly : Assembly) (added : ElaboratedUnit) :
    (assembly.Admits added ∧ ∃ index, (offer added).run assembly =
        .ok added.unit.id { assembly with design := extend assembly.design added.unit index } ∧
      ∀ id node, index.get? id = some node ↔
        assembly.design.index.get? id = some node ∨ added.nodes.get? id = some node ∨
          node = added.node ∧ node.id = id) ∨
    ∃ e, assembly.Rejects added e ∧ (offer added).run assembly = .error e assembly := by
  rw [offer_eq]
  cases hname : assembly.conflict? added.unit.content with
  | some previous => exact .inr ⟨_, .name hname, rfl⟩
  | none =>
    cases taken : assembly.design.index.contains added.unit.id ||
        added.nodes.contains added.unit.id with
    | true => exact .inr ⟨_, .own hname (Bool.or_eq_true_iff.mp taken), rfl⟩
    | false =>
      obtain ⟨unused, own⟩ := Bool.or_eq_false_iff.mp taken
      rw [NodeIndex.contains_eq_false] at unused own
      cases hmerge : assembly.design.index.merge added.nodes with
      | error e =>
        obtain ⟨id, rfl, old, new⟩ := NodeIndex.exists_of_merge_error hmerge
        exact .inr ⟨_, .shared hname unused own old new, rfl⟩
      | ok merged =>
        obtain ⟨apart, -⟩ := NodeIndex.get?_of_merge hmerge
        obtain ⟨index, hregister, hentries⟩ := exists_register_of_merge unused own hmerge
        refine .inl ⟨⟨hname, unused, own, apart⟩, index, ?_, hentries⟩
        simp only [hregister, Bool.false_eq_true, if_false]

/-- A unit that is rejected is not admitted. -/
theorem Rejects.not_admits {e : DesignError} (h : assembly.Rejects added e) :
    ¬ assembly.Admits added := by
  intro admits
  cases h with
  | name conflict => exact Option.some_ne_none _ (conflict.symm.trans admits.name)
  | own _ taken =>
    rcases taken with old | own
    · exact Bool.false_ne_true ((NodeIndex.contains_eq_false.mpr admits.unused).symm.trans old)
    · exact Bool.false_ne_true ((NodeIndex.contains_eq_false.mpr admits.own).symm.trans own)
  | shared _ _ _ old new =>
    obtain ⟨node, hnode⟩ := NodeIndex.contains_eq_true.mp new
    obtain ⟨other, hother⟩ := NodeIndex.contains_eq_true.mp old
    exact Option.some_ne_none other (hother.symm.trans (admits.apart _ node hnode))

/-- A conflict of names comes before everything else. -/
theorem addUnit_of_conflict? {previous : Span}
    (h : assembly.conflict? added.unit.content = some previous) :
    assembly.addUnit added = .error
      (.duplicateDefinition added.unit.content.name added.unit.content.nameSpan previous) := by
  rw [addUnit, offer_eq, h]

theorem Admits.exists_addUnit (h : assembly.Admits added) :
    ∃ index, assembly.addUnit added =
      .ok { assembly with design := extend assembly.design added.unit index } := by
  rcases offer_cases assembly added with ⟨-, index, hoffer, -⟩ | ⟨e, rejects, -⟩
  · exact ⟨index, by rw [addUnit, hoffer]⟩
  · exact absurd h rejects.not_admits

/-- Adding a unit succeeds only if it is admitted, and then adds just its nodes. -/
theorem exists_of_addUnit (h : assembly.addUnit added = .ok extended) :
    assembly.Admits added ∧ ∃ index,
      extended = { assembly with design := extend assembly.design added.unit index } ∧
        ∀ id node, index.get? id = some node ↔
          assembly.design.index.get? id = some node ∨ added.nodes.get? id = some node ∨
            node = added.node ∧ node.id = id := by
  rw [addUnit] at h
  rcases offer_cases assembly added with ⟨admits, index, hoffer, hentries⟩ | ⟨e, -, hoffer⟩
  · rw [hoffer] at h
    cases h
    exact ⟨admits, index, rfl, hentries⟩
  · rw [hoffer] at h
    cases h

/-- A laid-out unit that is added is one more tree. -/
theorem holds_addUnit {name : Nat → NodeId} {source : SourceUnit} {k : Nat}
    (holds : assembly.design.Holds roots) (hname : Function.Injective name)
    (laid : LaidOut name source k added) (h : assembly.addUnit added = .ok extended) :
    extended.design.Holds (roots ++ [unitTree name source k]) := by
  obtain ⟨admits, index, rfl, hentries⟩ := exists_of_addUnit h
  have root : (unitTree name source k).node = added.node := by
    rw [unitTree_eq, ElaboratedUnit.node, laid.unit_eq]
  have rootId : (unitTree name source k).id = added.unit.id := congrArg Placed.id root
  have below : ∀ id node, added.nodes.get? id = some node ↔
      node ∈ (unitTree name source k).lowerNodes ∧ node.id = id := by
    intro id node
    simp [laid.adds id node]
  -- The design has none of the new numbers: otherwise the unit could not have been added.
  have fresh : ∀ node ∈ (unitTree name source k).nodes,
      assembly.design.index.get? node.id = none := by
    intro node hnode
    rw [nodes_eq] at hnode
    rcases List.mem_cons.mp hnode with rfl | hinner
    · exact root ▸ admits.unused
    · exact admits.apart _ _ ((below _ _).mpr ⟨hinner, rfl⟩)
  refine ⟨?_, fun id node => ?_, ?_, fun tree htree => ?_⟩
  · rw [extend, Array.toList_push, holds.unitIds, List.map_append, ← rootId]
    rfl
  · show index.get? id = some node ↔ _
    rw [hentries id node, holds.adds id node, below id node, nodesOf_append, nodesOf_singleton,
      nodes_eq, root, List.mem_append, List.mem_cons, NodeIndex.get?_empty]
    simp only [reduceCtorEq, false_or]
    tauto
  · rw [nodesOf_append, List.map_append, List.nodup_append, nodesOf_singleton]
    have own := (numbered_unitTree name source k).nodup hname
    rw [nodesOf_singleton] at own
    refine ⟨holds.distinct, own, fun id hold other hnew => ?_⟩
    rintro rfl
    obtain ⟨old, hmem, rfl⟩ := List.mem_map.mp hold
    obtain ⟨node, hnode, hid⟩ := List.mem_map.mp hnew
    have taken := holds.adds.get?_of_mem hmem
    rw [← hid, fresh node hnode] at taken
    cases taken
  · rcases List.mem_append.mp htree with hold | hnew
    · exact holds.laid tree hold
    · exact ⟨name, source, k, List.mem_singleton.mp hnew⟩

/-- Adds units in order, and passes over those that cannot be added. -/
def addEach (assembly : Assembly) : List ElaboratedUnit → Assembly
  | [] => assembly
  | added :: rest =>
    match assembly.addUnit added with
    | .error _ => assembly.addEach rest
    | .ok extended => extended.addEach rest

theorem holds_addEach {units : List ElaboratedUnit} (holds : assembly.design.Holds roots)
    (h : ∀ u ∈ units, ∃ source k, LaidOut NodeId.mk source k u) :
    ∃ roots', (assembly.addEach units).design.Holds roots' := by
  induction units generalizing assembly roots with
  | nil => exact ⟨roots, holds⟩
  | cons added rest ih =>
    obtain ⟨source, k, laid⟩ := h added (List.mem_cons_self ..)
    have later : ∀ u ∈ rest, ∃ source k, LaidOut NodeId.mk source k u :=
      fun u hu => h u (List.mem_cons_of_mem _ hu)
    rw [addEach]
    cases hadd : assembly.addUnit added with
    | error e => exact ih holds later
    | ok extended =>
      exact ih (holds_addUnit holds IdCounter.schedule.name_injective laid hadd) later

end Assembly

namespace Design

/-- A design whose units are added as they are elaborated. Its trees have the numbers that were
drawn for them, without a gap. -/
theorem holds_elaborateOnto :
    ∀ {sources : List SourceUnit} {assembly : Assembly} {ids left : IdCounter} {design : Design}
      {roots : List NodeTree} {first n : Nat}, assembly.design.Holds roots →
      Numbered NodeId.mk roots first n → ids.next = first + n →
      elaborateOnto assembly sources ids = (.ok design, left) →
      ∃ roots' m, design.Holds roots' ∧ Numbered NodeId.mk roots' first m ∧
        left.next = first + m
  | [], _, _, _, _, roots, _, n, holds, numbered, hids, h => by
    cases h
    exact ⟨roots, n, holds, numbered, hids⟩
  | source :: rest, assembly, ids, left, design, roots, first, n, holds, numbered, hids, h => by
    unfold elaborateOnto at h
    split at h
    · cases h
    next unit middle helaborate =>
      split at h
      · cases h
      next extended hadd =>
        obtain ⟨laid, hmiddle, -⟩ := SourceUnit.laidOut helaborate
        have more := Assembly.holds_addUnit holds IdCounter.schedule.name_injective laid hadd
        have numbers := numbered_unitTree NodeId.mk source ids.next
        rw [hids] at more numbers hmiddle
        rw [Nat.add_assoc] at hmiddle
        exact holds_elaborateOnto more (numbered.append numbers) hmiddle h

end Design

end DesignTree
