import DesignTree.Proofs.Assembly
import DesignTree.Proofs.Layout.Linked
import DesignTree.Proofs.Walk
/-!
# DesignTree.Proofs.Reachable

The index of a design holds exactly what can be reached in it, once.

This follows from what a design is made of: its trees are linked, so a walk from the roots visits
every node of them, and the index has these nodes and no others. It holds of every design that is
put together from elaborated units, whichever of them were added and in whatever order
(`index_holds_what_is_reachable`).
-/

namespace DesignTree

open NodeTree Layout

/-- A walk of the design visits every number in the index once, and every body in it can be
walked. -/
structure Design.Reached (design : Design) : Prop where
  walk : ∃ visited, design.walkIds = .ok visited ∧ visited.Nodup ∧
    visited.Perm design.index.ids
  bodies : ∀ id node body, design.index.get? id = some node →
    node.content.body? = some body →
    ∃ below, design.index.descendants body = .ok below ∧ below.Nodup

/-! ### Designs -/

namespace Design.Holds

variable {design : Design} {roots : List NodeTree}

theorem linked (h : design.Holds roots) : Linked roots := by
  intro tree htree
  rw [subtreesOf_eq_flatMap] at htree
  obtain ⟨root, hroot, hmem⟩ := List.mem_flatMap.mp htree
  obtain ⟨name, source, k, rfl⟩ := h.laid root hroot
  refine linked_unitTree name source k tree ?_
  rwa [subtreesOf, subtreesOf, List.append_nil]

/-- A walk of such a design visits the nodes of the trees in their order. -/
theorem walkIds_eq (h : design.Holds roots) :
    design.walkIds = .ok ((nodesOf roots).map (·.id)) := by
  have units : ∀ tree ∈ roots, ∃ u, tree.node.content = .unit u := by
    intro tree htree
    obtain ⟨name, source, k, rfl⟩ := h.laid tree htree
    rw [unitTree_eq]
    exact ⟨_, rfl⟩
  rw [walkIds, h.unitIds]
  exact NodeIndex.walkUnits_map_id h.linked h.adds.resolves units

/-- What is in such a design can be reached, and nothing else. -/
theorem reached (h : design.Holds roots) : design.Reached where
  walk := ⟨(nodesOf roots).map (·.id), h.walkIds_eq, h.distinct, h.adds.ids_perm h.distinct⟩
  bodies := by
    intro id node body hnode hbody
    have hmem : node ∈ nodesOf roots := (h.adds.get?_eq_some_iff.mp hnode).1
    obtain ⟨tree, htree, rfl⟩ := mem_nodesOf.mp hmem
    obtain ⟨ports, hchildren⟩ := Content.children_of_body? hbody
    -- The body lists a final part of what the node owns; the header ports come before it.
    rw [h.linked tree htree] at hchildren
    obtain ⟨front, back, howned, -, hids⟩ := List.map_eq_append_iff.mp hchildren
    have sub : (nodesOf back).Sublist (nodesOf roots) := by
      have inside := (owned_sublist htree).map NodeTree.node
      refine List.Sublist.trans ?_ inside
      rw [howned]
      show (nodesOf back).Sublist (nodesOf (front ++ back))
      rw [nodesOf_append]
      exact List.sublist_append_right ..
    have linked : Linked (front ++ back) := howned ▸ h.linked.owned htree
    have distinct := h.distinct.sublist (sub.map _)
    refine ⟨(nodesOf back).map (·.id), ?_, distinct⟩
    rw [NodeIndex.descendants, ← hids]
    refine NodeIndex.walk_map_id (fun other hother => linked other ?_)
      fun other hother => h.adds.resolves other (sub.subset hother)
    rw [subtreesOf_eq_flatMap] at hother ⊢
    rw [List.flatMap_append]
    exact List.mem_append_right _ hother

end Design.Holds

/-! ### Sessions -/

theorem Design.next_le_elaborateEach (sources : List SourceUnit) (ids : IdCounter) :
    ids.next ≤ (elaborateEach sources ids).2.next := by
  induction sources generalizing ids with
  | nil => exact Nat.le_refl _
  | cons source rest ih => exact Nat.le_trans (source.next_le_elaborate ids) (ih _)

/-- The successes of a session that elaborates units one after the other: each has numbers that were
drawn in the session. -/
theorem Design.exists_laidOut_of_mem_elaborateEach {sources : List SourceUnit} {ids : IdCounter}
    {u : ElaboratedUnit} (h : .ok u ∈ (elaborateEach sources ids).1) :
    ∃ source k, LaidOut NodeId.mk source k u ∧ ids.next ≤ k ∧
      k + source.cost ≤ (elaborateEach sources ids).2.next := by
  induction sources generalizing ids with
  | nil => cases h
  | cons source rest ih =>
    rcases List.mem_cons.mp h with hfirst | hlater
    · have first : source.elaborate ids = (.ok u, (source.elaborate ids).2) :=
        Prod.ext hfirst.symm rfl
      obtain ⟨laid, hleft, -⟩ := SourceUnit.laidOut first
      exact ⟨source, ids.next, laid, Nat.le_refl _, hleft ▸ next_le_elaborateEach rest _⟩
    · obtain ⟨source', k, laid, hle, hbound⟩ := ih hlater
      exact ⟨source', k, laid, Nat.le_trans (source.next_le_elaborate ids) hle, hbound⟩

theorem Design.laidOut_of_mem_elaborateEach {sources : List SourceUnit} {ids : IdCounter}
    {u : ElaboratedUnit} (h : .ok u ∈ (elaborateEach sources ids).1) :
    ∃ source k, LaidOut NodeId.mk source k u := by
  obtain ⟨source, k, laid, -⟩ := exists_laidOut_of_mem_elaborateEach h
  exact ⟨source, k, laid⟩

/-- Whatever successes of a session are added to a design, in whatever order and however strictly,
what is in the index can be reached from the units, once. So it is if every unit is added as soon
as it is elaborated. -/
theorem index_holds_what_is_reachable (config : DesignConfig) :
    (∀ {sources : List SourceUnit} {ids : IdCounter} {units : List ElaboratedUnit},
      (∀ u ∈ units, .ok u ∈ (Design.elaborateEach sources ids).1) →
      ((Assembly.new config).addEach units).design.Reached) ∧
    ∀ {sources : List SourceUnit} {ids left : IdCounter} {design : Design},
      Design.elaborate sources ids config = (.ok design, left) → design.Reached := by
  constructor
  · intro sources ids units h
    obtain ⟨roots, holds⟩ := Assembly.holds_addEach (Assembly.holds_new config)
      fun u hu => Design.laidOut_of_mem_elaborateEach (h u hu)
    exact holds.reached
  · intro sources ids left design h
    obtain ⟨roots, m, holds, -⟩ :=
      Design.holds_elaborateOnto (Assembly.holds_new config) (Numbered.nil (k := ids.next)) rfl h
    exact holds.reached

/-- Three units, of which one is malformed and one has the name of the first at another place: two
are elaborated, and one of these is added. -/
theorem reached_after_failures :
    let loop : SourceItem := .generateFor .dummy none .empty (some [0, 1])
      ⟨.dummy, none, [.declaration .dummy (.proc .final)]⟩
    let first : SourceUnit := ⟨.module, .empty, .dummy, .dummy, [.unnamed .dummy []], [loop]⟩
    let malformed : SourceUnit := ⟨.module, .empty, .dummy, .dummy, [], [loop, .malformed .dummy]⟩
    let second : SourceUnit := ⟨.package, .empty, .point .dummy 5, .dummy, [], [.unit first]⟩
    let outcomes := (Design.elaborateEach [first, malformed, second] IdCounter.fresh).1
    let design := ((Assembly.new .strict).addEach (outcomes.filterMap Except.toOption)).design
    (outcomes.filterMap Except.toOption).length = 2 ∧ design.unitCount = 1 ∧ design.Reached ∧
      ∃ both left, Design.elaborate [first, second] IdCounter.fresh .permissive =
        (.ok both, left) ∧ both.Reached := by
  intro loop first malformed second outcomes design
  refine ⟨by decide +kernel, by decide +kernel, ?_, ?_⟩
  · have successes : ∀ u ∈ outcomes.filterMap Except.toOption, .ok u ∈ outcomes := by
      intro u hu
      obtain ⟨outcome, hmem, hok⟩ := List.mem_filterMap.mp hu
      cases outcome with
      | error e => cases hok
      | ok other =>
        cases hok
        exact hmem
    exact (index_holds_what_is_reachable .strict).1 successes
  · have accepted :
        (Design.elaborate [first, second] IdCounter.fresh .permissive).1.isOk = true := by
      decide +kernel
    obtain ⟨both, left, h⟩ := exists_of_isOk accepted
    exact ⟨both, left, h, (index_holds_what_is_reachable .permissive).2 h⟩

end DesignTree
