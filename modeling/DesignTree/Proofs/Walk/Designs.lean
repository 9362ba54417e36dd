import DesignTree.Proofs.Assembly.Accepted
import DesignTree.Proofs.Parts
/-!
# DesignTree.Proofs.Walk.Designs

Walks of bodies and of designs.

A walk below a body of any index, and a walk of all units of any design, come to what plain
recursion would list, as long as no way down is endless (`walks_list_in_preorder`). In what was
elaborated none is, for all below a body is then a tree (`SourceUnit.ElaboratesTo.grounded`).
-/

namespace DesignTree

open NodeTree Layout

theorem NodeIndex.Grounded.mono {index : NodeIndex} {roots some : List NodeId}
    (h : index.Grounded roots) (sub : some ⊆ roots) : index.Grounded some :=
  fun ⟨chain, hroot, hchain⟩ => h ⟨chain, sub hroot, hchain⟩

/-- Below a body of an elaborated unit, no way down is endless. -/
theorem SourceUnit.ElaboratesTo.grounded {source : SourceUnit} {u : ElaboratedUnit}
    (h : source.ElaboratesTo u) {node : Node} {body : Body}
    (hnode : node = u.node ∨ ∃ id, u.nodes.get? id = some node)
    (hbody : node.content.body? = some body) : u.nodes.Grounded body.ids := by
  obtain ⟨name, k, -, laid, -⟩ := h.exists_laidOut
  obtain ⟨tree, htree, rfl⟩ := laid.exists_tree hnode
  obtain ⟨ports, hchildren⟩ := Content.children_of_body? hbody
  have linked := linked_unitTree name source k
  have below := NodeIndex.preorder_map_id (linked.owned htree) (laid.resolves htree)
  rw [← linked tree htree, hchildren] at below
  exact below.grounded.mono (List.subset_append_right ..)

/-- The units of a design are units. -/
theorem Assembly.Comprises.exists_unit {assembly : Assembly} {units : List ElaboratedUnit}
    (h : assembly.Comprises units) : ∀ id ∈ assembly.design.unitIds.toList, ∀ node,
      assembly.design.index.get? id = some node → ∃ unit, node.content = .unit unit := by
  intro id hid node found
  rw [h.unitIds] at hid
  obtain ⟨u, hu, rfl⟩ := List.mem_map.mp hid
  have held := (h.entries u.unit.id u.node).mpr ⟨u, hu, u.get?_id⟩
  rw [held] at found
  cases found
  exact ⟨u.unit.content, rfl⟩

/-- Walks go through the pre-order listing of what can be reached, each number as often as there are
ways to it, and end in an error at the first number that is not taken:

* below any body in any index, if no way down from the body is endless;
* from the units of any design that was put together, if no way down from them is endless;
* and below the bodies of elaborated units none is. -/
theorem walks_list_in_preorder :
    (∀ (index : NodeIndex) (body : Body), index.Grounded body.ids →
      ∃ listing, index.Preorder body.ids listing ∧
        (∀ id, id ∈ listing ↔ index.Reaches body.ids id) ∧
        index.descendants body = index.resultOf listing) ∧
    (∀ (config : DesignConfig) (offers : List ElaboratedUnit),
      let design := ((Assembly.new config).addEach offers).design
      design.index.Grounded design.unitIds.toList →
      ∃ listing, design.index.Preorder design.unitIds.toList listing ∧
        (∀ id, id ∈ listing ↔ design.index.Reaches design.unitIds.toList id) ∧
        design.walkIds = design.index.resultOf listing) ∧
    ∀ source u, SourceUnit.ElaboratesTo source u → ∀ node body,
      (node = u.node ∨ ∃ id, u.nodes.get? id = some node) → node.content.body? = some body →
      u.nodes.Grounded body.ids := by
  refine ⟨?_, ?_, ?_⟩
  · intro index body grounded
    obtain ⟨listing, preorder⟩ := NodeIndex.exists_preorder grounded
    exact ⟨listing, preorder, preorder.mem_iff, preorder.walk_eq⟩
  · intro config offers design grounded
    obtain ⟨listing, preorder⟩ := NodeIndex.exists_preorder grounded
    have comprises := (Assembly.Comprises.new config).addEach offers
    exact ⟨listing, preorder, preorder.mem_iff, preorder.walkUnits_eq comprises.exists_unit⟩
  · intro source u h node body hnode hbody
    exact h.grounded hnode hbody

/-- A port that lists one slice twice, before a number that is not taken: below a body of an index,
and in a unit of a design. And the body of a unit that was elaborated from a loop. -/
theorem walks_of_shared_slice :
    let slice : Node := ⟨⟨3⟩, .dummy, .portSlice
      ⟨.empty, [], none, .ref, .var, .implicit .dummy, none⟩⟩
    let port : Node := ⟨⟨2⟩, .dummy, .port ⟨none, [⟨3⟩, ⟨3⟩]⟩⟩
    let index : NodeIndex :=
      ⟨(∅ : Std.ExtTreeMap NodeId Node).insertMany [(⟨2⟩, port), (⟨3⟩, slice)]⟩
    let body : Body := { Body.empty .module ⟨1⟩ with ports := [⟨2⟩], nets := [⟨4⟩] }
    let made : ElaboratedUnit := ⟨⟨⟨1⟩, .dummy, ⟨.module, .empty, .dummy, [], body⟩⟩, index⟩
    let design := ((Assembly.new .strict).addEach [made]).design
    let item : SourceItem := .declaration .dummy (.proc .final)
    let loop : SourceItem := .generateFor .dummy none .empty (some [0, 1]) ⟨.dummy, none, [item]⟩
    let source : SourceUnit := ⟨.module, .empty, .dummy, .dummy, [], [loop]⟩
    (index.Grounded body.ids ∧ index.descendants body = .error (.unknownId ⟨4⟩)) ∧
    (design.index.Grounded design.unitIds.toList ∧ design.walkIds = .error (.unknownId ⟨4⟩)) ∧
    ∃ u left, source.elaborate IdCounter.fresh = (.ok u, left) ∧
      u.nodes.Grounded u.unit.content.body.ids := by
  intro slice port index body made design item loop source
  have listing : ∀ {any : NodeIndex}, any.childrenAt ⟨2⟩ = [⟨3⟩, ⟨3⟩] → any.childrenAt ⟨3⟩ = [] →
      any.childrenAt ⟨4⟩ = [] → any.Preorder [⟨2⟩, ⟨4⟩] [⟨2⟩, ⟨3⟩, ⟨3⟩, ⟨4⟩] := by
    intro any owned last missing
    have leaf : ∀ {id rest later}, any.childrenAt id = [] → any.Preorder rest later →
        any.Preorder (id :: rest) (id :: later) := by
      intro id rest later none hlater
      have below : any.Preorder (any.childrenAt id) [] := by rw [none]; exact .nil
      exact .cons below hlater
    have slices : any.Preorder (any.childrenAt ⟨2⟩) [⟨3⟩, ⟨3⟩] := by
      rw [owned]
      exact leaf last (leaf last .nil)
    exact .cons slices (leaf missing .nil)
  refine ⟨?_, ?_, ?_⟩
  · have expected : index.Preorder body.ids [⟨2⟩, ⟨3⟩, ⟨3⟩, ⟨4⟩] :=
      listing (by decide +kernel) (by decide +kernel) (by decide +kernel)
    obtain ⟨found, preorder, -, result⟩ :=
      walks_list_in_preorder.1 index body expected.grounded
    rw [preorder.unique expected] at result
    exact ⟨expected.grounded, result.trans (eq_error_of_failure? (by decide +kernel))⟩
  · have inner : design.index.Preorder [⟨2⟩, ⟨4⟩] [⟨2⟩, ⟨3⟩, ⟨3⟩, ⟨4⟩] :=
      listing (by decide +kernel) (by decide +kernel) (by decide +kernel)
    have owned : design.index.childrenAt ⟨1⟩ = [⟨2⟩, ⟨4⟩] := by decide +kernel
    have units : design.unitIds.toList = [⟨1⟩] := by decide +kernel
    have expected : design.index.Preorder design.unitIds.toList [⟨1⟩, ⟨2⟩, ⟨3⟩, ⟨3⟩, ⟨4⟩] := by
      rw [← owned] at inner
      rw [units]
      exact .cons inner .nil
    obtain ⟨found, preorder, -, result⟩ :=
      walks_list_in_preorder.2.1 .strict [made] expected.grounded
    rw [preorder.unique expected] at result
    exact ⟨expected.grounded, result.trans (eq_error_of_failure? (by decide +kernel))⟩
  · have accepted : (source.elaborate IdCounter.fresh).1.isOk = true := by decide +kernel
    obtain ⟨u, left, h⟩ := exists_of_isOk accepted
    exact ⟨u, left, h, walks_list_in_preorder.2.2 source u (.alone h) u.node _ (.inl rfl) rfl⟩

end DesignTree
