import DesignTree.Proofs.Concurrent.Dealing
import DesignTree.Proofs.Layout.Sourced
import DesignTree.Proofs.Walk
/-!
# DesignTree.Proofs.Parts

What a part of the source becomes in an elaborated unit.

A nested unit has no name of its own by which an elaborated unit could be asked for it: names may
repeat, and a loop elaborates what is nested in its block many times. It is found by its place. The
parts inside another part become the hierarchies of its body, the first the first and so on
(`ElaboratedUnit.Becomes`). Such a node is the root of the part's own layout, with all below it in
the index (`LaidOut.exists_lays`), and every node with a body comes about in this way
(`SourceUnit.ElaboratesTo.exists_becomes`).
-/

namespace DesignTree

open NodeTree Layout

/-- The unit is elaborated, by itself or at the same time as others. -/
inductive SourceUnit.ElaboratesTo (source : SourceUnit) (u : ElaboratedUnit) : Prop
  | alone {ids left : IdCounter} (success : source.elaborate ids = (.ok u, left)) :
    ElaboratesTo source u
  | dealt {ids left : IdCounter} {dealt : List (SourceUnit × DealtIds)} {own : DealtIds}
    (dealing : Dealing ids dealt left) (htask : (source, own) ∈ dealt)
    (success : (source.elaborate own).1 = .ok u) : ElaboratesTo source u

/-- The node that a part of the source becomes. The parts inside another one become the hierarchies
of its body, in order. -/
inductive ElaboratedUnit.Becomes (u : ElaboratedUnit) (source : SourceUnit) :
    SourcePart → Node → Prop
  | whole : Becomes u source (.unit source) u.node
  | inside {outer inner : SourcePart} {owner made : Node} {body : Body} {i : Nat} {id : NodeId}
    (houter : Becomes u source outer owner) (hbody : owner.content.body? = some body)
    (hinner : outer.inner[i]? = some inner) (hid : body.subHierarchies[i]? = some id)
    (found : u.nodes.get? id = some made) : Becomes u source inner made

/-- What a part becomes is a node of the unit. -/
theorem ElaboratedUnit.Becomes.mem {u : ElaboratedUnit} {source : SourceUnit} {part : SourcePart}
    {node : Node} (h : u.Becomes source part node) :
    node = u.node ∨ ∃ id, u.nodes.get? id = some node := by
  cases h with
  | whole => exact .inl rfl
  | inside _ _ _ _ found => exact .inr ⟨_, found⟩

theorem SourceUnit.ElaboratesTo.exists_laidOut {source : SourceUnit} {u : ElaboratedUnit}
    (h : source.ElaboratesTo u) : ∃ name k, Function.Injective name ∧ LaidOut name source k u ∧
      source.audit.fault = none := by
  cases h with
  | @alone ids left success =>
    obtain ⟨laid, -, -, sound⟩ := SourceUnit.laidOut success
    exact ⟨NodeId.mk, ids.next, IdCounter.schedule.name_injective, laid, sound⟩
  | dealt dealing htask success =>
    obtain ⟨name, n, hname, hids, -⟩ := dealing.exists_naming
    obtain ⟨k, m, -, hown⟩ := exists_own_of_mem hids htask
    obtain ⟨laid, -, sound⟩ :=
      SourceUnit.laidOut_dealt hname hown (dealing.drawn _ htask) success
    exact ⟨name, k, hname, laid, sound⟩

namespace LaidOut

variable {name : Nat → NodeId} {source : SourceUnit} {k : Nat} {u : ElaboratedUnit}
  {tree : NodeTree} {part : SourcePart}

/-- What is below any tree in the layout is in the index. -/
theorem resolves (h : LaidOut name source k u)
    (htree : tree ∈ subtreesOf [unitTree name source k]) : u.nodes.Resolves tree.owned := by
  have below : u.nodes.Resolves (unitTree name source k).owned := h.adds.resolves
  rw [subtreesOf, subtreesOf, List.append_nil, subtrees_eq] at htree
  rcases List.mem_cons.mp htree with rfl | lower
  · exact below
  · exact below.owned lower

/-- Every node of the unit is the root of a tree in the layout. -/
theorem exists_tree (h : LaidOut name source k u) {node : Node}
    (hnode : node = u.node ∨ ∃ id, u.nodes.get? id = some node) :
    ∃ tree ∈ subtreesOf [unitTree name source k], tree.node = node := by
  have root := head_mem_subtreesOf (unitTree name source k) []
  rcases hnode with rfl | ⟨id, found⟩
  · exact ⟨_, root, h.node_eq⟩
  · obtain ⟨hmem, -⟩ := h.adds.get?_eq_some_iff.mp found
    obtain ⟨tree, htree, rfl⟩ := mem_nodesOf.mp hmem
    exact ⟨tree, (owned_sublist root).subset htree, rfl⟩

/-- A part becomes the root of its own layout. -/
theorem exists_lays (h : LaidOut name source k u) (sound : source.audit.fault = none) {node : Node}
    (becomes : u.Becomes source part node) :
    ∃ tree ∈ subtreesOf [unitTree name source k], Lays name part tree ∧ tree.node = node := by
  induction becomes with
  | whole => exact ⟨_, head_mem_subtreesOf _ [], .unit sound, h.node_eq⟩
  | inside _ hbody hinner hid found ih =>
    obtain ⟨tree, htree, lays, rfl⟩ := ih
    obtain ⟨i, ports, assembled⟩ := lays.exists_assembled
    rw [assembled.body] at hbody
    cases hbody
    rw [subHierarchies_gather, List.getElem?_map] at hid
    obtain ⟨sub, hsub, rfl⟩ := Option.map_eq_some_iff.mp hid
    -- The index has one node under the number, which is the root of the inner part's layout.
    have owned := assembled.hierarchies_subset (List.mem_of_getElem? hsub)
    rw [(h.resolves htree).root owned] at found
    cases found
    exact ⟨sub, mem_subtreesOf_of_owned htree owned,
      related_of_getElem? (lays_hierarchies lays.sound i) hinner hsub, rfl⟩

/-- A tree in the layout is what a part becomes, or there is no body in it. -/
theorem becomes_or (h : LaidOut name source k u) (sound : source.audit.fault = none) :
    All (fun tree => (∃ part, Lays name part tree ∧ u.Becomes source part tree.node) ∨
      All (fun sub => sub.node.content.body? = none) [tree]) [unitTree name source k] := by
  refine .of_owned ?_ fun tree htree here sub hsub => ?_
  · refine List.forall_mem_singleton.mpr (.inl ⟨.unit source, .unit sound, ?_⟩)
    rw [h.node_eq]
    exact .whole
  -- What a part owns is a part again, or without a body; below a tree without a body there is none.
  rcases here with ⟨part, lays, becomes⟩ | all
  · obtain ⟨i, ports, assembled⟩ := lays.exists_assembled
    rcases assembled.owned_cases hsub with outer | ⟨body, owned⟩ | hierarchy
    · exact .inr fun other hother => (assembled.outer.of_mem outer other hother).2
    · obtain ⟨node, _⟩ := sub
      cases owned
      exact .inr (.root body .nil)
    · obtain ⟨j, inner, hinner, hid, hlays⟩ :=
        exists_related_of_mem (lays_hierarchies lays.sound i) hierarchy
      refine .inl ⟨inner, hlays, .inside becomes assembled.body hinner ?_
        ((h.resolves htree).root hsub)⟩
      rw [subHierarchies_gather, List.getElem?_map, hid]
      rfl
  · exact .inr ((all.owned (head_mem_subtreesOf tree [])).of_mem hsub)

end LaidOut

namespace SourceUnit.ElaboratesTo

variable {source : SourceUnit} {u : ElaboratedUnit}

/-- Every node with a body is what a part of the source becomes. -/
theorem exists_becomes (h : source.ElaboratesTo u) {node : Node} {body : Body}
    (hnode : node = u.node ∨ ∃ id, u.nodes.get? id = some node)
    (hbody : node.content.body? = some body) : ∃ part, u.Becomes source part node := by
  obtain ⟨name, k, -, laid, sound⟩ := h.exists_laidOut
  obtain ⟨tree, htree, rfl⟩ := laid.exists_tree hnode
  rcases laid.becomes_or sound tree htree with ⟨part, -, becomes⟩ | none
  · exact ⟨part, becomes⟩
  · rw [none tree (head_mem_subtreesOf tree [])] at hbody
    cases hbody

/-- Every unit node is what a unit becomes. -/
theorem exists_unit_becomes (h : source.ElaboratesTo u) {id : NodeId} {node : Node}
    {unit : DesignUnit} (found : u.nodes.get? id = some node) (hunit : node.content = .unit unit) :
    ∃ nested, u.Becomes source (.unit nested) node := by
  have hbody : node.content.body? = some unit.body := by rw [hunit]; rfl
  obtain ⟨part, becomes⟩ := h.exists_becomes (.inr ⟨id, found⟩) hbody
  cases part with
  | unit nested => exact ⟨nested, becomes⟩
  | block nested =>
    obtain ⟨name, k, -, laid, sound⟩ := h.exists_laidOut
    obtain ⟨tree, -, lays, rfl⟩ := laid.exists_lays sound becomes
    cases lays
    rw [blockTree_eq] at hunit
    cases hunit

end SourceUnit.ElaboratesTo

end DesignTree
