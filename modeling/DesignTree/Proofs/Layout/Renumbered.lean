import DesignTree.Node.Renumber
import DesignTree.Proofs.Layout
/-!
# DesignTree.Proofs.Layout.Renumbered

Layouts under other numbers.

A layout copies the numbers it is given into nodes and links, and looks at none of them. So
renumbering the nodes of a layout gives the layout for the renumbered numbers
(`mapIds_unitTree`), whatever the renumbering does; it need not even be injective. This is one
mutual induction over the source tree. What it needs of the rest is that a group of nodes, and
what the port declarations among them list, do not depend on numbers either.
-/

namespace DesignTree

variable (f : NodeId → NodeId)

/-! ### Nodes and bodies -/

@[simp] theorem Content.group?_mapIds (content : Content) :
    (content.mapIds f).group? = content.group? := by
  cases content <;> rfl

@[simp] theorem Content.asPortDecl?_mapIds (content : Content) :
    (content.mapIds f).asPortDecl? = content.asPortDecl? := by
  cases content <;> rfl

theorem Node.inGroup_map_mapIds (nodes : List Node) (bucket : Bucket) :
    Node.inGroup (nodes.map (Node.mapIds f)) bucket =
      (Node.inGroup nodes bucket).map (Node.mapIds f) := by
  unfold Node.inGroup
  rw [List.filter_map]
  congr 2
  funext node
  exact congrArg (· == some bucket) (Content.group?_mapIds f node.content)

theorem Body.mapIds_gather (scope : ScopeKind) (owner : NodeId) (nodes : List Node)
    (scopes : List NodeId) :
    (gather scope owner nodes scopes).mapIds f =
      gather scope (f owner) (nodes.map (Node.mapIds f)) (scopes.map f) := by
  have group : ∀ bucket, ((Node.inGroup nodes bucket).map (·.id)).map f =
      (Node.inGroup (nodes.map (Node.mapIds f)) bucket).map (·.id) := by
    intro bucket
    rw [Node.inGroup_map_mapIds, List.map_map, List.map_map]
    rfl
  simp only [gather, Body.mapIds, group, List.map_append, List.length_map]

/-! ### Trees -/

namespace NodeTree

mutual

/-- Renumbers all nodes of a tree. -/
def mapIds : NodeTree → NodeTree
  | ⟨node, owned⟩ => ⟨Node.mapIds f node, mapIdsAll owned⟩

/-- Renumbers all nodes of some trees. -/
def mapIdsAll : List NodeTree → List NodeTree
  | [] => []
  | tree :: rest => tree.mapIds :: mapIdsAll rest

end

theorem mapIdsAll_eq_map (trees : List NodeTree) : mapIdsAll f trees = trees.map (mapIds f) := by
  induction trees with
  | nil => rfl
  | cons tree rest ih => rw [mapIdsAll, ih, List.map_cons]

theorem mapIds_mk (node : Node) (owned : List NodeTree) :
    mapIds f ⟨node, owned⟩ = ⟨Node.mapIds f node, owned.map (mapIds f)⟩ := by
  rw [mapIds, mapIdsAll_eq_map]

@[simp] theorem node_mapIds (tree : NodeTree) : (tree.mapIds f).node = Node.mapIds f tree.node := by
  cases tree
  rfl

@[simp] theorem owned_mapIds (tree : NodeTree) :
    (tree.mapIds f).owned = tree.owned.map (mapIds f) := by
  cases tree
  rw [mapIds_mk]

theorem map_node_mapIds (trees : List NodeTree) :
    (trees.map (mapIds f)).map node = (trees.map node).map (Node.mapIds f) := by
  rw [List.map_map, List.map_map]
  exact List.map_congr_left fun tree _ => node_mapIds f tree

theorem map_id_mapIds (trees : List NodeTree) :
    (trees.map (mapIds f)).map NodeTree.id = (trees.map NodeTree.id).map f := by
  rw [List.map_map, List.map_map]
  exact List.map_congr_left fun tree _ => congrArg Placed.id (node_mapIds f tree)

/-- Renumbering trees renumbers their nodes. -/
theorem nodesOf_map_mapIds :
    ∀ trees : List NodeTree,
      nodesOf (trees.map (mapIds f)) = (nodesOf trees).map (Node.mapIds f)
  | [] => rfl
  | ⟨node, owned⟩ :: rest => by
    rw [List.map_cons, mapIds_mk, nodesOf_cons, nodesOf_cons, nodes_eq, nodes_eq, lowerNodes,
      lowerNodes, nodesOf_map_mapIds owned, nodesOf_map_mapIds rest, List.map_append,
      List.map_cons]

end NodeTree

open NodeTree

/-- Renumbers the declaration behind a declared port. -/
def DeclaredPort.mapBase (port : DeclaredPort) : DeclaredPort := { port with base := f port.base }

namespace Layout

variable (name : Nat → NodeId)

theorem mapIds_leaf (k : Nat) (span : Span) (content : Content) :
    (leaf name k span content).mapIds f = leaf (f ∘ name) k span (content.mapIds f) :=
  rfl

theorem map_mapIds_spread {α : Type} {cost : Nat} {make other : α → Nat → NodeTree}
    (h : ∀ a k, (make a k).mapIds f = other a k) (list : List α) :
    ∀ k, (spread cost make list k).map (mapIds f) = spread cost other list k := by
  induction list with
  | nil => exact fun _ => rfl
  | cons a rest ih =>
    intro k
    rw [spread, spread, List.map_cons, h, ih]

/-! ### Headers -/

theorem declaredBy_map_mapIds (nodes : List Node) :
    declaredBy (nodes.map (Node.mapIds f)) = (declaredBy nodes).map (DeclaredPort.mapBase f) := by
  unfold declaredBy
  rw [List.flatMap_map, List.map_flatMap]
  refine List.flatMap_congr fun node _ => ?_
  rw [Node.mapIds, Content.asPortDecl?_mapIds]
  cases node.content.asPortDecl? with
  | none => rfl
  | some decl =>
    simp only [PortDecl.declared, List.map_map]
    rfl

theorem map_mapIds_refTrees (declared : List DeclaredPort) (refs : List PortRef) (k : Nat) :
    (refTrees name declared refs k).map (mapIds f) =
      refTrees (f ∘ name) (declared.map (DeclaredPort.mapBase f)) refs k := by
  refine map_mapIds_spread f (fun ref k => ?_) refs k
  have found : (declared.map (DeclaredPort.mapBase f)).find? (·.name == ref.name) =
      (declared.find? (·.name == ref.name)).map (DeclaredPort.mapBase f) := by
    rw [List.find?_map]
    rfl
  rw [mapIds_leaf, found]
  cases declared.find? (·.name == ref.name) <;> rfl

theorem map_mapIds_sliceTrees (declared : List DeclaredPort) (previous : Option AnsiPort)
    (entry : HeaderEntry) (k : Nat) :
    (sliceTrees name declared previous entry k).map (mapIds f) =
      sliceTrees (f ∘ name) (declared.map (DeclaredPort.mapBase f)) previous entry k := by
  cases entry with
  | ansi span entry => rfl
  | named span outer refs =>
    cases refs with
    | none => rfl
    | some refs => exact map_mapIds_refTrees f name declared refs k
  | unnamed span refs => exact map_mapIds_refTrees f name declared refs k

theorem map_mapIds_entryTrees (declared : List DeclaredPort) (previous : Option AnsiPort)
    (entries : List HeaderEntry) (k : Nat) :
    (entryTrees name declared previous entries k).map (mapIds f) =
      entryTrees (f ∘ name) (declared.map (DeclaredPort.mapBase f)) previous entries k := by
  induction entries generalizing previous k with
  | nil => rfl
  | cons entry rest ih =>
    rw [entryTrees, entryTrees, List.map_cons, mapIds_mk, ih, ← map_mapIds_sliceTrees,
      map_id_mapIds]
    rfl

/-! ### Units and scopes -/

theorem map_mapIds_arrange (members scopes : List NodeTree) :
    (arrange members scopes).map (mapIds f) =
      arrange (members.map (mapIds f)) (scopes.map (mapIds f)) := by
  have group : ∀ bucket,
      (members.filter fun tree => tree.node.content.group? = some bucket).map (mapIds f) =
        (members.map (mapIds f)).filter fun tree => tree.node.content.group? = some bucket := by
    intro bucket
    rw [List.filter_map]
    congr 2
    funext tree
    rw [Function.comp_apply, node_mapIds, Node.mapIds, Content.group?_mapIds]
  rw [arrange, arrange, List.map_append, List.map_append, List.map_flatMap, group]
  simp only [group]

theorem mapIds_unitOf (source : SourceUnit) (id : NodeId) (ports members scopes : List NodeTree) :
    Node.mapIds f ((unitOf source id ports members scopes).map .unit) =
      (unitOf source (f id) (ports.map (mapIds f)) (members.map (mapIds f))
        (scopes.map (mapIds f))).map .unit := by
  simp only [unitOf, map_id_mapIds, map_node_mapIds, ← Body.mapIds_gather]
  rfl

theorem mapIds_scopeOf (source : SourceBlock) (region : NodeId) (branch : Branch) (id : NodeId)
    (members scopes : List NodeTree) :
    Node.mapIds f (scopeOf source region branch id members scopes) =
      scopeOf source (f region) branch (f id) (members.map (mapIds f)) (scopes.map (mapIds f)) := by
  simp only [scopeOf, map_id_mapIds, map_node_mapIds, ← Body.mapIds_gather]
  rfl

mutual

theorem mapIds_unitTree :
    ∀ (source : SourceUnit) (k : Nat),
      (unitTree name source k).mapIds f = unitTree (f ∘ name) source k
  | ⟨kind, unitName, nameSpan, span, header, items⟩, k => by
    rw [unitTree, unitTree, mapIds_mk, mapIds_unitOf, List.map_append, map_mapIds_arrange,
      map_mapIds_entryTrees, ← declaredBy_map_mapIds, ← map_node_mapIds,
      map_mapIds_itemTrees items, map_mapIds_scopeTrees items]
    rfl

theorem mapIds_itemTree :
    ∀ (item : SourceItem) (k : Nat) (scopes : List NodeId),
      (itemTree name item k scopes).mapIds f = itemTree (f ∘ name) item k (scopes.map f)
  | .unit nested, k, _ => mapIds_unitTree nested k
  | .declaration .., _, _ => rfl
  | .inst .., _, _ => rfl
  | .generateIf span label condition _ elseBlock, k, scopes => by
    rw [itemTree, itemTree, mapIds_leaf, List.head?_map]
    rfl
  | .generateFor .., _, _ => rfl
  | .generateBlock span label _, k, scopes => by
    rw [itemTree, itemTree, mapIds_leaf, List.head?_map]
    rfl
  | .malformed _, _, _ => rfl

theorem map_mapIds_itemTrees :
    ∀ (items : List SourceItem) (k q : Nat),
      (itemTrees name items k q).map (mapIds f) = itemTrees (f ∘ name) items k q
  | [], _, _ => rfl
  | item :: rest, k, q => by
    rw [itemTrees, itemTrees, List.map_cons, mapIds_itemTree item, map_mapIds_itemTrees rest,
      ← map_id_mapIds, map_mapIds_itemScopes item]
    rfl

theorem map_mapIds_itemScopes :
    ∀ (item : SourceItem) (region : NodeId) (q : Nat),
      (itemScopes name item region q).map (mapIds f) = itemScopes (f ∘ name) item (f region) q
  | .unit _, _, _ => rfl
  | .declaration .., _, _ => rfl
  | .inst .., _, _ => rfl
  | .generateIf _ _ none _ _, _, _ => rfl
  | .generateIf _ _ (some true) thenBlock _, region, q => by
    rw [itemScopes, itemScopes, List.map_singleton, mapIds_blockTree thenBlock]
  | .generateIf _ _ (some false) _ none, _, _ => rfl
  | .generateIf _ _ (some false) _ (some elseBlock), region, q => by
    rw [itemScopes, itemScopes, List.map_singleton, mapIds_blockTree elseBlock]
  | .generateFor _ _ _ none _, _, _ => rfl
  | .generateFor _ _ _ (some iterations) block, region, q => by
    rw [itemScopes, itemScopes]
    exact map_mapIds_spread f (fun value k => mapIds_blockTree block region (.iteration value) k)
      iterations q
  | .generateBlock _ _ block, region, q => by
    rw [itemScopes, itemScopes, List.map_singleton, mapIds_blockTree block]
  | .malformed _, _, _ => rfl

theorem map_mapIds_scopeTrees :
    ∀ (items : List SourceItem) (k q : Nat),
      (scopeTrees name items k q).map (mapIds f) = scopeTrees (f ∘ name) items k q
  | [], _, _ => rfl
  | item :: rest, k, q => by
    rw [scopeTrees, scopeTrees, List.map_append, map_mapIds_itemScopes item,
      map_mapIds_scopeTrees rest]
    rfl

theorem mapIds_blockTree :
    ∀ (source : SourceBlock) (region : NodeId) (branch : Branch) (k : Nat),
      (blockTree name source region branch k).mapIds f =
        blockTree (f ∘ name) source (f region) branch k
  | ⟨span, label, items⟩, region, branch, k => by
    rw [blockTree, blockTree, mapIds_mk, mapIds_scopeOf, map_mapIds_arrange,
      map_mapIds_itemTrees items, map_mapIds_scopeTrees items]
    rfl

end

end Layout

end DesignTree
