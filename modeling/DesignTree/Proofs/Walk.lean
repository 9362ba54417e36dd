import DesignTree.Proofs.Tree
import DesignTree.Proofs.Walk.Preorder
/-!
# DesignTree.Proofs.Walk

Walks over linked trees.

Linked trees whose nodes are all in an index are the listing of their roots (`preorder_map_id`). So
a walk from the roots visits every node of the trees, in the order of the trees (`walk_map_id`).
-/

namespace DesignTree.NodeIndex

open NodeTree

/-- Every node of the trees is in the index under its own number. -/
def Resolves (index : NodeIndex) (trees : List NodeTree) : Prop :=
  ∀ node ∈ nodesOf trees, index.get? node.id = some node

variable {index : NodeIndex} {trees front back : List NodeTree}

theorem Resolves.owned (h : index.Resolves trees) {tree : NodeTree}
    (htree : tree ∈ subtreesOf trees) : index.Resolves tree.owned :=
  fun node hnode => h node ((((owned_sublist htree).map _).subset) hnode)

theorem Resolves.root (h : index.Resolves trees) {tree : NodeTree} (htree : tree ∈ trees) :
    index.get? tree.id = some tree.node := by
  refine h tree.node (mem_nodesOf.mpr ⟨tree, ?_, rfl⟩)
  rw [subtreesOf_eq_flatMap]
  exact List.mem_flatMap.mpr ⟨tree, htree, tree.self_mem_subtrees⟩

theorem Resolves.head {tree : NodeTree} (h : index.Resolves (tree :: trees)) :
    index.get? tree.id = some tree.node :=
  h.root (List.mem_cons_self ..)

theorem Resolves.below {tree : NodeTree} (h : index.Resolves (tree :: trees)) :
    index.Resolves tree.owned :=
  h.owned (head_mem_subtreesOf tree trees)

theorem Resolves.tail {tree : NodeTree} (h : index.Resolves (tree :: trees)) :
    index.Resolves trees :=
  fun node hnode => h node (nodesOf_cons tree trees ▸ List.mem_append_right _ hnode)

theorem resolves_append :
    index.Resolves (front ++ back) ↔ index.Resolves front ∧ index.Resolves back := by
  simp only [Resolves, nodesOf_append, List.mem_append, or_imp, forall_and]

theorem Resolves.subset (h : index.Resolves back) (sub : front ⊆ back) : index.Resolves front := by
  intro node hnode
  rw [nodesOf_eq_flatMap] at hnode
  obtain ⟨tree, htree, hnode⟩ := List.mem_flatMap.mp hnode
  refine h node ?_
  rw [nodesOf_eq_flatMap]
  exact List.mem_flatMap.mpr ⟨tree, sub htree, hnode⟩

theorem Resolves.singleton (h : index.Resolves trees) {tree : NodeTree} (htree : tree ∈ trees) :
    index.Resolves [tree] :=
  h.subset (List.cons_subset.mpr ⟨htree, List.nil_subset trees⟩)

theorem Resolves.perm (h : index.Resolves front) (hperm : front.Perm back) :
    index.Resolves back :=
  h.subset hperm.symm.subset

theorem Adds.resolves {before : NodeIndex} (h : before.Adds (nodesOf trees) index) :
    index.Resolves trees :=
  fun _ hnode => h.get?_of_mem hnode

/-! ### Numbers in an index -/

/-- Trees without a repeated number have no more nodes than an index that has them all. -/
theorem length_nodesOf_le_size (hresolves : index.Resolves trees)
    (distinct : ((nodesOf trees).map (·.id)).Nodup) : (nodesOf trees).length ≤ index.size := by
  rw [← List.length_map (·.id)]
  refine length_le_size distinct (List.forall_mem_map.mpr fun node hnode => ?_)
  exact ⟨node, hresolves node hnode⟩

/-- An index that has the nodes of some trees and no others has their numbers. -/
theorem Adds.ids_perm (hadds : empty.Adds (nodesOf trees) index)
    (distinct : ((nodesOf trees).map (·.id)).Nodup) :
    ((nodesOf trees).map (·.id)).Perm index.ids := by
  refine (List.perm_ext_iff_of_nodup distinct index.nodup_ids).mpr fun id => ?_
  rw [mem_ids, List.mem_map]
  constructor
  · rintro ⟨node, hnode, rfl⟩
    exact ⟨node, hadds.get?_of_mem hnode⟩
  · rintro ⟨node, hnode⟩
    exact ⟨node, hadds.get?_eq_some_iff.mp hnode⟩

/-! ### Walking trees -/

/-- The listing from the roots of linked trees has the nodes of the trees in their order. -/
theorem preorder_map_id :
    ∀ {trees : List NodeTree}, Linked trees → index.Resolves trees →
      index.Preorder (trees.map NodeTree.id) ((nodesOf trees).map (·.id))
  | [], _, _ => .nil
  | ⟨node, owned⟩ :: rest, hlinked, hresolves => by
    have self := head_mem_subtreesOf ⟨node, owned⟩ rest
    have below := preorder_map_id (hlinked.owned self) hresolves.below
    rw [← hlinked _ self, ← childrenAt_of_get? hresolves.head] at below
    have later := preorder_map_id hlinked.tail hresolves.tail
    rw [nodesOf_cons, nodes_eq, lowerNodes, List.map_append, List.map_cons]
    exact .cons below later

/-- What can be reached from the roots of linked trees is what is in the trees. -/
theorem reaches_map_id_iff (hlinked : Linked trees) (hresolves : index.Resolves trees)
    (id : NodeId) : index.Reaches (trees.map NodeTree.id) id ↔ id ∈ (nodesOf trees).map (·.id) :=
  ((preorder_map_id hlinked hresolves).mem_iff id).symm

theorem Resolves.resultOf (h : index.Resolves trees) :
    index.resultOf ((nodesOf trees).map (·.id)) = .ok ((nodesOf trees).map (·.id)) :=
  resultOf_of_taken (List.forall_mem_map.mpr fun node hnode => ⟨node, h node hnode⟩)

/-- Walking from the roots of linked trees. -/
theorem walk_map_id (hlinked : Linked trees) (hresolves : index.Resolves trees) :
    index.walk (trees.map NodeTree.id) = .ok ((nodesOf trees).map (·.id)) := by
  rw [(preorder_map_id hlinked hresolves).walk_eq, hresolves.resultOf]

/-- Units at the roots of linked trees, each followed by what is below it. -/
theorem walkUnits_map_id (hlinked : Linked trees) (hresolves : index.Resolves trees)
    (hunits : ∀ tree ∈ trees, ∃ u, tree.node.content = .unit u) :
    index.walkUnits (trees.map NodeTree.id) = .ok ((nodesOf trees).map (·.id)) := by
  rw [(preorder_map_id hlinked hresolves).walkUnits_eq, hresolves.resultOf]
  refine List.forall_mem_map.mpr fun tree htree node found => ?_
  rw [hresolves.root htree] at found
  cases found
  exact hunits tree htree

end DesignTree.NodeIndex
