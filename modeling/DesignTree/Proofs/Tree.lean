import DesignTree.Body.Grouping
import Mathlib.Data.List.Nodup
import Mathlib.Data.List.Pairwise
/-!
# DesignTree.Proofs.Tree

Trees of nodes: a node together with everything that it owns.

Nodes own each other by number only, and an index resolves the numbers. Here the ownership is
explicit, so that what an elaboration makes can be reasoned about by recursion. `subtrees` and
`nodes` list a tree in the order of a walk, each node before what is below it.
-/

namespace DesignTree

/-- A node with a body owns what the body lists, after its header ports if it has any. -/
theorem Content.children_of_body? {content : Content} {body : Body}
    (h : content.body? = some body) : ∃ ports, content.children = ports ++ body.ids := by
  cases content with
  | unit u => cases h; exact ⟨u.ports, rfl⟩
  | generateScope scope => cases h; exact ⟨[], rfl⟩
  | _ => cases h

/-- A node with the trees of what it owns, in the order in which it owns them. -/
structure NodeTree where
  node : Node
  owned : List NodeTree

namespace NodeTree

/-- The number of the root. -/
def id (tree : NodeTree) : NodeId := tree.node.id

@[simp] theorem id_mk (node : Node) (owned : List NodeTree) : (mk node owned).id = node.id := rfl

mutual

/-- A tree and all trees in it. -/
def subtrees : NodeTree → List NodeTree
  | ⟨node, owned⟩ => ⟨node, owned⟩ :: subtreesOf owned

/-- All trees in a list of trees. -/
def subtreesOf : List NodeTree → List NodeTree
  | [] => []
  | tree :: rest => tree.subtrees ++ subtreesOf rest

end

/-- The nodes of a tree. -/
def nodes (tree : NodeTree) : List Node := tree.subtrees.map node

/-- The nodes of a list of trees. -/
def nodesOf (trees : List NodeTree) : List Node := (subtreesOf trees).map node

/-- The nodes below the root. -/
def lowerNodes (tree : NodeTree) : List Node := nodesOf tree.owned

theorem subtrees_eq (tree : NodeTree) : tree.subtrees = tree :: subtreesOf tree.owned := by
  cases tree
  rfl

theorem subtreesOf_eq_flatMap (trees : List NodeTree) :
    subtreesOf trees = trees.flatMap subtrees := by
  induction trees with
  | nil => rfl
  | cons tree rest ih => rw [subtreesOf, ih, List.flatMap_cons]

@[simp] theorem nodesOf_nil : nodesOf [] = [] := rfl

@[simp] theorem nodesOf_cons (tree : NodeTree) (rest : List NodeTree) :
    nodesOf (tree :: rest) = tree.nodes ++ nodesOf rest := by
  simp [nodesOf, nodes, subtreesOf]

theorem nodesOf_singleton (tree : NodeTree) : nodesOf [tree] = tree.nodes := by
  rw [nodesOf_cons, nodesOf_nil, List.append_nil]

@[simp] theorem nodesOf_append (front back : List NodeTree) :
    nodesOf (front ++ back) = nodesOf front ++ nodesOf back := by
  simp [nodesOf, subtreesOf_eq_flatMap]

theorem nodes_eq (tree : NodeTree) : tree.nodes = tree.node :: tree.lowerNodes := by
  simp [nodes, lowerNodes, nodesOf, subtrees_eq]

theorem nodesOf_eq_flatMap (trees : List NodeTree) : nodesOf trees = trees.flatMap nodes := by
  induction trees with
  | nil => rfl
  | cons tree rest ih => rw [nodesOf_cons, ih, List.flatMap_cons]

theorem nodesOf_perm {front back : List NodeTree} (h : front.Perm back) :
    (nodesOf front).Perm (nodesOf back) := by
  rw [nodesOf_eq_flatMap, nodesOf_eq_flatMap]
  exact h.flatMap_right nodes

/-- The nodes of a list of trees: the roots, and what is below them. -/
theorem nodesOf_perm_roots (trees : List NodeTree) :
    (nodesOf trees).Perm (trees.map node ++ trees.flatMap lowerNodes) := by
  induction trees with
  | nil => exact .refl _
  | cons tree rest ih =>
    rw [nodesOf_cons, nodes_eq, List.map_cons, List.flatMap_cons, List.cons_append,
      List.cons_append]
    refine List.Perm.cons _ ?_
    exact (ih.append_left _).trans (List.perm_append_comm_assoc ..)

theorem self_mem_subtrees (tree : NodeTree) : tree ∈ tree.subtrees := by
  rw [subtrees_eq]
  exact List.mem_cons_self ..

theorem mem_nodesOf {trees : List NodeTree} {node : Node} :
    node ∈ nodesOf trees ↔ ∃ tree ∈ subtreesOf trees, tree.node = node := by
  simp [nodesOf]

theorem head_mem_subtreesOf (tree : NodeTree) (rest : List NodeTree) :
    tree ∈ subtreesOf (tree :: rest) :=
  List.mem_append_left _ (self_mem_subtrees tree)

theorem mem_subtreesOf_of_mem {trees : List NodeTree} {tree : NodeTree} (h : tree ∈ trees) :
    tree ∈ subtreesOf trees := by
  rw [subtreesOf_eq_flatMap]
  exact List.mem_flatMap.mpr ⟨tree, h, self_mem_subtrees tree⟩

/-- The trees in a tree among others come in the order in which they come in all of them. -/
theorem subtrees_sublist :
    ∀ (trees : List NodeTree) {tree : NodeTree}, tree ∈ subtreesOf trees →
      tree.subtrees.Sublist (subtreesOf trees)
  | ⟨node, owned⟩ :: rest, tree, h => by
    rw [subtreesOf, subtrees] at h ⊢
    rcases List.mem_append.mp h with inside | later
    · refine List.Sublist.trans ?_ (List.sublist_append_left ..)
      rcases List.mem_cons.mp inside with rfl | below
      · rw [subtrees]
      · exact (subtrees_sublist owned below).trans (List.sublist_cons_self ..)
    · exact (subtrees_sublist rest later).trans (List.sublist_append_right ..)

/-- What a tree among others owns is among them as well. -/
theorem owned_sublist {trees : List NodeTree} {tree : NodeTree} (h : tree ∈ subtreesOf trees) :
    (subtreesOf tree.owned).Sublist (subtreesOf trees) := by
  refine List.Sublist.trans ?_ (subtrees_sublist trees h)
  rw [subtrees_eq]
  exact List.sublist_cons_self ..

theorem roots_sublist : ∀ trees : List NodeTree, trees.Sublist (subtreesOf trees)
  | [] => .slnil
  | tree :: rest => by
    rw [subtreesOf, subtrees_eq, List.cons_append]
    exact ((roots_sublist rest).trans (List.sublist_append_right ..)).cons_cons tree

theorem mem_subtreesOf_of_owned {trees : List NodeTree} {tree sub : NodeTree}
    (htree : tree ∈ subtreesOf trees) (hsub : sub ∈ tree.owned) : sub ∈ subtreesOf trees :=
  (owned_sublist htree).subset (mem_subtreesOf_of_mem hsub)

/-- A property of every tree in the given ones, at any depth. -/
def All (P : NodeTree → Prop) (trees : List NodeTree) : Prop := ∀ tree ∈ subtreesOf trees, P tree

namespace All

variable {P : NodeTree → Prop} {trees front back : List NodeTree}

theorem nil : All P [] := by
  intro tree h
  cases h

theorem append (hfront : All P front) (hback : All P back) : All P (front ++ back) := by
  intro tree h
  rw [subtreesOf_eq_flatMap, List.flatMap_append, ← subtreesOf_eq_flatMap,
    ← subtreesOf_eq_flatMap] at h
  rcases List.mem_append.mp h with h | h
  · exact hfront tree h
  · exact hback tree h

theorem tail {tree : NodeTree} (h : All P (tree :: trees)) : All P trees :=
  fun sub hsub => h sub (List.mem_append_right _ hsub)

theorem perm (h : All P front) (hperm : front.Perm back) : All P back := by
  intro tree htree
  rw [subtreesOf_eq_flatMap] at htree
  refine h tree ?_
  rw [subtreesOf_eq_flatMap]
  exact (hperm.flatMap_right subtrees).mem_iff.mpr htree

theorem root {node : Node} {owned : List NodeTree} (hroot : P ⟨node, owned⟩)
    (howned : All P owned) : All P [⟨node, owned⟩] := by
  intro tree h
  rw [subtreesOf, subtreesOf, List.append_nil, subtrees] at h
  rcases List.mem_cons.mp h with rfl | h
  · exact hroot
  · exact howned tree h

/-- What holds of all trees holds of those further down. -/
theorem owned {tree : NodeTree} (h : All P trees) (htree : tree ∈ subtreesOf trees) :
    All P tree.owned :=
  fun sub hsub => h sub ((owned_sublist htree).subset hsub)

theorem of_mem {tree : NodeTree} (h : All P trees) (htree : tree ∈ trees) : All P [tree] := by
  intro sub hsub
  rw [subtreesOf, subtreesOf, List.append_nil] at hsub
  exact h sub ((subtrees_sublist trees (mem_subtreesOf_of_mem htree)).subset hsub)

/-- What holds of the given trees and passes from a tree to those that it owns holds at every
depth. -/
theorem of_owned : ∀ {trees : List NodeTree}, (∀ tree ∈ trees, P tree) →
    (∀ tree ∈ subtreesOf trees, P tree → ∀ sub ∈ tree.owned, P sub) → All P trees
  | [], _, _ => nil
  | ⟨node, owned⟩ :: rest, hroots, hstep => by
    obtain ⟨hroot, hrest⟩ := List.forall_mem_cons.mp hroots
    have self := head_mem_subtreesOf ⟨node, owned⟩ rest
    have below : All P owned :=
      of_owned (hstep ⟨node, owned⟩ self hroot) fun tree htree =>
        hstep tree ((owned_sublist self).subset htree)
    have later : All P rest :=
      of_owned hrest fun tree htree => hstep tree (List.mem_append_right _ htree)
    exact (root hroot below).append later

end All

/-- Every tree is one of the given ones, or owned by another. -/
theorem exists_owner {trees : List NodeTree} {tree : NodeTree} (h : tree ∈ subtreesOf trees) :
    tree ∈ trees ∨ ∃ owner ∈ subtreesOf trees, tree ∈ owner.owned := by
  have all : All (fun sub => sub ∈ trees ∨ ∃ owner ∈ subtreesOf trees, sub ∈ owner.owned) trees :=
    .of_owned (fun _ hroot => .inl hroot) fun owner howner _ _ hsub => .inr ⟨owner, howner, hsub⟩
  exact all tree h

/-- The numbers of the nodes: those of the given trees, and those of what some tree owns. -/
theorem ids_owned_perm : ∀ trees : List NodeTree,
    (trees.map id ++ (subtreesOf trees).flatMap fun tree => tree.owned.map id).Perm
      ((nodesOf trees).map (·.id))
  | [] => .refl _
  | ⟨node, owned⟩ :: rest => by
    rw [nodesOf_cons, nodes_eq, subtreesOf, subtrees, List.map_cons, List.map_append, List.map_cons,
      List.flatMap_append, List.flatMap_cons, List.cons_append, List.cons_append]
    refine List.Perm.cons _ ?_
    exact (List.perm_append_comm_assoc ..).trans
      ((ids_owned_perm owned).append (ids_owned_perm rest))

theorem nodup_owned {trees : List NodeTree} (distinct : ((nodesOf trees).map (·.id)).Nodup) :
    ((subtreesOf trees).flatMap fun tree => tree.owned.map id).Nodup :=
  (List.nodup_append.mp ((ids_owned_perm trees).nodup_iff.mpr distinct)).2.1

/-- In each of the trees, the numbers that the content of the root lists are those of the trees
that it owns. -/
def Linked (trees : List NodeTree) : Prop :=
  ∀ tree ∈ subtreesOf trees, tree.node.content.children = tree.owned.map id

namespace Linked

variable {trees front back : List NodeTree}

theorem nil : Linked [] := All.nil

theorem append (hfront : Linked front) (hback : Linked back) : Linked (front ++ back) :=
  All.append hfront hback

theorem tail {tree : NodeTree} (h : Linked (tree :: trees)) : Linked trees := All.tail h

theorem perm (h : Linked front) (hperm : front.Perm back) : Linked back := All.perm h hperm

theorem root {node : Node} {owned : List NodeTree} (hnode : node.content.children = owned.map id)
    (howned : Linked owned) : Linked [⟨node, owned⟩] :=
  All.root hnode howned

/-- Trees that are linked are so further down. -/
theorem owned {tree : NodeTree} (h : Linked trees) (htree : tree ∈ subtreesOf trees) :
    Linked tree.owned :=
  All.owned h htree

/-- Where no number repeats, it has one owner at most. -/
theorem owner_unique (h : Linked trees) (distinct : ((nodesOf trees).map (·.id)).Nodup)
    {tree other : NodeTree} (htree : tree ∈ subtreesOf trees) (hother : other ∈ subtreesOf trees)
    {child : NodeId} (hchild : child ∈ tree.node.content.children)
    (hchild' : child ∈ other.node.content.children) : tree = other := by
  rw [h tree htree] at hchild
  rw [h other hother] at hchild'
  have apart := (List.nodup_flatMap.mp (nodup_owned distinct)).2
  have : Std.Symm (Function.onFun List.Disjoint fun tree : NodeTree => tree.owned.map id) :=
    ⟨fun _ _ disjoint => List.disjoint_symm disjoint⟩
  by_contra different
  exact apart.forall htree hother different hchild hchild'

end Linked

end NodeTree

end DesignTree
