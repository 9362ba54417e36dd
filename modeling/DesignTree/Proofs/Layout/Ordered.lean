import DesignTree.Proofs.Layout.Numbered
/-!
# DesignTree.Proofs.Layout.Ordered

The order of the numbers in a layout, where a position is its own number: the members of a scope
count up in the order of its items, its generate scopes come after all of them and count up as
well, and so do the ports of a header and the slices of each port (`increasing_scope`,
`increasing_entryTrees`, `increasing_slices`).
-/

namespace DesignTree

open NodeTree Layout

/-- The numbers count up. -/
def Increasing (ids : List NodeId) : Prop := ids.Pairwise fun a b => a.val < b.val

namespace Numbered

variable {trees front back : List NodeTree} {k n m : Nat}

/-- The roots have numbers from the range. -/
theorem root_bounds (h : Numbered NodeId.mk trees k n) {id : NodeId}
    (hid : id ∈ trees.map NodeTree.id) : k ≤ id.val ∧ id.val < k + n := by
  obtain ⟨tree, htree, rfl⟩ := List.mem_map.mp hid
  refine (h.mem_iff_val tree.id).mp (List.mem_map.mpr ⟨tree.node, ?_, rfl⟩)
  exact mem_nodesOf.mpr ⟨tree, mem_subtreesOf_of_mem htree, rfl⟩

/-- Trees that are numbered one after the other count up. -/
theorem increasing_append (hfront : Numbered NodeId.mk front k n)
    (hback : Numbered NodeId.mk back (k + n) m) (before : Increasing (front.map NodeTree.id))
    (after : Increasing (back.map NodeTree.id)) :
    Increasing ((front ++ back).map NodeTree.id) := by
  rw [List.map_append]
  refine List.pairwise_append.mpr ⟨before, after, fun a ha b hb => ?_⟩
  exact Nat.lt_of_lt_of_le (hfront.root_bounds ha).2 (hback.root_bounds hb).1

theorem increasing_cons {tree : NodeTree} (htree : Numbered NodeId.mk [tree] k n)
    (hback : Numbered NodeId.mk back (k + n) m) (after : Increasing (back.map NodeTree.id)) :
    Increasing ((tree :: back).map NodeTree.id) :=
  htree.increasing_append hback (List.pairwise_singleton ..) after

end Numbered

namespace Layout

theorem increasing_spread {α : Type} {make : α → Nat → NodeTree} {cost : Nat}
    (h : ∀ a k, Numbered NodeId.mk [make a k] k cost) (list : List α) (k : Nat) :
    Increasing ((spread cost make list k).map NodeTree.id) := by
  induction list generalizing k with
  | nil => exact .nil
  | cons a rest ih => exact (h a k).increasing_cons (.spread h rest (k + cost)) (ih (k + cost))

/-! ### Scopes -/

theorem increasing_itemTrees (items : List SourceItem) (k q : Nat) :
    Increasing ((itemTrees NodeId.mk items k q).map NodeTree.id) := by
  induction items generalizing k q with
  | nil => exact .nil
  | cons item rest ih =>
    exact (numbered_itemTree _ item k _).increasing_cons (numbered_itemTrees _ rest _ _) (ih _ _)

theorem increasing_itemScopes (item : SourceItem) (region : NodeId) (q : Nat) :
    Increasing ((itemScopes NodeId.mk item region q).map NodeTree.id) := by
  cases item with
  | generateIf span label condition thenBlock elseBlock =>
    rcases condition with _ | _ | _
    · exact .nil
    · cases elseBlock with
      | none => exact .nil
      | some elseBlock => exact List.pairwise_singleton ..
    · exact List.pairwise_singleton ..
  | generateFor span label genvar iterations block =>
    cases iterations with
    | none => exact .nil
    | some iterations =>
      exact increasing_spread (fun value k => numbered_blockTree _ block region _ k) iterations q
  | generateBlock => exact List.pairwise_singleton ..
  | _ => exact .nil

theorem increasing_scopeTrees (items : List SourceItem) (k q : Nat) :
    Increasing ((scopeTrees NodeId.mk items k q).map NodeTree.id) := by
  induction items generalizing k q with
  | nil => exact .nil
  | cons item rest ih =>
    exact (numbered_itemScopes _ item _ q).increasing_append (numbered_scopeTrees _ rest _ _)
      (increasing_itemScopes item _ q) (ih _ _)

/-- The members of a scope in source order, and then its generate scopes. -/
theorem increasing_scope (items : List SourceItem) (k : Nat) :
    Increasing ((members NodeId.mk items k ++ scopes NodeId.mk items k).map NodeTree.id) :=
  (numbered_itemTrees _ items k _).increasing_append (numbered_scopeTrees _ items k _)
    (increasing_itemTrees items k _) (increasing_scopeTrees items k _)

/-! ### Headers -/

theorem increasing_sliceTrees (declared : List DeclaredPort) (previous : Option AnsiPort)
    (entry : HeaderEntry) (k : Nat) :
    Increasing ((sliceTrees NodeId.mk declared previous entry k).map NodeTree.id) := by
  have refs : ∀ refs, Increasing ((refTrees NodeId.mk declared refs k).map NodeTree.id) := by
    intro refs
    unfold refTrees
    exact increasing_spread (fun ref k => .leaf ref.span _) refs k
  cases entry with
  | ansi => exact List.pairwise_singleton ..
  | named span outer list =>
    cases list with
    | none => exact .nil
    | some list => exact refs list
  | unnamed span list => exact refs list

theorem increasing_entryTrees (declared : List DeclaredPort) (previous : Option AnsiPort)
    (entries : List HeaderEntry) (k : Nat) :
    Increasing ((entryTrees NodeId.mk declared previous entries k).map NodeTree.id) := by
  induction entries generalizing previous k with
  | nil => exact .nil
  | cons entry rest ih =>
    have slices := numbered_sliceTrees NodeId.mk declared previous entry (k + 1)
    exact Numbered.increasing_cons (.root rfl slices) (numbered_entryTrees _ declared _ rest _)
      (ih _ _)

/-- A port, and then its slices. -/
theorem increasing_slices {declared : List DeclaredPort} {previous : Option AnsiPort}
    {entries : List HeaderEntry} {k : Nat} :
    ∀ tree ∈ entryTrees NodeId.mk declared previous entries k,
      ∃ port, tree.node.content = .port port ∧ Increasing (tree.id :: port.slices) := by
  induction entries generalizing previous k with
  | nil =>
    intro tree h
    cases h
  | cons entry rest ih =>
    refine List.forall_mem_cons.mpr ⟨⟨_, rfl, List.pairwise_cons.mpr ⟨?_, ?_⟩⟩, ih⟩
    · intro slice hslice
      exact ((numbered_sliceTrees NodeId.mk declared previous entry (k + 1)).root_bounds hslice).1
    · exact increasing_sliceTrees declared previous entry (k + 1)

end Layout

end DesignTree
