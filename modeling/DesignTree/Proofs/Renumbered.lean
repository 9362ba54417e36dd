import DesignTree.Design.Renumber
import DesignTree.Proofs.Assembly.Built
import DesignTree.Proofs.Layout.Renumbered
import DesignTree.Proofs.Reachable
/-!
# DesignTree.Proofs.Renumbered

Designs up to numbers.

Renumbering the nodes of a design gives the design of the same units under the renumbered numbers,
as long as no two nodes get the same one (`Built.mapIds`). The order of a walk depends on the units
alone, so numbering the nodes by that order undoes whatever numbers they had: two designs of the
same units come to the same (`Built.exists_renumbered`).
-/

namespace DesignTree

open NodeTree Layout

/-! ### Indexes -/

namespace NodeIndex

/-- Renumbering an index that has the nodes of some trees and no others. -/
theorem Adds.mapIds {trees : List NodeTree} {index : NodeIndex} {f : NodeId → NodeId}
    (hadds : empty.Adds (nodesOf trees) index)
    (distinct : (((nodesOf trees).map (·.id)).map f).Nodup) :
    empty.Adds (nodesOf (trees.map (NodeTree.mapIds f))) (index.mapIds f) := by
  have mem : ∀ node, node ∈ index.toList ↔ node ∈ nodesOf trees := by
    intro node
    simp only [toList, List.mem_map, Prod.exists, exists_eq_right,
      Std.ExtTreeMap.mem_toList_iff_getElem?_eq_some]
    constructor
    · rintro ⟨id, hnode⟩
      exact (hadds.get?_eq_some_iff.mp hnode).1
    · intro hnode
      exact ⟨node.id, hadds.get?_of_mem hnode⟩
  have keys : (index.toList.map (·.id)) = index.ids := by
    rw [toList, List.map_map, ids, ← Std.ExtTreeMap.map_fst_toList_eq_keys]
    refine List.map_congr_left fun entry hentry => ?_
    exact hadds.id_eq (Std.ExtTreeMap.mem_toList_iff_getElem?_eq_some.mp hentry)
  have own : ((nodesOf trees).map (·.id)).Nodup := distinct.of_map f
  have fresh :
      ((index.toList.map fun node => (f node.id, Node.mapIds f node)).map (·.1)).Nodup := by
    have entries : (index.toList.map fun node => (f node.id, Node.mapIds f node)).map (·.1) =
        (index.toList.map (·.id)).map f := by
      rw [List.map_map, List.map_map]
      rfl
    rw [entries, keys]
    exact ((hadds.ids_perm own).map f).nodup_iff.mp distinct
  intro id node
  rw [get?_empty, nodesOf_map_mapIds, NodeIndex.mapIds, get?, getElem?_ofList_eq_some_iff fresh]
  simp only [List.mem_map, Prod.mk.injEq, mem, reduceCtorEq, false_or]
  constructor
  · rintro ⟨old, hold, rfl, rfl⟩
    exact ⟨⟨old, hold, rfl⟩, rfl⟩
  · rintro ⟨⟨old, hold, rfl⟩, rfl⟩
    exact ⟨old, hold, rfl, rfl⟩

end NodeIndex

/-! ### The numbering of a walk -/

section Numbering

variable {visited : List NodeId} {order : List Nat} {name other : Nat → NodeId}

/-- The number that is visited at a position becomes the number after the position. -/
theorem walkNumbering_getElem (distinct : visited.Nodup) {i : Nat} (hi : i < visited.length) :
    walkNumbering (walkPositions visited) visited[i] = ⟨i + 1⟩ := by
  have keys : (visited.zipIdx.map (·.1)).Nodup := by
    rw [List.zipIdx_map_fst]
    exact distinct
  have found : (walkPositions visited)[visited[i]]? = some i := by
    rw [walkPositions, getElem?_ofList_eq_some_iff keys, List.mem_zipIdx_iff_getElem?]
    exact List.getElem?_eq_getElem hi
  rw [walkNumbering, found]

theorem walkNumbering_of_not_mem {id : NodeId} (h : id ∉ visited) :
    walkNumbering (walkPositions visited) id = id := by
  have absent : (walkPositions visited)[id]? = none := by
    refine Std.ExtTreeMap.getElem?_ofList_of_contains_eq_false ?_
    rw [List.zipIdx_map_fst]
    simpa using h
  rw [walkNumbering, absent]

/-- The visited numbers come to count up from one. -/
theorem map_walkNumbering (distinct : visited.Nodup) :
    visited.map (walkNumbering (walkPositions visited)) =
      (List.range' 1 visited.length).map NodeId.mk := by
  refine List.ext_getElem (by simp) fun i hi _ => ?_
  rw [List.length_map] at hi
  rw [List.getElem_map, walkNumbering_getElem distinct hi]
  simp [Nat.add_comm]

/-- Numbering by a walk undoes the numbers that were there: what remains is the order of the walk,
and numbers that it does not visit. -/
theorem walkNumbering_comp (distinct : order.Nodup) (hname : Function.Injective name)
    (hother : Function.Injective other) (same : ∀ k, k ∉ order → name k = other k) :
    walkNumbering (walkPositions (order.map name)) ∘ name =
      walkNumbering (walkPositions (order.map other)) ∘ other := by
  have visited : ∀ {f : Nat → NodeId}, Function.Injective f → ∀ i (hi : i < order.length),
      walkNumbering (walkPositions (order.map f)) (f order[i]) = ⟨i + 1⟩ := by
    intro f hf i hi
    have here := walkNumbering_getElem (distinct.map hf) (i := i) (by rwa [List.length_map])
    rwa [List.getElem_map] at here
  have passed : ∀ {f : Nat → NodeId}, Function.Injective f → ∀ k, k ∉ order →
      walkNumbering (walkPositions (order.map f)) (f k) = f k := by
    intro f hf k hk
    refine walkNumbering_of_not_mem fun hmem => hk ?_
    exact (List.mem_map_of_injective hf).mp hmem
  funext k
  show walkNumbering _ (name k) = walkNumbering _ (other k)
  by_cases hk : k ∈ order
  · obtain ⟨i, hi, rfl⟩ := List.getElem_of_mem hk
    rw [visited hname i hi, visited hother i hi]
  · rw [passed hname k hk, passed hother k hk, same k hk]

end Numbering

/-! ### Layouts -/

/-- The positions of the nodes of some units, in the order of a walk. -/
def walkOrder (sources : List SourceUnit) (first : Nat) : List Nat :=
  (nodesOf (unitTrees NodeId.mk sources first)).map (·.id.val)

section Layouts

variable (name : Nat → NodeId) (sources : List SourceUnit)

theorem map_mapIds_unitTrees (f : NodeId → NodeId) (k : Nat) :
    (unitTrees name sources k).map (mapIds f) = unitTrees (f ∘ name) sources k := by
  induction sources generalizing k with
  | nil => rfl
  | cons source rest ih => rw [unitTrees, unitTrees, List.map_cons, mapIds_unitTree, ih]

/-- Whatever the numbers are, a walk meets them in the same order. -/
theorem map_id_nodesOf_unitTrees (first : Nat) :
    (nodesOf (unitTrees name sources first)).map (·.id) = (walkOrder sources first).map name := by
  have trees := map_mapIds_unitTrees NodeId.mk sources (fun id => name id.val) first
  rw [show (fun id : NodeId => name id.val) ∘ NodeId.mk = name from rfl] at trees
  rw [← trees, nodesOf_map_mapIds, walkOrder, List.map_map, List.map_map]
  rfl

theorem walkOrder_perm (first : Nat) :
    (walkOrder sources first).Perm (List.range' first (unitCosts sources)) := by
  have numbers := List.Perm.map NodeId.val (numbered_unitTrees NodeId.mk sources first)
  have positions : ((List.range' first (unitCosts sources)).map NodeId.mk).map NodeId.val =
      List.range' first (unitCosts sources) := by
    rw [List.map_map]
    exact List.map_id'' (fun _ => rfl) _
  rwa [positions, List.map_map] at numbers

theorem mapIds_lastDefinition? (f : NodeId → NodeId) (wanted : Name) (k : Nat) :
    (lastDefinition? name wanted sources k).map
        (fun definition => { definition with id := f definition.id }) =
      lastDefinition? (f ∘ name) wanted sources k := by
  induction sources generalizing k with
  | nil => rfl
  | cons source rest ih =>
    rw [lastDefinition?, lastDefinition?, Option.map_or, ih]
    split <;> rfl

end Layouts

/-! ### Designs -/

namespace Design.Built

variable {name other : Nat → NodeId} {sources : List SourceUnit} {first : Nat}
  {design design' : Design}

/-- Renumbering a design, if no two of its nodes get the same number. -/
theorem mapIds (h : design.Built name sources first) {f : NodeId → NodeId}
    (distinct : (((nodesOf (unitTrees name sources first)).map (·.id)).map f).Nodup) :
    (design.mapIds f).Built (f ∘ name) sources first := by
  have trees := map_mapIds_unitTrees name sources f first
  refine ⟨⟨?_, ?_, ?_, ?_⟩, fun wanted => ?_⟩
  · rw [Design.mapIds, Array.toList_map, h.holds.unitIds, ← trees, map_id_mapIds]
  · rw [← trees]
    exact h.holds.adds.mapIds distinct
  · rw [← trees, nodesOf_map_mapIds, List.map_map]
    rwa [List.map_map] at distinct
  · intro tree htree
    obtain ⟨source, k, rfl⟩ := mem_unitTrees _ htree
    exact ⟨_, source, k, rfl⟩
  · rw [Design.mapIds, Std.ExtTreeMap.getElem?_map, h.byName, mapIds_lastDefinition?]

/-- Numbering the nodes of a design by a walk. -/
theorem renumbered (h : design.Built name sources first) (hname : Function.Injective name) :
    ∃ common, design.renumbered = .ok common ∧ common.Built
      (walkNumbering (walkPositions ((walkOrder sources first).map name)) ∘ name) sources
      first := by
  have walk := h.holds.walkIds_eq
  rw [map_id_nodesOf_unitTrees] at walk
  have order : (walkOrder sources first).Nodup :=
    (walkOrder_perm sources first).nodup_iff.mpr (List.nodup_range' 1)
  have visited : ((walkOrder sources first).map name).Nodup := order.map hname
  refine ⟨_, by rw [Design.renumbered, walk], h.mapIds ?_⟩
  rw [map_id_nodesOf_unitTrees, map_walkNumbering visited]
  exact (List.nodup_range' 1).map fun _ _ same => NodeId.mk.inj same

/-- Two designs of the same units are the same up to numbers. -/
theorem exists_renumbered (h : design.Built name sources first)
    (h' : design'.Built other sources first) (hname : Function.Injective name)
    (hother : Function.Injective other)
    (same : ∀ k, ¬ (first ≤ k ∧ k < first + unitCosts sources) → name k = other k) :
    ∃ common, design.renumbered = .ok common ∧ design'.renumbered = .ok common := by
  have perm := walkOrder_perm sources first
  have order : (walkOrder sources first).Nodup := perm.nodup_iff.mpr (List.nodup_range' 1)
  have numbering := walkNumbering_comp order hname hother fun k hk =>
    same k fun inside => hk (perm.mem_iff.mpr (List.mem_range'_1.mpr inside))
  obtain ⟨common, hcommon, built⟩ := h.renumbered hname
  obtain ⟨common', hcommon', built'⟩ := h'.renumbered hother
  rw [numbering] at built
  rw [built.eq built'] at hcommon
  exact ⟨common', hcommon, hcommon'⟩

end Design.Built

end DesignTree
