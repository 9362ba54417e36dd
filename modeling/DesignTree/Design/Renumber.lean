import DesignTree.Design.Basic
import DesignTree.Node.Renumber
/-!
# DesignTree.Design.Renumber

Designs up to the numbers of their nodes. When units are elaborated independently, the numbers
depend on the order in which they were drawn; the order in which a walk visits the nodes does
not. Numbering the nodes by that order gives every design a form in which two of them can be
compared.
-/

namespace DesignTree

/-- Renumbers all nodes of an index. -/
def NodeIndex.mapIds (f : NodeId → NodeId) (index : NodeIndex) : NodeIndex :=
  ⟨.ofList (index.toList.map fun node => (f node.id, Node.mapIds f node))⟩

/-- Where each number stands in the order of a walk. -/
def walkPositions (visited : List NodeId) : Std.ExtTreeMap NodeId Nat := .ofList visited.zipIdx

/-- The renumbering after which the visited numbers count up from one. Numbers that were not
visited keep theirs. -/
def walkNumbering (positions : Std.ExtTreeMap NodeId Nat) (id : NodeId) : NodeId :=
  match positions[id]? with
  | none => id
  | some position => ⟨position + 1⟩

namespace Design

/-- Renumbers all nodes of a design. -/
def mapIds (f : NodeId → NodeId) (design : Design) : Design :=
  { index := design.index.mapIds f
    unitIds := design.unitIds.map f
    byName := design.byName.map fun _ definition => { definition with id := f definition.id } }

/-- The design with its nodes numbered in the order of a walk. -/
def renumbered (design : Design) : Except DesignError Design :=
  match design.walkIds with
  | .error e => .error e
  | .ok visited => .ok (design.mapIds (walkNumbering (walkPositions visited)))

end Design

end DesignTree
