import DesignTree.Elaboration.Scope
import DesignTree.Index.Walk
/-!
# DesignTree.Design.Basic

A design: the top-level units that were put together, the index of all nodes in them, and the
definition that counts for each unit name.
-/

namespace DesignTree

/-- Which unit a name stands for, and where that unit's name is written. -/
structure Definition where
  id : NodeId
  nameSpan : Span
  deriving DecidableEq

/-- Elaborated units with all their nodes. -/
structure Design where
  index : NodeIndex
  /-- The top-level units, in the order in which they were added. -/
  unitIds : Array NodeId
  /-- The latest definition of each name. -/
  byName : Std.ExtTreeMap Name Definition

namespace Design

/-- A design without units. -/
def empty : Design := { index := .empty, unitIds := #[], byName := ∅ }

/-- The unit node with a number, if there is one. -/
def unit? (design : Design) (id : NodeId) : Option (Placed DesignUnit) :=
  match design.index.unit id with
  | .error _ => none
  | .ok unit => some unit

/-- The top-level units with their names, in the order in which they were added. -/
def units (design : Design) : List (Name × Placed DesignUnit) :=
  (design.unitIds.toList.filterMap design.unit?).map fun unit => (unit.content.name, unit)

/-- How many top-level units there are. -/
def unitCount (design : Design) : Nat := design.unitIds.size

/-- The unit that a name stands for. -/
def unitNamed? (design : Design) (name : Name) : Option (Placed DesignUnit) :=
  match design.byName[name]? with
  | none => none
  | some definition => design.unit? definition.id

/-- All nodes of the design, unit by unit; each comes before what it owns. -/
def walkIds (design : Design) : Except DesignError (List NodeId) :=
  design.index.walkUnits design.unitIds.toList

end Design

end DesignTree
