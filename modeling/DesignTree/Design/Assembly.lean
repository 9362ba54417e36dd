import DesignTree.Design.Basic
import DesignTree.Index.InPlace
/-!
# DesignTree.Design.Assembly

Putting elaborated units together into a design, one at a time. An assembly is changed in place,
and nothing is taken back: that a unit is added as a whole or not at all is owed to the checks that
come before the first change.

Two units of one name are a mistake, unless the name is written at the same place, which means
that one definition came in twice; a permissive assembly takes them in any case. The unit added
last is the one its name stands for.
-/

namespace DesignTree

/-- How strictly a design is assembled. -/
structure DesignConfig where
  /-- Whether a name may be defined again at another place. -/
  ignoreDuplicateDefs : Bool
  deriving DecidableEq

namespace DesignConfig

/-- Every name has one definition. -/
def strict : DesignConfig := ⟨false⟩

/-- Names may be defined again. -/
def permissive : DesignConfig := ⟨true⟩

end DesignConfig

/-- A design that is being put together. -/
structure Assembly where
  config : DesignConfig
  design : Design

/-- Work on an assembly in place. What was changed before a failure stays changed. -/
abbrev AssemblyStep := EStateM DesignError Assembly

namespace Assembly

/-- An assembly to which nothing was added. -/
def new (config : DesignConfig) : Assembly := { config, design := .empty }

/-- Where a unit's name was defined before, if that forbids to add the unit. -/
def conflict? (assembly : Assembly) (unit : DesignUnit) : Option Span :=
  match assembly.design.byName[unit.name]? with
  | none => none
  | some previous =>
    if previous.nameSpan ≠ unit.nameSpan ∧ assembly.config.ignoreDuplicateDefs = false then
      some previous.nameSpan
    else
      none

/-- The design with one more unit; `index` holds the nodes of both. -/
def extend (design : Design) (unit : Placed DesignUnit) (index : NodeIndex) : Design :=
  { index
    unitIds := design.unitIds.push unit.id
    byName := design.byName.insert unit.content.name
      { id := unit.id, nameSpan := unit.content.nameSpan } }

/-- Works on the index of the design. -/
def onIndex {α : Type} (step : IndexStep α) : AssemblyStep α := fun assembly =>
  match step.run assembly.design.index with
  | .ok a index => .ok a { assembly with design := { assembly.design with index } }
  | .error e index => .error e { assembly with design := { assembly.design with index } }

/-- Lists a unit, and makes it the one that its name stands for. -/
def enlist (unit : Placed DesignUnit) : AssemblyStep Unit :=
  modify fun assembly =>
    { assembly with design := extend assembly.design unit assembly.design.index }

/-- Adds a unit in place and returns its number. Its name is checked first, then its own number,
then those of its nodes. The unit itself is entered last, when the assembly has been changed
already. -/
def offer (added : ElaboratedUnit) : AssemblyStep NodeId := do
  let unit := added.unit
  let assembly ← get
  match assembly.conflict? unit.content with
  | some previous =>
    throw (.duplicateDefinition unit.content.name unit.content.nameSpan previous)
  | none =>
    if assembly.design.index.contains unit.id || added.nodes.contains unit.id then
      throw (.duplicateId unit.id)
    else do
      onIndex (NodeIndex.absorb added.nodes)
      enlist unit
      onIndex (NodeIndex.enter added.node)
      return unit.id

/-- The assembly with one more unit. -/
def addUnit (assembly : Assembly) (added : ElaboratedUnit) : Except DesignError Assembly :=
  match (offer added).run assembly with
  | .ok _ extended => .ok extended
  | .error e _ => .error e

/-- Adds units in order, up to the first that cannot be added. -/
def addUnits (assembly : Assembly) : List ElaboratedUnit → Except DesignError Assembly
  | [] => .ok assembly
  | added :: rest =>
    match assembly.addUnit added with
    | .error e => .error e
    | .ok extended => extended.addUnits rest

end Assembly

end DesignTree
