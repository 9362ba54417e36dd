import DesignTree.Error
import DesignTree.Node.Basic
import Std.Data.ExtTreeMap.Basic
/-!
# DesignTree.Index.Basic

The index of a design: its nodes by number. A number is written at most once, by registering a
node under the number that the node itself has, or by merging another index in as a whole.
Indexes with the same entries are equal, however they came about.
-/

namespace DesignTree

/-- Nodes by number. -/
structure NodeIndex where
  nodes : Std.ExtTreeMap NodeId Node

namespace NodeIndex

/-- An index without nodes. -/
def empty : NodeIndex := ⟨∅⟩

instance : Inhabited NodeIndex := ⟨empty⟩

/-- The node with a number, if there is one. -/
def get? (index : NodeIndex) (id : NodeId) : Option Node := index.nodes[id]?

/-- Whether a number is taken. -/
def contains (index : NodeIndex) (id : NodeId) : Bool := index.nodes.contains id

/-- How many nodes there are. -/
def size (index : NodeIndex) : Nat := index.nodes.size

/-- Whether there are none. -/
def isEmpty (index : NodeIndex) : Bool := index.nodes.isEmpty

/-- The numbers that are taken, in ascending order. -/
def ids (index : NodeIndex) : List NodeId := index.nodes.keys

/-- The nodes, in the order of their numbers. -/
def toList (index : NodeIndex) : List Node := index.nodes.toList.map (·.2)

/-- Adds a node whose number is not taken. -/
def register (index : NodeIndex) (node : Node) : Except DesignError NodeIndex :=
  if index.contains node.id then
    .error (.duplicateId node.id)
  else
    .ok ⟨index.nodes.insert node.id node⟩

/-- The node with a number, which must be there. -/
def lookup (index : NodeIndex) (id : NodeId) : Except DesignError Node :=
  match index.get? id with
  | none => .error (.unknownId id)
  | some node => .ok node

/-- The unit with a number. -/
def unit (index : NodeIndex) (id : NodeId) : Except DesignError (Placed DesignUnit) :=
  match index.lookup id with
  | .error e => .error e
  | .ok node =>
    match node.content.asUnit? with
    | none => .error (.unknownId id)
    | some u => .ok { node with content := u }

/-- The generate scope with a number. -/
def generateScope (index : NodeIndex) (id : NodeId) :
    Except DesignError (Placed GenerateScope) :=
  match index.lookup id with
  | .error e => .error e
  | .ok node =>
    match node.content.asGenerateScope? with
    | none => .error (.unknownId id)
    | some scope => .ok { node with content := scope }

/-- Adds all nodes of another index, if the two have no number in common. -/
def merge (index other : NodeIndex) : Except DesignError NodeIndex :=
  match other.ids.find? index.contains with
  | some shared => .error (.duplicateId shared)
  | none => .ok ⟨index.nodes ∪ other.nodes⟩

end NodeIndex

end DesignTree
