import DesignTree.Index.Basic
/-!
# DesignTree.Index.InPlace

Registering and merging in place. Other than `register` and `merge`, which return a new index or
none, the programs here change an index step by step, and a failure takes back nothing that was
changed before it.
-/

namespace DesignTree

/-- Work on an index in place. What was changed before a failure stays changed. -/
abbrev IndexStep := EStateM DesignError NodeIndex

namespace NodeIndex

/-- Enters a node under its own number, unless that is taken. -/
def enter (node : Node) : IndexStep Unit := do
  let index ← get
  if index.contains node.id then
    throw (.duplicateId node.id)
  else
    set (NodeIndex.mk (index.nodes.insert node.id node))

/-- Writes entries one after the other, over what is there. -/
def overwrite : List (NodeId × Node) → IndexStep Unit
  | [] => pure ()
  | (id, node) :: rest => do
    modify fun index => ⟨index.nodes.insert id node⟩
    overwrite rest

/-- Moves all entries of another index in. Their numbers are compared before the first of them is
moved. -/
def absorb (other : NodeIndex) : IndexStep Unit := do
  let index ← get
  match other.ids.find? index.contains with
  | some shared => throw (.duplicateId shared)
  | none => overwrite other.nodes.toList

end NodeIndex

end DesignTree
