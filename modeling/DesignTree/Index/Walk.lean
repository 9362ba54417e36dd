import DesignTree.Index.Basic
/-!
# DesignTree.Index.Walk

Walking a design: from a list of numbers, every node reached through what nodes own, each before
what it owns and in the order in which it owns them. A node that is owned twice is visited twice.

The walk keeps a worklist and takes its next number from the front. Each number on the list
carries a budget, the length of the longest chain of owners that may still start at it. The walk
starts with the size of the index: a chain of different nodes is no longer than that, so a node
reached without budget left contains itself, and that is an error.
-/

namespace DesignTree.NodeIndex

/-- The visits that a number on the worklist stands for. Their count is the measure by which the
walk ends; the list is never computed. -/
def visits (index : NodeIndex) : Nat → NodeId → List NodeId
  | 0, id => [id]
  | budget + 1, id =>
    match index.get? id with
    | none => [id]
    | some node => id :: node.content.children.flatMap (index.visits budget)

/-- Visits what is on the worklist, and adds it to what was visited before. -/
def walkFrom (index : NodeIndex) (pending : List (Nat × NodeId)) (visited : Array NodeId) :
    Except DesignError (Array NodeId) :=
  match pending with
  | [] => .ok visited
  | (budget, id) :: rest =>
    match _found : index.get? id with
    | none => .error (.unknownId id)
    | some node =>
      match budget with
      | 0 => .error (.cyclicId id)
      | left + 1 =>
        index.walkFrom (node.content.children.map (left, ·) ++ rest) (visited.push id)
termination_by (pending.flatMap fun entry => index.visits entry.1 entry.2).length
decreasing_by
  rw [List.flatMap_append, List.flatMap_map, List.flatMap_cons, visits, _found]
  exact Nat.lt_succ_self _

/-- The numbers reached from a list of numbers. -/
def walk (index : NodeIndex) (roots : List NodeId) : Except DesignError (List NodeId) :=
  match index.walkFrom (roots.map (index.size, ·)) #[] with
  | .error e => .error e
  | .ok visited => .ok visited.toList

/-- Everything below a body. -/
def descendants (index : NodeIndex) (body : Body) : Except DesignError (List NodeId) :=
  index.walk body.ids

/-- Units, in the given order, each followed by everything below it: its header ports first,
then its body. -/
def walkUnits (index : NodeIndex) : List NodeId → Except DesignError (List NodeId)
  | [] => .ok []
  | id :: rest => do
    let unit ← index.unit id
    let below ← index.walk (unit.content.ports ++ unit.content.body.ids)
    let later ← walkUnits index rest
    return id :: below ++ later

end DesignTree.NodeIndex
