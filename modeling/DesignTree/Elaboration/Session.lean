import DesignTree.Index.Basic
import DesignTree.NodeId.Supply
/-!
# DesignTree.Elaboration.Session

What the elaboration of one unit works on: the supply of node numbers, and the index of the nodes
made so far. A failure keeps both, so that numbers drawn before it stay drawn.
-/

namespace DesignTree

/-- The state of an elaboration. -/
structure Session (σ : Type) where
  ids : σ
  nodes : NodeIndex

/-- A step of an elaboration. -/
abbrev Elaboration (σ : Type) := EStateM DesignError (Session σ)

namespace Elaboration

variable {σ : Type}

/-- A sequence goes on from where its first part left off, unless that failed. -/
theorem bind_apply {α β : Type} (x : Elaboration σ α) (f : α → Elaboration σ β) (s : Session σ) :
    (x >>= f) s =
      match x s with
      | .ok a t => f a t
      | .error e t => .error e t := by
  show EStateM.bind x f s = _
  rw [EStateM.bind]
  cases x s <;> rfl

/-- Draws a fresh node number. -/
def drawId [IdSupply σ] : Elaboration σ NodeId := fun s =>
  match IdSupply.draw s.ids with
  | (.ok id, ids) => .ok id { s with ids }
  | (.error cause, ids) => .error (.ids cause) { s with ids }

/-- Adds a node to the index. -/
def register (node : Node) : Elaboration σ Unit := fun s =>
  match s.nodes.register node with
  | .ok nodes => .ok () { s with nodes }
  | .error e => .error e s

/-- Adds nodes to the index, in the given order. -/
def registerAll : List Node → Elaboration σ Unit
  | [] => pure ()
  | node :: rest => do
    register node
    registerAll rest

/-- The node with a number, which must be there. -/
def lookup (id : NodeId) : Elaboration σ Node := fun s =>
  match s.nodes.lookup id with
  | .ok node => .ok node s
  | .error e => .error e s

/-- The value of a computation that does not touch the state. -/
def ofExcept {α : Type} : Except DesignError α → Elaboration σ α
  | .ok a => pure a
  | .error e => throw e

end Elaboration

end DesignTree
