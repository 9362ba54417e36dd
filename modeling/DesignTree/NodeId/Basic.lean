import DesignTree.Order
/-!
# DesignTree.NodeId.Basic

Numbers of nodes. Every node of an elaborated design has a number of its own, and nodes refer to
each other by number only. Numbers are positive and fit a 32-bit word; zero never names a node.
-/

namespace DesignTree

/-- The number of a node. -/
structure NodeId where
  val : Nat
  deriving DecidableEq, Inhabited

namespace NodeId

/-- The node number that a word stands for; zero stands for none. -/
def ofNat? (n : Nat) : Option NodeId :=
  if 0 < n ∧ n < UInt32.size then some ⟨n⟩ else none

/-- Node numbers are ordered as numbers. -/
instance : Ord NodeId := ⟨compareOn val⟩

instance : Std.TransOrd NodeId := inferInstanceAs (Std.TransCmp (compareOn val))

instance : Std.LawfulEqOrd NodeId :=
  lawfulEqCmp_compareOn fun ⟨_⟩ ⟨_⟩ h => congrArg NodeId.mk h

/-- The number in decimal, as diagnostics show it. -/
def text (id : NodeId) : String := s!"{id.val}"

/-- The number marked as a node's. -/
def qualifiedText (id : NodeId) : String := s!"NodeId({id.val})"

end NodeId

end DesignTree
