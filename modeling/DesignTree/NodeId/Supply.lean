import DesignTree.NodeId.Basic
/-!
# DesignTree.NodeId.Supply

Where node numbers come from. Elaboration draws a fresh number for each node it makes; it is
written against `IdSupply` and never looks at a number it was given, so the same code runs on
the session's counter and on numbers that were dealt out beforehand.

The counter counts up and stops for good one short of the largest 32-bit word. It neither wraps
nor issues zero.
-/

namespace DesignTree

/-- Why no node number could be drawn. -/
inductive IdError
  /-- The supply has run out. -/
  | exhausted
  deriving DecidableEq

/-- The first number that is never issued: the largest 32-bit word. -/
def idLimit : Nat := 4294967295

/-- The diagnostic for a draw that failed. -/
def IdError.message : IdError → String
  | exhausted => s!"node id space exhausted after {idLimit - 1} allocations"

/-- A source of node numbers, from which one can be drawn at a time. -/
class IdSupply (σ : Type) where
  /-- Draws a number; the supply that remains is returned also when there was none to draw. -/
  draw : σ → Except IdError NodeId × σ

/-- The session's counter; `next` is the number that the next draw gets. -/
structure IdCounter where
  next : Nat
  deriving DecidableEq, Inhabited

namespace IdCounter

/-- A counter that issues the given number first; zero counts as one. -/
def startingAt (first : Nat) : IdCounter := ⟨if first = 0 then 1 else first⟩

/-- A counter that has issued nothing. -/
def fresh : IdCounter := startingAt 1

/-- Issues the next number, or fails and stays as it is once the limit is reached. -/
def draw (counter : IdCounter) : Except IdError NodeId × IdCounter :=
  if counter.next < idLimit then
    (.ok ⟨counter.next⟩, ⟨counter.next + 1⟩)
  else
    (.error .exhausted, counter)

instance : IdSupply IdCounter := ⟨draw⟩

end IdCounter

/-- Numbers that were dealt out beforehand, drawn from the front. -/
structure DealtIds where
  ids : List NodeId
  deriving DecidableEq, Inhabited

namespace DealtIds

/-- Takes the first of the dealt numbers. -/
def draw : DealtIds → Except IdError NodeId × DealtIds
  | ⟨[]⟩ => (.error .exhausted, ⟨[]⟩)
  | ⟨id :: rest⟩ => (.ok id, ⟨rest⟩)

instance : IdSupply DealtIds := ⟨draw⟩

end DealtIds

end DesignTree
