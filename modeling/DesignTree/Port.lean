import DesignTree.Expr
/-!
# DesignTree.Port

What ports are made of: directions, net types, port kinds, and the references by which a header
names parts of declared ports.
-/

namespace DesignTree

/-- The direction of a port. -/
inductive PortDir
  | input
  | output
  | inout
  | ref
  deriving DecidableEq

/-- The type of a net. -/
inductive NetKind
  | wire
  | tri
  | wand
  | wor
  | triand
  | trior
  | trireg
  | tri0
  | tri1
  | supply0
  | supply1
  | uwire
  deriving DecidableEq

/-- What is behind a port. -/
inductive PortKind
  /-- A net. -/
  | net (kind : NetKind)
  /-- A variable. -/
  | var
  /-- An interface, perhaps seen through one of its modports. -/
  | interface (intf : Name) (modport : Option Name)
  deriving DecidableEq

namespace PortKind

/-- Whether the port is an interface port. -/
def isInterface : PortKind → Bool
  | interface .. => true
  | _ => false

end PortKind

/-- One step of a selection from a declared port. -/
inductive PortSelect
  /-- A member, `.name`. -/
  | member (span : Span) (name : Name)
  /-- An index or a range, `[expr]`. -/
  | index (span : Span) (expr : Expr)
  deriving DecidableEq

/-- Where a selection step is written. -/
def PortSelect.span : PortSelect → Span
  | member span _ => span
  | index span _ => span

/-- A reference to a declared port, or to a part of it. -/
structure PortRef where
  span : Span
  name : Name
  selects : List PortSelect
  deriving DecidableEq

end DesignTree
