import DesignTree.Port
/-!
# DesignTree.Declaration

Declarations that elaboration keeps as they are. Their contents are the same in the source tree
and in the elaborated design; only the node number is new there.
-/

namespace DesignTree

/-- One declared name with its initialiser. -/
structure DeclName where
  span : Span
  name : Name
  init : Option Expr
  deriving DecidableEq

/-- Which procedure a procedural block is. -/
inductive ProcKind
  | initial
  | final
  | always
  | alwaysComb
  | alwaysLatch
  | alwaysFf
  deriving DecidableEq

/-- A port declaration in a unit's body, for ports that the header only names. -/
structure PortDecl where
  dir : PortDir
  kind : PortKind
  ty : DataType
  names : List DeclName
  deriving DecidableEq

/-- Instances of a design unit. -/
structure Instantiation where
  target : Name
  names : List DeclName
  deriving DecidableEq

/-- A declaration without a scope of its own. -/
inductive Declaration
  /-- Ports that the header names. -/
  | port (decl : PortDecl)
  /-- Nets. -/
  | net (kind : NetKind) (ty : DataType) (names : List DeclName)
  /-- Variables. -/
  | var (ty : DataType) (names : List DeclName)
  /-- A parameter, or a local parameter. -/
  | param (isLocal : Bool) (ty : DataType) (name : Name) (value : Option Expr)
  /-- A type definition. -/
  | typedef (name : Name) (ty : DataType)
  /-- A continuous assignment. -/
  | assign (lhs rhs : Expr)
  /-- A procedural block. -/
  | proc (kind : ProcKind)
  deriving DecidableEq

namespace Declaration

/-- The data type of a declaration that has one. -/
def ty? : Declaration → Option DataType
  | port decl => some decl.ty
  | net _ ty _ => some ty
  | var ty _ => some ty
  | param _ ty _ _ => some ty
  | typedef _ ty => some ty
  | assign .. => none
  | proc _ => none

/-- The name of a declaration: the first one, if it lists several. -/
def name? : Declaration → Option Name
  | port decl => decl.names.head?.map (·.name)
  | net _ _ names => names.head?.map (·.name)
  | var _ names => names.head?.map (·.name)
  | param _ _ name _ => some name
  | typedef name _ => some name
  | assign .. => none
  | proc _ => none

end Declaration

end DesignTree
