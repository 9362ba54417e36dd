import DesignTree.Body.Basic
/-!
# DesignTree.Node.Basic

The nodes of an elaborated design. A node has a number, a place in the source and a content; the
content says which kind of node it is. Links between nodes are numbers, also where one node owns
another: a unit owns its header ports and what its body lists, a port its slices, and a generate
scope what its body lists.

Generate regions leave two sorts of node. The region itself stays as a marker in the body it
stands in, and each block that was elaborated for it becomes a `GenerateScope` beside it; the
marker lists its scopes and every scope names its marker.
-/

namespace DesignTree

/-- Something with a node number and a place in the source. -/
structure Placed (α : Type) where
  id : NodeId
  span : Span
  content : α
  deriving DecidableEq

/-- Changes the content and keeps number and place. -/
def Placed.map {α β : Type} (f : α → β) (p : Placed α) : Placed β :=
  { id := p.id, span := p.span, content := f p.content }

/-- An elaborated module, interface or package. -/
structure DesignUnit where
  kind : UnitKind
  name : Name
  nameSpan : Span
  /-- The header ports, in header order. -/
  ports : List NodeId
  body : Body
  deriving DecidableEq

/-- A header port; it connects what its slices select. -/
structure HeaderPort where
  name : Option Name
  slices : List NodeId
  deriving DecidableEq

/-- One piece of a header port, with all that was left out filled in. -/
structure PortSlice where
  name : Name
  selects : List PortSelect
  /-- The declaration that the slice refers to; there is none for a port declared in the
  header. -/
  base : Option NodeId
  dir : PortDir
  kind : PortKind
  ty : DataType
  default : Option Expr
  deriving DecidableEq

/-- The marker of a conditional region. -/
structure IfRegion where
  label : Option Name
  condition : Bool
  hasElse : Bool
  /-- The scope of the branch that was taken, if there is one. -/
  taken : Option NodeId
  deriving DecidableEq

/-- The marker of a loop region. -/
structure ForRegion where
  label : Option Name
  genvar : Name
  iterations : List Int64
  /-- One scope per iteration. -/
  scopes : List NodeId
  deriving DecidableEq

/-- The marker of a plain block. -/
structure BlockRegion where
  label : Option Name
  /-- The scope of the block, once it is elaborated. -/
  scope : Option NodeId
  deriving DecidableEq

/-- Which block of its region a generate scope was made of. -/
inductive Branch
  | thenBranch
  | elseBranch
  | iteration (value : Int64)
  | block
  deriving DecidableEq

/-- A block that was elaborated for a generate region. -/
structure GenerateScope where
  /-- The marker of the region. -/
  region : NodeId
  branch : Branch
  label : Option Name
  body : Body
  deriving DecidableEq

/-- The content of a node. -/
inductive Content
  | unit (unit : DesignUnit)
  | port (port : HeaderPort)
  | portSlice (slice : PortSlice)
  | declaration (decl : Declaration)
  | inst (inst : Instantiation)
  | generateIf (region : IfRegion)
  | generateFor (region : ForRegion)
  | generateBlock (region : BlockRegion)
  | generateScope (scope : GenerateScope)
  deriving DecidableEq

/-- A node of an elaborated design. -/
abbrev Node := Placed Content

/-- The kinds of node. -/
inductive NodeKind
  | unit
  | port
  | portSlice
  | portDecl
  | net
  | var
  | param
  | typedef
  | inst
  | assign
  | proc
  | generateIf
  | generateFor
  | generateBlock
  | generateScope
  deriving DecidableEq

/-- The node that a declaration becomes. -/
def Declaration.nodeKind : Declaration → NodeKind
  | port _ => .portDecl
  | net .. => .net
  | var .. => .var
  | param .. => .param
  | typedef .. => .typedef
  | assign .. => .assign
  | proc _ => .proc

namespace Content

/-- Which kind of node this is the content of. -/
def kind : Content → NodeKind
  | unit _ => .unit
  | port _ => .port
  | portSlice _ => .portSlice
  | declaration decl => decl.nodeKind
  | inst _ => .inst
  | generateIf _ => .generateIf
  | generateFor _ => .generateFor
  | generateBlock _ => .generateBlock
  | generateScope _ => .generateScope

/-- The data type of a node that has one. -/
def ty? : Content → Option DataType
  | portSlice slice => some slice.ty
  | declaration decl => decl.ty?
  | _ => none

/-- Whether the node has a data type of which nothing is written. -/
def hasBlankType (content : Content) : Bool := content.ty?.any DataType.isBlank

/-- The body of a unit or generate scope. -/
def body? : Content → Option Body
  | unit u => some u.body
  | generateScope scope => some scope.body
  | _ => none

/-- The name of a node: of several declared names the first, and the label of a region or
scope. -/
def name? : Content → Option Name
  | unit u => some u.name
  | port p => p.name
  | portSlice slice => some slice.name
  | declaration decl => decl.name?
  | inst i => i.names.head?.map (·.name)
  | generateIf region => region.label
  | generateFor region => region.label
  | generateBlock region => region.label
  | generateScope scope => scope.label

/-- The nodes that a node owns, in the order in which a walk visits them. Regions do not own
their scopes; the body that they stand in does. -/
def children : Content → List NodeId
  | unit u => u.ports ++ u.body.ids
  | port p => p.slices
  | generateScope scope => scope.body.ids
  | _ => []

/-! ## Views -/

/-- The unit, if the node is one. -/
def asUnit? : Content → Option DesignUnit
  | unit u => some u
  | _ => none

/-- The header port, if the node is one. -/
def asPort? : Content → Option HeaderPort
  | port p => some p
  | _ => none

/-- The port slice, if the node is one. -/
def asPortSlice? : Content → Option PortSlice
  | portSlice slice => some slice
  | _ => none

/-- The port declaration, if the node is one. -/
def asPortDecl? : Content → Option PortDecl
  | declaration (.port decl) => some decl
  | _ => none

/-- The marker of a conditional region, if the node is one. -/
def asGenerateIf? : Content → Option IfRegion
  | generateIf region => some region
  | _ => none

/-- The marker of a loop region, if the node is one. -/
def asGenerateFor? : Content → Option ForRegion
  | generateFor region => some region
  | _ => none

/-- The generate scope, if the node is one. -/
def asGenerateScope? : Content → Option GenerateScope
  | generateScope scope => some scope
  | _ => none

end Content

end DesignTree
