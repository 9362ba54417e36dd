import DesignTree.NodeId.Basic
import DesignTree.Source
/-!
# DesignTree.Body.Basic

Bodies. The body of a unit or generate scope lists the numbers of what is declared there, grouped
by kind; within a group the order is that of the source.

Nested units and the scopes of generate regions are both hierarchies below the body and share
one list. The scopes are added after the body was grouped, always at the end, and the body counts
them: so the list falls into the nested units and the scopes.
-/

namespace DesignTree

/-- What kind of scope a body belongs to. -/
inductive ScopeKind
  | module
  | interface
  | package
  | generate
  deriving DecidableEq

/-- The scope of a unit's own items. -/
def UnitKind.scope : UnitKind → ScopeKind
  | module => .module
  | interface => .interface
  | package => .package

/-- The groups into which the declarations of one scope fall. -/
inductive Bucket
  | ports
  | nets
  | vars
  | params
  | typedefs
  | insts
  | assigns
  | procs
  | nestedUnits
  | generateRegions
  deriving DecidableEq

/-- The contents of one scope by kind, and the number of the node that owns it. -/
structure Body where
  scope : ScopeKind
  parent : NodeId
  ports : List NodeId
  nets : List NodeId
  vars : List NodeId
  params : List NodeId
  typedefs : List NodeId
  insts : List NodeId
  assigns : List NodeId
  procs : List NodeId
  /-- Nested units in source order, then the scopes of generate regions. -/
  subHierarchies : List NodeId
  generateRegions : List NodeId
  /-- How many hierarchies at the end of their list are scopes of generate regions. -/
  spliced : Nat
  deriving DecidableEq

namespace Body

/-- A body in which nothing is declared. -/
def empty (scope : ScopeKind) (parent : NodeId) : Body :=
  { scope, parent, ports := [], nets := [], vars := [], params := [], typedefs := []
    insts := [], assigns := [], procs := [], subHierarchies := [], generateRegions := []
    spliced := 0 }

/-- The units nested in the scope. -/
def nestedUnits (body : Body) : List NodeId :=
  body.subHierarchies.take (body.subHierarchies.length - body.spliced)

/-- The scopes of the generate regions. -/
def generateScopes (body : Body) : List NodeId :=
  body.subHierarchies.drop (body.subHierarchies.length - body.spliced)

/-- The numbers in one group. -/
def bucket (body : Body) : Bucket → List NodeId
  | .ports => body.ports
  | .nets => body.nets
  | .vars => body.vars
  | .params => body.params
  | .typedefs => body.typedefs
  | .insts => body.insts
  | .assigns => body.assigns
  | .procs => body.procs
  | .nestedUnits => body.nestedUnits
  | .generateRegions => body.generateRegions

/-- Puts a declaration in front of one group. -/
def cons (body : Body) (id : NodeId) : Bucket → Body
  | .ports => { body with ports := id :: body.ports }
  | .nets => { body with nets := id :: body.nets }
  | .vars => { body with vars := id :: body.vars }
  | .params => { body with params := id :: body.params }
  | .typedefs => { body with typedefs := id :: body.typedefs }
  | .insts => { body with insts := id :: body.insts }
  | .assigns => { body with assigns := id :: body.assigns }
  | .procs => { body with procs := id :: body.procs }
  | .nestedUnits => { body with subHierarchies := id :: body.subHierarchies }
  | .generateRegions => { body with generateRegions := id :: body.generateRegions }

/-- Adds the scopes of generate regions, after those that are there. -/
def splice (body : Body) (scopes : List NodeId) : Body :=
  { body with
    subHierarchies := body.subHierarchies ++ scopes
    spliced := body.spliced + scopes.length }

/-- Everything in the body, group by group. -/
def ids (body : Body) : List NodeId :=
  body.ports ++ body.nets ++ body.vars ++ body.params ++ body.typedefs ++ body.insts ++
    body.assigns ++ body.procs ++ body.subHierarchies ++ body.generateRegions

/-- How many declarations the scope has; the scopes of its regions are not counted. -/
def declarationCount (body : Body) : Nat := body.ids.length - body.spliced

/-- Whether there is nothing in the body. -/
def isEmpty (body : Body) : Bool := body.ids.isEmpty

end Body

end DesignTree
