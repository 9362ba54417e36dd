import DesignTree.Node.Basic
/-!
# DesignTree.Node.Renumber

Giving nodes other numbers. A renumbering is a function on numbers; it applies to a node's own
number and to every link in its content alike, so that an injective one only changes how the
nodes are called.
-/

namespace DesignTree

/-- Renumbers what a body lists, and its owner. -/
def Body.mapIds (f : NodeId → NodeId) (body : Body) : Body :=
  { scope := body.scope
    parent := f body.parent
    ports := body.ports.map f
    nets := body.nets.map f
    vars := body.vars.map f
    params := body.params.map f
    typedefs := body.typedefs.map f
    insts := body.insts.map f
    assigns := body.assigns.map f
    procs := body.procs.map f
    subHierarchies := body.subHierarchies.map f
    generateRegions := body.generateRegions.map f
    spliced := body.spliced }

/-- Renumbers the links of a unit. -/
def DesignUnit.mapIds (f : NodeId → NodeId) (unit : DesignUnit) : DesignUnit :=
  { unit with ports := unit.ports.map f, body := unit.body.mapIds f }

/-- Renumbers the links in a content. -/
def Content.mapIds (f : NodeId → NodeId) : Content → Content
  | unit u => unit (u.mapIds f)
  | port p => port { p with slices := p.slices.map f }
  | portSlice slice => portSlice { slice with base := slice.base.map f }
  | declaration decl => declaration decl
  | inst i => inst i
  | generateIf region => generateIf { region with taken := region.taken.map f }
  | generateFor region => generateFor { region with scopes := region.scopes.map f }
  | generateBlock region => generateBlock { region with scope := region.scope.map f }
  | generateScope scope =>
    generateScope { scope with region := f scope.region, body := scope.body.mapIds f }

/-- Renumbers a node and its links. -/
def Node.mapIds (f : NodeId → NodeId) (node : Node) : Node :=
  { id := f node.id, span := node.span, content := node.content.mapIds f }

end DesignTree
