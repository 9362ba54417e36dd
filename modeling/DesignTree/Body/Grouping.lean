import DesignTree.Error
import DesignTree.Node.Basic
/-!
# DesignTree.Body.Grouping

From the nodes of a scope, in source order, to its body. Each node goes to the group of its
kind; header ports, their slices and generate scopes have none, for they are no declarations, and
port declarations belong to modules and interfaces only. The first node out of place is the
error of the whole scope.
-/

namespace DesignTree

/-- The group that a node belongs to in a scope of the given kind. -/
def Content.bucketIn (scope : ScopeKind) : Content → Except Malformation Bucket
  | .unit _ => .ok .nestedUnits
  | .port _ => .error .headerPortAmongItems
  | .portSlice _ => .error .headerPortAmongItems
  | .declaration (.port _) =>
    match scope with
    | .module => .ok .ports
    | .interface => .ok .ports
    | .package => .error .portDeclOutsideUnit
    | .generate => .error .portDeclOutsideUnit
  | .declaration (.net ..) => .ok .nets
  | .declaration (.var ..) => .ok .vars
  | .declaration (.param ..) => .ok .params
  | .declaration (.typedef ..) => .ok .typedefs
  | .declaration (.assign ..) => .ok .assigns
  | .declaration (.proc _) => .ok .procs
  | .inst _ => .ok .insts
  | .generateIf _ => .ok .generateRegions
  | .generateFor _ => .ok .generateRegions
  | .generateBlock _ => .ok .generateRegions
  | .generateScope _ => .error .generateScopeAmongItems

/-- Groups the nodes of a scope by kind. -/
def Body.ofNodes (scope : ScopeKind) (parent : NodeId) : List Node → Except DesignError Body
  | [] => .ok (.empty scope parent)
  | node :: rest =>
    match node.content.bucketIn scope with
    | .error reason => .error (.structural node.span reason)
    | .ok bucket =>
      match ofNodes scope parent rest with
      | .error e => .error e
      | .ok body => .ok (body.cons node.id bucket)

end DesignTree
