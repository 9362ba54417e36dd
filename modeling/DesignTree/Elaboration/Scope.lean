import DesignTree.Body.Grouping
import DesignTree.Elaboration.Header
import DesignTree.Nesting
/-!
# DesignTree.Elaboration.Scope

Elaboration of units and of the scopes in them.

The items of a scope are elaborated in three steps. First every item becomes a node, in source
order; a nested unit is elaborated completely there, a generate region becomes a bare marker.
Then the nodes are grouped into the scope's body. Last each region is expanded: the branch that
its condition takes, every iteration of a loop, or the plain block becomes a generate scope, by
the same three steps, and is spliced into the body. A block that is not taken is never looked
at.

The header of a unit comes after its body, for it refers to the declarations there. The
functions recurse on the source tree; `elaborateItems` and `expandItems` go through the same
items, once for the first step and once for the last. Each scope is one level of the recursion
(`withinScope`), whatever it is the scope of.
-/

namespace DesignTree

namespace Elaboration

variable {σ : Type}

/-- The three steps for one scope, given the first and the last of them. Nodes are registered
after all regions are expanded, when their markers are complete. -/
def elaborateScope (scope : ScopeKind) (owner : NodeId) (declare : Elaboration σ (List Node))
    (expand : List Node → Elaboration σ (List Node × List NodeId)) : Elaboration σ Body :=
  withinScope fun _ => do
    let markers ← declare
    let body ← ofExcept (Body.ofNodes scope owner markers)
    let (nodes, scopes) ← expand markers
    registerAll nodes
    return body.splice scopes

variable [IdSupply σ]

/-- A node with a fresh number. -/
def place (span : Span) (content : Content) : Elaboration σ Node := do
  let id ← drawId
  return { id, span, content }

mutual

/-- Elaborates a unit: its number first, then its items, then its header. -/
def elaborateUnit : SourceUnit → Elaboration σ (Placed DesignUnit)
  | ⟨kind, name, nameSpan, span, header, items⟩ =>
    if kind = .package ∧ header.isEmpty = false then
      throw (.structural span .packageWithHeader)
    else do
      let id ← drawId
      let body ← elaborateScope kind.scope id (elaborateItems items) (expandItems items)
      let ports ← elaborateHeader header body
      return { id, span, content := { kind, name, nameSpan, ports, body } }

/-- The node of an item. Regions whose condition or bounds have no value are refused before a
number is drawn. -/
def elaborateItem : SourceItem → Elaboration σ Node
  | .declaration span decl => place span (.declaration decl)
  | .inst span _ inst => place span (.inst inst)
  | .unit nested => do
    let unit ← elaborateUnit nested
    return unit.map .unit
  | .generateIf span label condition _ elseBlock =>
    match condition with
    | none => throw (.unresolvedGenerate span)
    | some condition =>
      place span (.generateIf { label, condition, hasElse := elseBlock.isSome, taken := none })
  | .generateFor span label genvar iterations _ =>
    match iterations with
    | none => throw (.unresolvedGenerate span)
    | some iterations => place span (.generateFor { label, genvar, iterations, scopes := [] })
  | .generateBlock span label _ => place span (.generateBlock { label, scope := none })
  | .malformed span => throw (.structural span .parserPlaceholder)

/-- The nodes of a scope's items, with bare markers for its regions. -/
def elaborateItems : List SourceItem → Elaboration σ (List Node)
  | [] => pure []
  | item :: rest => do
    let node ← elaborateItem item
    let later ← elaborateItems rest
    return node :: later

/-- Expands the region of an item: the completed marker, and the scopes that were made. Items
that are no regions have nothing to expand. -/
def expandItem : SourceItem → Node → Elaboration σ (Node × List NodeId)
  | .generateIf span _ _ thenBlock elseBlock, node =>
    match node.content with
    | .generateIf region =>
      if region.condition then do
        let scope ← elaborateBlock thenBlock node.id .thenBranch
        return ({ node with content := .generateIf { region with taken := some scope } }, [scope])
      else
        match elseBlock with
        | none => pure (node, [])
        | some block => do
          let scope ← elaborateBlock block node.id .elseBranch
          return ({ node with content := .generateIf { region with taken := some scope } },
            [scope])
    | _ => throw (.structural span .markerMismatch)
  | .generateFor span _ _ _ block, node =>
    match node.content with
    | .generateFor region => do
      let scopes ← region.iterations.mapM fun value =>
        elaborateBlock block node.id (.iteration value)
      return ({ node with content := .generateFor { region with scopes } }, scopes)
    | _ => throw (.structural span .markerMismatch)
  | .generateBlock span _ block, node =>
    match node.content with
    | .generateBlock region => do
      let scope ← elaborateBlock block node.id .block
      return ({ node with content := .generateBlock { region with scope := some scope } },
        [scope])
    | _ => throw (.structural span .markerMismatch)
  | .declaration .., node => pure (node, [])
  | .inst .., node => pure (node, [])
  | .unit _, node => pure (node, [])
  | .malformed _, node => pure (node, [])

/-- Expands the regions of a scope, in source order; the nodes are those of the items. -/
def expandItems : List SourceItem → List Node → Elaboration σ (List Node × List NodeId)
  | item :: items, node :: nodes => do
    let (expanded, scopes) ← expandItem item node
    let (later, laterScopes) ← expandItems items nodes
    return (expanded :: later, scopes ++ laterScopes)
  | [], nodes => pure (nodes, [])
  | _ :: _, [] => pure ([], [])

/-- Makes a generate scope of a block, for the region with the given marker. -/
def elaborateBlock : SourceBlock → NodeId → Branch → Elaboration σ NodeId
  | ⟨span, label, items⟩, region, branch => do
    let id ← drawId
    let body ← elaborateScope .generate id (elaborateItems items) (expandItems items)
    register { id, span, content := .generateScope { region, branch, label, body } }
    return id

end

end Elaboration

/-- An elaborated unit, and the index of all nodes in it. The unit itself is not in the index. -/
structure ElaboratedUnit where
  unit : Placed DesignUnit
  nodes : NodeIndex

/-- The unit as a node. -/
def ElaboratedUnit.node (u : ElaboratedUnit) : Node := u.unit.map .unit

/-- Elaborates a unit with numbers from a supply, and returns what is left of the supply. -/
def SourceUnit.elaborate {σ : Type} [IdSupply σ] (source : SourceUnit) (ids : σ) :
    Except DesignError ElaboratedUnit × σ :=
  match Elaboration.elaborateUnit source { ids, nodes := .empty } with
  | .ok unit s => (.ok { unit, nodes := s.nodes }, s.ids)
  | .error e s => (.error e, s.ids)

end DesignTree
