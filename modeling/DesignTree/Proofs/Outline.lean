import DesignTree.Elaboration.Scope
import DesignTree.Proofs.Audit
import DesignTree.Proofs.Grouping
/-!
# DesignTree.Proofs.Outline

Designs without numbers.

An outline shows a node with everything it owns in the place of the numbers. There are two ways to
one. `ElaboratedUnit.outline` takes an elaborated unit and looks up every number in its index, as
far down as there is anything. `SourceUnit.outline` takes a source unit and says what its
elaboration should come to, by recursion on the source tree and without a step-by-step account:
which items stand in which group, and which blocks become generate scopes.
-/

namespace DesignTree

/-- The contents of a scope: its groups, each in source order, and its generate scopes. -/
structure ScopeOutline (α : Type) where
  scope : ScopeKind
  group : Bucket → List α
  generateScopes : List α

/-- A node with all that it owns. -/
inductive Outline
  /-- There is no such node, or there should be none. -/
  | missing
  | unit (span : Span) (kind : UnitKind) (name : Name) (nameSpan : Span) (ports : List Outline)
    (body : ScopeOutline Outline)
  | port (span : Span) (name : Option Name) (slices : List Outline)
  | generateScope (span : Span) (branch : Branch) (label : Option Name)
    (body : ScopeOutline Outline)
  /-- A node that owns nothing. -/
  | plain (span : Span) (content : Content)

/-- Nothing is missing, on whatever depth. -/
inductive Outline.Complete : Outline → Prop
  | unit {span : Span} {kind : UnitKind} {name : Name} {nameSpan : Span} {ports : List Outline}
    {body : ScopeOutline Outline} (hports : ∀ port ∈ ports, port.Complete)
    (hmembers : ∀ bucket, ∀ member ∈ body.group bucket, member.Complete)
    (hscopes : ∀ scope ∈ body.generateScopes, scope.Complete) :
    (Outline.unit span kind name nameSpan ports body).Complete
  | port {span : Span} {name : Option Name} {slices : List Outline}
    (hslices : ∀ slice ∈ slices, slice.Complete) : (Outline.port span name slices).Complete
  | generateScope {span : Span} {branch : Branch} {label : Option Name}
    {body : ScopeOutline Outline}
    (hmembers : ∀ bucket, ∀ member ∈ body.group bucket, member.Complete)
    (hscopes : ∀ scope ∈ body.generateScopes, scope.Complete) :
    (Outline.generateScope span branch label body).Complete
  | plain {span : Span} {content : Content} : (Outline.plain span content).Complete

/-! ### From an index -/

/-- The content of a node that owns nothing, without the numbers of other nodes. -/
def Content.unlinked : Content → Content
  | .portSlice slice => .portSlice { slice with base := none }
  | .generateIf region => .generateIf { region with taken := none }
  | .generateFor region => .generateFor { region with scopes := [] }
  | .generateBlock region => .generateBlock { region with scope := none }
  | content => content

/-- A body with something in the place of each number. -/
def Body.outline {α : Type} (resolve : NodeId → α) (body : Body) : ScopeOutline α :=
  { scope := body.scope
    group := fun bucket => (body.bucket bucket).map resolve
    generateScopes := body.generateScopes.map resolve }

/-- A node with something in the place of each number it lists. -/
def Node.outline (resolve : NodeId → Outline) (node : Node) : Outline :=
  match node.content with
  | .unit u =>
    .unit node.span u.kind u.name u.nameSpan (u.ports.map resolve) (u.body.outline resolve)
  | .port p => .port node.span p.name (p.slices.map resolve)
  | .generateScope scope =>
    .generateScope node.span scope.branch scope.label (scope.body.outline resolve)
  | content => .plain node.span content.unlinked

/-- The outline of the node with a number, to a given depth. -/
def NodeIndex.outlineAt (index : NodeIndex) : Nat → NodeId → Outline
  | 0, _ => .missing
  | depth + 1, id =>
    match index.get? id with
    | none => .missing
    | some node => Node.outline (index.outlineAt depth) node

/-- The outline of an elaborated unit. No chain of owners is longer than the index has nodes. -/
def ElaboratedUnit.outline (u : ElaboratedUnit) : Outline :=
  Node.outline (u.nodes.outlineAt u.nodes.size) u.node

/-! ### From the source tree -/

/-- The slice of a reference: as the first declaration of its name has it. -/
def refOutline (items : List SourceItem) (ref : PortRef) : Outline :=
  match (declaredNames items).find? (·.name == ref.name) with
  | none => .missing
  | some port =>
    .plain ref.span (.portSlice
      { name := ref.name, selects := ref.selects, base := none, dir := port.dir
        kind := port.kind, ty := port.ty, default := port.default })

/-- The slices of a header entry. -/
def sliceOutlines (items : List SourceItem) (previous : Option AnsiPort) :
    HeaderEntry → List Outline
  | .ansi span entry =>
    let port := AnsiPort.infer previous entry
    [.plain span (.portSlice
      { name := entry.name, selects := [], base := none, dir := port.dir, kind := port.kind
        ty := port.ty, default := entry.default })]
  | .named _ _ none => []
  | .named _ _ (some refs) => refs.map (refOutline items)
  | .unnamed _ refs => refs.map (refOutline items)

/-- The ports of a header, in header order. -/
def portOutlines (items : List SourceItem) : Option AnsiPort → List HeaderEntry → List Outline
  | _, [] => []
  | previous, entry :: rest =>
    .port entry.span entry.name? (sliceOutlines items previous entry) ::
      portOutlines items (entry.carried previous) rest

mutual

/-- What a unit comes to. -/
def SourceUnit.outline : SourceUnit → Outline
  | ⟨kind, name, nameSpan, span, header, items⟩ =>
    .unit span kind name nameSpan (portOutlines items none header)
      { scope := kind.scope
        group := fun bucket => memberOutlines items bucket
        generateScopes := scopeOutlines items }

/-- What an item by itself comes to; a region is its marker. -/
def SourceItem.outline : SourceItem → Outline
  | .declaration span decl => .plain span (.declaration decl)
  | .inst span _ inst => .plain span (.inst inst)
  | .unit nested => nested.outline
  | .generateIf span label (some condition) _ elseBlock =>
    .plain span (.generateIf { label, condition, hasElse := elseBlock.isSome, taken := none })
  | .generateFor span label genvar (some iterations) _ =>
    .plain span (.generateFor { label, genvar, iterations, scopes := [] })
  | .generateBlock span label _ => .plain span (.generateBlock { label, scope := none })
  | _ => .missing

/-- The items of one group, in source order. -/
def memberOutlines : List SourceItem → Bucket → List Outline
  | [], _ => []
  | item :: rest, bucket =>
    if item.bucket = bucket then
      item.outline :: memberOutlines rest bucket
    else
      memberOutlines rest bucket

/-- The generate scopes of an item: the block that its condition takes, if there is one, every
iteration of a loop, or the plain block. -/
def SourceItem.scopeOutlines : SourceItem → List Outline
  | .generateIf _ _ (some true) thenBlock _ => [thenBlock.outline .thenBranch]
  | .generateIf _ _ (some false) _ (some elseBlock) => [elseBlock.outline .elseBranch]
  | .generateFor _ _ _ (some iterations) block =>
    iterations.map fun value => block.outline (.iteration value)
  | .generateBlock _ _ block => [block.outline .block]
  | _ => []

/-- The generate scopes of items, in source order. -/
def scopeOutlines : List SourceItem → List Outline
  | [] => []
  | item :: rest => item.scopeOutlines ++ scopeOutlines rest

/-- What a block comes to where it is elaborated. -/
def SourceBlock.outline : SourceBlock → Branch → Outline
  | ⟨span, label, items⟩, branch =>
    .generateScope span branch label
      { scope := .generate
        group := fun bucket => memberOutlines items bucket
        generateScopes := scopeOutlines items }

end

end DesignTree
