import DesignTree.Elaboration.Header
import DesignTree.Proofs.Cost
import DesignTree.Proofs.Grouping
import DesignTree.Proofs.Tree
/-!
# DesignTree.Proofs.Layout

What an elaboration makes, as a function of the source tree and of the numbers it draws.

The `k`-th number that a supply issues is `name k`. A part of the source tree whose first draw
is the `k`-th is laid out as a tree of nodes; the positions of all later draws follow from the
costs of what comes before. The items of a scope are laid out from two positions, `k` for their
nodes and `q` for the blocks of their regions, which come after the nodes of all items.

The definitions here draw nothing, register nothing and cannot fail. That elaboration agrees
with them whenever it succeeds is shown in `DesignTree.Proofs.Simulation`, so they are where
the facts about elaborated designs are proved. Trees that elaboration rejects are laid out as
well, with something in the place of what is missing; nothing is claimed about those.
-/

namespace DesignTree

namespace Layout

variable (name : Nat → NodeId)

/-- A node that owns nothing. -/
def leaf (k : Nat) (span : Span) (content : Content) : NodeTree :=
  { node := { id := name k, span, content }, owned := [] }

/-- The same for every entry of a list, each of them taking `cost` positions. -/
def spread {α β : Type} (cost : Nat) (make : α → Nat → β) : List α → Nat → List β
  | [], _ => []
  | a :: rest, k => make a k :: spread cost make rest (k + cost)

/-! ### Headers -/

/-- The slice of a reference to a declared port. -/
def refSlice (ref : PortRef) : Option DeclaredPort → PortSlice
  | some port =>
    { name := ref.name, selects := ref.selects, base := some port.base, dir := port.dir
      kind := port.kind, ty := port.ty, default := port.default }
  | none =>
    { name := ref.name, selects := ref.selects, base := none, dir := .inout, kind := .var
      ty := .implicit ref.span, default := none }

/-- The slice of an entry that declares its port. -/
def ansiSlice (port : AnsiPort) (entry : AnsiEntry) : PortSlice :=
  { name := entry.name, selects := [], base := none, dir := port.dir, kind := port.kind
    ty := port.ty, default := entry.default }

/-- The slices of references. -/
def refTrees (declared : List DeclaredPort) : List PortRef → Nat → List NodeTree :=
  spread 1 fun ref k =>
    leaf name k ref.span (.portSlice (refSlice ref (declared.find? (·.name == ref.name))))

/-- The slices of a header entry. -/
def sliceTrees (declared : List DeclaredPort) (previous : Option AnsiPort) :
    HeaderEntry → Nat → List NodeTree
  | .ansi span entry, k =>
    [leaf name k span (.portSlice (ansiSlice (.infer previous entry) entry))]
  | .named _ _ none, _ => []
  | .named _ _ (some refs), k => refTrees name declared refs k
  | .unnamed _ refs, k => refTrees name declared refs k

/-- The ports of header entries. -/
def entryTrees (declared : List DeclaredPort) :
    Option AnsiPort → List HeaderEntry → Nat → List NodeTree
  | _, [], _ => []
  | previous, entry :: rest, k =>
    let slices := sliceTrees name declared previous entry (k + 1)
    { node :=
        { id := name k, span := entry.span
          content := .port { name := entry.name?, slices := slices.map NodeTree.id } }
      owned := slices } ::
      entryTrees declared (entry.carried previous) rest (k + entry.cost)

/-- The names that the port declarations among some nodes list. -/
def declaredBy (nodes : List Node) : List DeclaredPort :=
  nodes.flatMap fun node =>
    match node.content.asPortDecl? with
    | some decl => decl.declared node.id
    | none => []

/-! ### Scopes -/

/-- The nodes of a scope and its generate scopes in the order of a walk. -/
def arrange (members scopes : List NodeTree) : List NodeTree :=
  let inGroup := fun bucket => members.filter fun tree =>
    tree.node.content.group? = some bucket
  Bucket.leading.flatMap inGroup ++ scopes ++ inGroup .generateRegions

/-- A unit with the given header ports, items and generate scopes. -/
def unitOf (source : SourceUnit) (id : NodeId) (ports members scopes : List NodeTree) :
    Placed DesignUnit :=
  { id, span := source.span
    content :=
      { kind := source.kind, name := source.name, nameSpan := source.nameSpan
        ports := ports.map NodeTree.id
        body := .gather source.kind.scope id (members.map NodeTree.node)
          (scopes.map NodeTree.id) } }

/-- A generate scope with the given items and generate scopes. -/
def scopeOf (source : SourceBlock) (region : NodeId) (branch : Branch) (id : NodeId)
    (members scopes : List NodeTree) : Node :=
  { id, span := source.span
    content := .generateScope
      { region, branch, label := source.label
        body := .gather .generate id (members.map NodeTree.node) (scopes.map NodeTree.id) } }

mutual

/-- A unit and all in it. The header follows the items. -/
def unitTree : SourceUnit → Nat → NodeTree
  | ⟨kind, unitName, nameSpan, span, header, items⟩, k =>
    let q := k + 1 + declareCosts items
    let members := itemTrees items (k + 1) q
    let scopes := scopeTrees items (k + 1) q
    let ports := entryTrees name (declaredBy (members.map NodeTree.node)) none header
      (q + expandCosts items)
    { node := (unitOf ⟨kind, unitName, nameSpan, span, header, items⟩ (name k) ports members
        scopes).map .unit
      owned := ports ++ arrange members scopes }

/-- The node of an item, with all of a nested unit in it. A region is its marker, which lists
the given scopes. -/
def itemTree : SourceItem → Nat → List NodeId → NodeTree
  | .unit nested, k, _ => unitTree nested k
  | .declaration span decl, k, _ => leaf name k span (.declaration decl)
  | .inst span _ inst, k, _ => leaf name k span (.inst inst)
  | .generateIf span label condition _ elseBlock, k, scopes =>
    leaf name k span (.generateIf
      { label, condition := condition.getD false, hasElse := elseBlock.isSome
        taken := scopes.head? })
  | .generateFor span label genvar iterations _, k, scopes =>
    leaf name k span (.generateFor
      { label, genvar, iterations := iterations.getD [], scopes })
  | .generateBlock span label _, k, scopes =>
    leaf name k span (.generateBlock { label, scope := scopes.head? })
  | .malformed span, k, _ => leaf name k span (.generateBlock { label := none, scope := none })

/-- The nodes of a scope's items. -/
def itemTrees : List SourceItem → Nat → Nat → List NodeTree
  | [], _, _ => []
  | item :: rest, k, q =>
    itemTree item k ((itemScopes item (name k) q).map NodeTree.id) ::
      itemTrees rest (k + item.declareCost) (q + item.expandCost)

/-- The scopes of the blocks that are elaborated for an item's region. -/
def itemScopes : SourceItem → NodeId → Nat → List NodeTree
  | .generateIf _ _ (some true) thenBlock _, region, q =>
    [blockTree thenBlock region .thenBranch q]
  | .generateIf _ _ (some false) _ (some elseBlock), region, q =>
    [blockTree elseBlock region .elseBranch q]
  | .generateFor _ _ _ (some iterations) block, region, q =>
    spread block.cost (fun value => blockTree block region (.iteration value)) iterations q
  | .generateBlock _ _ block, region, q => [blockTree block region .block q]
  | _, _, _ => []

/-- The generate scopes of a scope. -/
def scopeTrees : List SourceItem → Nat → Nat → List NodeTree
  | [], _, _ => []
  | item :: rest, k, q =>
    itemScopes item (name k) q ++ scopeTrees rest (k + item.declareCost) (q + item.expandCost)

/-- A generate scope and all in it. -/
def blockTree : SourceBlock → NodeId → Branch → Nat → NodeTree
  | ⟨span, label, items⟩, region, branch, k =>
    let q := k + 1 + declareCosts items
    let members := itemTrees items (k + 1) q
    let scopes := scopeTrees items (k + 1) q
    { node := scopeOf ⟨span, label, items⟩ region branch (name k) members scopes
      owned := arrange members scopes }

end

/-- The items of a scope whose first draw is the `k`-th. -/
def members (items : List SourceItem) (k : Nat) : List NodeTree :=
  itemTrees name items k (k + declareCosts items)

/-- The generate scopes of a scope whose first draw is the `k`-th. -/
def scopes (items : List SourceItem) (k : Nat) : List NodeTree :=
  scopeTrees name items k (k + declareCosts items)

/-- The header ports of a unit whose own number is the `k`-th. -/
def ports (source : SourceUnit) (k : Nat) : List NodeTree :=
  entryTrees name (declaredBy ((members name source.items (k + 1)).map NodeTree.node)) none
    source.header (k + 1 + declareCosts source.items + expandCosts source.items)

/-- The unit whose own number is the `k`-th. -/
def placedUnit (source : SourceUnit) (k : Nat) : Placed DesignUnit :=
  unitOf source (name k) (ports name source k) (members name source.items (k + 1))
    (scopes name source.items (k + 1))

theorem unitTree_eq (source : SourceUnit) (k : Nat) :
    unitTree name source k =
      { node := (placedUnit name source k).map .unit
        owned := ports name source k ++
          arrange (members name source.items (k + 1)) (scopes name source.items (k + 1)) } := by
  cases source
  rfl

theorem blockTree_eq (source : SourceBlock) (region : NodeId) (branch : Branch) (k : Nat) :
    blockTree name source region branch k =
      { node := scopeOf source region branch (name k) (members name source.items (k + 1))
          (scopes name source.items (k + 1))
        owned := arrange (members name source.items (k + 1))
          (scopes name source.items (k + 1)) } := by
  cases source
  rfl

/-- The nodes of a scope's items before any region is expanded. -/
def markers : List SourceItem → Nat → List Node
  | [], _ => []
  | item :: rest, k => (itemTree name item k []).node :: markers rest (k + item.declareCost)

end Layout

end DesignTree
