import DesignTree.Design.Elaborate
/-!
# DesignTree.Proofs.Renaming

Other names in a design.

A name is the 32-bit tag under which a table keeps an identifier, and which tag that is depends on
what was interned before. `mapNames ρ` puts `ρ n` in the place of every name `n`: in source trees,
in nodes and designs, and in errors. Numbers and spans stay as they are.

The functions that look into a tree without looking at names give the same as before; those are
collected here. Names are compared in two places only, where a header refers to a declaration and
where a unit is added to a design, and it takes an injective `ρ` to pass these.
-/

namespace DesignTree

variable (ρ : Name → Name)

/-! ### Source trees -/

/-- Only a plain identifier names something. -/
def ExprKind.mapNames : ExprKind → ExprKind
  | .ident name => .ident (ρ name)
  | kind => kind

/-- An expression with other names, in its outermost form. -/
def Expr.mapNames (expr : Expr) : Expr := { expr with kind := expr.kind.mapNames ρ }

/-- Only a type that comes from a typedef has a name, the keywords have none. -/
def TypeKind.mapNames : TypeKind → TypeKind
  | .named name => .named (ρ name)
  | kind => kind

/-- A dimension with other names in its two bounds. -/
def PackedDim.mapNames (dim : PackedDim) : PackedDim :=
  { dim with msb := dim.msb.mapNames ρ, lsb := dim.lsb.mapNames ρ }

/-- A data type with other names, in its keyword and its dimensions. -/
def DataType.mapNames (ty : DataType) : DataType :=
  { ty with kind := ty.kind.mapNames ρ, dims := ty.dims.map (·.mapNames ρ) }

/-- An interface port names the interface, and perhaps one of its modports. -/
def PortKind.mapNames : PortKind → PortKind
  | .interface intf modport => .interface (ρ intf) (modport.map ρ)
  | kind => kind

/-- A selection step names a member, or has names in its index. -/
def PortSelect.mapNames : PortSelect → PortSelect
  | .member span name => .member span (ρ name)
  | .index span expr => .index span (expr.mapNames ρ)

/-- A reference with another name for the port, and other names in what it selects. -/
def PortRef.mapNames (ref : PortRef) : PortRef :=
  { ref with name := ρ ref.name, selects := ref.selects.map (·.mapNames ρ) }

/-- A declared name with its initialiser, both under other names. -/
def DeclName.mapNames (listed : DeclName) : DeclName :=
  { listed with name := ρ listed.name, init := listed.init.map (·.mapNames ρ) }

/-- A port declaration with other names in all its parts; the direction stays. -/
def PortDecl.mapNames (decl : PortDecl) : PortDecl :=
  { decl with
    kind := decl.kind.mapNames ρ, ty := decl.ty.mapNames ρ, names := decl.names.map (·.mapNames ρ) }

/-- Instances under other names, of a unit under another name. -/
def Instantiation.mapNames (inst : Instantiation) : Instantiation :=
  { target := ρ inst.target, names := inst.names.map (·.mapNames ρ) }

/-- A declaration with other names for what it declares, and in its type and expressions. -/
def Declaration.mapNames : Declaration → Declaration
  | .port decl => .port (decl.mapNames ρ)
  | .net kind ty names => .net kind (ty.mapNames ρ) (names.map (·.mapNames ρ))
  | .var ty names => .var (ty.mapNames ρ) (names.map (·.mapNames ρ))
  | .param isLocal ty name value =>
    .param isLocal (ty.mapNames ρ) (ρ name) (value.map (·.mapNames ρ))
  | .typedef name ty => .typedef (ρ name) (ty.mapNames ρ)
  | .assign lhs rhs => .assign (lhs.mapNames ρ) (rhs.mapNames ρ)
  | .proc kind => .proc kind

/-- What an ANSI entry leaves out is still left out. -/
def AnsiEntry.mapNames (entry : AnsiEntry) : AnsiEntry :=
  { entry with
    name := ρ entry.name, kind := entry.kind.map (·.mapNames ρ), ty := entry.ty.mapNames ρ
    default := entry.default.map (·.mapNames ρ) }

/-- A header entry with other names, for the port and in what the port refers to. -/
def HeaderEntry.mapNames : HeaderEntry → HeaderEntry
  | .ansi span entry => .ansi span (entry.mapNames ρ)
  | .named span name refs => .named span (ρ name) (refs.map (·.map (·.mapNames ρ)))
  | .unnamed span refs => .unnamed span (refs.map (·.mapNames ρ))

mutual

/-- A unit under another name, with other names in its header and its items. -/
def SourceUnit.mapNames : SourceUnit → SourceUnit
  | ⟨kind, name, nameSpan, span, header, items⟩ =>
    ⟨kind, ρ name, nameSpan, span, header.map (·.mapNames ρ), mapItemNames items⟩

/-- An item with other names. In a region these are the label, the genvar and those of all its
blocks, whether or not they are taken. -/
def SourceItem.mapNames : SourceItem → SourceItem
  | .declaration span decl => .declaration span (decl.mapNames ρ)
  | .inst span targetSpan inst => .inst span targetSpan (inst.mapNames ρ)
  | .unit nested => .unit nested.mapNames
  | .generateIf span label condition thenBlock none =>
    .generateIf span (label.map ρ) condition thenBlock.mapNames none
  | .generateIf span label condition thenBlock (some elseBlock) =>
    .generateIf span (label.map ρ) condition thenBlock.mapNames (some elseBlock.mapNames)
  | .generateFor span label genvar iterations block =>
    .generateFor span (label.map ρ) (ρ genvar) iterations block.mapNames
  | .generateBlock span label block => .generateBlock span (label.map ρ) block.mapNames
  | .malformed span => .malformed span

/-- The items of a scope, each with other names. -/
def mapItemNames : List SourceItem → List SourceItem
  | [] => []
  | item :: rest => item.mapNames :: mapItemNames rest

/-- A block with another label, and other names in its items. -/
def SourceBlock.mapNames : SourceBlock → SourceBlock
  | ⟨span, label, items⟩ => ⟨span, label.map ρ, mapItemNames items⟩

end

/-! ### Nodes -/

/-- What an entry may repeat of the port before it, with other names. -/
def AnsiPort.mapNames (port : AnsiPort) : AnsiPort :=
  { port with kind := port.kind.mapNames ρ, ty := port.ty.mapNames ρ }

/-- A declared port under another name; the number of its declaration stays. -/
def DeclaredPort.mapNames (port : DeclaredPort) : DeclaredPort :=
  { port with
    name := ρ port.name, kind := port.kind.mapNames ρ, ty := port.ty.mapNames ρ
    default := port.default.map (·.mapNames ρ) }

/-- A unit has one name of its own; its ports and its body are numbers. -/
def DesignUnit.mapNames (unit : DesignUnit) : DesignUnit := { unit with name := ρ unit.name }

/-- A header port without a name still has none. -/
def HeaderPort.mapNames (port : HeaderPort) : HeaderPort := { port with name := port.name.map ρ }

/-- A slice with other names in all its parts; the number of its base stays. -/
def PortSlice.mapNames (slice : PortSlice) : PortSlice :=
  { slice with
    name := ρ slice.name, selects := slice.selects.map (·.mapNames ρ)
    kind := slice.kind.mapNames ρ, ty := slice.ty.mapNames ρ
    default := slice.default.map (·.mapNames ρ) }

/-- The marker of a conditional region, with another label. -/
def IfRegion.mapNames (region : IfRegion) : IfRegion := { region with label := region.label.map ρ }

/-- The marker of a loop region, with another label and another genvar. -/
def ForRegion.mapNames (region : ForRegion) : ForRegion :=
  { region with label := region.label.map ρ, genvar := ρ region.genvar }

/-- The marker of a plain block, with another label. -/
def BlockRegion.mapNames (region : BlockRegion) : BlockRegion :=
  { region with label := region.label.map ρ }

/-- A generate scope with another label; its body is a list of numbers. -/
def GenerateScope.mapNames (scope : GenerateScope) : GenerateScope :=
  { scope with label := scope.label.map ρ }

/-- What a node holds, with other names. -/
def Content.mapNames : Content → Content
  | .unit u => .unit (u.mapNames ρ)
  | .port p => .port (p.mapNames ρ)
  | .portSlice slice => .portSlice (slice.mapNames ρ)
  | .declaration decl => .declaration (decl.mapNames ρ)
  | .inst i => .inst (i.mapNames ρ)
  | .generateIf region => .generateIf (region.mapNames ρ)
  | .generateFor region => .generateFor (region.mapNames ρ)
  | .generateBlock region => .generateBlock (region.mapNames ρ)
  | .generateScope scope => .generateScope (scope.mapNames ρ)

/-- A node keeps its number and its place in the source. -/
def Node.mapNames (node : Node) : Node := Placed.map (Content.mapNames ρ) node

/-! ### Designs and errors -/

/-- Two errors report a name; all others are about numbers and places. -/
def DesignError.mapNames : DesignError → DesignError
  | .undeclaredPort name span => .undeclaredPort (ρ name) span
  | .duplicateDefinition name span previous => .duplicateDefinition (ρ name) span previous
  | e => e

/-- An index with the same numbers, and other names in its nodes. -/
def NodeIndex.mapNames (index : NodeIndex) : NodeIndex :=
  ⟨index.nodes.map fun _ node => Node.mapNames ρ node⟩

/-- An elaborated unit and its nodes, with other names. -/
def ElaboratedUnit.mapNames (u : ElaboratedUnit) : ElaboratedUnit :=
  { unit := u.unit.map (DesignUnit.mapNames ρ), nodes := u.nodes.mapNames ρ }

/-- In a design also the names change that its units are found by. -/
def Design.mapNames (design : Design) : Design :=
  { index := design.index.mapNames ρ
    unitIds := design.unitIds
    byName := .ofList (design.byName.toList.map fun entry => (ρ entry.1, entry.2)) }

/-! ### What does not look at names -/

@[simp] theorem TypeKind.mapNames_eq_implicit {kind : TypeKind} :
    kind.mapNames ρ = .implicit ↔ kind = .implicit := by
  cases kind <;> simp [mapNames]

@[simp] theorem DataType.isBlank_mapNames (ty : DataType) :
    (ty.mapNames ρ).isBlank = ty.isBlank := by
  have kind : (ty.kind.mapNames ρ == .implicit) = (ty.kind == .implicit) := by
    rw [Bool.eq_iff_iff, beq_iff_eq, beq_iff_eq, TypeKind.mapNames_eq_implicit]
  simp only [isBlank, mapNames, kind, List.isEmpty_map]

@[simp] theorem PortKind.isInterface_mapNames (kind : PortKind) :
    (kind.mapNames ρ).isInterface = kind.isInterface := by
  cases kind <;> rfl

@[simp] theorem HeaderEntry.isAnsi_mapNames (entry : HeaderEntry) :
    (entry.mapNames ρ).isAnsi = entry.isAnsi := by
  cases entry <;> rfl

@[simp] theorem HeaderEntry.span_mapNames (entry : HeaderEntry) :
    (entry.mapNames ρ).span = entry.span := by
  cases entry <;> rfl

@[simp] theorem Content.bucketIn_mapNames (scope : ScopeKind) (content : Content) :
    (content.mapNames ρ).bucketIn scope = content.bucketIn scope := by
  cases content with
  | declaration decl => cases decl <;> rfl
  | _ => rfl

theorem Content.asPortDecl?_mapNames (content : Content) :
    (content.mapNames ρ).asPortDecl? = content.asPortDecl?.map (PortDecl.mapNames ρ) := by
  cases content with
  | declaration decl => cases decl <;> rfl
  | _ => rfl

theorem Content.asUnit?_mapNames (content : Content) :
    (content.mapNames ρ).asUnit? = content.asUnit?.map (DesignUnit.mapNames ρ) := by
  cases content <;> rfl

/-- A body lists numbers, whatever the nodes are called. -/
theorem Body.ofNodes_map_mapNames (scope : ScopeKind) (owner : NodeId) (nodes : List Node) :
    Body.ofNodes scope owner (nodes.map (Node.mapNames ρ)) =
      (Body.ofNodes scope owner nodes).mapError (DesignError.mapNames ρ) := by
  induction nodes with
  | nil => rfl
  | cons node rest ih =>
    have bucket : (Node.mapNames ρ node).content.bucketIn scope = node.content.bucketIn scope :=
      Content.bucketIn_mapNames ρ scope node.content
    rw [List.map_cons, ofNodes, ofNodes, bucket]
    cases node.content.bucketIn scope with
    | error reason => rfl
    | ok bucket =>
      simp only [ih]
      cases ofNodes scope owner rest <;> rfl

/-! ### Ports that leave something out -/

theorem AnsiPort.complete_mapNames (previous : Option AnsiPort) (entry : AnsiEntry) :
    complete (previous.map (mapNames ρ)) (entry.mapNames ρ) =
      (complete previous entry).mapNames ρ := by
  have dir : (previous.map (mapNames ρ)).map (·.dir) = previous.map (·.dir) := by
    cases previous <;> rfl
  have defaultKind : ∀ dir, defaultKind dir (entry.ty.mapNames ρ) =
      (defaultKind dir entry.ty).mapNames ρ := by
    intro dir
    cases dir with
    | output =>
      simp only [AnsiPort.defaultKind, DataType.mapNames, TypeKind.mapNames_eq_implicit]
      split <;> rfl
    | _ => rfl
  have completeType : ∀ kind : PortKind, completeType (kind.mapNames ρ) (entry.ty.mapNames ρ) =
      (completeType kind entry.ty).mapNames ρ := by
    intro kind
    simp only [AnsiPort.completeType, PortKind.isInterface_mapNames, DataType.mapNames,
      TypeKind.mapNames_eq_implicit]
    split <;> rfl
  have kind : ∀ dir, (entry.kind.map (PortKind.mapNames ρ)).getD
        (AnsiPort.defaultKind dir (entry.ty.mapNames ρ)) =
      (entry.kind.getD (AnsiPort.defaultKind dir entry.ty)).mapNames ρ := by
    intro dir
    rw [defaultKind]
    cases entry.kind <;> rfl
  simp only [complete, AnsiEntry.mapNames, mapNames, dir, kind, completeType]

theorem AnsiPort.infer_mapNames (previous : Option AnsiPort) (entry : AnsiEntry) :
    infer (previous.map (mapNames ρ)) (entry.mapNames ρ) = (infer previous entry).mapNames ρ := by
  have bare : isBare (entry.mapNames ρ) = isBare entry := by
    simp only [isBare, AnsiEntry.mapNames, Option.isNone_map, DataType.isBlank_mapNames]
  cases previous with
  | none => exact complete_mapNames ρ none entry
  | some before =>
    have completed := complete_mapNames ρ (some before) entry
    simp only [Option.map_some, infer, bare] at completed ⊢
    rw [completed]
    split <;> rfl

theorem HeaderEntry.carried_mapNames (previous : Option AnsiPort) (entry : HeaderEntry) :
    (entry.mapNames ρ).carried (previous.map (AnsiPort.mapNames ρ)) =
      (entry.carried previous).map (AnsiPort.mapNames ρ) := by
  cases entry with
  | ansi span entry => exact congrArg some (AnsiPort.infer_mapNames ρ previous entry)
  | named => rfl
  | unnamed => rfl

end DesignTree
