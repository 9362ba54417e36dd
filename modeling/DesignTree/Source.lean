import DesignTree.Declaration
/-!
# DesignTree.Source

The source tree: design units as the parser hands them over. Identifiers are interned, scopes
are balanced, and constant evaluation has been tried on the conditions and the loop bounds of
generate regions; where it failed, the value is missing.

A unit has a header (its port list) and items. An item is a plain declaration, an instantiation,
a nested unit, a generate region around blocks of further items, or a placeholder that the parser
left where it could not read anything.
-/

namespace DesignTree

/-- What kind of design unit a unit is. -/
inductive UnitKind
  | module
  | interface
  | package
  deriving DecidableEq

/-- The keyword that opens a unit of this kind. -/
def UnitKind.keyword : UnitKind → String
  | module => "module"
  | interface => "interface"
  | package => "package"

/-- A header entry that declares its port on the spot. Direction, kind and type may be left out
and then follow from the entries before. -/
structure AnsiEntry where
  name : Name
  dir : Option PortDir
  kind : Option PortKind
  ty : DataType
  default : Option Expr
  deriving DecidableEq

/-- One entry of a unit's header. The first style declares ports; the other two refer to port
declarations among the unit's items, and a header does not mix them. -/
inductive HeaderEntry
  /-- A port declared in the header. -/
  | ansi (span : Span) (entry : AnsiEntry)
  /-- A port with an outside name, `.name(refs)`; without references it connects nothing. -/
  | named (span : Span) (name : Name) (refs : Option (List PortRef))
  /-- A port known by its references alone. -/
  | unnamed (span : Span) (refs : List PortRef)
  deriving DecidableEq

namespace HeaderEntry

/-- Where the entry is written. -/
def span : HeaderEntry → Span
  | ansi span _ => span
  | named span _ _ => span
  | unnamed span _ => span

/-- Whether the entry declares its port. -/
def isAnsi : HeaderEntry → Bool
  | ansi .. => true
  | _ => false

end HeaderEntry

mutual

/-- A module, interface or package. -/
structure SourceUnit where
  kind : UnitKind
  name : Name
  nameSpan : Span
  span : Span
  header : List HeaderEntry
  items : List SourceItem

/-- One item of a unit or a generate block. -/
inductive SourceItem
  /-- A declaration without a scope of its own. -/
  | declaration (span : Span) (decl : Declaration)
  /-- Instances of a design unit; `targetSpan` is where that unit is named. -/
  | inst (span targetSpan : Span) (inst : Instantiation)
  /-- A nested unit. -/
  | unit (unit : SourceUnit)
  /-- A conditional region. The condition is missing if it has no constant value. -/
  | generateIf (span : Span) (label : Option Name) (condition : Option Bool)
      (thenBlock : SourceBlock) (elseBlock : Option SourceBlock)
  /-- A loop region, with the values its genvar takes if they are constant. -/
  | generateFor (span : Span) (label : Option Name) (genvar : Name)
      (iterations : Option (List Int64)) (block : SourceBlock)
  /-- A region that is a plain block. -/
  | generateBlock (span : Span) (label : Option Name) (block : SourceBlock)
  /-- A placeholder for text that the parser could not read. -/
  | malformed (span : Span)

/-- The block of items below a generate region. -/
structure SourceBlock where
  span : Span
  label : Option Name
  items : List SourceItem

end

instance : Inhabited SourceItem := ⟨.malformed .dummy⟩

/-- Where an item is written. -/
def SourceItem.span : SourceItem → Span
  | .declaration span _ => span
  | .inst span _ _ => span
  | .unit nested => nested.span
  | .generateIf span _ _ _ _ => span
  | .generateFor span _ _ _ _ => span
  | .generateBlock span _ _ => span
  | .malformed span => span

end DesignTree
