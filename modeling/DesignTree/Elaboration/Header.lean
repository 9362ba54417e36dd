import DesignTree.Elaboration.AnsiPort
import DesignTree.Elaboration.Session
/-!
# DesignTree.Elaboration.Header

Header ports. Each header entry becomes a port node that owns one slice per piece it connects.

An ANSI entry declares its port itself and has a single slice without a base. The other entries
refer to port declarations among the unit's own items: each reference becomes a slice with the
direction, kind and type of the first declaration that lists its name, and with that
declaration as its base.

A header is checked as a whole before any number is drawn for it: its entries must be of one
style, and under an ANSI header the items must not declare ports.
-/

namespace DesignTree

/-- A name that a unit's items declare as a port. -/
structure DeclaredPort where
  name : Name
  /-- The declaration that lists the name. -/
  base : NodeId
  dir : PortDir
  kind : PortKind
  ty : DataType
  default : Option Expr

/-- The names that one port declaration lists. -/
def PortDecl.declared (decl : PortDecl) (base : NodeId) : List DeclaredPort :=
  decl.names.map fun listed =>
    { name := listed.name, base, dir := decl.dir, kind := decl.kind, ty := decl.ty
      default := listed.init }

namespace Elaboration

variable {σ : Type}

/-- The names that the port declarations of a body list, in source order. -/
def declaredPorts : List NodeId → Elaboration σ (List DeclaredPort)
  | [] => pure []
  | id :: rest => do
    let node ← lookup id
    match node.content.asPortDecl? with
    | none => throw (.unknownId id)
    | some decl =>
      let later ← declaredPorts rest
      return decl.declared id ++ later

variable [IdSupply σ]

/-- Slices for the references of one header entry. Of several declarations of a name the first
one counts. -/
def elaborateRefs (declared : List DeclaredPort) : List PortRef → Elaboration σ (List NodeId)
  | [] => pure []
  | ref :: rest => do
    match declared.find? (·.name == ref.name) with
    | none => throw (.undeclaredPort ref.name ref.span)
    | some port =>
      let id ← drawId
      register
        { id, span := ref.span
          content := .portSlice
            { name := ref.name, selects := ref.selects, base := some port.base, dir := port.dir
              kind := port.kind, ty := port.ty, default := port.default } }
      let later ← elaborateRefs declared rest
      return id :: later

/-- The slice of an ANSI entry. -/
def elaborateAnsi (port : AnsiPort) (span : Span) (entry : AnsiEntry) : Elaboration σ NodeId := do
  let id ← drawId
  register
    { id, span
      content := .portSlice
        { name := entry.name, selects := [], base := none, dir := port.dir, kind := port.kind
          ty := port.ty, default := entry.default } }
  return id

/-- The slices of one header entry; `port` is what an ANSI entry declares. -/
def elaborateSlices (declared : List DeclaredPort) (previous : Option AnsiPort) :
    HeaderEntry → Elaboration σ (List NodeId)
  | .ansi span entry => do
    let slice ← elaborateAnsi (.infer previous entry) span entry
    return [slice]
  | .named _ _ none => pure []
  | .named _ _ (some refs) => elaborateRefs declared refs
  | .unnamed _ refs => elaborateRefs declared refs

end Elaboration

/-- The name by which a header entry's port is known outside. -/
def HeaderEntry.name? : HeaderEntry → Option Name
  | ansi _ entry => some entry.name
  | named _ name _ => some name
  | unnamed _ _ => none

/-- The port that the next entry may repeat. -/
def HeaderEntry.carried (previous : Option AnsiPort) : HeaderEntry → Option AnsiPort
  | ansi _ entry => some (.infer previous entry)
  | _ => previous

namespace Elaboration

variable {σ : Type} [IdSupply σ]

/-- Port nodes for header entries. The number of a port is drawn before those of its slices, and
the slices are registered first. -/
def elaborateEntries (declared : List DeclaredPort) :
    Option AnsiPort → List HeaderEntry → Elaboration σ (List NodeId)
  | _, [] => pure []
  | previous, entry :: rest => do
    let id ← drawId
    let slices ← elaborateSlices declared previous entry
    register { id, span := entry.span, content := .port { name := entry.name?, slices } }
    let later ← elaborateEntries declared (entry.carried previous) rest
    return id :: later

/-- The header ports of a unit with the given body. -/
def elaborateHeader (header : List HeaderEntry) (body : Body) : Elaboration σ (List NodeId) :=
  match header with
  | [] => pure []
  | first :: _ =>
    match header.find? (·.isAnsi != first.isAnsi) with
    | some odd => throw (.structural odd.span .mixedHeaderStyles)
    | none =>
      if first.isAnsi then
        match body.ports with
        | [] => elaborateEntries [] none header
        | decl :: _ => do
          let node ← lookup decl
          throw (.structural node.span .portDeclUnderAnsiHeader)
      else do
        let declared ← declaredPorts body.ports
        elaborateEntries declared none header

end Elaboration

end DesignTree
