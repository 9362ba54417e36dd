import DesignTree.Source
/-!
# DesignTree.Elaboration.AnsiPort

What an entry of an ANSI header leaves out. In `(ref [5:0] x, y)` the entry `y` gives nothing but
its name, and is the same sort of port as `x`:

* an entry that gives no direction, no kind and nothing of a type repeats the entry before it;
* otherwise a missing direction is that of the entry before, or `inout` on the first one;
* a missing kind is a `wire` net for `input` and `inout` and for an `output` without a type
  keyword, and else a variable;
* a missing type keyword is `logic`, with signing and dimensions kept. An interface port has no
  data type, so there nothing is filled in.
-/

namespace DesignTree

/-- Direction, kind and type of a port, with nothing left out. -/
structure AnsiPort where
  dir : PortDir
  kind : PortKind
  ty : DataType
  deriving DecidableEq

namespace AnsiPort

/-- The kind of a port that gives none. -/
def defaultKind (dir : PortDir) (ty : DataType) : PortKind :=
  match dir with
  | .input => .net .wire
  | .inout => .net .wire
  | .output => if ty.kind = .implicit then .net .wire else .var
  | .ref => .var

/-- The type of a port of a given kind, with the keyword filled in. -/
def completeType (kind : PortKind) (ty : DataType) : DataType :=
  if ty.kind = .implicit ∧ kind.isInterface = false then { ty with kind := .logic } else ty

/-- Whether an entry gives nothing but its name. -/
def isBare (entry : AnsiEntry) : Bool :=
  entry.dir.isNone && entry.kind.isNone && entry.ty.isBlank

/-- Fills in the parts that an entry does give; only the direction looks at the entry before. -/
def complete (previous : Option AnsiPort) (entry : AnsiEntry) : AnsiPort :=
  let dir := (entry.dir.or (previous.map (·.dir))).getD .inout
  let kind := entry.kind.getD (defaultKind dir entry.ty)
  { dir, kind, ty := completeType kind entry.ty }

/-- The port that an entry declares after a given entry before it. -/
def infer (previous : Option AnsiPort) (entry : AnsiEntry) : AnsiPort :=
  match previous with
  | none => complete none entry
  | some before => if isBare entry then before else complete (some before) entry

end AnsiPort

end DesignTree
