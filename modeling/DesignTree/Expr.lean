import DesignTree.Name.Basic
import DesignTree.Span
/-!
# DesignTree.Expr

Expressions and data types, as far as elaboration needs them. Constants are evaluated elsewhere:
an expression is carried along for later passes, and only its outermost form is kept.
-/

namespace DesignTree

/-- The outermost form of an expression. -/
inductive ExprKind
  /-- An integer literal. -/
  | int (value : UInt64)
  /-- A plain identifier. -/
  | ident (name : Name)
  /-- Anything else. -/
  | other
  deriving DecidableEq

/-- An expression, opaque but for its outermost form. -/
structure Expr where
  span : Span
  kind : ExprKind
  deriving DecidableEq

/-- An explicit signing. -/
inductive Sign
  | signed
  | unsigned
  deriving DecidableEq

/-- The type keyword of a declaration. -/
inductive TypeKind
  /-- No keyword: the type is only a signing and dimensions, or nothing at all. -/
  | implicit
  | logic
  | bit
  | reg
  | byte
  | int
  | integer
  /-- A type introduced by a typedef. -/
  | named (name : Name)
  deriving DecidableEq

/-- A packed dimension `[msb:lsb]`. -/
structure PackedDim where
  span : Span
  msb : Expr
  lsb : Expr
  deriving DecidableEq

/-- A data type as it is written: a keyword, a signing and dimensions, each of them optional. -/
structure DataType where
  span : Span
  kind : TypeKind
  sign : Option Sign
  dims : List PackedDim
  deriving DecidableEq

namespace DataType

/-- The type of a declaration that writes none. -/
def implicit (span : Span) : DataType := { span, kind := .implicit, sign := none, dims := [] }

/-- Whether nothing of a type is written: no keyword, no signing, no dimension. -/
def isBlank (ty : DataType) : Bool :=
  ty.kind == .implicit && ty.sign.isNone && ty.dims.isEmpty

end DataType

end DesignTree
