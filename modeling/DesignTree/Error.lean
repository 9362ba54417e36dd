import DesignTree.Name.Basic
import DesignTree.NodeId.Supply
import DesignTree.Span
/-!
# DesignTree.Error

What can go wrong while a design is elaborated and put together. Any of these ends the work on
the unit at hand; no part of it is kept.

Some errors are the user's: a condition without a constant value, a port that is declared
nowhere, a unit defined twice. The others say that an earlier stage handed over something it
must not, or that the numbers of nodes do not fit together, and are marked as internal.
-/

namespace DesignTree

/-- What is wrong with a tree that the parser should not have handed over. -/
inductive Malformation
  | packageWithHeader
  | mixedHeaderStyles
  | portDeclUnderAnsiHeader
  | parserPlaceholder
  | portDeclOutsideUnit
  | headerPortAmongItems
  | generateScopeAmongItems
  | markerMismatch
  deriving DecidableEq

/-- The words for a malformation. -/
def Malformation.text : Malformation → String
  | packageWithHeader => "package with a port list"
  | mixedHeaderStyles => "ANSI and non-ANSI ports mixed in one port list"
  | portDeclUnderAnsiHeader => "port declaration in a unit with an ANSI port list"
  | parserPlaceholder => "parser error placeholder in a declaration list"
  | portDeclOutsideUnit => "port declaration outside a module or interface"
  | headerPortAmongItems => "header port in a declaration list"
  | generateScopeAmongItems => "elaborated generate scope in a declaration list"
  | markerMismatch => "generate marker does not match its region"

/-- Why a design could not be elaborated, assembled or walked. -/
inductive DesignError
  /-- Two nodes have this number. -/
  | duplicateId (id : NodeId)
  /-- No node, or none of the kind that was asked for, has this number. -/
  | unknownId (id : NodeId)
  /-- The node with this number contains itself. -/
  | cyclicId (id : NodeId)
  /-- The source tree is malformed. -/
  | structural (span : Span) (reason : Malformation)
  /-- A generate region has no constant condition or bounds. -/
  | unresolvedGenerate (span : Span)
  /-- A header refers to a port that the unit's items do not declare. -/
  | undeclaredPort (name : Name) (span : Span)
  /-- A unit of this name is defined elsewhere already. -/
  | duplicateDefinition (name : Name) (span previous : Span)
  /-- The node numbers have run out. -/
  | ids (cause : IdError)
  deriving DecidableEq

namespace DesignError

/-- The diagnostic for an error. -/
def message : DesignError → String
  | duplicateId id => s!"internal error: node {id.text} registered twice"
  | unknownId id => s!"internal error: no node registered for id {id.text}"
  | cyclicId id => s!"internal error: node {id.text} contains itself"
  | structural span reason =>
    s!"internal error at {span.text}: malformed input, {reason.text}"
  | unresolvedGenerate span => s!"generate region at {span.text} has no resolved condition"
  | undeclaredPort name span =>
    s!"port {name.text} at {span.text} is not declared in the unit body"
  | duplicateDefinition name span previous =>
    s!"unit {name.text} at {span.text} has already been declared at {previous.text}"
  | ids cause => s!"internal error: {cause.message}"

/-- Whether an earlier stage, and not the user, is to blame. -/
def isInternal : DesignError → Bool
  | duplicateId _ | unknownId _ | cyclicId _ | structural .. | ids _ => true
  | unresolvedGenerate _ | undeclaredPort .. | duplicateDefinition .. => false

end DesignError

end DesignTree
