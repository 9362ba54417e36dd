import DesignTree.Design.Assembly
/-!
# DesignTree.Design.Elaborate

From source units to a design. There are two ways, and they differ only in when the units meet:

* `elaborate` takes the units one by one and adds each to the design before the next one is
  elaborated, so the first error in source order ends the work;
* `elaborateApart` first elaborates all units independently of each other, and assembles the
  design only if every one of them succeeded. An error in a unit then comes before any conflict
  between units.

Independent elaborations may draw their numbers in any order. `elaborateDealt` runs each unit on
numbers dealt out to it beforehand, and so stands for every interleaving of draws from one
counter; `elaborateApart` is the one in which the units draw in turn.
-/

namespace DesignTree.Design

variable {σ : Type} [IdSupply σ]

/-- Elaborates units and adds each at once. -/
def elaborateOnto (assembly : Assembly) : List SourceUnit → σ → Except DesignError Design × σ
  | [], ids => (.ok assembly.design, ids)
  | source :: rest, ids =>
    match source.elaborate ids with
    | (.error e, left) => (.error e, left)
    | (.ok unit, left) =>
      match assembly.addUnit unit with
      | .error e => (.error e, left)
      | .ok extended => elaborateOnto extended rest left

/-- Elaborates the units of a design one after the other. -/
def elaborate (sources : List SourceUnit) (ids : σ) (config : DesignConfig) :
    Except DesignError Design × σ :=
  elaborateOnto (.new config) sources ids

/-- Elaborates all units, also those after one that fails; the units draw their numbers in
turn. -/
def elaborateEach : List SourceUnit → σ → List (Except DesignError ElaboratedUnit) × σ
  | [], ids => ([], ids)
  | source :: rest, ids =>
    let (outcome, left) := source.elaborate ids
    let (outcomes, left) := elaborateEach rest left
    (outcome :: outcomes, left)

/-- The units of outcomes that are all successes, and else the first failure. -/
def allUnits : List (Except DesignError ElaboratedUnit) →
    Except DesignError (List ElaboratedUnit)
  | [] => .ok []
  | .error e :: _ => .error e
  | .ok unit :: rest =>
    match allUnits rest with
    | .error e => .error e
    | .ok units => .ok (unit :: units)

/-- Assembles the outcomes of independent elaborations. -/
def ofOutcomes (config : DesignConfig) (outcomes : List (Except DesignError ElaboratedUnit)) :
    Except DesignError Design :=
  match allUnits outcomes with
  | .error e => .error e
  | .ok units =>
    match (Assembly.new config).addUnits units with
    | .error e => .error e
    | .ok assembly => .ok assembly.design

/-- Elaborates the units independently, drawing numbers in turn, and then assembles them. -/
def elaborateApart (sources : List SourceUnit) (ids : σ) (config : DesignConfig) :
    Except DesignError Design × σ :=
  let (outcomes, left) := elaborateEach sources ids
  (ofOutcomes config outcomes, left)

/-- Elaborates the units independently, each on numbers dealt out to it, and then assembles
them. -/
def elaborateDealt (dealt : List (SourceUnit × DealtIds)) (config : DesignConfig) :
    Except DesignError Design :=
  ofOutcomes config (dealt.map fun (source, ids) => (source.elaborate ids).1)

end DesignTree.Design
