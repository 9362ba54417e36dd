import DesignTree.Source
/-!
# DesignTree.Proofs.Cost

How many numbers an elaboration draws, read off the source tree alone.

An item is charged twice, as elaboration passes it twice: `declareCost` is what its own node
takes, with all of a nested unit in it, and `expandCost` is what the blocks of its region take
later, when the region is expanded. A block that is not taken costs nothing.

The functions are total. On a tree that elaboration rejects they still give every item one
number, and the numbers of an accepted tree are not affected by that.
-/

namespace DesignTree

/-- How many slices a header entry has. -/
def HeaderEntry.sliceCount : HeaderEntry → Nat
  | .ansi _ _ => 1
  | .named _ _ none => 0
  | .named _ _ (some refs) => refs.length
  | .unnamed _ refs => refs.length

/-- The numbers of a header entry: one for the port, one for each slice. -/
def HeaderEntry.cost (entry : HeaderEntry) : Nat := 1 + entry.sliceCount

/-- The numbers of a header. -/
def headerCost : List HeaderEntry → Nat
  | [] => 0
  | entry :: rest => entry.cost + headerCost rest

mutual

/-- The numbers of a unit: its own, then those of its items and of its header. -/
def SourceUnit.cost : SourceUnit → Nat
  | ⟨_, _, _, _, header, items⟩ =>
    1 + (declareCosts items + expandCosts items) + headerCost header

/-- The numbers drawn for the node of an item, before any region is expanded. -/
def SourceItem.declareCost : SourceItem → Nat
  | .unit nested => nested.cost
  | .declaration .. => 1
  | .inst .. => 1
  | .generateIf .. => 1
  | .generateFor .. => 1
  | .generateBlock .. => 1
  | .malformed _ => 1

/-- The numbers drawn for the nodes of a scope's items. -/
def declareCosts : List SourceItem → Nat
  | [] => 0
  | item :: rest => item.declareCost + declareCosts rest

/-- The numbers drawn for the blocks of an item's region. -/
def SourceItem.expandCost : SourceItem → Nat
  | .generateIf _ _ (some true) thenBlock _ => thenBlock.cost
  | .generateIf _ _ (some false) _ (some elseBlock) => elseBlock.cost
  | .generateFor _ _ _ (some iterations) block => iterations.length * block.cost
  | .generateBlock _ _ block => block.cost
  | _ => 0

/-- The numbers drawn when the regions of a scope are expanded. -/
def expandCosts : List SourceItem → Nat
  | [] => 0
  | item :: rest => item.expandCost + expandCosts rest

/-- The numbers of a block that is elaborated once: one for its scope, then those of its
items. -/
def SourceBlock.cost : SourceBlock → Nat
  | ⟨_, _, items⟩ => 1 + (declareCosts items + expandCosts items)

end

theorem SourceUnit.cost_pos (source : SourceUnit) : 0 < source.cost := by
  cases source
  rw [SourceUnit.cost]
  omega

/-- Every item has a node, so it costs a number. -/
theorem SourceItem.declareCost_pos (item : SourceItem) : 0 < item.declareCost := by
  cases item with
  | unit nested => exact nested.cost_pos
  | _ => exact Nat.one_pos

end DesignTree
