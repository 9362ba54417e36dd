import DesignTree.Proofs.Layout
/-!
# DesignTree.Proofs.Layout.Shifted

Layouts at other positions.

A layout reads the names of its own positions only, and it reads them by how far they are from the
first. So where two namings agree on as many positions as a part costs, each from a start of its
own, the part is laid out to the same tree (`unitTree_eq_of_agree`, `blockTree_eq_of_agree`). Moving
a layout along the positions and renumbering its nodes are the same thing, then.
-/

namespace DesignTree

/-- The names from `k` on are the other names from `l` on, for `n` positions. -/
def Agree (name other : Nat → NodeId) (k l n : Nat) : Prop := ∀ i < n, name (k + i) = other (l + i)

namespace Agree

variable {name other : Nat → NodeId} {k l n m : Nat}

theorem first (h : Agree name other k l n) (pos : 0 < n) : name k = other l := h 0 pos

theorem left (h : Agree name other k l (n + m)) : Agree name other k l n :=
  fun i hi => h i (by omega)

theorem right (h : Agree name other k l (n + m)) : Agree name other (k + n) (l + n) m := by
  intro i hi
  rw [Nat.add_assoc, Nat.add_assoc]
  exact h (n + i) (by omega)

end Agree

namespace Layout

variable {name other : Nat → NodeId}

theorem leaf_eq_of_agree {k l : Nat} (h : Agree name other k l 1) (span : Span)
    (content : Content) : leaf name k span content = leaf other l span content := by
  rw [leaf, leaf, h.first Nat.one_pos]

theorem spread_eq_of_agree {α : Type} {cost : Nat} {make make' : α → Nat → NodeTree}
    (h : ∀ a k l, Agree name other k l cost → make a k = make' a l) (list : List α) :
    ∀ {k l}, Agree name other k l (list.length * cost) →
      spread cost make list k = spread cost make' list l := by
  induction list with
  | nil =>
    intro k l _
    rfl
  | cons a rest ih =>
    intro k l agree
    rw [List.length_cons, Nat.succ_mul, Nat.add_comm] at agree
    rw [spread, spread, h a k l agree.left, ih agree.right]

/-! ### Headers -/

theorem refTrees_eq_of_agree (declared : List DeclaredPort) (refs : List PortRef) {k l : Nat}
    (h : Agree name other k l refs.length) :
    refTrees name declared refs k = refTrees other declared refs l := by
  rw [← Nat.mul_one refs.length] at h
  exact spread_eq_of_agree (fun ref k l agree => leaf_eq_of_agree agree ref.span _) refs h

theorem sliceTrees_eq_of_agree (declared : List DeclaredPort) (previous : Option AnsiPort)
    (entry : HeaderEntry) {k l : Nat} (h : Agree name other k l entry.sliceCount) :
    sliceTrees name declared previous entry k = sliceTrees other declared previous entry l := by
  cases entry with
  | ansi span entry => exact congrArg (fun tree => [tree]) (leaf_eq_of_agree h span _)
  | named span outer refs =>
    cases refs with
    | none => rfl
    | some refs => exact refTrees_eq_of_agree declared refs h
  | unnamed span refs => exact refTrees_eq_of_agree declared refs h

theorem entryTrees_eq_of_agree (declared : List DeclaredPort) (previous : Option AnsiPort)
    (entries : List HeaderEntry) {k l : Nat} (h : Agree name other k l (headerCost entries)) :
    entryTrees name declared previous entries k = entryTrees other declared previous entries l := by
  induction entries generalizing previous k l with
  | nil => rfl
  | cons entry rest ih =>
    have here : Agree name other k l (1 + entry.sliceCount) := h.left
    rw [entryTrees, entryTrees, sliceTrees_eq_of_agree declared previous entry here.right,
      here.left.first Nat.one_pos, ih (entry.carried previous) h.right]

/-! ### Units and scopes -/

mutual

theorem unitTree_eq_of_agree :
    ∀ (source : SourceUnit) {k l : Nat}, Agree name other k l source.cost →
      unitTree name source k = unitTree other source l
  | ⟨kind, unitName, nameSpan, span, header, items⟩, k, l, h => by
    have body := h.left.right
    have scope : Agree name other (k + 1 + declareCosts items) (l + 1 + declareCosts items)
        (expandCosts items) := body.right
    have outer : Agree name other (k + 1 + declareCosts items + expandCosts items)
        (l + 1 + declareCosts items + expandCosts items) (headerCost header) := by
      have last := h.right
      rwa [← Nat.add_assoc, ← Nat.add_assoc, ← Nat.add_assoc, ← Nat.add_assoc] at last
    rw [unitTree, unitTree, itemTrees_eq_of_agree items body.left scope,
      scopeTrees_eq_of_agree items body.left scope, entryTrees_eq_of_agree _ none header outer,
      h.left.left.first Nat.one_pos]

theorem itemTree_eq_of_agree :
    ∀ (item : SourceItem) {k l : Nat} (scopes : List NodeId),
      Agree name other k l item.declareCost →
      itemTree name item k scopes = itemTree other item l scopes
  | .unit nested, _, _, _, h => unitTree_eq_of_agree nested h
  | .declaration span _, _, _, _, h => leaf_eq_of_agree h span _
  | .inst span _ _, _, _, _, h => leaf_eq_of_agree h span _
  | .generateIf span _ _ _ _, _, _, _, h => leaf_eq_of_agree h span _
  | .generateFor span _ _ _ _, _, _, _, h => leaf_eq_of_agree h span _
  | .generateBlock span _ _, _, _, _, h => leaf_eq_of_agree h span _
  | .malformed span, _, _, _, h => leaf_eq_of_agree h span _

theorem itemTrees_eq_of_agree :
    ∀ (items : List SourceItem) {k l q r : Nat}, Agree name other k l (declareCosts items) →
      Agree name other q r (expandCosts items) →
      itemTrees name items k q = itemTrees other items l r
  | [], _, _, _, _, _, _ => rfl
  | item :: rest, k, l, q, r, hdeclare, hexpand => by
    have own : name k = other l := hdeclare.left.first item.declareCost_pos
    rw [itemTrees, itemTrees, own, itemScopes_eq_of_agree item _ hexpand.left,
      itemTree_eq_of_agree item _ hdeclare.left,
      itemTrees_eq_of_agree rest hdeclare.right hexpand.right]

theorem itemScopes_eq_of_agree :
    ∀ (item : SourceItem) (region : NodeId) {q r : Nat}, Agree name other q r item.expandCost →
      itemScopes name item region q = itemScopes other item region r
  | .unit _, _, _, _, _ => rfl
  | .declaration .., _, _, _, _ => rfl
  | .inst .., _, _, _, _ => rfl
  | .generateIf _ _ none _ _, _, _, _, _ => rfl
  | .generateIf _ _ (some true) thenBlock _, region, _, _, h => by
    rw [itemScopes, itemScopes, blockTree_eq_of_agree thenBlock region .thenBranch h]
  | .generateIf _ _ (some false) _ none, _, _, _, _ => rfl
  | .generateIf _ _ (some false) _ (some elseBlock), region, _, _, h => by
    rw [itemScopes, itemScopes, blockTree_eq_of_agree elseBlock region .elseBranch h]
  | .generateFor _ _ _ none _, _, _, _, _ => rfl
  | .generateFor _ _ _ (some iterations) block, region, _, _, h => by
    rw [itemScopes, itemScopes]
    exact spread_eq_of_agree
      (fun value _ _ agree => blockTree_eq_of_agree block region (.iteration value) agree)
      iterations h
  | .generateBlock _ _ block, region, _, _, h => by
    rw [itemScopes, itemScopes, blockTree_eq_of_agree block region .block h]
  | .malformed _, _, _, _, _ => rfl

theorem scopeTrees_eq_of_agree :
    ∀ (items : List SourceItem) {k l q r : Nat}, Agree name other k l (declareCosts items) →
      Agree name other q r (expandCosts items) →
      scopeTrees name items k q = scopeTrees other items l r
  | [], _, _, _, _, _, _ => rfl
  | item :: rest, k, l, q, r, hdeclare, hexpand => by
    have own : name k = other l := hdeclare.left.first item.declareCost_pos
    rw [scopeTrees, scopeTrees, own, itemScopes_eq_of_agree item _ hexpand.left,
      scopeTrees_eq_of_agree rest hdeclare.right hexpand.right]

theorem blockTree_eq_of_agree :
    ∀ (source : SourceBlock) (region : NodeId) (branch : Branch) {k l : Nat},
      Agree name other k l source.cost →
      blockTree name source region branch k = blockTree other source region branch l
  | ⟨span, label, items⟩, region, branch, k, l, h => by
    have body := h.right
    have scope : Agree name other (k + 1 + declareCosts items) (l + 1 + declareCosts items)
        (expandCosts items) := body.right
    rw [blockTree, blockTree, itemTrees_eq_of_agree items body.left scope,
      scopeTrees_eq_of_agree items body.left scope, h.left.first Nat.one_pos]

end

end Layout

end DesignTree
