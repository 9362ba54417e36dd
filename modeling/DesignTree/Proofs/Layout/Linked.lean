import DesignTree.Proofs.Layout.Numbered
/-!
# DesignTree.Proofs.Layout.Linked

The links in a layout: the numbers that a unit, a port or a generate scope lists are those of the
trees that it owns, in the same order (`linked_unitTree`). Nothing in a layout dangles, then, and
nothing is owned but not listed.
-/

namespace DesignTree

open NodeTree

namespace Layout

variable (name : Nat → NodeId)

/-- A group of a body and the same group of the arranged members. -/
theorem map_id_filter (members : List NodeTree) (bucket : Bucket) :
    (Node.inGroup (members.map node) bucket).map (·.id) =
      (members.filter fun tree => tree.node.content.group? = some bucket).map NodeTree.id := by
  rw [Node.inGroup, List.filter_map, List.map_map]
  simp only [Function.comp_def, beq_eq_decide]
  rfl

/-- The body of a scope lists the members and generate scopes as they are arranged. -/
theorem ids_gather (scope : ScopeKind) (owner : NodeId) (members scopes : List NodeTree) :
    (Body.gather scope owner (members.map node) (scopes.map NodeTree.id)).ids =
      (arrange members scopes).map NodeTree.id := by
  have groups : (Body.gather scope owner (members.map node) (scopes.map NodeTree.id)).bucket =
      fun bucket => (members.filter fun tree =>
        tree.node.content.group? = some bucket).map NodeTree.id := by
    funext bucket
    rw [Body.bucket_gather, map_id_filter]
  rw [Body.ids_eq, Body.generateScopes_gather, groups, arrange, List.map_append, List.map_append,
    List.map_flatMap, ← map_id_filter members .generateRegions]
  rfl

/-! ### Headers -/

section Headers

variable {P : NodeTree → Prop}

theorem all_leaf {k : Nat} {span : Span} {content : Content}
    (h : P (leaf name k span content)) : All P [leaf name k span content] :=
  .root h .nil

theorem all_spread {α : Type} {cost : Nat} {make : α → Nat → NodeTree} {list : List α}
    (h : ∀ a ∈ list, ∀ k, All P [make a k]) : ∀ k, All P (spread cost make list k) := by
  induction list with
  | nil =>
    intro k
    exact .nil
  | cons a rest ih =>
    intro k
    obtain ⟨here, later⟩ := List.forall_mem_cons.mp h
    exact (here k).append (ih later (k + cost))

theorem all_refTrees (slice : ∀ k span slice, P (leaf name k span (.portSlice slice)))
    (declared : List DeclaredPort) (refs : List PortRef) (k : Nat) :
    All P (refTrees name declared refs k) :=
  all_spread (fun ref _ k => all_leaf name (slice k ref.span _)) k

theorem all_sliceTrees (slice : ∀ k span slice, P (leaf name k span (.portSlice slice)))
    (declared : List DeclaredPort) (previous : Option AnsiPort) (entry : HeaderEntry) (k : Nat) :
    All P (sliceTrees name declared previous entry k) := by
  cases entry with
  | ansi span entry => exact all_leaf name (slice k span _)
  | named span outer refs =>
    cases refs with
    | none => exact .nil
    | some refs => exact all_refTrees name slice declared refs k
  | unnamed span refs => exact all_refTrees name slice declared refs k

/-- What holds of all slices, and of ports that list their slices, holds of a header. -/
theorem all_entryTrees (slice : ∀ k span slice, P (leaf name k span (.portSlice slice)))
    (port : ∀ id span label slices,
      P ⟨⟨id, span, .port ⟨label, slices.map NodeTree.id⟩⟩, slices⟩)
    (declared : List DeclaredPort) (previous : Option AnsiPort) (entries : List HeaderEntry)
    (k : Nat) : All P (entryTrees name declared previous entries k) := by
  induction entries generalizing previous k with
  | nil => exact .nil
  | cons entry rest ih =>
    have slices := all_sliceTrees name slice declared previous entry (k + 1)
    rw [entryTrees]
    exact All.append (.root (port ..) slices) (ih (entry.carried previous) (k + entry.cost))

end Headers

theorem linked_leaf (k : Nat) (span : Span) {content : Content} (h : content.children = []) :
    Linked [leaf name k span content] :=
  .root h .nil

theorem linked_entryTrees (declared : List DeclaredPort) (previous : Option AnsiPort)
    (entries : List HeaderEntry) (k : Nat) :
    Linked (entryTrees name declared previous entries k) :=
  all_entryTrees name (fun _ _ _ => rfl) (fun _ _ _ _ => rfl) declared previous entries k

/-! ### Units and scopes -/

/-- A scope, once its members and generate scopes are linked. -/
theorem linked_arrange {items : List SourceItem} {k : Nat}
    (hitems : Linked (members name items k)) (hscopes : Linked (scopes name items k)) :
    Linked (arrange (members name items k) (scopes name items k)) :=
  (hitems.append hscopes).perm (arrange_members_perm name items k).symm

mutual

theorem linked_unitTree :
    ∀ (source : SourceUnit) (k : Nat), Linked [unitTree name source k]
  | ⟨kind, unitName, nameSpan, span, header, items⟩, k => by
    have body := linked_arrange name (linked_itemTrees items (k + 1) _)
      (linked_scopeTrees items (k + 1) _)
    rw [unitTree_eq]
    refine .root ?_ ((linked_entryTrees name _ none header _).append body)
    rw [List.map_append, ← ids_gather kind.scope (name k)]
    rfl

theorem linked_itemTree :
    ∀ (item : SourceItem) (k : Nat) (scopes : List NodeId),
      Linked [itemTree name item k scopes]
  | .unit nested, k, _ => linked_unitTree nested k
  | .declaration span _, k, _ => linked_leaf name k span rfl
  | .inst span _ _, k, _ => linked_leaf name k span rfl
  | .generateIf span _ _ _ _, k, _ => linked_leaf name k span rfl
  | .generateFor span _ _ _ _, k, _ => linked_leaf name k span rfl
  | .generateBlock span _ _, k, _ => linked_leaf name k span rfl
  | .malformed span, k, _ => linked_leaf name k span rfl

theorem linked_itemTrees :
    ∀ (items : List SourceItem) (k q : Nat), Linked (itemTrees name items k q)
  | [], _, _ => .nil
  | item :: rest, k, _ => (linked_itemTree item k _).append (linked_itemTrees rest _ _)

theorem linked_itemScopes :
    ∀ (item : SourceItem) (region : NodeId) (q : Nat), Linked (itemScopes name item region q)
  | .unit _, _, _ => .nil
  | .declaration .., _, _ => .nil
  | .inst .., _, _ => .nil
  | .generateIf _ _ none _ _, _, _ => .nil
  | .generateIf _ _ (some true) thenBlock _, region, q =>
    linked_blockTree thenBlock region .thenBranch q
  | .generateIf _ _ (some false) _ none, _, _ => .nil
  | .generateIf _ _ (some false) _ (some elseBlock), region, q =>
    linked_blockTree elseBlock region .elseBranch q
  | .generateFor _ _ _ none _, _, _ => .nil
  | .generateFor _ _ _ (some _) block, region, q =>
    all_spread (fun value _ k => linked_blockTree block region (.iteration value) k) q
  | .generateBlock _ _ block, region, q => linked_blockTree block region .block q
  | .malformed _, _, _ => .nil

theorem linked_scopeTrees :
    ∀ (items : List SourceItem) (k q : Nat), Linked (scopeTrees name items k q)
  | [], _, _ => .nil
  | item :: rest, _, q => (linked_itemScopes item _ q).append (linked_scopeTrees rest _ _)

theorem linked_blockTree :
    ∀ (source : SourceBlock) (region : NodeId) (branch : Branch) (k : Nat),
      Linked [blockTree name source region branch k]
  | ⟨span, label, items⟩, region, branch, k => by
    have body := linked_arrange name (linked_itemTrees items (k + 1) _)
      (linked_scopeTrees items (k + 1) _)
    rw [blockTree_eq]
    exact .root (ids_gather .generate (name k) _ _) body

end

end Layout

end DesignTree
