import DesignTree.Proofs.Audit
import DesignTree.Proofs.Layout.Linked
import Mathlib.Data.List.Forall2
/-!
# DesignTree.Proofs.Layout.Sourced

Where the trees in a layout come from.

A unit or a block that is elaborated is a part of the source tree (`SourcePart`). Its inner parts
are laid out as the nested units and the generate scopes in its tree, one by one and in this order
(`lays_hierarchies`). So every tree in the layout of a unit is the whole layout of a part, or a tree
without a body: a header port, a slice, or an item that owns nothing (`sourced_unitTree`). Parts
inside a part without a fault have none either. What is true of every such layout by itself is
therefore true at every depth.
-/

namespace DesignTree

open NodeTree

/-! ### Related lists -/

section Related

variable {α β : Type} {R : α → β → Prop} {as : List α} {bs : List β}

/-- Entries at the same place are related. -/
theorem related_of_getElem? (h : List.Forall₂ R as bs) {i : Nat} {a : α} {b : β}
    (ha : as[i]? = some a) (hb : bs[i]? = some b) : R a b := by
  obtain ⟨hi, rfl⟩ := List.getElem?_eq_some_iff.mp ha
  obtain ⟨hi', rfl⟩ := List.getElem?_eq_some_iff.mp hb
  exact h.get hi hi'

/-- Every entry of the second list is related to the entry at its place. -/
theorem exists_related_of_mem (h : List.Forall₂ R as bs) {b : β} (hb : b ∈ bs) :
    ∃ (i : Nat) (a : α), as[i]? = some a ∧ bs[i]? = some b ∧ R a b := by
  obtain ⟨i, hi, rfl⟩ := List.getElem_of_mem hb
  have hi' : i < as.length := h.length_eq ▸ hi
  exact ⟨i, as[i], List.getElem?_eq_getElem hi', List.getElem?_eq_getElem hi, h.get hi' hi⟩

end Related

/-! ### Parts of a source tree -/

/-- A part of a source tree with a scope of its own. -/
inductive SourcePart
  | unit (source : SourceUnit)
  | block (source : SourceBlock)

/-- The nested unit that an item is. -/
def SourceItem.units : SourceItem → List SourcePart
  | .unit nested => [.unit nested]
  | _ => []

/-- The blocks that are elaborated for an item's region, each as often as it is. -/
def SourceItem.blocks : SourceItem → List SourcePart
  | .generateIf _ _ (some true) thenBlock _ => [.block thenBlock]
  | .generateIf _ _ (some false) _ (some elseBlock) => [.block elseBlock]
  | .generateFor _ _ _ (some iterations) block => iterations.map fun _ => .block block
  | .generateBlock _ _ block => [.block block]
  | _ => []

namespace SourcePart

/-- A unit is a scope of its own kind, a block one of a generate region. -/
def scope : SourcePart → ScopeKind
  | unit source => source.kind.scope
  | block _ => .generate

/-- The items whose nodes the part's body lists. -/
def items : SourcePart → List SourceItem
  | unit source => source.items
  | block source => source.items

/-- The audit of the part, when it is elaborated for itself. -/
def audit : SourcePart → Audit
  | unit source => source.audit
  | block source => source.audit

/-- The parts directly inside: nested units in source order, then the blocks of the regions. -/
def inner (part : SourcePart) : List SourcePart :=
  part.items.flatMap SourceItem.units ++ part.items.flatMap SourceItem.blocks

/-- A part without a fault has none in its items and regions. -/
theorem sound_items {part : SourcePart} (sound : part.audit.fault = none) :
    (declareAudits part.items).fault = none ∧ (expandAudits part.items).fault = none := by
  cases part with
  | unit source =>
    obtain ⟨kind, name, nameSpan, span, header, items⟩ := source
    have fine : (SourceUnit.mk kind name nameSpan span header items).audit.fault = none := sound
    obtain ⟨-, hscope, -⟩ := SourceUnit.sound_parts fine
    obtain ⟨hitems, -, hexpand⟩ := fault_auditScope_eq_none.mp hscope
    exact ⟨hitems, hexpand⟩
  | block source =>
    obtain ⟨span, label, items⟩ := source
    obtain ⟨-, hscope⟩ := Audit.fault_andThen_eq_none.mp sound
    obtain ⟨hitems, -, hexpand⟩ := fault_auditScope_eq_none.mp hscope
    exact ⟨hitems, hexpand⟩

end SourcePart

namespace Layout

variable (name : Nat → NodeId)

/-! ### Layouts of parts -/

/-- The tree is the layout of a part without a fault. -/
inductive Lays : SourcePart → NodeTree → Prop
  | unit {source : SourceUnit} {k : Nat} (sound : source.audit.fault = none) :
    Lays (.unit source) (unitTree name source k)
  | block {source : SourceBlock} {region : NodeId} {branch : Branch} {k : Nat}
    (sound : source.audit.fault = none) :
    Lays (.block source) (blockTree name source region branch k)

/-- The trees of the nested units and of the generate scopes in a scope. -/
def hierarchies (items : List SourceItem) (k : Nat) : List NodeTree :=
  (members name items k).filter (fun tree => tree.node.content.group? = some .nestedUnits) ++
    scopes name items k

variable {name}

theorem lays_units {items : List SourceItem} {k q : Nat}
    (sound : (declareAudits items).fault = none) :
    List.Forall₂ (Lays name) (items.flatMap SourceItem.units) ((itemTrees name items k q).filter
      fun tree => tree.node.content.group? = some .nestedUnits) := by
  induction items generalizing k q with
  | nil => exact .nil
  | cons item rest ih =>
    obtain ⟨hitem, hrest⟩ := Audit.fault_andThen_eq_none.mp sound
    have later := @ih (k + item.declareCost) (q + item.expandCost) hrest
    rw [itemTrees, List.flatMap_cons, List.filter_cons, group?_itemTree]
    cases item with
    | unit nested => exact .cons (.unit hitem) later
    | declaration span decl => cases decl <;> exact later
    | _ => exact later

theorem lays_iterations {block : SourceBlock} {region : NodeId} {iterations : List Int64}
    (sound : (block.audit.times iterations.length).fault = none) (q : Nat) :
    List.Forall₂ (Lays name) (iterations.map fun _ => .block block) (spread block.cost
      (fun value => blockTree name block region (.iteration value)) iterations q) := by
  induction iterations generalizing q with
  | nil => exact .nil
  | cons value rest ih =>
    obtain ⟨here, later⟩ := Audit.fault_andThen_eq_none.mp sound
    exact .cons (.block here) (ih later (q + block.cost))

theorem lays_itemScopes {item : SourceItem} {region : NodeId} {q : Nat}
    (sound : item.expandAudit.fault = none) :
    List.Forall₂ (Lays name) item.blocks (itemScopes name item region q) := by
  cases item with
  | generateIf span label condition thenBlock elseBlock =>
    rcases condition with _ | _ | _
    · exact .nil
    · cases elseBlock with
      | none => exact .nil
      | some elseBlock => exact .cons (.block sound) .nil
    · exact .cons (.block sound) .nil
  | generateFor span label genvar iterations block =>
    cases iterations with
    | none => exact .nil
    | some iterations => exact lays_iterations sound q
  | generateBlock span label block => exact .cons (.block sound) .nil
  | _ => exact .nil

theorem lays_scopes {items : List SourceItem} {k q : Nat}
    (sound : (expandAudits items).fault = none) :
    List.Forall₂ (Lays name) (items.flatMap SourceItem.blocks) (scopeTrees name items k q) := by
  induction items generalizing k q with
  | nil => exact .nil
  | cons item rest ih =>
    obtain ⟨hitem, hrest⟩ := Audit.fault_andThen_eq_none.mp sound
    exact List.rel_append (lays_itemScopes hitem) (ih hrest)

theorem lays_hierarchies {part : SourcePart} (sound : part.audit.fault = none) (k : Nat) :
    List.Forall₂ (Lays name) part.inner (hierarchies name part.items k) := by
  obtain ⟨hitems, hexpand⟩ := part.sound_items sound
  exact List.rel_append (lays_units hitems) (lays_scopes hexpand)

/-- The hierarchies that a body lists are those of the scope. -/
theorem subHierarchies_gather (scope : ScopeKind) (owner : NodeId) (items : List SourceItem)
    (k : Nat) :
    (Body.gather scope owner ((members name items k).map node)
      ((scopes name items k).map NodeTree.id)).subHierarchies =
        (hierarchies name items k).map NodeTree.id := by
  rw [hierarchies, List.map_append, ← map_id_filter]
  rfl

/-! ### How the layout of a part is put together -/

/-- A header port or a slice. -/
def Outer (tree : NodeTree) : Prop :=
  tree.node.content.group? = none ∧ tree.node.content.body? = none

theorem outer_ports (source : SourceUnit) (k : Nat) : All Outer (ports name source k) :=
  all_entryTrees name (fun _ _ _ => ⟨rfl, rfl⟩) (fun _ _ _ _ => ⟨rfl, rfl⟩) _ _ _ _

/-- The tree of a part: its header ports, if it is a unit, and its scope. -/
structure Assembled (name : Nat → NodeId) (part : SourcePart) (k : Nat) (ports : List NodeTree)
    (tree : NodeTree) : Prop where
  body : tree.node.content.body? = some (.gather part.scope tree.id
    ((members name part.items k).map node) ((scopes name part.items k).map NodeTree.id))
  owned : tree.owned = ports ++ arrange (members name part.items k) (scopes name part.items k)
  outer : All Outer ports

theorem Assembled.mem_owned_iff {part : SourcePart} {k : Nat} {ports : List NodeTree}
    {tree sub : NodeTree} (h : Assembled name part k ports tree) : sub ∈ tree.owned ↔
      sub ∈ ports ∨ sub ∈ members name part.items k ∨ sub ∈ scopes name part.items k := by
  rw [h.owned, List.mem_append, (arrange_members_perm name part.items k).mem_iff, List.mem_append]

theorem Lays.exists_assembled {part : SourcePart} {tree : NodeTree} (h : Lays name part tree) :
    ∃ k ports, Assembled name part k ports tree := by
  cases h with
  | @unit source k _ =>
    refine ⟨k + 1, ports name source k, ?_⟩
    rw [unitTree_eq]
    exact ⟨rfl, rfl, outer_ports source k⟩
  | @block source region branch k _ =>
    refine ⟨k + 1, [], ?_⟩
    rw [blockTree_eq]
    exact ⟨rfl, rfl, .nil⟩

theorem Lays.sound {part : SourcePart} {tree : NodeTree} (h : Lays name part tree) :
    part.audit.fault = none := by
  cases h <;> assumption

/-- An item as it stands in its scope: the marker of a region lists the scopes that follow it. -/
def placedItem (name : Nat → NodeId) (item : SourceItem) (k q : Nat) : NodeTree :=
  itemTree name item k ((itemScopes name item (name k) q).map NodeTree.id)

theorem itemTrees_cons (item : SourceItem) (rest : List SourceItem) (k q : Nat) :
    itemTrees name (item :: rest) k q = placedItem name item k q ::
      itemTrees name rest (k + item.declareCost) (q + item.expandCost) :=
  rfl

/-- A member of a scope is one of the items, in its place; the scopes made for it are there too. -/
theorem exists_item_of_mem {items : List SourceItem} {k q : Nat} {tree : NodeTree}
    (h : tree ∈ itemTrees name items k q) :
    ∃ item ∈ items, ∃ i j, tree = placedItem name item i j ∧
      itemScopes name item (name i) j ⊆ scopeTrees name items k q ∧
      i < k + declareCosts items ∧ q ≤ j := by
  induction items generalizing k q with
  | nil => cases h
  | cons item rest ih =>
    rw [itemTrees_cons] at h
    rw [scopeTrees, declareCosts, ← Nat.add_assoc]
    rcases List.mem_cons.mp h with rfl | later
    · have pos := item.declareCost_pos
      exact ⟨item, List.mem_cons_self .., k, q, rfl, List.subset_append_left .., by omega,
        Nat.le_refl q⟩
    · obtain ⟨other, hother, i, j, rfl, scopes, before, after⟩ := ih later
      have among := List.Subset.trans scopes
        (List.subset_append_right (itemScopes name item (name k) q) _)
      exact ⟨other, List.mem_cons_of_mem _ hother, i, j, rfl, among, before,
        Nat.le_of_add_right_le after⟩

/-- An item other than a nested unit owns nothing. -/
theorem placedItem_cases (name : Nat → NodeId) (item : SourceItem) (k q : Nat) :
    item.bucket = .nestedUnits ∨ (placedItem name item k q).node.content.body? = none ∧
      (placedItem name item k q).owned = [] := by
  cases item with
  | unit nested => exact .inl rfl
  | _ => exact .inr ⟨rfl, rfl⟩

/-- What a part owns: header ports, items without a body, and its hierarchies. -/
theorem Assembled.owned_cases {part : SourcePart} {k : Nat} {ports : List NodeTree}
    {tree sub : NodeTree} (h : Assembled name part k ports tree) (hsub : sub ∈ tree.owned) :
    sub ∈ ports ∨ (sub.node.content.body? = none ∧ sub.owned = []) ∨
      sub ∈ hierarchies name part.items k := by
  rcases h.mem_owned_iff.mp hsub with outer | member | scope
  · exact .inl outer
  · obtain ⟨item, -, i, j, rfl, -, -, -⟩ := exists_item_of_mem member
    rcases placedItem_cases name item i j with nested | plain
    · refine .inr (.inr (List.mem_append_left _ (List.mem_filter.mpr ⟨member, ?_⟩)))
      rw [placedItem, group?_itemTree, nested]
      rfl
    · exact .inr (.inl plain)
  · exact .inr (.inr (List.mem_append_right _ scope))

theorem Assembled.hierarchies_subset {part : SourcePart} {k : Nat} {ports : List NodeTree}
    {tree : NodeTree} (h : Assembled name part k ports tree) :
    hierarchies name part.items k ⊆ tree.owned := by
  intro sub hsub
  rcases List.mem_append.mp hsub with member | scope
  · exact h.mem_owned_iff.mpr (.inr (.inl (List.mem_of_mem_filter member)))
  · exact h.mem_owned_iff.mpr (.inr (.inr scope))

/-! ### Every tree in a layout -/

/-- What a tree was laid out from: a part without a fault, unless it has no body. -/
inductive Sourced (name : Nat → NodeId) : NodeTree → Prop
  | part {part : SourcePart} {tree : NodeTree} (h : Lays name part tree) : Sourced name tree
  | outer {tree : NodeTree} (h : All Outer [tree]) : Sourced name tree
  | leaf {tree : NodeTree} (body : tree.node.content.body? = none) (owned : tree.owned = []) :
    Sourced name tree

/-- Every tree in the layout of a unit without a fault has such a source. -/
theorem sourced_unitTree {source : SourceUnit} (k : Nat) (sound : source.audit.fault = none) :
    All (Sourced name) [unitTree name source k] := by
  refine .of_owned ?_ fun tree _ sourced sub hsub => ?_
  · exact List.forall_mem_singleton.mpr (.part (.unit sound))
  cases sourced with
  | @part part _ lays =>
    obtain ⟨i, ports, assembled⟩ := lays.exists_assembled
    rcases assembled.owned_cases hsub with outer | ⟨body, owned⟩ | hierarchy
    · exact .outer (assembled.outer.of_mem outer)
    · exact .leaf body owned
    · obtain ⟨-, inner, -, -, hinner⟩ :=
        exists_related_of_mem (lays_hierarchies lays.sound i) hierarchy
      exact .part hinner
  | outer all =>
    have below := all.owned (head_mem_subtreesOf tree [])
    exact .outer (below.of_mem hsub)
  | leaf body owned =>
    rw [owned] at hsub
    cases hsub

end Layout

end DesignTree
