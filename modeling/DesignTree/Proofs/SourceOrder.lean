import DesignTree.Proofs.Layout.Ordered
import DesignTree.Proofs.Regions
/-!
# DesignTree.Proofs.SourceOrder

The order of the source can be read off the numbers.

A body lists its declarations group by group, and what came first across the groups is not written
down. But numbers are drawn in the order of the source: sorted by number, the declarations of a body
are the items of its scope again, one by one. The generate scopes come after all of them, the header
of a unit after everything in its body, and no node before its owner
(`numbers_follow_source_order`).
-/

namespace DesignTree

open NodeTree Layout

/-- The declarations of a body in the order of their numbers. -/
def Body.inOrder (body : Body) : List NodeId :=
  body.declared.mergeSort fun a b => decide (a.val ≤ b.val)

/-- The node is what an item of the source becomes: the item itself, with a number. A nested unit is
found by its place, and regions are as the item says, whatever was made of their blocks. -/
inductive ElaboratedUnit.ItemBecomes (u : ElaboratedUnit) (source : SourceUnit) :
    SourceItem → Node → Prop
  | declaration {id : NodeId} {span : Span} {decl : Declaration} :
    ItemBecomes u source (.declaration span decl) ⟨id, span, .declaration decl⟩
  | inst {id : NodeId} {span targetSpan : Span} {inst : Instantiation} :
    ItemBecomes u source (.inst span targetSpan inst) ⟨id, span, .inst inst⟩
  | unit {nested : SourceUnit} {node : Node} (becomes : u.Becomes source (.unit nested) node) :
    ItemBecomes u source (.unit nested) node
  | generateIf {id : NodeId} {span : Span} {label : Option Name} {condition : Bool}
    {thenBlock : SourceBlock} {elseBlock : Option SourceBlock} {taken : Option NodeId} :
    ItemBecomes u source (.generateIf span label (some condition) thenBlock elseBlock)
      ⟨id, span, .generateIf ⟨label, condition, elseBlock.isSome, taken⟩⟩
  | generateFor {id : NodeId} {span : Span} {label : Option Name} {genvar : Name}
    {iterations : List Int64} {block : SourceBlock} {scopes : List NodeId} :
    ItemBecomes u source (.generateFor span label genvar (some iterations) block)
      ⟨id, span, .generateFor ⟨label, genvar, iterations, scopes⟩⟩
  | generateBlock {id : NodeId} {span : Span} {label : Option Name} {block : SourceBlock}
    {scope : Option NodeId} :
    ItemBecomes u source (.generateBlock span label block)
      ⟨id, span, .generateBlock ⟨label, scope⟩⟩

/-- The numbers in a body count up. -/
structure Body.Ordered (owner : NodeId) (body : Body) : Prop where
  buckets : ∀ bucket, Increasing (body.bucket bucket)
  hierarchies : Increasing body.subHierarchies
  /-- The scopes of regions come after all declarations. -/
  scopes_last : ∀ id ∈ body.declared, ∀ scope ∈ body.generateScopes, id.val < scope.val
  /-- The owner comes before everything. -/
  owner_first : ∀ id ∈ body.ids, owner.val < id.val

/-- The header of a unit comes after the body, port by port. -/
structure NodeIndex.HeaderLast (index : NodeIndex) (unit : DesignUnit) : Prop where
  ports : Increasing unit.ports
  after_body : ∀ port ∈ unit.ports, ∀ id, index.Reaches unit.body.ids id → id.val < port.val
  /-- A port comes before its slices. -/
  slices : ∀ id ∈ unit.ports, ∃ node port, index.get? id = some node ∧
    node.content = .port port ∧ Increasing port.slices ∧ ∀ slice ∈ port.slices, id.val < slice.val

/-! ### Bodies -/

/-- Sorting a rearrangement of numbers that count up brings them back into order. -/
theorem mergeSort_eq_of_perm {listed sorted : List NodeId} (perm : listed.Perm sorted)
    (increasing : Increasing sorted) :
    listed.mergeSort (fun a b => decide (a.val ≤ b.val)) = sorted := by
  have back : (sorted.Pairwise fun a b => decide (a.val ≤ b.val) = true) :=
    increasing.imp fun before => decide_eq_true (Nat.le_of_lt before)
  refine List.Perm.eq_of_pairwise ?_ (List.pairwise_mergeSort ?_ ?_ listed) back
    ((List.mergeSort_perm ..).trans perm)
  · intro a b _ _ hab hba
    exact congrArg NodeId.mk (Nat.le_antisymm (of_decide_eq_true hab) (of_decide_eq_true hba))
  · intro a b c hab hbc
    exact decide_eq_true (Nat.le_trans (of_decide_eq_true hab) (of_decide_eq_true hbc))
  · intro a b
    simpa using Nat.le_total a.val b.val

namespace Layout

variable {index : NodeIndex} {u : ElaboratedUnit} {source : SourceUnit}

/-- The declarations of a laid-out scope are its members. -/
theorem declared_gather_members (name : Nat → NodeId) (scope : ScopeKind) (owner : NodeId)
    (items : List SourceItem) (k : Nat) (scopes : List NodeId) :
    (Body.gather scope owner ((members name items k).map node) scopes).declared.Perm
      ((members name items k).map NodeTree.id) := by
  have groups : ∀ member ∈ (members name items k).map node,
      ∃ bucket, member.content.group? = some bucket :=
    List.forall_mem_map.mpr (group?_itemTrees name)
  have perm := Body.declared_gather_perm scope owner scopes groups
  rwa [List.map_map] at perm

theorem inOrder_gather (scope : ScopeKind) (owner : NodeId) (items : List SourceItem) (k : Nat)
    (scopes : List NodeId) :
    (Body.gather scope owner ((members NodeId.mk items k).map node) scopes).inOrder =
      (members NodeId.mk items k).map NodeTree.id :=
  mergeSort_eq_of_perm (declared_gather_members ..) (increasing_itemTrees ..)

theorem ordered_gather (scope : ScopeKind) {owner : NodeId} (items : List SourceItem) {k : Nat}
    (before : owner.val < k) :
    (Body.gather scope owner ((members NodeId.mk items k).map node)
      ((scopes NodeId.mk items k).map NodeTree.id)).Ordered owner := by
  have increasing := increasing_scope items k
  have declared := declared_gather_members NodeId.mk scope owner items k
    ((scopes NodeId.mk items k).map NodeTree.id)
  -- All that is listed in the body comes from this one sequence.
  rw [List.map_append] at increasing
  obtain ⟨hmembers, -, cross⟩ := List.pairwise_append.mp increasing
  refine ⟨fun bucket => ?_, ?_, fun id hid scope hscope => ?_, fun id hid => ?_⟩
  · rw [Body.bucket_gather, map_id_filter]
    exact hmembers.sublist (List.filter_sublist.map _)
  · rw [subHierarchies_gather, hierarchies, List.map_append]
    exact increasing.sublist ((List.filter_sublist.map _).append_right _)
  · rw [Body.generateScopes_gather] at hscope
    exact cross id (declared.mem_iff.mp hid) scope hscope
  · rw [ids_gather] at hid
    exact Nat.lt_of_lt_of_le before ((numbered_arrange NodeId.mk items k).root_bounds hid).1

theorem Lays.ordered {part : SourcePart} {tree : NodeTree} {body : Body}
    (h : Lays NodeId.mk part tree) (hbody : tree.node.content.body? = some body) :
    body.Ordered tree.id := by
  cases h with
  | @unit source k _ =>
    rw [unitTree_eq] at hbody ⊢
    cases hbody
    exact ordered_gather _ source.items (Nat.lt_succ_self k)
  | @block source region branch k _ =>
    rw [blockTree_eq] at hbody ⊢
    cases hbody
    exact ordered_gather _ source.items (Nat.lt_succ_self k)

/-! ### Headers -/

theorem headerLast_placedUnit {k : Nat}
    (resolves : index.Resolves (unitTree NodeId.mk source k).owned) :
    index.HeaderLast (placedUnit NodeId.mk source k).content := by
  rw [unitTree_eq, NodeIndex.resolves_append] at resolves
  obtain ⟨hports, hbody⟩ := resolves
  have linked := linked_arrange NodeId.mk (linked_itemTrees NodeId.mk source.items (k + 1) _)
    (linked_scopeTrees NodeId.mk source.items (k + 1) _)
  have reaches := NodeIndex.reaches_map_id_iff linked hbody
  have inner := numbered_arrange NodeId.mk source.items (k + 1)
  rw [← ids_gather source.kind.scope ⟨k⟩] at reaches
  refine ⟨increasing_entryTrees .., fun port hport id reached => ?_, fun id hid => ?_⟩
  · have before := (inner.mem_iff_val id).mp ((reaches id).mp reached)
    have after := ((numbered_entryTrees NodeId.mk _ none source.header _).root_bounds hport).1
    omega
  · obtain ⟨tree, htree, rfl⟩ := List.mem_map.mp hid
    obtain ⟨port, content, increasing⟩ := increasing_slices tree htree
    obtain ⟨first, slices⟩ := List.pairwise_cons.mp increasing
    exact ⟨tree.node, port, hports.root htree, content, slices, first⟩

/-! ### Items -/

/-- An item is a nested unit, or it is listed elsewhere. -/
theorem nested_or_plain (item : SourceItem) :
    (∃ nested, item = .unit nested) ∨ (item.units = [] ∧ item.bucket ≠ .nestedUnits) := by
  cases item with
  | unit nested => exact .inl ⟨nested, rfl⟩
  | declaration span decl => cases decl <;> exact .inr ⟨rfl, fun h => by cases h⟩
  | _ => exact .inr ⟨rfl, fun h => by cases h⟩

theorem itemBecomes_placedItem {name : Nat → NodeId} {item : SourceItem} (k q : Nat)
    (sound : item.declareAudit.fault = none) (plain : item.bucket ≠ .nestedUnits) :
    u.ItemBecomes source item (placedItem name item k q).node := by
  cases item with
  | unit nested => exact absurd rfl plain
  | declaration => exact .declaration
  | inst => exact .inst
  | generateIf span label condition thenBlock elseBlock =>
    cases condition with
    | none => simp [SourceItem.declareAudit] at sound
    | some condition => exact .generateIf
  | generateFor span label genvar iterations block =>
    cases iterations with
    | none => simp [SourceItem.declareAudit] at sound
    | some iterations => exact .generateFor
  | generateBlock => exact .generateBlock
  | malformed => simp [SourceItem.declareAudit] at sound

/-- The members of a scope are what its items become. Of the parts inside the scope and the
hierarchies in its body, as many in front belong to earlier items. -/
theorem itemBecomes_itemTrees {name : Nat → NodeId} {outer : SourcePart} {owner : Node}
    {body : Body} (houter : u.Becomes source outer owner)
    (hbody : owner.content.body? = some body) {items : List SourceItem} {k q : Nat}
    {front back : List SourcePart} {before after : List NodeId}
    (parts : outer.inner = front ++ (items.flatMap SourceItem.units ++ back))
    (listed : body.subHierarchies = before ++ (((itemTrees name items k q).filter fun tree =>
      tree.node.content.group? = some .nestedUnits).map NodeTree.id ++ after))
    (level : front.length = before.length) (sound : (declareAudits items).fault = none)
    (found : ∀ tree ∈ itemTrees name items k q, u.nodes.get? tree.id = some tree.node) :
    List.Forall₂ (fun item id =>
      ∃ node, u.nodes.get? id = some node ∧ u.ItemBecomes source item node)
      items ((itemTrees name items k q).map NodeTree.id) := by
  induction items generalizing k q front before with
  | nil => exact .nil
  | cons item rest ih =>
    obtain ⟨hitem, hrest⟩ := Audit.fault_andThen_eq_none.mp sound
    rw [itemTrees_cons] at found listed ⊢
    obtain ⟨here, later⟩ := List.forall_mem_cons.mp found
    have group : (placedItem name item k q).node.content.group? = some item.bucket :=
      group?_itemTree ..
    rw [List.flatMap_cons] at parts
    rw [List.filter_cons, group] at listed
    rcases nested_or_plain item with ⟨nested, rfl⟩ | ⟨none, plain⟩
    · -- The nested unit is the next part, and the next hierarchy of the body.
      have hinner : outer.inner[front.length]? = some (.unit nested) := by
        rw [parts, List.getElem?_append_right (Nat.le_refl _), Nat.sub_self]
        rfl
      have hid : body.subHierarchies[front.length]? =
          some (placedItem name (.unit nested) k q).id := by
        rw [listed, level, List.getElem?_append_right (Nat.le_refl _), Nat.sub_self]
        rfl
      refine .cons ⟨_, here, .unit (.inside houter hbody hinner hid here)⟩ ?_
      refine @ih _ _ (front ++ [.unit nested])
        (before ++ [(placedItem name (.unit nested) k q).id]) ?_ ?_ ?_ hrest later
      · rw [parts]
        exact (List.append_assoc front [.unit nested] _).symm
      · rw [listed]
        exact (List.append_assoc before [(placedItem name (.unit nested) k q).id] _).symm
      · rw [List.length_append, List.length_append, level]
        rfl
    · rw [none, List.nil_append] at parts
      rw [if_neg (by simpa using plain)] at listed
      exact .cons ⟨_, here, itemBecomes_placedItem k q hitem plain⟩
        (ih parts listed level hrest later)

end Layout

/-! ### Bodies in elaborated units -/

/-- A generate scope that is listed in a consistent body was made for a region of that body. -/
theorem Body.Consistent.exists_region {index : NodeIndex} {owner node : Node} {body : Body}
    (h : body.Consistent index owner) {id : NodeId} {scope : GenerateScope}
    (listed : id ∈ body.subHierarchies) (found : index.get? id = some node)
    (hscope : node.content = .generateScope scope) :
    id ∈ body.generateScopes ∧ scope.region ∈ body.generateRegions := by
  have hierarchies : body.subHierarchies = body.nestedUnits ++ body.generateScopes :=
    (List.take_append_drop ..).symm
  have made : id ∈ body.generateScopes := by
    rw [hierarchies] at listed
    refine (List.mem_append.mp listed).resolve_left fun nested => ?_
    obtain ⟨unit, held, kind⟩ := h.buckets .nestedUnits id nested
    rw [NodeIndex.lookup_eq_ok_iff, found] at held
    cases held
    rw [hscope] at kind
    cases List.mem_singleton.mp kind
  refine ⟨made, ?_⟩
  -- The scope is listed by some marker of the body, and names the marker that lists it.
  rw [h.recorded] at made
  obtain ⟨region, hregion, recorded⟩ := List.mem_flatMap.mp made
  obtain ⟨marker, held, marks⟩ := h.marked region hregion
  rw [NodeIndex.recordedAt, NodeIndex.lookup_eq_ok_iff.mp held] at recorded
  obtain ⟨branch, other, same, rfl, -⟩ := marks.exists_scopeOf recorded
  rw [NodeIndex.generateScope_of_get? found hscope] at same
  cases same
  exact hregion

namespace LaidOut

variable {source : SourceUnit} {k : Nat} {u : ElaboratedUnit} {part : SourcePart} {node : Node}
  {body : Body}

/-- Sorted by number, the declarations of a body are the items of the scope. -/
theorem items_inOrder (laid : LaidOut NodeId.mk source k u) (sound : source.audit.fault = none)
    (becomes : u.Becomes source part node) (hbody : node.content.body? = some body) :
    List.Forall₂ (fun item id =>
      ∃ made, u.nodes.get? id = some made ∧ u.ItemBecomes source item made)
      part.items body.inOrder := by
  obtain ⟨tree, htree, lays, rfl⟩ := laid.exists_lays sound becomes
  obtain ⟨i, ports, assembled⟩ := lays.exists_assembled
  obtain ⟨hitems, -⟩ := part.sound_items lays.sound
  have own := hbody
  rw [assembled.body] at own
  cases own
  have listed := @subHierarchies_gather NodeId.mk part.scope tree.id part.items i
  rw [hierarchies, List.map_append, ← List.nil_append (List.map _ _ ++ _)] at listed
  have parts : part.inner = [] ++ (part.items.flatMap SourceItem.units ++
      part.items.flatMap SourceItem.blocks) := rfl
  rw [inOrder_gather]
  refine itemBecomes_itemTrees becomes hbody parts listed rfl hitems fun member hmember => ?_
  exact (laid.resolves htree).root (assembled.mem_owned_iff.mpr (.inr (.inl hmember)))

theorem ordered (laid : LaidOut NodeId.mk source k u) (sound : source.audit.fault = none)
    (becomes : u.Becomes source part node) (hbody : node.content.body? = some body) :
    body.Ordered node.id := by
  obtain ⟨tree, -, lays, rfl⟩ := laid.exists_lays sound becomes
  exact lays.ordered hbody

theorem headerLast (laid : LaidOut NodeId.mk source k u) (sound : source.audit.fault = none)
    (becomes : u.Becomes source part node) {unit : DesignUnit}
    (hunit : node.content = .unit unit) : u.nodes.HeaderLast unit := by
  obtain ⟨tree, htree, lays, rfl⟩ := laid.exists_lays sound becomes
  have resolves := laid.resolves htree
  cases lays with
  | unit =>
    rw [unitTree_eq] at hunit
    cases hunit
    exact headerLast_placedUnit resolves
  | block =>
    rw [blockTree_eq] at hunit
    cases hunit

/-- A generate scope comes after the region that it was made for. -/
theorem region_before (laid : LaidOut NodeId.mk source k u) (sound : source.audit.fault = none)
    (becomes : u.Becomes source part node) {scope : GenerateScope}
    (hscope : node.content = .generateScope scope) : scope.region.val < node.id.val := by
  cases becomes with
  | whole => cases hscope
  | @inside outer _ owner _ around i id houter hbody _ hid found =>
    -- The body around the scope lists the region among its declarations.
    have consistent := laid.consistent sound owner around houter.mem hbody
    obtain ⟨made, region⟩ := consistent.exists_region (List.mem_of_getElem? hid) found hscope
    rw [laid.adds.id_eq found]
    refine (laid.ordered sound houter hbody).scopes_last _ ?_ id made
    exact List.mem_flatMap.mpr ⟨.generateRegions, by decide, region⟩

end LaidOut

/-- The numbers in a unit that was elaborated follow the source, in the unit itself, in every nested
unit and in every generate scope:

* sorted by number, the declarations of the body are the items of the part that the node was made
  of, in source order;
* the groups of the body count up, and its generate scopes come after all declarations;
* the owner of a body comes before all that is in it, and a generate scope after its region;
* the ports of a unit count up, after all that can be reached from the body, each of them before its
  slices, which count up as well. -/
theorem numbers_follow_source_order {source : SourceUnit} {ids left : IdCounter}
    {u : ElaboratedUnit} (h : source.elaborate ids = (.ok u, left)) :
    ∀ node body, (node = u.node ∨ ∃ id, u.nodes.get? id = some node) →
      node.content.body? = some body →
      (∃ part, u.Becomes source part node) ∧
      (∀ part, u.Becomes source part node → List.Forall₂ (fun item id =>
        ∃ made, u.nodes.get? id = some made ∧ u.ItemBecomes source item made)
        part.items body.inOrder) ∧
      body.Ordered node.id ∧
      (∀ scope, node.content = .generateScope scope → scope.region.val < node.id.val) ∧
      ∀ unit, node.content = .unit unit → u.nodes.HeaderLast unit := by
  intro node body hnode hbody
  obtain ⟨laid, -, -, sound⟩ := SourceUnit.laidOut h
  obtain ⟨part, hpart⟩ := SourceUnit.ElaboratesTo.exists_becomes (.alone h) hnode hbody
  exact ⟨⟨part, hpart⟩, fun _ becomes => laid.items_inOrder sound becomes hbody,
    laid.ordered sound hpart hbody, fun _ => laid.region_before sound hpart,
    fun _ => laid.headerLast sound hpart⟩

/-- A module with a port that is declared between a block and a process. In the body the block comes
last, and its scope before it; sorting brings the three into order again. -/
theorem source_order_of_module :
    let port : SourceItem :=
      .declaration .dummy (.port ⟨.input, .net .wire, .implicit .dummy, [⟨.dummy, .empty, none⟩]⟩)
    let proc : SourceItem := .declaration .dummy (.proc .final)
    let block : SourceItem := .generateBlock .dummy none ⟨.dummy, none, [proc]⟩
    let source : SourceUnit := ⟨.module, .empty, .dummy, .dummy,
      [.unnamed .dummy [⟨.dummy, .empty, []⟩]], [block, port, proc]⟩
    ∃ u left, source.elaborate IdCounter.fresh = (.ok u, left) ∧
      u.unit.content.body.ids = [⟨3⟩, ⟨4⟩, ⟨5⟩, ⟨2⟩] ∧
      List.Forall₂ (fun item id =>
        ∃ made, u.nodes.get? id = some made ∧ u.ItemBecomes source item made)
        [block, port, proc] u.unit.content.body.inOrder ∧
      u.unit.content.body.Ordered u.unit.id ∧ u.nodes.HeaderLast u.unit.content := by
  intro port proc block source
  have accepted : (source.elaborate IdCounter.fresh).1.isOk = true := by decide +kernel
  have listed : (source.elaborate IdCounter.fresh).1.toOption.map
      (fun u => u.unit.content.body.ids) = some [⟨3⟩, ⟨4⟩, ⟨5⟩, ⟨2⟩] := by decide +kernel
  obtain ⟨u, left, h⟩ := exists_of_isOk accepted
  rw [h] at listed
  obtain ⟨-, items, ordered, -, header⟩ := numbers_follow_source_order h u.node _ (.inl rfl) rfl
  exact ⟨u, left, h, Option.some.inj listed, items _ .whole, ordered, header _ rfl⟩

end DesignTree
