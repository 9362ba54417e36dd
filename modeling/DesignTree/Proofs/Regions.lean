import DesignTree.Proofs.Grouping.Partition
import DesignTree.Proofs.Parts
/-!
# DesignTree.Proofs.Regions

Generate regions in an elaborated unit.

That a scope was made for a region is written down three times: in the marker of the region, in the
list of scopes of the body around it, and in the scope itself. Here the three are shown to agree, in
every body of a unit (`Body.Consistent`). A body is looked at by itself, as what the items of a unit
or block were laid out to (`consistent_gather`), and no body comes from anything else
(`Layout.Sourced`).
-/

namespace DesignTree

open NodeTree Layout

/-- The scopes that the marker of a region lists, in order. -/
def Content.recordedScopes : Content → List NodeId
  | .generateIf region => region.taken.toList
  | .generateFor region => region.scopes
  | .generateBlock region => region.scope.toList
  | _ => []

/-- The kind of scope that a unit or a generate scope is. -/
def Content.scopeKind? : Content → Option ScopeKind
  | .unit u => some u.kind.scope
  | .generateScope _ => some .generate
  | _ => none

namespace NodeIndex

/-- The scopes that are listed under a number. -/
def recordedAt (index : NodeIndex) (id : NodeId) : List NodeId :=
  match index.get? id with
  | some node => node.content.recordedScopes
  | none => []

/-- There is a scope under a number, made for the region from one of its blocks. -/
def ScopeOf (index : NodeIndex) (region : NodeId) (branch : Branch) (id : NodeId) : Prop :=
  ∃ scope, index.generateScope id = .ok scope ∧ scope.content.region = region ∧
    scope.content.branch = branch

/-- The marker of a region lists the scopes that were made for it. -/
inductive Marks (index : NodeIndex) (id : NodeId) : Content → Prop
  /-- The scope of the branch that the condition takes, unless there is no such branch. -/
  | generateIf {region : IfRegion}
    (untaken : region.taken = none ↔ region.condition = false ∧ region.hasElse = false)
    (taken : ∀ scope, region.taken = some scope →
      index.ScopeOf id (if region.condition then .thenBranch else .elseBranch) scope) :
    Marks index id (.generateIf region)
  /-- One scope for each iteration. -/
  | generateFor {region : ForRegion}
    (scopes : List.Forall₂ (fun value => index.ScopeOf id (.iteration value)) region.iterations
      region.scopes) : Marks index id (.generateFor region)
  /-- The scope of the block. -/
  | generateBlock {region : BlockRegion} {scope : NodeId} (expanded : region.scope = some scope)
    (made : index.ScopeOf id .block scope) : Marks index id (.generateBlock region)

end NodeIndex

/-- The body agrees with its owner and with what is in the index. -/
structure Body.Consistent (index : NodeIndex) (owner : Node) (body : Body) : Prop where
  parent_eq : body.parent = owner.id
  scope_eq : owner.content.scopeKind? = some body.scope
  /-- A group lists nodes of its kinds. -/
  buckets : ∀ bucket, ∀ id ∈ body.bucket bucket, ∃ node, index.lookup id = .ok node ∧
    node.content.kind ∈ bucket.kinds
  /-- The scopes are scopes. -/
  scopes : ∀ id ∈ body.generateScopes, ∃ scope, index.generateScope id = .ok scope
  /-- They are those that the markers list, in the order of the markers. -/
  recorded : body.generateScopes = body.generateRegions.flatMap index.recordedAt
  /-- And the markers list what was made for them. -/
  marked : ∀ id ∈ body.generateRegions, ∃ node, index.lookup id = .ok node ∧
    index.Marks id node.content

/-- Every body in an elaborated unit is consistent: the unit's own, and those of nested units and
generate scopes at any depth. -/
def ElaboratedUnit.Consistent (u : ElaboratedUnit) : Prop :=
  ∀ node body, (node = u.node ∨ ∃ id, u.nodes.get? id = some node) →
    node.content.body? = some body → body.Consistent u.nodes node

/-! ### What markers list -/

variable {index : NodeIndex}

theorem NodeIndex.generateScope_of_get? {id : NodeId} {node : Node} {scope : GenerateScope}
    (found : index.get? id = some node) (h : node.content = .generateScope scope) :
    index.generateScope id = .ok { node with content := scope } := by
  simp only [generateScope, lookup, found, h, Content.asGenerateScope?]

theorem NodeIndex.recordedAt_of_get? {node : Node} (found : index.get? node.id = some node) :
    index.recordedAt node.id = node.content.recordedScopes := by
  rw [recordedAt, found]

/-- Every scope that a marker lists was made for it. -/
theorem NodeIndex.Marks.exists_scopeOf {id : NodeId} {content : Content}
    (h : index.Marks id content) {scope : NodeId} (hscope : scope ∈ content.recordedScopes) :
    ∃ branch, index.ScopeOf id branch scope := by
  cases h with
  | generateIf _ taken => exact ⟨_, taken scope (Option.mem_toList.mp hscope)⟩
  | generateFor scopes =>
    obtain ⟨-, value, -, -, made⟩ := exists_related_of_mem scopes hscope
    exact ⟨_, made⟩
  | generateBlock expanded made =>
    rw [Content.recordedScopes, expanded, Option.toList_some, List.mem_singleton] at hscope
    exact ⟨_, hscope ▸ made⟩

/-- What is not the marker of a region lists no scopes. -/
theorem Content.recordedScopes_eq_nil {content : Content}
    (h : content.group? ≠ some .generateRegions) : content.recordedScopes = [] := by
  cases content with
  | generateIf | generateFor | generateBlock => exact absurd rfl h
  | _ => rfl

/-- The scopes that some nodes list, looked up by way of their group. -/
theorem flatMap_recordedAt_inGroup {nodes : List Node}
    (found : ∀ node ∈ nodes, index.get? node.id = some node) :
    ((Node.inGroup nodes .generateRegions).map (·.id)).flatMap index.recordedAt =
      nodes.flatMap fun node => node.content.recordedScopes := by
  induction nodes with
  | nil => rfl
  | cons node rest ih =>
    obtain ⟨here, later⟩ := List.forall_mem_cons.mp found
    rw [List.flatMap_cons, ← ih later, Node.inGroup, List.filter_cons]
    split
    next =>
      rw [List.map_cons, List.flatMap_cons, NodeIndex.recordedAt_of_get? here]
      rfl
    next other =>
      rw [Content.recordedScopes_eq_nil (by simpa using other)]
      rfl

namespace Layout

variable {name : Nat → NodeId}

/-! ### What is laid out for a region -/

theorem recordedScopes_placedItem (item : SourceItem) (k q : Nat) :
    (placedItem name item k q).node.content.recordedScopes =
      (itemScopes name item (name k) q).map NodeTree.id := by
  rw [placedItem]
  cases item with
  | unit nested =>
    cases nested
    rfl
  | declaration | inst | malformed => rfl
  | generateIf span label condition thenBlock elseBlock =>
    rcases condition with _ | _ | _
    · rfl
    · cases elseBlock <;> rfl
    · rfl
  | generateFor span label genvar iterations block => cases iterations <;> rfl
  | generateBlock => rfl

/-- The scopes of a scope are those that its markers list. -/
theorem map_id_scopeTrees (items : List SourceItem) (k q : Nat) :
    (scopeTrees name items k q).map NodeTree.id =
      ((itemTrees name items k q).map node).flatMap (·.content.recordedScopes) := by
  induction items generalizing k q with
  | nil => rfl
  | cons item rest ih =>
    rw [scopeTrees, itemTrees_cons, List.map_append, ih, List.map_cons, List.flatMap_cons,
      recordedScopes_placedItem]

theorem scopeOf_blockTree {source : SourceBlock} {region : NodeId} {branch : Branch} {q : Nat}
    {rest : List NodeTree}
    (resolves : index.Resolves (blockTree name source region branch q :: rest)) :
    index.ScopeOf region branch (blockTree name source region branch q).id := by
  have found := resolves.head
  rw [blockTree_eq] at found ⊢
  exact ⟨_, NodeIndex.generateScope_of_get? found rfl, rfl, rfl⟩

theorem scopeOf_iterations {block : SourceBlock} {region : NodeId} (iterations : List Int64)
    {q : Nat} (resolves : index.Resolves (spread block.cost
      (fun value => blockTree name block region (.iteration value)) iterations q)) :
    List.Forall₂ (fun value => index.ScopeOf region (.iteration value)) iterations
      ((spread block.cost (fun value => blockTree name block region (.iteration value)) iterations
        q).map NodeTree.id) := by
  induction iterations generalizing q with
  | nil => exact .nil
  | cons value rest ih => exact .cons (scopeOf_blockTree resolves) (ih resolves.tail)

/-- The marker of a region without a fault lists what was made for it. -/
theorem marks_placedItem {item : SourceItem} {k q : Nat} (region : item.bucket = .generateRegions)
    (sound : item.declareAudit.fault = none)
    (resolves : index.Resolves (itemScopes name item (name k) q)) :
    index.Marks (name k) (placedItem name item k q).node.content := by
  rw [placedItem]
  -- An item that is no region is not in question, and a region without a value is a fault.
  cases item with
  | unit nested => cases region
  | inst => cases region
  | declaration span decl => cases decl <;> cases region
  | malformed => simp [SourceItem.declareAudit] at sound
  | generateIf span label condition thenBlock elseBlock =>
    rcases condition with _ | _ | _
    · simp [SourceItem.declareAudit] at sound
    · cases elseBlock with
      | none =>
        refine .generateIf (by simp [itemScopes]) fun scope taken => ?_
        cases taken
      | some elseBlock =>
        refine .generateIf (by simp [itemScopes]) fun scope taken => ?_
        cases taken
        exact scopeOf_blockTree resolves
    · refine .generateIf (by simp [itemScopes]) fun scope taken => ?_
      cases taken
      exact scopeOf_blockTree resolves
  | generateFor span label genvar iterations block =>
    cases iterations with
    | none => simp [SourceItem.declareAudit] at sound
    | some iterations => exact .generateFor (scopeOf_iterations iterations resolves)
  | generateBlock => exact .generateBlock rfl (scopeOf_blockTree resolves)

theorem marks_itemTrees {items : List SourceItem} {k q : Nat}
    (sound : (declareAudits items).fault = none)
    (resolves : index.Resolves (scopeTrees name items k q)) :
    ∀ tree ∈ itemTrees name items k q, tree.node.content.group? = some .generateRegions →
      index.Marks tree.id tree.node.content := by
  induction items generalizing k q with
  | nil => simp [itemTrees]
  | cons item rest ih =>
    obtain ⟨hitem, hrest⟩ := Audit.fault_andThen_eq_none.mp sound
    rw [scopeTrees, NodeIndex.resolves_append] at resolves
    rw [itemTrees_cons]
    refine List.forall_mem_cons.mpr ⟨fun group => ?_, ih hrest resolves.2⟩
    rw [placedItem, group?_itemTree, Option.some.injEq] at group
    rw [placedItem, id_itemTree]
    exact marks_placedItem group hitem resolves.1

/-! ### Bodies -/

/-- The body of a scope whose items have no fault. -/
theorem consistent_gather {owner : Node} {scope : ScopeKind} {items : List SourceItem} {k : Nat}
    (hscope : owner.content.scopeKind? = some scope)
    (sound : (declareAudits items).fault = none)
    (resolves : index.Resolves (arrange (members name items k) (scopes name items k))) :
    (Body.gather scope owner.id ((members name items k).map node)
      ((scopes name items k).map NodeTree.id)).Consistent index owner := by
  obtain ⟨hmembers, hscopes⟩ :=
    NodeIndex.resolves_append.mp (resolves.perm (arrange_members_perm name items k))
  have found : ∀ member ∈ (members name items k).map node,
      index.get? member.id = some member := by
    refine List.forall_mem_map.mpr fun tree htree => ?_
    exact hmembers.root htree
  have recorded : (scopes name items k).map NodeTree.id =
      ((Node.inGroup ((members name items k).map node) .generateRegions).map (·.id)).flatMap
        index.recordedAt :=
    (map_id_scopeTrees items k _).trans (flatMap_recordedAt_inGroup found).symm
  have marked : ∀ member ∈ Node.inGroup ((members name items k).map node) .generateRegions,
      index.Marks member.id member.content := by
    intro member hmember
    obtain ⟨hmem, group⟩ := Node.mem_inGroup.mp hmember
    obtain ⟨tree, htree, rfl⟩ := List.mem_map.mp hmem
    exact marks_itemTrees sound hscopes tree htree group
  refine ⟨rfl, hscope, fun bucket id hid => ?_, fun id hid => ?_, ?_, fun id hid => ?_⟩
  · rw [Body.bucket_gather] at hid
    obtain ⟨member, hmember, rfl⟩ := List.mem_map.mp hid
    obtain ⟨hmem, group⟩ := Node.mem_inGroup.mp hmember
    exact ⟨member, NodeIndex.lookup_eq_ok_iff.mpr (found member hmem),
      Content.group?_eq_some_iff.mp group⟩
  · -- A scope of the body is listed by some marker, and what a marker lists was made.
    rw [Body.generateScopes_gather, recorded] at hid
    obtain ⟨region, hregion, hlisted⟩ := List.mem_flatMap.mp hid
    obtain ⟨member, hmember, rfl⟩ := List.mem_map.mp hregion
    rw [NodeIndex.recordedAt_of_get? (found member (Node.mem_inGroup.mp hmember).1)] at hlisted
    obtain ⟨branch, scope, made, -⟩ := (marked member hmember).exists_scopeOf hlisted
    exact ⟨scope, made⟩
  · rw [Body.generateScopes_gather, recorded]
    rfl
  · obtain ⟨member, hmember, rfl⟩ := List.mem_map.mp hid
    have here := found member (Node.mem_inGroup.mp hmember).1
    exact ⟨member, NodeIndex.lookup_eq_ok_iff.mpr here, marked member hmember⟩

theorem Lays.scopeKind?_eq {part : SourcePart} {tree : NodeTree} (h : Lays name part tree) :
    tree.node.content.scopeKind? = some part.scope := by
  cases h with
  | unit =>
    rw [unitTree_eq]
    rfl
  | block =>
    rw [blockTree_eq]
    rfl

theorem Lays.consistent {part : SourcePart} {tree : NodeTree} {body : Body}
    (h : Lays name part tree) (resolves : index.Resolves tree.owned)
    (hbody : tree.node.content.body? = some body) : body.Consistent index tree.node := by
  obtain ⟨k, ports, assembled⟩ := h.exists_assembled
  obtain ⟨hitems, -⟩ := part.sound_items h.sound
  rw [assembled.body] at hbody
  cases hbody
  rw [assembled.owned, NodeIndex.resolves_append] at resolves
  exact consistent_gather h.scopeKind?_eq hitems resolves.2

theorem Sourced.consistent {tree : NodeTree} {body : Body} (h : Sourced name tree)
    (resolves : index.Resolves tree.owned) (hbody : tree.node.content.body? = some body) :
    body.Consistent index tree.node := by
  cases h with
  | part lays => exact lays.consistent resolves hbody
  | outer all =>
    rw [(all tree (head_mem_subtreesOf tree [])).2] at hbody
    cases hbody
  | leaf none =>
    rw [none] at hbody
    cases hbody

end Layout

/-- Units that are laid out without a fault are consistent. -/
theorem LaidOut.consistent {name : Nat → NodeId} {source : SourceUnit} {k : Nat}
    {u : ElaboratedUnit} (laid : LaidOut name source k u) (sound : source.audit.fault = none) :
    u.Consistent := by
  intro node body hnode hbody
  obtain ⟨tree, htree, rfl⟩ := laid.exists_tree hnode
  exact (sourced_unitTree k sound tree htree).consistent (laid.resolves htree) hbody

/-- In every unit that is elaborated, alone or at the same time as others, each body belongs to
the unit or scope that owns it and lists nodes of the right kinds; its generate scopes are just
those that the markers of its regions list, and they were made for these regions, from the blocks
that the condition, the iterations or the region itself asks for. -/
theorem elaborate_keeps_regions_consistent :
    (∀ {source : SourceUnit} {ids left : IdCounter} {u : ElaboratedUnit},
      source.elaborate ids = (.ok u, left) → u.Consistent) ∧
    ∀ {ids left : IdCounter} {dealt : List (SourceUnit × DealtIds)}, Dealing ids dealt left →
      ∀ task ∈ dealt, ∀ u, (task.1.elaborate task.2).1 = .ok u → u.Consistent := by
  constructor
  · intro source ids left u h
    obtain ⟨laid, -, -, sound⟩ := SourceUnit.laidOut h
    exact laid.consistent sound
  · intro ids left dealt dealing task htask u success
    obtain ⟨name, n, hname, hids, -⟩ := dealing.exists_naming
    obtain ⟨i, m, -, hown⟩ := exists_own_of_mem hids htask
    obtain ⟨laid, -, sound⟩ :=
      SourceUnit.laidOut_dealt hname hown (dealing.drawn task htask) success
    exact laid.consistent sound

/-- A loop around a plain block, in a branch that is taken, beside a branch that is not; with
numbers that count up, and with numbers that count down. -/
theorem regions_of_loop_in_branch :
    let item : SourceItem := .declaration .dummy (.proc .final)
    let block : SourceItem := .generateBlock .dummy none ⟨.dummy, none, [item]⟩
    let loop : SourceItem := .generateFor .dummy none .empty (some [0, 1]) ⟨.dummy, none, [block]⟩
    let source : SourceUnit := ⟨.module, .empty, .dummy, .dummy, [],
      [.generateIf .dummy none (some true) ⟨.dummy, none, [loop]⟩ none,
        .generateIf .dummy none (some false) ⟨.dummy, none, [loop]⟩ none]⟩
    let own : DealtIds := ⟨(List.range' 1 13).reverse.map NodeId.mk⟩
    (∃ u left, source.elaborate IdCounter.fresh = (.ok u, left) ∧ u.Consistent ∧
      u.unit.content.body.generateScopes = [⟨4⟩] ∧ u.nodes.recordedAt ⟨5⟩ = [⟨6⟩, ⟨10⟩]) ∧
    ∃ u, (source.elaborate own).1 = .ok u ∧ u.Consistent ∧
      u.unit.content.body.generateScopes = [⟨10⟩] := by
  intro item block loop source own
  constructor
  · have scopes : (source.elaborate IdCounter.fresh).1.toOption.map (fun u =>
        (u.unit.content.body.generateScopes, u.nodes.recordedAt ⟨5⟩)) =
          some ([⟨4⟩], [⟨6⟩, ⟨10⟩]) := by decide +kernel
    have accepted : (source.elaborate IdCounter.fresh).1.isOk = true := by decide +kernel
    obtain ⟨u, left, h⟩ := exists_of_isOk accepted
    rw [h] at scopes
    obtain ⟨direct, listed⟩ := Prod.mk.inj (Option.some.inj scopes)
    exact ⟨u, left, h, elaborate_keeps_regions_consistent.1 h, direct, listed⟩
  · have scopes : (source.elaborate own).1.toOption.map (fun u =>
        u.unit.content.body.generateScopes) = some [⟨10⟩] := by decide +kernel
    have accepted : (source.elaborate own).1.isOk = true := by decide +kernel
    obtain ⟨u, left, h⟩ := exists_of_isOk accepted
    rw [h] at scopes
    refine ⟨u, congrArg Prod.fst h, ?_, Option.some.inj scopes⟩
    have dealing : Dealing IdCounter.fresh [(source, own)] ⟨14⟩ := by
      refine ⟨⟨(List.range' 1 13).map NodeId.mk, ?_, by decide⟩, by decide +kernel, ?_⟩
      · exact IdCounter.issues_range' 13 (by decide)
      · intro task htask _ exhausted
        cases List.mem_singleton.mp htask
        rw [h] at exhausted
        cases exhausted
    exact elaborate_keeps_regions_consistent.2 dealing (source, own) (List.mem_singleton_self _) u
      (congrArg Prod.fst h)

end DesignTree
