import DesignTree.Proofs.Grouping
/-!
# DesignTree.Proofs.Grouping.Partition

Bodies as partitions, in terms of the kinds of node.

A scope has no place for some kinds (`ScopeKind.misplaced`), and every other kind goes to one
group (`Bucket.kinds`). So the nodes of a scope either contain one that is out of place, or they
fall into the groups, in order and without a loss. The scopes of generate regions that are added
later on leave all groups as they are (`Body.PartitionOf`).
-/

namespace DesignTree

/-- The kinds of node that are listed in a group. -/
def Bucket.kinds : Bucket → List NodeKind
  | .ports => [.portDecl]
  | .nets => [.net]
  | .vars => [.var]
  | .params => [.param]
  | .typedefs => [.typedef]
  | .insts => [.inst]
  | .assigns => [.assign]
  | .procs => [.proc]
  | .nestedUnits => [.unit]
  | .generateRegions => [.generateIf, .generateFor, .generateBlock]

/-- The kinds of node that have no place in a scope. -/
def ScopeKind.misplaced : ScopeKind → List NodeKind
  | .module | .interface => [.port, .portSlice, .generateScope]
  | .package | .generate => [.port, .portSlice, .generateScope, .portDecl]

/-- What is wrong with a node that has no place. -/
def NodeKind.misplacement : NodeKind → Malformation
  | .port | .portSlice => .headerPortAmongItems
  | .generateScope => .generateScopeAmongItems
  | _ => .portDeclOutsideUnit

/-- The body lists the given nodes by kind, and the given scopes of generate regions. -/
structure Body.PartitionOf (scope : ScopeKind) (parent : NodeId) (nodes : List Node)
    (scopes : List NodeId) (body : Body) : Prop where
  scope_eq : body.scope = scope
  parent_eq : body.parent = parent
  /-- A group has the nodes of its kinds, in order. -/
  bucket_eq : ∀ bucket, body.bucket bucket =
    (nodes.filter fun node => node.content.kind ∈ bucket.kinds).map (·.id)
  nestedUnits_eq : body.nestedUnits =
    (nodes.filter fun node => node.content.kind = .unit).map (·.id)
  generateScopes_eq : body.generateScopes = scopes
  subHierarchies_eq : body.subHierarchies = body.nestedUnits ++ body.generateScopes
  ids_perm : body.ids.Perm (nodes.map (·.id) ++ scopes)
  declarationCount_eq : body.declarationCount = nodes.length
  isEmpty_iff : body.isEmpty = true ↔ nodes = [] ∧ scopes = []
  /-- No difference that a view of the body takes is below zero. -/
  spliced_le_subHierarchies : body.spliced ≤ body.subHierarchies.length
  spliced_le_ids : body.spliced ≤ body.ids.length

/-! ### Kinds and groups -/

theorem Content.group?_eq_some_iff {content : Content} {bucket : Bucket} :
    content.group? = some bucket ↔ content.kind ∈ bucket.kinds := by
  cases content with
  | declaration decl =>
    cases decl <;> cases bucket <;>
      simp [group?, bucketIn, kind, Declaration.nodeKind, Bucket.kinds]
  | _ => cases bucket <;> simp [group?, bucketIn, kind, Bucket.kinds]

theorem Content.bucketIn_eq_error_iff {content : Content} {scope : ScopeKind}
    {reason : Malformation} :
    content.bucketIn scope = .error reason ↔
      content.kind ∈ scope.misplaced ∧ content.kind.misplacement = reason := by
  cases content with
  | declaration decl =>
    cases decl <;> cases scope <;>
      simp [bucketIn, kind, Declaration.nodeKind, ScopeKind.misplaced, NodeKind.misplacement]
  | _ => cases scope <;> simp [bucketIn, kind, ScopeKind.misplaced, NodeKind.misplacement]

/-- A node is out of place by its kind. -/
theorem Node.misplacement?_eq (scope : ScopeKind) (node : Node) :
    node.misplacement? scope =
      if node.content.kind ∈ scope.misplaced then
        some (.structural node.span node.content.kind.misplacement)
      else none := by
  rw [misplacement?]
  cases h : node.content.bucketIn scope with
  | error reason =>
    obtain ⟨misplaced, rfl⟩ := Content.bucketIn_eq_error_iff.mp h
    rw [if_pos misplaced]
  | ok bucket =>
    refine (if_neg fun misplaced => ?_).symm
    have refused := Content.bucketIn_eq_error_iff.mpr ⟨misplaced, rfl⟩
    cases h.symm.trans refused

/-- A node that is in place has a group. -/
theorem Content.exists_group? {content : Content} {scope : ScopeKind}
    (h : content.kind ∉ scope.misplaced) : ∃ bucket, content.group? = some bucket := by
  cases hbucket : content.bucketIn scope with
  | error reason => exact absurd (Content.bucketIn_eq_error_iff.mp hbucket).1 h
  | ok bucket => exact ⟨bucket, group?_of_bucketIn hbucket⟩

/-- A group in terms of kinds. -/
theorem Node.inGroup_eq (nodes : List Node) (bucket : Bucket) :
    Node.inGroup nodes bucket = nodes.filter fun node => node.content.kind ∈ bucket.kinds := by
  refine List.filter_congr fun node _ => ?_
  rw [beq_eq_decide]
  exact decide_eq_decide.mpr Content.group?_eq_some_iff

/-! ### The nodes of a scope -/

namespace Body

variable {scope : ScopeKind} {parent : NodeId} {nodes : List Node} {body : Body}

/-- The first node out of place is the error. -/
theorem ofNodes_of_find?_eq_some {first : Node}
    (h : nodes.find? (fun node => node.content.kind ∈ scope.misplaced) = some first) :
    ofNodes scope parent nodes =
      .error (.structural first.span first.content.kind.misplacement) := by
  obtain ⟨misplaced, before, after, rfl, placed⟩ := List.find?_eq_some_iff_append.mp h
  have earlier : before.findSome? (Node.misplacement? scope) = none := by
    refine List.findSome?_eq_none_iff.mpr fun node hnode => ?_
    rw [Node.misplacement?_eq]
    exact if_neg (by simpa using placed node hnode)
  have refused : first.misplacement? scope =
      some (.structural first.span first.content.kind.misplacement) := by
    rw [Node.misplacement?_eq]
    exact if_pos (of_decide_eq_true misplaced)
  rw [ofNodes_eq, List.findSome?_append, earlier, Option.none_or, List.findSome?_cons, refused]

/-- Nodes that are all in place are gathered. -/
theorem ofNodes_of_placed (h : ∀ node ∈ nodes, node.content.kind ∉ scope.misplaced) :
    ofNodes scope parent nodes = .ok (gather scope parent nodes []) := by
  have none : nodes.findSome? (Node.misplacement? scope) = none := by
    refine List.findSome?_eq_none_iff.mpr fun node hnode => ?_
    rw [Node.misplacement?_eq, if_neg (h node hnode)]
  rw [ofNodes_eq, none]

/-- Adding scopes bit by bit is adding them all. -/
theorem foldl_splice_gather (scopes : List NodeId) (splices : List (List NodeId)) :
    splices.foldl splice (gather scope parent nodes scopes) =
      gather scope parent nodes (scopes ++ splices.flatten) := by
  induction splices generalizing scopes with
  | nil => simp
  | cons more rest ih =>
    rw [List.foldl_cons, splice_gather, ih, List.flatten_cons, List.append_assoc]

/-- A body with all its nodes in place has the number of each of them once, and the scopes. -/
theorem ids_gather_perm (parent : NodeId) (scopes : List NodeId)
    (h : ∀ node ∈ nodes, node.content.kind ∉ scope.misplaced) :
    (gather scope parent nodes scopes).ids.Perm (nodes.map (·.id) ++ scopes) := by
  have declared := declared_gather_perm scope parent scopes fun node hnode =>
    Content.exists_group? (h node hnode)
  refine (ids_perm _).trans ?_
  rw [generateScopes_gather]
  exact declared.append_right scopes

/-- What is gathered of nodes in place is their partition. -/
theorem partitionOf_gather (scopes : List NodeId)
    (h : ∀ node ∈ nodes, node.content.kind ∉ scope.misplaced) :
    (gather scope parent nodes scopes).PartitionOf scope parent nodes scopes := by
  have perm := ids_gather_perm parent scopes h
  have length : (gather scope parent nodes scopes).ids.length = nodes.length + scopes.length := by
    rw [perm.length_eq, List.length_append, List.length_map]
  exact {
    scope_eq := rfl
    parent_eq := rfl
    bucket_eq := fun bucket => by rw [bucket_gather, Node.inGroup_eq]
    nestedUnits_eq := by
      rw [nestedUnits_gather, Node.inGroup_eq]
      simp only [Bucket.kinds, List.mem_singleton]
    generateScopes_eq := generateScopes_gather scope parent nodes scopes
    subHierarchies_eq := (List.take_append_drop ..).symm
    ids_perm := perm
    declarationCount_eq := by
      rw [declarationCount, length]
      exact Nat.add_sub_cancel_right nodes.length scopes.length
    isEmpty_iff := by
      rw [isEmpty, List.isEmpty_iff, ← List.length_eq_zero_iff, length, Nat.add_eq_zero_iff,
        List.length_eq_zero_iff, List.length_eq_zero_iff]
    spliced_le_subHierarchies := by simp [gather]
    spliced_le_ids := length ▸ Nat.le_add_left .. }

/-- Whether the nodes of a scope can be grouped depends on their kinds:

* grouping fails if a node is out of place, and only then;
* the error is that of the first such node, at its place in the source;
* otherwise there is a body, which falls into the nodes by kind, in order, and into the scopes
  that are added to it later on, however many and in how many steps. -/
theorem ofNodes_partitions (scope : ScopeKind) (parent : NodeId) (nodes : List Node) :
    ((∃ e, ofNodes scope parent nodes = .error e) ↔
      ∃ node ∈ nodes, node.content.kind ∈ scope.misplaced) ∧
    (∀ first, nodes.find? (fun node => node.content.kind ∈ scope.misplaced) = some first →
      ofNodes scope parent nodes =
        .error (.structural first.span first.content.kind.misplacement)) ∧
    ((∀ node ∈ nodes, node.content.kind ∉ scope.misplaced) →
      ∃ body, ofNodes scope parent nodes = .ok body ∧ ∀ splices : List (List NodeId),
        (splices.foldl splice body).PartitionOf scope parent nodes splices.flatten) := by
  refine ⟨⟨fun ⟨e, h⟩ => ?_, fun ⟨node, hnode, misplaced⟩ => ?_⟩,
    fun first => ofNodes_of_find?_eq_some, fun h => ⟨_, ofNodes_of_placed h, fun splices => ?_⟩⟩
  · by_contra placed
    have accepted : ofNodes scope parent nodes = .ok (gather scope parent nodes []) :=
      ofNodes_of_placed fun node hnode misplaced => placed ⟨node, hnode, misplaced⟩
    cases h.symm.trans accepted
  · have found : (nodes.find? fun node => node.content.kind ∈ scope.misplaced).isSome = true :=
      List.find?_isSome.mpr ⟨node, hnode, decide_eq_true misplaced⟩
    obtain ⟨first, hfirst⟩ := Option.isSome_iff_exists.mp found
    exact ⟨_, ofNodes_of_find?_eq_some hfirst⟩
  · rw [foldl_splice_gather]
    exact partitionOf_gather _ h

/-- Two procedures around a nested unit and a region, in a package; a port declaration among them
is refused. -/
theorem ofNodes_of_package :
    let item := fun id content => (⟨⟨id⟩, .point .dummy 7, content⟩ : Node)
    let nested : DesignUnit := ⟨.module, .empty, .dummy, [], .empty .module ⟨3⟩⟩
    let nodes := [item 2 (.declaration (.proc .initial)), item 3 (.unit nested),
      item 4 (.generateBlock ⟨none, none⟩), item 5 (.declaration (.proc .final))]
    let port := item 6 (.declaration (.port ⟨.input, .net .wire, .implicit .dummy, []⟩))
    (∃ body, ofNodes .package ⟨1⟩ nodes = .ok body ∧
      (body.splice [⟨7⟩, ⟨8⟩]).bucket .procs = [⟨2⟩, ⟨5⟩] ∧
      (body.splice [⟨7⟩, ⟨8⟩]).subHierarchies = [⟨3⟩, ⟨7⟩, ⟨8⟩] ∧
      (body.splice [⟨7⟩, ⟨8⟩]).declarationCount = 4) ∧
    ofNodes .package ⟨1⟩ (nodes ++ [port]) =
      .error (.structural (.point .dummy 7) .portDeclOutsideUnit) := by
  intro item nested nodes port
  constructor
  · obtain ⟨body, hbody, hparts⟩ := (ofNodes_partitions .package ⟨1⟩ nodes).2.2 (by decide)
    have parts := hparts [[⟨7⟩, ⟨8⟩]]
    refine ⟨body, hbody, parts.bucket_eq .procs, ?_, parts.declarationCount_eq⟩
    exact parts.subHierarchies_eq.trans
      (congrArg₂ (· ++ ·) parts.nestedUnits_eq parts.generateScopes_eq)
  · exact (ofNodes_partitions .package ⟨1⟩ (nodes ++ [port])).2.1 port (by decide)

end Body

end DesignTree
