import DesignTree.Body.Grouping
import Mathlib.Data.List.Perm.Basic
/-!
# DesignTree.Proofs.Grouping

The body of a scope as a partition of its nodes.

`Body.ofNodes` takes the nodes of a scope one by one. Seen as a whole, it fails at the first node
that is out of place (`Content.misplacement?`), and otherwise every group holds the nodes of its
kinds in order, which is what `Body.gather` says with one filter per group
(`Body.ofNodes_eq`). The groups together hold every node once (`groups_perm`).
-/

namespace DesignTree

/-- The group of a node, wherever it stands; header ports, slices and generate scopes have
none. -/
def Content.group? (content : Content) : Option Bucket :=
  match content.bucketIn .module with
  | .ok bucket => some bucket
  | .error _ => none

/-- The group in which a declaration is listed. -/
def Declaration.bucket : Declaration → Bucket
  | port _ => .ports
  | net .. => .nets
  | var .. => .vars
  | param .. => .params
  | typedef .. => .typedefs
  | assign .. => .assigns
  | proc _ => .procs

/-- The group in which an item is listed. -/
def SourceItem.bucket : SourceItem → Bucket
  | .declaration _ decl => decl.bucket
  | .inst .. => .insts
  | .unit _ => .nestedUnits
  | .generateIf .. => .generateRegions
  | .generateFor .. => .generateRegions
  | .generateBlock .. => .generateRegions
  | .malformed _ => .generateRegions

/-- What is wrong with a node in a scope of the given kind. -/
def Node.misplacement? (scope : ScopeKind) (node : Node) : Option DesignError :=
  match node.content.bucketIn scope with
  | .ok _ => none
  | .error reason => some (.structural node.span reason)

/-- The nodes that belong to a group. -/
def Node.inGroup (nodes : List Node) (bucket : Bucket) : List Node :=
  nodes.filter fun node => node.content.group? == some bucket

theorem Node.mem_inGroup {nodes : List Node} {bucket : Bucket} {node : Node} :
    node ∈ Node.inGroup nodes bucket ↔ node ∈ nodes ∧ node.content.group? = some bucket := by
  rw [inGroup, List.mem_filter, beq_iff_eq]

/-- A group does not depend on the scope, if the scope has a place for the node at all. -/
theorem Content.group?_of_bucketIn {content : Content} {scope : ScopeKind} {bucket : Bucket}
    (h : content.bucketIn scope = .ok bucket) : content.group? = some bucket := by
  cases content with
  | declaration decl =>
    cases decl with
    | port decl =>
      cases scope with
      | module | interface => cases h; rfl
      | package | generate => cases h
    | _ => cases h; rfl
  | port | portSlice | generateScope => cases h
  | _ => cases h; rfl

namespace Body

/-- The body that lists the given nodes by group, and the given generate scopes. -/
def gather (scope : ScopeKind) (owner : NodeId) (nodes : List Node) (scopes : List NodeId) :
    Body :=
  let ids := fun bucket => (Node.inGroup nodes bucket).map (·.id)
  { scope, parent := owner, ports := ids .ports, nets := ids .nets, vars := ids .vars
    params := ids .params, typedefs := ids .typedefs, insts := ids .insts
    assigns := ids .assigns, procs := ids .procs, subHierarchies := ids .nestedUnits ++ scopes
    generateRegions := ids .generateRegions, spliced := scopes.length }

variable (scope : ScopeKind) (owner : NodeId)

@[simp] theorem nestedUnits_gather (nodes : List Node) (scopes : List NodeId) :
    (gather scope owner nodes scopes).nestedUnits =
      (Node.inGroup nodes .nestedUnits).map (·.id) := by
  simp [nestedUnits, gather]

@[simp] theorem generateScopes_gather (nodes : List Node) (scopes : List NodeId) :
    (gather scope owner nodes scopes).generateScopes = scopes := by
  simp [generateScopes, gather]

@[simp] theorem bucket_gather (nodes : List Node) (scopes : List NodeId) (bucket : Bucket) :
    (gather scope owner nodes scopes).bucket bucket =
      (Node.inGroup nodes bucket).map (·.id) := by
  cases bucket with
  | nestedUnits => exact nestedUnits_gather scope owner nodes scopes
  | _ => rfl

/-- Splicing scopes into the body of some nodes. -/
theorem splice_gather (nodes : List Node) (scopes more : List NodeId) :
    (gather scope owner nodes scopes).splice more = gather scope owner nodes (scopes ++ more) := by
  simp [splice, gather]

/-- A node in front of the others goes to the front of its group. -/
theorem gather_cons {node : Node} {bucket : Bucket} (nodes : List Node) (scopes : List NodeId)
    (h : node.content.group? = some bucket) :
    gather scope owner (node :: nodes) scopes =
      (gather scope owner nodes scopes).cons node.id bucket := by
  cases bucket <;> simp [gather, Body.cons, Node.inGroup, h]

/-- A body depends on the numbers and the groups of the nodes alone. -/
theorem gather_congr {nodes others : List Node} (scopes : List NodeId)
    (h : (nodes.map fun node => (node.id, node.content.group?)) =
      others.map fun node => (node.id, node.content.group?)) :
    gather scope owner nodes scopes = gather scope owner others scopes := by
  have ids : ∀ (list : List Node) (bucket : Bucket), (Node.inGroup list bucket).map (·.id) =
      ((list.map fun node => (node.id, node.content.group?)).filter
        (·.2 == some bucket)).map (·.1) := by
    intro list bucket
    rw [List.filter_map, List.map_map]
    rfl
  simp only [gather, ids, h]

/-- Grouping fails at the first node out of place, and else gathers all of them. -/
theorem ofNodes_eq (nodes : List Node) :
    ofNodes scope owner nodes =
      match nodes.findSome? (Node.misplacement? scope) with
      | some e => .error e
      | none => .ok (gather scope owner nodes []) := by
  induction nodes with
  | nil => rfl
  | cons node rest ih =>
    rw [ofNodes, List.findSome?_cons, Node.misplacement?]
    cases h : node.content.bucketIn scope with
    | error reason => rfl
    | ok bucket =>
      simp only [ih]
      cases rest.findSome? (Node.misplacement? scope) with
      | some e => rfl
      | none => rw [gather_cons scope owner rest [] (Content.group?_of_bucketIn h)]

end Body

/-! ### Groups as a partition -/

/-- The groups that a walk passes before the scopes of generate regions; the regions themselves
come after them. -/
def Bucket.leading : List Bucket :=
  [.ports, .nets, .vars, .params, .typedefs, .insts, .assigns, .procs, .nestedUnits]

theorem Bucket.mem_leading (bucket : Bucket) :
    bucket ∈ leading ++ [Bucket.generateRegions] := by
  cases bucket <;> decide

theorem Body.ids_eq (body : Body) :
    body.ids =
      Bucket.leading.flatMap body.bucket ++ body.generateScopes ++ body.generateRegions := by
  have hierarchies : body.subHierarchies = body.nestedUnits ++ body.generateScopes :=
    (List.take_append_drop ..).symm
  simp [ids, hierarchies, Bucket.leading, bucket]

variable {α κ : Type} [DecidableEq κ]

private theorem flatMap_singleton_of_nodup {key : κ} (a : α) :
    ∀ {keys : List κ}, keys.Nodup → key ∈ keys →
      (keys.flatMap fun k => if key = k then [a] else []) = [a]
  | k :: rest, distinct, h => by
    obtain ⟨absent, distinct⟩ := List.nodup_cons.mp distinct
    rw [List.flatMap_cons]
    by_cases hk : key = k
    · subst hk
      have none : (rest.flatMap fun k => if key = k then [a] else []) = [] :=
        by
        refine List.flatMap_eq_nil_iff.mpr fun k' hk' => if_neg ?_
        exact fun e => absent (e ▸ hk')
      rw [if_pos rfl, none, List.append_nil]
    · rw [if_neg hk, List.nil_append]
      exact flatMap_singleton_of_nodup a distinct ((List.mem_cons.mp h).resolve_left hk)

/-- Filtering a list by every value of a key, one after the other, permutes it. -/
theorem groups_perm (key : α → κ) {keys : List κ} (distinct : keys.Nodup) :
    ∀ {members : List α}, (∀ a ∈ members, key a ∈ keys) →
      (keys.flatMap fun k => members.filter fun a => key a = k).Perm members
  | [], _ => by simp
  | a :: rest, h => by
    have split : ∀ k, ((a :: rest).filter fun b => key b = k) =
        (if key a = k then [a] else []) ++ rest.filter fun b => key b = k := by
      intro k
      by_cases hk : key a = k <;> simp [hk]
    simp only [split]
    refine (List.flatMap_append_perm ..).symm.trans ?_
    rw [flatMap_singleton_of_nodup a distinct (h a (List.mem_cons_self ..))]
    exact (groups_perm key distinct fun b hb => h b (List.mem_cons_of_mem _ hb)).cons a

/-- The groups together hold every member once, if each member has a group. -/
theorem Bucket.grouped_perm {members : List α} (group? : α → Option Bucket)
    (h : ∀ a ∈ members, ∃ bucket, group? a = some bucket) :
    ((leading ++ [Bucket.generateRegions]).flatMap fun bucket =>
      members.filter fun a => group? a = some bucket).Perm members := by
  have distinct : ((leading ++ [Bucket.generateRegions]).map some).Nodup := by decide
  have keyed := groups_perm group? distinct fun a ha => by
    obtain ⟨bucket, hb⟩ := h a ha
    exact hb ▸ List.mem_map_of_mem (mem_leading bucket)
  rwa [List.flatMap_map] at keyed

/-- Generate scopes stand before the last group. Moving them to the end changes no more than the
order. -/
theorem Bucket.scopes_last_perm (group : Bucket → List α) (scopes : List α) :
    (leading.flatMap group ++ scopes ++ group .generateRegions).Perm
      ((leading ++ [Bucket.generateRegions]).flatMap group ++ scopes) := by
  rw [List.flatMap_append, List.flatMap_singleton, List.append_assoc, List.append_assoc]
  exact List.perm_append_comm.append_left _

namespace Body

/-- The declarations of a body, group by group: everything but the scopes of its regions. -/
def declared (body : Body) : List NodeId :=
  (Bucket.leading ++ [Bucket.generateRegions]).flatMap body.bucket

theorem ids_perm (body : Body) : body.ids.Perm (body.declared ++ body.generateScopes) := by
  rw [ids_eq]
  exact Bucket.scopes_last_perm body.bucket body.generateScopes

/-- A body that has a group for every node declares each of them once. -/
theorem declared_gather_perm (scope : ScopeKind) (owner : NodeId) {nodes : List Node}
    (scopes : List NodeId) (h : ∀ node ∈ nodes, ∃ bucket, node.content.group? = some bucket) :
    (gather scope owner nodes scopes).declared.Perm (nodes.map (·.id)) := by
  have buckets : (gather scope owner nodes scopes).bucket = fun bucket =>
      (nodes.filter fun node => node.content.group? = some bucket).map (·.id) := by
    funext bucket
    rw [bucket_gather, Node.inGroup]
    simp only [beq_eq_decide]
  have grouped :=
    (Bucket.grouped_perm (fun node : Node => node.content.group?) h).map (·.id)
  rw [List.map_flatMap] at grouped
  rwa [declared, buckets]

end Body

end DesignTree
