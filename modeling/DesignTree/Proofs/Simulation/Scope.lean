import DesignTree.Elaboration.Scope
import DesignTree.Proofs.Simulation.Header
/-!
# DesignTree.Proofs.Simulation.Scope

Elaboration does what the layout says: a run of `elaborateUnit` goes as the audit of the unit
says, and if it succeeds it returns the laid-out unit and adds the nodes below it to the index
(`runs_elaborateUnit`).

The proof is a mutual induction over the source tree, one statement for each function of the
elaboration. A scope is where its three steps meet: the nodes of the items were drawn in the
first, but are registered in the last, after all nodes of the regions. They are still free then,
for a layout uses every number once (`runs_elaborateScope`).
-/

namespace DesignTree

open NodeTree Layout Elaboration

variable {σ : Type} [IdSupply σ] {plan : Schedule σ}

/-! ### Markers -/

/-- Whether a region is expanded makes no difference to what is below its marker. -/
theorem lowerNodes_itemTree (name : Nat → NodeId) (item : SourceItem) (k : Nat)
    (scopes others : List NodeId) :
    (itemTree name item k scopes).lowerNodes = (itemTree name item k others).lowerNodes := by
  cases item <;> rfl

theorem flatMap_lowerNodes_itemTrees (name : Nat → NodeId) (items : List SourceItem)
    (k q q' : Nat) :
    (itemTrees name items k q).flatMap lowerNodes =
      (itemTrees name items k q').flatMap lowerNodes := by
  induction items generalizing k q q' with
  | nil => rfl
  | cons item rest ih =>
    rw [itemTrees, itemTrees, List.flatMap_cons, List.flatMap_cons, ih _ _ (q' + item.expandCost),
      lowerNodes_itemTree name item k]

theorem map_group?_markers (name : Nat → NodeId) (items : List SourceItem) (k q : Nat) :
    ((markers name items k).map fun node => (node.id, node.content.group?)) =
      ((itemTrees name items k q).map NodeTree.node).map fun node =>
        (node.id, node.content.group?) := by
  induction items generalizing k q with
  | nil => rfl
  | cons item rest ih =>
    rw [markers, itemTrees, List.map_cons, List.map_cons, List.map_cons,
      ih _ (q + item.expandCost), group?_itemTree, group?_itemTree]
    exact congrArg (fun id => (id, _) :: _)
      ((id_itemTree name item k _).trans (id_itemTree name item k _).symm)

theorem misplacement?_itemTree (name : Nat → NodeId) (scope : ScopeKind) (item : SourceItem)
    (k : Nat) : (itemTree name item k []).node.misplacement? scope = item.misplacement? scope := by
  cases item with
  | unit nested => cases nested; rfl
  | declaration span decl =>
    cases decl with
    | port decl => cases scope <;> rfl
    | _ => rfl
  | _ => rfl

theorem findSome?_markers (name : Nat → NodeId) (scope : ScopeKind) (items : List SourceItem)
    (k : Nat) :
    (markers name items k).findSome? (Node.misplacement? scope) =
      items.findSome? (·.misplacement? scope) := by
  induction items generalizing k with
  | nil => rfl
  | cons item rest ih =>
    rw [markers, List.findSome?_cons, List.findSome?_cons, misplacement?_itemTree, ih]

/-- Grouping the markers of a scope. -/
theorem runs_ofNodes_markers {scope : ScopeKind} {owner : NodeId} {items : List SourceItem}
    {k p : Nat} {nodes : NodeIndex} (hk : k ≤ plan.limit) :
    Runs plan k nodes (Elaboration.ofExcept (Body.ofNodes scope owner (markers plan.name items p)))
      (.check (items.findSome? (·.misplacement? scope)))
      (.gather scope owner ((members plan.name items p).map NodeTree.node) []) [] := by
  rw [Body.ofNodes_eq, findSome?_markers,
    Body.gather_congr scope owner [] (map_group?_markers plan.name items p _)]
  cases items.findSome? (·.misplacement? scope) with
  | some e => exact .throw e hk
  | none => exact .pure _ hk

/-! ### Registering -/

theorem runs_registerAll {k : Nat} (hk : k ≤ plan.limit) :
    ∀ {made : List Node} {nodes : NodeIndex}, (made.map (·.id)).Nodup →
      (∀ node ∈ made, nodes.get? node.id = none) →
      Runs plan k nodes (registerAll made) (.pass 0) () made
  | [], _, _, _ => .pure () hk
  | node :: rest, nodes, hdistinct, hfree => by
    obtain ⟨hnode, hrest⟩ := List.nodup_cons.mp hdistinct
    have run : Runs plan k nodes (registerAll (node :: rest))
        ((Audit.pass 0).andThen (.pass 0)) () ([node] ++ rest) := by
      refine (Runs.register hk (hfree node (List.mem_cons_self ..))).bind
        fun _ _ middle hmiddle => runs_registerAll hk hrest fun other hother => ?_
      refine hmiddle.get?_eq_none (hfree other (List.mem_cons_of_mem _ hother)) ?_
      intro first hfirst hid
      rw [List.mem_singleton.mp hfirst] at hid
      exact hnode (List.mem_map.mpr ⟨other, hother, hid.symm⟩)
    exact run

/-! ### Scopes -/

/-- The three steps of a scope together, given the first and the last of them. -/
theorem runs_elaborateScope {scope : ScopeKind} {owner : NodeId} {items : List SourceItem}
    {k : Nat} {nodes : NodeIndex} (hfree : plan.Free k nodes)
    (hdeclare : Runs plan k nodes (elaborateItems items) (declareAudits items)
      (markers plan.name items k) ((members plan.name items k).flatMap lowerNodes))
    (hexpand : (declareAudits items).fault = none → k + declareCosts items ≤ plan.limit →
      ∀ after, plan.Free (k + declareCosts items) after →
        Runs plan (k + declareCosts items) after (expandItems items (markers plan.name items k))
          (expandAudits items)
          ((members plan.name items k).map NodeTree.node,
            (scopes plan.name items k).map NodeTree.id)
          (nodesOf (scopes plan.name items k))) :
    Runs plan k nodes
      (elaborateScope scope owner (elaborateItems items) (expandItems items))
      (auditScope scope items (declareAudits items) (expandAudits items))
      (.gather scope owner ((members plan.name items k).map NodeTree.node)
        ((scopes plan.name items k).map NodeTree.id))
      (nodesOf (arrange (members plan.name items k) (scopes plan.name items k))) := by
  have numbered := numbered_arrange plan.name items k
  have all : (nodesOf (arrange (members plan.name items k) (scopes plan.name items k))).Perm
      ((members plan.name items k).flatMap lowerNodes ++
        (nodesOf (scopes plan.name items k) ++ (members plan.name items k).map NodeTree.node)) := by
    refine (nodesOf_perm (arrange_members_perm plan.name items k)).trans ?_
    rw [nodesOf_append]
    refine ((nodesOf_perm_roots _).append_right _).trans ?_
    rw [List.append_assoc]
    exact List.perm_append_comm.trans (by rw [List.append_assoc])
  -- The nodes of the items are registered last, so their numbers must differ from all others.
  have distinct := (all.map (·.id)).nodup_iff.mp (numbered.nodup plan.name_injective)
  rw [← List.append_assoc, List.map_append, List.nodup_append] at distinct
  rw [elaborateScope, withinScope_eq, auditScope, Audit.andThen_assoc]
  refine .perm ?_ all.symm
  refine hdeclare.bind fun sound enough middle hmiddle => ?_
  rw [draws_declareAudits sound] at enough ⊢
  have hfree' : plan.Free (k + declareCosts items) middle := by
    refine hfree.adds hmiddle (Nat.le_add_right ..) fun node hnode => ?_
    have hmem : node ∈ nodesOf (members plan.name items k) :=
      (nodesOf_perm_roots _).mem_iff.mpr (List.mem_append_right _ hnode)
    obtain ⟨i, -, hlt, hname⟩ := (numbered_itemTrees plan.name items k _).exists_position hmem
    exact ⟨i, hlt, hname⟩
  rw [← List.nil_append (nodesOf _ ++ _), ← Audit.andThen_pass_zero (expandAudits items)]
  refine (runs_ofNodes_markers enough).bind fun _ _ after hafter => ?_
  refine (hexpand sound enough after (hfree'.adds hafter (Nat.le_refl _) (by simp))).bind
    fun _ enough' last hlast => ?_
  refine (runs_registerAll enough' ?_ fun root hroot => ?_).map
    (congrArg _ (Body.splice_gather scope owner _ [] _))
  · exact distinct.2.1
  · -- The item's number was drawn before anything was added, and nothing that was has it.
    have hmem : root ∈ nodesOf (members plan.name items k) :=
      (nodesOf_perm_roots _).mem_iff.mpr (List.mem_append_left _ hroot)
    obtain ⟨i, hle, -, hname⟩ := (numbered_itemTrees plan.name items k _).exists_position hmem
    refine ((hmiddle.append hafter).append hlast).get?_eq_none (hname ▸ hfree i hle) ?_
    intro node hnode hid
    rw [List.append_nil] at hnode
    exact distinct.2.2 _ (List.mem_map_of_mem hnode) _ (List.mem_map_of_mem hroot) hid

/-- A region with a single scope. -/
theorem Runs.single {β : Type} {k : Nat} {nodes : NodeIndex} {x : Elaboration σ NodeId}
    {audit : Audit} {tree : NodeTree} {f : NodeId → Elaboration σ β} {w : β}
    (hx : Runs plan k nodes x audit tree.id tree.nodes) (hf : f tree.id = Pure.pure w) :
    Runs plan k nodes (x >>= f) audit w (nodesOf [tree]) :=
  (hx.map hf).perm (.of_eq (nodesOf_singleton tree).symm)

/-- A loop over the values of a genvar, one block after the other. -/
theorem runs_mapM {α : Type} {f : α → Elaboration σ NodeId} {make : α → Nat → NodeTree}
    {audit : Audit} {cost : Nat} (hcost : audit.fault = none → audit.draws = cost)
    (hnumbered : ∀ a k, Numbered plan.name [make a k] k cost)
    (hf : ∀ a {k nodes}, k ≤ plan.limit → plan.Free k nodes →
      Runs plan k nodes (f a) audit (make a k).id (make a k).nodes) :
    ∀ (list : List α) {k : Nat} {nodes : NodeIndex}, k ≤ plan.limit → plan.Free k nodes →
      Runs plan k nodes (list.mapM f) (audit.times list.length)
        ((spread cost make list k).map NodeTree.id) (nodesOf (spread cost make list k))
  | [], _, _, hk, _ => .pure [] hk
  | a :: rest, k, nodes, hk, hfree => by
    rw [List.mapM_cons, List.length_cons, Audit.times, spread, nodesOf_cons]
    refine (hf a hk hfree).bind fun sound enough middle hmiddle => ?_
    rw [hcost sound] at enough ⊢
    rw [← nodesOf_singleton] at hmiddle
    have later := hfree.adds_numbered hmiddle (hnumbered a k) (Nat.le_add_right ..)
    exact (runs_mapM hcost hnumbered hf rest enough later).map rfl

/-! ### The simulation -/

mutual

/-- A unit. Its own node is not registered here; whoever takes the unit does that. -/
theorem runs_elaborateUnit :
    ∀ (source : SourceUnit) {k : Nat} {nodes : NodeIndex}, k ≤ plan.limit →
      plan.Free k nodes →
      Runs plan k nodes (elaborateUnit source) source.audit (placedUnit plan.name source k)
        (unitTree plan.name source k).lowerNodes
  | ⟨kind, unitName, nameSpan, span, header, items⟩, k, nodes, hk, hfree => by
    rw [elaborateUnit, SourceUnit.audit]
    by_cases refused : kind = .package ∧ header.isEmpty = false
    · rw [if_pos refused, if_pos refused]
      exact .throw _ hk
    rw [if_neg refused, if_neg refused, Audit.andThen_assoc]
    refine .perm ?_ (List.perm_append_comm.trans (.of_eq (nodesOf_append ..).symm))
    refine .draw hk hfree fun enough first same => ?_
    have free := same.mono (Nat.le_succ k)
    refine (runs_elaborateScope free (runs_elaborateItems items enough free)
      fun sound enough after hafter => runs_expandItems items sound enough hafter).bind
      fun sound enough second hsecond => ?_
    rw [draws_auditScope_items sound] at enough ⊢
    have numbered := numbered_arrange plan.name items (k + 1)
    have later := free.adds_numbered hsecond numbered (Nat.le_add_right ..)
    -- The header reads the declarations of the items, which are all in the index by now.
    have present : ∀ node ∈ (members plan.name items (k + 1)).map NodeTree.node,
        second.get? node.id = some node := by
      intro node hnode
      refine hsecond.get?_of_mem ?_
      refine (nodesOf_perm (arrange_members_perm plan.name items (k + 1))).mem_iff.mpr ?_
      rw [nodesOf_append]
      exact List.mem_append_left _
        ((nodesOf_perm_roots _).mem_iff.mpr (List.mem_append_left _ hnode))
    rw [← Nat.add_assoc] at enough later ⊢
    exact (runs_elaborateHeader rfl rfl present enough later).map rfl

/-- An item by itself; of a region only the marker is made. -/
theorem runs_elaborateItem :
    ∀ (item : SourceItem) {k : Nat} {nodes : NodeIndex}, k ≤ plan.limit → plan.Free k nodes →
      Runs plan k nodes (elaborateItem item) item.declareAudit
        (itemTree plan.name item k []).node (itemTree plan.name item k []).lowerNodes
  | .declaration _ _, _, _, hk, _ => (Runs.drawId hk).map rfl
  | .inst _ _ _, _, _, hk, _ => (Runs.drawId hk).map rfl
  | .unit nested, _, _, hk, hfree => by
    cases nested
    exact (runs_elaborateUnit _ hk hfree).map rfl
  | .generateIf _ _ none _ _, _, _, hk, _ => .throw _ hk
  | .generateIf _ _ (some _) _ _, _, _, hk, _ => (Runs.drawId hk).map rfl
  | .generateFor _ _ _ none _, _, _, hk, _ => .throw _ hk
  | .generateFor _ _ _ (some _) _, _, _, hk, _ => (Runs.drawId hk).map rfl
  | .generateBlock _ _ _, _, _, hk, _ => (Runs.drawId hk).map rfl
  | .malformed _, _, _, hk, _ => .throw _ hk

/-- The items of a scope. Of their own nodes none is registered yet. -/
theorem runs_elaborateItems :
    ∀ (items : List SourceItem) {k : Nat} {nodes : NodeIndex}, k ≤ plan.limit →
      plan.Free k nodes →
      Runs plan k nodes (elaborateItems items) (declareAudits items)
        (markers plan.name items k) ((members plan.name items k).flatMap lowerNodes)
  | [], _, _, hk, _ => .pure [] hk
  | item :: rest, k, nodes, hk, hfree => by
    rw [elaborateItems, declareAudits, markers, members, itemTrees, List.flatMap_cons,
      lowerNodes_itemTree plan.name item k _ []]
    refine (runs_elaborateItem item hk hfree).bind fun sound enough middle hmiddle => ?_
    rw [SourceItem.draws_declareAudit sound] at enough ⊢
    -- What was added lies below the item, within the positions that the item takes.
    have later : plan.Free (k + item.declareCost) middle := by
      refine hfree.adds hmiddle (Nat.le_add_right ..) fun node hnode => ?_
      have hmem : node ∈ nodesOf [itemTree plan.name item k []] := by
        rw [nodesOf_singleton, nodes_eq]
        exact List.mem_cons_of_mem _ hnode
      obtain ⟨i, -, hlt, hname⟩ := (numbered_itemTree plan.name item k []).exists_position hmem
      exact ⟨i, hlt, hname⟩
    refine .perm ((runs_elaborateItems rest enough later).map rfl) (.of_eq ?_)
    exact flatMap_lowerNodes_itemTrees plan.name rest _ _ _

/-- The region of an item whose marker was made. -/
theorem runs_expandItem :
    ∀ (item : SourceItem) {k q : Nat} {nodes : NodeIndex}, item.declareAudit.fault = none →
      q ≤ plan.limit → plan.Free q nodes →
      Runs plan q nodes (expandItem item (itemTree plan.name item k []).node) item.expandAudit
        ((itemTree plan.name item k
            ((itemScopes plan.name item (plan.name k) q).map NodeTree.id)).node,
          (itemScopes plan.name item (plan.name k) q).map NodeTree.id)
        (nodesOf (itemScopes plan.name item (plan.name k) q))
  | .declaration _ _, _, _, _, _, hq, _ => .pure _ hq
  | .inst _ _ _, _, _, _, _, hq, _ => .pure _ hq
  | .unit nested, _, _, _, _, hq, _ => .pure _ hq
  | .generateIf _ _ none _ _, _, _, _, habsurd, _, _ => by
    simp [SourceItem.declareAudit] at habsurd
  | .generateIf _ _ (some true) thenBlock _, _, _, _, _, hq, hfree =>
    (runs_elaborateBlock thenBlock _ .thenBranch hq hfree).single rfl
  | .generateIf _ _ (some false) _ none, _, _, _, _, hq, _ => .pure _ hq
  | .generateIf _ _ (some false) _ (some elseBlock), _, _, _, _, hq, hfree =>
    (runs_elaborateBlock elseBlock _ .elseBranch hq hfree).single rfl
  | .generateFor _ _ _ none _, _, _, _, habsurd, _, _ => by
    simp [SourceItem.declareAudit] at habsurd
  | .generateFor _ _ _ (some iterations) block, _, _, _, _, hq, hfree =>
    (runs_mapM SourceBlock.draws_audit
      (fun value k => numbered_blockTree plan.name block _ (.iteration value) k)
      (fun value {_ _} hk hfree => runs_elaborateBlock block _ (.iteration value) hk hfree)
      iterations hq hfree).map rfl
  | .generateBlock _ _ block, _, _, _, _, hq, hfree =>
    (runs_elaborateBlock block _ .block hq hfree).single rfl
  | .malformed _, _, _, _, habsurd, _, _ => by
    simp [SourceItem.declareAudit] at habsurd

/-- The regions of a scope whose markers were made. -/
theorem runs_expandItems :
    ∀ (items : List SourceItem) {k q : Nat} {nodes : NodeIndex},
      (declareAudits items).fault = none → q ≤ plan.limit → plan.Free q nodes →
      Runs plan q nodes (expandItems items (markers plan.name items k)) (expandAudits items)
        ((itemTrees plan.name items k q).map NodeTree.node,
          (scopeTrees plan.name items k q).map NodeTree.id)
        (nodesOf (scopeTrees plan.name items k q))
  | [], _, _, _, _, hq, _ => .pure _ hq
  | item :: rest, k, q, nodes, hsound, hq, hfree => by
    obtain ⟨hitem, hrest⟩ := Audit.fault_andThen_eq_none.mp hsound
    rw [markers, expandItems, expandAudits, scopeTrees, nodesOf_append]
    refine (runs_expandItem item hitem hq hfree).bind fun sound enough middle hmiddle => ?_
    rw [SourceItem.draws_expandAudit sound] at enough ⊢
    have later := hfree.adds_numbered hmiddle (numbered_itemScopes plan.name item (plan.name k) q)
      (Nat.le_add_right ..)
    refine (runs_expandItems rest hrest enough later).map ?_
    rw [itemTrees, List.map_cons, List.map_append]

/-- A block that is elaborated. Its node comes last, and is complete by then. -/
theorem runs_elaborateBlock :
    ∀ (source : SourceBlock) (region : NodeId) (branch : Branch) {k : Nat} {nodes : NodeIndex},
      k ≤ plan.limit → plan.Free k nodes →
      Runs plan k nodes (elaborateBlock source region branch) source.audit
        (blockTree plan.name source region branch k).id
        (blockTree plan.name source region branch k).nodes
  | ⟨span, label, items⟩, region, branch, k, nodes, hk, hfree => by
    rw [elaborateBlock, SourceBlock.audit, id_blockTree, nodes_eq, blockTree_eq]
    refine .perm ?_ (List.perm_append_singleton ..)
    refine .draw hk hfree fun enough first same => ?_
    have free := same.mono (Nat.le_succ k)
    rw [← Audit.andThen_pass_zero (auditScope _ _ _ _)]
    refine (runs_elaborateScope free (runs_elaborateItems items enough free)
      fun sound enough after hafter => runs_expandItems items sound enough hafter).bind
      fun sound enough second hsecond => ?_
    have numbered := numbered_arrange plan.name items (k + 1)
    have unused : second.get? (plan.name k) = none := by
      refine hsecond.get?_eq_none (same k (Nat.le_refl k)) fun node hnode hid => ?_
      obtain ⟨i, hle, -, hname⟩ := numbered.exists_position hnode
      have equal : i = k := plan.name_injective (hname.symm.trans hid)
      omega
    exact (Runs.register enough unused).map rfl

end

end DesignTree
