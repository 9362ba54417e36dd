import DesignTree.Proofs.Outcome
import DesignTree.Proofs.Outline.Complete
import DesignTree.Proofs.Walk
/-!
# DesignTree.Proofs.Faithful

An elaborated unit is what the source says: its outline, looked up in the index number by number,
is the outline of the source unit, and nothing is missing in it (`outline_elaborate`).

The layout stands between the two. If an index resolves a laid-out tree, the outline at its root
is that of the source, by induction over the source tree; the depth left at a node must cover
what the node costs.
-/

namespace DesignTree

open NodeTree Layout

variable {name : Nat → NodeId} {index : NodeIndex}

/-! ### Looking up roots -/

theorem outlineAt_of_resolves {tree : NodeTree} (depth : Nat) (h : index.Resolves [tree]) :
    index.outlineAt (depth + 1) tree.id = Node.outline (index.outlineAt depth) tree.node := by
  rw [NodeIndex.outlineAt, h.head]

/-- A node that owns nothing. -/
theorem outlineAt_leaf {k depth : Nat} {span : Span} {content : Content}
    (h : index.Resolves [leaf name k span content]) (enough : 1 ≤ depth)
    (hplain : ∀ resolve, Node.outline resolve (leaf name k span content).node =
      .plain span content.unlinked) :
    index.outlineAt depth (name k) = .plain span content.unlinked := by
  obtain ⟨left, rfl⟩ : ∃ left, depth = left + 1 := ⟨depth - 1, by omega⟩
  exact (outlineAt_of_resolves left h).trans (hplain _)

/-- Looking up the entries of a list one by one. -/
theorem map_outlineAt_spread {α : Type} {cost depth : Nat} {make : α → Nat → NodeTree}
    {outline : α → Outline} (list : List α) {k : Nat}
    (h : ∀ a ∈ list, ∀ k, index.Resolves [make a k] →
      index.outlineAt depth (make a k).id = outline a)
    (hresolves : index.Resolves (spread cost make list k)) :
    ((spread cost make list k).map NodeTree.id).map (index.outlineAt depth) =
      list.map outline := by
  induction list generalizing k with
  | nil => rfl
  | cons a rest ih =>
    rw [spread, ← List.singleton_append, NodeIndex.resolves_append] at hresolves
    have later := ih (fun b hb => h b (List.mem_cons_of_mem _ hb)) hresolves.2
    rw [spread, List.map_cons, List.map_cons, List.map_cons,
      h a (List.mem_cons_self ..) k hresolves.1, later]

/-! ### Headers -/

variable {items : List SourceItem} {declared : List DeclaredPort}

/-- The slices of references that are all declared. -/
theorem map_outlineAt_refTrees
    (hnames : declared.map ({ · with base := default }) = declaredNames items)
    {refs : List PortRef} {k depth : Nat} (sound : (auditRefs items refs).fault = none)
    (hresolves : index.Resolves (refTrees name declared refs k)) (enough : refs.length ≤ depth) :
    ((refTrees name declared refs k).map NodeTree.id).map (index.outlineAt depth) =
      refs.map (refOutline items) := by
  unfold refTrees at hresolves ⊢
  refine map_outlineAt_spread refs (fun ref href k hleaf => ?_) hresolves
  have positive : 1 ≤ depth := Nat.le_trans (List.length_pos_of_mem href) enough
  obtain ⟨found, hfound⟩ := exists_declaredName sound href
  obtain ⟨port, hport, hbase⟩ : ∃ port, declared.find? (·.name == ref.name) = some port ∧
      { port with base := default } = found := by
    rw [← hnames, List.find?_map] at hfound
    exact Option.map_eq_some_iff.mp hfound
  -- The two differ in the number of the declaration alone, and the outline leaves that out.
  refine (outlineAt_leaf hleaf positive fun _ => rfl).trans ?_
  rw [refOutline, hfound, hport, ← hbase]
  rfl

/-- The slices of a header entry. -/
theorem map_outlineAt_sliceTrees
    (hnames : declared.map ({ · with base := default }) = declaredNames items)
    {previous : Option AnsiPort} {entry : HeaderEntry} {k depth : Nat}
    (sound : (entry.auditSlices items).fault = none)
    (hresolves : index.Resolves (sliceTrees name declared previous entry k))
    (enough : entry.sliceCount ≤ depth) :
    ((sliceTrees name declared previous entry k).map NodeTree.id).map (index.outlineAt depth) =
      sliceOutlines items previous entry := by
  cases entry with
  | ansi span entry =>
    exact congrArg (fun outline => [outline]) (outlineAt_leaf hresolves enough fun _ => rfl)
  | named span outer refs =>
    cases refs with
    | none => rfl
    | some refs => exact map_outlineAt_refTrees hnames sound hresolves enough
  | unnamed span refs => exact map_outlineAt_refTrees hnames sound hresolves enough

/-- The ports of a header. -/
theorem map_outlineAt_entryTrees
    (hnames : declared.map ({ · with base := default }) = declaredNames items) {depth : Nat} :
    ∀ {previous : Option AnsiPort} {entries : List HeaderEntry} {k : Nat},
      (auditEntries items entries).fault = none →
      index.Resolves (entryTrees name declared previous entries k) →
      headerCost entries ≤ depth →
      ((entryTrees name declared previous entries k).map NodeTree.id).map (index.outlineAt depth) =
        portOutlines items previous entries
  | _, [], _, _, _, _ => rfl
  | previous, entry :: rest, k, sound, hresolves, enough => by
    obtain ⟨hentry, hrest⟩ := Audit.fault_andThen_eq_none.mp sound
    obtain ⟨-, hslices⟩ := Audit.fault_andThen_eq_none.mp hentry
    rw [headerCost, HeaderEntry.cost] at enough
    obtain ⟨left, rfl⟩ : ∃ left, depth = left + 1 := ⟨depth - 1, by omega⟩
    rw [entryTrees, ← List.singleton_append, NodeIndex.resolves_append] at hresolves
    have slicesFit : entry.sliceCount ≤ left := by omega
    have restFits : headerCost rest ≤ left + 1 := by omega
    have slices := map_outlineAt_sliceTrees hnames hslices hresolves.1.below slicesFit
    have later := map_outlineAt_entryTrees hnames hrest hresolves.2 restFits
    rw [entryTrees, portOutlines, List.map_cons, List.map_cons, later,
      outlineAt_of_resolves left hresolves.1]
    exact congrArg (fun slices => Outline.port entry.span entry.name? slices :: _) slices

/-! ### Units and scopes -/

/-- The body of a scope, once its items and generate scopes are looked up. -/
theorem outline_gather (scope : ScopeKind) (owner : NodeId) {members scopes : List NodeTree}
    {resolve : NodeId → Outline}
    (hmembers : ∀ bucket,
      ((Node.inGroup (members.map NodeTree.node) bucket).map (·.id)).map resolve =
        memberOutlines items bucket)
    (hscopes : (scopes.map NodeTree.id).map resolve = scopeOutlines items) :
    (Body.gather scope owner (members.map NodeTree.node) (scopes.map NodeTree.id)).outline resolve =
      { scope
        group := fun bucket => memberOutlines items bucket
        generateScopes := scopeOutlines items } := by
  have groups : (fun bucket => ((Body.gather scope owner (members.map NodeTree.node)
      (scopes.map NodeTree.id)).bucket bucket).map resolve) = memberOutlines items := by
    funext bucket
    rw [Body.bucket_gather, hmembers bucket]
  rw [Body.outline, groups, Body.generateScopes_gather, ← hscopes]
  rfl

mutual

theorem outline_unitTree :
    ∀ (source : SourceUnit) {k depth : Nat}, source.audit.fault = none →
      index.Resolves (unitTree name source k).owned → source.cost ≤ depth + 1 →
      Node.outline (index.outlineAt depth) (unitTree name source k).node = source.outline
  | ⟨kind, unitName, nameSpan, span, header, items⟩, k, depth, sound, hresolves, enough => by
    obtain ⟨-, hscope, hheader⟩ := SourceUnit.sound_parts sound
    obtain ⟨hitems, -, hexpand⟩ := fault_auditScope_eq_none.mp hscope
    have hentries := auditHeader_of_fault_eq_none hheader ▸ hheader
    -- Each part costs less than the unit, so what is left of the depth is enough for it.
    rw [SourceUnit.cost] at enough
    have itemsFit : declareCosts items ≤ depth := by omega
    have scopesFit : expandCosts items ≤ depth := by omega
    have headerFits : headerCost header ≤ depth := by omega
    rw [unitTree_eq, NodeIndex.resolves_append] at hresolves
    obtain ⟨hports, hbody⟩ := hresolves
    obtain ⟨hmembers, hscopes⟩ :=
      NodeIndex.resolves_append.mp (hbody.perm (arrange_members_perm name items (k + 1)))
    have ports := map_outlineAt_entryTrees (map_base_declaredBy name items (k + 1) _) hentries
      hports headerFits
    have body := outline_gather kind.scope (name k)
      (outline_itemTrees items hitems hmembers itemsFit)
      (outline_scopeTrees items hexpand hscopes scopesFit)
    rw [SourceUnit.outline, ← ports, ← body]
    rfl

theorem outline_itemTree :
    ∀ (item : SourceItem) {k depth : Nat} {scopes : List NodeId},
      item.declareAudit.fault = none → index.Resolves [itemTree name item k scopes] →
      item.declareCost ≤ depth → index.outlineAt depth (name k) = item.outline
  | .unit nested, k, depth, _, sound, hresolves, enough => by
    have positive := nested.cost_pos
    rw [SourceItem.declareCost] at enough
    obtain ⟨left, rfl⟩ : ∃ left, depth = left + 1 := ⟨depth - 1, by omega⟩
    have root := outlineAt_of_resolves left hresolves
    rw [id_itemTree] at root
    rw [root, SourceItem.outline]
    exact outline_unitTree nested sound hresolves.below enough
  | .declaration _ _, _, _, _, _, hresolves, enough =>
    outlineAt_leaf hresolves enough fun _ => rfl
  | .inst _ _ _, _, _, _, _, hresolves, enough => outlineAt_leaf hresolves enough fun _ => rfl
  | .generateIf _ _ none _ _, _, _, _, sound, _, _ => by simp [SourceItem.declareAudit] at sound
  | .generateIf _ _ (some _) _ _, _, _, _, _, hresolves, enough =>
    outlineAt_leaf hresolves enough fun _ => rfl
  | .generateFor _ _ _ none _, _, _, _, sound, _, _ => by simp [SourceItem.declareAudit] at sound
  | .generateFor _ _ _ (some _) _, _, _, _, _, hresolves, enough =>
    outlineAt_leaf hresolves enough fun _ => rfl
  | .generateBlock _ _ _, _, _, _, _, hresolves, enough =>
    outlineAt_leaf hresolves enough fun _ => rfl
  | .malformed _, _, _, _, sound, _, _ => by simp [SourceItem.declareAudit] at sound

theorem outline_itemTrees :
    ∀ (items : List SourceItem) {k q depth : Nat}, (declareAudits items).fault = none →
      index.Resolves (itemTrees name items k q) → declareCosts items ≤ depth → ∀ bucket,
      ((Node.inGroup ((itemTrees name items k q).map NodeTree.node) bucket).map (·.id)).map
        (index.outlineAt depth) = memberOutlines items bucket
  | [], _, _, _, _, _, _, _ => rfl
  | item :: rest, k, q, depth, sound, hresolves, enough, bucket => by
    obtain ⟨hitem, hrest⟩ := Audit.fault_andThen_eq_none.mp sound
    rw [declareCosts] at enough
    rw [itemTrees, ← List.singleton_append, NodeIndex.resolves_append] at hresolves
    have itemFits : item.declareCost ≤ depth := by omega
    have restFits : declareCosts rest ≤ depth := by omega
    have first := outline_itemTree item hitem hresolves.1 itemFits
    have later := outline_itemTrees rest hrest hresolves.2 restFits bucket
    have group := group?_itemTree name item k ((itemScopes name item (name k) q).map NodeTree.id)
    have hid := id_itemTree name item k ((itemScopes name item (name k) q).map NodeTree.id)
    unfold Node.inGroup at later ⊢
    rw [itemTrees, List.map_cons, memberOutlines]
    by_cases hbucket : item.bucket = bucket
    · rw [if_pos hbucket, List.filter_cons_of_pos (by simp [group, hbucket]), List.map_cons,
        List.map_cons, later, ← first]
      exact congrArg (fun id => index.outlineAt depth id :: _) hid
    · rw [if_neg hbucket, List.filter_cons_of_neg (by simp [group, hbucket]), later]

theorem outline_itemScopes :
    ∀ (item : SourceItem) {region : NodeId} {q depth : Nat}, item.expandAudit.fault = none →
      index.Resolves (itemScopes name item region q) → item.expandCost ≤ depth →
      ((itemScopes name item region q).map NodeTree.id).map (index.outlineAt depth) =
        item.scopeOutlines
  | .unit _, _, _, _, _, _, _ => rfl
  | .declaration _ _, _, _, _, _, _, _ => rfl
  | .inst _ _ _, _, _, _, _, _, _ => rfl
  | .generateIf _ _ none _ _, _, _, _, _, _, _ => rfl
  | .generateIf _ _ (some true) thenBlock _, _, _, _, sound, hresolves, enough =>
    congrArg (fun outline => [outline])
      (outline_blockTree thenBlock .thenBranch sound hresolves enough)
  | .generateIf _ _ (some false) _ none, _, _, _, _, _, _ => rfl
  | .generateIf _ _ (some false) _ (some elseBlock), _, _, _, sound, hresolves, enough =>
    congrArg (fun outline => [outline])
      (outline_blockTree elseBlock .elseBranch sound hresolves enough)
  | .generateFor _ _ _ none _, _, _, _, _, _, _ => rfl
  | .generateFor _ _ _ (some iterations) block, _, _, depth, sound, hresolves, enough =>
    map_outlineAt_spread iterations (fun value hvalue _ hblock => by
      -- There is an iteration, so the block is without a fault and its cost is paid for.
      have positive := List.length_pos_of_mem hvalue
      have hsound := (Audit.fault_times_eq_none.mp sound).resolve_left (by omega)
      have fits : block.cost ≤ depth :=
        Nat.le_trans (Nat.le_mul_of_pos_left _ positive) enough
      exact outline_blockTree block (.iteration value) hsound hblock fits) hresolves
  | .generateBlock _ _ block, _, _, _, sound, hresolves, enough =>
    congrArg (fun outline => [outline]) (outline_blockTree block .block sound hresolves enough)
  | .malformed _, _, _, _, _, _, _ => rfl

theorem outline_scopeTrees :
    ∀ (items : List SourceItem) {k q depth : Nat}, (expandAudits items).fault = none →
      index.Resolves (scopeTrees name items k q) → expandCosts items ≤ depth →
      ((scopeTrees name items k q).map NodeTree.id).map (index.outlineAt depth) =
        scopeOutlines items
  | [], _, _, _, _, _, _ => rfl
  | item :: rest, k, q, depth, sound, hresolves, enough => by
    obtain ⟨hitem, hrest⟩ := Audit.fault_andThen_eq_none.mp sound
    rw [expandCosts] at enough
    rw [scopeTrees, NodeIndex.resolves_append] at hresolves
    rw [scopeTrees, List.map_append, List.map_append, scopeOutlines,
      outline_itemScopes item hitem hresolves.1 (by omega),
      outline_scopeTrees rest hrest hresolves.2 (by omega)]

theorem outline_blockTree :
    ∀ (source : SourceBlock) {region : NodeId} (branch : Branch) {k depth : Nat},
      source.audit.fault = none → index.Resolves [blockTree name source region branch k] →
      source.cost ≤ depth →
      index.outlineAt depth (blockTree name source region branch k).id = source.outline branch
  | ⟨span, label, items⟩, region, branch, k, depth, sound, hresolves, enough => by
    obtain ⟨-, hscope⟩ := Audit.fault_andThen_eq_none.mp sound
    obtain ⟨hitems, -, hexpand⟩ := fault_auditScope_eq_none.mp hscope
    rw [SourceBlock.cost] at enough
    obtain ⟨left, rfl⟩ : ∃ left, depth = left + 1 := ⟨depth - 1, by omega⟩
    have itemsFit : declareCosts items ≤ left := by omega
    have scopesFit : expandCosts items ≤ left := by omega
    obtain ⟨hmembers, hscopes⟩ :=
      NodeIndex.resolves_append.mp (hresolves.below.perm (arrange_members_perm name items (k + 1)))
    have body := outline_gather .generate (name k)
      (outline_itemTrees items hitems hmembers itemsFit)
      (outline_scopeTrees items hexpand hscopes scopesFit)
    rw [outlineAt_of_resolves left hresolves, SourceBlock.outline, ← body]
    rfl

end

/-! ### Elaborated units -/

/-- A unit is elaborated to what its source says, at every depth and with every field, and no
number in it leads nowhere. -/
theorem outline_elaborate {source : SourceUnit} {ids left : IdCounter} {u : ElaboratedUnit}
    (h : source.elaborate ids = (.ok u, left)) :
    u.outline = source.outline ∧ u.outline.Complete := by
  obtain ⟨laid, -, -, sound⟩ := SourceUnit.laidOut h
  obtain ⟨n, hcost, numbered⟩ := numbered_owned NodeId.mk source ids.next
  have resolves : u.nodes.Resolves (unitTree NodeId.mk source ids.next).owned :=
    laid.adds.resolves
  have distinct := numbered.nodup IdCounter.schedule.name_injective
  have size := NodeIndex.length_nodesOf_le_size resolves distinct
  rw [numbered.length_eq] at size
  have root : u.node = (unitTree NodeId.mk source ids.next).node := by
    rw [ElaboratedUnit.node, laid.unit_eq, unitTree_eq]
  have same : u.outline = source.outline := by
    rw [ElaboratedUnit.outline, root]
    exact outline_unitTree source sound resolves (by omega)
  exact ⟨same, same ▸ source.complete_outline sound⟩

/-- A module whose header refers to a declared port, with an untaken branch and a loop around a
package. -/
theorem outline_elaborate_nested :
    let port : PortDecl := ⟨.input, .net .wire, .implicit .dummy, [⟨.dummy, .empty, none⟩]⟩
    let package : SourceUnit := ⟨.package, .empty, .dummy, .dummy, [], []⟩
    let items : List SourceItem :=
      [.generateIf .dummy none (some false) ⟨.dummy, none, [.malformed .dummy]⟩ none,
        .generateFor .dummy none .empty (some [0, 1]) ⟨.dummy, none, [.unit package]⟩,
        .declaration .dummy (.port port)]
    let header : List HeaderEntry := [.unnamed .dummy [⟨.dummy, .empty, []⟩]]
    let source : SourceUnit := ⟨.module, .empty, .dummy, .dummy, header, items⟩
    ∃ u left, source.elaborate IdCounter.fresh = (.ok u, left) ∧
      u.outline = source.outline ∧ u.outline.Complete := by
  intro port package items header source
  have accepted : (source.elaborate IdCounter.fresh).1.isOk = true := by decide +kernel
  obtain ⟨u, left, h⟩ := exists_of_isOk accepted
  exact ⟨u, left, h, outline_elaborate h⟩

end DesignTree
