import DesignTree.Proofs.Layout.Numbered
import DesignTree.Proofs.Run
/-!
# DesignTree.Proofs.Simulation.Header

Elaborating a header goes as its audit says and makes the ports of its layout
(`runs_elaborateHeader`).

A header is elaborated when the items of its unit are in the index. What they declare is read
there, and comes to the same as reading it off the items.
-/

namespace DesignTree

open NodeTree Layout Elaboration

variable {σ : Type} [IdSupply σ] {plan : Schedule σ}

/-- After the nodes of a numbered layout are added, the later positions are still free. -/
theorem Schedule.Free.adds_numbered {k m n : Nat} {nodes after : NodeIndex}
    {trees : List NodeTree} (h : plan.Free k nodes) (hadds : nodes.Adds (nodesOf trees) after)
    (hnumbered : Numbered plan.name trees m n) (hle : k ≤ m + n) : plan.Free (m + n) after :=
  h.adds hadds hle fun _ hnode =>
    let ⟨i, _, hlt, hname⟩ := hnumbered.exists_position hnode
    ⟨i, hlt, hname⟩

/-- Drawing a number and registering a leaf under it. -/
theorem Runs.leaf {β : Type} {k : Nat} {nodes : NodeIndex} {f : NodeId → Elaboration σ β}
    {b : Audit} {w : β} {more : List Node} (span : Span) (content : Content)
    (hk : k ≤ plan.limit) (hfree : plan.Free k nodes)
    (hf : k + 1 ≤ plan.limit → ∀ middle, plan.Free (k + 1) middle →
      Runs plan (k + 1) middle (f (plan.name k)) b w more) :
    Runs plan k nodes
      (do
        let id ← Elaboration.drawId
        Elaboration.register { id, span, content }
        f id)
      ((Audit.pass 1).andThen b) w
      (nodesOf [Layout.leaf plan.name k span content] ++ more) := by
  refine .draw hk hfree fun enough middle same => ?_
  have registered : Runs plan (k + 1) middle
      (Elaboration.register (Layout.leaf plan.name k span content).node) (.pass 0) ()
      (nodesOf [Layout.leaf plan.name k span content]) :=
    .register enough (same k (Nat.le_refl k))
  have run := registered.bind (f := fun _ => f (plan.name k)) fun _ enough' after hadds' =>
    hf enough after
      (same.adds_numbered hadds' (Numbered.leaf span content) (Nat.le_succ k))
  rwa [Audit.pass_zero_andThen] at run

/-! ### References -/

/-- The declared ports of a unit, and the items that declare them, answer alike whether a name
is declared. -/
def Declares (items : List SourceItem) (declared : List DeclaredPort) : Prop :=
  ∀ name, (declared.find? (·.name == name)).isSome = items.any (·.declaresPort name)

theorem runs_elaborateRefs {items : List SourceItem} {declared : List DeclaredPort}
    (hdeclares : Declares items declared) :
    ∀ (refs : List PortRef) {k : Nat} {nodes : NodeIndex}, k ≤ plan.limit →
      plan.Free k nodes →
      Runs plan k nodes (elaborateRefs declared refs) (auditRefs items refs)
        ((refTrees plan.name declared refs k).map NodeTree.id)
        (nodesOf (refTrees plan.name declared refs k))
  | [], _, _, hk, _ => .pure [] hk
  | ref :: rest, k, nodes, hk, hfree => by
    have hname := hdeclares ref.name
    rw [elaborateRefs, auditRefs]
    cases hport : declared.find? (·.name == ref.name) with
    | none =>
      rw [hport] at hname
      rw [if_neg (by simp [← hname])]
      exact .throw _ hk
    | some port =>
      rw [hport, Option.isSome_some] at hname
      rw [if_pos hname.symm]
      have trees : refTrees plan.name declared (ref :: rest) k =
          [leaf plan.name k ref.span (.portSlice (refSlice ref (some port)))] ++
            refTrees plan.name declared rest (k + 1) := by
        rw [refTrees, spread, hport]
        rfl
      rw [trees, nodesOf_append]
      refine .leaf ref.span (.portSlice (refSlice ref (some port))) hk hfree ?_
      intro enough middle hmiddle
      exact (runs_elaborateRefs hdeclares rest enough hmiddle).map rfl

/-! ### Entries -/

/-- The slices of an entry. An entry that declares its port reads nothing of what the items
declare. -/
theorem runs_elaborateSlices {items : List SourceItem} {declared : List DeclaredPort}
    {previous : Option AnsiPort} {entry : HeaderEntry}
    (hdeclares : entry.isAnsi = false → Declares items declared) {k : Nat} {nodes : NodeIndex}
    (hk : k ≤ plan.limit) (hfree : plan.Free k nodes) :
    Runs plan k nodes (elaborateSlices declared previous entry) (entry.auditSlices items)
      ((sliceTrees plan.name declared previous entry k).map NodeTree.id)
      (nodesOf (sliceTrees plan.name declared previous entry k)) := by
  cases entry with
  | ansi span entry =>
    refine .map (v := plan.name k) ?_ rfl
    rw [HeaderEntry.auditSlices, ← Audit.andThen_pass_zero (.pass 1), sliceTrees,
      ← List.append_nil (nodesOf _)]
    exact .leaf span (.portSlice (ansiSlice (.infer previous entry) entry)) hk hfree
      fun enough _ _ => .pure _ enough
  | named span outer refs =>
    cases refs with
    | none => exact .pure [] hk
    | some refs => exact runs_elaborateRefs (hdeclares rfl) refs hk hfree
  | unnamed span refs => exact runs_elaborateRefs (hdeclares rfl) refs hk hfree

/-- The ports of header entries. -/
theorem runs_elaborateEntries {items : List SourceItem} {declared : List DeclaredPort} :
    ∀ {previous : Option AnsiPort} {entries : List HeaderEntry} {k : Nat} {nodes : NodeIndex},
      (∀ entry ∈ entries, entry.isAnsi = false → Declares items declared) → k ≤ plan.limit →
      plan.Free k nodes →
      Runs plan k nodes (elaborateEntries declared previous entries) (auditEntries items entries)
        ((entryTrees plan.name declared previous entries k).map NodeTree.id)
        (nodesOf (entryTrees plan.name declared previous entries k))
  | _, [], _, _, _, hk, _ => .pure [] hk
  | previous, entry :: rest, k, nodes, hdeclares, hk, hfree => by
    have hslices := numbered_sliceTrees plan.name declared previous entry (k + 1)
    let slices := sliceTrees plan.name declared previous entry (k + 1)
    have port : nodesOf (entryTrees plan.name declared previous (entry :: rest) k) =
        (leaf plan.name k entry.span
          (.port { name := entry.name?, slices := slices.map NodeTree.id })).node ::
          nodesOf slices ++
          nodesOf (entryTrees plan.name declared (entry.carried previous) rest
            (k + entry.cost)) := by
      rw [entryTrees, nodesOf_cons, nodes_eq]
      rfl
    rw [port, elaborateEntries, auditEntries, Audit.andThen_assoc]
    -- The slices are registered before the port that owns them.
    refine .perm ?_ (List.Perm.append_right _ (List.perm_append_singleton ..))
    rw [List.append_assoc]
    refine .draw hk hfree fun enough middle free => ?_
    refine (runs_elaborateSlices (hdeclares entry (List.mem_cons_self ..)) enough
      (free.mono (Nat.le_succ k))).bind fun sound enough after hafter => ?_
    rw [draws_auditSlices sound] at enough ⊢
    have unused : after.get? (plan.name k) = none := by
      refine hafter.get?_eq_none (free k (Nat.le_refl k)) fun node hnode hid => ?_
      obtain ⟨i, hle, -, hname⟩ := hslices.exists_position hnode
      have same : i = k := plan.name_injective (hname.symm.trans hid)
      omega
    have later : plan.Free (k + 1 + entry.sliceCount) after :=
      (free.mono (Nat.le_succ k)).adds_numbered hafter hslices (Nat.le_add_right ..)
    rw [← Audit.pass_zero_andThen (auditEntries items rest)]
    refine (Runs.register enough unused).bind fun _ enough final hfinal => ?_
    have free' : plan.Free (k + 1 + entry.sliceCount) final :=
      later.adds hfinal (Nat.le_refl _) fun node hnode =>
        ⟨k, by omega, by rw [List.mem_singleton.mp hnode]⟩
    rw [Nat.add_assoc k] at enough free' ⊢
    exact (runs_elaborateEntries (fun other hmem => hdeclares other (List.mem_cons_of_mem _ hmem))
      enough free').map rfl

/-! ### What the items declare -/

theorem span_itemTree (name : Nat → NodeId) (item : SourceItem) (k : Nat)
    (scopes : List NodeId) : (itemTree name item k scopes).node.span = item.span := by
  cases item with
  | unit nested => cases nested; rfl
  | _ => rfl

theorem asPortDecl?_itemTree (name : Nat → NodeId) (item : SourceItem) (k : Nat)
    (scopes : List NodeId) :
    (itemTree name item k scopes).node.content.asPortDecl? = item.portDecl? := by
  cases item with
  | unit nested => cases nested; rfl
  | declaration span decl => cases decl <;> rfl
  | _ => rfl

/-- Port declarations are what the group of ports holds. -/
theorem group?_eq_ports_iff (content : Content) :
    content.group? = some .ports ↔ content.asPortDecl?.isSome := by
  cases content with
  | declaration decl =>
    cases decl <;> simp [Content.group?, Content.bucketIn, Content.asPortDecl?]
  | _ => simp [Content.group?, Content.bucketIn, Content.asPortDecl?]

/-- Other nodes declare no ports. -/
theorem declaredBy_inGroup (nodes : List Node) :
    declaredBy (Node.inGroup nodes .ports) = declaredBy nodes := by
  induction nodes with
  | nil => rfl
  | cons node rest ih =>
    unfold declaredBy Node.inGroup at ih ⊢
    have hgroup := group?_eq_ports_iff node.content
    cases hdecl : node.content.asPortDecl? with
    | none =>
      rw [List.filter_cons_of_neg (by simp [hgroup, hdecl]), List.flatMap_cons, hdecl, ih]
      rfl
    | some decl =>
      rw [List.filter_cons_of_pos (by simp [hgroup, hdecl]), List.flatMap_cons,
        List.flatMap_cons, ih]

/-- What the items declare, up to the numbers of the declarations. -/
theorem map_base_declaredBy (name : Nat → NodeId) (items : List SourceItem) (k q : Nat) :
    (declaredBy ((itemTrees name items k q).map NodeTree.node)).map ({ · with base := default }) =
      declaredNames items := by
  induction items generalizing k q with
  | nil => rfl
  | cons item rest ih =>
    have later := ih (k + item.declareCost) (q + item.expandCost)
    unfold declaredBy declaredNames at later ⊢
    rw [itemTrees, List.map_cons, List.flatMap_cons, List.map_append, later, List.flatMap_cons,
      asPortDecl?_itemTree]
    congr 1
    cases item.portDecl? with
    | none => rfl
    | some decl =>
      simp only [PortDecl.declared, List.map_map]
      rfl

theorem declares_declaredBy (name : Nat → NodeId) (items : List SourceItem) (k q : Nat) :
    Declares items (declaredBy ((itemTrees name items k q).map NodeTree.node)) := by
  intro wanted
  rw [← isSome_find?_declaredNames, ← map_base_declaredBy name items k q, List.find?_map,
    Option.isSome_map]
  rfl

/-- The first port declaration in a body is the first one among the items. -/
theorem head?_inGroup_ports (name : Nat → NodeId) (items : List SourceItem) (k q : Nat) :
    (Node.inGroup ((itemTrees name items k q).map NodeTree.node) .ports).head?.map (·.span) =
      (items.find? (·.portDecl?.isSome)).map (·.span) := by
  induction items generalizing k q with
  | nil => rfl
  | cons item rest ih =>
    have hgroup := group?_eq_ports_iff
      (itemTree name item k ((itemScopes name item (name k) q).map NodeTree.id)).node.content
    rw [asPortDecl?_itemTree] at hgroup
    rw [itemTrees, List.map_cons, Node.inGroup]
    cases hdecl : item.portDecl?.isSome with
    | true =>
      rw [List.filter_cons_of_pos (by simp [hgroup, hdecl]), List.find?_cons, hdecl]
      simp [span_itemTree]
    | false =>
      rw [List.filter_cons_of_neg (by simp [hgroup, hdecl]), List.find?_cons, hdecl]
      exact ih (k + item.declareCost) (q + item.expandCost)

/-- Reading the declarations of a body from the index. -/
theorem runs_declaredPorts {k : Nat} (hk : k ≤ plan.limit) :
    ∀ {decls : List Node} {nodes : NodeIndex}, (∀ node ∈ decls,
        nodes.get? node.id = some node ∧ node.content.asPortDecl?.isSome) →
      Runs plan k nodes (declaredPorts (decls.map (·.id))) (.pass 0) (declaredBy decls) []
  | [], _, _ => .pure [] hk
  | node :: rest, nodes, h => by
    obtain ⟨hnode, hdecl⟩ := h node (List.mem_cons_self ..)
    obtain ⟨decl, hdecl⟩ := Option.isSome_iff_exists.mp hdecl
    rw [List.map_cons, declaredPorts, ← Audit.pass_zero_andThen (.pass 0), declaredBy,
      List.flatMap_cons, ← List.append_nil []]
    refine (Runs.lookup hk hnode).bind fun _ _ middle hmiddle => ?_
    rw [hdecl]
    refine (runs_declaredPorts hk fun other hother => ?_).map rfl
    obtain ⟨hget, hport⟩ := h other (List.mem_cons_of_mem _ hother)
    exact ⟨hmiddle.get?_of_get? hget, hport⟩

/-- Entries that declare their ports are laid out alike whatever the items declare. -/
theorem entryTrees_of_ansi (name : Nat → NodeId) (declared declared' : List DeclaredPort)
    {entries : List HeaderEntry} (previous : Option AnsiPort) (k : Nat)
    (h : ∀ entry ∈ entries, entry.isAnsi = true) :
    entryTrees name declared previous entries k =
      entryTrees name declared' previous entries k := by
  induction entries generalizing previous k with
  | nil => rfl
  | cons entry rest ih =>
    have slices : sliceTrees name declared previous entry (k + 1) =
        sliceTrees name declared' previous entry (k + 1) := by
      cases entry with
      | ansi span entry => rfl
      | named span outer refs => cases h _ (List.mem_cons_self ..)
      | unnamed span refs => cases h _ (List.mem_cons_self ..)
    rw [entryTrees, entryTrees, slices,
      ih _ _ fun other hother => h other (List.mem_cons_of_mem _ hother)]

/-! ### The whole header -/

/-- A header is elaborated when the nodes of the unit's items are in the index. -/
theorem runs_elaborateHeader {items : List SourceItem} {header : List HeaderEntry} {body : Body}
    {members : List Node} {k p q : Nat} {nodes : NodeIndex}
    (hmembers : members = (itemTrees plan.name items p q).map NodeTree.node)
    (hports : body.ports = (Node.inGroup members .ports).map (·.id))
    (hindex : ∀ node ∈ members, nodes.get? node.id = some node) (hk : k ≤ plan.limit)
    (hfree : plan.Free k nodes) :
    Runs plan k nodes (elaborateHeader header body) (auditHeader items header)
      ((entryTrees plan.name (declaredBy members) none header k).map NodeTree.id)
      (nodesOf (entryTrees plan.name (declaredBy members) none header k)) := by
  have hdecls : ∀ node ∈ Node.inGroup members .ports,
      nodes.get? node.id = some node ∧ node.content.asPortDecl?.isSome := by
    intro node hnode
    obtain ⟨hmem, hgroup⟩ := Node.mem_inGroup.mp hnode
    exact ⟨hindex node hmem, (group?_eq_ports_iff _).mp hgroup⟩
  cases header with
  | nil => exact .pure [] hk
  | cons first rest =>
    rw [elaborateHeader, auditHeader]
    cases hodd : (first :: rest).find? (·.isAnsi != first.isAnsi) with
    | some odd => exact .throw _ hk
    | none =>
      have alike : ∀ entry ∈ first :: rest, entry.isAnsi = first.isAnsi := by
        intro entry hentry
        simpa using List.find?_eq_none.mp hodd entry hentry
      cases hansi : first.isAnsi with
      | true =>
        have hfirst := hmembers ▸ head?_inGroup_ports plan.name items p q
        simp only [Bool.true_and, if_true, hports]
        cases hdecl : Node.inGroup members .ports with
        | nil =>
          rw [hdecl] at hfirst
          have noDecl := Option.map_eq_none_iff.mp hfirst.symm
          rw [noDecl, entryTrees_of_ansi plan.name _ [] none k fun entry hentry =>
            (alike entry hentry).trans hansi]
          refine runs_elaborateEntries (fun entry hentry habsurd => ?_) hk hfree
          rw [alike entry hentry, hansi] at habsurd
          cases habsurd
        | cons decl others =>
          rw [hdecl] at hfirst
          obtain ⟨item, hitem, hspan⟩ := Option.map_eq_some_iff.mp hfirst.symm
          have hget := (hdecls decl (hdecl ▸ List.mem_cons_self ..)).1
          simp only [hitem]
          rw [show item.span = decl.span from hspan, ← Audit.pass_zero_andThen (.stop _),
            ← List.nil_append (nodesOf _)]
          exact (Runs.lookup hk hget).bind fun _ _ _ _ => .throw _ hk
      | false =>
        have noDecl : items.find? (fun item => false && item.portDecl?.isSome) = none := by
          simp
        rw [noDecl, hports, ← Audit.pass_zero_andThen (auditEntries _ _),
          ← List.nil_append (nodesOf _)]
        refine (runs_declaredPorts hk hdecls).bind fun _ _ middle hmiddle => ?_
        rw [declaredBy_inGroup]
        exact runs_elaborateEntries
          (fun _ _ _ => hmembers ▸ declares_declaredBy plan.name items p q) hk
          (hfree.adds hmiddle (Nat.le_refl k) (by simp))

end DesignTree
