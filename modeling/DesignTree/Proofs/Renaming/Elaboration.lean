import DesignTree.Proofs.Index
import DesignTree.Proofs.Renaming
import Mathlib.Logic.Function.Basic
/-!
# DesignTree.Proofs.Renaming.Elaboration

Elaboration does not depend on what things are called.

`Alike ρ f x y` says that `y`, run on a session with other names, ends like `x` but for the names:
with the same numbers, the nodes of the same index under other names, and the value that `f` makes
of the other one, or the same error. There is one rule for each step of an elaboration and one for
sequencing; `alike_elaborateUnit` follows the program with them. References are found among the
declared ports by name, and there `ρ` has to be injective.
-/

namespace DesignTree

namespace NodeIndex

variable (ρ : Name → Name)

@[simp] theorem get?_mapNames (index : NodeIndex) (id : NodeId) :
    (index.mapNames ρ).get? id = (index.get? id).map (Node.mapNames ρ) :=
  Std.ExtTreeMap.getElem?_map

@[simp] theorem contains_mapNames (index : NodeIndex) (id : NodeId) :
    (index.mapNames ρ).contains id = index.contains id :=
  Std.ExtTreeMap.contains_map

@[simp] theorem mapNames_empty : empty.mapNames ρ = empty :=
  congrArg NodeIndex.mk (Std.ExtTreeMap.ext_getElem? fun id => by
    rw [Std.ExtTreeMap.getElem?_map]
    rfl)

theorem lookup_mapNames (index : NodeIndex) (id : NodeId) :
    (index.mapNames ρ).lookup id =
      ((index.lookup id).map (Node.mapNames ρ)).mapError (DesignError.mapNames ρ) := by
  rw [lookup, lookup, get?_mapNames]
  cases index.get? id <;> rfl

theorem register_mapNames (index : NodeIndex) (node : Node) :
    (index.mapNames ρ).register (Node.mapNames ρ node) =
      ((index.register node).map (mapNames ρ)).mapError (DesignError.mapNames ρ) := by
  have same : (Node.mapNames ρ node).id = node.id := rfl
  rw [register, register, contains_mapNames, same]
  split
  · rfl
  · refine congrArg Except.ok (congrArg NodeIndex.mk (Std.ExtTreeMap.ext_getElem? fun id => ?_))
    simp only [mapNames, Std.ExtTreeMap.getElem?_insert, Std.ExtTreeMap.getElem?_map]
    split <;> rfl

end NodeIndex

/-- The session with other names in its nodes. -/
def Session.mapNames {σ : Type} (ρ : Name → Name) (s : Session σ) : Session σ :=
  { s with nodes := s.nodes.mapNames ρ }

namespace Elaboration

variable {σ α α' β β' : Type} {ρ : Name → Name}

/-- The second computation does with other names what the first one does; `f` gives the value other
names. -/
def Alike (ρ : Name → Name) (f : α → α') (x : Elaboration σ α) (y : Elaboration σ α') : Prop :=
  ∀ s, y (s.mapNames ρ) =
    match x s with
    | .ok a t => .ok (f a) (t.mapNames ρ)
    | .error e t => .error (e.mapNames ρ) (t.mapNames ρ)

namespace Alike

variable {f : α → α'} {g : β → β'}

theorem pure (a : α) : Alike ρ f (pure a : Elaboration σ α) (pure (f a)) := fun _ => rfl

theorem throw (e : DesignError) :
    Alike ρ f (throw e : Elaboration σ α) (throw (e.mapNames ρ)) := fun _ => rfl

theorem bind {x : Elaboration σ α} {y : Elaboration σ α'} {k : α → Elaboration σ β}
    {l : α' → Elaboration σ β'} (hx : Alike ρ f x y) (hk : ∀ a, Alike ρ g (k a) (l (f a))) :
    Alike ρ g (x >>= k) (y >>= l) := by
  intro s
  rw [bind_apply, bind_apply, hx s]
  cases x s with
  | ok a t => exact hk a t
  | error e t => rfl

/-- A first part whose value has no names. -/
theorem bind_same {x y : Elaboration σ α} {k : α → Elaboration σ β} {l : α → Elaboration σ β'}
    (hx : Alike ρ (fun a => a) x y) (hk : ∀ a, Alike ρ g (k a) (l a)) :
    Alike ρ g (x >>= k) (y >>= l) :=
  hx.bind hk

theorem ofExcept {outcome : Except DesignError α} {other : Except DesignError α'}
    (h : other = (outcome.map f).mapError (DesignError.mapNames ρ)) :
    Alike ρ f (ofExcept outcome : Elaboration σ α) (ofExcept other) := by
  rw [h]
  cases outcome with
  | ok a => exact .pure a
  | error e => exact .throw e

theorem register (node : Node) :
    Alike ρ (fun a => a) (register node : Elaboration σ Unit)
      (register (Node.mapNames ρ node)) := by
  intro s
  simp only [Elaboration.register, Session.mapNames, NodeIndex.register_mapNames]
  cases s.nodes.register node <;> rfl

theorem registerAll (nodes : List Node) :
    Alike ρ (fun a => a) (registerAll nodes : Elaboration σ Unit)
      (registerAll (nodes.map (Node.mapNames ρ))) := by
  induction nodes with
  | nil => exact .pure ()
  | cons node rest ih => exact (register node).bind_same fun _ => ih

theorem lookup (id : NodeId) :
    Alike ρ (Node.mapNames ρ) (lookup id : Elaboration σ Node) (lookup id) := by
  intro s
  simp only [Elaboration.lookup, Session.mapNames, NodeIndex.lookup_mapNames]
  cases s.nodes.lookup id <;> rfl

/-- A loop. -/
theorem mapM {γ : Type} {x y : γ → Elaboration σ α} (h : ∀ c, Alike ρ (fun a => a) (x c) (y c))
    (list : List γ) : Alike ρ (fun a => a) (list.mapM x) (list.mapM y) := by
  induction list with
  | nil => exact .pure []
  | cons c rest ih =>
    rw [List.mapM_cons, List.mapM_cons]
    exact (h c).bind_same fun _ => ih.bind_same fun _ => .pure _

/-- The three steps of a scope. The groups of its body are the same. -/
theorem elaborateScope (scope : ScopeKind) (owner : NodeId)
    {declare declare' : Elaboration σ (List Node)}
    {expand expand' : List Node → Elaboration σ (List Node × List NodeId)}
    (hdeclare : Alike ρ (List.map (Node.mapNames ρ)) declare declare')
    (hexpand : ∀ nodes, Alike ρ (Prod.map (List.map (Node.mapNames ρ)) id) (expand nodes)
      (expand' (nodes.map (Node.mapNames ρ)))) :
    Alike ρ (fun a => a) (elaborateScope scope owner declare expand)
      (elaborateScope scope owner declare' expand') := by
  rw [Elaboration.elaborateScope, Elaboration.elaborateScope, withinScope_eq, withinScope_eq]
  refine hdeclare.bind fun markers => bind_same (ofExcept ?_) fun body => ?_
  · rw [Body.ofNodes_map_mapNames]
    cases Body.ofNodes scope owner markers <;> rfl
  · refine (hexpand markers).bind fun ⟨nodes, scopes⟩ => ?_
    exact (registerAll nodes).bind_same fun _ => .pure _

variable [IdSupply σ]

theorem drawId : Alike ρ (fun a => a) (drawId : Elaboration σ NodeId) drawId := by
  intro s
  simp only [Elaboration.drawId, Session.mapNames]
  cases IdSupply.draw s.ids with
  | mk outcome ids => cases outcome <;> rfl

theorem place (span : Span) (content : Content) :
    Alike ρ (Node.mapNames ρ) (place span content : Elaboration σ Node)
      (place span (content.mapNames ρ)) :=
  drawId.bind_same fun _ => .pure _

end Alike

/-! ### Headers -/

theorem alike_declaredPorts (ids : List NodeId) :
    Alike ρ (List.map (DeclaredPort.mapNames ρ))
      (declaredPorts ids : Elaboration σ (List DeclaredPort)) (declaredPorts ids) := by
  induction ids with
  | nil => exact .pure []
  | cons id rest ih =>
    refine (Alike.lookup id).bind fun node => ?_
    have decl : (Node.mapNames ρ node).content.asPortDecl? =
        node.content.asPortDecl?.map (PortDecl.mapNames ρ) :=
      Content.asPortDecl?_mapNames ρ node.content
    rw [decl]
    cases node.content.asPortDecl? with
    | none => exact .throw _
    | some decl =>
      refine ih.bind fun later => ?_
      have listed : (decl.mapNames ρ).declared id =
          (decl.declared id).map (DeclaredPort.mapNames ρ) := by
        simp only [PortDecl.declared, PortDecl.mapNames, List.map_map]
        rfl
      rw [listed, ← List.map_append]
      exact .pure _

variable [IdSupply σ]

theorem alike_elaborateRefs (injective : Function.Injective ρ) (declared : List DeclaredPort)
    (refs : List PortRef) :
    Alike ρ (fun a => a) (elaborateRefs declared refs : Elaboration σ (List NodeId))
      (elaborateRefs (declared.map (DeclaredPort.mapNames ρ)) (refs.map (·.mapNames ρ))) := by
  induction refs with
  | nil => exact .pure []
  | cons ref rest ih =>
    have found : (declared.map (DeclaredPort.mapNames ρ)).find? (·.name == (ref.mapNames ρ).name) =
        (declared.find? (·.name == ref.name)).map (DeclaredPort.mapNames ρ) := by
      rw [List.find?_map]
      congr 2
      funext port
      exact Bool.eq_iff_iff.mpr (by
        simp [DeclaredPort.mapNames, PortRef.mapNames, injective.eq_iff])
    rw [List.map_cons, elaborateRefs, elaborateRefs, found]
    cases declared.find? (·.name == ref.name) with
    | none => exact .throw _
    | some port =>
      refine Alike.drawId.bind_same fun id => (Alike.register _).bind_same fun _ => ?_
      exact ih.bind_same fun _ => .pure _

theorem alike_elaborateAnsi (port : AnsiPort) (span : Span) (entry : AnsiEntry) :
    Alike ρ (fun a => a) (elaborateAnsi port span entry : Elaboration σ NodeId)
      (elaborateAnsi (port.mapNames ρ) span (entry.mapNames ρ)) :=
  Alike.drawId.bind_same fun _ => (Alike.register _).bind_same fun _ => .pure _

theorem alike_elaborateSlices (injective : Function.Injective ρ) (declared : List DeclaredPort)
    (previous : Option AnsiPort) (entry : HeaderEntry) :
    Alike ρ (fun a => a) (elaborateSlices declared previous entry : Elaboration σ (List NodeId))
      (elaborateSlices (declared.map (DeclaredPort.mapNames ρ)) (previous.map (AnsiPort.mapNames ρ))
        (entry.mapNames ρ)) := by
  cases entry with
  | ansi span entry =>
    rw [HeaderEntry.mapNames, elaborateSlices, elaborateSlices, AnsiPort.infer_mapNames]
    exact (alike_elaborateAnsi _ span entry).bind_same fun _ => .pure _
  | named span name refs =>
    cases refs with
    | none => exact .pure []
    | some refs => exact alike_elaborateRefs injective declared refs
  | unnamed span refs => exact alike_elaborateRefs injective declared refs

theorem HeaderEntry.name?_mapNames (entry : HeaderEntry) :
    (entry.mapNames ρ).name? = entry.name?.map ρ := by
  cases entry <;> rfl

theorem alike_elaborateEntries (injective : Function.Injective ρ) (declared : List DeclaredPort)
    (previous : Option AnsiPort) (entries : List HeaderEntry) :
    Alike ρ (fun a => a) (elaborateEntries declared previous entries : Elaboration σ (List NodeId))
      (elaborateEntries (declared.map (DeclaredPort.mapNames ρ))
        (previous.map (AnsiPort.mapNames ρ)) (entries.map (·.mapNames ρ))) := by
  induction entries generalizing previous with
  | nil => exact .pure []
  | cons entry rest ih =>
    rw [List.map_cons, elaborateEntries, elaborateEntries, HeaderEntry.carried_mapNames,
      HeaderEntry.span_mapNames, HeaderEntry.name?_mapNames]
    refine Alike.drawId.bind_same fun id => ?_
    refine (alike_elaborateSlices injective declared previous entry).bind_same fun slices => ?_
    refine (Alike.register _).bind_same fun _ => ?_
    exact (ih _).bind_same fun _ => .pure _

theorem alike_elaborateHeader (injective : Function.Injective ρ) (header : List HeaderEntry)
    (body : Body) :
    Alike ρ (fun a => a) (elaborateHeader header body : Elaboration σ (List NodeId))
      (elaborateHeader (header.map (·.mapNames ρ)) body) := by
  cases header with
  | nil => exact .pure []
  | cons first rest =>
    have odd : ((first :: rest).map (·.mapNames ρ)).find? (·.isAnsi != first.isAnsi) =
        ((first :: rest).find? (·.isAnsi != first.isAnsi)).map (·.mapNames ρ) := by
      rw [List.find?_map]
      congr 2
      funext entry
      simp only [Function.comp_apply, HeaderEntry.isAnsi_mapNames]
    rw [List.map_cons, elaborateHeader, elaborateHeader, HeaderEntry.isAnsi_mapNames,
      ← List.map_cons, odd]
    cases (first :: rest).find? (·.isAnsi != first.isAnsi) with
    | some odd =>
      simp only [Option.map_some, HeaderEntry.span_mapNames]
      exact .throw _
    | none =>
      simp only [Option.map_none]
      split
      · split
        · exact alike_elaborateEntries injective [] none (first :: rest)
        · exact (Alike.lookup _).bind (g := fun a => a) fun node => .throw _
      · exact (alike_declaredPorts body.ports).bind (g := fun a => a) fun declared =>
          alike_elaborateEntries injective declared none (first :: rest)

/-! ### Scopes and units -/

mutual

theorem alike_elaborateUnit (injective : Function.Injective ρ) :
    ∀ source : SourceUnit,
      Alike ρ (Placed.map (DesignUnit.mapNames ρ))
        (elaborateUnit source : Elaboration σ (Placed DesignUnit))
        (elaborateUnit (source.mapNames ρ))
  | ⟨kind, name, nameSpan, span, header, items⟩ => by
    rw [SourceUnit.mapNames, elaborateUnit, elaborateUnit, List.isEmpty_map]
    split
    · exact .throw _
    · refine Alike.drawId.bind_same fun id => ?_
      have scope := Alike.elaborateScope kind.scope id
        (alike_elaborateItems injective items) (alike_expandItems injective items)
      refine scope.bind_same fun body => ?_
      exact (alike_elaborateHeader injective header body).bind_same fun _ => .pure _

theorem alike_elaborateItem (injective : Function.Injective ρ) :
    ∀ item : SourceItem,
      Alike ρ (Node.mapNames ρ) (elaborateItem item : Elaboration σ Node)
        (elaborateItem (item.mapNames ρ))
  | .declaration span decl => .place span (.declaration decl)
  | .inst span _ inst => .place span (.inst inst)
  | .unit nested => (alike_elaborateUnit injective nested).bind fun _ => .pure _
  | .generateIf _ _ none _ none => .throw _
  | .generateIf _ _ none _ (some _) => .throw _
  | .generateIf _ _ (some _) _ none => .place _ _
  | .generateIf _ _ (some _) _ (some _) => .place _ _
  | .generateFor _ _ _ none _ => .throw _
  | .generateFor _ _ _ (some _) _ => .place _ _
  | .generateBlock _ _ _ => .place _ _
  | .malformed _ => .throw _

theorem alike_elaborateItems (injective : Function.Injective ρ) :
    ∀ items : List SourceItem,
      Alike ρ (List.map (Node.mapNames ρ)) (elaborateItems items : Elaboration σ (List Node))
        (elaborateItems (mapItemNames ρ items))
  | [] => .pure []
  | item :: rest =>
    (alike_elaborateItem injective item).bind fun _ =>
      (alike_elaborateItems injective rest).bind fun _ => .pure _

theorem alike_expandItem (injective : Function.Injective ρ) :
    ∀ (item : SourceItem) (node : Node),
      Alike ρ (Prod.map (Node.mapNames ρ) id)
        (expandItem item node : Elaboration σ (Node × List NodeId))
        (expandItem (item.mapNames ρ) (Node.mapNames ρ node))
  | .declaration .., node => .pure (node, [])
  | .inst .., node => .pure (node, [])
  | .unit _, node => .pure (node, [])
  | .malformed _, node => .pure (node, [])
  | .generateIf _ _ _ thenBlock none, ⟨id, _, content⟩ => by
    cases content with
    | generateIf region =>
      have taken := alike_elaborateBlock injective thenBlock id .thenBranch
      rw [SourceItem.mapNames, expandItem, expandItem]
      show Alike ρ _ (if region.condition then _ else _) (if region.condition then _ else _)
      split
      · exact taken.bind_same fun _ => .pure _
      · exact .pure _
    | _ => exact .throw _
  | .generateIf _ _ _ thenBlock (some elseBlock), ⟨id, _, content⟩ => by
    cases content with
    | generateIf region =>
      have taken := alike_elaborateBlock injective thenBlock id .thenBranch
      have other := alike_elaborateBlock injective elseBlock id .elseBranch
      rw [SourceItem.mapNames, expandItem, expandItem]
      show Alike ρ _ (if region.condition then _ else _) (if region.condition then _ else _)
      split
      · exact taken.bind_same fun _ => .pure _
      · exact other.bind_same fun _ => .pure _
    | _ => exact .throw _
  | .generateFor _ _ _ _ block, ⟨id, _, content⟩ => by
    cases content with
    | generateFor region =>
      have each := fun value => alike_elaborateBlock injective block id (.iteration value)
      rw [SourceItem.mapNames, expandItem, expandItem]
      exact (Alike.mapM each region.iterations).bind_same fun _ => .pure _
    | _ => exact .throw _
  | .generateBlock _ _ block, ⟨id, _, content⟩ => by
    cases content with
    | generateBlock region =>
      have inner := alike_elaborateBlock injective block id .block
      rw [SourceItem.mapNames, expandItem, expandItem]
      exact inner.bind_same fun _ => .pure _
    | _ => exact .throw _

theorem alike_expandItems (injective : Function.Injective ρ) :
    ∀ (items : List SourceItem) (nodes : List Node),
      Alike ρ (Prod.map (List.map (Node.mapNames ρ)) id)
        (expandItems items nodes : Elaboration σ (List Node × List NodeId))
        (expandItems (mapItemNames ρ items) (nodes.map (Node.mapNames ρ)))
  | [], nodes => .pure (nodes, [])
  | _ :: _, [] => .pure ([], [])
  | item :: items, node :: nodes =>
    (alike_expandItem injective item node).bind fun _ =>
      (alike_expandItems injective items nodes).bind fun _ => .pure _

theorem alike_elaborateBlock (injective : Function.Injective ρ) :
    ∀ (block : SourceBlock) (region : NodeId) (branch : Branch),
      Alike ρ (fun a => a) (elaborateBlock block region branch : Elaboration σ NodeId)
        (elaborateBlock (block.mapNames ρ) region branch)
  | ⟨span, label, items⟩, region, branch => by
    rw [SourceBlock.mapNames, elaborateBlock, elaborateBlock]
    refine Alike.drawId.bind_same fun id => ?_
    have scope := Alike.elaborateScope .generate id
      (alike_elaborateItems injective items) (alike_expandItems injective items)
    refine scope.bind_same fun body => ?_
    exact (Alike.register _).bind_same fun _ => .pure _

end

end Elaboration

end DesignTree
