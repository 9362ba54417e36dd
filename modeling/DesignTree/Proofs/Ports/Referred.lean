import DesignTree.Proofs.Faults
import DesignTree.Proofs.Ports
import Mathlib.Data.List.Flatten
/-!
# DesignTree.Proofs.Ports.Referred

Headers that refer to port declarations.

Elaboration gathers what the port declarations of a unit list in one list of names, declaration by
declaration, and takes the first entry with the name of a reference. Here that is put in terms of
the declarations themselves: the first of them that lists the name is the base of the slice, and the
default is that of the first time it is listed there (`exists_of_find?_declared`). The declarations
are those among the unit's own items, in their order, whatever units are around it or nested in it
(`forall₂_portDecls`).
-/

namespace DesignTree

open NodeTree Layout

/-- The port declarations among items, with their places. -/
def portDeclsOf (items : List SourceItem) : List (Span × PortDecl) :=
  items.filterMap fun item => item.portDecl?.map fun decl => (item.span, decl)

/-! ### What a header says -/

namespace NodeIndex

/-- There is a slice under a number that stands for a reference. Its base is the first of the
declarations that list the name, and its default that of the first time it is listed there. -/
def RefersAt (index : NodeIndex) (decls : List (NodeId × PortDecl)) (ref : PortRef) (id : NodeId) :
    Prop :=
  ∃ base decl listed,
    decls.find? (fun entry => entry.2.names.any (·.name == ref.name)) = some (base, decl) ∧
    decl.names.find? (·.name == ref.name) = some listed ∧
    index.get? id = some ⟨id, ref.span, .portSlice
      { name := ref.name, selects := ref.selects, base := some base, dir := decl.dir
        kind := decl.kind, ty := decl.ty, default := listed.init }⟩

/-- There is a port under a number that stands for an entry: its slices are the entry's references,
in order. -/
def EntryAt (index : NodeIndex) (decls : List (NodeId × PortDecl)) (entry : HeaderEntry)
    (id : NodeId) : Prop :=
  ∃ slices,
    index.get? id = some ⟨id, entry.span, .port { name := entry.name?, slices }⟩ ∧
    List.Forall₂ (index.RefersAt decls) entry.refs slices

/-- The ports of a unit refer to the declarations among the items of its source. -/
structure RefersTo (index : NodeIndex) (source : SourceUnit) (unit : DesignUnit) : Prop where
  /-- The declarations are the unit's own, in source order. -/
  declarations : List.Forall₂
    (fun decl id => index.get? id = some ⟨id, decl.1, .declaration (.port decl.2)⟩)
    (portDeclsOf source.items) unit.body.ports
  /-- The ports are the entries of the header. -/
  ports : List.Forall₂
    (index.EntryAt (unit.body.ports.zip ((portDeclsOf source.items).map (·.2))))
    source.header unit.ports
  /-- Each reference has a slice of its own. -/
  slices_nodup : (unit.ports.flatMap index.childrenAt).Nodup
  /-- References to the same name have the same base. -/
  base_eq : ∀ first ∈ unit.ports.flatMap index.childrenAt,
    ∀ second ∈ unit.ports.flatMap index.childrenAt, ∀ span span' slice slice',
      index.get? first = some ⟨first, span, .portSlice slice⟩ →
      index.get? second = some ⟨second, span', .portSlice slice'⟩ →
      slice.name = slice'.name → slice.base = slice'.base

variable {index : NodeIndex} {decls : List (NodeId × PortDecl)}

theorem EntryAt.childrenAt {entry : HeaderEntry} {id : NodeId} (h : index.EntryAt decls entry id) :
    List.Forall₂ (index.RefersAt decls) entry.refs (index.childrenAt id) := by
  obtain ⟨slices, found, refers⟩ := h
  rw [childrenAt_of_get? found]
  exact refers

/-- Every slice of a header stands for a reference. -/
theorem exists_ref_of_mem {header : List HeaderEntry} {ports : List NodeId}
    (h : List.Forall₂ (index.EntryAt decls) header ports) {id : NodeId}
    (hid : id ∈ ports.flatMap index.childrenAt) : ∃ ref, index.RefersAt decls ref id := by
  obtain ⟨port, hport, hid⟩ := List.mem_flatMap.mp hid
  obtain ⟨-, entry, -, -, here⟩ := exists_related_of_mem h hport
  obtain ⟨-, ref, -, -, refers⟩ := exists_related_of_mem here.childrenAt hid
  exact ⟨ref, refers⟩

/-- The base of a slice is found by its name. -/
theorem RefersAt.base_eq {ref : PortRef} {id : NodeId} (h : index.RefersAt decls ref id)
    {span : Span} {slice : PortSlice} (found : index.get? id = some ⟨id, span, .portSlice slice⟩) :
    slice.base =
      (decls.find? fun entry => entry.2.names.any (·.name == slice.name)).map (·.1) := by
  obtain ⟨base, decl, listed, first, -, here⟩ := h
  rw [here] at found
  cases found
  rw [first]
  rfl

end NodeIndex

/-! ### The list of names -/

theorem find?_declared (decl : PortDecl) (base : NodeId) (wanted : Name) :
    (decl.declared base).find? (·.name == wanted) =
      (decl.names.find? (·.name == wanted)).map fun listed =>
        { name := listed.name, base, dir := decl.dir, kind := decl.kind, ty := decl.ty
          default := listed.init } := by
  rw [PortDecl.declared, List.find?_map]
  rfl

/-- The first entry with a name comes from the first declaration that lists it. -/
theorem exists_of_find?_declared {decls : List (NodeId × PortDecl)} {wanted : Name}
    {port : DeclaredPort}
    (h : (decls.flatMap fun entry => entry.2.declared entry.1).find? (·.name == wanted) =
      some port) :
    ∃ base decl listed,
      decls.find? (fun entry => entry.2.names.any (·.name == wanted)) = some (base, decl) ∧
      decl.names.find? (·.name == wanted) = some listed ∧
      port = ⟨listed.name, base, decl.dir, decl.kind, decl.ty, listed.init⟩ := by
  induction decls with
  | nil => cases h
  | cons entry rest ih =>
    obtain ⟨base, decl⟩ := entry
    rw [List.flatMap_cons, List.find?_append, find?_declared] at h
    cases hlisted : decl.names.find? (·.name == wanted) with
    | some listed =>
      rw [hlisted] at h
      cases h
      have any : decl.names.any (·.name == wanted) = true :=
        List.any_eq_true.mpr ⟨listed, List.mem_of_find?_eq_some hlisted,
          List.find?_some (p := fun entry : DeclName => entry.name == wanted) hlisted⟩
      refine ⟨base, decl, listed, ?_, hlisted, rfl⟩
      rw [List.find?_cons, any]
    | none =>
      rw [hlisted] at h
      obtain ⟨base', decl', listed, first, found, rfl⟩ := ih h
      have any : decl.names.any (·.name == wanted) = false := by
        simpa using hlisted
      refine ⟨base', decl', listed, ?_, found, rfl⟩
      rw [List.find?_cons, any, first]

namespace Layout

/-- The port declarations of a scope are those among its items. -/
theorem forall₂_portDecls (name : Nat → NodeId) (items : List SourceItem) (k q : Nat) :
    List.Forall₂
      (fun decl node => node.span = decl.1 ∧ node.content = .declaration (.port decl.2))
      (portDeclsOf items) (Node.inGroup ((itemTrees name items k q).map node) .ports) := by
  induction items generalizing k q with
  | nil => exact .nil
  | cons item rest ih =>
    have later := ih (k + item.declareCost) (q + item.expandCost)
    rw [itemTrees_cons, List.map_cons, Node.inGroup, List.filter_cons, placedItem,
      group?_itemTree]
    cases item with
    | declaration span decl =>
      cases decl with
      | port decl => exact .cons ⟨rfl, rfl⟩ later
      | _ => exact later
    | _ => exact later

theorem declaredBy_eq {decls : List (Span × PortDecl)} {nodes : List Node}
    (h : List.Forall₂
      (fun decl node => node.span = decl.1 ∧ node.content = .declaration (.port decl.2))
      decls nodes) :
    declaredBy nodes = ((nodes.map (·.id)).zip (decls.map (·.2))).flatMap
      fun entry => entry.2.declared entry.1 := by
  induction h with
  | nil => rfl
  | cons same _ ih =>
    rw [declaredBy, List.flatMap_cons, same.2]
    exact congrArg _ ih

/-! ### The ports -/

theorem sliceTrees_of_not_ansi {entry : HeaderEntry} (style : entry.isAnsi = false)
    (declared : List DeclaredPort) (previous : Option AnsiPort) (k : Nat) :
    sliceTrees name declared previous entry k = refTrees name declared entry.refs k := by
  cases entry with
  | ansi span entry => cases style
  | named span outer refs => cases refs <;> rfl
  | unnamed span refs => rfl

variable {name : Nat → NodeId} {index : NodeIndex} {decls : List (NodeId × PortDecl)}

theorem refersAt_refTrees {refs : List PortRef} {declared : List DeclaredPort}
    (hdeclared : declared = decls.flatMap fun entry => entry.2.declared entry.1)
    (listed : ∀ ref ∈ refs, (declared.find? (·.name == ref.name)).isSome = true) {k : Nat}
    (resolves : index.Resolves (refTrees name declared refs k)) :
    List.Forall₂ (index.RefersAt decls) refs
      ((refTrees name declared refs k).map NodeTree.id) := by
  induction refs generalizing k with
  | nil => exact .nil
  | cons ref rest ih =>
    obtain ⟨here, later⟩ := List.forall_mem_cons.mp listed
    obtain ⟨port, hport⟩ := Option.isSome_iff_exists.mp here
    refine .cons ?_ (ih later resolves.tail)
    have found := resolves.head
    rw [hdeclared] at hport
    obtain ⟨base, decl, first, hbase, hfirst, rfl⟩ := exists_of_find?_declared hport
    rw [← hdeclared] at hport
    refine ⟨base, decl, first, hbase, hfirst, found.trans (congrArg some ?_)⟩
    show ({ id := name k, span := ref.span
            content := .portSlice (refSlice ref (declared.find? (·.name == ref.name))) } : Node) = _
    rw [hport]
    rfl

theorem entryAt_entryTrees {header : List HeaderEntry} {declared : List DeclaredPort}
    (style : ∀ entry ∈ header, entry.isAnsi = false)
    (hdeclared : declared = decls.flatMap fun entry => entry.2.declared entry.1)
    (listed : ∀ ref ∈ header.flatMap HeaderEntry.refs,
      (declared.find? (·.name == ref.name)).isSome = true)
    {previous : Option AnsiPort} {k : Nat}
    (resolves : index.Resolves (entryTrees name declared previous header k)) :
    List.Forall₂ (index.EntryAt decls) header
      ((entryTrees name declared previous header k).map NodeTree.id) := by
  induction header generalizing previous k with
  | nil => exact .nil
  | cons entry rest ih =>
    obtain ⟨here, later⟩ := List.forall_mem_cons.mp style
    rw [List.flatMap_cons] at listed
    obtain ⟨hrefs, hrest⟩ := List.forall_mem_append.mp listed
    refine .cons ?_ (ih later hrest resolves.tail)
    have below := resolves.below
    rw [sliceTrees_of_not_ansi here] at below
    refine ⟨_, resolves.head, ?_⟩
    rw [sliceTrees_of_not_ansi here]
    exact refersAt_refTrees hdeclared hrefs below

/-- The references of a unit without a fault are declared. -/
theorem isSome_find?_ownDeclared {source : SourceUnit} (sound : source.audit.fault = none)
    (k : Nat) : ∀ ref ∈ source.header.flatMap HeaderEntry.refs,
      ((ownDeclared name source k).find? (·.name == ref.name)).isSome = true := by
  intro ref href
  obtain ⟨kind, unitName, nameSpan, span, header, items⟩ := source
  have fine : (SourceUnit.mk kind unitName nameSpan span header items).audit.fault = none := sound
  obtain ⟨-, -, hheader⟩ := SourceUnit.sound_parts fine
  rw [auditHeader_of_fault_eq_none hheader, fault_auditEntries, undeclaredRef?,
    Option.map_eq_none_iff] at hheader
  have declared : items.any (·.declaresPort ref.name) = true := by
    simpa using List.find?_eq_none.mp hheader ref href
  exact (declares_declaredBy name items (k + 1) _ ref.name).trans declared

/-- The slices of a header are owned by their ports, each by one. -/
theorem nodup_slices {source : SourceUnit} {k : Nat} (hname : Function.Injective name)
    (resolves : index.Resolves (ports name source k)) :
    (((ports name source k).map NodeTree.id).flatMap index.childrenAt).Nodup := by
  have linked : Linked (ports name source k) :=
    linked_entryTrees name (ownDeclared name source k) none source.header _
  have distinct : ((nodesOf (ports name source k)).map (·.id)).Nodup :=
    (numbered_entryTrees name (ownDeclared name source k) none source.header _).nodup hname
  have owned : ((ports name source k).map NodeTree.id).flatMap index.childrenAt =
      (ports name source k).flatMap fun port => port.owned.map NodeTree.id := by
    rw [List.flatMap_map]
    refine List.flatMap_congr fun port hport => ?_
    rw [NodeIndex.childrenAt_of_get? (resolves.root hport)]
    exact linked port (mem_subtreesOf_of_mem hport)
  rw [owned]
  exact (nodup_owned distinct).sublist ((roots_sublist (ports name source k)).flatMap _)

/-- The header of a unit without a fault refers to the unit's own declarations. -/
theorem refersTo_placedUnit {source : SourceUnit} {k : Nat} (hname : Function.Injective name)
    (sound : source.audit.fault = none) (style : ∀ entry ∈ source.header, entry.isAnsi = false)
    (resolves : index.Resolves (unitTree name source k).owned) :
    index.RefersTo source (placedUnit name source k).content := by
  rw [unitTree_eq] at resolves
  obtain ⟨outer, inside⟩ := NodeIndex.resolves_append.mp resolves
  obtain ⟨hmembers, -⟩ :=
    NodeIndex.resolves_append.mp (inside.perm (arrange_members_perm name source.items (k + 1)))
  have decls :=
    forall₂_portDecls name source.items (k + 1) (k + 1 + declareCosts source.items)
  have hdeclared := declaredBy_eq decls
  rw [declaredBy_inGroup] at hdeclared
  have entries := entryAt_entryTrees style hdeclared (isSome_find?_ownDeclared sound k) outer
  have slices := nodup_slices hname outer
  refine ⟨?_, entries, slices, ?_⟩
  · have found : ∀ decl ∈ Node.inGroup ((members name source.items (k + 1)).map node) .ports,
        index.get? decl.id = some decl := by
      intro decl hdecl
      obtain ⟨tree, htree, rfl⟩ := List.mem_map.mp (Node.mem_inGroup.mp hdecl).1
      exact hmembers.root htree
    show List.Forall₂ _ _ ((Node.inGroup ((members name source.items (k + 1)).map node) .ports).map
      (·.id))
    have both := (List.forall₂_and_left _ _).mpr ⟨found, decls.flip⟩
    rw [List.forall₂_map_right_iff]
    refine both.flip.imp fun decl node ⟨here, span, content⟩ => ?_
    rw [here, ← span, ← content]
  · intro first hfirst second hsecond span span' slice slice' found found' same
    obtain ⟨ref, refers⟩ := NodeIndex.exists_ref_of_mem entries hfirst
    obtain ⟨ref', refers'⟩ := NodeIndex.exists_ref_of_mem entries hsecond
    rw [refers.base_eq found, refers'.base_eq found', same]

end Layout

/-- Ports that a header refers to, in the unit itself or in one nested in it, resolve to the first
declaration among the unit's own items. These declarations are in no other body. -/
theorem referred_ports_of_elaboratesTo {source : SourceUnit} {u : ElaboratedUnit}
    (h : source.ElaboratesTo u) :
    (∀ id node unit, u.nodes.get? id = some node → node.content = .unit unit →
      ∃ nested, u.Becomes source (.unit nested) node) ∧
    ∀ nested node, u.Becomes source (.unit nested) node →
      (∀ entry ∈ nested.header, entry.isAnsi = false) →
      ∃ unit, node.content = .unit unit ∧ u.nodes.RefersTo nested unit ∧
        ∀ decl ∈ unit.body.ports, ∀ other body,
          (other = u.node ∨ ∃ id, u.nodes.get? id = some other) →
          other.content.body? = some body → decl ∈ body.ids → other = node := by
  refine ⟨fun id node unit found hunit => h.exists_unit_becomes found hunit, ?_⟩
  intro nested node becomes style
  obtain ⟨name, k, i, hname, laid, htree, sound, rfl⟩ := h.exists_unitTree becomes
  have root : (unitTree name nested i).node = (placedUnit name nested i).map .unit := by
    rw [unitTree_eq]
  refine ⟨(placedUnit name nested i).content, congrArg Placed.content root,
    refersTo_placedUnit hname sound style (laid.resolves htree), ?_⟩
  intro decl hdecl other body hother hbody hlisted
  obtain ⟨tree, htree', rfl⟩ := laid.exists_tree hother
  obtain ⟨ports, hchildren⟩ := Content.children_of_body? hbody
  have owner : decl ∈ (unitTree name nested i).node.content.children := by
    rw [root]
    simp [Placed.map, Content.children, Body.ids, hdecl]
  have owner' : decl ∈ tree.node.content.children := by
    rw [hchildren]
    exact List.mem_append_right _ hlisted
  -- Trees that own the same number are the same tree.
  have distinct := (numbered_unitTree name source k).nodup hname
  rw [(linked_unitTree name source k).owner_unique distinct htree' htree owner' owner]

/-- A nested module with two references to a name that two of its declarations list, one of them
twice, and that the module around it declares as well. -/
theorem referred_ports_of_shared_name :
    let decl : PortDir → List DeclName → SourceItem := fun dir names =>
      .declaration .dummy (.port ⟨dir, .net .wire, .implicit .dummy, names⟩)
    let plain : DeclName := ⟨.dummy, .empty, none⟩
    let set : DeclName := ⟨.dummy, .empty, some ⟨.dummy, .int 1⟩⟩
    let ref : PortRef := ⟨.dummy, .empty, []⟩
    let nested : SourceUnit := ⟨.module, .empty, .dummy, .dummy,
      [.unnamed .dummy [ref, ref], .named .dummy .empty none],
      [decl .input [set, plain], decl .output [plain]]⟩
    let source : SourceUnit :=
      ⟨.module, .empty, .dummy, .dummy, [], [decl .ref [plain], .unit nested]⟩
    ∃ u left node unit, source.elaborate IdCounter.fresh = (.ok u, left) ∧
      u.Becomes source (.unit nested) node ∧ (∀ entry ∈ nested.header, entry.isAnsi = false) ∧
      node.content = .unit unit ∧ u.nodes.RefersTo nested unit ∧ unit.body.ports = [⟨4⟩, ⟨5⟩] ∧
      unit.ports.flatMap u.nodes.childrenAt = [⟨7⟩, ⟨8⟩] := by
  intro decl plain set ref nested source
  have accepted : (source.elaborate IdCounter.fresh).1.isOk = true := by decide +kernel
  have inside : (source.elaborate IdCounter.fresh).1.toOption.map (fun u =>
      (u.unit.content.body.subHierarchies[0]?,
        (u.nodes.get? ⟨3⟩).bind (·.content.asUnit?) |>.map fun unit =>
          (unit.body.ports, unit.ports.flatMap u.nodes.childrenAt))) =
        some (some ⟨3⟩, some ([⟨4⟩, ⟨5⟩], [⟨7⟩, ⟨8⟩])) := by decide +kernel
  obtain ⟨u, left, h⟩ := exists_of_isOk accepted
  rw [h] at inside
  obtain ⟨hid, lists⟩ := Prod.mk.inj (Option.some.inj inside)
  have style : ∀ entry ∈ nested.header, entry.isAnsi = false := by decide
  cases found : u.nodes.get? ⟨3⟩ with
  | none =>
    rw [found] at lists
    cases lists
  | some node =>
    have becomes : u.Becomes source (.unit nested) node := .inside .whole rfl rfl hid found
    obtain ⟨unit, hunit, refers, -⟩ :=
      (referred_ports_of_elaboratesTo (.alone h)).2 nested node becomes style
    rw [found, Option.bind_some, hunit] at lists
    obtain ⟨decls, slices⟩ := Prod.mk.inj (Option.some.inj lists)
    exact ⟨u, left, node, unit, h, becomes, style, hunit, refers, decls, slices⟩

end DesignTree
