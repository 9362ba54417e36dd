import DesignTree.Proofs.Ports
import Mathlib.Data.List.Induction
/-!
# DesignTree.Proofs.Ports.Ansi

Headers that declare their ports.

What such an entry leaves out is filled in step by step, each time from the port before
(`AnsiPort.infer`). Read off the header as a whole it has a closed form: the direction is the last
one that is given, and kind and type are those of the last entry that gives more than a name
(`AnsiPort.closedForm?`). One more entry turns the closed form into what a step makes of it
(`closedForm?_append_singleton`), so the two agree along a header of any length.
-/

namespace DesignTree

open NodeTree Layout

namespace AnsiPort

/-! ### The closed form -/

/-- The last direction that is given, or `inout`. -/
def lastDir (entries : List AnsiEntry) : PortDir :=
  (entries.reverse.findSome? (·.dir)).getD .inout

/-- The last entry that gives more than a name, or the first one if none does. -/
def standing? (entries : List AnsiEntry) : Option AnsiEntry :=
  (entries.reverse.find? fun entry => !isBare entry).or entries.head?

/-- The kind of a port where none is given. -/
def impliedKind (dir : PortDir) (ty : DataType) : PortKind :=
  if dir = .input ∨ dir = .inout ∨ dir = .output ∧ ty.kind = .implicit then .net .wire else .var

/-- The type of a port; only an interface may be without a keyword. -/
def typeOf (kind : PortKind) (ty : DataType) : DataType :=
  if kind.isInterface = true then ty
  else { ty with kind := if ty.kind = .implicit then .logic else ty.kind }

/-- What the last of some entries declares. -/
def closedForm? (entries : List AnsiEntry) : Option AnsiPort :=
  (standing? entries).map fun standing =>
    let dir := lastDir entries
    let kind := standing.kind.getD (impliedKind dir standing.ty)
    { dir, kind, ty := typeOf kind standing.ty }

theorem impliedKind_eq (dir : PortDir) (ty : DataType) :
    impliedKind dir ty = defaultKind dir ty := by
  cases dir <;> simp [impliedKind, defaultKind]

theorem typeOf_eq (kind : PortKind) (ty : DataType) : typeOf kind ty = completeType kind ty := by
  unfold typeOf completeType
  by_cases interface : kind.isInterface = true
  · simp [interface]
  · by_cases missing : ty.kind = .implicit <;> simp [interface, missing]

theorem lastDir_append_singleton (entries : List AnsiEntry) (entry : AnsiEntry) :
    lastDir (entries ++ [entry]) = entry.dir.getD (lastDir entries) := by
  unfold lastDir
  rw [List.reverse_append, List.reverse_singleton, List.singleton_append, List.findSome?_cons]
  cases entry.dir <;> rfl

theorem exists_standing (first : AnsiEntry) (rest : List AnsiEntry) :
    ∃ standing, standing? (first :: rest) = some standing := by
  cases found : (first :: rest).reverse.find? fun entry => !isBare entry with
  | none => exact ⟨first, by rw [standing?, found]; rfl⟩
  | some standing => exact ⟨standing, by rw [standing?, found]; rfl⟩

theorem standing?_of_bare {entry : AnsiEntry} (bare : isBare entry = true) (first : AnsiEntry)
    (rest : List AnsiEntry) : standing? (first :: rest ++ [entry]) = standing? (first :: rest) := by
  simp [standing?, bare]

theorem standing?_of_not_bare {entry : AnsiEntry} (full : isBare entry = false)
    (entries : List AnsiEntry) : standing? (entries ++ [entry]) = some entry := by
  simp [standing?, full]

/-- The direction that an entry has after others. -/
theorem lastDir_eq (entries : List AnsiEntry) (entry : AnsiEntry) :
    (entry.dir.or ((closedForm? entries).map (·.dir))).getD .inout =
      lastDir (entries ++ [entry]) := by
  rw [lastDir_append_singleton]
  cases entries with
  | nil => cases entry.dir <;> rfl
  | cons first rest =>
    obtain ⟨standing, hstanding⟩ := exists_standing first rest
    rw [closedForm?, hstanding]
    cases entry.dir <;> rfl

/-- An entry that stands for itself takes no more than the direction from those before it. -/
theorem closedForm?_of_standing {entries : List AnsiEntry} {entry : AnsiEntry}
    (h : standing? (entries ++ [entry]) = some entry) :
    closedForm? (entries ++ [entry]) = some (complete (closedForm? entries) entry) := by
  simp only [closedForm?, h, Option.map_some, complete, ← lastDir_eq, impliedKind_eq, typeOf_eq]

/-- One more entry in a header. -/
theorem closedForm?_append_singleton (entries : List AnsiEntry) (entry : AnsiEntry) :
    closedForm? (entries ++ [entry]) = some (infer (closedForm? entries) entry) := by
  by_cases bare : isBare entry = true
  · cases entries with
    | nil =>
      -- The first entry stands for itself even if it is bare.
      refine closedForm?_of_standing ?_
      simp [standing?, bare]
    | cons first rest =>
      have undirected : entry.dir = none := by
        simp only [isBare, Bool.and_eq_true, Option.isNone_iff_eq_none] at bare
        exact bare.1.1
      have same : closedForm? (first :: rest ++ [entry]) = closedForm? (first :: rest) := by
        rw [closedForm?, closedForm?, standing?_of_bare bare, lastDir_append_singleton, undirected]
        rfl
      obtain ⟨standing, hstanding⟩ := exists_standing first rest
      rw [same, closedForm?, hstanding, Option.map_some, infer, if_pos bare]
  · have full := Bool.eq_false_iff.mpr bare
    rw [closedForm?_of_standing (standing?_of_not_bare full entries)]
    cases closedForm? entries with
    | none => rfl
    | some before => rw [infer, if_neg bare]

end AnsiPort

/-! ### Headers -/

/-- The entry that a header has for a port declared there. -/
def HeaderEntry.ofAnsi (entry : Span × AnsiEntry) : HeaderEntry := .ansi entry.1 entry.2

/-- What is carried along a header of such entries. -/
theorem foldl_carried (entries : List (Span × AnsiEntry)) :
    (entries.map HeaderEntry.ofAnsi).foldl HeaderEntry.carried none =
      AnsiPort.closedForm? (entries.map (·.2)) := by
  induction entries using List.reverseRecOn with
  | nil => rfl
  | append_singleton entries entry ih =>
    rw [List.map_append, List.foldl_append, ih, List.map_append, List.map_singleton,
      List.map_singleton, AnsiPort.closedForm?_append_singleton]
    rfl

/-- There is a port under a number, as an entry declares it: with one slice, which has the entry's
name, place and default, and refers to no declaration. -/
def NodeIndex.AnsiPortAt (index : NodeIndex) (span : Span) (entry : AnsiEntry) (port : AnsiPort)
    (id : NodeId) : Prop :=
  ∃ slice, index.get? id = some ⟨id, span, .port { name := some entry.name, slices := [slice] }⟩ ∧
    index.get? slice = some ⟨slice, span, .portSlice
      { name := entry.name, selects := [], base := none, dir := port.dir, kind := port.kind
        ty := port.ty, default := entry.default }⟩

/-- Ports that are declared in a header, of the unit itself or of one nested in it, are what the
closed form says: one port for each entry, in order, with direction, kind and type read off the
entries up to its own. -/
theorem ansi_ports_of_elaboratesTo {source : SourceUnit} {u : ElaboratedUnit}
    (h : source.ElaboratesTo u) :
    (∀ id node unit, u.nodes.get? id = some node → node.content = .unit unit →
      ∃ nested, u.Becomes source (.unit nested) node) ∧
    ∀ nested node (entries : List (Span × AnsiEntry)), u.Becomes source (.unit nested) node →
      nested.header = entries.map HeaderEntry.ofAnsi →
      ∃ unit, node.content = .unit unit ∧ unit.ports.length = entries.length ∧
        ∀ i span entry, entries[i]? = some (span, entry) →
          ∃ id port, unit.ports[i]? = some id ∧
            AnsiPort.closedForm? ((entries.take (i + 1)).map (·.2)) = some port ∧
            u.nodes.AnsiPortAt span entry port id := by
  refine ⟨fun id node unit found hunit => h.exists_unit_becomes found hunit, ?_⟩
  intro nested node entries becomes hheader
  obtain ⟨name, k, j, -, laid, htree, -, rfl⟩ := h.exists_unitTree becomes
  have resolves := laid.resolves htree
  rw [unitTree_eq] at resolves ⊢
  obtain ⟨outer, -⟩ := NodeIndex.resolves_append.mp resolves
  refine ⟨(placedUnit name nested j).content, rfl, ?_, fun i span entry hentry => ?_⟩
  · show ((ports name nested j).map NodeTree.id).length = entries.length
    rw [List.length_map, length_ports, hheader, List.length_map]
  · have place : nested.header[i]? = some (.ansi span entry) := by
      rw [hheader, List.getElem?_map, hentry]
      rfl
    obtain ⟨m, hport⟩ := getElem?_ports name place j
    rw [hheader, ← List.map_take, foldl_carried] at hport
    have closed : AnsiPort.closedForm? ((entries.take (i + 1)).map (·.2)) =
        some (.infer (AnsiPort.closedForm? ((entries.take i).map (·.2))) entry) := by
      rw [List.take_add_one, hentry, List.map_append]
      exact AnsiPort.closedForm?_append_singleton ..
    have here := List.mem_of_getElem? hport
    refine ⟨name m, _, ?_, closed, name (m + 1), outer.root here, ?_⟩
    · show ((ports name nested j).map NodeTree.id)[i]? = some (name m)
      rw [List.getElem?_map, hport]
      rfl
    · exact (outer.owned (mem_subtreesOf_of_mem here)).root (List.mem_singleton_self _)

/-- A nested interface: after a bare first entry comes an output with a signing alone, which a bare
entry repeats, and of which a variable takes the direction. -/
theorem ansi_ports_of_nested_interface :
    let signed : DataType := { DataType.implicit .dummy with sign := some .signed }
    let entry : Option PortDir → Option PortKind → DataType → Span × AnsiEntry :=
      fun dir kind ty => (.dummy, ⟨.empty, dir, kind, ty, none⟩)
    let entries := [entry none none (.implicit .dummy), entry (some .output) none signed,
      entry none none (.implicit .dummy), entry none (some .var) (.implicit .dummy)]
    let nested : SourceUnit :=
      ⟨.interface, .empty, .dummy, .dummy, entries.map HeaderEntry.ofAnsi, []⟩
    let source : SourceUnit := ⟨.module, .empty, .dummy, .dummy, [], [.unit nested]⟩
    ∃ u left node unit, source.elaborate IdCounter.fresh = (.ok u, left) ∧
      u.Becomes source (.unit nested) node ∧ node.content = .unit unit ∧ unit.ports.length = 4 ∧
      (∃ id, unit.ports[2]? = some id ∧ u.nodes.AnsiPortAt .dummy entries[2].2
        ⟨.output, .net .wire, { signed with kind := .logic }⟩ id) ∧
      ∃ id, unit.ports[3]? = some id ∧ u.nodes.AnsiPortAt .dummy entries[3].2
        ⟨.output, .var, { DataType.implicit .dummy with kind := .logic }⟩ id := by
  intro signed entry entries nested source
  have accepted : (source.elaborate IdCounter.fresh).1.isOk = true := by decide +kernel
  have inside : (source.elaborate IdCounter.fresh).1.toOption.map (fun u =>
      (u.unit.content.body.subHierarchies[0]?, u.nodes.contains ⟨2⟩)) =
        some (some ⟨2⟩, true) := by decide +kernel
  obtain ⟨u, left, h⟩ := exists_of_isOk accepted
  rw [h] at inside
  obtain ⟨hid, taken⟩ := Prod.mk.inj (Option.some.inj inside)
  obtain ⟨node, found⟩ := NodeIndex.contains_eq_true.mp taken
  have becomes : u.Becomes source (.unit nested) node := .inside .whole rfl rfl hid found
  obtain ⟨unit, hunit, length, ports⟩ :=
    (ansi_ports_of_elaboratesTo (.alone h)).2 nested node entries becomes rfl
  obtain ⟨id, port, hport, closed, declares⟩ := ports 2 .dummy entries[2].2 rfl
  obtain ⟨id', port', hport', closed', declares'⟩ := ports 3 .dummy entries[3].2 rfl
  cases closed
  cases closed'
  exact ⟨u, left, node, unit, h, becomes, hunit, length, ⟨id, hport, declares⟩,
    id', hport', declares'⟩

end DesignTree
