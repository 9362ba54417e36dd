import DesignTree.Proofs.Ports.Ansi
/-!
# DesignTree.Proofs.Ports.Explicit

Headers with everything written out.

An entry of a header that gives direction, kind and type takes nothing from the entries before it
and never repeats one. So when each entry of a header is made to give what its port was inferred to
be (`AnsiPort.spellOut`), the two headers take different ways at almost every entry. They come to
the same ports all the same. The one thing that could still be changed is a missing type keyword,
and an inferred port lacks it only where none is filled in: at an interface (`AnsiPort.Typed`). This
is kept along a header, also where an entry repeats the interface before it.
-/

namespace DesignTree

open NodeTree Layout

/-- The entry with all parts of a port given. -/
def AnsiEntry.giving (entry : AnsiEntry) (port : AnsiPort) : AnsiEntry :=
  { entry with dir := some port.dir, kind := some port.kind, ty := port.ty }

namespace AnsiPort

/-- Only an interface port is without a type keyword. -/
def Typed (port : AnsiPort) : Prop := port.ty.kind = .implicit → port.kind.isInterface = true

/-- A header in which each entry gives what its port is inferred to be. -/
def spellOut : Option AnsiPort → List (Span × AnsiEntry) → List (Span × AnsiEntry)
  | _, [] => []
  | previous, (span, entry) :: rest =>
    let port := infer previous entry
    (span, entry.giving port) :: spellOut (some port) rest

variable {previous : Option AnsiPort} {port : AnsiPort}

/-! ### Inferred ports -/

theorem typed_complete (previous : Option AnsiPort) (entry : AnsiEntry) :
    (complete previous entry).Typed := by
  unfold Typed complete completeType
  dsimp only
  split
  next => simp
  next filled =>
    intro missing
    simpa [missing] using filled

/-- A repeated port is as good as the one before. -/
theorem typed_infer (h : ∀ before ∈ previous, before.Typed) (entry : AnsiEntry) :
    (infer previous entry).Typed := by
  cases previous with
  | none => exact typed_complete none entry
  | some before =>
    rw [infer]
    split
    next => exact h before rfl
    next => exact typed_complete (some before) entry

theorem typed_foldl_carried (h : ∀ before ∈ previous, before.Typed) (header : List HeaderEntry) :
    ∀ before ∈ header.foldl HeaderEntry.carried previous, before.Typed := by
  induction header generalizing previous with
  | nil => exact h
  | cons entry rest ih =>
    refine ih fun before carried => ?_
    cases entry with
    | ansi span entry =>
      cases carried
      exact typed_infer h entry
    | named span name refs => exact h before carried
    | unnamed span refs => exact h before carried

/-- An entry that gives a port declares that port, whatever comes before it. -/
theorem infer_giving (h : port.Typed) (previous : Option AnsiPort) (entry : AnsiEntry) :
    infer previous (entry.giving port) = port := by
  have same : completeType port.kind port.ty = port.ty := by
    refine if_neg fun ⟨missing, plain⟩ => ?_
    rw [h missing] at plain
    cases plain
  have all : complete previous (entry.giving port) = port := by
    simp [complete, AnsiEntry.giving, same]
  cases previous with
  | none => exact all
  | some before =>
    have full : isBare (entry.giving port) = false := rfl
    rw [infer, full]
    exact all

/-! ### Headers -/

theorem length_spellOut (previous : Option AnsiPort) (entries : List (Span × AnsiEntry)) :
    (spellOut previous entries).length = entries.length := by
  induction entries generalizing previous with
  | nil => rfl
  | cons entry rest ih => simp [spellOut, ih]

theorem getElem?_spellOut {entries : List (Span × AnsiEntry)} {i : Nat} {span : Span}
    {entry : AnsiEntry} (h : entries[i]? = some (span, entry)) (previous : Option AnsiPort) :
    (spellOut previous entries)[i]? = some (span, entry.giving (.infer
      (((entries.map HeaderEntry.ofAnsi).take i).foldl HeaderEntry.carried previous) entry)) := by
  induction entries generalizing previous i with
  | nil => simp at h
  | cons first rest ih =>
    cases i with
    | zero =>
      cases h
      rfl
    | succ i => exact ih h _

end AnsiPort

@[simp] theorem HeaderEntry.isAnsi_ofAnsi (entry : Span × AnsiEntry) :
    (ofAnsi entry).isAnsi = true := rfl

namespace Elaboration

variable {σ : Type} [IdSupply σ]

/-- The ports of a header do not change when their parts are written out. -/
theorem elaborateEntries_spellOut (declared : List DeclaredPort)
    (entries : List (Span × AnsiEntry)) {previous : Option AnsiPort}
    (h : ∀ before ∈ previous, before.Typed) (other : Option AnsiPort) :
    (elaborateEntries declared other ((AnsiPort.spellOut previous entries).map .ofAnsi) :
        Elaboration σ (List NodeId)) =
      elaborateEntries declared previous (entries.map .ofAnsi) := by
  induction entries generalizing previous other with
  | nil => rfl
  | cons first rest ih =>
    obtain ⟨span, entry⟩ := first
    have typed := AnsiPort.typed_infer h entry
    have later : ∀ before ∈ some (AnsiPort.infer previous entry), before.Typed := by
      simpa using typed
    simp only [AnsiPort.spellOut, List.map_cons, HeaderEntry.ofAnsi, elaborateEntries,
      elaborateSlices, HeaderEntry.carried, AnsiPort.infer_giving typed]
    simp only [ih later]
    rfl

/-- A header that declares its ports is of one style. -/
theorem elaborateHeader_ofAnsi {entries : List (Span × AnsiEntry)} (h : entries ≠ [])
    (body : Body) :
    (elaborateHeader (entries.map .ofAnsi) body : Elaboration σ (List NodeId)) =
      match body.ports with
      | [] => elaborateEntries [] none (entries.map .ofAnsi)
      | decl :: _ =>
        lookup decl >>= fun node => throw (.structural node.span .portDeclUnderAnsiHeader) := by
  have style : (entries.map HeaderEntry.ofAnsi).find? (·.isAnsi != true) = none := by
    simp
  cases entries with
  | nil => exact absurd rfl h
  | cons first rest =>
    rw [List.map_cons] at style ⊢
    cases hports : body.ports with
    | nil => simp only [elaborateHeader, HeaderEntry.isAnsi_ofAnsi, style, if_true, hports]
    | cons decl decls =>
      simp only [elaborateHeader, HeaderEntry.isAnsi_ofAnsi, style, if_true, hports]

theorem elaborateHeader_spellOut (entries : List (Span × AnsiEntry)) (body : Body) :
    (elaborateHeader ((AnsiPort.spellOut none entries).map .ofAnsi) body :
        Elaboration σ (List NodeId)) =
      elaborateHeader (entries.map .ofAnsi) body := by
  by_cases h : entries = []
  · rw [h]
    rfl
  · have h' : AnsiPort.spellOut none entries ≠ [] := by
      rwa [← List.length_pos_iff, AnsiPort.length_spellOut, List.length_pos_iff]
    rw [elaborateHeader_ofAnsi h, elaborateHeader_ofAnsi h',
      elaborateEntries_spellOut [] entries (by simp) none]

/-- A unit with such a header is elaborated as before, whatever comes of it. -/
theorem elaborateUnit_spellOut {source : SourceUnit} {entries : List (Span × AnsiEntry)}
    (h : source.header = entries.map .ofAnsi) :
    (elaborateUnit { source with header := (AnsiPort.spellOut none entries).map .ofAnsi } :
        Elaboration σ (Placed DesignUnit)) =
      elaborateUnit source := by
  obtain ⟨kind, name, nameSpan, span, header, items⟩ := source
  dsimp only at h ⊢
  subst h
  have empty : ((AnsiPort.spellOut none entries).map HeaderEntry.ofAnsi).isEmpty =
      (entries.map HeaderEntry.ofAnsi).isEmpty := by
    cases entries <;> rfl
  simp only [elaborateUnit, elaborateHeader_spellOut, empty]

end Elaboration

/-! ### Slices -/

/-- The slices below a port have a type keyword, unless they are those of an interface. -/
def NodeIndex.TypedSlices (index : NodeIndex) (id : NodeId) : Prop :=
  ∀ span port, index.get? id = some ⟨id, span, .port port⟩ →
    ∀ below ∈ port.slices, ∀ span' slice,
      index.get? below = some ⟨below, span', .portSlice slice⟩ →
        slice.ty.kind = .implicit → slice.kind.isInterface = true

/-- The slice of an entry that declares its port is the only one there. -/
theorem NodeIndex.AnsiPortAt.typedSlices {index : NodeIndex} {span : Span} {entry : AnsiEntry}
    {port : AnsiPort} {id : NodeId} (h : index.AnsiPortAt span entry port id)
    (typed : port.Typed) : index.TypedSlices id := by
  obtain ⟨only, hport, hslice⟩ := h
  intro span' found hfound below hbelow span'' slice hfound' missing
  rw [hport] at hfound
  cases hfound
  obtain rfl := List.mem_singleton.mp hbelow
  rw [hslice] at hfound'
  cases hfound'
  exact typed missing

namespace SourceUnit.ElaboratesTo

variable {source nested : SourceUnit} {u : ElaboratedUnit} {node : Node}

/-- The port of an entry that declares it, with what the entry and those before it come to. -/
theorem exists_ansiPortAt (h : source.ElaboratesTo u)
    (becomes : u.Becomes source (.unit nested) node) :
    ∃ unit, node.content = .unit unit ∧ unit.ports.length = nested.header.length ∧
      ∀ i span entry, nested.header[i]? = some (.ansi span entry) →
        ∃ id, unit.ports[i]? = some id ∧ u.nodes.AnsiPortAt span entry
          (.infer ((nested.header.take i).foldl HeaderEntry.carried none) entry) id := by
  obtain ⟨name, k, j, -, laid, htree, -, rfl⟩ := h.exists_unitTree becomes
  have resolves := laid.resolves htree
  rw [unitTree_eq] at resolves ⊢
  obtain ⟨outer, -⟩ := NodeIndex.resolves_append.mp resolves
  have listed : (placedUnit name nested j).content.ports =
      (ports name nested j).map NodeTree.id := rfl
  refine ⟨(placedUnit name nested j).content, rfl, ?_, fun i span entry hentry => ?_⟩
  · rw [listed, List.length_map, length_ports]
  · obtain ⟨m, hport⟩ := getElem?_ports name hentry j
    have here := List.mem_of_getElem? hport
    refine ⟨name m, ?_, name (m + 1), outer.root here, ?_⟩
    · rw [listed, List.getElem?_map, hport]
      rfl
    · exact (outer.owned (mem_subtreesOf_of_mem here)).root (List.mem_singleton_self _)

/-- What is declared in a header has a data type. -/
theorem typedSlices (h : source.ElaboratesTo u) (becomes : u.Becomes source (.unit nested) node)
    (ansi : ∀ entry ∈ nested.header, entry.isAnsi = true) {unit : DesignUnit}
    (hunit : node.content = .unit unit) : ∀ id ∈ unit.ports, u.nodes.TypedSlices id := by
  obtain ⟨found, hfound, length, declared⟩ := h.exists_ansiPortAt becomes
  rw [hfound] at hunit
  cases hunit
  intro id hid
  obtain ⟨i, hi, hplace⟩ := List.getElem_of_mem hid
  have hi' : i < nested.header.length := length ▸ hi
  have hentry := List.getElem?_eq_getElem hi'
  cases place : nested.header[i] with
  | named | unnamed =>
    have style := ansi _ (List.mem_of_getElem? hentry)
    rw [place] at style
    cases style
  | ansi span entry =>
    rw [place] at hentry
    obtain ⟨other, hother, port⟩ := declared i span entry hentry
    rw [List.getElem?_eq_getElem hi, hplace] at hother
    cases hother
    -- What the entry may repeat has a type in the same sense.
    have untyped : ∀ before ∈ (none : Option AnsiPort), before.Typed := by simp
    have carried := AnsiPort.typed_foldl_carried untyped (nested.header.take i)
    exact port.typedSlices (AnsiPort.typed_infer carried entry)

end SourceUnit.ElaboratesTo

/-- A unit whose header declares its ports, and the unit that has these ports written out:

* entry by entry the other header gives the direction, the kind and the type of the slice that the
  entry became;
* it is elaborated to the same unit, with the same index and the same numbers left;
* a slice in such a header, of the unit itself or of one nested in it, has a type keyword unless its
  port is an interface. -/
theorem spelled_out_header_elaborates_alike {source : SourceUnit} {ids left : IdCounter}
    {u : ElaboratedUnit} {entries : List (Span × AnsiEntry)}
    (hheader : source.header = entries.map HeaderEntry.ofAnsi)
    (h : source.elaborate ids = (.ok u, left)) :
    let stated : List (Span × AnsiEntry) := AnsiPort.spellOut none entries
    (stated.length = entries.length ∧ u.unit.content.ports.length = entries.length ∧
      ∀ (i : Nat) span entry, entries[i]? = some (span, entry) →
        ∃ id port, u.unit.content.ports[i]? = some id ∧ u.nodes.AnsiPortAt span entry port id ∧
          stated[i]? = some (span, entry.giving port)) ∧
    SourceUnit.elaborate { source with header := stated.map .ofAnsi } ids = (.ok u, left) ∧
    ∀ nested node unit, u.Becomes source (.unit nested) node → node.content = .unit unit →
      (∀ entry ∈ nested.header, entry.isAnsi = true) →
        ∀ id ∈ unit.ports, u.nodes.TypedSlices id := by
  intro stated
  have elaborates : source.ElaboratesTo u := .alone h
  obtain ⟨unit, hunit, length, declared⟩ := elaborates.exists_ansiPortAt .whole
  cases hunit
  refine ⟨⟨AnsiPort.length_spellOut none entries, ?_, fun i span entry hentry => ?_⟩, ?_,
    fun nested node unit becomes hunit ansi => elaborates.typedSlices becomes ansi hunit⟩
  · rw [length, hheader, List.length_map]
  · have place : source.header[i]? = some (.ansi span entry) := by
      rw [hheader, List.getElem?_map, hentry]
      rfl
    obtain ⟨id, hid, port⟩ := declared i span entry place
    refine ⟨id, _, hid, port, ?_⟩
    rw [hheader]
    exact AnsiPort.getElem?_spellOut hentry none
  · rw [← h, SourceUnit.elaborate, SourceUnit.elaborate,
      Elaboration.elaborateUnit_spellOut hheader]

/-- After a bare first entry comes an interface, which a bare entry repeats, and then an output with
a signing alone. With all parts written out, the two interface ports are still without a type
keyword. -/
theorem spelled_out_header_of_interfaces :
    let blank : DataType := .implicit .dummy
    let logic : DataType := { blank with kind := .logic }
    let signed : DataType := { blank with sign := some .signed }
    let bus : PortKind := .interface .empty none
    let entry : Option PortDir → Option PortKind → DataType → Span × AnsiEntry :=
      fun dir kind ty => (.dummy, ⟨.empty, dir, kind, ty, none⟩)
    let entries := [entry none none blank, entry none (some bus) blank, entry none none blank,
      entry (some .output) none signed]
    let stated := [entry (some .inout) (some (.net .wire)) logic,
      entry (some .inout) (some bus) blank, entry (some .inout) (some bus) blank,
      entry (some .output) (some (.net .wire)) { signed with kind := .logic }]
    let source := fun header => SourceUnit.mk .module .empty .dummy .dummy header []
    ∃ u left, (source (entries.map .ofAnsi)).elaborate IdCounter.fresh = (.ok u, left) ∧
      (source (stated.map .ofAnsi)).elaborate IdCounter.fresh = (.ok u, left) ∧
      u.unit.content.ports.length = 4 ∧ ∀ id ∈ u.unit.content.ports, u.nodes.TypedSlices id := by
  intro blank logic signed bus entry entries stated source
  have accepted : ((source (entries.map .ofAnsi)).elaborate IdCounter.fresh).1.isOk = true := by
    decide +kernel
  obtain ⟨u, left, h⟩ := exists_of_isOk accepted
  obtain ⟨⟨-, length, -⟩, alike, typed⟩ := spelled_out_header_elaborates_alike rfl h
  have style : ∀ entry ∈ entries.map HeaderEntry.ofAnsi, entry.isAnsi = true := by decide
  exact ⟨u, left, h, alike, length, typed _ _ _ .whole rfl style⟩

end DesignTree
