import DesignTree.Proofs.Assembly.Session
import DesignTree.Proofs.Faults
/-!
# DesignTree.Proofs.Refusal

How the elaboration of a design ends, read off its source units.

A unit is refused for a fault of its own, or, in a strict design, because its name is written
elsewhere than in a unit before it (`Refused`). The first unit that is refused ends the work, and
what comes after it is of no consequence; if none is, there is a design of all of them
(`elaborate_ends_at_first_refusal`).

The table of names only remembers the last unit of a name. This is enough: in a strict design all
units of a name have it at one place, which is an invariant of the assembly
(`Assembly.Comprises.spans`) and is carried over to the source units here (`Design.AddedAll`).
-/

namespace DesignTree

/-- Whether a unit cannot come after the given ones. -/
def Refused (config : DesignConfig) (earlier : List SourceUnit) (source : SourceUnit) : Prop :=
  source.fault? ≠ none ∨ config.ignoreDuplicateDefs = false ∧
    ∃ other ∈ earlier, other.name = source.name ∧ other.nameSpan ≠ source.nameSpan

/-- Units keep their names and the places of their names. -/
theorem Assembly.LaidOutAll.names_eq {name : Nat → NodeId} {sources : List SourceUnit} {k : Nat}
    {units : List ElaboratedUnit} (laid : LaidOutAll name sources k units) :
    units.map (fun u => (u.unit.content.name, u.unit.content.nameSpan)) =
      sources.map fun source => (source.name, source.nameSpan) := by
  induction laid with
  | nil => rfl
  | cons laid _ ih =>
    rw [List.map_cons, List.map_cons, ih, laid.unit_eq]
    rfl

namespace Design

variable {sources front back : List SourceUnit} {source : SourceUnit} {ids left middle : IdCounter}
  {config : DesignConfig} {units : List ElaboratedUnit} {u : ElaboratedUnit}
  {extended : Assembly} {e : DesignError}

/-! ### Units that were all added -/

/-- The given units were elaborated and all added to a new assembly. -/
structure AddedAll (config : DesignConfig) (sources : List SourceUnit)
    (units : List ElaboratedUnit) (assembly : Assembly) : Prop where
  sound : ∀ source ∈ sources, source.fault? = none
  names : units.map (fun u => (u.unit.content.name, u.unit.content.nameSpan)) =
    sources.map fun source => (source.name, source.nameSpan)
  comprises : assembly.Comprises units
  config : assembly.config = config

theorem addedAll (hfront : elaborateEach front ids = (units.map .ok, middle))
    (hunits : (Assembly.new config).addUnits units = .ok extended) :
    AddedAll config front units extended := by
  obtain ⟨laid, sound⟩ := laidOut_elaborateEach hfront
  obtain ⟨comprises, same⟩ := (Assembly.Comprises.new config).addUnits hunits
  exact
    { sound := fun source hsource => source.fault_audit ▸ sound source hsource
      names := laid.names_eq
      comprises
      config := same }

namespace AddedAll

theorem exists_unit (h : AddedAll config front units extended) {other : SourceUnit}
    (hother : other ∈ front) : ∃ u ∈ units, u.unit.content.name = other.name ∧
      u.unit.content.nameSpan = other.nameSpan := by
  have heading : (other.name, other.nameSpan) ∈
      units.map (fun u => (u.unit.content.name, u.unit.content.nameSpan)) :=
    h.names ▸ List.mem_map_of_mem hother
  obtain ⟨u, hu, same⟩ := List.mem_map.mp heading
  exact ⟨u, hu, Prod.mk.inj same⟩

theorem exists_source (h : AddedAll config front units extended) (hu : u ∈ units) :
    ∃ other ∈ front, other.name = u.unit.content.name ∧
      other.nameSpan = u.unit.content.nameSpan := by
  have heading : (u.unit.content.name, u.unit.content.nameSpan) ∈
      front.map (fun source => (source.name, source.nameSpan)) :=
    h.names ▸ List.mem_map_of_mem hu
  obtain ⟨other, hother, same⟩ := List.mem_map.mp heading
  exact ⟨other, hother, Prod.mk.inj same⟩

/-- In a strict design, a name is written at one place. -/
theorem nameSpan_eq (h : AddedAll config front units extended)
    (strict : config.ignoreDuplicateDefs = false) {a b : SourceUnit} (ha : a ∈ front)
    (hb : b ∈ front) (same : a.name = b.name) : a.nameSpan = b.nameSpan := by
  obtain ⟨u, hu, uname, uspan⟩ := h.exists_unit ha
  obtain ⟨v, hv, vname, vspan⟩ := h.exists_unit hb
  rw [← uspan, ← vspan]
  refine h.comprises.spans (h.config ▸ strict) u hu v hv ?_
  rw [uname, vname, same]

/-- None of the units was refused. -/
theorem not_refused (h : AddedAll config front units extended) {before after : List SourceUnit}
    {other : SourceUnit} (hfront : front = before ++ other :: after) :
    ¬ Refused config before other := by
  have member : other ∈ front := hfront ▸ List.mem_append_cons_self
  rintro (fault | ⟨strict, earlier, hearlier, same, differs⟩)
  · exact fault (h.sound other member)
  · exact differs (h.nameSpan_eq strict (hfront ▸ List.mem_append_left _ hearlier) member same)

/-- The conflict of a unit with the others is one with every earlier unit of its name. -/
theorem of_conflict? (h : AddedAll config front units extended) {unit : DesignUnit}
    {previous : Span} (hname : extended.conflict? unit = some previous) :
    config.ignoreDuplicateDefs = false ∧ previous ≠ unit.nameSpan ∧
      (∃ other ∈ front, other.name = unit.name) ∧
        ∀ other ∈ front, other.name = unit.name → other.nameSpan = previous := by
  obtain ⟨strict, differs, ⟨u, hu, same⟩, all⟩ := h.comprises.of_conflict?_eq_some hname
  refine ⟨h.config ▸ strict, differs, ?_, fun other hother hsame => ?_⟩
  · obtain ⟨other, hother, name, -⟩ := h.exists_source hu
    exact ⟨other, hother, name.trans same⟩
  · obtain ⟨v, hv, name, span⟩ := h.exists_unit hother
    exact span ▸ all v hv (name.trans hsame)

end AddedAll

/-! ### Ends -/

/-- A design is made of units that were all elaborated and added. -/
theorem exists_of_elaborate_ok {design : Design}
    (h : elaborate sources ids config = (.ok design, left)) :
    ∃ (units : List ElaboratedUnit) (assembly : Assembly), assembly.design = design ∧
      elaborateEach sources ids = (units.map .ok, left) ∧
        AddedAll config sources units assembly := by
  obtain ⟨units, hunits⟩ := exists_elaborateEach_of_elaborateOnto h
  rcases elaborateOnto_of_elaborateEach (Assembly.new config) hunits with
    ⟨e, failure, -⟩ | ⟨extended, success, hadd⟩
  · rw [show elaborateOnto (Assembly.new config) sources ids = _ from h] at failure
    cases failure
  · have same : (Except.ok design, left) = (Except.ok extended.design, left) := h.symm.trans success
    cases same
    exact ⟨units, extended, rfl, hunits, addedAll hunits hadd⟩

/-- What refuses a unit after others is its fault, or the conflict of its name with all earlier
units of the name. -/
structure Refuses (config : DesignConfig) (front : List SourceUnit) (source : SourceUnit)
    (ids : IdCounter) (e : DesignError) : Prop where
  first : ∀ before other after, front = before ++ other :: after → ¬ Refused config before other
  refused : Refused config front source
  reason : source.fault? = some e ∧
      (source.elaborate (elaborateEach front ids).2).1 = .error e ∨
    source.fault? = none ∧ ∃ previous,
      e = .duplicateDefinition source.name source.nameSpan previous ∧
        (∃ other ∈ front, other.name = source.name) ∧
          ∀ other ∈ front, other.name = source.name → other.nameSpan = previous

/-- A design that fails does so at the first unit that is refused. -/
theorem exists_refuses (h : elaborate sources ids config = (.error e, left))
    (enough : e ≠ .ids .exhausted) :
    ∃ front source back, sources = front ++ source :: back ∧ Refuses config front source ids e ∧
      ∀ others, elaborate (front ++ source :: others) ids config = (.error e, left) := by
  obtain ⟨front, source, back, hsources, units, middle, extended, hfront, hunits, hlast⟩ :=
    exists_of_elaborate_error h
  have added := addedAll hfront hunits
  refine ⟨front, source, back, hsources, ?_, fun others => ?_⟩
  · rcases hlast with failure | ⟨u, success, -, previous, hname, rfl⟩
    · have fault : source.fault? = some e :=
        source.fault_audit ▸ (SourceUnit.fault_of_elaborate failure).1.resolve_left enough
      refine ⟨fun _ _ _ => added.not_refused, .inl (by simp [fault]), .inl ⟨fault, ?_⟩⟩
      rw [hfront, failure]
    · obtain ⟨laid, -, -, sound⟩ := SourceUnit.laidOut success
      have heading : u.unit.content.name = source.name ∧
          u.unit.content.nameSpan = source.nameSpan := by
        rw [laid.unit_eq]
        exact ⟨rfl, rfl⟩
      obtain ⟨strict, differs, ⟨other, hother, same⟩, all⟩ := added.of_conflict? hname
      rw [heading.1] at same all
      rw [heading.2] at differs
      refine ⟨fun _ _ _ => added.not_refused, .inr ⟨strict, other, hother, same, ?_⟩,
        .inr ⟨source.fault_audit ▸ sound, previous, ?_, ⟨other, hother, same⟩, all⟩⟩
      · rw [all other hother same]
        exact differs
      · rw [heading.1, heading.2]
  · refine elaborateOnto_eq_error others hfront hunits (hlast.imp id ?_)
    exact fun ⟨u, success, failure, _⟩ => ⟨u, success, failure⟩

end Design

/-- How the elaboration of a design ends, if the numbers suffice:

* there is a design exactly if no unit has a fault and, unless names may be defined again, no two
  units have the same name at different places;
* it then has the elaborated units in source order, and the last one of a name under the name;
* otherwise the first unit that is refused decides the error, and what comes after it has no
  influence on the error or on the numbers that are left. -/
theorem elaborate_ends_at_first_refusal {sources : List SourceUnit} {ids left : IdCounter}
    {config : DesignConfig} {result : Except DesignError Design}
    (h : Design.elaborate sources ids config = (result, left))
    (enough : result ≠ .error (.ids .exhausted)) :
    ((∃ design, result = .ok design) ↔ (∀ source ∈ sources, source.fault? = none) ∧
      (config.ignoreDuplicateDefs = true ∨
        ∀ a ∈ sources, ∀ b ∈ sources, a.name = b.name → a.nameSpan = b.nameSpan)) ∧
    (∀ design, result = .ok design → ∃ units : List ElaboratedUnit,
      Design.elaborateEach sources ids = (units.map .ok, left) ∧
      units.map (·.unit.content.name) = sources.map (·.name) ∧
      design.unitIds.toList = units.map (·.unit.id) ∧
      ∀ name, design.unitNamed? name = (lastNamed? units name).map (·.unit)) ∧
    ∀ e, result = .error e → ∃ front source back, sources = front ++ source :: back ∧
      Design.Refuses config front source ids e ∧
      ∀ others, Design.elaborate (front ++ source :: others) ids config = (.error e, left) := by
  refine ⟨⟨?_, ?_⟩, ?_, ?_⟩
  · rintro ⟨design, rfl⟩
    obtain ⟨units, assembly, -, -, added⟩ := Design.exists_of_elaborate_ok h
    refine ⟨added.sound, ?_⟩
    cases strict : config.ignoreDuplicateDefs with
    | true => exact .inl rfl
    | false => exact .inr fun a ha b hb => added.nameSpan_eq strict ha hb
  · rintro ⟨sound, names⟩
    cases result with
    | ok design => exact ⟨design, rfl⟩
    | error e =>
      obtain ⟨front, source, back, rfl, refuses, -⟩ :=
        Design.exists_refuses h fun exhausted => enough (congrArg _ exhausted)
      have member : source ∈ front ++ source :: back := List.mem_append_cons_self
      rcases refuses.refused with fault | ⟨strict, other, hother, same, differs⟩
      · exact absurd (sound source member) fault
      · have one := names.resolve_left (by simp [strict])
        exact absurd (one other (List.mem_append_left _ hother) source member same) differs
  · rintro design rfl
    obtain ⟨units, assembly, rfl, hunits, added⟩ := Design.exists_of_elaborate_ok h
    have names := congrArg (List.map Prod.fst) added.names
    rw [List.map_map, List.map_map] at names
    exact ⟨units, hunits, names, added.comprises.unitIds, added.comprises.unitNamed?_eq⟩
  · rintro e rfl
    exact Design.exists_refuses h fun exhausted => enough (congrArg _ exhausted)

/-- A unit that comes in twice, one of the same name elsewhere, and a malformed one. The third is
refused by a strict design, before the fault of the fourth is seen, and a permissive one of the
first three is found under the name. -/
theorem elaborate_ends_at_clashing_unit :
    let first : SourceUnit := ⟨.module, .empty, .dummy, .dummy, [], []⟩
    let again : SourceUnit := ⟨.interface, .empty, .dummy, .dummy, [], []⟩
    let second : SourceUnit := ⟨.package, .empty, .point .dummy 5, .dummy, [], []⟩
    let broken : SourceUnit := ⟨.module, .empty, .dummy, .dummy, [], [.malformed .dummy]⟩
    let conflict : DesignError := .duplicateDefinition .empty (.point .dummy 5) .dummy
    (∃ front source back left, [first, again, second, broken] = front ++ source :: back ∧
      Design.Refuses .strict front source IdCounter.fresh conflict ∧
      ∀ others, Design.elaborate (front ++ source :: others) IdCounter.fresh .strict =
        (.error conflict, left)) ∧
    ∃ design left, Design.elaborate [first, again, second] IdCounter.fresh .permissive =
      (.ok design, left) ∧ ∃ units : List ElaboratedUnit,
        units.map (·.unit.content.name) = [.empty, .empty, .empty] ∧
        design.unitNamed? .empty = (lastNamed? units .empty).map (·.unit) := by
  intro first again second broken conflict
  constructor
  · have failure : (Design.elaborate [first, again, second, broken] IdCounter.fresh .strict).1 =
        .error conflict := eq_error_of_failure? (by decide +kernel)
    obtain ⟨-, -, ends⟩ :=
      elaborate_ends_at_first_refusal (Prod.ext failure rfl) (by simp [conflict])
    obtain ⟨front, source, back, hsources, refuses, others⟩ := ends conflict rfl
    exact ⟨front, source, back, _, hsources, refuses, others⟩
  · have accepted :
        (Design.elaborate [first, again, second] IdCounter.fresh .permissive).1.isOk = true := by
      decide +kernel
    obtain ⟨design, left, h⟩ := exists_of_isOk accepted
    obtain ⟨-, found, -⟩ := elaborate_ends_at_first_refusal h (by simp)
    obtain ⟨units, -, names, -, named⟩ := found design rfl
    exact ⟨design, left, h, units, names, named .empty⟩

end DesignTree
