import DesignTree.Proofs.Assembly
import DesignTree.Proofs.Renaming.Elaboration
import Mathlib.Data.List.Nodup
/-!
# DesignTree.Proofs.Renaming.Design

Names are opaque to elaboration and assembly.

Putting other names into the source, by an injective function, puts the same names into the outcome
and changes nothing else (`elaborate_commutes_with_renaming`): there are the same numbers, the same
nodes up to names and the same errors up to names, and every unit is found under its other name. So
it does not matter for a design in which order its identifiers were interned. An assembly compares
the name of a new unit with those of the units before it, and here again `ρ` has to be injective.
-/

namespace DesignTree

variable {ρ : Name → Name}

/-! ### Indexes -/

namespace NodeIndex

theorem unit_mapNames (index : NodeIndex) (id : NodeId) :
    (index.mapNames ρ).unit id = ((index.unit id).map
      (Placed.map (DesignUnit.mapNames ρ))).mapError (DesignError.mapNames ρ) := by
  rw [unit, unit, lookup_mapNames]
  cases index.lookup id with
  | error e => rfl
  | ok node =>
    have view : (Node.mapNames ρ node).content.asUnit? =
        node.content.asUnit?.map (DesignUnit.mapNames ρ) := Content.asUnit?_mapNames ρ node.content
    simp only [Except.map, Except.mapError, view]
    cases node.content.asUnit? <;> rfl

theorem merge_mapNames (index other : NodeIndex) :
    (index.mapNames ρ).merge (other.mapNames ρ) =
      ((index.merge other).map (mapNames ρ)).mapError (DesignError.mapNames ρ) := by
  have ids : (other.mapNames ρ).ids = other.ids := Std.ExtTreeMap.keys_map
  have taken : (index.mapNames ρ).contains = index.contains := funext (contains_mapNames ρ index)
  rw [merge, merge, ids, taken]
  cases other.ids.find? index.contains with
  | some shared => rfl
  | none =>
    refine congrArg Except.ok (ext_get? fun id => ?_)
    simp only [get?, mapNames, Std.ExtTreeMap.getElem?_union, Std.ExtTreeMap.getElem?_map,
      Option.map_or]

end NodeIndex

/-! ### Designs -/

namespace Design

/-- What is found under a name of the renamed design was found under the name behind it. -/
theorem getElem?_byName_mapNames_eq_some_iff (injective : Function.Injective ρ) {design : Design}
    {wanted : Name} {definition : Definition} :
    (design.mapNames ρ).byName[wanted]? = some definition ↔
      ∃ n, ρ n = wanted ∧ design.byName[n]? = some definition := by
  let entries := design.byName.toList.map fun entry => (ρ entry.1, entry.2)
  have keys : entries.map (·.1) = design.byName.keys.map ρ := by
    rw [← Std.ExtTreeMap.map_fst_toList_eq_keys, List.map_map, List.map_map]
    rfl
  have distinct : (entries.map (·.1)).Nodup :=
    keys ▸ List.Nodup.map injective Std.ExtTreeMap.nodup_keys
  rw [mapNames, getElem?_ofList_eq_some_iff distinct]
  simp only [entries, List.mem_map, Prod.mk.injEq, Prod.exists,
    Std.ExtTreeMap.mem_toList_iff_getElem?_eq_some]
  constructor
  · rintro ⟨n, other, found, rfl, rfl⟩
    exact ⟨n, rfl, found⟩
  · rintro ⟨n, rfl, found⟩
    exact ⟨n, definition, found, rfl, rfl⟩

theorem getElem?_byName_mapNames (injective : Function.Injective ρ) (design : Design) (n : Name) :
    (design.mapNames ρ).byName[ρ n]? = design.byName[n]? := by
  refine Option.ext fun definition => ?_
  rw [getElem?_byName_mapNames_eq_some_iff injective]
  constructor
  · rintro ⟨m, same, found⟩
    exact injective same ▸ found
  · exact fun found => ⟨n, rfl, found⟩

theorem getElem?_byName_mapNames_eq_none (injective : Function.Injective ρ) {design : Design}
    {wanted : Name} (h : ∀ n, ρ n ≠ wanted) : (design.mapNames ρ).byName[wanted]? = none := by
  refine Option.eq_none_iff_forall_ne_some.mpr fun definition found => ?_
  obtain ⟨n, same, -⟩ := (getElem?_byName_mapNames_eq_some_iff injective).mp found
  exact h n same

theorem mapNames_empty (ρ : Name → Name) : empty.mapNames ρ = empty := by
  simp only [mapNames, empty, NodeIndex.mapNames_empty]
  rfl

theorem unitNamed?_mapNames (injective : Function.Injective ρ) (design : Design) (n : Name) :
    (design.mapNames ρ).unitNamed? (ρ n) =
      (design.unitNamed? n).map (Placed.map (DesignUnit.mapNames ρ)) := by
  have index : (design.mapNames ρ).index = design.index.mapNames ρ := rfl
  rw [unitNamed?, unitNamed?, getElem?_byName_mapNames injective]
  cases design.byName[n]? with
  | none => rfl
  | some definition =>
    simp only [unit?, index, NodeIndex.unit_mapNames]
    cases design.index.unit definition.id <;> rfl

end Design

namespace Assembly

/-- Puts other names into the design. -/
def mapNames (ρ : Name → Name) (assembly : Assembly) : Assembly :=
  { assembly with design := assembly.design.mapNames ρ }

theorem conflict?_mapNames (injective : Function.Injective ρ) (assembly : Assembly)
    (unit : DesignUnit) :
    (assembly.mapNames ρ).conflict? (unit.mapNames ρ) = assembly.conflict? unit := by
  have found : (assembly.mapNames ρ).design.byName[(unit.mapNames ρ).name]? =
      assembly.design.byName[unit.name]? :=
    Design.getElem?_byName_mapNames injective assembly.design unit.name
  rw [conflict?, conflict?, found]
  rfl

theorem extend_mapNames (injective : Function.Injective ρ) (design : Design)
    (unit : Placed DesignUnit) (index : NodeIndex) :
    extend (design.mapNames ρ) (unit.map (DesignUnit.mapNames ρ)) (index.mapNames ρ) =
      (extend design unit index).mapNames ρ := by
  have names : (extend (design.mapNames ρ) (unit.map (DesignUnit.mapNames ρ))
        (index.mapNames ρ)).byName = ((extend design unit index).mapNames ρ).byName := by
    refine Std.ExtTreeMap.ext_getElem? fun wanted => ?_
    have name : (unit.map (DesignUnit.mapNames ρ)).content.name = ρ unit.content.name := rfl
    rw [getElem?_byName_extend, name]
    by_cases image : ∃ n, ρ n = wanted
    · obtain ⟨n, rfl⟩ := image
      rw [Design.getElem?_byName_mapNames injective, Design.getElem?_byName_mapNames injective,
        getElem?_byName_extend]
      simp only [injective.eq_iff]
      rfl
    · -- Nothing is found under a name that is not the other name of any.
      rw [Design.getElem?_byName_mapNames_eq_none injective (not_exists.mp image),
        Design.getElem?_byName_mapNames_eq_none injective (not_exists.mp image),
        if_neg fun same => image ⟨_, same⟩]
  exact congrArg (Design.mk _ _) names

/-- Adding a unit under another name. -/
theorem addUnit_mapNames (injective : Function.Injective ρ) (assembly : Assembly)
    (added : ElaboratedUnit) :
    (assembly.mapNames ρ).addUnit (added.mapNames ρ) =
      ((assembly.addUnit added).map (mapNames ρ)).mapError (DesignError.mapNames ρ) := by
  have conflict := conflict?_mapNames injective assembly added.unit.content
  have own : (added.mapNames ρ).unit.id = added.unit.id := rfl
  have renamed : (added.mapNames ρ).unit.content = added.unit.content.mapNames ρ := rfl
  have nodes : (added.mapNames ρ).nodes = added.nodes.mapNames ρ := rfl
  have root : (added.mapNames ρ).node = Node.mapNames ρ added.node := rfl
  have index : (assembly.mapNames ρ).design.index = assembly.design.index.mapNames ρ := rfl
  simp only [addUnit, offer_eq, own, renamed, nodes, root, index, conflict,
    NodeIndex.contains_mapNames, NodeIndex.merge_mapNames]
  cases assembly.conflict? added.unit.content with
  | some previous => rfl
  | none =>
    cases assembly.design.index.contains added.unit.id || added.nodes.contains added.unit.id with
    | true => rfl
    | false =>
      cases assembly.design.index.merge added.nodes with
      | error e => rfl
      | ok merged =>
        simp only [Bool.false_eq_true, if_false, Except.map, Except.mapError,
          NodeIndex.register_mapNames]
        cases merged.register added.node with
        | error e => rfl
        | ok extended =>
          have design := extend_mapNames injective assembly.design added.unit extended
          exact congrArg (fun d => Except.ok { assembly with design := d }) design

end Assembly

/-! ### Elaboration -/

section Supply

variable {σ : Type} [IdSupply σ]

theorem SourceUnit.elaborate_mapNames (injective : Function.Injective ρ) (source : SourceUnit)
    (ids : σ) :
    (source.mapNames ρ).elaborate ids =
      (((source.elaborate ids).1.map (ElaboratedUnit.mapNames ρ)).mapError (DesignError.mapNames ρ),
        (source.elaborate ids).2) := by
  have alike := Elaboration.alike_elaborateUnit injective source { ids, nodes := .empty }
  rw [Session.mapNames, NodeIndex.mapNames_empty] at alike
  rw [elaborate, elaborate, alike]
  cases Elaboration.elaborateUnit source { ids, nodes := .empty } <;> rfl

theorem Design.elaborateOnto_mapNames (injective : Function.Injective ρ)
    (assembly : Assembly) (sources : List SourceUnit) (ids : σ) :
    elaborateOnto (assembly.mapNames ρ) (sources.map (·.mapNames ρ)) ids =
      (((elaborateOnto assembly sources ids).1.map (mapNames ρ)).mapError (DesignError.mapNames ρ),
        (elaborateOnto assembly sources ids).2) := by
  induction sources generalizing assembly ids with
  | nil => rfl
  | cons source rest ih =>
    rw [List.map_cons, elaborateOnto, elaborateOnto, SourceUnit.elaborate_mapNames injective]
    obtain ⟨outcome, left⟩ := source.elaborate ids
    cases outcome with
    | error e => rfl
    | ok unit =>
      simp only [Except.map, Except.mapError, Assembly.addUnit_mapNames injective]
      cases assembly.addUnit unit with
      | error e => rfl
      | ok extended => exact ih extended left

/-- Names are opaque. If every name in the source is replaced by its value under an injective
function, elaboration ends as before, with the same numbers drawn; in what it returns, and in what
it reports, just the names are replaced. So it is for a unit and for a design, and what a name stood
for in the design, its value stands for in the other one. -/
theorem elaborate_commutes_with_renaming (injective : Function.Injective ρ) :
    (∀ (source : SourceUnit) (ids : σ), (source.mapNames ρ).elaborate ids =
      (((source.elaborate ids).1.map (ElaboratedUnit.mapNames ρ)).mapError (DesignError.mapNames ρ),
        (source.elaborate ids).2)) ∧
    (∀ (sources : List SourceUnit) (ids : σ) (config : DesignConfig),
      Design.elaborate (sources.map (·.mapNames ρ)) ids config =
        (((Design.elaborate sources ids config).1.map (Design.mapNames ρ)).mapError
            (DesignError.mapNames ρ),
          (Design.elaborate sources ids config).2)) ∧
    ∀ (design : Design) (n : Name), (design.mapNames ρ).unitNamed? (ρ n) =
      (design.unitNamed? n).map (Placed.map (DesignUnit.mapNames ρ)) := by
  refine ⟨SourceUnit.elaborate_mapNames injective, fun sources ids config => ?_,
    Design.unitNamed?_mapNames injective⟩
  have start : (Assembly.new config).mapNames ρ = Assembly.new config :=
    congrArg (Assembly.mk config) (Design.mapNames_empty ρ)
  have onto := Design.elaborateOnto_mapNames injective (Assembly.new config) sources ids
  rwa [start] at onto

end Supply

/-- Every name goes over to the other class. A module that refers to a port it declares and a
package of the same name are a design under other names as well; in a strict one the second name is
reported under its other name. -/
theorem elaborate_in_other_class :
    let ρ : Name → Name := fun n =>
      { n with caseClass := if n.caseClass = .sensitive then .insensitive else .sensitive }
    let port : PortDecl := ⟨.input, .net .wire, .implicit .dummy, [⟨.dummy, .empty, none⟩]⟩
    let first : SourceUnit := ⟨.module, .empty, .dummy, .dummy,
      [.unnamed .dummy [⟨.dummy, .empty, []⟩]], [.declaration .dummy (.port port)]⟩
    let second : SourceUnit := ⟨.package, .empty, .point .dummy 5, .dummy, [], []⟩
    let renamed := [first, second].map (·.mapNames ρ)
    (Design.elaborate renamed IdCounter.fresh .strict).1 =
        .error (.duplicateDefinition ⟨.sensitive, 0, 0⟩ (.point .dummy 5) .dummy) ∧
      ∃ design left, Design.elaborate [first, second] IdCounter.fresh .permissive =
          (.ok design, left) ∧
        Design.elaborate renamed IdCounter.fresh .permissive = (.ok (design.mapNames ρ), left) ∧
        (design.mapNames ρ).unitNamed? ⟨.sensitive, 0, 0⟩ =
          (design.unitNamed? .empty).map (Placed.map (DesignUnit.mapNames ρ)) := by
  intro ρ port first second renamed
  have injective : Function.Injective ρ := by
    rintro ⟨c, shard, slot⟩ ⟨c', shard', slot'⟩ same
    cases c <;> cases c' <;> cases same <;> rfl
  obtain ⟨-, commutes, found⟩ :=
    elaborate_commutes_with_renaming (σ := IdCounter) injective
  have accepted :
      (Design.elaborate [first, second] IdCounter.fresh .permissive).1.isOk = true := by
    decide +kernel
  have rejected : (Design.elaborate [first, second] IdCounter.fresh .strict).1 =
      .error (.duplicateDefinition .empty (.point .dummy 5) .dummy) :=
    eq_error_of_failure? (by decide +kernel)
  obtain ⟨design, left, h⟩ := exists_of_isOk accepted
  refine ⟨?_, design, left, h, ?_, found design .empty⟩
  · rw [commutes, rejected]
    rfl
  · rw [commutes, h]
    rfl

end DesignTree
