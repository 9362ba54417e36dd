import DesignTree.Proofs.Assembly
import DesignTree.Proofs.Reachable
/-!
# DesignTree.Proofs.Assembly.Accepted

The three parts of an assembly agree.

An assembly keeps a list of units, an index of nodes and a table of names. Whatever units are
offered, elaborated or made up, and whichever of them are refused: the three are about the same
units, those that were accepted (`Assembly.Comprises`). Accepting one more keeps this so
(`Comprises.addUnit`), and refusing one changes nothing. It follows that no lookup in the design
comes to nothing on the way from a name or a number to the unit
(`assembly_comprises_accepted`).
-/

namespace DesignTree

/-! ### Units with their nodes -/

namespace ElaboratedUnit

instance : DecidableEq ElaboratedUnit := fun u other =>
  decidable_of_iff (u.unit = other.unit ∧ u.nodes = other.nodes) <| by
    cases u
    cases other
    rw [mk.injEq]

/-- The node with a number in a unit, the unit itself included. -/
def get? (u : ElaboratedUnit) (id : NodeId) : Option Node :=
  if u.unit.id = id then some u.node else u.nodes.get? id

/-- No number is taken in both units. -/
def Apart (u other : ElaboratedUnit) : Prop := ∀ id, u.get? id = none ∨ other.get? id = none

instance : Std.Symm Apart := ⟨fun _ _ h id => (h id).symm⟩

variable {u other : ElaboratedUnit} {id : NodeId} {node : Node}

@[simp] theorem get?_id (u : ElaboratedUnit) : u.get? u.unit.id = some u.node := if_pos rfl

theorem get?_eq_some_iff (own : u.nodes.get? u.unit.id = none) :
    u.get? id = some node ↔ u.nodes.get? id = some node ∨ node = u.node ∧ node.id = id := by
  have root : u.node.id = u.unit.id := rfl
  by_cases h : u.unit.id = id
  · subst h
    rw [get?_id, own, Option.some.injEq, eq_comm]
    constructor
    · rintro rfl
      exact .inr ⟨rfl, root⟩
    · rintro (found | ⟨rfl, -⟩)
      · cases found
      · rfl
  · rw [get?, if_neg h]
    constructor
    · exact .inl
    · rintro (found | ⟨rfl, same⟩)
      · exact found
      · exact absurd (root.symm.trans same) h

/-- Units apart have different numbers. -/
theorem Apart.id_ne (h : u.Apart other) : u.unit.id ≠ other.unit.id := by
  intro same
  rcases h u.unit.id with free | free
  · rw [get?_id] at free
    cases free
  · rw [same, get?_id] at free
    cases free

end ElaboratedUnit

/-- The last of some units that has a name. -/
def lastNamed? (units : List ElaboratedUnit) (name : Name) : Option ElaboratedUnit :=
  units.reverse.find? (·.unit.content.name = name)

section Named

variable {units : List ElaboratedUnit} {u added : ElaboratedUnit} {name : Name}

theorem lastNamed?_append_singleton :
    lastNamed? (units ++ [added]) name =
      if added.unit.content.name = name then some added else lastNamed? units name := by
  rw [lastNamed?, List.reverse_append, List.reverse_singleton, List.singleton_append,
    List.find?_cons]
  by_cases h : added.unit.content.name = name <;> simp [h, lastNamed?]

theorem mem_of_lastNamed? (h : lastNamed? units name = some u) :
    u ∈ units ∧ u.unit.content.name = name :=
  ⟨List.mem_reverse.mp (List.mem_of_find?_eq_some h), by simpa using List.find?_some h⟩

theorem lastNamed?_eq_none :
    lastNamed? units name = none ↔ ∀ u ∈ units, u.unit.content.name ≠ name := by
  simp [lastNamed?]

end Named

namespace Assembly

variable {assembly extended : Assembly} {units : List ElaboratedUnit} {u added : ElaboratedUnit}

/-! ### The invariant -/

/-- The list of units, the index and the table of names are those of the given units. -/
structure Comprises (assembly : Assembly) (units : List ElaboratedUnit) : Prop where
  unitIds : assembly.design.unitIds.toList = units.map (·.unit.id)
  byName : ∀ name, assembly.design.byName[name]? = (lastNamed? units name).map fun u =>
    { id := u.unit.id, nameSpan := u.unit.content.nameSpan }
  entries : ∀ id node, assembly.design.index.get? id = some node ↔
    ∃ u ∈ units, u.get? id = some node
  own : ∀ u ∈ units, u.nodes.get? u.unit.id = none
  apart : units.Pairwise ElaboratedUnit.Apart
  /-- In a strict assembly a name is written at one place. -/
  spans : assembly.config.ignoreDuplicateDefs = false → ∀ u ∈ units, ∀ v ∈ units,
    u.unit.content.name = v.unit.content.name → u.unit.content.nameSpan = v.unit.content.nameSpan

namespace Comprises

theorem new (config : DesignConfig) : (new config).Comprises [] where
  unitIds := rfl
  byName _ := Std.ExtTreeMap.getElem?_empty
  entries id node := by simp [Assembly.new, Design.empty]
  own := by simp
  apart := .nil
  spans := by simp

/-- A name is compared with that of the last unit only. -/
theorem conflict?_eq (h : assembly.Comprises units) (unit : DesignUnit) :
    assembly.conflict? unit = (lastNamed? units unit.name).bind fun last =>
      if last.unit.content.nameSpan ≠ unit.nameSpan ∧ assembly.config.ignoreDuplicateDefs = false
      then some last.unit.content.nameSpan else none := by
  rw [conflict?, h.byName]
  cases lastNamed? units unit.name <;> rfl

/-- A conflict is with all units of the name, for these have it at one place. -/
theorem of_conflict?_eq_some (h : assembly.Comprises units) {unit : DesignUnit} {previous : Span}
    (hname : assembly.conflict? unit = some previous) :
    assembly.config.ignoreDuplicateDefs = false ∧ previous ≠ unit.nameSpan ∧
      (∃ u ∈ units, u.unit.content.name = unit.name) ∧
        ∀ u ∈ units, u.unit.content.name = unit.name → u.unit.content.nameSpan = previous := by
  rw [h.conflict?_eq] at hname
  obtain ⟨last, hlast, hconflict⟩ := Option.bind_eq_some_iff.mp hname
  obtain ⟨hmem, hsame⟩ := mem_of_lastNamed? hlast
  split at hconflict
  next differs =>
    cases hconflict
    exact ⟨differs.2, differs.1, ⟨last, hmem, hsame⟩,
      fun u hu same => h.spans differs.2 u hu last hmem (same.trans hsame.symm)⟩
  next => cases hconflict

/-- Without a conflict, the name stands where it stood before, or the assembly is permissive. -/
theorem of_conflict?_eq_none (h : assembly.Comprises units) {unit : DesignUnit}
    (hname : assembly.conflict? unit = none)
    (strict : assembly.config.ignoreDuplicateDefs = false) :
    ∀ u ∈ units, u.unit.content.name = unit.name → u.unit.content.nameSpan = unit.nameSpan := by
  intro u hu same
  rw [h.conflict?_eq, Option.bind_eq_none_iff] at hname
  cases hlast : lastNamed? units unit.name with
  | none => exact absurd same (lastNamed?_eq_none.mp hlast u hu)
  | some last =>
    obtain ⟨hmem, hsame⟩ := mem_of_lastNamed? hlast
    rw [h.spans strict u hu last hmem (same.trans hsame.symm)]
    by_contra differs
    have conflict := hname last hlast
    rw [if_pos ⟨differs, strict⟩] at conflict
    cases conflict

/-- A unit that was not there before is apart from those that were. -/
theorem apart_of_admits (h : assembly.Comprises units) (admits : assembly.Admits added)
    (hu : u ∈ units) : u.Apart added := by
  intro id
  cases taken : u.get? id with
  | none => exact .inl rfl
  | some node =>
    have held := (h.entries id node).mpr ⟨u, hu, taken⟩
    refine .inr (Option.eq_none_iff_forall_ne_some.mpr fun other found => ?_)
    rcases (ElaboratedUnit.get?_eq_some_iff admits.own).mp found with inner | ⟨rfl, rfl⟩
    · exact Option.some_ne_none node (held.symm.trans (admits.apart id other inner))
    · exact Option.some_ne_none node (held.symm.trans admits.unused)

/-- A unit that is added is one more. -/
theorem addUnit (h : assembly.Comprises units) (hadd : assembly.addUnit added = .ok extended) :
    extended.Comprises (units ++ [added]) := by
  obtain ⟨admits, index, rfl, hentries⟩ := exists_of_addUnit hadd
  refine ⟨?_, fun name => ?_, fun id node => ?_, ?_, ?_, fun strict => ?_⟩
  · rw [extend, Array.toList_push, h.unitIds, List.map_append]
    rfl
  · rw [getElem?_byName_extend, h.byName, lastNamed?_append_singleton]
    split <;> rfl
  · show index.get? id = some node ↔ _
    rw [hentries id node, h.entries id node, ← ElaboratedUnit.get?_eq_some_iff admits.own]
    simp only [List.mem_append, List.mem_singleton, or_and_right, exists_or, exists_eq_left]
  · simpa only [List.forall_mem_append, List.forall_mem_singleton] using ⟨h.own, admits.own⟩
  · refine List.pairwise_append.mpr ⟨h.apart, List.pairwise_singleton .., fun u hu v hv => ?_⟩
    exact List.mem_singleton.mp hv ▸ h.apart_of_admits admits hu
  · have same := h.of_conflict?_eq_none admits.name strict
    intro u hu v hv
    rcases List.mem_append.mp hu with hu | hu <;> rcases List.mem_append.mp hv with hv | hv
    · exact h.spans strict u hu v hv
    · exact List.mem_singleton.mp hv ▸ same u hu
    · exact List.mem_singleton.mp hu ▸ fun names => (same v hv names.symm).symm
    · rw [List.mem_singleton.mp hu, List.mem_singleton.mp hv]
      exact fun _ => rfl

/-! ### Lookups -/

theorem nodup (h : assembly.Comprises units) : (units.map (·.unit.id)).Nodup :=
  List.pairwise_map.mpr (h.apart.imp ElaboratedUnit.Apart.id_ne)

theorem unit?_id (h : assembly.Comprises units) (hu : u ∈ units) :
    assembly.design.unit? u.unit.id = some u.unit := by
  have held := (h.entries u.unit.id u.node).mpr ⟨u, hu, u.get?_id⟩
  rw [Design.unit?, NodeIndex.unit_of_get? held rfl]
  rfl

theorem units_eq (h : assembly.Comprises units) :
    assembly.design.units = units.map fun u => (u.unit.content.name, u.unit) := by
  have found : ∀ u ∈ units, assembly.design.unit? u.unit.id = some u.unit := fun u => h.unit?_id
  have all : (units.map (·.unit.id)).filterMap assembly.design.unit? = units.map (·.unit) := by
    rw [List.filterMap_map, ← List.filterMap_eq_map]
    exact List.filterMap_congr found
  rw [Design.units, h.unitIds, all, List.map_map]
  rfl

theorem unitNamed?_eq (h : assembly.Comprises units) (name : Name) :
    assembly.design.unitNamed? name = (lastNamed? units name).map (·.unit) := by
  rw [Design.unitNamed?, h.byName]
  cases hlast : lastNamed? units name with
  | none => rfl
  | some last => exact h.unit?_id (mem_of_lastNamed? hlast).1

end Comprises

/-! ### Sequences of offers -/

/-- The units that are accepted when units are offered in order. -/
def accepted (assembly : Assembly) : List ElaboratedUnit → List ElaboratedUnit
  | [] => []
  | added :: rest =>
    match assembly.addUnit added with
    | .error _ => assembly.accepted rest
    | .ok extended => added :: extended.accepted rest

theorem mem_of_mem_accepted {offers : List ElaboratedUnit} (h : u ∈ assembly.accepted offers) :
    u ∈ offers := by
  induction offers generalizing assembly with
  | nil => cases h
  | cons added rest ih =>
    rw [accepted] at h
    cases hadd : assembly.addUnit added with
    | error e =>
      rw [hadd] at h
      exact List.mem_cons_of_mem _ (ih h)
    | ok extended =>
      rw [hadd] at h
      rcases List.mem_cons.mp h with rfl | later
      · exact List.mem_cons_self ..
      · exact List.mem_cons_of_mem _ (ih later)

theorem config_of_addUnit (h : assembly.addUnit added = .ok extended) :
    extended.config = assembly.config := by
  obtain ⟨-, index, rfl, -⟩ := exists_of_addUnit h
  rfl

theorem config_addEach (offers : List ElaboratedUnit) :
    (assembly.addEach offers).config = assembly.config := by
  induction offers generalizing assembly with
  | nil => rfl
  | cons added rest ih =>
    rw [addEach]
    cases hadd : assembly.addUnit added with
    | error e => exact ih
    | ok extended => exact ih.trans (config_of_addUnit hadd)

theorem Comprises.addEach (h : assembly.Comprises units) (offers : List ElaboratedUnit) :
    (assembly.addEach offers).Comprises (units ++ assembly.accepted offers) := by
  induction offers generalizing assembly units with
  | nil => rwa [accepted, List.append_nil]
  | cons added rest ih =>
    rw [accepted, Assembly.addEach]
    cases hadd : assembly.addUnit added with
    | error e => exact ih h
    | ok extended =>
      rw [List.append_cons]
      exact ih (h.addUnit hadd)

end Assembly

/-- Whatever units are offered to an assembly, the design is made of those that were accepted:

* the units are listed in the order in which they came in, and none of them twice;
* each of them is found under its number, and the last one of a name under the name;
* the index has their nodes and no others, and no number in it comes from two places;
* unless the assembly is permissive, units of one name have the name at the same place. -/
theorem assembly_comprises_accepted (config : DesignConfig) (offers : List ElaboratedUnit) :
    let design := ((Assembly.new config).addEach offers).design
    let units := (Assembly.new config).accepted offers
    (design.unitIds.toList = units.map (·.unit.id) ∧ design.unitIds.toList.Nodup) ∧
    design.units = units.map (fun u => (u.unit.content.name, u.unit)) ∧
    (∀ name, design.unitNamed? name = (lastNamed? units name).map (·.unit) ∧
      (design.unitNamed? name = none ↔ ∀ u ∈ units, u.unit.content.name ≠ name)) ∧
    ((∀ id node, design.index.get? id = some node ↔ ∃ u ∈ units, u.get? id = some node) ∧
      (∀ u ∈ units, u.nodes.get? u.unit.id = none) ∧ units.Pairwise ElaboratedUnit.Apart) ∧
    (config.ignoreDuplicateDefs = false → ∀ u ∈ units, ∀ v ∈ units,
      u.unit.content.name = v.unit.content.name →
        u.unit.content.nameSpan = v.unit.content.nameSpan) := by
  intro design units
  have comprises : ((Assembly.new config).addEach offers).Comprises units :=
    (Assembly.Comprises.new config).addEach offers
  have kept : ((Assembly.new config).addEach offers).config = config :=
    Assembly.config_addEach offers
  refine ⟨⟨comprises.unitIds, comprises.unitIds ▸ comprises.nodup⟩, comprises.units_eq,
    fun name => ⟨comprises.unitNamed?_eq name, ?_⟩,
    ⟨comprises.entries, comprises.own, comprises.apart⟩, fun strict => comprises.spans ?_⟩
  · rw [comprises.unitNamed?_eq, Option.map_eq_none_iff, lastNamed?_eq_none]
  · rwa [kept]

/-- Four units that no source stands behind. The second has the number of the first and is refused;
so is the third by a strict assembly, for its name is that of the first and is written elsewhere. -/
theorem accepted_of_made_up_units :
    let unit := fun (id : Nat) (name : Name) (place : UInt32) =>
      ElaboratedUnit.mk ⟨⟨id⟩, .dummy, ⟨.module, name, .point .dummy place, [],
        .empty .module ⟨id⟩⟩⟩ .empty
    let other : Name := ⟨.sensitive, 0, 0⟩
    let offers := [unit 1 .empty 5, unit 1 other 5, unit 2 .empty 7, unit 3 other 5]
    let strict := ((Assembly.new .strict).addEach offers).design
    let permissive := ((Assembly.new .permissive).addEach offers).design
    strict.units.map (·.2.id.val) = [1, 3] ∧ permissive.units.map (·.2.id.val) = [1, 2, 3] ∧
      (strict.unitNamed? .empty).map (·.id.val) = some 1 ∧
      (permissive.unitNamed? .empty).map (·.id.val) = some 2 := by
  intro unit other offers strict permissive
  have strictUnits : (Assembly.new .strict).accepted offers =
      [unit 1 .empty 5, unit 3 other 5] := by decide +kernel
  have permissiveUnits : (Assembly.new .permissive).accepted offers =
      [unit 1 .empty 5, unit 2 .empty 7, unit 3 other 5] := by decide +kernel
  obtain ⟨-, listed, named, -⟩ := assembly_comprises_accepted .strict offers
  obtain ⟨-, listed', named', -⟩ := assembly_comprises_accepted .permissive offers
  rw [strictUnits] at listed named
  rw [permissiveUnits] at listed' named'
  refine ⟨congrArg _ listed, congrArg _ listed', ?_, ?_⟩
  · exact congrArg _ (named .empty).1
  · exact congrArg _ (named' .empty).1

end DesignTree
