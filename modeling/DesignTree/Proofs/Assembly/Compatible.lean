import DesignTree.Proofs.Assembly.Session
/-!
# DesignTree.Proofs.Assembly.Compatible

Units that can be put together, in whichever order they come.

An assembly compares a unit that is offered with the last one of its name, and with all numbers
that are taken by then. For a whole list of units this comes to a condition on pairs of them, in
which no order is left (`Compatible`): as long as all are added, the assembly comprises those
before, so each unit meets each other one in one of the two roles
(`Comprises.exists_addUnits_iff`). What the design is made of does not depend on the order either,
except for the list of units itself and for the names that several of them have.
-/

namespace DesignTree

/-! ### The condition -/

/-- What it takes to put units together: none is among its own nodes, no number is taken in two of
them, and in a strict design a name is written at one place. -/
structure Compatible (config : DesignConfig) (units : List ElaboratedUnit) : Prop where
  own : ∀ u ∈ units, u.nodes.get? u.unit.id = none
  apart : units.Pairwise ElaboratedUnit.Apart
  spans : config.ignoreDuplicateDefs = false → ∀ u ∈ units, ∀ v ∈ units,
    u.unit.content.name = v.unit.content.name → u.unit.content.nameSpan = v.unit.content.nameSpan

/-- Of all numbers only those of one of the units have to be tried. -/
instance (u other : ElaboratedUnit) : Decidable (u.Apart other) :=
  decidable_of_iff (∀ id ∈ u.unit.id :: u.nodes.ids, other.get? id = none) <| by
    constructor
    · intro free id
      by_cases taken : id ∈ u.unit.id :: u.nodes.ids
      · exact .inr (free id taken)
      · simp only [List.mem_cons, NodeIndex.mem_ids, not_or, not_exists] at taken
        refine .inl ?_
        rw [ElaboratedUnit.get?, if_neg fun same => taken.1 same.symm]
        exact Option.eq_none_iff_forall_ne_some.mpr taken.2
    · intro apart id taken
      rcases apart id with free | free
      · rcases List.mem_cons.mp taken with rfl | inner
        · rw [ElaboratedUnit.get?_id] at free
          cases free
        · obtain ⟨node, found⟩ := NodeIndex.mem_ids.mp inner
          rw [ElaboratedUnit.get?] at free
          split at free
          next => cases free
          next => cases found.symm.trans free
      · exact free

instance (config : DesignConfig) (units : List ElaboratedUnit) :
    Decidable (Compatible config units) :=
  decidable_of_iff ((∀ u ∈ units, u.nodes.get? u.unit.id = none) ∧
    units.Pairwise ElaboratedUnit.Apart ∧
    (config.ignoreDuplicateDefs = false → ∀ u ∈ units, ∀ v ∈ units,
      u.unit.content.name = v.unit.content.name →
        u.unit.content.nameSpan = v.unit.content.nameSpan))
    ⟨fun h => ⟨h.1, h.2.1, h.2.2⟩, fun h => ⟨h.own, h.apart, h.spans⟩⟩

variable {config : DesignConfig} {units permuted : List ElaboratedUnit}

/-- The condition does not look at the order. -/
theorem Compatible.perm (h : Compatible config units) (hperm : units.Perm permuted) :
    Compatible config permuted where
  own u hu := h.own u (hperm.mem_iff.mpr hu)
  apart := (hperm.pairwise_iff (Std.Symm.symm _ _)).mp h.apart
  spans strict u hu v hv := h.spans strict u (hperm.mem_iff.mpr hu) v (hperm.mem_iff.mpr hv)

/-! ### Adding all -/

namespace Assembly.Comprises

variable {assembly : Assembly} {taken rest : List ElaboratedUnit} {added : ElaboratedUnit}

theorem compatible (h : assembly.Comprises units) : Compatible assembly.config units :=
  ⟨h.own, h.apart, h.spans⟩

/-- A unit is added if it is compatible with those before it, whatever comes later. -/
theorem exists_addUnit (h : assembly.Comprises taken)
    (compatible : Compatible assembly.config (taken ++ added :: rest)) :
    ∃ extended, assembly.addUnit added = .ok extended := by
  have hadded : added ∈ taken ++ added :: rest := by simp
  have apart : ∀ u ∈ taken, u.Apart added := by
    intro u hu
    exact (List.pairwise_append.mp compatible.apart).2.2 u hu added (List.mem_cons_self ..)
  cases hadd : assembly.addUnit added with
  | ok extended => exact ⟨extended, rfl⟩
  | error e =>
    -- It could only be kept out by its name, which would stand elsewhere.
    obtain ⟨previous, conflict, -⟩ := h.exists_conflict (compatible.own added hadded) apart hadd
    obtain ⟨strict, differs, ⟨u, hu, name⟩, places⟩ := h.of_conflict?_eq_some conflict
    have place := compatible.spans strict u (List.mem_append_left _ hu) added hadded name
    exact absurd ((places u hu name).symm.trans place) differs

/-- All of some units are added exactly if they are compatible, with each other and with those that
are there. -/
theorem exists_addUnits_iff (h : assembly.Comprises taken) :
    (∃ extended, assembly.addUnits units = .ok extended) ↔
      Compatible assembly.config (taken ++ units) := by
  constructor
  · intro ⟨extended, hadd⟩
    obtain ⟨comprises, same⟩ := h.addUnits hadd
    exact same ▸ comprises.compatible
  · intro compatible
    induction units generalizing assembly taken with
    | nil => exact ⟨assembly, rfl⟩
    | cons added rest ih =>
      obtain ⟨grown, hgrown⟩ := h.exists_addUnit compatible
      rw [Assembly.addUnits, hgrown]
      refine ih (h.addUnit hgrown) ?_
      rw [config_of_addUnit hgrown, ← List.append_cons]
      exact compatible

end Assembly.Comprises

/-! ### What is put together -/

/-- A unit that has its name to itself is the last one of the name. -/
theorem lastNamed?_of_single {u : ElaboratedUnit} (hu : u ∈ units)
    (single : ∀ v ∈ units, v.unit.content.name = u.unit.content.name → v = u) :
    lastNamed? units u.unit.content.name = some u := by
  cases hlast : lastNamed? units u.unit.content.name with
  | none => exact absurd rfl (lastNamed?_eq_none.mp hlast u hu)
  | some last =>
    obtain ⟨hmem, hname⟩ := mem_of_lastNamed? hlast
    rw [single last hmem hname]

/-- The nodes of a design do not depend on the order of its units. -/
theorem Assembly.Comprises.index_eq {assembly other : Assembly} (h : assembly.Comprises units)
    (h' : other.Comprises permuted) (hperm : units.Perm permuted) :
    assembly.design.index = other.design.index := by
  refine NodeIndex.ext_get? fun id => Option.ext fun node => ?_
  simp only [h.entries, h'.entries, hperm.mem_iff]

/-- Whether units can be put together does not depend on the order in which they come, and neither
does the design, but for the order of its units and for the names that several of them have:

* all of them are added exactly if they are compatible, so in one order exactly if in any other;
* then the nodes are the same in both orders, the units are the same but for their order, and a name
  that a single unit has stands for that unit in both. -/
theorem units_fit_in_any_order (config : DesignConfig) {units permuted : List ElaboratedUnit}
    (h : units.Perm permuted) :
    let inOrder := (Assembly.new config).addUnits units
    let reordered := (Assembly.new config).addUnits permuted
    ((∃ assembly, inOrder = .ok assembly) ↔ Compatible config units) ∧
    ((∃ assembly, inOrder = .ok assembly) ↔ ∃ other, reordered = .ok other) ∧
    ∀ assembly other, inOrder = .ok assembly → reordered = .ok other →
      assembly.design.index = other.design.index ∧
      assembly.design.unitIds.toList.Perm other.design.unitIds.toList ∧
      ∀ u ∈ units, (∀ v ∈ units, v.unit.content.name = u.unit.content.name → v = u) →
        assembly.design.unitNamed? u.unit.content.name = some u.unit ∧
          other.design.unitNamed? u.unit.content.name = some u.unit := by
  intro inOrder reordered
  have start := Assembly.Comprises.new config
  have fits : (∃ assembly, inOrder = .ok assembly) ↔ Compatible config units :=
    start.exists_addUnits_iff
  have fits' : (∃ other, reordered = .ok other) ↔ Compatible config permuted :=
    start.exists_addUnits_iff
  refine ⟨fits, ?_, fun assembly other hadd hother => ?_⟩
  · exact fits.trans (Iff.trans ⟨(·.perm h), (·.perm h.symm)⟩ fits'.symm)
  · have comprises := (start.addUnits hadd).1
    have comprises' := (start.addUnits hother).1
    rw [List.nil_append] at comprises comprises'
    refine ⟨comprises.index_eq comprises' h, ?_, fun u hu single => ⟨?_, ?_⟩⟩
    · rw [comprises.unitIds, comprises'.unitIds]
      exact h.map _
    · rw [comprises.unitNamed?_eq, lastNamed?_of_single hu single]
      rfl
    · have alone : ∀ v ∈ permuted, v.unit.content.name = u.unit.content.name → v = u :=
        fun v hv => single v (h.mem_iff.mpr hv)
      rw [comprises'.unitNamed?_eq, lastNamed?_of_single (h.mem_iff.mp hu) alone]
      rfl

/-- Two units of one name, which is written at one place, and a third one: a strict assembly takes
them in both orders, and the third is found under its name in both. With another unit in which a
number of the first is taken again, they are refused in both. -/
theorem units_fit_in_two_orders :
    let holding := fun id : Nat =>
      (⟨(∅ : Std.ExtTreeMap NodeId Node).insert ⟨id⟩ ⟨⟨id⟩, .dummy, .declaration (.proc .final)⟩⟩ :
        NodeIndex)
    let unit := fun (id : Nat) (name : Name) (nodes : NodeIndex) =>
      ElaboratedUnit.mk ⟨⟨id⟩, .dummy, ⟨.module, name, .point .dummy 5, [],
        .empty .module ⟨id⟩⟩⟩ nodes
    let other : Name := ⟨.sensitive, 0, 0⟩
    let first := unit 1 .empty (holding 2)
    let second := unit 3 .empty .empty
    let third := unit 5 other (holding 4)
    let again := unit 6 other (holding 2)
    (∃ assembly reordered,
      (Assembly.new .strict).addUnits [first, second, third] = .ok assembly ∧
      (Assembly.new .strict).addUnits [third, second, first] = .ok reordered ∧
      assembly.design.index = reordered.design.index ∧
      assembly.design.unitNamed? other = some third.unit ∧
        reordered.design.unitNamed? other = some third.unit) ∧
    (¬ ∃ assembly, (Assembly.new .strict).addUnits [first, second, again] = .ok assembly) ∧
      ¬ ∃ assembly, (Assembly.new .strict).addUnits [again, first, second] = .ok assembly := by
  intro holding unit other first second third again
  have turned : [first, second, third].Perm [third, second, first] := by decide +kernel
  have moved : [first, second, again].Perm [again, first, second] := by decide +kernel
  obtain ⟨fits, both, alike⟩ := units_fit_in_any_order .strict turned
  obtain ⟨fits', both', -⟩ := units_fit_in_any_order .strict moved
  have refused : ¬ ∃ assembly, (Assembly.new .strict).addUnits [first, second, again] =
      .ok assembly := by
    rw [fits']
    decide +kernel
  obtain ⟨assembly, hadd⟩ := fits.mpr (by decide +kernel)
  obtain ⟨reordered, hreordered⟩ := both.mp ⟨assembly, hadd⟩
  obtain ⟨index, -, named⟩ := alike assembly reordered hadd hreordered
  have single : ∀ v ∈ [first, second, third],
      v.unit.content.name = third.unit.content.name → v = third := by decide +kernel
  exact ⟨⟨assembly, reordered, hadd, hreordered, index, named third (by simp) single⟩, refused,
    fun accepted => refused (both'.mpr accepted)⟩

end DesignTree
