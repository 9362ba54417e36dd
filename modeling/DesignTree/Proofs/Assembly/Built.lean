import DesignTree.Proofs.Assembly
/-!
# DesignTree.Proofs.Assembly.Built

The design of a list of units.

Given the numbers, a list of units determines its design: the units laid out one after the other,
and under each name the last unit of it (`Design.Built`, `Built.eq`). An assembly that has the
design of some units goes on to the design of one more, unless that unit clashes with one before
it (`built_addUnit`). So how the assembly of a list ends can be read off the list
(`firstClash?`, `addUnits_laidOut`), and the numbers have no part in it.
-/

namespace DesignTree

open NodeTree

/-- The numbers of some units. -/
def unitCosts : List SourceUnit → Nat
  | [] => 0
  | source :: rest => source.cost + unitCosts rest

@[simp] theorem unitCosts_nil : unitCosts [] = 0 := rfl

@[simp] theorem unitCosts_cons (source : SourceUnit) (rest : List SourceUnit) :
    unitCosts (source :: rest) = source.cost + unitCosts rest := rfl

@[simp] theorem unitCosts_append (front back : List SourceUnit) :
    unitCosts (front ++ back) = unitCosts front + unitCosts back := by
  induction front with
  | nil => simp
  | cons source rest ih => rw [List.cons_append, unitCosts_cons, unitCosts_cons, ih, Nat.add_assoc]

theorem cost_le_unitCosts {source : SourceUnit} {sources : List SourceUnit}
    (h : source ∈ sources) : source.cost ≤ unitCosts sources := by
  obtain ⟨front, back, rfl⟩ := List.append_of_mem h
  rw [unitCosts_append, unitCosts_cons]
  omega

/-! ### Names -/

/-- The definition that counts for a name, if the first number of the units is the `k`-th: the last
one. -/
def lastDefinition? (name : Nat → NodeId) (wanted : Name) :
    List SourceUnit → Nat → Option Definition
  | [], _ => none
  | source :: rest, k =>
    (lastDefinition? name wanted rest (k + source.cost)).or
      (if source.name = wanted then some { id := name k, nameSpan := source.nameSpan } else none)

/-- Where the last unit of a name has its name. -/
def lastNameSpan? (wanted : Name) (sources : List SourceUnit) : Option Span :=
  (sources.reverse.find? (·.name = wanted)).map (·.nameSpan)

/-- The conflict of a unit with the units before it, in a design where every name has one
definition. -/
def clash? (config : DesignConfig) (earlier : List SourceUnit) (source : SourceUnit) :
    Option DesignError :=
  match lastNameSpan? source.name earlier with
  | none => none
  | some previous =>
    if previous ≠ source.nameSpan ∧ config.ignoreDuplicateDefs = false then
      some (.duplicateDefinition source.name source.nameSpan previous)
    else
      none

/-- The first conflict that comes up when units are added to some earlier ones. -/
def firstClash? (config : DesignConfig) :
    List SourceUnit → List SourceUnit → Option DesignError
  | _, [] => none
  | earlier, source :: rest =>
    (clash? config earlier source).or (firstClash? config (earlier ++ [source]) rest)

theorem lastDefinition?_append_singleton (name : Nat → NodeId) (wanted : Name)
    (front : List SourceUnit) (source : SourceUnit) (k : Nat) :
    lastDefinition? name wanted (front ++ [source]) k =
      if source.name = wanted then
        some { id := name (k + unitCosts front), nameSpan := source.nameSpan }
      else lastDefinition? name wanted front k := by
  induction front generalizing k with
  | nil => simp [lastDefinition?]
  | cons first rest ih =>
    rw [List.cons_append, lastDefinition?, lastDefinition?, ih, Nat.add_assoc, ← unitCosts_cons]
    split
    · rw [Option.some_or]
    · rfl

theorem map_nameSpan_lastDefinition? (name : Nat → NodeId) (wanted : Name)
    (sources : List SourceUnit) (k : Nat) :
    (lastDefinition? name wanted sources k).map (·.nameSpan) =
      lastNameSpan? wanted sources := by
  induction sources generalizing k with
  | nil => rfl
  | cons source rest ih =>
    rw [lastDefinition?, Option.map_or, ih, lastNameSpan?, lastNameSpan?, List.reverse_cons,
      List.find?_append, Option.map_or, List.find?_singleton]
    by_cases h : source.name = wanted <;> simp [h]

theorem exists_of_clash? {config : DesignConfig} {earlier : List SourceUnit} {source : SourceUnit}
    {e : DesignError} (h : clash? config earlier source = some e) :
    ∃ previous, e = .duplicateDefinition source.name source.nameSpan previous := by
  unfold clash? at h
  split at h
  · cases h
  next previous _ =>
    split at h
    · cases h
      exact ⟨previous, rfl⟩
    · cases h

/-- Conflicts are about names that are defined twice. -/
theorem exists_of_firstClash? {config : DesignConfig} {earlier rest : List SourceUnit}
    {e : DesignError} (h : firstClash? config earlier rest = some e) :
    ∃ name span previous, e = .duplicateDefinition name span previous := by
  induction rest generalizing earlier with
  | nil => cases h
  | cons source rest ih =>
    rw [firstClash?] at h
    cases hclash : clash? config earlier source with
    | some other =>
      rw [hclash, Option.some_or] at h
      cases h
      obtain ⟨previous, rfl⟩ := exists_of_clash? hclash
      exact ⟨_, _, _, rfl⟩
    | none =>
      rw [hclash, Option.none_or] at h
      exact ih h

/-! ### Trees -/

namespace Layout

variable (name : Nat → NodeId)

/-- Units laid out one after the other; the first number is the `k`-th. -/
def unitTrees : List SourceUnit → Nat → List NodeTree
  | [], _ => []
  | source :: rest, k => unitTree name source k :: unitTrees rest (k + source.cost)

theorem unitTrees_append_singleton (front : List SourceUnit) (source : SourceUnit) (k : Nat) :
    unitTrees name (front ++ [source]) k =
      unitTrees name front k ++ [unitTree name source (k + unitCosts front)] := by
  induction front generalizing k with
  | nil => rfl
  | cons first rest ih =>
    rw [List.cons_append, unitTrees, unitTrees, ih, Nat.add_assoc, ← unitCosts_cons,
      List.cons_append]

theorem numbered_unitTrees (sources : List SourceUnit) (k : Nat) :
    Numbered name (unitTrees name sources k) k (unitCosts sources) := by
  induction sources generalizing k with
  | nil => exact .nil
  | cons source rest ih => exact (numbered_unitTree name source k).cons (ih (k + source.cost))

theorem mem_unitTrees {sources : List SourceUnit} {k : Nat} {tree : NodeTree}
    (h : tree ∈ unitTrees name sources k) : ∃ source m, tree = unitTree name source m := by
  induction sources generalizing k with
  | nil => cases h
  | cons source rest ih =>
    rcases List.mem_cons.mp h with hfirst | hlater
    · exact ⟨source, k, hfirst⟩
    · exact ih hlater

end Layout

open Layout

/-! ### The design -/

/-- The design of the given units, of which the first number is the `first`-th. -/
structure Design.Built (name : Nat → NodeId) (sources : List SourceUnit) (first : Nat)
    (design : Design) : Prop where
  holds : design.Holds (unitTrees name sources first)
  byName : ∀ wanted, design.byName[wanted]? = lastDefinition? name wanted sources first

namespace Design.Built

variable {name : Nat → NodeId} {sources : List SourceUnit} {first : Nat} {design other : Design}

/-- There is one design of given units. -/
theorem eq (h : design.Built name sources first) (h' : other.Built name sources first) :
    design = other := by
  obtain ⟨index, unitIds, byName⟩ := design
  obtain ⟨index', unitIds', byName'⟩ := other
  obtain rfl : index = index' := h.holds.adds.eq h'.holds.adds
  obtain rfl : unitIds = unitIds' :=
    Array.toList_inj.mp (h.holds.unitIds.trans h'.holds.unitIds.symm)
  obtain rfl : byName = byName' :=
    Std.ExtTreeMap.ext_getElem? fun wanted => (h.byName wanted).trans (h'.byName wanted).symm
  rfl

/-- Later numbers are not taken. -/
theorem get?_eq_none (h : design.Built name sources first) (hname : Function.Injective name)
    {i : Nat} (hi : first + unitCosts sources ≤ i) : design.index.get? (name i) = none := by
  refine h.holds.adds.get?_eq_none (NodeIndex.get?_empty _) fun node hnode hid => ?_
  obtain ⟨j, -, hlt, hj⟩ := (numbered_unitTrees name sources first).exists_position hnode
  have same : j = i := hname (hj.symm.trans hid)
  omega

end Design.Built

/-! ### Adding units -/

namespace Assembly

variable {assembly : Assembly} {name : Nat → NodeId} {earlier rest : List SourceUnit}
  {source : SourceUnit} {first : Nat} {added : ElaboratedUnit} {units : List ElaboratedUnit}

theorem built_new (name : Nat → NodeId) (first : Nat) (config : DesignConfig) :
    (new config).design.Built name [] first where
  holds := holds_new config
  byName _ := Std.ExtTreeMap.getElem?_empty

/-- The conflict that an assembly finds is the clash with the units in it. -/
theorem clash?_eq (built : assembly.design.Built name earlier first) (source : SourceUnit)
    (k : Nat) :
    clash? assembly.config earlier source =
      (assembly.conflict? (placedUnit name source k).content).map
        (.duplicateDefinition source.name source.nameSpan ·) := by
  have spans := map_nameSpan_lastDefinition? name source.name earlier first
  have found : assembly.design.byName[(placedUnit name source k).content.name]? =
      lastDefinition? name source.name earlier first := built.byName source.name
  rw [clash?, conflict?, found, ← spans]
  cases lastDefinition? name source.name earlier first with
  | none => rfl
  | some previous =>
    have span : (placedUnit name source k).content.nameSpan = source.nameSpan := rfl
    simp only [Option.map_some, span]
    by_cases h : previous.nameSpan ≠ source.nameSpan ∧ assembly.config.ignoreDuplicateDefs = false
    · rw [if_pos h, if_pos h, Option.map_some]
    · rw [if_neg h, if_neg h, Option.map_none]

/-- A laid-out unit that is added to earlier ones clashes with them or comes after them. -/
theorem built_addUnit (built : assembly.design.Built name earlier first)
    (hname : Function.Injective name)
    (laid : LaidOut name source (first + unitCosts earlier) added) :
    (∃ e, clash? assembly.config earlier source = some e ∧ assembly.addUnit added = .error e) ∨
      clash? assembly.config earlier source = none ∧
        ∃ design, assembly.addUnit added = .ok { assembly with design } ∧
          design.Built name (earlier ++ [source]) first := by
  have clash := clash?_eq built source (first + unitCosts earlier)
  rw [← laid.unit_eq] at clash
  cases hconflict : assembly.conflict? added.unit.content with
  | some previous =>
    rw [hconflict] at clash
    refine .inl ⟨_, clash, ?_⟩
    rw [addUnit_of_conflict? hconflict, laid.unit_eq]
    rfl
  | none =>
    rw [hconflict] at clash
    -- The unit and what is below it come after all that is in the design.
    have unused : assembly.design.index.get? added.unit.id = none :=
      laid.id_eq ▸ built.get?_eq_none hname (Nat.le_refl _)
    have apart : ∀ id node, added.nodes.get? id = some node →
        assembly.design.index.get? id = none := by
      intro id node hnode
      obtain ⟨i, hlt, -, rfl⟩ := laid.exists_position hnode
      exact built.get?_eq_none hname (Nat.le_of_lt hlt)
    obtain ⟨index, hadd⟩ := Admits.exists_addUnit ⟨hconflict, unused, laid.own hname, apart⟩
    refine .inr ⟨clash, _, hadd, ?_, fun wanted => ?_⟩
    · rw [unitTrees_append_singleton]
      exact holds_addUnit built.holds hname laid hadd
    · rw [lastDefinition?_append_singleton, getElem?_byName_extend, built.byName, laid.unit_eq]
      rfl

/-- Units laid out one after the other. -/
inductive LaidOutAll (name : Nat → NodeId) : List SourceUnit → Nat → List ElaboratedUnit → Prop
  | nil {k : Nat} : LaidOutAll name [] k []
  | cons {source : SourceUnit} {rest : List SourceUnit} {k : Nat} {u : ElaboratedUnit}
    {units : List ElaboratedUnit} (laid : LaidOut name source k u)
    (later : LaidOutAll name rest (k + source.cost) units) :
    LaidOutAll name (source :: rest) k (u :: units)

/-- Adding units laid out one after the other ends with the first clash, or else with the design of
all of them. -/
theorem addUnits_laidOut (built : assembly.design.Built name earlier first)
    (hname : Function.Injective name)
    (laid : LaidOutAll name rest (first + unitCosts earlier) units) :
    (∃ e, firstClash? assembly.config earlier rest = some e ∧
      assembly.addUnits units = .error e) ∨
      firstClash? assembly.config earlier rest = none ∧
        ∃ extended, assembly.addUnits units = .ok extended ∧
          extended.design.Built name (earlier ++ rest) first := by
  induction rest generalizing assembly earlier units with
  | nil =>
    cases laid
    exact .inr ⟨rfl, assembly, rfl, (List.append_nil earlier).symm ▸ built⟩
  | cons source rest ih =>
    cases laid with
    | cons here later =>
      rw [firstClash?, addUnits]
      obtain ⟨e, hclash, hadd⟩ | ⟨hclash, design, hadd, more⟩ := built_addUnit built hname here
      · exact .inl ⟨e, by rw [hclash, Option.some_or], by rw [hadd]⟩
      · rw [hclash, hadd, Option.none_or, List.append_cons earlier source rest]
        have onward : ({ assembly with design } : Assembly).design.Built name
            (earlier ++ [source]) first := more
        refine ih onward ?_
        rwa [unitCosts_append, unitCosts_cons, unitCosts_nil, Nat.add_zero, ← Nat.add_assoc]

end Assembly

end DesignTree
