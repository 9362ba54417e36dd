import DesignTree.Proofs.Assembly.Accepted
import DesignTree.Proofs.Assembly.InTurn
/-!
# DesignTree.Proofs.Assembly.Session

The units of one session.

Units that draw from one counter have no number in common, also if others fail between them
(`Design.pairwise_apart_elaborateEach`). A unit that has no number in common with those in an
assembly is added to it, unless its name keeps it out (`Comprises.exists_conflict`). So what comes
out of one session can be put together in any way, and only names may clash.
-/

namespace DesignTree

open NodeTree Layout

/-! ### Numbers of laid-out units -/

namespace LaidOut

variable {name : Nat → NodeId} {source source' : SourceUnit} {k m : Nat} {u other : ElaboratedUnit}

/-- A unit has the nodes of its layout. -/
theorem get?_eq_some_iff (laid : LaidOut name source k u) (hname : Function.Injective name)
    {id : NodeId} {node : Node} :
    u.get? id = some node ↔ node ∈ nodesOf [unitTree name source k] ∧ node.id = id := by
  rw [ElaboratedUnit.get?_eq_some_iff (laid.own hname), laid.adds.get?_eq_some_iff,
    nodesOf_singleton, nodes_eq, laid.node_eq, List.mem_cons, or_and_right, or_comm]

/-- All that is in a unit has numbers from its range. -/
theorem exists_position_of_get? (laid : LaidOut name source k u)
    (hname : Function.Injective name) {id : NodeId} {node : Node} (h : u.get? id = some node) :
    ∃ i, k ≤ i ∧ i < k + source.cost ∧ id = name i := by
  obtain ⟨hnode, rfl⟩ := (laid.get?_eq_some_iff hname).mp h
  exact (numbered_unitTree name source k).exists_position hnode

/-- Units that are laid out one after the other have no number in common. -/
theorem apart (laid : LaidOut name source k u) (laid' : LaidOut name source' m other)
    (hname : Function.Injective name) (after : k + source.cost ≤ m) : u.Apart other := by
  intro id
  cases hu : u.get? id with
  | none => exact .inl rfl
  | some node =>
    refine .inr (Option.eq_none_iff_forall_ne_some.mpr fun node' hother => ?_)
    obtain ⟨i, -, hi, rfl⟩ := laid.exists_position_of_get? hname hu
    obtain ⟨j, hj, -, same⟩ := laid'.exists_position_of_get? hname hother
    have same := hname same
    omega

end LaidOut

/-! ### Successes -/

theorem mem_successes {outcomes : List (Except DesignError ElaboratedUnit)} {u : ElaboratedUnit} :
    u ∈ outcomes.filterMap Except.toOption ↔ .ok u ∈ outcomes := by
  rw [List.mem_filterMap]
  constructor
  · rintro ⟨outcome, hmem, hok⟩
    cases outcome with
    | error e => cases hok
    | ok other =>
      cases hok
      exact hmem
  · exact fun hmem => ⟨.ok u, hmem, rfl⟩

namespace Design

variable {sources : List SourceUnit} {ids : IdCounter} {u : ElaboratedUnit}

theorem own_of_mem_elaborateEach (h : .ok u ∈ (elaborateEach sources ids).1) :
    u.nodes.get? u.unit.id = none := by
  obtain ⟨source, k, laid, -⟩ := exists_laidOut_of_mem_elaborateEach h
  exact laid.own IdCounter.schedule.name_injective

/-- The successes of a session have no number in common. -/
theorem pairwise_apart_elaborateEach (sources : List SourceUnit) (ids : IdCounter) :
    ((elaborateEach sources ids).1.filterMap Except.toOption).Pairwise ElaboratedUnit.Apart := by
  induction sources generalizing ids with
  | nil => exact .nil
  | cons source rest ih =>
    rw [elaborateEach]
    cases h : source.elaborate ids with
    | mk outcome left =>
      cases outcome with
      | error e => exact ih left
      | ok u =>
        obtain ⟨laid, hleft, -⟩ := SourceUnit.laidOut h
        refine List.pairwise_cons.mpr ⟨fun other hother => ?_, ih left⟩
        -- What is elaborated later has numbers that the counter had not issued yet.
        obtain ⟨source', k, laid', hk, -⟩ :=
          exists_laidOut_of_mem_elaborateEach (mem_successes.mp hother)
        exact laid.apart laid' IdCounter.schedule.name_injective (hleft ▸ hk)

end Design

/-! ### Adding them -/

namespace Assembly.Comprises

variable {assembly extended : Assembly} {units more : List ElaboratedUnit}
  {added : ElaboratedUnit} {e : DesignError}

/-- A unit with numbers of its own is kept out of an assembly by its name only. -/
theorem exists_conflict (h : assembly.Comprises units)
    (own : added.nodes.get? added.unit.id = none) (apart : ∀ u ∈ units, u.Apart added)
    (failure : assembly.addUnit added = .error e) :
    ∃ previous, assembly.conflict? added.unit.content = some previous ∧
      e = .duplicateDefinition added.unit.content.name added.unit.content.nameSpan previous := by
  cases hname : assembly.conflict? added.unit.content with
  | some previous =>
    rw [addUnit_of_conflict? hname] at failure
    exact ⟨previous, rfl, (Except.error.inj failure).symm⟩
  | none =>
    have free : ∀ id node, added.get? id = some node → assembly.design.index.get? id = none := by
      intro id node hnode
      refine Option.eq_none_iff_forall_ne_some.mpr fun other held => ?_
      obtain ⟨u, hu, hother⟩ := (h.entries id other).mp held
      rcases apart u hu id with none | none
      · exact Option.some_ne_none other (hother.symm.trans none)
      · exact Option.some_ne_none node (hnode.symm.trans none)
    have admits : assembly.Admits added :=
      { name := hname
        unused := free _ _ added.get?_id
        own
        apart := fun id node hnode =>
          free id node ((ElaboratedUnit.get?_eq_some_iff own).mpr (.inl hnode)) }
    obtain ⟨index, hadd⟩ := admits.exists_addUnit
    rw [hadd] at failure
    cases failure

/-- Adding units that can all be added. -/
theorem addUnits (h : assembly.Comprises units) (hadd : assembly.addUnits more = .ok extended) :
    extended.Comprises (units ++ more) ∧ extended.config = assembly.config := by
  induction more generalizing assembly units with
  | nil =>
    cases hadd
    exact ⟨(List.append_nil units).symm ▸ h, rfl⟩
  | cons added rest ih =>
    rw [Assembly.addUnits] at hadd
    cases hfirst : assembly.addUnit added with
    | error e => simp only [hfirst, reduceCtorEq] at hadd
    | ok grown =>
      simp only [hfirst] at hadd
      obtain ⟨comprises, same⟩ := ih (h.addUnit hfirst) hadd
      exact ⟨List.append_cons units added rest ▸ comprises, same.trans (config_of_addUnit hfirst)⟩

end Assembly.Comprises

/-! ### A design in turn -/

namespace Design

variable {sources : List SourceUnit} {ids left : IdCounter} {config : DesignConfig}
  {e : DesignError}

/-- A design fails at a unit that is not elaborated, or at one whose name is in conflict with the
units before it. -/
theorem exists_of_elaborate_error (h : elaborate sources ids config = (.error e, left)) :
    ∃ front source back, sources = front ++ source :: back ∧
      ∃ (units : List ElaboratedUnit) (middle : IdCounter) (extended : Assembly),
        elaborateEach front ids = (units.map .ok, middle) ∧
        (Assembly.new config).addUnits units = .ok extended ∧
        (source.elaborate middle = (.error e, left) ∨
          ∃ u, source.elaborate middle = (.ok u, left) ∧ extended.addUnit u = .error e ∧
            ∃ previous, extended.conflict? u.unit.content = some previous ∧
              e = .duplicateDefinition u.unit.content.name u.unit.content.nameSpan previous) := by
  obtain ⟨front, source, back, hsources, units, middle, extended, hfront, hunits, hlast⟩ :=
    exists_of_elaborateOnto_error h
  refine ⟨front, source, back, hsources, units, middle, extended, hfront, hunits, ?_⟩
  rcases hlast with failure | ⟨u, success, failure⟩
  · exact .inl failure
  · have injective := IdCounter.schedule.name_injective
    have comprises := ((Assembly.Comprises.new config).addUnits hunits).1
    obtain ⟨laid, -⟩ := SourceUnit.laidOut success
    have apart : ∀ other ∈ units, other.Apart u := by
      intro other hother
      have hmem : .ok other ∈ (elaborateEach front ids).1 := by
        rw [hfront]
        exact List.mem_map_of_mem hother
      obtain ⟨source', k, laid', -, hbound⟩ := exists_laidOut_of_mem_elaborateEach hmem
      rw [hfront] at hbound
      exact laid'.apart laid injective hbound
    exact .inr ⟨u, success, failure, comprises.exists_conflict (laid.own injective) apart failure⟩

end Design

end DesignTree
