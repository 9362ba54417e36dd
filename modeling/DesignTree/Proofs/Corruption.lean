import DesignTree.Proofs.Assembly.Session
import DesignTree.Proofs.Concurrent.Apart
import DesignTree.Proofs.Faults
import Mathlib.Data.List.Pairwise
/-!
# DesignTree.Proofs.Corruption

Nodes always fit together.

Some errors say that two nodes have one number, that a number has no node, or that a node of the
wrong kind stands where a port declaration or the marker of a region is expected. No source tree
brings these about, on no supply of numbers and also not when the numbers run out on the way
(`corruption_is_unreachable`): a unit only fails for a fault of its source, and no fault is of this
kind (`SourceUnit.harmless_fault?`); between units of one session only names can clash.
-/

namespace DesignTree

namespace DesignError

/-- Whether an error says that nodes do not fit together. -/
def isCorruption : DesignError → Bool
  | duplicateId _ | unknownId _ | cyclicId _ => true
  | structural _ .headerPortAmongItems => true
  | structural _ .generateScopeAmongItems => true
  | structural _ .markerMismatch => true
  | _ => false

end DesignError

/-! ### Faults of a source tree -/

/-- A check that never speaks of corruption. -/
def Harmless (fault : Option DesignError) : Prop := ∀ e ∈ fault, e.isCorruption = false

namespace Harmless

variable {α : Type} {a b : Option DesignError}

theorem none : Harmless none := fun _ h => by cases h

theorem some {e : DesignError} (h : e.isCorruption = false) : Harmless (some e) := by
  rintro _ ⟨⟩
  exact h

theorem or (ha : Harmless a) (hb : Harmless b) : Harmless (a.or b) := by
  cases a with
  | none => exact hb
  | some e => exact ha

theorem map {f : α → DesignError} (h : ∀ x, (f x).isCorruption = false) (found : Option α) :
    Harmless (found.map f) := by
  cases found with
  | none => exact none
  | some x => exact some (h x)

theorem findSome? {f : α → Option DesignError} (h : ∀ x, Harmless (f x)) (list : List α) :
    Harmless (list.findSome? f) := by
  intro e he
  obtain ⟨x, -, hx⟩ := List.exists_of_findSome?_eq_some he
  exact h x e hx

theorem headerFault? (items : List SourceItem) (header : List HeaderEntry) :
    Harmless (headerFault? items header) := by
  cases header with
  | nil => exact none
  | cons first rest =>
    rw [DesignTree.headerFault?]
    split
    · exact some rfl
    · split
      · exact map (fun _ => rfl) _
      · exact map (fun _ => rfl) _

theorem scopeFault? (scope : ScopeKind) (items : List SourceItem) (ha : Harmless a)
    (hb : Harmless b) : Harmless (scopeFault? scope items a b) := by
  refine ha.or (.or (.findSome? (fun item => ?_) items) hb)
  rw [SourceItem.misplacement?]
  split
  · exact some rfl
  · exact none

end Harmless

mutual

theorem SourceUnit.harmless_fault? : ∀ source : SourceUnit, Harmless source.fault?
  | ⟨kind, _, _, _, header, items⟩ => by
    rw [SourceUnit.fault?]
    split
    · exact .some rfl
    · have scope := Harmless.scopeFault? kind.scope items (harmless_itemFaults? items)
        (harmless_regionFaults? items)
      exact scope.or (.headerFault? items header)

theorem SourceItem.harmless_ownFault? : ∀ item : SourceItem, Harmless item.ownFault?
  | .unit nested => SourceUnit.harmless_fault? nested
  | .declaration .. => .none
  | .inst .. => .none
  | .generateIf _ _ none _ _ => .some rfl
  | .generateIf _ _ (some _) _ _ => .none
  | .generateFor _ _ _ none _ => .some rfl
  | .generateFor _ _ _ (some _) _ => .none
  | .generateBlock .. => .none
  | .malformed _ => .some rfl

theorem harmless_itemFaults? : ∀ items : List SourceItem, Harmless (itemFaults? items)
  | [] => .none
  | item :: rest => (SourceItem.harmless_ownFault? item).or (harmless_itemFaults? rest)

theorem SourceItem.harmless_regionFault? : ∀ item : SourceItem, Harmless item.regionFault?
  | .unit _ => .none
  | .declaration .. => .none
  | .inst .. => .none
  | .generateIf _ _ none _ _ => .none
  | .generateIf _ _ (some true) thenBlock _ => SourceBlock.harmless_fault? thenBlock
  | .generateIf _ _ (some false) _ none => .none
  | .generateIf _ _ (some false) _ (some elseBlock) => SourceBlock.harmless_fault? elseBlock
  | .generateFor _ _ _ none _ => .none
  | .generateFor _ _ _ (some []) _ => .none
  | .generateFor _ _ _ (some (_ :: _)) block => SourceBlock.harmless_fault? block
  | .generateBlock _ _ block => SourceBlock.harmless_fault? block
  | .malformed _ => .none

theorem harmless_regionFaults? : ∀ items : List SourceItem, Harmless (regionFaults? items)
  | [] => .none
  | item :: rest => (SourceItem.harmless_regionFault? item).or (harmless_regionFaults? rest)

theorem SourceBlock.harmless_fault? : ∀ block : SourceBlock, Harmless block.fault?
  | ⟨_, _, items⟩ =>
    .scopeFault? .generate items (harmless_itemFaults? items) (harmless_regionFaults? items)

end

/-! ### Failures -/

variable {ids left : IdCounter} {config : DesignConfig} {e : DesignError}

theorem isCorruption_of_fault {source : SourceUnit} (h : source.audit.fault = some e) :
    e.isCorruption = false :=
  source.harmless_fault? e (source.fault_audit ▸ h)

theorem SourceUnit.isCorruption_of_elaborate {source : SourceUnit}
    (h : source.elaborate ids = (.error e, left)) : e.isCorruption = false := by
  rcases (fault_of_elaborate h).1 with rfl | fault
  · rfl
  · exact isCorruption_of_fault fault

/-- A unit that fails on numbers that were dealt out, be they enough or not. -/
theorem SourceUnit.isCorruption_of_dealt {name : Nat → NodeId} {source : SourceUnit}
    {own : DealtIds} {k n : Nat} (hname : Function.Injective name)
    (hown : own.ids = (List.range' k n).map name)
    (failure : (source.elaborate own).1 = .error e) : e.isCorruption = false := by
  by_cases dry : e = .ids .exhausted
  · rw [dry]
    rfl
  · exact isCorruption_of_fault (fault_of_dealt hname hown failure dry).1

namespace Design

theorem isCorruption_of_firstClash? {earlier rest : List SourceUnit}
    (h : firstClash? config earlier rest = some e) : e.isCorruption = false := by
  obtain ⟨name, span, previous, rfl⟩ := exists_of_firstClash? h
  rfl

theorem isCorruption_of_elaborate {sources : List SourceUnit}
    (h : elaborate sources ids config = (.error e, left)) : e.isCorruption = false := by
  obtain ⟨_, source, _, _, _, _, _, _, _, hlast⟩ := exists_of_elaborate_error h
  rcases hlast with failure | ⟨_, _, _, _, _, rfl⟩
  · exact source.isCorruption_of_elaborate failure
  · rfl

/-- Outcomes that are put together at the end. If all are successes that are laid out one after the
other, only their names may clash. -/
theorem isCorruption_of_ofOutcomes {outcomes : List (Except DesignError ElaboratedUnit)}
    (failures : ∀ e, .error e ∈ outcomes → e.isCorruption = false)
    (laid : ∀ units : List ElaboratedUnit, outcomes = units.map .ok →
      allUnits outcomes = .ok units → ∃ name sources k, Function.Injective name ∧
        Assembly.LaidOutAll name sources k units)
    (failure : ofOutcomes config outcomes = .error e) : e.isCorruption = false := by
  rw [ofOutcomes] at failure
  rcases allUnits_cases outcomes with ⟨units, hmap, hunits⟩ | ⟨e', hfirst, hmem⟩
  · obtain ⟨name, sources, k, hname, laid⟩ := laid units hmap hunits
    rcases Assembly.addUnits_laidOut (Assembly.built_new name k config) hname laid with
      ⟨e', clash, hadd⟩ | ⟨-, extended, hadd, -⟩
    · simp only [hunits, hadd, Except.error.injEq] at failure
      exact failure ▸ isCorruption_of_firstClash? clash
    · simp only [hunits, hadd, reduceCtorEq] at failure
  · simp only [hfirst, Except.error.injEq] at failure
    exact failure ▸ failures e' hmem

theorem isCorruption_of_mem_elaborateEach {sources : List SourceUnit}
    (h : .error e ∈ (elaborateEach sources ids).1) : e.isCorruption = false := by
  induction sources generalizing ids with
  | nil => cases h
  | cons source rest ih =>
    rcases List.mem_cons.mp h with hfirst | hlater
    · exact source.isCorruption_of_elaborate (Prod.ext hfirst.symm rfl)
    · exact ih hlater

theorem isCorruption_of_elaborateApart {sources : List SourceUnit}
    (h : elaborateApart sources ids config = (.error e, left)) : e.isCorruption = false := by
  refine isCorruption_of_ofOutcomes (fun e => isCorruption_of_mem_elaborateEach)
    (fun units hunits _ => ?_) (congrArg Prod.fst h)
  exact ⟨NodeId.mk, sources, ids.next, IdCounter.schedule.name_injective,
    (laidOut_elaborateEach (Prod.ext hunits rfl)).1⟩

/-- Units that are elaborated at the same time, on whatever numbers each of them got hold of. -/
theorem isCorruption_of_elaborateDealt {dealt : List (SourceUnit × DealtIds)}
    (issued : ∃ order, ids.Issues order left ∧ order.Perm (dealt.flatMap (·.2.ids)))
    (drawn : ∀ task ∈ dealt, (task.1.elaborate task.2).2 = ⟨[]⟩) :
    (∀ task ∈ dealt, ∀ e, (task.1.elaborate task.2).1 = .error e → e.isCorruption = false) ∧
      ∀ e, elaborateDealt dealt config = .error e → e.isCorruption = false := by
  obtain ⟨order, issues, perm⟩ := issued
  obtain ⟨name, n, hname, hids, -⟩ := issues.exists_naming perm
  have failures : ∀ task ∈ dealt, ∀ e,
      (task.1.elaborate task.2).1 = .error e → e.isCorruption = false := by
    intro task htask e failure
    obtain ⟨i, m, -, hown⟩ := exists_own_of_mem hids htask
    exact SourceUnit.isCorruption_of_dealt hname hown failure
  refine ⟨failures, fun e failure => isCorruption_of_ofOutcomes (fun e h => ?_) ?_ failure⟩
  · obtain ⟨task, htask, outcome⟩ := List.mem_map.mp h
    exact failures task htask e outcome
  · intro units hmap hunits
    have success : ∀ task ∈ dealt, ∃ u, (task.1.elaborate task.2).1 = .ok u := by
      intro task htask
      have hmem : (task.1.elaborate task.2).1 ∈ units.map .ok := by
        rw [← hmap]
        exact List.mem_map_of_mem htask
      exact (List.mem_map.mp hmem).imp fun u hu => hu.2.symm
    obtain ⟨units', hunits', laid, -⟩ := exists_allUnits hname hids drawn success
    obtain rfl := Except.ok.inj (hunits'.symm.trans hunits)
    exact ⟨name, _, _, hname, laid⟩

end Design

/-! ### Sessions -/

/-- Units of one session, each of them added to an assembly at most once. -/
theorem Assembly.exists_duplicateDefinition {sources : List SourceUnit}
    {units front back : List ElaboratedUnit} {added : ElaboratedUnit} (distinct : units.Nodup)
    (session : ∀ u ∈ units, .ok u ∈ (Design.elaborateEach sources ids).1)
    (hunits : units = front ++ added :: back)
    (failure : ((new config).addEach front).addUnit added = .error e) :
    ∃ previous, e =
      .duplicateDefinition added.unit.content.name added.unit.content.nameSpan previous := by
  have comprises := (Comprises.new config).addEach front
  have success : .ok added ∈ (Design.elaborateEach sources ids).1 :=
    session added (hunits ▸ List.mem_append_cons_self)
  have apart : ∀ u ∈ [] ++ (new config).accepted front, u.Apart added := by
    intro u hu
    have offered : u ∈ front := mem_of_mem_accepted hu
    have other : u ≠ added := by
      rw [hunits, List.nodup_append] at distinct
      exact distinct.2.2 u offered added (List.mem_cons_self ..)
    have success' := session u (hunits ▸ List.mem_append_left _ offered)
    exact (Design.pairwise_apart_elaborateEach sources ids).forall (mem_successes.mpr success')
      (mem_successes.mpr success) other
  obtain ⟨previous, -, he⟩ :=
    comprises.exists_conflict (Design.own_of_mem_elaborateEach success) apart failure
  exact ⟨previous, he⟩

/-- No error says that nodes do not fit together: not of a unit, not of a design whose units are
elaborated in turn, nor of one whose units are elaborated at the same time, in whatever way the
numbers go to them and whether or not there are enough. Units that were elaborated with one counter,
among others that may have failed, can be added to an assembly in any order, each of them once, and
only the name of a unit can keep it out. -/
theorem corruption_is_unreachable (config : DesignConfig) :
    (∀ {source : SourceUnit} {ids left : IdCounter} {e : DesignError},
      source.elaborate ids = (.error e, left) → e.isCorruption = false) ∧
    (∀ {sources : List SourceUnit} {ids left : IdCounter} {e : DesignError},
      Design.elaborate sources ids config = (.error e, left) → e.isCorruption = false) ∧
    (∀ {dealt : List (SourceUnit × DealtIds)} {ids left : IdCounter},
      (∃ order, ids.Issues order left ∧ order.Perm (dealt.flatMap (·.2.ids))) →
      (∀ task ∈ dealt, (task.1.elaborate task.2).2 = ⟨[]⟩) →
      (∀ task ∈ dealt, ∀ e, (task.1.elaborate task.2).1 = .error e → e.isCorruption = false) ∧
        ∀ e, Design.elaborateDealt dealt config = .error e → e.isCorruption = false) ∧
    (∀ {sources : List SourceUnit} {ids left : IdCounter} {e : DesignError},
      Design.elaborateApart sources ids config = (.error e, left) → e.isCorruption = false) ∧
    ∀ {sources : List SourceUnit} {ids : IdCounter} {units : List ElaboratedUnit}, units.Nodup →
      (∀ u ∈ units, .ok u ∈ (Design.elaborateEach sources ids).1) →
      ∀ front added back e, units = front ++ added :: back →
        ((Assembly.new config).addEach front).addUnit added = .error e → ∃ previous, e =
          .duplicateDefinition added.unit.content.name added.unit.content.nameSpan previous :=
  ⟨SourceUnit.isCorruption_of_elaborate, Design.isCorruption_of_elaborate,
    Design.isCorruption_of_elaborateDealt, Design.isCorruption_of_elaborateApart,
    fun distinct session _ _ _ _ => Assembly.exists_duplicateDefinition distinct session⟩

/-- Two units of one name and a malformed one between them. With three numbers left, the second
cannot be finished, in turn as at the same time. With enough of them the two are elaborated, and of
these the first cannot be added to the second. -/
theorem no_corruption_among_clashing_units :
    let item : SourceItem := .declaration .dummy (.proc .final)
    let first : SourceUnit := ⟨.module, .empty, .dummy, .dummy, [], [item]⟩
    let broken : SourceUnit := ⟨.module, .empty, .dummy, .dummy, [], [item, .malformed .dummy]⟩
    let second : SourceUnit := ⟨.package, .empty, .point .dummy 5, .dummy, [], [item]⟩
    let almost : IdCounter := ⟨idLimit - 3⟩
    let dealt : List (SourceUnit × DealtIds) :=
      [(first, ⟨[⟨idLimit - 3⟩, ⟨idLimit - 1⟩]⟩), (second, ⟨[⟨idLimit - 2⟩]⟩)]
    let session := (Design.elaborateEach [first, broken, second] IdCounter.fresh).1
    (∃ e left, Design.elaborate [first, second] almost .strict = (.error e, left) ∧
      e.isCorruption = false) ∧
    (∃ e, Design.elaborateDealt dealt .strict = .error e ∧ e.isCorruption = false) ∧
    ∃ u v, session.filterMap Except.toOption = [u, v] ∧ ∃ e previous,
      ((Assembly.new .strict).addEach [v]).addUnit u = .error e ∧
        e = .duplicateDefinition u.unit.content.name u.unit.content.nameSpan previous := by
  intro item first broken second almost dealt session
  obtain ⟨-, inTurn, atOnce, -, added⟩ := corruption_is_unreachable .strict
  refine ⟨?_, ?_, ?_⟩
  · have failure : (Design.elaborate [first, second] almost .strict).1 =
        .error (.ids .exhausted) := eq_error_of_failure? (by decide +kernel)
    exact ⟨_, _, Prod.ext failure rfl, inTurn (Prod.ext failure rfl)⟩
  · have failure : Design.elaborateDealt dealt .strict = .error (.ids .exhausted) :=
      eq_error_of_failure? (by decide +kernel)
    have issued : almost.Issues [⟨idLimit - 3⟩, ⟨idLimit - 2⟩, ⟨idLimit - 1⟩] ⟨idLimit⟩ :=
      .cons rfl (.cons rfl (.cons rfl .nil))
    have drawn : ∀ task ∈ dealt, (task.1.elaborate task.2).2 = ⟨[]⟩ := by decide +kernel
    exact ⟨_, failure, (atOnce ⟨_, issued, by decide⟩ drawn).2 _ failure⟩
  · have numbers : (session.filterMap Except.toOption).map (·.unit.id) = [⟨1⟩, ⟨5⟩] := by
      decide +kernel
    have refused : (session.filterMap Except.toOption).head?.map (fun u =>
        (((Assembly.new .strict).addEach ((session.filterMap Except.toOption).drop 1)).addUnit
          u).isOk) = some false := by decide +kernel
    generalize hunits : session.filterMap Except.toOption = units at numbers refused ⊢
    obtain ⟨u, v, rfl⟩ : ∃ u v, units = [u, v] :=
      List.length_eq_two.mp (by simpa using congrArg List.length numbers)
    replace refused : (((Assembly.new .strict).addEach [v]).addUnit u).isOk = false :=
      Option.some.inj refused
    have distinct : [v, u].Nodup := by
      have reversed : ([v, u].map (·.unit.id)).Nodup := by
        simp only [List.map_cons, List.map_nil, List.cons.injEq] at numbers ⊢
        rw [numbers.1, numbers.2.1]
        decide
      exact reversed.of_map _
    have successes : ∀ w ∈ [v, u], .ok w ∈ session := by
      intro w hw
      refine mem_successes.mp ?_
      rw [hunits]
      simpa [or_comm] using hw
    cases failure : ((Assembly.new .strict).addEach [v]).addUnit u with
    | ok extended =>
      rw [failure] at refused
      cases refused
    | error e =>
      obtain ⟨previous, he⟩ := added distinct successes [v] u [] e rfl failure
      exact ⟨u, v, rfl, e, previous, failure, he⟩

end DesignTree
