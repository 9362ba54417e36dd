import DesignTree.Proofs.Assembly.InTurn
import DesignTree.Proofs.Concurrent.Dealing
import DesignTree.Proofs.Renumbered
/-!
# DesignTree.Proofs.Concurrent.Agreement

Elaborating the units of a design at the same time, and elaborating them in turn.

Whatever way the draws interleave, both succeed on the same units, and then with designs that only
differ in the numbers of the nodes (`concurrent_agrees_with_sequential`). What goes wrong can be
reported differently: in turn, the first thing that is wrong in source order is the error; at the
same time, units that fail by themselves come before conflicts between units, and of several such
units any may be the one that is reported.
-/

namespace DesignTree

open Layout Assembly

/-- How a concurrent run may end. Units are assembled in source order if all were elaborated; else
the run ends with the failure of one of them. Of a unit that was never started nothing is known, and
it is not the one that failed. -/
inductive ConcurrentResult (dealt : List (SourceUnit × DealtIds)) (config : DesignConfig) :
    Except DesignError Design → Prop
  | assembled (success : ∀ task ∈ dealt, ∃ u, (task.1.elaborate task.2).1 = .ok u) :
    ConcurrentResult dealt config (Design.elaborateDealt dealt config)
  | failed {task : SourceUnit × DealtIds} {e : DesignError} (mem : task ∈ dealt)
    (failure : (task.1.elaborate task.2).1 = .error e) (started : e ≠ .ids .exhausted) :
    ConcurrentResult dealt config (.error e)

variable {ids left : IdCounter} {dealt : List (SourceUnit × DealtIds)} {config : DesignConfig}
  {result sequential : Except DesignError Design} {final : IdCounter}

/-- Both ways of making a design, if all units were elaborated: both end with the same conflict, or
both end well, with the same numbers drawn and with designs that are equal up to numbers. -/
theorem Dealing.agree (dealing : Dealing ids dealt left)
    (success : ∀ task ∈ dealt, ∃ u, (task.1.elaborate task.2).1 = .ok u)
    (hsequential : Design.elaborate (dealt.map (·.1)) ids config = (sequential, final)) :
    (∃ name span previous, Design.elaborateDealt dealt config =
        .error (.duplicateDefinition name span previous) ∧
      sequential = .error (.duplicateDefinition name span previous)) ∨
    ∃ concurrent design, Design.elaborateDealt dealt config = .ok concurrent ∧
      sequential = .ok design ∧ final = left ∧ concurrent.Reached ∧ design.Reached ∧
        ∃ common, concurrent.renumbered = .ok common ∧ design.renumbered = .ok common := by
  obtain ⟨name, n, hname, hids, same, hleft, hbound⟩ := dealing.exists_naming
  obtain ⟨-, -, -, hn, sound⟩ := exists_allUnits hname hids dealing.drawn success
  rw [hn] at same hleft hbound
  have inTurn := Design.elaborate_of_sound config sound hbound
  rw [hsequential] at inTurn
  -- Which units clash depends on the source units alone, hence is the same for both.
  rcases Design.elaborateDealt_of_success config hname hids dealing.drawn success with
    ⟨e, clash, hdealt⟩ | ⟨clash, concurrent, hdealt, built⟩
  · obtain ⟨wanted, span, previous, rfl⟩ := exists_of_firstClash? clash
    rcases inTurn with ⟨e, clash', hturn⟩ | ⟨clash', -⟩
    · rw [clash] at clash'
      cases clash'
      exact .inl ⟨wanted, span, previous, hdealt, hturn⟩
    · rw [clash] at clash'
      cases clash'
  · rcases inTurn with ⟨e, clash', -⟩ | ⟨-, design, hturn, built'⟩
    · rw [clash] at clash'
      cases clash'
    · cases hturn
      obtain ⟨common, hcommon, hcommon'⟩ := built'.exists_renumbered built
        IdCounter.schedule.name_injective hname same
      exact .inr ⟨concurrent, design, hdealt, rfl, hleft.symm, built.holds.reached,
        built'.holds.reached, common, hcommon', hcommon⟩

/-- A unit that failed in a concurrent run fails by itself as well, and for the same reason. -/
theorem Dealing.elaborate_of_failure (dealing : Dealing ids dealt left)
    {task : SourceUnit × DealtIds} {e : DesignError} (mem : task ∈ dealt)
    (failure : (task.1.elaborate task.2).1 = .error e) (started : e ≠ .ids .exhausted) :
    task.1.audit.fault = some e ∧ (task.1.elaborate ids).1 = .error e := by
  obtain ⟨name, n, hname, hids, -, -, hbound⟩ := dealing.exists_naming
  obtain ⟨i, m, hm, hown⟩ := exists_own_of_mem hids mem
  obtain ⟨fault, hdraws⟩ := SourceUnit.fault_of_dealt hname hown failure started
  have enough : ids.next + task.1.audit.draws ≤ max ids.next idLimit := by omega
  exact ⟨fault, SourceUnit.elaborate_of_fault fault enough⟩

/-- If all units were elaborated in a concurrent run, each of them can be elaborated by itself. -/
theorem Dealing.elaborate_of_success (dealing : Dealing ids dealt left)
    (success : ∀ task ∈ dealt, ∃ u, (task.1.elaborate task.2).1 = .ok u)
    {task : SourceUnit × DealtIds} (mem : task ∈ dealt) :
    ∃ u, (task.1.elaborate ids).1 = .ok u := by
  obtain ⟨name, n, hname, hids, -, -, hbound⟩ := dealing.exists_naming
  obtain ⟨-, -, -, hn, sound⟩ := exists_allUnits hname hids dealing.drawn success
  have mem' : task.1 ∈ dealt.map (·.1) := List.mem_map_of_mem mem
  have part := cost_le_unitCosts mem'
  have positive := task.1.cost_pos
  have enough : ids.next + task.1.cost ≤ idLimit := by omega
  obtain ⟨u, hu⟩ := SourceUnit.exists_elaborate (sound task.1 mem') enough
  exact ⟨u, congrArg Prod.fst hu⟩

/-- If no unit has a fault, all of them are elaborated and assembled. -/
theorem ConcurrentResult.eq_elaborateDealt (run : ConcurrentResult dealt config result)
    (dealing : Dealing ids dealt left) (sound : ∀ task ∈ dealt, task.1.audit.fault = none) :
    (∀ task ∈ dealt, ∃ u, (task.1.elaborate task.2).1 = .ok u) ∧
      result = Design.elaborateDealt dealt config := by
  cases run with
  | assembled success => exact ⟨success, rfl⟩
  | failed mem failure started =>
    have fault := (dealing.elaborate_of_failure mem failure started).1
    rw [sound _ mem] at fault
    cases fault

/-- A concurrent run has a design only if all units were elaborated. -/
theorem ConcurrentResult.success_of_eq_ok (run : ConcurrentResult dealt config result)
    {concurrent : Design} (h : result = .ok concurrent) :
    (∀ task ∈ dealt, ∃ u, (task.1.elaborate task.2).1 = .ok u) ∧
      Design.elaborateDealt dealt config = .ok concurrent := by
  cases run with
  | assembled success => exact ⟨success, h⟩
  | failed => cases h

/-- Units that are elaborated in turn and become a design are without a fault. -/
theorem sound_of_elaborate {sources : List SourceUnit} {design : Design}
    (h : Design.elaborate sources ids config = (.ok design, final)) :
    ∀ source ∈ sources, source.audit.fault = none := by
  obtain ⟨units, hunits⟩ := Design.exists_elaborateEach_of_elaborateOnto h
  exact (Design.laidOut_elaborateEach hunits).2

/-- A unit that can be elaborated by itself is without a fault. -/
theorem fault_eq_none_of_elaborate {source : SourceUnit}
    (h : ∃ u, (source.elaborate ids).1 = .ok u) : source.audit.fault = none := by
  obtain ⟨u, hu⟩ := h
  exact (SourceUnit.laidOut (Prod.ext hu rfl)).2.2.2

/-- If just one unit cannot be elaborated by itself, its failure ends the run. -/
theorem ConcurrentResult.eq_error_of_only (run : ConcurrentResult dealt config result)
    (dealing : Dealing ids dealt left) {front back : List (SourceUnit × DealtIds)}
    {task : SourceUnit × DealtIds} {e : DesignError} (hdealt : dealt = front ++ task :: back)
    (others : ∀ other ∈ front ++ back, ∃ u, (other.1.elaborate ids).1 = .ok u)
    (alone : (task.1.elaborate ids).1 = .error e) : result = .error e := by
  cases run with
  | assembled success =>
    have mem : task ∈ dealt := hdealt ▸ List.mem_append_right _ (List.mem_cons_self ..)
    obtain ⟨u, hu⟩ := dealing.elaborate_of_success success mem
    rw [hu] at alone
    cases alone
  | @failed failed e' mem failure started =>
    have failure' := (dealing.elaborate_of_failure mem failure started).2
    have one : failed = task ∨ failed ∈ front ++ back := by
      rw [hdealt] at mem
      simp only [List.mem_append, List.mem_cons] at mem ⊢
      tauto
    rcases one with rfl | other
    · rw [failure'] at alone
      cases alone
      rfl
    · obtain ⟨u, hu⟩ := others failed other
      rw [hu] at failure'
      cases failure'

/-- Whatever way the draws of units interleave that are elaborated at the same time: there is a
design exactly if there is one when the units are elaborated in turn with the same counter; then as
many numbers were drawn, and the designs are the same up to numbers. If every unit can be
elaborated, a run that fails does so with the conflict that is found in turn. If just one unit
cannot be elaborated, its failure is the error, even where units before it are in conflict. -/
theorem concurrent_agrees_with_sequential (dealing : Dealing ids dealt left)
    (run : ConcurrentResult dealt config result)
    (hsequential : Design.elaborate (dealt.map (·.1)) ids config = (sequential, final)) :
    ((∃ concurrent, result = .ok concurrent) ↔ ∃ design, sequential = .ok design) ∧
    (∀ concurrent design, result = .ok concurrent → sequential = .ok design →
      final = left ∧ concurrent.Reached ∧ design.Reached ∧
        ∃ common, concurrent.renumbered = .ok common ∧ design.renumbered = .ok common) ∧
    ((∀ task ∈ dealt, ∃ u, (task.1.elaborate ids).1 = .ok u) → ∀ e, result = .error e →
      sequential = .error e ∧
        ∃ name span previous, e = .duplicateDefinition name span previous) ∧
    ∀ front task back e, dealt = front ++ task :: back →
      (∀ other ∈ front ++ back, ∃ u, (other.1.elaborate ids).1 = .ok u) →
      (task.1.elaborate ids).1 = .error e → result = .error e := by
  refine ⟨⟨?_, ?_⟩, ?_, ?_, ?_⟩
  · rintro ⟨concurrent, hresult⟩
    obtain ⟨success, hdealt⟩ := run.success_of_eq_ok hresult
    rcases dealing.agree success hsequential with
      ⟨wanted, span, previous, hconflict, -⟩ | ⟨-, design, -, hdesign, -⟩
    · rw [hdealt] at hconflict
      cases hconflict
    · exact ⟨design, hdesign⟩
  · rintro ⟨design, rfl⟩
    have sound := sound_of_elaborate hsequential
    obtain ⟨success, rfl⟩ := run.eq_elaborateDealt dealing fun task htask =>
      sound task.1 (List.mem_map_of_mem htask)
    rcases dealing.agree success hsequential with
      ⟨wanted, span, previous, -, hconflict⟩ | ⟨concurrent, -, hdealt, -⟩
    · cases hconflict
    · exact ⟨concurrent, hdealt⟩
  · intro concurrent design hresult hdesign
    obtain ⟨success, hdealt⟩ := run.success_of_eq_ok hresult
    rcases dealing.agree success hsequential with
      ⟨wanted, span, previous, hconflict, -⟩ | ⟨concurrent', design', hdealt', hdesign', agree⟩
    · rw [hdealt] at hconflict
      cases hconflict
    · obtain rfl := Except.ok.inj (hdealt.symm.trans hdealt')
      obtain rfl := Except.ok.inj (hdesign.symm.trans hdesign')
      exact agree
  · intro alone e hresult
    obtain ⟨success, rfl⟩ := run.eq_elaborateDealt dealing fun task htask =>
      fault_eq_none_of_elaborate (alone task htask)
    rcases dealing.agree success hsequential with
      ⟨wanted, span, previous, hconflict, hconflict'⟩ | ⟨concurrent, design, hdealt, -⟩
    · obtain rfl := Except.error.inj (hresult.symm.trans hconflict)
      exact ⟨hconflict', wanted, span, previous, rfl⟩
    · rw [hdealt] at hresult
      cases hresult
  · intro front task back e hdealt others alone
    exact run.eq_error_of_only dealing hdealt others alone

/-- Two units that define one name at different places, elaborated at the same time: by themselves
and under either configuration, and with a third unit that is malformed. -/
theorem concurrent_run_of_clashing_units :
    let item : SourceItem := .declaration .dummy (.proc .final)
    let first : SourceUnit := ⟨.module, .empty, .dummy, .dummy, [], [item]⟩
    let second : SourceUnit := ⟨.package, .empty, .point .dummy 5, .dummy, [], [item]⟩
    let broken : SourceUnit := ⟨.module, .empty, .dummy, .dummy, [], [.malformed .dummy]⟩
    let pair : List (SourceUnit × DealtIds) :=
      [(first, ⟨[⟨1⟩, ⟨3⟩]⟩), (second, ⟨[⟨2⟩, ⟨4⟩]⟩)]
    let trio : List (SourceUnit × DealtIds) :=
      [(first, ⟨[⟨1⟩, ⟨4⟩]⟩), (second, ⟨[⟨2⟩, ⟨5⟩]⟩), (broken, ⟨[⟨3⟩]⟩)]
    let conflict : DesignError := .duplicateDefinition .empty (.point .dummy 5) .dummy
    (∃ concurrent design common, Design.elaborateDealt pair .permissive = .ok concurrent ∧
      Design.elaborate [first, second] IdCounter.fresh .permissive = (.ok design, ⟨5⟩) ∧
        concurrent.renumbered = .ok common ∧ design.renumbered = .ok common) ∧
    (Design.elaborateDealt pair .strict = .error conflict ∧
      (Design.elaborate [first, second] IdCounter.fresh .strict).1 = .error conflict) ∧
    (Design.elaborate [first, second, broken] IdCounter.fresh .strict).1 = .error conflict ∧
      ∀ result, ConcurrentResult trio .strict result →
        result = .error (.structural .dummy .parserPlaceholder) := by
  intro item first second broken pair trio conflict
  have pairDealing : Dealing IdCounter.fresh pair ⟨5⟩ := by
    refine ⟨⟨[⟨1⟩, ⟨2⟩, ⟨3⟩, ⟨4⟩], ?_, by decide⟩, by decide +kernel, ?_⟩
    · exact .cons rfl (.cons rfl (.cons rfl (.cons rfl .nil)))
    · have outcomes : ∀ task ∈ pair, (task.1.elaborate task.2).1.isOk = true := by decide +kernel
      intro task htask _ exhausted
      have outcome := outcomes task htask
      rw [exhausted] at outcome
      cases outcome
  have trioDealing : Dealing IdCounter.fresh trio ⟨6⟩ := by
    refine ⟨⟨[⟨1⟩, ⟨2⟩, ⟨3⟩, ⟨4⟩, ⟨5⟩], ?_, by decide⟩, by decide +kernel, ?_⟩
    · exact .cons rfl (.cons rfl (.cons rfl (.cons rfl (.cons rfl .nil))))
    · have outcomes : ∀ task ∈ trio, (match (task.1.elaborate task.2).1 with
          | .ok _ => true
          | .error e => e != .ids .exhausted) = true := by decide +kernel
      intro task htask _ exhausted
      have outcome := outcomes task htask
      rw [exhausted] at outcome
      cases outcome
  have success : ∀ task ∈ pair, ∃ u, (task.1.elaborate task.2).1 = .ok u := by
    have outcomes : ∀ task ∈ pair, (task.1.elaborate task.2).1.isOk = true := by decide +kernel
    intro task htask
    obtain ⟨u, left, h⟩ := exists_of_isOk (outcomes task htask)
    exact ⟨u, congrArg Prod.fst h⟩
  have alone : ∀ task ∈ pair, ∃ u, (task.1.elaborate IdCounter.fresh).1 = .ok u :=
    fun task => pairDealing.elaborate_of_success success
  refine ⟨?_, ?_, ?_⟩
  · have accepted :
        (Design.elaborate [first, second] IdCounter.fresh .permissive).1.isOk = true := by
      decide +kernel
    obtain ⟨design, final, hdesign⟩ := exists_of_isOk accepted
    obtain ⟨agree, same, -⟩ :=
      concurrent_agrees_with_sequential pairDealing (.assembled success) hdesign
    obtain ⟨concurrent, hconcurrent⟩ := agree.mpr ⟨design, rfl⟩
    obtain ⟨rfl, -, -, common, hcommon, hcommon'⟩ := same concurrent design hconcurrent rfl
    exact ⟨concurrent, design, common, hconcurrent, hdesign, hcommon, hcommon'⟩
  · have rejected : Design.elaborateDealt pair .strict = .error conflict := rfl
    obtain ⟨-, -, conflicts, -⟩ :=
      concurrent_agrees_with_sequential pairDealing (.assembled success) (Prod.ext rfl rfl)
    exact ⟨rejected, (conflicts alone conflict rejected).1⟩
  · refine ⟨rfl, fun result run => ?_⟩
    have malformed : (broken.elaborate IdCounter.fresh).1 =
        .error (.structural .dummy .parserPlaceholder) := rfl
    obtain ⟨-, -, -, fails⟩ :=
      concurrent_agrees_with_sequential trioDealing run (Prod.ext rfl rfl)
    refine fails [trio[0], trio[1]] trio[2] [] _ rfl (fun other hother => ?_) malformed
    rcases List.mem_cons.mp hother with rfl | hother
    · exact alone (first, ⟨[⟨1⟩, ⟨3⟩]⟩) (by simp [pair])
    · rw [List.mem_singleton.mp hother]
      exact alone (second, ⟨[⟨2⟩, ⟨4⟩]⟩) (by simp [pair])

end DesignTree
