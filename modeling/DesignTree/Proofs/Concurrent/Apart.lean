import DesignTree.Proofs.Concurrent.Agreement
/-!
# DesignTree.Proofs.Concurrent.Apart

Units that are elaborated apart and draw their numbers in turn.

This is the concurrent run in which no draws interleave: each unit could as well have been dealt the
numbers that it draws (`SourceUnit.exists_own`). So what holds of all concurrent runs holds of
`Design.elaborateApart` (`concurrentResult_elaborateApart`).
-/

namespace DesignTree

open Layout

namespace IdCounter

variable {ids middle left : IdCounter} {front back : List NodeId}

theorem Issues.append (hfront : ids.Issues front middle) (hback : middle.Issues back left) :
    ids.Issues (front ++ back) left := by
  induction hfront with
  | nil => exact hback
  | cons drawn _ ih => exact .cons drawn (ih hback)

end IdCounter

/-- A unit does not notice whether it draws its numbers from the counter or has them already. -/
theorem SourceUnit.exists_own {source : SourceUnit} {ids : IdCounter} (within : ids.next ≤ idLimit)
    (enough : (source.elaborate ids).1 ≠ .error (.ids .exhausted)) :
    ∃ own : DealtIds, ids.Issues own.ids (source.elaborate ids).2 ∧
      source.elaborate own = ((source.elaborate ids).1, ⟨[]⟩) ∧
        (source.elaborate ids).2.next ≤ idLimit := by
  let own : DealtIds := ⟨(List.range' ids.next source.audit.draws).map NodeId.mk⟩
  have counted := source.outcome IdCounter.schedule within
  rw [show IdCounter.schedule.supply ids.next = ids from rfl] at counted
  have dealt : Outcome _ source ids.next (source.elaborate own) :=
    SourceUnit.outcome_dealt IdCounter.schedule.name_injective rfl
  refine ⟨own, ?_⟩
  generalize source.elaborate ids = result at counted enough ⊢
  generalize hother : source.elaborate own = other at dealt ⊢
  cases counted with
  | exhausted => exact absurd rfl enough
  | @made u fits sound laid =>
    have draws := SourceUnit.draws_audit sound
    have issues := IdCounter.issues_range' source.audit.draws (draws ▸ fits)
    refine ⟨draws ▸ issues, ?_, fits⟩
    cases dealt with
    | @made u' _ _ laid' =>
      rw [LaidOut.eq laid laid', ← draws, DealtIds.supply_limit]
    | faulty _ fault =>
      rw [sound] at fault
      cases fault
    | exhausted short => exact absurd short (Nat.lt_irrefl _)
  | @faulty e fits fault =>
    refine ⟨IdCounter.issues_range' source.audit.draws fits, ?_, fits⟩
    cases dealt with
    | made _ sound =>
      rw [sound] at fault
      cases fault
    | faulty _ fault' =>
      rw [fault] at fault'
      cases fault'
      rw [DealtIds.supply_limit]
    | exhausted short => exact absurd short (Nat.lt_irrefl _)

namespace Design

variable {sources : List SourceUnit} {ids : IdCounter} {config : DesignConfig}

/-- Units that draw in turn could have been dealt what they draw. -/
theorem exists_dealt (within : ids.next ≤ idLimit)
    (enough : ∀ outcome ∈ (elaborateEach sources ids).1, outcome ≠ .error (.ids .exhausted)) :
    ∃ dealt : List (SourceUnit × DealtIds), dealt.map (·.1) = sources ∧
      ids.Issues (dealt.flatMap (·.2.ids)) (elaborateEach sources ids).2 ∧
      (∀ task ∈ dealt, (task.1.elaborate task.2).2 = ⟨[]⟩) ∧
        dealt.map (fun task => (task.1.elaborate task.2).1) = (elaborateEach sources ids).1 := by
  induction sources generalizing ids with
  | nil => exact ⟨[], rfl, .nil, by simp, rfl⟩
  | cons source rest ih =>
    obtain ⟨hfirst, hrest⟩ := List.forall_mem_cons.mp enough
    obtain ⟨own, issues, same, within'⟩ := SourceUnit.exists_own within hfirst
    obtain ⟨dealt, hsources, later, drawn, outcomes⟩ := ih within' hrest
    refine ⟨(source, own) :: dealt, ?_, issues.append later, ?_, ?_⟩
    · rw [List.map_cons, hsources]
    · exact List.forall_mem_cons.mpr ⟨congrArg Prod.snd same, drawn⟩
    · rw [List.map_cons, outcomes, same]
      rfl

/-- Outcomes are all successes, or the first failure is reported. -/
theorem allUnits_cases (outcomes : List (Except DesignError ElaboratedUnit)) :
    (∃ units : List ElaboratedUnit, outcomes = units.map .ok ∧ allUnits outcomes = .ok units) ∨
      ∃ e, allUnits outcomes = .error e ∧ .error e ∈ outcomes := by
  induction outcomes with
  | nil => exact .inl ⟨[], rfl, rfl⟩
  | cons outcome rest ih =>
    cases outcome with
    | error e => exact .inr ⟨e, rfl, List.mem_cons_self ..⟩
    | ok u =>
      rcases ih with ⟨units, rfl, hunits⟩ | ⟨e, hfirst, hmem⟩
      · refine .inl ⟨u :: units, rfl, ?_⟩
        rw [allUnits, hunits]
      · refine .inr ⟨e, ?_, List.mem_cons_of_mem _ hmem⟩
        rw [allUnits, hfirst]

/-- Elaborating units apart is a concurrent run, as long as the numbers suffice. -/
theorem concurrentResult_elaborateApart (config : DesignConfig) (within : ids.next ≤ idLimit)
    (enough : ∀ outcome ∈ (elaborateEach sources ids).1, outcome ≠ .error (.ids .exhausted)) :
    ∃ dealt : List (SourceUnit × DealtIds), dealt.map (·.1) = sources ∧
      Dealing ids dealt (elaborateApart sources ids config).2 ∧
        ConcurrentResult dealt config (elaborateApart sources ids config).1 := by
  obtain ⟨dealt, hsources, issues, drawn, outcomes⟩ := exists_dealt within enough
  have result : (elaborateApart sources ids config).1 =
      ofOutcomes config (elaborateEach sources ids).1 := rfl
  have mem : ∀ task ∈ dealt, (task.1.elaborate task.2).1 ∈ (elaborateEach sources ids).1 :=
    fun task htask => outcomes ▸ List.mem_map_of_mem htask
  refine ⟨dealt, hsources, ⟨⟨_, issues, .refl _⟩, drawn, ?_⟩, ?_⟩
  · intro task htask _
    exact enough _ (mem task htask)
  · rw [result]
    rcases allUnits_cases (elaborateEach sources ids).1 with ⟨units, hunits, -⟩ | ⟨e, hfirst, hmem⟩
    · have success : ∀ outcome ∈ (elaborateEach sources ids).1, ∃ u, outcome = .ok u := by
        rw [hunits]
        exact fun outcome h => (List.mem_map.mp h).imp fun u hu => hu.2.symm
      rw [← outcomes]
      exact .assembled fun task htask => success _ (mem task htask)
    · rw [ofOutcomes, hfirst]
      have failed := hmem
      rw [← outcomes] at failed
      obtain ⟨task, htask, failure⟩ := List.mem_map.mp failed
      exact .failed htask failure fun exhausted => enough _ hmem (exhausted ▸ rfl)

end Design

end DesignTree
