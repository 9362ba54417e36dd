import DesignTree.Proofs.Simulation.Scope
/-!
# DesignTree.Proofs.Outcome

The three ways in which the elaboration of a unit can end.

A unit without a fault is laid out, one with a fault is reported, and either is cut short if the
supply runs dry before (`SourceUnit.outcome`). What is known about elaborated units follows from
this by cases; the monadic code is not looked into again.
-/

namespace DesignTree

open Layout

/-- The unit is the laid-out one, and the index holds what is below it. -/
structure LaidOut (name : Nat → NodeId) (source : SourceUnit) (k : Nat) (u : ElaboratedUnit) :
    Prop where
  unit_eq : u.unit = placedUnit name source k
  adds : NodeIndex.empty.Adds (unitTree name source k).lowerNodes u.nodes

namespace LaidOut

variable {name : Nat → NodeId} {source : SourceUnit} {k : Nat} {u : ElaboratedUnit}

theorem id_eq (h : LaidOut name source k u) : u.unit.id = name k := by
  rw [h.unit_eq]
  rfl

theorem node_eq (h : LaidOut name source k u) : (unitTree name source k).node = u.node := by
  rw [unitTree_eq, ElaboratedUnit.node, h.unit_eq]

/-- What is below the unit has later numbers than the unit. -/
theorem exists_position (h : LaidOut name source k u) {id : NodeId} {node : Node}
    (hnode : u.nodes.get? id = some node) : ∃ i, k < i ∧ i < k + source.cost ∧ id = name i := by
  obtain ⟨n, hcost, numbered⟩ := numbered_owned name source k
  obtain ⟨hmem, rfl⟩ := h.adds.get?_eq_some_iff.mp hnode
  obtain ⟨i, hle, hlt, hid⟩ := numbered.exists_position hmem
  exact ⟨i, hle, by omega, hid⟩

/-- The number of the unit itself is not among them. -/
theorem own (h : LaidOut name source k u) (hname : Function.Injective name) :
    u.nodes.get? u.unit.id = none := by
  refine Option.eq_none_iff_forall_ne_some.mpr fun node hnode => ?_
  obtain ⟨i, hlt, -, hi⟩ := h.exists_position hnode
  have same := hname (h.id_eq.symm.trans hi)
  omega

end LaidOut

/-- What elaborating a unit comes to if the next number of the supply is the `k`-th. -/
inductive Outcome {σ : Type} [IdSupply σ] (plan : Schedule σ) (source : SourceUnit) (k : Nat) :
    Except DesignError ElaboratedUnit × σ → Prop
  /-- The unit is without a fault, and there are numbers for all of it. -/
  | made {u : ElaboratedUnit} (fits : k + source.cost ≤ plan.limit)
      (sound : source.audit.fault = none) (laid : LaidOut plan.name source k u) :
      Outcome plan source k (.ok u, plan.supply (k + source.cost))
  /-- There is a fault, and numbers for what comes before it. -/
  | faulty {e : DesignError} (fits : k + source.audit.draws ≤ plan.limit)
      (fault : source.audit.fault = some e) :
      Outcome plan source k (.error e, plan.supply (k + source.audit.draws))
  /-- The numbers run out first. -/
  | exhausted (short : plan.limit < k + source.audit.draws) :
      Outcome plan source k (.error (.ids .exhausted), plan.supply plan.limit)

theorem SourceUnit.outcome {σ : Type} [IdSupply σ] (plan : Schedule σ) (source : SourceUnit)
    {k : Nat} (hk : k ≤ plan.limit) :
    Outcome plan source k (source.elaborate (plan.supply k)) := by
  have free : plan.Free k .empty := fun i _ => NodeIndex.get?_empty _
  have run := runs_elaborateUnit source hk free
  rw [SourceUnit.elaborate]
  rcases Nat.lt_or_ge plan.limit (k + source.audit.draws) with short | enough
  · obtain ⟨after, hrun⟩ := run.exhausts short
    rw [hrun]
    exact .exhausted short
  cases fault : source.audit.fault with
  | some e =>
    obtain ⟨after, hrun⟩ := run.fails e enough fault
    rw [hrun]
    exact .faulty enough fault
  | none =>
    obtain ⟨after, hrun, hadds⟩ := run.succeeds enough fault
    rw [hrun]
    rw [SourceUnit.draws_audit fault] at enough ⊢
    exact .made enough fault ⟨rfl, hadds⟩

/-- A result that is a success, with its parts. -/
theorem exists_of_isOk {ε α σ : Type} {result : Except ε α × σ} (h : result.1.isOk = true) :
    ∃ value left, result = (.ok value, left) := by
  obtain ⟨outcome, left⟩ := result
  cases outcome with
  | error e => cases h
  | ok value => exact ⟨value, left, rfl⟩

/-- The error that a result is, if it is one. -/
def failure? {ε α : Type} : Except ε α → Option ε
  | .ok _ => none
  | .error e => some e

/-- Whether a result is a certain error can be decided, whatever a success would be. -/
theorem eq_error_of_failure? {ε α : Type} {result : Except ε α} {e : ε}
    (h : failure? result = some e) : result = .error e := by
  cases result with
  | ok value => cases h
  | error other =>
    cases h
    rfl

/-- A layout is that of one unit only. -/
theorem LaidOut.eq {name : Nat → NodeId} {source : SourceUnit} {k : Nat} {u other : ElaboratedUnit}
    (h : LaidOut name source k u) (h' : LaidOut name source k other) : u = other := by
  obtain ⟨unit, nodes⟩ := u
  obtain ⟨unit', nodes'⟩ := other
  obtain rfl : unit = unit' := h.unit_eq.trans h'.unit_eq.symm
  obtain rfl : nodes = nodes' := h.adds.eq h'.adds
  rfl

/-! ### With the session's counter -/

/-- What elaborating a unit comes to with the numbers of a counter. One at the limit, or beyond it,
has no numbers and stays where it is. -/
inductive IdCounter.Outcome (ids : IdCounter) (source : SourceUnit) :
    Except DesignError ElaboratedUnit × IdCounter → Prop
  | made {u : ElaboratedUnit} (fits : ids.next + source.cost ≤ idLimit)
      (sound : source.audit.fault = none) (laid : LaidOut NodeId.mk source ids.next u) :
      Outcome ids source (.ok u, ⟨ids.next + source.cost⟩)
  | faulty {e : DesignError} (fits : ids.next + source.audit.draws ≤ max ids.next idLimit)
      (fault : source.audit.fault = some e) :
      Outcome ids source (.error e, ⟨ids.next + source.audit.draws⟩)
  | exhausted (short : max ids.next idLimit < ids.next + source.audit.draws) :
      Outcome ids source (.error (.ids .exhausted), ⟨max ids.next idLimit⟩)

theorem SourceUnit.outcome_counter (source : SourceUnit) (ids : IdCounter) :
    ids.Outcome source (source.elaborate ids) := by
  rcases Nat.lt_or_ge idLimit ids.next with beyond | within
  · -- There is no number even for the unit itself.
    have most : max ids.next idLimit = ids.next := Nat.max_eq_left (Nat.le_of_lt beyond)
    have ended := source.outcome (ids.spent (Nat.le_of_lt beyond)) (Nat.le_refl 0)
    rw [show (ids.spent _).supply 0 = ids from rfl] at ended
    generalize source.elaborate ids = result at ended ⊢
    cases ended with
    | made fits =>
      have nothing : 0 + source.cost ≤ 0 := fits
      exact absurd source.cost_pos (by omega)
    | @faulty e fits fault =>
      have nothing : 0 + source.audit.draws ≤ 0 := fits
      have left : ids.next + source.audit.draws = ids.next := by omega
      have out : ids.Outcome source (.error e, ⟨ids.next + source.audit.draws⟩) :=
        .faulty (by omega) fault
      rwa [left] at out
    | exhausted short =>
      have more : 0 < 0 + source.audit.draws := short
      have out : ids.Outcome source (.error (.ids .exhausted), ⟨max ids.next idLimit⟩) :=
        .exhausted (by omega)
      rwa [most] at out
  · have most : max ids.next idLimit = idLimit := Nat.max_eq_right within
    have ended := source.outcome IdCounter.schedule within
    rw [show IdCounter.schedule.supply ids.next = ids from rfl] at ended
    generalize source.elaborate ids = result at ended ⊢
    cases ended with
    | made fits sound laid => exact .made fits sound laid
    | faulty fits fault => exact .faulty (Nat.le_trans fits (Nat.le_max_right ..)) fault
    | exhausted short =>
      have spent : idLimit < ids.next + source.audit.draws := short
      have out : ids.Outcome source (.error (.ids .exhausted), ⟨max ids.next idLimit⟩) :=
        .exhausted (by omega)
      rwa [most] at out

/-- A unit that the counter's numbers were drawn for. -/
theorem SourceUnit.laidOut {source : SourceUnit} {ids left : IdCounter} {u : ElaboratedUnit}
    (h : source.elaborate ids = (.ok u, left)) :
    LaidOut NodeId.mk source ids.next u ∧ left.next = ids.next + source.cost ∧
      ids.next + source.cost ≤ idLimit ∧ source.audit.fault = none := by
  have ended := source.outcome_counter ids
  rw [h] at ended
  cases ended with
  | made fits sound laid => exact ⟨laid, rfl, fits, sound⟩

/-- A unit that is not elaborated has a fault, or the counter has run out; in either case the
numbers that were drawn stay drawn. -/
theorem SourceUnit.fault_of_elaborate {source : SourceUnit} {ids left : IdCounter}
    {e : DesignError} (h : source.elaborate ids = (.error e, left)) :
    (e = .ids .exhausted ∨ source.audit.fault = some e) ∧ ids.next ≤ left.next := by
  have ended := source.outcome_counter ids
  rw [h] at ended
  cases ended with
  | faulty _ fault => exact ⟨.inr fault, Nat.le_add_right ..⟩
  | exhausted => exact ⟨.inl rfl, Nat.le_max_left ..⟩

/-- A counter never counts down. -/
theorem SourceUnit.next_le_elaborate (source : SourceUnit) (ids : IdCounter) :
    ids.next ≤ (source.elaborate ids).2.next := by
  have ended := source.outcome_counter ids
  generalize source.elaborate ids = result at ended ⊢
  cases ended with
  | made | faulty => exact Nat.le_add_right ..
  | exhausted => exact Nat.le_max_left ..

/-- A unit without a fault is elaborated, if there are numbers for all of it. -/
theorem SourceUnit.exists_elaborate {source : SourceUnit} {ids : IdCounter}
    (sound : source.audit.fault = none) (enough : ids.next + source.cost ≤ idLimit) :
    ∃ u, source.elaborate ids = (.ok u, ⟨ids.next + source.cost⟩) := by
  rw [← SourceUnit.draws_audit sound] at enough
  have ended := source.outcome_counter ids
  generalize source.elaborate ids = result at ended ⊢
  cases ended with
  | made => exact ⟨_, rfl⟩
  | faulty _ fault =>
    rw [sound] at fault
    cases fault
  | exhausted short => exact absurd enough (by omega)

/-- A fault is reported, if there are numbers for what comes before it. -/
theorem SourceUnit.elaborate_of_fault {source : SourceUnit} {ids : IdCounter} {e : DesignError}
    (fault : source.audit.fault = some e)
    (enough : ids.next + source.audit.draws ≤ max ids.next idLimit) :
    (source.elaborate ids).1 = .error e := by
  have ended := source.outcome_counter ids
  generalize source.elaborate ids = result at ended ⊢
  cases ended with
  | made _ sound =>
    rw [sound] at fault
    cases fault
  | faulty _ other => exact congrArg _ (Option.some.inj (other.symm.trans fault))
  | exhausted short => exact absurd enough (Nat.not_le.mpr short)

end DesignTree
