import DesignTree.Proofs.Assembly.Built
/-!
# DesignTree.Proofs.Assembly.InTurn

Units that are elaborated in turn, with the session's counter.

If all units can be elaborated it makes no difference for the design whether each is added at once
or all are added at the end (`elaborateOnto_of_elaborateEach`). In turn, units without a fault are
laid out one after the other from the number that the counter starts with
(`exists_elaborateEach`), and a design is only made of such units
(`laidOut_elaborateEach`).
-/

namespace DesignTree

open Layout Assembly

namespace Design

/-! ### Adding at once and adding at the end -/

section Supply

variable {σ : Type} [IdSupply σ] {sources : List SourceUnit} {ids left : σ}
  {units : List ElaboratedUnit}

/-- If all units are elaborated, the first one is, and then the others. -/
theorem exists_of_elaborateEach_cons {source : SourceUnit} {rest : List SourceUnit}
    {u : ElaboratedUnit} (h : elaborateEach (source :: rest) ids = ((u :: units).map .ok, left)) :
    ∃ middle, source.elaborate ids = (.ok u, middle) ∧
      elaborateEach rest middle = (units.map .ok, left) := by
  refine ⟨(source.elaborate ids).2, ?_, ?_⟩
  · have first := congrArg (·.1.head?) h
    exact Prod.ext (Option.some.inj first) rfl
  · have later := congrArg (·.1.tail) h
    exact Prod.ext later (congrArg (·.2) h)

/-- Adding each unit at once, if all of them can be elaborated. -/
theorem elaborateOnto_of_elaborateEach (assembly : Assembly)
    (h : elaborateEach sources ids = (units.map .ok, left)) :
    (∃ e, (elaborateOnto assembly sources ids).1 = .error e ∧ assembly.addUnits units = .error e) ∨
      ∃ extended, elaborateOnto assembly sources ids = (.ok extended.design, left) ∧
        assembly.addUnits units = .ok extended := by
  induction sources generalizing assembly ids units with
  | nil =>
    rw [elaborateEach, Prod.mk.injEq] at h
    obtain ⟨hunits, rfl⟩ := h
    rw [List.map_eq_nil_iff.mp hunits.symm]
    exact .inr ⟨assembly, rfl, rfl⟩
  | cons source rest ih =>
    cases units with
    | nil => simp [elaborateEach] at h
    | cons first later =>
      obtain ⟨middle, hfirst, hrest⟩ := exists_of_elaborateEach_cons h
      simp only [elaborateOnto, hfirst, addUnits]
      cases hadd : assembly.addUnit first with
      | error e => exact .inl ⟨e, rfl, rfl⟩
      | ok extended => exact ih extended hrest

/-- A design is only made if all units can be elaborated. -/
theorem exists_elaborateEach_of_elaborateOnto {assembly : Assembly} {design : Design}
    (h : elaborateOnto assembly sources ids = (.ok design, left)) :
    ∃ units : List ElaboratedUnit, elaborateEach sources ids = (units.map .ok, left) := by
  induction sources generalizing assembly ids with
  | nil =>
    cases h
    exact ⟨[], rfl⟩
  | cons source rest ih =>
    unfold elaborateOnto at h
    split at h
    · cases h
    next unit middle helaborate =>
      split at h
      · cases h
      next extended hadd =>
        obtain ⟨units, hrest⟩ := ih h
        refine ⟨unit :: units, ?_⟩
        simp only [elaborateEach, helaborate, hrest, List.map_cons]

/-- Where the elaboration of a design ends without one: at a unit that is not elaborated or not
added, after others that are. -/
theorem exists_of_elaborateOnto_error {assembly : Assembly} {e : DesignError}
    (h : elaborateOnto assembly sources ids = (.error e, left)) :
    ∃ front source back, sources = front ++ source :: back ∧
      ∃ (units : List ElaboratedUnit) (middle : σ) (extended : Assembly),
        elaborateEach front ids = (units.map .ok, middle) ∧ assembly.addUnits units = .ok extended ∧
          (source.elaborate middle = (.error e, left) ∨
            ∃ u, source.elaborate middle = (.ok u, left) ∧ extended.addUnit u = .error e) := by
  induction sources generalizing assembly ids with
  | nil => cases h
  | cons source rest ih =>
    unfold elaborateOnto at h
    split at h
    next e' left' helaborate =>
      cases h
      exact ⟨[], source, rest, rfl, [], ids, assembly, rfl, rfl, .inl helaborate⟩
    next unit middle helaborate =>
      split at h
      next e' hadd =>
        cases h
        exact ⟨[], source, rest, rfl, [], ids, assembly, rfl, rfl, .inr ⟨unit, helaborate, hadd⟩⟩
      next extended hadd =>
        obtain ⟨front, last, back, rfl, units, middle', extended', hfront, hunits, hlast⟩ := ih h
        refine ⟨source :: front, last, back, rfl, unit :: units, middle', extended', ?_, ?_, hlast⟩
        · simp only [elaborateEach, helaborate, hfront, List.map_cons]
        · simp only [addUnits, hadd, hunits]

/-- Such a unit ends it whatever comes after. -/
theorem elaborateOnto_eq_error {assembly extended : Assembly} {e : DesignError}
    {front : List SourceUnit} {source : SourceUnit} {middle : σ} (back : List SourceUnit)
    (hfront : elaborateEach front ids = (units.map .ok, middle))
    (hunits : assembly.addUnits units = .ok extended)
    (hlast : source.elaborate middle = (.error e, left) ∨
      ∃ u, source.elaborate middle = (.ok u, left) ∧ extended.addUnit u = .error e) :
    elaborateOnto assembly (front ++ source :: back) ids = (.error e, left) := by
  induction front generalizing assembly ids units with
  | nil =>
    rw [elaborateEach, Prod.mk.injEq] at hfront
    obtain ⟨hnil, rfl⟩ := hfront
    rw [List.map_eq_nil_iff.mp hnil.symm] at hunits
    cases hunits
    rw [List.nil_append, elaborateOnto]
    rcases hlast with hlast | ⟨u, hlast, hadd⟩
    · rw [hlast]
    · simp only [hlast, hadd]
  | cons first rest ih =>
    cases units with
    | nil => simp [elaborateEach] at hfront
    | cons u later =>
      obtain ⟨middle', hfirst, hrest⟩ := exists_of_elaborateEach_cons hfront
      rw [addUnits] at hunits
      cases hadd : assembly.addUnit u with
      | error e' => simp only [hadd, reduceCtorEq] at hunits
      | ok grown =>
        simp only [hadd] at hunits
        simp only [List.cons_append, elaborateOnto, hfirst, hadd]
        exact ih hrest hunits

end Supply

/-! ### The session's counter -/

variable {sources : List SourceUnit} {ids left : IdCounter} {units : List ElaboratedUnit}

/-- Units that were all elaborated are laid out one after the other, and are without a fault. -/
theorem laidOut_elaborateEach (h : elaborateEach sources ids = (units.map .ok, left)) :
    LaidOutAll NodeId.mk sources ids.next units ∧
      ∀ source ∈ sources, source.audit.fault = none := by
  induction sources generalizing ids units with
  | nil =>
    rw [elaborateEach, Prod.mk.injEq] at h
    rw [List.map_eq_nil_iff.mp h.1.symm]
    exact ⟨.nil, by simp⟩
  | cons source rest ih =>
    cases units with
    | nil => simp [elaborateEach] at h
    | cons first later =>
      obtain ⟨middle, hfirst, hrest⟩ := exists_of_elaborateEach_cons h
      obtain ⟨laid, hnext, -, sound⟩ := SourceUnit.laidOut hfirst
      obtain ⟨laidAll, soundAll⟩ := ih hrest
      rw [hnext] at laidAll
      exact ⟨.cons laid laidAll, List.forall_mem_cons.mpr ⟨sound, soundAll⟩⟩

/-- Units without a fault are all elaborated, if there are numbers for them. -/
theorem exists_elaborateEach (sound : ∀ source ∈ sources, source.audit.fault = none)
    (enough : ids.next + unitCosts sources ≤ max ids.next idLimit) :
    ∃ units : List ElaboratedUnit,
      elaborateEach sources ids = (units.map .ok, ⟨ids.next + unitCosts sources⟩) := by
  induction sources generalizing ids with
  | nil => exact ⟨[], rfl⟩
  | cons source rest ih =>
    obtain ⟨hfirst, hrest⟩ := List.forall_mem_cons.mp sound
    have positive := source.cost_pos
    rw [unitCosts_cons] at enough ⊢
    have fits : ids.next + source.cost ≤ idLimit := by omega
    obtain ⟨u, hu⟩ := SourceUnit.exists_elaborate hfirst fits
    have later : (IdCounter.mk (ids.next + source.cost)).next + unitCosts rest ≤
        max (IdCounter.mk (ids.next + source.cost)).next idLimit := by
      simp only
      omega
    obtain ⟨units, hunits⟩ := ih hrest later
    refine ⟨u :: units, ?_⟩
    simp only [elaborateEach, hu, hunits, List.map_cons, Nat.add_assoc]

/-- Units without a fault become a design unless two of them clash, if there are numbers for
them. -/
theorem elaborate_of_sound (config : DesignConfig)
    (sound : ∀ source ∈ sources, source.audit.fault = none)
    (enough : ids.next + unitCosts sources ≤ max ids.next idLimit) :
    (∃ e, firstClash? config [] sources = some e ∧
      (elaborate sources ids config).1 = .error e) ∨
      firstClash? config [] sources = none ∧ ∃ design,
        elaborate sources ids config = (.ok design, ⟨ids.next + unitCosts sources⟩) ∧
          design.Built NodeId.mk sources ids.next := by
  obtain ⟨units, hunits⟩ := exists_elaborateEach sound enough
  have laid := (laidOut_elaborateEach hunits).1
  have added := addUnits_laidOut (built_new NodeId.mk ids.next config)
    IdCounter.schedule.name_injective laid
  rcases elaborateOnto_of_elaborateEach (Assembly.new config) hunits with
    ⟨e, hturn, hadd⟩ | ⟨extended, hturn, hadd⟩
  · rw [hadd] at added
    rcases added with ⟨e', clash, he⟩ | ⟨-, extended, he, -⟩
    · cases he
      exact .inl ⟨e, clash, hturn⟩
    · cases he
  · rw [hadd] at added
    rcases added with ⟨e', -, he⟩ | ⟨clash, extended', he, built⟩
    · cases he
    · cases he
      exact .inr ⟨clash, extended.design, hturn, built⟩

end Design

end DesignTree
