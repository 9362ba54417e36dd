import DesignTree.Proofs.Assembly.Accepted
/-!
# DesignTree.Proofs.Assembly.Offer

Which units an assembly takes, and that it takes a unit as a whole or not at all.

An assembly is worked on in place, so a run of offers goes on from whatever a refusal leaves
behind (`Assembly.offerEach`). A refusal leaves everything as it was, so that run is the one that
passes over the refused units (`Assembly.offerEach_eq`), and what is known of the assembly then is
known here: it comprises the units that were taken. What it takes for the next unit to be taken
can therefore be read off those units (`Assembly.NameFits`) and the numbers in the index
(`Assembly.NumbersFit`).
-/

namespace DesignTree

namespace Assembly

/-- Offers units in order, each of them to the assembly as it was left by those before: the
assembly at the end, and the units that were taken. -/
def offerEach (assembly : Assembly) : List ElaboratedUnit → Assembly × List ElaboratedUnit
  | [] => (assembly, [])
  | added :: rest =>
    match (offer added).run assembly with
    | .ok _ extended => ((extended.offerEach rest).1, added :: (extended.offerEach rest).2)
    | .error _ left => left.offerEach rest

/-- The name of a unit fits those that were taken: anything goes, or the name is new, or it was
written at the same place when it was last taken. -/
def NameFits (config : DesignConfig) (taken : List ElaboratedUnit) (unit : DesignUnit) : Prop :=
  config.ignoreDuplicateDefs = true ∨ (∀ u ∈ taken, u.unit.content.name ≠ unit.name) ∨
    ∃ last, lastNamed? taken unit.name = some last ∧
      last.unit.content.nameSpan = unit.nameSpan

/-- The numbers of a unit are new to the design, and it is not among its own nodes. -/
structure NumbersFit (index : NodeIndex) (added : ElaboratedUnit) : Prop where
  unused : index.contains added.unit.id = false
  own : added.nodes.contains added.unit.id = false
  apart : ∀ id, added.nodes.contains id = true → index.contains id = false

/-- What fits can be computed: only the last unit of the name counts. -/
instance (config : DesignConfig) (taken : List ElaboratedUnit) (unit : DesignUnit) :
    Decidable (NameFits config taken unit) :=
  decidable_of_iff (config.ignoreDuplicateDefs = true ∨
    (lastNamed? taken unit.name).all (·.unit.content.nameSpan = unit.nameSpan) = true) <| by
      rw [NameFits, ← lastNamed?_eq_none]
      cases lastNamed? taken unit.name <;> simp

instance (index : NodeIndex) (added : ElaboratedUnit) : Decidable (NumbersFit index added) :=
  decidable_of_iff (index.contains added.unit.id = false ∧
    added.nodes.contains added.unit.id = false ∧
      ∀ id ∈ added.nodes.ids, index.contains id = false) <| by
      simp only [NodeIndex.mem_ids, ← NodeIndex.contains_eq_true]
      exact ⟨fun h => ⟨h.1, h.2.1, h.2.2⟩, fun h => ⟨h.unused, h.own, h.apart⟩⟩

variable {assembly : Assembly} {taken : List ElaboratedUnit} {added : ElaboratedUnit}

/-! ### Runs of offers -/

theorem offerEach_eq (assembly : Assembly) (offers : List ElaboratedUnit) :
    assembly.offerEach offers = (assembly.addEach offers, assembly.accepted offers) := by
  induction offers generalizing assembly with
  | nil => rfl
  | cons added rest ih =>
    rw [offerEach, addEach, accepted, addUnit]
    rcases offer_cases assembly added with ⟨-, index, taken, -⟩ | ⟨e, -, refused⟩
    · rw [taken]
      dsimp only
      rw [ih]
    · rw [refused]
      exact ih assembly

theorem comprises_offerEach (config : DesignConfig) (offers : List ElaboratedUnit) :
    ((new config).offerEach offers).1.Comprises ((new config).offerEach offers).2 := by
  rw [offerEach_eq]
  exact (Comprises.new config).addEach offers

theorem config_offerEach (config : DesignConfig) (offers : List ElaboratedUnit) :
    ((new config).offerEach offers).1.config = config := by
  rw [offerEach_eq]
  exact config_addEach offers

/-! ### One offer -/

/-- The table of names answers for the units that were taken. -/
theorem Comprises.conflict?_eq_none_iff (h : assembly.Comprises taken) {unit : DesignUnit} :
    assembly.conflict? unit = none ↔ NameFits assembly.config taken unit := by
  rw [h.conflict?_eq, NameFits, ← lastNamed?_eq_none]
  cases lastNamed? taken unit.name with
  | none => simp
  | some last => by_cases same : last.unit.content.nameSpan = unit.nameSpan <;> simp [same]

/-- A name that does not fit is in conflict with the place where it was last taken. -/
theorem Comprises.conflict?_of_not_nameFits (h : assembly.Comprises taken) {unit : DesignUnit}
    (unfit : ¬ NameFits assembly.config taken unit) :
    ∃ last, lastNamed? taken unit.name = some last ∧
      assembly.conflict? unit = some last.unit.content.nameSpan := by
  rw [← h.conflict?_eq_none_iff, h.conflict?_eq] at unfit
  rw [h.conflict?_eq]
  cases hlast : lastNamed? taken unit.name with
  | none =>
    rw [hlast] at unfit
    exact absurd rfl unfit
  | some last =>
    rw [hlast, Option.bind_some] at unfit
    refine ⟨last, rfl, ?_⟩
    rw [Option.bind_some]
    split at unfit
    next differs => exact if_pos differs
    next => exact absurd rfl unfit

theorem admits_iff :
    assembly.Admits added ↔ assembly.conflict? added.unit.content = none ∧
      NumbersFit assembly.design.index added := by
  have apart : (∀ id node, added.nodes.get? id = some node → assembly.design.index.get? id = none) ↔
      ∀ id, added.nodes.contains id = true → assembly.design.index.contains id = false := by
    simp only [NodeIndex.contains_eq_true, NodeIndex.contains_eq_false, forall_exists_index]
  constructor
  · intro h
    exact ⟨h.name, NodeIndex.contains_eq_false.mpr h.unused, NodeIndex.contains_eq_false.mpr h.own,
      apart.mp h.apart⟩
  · rintro ⟨name, fit⟩
    exact ⟨name, NodeIndex.contains_eq_false.mp fit.unused, NodeIndex.contains_eq_false.mp fit.own,
      apart.mpr fit.apart⟩

theorem exists_offer_iff :
    (∃ extended, (offer added).run assembly = .ok added.unit.id extended) ↔
      assembly.conflict? added.unit.content = none ∧ NumbersFit assembly.design.index added := by
  rw [← admits_iff]
  rcases offer_cases assembly added with ⟨admits, index, hoffer, -⟩ | ⟨e, rejects, hoffer⟩
  · exact ⟨fun _ => admits, fun _ => ⟨_, hoffer⟩⟩
  · refine ⟨fun ⟨extended, h⟩ => ?_, fun admits => absurd admits rejects.not_admits⟩
    cases hoffer.symm.trans h

theorem offer_of_taken (name : assembly.conflict? added.unit.content = none)
    (taken : assembly.design.index.contains added.unit.id = true ∨
      added.nodes.contains added.unit.id = true) :
    (offer added).run assembly = .error (.duplicateId added.unit.id) assembly := by
  rw [offer_eq, name]
  exact if_pos (Bool.or_eq_true_iff.mpr taken)

/-- With its own number free, a unit can only be refused for a number that one of its nodes shares
with the design. -/
theorem exists_offer_of_shared {shared : NodeId}
    (name : assembly.conflict? added.unit.content = none)
    (unused : assembly.design.index.contains added.unit.id = false)
    (own : added.nodes.contains added.unit.id = false)
    (new : added.nodes.contains shared = true)
    (old : assembly.design.index.contains shared = true) :
    ∃ id, added.nodes.contains id = true ∧ assembly.design.index.contains id = true ∧
      (offer added).run assembly = .error (.duplicateId id) assembly := by
  rcases offer_cases assembly added with ⟨admits, -⟩ | ⟨e, rejects, hoffer⟩
  · have free := (admits_iff.mp admits).2.apart shared new
    exact absurd (free.symm.trans old) Bool.false_ne_true
  · cases rejects with
    | name conflict => cases name.symm.trans conflict
    | own _ taken => simp [unused, own] at taken
    | shared _ _ _ old new => exact ⟨_, new, old, hoffer⟩

/-- Once the nodes of a unit are in and the unit is listed, the unit itself can be entered: what
could be in the way was found out before. -/
theorem exists_enter {middle : Assembly}
    (unused : assembly.design.index.contains added.unit.id = false)
    (own : added.nodes.contains added.unit.id = false)
    (h : (onIndex (NodeIndex.absorb added.nodes) >>= fun _ => enlist added.unit).run assembly =
      .ok () middle) :
    ∃ extended, (onIndex (NodeIndex.enter added.node)).run middle = .ok () extended := by
  rw [EStateM.run_bind, run_onIndex] at h
  cases hmerge : assembly.design.index.merge added.nodes with
  | error e =>
    rw [NodeIndex.run_absorb_of_error hmerge] at h
    cases h
  | ok merged =>
    rw [NodeIndex.run_absorb_of_ok hmerge] at h
    cases h
    obtain ⟨index, hregister, -⟩ := exists_register_of_merge (NodeIndex.contains_eq_false.mp unused)
      (NodeIndex.contains_eq_false.mp own) hmerge
    rw [run_onIndex]
    dsimp only [extend]
    rw [NodeIndex.run_enter_of_ok hregister]
    exact ⟨_, rfl⟩

end Assembly

/-- Whatever units were offered before, the next one meets the following:

* it is taken, and its number is the answer, if its name fits those of the units that were taken
  and its numbers are free, and only then;
* otherwise the answer is, in this order, the place where the name was last taken, the unit's own
  number if that is not free, or a number that one of its nodes shares with the design;
* a refusal leaves the assembly as it was;
* the last of the changes that are made for a unit, its own entry, does not fail. -/
theorem offer_takes_what_fits (config : DesignConfig) (offers : List ElaboratedUnit)
    (added : ElaboratedUnit) :
    let assembly := ((Assembly.new config).offerEach offers).1
    let taken := ((Assembly.new config).offerEach offers).2
    let index := assembly.design.index
    let unit := added.unit.content
    let result := (Assembly.offer added).run assembly
    ((∃ extended, result = .ok added.unit.id extended) ↔
      Assembly.NameFits config taken unit ∧ Assembly.NumbersFit index added) ∧
    (¬ Assembly.NameFits config taken unit → ∃ last, lastNamed? taken unit.name = some last ∧
      result = .error
        (.duplicateDefinition unit.name unit.nameSpan last.unit.content.nameSpan) assembly) ∧
    (Assembly.NameFits config taken unit →
      ((index.contains added.unit.id = true ∨ added.nodes.contains added.unit.id = true) →
        result = .error (.duplicateId added.unit.id) assembly) ∧
      (index.contains added.unit.id = false → added.nodes.contains added.unit.id = false →
        (∃ id, added.nodes.contains id = true ∧ index.contains id = true) →
        ∃ id, added.nodes.contains id = true ∧ index.contains id = true ∧
          result = .error (.duplicateId id) assembly)) ∧
    (∀ e left, result = .error e left → left = assembly) ∧
    (index.contains added.unit.id = false → added.nodes.contains added.unit.id = false →
      ∀ middle, (Assembly.onIndex (NodeIndex.absorb added.nodes) >>=
          fun _ => Assembly.enlist added.unit).run assembly = .ok () middle →
        ∃ extended, (Assembly.onIndex (NodeIndex.enter added.node)).run middle =
          .ok () extended) := by
  intro assembly taken index unit result
  have comprises : assembly.Comprises taken := Assembly.comprises_offerEach config offers
  have same : assembly.config = config := Assembly.config_offerEach config offers
  have fits : assembly.conflict? unit = none ↔ Assembly.NameFits config taken unit :=
    same ▸ comprises.conflict?_eq_none_iff
  refine ⟨?_, fun unfit => ?_, fun name => ⟨fun used => ?_, fun unused own ⟨id, new, old⟩ => ?_⟩,
    fun e left refused => ?_, fun unused own middle => Assembly.exists_enter unused own⟩
  · rw [← fits]
    exact Assembly.exists_offer_iff
  · obtain ⟨last, hlast, conflict⟩ := comprises.conflict?_of_not_nameFits (same ▸ unfit)
    refine ⟨last, hlast, ?_⟩
    exact (Assembly.offer_eq added assembly).trans (by rw [conflict])
  · exact Assembly.offer_of_taken (fits.mpr name) used
  · exact Assembly.exists_offer_of_shared (fits.mpr name) unused own new old
  · rcases Assembly.offer_cases assembly added with ⟨-, index, hoffer, -⟩ | ⟨e, -, hoffer⟩
    · cases hoffer.symm.trans refused
    · cases hoffer.symm.trans refused
      rfl

/-- A strict assembly has one unit with one node. The same unit elsewhere, a unit that is among its
own nodes, and one whose node is there already are refused; under its name at its place, another
unit is taken. -/
theorem offer_to_one_unit :
    let holding := fun id : Nat =>
      (⟨(∅ : Std.ExtTreeMap NodeId Node).insert ⟨id⟩ ⟨⟨id⟩, .dummy, .declaration (.proc .final)⟩⟩ :
        NodeIndex)
    let unit := fun (id : Nat) (name : Name) (place : UInt32) (nodes : NodeIndex) =>
      ElaboratedUnit.mk ⟨⟨id⟩, .dummy, ⟨.module, name, .point .dummy place, [],
        .empty .module ⟨id⟩⟩⟩ nodes
    let other : Name := ⟨.sensitive, 0, 0⟩
    let assembly := ((Assembly.new .strict).offerEach
      [unit 1 .empty 5 (holding 2), unit 1 other 5 .empty]).1
    (∃ extended, (Assembly.offer (unit 3 .empty 5 (holding 4))).run assembly =
      .ok ⟨3⟩ extended) ∧
    (Assembly.offer (unit 3 .empty 7 .empty)).run assembly =
      .error (.duplicateDefinition .empty (.point .dummy 7) (.point .dummy 5)) assembly ∧
    (Assembly.offer (unit 3 other 5 (holding 3))).run assembly =
      .error (.duplicateId ⟨3⟩) assembly ∧
    ∃ id, (Assembly.offer (unit 3 other 5 (holding 2))).run assembly =
      .error (.duplicateId id) assembly := by
  intro holding unit other assembly
  let offers := [unit 1 .empty 5 (holding 2), unit 1 other 5 .empty]
  have taken : ((Assembly.new .strict).offerEach offers).2 = [unit 1 .empty 5 (holding 2)] := by
    decide +kernel
  refine ⟨?_, ?_, ?_, ?_⟩
  · have accepts := (offer_takes_what_fits .strict offers (unit 3 .empty 5 (holding 4))).1.mpr
    exact accepts ⟨by decide +kernel, by decide +kernel⟩
  · have refuses := (offer_takes_what_fits .strict offers (unit 3 .empty 7 .empty)).2.1
    obtain ⟨last, hlast, refused⟩ := refuses (by decide +kernel)
    rw [taken] at hlast
    cases hlast
    exact refused
  · have refuses := (offer_takes_what_fits .strict offers (unit 3 other 5 (holding 3))).2.2.1
    exact (refuses (by decide +kernel)).1 (.inr (by decide +kernel))
  · have refuses := (offer_takes_what_fits .strict offers (unit 3 other 5 (holding 2))).2.2.1
    obtain ⟨id, -, -, refused⟩ := (refuses (by decide +kernel)).2 (by decide +kernel)
      (by decide +kernel) ⟨⟨2⟩, by decide +kernel, by decide +kernel⟩
    exact ⟨id, refused⟩

end DesignTree
