import DesignTree.Proofs.Layout.Shifted
import DesignTree.Proofs.Parts
import DesignTree.Proofs.Refusal
import DesignTree.Proofs.Renumbered
/-!
# DesignTree.Proofs.Start

Units that are elaborated from another start.

Elaboration never looks at a number that it was given, and its numbers follow from the first one.
So where a unit's numbers start makes no difference but to the numbers: all of them move by the
distance of the starts, in the unit, in the index and in every link. Since the units of a design
share nothing but the counter, each of them is in the design what it would be alone, from a start
of its own (`elaborate_from_any_start`).
-/

namespace DesignTree

open NodeTree Layout

/-- The number that is by a distance further on, or further back. -/
def NodeId.move (distance : Int) (id : NodeId) : NodeId := ⟨(id.val + distance).toNat⟩

/-- The counter that is by a distance further on, or further back. -/
def IdCounter.move (distance : Int) (ids : IdCounter) : IdCounter :=
  ⟨(ids.next + distance).toNat⟩

/-- Renumbers a unit and all its nodes. -/
def ElaboratedUnit.mapIds (f : NodeId → NodeId) (u : ElaboratedUnit) : ElaboratedUnit :=
  { unit := { id := f u.unit.id, span := u.unit.span, content := u.unit.content.mapIds f }
    nodes := u.nodes.mapIds f }

/-- The unit is in the index with all its nodes, and nothing else can be reached from it. -/
structure NodeIndex.Holds (index : NodeIndex) (u : ElaboratedUnit) : Prop where
  entries : ∀ id node, u.get? id = some node → index.get? id = some node
  reached : ∀ id, index.Reaches [u.unit.id] id ↔ ∃ node, u.get? id = some node

/-! ### Layouts elsewhere -/

theorem Placed.map_injective {α β : Type} {f : α → β} (hf : Function.Injective f) :
    Function.Injective (Placed.map f) := by
  intro p q same
  injection same with hid hspan hcontent
  obtain ⟨id, span, content⟩ := p
  obtain rfl : id = q.id := hid
  obtain rfl : span = q.span := hspan
  obtain rfl : content = q.content := hf hcontent
  rfl

namespace LaidOut

variable {source : SourceUnit} {k l : Nat} {u : ElaboratedUnit}

/-- A unit that is laid out elsewhere is the same unit under other numbers. -/
theorem mapIds (h : LaidOut NodeId.mk source k u) {f : NodeId → NodeId}
    (hf : ∀ i < source.cost, f ⟨k + i⟩ = ⟨l + i⟩) : LaidOut NodeId.mk source l (u.mapIds f) := by
  have moved : (unitTree NodeId.mk source k).mapIds f = unitTree NodeId.mk source l := by
    rw [mapIds_unitTree]
    exact unitTree_eq_of_agree source hf
  have below : (unitTree NodeId.mk source l).owned =
      (unitTree NodeId.mk source k).owned.map (NodeTree.mapIds f) := by rw [← moved, owned_mapIds]
  refine ⟨?_, ?_⟩
  · have root : (u.mapIds f).node = (placedUnit NodeId.mk source l).map .unit := by
      have same : Node.mapIds f u.node = (u.mapIds f).node := rfl
      rw [← same, ← h.node_eq, ← node_mapIds, moved, unitTree_eq]
    exact Placed.map_injective (fun _ _ => Content.unit.inj) root
  · obtain ⟨n, -, numbered⟩ := numbered_owned NodeId.mk source l
    have distinct := numbered.nodup IdCounter.schedule.name_injective
    rw [below, nodesOf_map_mapIds, List.map_map] at distinct
    rw [lowerNodes, below]
    refine h.adds.mapIds ?_
    rwa [List.map_map]

end LaidOut

/-! ### Units in a design -/

section Designs

variable {index : NodeIndex} {source : SourceUnit} {k : Nat} {u : ElaboratedUnit}

/-- What is reached from a unit is the unit, if the index has its nodes. -/
theorem LaidOut.holds (laid : LaidOut NodeId.mk source k u)
    (entries : ∀ id node, u.get? id = some node → index.get? id = some node) : index.Holds u := by
  have all : ∀ id node, u.get? id = some node ↔
      node ∈ nodesOf [unitTree NodeId.mk source k] ∧ node.id = id :=
    fun _ _ => laid.get?_eq_some_iff IdCounter.schedule.name_injective
  have resolves : index.Resolves [unitTree NodeId.mk source k] :=
    fun node hnode => entries node.id node ((all node.id node).mpr ⟨hnode, rfl⟩)
  have reaches := NodeIndex.reaches_map_id_iff (linked_unitTree NodeId.mk source k) resolves
  rw [List.map_singleton, id_unitTree, ← laid.id_eq] at reaches
  refine ⟨entries, fun id => ?_⟩
  rw [reaches, List.mem_map]
  exact exists_congr fun node => (all id node).symm

/-- Each unit of a design was elaborated by itself, from a later start than the design. -/
theorem Design.exists_elaborate_of_getElem? {sources : List SourceUnit} {ids left : IdCounter}
    {units : List ElaboratedUnit} (h : elaborateEach sources ids = (units.map .ok, left)) {i : Nat}
    (hsource : sources[i]? = some source) :
    ∃ (u : ElaboratedUnit) (start left : IdCounter), units[i]? = some u ∧
      source.elaborate start = (.ok u, left) ∧ ids.next ≤ start.next := by
  induction sources generalizing ids units i with
  | nil => simp at hsource
  | cons first rest ih =>
    cases units with
    | nil => simp [elaborateEach] at h
    | cons u later =>
      obtain ⟨middle, hfirst, hrest⟩ := exists_of_elaborateEach_cons h
      cases i with
      | zero =>
        cases hsource
        exact ⟨u, ids, middle, rfl, hfirst, Nat.le_refl _⟩
      | succ i =>
        obtain ⟨other, start, left', hother, success, after⟩ := ih hrest hsource
        have before := (SourceUnit.laidOut hfirst).2.1
        exact ⟨other, start, left', hother, success, by omega⟩

end Designs

/-! ### Starts -/

/-- From two counters that have numbers enough a unit comes to the same, but for the distance
between the counters. -/
theorem IdCounter.Outcome.eq_moved {source : SourceUnit} {ids other : IdCounter}
    {result result' : Except DesignError ElaboratedUnit × IdCounter}
    (ended : ids.Outcome source result) (ended' : other.Outcome source result')
    (enough : result.1 ≠ .error (.ids .exhausted))
    (enough' : result'.1 ≠ .error (.ids .exhausted)) :
    let distance : Int := other.next - ids.next
    result' =
      (result.1.map (ElaboratedUnit.mapIds (NodeId.move distance)), result.2.move distance) := by
  intro distance
  have place : ∀ n : Nat, (((ids.next + n : Nat) : Int) + distance).toNat = other.next + n := by
    intro n
    omega
  -- Whether there is a fault, and how many numbers come before it, is up to the source alone.
  cases ended with
  | exhausted => exact absurd rfl enough
  | made fits sound laid =>
    cases ended' with
    | exhausted => exact absurd rfl enough'
    | faulty _ fault =>
      rw [sound] at fault
      cases fault
    | made _ _ laid' =>
      have moved := laid.mapIds (l := other.next) (f := NodeId.move distance)
        fun i _ => congrArg NodeId.mk (place i)
      rw [laid'.eq moved]
      exact Prod.ext rfl (congrArg IdCounter.mk (place _).symm)
  | faulty fits fault =>
    cases ended' with
    | exhausted => exact absurd rfl enough'
    | made _ sound =>
      rw [sound] at fault
      cases fault
    | faulty _ fault' =>
      rw [fault] at fault'
      cases fault'
      exact Prod.ext rfl (congrArg IdCounter.mk (place _).symm)

/-- A unit is what it comes to by itself, moved on to its place. -/
theorem LaidOut.exists_alone {source : SourceUnit} {k : Nat} {u : ElaboratedUnit}
    (laid : LaidOut NodeId.mk source k u) (sound : source.audit.fault = none) (positive : 0 < k)
    (fits : k + source.cost ≤ idLimit) :
    ∃ alone left, source.elaborate IdCounter.fresh = (.ok alone, left) ∧
      u = alone.mapIds (NodeId.move (u.unit.id.val - 1)) := by
  have first : IdCounter.fresh.next = 1 := rfl
  have own : u.unit.id.val = k := congrArg NodeId.val laid.id_eq
  have enough : IdCounter.fresh.next + source.cost ≤ idLimit := by omega
  obtain ⟨alone, success⟩ := SourceUnit.exists_elaborate sound enough
  have place : ∀ i : Nat,
      (((IdCounter.fresh.next + i : Nat) : Int) + (u.unit.id.val - 1)).toNat = k + i := by
    intro i
    omega
  have moved := (SourceUnit.laidOut success).1.mapIds (l := k)
    (f := NodeId.move (u.unit.id.val - 1)) fun i _ => congrArg NodeId.mk (place i)
  exact ⟨alone, _, success, laid.eq moved⟩

/-- Where the numbers of a unit start makes no difference but to the numbers:

* from two starts with enough numbers, the outcomes are the same but for the distance of the
  starts, by which all numbers of the one are those of the other, and so is what is left of the
  counter; a fault is the same error from both;
* so each unit of a design, with all that can be reached from it, is what the unit comes to by
  itself, moved on to its place, whatever the other units are. -/
theorem elaborate_from_any_start :
    (∀ {source : SourceUnit} {ids other : IdCounter},
      (source.elaborate ids).1 ≠ .error (.ids .exhausted) →
      (source.elaborate other).1 ≠ .error (.ids .exhausted) →
      let distance : Int := other.next - ids.next
      source.elaborate other =
        ((source.elaborate ids).1.map (ElaboratedUnit.mapIds (NodeId.move distance)),
          (source.elaborate ids).2.move distance)) ∧
    ∀ {sources : List SourceUnit} {ids left : IdCounter} {config : DesignConfig}
      {design : Design}, 0 < ids.next →
      Design.elaborate sources ids config = (.ok design, left) →
      design.unitCount = sources.length ∧
      ∀ (i : Nat) (source : SourceUnit) (id : NodeId), sources[i]? = some source →
        design.unitIds[i]? = some id →
        ∃ alone left, source.elaborate IdCounter.fresh = (.ok alone, left) ∧
          let u := alone.mapIds (NodeId.move (id.val - 1))
          u.unit.id = id ∧ design.index.Holds u := by
  constructor
  · intro source ids other enough enough'
    exact (source.outcome_counter ids).eq_moved (source.outcome_counter other) enough enough'
  · intro sources ids left config design positive h
    obtain ⟨units, assembly, rfl, hunits, added⟩ := Design.exists_of_elaborate_ok h
    have listed : assembly.design.unitIds.toList = units.map (·.unit.id) := added.comprises.unitIds
    refine ⟨?_, fun i source id hsource hid => ?_⟩
    · have counts := congrArg List.length added.names
      rw [Design.unitCount, ← Array.length_toList, listed]
      simpa only [List.length_map] using counts
    obtain ⟨u, start, left', hu, success, after⟩ :=
      Design.exists_elaborate_of_getElem? hunits hsource
    rw [← Array.getElem?_toList, listed, List.getElem?_map, hu] at hid
    cases hid
    obtain ⟨laid, -, fits, sound⟩ := SourceUnit.laidOut success
    obtain ⟨alone, left, halone, moved⟩ := laid.exists_alone sound (by omega) fits
    refine ⟨alone, left, halone, ?_⟩
    rw [← moved]
    refine ⟨rfl, laid.holds fun id node found => ?_⟩
    exact (added.comprises.entries id node).mpr ⟨u, List.mem_of_getElem? hu, found⟩

/-- A loop around a module with a port, by itself from one and from a hundred, where it is moved on
by 99; and second in a design, after an interface that takes the first number. -/
theorem elaborate_loop_from_two_starts :
    let nested : SourceUnit := ⟨.module, .empty, .dummy, .dummy, [.unnamed .dummy []], []⟩
    let loop : SourceItem :=
      .generateFor .dummy none .empty (some [4, 5]) ⟨.dummy, none, [.unit nested]⟩
    let source : SourceUnit := ⟨.module, .empty, .dummy, .dummy, [], [loop]⟩
    let first : SourceUnit := ⟨.interface, .empty, .dummy, .dummy, [], []⟩
    (∃ u left moved left', source.elaborate IdCounter.fresh = (.ok u, left) ∧
      source.elaborate (IdCounter.startingAt 100) = (.ok moved, left') ∧
      moved = u.mapIds (NodeId.move 99) ∧ left' = left.move 99) ∧
    ∃ design left u, Design.elaborate [first, source] IdCounter.fresh .permissive =
      (.ok design, left) ∧ u.unit.id = ⟨2⟩ ∧ design.index.Holds u := by
  intro nested loop source first
  obtain ⟨from_any, in_design⟩ := elaborate_from_any_start
  constructor
  · have accepted : (source.elaborate IdCounter.fresh).1.isOk = true := by decide +kernel
    have accepted' : (source.elaborate (IdCounter.startingAt 100)).1.isOk = true := by
      decide +kernel
    obtain ⟨u, left, h⟩ := exists_of_isOk accepted
    obtain ⟨moved, left', h'⟩ := exists_of_isOk accepted'
    have same :=
      @from_any source .fresh (.startingAt 100) (by rw [h]; simp) (by rw [h']; simp)
    rw [h, h'] at same
    injection same with units lefts
    exact ⟨u, left, moved, left', h, h', Except.ok.inj units, lefts⟩
  · have accepted :
        (Design.elaborate [first, source] IdCounter.fresh .permissive).1.isOk = true := by
      decide +kernel
    have second : (Design.elaborate [first, source] IdCounter.fresh .permissive).1.toOption.map
        (fun design => design.unitIds[1]?) = some (some ⟨2⟩) := by decide +kernel
    obtain ⟨design, left, h⟩ := exists_of_isOk accepted
    rw [h] at second
    obtain ⟨-, each⟩ := in_design (by decide) h
    obtain ⟨alone, -, -, own, holds⟩ := each 1 source ⟨2⟩ rfl (Option.some.inj second)
    exact ⟨design, left, _, h, own, holds⟩

end DesignTree
