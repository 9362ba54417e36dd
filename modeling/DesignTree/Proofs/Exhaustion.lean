import DesignTree.Proofs.Concurrent.Dealing
import DesignTree.Proofs.Counter
/-!
# DesignTree.Proofs.Exhaustion

How many numbers a unit takes, and what happens at the end of the counter.

`SourceUnit.demand` counts each item once, together with the blocks that it brings in. Elaboration
passes the items of a scope twice, and draws for a region only when it comes by again; the sum is
the same (`SourceUnit.demand_eq_cost`). A unit that can be elaborated at all takes exactly so many
numbers, and if the counter has fewer, it is run down to its limit and nothing can be drawn from it
any more (`elaborate_takes_demand`).
-/

namespace DesignTree

/-! ### The demand of a unit -/

mutual

/-- The numbers of a unit: its own, those of its items, and those of its header. -/
def SourceUnit.demand : SourceUnit → Nat
  | ⟨_, _, _, _, header, items⟩ => 1 + demands items + headerCost header

/-- The numbers of an item: its own, and those of the blocks that it brings in. Each of these takes
one for its scope, every time that it is brought in; one that is not taken takes none. -/
def SourceItem.demand : SourceItem → Nat
  | .unit nested => nested.demand
  | .generateIf _ _ (some true) ⟨_, _, items⟩ _ => 1 + (1 + demands items)
  | .generateIf _ _ (some false) _ (some ⟨_, _, items⟩) => 1 + (1 + demands items)
  | .generateFor _ _ _ (some iterations) ⟨_, _, items⟩ =>
    1 + iterations.length * (1 + demands items)
  | .generateBlock _ _ ⟨_, _, items⟩ => 2 + demands items
  | _ => 1

/-- The numbers of a scope's items. -/
def demands : List SourceItem → Nat
  | [] => 0
  | item :: rest => item.demand + demands rest

end

mutual

theorem SourceUnit.demand_eq_cost : ∀ source : SourceUnit, source.demand = source.cost
  | ⟨_, _, _, _, header, items⟩ => by
    rw [SourceUnit.demand, SourceUnit.cost, demands_eq items]

/-- What an item brings in is drawn when the regions are expanded, all else before. -/
theorem SourceItem.demand_eq : ∀ item : SourceItem,
    item.demand = item.declareCost + item.expandCost
  | .unit nested => nested.demand_eq_cost
  | .declaration .. => rfl
  | .inst .. => rfl
  | .malformed _ => rfl
  | .generateIf _ _ none _ _ => rfl
  | .generateIf _ _ (some false) _ none => rfl
  | .generateIf _ _ (some true) ⟨_, _, items⟩ _ => by
    rw [SourceItem.demand, demands_eq items]
    rfl
  | .generateIf _ _ (some false) _ (some ⟨_, _, items⟩) => by
    rw [SourceItem.demand, demands_eq items]
    rfl
  | .generateFor _ _ _ none _ => rfl
  | .generateFor _ _ _ (some iterations) ⟨_, _, items⟩ => by
    rw [SourceItem.demand, demands_eq items]
    rfl
  | .generateBlock _ _ ⟨_, _, items⟩ => by
    rw [SourceItem.demand, demands_eq items, SourceItem.declareCost, SourceItem.expandCost,
      SourceBlock.cost]
    omega

theorem demands_eq : ∀ items : List SourceItem,
    demands items = declareCosts items + expandCosts items
  | [] => rfl
  | item :: rest => by
    rw [demands, declareCosts, expandCosts, item.demand_eq, demands_eq rest]
    omega

end

/-! ### Units that can be elaborated -/

/-- The numbers from one on, without a limit on how many there are. -/
def DealtIds.upTo (n : Nat) : DealtIds := ⟨(List.range' 1 n).map NodeId.mk⟩

/-- The unit is elaborated if there are numbers enough. -/
def SourceUnit.Elaborable (source : SourceUnit) : Prop :=
  ∃ (n : Nat) (u : ElaboratedUnit) (left : DealtIds),
    source.elaborate (DealtIds.upTo n) = (.ok u, left)

theorem SourceUnit.Elaborable.sound {source : SourceUnit} (h : source.Elaborable) :
    source.audit.fault = none := by
  obtain ⟨n, u, left, success⟩ := h
  have ended : Outcome _ source 1 (source.elaborate (DealtIds.upTo n)) :=
    SourceUnit.outcome_dealt IdCounter.schedule.name_injective rfl
  rw [success] at ended
  cases ended with
  | made _ sound => exact sound

/-- A unit that can be elaborated takes what it demands, or all that the counter has. -/
theorem SourceUnit.Elaborable.elaborate_cases {source : SourceUnit} (h : source.Elaborable)
    {ids : IdCounter} (within : ids.next ≤ idLimit) :
    (ids.next + source.demand ≤ idLimit ∧
      ∃ u, source.elaborate ids = (.ok u, ⟨ids.next + source.demand⟩)) ∨
    (idLimit < ids.next + source.demand ∧
      source.elaborate ids = (.error (.ids .exhausted), ⟨idLimit⟩)) := by
  have sound := h.sound
  have drawn := SourceUnit.draws_audit sound
  rw [source.demand_eq_cost]
  have ended := source.outcome_counter ids
  generalize source.elaborate ids = result at ended ⊢
  cases ended with
  | made fits => exact .inl ⟨fits, _, rfl⟩
  | faulty _ fault =>
    rw [sound] at fault
    cases fault
  | exhausted short =>
    rw [Nat.max_eq_right within] at short ⊢
    exact .inr ⟨by omega, rfl⟩

/-! ### What is left of the counter -/

/-- Elaborating a unit leaves the counter as some number of draws does. -/
theorem SourceUnit.exists_after (source : SourceUnit) {ids : IdCounter}
    (within : ids.next ≤ idLimit) : ∃ n, (source.elaborate ids).2 = ids.after n := by
  have ended := source.outcome_counter ids
  generalize source.elaborate ids = result at ended ⊢
  cases ended with
  | made fits =>
    refine ⟨source.cost, ?_⟩
    rw [IdCounter.after_eq within, Nat.min_eq_left fits]
  | faulty fits =>
    refine ⟨source.audit.draws, ?_⟩
    rw [IdCounter.after_eq within, Nat.min_eq_left (by omega)]
  | exhausted short =>
    refine ⟨source.audit.draws, ?_⟩
    rw [IdCounter.after_eq within, Nat.min_eq_right (by omega), Nat.max_eq_right within]

/-- A unit takes as many numbers as it demands, or runs the counter down:

* one that can be elaborated is elaborated exactly if its numbers stay below the limit, and its
  demand is then gone from the counter; otherwise the counter is reported as exhausted, and left at
  the limit;
* at the limit nothing is ever drawn again;
* whatever a unit is, and however its elaboration ends, it leaves the counter as some number of
  draws does;
* and draws count up from the first number, stay below the limit, and never come to zero. -/
theorem elaborate_takes_demand :
    (∀ (source : SourceUnit) (ids : IdCounter), source.Elaborable → ids.next ≤ idLimit →
      ((∃ u left, source.elaborate ids = (.ok u, left)) ↔ ids.next + source.demand ≤ idLimit) ∧
      (ids.next + source.demand ≤ idLimit →
        (source.elaborate ids).2 = ⟨ids.next + source.demand⟩) ∧
      (idLimit < ids.next + source.demand →
        source.elaborate ids = (.error (.ids .exhausted), ⟨idLimit⟩))) ∧
    (∀ n, (IdCounter.after ⟨idLimit⟩ n).draw = (.error .exhausted, ⟨idLimit⟩)) ∧
    (∀ (source : SourceUnit) (ids : IdCounter), ids.next ≤ idLimit →
      ∃ n, (source.elaborate ids).2 = ids.after n) ∧
    ∀ ids : IdCounter, 0 < ids.next → ids.next ≤ idLimit → ∀ n,
      ids.next ≤ (ids.after n).next ∧ (ids.after n).next ≤ idLimit ∧
      ∀ id, (ids.after n).draw.1 = .ok id →
        id.val = ids.next + n ∧ 0 < id.val ∧ id.val < idLimit := by
  refine ⟨fun source ids elaborable within => ?_, fun n => ?_,
    fun source ids within => source.exists_after within, fun ids positive within n => ?_⟩
  · rcases elaborable.elaborate_cases within with ⟨fits, u, success⟩ | ⟨short, failure⟩
    · rw [success]
      exact ⟨⟨fun _ => fits, fun _ => ⟨u, _, rfl⟩⟩, fun _ => rfl, fun short => by omega⟩
    · rw [failure]
      refine ⟨⟨?_, fun fits => by omega⟩, fun fits => by omega, fun _ => rfl⟩
      rintro ⟨u, left, success⟩
      cases success
  · have last : IdCounter.after ⟨idLimit⟩ n = ⟨idLimit⟩ :=
      (IdCounter.after_eq (Nat.le_refl idLimit) n).trans
        (congrArg IdCounter.mk (Nat.min_eq_right (Nat.le_add_right ..)))
    rw [last]
    exact if_neg (Nat.lt_irrefl _)
  · refine ⟨?_, ?_, fun id drawn => ?_⟩
    · rw [IdCounter.after_eq within]
      exact Nat.le_min.mpr ⟨Nat.le_add_right .., within⟩
    · rw [IdCounter.after_eq within]
      exact Nat.min_le_right ..
    · obtain ⟨value, below⟩ := IdCounter.val_of_draw_after within drawn
      exact ⟨value, by omega, below⟩

/-- A loop around a module with a referred port and a branch that is taken, beside a block: 21
numbers. They fit if exactly so many are left, and one less does not do. -/
theorem elaborate_loop_at_limit :
    let port : SourceItem :=
      .declaration .dummy (.port ⟨.input, .net .wire, .implicit .dummy, [⟨.dummy, .empty, none⟩]⟩)
    let nested : SourceUnit :=
      ⟨.module, .empty, .dummy, .dummy, [.unnamed .dummy [⟨.dummy, .empty, []⟩]], [port]⟩
    let final : SourceBlock := ⟨.dummy, none, [.declaration .dummy (.proc .final)]⟩
    let branch : SourceItem := .generateIf .dummy none (some true) final (some final)
    let loop : SourceItem :=
      .generateFor .dummy none .empty (some [4, 5]) ⟨.dummy, none, [.unit nested, branch]⟩
    let source : SourceUnit :=
      ⟨.module, .empty, .dummy, .dummy, [], [loop, .generateBlock .dummy none final]⟩
    source.Elaborable ∧ source.demand = 21 ∧
    (∃ u left, source.elaborate (IdCounter.mk (idLimit - 21)) = (.ok u, left)) ∧
    (source.elaborate (IdCounter.mk (idLimit - 21))).2 = ⟨idLimit⟩ ∧
    source.elaborate (IdCounter.mk (idLimit - 20)) = (.error (.ids .exhausted), ⟨idLimit⟩) ∧
    (∃ n, (source.elaborate (IdCounter.mk (idLimit - 20))).2 = IdCounter.after ⟨idLimit - 20⟩ n) ∧
    (IdCounter.after .fresh 5).next ≤ idLimit := by
  intro port nested final branch loop source
  have accepted : (source.elaborate (DealtIds.upTo 21)).1.isOk = true := by decide +kernel
  obtain ⟨u, left, h⟩ := exists_of_isOk accepted
  have elaborable : source.Elaborable := ⟨21, u, left, h⟩
  have demand : source.demand = 21 := by decide +kernel
  obtain ⟨takes, -, draws, counts⟩ := elaborate_takes_demand
  obtain ⟨fits, left_eq, -⟩ := takes source ⟨idLimit - 21⟩ elaborable (by decide)
  obtain ⟨-, -, short⟩ := takes source ⟨idLimit - 20⟩ elaborable (by decide)
  rw [demand] at fits left_eq short
  exact ⟨elaborable, demand, fits.mpr (by decide), left_eq (by decide), short (by decide),
    draws source ⟨idLimit - 20⟩ (by decide), (counts .fresh (by decide) (by decide) 5).2.1⟩

end DesignTree
