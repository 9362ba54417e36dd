import DesignTree.Proofs.Assembly.Built
/-!
# DesignTree.Proofs.Concurrent.Dealing

Units that are elaborated at the same time draw from one counter, and which number goes to which
unit depends on how their draws interleave. A `Dealing` is any outcome of that: each number that
the counter issues goes to one unit, and a unit draws all the numbers that are its own.

Read off unit by unit, the dealt numbers are a rearrangement of those that were issued. So the
units are laid out at the same positions as if they had been elaborated in turn, and only the
numbers at these positions are others (`Dealing.exists_naming`, `exists_allUnits`).
-/

namespace DesignTree

open Layout Assembly

/-! ### Interleaved draws -/

/-- The counter issues these numbers, one draw after the other, whoever draws. -/
inductive IdCounter.Issues : IdCounter → List NodeId → IdCounter → Prop
  | nil {ids : IdCounter} : Issues ids [] ids
  | cons {ids next left : IdCounter} {id : NodeId} {later : List NodeId}
    (drawn : IdSupply.draw ids = (.ok id, next)) (rest : Issues next later left) :
    Issues ids (id :: later) left

/-- A way in which the numbers of a counter may go to units that are elaborated at the same time,
and what is left of the counter then. The numbers suffice. A unit that was never started, since
another one had failed, has none. -/
structure Dealing (ids : IdCounter) (dealt : List (SourceUnit × DealtIds)) (left : IdCounter) :
    Prop where
  /-- Every number that is issued is dealt to one unit, and no others are. -/
  issued : ∃ order, ids.Issues order left ∧ order.Perm (dealt.flatMap (·.2.ids))
  /-- Every unit draws all of its numbers. -/
  drawn : ∀ task ∈ dealt, (task.1.elaborate task.2).2 = ⟨[]⟩
  /-- A unit that was started does not ask for more. -/
  enough : ∀ task ∈ dealt, task.2.ids ≠ [] →
    (task.1.elaborate task.2).1 ≠ .error (.ids .exhausted)

/-- A counter issues numbers that count up, as long as there are any. -/
theorem IdCounter.Issues.eq_range' {ids left : IdCounter} {order : List NodeId}
    (h : ids.Issues order left) :
    order = (List.range' ids.next order.length).map NodeId.mk ∧
      left = ⟨ids.next + order.length⟩ ∧
        ids.next + order.length ≤ max ids.next idLimit := by
  induction h with
  | nil => exact ⟨rfl, rfl, Nat.le_max_left ..⟩
  | @cons ids next left id later drawn rest ih =>
    obtain ⟨hlater, hleft, hbound⟩ := ih
    have step : ids.next < idLimit ∧ id = ⟨ids.next⟩ ∧ next = ⟨ids.next + 1⟩ := by
      by_cases room : ids.next < idLimit
      · have draw : IdSupply.draw ids = (.ok ⟨ids.next⟩, ⟨ids.next + 1⟩) := if_pos room
        rw [draw] at drawn
        cases drawn
        exact ⟨room, rfl, rfl⟩
      · have draw : IdSupply.draw ids = (.error .exhausted, ids) := if_neg room
        rw [draw] at drawn
        cases drawn
    obtain ⟨room, rfl, rfl⟩ := step
    simp only [List.length_cons] at hbound ⊢
    refine ⟨?_, by rw [hleft]; simp only [Nat.add_assoc, Nat.add_comm 1], by omega⟩
    rw [List.range'_succ, List.map_cons, ← hlater]

/-- A counter issues as many numbers as it has left. -/
theorem IdCounter.issues_range' (n : Nat) {ids : IdCounter} (fits : ids.next + n ≤ idLimit) :
    ids.Issues ((List.range' ids.next n).map NodeId.mk) ⟨ids.next + n⟩ := by
  induction n generalizing ids with
  | zero => exact .nil
  | succ n ih =>
    rw [List.range'_succ, List.map_cons, Nat.add_comm n, ← Nat.add_assoc]
    have later : (⟨ids.next + 1⟩ : IdCounter).next + n ≤ idLimit := by
      show ids.next + 1 + n ≤ idLimit
      omega
    exact .cons (if_pos (by omega)) (ih later)

/-! ### Names for the positions -/

/-- The number at a position, if the given ones take the place of the numbers from `first` on. -/
def naming (first : Nat) (order : List NodeId) (k : Nat) : NodeId :=
  if k < first then ⟨k⟩ else order[k - first]?.getD ⟨k⟩

section Naming

variable {first k : Nat} {order : List NodeId}

theorem naming_add {i : Nat} (hi : i < order.length) :
    naming first order (first + i) = order[i] := by
  rw [naming, if_neg (by omega), Nat.add_sub_cancel_left, List.getElem?_eq_getElem hi]
  rfl

theorem naming_of_outside (h : ¬ (first ≤ k ∧ k < first + order.length)) :
    naming first order k = ⟨k⟩ := by
  unfold naming
  split
  · rfl
  · rw [List.getElem?_eq_none (by omega)]
    rfl

theorem map_naming (first : Nat) (order : List NodeId) :
    (List.range' first order.length).map (naming first order) = order := by
  refine List.ext_getElem (by simp) fun i _ hi => ?_
  rw [List.getElem_map, List.getElem_range', Nat.one_mul, naming_add hi]

/-- Rearranged numbers are still different. -/
theorem naming_injective
    (perm : order.Perm ((List.range' first order.length).map NodeId.mk)) :
    Function.Injective (naming first order) := by
  have distinct : order.Nodup := by
    refine perm.nodup_iff.mpr ((List.nodup_range' 1).map ?_)
    exact fun _ _ same => NodeId.mk.inj same
  have inside : ∀ i (hi : i < order.length),
      first ≤ order[i].val ∧ order[i].val < first + order.length := by
    intro i hi
    obtain ⟨value, hvalue, heq⟩ := List.mem_map.mp (perm.mem_iff.mp (List.getElem_mem hi))
    rw [← heq]
    exact List.mem_range'_1.mp hvalue
  intro j k same
  -- A position in the range has a number from the range, any other has itself.
  by_cases hj : first ≤ j ∧ j < first + order.length <;>
    by_cases hk : first ≤ k ∧ k < first + order.length
  · obtain ⟨i, rfl⟩ := Nat.exists_eq_add_of_le hj.1
    obtain ⟨i', rfl⟩ := Nat.exists_eq_add_of_le hk.1
    rw [naming_add (by omega), naming_add (by omega)] at same
    rw [(distinct.getElem_inj_iff).mp same]
  · obtain ⟨i, rfl⟩ := Nat.exists_eq_add_of_le hj.1
    have bounds := inside i (by omega)
    rw [naming_add (by omega), naming_of_outside hk] at same
    rw [same] at bounds
    exact absurd bounds hk
  · obtain ⟨i, rfl⟩ := Nat.exists_eq_add_of_le hk.1
    have bounds := inside i (by omega)
    rw [naming_of_outside hj, naming_add (by omega)] at same
    rw [← same] at bounds
    exact absurd bounds hj
  · rw [naming_of_outside hj, naming_of_outside hk] at same
    exact NodeId.mk.inj same

end Naming

/-- Numbers that were issued and went to units in any way are the numbers at the positions from the
counter's next on, if these are named anew. -/
theorem IdCounter.Issues.exists_naming {ids left : IdCounter} {order dealt : List NodeId}
    (issues : ids.Issues order left) (perm : order.Perm dealt) :
    ∃ (name : Nat → NodeId) (n : Nat), Function.Injective name ∧
      dealt = (List.range' ids.next n).map name ∧
      (∀ k, ¬ (ids.next ≤ k ∧ k < ids.next + n) → NodeId.mk k = name k) ∧
      left = ⟨ids.next + n⟩ ∧ ids.next + n ≤ max ids.next idLimit := by
  obtain ⟨horder, hleft, hbound⟩ := issues.eq_range'
  have rearranged := perm.symm
  rw [horder, perm.length_eq] at rearranged
  rw [perm.length_eq] at hleft hbound
  exact ⟨naming ids.next dealt, dealt.length, naming_injective rearranged, (map_naming _ _).symm,
    fun k outside => (naming_of_outside outside).symm, hleft, hbound⟩

theorem Dealing.exists_naming {ids left : IdCounter} {dealt : List (SourceUnit × DealtIds)}
    (dealing : Dealing ids dealt left) :
    ∃ (name : Nat → NodeId) (n : Nat), Function.Injective name ∧
      dealt.flatMap (·.2.ids) = (List.range' ids.next n).map name ∧
      (∀ k, ¬ (ids.next ≤ k ∧ k < ids.next + n) → NodeId.mk k = name k) ∧
      left = ⟨ids.next + n⟩ ∧ ids.next + n ≤ max ids.next idLimit := by
  obtain ⟨order, issues, perm⟩ := dealing.issued
  exact issues.exists_naming perm

/-! ### Elaborating on dealt numbers -/

/-- The schedule of dealt numbers: those at the positions before the limit. -/
def DealtIds.schedule (name : Nat → NodeId) (hname : Function.Injective name) (limit : Nat) :
    Schedule DealtIds where
  supply k := ⟨(List.range' k (limit - k)).map name⟩
  name := name
  limit := limit
  draw_of_lt k h := by
    obtain ⟨n, hn⟩ : ∃ n, limit - k = n + 1 := ⟨limit - k - 1, by omega⟩
    have rest : limit - (k + 1) = n := by omega
    rw [hn, rest, List.range'_succ, List.map_cons]
    rfl
  draw_limit := by
    rw [Nat.sub_self]
    rfl
  name_injective := hname

theorem DealtIds.supply_limit (name : Nat → NodeId) (hname : Function.Injective name)
    (limit : Nat) : (schedule name hname limit).supply limit = ⟨[]⟩ := by
  simp only [schedule, Nat.sub_self, List.range'_zero, List.map_nil]

section Dealt

variable {name : Nat → NodeId} {source : SourceUnit} {own : DealtIds}
  {dealt : List (SourceUnit × DealtIds)} {k n : Nat}

/-- Consecutive positions, in two parts. -/
theorem eq_map_range'_of_append {front back : List NodeId}
    (h : front ++ back = (List.range' k n).map name) :
    front = (List.range' k front.length).map name ∧
      back = (List.range' (k + front.length) back.length).map name ∧
        n = front.length + back.length := by
  have length : n = front.length + back.length := by
    simpa using (congrArg List.length h).symm
  rw [length, ← List.range'_append_1, List.map_append] at h
  obtain ⟨hfront, hback⟩ := List.append_inj h (by simp)
  exact ⟨hfront, hback, length⟩

/-- How the elaboration of a unit ends that is dealt the numbers at consecutive positions. -/
theorem SourceUnit.outcome_dealt (hname : Function.Injective name)
    (hown : own.ids = (List.range' k n).map name) :
    Outcome (DealtIds.schedule name hname (k + n)) source k (source.elaborate own) := by
  have supply : (DealtIds.schedule name hname (k + n)).supply k = own := by
    show DealtIds.mk ((List.range' k (k + n - k)).map name) = own
    rw [Nat.add_sub_cancel_left, ← hown]
  have ended := source.outcome (DealtIds.schedule name hname (k + n)) (Nat.le_add_right k n)
  rwa [supply] at ended

/-- A unit that is elaborated, and draws all of its numbers. -/
theorem SourceUnit.laidOut_dealt (hname : Function.Injective name)
    (hown : own.ids = (List.range' k n).map name) (drawn : (source.elaborate own).2 = ⟨[]⟩)
    {u : ElaboratedUnit} (success : (source.elaborate own).1 = .ok u) :
    LaidOut name source k u ∧ n = source.cost ∧ source.audit.fault = none := by
  have ended : Outcome _ source k (source.elaborate own) := SourceUnit.outcome_dealt hname hown
  generalize source.elaborate own = result at ended drawn success
  cases ended with
  | faulty => cases success
  | exhausted => cases success
  | made fits sound laid =>
    cases success
    have none : k + n - (k + source.cost) = 0 := by
      simpa [DealtIds.schedule] using drawn
    have bound : k + source.cost ≤ k + n := fits
    exact ⟨laid, by omega, sound⟩

/-- A unit fails because of a fault, unless its numbers run out. -/
theorem SourceUnit.fault_of_dealt (hname : Function.Injective name)
    (hown : own.ids = (List.range' k n).map name) {e : DesignError}
    (failure : (source.elaborate own).1 = .error e) (started : e ≠ .ids .exhausted) :
    source.audit.fault = some e ∧ source.audit.draws ≤ n := by
  have ended : Outcome _ source k (source.elaborate own) := SourceUnit.outcome_dealt hname hown
  generalize source.elaborate own = result at ended failure
  cases ended with
  | made => cases failure
  | exhausted =>
    cases failure
    exact absurd rfl started
  | faulty fits fault =>
    cases failure
    have bound : k + source.audit.draws ≤ k + n := fits
    exact ⟨fault, by omega⟩

/-- The numbers of each unit are those at consecutive positions. -/
theorem exists_own_of_mem (hids : dealt.flatMap (·.2.ids) = (List.range' k n).map name)
    {task : SourceUnit × DealtIds} (htask : task ∈ dealt) :
    ∃ i, ∃ m ≤ n, task.2.ids = (List.range' i m).map name := by
  obtain ⟨front, back, rfl⟩ := List.append_of_mem htask
  rw [List.flatMap_append, List.flatMap_cons] at hids
  obtain ⟨-, hrest, hn⟩ := eq_map_range'_of_append hids
  obtain ⟨hown, -, hlength⟩ := eq_map_range'_of_append hrest
  exact ⟨_, _, by omega, hown⟩

/-- Units that are all elaborated are laid out one after the other. -/
theorem exists_allUnits (hname : Function.Injective name)
    (hids : dealt.flatMap (·.2.ids) = (List.range' k n).map name)
    (drawn : ∀ task ∈ dealt, (task.1.elaborate task.2).2 = ⟨[]⟩)
    (success : ∀ task ∈ dealt, ∃ u, (task.1.elaborate task.2).1 = .ok u) :
    ∃ units, Design.allUnits (dealt.map fun task => (task.1.elaborate task.2).1) = .ok units ∧
      LaidOutAll name (dealt.map (·.1)) k units ∧ n = unitCosts (dealt.map (·.1)) ∧
        ∀ source ∈ dealt.map (·.1), source.audit.fault = none := by
  induction dealt generalizing k n with
  | nil =>
    have empty : n = 0 := by simpa using hids.symm
    exact ⟨[], rfl, .nil, empty, by simp⟩
  | cons task rest ih =>
    obtain ⟨hdrawn, drawn⟩ := List.forall_mem_cons.mp drawn
    obtain ⟨⟨u, hu⟩, success⟩ := List.forall_mem_cons.mp success
    rw [List.flatMap_cons] at hids
    obtain ⟨hown, hrest, hn⟩ := eq_map_range'_of_append hids
    obtain ⟨laid, hcost, sound⟩ := SourceUnit.laidOut_dealt hname hown hdrawn hu
    rw [hcost] at hrest hn
    obtain ⟨units, hunits, later, hcosts, sounds⟩ := ih hrest drawn success
    refine ⟨u :: units, ?_, .cons laid later, ?_, List.forall_mem_cons.mpr ⟨sound, sounds⟩⟩
    · rw [List.map_cons, hu, Design.allUnits, hunits]
    · rw [List.map_cons, unitCosts_cons, ← hcosts, hn]

/-- Units that are all elaborated become a design unless two of them clash. -/
theorem Design.elaborateDealt_of_success (config : DesignConfig) (hname : Function.Injective name)
    (hids : dealt.flatMap (·.2.ids) = (List.range' k n).map name)
    (drawn : ∀ task ∈ dealt, (task.1.elaborate task.2).2 = ⟨[]⟩)
    (success : ∀ task ∈ dealt, ∃ u, (task.1.elaborate task.2).1 = .ok u) :
    (∃ e, firstClash? config [] (dealt.map (·.1)) = some e ∧
      elaborateDealt dealt config = .error e) ∨
      firstClash? config [] (dealt.map (·.1)) = none ∧ ∃ design,
        elaborateDealt dealt config = .ok design ∧ design.Built name (dealt.map (·.1)) k := by
  obtain ⟨units, hunits, laid, -⟩ := exists_allUnits hname hids drawn success
  have outcomes : ofOutcomes config (dealt.map fun task => (task.1.elaborate task.2).1) =
      elaborateDealt dealt config := rfl
  rw [← outcomes, ofOutcomes, hunits]
  rcases addUnits_laidOut (built_new name k config) hname laid with
    ⟨e, clash, hadd⟩ | ⟨clash, extended, hadd, built⟩
  · exact .inl ⟨e, clash, by simp only [hadd]⟩
  · exact .inr ⟨clash, extended.design, by simp only [hadd], built⟩

end Dealt

end DesignTree
