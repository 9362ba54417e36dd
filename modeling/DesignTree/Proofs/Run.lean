import DesignTree.Elaboration.Session
import DesignTree.Proofs.Audit
import DesignTree.Proofs.Index
import Mathlib.Logic.Function.Basic
/-!
# DesignTree.Proofs.Run

What a run of an elaboration does, on any supply.

A `Schedule` says which numbers a supply issues and when it runs dry. It holds of the session's
counter (`IdCounter.schedule`), and nothing below looks into a supply any further.

`Runs` describes a computation completely: it draws as many numbers as its audit counts and ends
as the audit says, with a given value and with given nodes added to the index; and if the supply
cannot issue that many numbers, it ends when the supply is dry. There is one rule for each step
of an elaboration and one for sequencing, so that a run is described by following the program.
-/

namespace DesignTree

/-- The numbers that a supply issues one after the other, up to where it runs dry. -/
structure Schedule (σ : Type) [IdSupply σ] where
  /-- The supply that issues the number at a position next. -/
  supply : Nat → σ
  /-- The number at a position. -/
  name : Nat → NodeId
  /-- The first position that has no number left. -/
  limit : Nat
  draw_of_lt : ∀ k < limit, IdSupply.draw (supply k) = (.ok (name k), supply (k + 1))
  draw_limit : IdSupply.draw (supply limit) = (.error .exhausted, supply limit)
  name_injective : Function.Injective name

namespace IdCounter

/-- The schedule of the session's counter: the number at a position is the position. -/
def schedule : Schedule IdCounter where
  supply := IdCounter.mk
  name := NodeId.mk
  limit := idLimit
  draw_of_lt _ h := if_pos h
  draw_limit := rfl
  name_injective _ _ h := NodeId.mk.inj h

/-- The schedule of a counter at the limit or beyond: it is dry from the start. -/
def spent (counter : IdCounter) (h : idLimit ≤ counter.next) : Schedule IdCounter where
  supply _ := counter
  name := NodeId.mk
  limit := 0
  draw_of_lt k h := absurd h (Nat.not_lt_zero k)
  draw_limit := if_neg (Nat.not_lt.mpr h)
  name_injective _ _ h := NodeId.mk.inj h

end IdCounter

variable {σ : Type} [IdSupply σ] {α β : Type}

/-- No number from position `k` on is taken. -/
def Schedule.Free (plan : Schedule σ) (k : Nat) (nodes : NodeIndex) : Prop :=
  ∀ i, k ≤ i → nodes.get? (plan.name i) = none

namespace Schedule.Free

variable {plan : Schedule σ} {k m : Nat} {nodes after : NodeIndex} {made : List Node}

theorem mono (h : plan.Free k nodes) (hle : k ≤ m) : plan.Free m nodes :=
  fun i hi => h i (Nat.le_trans hle hi)

/-- Adding nodes with numbers before position `m` leaves the later ones free. -/
theorem adds (h : plan.Free k nodes) (hadds : nodes.Adds made after) (hle : k ≤ m)
    (hmade : ∀ node ∈ made, ∃ i < m, node.id = plan.name i) : plan.Free m after := by
  intro i hi
  refine hadds.get?_eq_none (h i (Nat.le_trans hle hi)) fun node hnode hid => ?_
  obtain ⟨j, hj, hname⟩ := hmade node hnode
  have same : j = i := plan.name_injective (hname.symm.trans hid)
  omega

end Schedule.Free

/-- A computation that starts at position `k` with the index `nodes` goes as `audit` says: if it
has no fault it returns `value` and adds the nodes `made`. -/
structure Runs (plan : Schedule σ) (k : Nat) (nodes : NodeIndex) (x : Elaboration σ α)
    (audit : Audit) (value : α) (made : List Node) : Prop where
  /-- Without a fault there is a value, and the index gains exactly `made`. -/
  succeeds : k + audit.draws ≤ plan.limit → audit.fault = none → ∃ after,
    x ⟨plan.supply k, nodes⟩ = .ok value ⟨plan.supply (k + audit.draws), after⟩ ∧
      nodes.Adds made after
  /-- A fault is the error, and the numbers drawn before it stay drawn. -/
  fails : ∀ e, k + audit.draws ≤ plan.limit → audit.fault = some e → ∃ after,
    x ⟨plan.supply k, nodes⟩ = .error e ⟨plan.supply (k + audit.draws), after⟩
  /-- Too few numbers are an error as well, and leave the supply dry. -/
  exhausts : plan.limit < k + audit.draws → ∃ after,
    x ⟨plan.supply k, nodes⟩ = .error (.ids .exhausted) ⟨plan.supply plan.limit, after⟩

namespace Runs

variable {plan : Schedule σ} {k : Nat} {nodes : NodeIndex} {x : Elaboration σ α} {a b : Audit}
  {v : α} {w : β} {made more : List Node}

theorem perm (h : Runs plan k nodes x a v made) (hperm : made.Perm more) :
    Runs plan k nodes x a v more where
  succeeds enough sound :=
    let ⟨after, hx, hadds⟩ := h.succeeds enough sound
    ⟨after, hx, hadds.perm hperm⟩
  fails := h.fails
  exhausts := h.exhausts

theorem pure (v : α) (hk : k ≤ plan.limit) :
    Runs plan k nodes (pure v : Elaboration σ α) (.pass 0) v [] where
  succeeds _ _ := ⟨nodes, rfl, .refl nodes⟩
  fails _ _ h := by cases h
  exhausts h := absurd hk (Nat.not_le.mpr h)

theorem throw (e : DesignError) (hk : k ≤ plan.limit) :
    Runs plan k nodes (throw e : Elaboration σ α) (.stop e) v made where
  succeeds _ h := by cases h
  fails _ _ h := by cases h; exact ⟨nodes, rfl⟩
  exhausts h := absurd hk (Nat.not_le.mpr h)

theorem drawId (hk : k ≤ plan.limit) :
    Runs plan k nodes Elaboration.drawId (.pass 1) (plan.name k) [] where
  succeeds enough _ := by
    refine ⟨nodes, ?_, .refl nodes⟩
    rw [Elaboration.drawId, plan.draw_of_lt k enough]
    rfl
  fails _ _ h := by cases h
  exhausts short := by
    have dry : k = plan.limit := Nat.le_antisymm hk (Nat.le_of_lt_succ short)
    refine ⟨nodes, ?_⟩
    rw [Elaboration.drawId, dry, plan.draw_limit]

theorem register {node : Node} (hk : k ≤ plan.limit) (hfree : nodes.get? node.id = none) :
    Runs plan k nodes (Elaboration.register node) (.pass 0) () [node] where
  succeeds _ _ := by
    obtain ⟨after, hregister, hadds⟩ := NodeIndex.register_of_get?_eq_none hfree
    refine ⟨after, ?_, hadds⟩
    rw [Elaboration.register, hregister]
    rfl
  fails _ _ h := by cases h
  exhausts h := absurd hk (Nat.not_le.mpr h)

/-- Reading the index is of no consequence, if what is looked up is there. -/
theorem lookup {id : NodeId} {node : Node} (hk : k ≤ plan.limit)
    (hnode : nodes.get? id = some node) :
    Runs plan k nodes (Elaboration.lookup id) (.pass 0) node [] where
  succeeds _ _ := by
    refine ⟨nodes, ?_, .refl nodes⟩
    rw [Elaboration.lookup, NodeIndex.lookup, hnode]
    rfl
  fails _ _ h := by cases h
  exhausts h := absurd hk (Nat.not_le.mpr h)

/-- Sequencing. What follows may rely on the numbers drawn so far not running out, and on what
the index has gained. -/
theorem bind {f : α → Elaboration σ β} (hx : Runs plan k nodes x a v made)
    (hf : a.fault = none → k + a.draws ≤ plan.limit → ∀ middle, nodes.Adds made middle →
      Runs plan (k + a.draws) middle (f v) b w more) :
    Runs plan k nodes (x >>= f) (a.andThen b) w (made ++ more) := by
  have run := Elaboration.bind_apply x f ⟨plan.supply k, nodes⟩
  cases ha : a.fault with
  | some e =>
    rw [Audit.andThen_of_some b ha]
    refine ⟨fun _ sound => ?_, fun e' enough he => ?_, fun short => ?_⟩
    · rw [ha] at sound
      cases sound
    · obtain ⟨after, h⟩ := hx.fails e' enough he
      exact ⟨after, by rw [run, h]⟩
    · obtain ⟨after, h⟩ := hx.exhausts short
      exact ⟨after, by rw [run, h]⟩
  | none =>
    rw [Audit.andThen_of_none b ha]
    by_cases first : k + a.draws ≤ plan.limit
    · obtain ⟨middle, hok, hadds⟩ := hx.succeeds first ha
      have rest := hf ha first middle hadds
      have onward : (x >>= f) ⟨plan.supply k, nodes⟩ =
          f v ⟨plan.supply (k + a.draws), middle⟩ := by rw [run, hok]
      refine ⟨fun enough sound => ?_, fun e enough he => ?_, fun short => ?_⟩
      · obtain ⟨after, h, hmore⟩ := rest.succeeds (Nat.add_assoc k _ _ ▸ enough) sound
        exact ⟨after, by rw [onward, h, Nat.add_assoc], hadds.append hmore⟩
      · obtain ⟨after, h⟩ := rest.fails e (Nat.add_assoc k _ _ ▸ enough) he
        exact ⟨after, by rw [onward, h, Nat.add_assoc]⟩
      · obtain ⟨after, h⟩ := rest.exhausts (Nat.add_assoc k _ _ ▸ short)
        exact ⟨after, by rw [onward, h]⟩
    · -- The supply runs dry in the first part already.
      obtain ⟨after, h⟩ := hx.exhausts (Nat.not_le.mp first)
      refine ⟨fun enough _ => ?_, fun _ enough _ => ?_, fun _ => ⟨after, by rw [run, h]⟩⟩
      · exact absurd (Nat.add_assoc k _ _ ▸ enough) (by omega)
      · exact absurd (Nat.add_assoc k _ _ ▸ enough) (by omega)

/-- A computation that only goes on with the value of another. -/
theorem map {f : α → Elaboration σ β} (hx : Runs plan k nodes x a v made)
    (hf : f v = Pure.pure w) : Runs plan k nodes (x >>= f) a w made := by
  have run : Runs plan k nodes (x >>= f) (a.andThen (.pass 0)) w (made ++ []) :=
    hx.bind fun _ enough _ _ => hf ▸ Runs.pure w enough
  rwa [Audit.andThen_pass_zero, List.append_nil] at run

/-- Drawing a number and going on with it. What was free still is. -/
theorem draw {f : NodeId → Elaboration σ β} (hk : k ≤ plan.limit) (hfree : plan.Free k nodes)
    (hf : k + 1 ≤ plan.limit → ∀ middle, plan.Free k middle →
      Runs plan (k + 1) middle (f (plan.name k)) b w more) :
    Runs plan k nodes (Elaboration.drawId >>= f) ((Audit.pass 1).andThen b) w more :=
  (Runs.drawId hk).bind fun _ enough middle hmiddle =>
    hf enough middle (hfree.adds hmiddle (Nat.le_refl k) (by simp))

end Runs

end DesignTree
