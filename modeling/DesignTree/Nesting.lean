/-!
# DesignTree.Nesting

Going into nested scopes. Scopes nest without a limit on the depth, and each level is one more round
of the same recursion. Every round goes through `withinScope`, which adds nothing to the result of
the round inside it, so a descent comes back with what its innermost round gave, from any depth
(`descend_eq`).
-/

namespace DesignTree

/-- Runs a computation one scope further in, and passes its result through. -/
@[inline] def withinScope {α : Type} (inner : Unit → α) : α := inner ()

@[simp] theorem withinScope_eq {α : Type} (inner : Unit → α) : withinScope inner = inner () := rfl

/-- Goes down by a number of scopes; the result is the depth that was reached from `depth`. -/
def descendFrom (depth : Nat) : Nat → Nat
  | 0 => depth
  | further + 1 => withinScope fun _ => descendFrom (depth + 1) further

/-- How deep a descent through a number of scopes gets. -/
def descend (scopes : Nat) : Nat := descendFrom 0 scopes

theorem descendFrom_eq (depth scopes : Nat) : descendFrom depth scopes = depth + scopes := by
  induction scopes generalizing depth with
  | zero => rfl
  | succ further ih => rw [descendFrom, withinScope_eq, ih, Nat.add_right_comm, Nat.add_assoc]

/-- No scope on the way down is lost, however many there are. -/
theorem descend_eq (scopes : Nat) : descend scopes = scopes := by
  rw [descend, descendFrom_eq, Nat.zero_add]

end DesignTree
