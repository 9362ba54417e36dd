import DesignTree.Proofs.Index.InPlace
import Mathlib.Logic.Function.Basic
/-!
# DesignTree.Proofs.Index.WriteOnce

Indexes that are worked on in place.

There are any number of indexes, all of them empty at first, and nodes are registered in them and
one is merged into another, in any order. An index that was merged into another is still there, and
may be left alone from then on.

Each operation brings in some entries, a single one or those of a whole index, and it is all or
nothing (`AllOrNothing`): the entries are new and the index gains them all, or there is a number in
common and nothing changes. So an entry stays for good once it is there (`get?_performAll`).
-/

namespace DesignTree

/-- An operation on one of several indexes, which go by number. -/
inductive IndexRequest
  /-- Registers a node in the target. -/
  | register (target : Nat) (node : Node)
  /-- Merges the source into the target. -/
  | merge (target source : Nat)

namespace IndexRequest

/-- The index that is worked on. -/
def target : IndexRequest → Nat
  | register target _ => target
  | merge target _ => target

/-- The work on that index. -/
def step (indexes : Nat → NodeIndex) : IndexRequest → IndexStep Unit
  | register _ node => NodeIndex.enter node
  | merge _ source => NodeIndex.absorb (indexes source)

/-- The entries that the operation is to bring in. -/
def Brings (indexes : Nat → NodeIndex) : IndexRequest → NodeId → Node → Prop
  | register _ node, id, entry => entry = node ∧ node.id = id
  | merge _ source, id, entry => (indexes source).get? id = some entry

/-- How many these are. -/
def count (indexes : Nat → NodeIndex) : IndexRequest → Nat
  | register _ _ => 1
  | merge _ source => (indexes source).size

end IndexRequest

variable {indexes : Nat → NodeIndex} {request : IndexRequest} {id : NodeId} {node : Node}

/-- Performs an operation: its answer, and the indexes as it leaves them. -/
def perform (indexes : Nat → NodeIndex) (request : IndexRequest) :
    Except DesignError Unit × (Nat → NodeIndex) :=
  match (request.step indexes).run (indexes request.target) with
  | .ok _ after => (.ok (), Function.update indexes request.target after)
  | .error e after => (.error e, Function.update indexes request.target after)

/-- The indexes after a list of operations. -/
def performAll (indexes : Nat → NodeIndex) : List IndexRequest → (Nat → NodeIndex)
  | [] => indexes
  | request :: rest => performAll (perform indexes request).2 rest

/-- What an operation does that brings in the given entries, `count` in number, or else changes
nothing. -/
structure AllOrNothing (indexes : Nat → NodeIndex) (target : Nat) (brings : NodeId → Node → Prop)
    (count : Nat) (result : Except DesignError Unit × (Nat → NodeIndex)) : Prop where
  /-- It succeeds if none of the numbers is taken, and only then. -/
  accepted : result.1 = .ok () ↔ ∀ id node, brings id node → (indexes target).get? id = none
  /-- A success adds just the entries to those that are there. -/
  entries : result.1 = .ok () → ∀ id node, (result.2 target).get? id = some node ↔
    (indexes target).get? id = some node ∨ brings id node
  size : result.1 = .ok () → (result.2 target).size = (indexes target).size + count
  /-- A failure reports a number that is on both sides, and changes nothing. -/
  refused : ∀ e, result.1 = .error e → result.2 = indexes ∧ ∃ id node, e = .duplicateId id ∧
    brings id node ∧ (indexes target).contains id = true
  /-- The other indexes stay as they are. -/
  others : ∀ i ≠ target, result.2 i = indexes i

/-! ### One operation -/

theorem perform_of_ok (indexes : Nat → NodeIndex) (request : IndexRequest) {after : NodeIndex}
    (h : (request.step indexes).run (indexes request.target) = .ok () after) :
    perform indexes request = (.ok (), Function.update indexes request.target after) := by
  rw [perform, h]

/-- Where the target is as it was, all indexes are. -/
theorem perform_of_error (indexes : Nat → NodeIndex) (request : IndexRequest) {e : DesignError}
    (h : (request.step indexes).run (indexes request.target) = .error e (indexes request.target)) :
    perform indexes request = (.error e, indexes) := by
  have same := Function.update_eq_self request.target indexes
  rw [perform, h]
  exact congrArg (Prod.mk _) same

namespace AllOrNothing

variable {target : Nat} {brings : NodeId → Node → Prop} {count : Nat}

theorem of_ok {after : NodeIndex}
    (free : ∀ id node, brings id node → (indexes target).get? id = none)
    (entries : ∀ id node, after.get? id = some node ↔
      (indexes target).get? id = some node ∨ brings id node)
    (size : after.size = (indexes target).size + count) :
    AllOrNothing indexes target brings count (.ok (), Function.update indexes target after) where
  accepted := ⟨fun _ => free, fun _ => rfl⟩
  entries _ id node := by simpa only [Function.update_self] using entries id node
  size _ := by simpa only [Function.update_self] using size
  refused _ h := nomatch h
  others _ h := Function.update_of_ne h after indexes

theorem of_error (brought : brings id node) (taken : (indexes target).contains id = true) :
    AllOrNothing indexes target brings count (.error (.duplicateId id), indexes) where
  accepted := by
    refine ⟨nofun, fun free => ?_⟩
    have absent := NodeIndex.contains_eq_false.mpr (free id node brought)
    exact absurd (absent.symm.trans taken) Bool.false_ne_true
  entries h := nomatch h
  size h := nomatch h
  refused e h := by
    cases h
    exact ⟨rfl, id, node, rfl, brought, taken⟩
  others _ _ := rfl

end AllOrNothing

/-- Registering and merging are all or nothing. -/
theorem allOrNothing_perform (indexes : Nat → NodeIndex) (request : IndexRequest) :
    AllOrNothing indexes request.target (request.Brings indexes) (request.count indexes)
      (perform indexes request) := by
  cases request with
  | register target node =>
    cases h : (indexes target).register node with
    | ok after =>
      obtain ⟨free, hadds⟩ := NodeIndex.adds_of_register h
      rw [perform_of_ok indexes (.register target node) (NodeIndex.run_enter_of_ok h)]
      refine .of_ok ?_ (fun id entry => ?_) (NodeIndex.size_of_register h)
      · rintro _ _ ⟨-, rfl⟩
        exact free
      · rw [hadds id entry, List.mem_singleton]
        exact or_congr_right (and_congr_right fun same => by rw [same])
    | error e =>
      obtain ⟨rfl, taken⟩ := NodeIndex.of_register_eq_error h
      rw [perform_of_error indexes (.register target node) (NodeIndex.run_enter_of_error h)]
      exact .of_error ⟨rfl, rfl⟩ taken
  | merge target source =>
    cases h : (indexes target).merge (indexes source) with
    | ok merged =>
      obtain ⟨apart, hmerged⟩ := NodeIndex.get?_of_merge h
      rw [perform_of_ok indexes (.merge target source) (NodeIndex.run_absorb_of_ok h)]
      exact .of_ok apart hmerged (NodeIndex.size_of_merge h)
    | error e =>
      obtain ⟨id, rfl, old, new⟩ := NodeIndex.exists_of_merge_error h
      obtain ⟨node, brought⟩ := NodeIndex.contains_eq_true.mp new
      rw [perform_of_error indexes (.merge target source) (NodeIndex.run_absorb_of_error h)]
      exact .of_error brought old

/-- An operation takes no entry away. -/
theorem get?_perform (request : IndexRequest) {i : Nat} (h : (indexes i).get? id = some node) :
    ((perform indexes request).2 i).get? id = some node := by
  have whole := allOrNothing_perform indexes request
  cases answer : (perform indexes request).1 with
  | error e => rwa [(whole.refused e answer).1]
  | ok done =>
    by_cases same : i = request.target
    · subst same
      exact (whole.entries answer id node).mpr (.inl h)
    · rwa [whole.others i same]

/-- Every entry is under the number that the node itself has. -/
def OwnNumbers (indexes : Nat → NodeIndex) : Prop :=
  ∀ i id node, (indexes i).get? id = some node → node.id = id

theorem OwnNumbers.perform (h : OwnNumbers indexes) (request : IndexRequest) :
    OwnNumbers (perform indexes request).2 := by
  intro i id node found
  have whole := allOrNothing_perform indexes request
  cases answer : (DesignTree.perform indexes request).1 with
  | error e =>
    rw [(whole.refused e answer).1] at found
    exact h i id node found
  | ok done =>
    by_cases same : i = request.target
    · subst same
      rcases (whole.entries answer id node).mp found with old | new
      · exact h _ id node old
      · cases request with
        | register target entry =>
          obtain ⟨rfl, own⟩ := new
          exact own
        | merge target source => exact h source id node new
    · rw [whole.others i same] at found
      exact h i id node found

/-! ### Runs of operations -/

theorem get?_performAll (requests : List IndexRequest) {i : Nat}
    (h : (indexes i).get? id = some node) :
    (performAll indexes requests i).get? id = some node := by
  induction requests generalizing indexes with
  | nil => exact h
  | cons request rest ih => exact ih (get?_perform request h)

theorem OwnNumbers.performAll (h : OwnNumbers indexes) (requests : List IndexRequest) :
    OwnNumbers (performAll indexes requests) := by
  induction requests generalizing indexes with
  | nil => exact h
  | cons request rest ih => exact ih (h.perform request)

/-- Whatever is registered in indexes that were empty at first, and however they are merged:

* what is found under a number is a node that has this number;
* the next operation is all or nothing;
* what is found now is found after any further operations. -/
theorem entries_are_written_once (requests : List IndexRequest) :
    let indexes := performAll (fun _ => .empty) requests
    (∀ i id node, (indexes i).lookup id = .ok node → node.id = id) ∧
    (∀ request : IndexRequest, AllOrNothing indexes request.target (request.Brings indexes)
      (request.count indexes) (perform indexes request)) ∧
    ∀ later i id node, (indexes i).lookup id = .ok node →
      (performAll indexes later i).lookup id = .ok node := by
  intro indexes
  have initial : OwnNumbers fun _ => .empty := fun i id node found => by
    rw [NodeIndex.get?_empty] at found
    cases found
  refine ⟨fun i id node found => ?_, allOrNothing_perform indexes, fun later i id node found => ?_⟩
  · exact initial.performAll requests i id node (NodeIndex.lookup_eq_ok_iff.mp found)
  · rw [NodeIndex.lookup_eq_ok_iff] at found ⊢
    exact get?_performAll later found

/-- Two indexes with an entry each. When the second is merged into the first, a number is found
there that a third node cannot take any more. -/
theorem merged_entry_remains :
    let first : Node := ⟨⟨1⟩, .dummy, .declaration (.proc .initial)⟩
    let second : Node := ⟨⟨2⟩, .dummy, .declaration (.proc .final)⟩
    let third : Node := { second with content := .declaration (.proc .always) }
    let indexes :=
      performAll (fun _ => .empty) [.register 0 first, .register 1 second, .merge 0 1]
    (indexes 0).lookup second.id = .ok second ∧
      (perform indexes (.register 0 third)).1 = .error (.duplicateId third.id) ∧
      (perform indexes (.register 0 third)).2 = indexes ∧
      (performAll indexes [.register 0 third, .merge 1 0] 0).lookup second.id = .ok second := by
  intro first second third indexes
  obtain ⟨-, whole, kept⟩ :=
    entries_are_written_once [.register 0 first, .register 1 second, .merge 0 1]
  have looked : (indexes 0).lookup second.id = .ok second :=
    NodeIndex.lookup_eq_ok_iff.mpr (by decide +kernel)
  have clash : (perform indexes (.register 0 third)).1 = .error (.duplicateId third.id) := by
    decide +kernel
  refine ⟨looked, clash, ?_, kept _ _ _ _ looked⟩
  exact ((whole (.register 0 third)).refused _ clash).1

end DesignTree
