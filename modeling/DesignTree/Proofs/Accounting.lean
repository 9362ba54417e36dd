import DesignTree.Proofs.Assembly
/-!
# DesignTree.Proofs.Accounting

Every number that is drawn ends up as the number of one node, and no node has another number
(`elaborate_accounts_for_numbers`). The number of a unit's own node is the first of them; that
node is not in the index of the unit, but in that of the design which the unit is added to.
-/

namespace DesignTree

open NodeTree Layout

/-- An index of numbered trees has the numbers from their first to their last. -/
theorem NodeIndex.Adds.contains_iff {index : NodeIndex} {trees : List NodeTree} {k n : Nat}
    (hadds : NodeIndex.empty.Adds (nodesOf trees) index)
    (hnumbered : Numbered NodeId.mk trees k n) (id : NodeId) :
    index.contains id = true ↔ k ≤ id.val ∧ id.val < k + n := by
  rw [NodeIndex.contains_eq_true, ← hnumbered.mem_iff_val, List.mem_map]
  exact exists_congr fun node => hadds.get?_eq_some_iff

/-- The numbers drawn for a unit are its own and those in its index; the numbers drawn for a
design are those in the index of the design. -/
theorem elaborate_accounts_for_numbers :
    (∀ {source : SourceUnit} {ids left : IdCounter} {u : ElaboratedUnit},
      source.elaborate ids = (.ok u, left) →
      u.unit.id.val = ids.next ∧ u.nodes.contains u.unit.id = false ∧
        (∀ id, u.nodes.contains id = true ↔ ids.next < id.val ∧ id.val < left.next) ∧
        ∀ id node, u.nodes.get? id = some node → node.id = id) ∧
    ∀ {sources : List SourceUnit} {ids left : IdCounter} {config : DesignConfig}
      {design : Design}, Design.elaborate sources ids config = (.ok design, left) →
      ∀ id, design.index.contains id = true ↔ ids.next ≤ id.val ∧ id.val < left.next := by
  constructor
  · intro source ids left u h
    obtain ⟨laid, hleft, -⟩ := SourceUnit.laidOut h
    obtain ⟨n, hcost, numbered⟩ := numbered_owned NodeId.mk source ids.next
    -- The unit is numbered before anything in it, and is not registered with the rest.
    have own : u.unit.id = ⟨ids.next⟩ := by
      rw [laid.unit_eq]
      rfl
    have below : ∀ id, u.nodes.contains id = true ↔ ids.next < id.val ∧ id.val < left.next := by
      intro id
      rw [laid.adds.contains_iff numbered id, hleft, hcost]
      omega
    refine ⟨by rw [own], ?_, below, fun id node => laid.adds.id_eq⟩
    rw [Bool.eq_false_iff, own, ne_eq, below]
    exact fun inside => Nat.lt_irrefl _ inside.1
  · intro sources ids left config design h id
    obtain ⟨roots, m, holds, numbered, hleft⟩ :=
      Design.holds_elaborateOnto (Assembly.holds_new config) (Numbered.nil (k := ids.next))
        rfl h
    rw [holds.adds.contains_iff numbered id, hleft]

/-- A module with a port and a loop: by itself, and in a design that has it twice. -/
theorem elaborate_accounts_for_loop :
    let block : SourceBlock := ⟨.dummy, none, [.declaration .dummy (.proc .final)]⟩
    let source : SourceUnit := ⟨.module, .empty, .dummy, .dummy, [.unnamed .dummy []],
      [.generateFor .dummy none .empty (some [0, 1]) block]⟩
    (∃ u left, source.elaborate IdCounter.fresh = (.ok u, left) ∧
      ∀ id, u.nodes.contains id = true ↔ 1 < id.val ∧ id.val < left.next) ∧
    ∃ design left, Design.elaborate [source, source] IdCounter.fresh .strict = (.ok design, left) ∧
      ∀ id, design.index.contains id = true ↔ 1 ≤ id.val ∧ id.val < left.next := by
  intro block source
  constructor
  · have accepted : (source.elaborate IdCounter.fresh).1.isOk = true := by decide +kernel
    obtain ⟨u, left, h⟩ := exists_of_isOk accepted
    exact ⟨u, left, h, (elaborate_accounts_for_numbers.1 h).2.2.1⟩
  · have accepted :
        (Design.elaborate [source, source] IdCounter.fresh .strict).1.isOk = true := by
      decide +kernel
    obtain ⟨design, left, h⟩ := exists_of_isOk accepted
    exact ⟨design, left, h, elaborate_accounts_for_numbers.2 h⟩

end DesignTree
