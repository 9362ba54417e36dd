import DesignTree.Proofs.Outcome
/-!
# DesignTree.Proofs.Faults

Which units are accepted, and what is said about the others.

`SourceUnit.fault?` checks a unit by recursion on the source tree and names the first thing that
is wrong with it, if there is any. It is the audit of the unit without the numbers
(`SourceUnit.fault_audit`), so with numbers enough it decides how elaboration ends
(`elaborate_reports_first_fault`).
-/

namespace DesignTree

/-- The references of a header entry. -/
def HeaderEntry.refs : HeaderEntry → List PortRef
  | .ansi _ _ => []
  | .named _ _ none => []
  | .named _ _ (some refs) => refs
  | .unnamed _ refs => refs

/-- The first of some references whose name none of the items declares as a port. -/
def undeclaredRef? (items : List SourceItem) (refs : List PortRef) : Option DesignError :=
  (refs.find? fun ref => !items.any (·.declaresPort ref.name)).map fun ref =>
    .undeclaredPort ref.name ref.span

/-- The first fault of a header, in a unit with the given items. -/
def headerFault? (items : List SourceItem) : List HeaderEntry → Option DesignError
  | [] => none
  | first :: rest =>
    match (first :: rest).find? (·.isAnsi != first.isAnsi) with
    | some odd => some (.structural odd.span .mixedHeaderStyles)
    | none =>
      if first.isAnsi then
        (items.find? (·.portDecl?.isSome)).map fun decl =>
          .structural decl.span .portDeclUnderAnsiHeader
      else
        undeclaredRef? items ((first :: rest).flatMap HeaderEntry.refs)

/-- The first fault of a scope: those of its items by themselves, then a port declaration that it
cannot hold, then those in the regions. -/
def scopeFault? (scope : ScopeKind) (items : List SourceItem) (own regions : Option DesignError) :
    Option DesignError :=
  own.or ((items.findSome? (·.misplacement? scope)).or regions)

mutual

/-- The first fault of a unit: a header that it must not have, then those of its scope, then
those of the header. -/
def SourceUnit.fault? : SourceUnit → Option DesignError
  | ⟨kind, _, _, span, header, items⟩ =>
    if kind = .package ∧ header.isEmpty = false then
      some (.structural span .packageWithHeader)
    else
      (scopeFault? kind.scope items (itemFaults? items) (regionFaults? items)).or
        (headerFault? items header)

/-- What is wrong with an item by itself. -/
def SourceItem.ownFault? : SourceItem → Option DesignError
  | .malformed span => some (.structural span .parserPlaceholder)
  | .generateIf span _ none _ _ => some (.unresolvedGenerate span)
  | .generateFor span _ _ none _ => some (.unresolvedGenerate span)
  | .unit nested => nested.fault?
  | _ => none

/-- The first fault of items by themselves. -/
def itemFaults? : List SourceItem → Option DesignError
  | [] => none
  | item :: rest => item.ownFault?.or (itemFaults? rest)

/-- The first fault in the blocks of an item that are entered. -/
def SourceItem.regionFault? : SourceItem → Option DesignError
  | .generateIf _ _ (some true) thenBlock _ => thenBlock.fault?
  | .generateIf _ _ (some false) _ (some elseBlock) => elseBlock.fault?
  | .generateFor _ _ _ (some (_ :: _)) block => block.fault?
  | .generateBlock _ _ block => block.fault?
  | _ => none

/-- The first fault in the blocks of items that are entered. -/
def regionFaults? : List SourceItem → Option DesignError
  | [] => none
  | item :: rest => item.regionFault?.or (regionFaults? rest)

/-- The first fault of a block that is entered. -/
def SourceBlock.fault? : SourceBlock → Option DesignError
  | ⟨_, _, items⟩ => scopeFault? .generate items (itemFaults? items) (regionFaults? items)

end

/-! ### The audit finds the same faults -/

theorem Audit.fault_andThen (a b : Audit) : (a.andThen b).fault = a.fault.or b.fault := by
  cases h : a.fault with
  | none => rw [andThen_of_none b h, Option.none_or]
  | some e => rw [andThen_of_some b h, h, Option.some_or]

theorem Audit.fault_times (a : Audit) (n : Nat) :
    (a.times (n + 1)).fault = a.fault := by
  induction n with
  | zero => rw [times, times, andThen_pass_zero]
  | succ n ih => rw [times, fault_andThen, ih, Option.or_self]

theorem fault_auditRefs (items : List SourceItem) (refs : List PortRef) :
    (auditRefs items refs).fault = undeclaredRef? items refs := by
  induction refs with
  | nil => rfl
  | cons ref rest ih =>
    rw [auditRefs, undeclaredRef?, List.find?_cons]
    cases declared : items.any (·.declaresPort ref.name) with
    | true =>
      rw [if_pos rfl, Audit.fault_andThen, Audit.fault_pass, Option.none_or, ih]
      rfl
    | false => rfl

theorem undeclaredRef?_append (items : List SourceItem) (front back : List PortRef) :
    undeclaredRef? items (front ++ back) =
      (undeclaredRef? items front).or (undeclaredRef? items back) := by
  rw [undeclaredRef?, List.find?_append, Option.map_or]
  rfl

theorem fault_auditSlices (items : List SourceItem) (entry : HeaderEntry) :
    (entry.auditSlices items).fault = undeclaredRef? items entry.refs := by
  cases entry with
  | ansi span entry => rfl
  | named span outer refs =>
    cases refs with
    | none => rfl
    | some refs => exact fault_auditRefs items refs
  | unnamed span refs => exact fault_auditRefs items refs

theorem fault_auditEntries (items : List SourceItem) (entries : List HeaderEntry) :
    (auditEntries items entries).fault =
      undeclaredRef? items (entries.flatMap HeaderEntry.refs) := by
  induction entries with
  | nil => rfl
  | cons entry rest ih =>
    rw [auditEntries, Audit.fault_andThen, Audit.fault_andThen, Audit.fault_pass, Option.none_or,
      fault_auditSlices, ih, List.flatMap_cons, undeclaredRef?_append]

theorem fault_auditHeader (items : List SourceItem) (header : List HeaderEntry) :
    (auditHeader items header).fault = headerFault? items header := by
  cases header with
  | nil => rfl
  | cons first rest =>
    rw [auditHeader, headerFault?]
    cases hodd : (first :: rest).find? (·.isAnsi != first.isAnsi) with
    | some odd => rfl
    | none =>
      cases hansi : first.isAnsi with
      | true =>
        simp only [Bool.true_and, if_true]
        cases hdecl : items.find? (·.portDecl?.isSome) with
        | some decl => rfl
        | none =>
          -- Without a port declaration nothing is left to go wrong: there are no references.
          have noRefs : (first :: rest).flatMap HeaderEntry.refs = [] := by
            refine List.flatMap_eq_nil_iff.mpr fun entry hentry => ?_
            have style : entry.isAnsi = true := by
              simpa [hansi] using List.find?_eq_none.mp hodd entry hentry
            cases entry with
            | ansi => rfl
            | named => cases style
            | unnamed => cases style
          rw [fault_auditEntries, noRefs]
          rfl
      | false =>
        have noDecl : items.find? (fun item => false && item.portDecl?.isSome) = none := by simp
        rw [noDecl]
        exact fault_auditEntries items (first :: rest)

theorem fault_auditScope (scope : ScopeKind) (items : List SourceItem) (declare expand : Audit) :
    (auditScope scope items declare expand).fault =
      scopeFault? scope items declare.fault expand.fault := by
  rw [auditScope, Audit.fault_andThen, Audit.fault_andThen, Option.or_assoc]
  rfl

mutual

theorem SourceUnit.fault_audit : ∀ source : SourceUnit, source.audit.fault = source.fault?
  | ⟨kind, _, _, span, header, items⟩ => by
    rw [SourceUnit.audit, SourceUnit.fault?]
    split
    · rfl
    · rw [Audit.fault_andThen, Audit.fault_andThen, Audit.fault_pass, Option.none_or,
        fault_auditScope, fault_declareAudits, fault_expandAudits, fault_auditHeader]

theorem SourceItem.fault_declareAudit :
    ∀ item : SourceItem, item.declareAudit.fault = item.ownFault?
  | .unit nested => SourceUnit.fault_audit nested
  | .declaration .. => rfl
  | .inst .. => rfl
  | .generateIf _ _ none _ _ => rfl
  | .generateIf _ _ (some _) _ _ => rfl
  | .generateFor _ _ _ none _ => rfl
  | .generateFor _ _ _ (some _) _ => rfl
  | .generateBlock .. => rfl
  | .malformed _ => rfl

theorem fault_declareAudits :
    ∀ items : List SourceItem, (declareAudits items).fault = itemFaults? items
  | [] => rfl
  | item :: rest => by
    rw [declareAudits, itemFaults?, Audit.fault_andThen, SourceItem.fault_declareAudit item,
      fault_declareAudits rest]

theorem SourceItem.fault_expandAudit :
    ∀ item : SourceItem, item.expandAudit.fault = item.regionFault?
  | .unit _ => rfl
  | .declaration .. => rfl
  | .inst .. => rfl
  | .generateIf _ _ none _ _ => rfl
  | .generateIf _ _ (some true) thenBlock _ => SourceBlock.fault_audit thenBlock
  | .generateIf _ _ (some false) _ none => rfl
  | .generateIf _ _ (some false) _ (some elseBlock) => SourceBlock.fault_audit elseBlock
  | .generateFor _ _ _ none _ => rfl
  | .generateFor _ _ _ (some []) _ => rfl
  | .generateFor _ _ _ (some (_ :: later)) block =>
    (Audit.fault_times block.audit later.length).trans (SourceBlock.fault_audit block)
  | .generateBlock _ _ block => SourceBlock.fault_audit block
  | .malformed _ => rfl

theorem fault_expandAudits :
    ∀ items : List SourceItem, (expandAudits items).fault = regionFaults? items
  | [] => rfl
  | item :: rest => by
    rw [expandAudits, regionFaults?, Audit.fault_andThen, SourceItem.fault_expandAudit item,
      fault_expandAudits rest]

theorem SourceBlock.fault_audit : ∀ source : SourceBlock, source.audit.fault = source.fault?
  | ⟨_, _, items⟩ => by
    rw [SourceBlock.audit, SourceBlock.fault?, Audit.fault_andThen, Audit.fault_pass,
      Option.none_or, fault_auditScope, fault_declareAudits, fault_expandAudits]

end

/-! ### How elaboration ends -/

/-- With numbers for all that comes before the first fault, a unit without a fault is accepted
and a unit with one is rejected for exactly that. -/
theorem elaborate_reports_first_fault {source : SourceUnit} {ids : IdCounter}
    (enough : ids.next + source.audit.draws ≤ idLimit) :
    ((∃ u, (source.elaborate ids).1 = .ok u) ↔ source.fault? = none) ∧
      ∀ e, (source.elaborate ids).1 = .error e ↔ source.fault? = some e := by
  have within : ids.next ≤ idLimit := Nat.le_of_add_right_le enough
  have ended := source.outcome IdCounter.schedule within
  rw [show IdCounter.schedule.supply ids.next = ids from rfl] at ended
  rw [← SourceUnit.fault_audit]
  generalize source.elaborate ids = result at ended ⊢
  cases ended with
  | made fits sound laid => simp [sound]
  | faulty fits fault => simp [fault, eq_comm]
  | exhausted short => exact absurd enough (Nat.not_le.mpr short)

/-- A header names a port that nothing declares. The placeholder in the branch that is not taken
goes unnoticed. -/
theorem elaborate_reports_undeclared_port :
    let port : PortRef := ⟨.dummy, .empty, []⟩
    let block : SourceBlock := ⟨.dummy, none, [.declaration .dummy (.proc .final)]⟩
    let items : List SourceItem :=
      [.generateFor .dummy none .empty (some [0, 1]) block,
        .generateIf .dummy none (some false) ⟨.dummy, none, [.malformed .dummy]⟩ none]
    let source : SourceUnit := ⟨.module, .empty, .dummy, .dummy, [.unnamed .dummy [port]], items⟩
    IdCounter.fresh.next + source.audit.draws ≤ idLimit ∧
      (source.elaborate IdCounter.fresh).1 = .error (.undeclaredPort .empty .dummy) := by
  intro port block items source
  have enough : IdCounter.fresh.next + source.audit.draws ≤ idLimit := by decide
  exact ⟨enough, ((elaborate_reports_first_fault enough).2 _).mpr (by decide)⟩

end DesignTree
