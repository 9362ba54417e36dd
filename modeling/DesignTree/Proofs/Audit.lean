import DesignTree.Body.Basic
import DesignTree.Elaboration.Header
import DesignTree.Proofs.Cost
/-!
# DesignTree.Proofs.Audit

What stops an elaboration, read off the source tree alone.

An audit goes over a unit in the order in which elaboration meets its faults, and keeps count
of the numbers drawn on the way:

* a package must not have a header;
* the items of a scope come in source order, a nested unit with all that is in it; placeholders
  and regions without a value are faults of the item;
* only then the items are checked for port declarations that their scope cannot hold;
* only then the blocks of regions are entered, each as often as it is elaborated, and never if
  it is not taken;
* the header comes last: one style, no port declarations beside ports declared on the spot, and
  no reference to a port that the unit's own items do not declare.

An audit that finds nothing has counted the cost of the tree (`SourceUnit.draws_audit`).
-/

namespace DesignTree

/-- How a part of a source tree fares: the numbers drawn for it, and the fault that stops it. -/
structure Audit where
  draws : Nat
  fault : Option DesignError
  deriving DecidableEq

namespace Audit

/-- Nothing is wrong, and some numbers are drawn. -/
def pass (draws : Nat) : Audit := ⟨draws, none⟩

/-- A check that draws nothing. -/
def check (fault : Option DesignError) : Audit := ⟨0, fault⟩

/-- A fault, met at once. -/
def stop (fault : DesignError) : Audit := check (some fault)

/-- One part after another: the second is reached only if the first has no fault. -/
def andThen (first second : Audit) : Audit :=
  match first.fault with
  | some _ => first
  | none => ⟨first.draws + second.draws, second.fault⟩

/-- The same part several times over. -/
def times (audit : Audit) : Nat → Audit
  | 0 => pass 0
  | n + 1 => audit.andThen (audit.times n)

@[simp] theorem fault_pass (n : Nat) : (pass n).fault = none := rfl
@[simp] theorem draws_pass (n : Nat) : (pass n).draws = n := rfl
@[simp] theorem fault_check (fault : Option DesignError) : (check fault).fault = fault := rfl
@[simp] theorem draws_check (fault : Option DesignError) : (check fault).draws = 0 := rfl
@[simp] theorem fault_stop (e : DesignError) : (stop e).fault = some e := rfl

theorem andThen_of_none {a : Audit} (b : Audit) (h : a.fault = none) :
    a.andThen b = ⟨a.draws + b.draws, b.fault⟩ := by
  unfold andThen
  rw [h]

theorem andThen_of_some {a : Audit} (b : Audit) {e : DesignError} (h : a.fault = some e) :
    a.andThen b = a := by
  unfold andThen
  rw [h]

/-- A sequence has no fault when neither part has one. -/
@[simp] theorem fault_andThen_eq_none {a b : Audit} :
    (a.andThen b).fault = none ↔ a.fault = none ∧ b.fault = none := by
  cases h : a.fault with
  | none => simp [andThen_of_none b h]
  | some e => simp [andThen_of_some b h, h]

theorem draws_andThen {a : Audit} (b : Audit) (h : a.fault = none) :
    (a.andThen b).draws = a.draws + b.draws := by
  rw [andThen_of_none b h]

@[simp] theorem pass_zero_andThen (a : Audit) : (pass 0).andThen a = a := by
  rw [andThen_of_none a (fault_pass 0), draws_pass, Nat.zero_add]

@[simp] theorem andThen_pass_zero (a : Audit) : a.andThen (pass 0) = a := by
  cases h : a.fault with
  | none => simp [andThen_of_none _ h, ← h]
  | some e => exact andThen_of_some _ h

theorem andThen_assoc (a b c : Audit) : (a.andThen b).andThen c = a.andThen (b.andThen c) := by
  cases ha : a.fault with
  | some e =>
    rw [andThen_of_some b ha, andThen_of_some c ha, andThen_of_some (b.andThen c) ha]
  | none =>
    cases hb : b.fault with
    | some e =>
      rw [andThen_of_some c hb, andThen_of_none b ha]
      exact andThen_of_some c hb
    | none =>
      have hab : (a.andThen b).fault = none := fault_andThen_eq_none.mpr ⟨ha, hb⟩
      rw [andThen_of_none c hab, andThen_of_none c hb, andThen_of_none b ha,
        andThen_of_none _ ha, Nat.add_assoc]

/-- A part that is never reached cannot be at fault; one that is reached settles all its
repetitions. -/
theorem fault_times_eq_none {a : Audit} {n : Nat} :
    (a.times n).fault = none ↔ n = 0 ∨ a.fault = none := by
  induction n with
  | zero => simp [times]
  | succ n ih =>
    rw [times, fault_andThen_eq_none, ih]
    exact ⟨fun h => .inr h.1, fun h => ⟨h.resolve_left (Nat.succ_ne_zero n),
      .inr (h.resolve_left (Nat.succ_ne_zero n))⟩⟩

theorem draws_times {a : Audit} {n : Nat} (h : (a.times n).fault = none) :
    (a.times n).draws = n * a.draws := by
  induction n with
  | zero => simp [times]
  | succ n ih =>
    simp only [times, fault_andThen_eq_none] at h ⊢
    rw [draws_andThen _ h.1, ih h.2, Nat.succ_mul, Nat.add_comm]

end Audit

/-! ### Items and their scope -/

/-- The port declaration that an item is, if it is one. -/
def SourceItem.portDecl? : SourceItem → Option PortDecl
  | .declaration _ (.port decl) => some decl
  | _ => none

/-- Whether an item declares a port of the given name. -/
def SourceItem.declaresPort (item : SourceItem) (name : Name) : Bool :=
  item.portDecl?.any fun decl => decl.names.any (·.name == name)

/-- The names that items declare as ports, in source order. The numbers of the declarations are
unknown here. -/
def declaredNames (items : List SourceItem) : List DeclaredPort :=
  items.flatMap fun item =>
    match item.portDecl? with
    | some decl => decl.declared default
    | none => []

theorem isSome_find?_declaredNames (items : List SourceItem) (wanted : Name) :
    ((declaredNames items).find? (·.name == wanted)).isSome =
      items.any (·.declaresPort wanted) := by
  induction items with
  | nil => rfl
  | cons item rest ih =>
    unfold declaredNames at ih ⊢
    rw [List.flatMap_cons, List.find?_append, Option.isSome_or, List.any_cons, ih,
      SourceItem.declaresPort]
    cases item.portDecl? with
    | none => rfl
    | some decl =>
      congr 1
      rw [Bool.eq_iff_iff]
      simp [PortDecl.declared]

/-- What is wrong with an item in a scope of the given kind: only the scopes of modules and
interfaces hold port declarations. -/
def SourceItem.misplacement? (scope : ScopeKind) (item : SourceItem) : Option DesignError :=
  if item.portDecl?.isSome ∧ (scope = .package ∨ scope = .generate) then
    some (.structural item.span .portDeclOutsideUnit)
  else
    none

/-! ### Headers -/

/-- A reference is faulty if none of the unit's items declares its name. -/
def auditRefs (items : List SourceItem) : List PortRef → Audit
  | [] => .pass 0
  | ref :: rest =>
    if items.any (·.declaresPort ref.name) then
      (Audit.pass 1).andThen (auditRefs items rest)
    else
      .stop (.undeclaredPort ref.name ref.span)

/-- The slices of a header entry. -/
def HeaderEntry.auditSlices (items : List SourceItem) : HeaderEntry → Audit
  | .ansi _ _ => .pass 1
  | .named _ _ none => .pass 0
  | .named _ _ (some refs) => auditRefs items refs
  | .unnamed _ refs => auditRefs items refs

/-- Header entries one by one: each draws a number for its port, then those of its slices. -/
def auditEntries (items : List SourceItem) : List HeaderEntry → Audit
  | [] => .pass 0
  | entry :: rest =>
    ((Audit.pass 1).andThen (entry.auditSlices items)).andThen (auditEntries items rest)

/-- The header of a unit with the given items. Style and port declarations are checked before
any entry. -/
def auditHeader (items : List SourceItem) : List HeaderEntry → Audit
  | [] => .pass 0
  | first :: rest =>
    match (first :: rest).find? (·.isAnsi != first.isAnsi) with
    | some odd => .stop (.structural odd.span .mixedHeaderStyles)
    | none =>
      match items.find? fun item => first.isAnsi && item.portDecl?.isSome with
      | some decl => .stop (.structural decl.span .portDeclUnderAnsiHeader)
      | none => auditEntries items (first :: rest)

/-! ### Units and scopes -/

/-- The three steps of a scope: its items, their places, and the regions among them. -/
def auditScope (scope : ScopeKind) (items : List SourceItem) (declare expand : Audit) : Audit :=
  (declare.andThen (.check (items.findSome? (·.misplacement? scope)))).andThen expand

mutual

/-- A unit: its header must be allowed, then its items, then the header itself. -/
def SourceUnit.audit : SourceUnit → Audit
  | ⟨kind, _, _, span, header, items⟩ =>
    if kind = .package ∧ header.isEmpty = false then
      .stop (.structural span .packageWithHeader)
    else
      ((Audit.pass 1).andThen
        (auditScope kind.scope items (declareAudits items) (expandAudits items))).andThen
          (auditHeader items header)

/-- An item by itself; of a region only whether it has a value. -/
def SourceItem.declareAudit : SourceItem → Audit
  | .unit nested => nested.audit
  | .declaration .. => .pass 1
  | .inst .. => .pass 1
  | .generateIf span _ none _ _ => .stop (.unresolvedGenerate span)
  | .generateIf _ _ (some _) _ _ => .pass 1
  | .generateFor span _ _ none _ => .stop (.unresolvedGenerate span)
  | .generateFor _ _ _ (some _) _ => .pass 1
  | .generateBlock .. => .pass 1
  | .malformed span => .stop (.structural span .parserPlaceholder)

/-- The items of a scope, in source order. -/
def declareAudits : List SourceItem → Audit
  | [] => .pass 0
  | item :: rest => item.declareAudit.andThen (declareAudits rest)

/-- The blocks of an item's region that are elaborated. -/
def SourceItem.expandAudit : SourceItem → Audit
  | .generateIf _ _ (some true) thenBlock _ => thenBlock.audit
  | .generateIf _ _ (some false) _ (some elseBlock) => elseBlock.audit
  | .generateFor _ _ _ (some iterations) block => block.audit.times iterations.length
  | .generateBlock _ _ block => block.audit
  | _ => .pass 0

/-- The regions of a scope, in source order. -/
def expandAudits : List SourceItem → Audit
  | [] => .pass 0
  | item :: rest => item.expandAudit.andThen (expandAudits rest)

/-- A block that is elaborated. -/
def SourceBlock.audit : SourceBlock → Audit
  | ⟨_, _, items⟩ =>
    (Audit.pass 1).andThen
      (auditScope .generate items (declareAudits items) (expandAudits items))

end

/-! ### Nothing wrong with the whole -/

/-- A scope has no fault when neither its items nor its regions have one, and all items are in
place. -/
theorem fault_auditScope_eq_none {scope : ScopeKind} {items : List SourceItem}
    {declare expand : Audit} :
    (auditScope scope items declare expand).fault = none ↔
      declare.fault = none ∧ items.findSome? (·.misplacement? scope) = none ∧
        expand.fault = none := by
  rw [auditScope, Audit.fault_andThen_eq_none, Audit.fault_andThen_eq_none, Audit.fault_check,
    and_assoc]

/-- A header that is not refused as a whole is as good as its entries. -/
theorem auditHeader_of_fault_eq_none {items : List SourceItem} {header : List HeaderEntry}
    (h : (auditHeader items header).fault = none) :
    auditHeader items header = auditEntries items header := by
  cases header with
  | nil => rfl
  | cons first rest =>
    rw [auditHeader] at h ⊢
    split at h
    next odd hodd => simp at h
    next hodd =>
      split at h
      next decl hdecl => simp at h
      next hdecl => rfl

/-- A unit without a fault: it may have its header, and neither its scope nor its header has a
fault. -/
theorem SourceUnit.sound_parts {kind : UnitKind} {name : Name} {nameSpan span : Span}
    {header : List HeaderEntry} {items : List SourceItem}
    (h : (SourceUnit.mk kind name nameSpan span header items).audit.fault = none) :
    ¬ (kind = .package ∧ header.isEmpty = false) ∧
      (auditScope kind.scope items (declareAudits items) (expandAudits items)).fault = none ∧
      (auditHeader items header).fault = none := by
  rw [SourceUnit.audit] at h
  split at h
  next refused => simp at h
  next allowed =>
    obtain ⟨hscope, hheader⟩ := Audit.fault_andThen_eq_none.mp h
    exact ⟨allowed, (Audit.fault_andThen_eq_none.mp hscope).2, hheader⟩

/-! ### An audit without a fault counts the cost -/

theorem draws_auditRefs {items : List SourceItem} {refs : List PortRef}
    (h : (auditRefs items refs).fault = none) : (auditRefs items refs).draws = refs.length := by
  induction refs with
  | nil => rfl
  | cons ref rest ih =>
    unfold auditRefs at h ⊢
    by_cases declared : items.any (·.declaresPort ref.name) = true
    · rw [if_pos declared] at h ⊢
      obtain ⟨hfirst, hrest⟩ := Audit.fault_andThen_eq_none.mp h
      rw [Audit.draws_andThen _ hfirst, ih hrest, List.length_cons]
      exact Nat.add_comm ..
    · rw [if_neg declared] at h
      simp at h

theorem draws_auditSlices {items : List SourceItem} {entry : HeaderEntry}
    (h : (entry.auditSlices items).fault = none) :
    (entry.auditSlices items).draws = entry.sliceCount := by
  cases entry with
  | ansi span entry => rfl
  | named span outer refs =>
    cases refs with
    | none => rfl
    | some refs => exact draws_auditRefs h
  | unnamed span refs => exact draws_auditRefs h

theorem draws_auditEntries {items : List SourceItem} {entries : List HeaderEntry}
    (h : (auditEntries items entries).fault = none) :
    (auditEntries items entries).draws = headerCost entries := by
  induction entries with
  | nil => rfl
  | cons entry rest ih =>
    obtain ⟨hentry, hrest⟩ := Audit.fault_andThen_eq_none.mp h
    have slices := draws_auditSlices (Audit.fault_andThen_eq_none.mp hentry).2
    rw [auditEntries, Audit.draws_andThen _ hentry, ih hrest, headerCost,
      Audit.draws_andThen _ (Audit.fault_pass 1), slices]
    rfl

theorem draws_auditHeader {items : List SourceItem} {header : List HeaderEntry}
    (h : (auditHeader items header).fault = none) :
    (auditHeader items header).draws = headerCost header := by
  have entries := auditHeader_of_fault_eq_none h
  rw [entries] at h ⊢
  exact draws_auditEntries h

theorem draws_auditScope {scope : ScopeKind} {items : List SourceItem} {declare expand : Audit}
    (h : (auditScope scope items declare expand).fault = none) :
    (auditScope scope items declare expand).draws = declare.draws + expand.draws := by
  obtain ⟨hdeclare, hplaced, -⟩ := fault_auditScope_eq_none.mp h
  have first : (declare.andThen (.check (items.findSome? (·.misplacement? scope)))).fault = none :=
    Audit.fault_andThen_eq_none.mpr ⟨hdeclare, hplaced⟩
  rw [auditScope, Audit.draws_andThen _ first, Audit.draws_andThen _ hdeclare, Audit.draws_check,
    Nat.add_zero]

mutual

theorem SourceUnit.draws_audit :
    ∀ {source : SourceUnit}, source.audit.fault = none → source.audit.draws = source.cost
  | ⟨kind, _, _, span, header, items⟩, h => by
    obtain ⟨allowed, hscope, hheader⟩ := SourceUnit.sound_parts h
    obtain ⟨hdeclare, -, hexpand⟩ := fault_auditScope_eq_none.mp hscope
    have first := Audit.fault_andThen_eq_none.mpr ⟨Audit.fault_pass 1, hscope⟩
    rw [SourceUnit.audit, if_neg allowed, Audit.draws_andThen _ first,
      Audit.draws_andThen _ (Audit.fault_pass 1), draws_auditScope hscope,
      draws_declareAudits hdeclare, draws_expandAudits hexpand, draws_auditHeader hheader,
      Audit.draws_pass, SourceUnit.cost]

theorem SourceItem.draws_declareAudit :
    ∀ {item : SourceItem}, item.declareAudit.fault = none →
      item.declareAudit.draws = item.declareCost
  | .unit nested, h => by
    rw [SourceItem.declareAudit] at h ⊢
    rw [SourceUnit.draws_audit h, SourceItem.declareCost]
  | .declaration .., _ => rfl
  | .inst .., _ => rfl
  | .generateIf _ _ none _ _, h => by simp [SourceItem.declareAudit] at h
  | .generateIf _ _ (some _) _ _, _ => rfl
  | .generateFor _ _ _ none _, h => by simp [SourceItem.declareAudit] at h
  | .generateFor _ _ _ (some _) _, _ => rfl
  | .generateBlock .., _ => rfl
  | .malformed _, h => by simp [SourceItem.declareAudit] at h

theorem draws_declareAudits :
    ∀ {items : List SourceItem}, (declareAudits items).fault = none →
      (declareAudits items).draws = declareCosts items
  | [], _ => rfl
  | item :: rest, h => by
    rw [declareAudits] at h ⊢
    have hp := Audit.fault_andThen_eq_none.mp h
    rw [Audit.draws_andThen _ hp.1, SourceItem.draws_declareAudit hp.1,
      draws_declareAudits hp.2, declareCosts]

theorem SourceItem.draws_expandAudit :
    ∀ {item : SourceItem}, item.expandAudit.fault = none →
      item.expandAudit.draws = item.expandCost
  | .unit _, _ => rfl
  | .declaration .., _ => rfl
  | .inst .., _ => rfl
  | .generateIf _ _ none _ _, _ => rfl
  | .generateIf _ _ (some true) thenBlock _, h => @SourceBlock.draws_audit thenBlock h
  | .generateIf _ _ (some false) _ none, _ => rfl
  | .generateIf _ _ (some false) _ (some elseBlock), h =>
    @SourceBlock.draws_audit elseBlock h
  | .generateFor _ _ _ none _, _ => rfl
  | .generateFor _ _ _ (some iterations) block, h => by
    rw [SourceItem.expandAudit] at h ⊢
    rw [Audit.draws_times h, SourceItem.expandCost]
    -- A block that no iteration enters may be faulty, and then its audit counts less.
    rcases Audit.fault_times_eq_none.mp h with none | sound
    · rw [none, Nat.zero_mul, Nat.zero_mul]
    · rw [SourceBlock.draws_audit sound]
  | .generateBlock _ _ block, h => @SourceBlock.draws_audit block h
  | .malformed _, _ => rfl

theorem draws_expandAudits :
    ∀ {items : List SourceItem}, (expandAudits items).fault = none →
      (expandAudits items).draws = expandCosts items
  | [], _ => rfl
  | item :: rest, h => by
    rw [expandAudits] at h ⊢
    have hp := Audit.fault_andThen_eq_none.mp h
    rw [Audit.draws_andThen _ hp.1, SourceItem.draws_expandAudit hp.1, draws_expandAudits hp.2,
      expandCosts]

theorem SourceBlock.draws_audit :
    ∀ {source : SourceBlock}, source.audit.fault = none → source.audit.draws = source.cost
  | ⟨_, _, items⟩, h => by
    have hscope := (Audit.fault_andThen_eq_none.mp h).2
    obtain ⟨hdeclare, -, hexpand⟩ := fault_auditScope_eq_none.mp hscope
    rw [SourceBlock.audit, Audit.draws_andThen _ (Audit.fault_pass 1), draws_auditScope hscope,
      draws_declareAudits hdeclare, draws_expandAudits hexpand, Audit.draws_pass,
      SourceBlock.cost]

end

/-- A scope whose items and regions are audited. -/
theorem draws_auditScope_items {scope : ScopeKind} {items : List SourceItem}
    (h : (auditScope scope items (declareAudits items) (expandAudits items)).fault = none) :
    (auditScope scope items (declareAudits items) (expandAudits items)).draws =
      declareCosts items + expandCosts items := by
  obtain ⟨hdeclare, -, hexpand⟩ := fault_auditScope_eq_none.mp h
  rw [draws_auditScope h, draws_declareAudits hdeclare, draws_expandAudits hexpand]

end DesignTree
