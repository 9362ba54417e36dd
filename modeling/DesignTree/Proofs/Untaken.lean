import DesignTree.Elaboration.Scope
import Mathlib.Data.List.Forall2
/-!
# DesignTree.Proofs.Untaken

What is written in a block that is not taken has no influence on an elaboration.

`SameTaken` relates source trees that differ at most inside such blocks, however deep: the other
branch of a condition, the block of a loop without iterations, and every block of a region that
has no value. The main statement is that related units elaborate alike on every supply
(`elaborate_eq_of_sameTaken`): the same unit with the same numbers, the same index, the same
numbers left, or the same error.

The proof shows that the programs are equal, step by step. The one step that is not plain is the
expansion of a region, for it reads the condition or the bounds off the marker and not off the
item. Between the first and the last step of a scope the markers are those of its items
(`SourceItem.Marks`), so the two agree.
-/

namespace DesignTree

/-! ### Trees that are the same where they are taken -/

mutual

/-- Units with the same header, and with the same items where these are taken. -/
inductive SourceUnit.SameTaken : SourceUnit → SourceUnit → Prop
  | mk {kind : UnitKind} {name : Name} {nameSpan span : Span} {header : List HeaderEntry}
    {items others : List SourceItem} (hitems : SameTakenItems items others) :
    SourceUnit.SameTaken ⟨kind, name, nameSpan, span, header, items⟩
      ⟨kind, name, nameSpan, span, header, others⟩

/-- Items that differ at most inside blocks that are not taken. -/
inductive SourceItem.SameTaken : SourceItem → SourceItem → Prop
  | refl (item : SourceItem) : SourceItem.SameTaken item item
  | unit {nested other : SourceUnit} (hnested : nested.SameTaken other) :
    SourceItem.SameTaken (.unit nested) (.unit other)
  /-- Of the other branch only its presence counts. -/
  | thenTaken {span : Span} {label : Option Name} {taken taken' : SourceBlock}
    {untaken untaken' : Option SourceBlock} (hpresent : untaken.isSome = untaken'.isSome)
    (htaken : taken.SameTaken taken') :
    SourceItem.SameTaken (.generateIf span label (some true) taken untaken)
      (.generateIf span label (some true) taken' untaken')
  | elseTaken {span : Span} {label : Option Name} {untaken untaken' taken taken' : SourceBlock}
    (htaken : taken.SameTaken taken') :
    SourceItem.SameTaken (.generateIf span label (some false) untaken (some taken))
      (.generateIf span label (some false) untaken' (some taken'))
  | noneTaken {span : Span} {label : Option Name} {untaken untaken' : SourceBlock} :
    SourceItem.SameTaken (.generateIf span label (some false) untaken none)
      (.generateIf span label (some false) untaken' none)
  | ifWithoutValue {span : Span} {label : Option Name} {first first' : SourceBlock}
    {second second' : Option SourceBlock} :
    SourceItem.SameTaken (.generateIf span label none first second)
      (.generateIf span label none first' second')
  | loop {span : Span} {label : Option Name} {genvar : Name} {iterations : List Int64}
    {block block' : SourceBlock} (hblock : block.SameTaken block') :
    SourceItem.SameTaken (.generateFor span label genvar (some iterations) block)
      (.generateFor span label genvar (some iterations) block')
  | loopWithoutIterations {span : Span} {label : Option Name} {genvar : Name}
    {block block' : SourceBlock} :
    SourceItem.SameTaken (.generateFor span label genvar (some []) block)
      (.generateFor span label genvar (some []) block')
  | loopWithoutValue {span : Span} {label : Option Name} {genvar : Name}
    {block block' : SourceBlock} :
    SourceItem.SameTaken (.generateFor span label genvar none block)
      (.generateFor span label genvar none block')
  | block {span : Span} {label : Option Name} {block block' : SourceBlock}
    (hblock : block.SameTaken block') :
    SourceItem.SameTaken (.generateBlock span label block) (.generateBlock span label block')

/-- Items that are the same one by one, where they are taken. -/
inductive SameTakenItems : List SourceItem → List SourceItem → Prop
  | nil : SameTakenItems [] []
  | cons {item other : SourceItem} {rest others : List SourceItem} (hitem : item.SameTaken other)
    (hrest : SameTakenItems rest others) : SameTakenItems (item :: rest) (other :: others)

/-- Blocks with the same items where these are taken; the blocks themselves are. -/
inductive SourceBlock.SameTaken : SourceBlock → SourceBlock → Prop
  | mk {span : Span} {label : Option Name} {items others : List SourceItem}
    (hitems : SameTakenItems items others) :
    SourceBlock.SameTaken ⟨span, label, items⟩ ⟨span, label, others⟩

end

namespace Elaboration

variable {σ α β : Type}

/-! ### Sequencing -/

/-- A sequence that succeeds, taken apart. -/
theorem exists_of_bind_ok {x : Elaboration σ α} {f : α → Elaboration σ β} {s t : Session σ}
    {b : β} (h : (x >>= f) s = .ok b t) : ∃ a mid, x s = .ok a mid ∧ f a mid = .ok b t := by
  rw [bind_apply] at h
  cases hx : x s with
  | ok a mid =>
    rw [hx] at h
    exact ⟨a, mid, rfl, h⟩
  | error e mid =>
    rw [hx] at h
    cases h

/-- What follows only has to agree on the values that the first part can return. -/
theorem bind_congr_of_ok {x : Elaboration σ α} {f g : α → Elaboration σ β}
    (h : ∀ a s t, x s = .ok a t → f a = g a) : x >>= f = x >>= g := by
  funext s
  rw [bind_apply, bind_apply]
  cases hx : x s with
  | ok a t => exact congrFun (h a s t hx) t
  | error e t => rfl

/-- The last step of a scope only has to agree on the nodes that the first one makes. -/
theorem elaborateScope_congr {scope : ScopeKind} {owner : NodeId}
    {declare : Elaboration σ (List Node)}
    {expand expand' : List Node → Elaboration σ (List Node × List NodeId)}
    (h : ∀ nodes s t, declare s = .ok nodes t → expand nodes = expand' nodes) :
    elaborateScope scope owner declare expand = elaborateScope scope owner declare expand' := by
  rw [elaborateScope, elaborateScope, withinScope_eq, withinScope_eq]
  refine bind_congr_of_ok fun nodes s t hnodes => ?_
  rw [h nodes s t hnodes]

variable [IdSupply σ]

/-! ### Markers -/

theorem content_of_place {span : Span} {content : Content} {node : Node} {s t : Session σ}
    (h : place span content s = .ok node t) : node.content = content := by
  obtain ⟨id, mid, -, hnode⟩ := exists_of_bind_ok h
  cases hnode
  rfl

end Elaboration

/-- The marker of a region carries the value that the region has in the source. -/
def SourceItem.Marks : SourceItem → Node → Prop
  | .generateIf _ _ condition _ _, node =>
    ∀ region, node.content = .generateIf region → condition = some region.condition
  | .generateFor _ _ _ iterations _, node =>
    ∀ region, node.content = .generateFor region → iterations = some region.iterations
  | _, _ => True

namespace Elaboration

variable {σ : Type} [IdSupply σ]

theorem marks_of_elaborateItem {item : SourceItem} {node : Node} {s t : Session σ}
    (h : elaborateItem item s = .ok node t) : item.Marks node := by
  cases item with
  | generateIf span label condition thenBlock elseBlock =>
    intro region hregion
    cases condition with
    | none => cases h
    | some condition =>
      rw [elaborateItem] at h
      rw [content_of_place h] at hregion
      cases hregion
      rfl
  | generateFor span label genvar iterations block =>
    intro region hregion
    cases iterations with
    | none => cases h
    | some iterations =>
      rw [elaborateItem] at h
      rw [content_of_place h] at hregion
      cases hregion
      rfl
  | _ => trivial

/-- The nodes that the first step of a scope makes are the markers of its items. -/
theorem marks_of_elaborateItems {items : List SourceItem} {nodes : List Node} {s t : Session σ}
    (h : elaborateItems items s = .ok nodes t) : List.Forall₂ SourceItem.Marks items nodes := by
  induction items generalizing nodes s t with
  | nil =>
    cases h
    exact .nil
  | cons item rest ih =>
    rw [elaborateItems] at h
    obtain ⟨node, mid, hitem, hrest⟩ := exists_of_bind_ok h
    obtain ⟨later, last, hlater, hnodes⟩ := exists_of_bind_ok hrest
    cases hnodes
    exact .cons (marks_of_elaborateItem hitem) (ih hlater)

/-! ### The programs are equal -/

mutual

theorem elaborateUnit_congr :
    ∀ (source : SourceUnit) {other : SourceUnit}, source.SameTaken other →
      (elaborateUnit source : Elaboration σ (Placed DesignUnit)) = elaborateUnit other
  | ⟨kind, name, nameSpan, span, header, items⟩, _, .mk hitems => by
    rw [elaborateUnit, elaborateUnit]
    simp only [elaborateScope_items_congr items kind.scope _ hitems]

theorem elaborateItem_congr :
    ∀ (item : SourceItem) {other : SourceItem}, item.SameTaken other →
      (elaborateItem item : Elaboration σ Node) = elaborateItem other
  | _, _, .refl _ => rfl
  | .unit nested, _, .unit hnested => by
    rw [elaborateItem, elaborateItem, elaborateUnit_congr nested hnested]
  | .generateIf .., _, .thenTaken hpresent _ => by
    simp only [elaborateItem, hpresent]
  | .generateIf .., _, .elseTaken _ => rfl
  | .generateIf .., _, .noneTaken => rfl
  | .generateIf .., _, .ifWithoutValue => rfl
  | .generateFor .., _, .loop _ => rfl
  | .generateFor .., _, .loopWithoutIterations => rfl
  | .generateFor .., _, .loopWithoutValue => rfl
  | .generateBlock .., _, .block _ => rfl

theorem elaborateItems_congr :
    ∀ (items : List SourceItem) {others : List SourceItem}, SameTakenItems items others →
      (elaborateItems items : Elaboration σ (List Node)) = elaborateItems others
  | [], _, .nil => rfl
  | item :: rest, _, .cons hitem hrest => by
    rw [elaborateItems, elaborateItems, elaborateItem_congr item hitem,
      elaborateItems_congr rest hrest]

theorem expandItem_congr :
    ∀ (item : SourceItem) {other : SourceItem} {node : Node}, item.SameTaken other →
      item.Marks node →
      (expandItem item node : Elaboration σ (Node × List NodeId)) = expandItem other node
  | _, _, _, .refl _, _ => rfl
  | .unit _, _, _, .unit _, _ => rfl
  | .generateIf _ _ _ taken _, _, node, .thenTaken _ htaken, hmarks => by
    have same := fun region branch => elaborateBlock_congr taken region branch htaken
    rw [expandItem, expandItem]
    split
    next region hregion =>
      have value : region.condition = true := (Option.some.inj (hmarks region hregion)).symm
      rw [if_pos value, if_pos value, same]
    next => rfl
  | .generateIf _ _ _ _ (some taken), _, node, .elseTaken htaken, hmarks => by
    have same := fun region branch => elaborateBlock_congr taken region branch htaken
    rw [expandItem, expandItem]
    split
    next region hregion =>
      have value : region.condition = false := (Option.some.inj (hmarks region hregion)).symm
      simp only [value, Bool.false_eq_true, if_false, same]
    next => rfl
  | .generateIf .., _, node, .noneTaken, hmarks => by
    rw [expandItem, expandItem]
    split
    next region hregion =>
      have value : region.condition = false := (Option.some.inj (hmarks region hregion)).symm
      simp only [value, Bool.false_eq_true, if_false]
    next => rfl
  | .generateIf .., _, node, .ifWithoutValue, hmarks => by
    -- No marker is made of a region without a value.
    rw [expandItem, expandItem]
    split
    next region hregion => cases hmarks region hregion
    next => rfl
  | .generateFor _ _ _ _ block, _, node, .loop hblock, hmarks => by
    have same := fun region branch => elaborateBlock_congr block region branch hblock
    rw [expandItem, expandItem]
    split
    next region hregion => simp only [same]
    next => rfl
  | .generateFor .., _, node, .loopWithoutIterations, hmarks => by
    rw [expandItem, expandItem]
    split
    next region hregion =>
      have none : region.iterations = [] := (Option.some.inj (hmarks region hregion)).symm
      simp only [none, List.mapM_nil]
    next => rfl
  | .generateFor .., _, node, .loopWithoutValue, hmarks => by
    rw [expandItem, expandItem]
    split
    next region hregion => cases hmarks region hregion
    next => rfl
  | .generateBlock _ _ block, _, node, .block hblock, _ => by
    have same := fun region branch => elaborateBlock_congr block region branch hblock
    rw [expandItem, expandItem]
    split
    next region hregion => rw [same]
    next => rfl

theorem expandItems_congr :
    ∀ (items : List SourceItem) {others : List SourceItem} {nodes : List Node},
      SameTakenItems items others → List.Forall₂ SourceItem.Marks items nodes →
      (expandItems items nodes : Elaboration σ (List Node × List NodeId)) =
        expandItems others nodes
  | [], _, _, .nil, _ => rfl
  | item :: rest, _, _ :: _, .cons hitem hrest, .cons hnode hnodes => by
    rw [expandItems, expandItems, expandItem_congr item hitem hnode,
      expandItems_congr rest hrest hnodes]

/-- All three steps of a scope. -/
theorem elaborateScope_items_congr :
    ∀ (items : List SourceItem) {others : List SourceItem} (scope : ScopeKind) (owner : NodeId),
      SameTakenItems items others →
      (elaborateScope scope owner (elaborateItems items) (expandItems items) :
        Elaboration σ Body) =
      elaborateScope scope owner (elaborateItems others) (expandItems others)
  | items, others, scope, owner, hitems => by
    rw [← elaborateItems_congr items hitems]
    exact elaborateScope_congr fun nodes s t hnodes =>
      expandItems_congr items hitems (marks_of_elaborateItems hnodes)

theorem elaborateBlock_congr :
    ∀ (block : SourceBlock) {other : SourceBlock} (region : NodeId) (branch : Branch),
      block.SameTaken other →
      (elaborateBlock block region branch : Elaboration σ NodeId) =
        elaborateBlock other region branch
  | ⟨span, label, items⟩, _, region, branch, .mk hitems => by
    rw [elaborateBlock, elaborateBlock]
    simp only [elaborateScope_items_congr items .generate _ hitems]

end

end Elaboration

/-- Units that are the same where they are taken elaborate alike, on every supply and in every
state of it. -/
theorem elaborate_eq_of_sameTaken {σ : Type} [IdSupply σ] {source other : SourceUnit}
    (same : source.SameTaken other) (ids : σ) : source.elaborate ids = other.elaborate ids := by
  rw [SourceUnit.elaborate, SourceUnit.elaborate, Elaboration.elaborateUnit_congr source same]

/-- A placeholder in a loop that is not entered, inside the branch that is taken, and others in the
branch that is not taken: the unit elaborates as if they were not there. -/
theorem elaborate_passes_over_placeholders :
    let empty : SourceBlock := ⟨.dummy, none, []⟩
    let broken : SourceBlock := ⟨.point .dummy 7, some .empty, [.malformed .dummy]⟩
    let taken := fun block : SourceBlock => SourceBlock.mk .dummy none
      [.generateFor .dummy none .empty (some []) block, .declaration .dummy (.proc .final)]
    let source := fun block : SourceBlock => SourceUnit.mk .module .empty .dummy .dummy []
      [.generateIf .dummy none (some true) (taken block) (some block),
        .generateIf .dummy none (some false) block none]
    (source empty).SameTaken (source broken) ∧
      ((source empty).elaborate IdCounter.fresh).1.isOk = true ∧
      (source empty).elaborate IdCounter.fresh = (source broken).elaborate IdCounter.fresh := by
  intro empty broken taken source
  have items : SameTakenItems (taken empty).items (taken broken).items :=
    .cons .loopWithoutIterations (.cons (.refl _) .nil)
  have same : (source empty).SameTaken (source broken) :=
    .mk (.cons (.thenTaken rfl (.mk items)) (.cons .noneTaken .nil))
  exact ⟨same, by decide +kernel, elaborate_eq_of_sameTaken same IdCounter.fresh⟩

end DesignTree
