import DesignTree.Proofs.Layout
import Mathlib.Data.List.Nodup
/-!
# DesignTree.Proofs.Layout.Numbered

The numbers in a layout: every position from its first to its last is the number of exactly one
node (`numbered_unitTree`, `numbered_blockTree`). So no number that is drawn gets lost, and none
is used for two nodes.
-/

namespace DesignTree

open NodeTree

/-- The trees have the numbers at the `n` positions from `k` on, each of them once. -/
def Numbered (name : Nat → NodeId) (trees : List NodeTree) (k n : Nat) : Prop :=
  ((nodesOf trees).map (·.id)).Perm ((List.range' k n).map name)

namespace Numbered

variable {name : Nat → NodeId} {trees front back : List NodeTree} {tree : NodeTree} {k n m : Nat}

theorem nil : Numbered name [] k 0 := List.Perm.nil

theorem append (hfront : Numbered name front k n) (hback : Numbered name back (k + n) m) :
    Numbered name (front ++ back) k (n + m) := by
  unfold Numbered at *
  rw [nodesOf_append, List.map_append, ← List.range'_append_1, List.map_append]
  exact hfront.append hback

theorem perm (h : Numbered name front k n) (hperm : front.Perm back) :
    Numbered name back k n :=
  ((nodesOf_perm hperm).map _).symm.trans h

/-- A root with the first number, and what it owns with the others. -/
theorem root {node : Node} {owned : List NodeTree} (hid : node.id = name k)
    (howned : Numbered name owned (k + 1) n) : Numbered name [⟨node, owned⟩] k (1 + n) := by
  unfold Numbered at *
  rw [nodesOf_cons, nodesOf_nil, List.append_nil, nodes_eq, List.map_cons, Nat.add_comm,
    List.range'_succ, List.map_cons, hid]
  exact howned.cons (name k)

/-- Conversely, what a root owns has the numbers after the root's. -/
theorem owned (h : Numbered name [tree] k (1 + n)) (hid : tree.id = name k) :
    Numbered name tree.owned (k + 1) n := by
  unfold Numbered at *
  rw [nodesOf_singleton, nodes_eq, List.map_cons, Nat.add_comm, List.range'_succ,
    List.map_cons, ← hid] at h
  exact h.cons_inv

theorem cons (htree : Numbered name [tree] k n) (hrest : Numbered name trees (k + n) m) :
    Numbered name (tree :: trees) k (n + m) :=
  htree.append hrest

/-- The nodes have numbers from the range. -/
theorem exists_position (h : Numbered name trees k n) {node : Node}
    (hnode : node ∈ nodesOf trees) : ∃ i, k ≤ i ∧ i < k + n ∧ node.id = name i := by
  have hmem : node.id ∈ (List.range' k n).map name := h.mem_iff.mp (List.mem_map_of_mem hnode)
  obtain ⟨i, hi, hname⟩ := List.mem_map.mp hmem
  obtain ⟨hle, hlt⟩ := List.mem_range'_1.mp hi
  exact ⟨i, hle, hlt, hname.symm⟩

/-- Where a position is its own number, the numbers are those of the range. -/
theorem mem_iff_val (h : Numbered NodeId.mk trees k n) (id : NodeId) :
    id ∈ (nodesOf trees).map (·.id) ↔ k ≤ id.val ∧ id.val < k + n := by
  rw [h.mem_iff, List.mem_map, ← List.mem_range'_1]
  constructor
  · rintro ⟨i, hi, rfl⟩
    exact hi
  · exact fun inside => ⟨id.val, inside, rfl⟩

/-- If the numbers at different positions differ, so do those of different nodes. -/
theorem nodup (h : Numbered name trees k n) (hname : Function.Injective name) :
    ((nodesOf trees).map (·.id)).Nodup :=
  h.nodup_iff.mpr (List.Nodup.map hname (List.nodup_range' 1))

/-- As many nodes as there are positions. -/
theorem length_eq (h : Numbered name trees k n) : (nodesOf trees).length = n := by
  have lengths := List.Perm.length_eq h
  rwa [List.length_map, List.length_map, List.length_range'] at lengths

theorem leaf (span : Span) (content : Content) :
    Numbered name [Layout.leaf name k span content] k 1 :=
  root rfl nil

theorem spread {α : Type} {make : α → Nat → NodeTree} (h : ∀ a k, Numbered name [make a k] k n)
    (list : List α) : ∀ k, Numbered name (Layout.spread n make list k) k (list.length * n) := by
  induction list with
  | nil =>
    intro k
    rw [List.length_nil, Nat.zero_mul]
    exact nil
  | cons a rest ih =>
    intro k
    rw [List.length_cons, Nat.succ_mul, Nat.add_comm]
    exact (h a k).cons (ih (k + n))

end Numbered

namespace Layout

variable (name : Nat → NodeId)

/-! ### Roots -/

@[simp] theorem id_unitTree (source : SourceUnit) (k : Nat) :
    (unitTree name source k).id = name k := by
  cases source
  rfl

@[simp] theorem id_itemTree (item : SourceItem) (k : Nat) (scopes : List NodeId) :
    (itemTree name item k scopes).id = name k := by
  cases item with
  | unit nested => exact id_unitTree name nested k
  | _ => rfl

@[simp] theorem id_blockTree (source : SourceBlock) (region : NodeId) (branch : Branch)
    (k : Nat) : (blockTree name source region branch k).id = name k := by
  cases source
  rfl

/-- Every item becomes a node of its group. -/
theorem group?_itemTree (item : SourceItem) (k : Nat) (scopes : List NodeId) :
    (itemTree name item k scopes).node.content.group? = some item.bucket := by
  cases item with
  | unit nested => cases nested; rfl
  | declaration span decl => cases decl <;> rfl
  | _ => rfl

theorem group?_itemTrees {items : List SourceItem} {k q : Nat} :
    ∀ tree ∈ itemTrees name items k q,
      ∃ bucket, tree.node.content.group? = some bucket := by
  induction items generalizing k q with
  | nil => simp [itemTrees]
  | cons item rest ih =>
    intro tree h
    rcases List.mem_cons.mp h with rfl | h
    · exact ⟨_, group?_itemTree name item k _⟩
    · exact ih tree h

/-- Arranging the members of a scope neither drops nor repeats any. -/
theorem arrange_perm {members : List NodeTree} (scopes : List NodeTree)
    (h : ∀ tree ∈ members, ∃ bucket, tree.node.content.group? = some bucket) :
    (arrange members scopes).Perm (members ++ scopes) :=
  (Bucket.scopes_last_perm _ scopes).trans
    ((Bucket.grouped_perm (fun tree : NodeTree => tree.node.content.group?) h).append_right scopes)

theorem arrange_members_perm (items : List SourceItem) (k : Nat) :
    (arrange (members name items k) (scopes name items k)).Perm
      (members name items k ++ scopes name items k) :=
  arrange_perm _ (group?_itemTrees name)

/-! ### Headers -/

theorem numbered_refTrees (declared : List DeclaredPort) (refs : List PortRef) (k : Nat) :
    Numbered name (refTrees name declared refs k) k refs.length := by
  unfold refTrees
  rw [← Nat.mul_one refs.length]
  exact .spread (fun ref k => .leaf ref.span _) refs k

theorem numbered_sliceTrees (declared : List DeclaredPort) (previous : Option AnsiPort)
    (entry : HeaderEntry) (k : Nat) :
    Numbered name (sliceTrees name declared previous entry k) k entry.sliceCount := by
  cases entry with
  | ansi span entry => exact .leaf span _
  | named span outer refs =>
    cases refs with
    | none => exact .nil
    | some refs => exact numbered_refTrees name declared refs k
  | unnamed span refs => exact numbered_refTrees name declared refs k

theorem numbered_entryTrees (declared : List DeclaredPort) (previous : Option AnsiPort)
    (entries : List HeaderEntry) (k : Nat) :
    Numbered name (entryTrees name declared previous entries k) k (headerCost entries) := by
  induction entries generalizing previous k with
  | nil => exact .nil
  | cons entry rest ih =>
    have slices := numbered_sliceTrees name declared previous entry (k + 1)
    exact .cons (.root rfl slices) (ih (entry.carried previous) (k + entry.cost))

/-! ### Units and scopes -/

/-- The items of a scope, and then its generate scopes. -/
theorem numbered_scope {items : List SourceItem} {k : Nat}
    (hitems : Numbered name (members name items k) k (declareCosts items))
    (hscopes : Numbered name (scopes name items k) (k + declareCosts items)
      (expandCosts items)) :
    Numbered name (arrange (members name items k) (scopes name items k)) k
      (declareCosts items + expandCosts items) :=
  (hitems.append hscopes).perm (arrange_members_perm name items k).symm

mutual

theorem numbered_unitTree :
    ∀ (source : SourceUnit) (k : Nat), Numbered name [unitTree name source k] k source.cost
  | ⟨kind, unitName, nameSpan, span, header, items⟩, k => by
    have body := numbered_scope name (numbered_itemTrees items (k + 1) _)
      (numbered_scopeTrees items (k + 1) _)
    have ports : ∀ declared, Numbered name
        (entryTrees name declared none header (k + 1 + declareCosts items + expandCosts items))
        (k + 1 + (declareCosts items + expandCosts items)) (headerCost header) := by
      intro declared
      rw [← Nat.add_assoc]
      exact numbered_entryTrees name declared none header _
    rw [SourceUnit.cost, Nat.add_assoc 1]
    -- The ports come first in the tree, but have the last numbers.
    exact .root rfl ((body.append (ports _)).perm List.perm_append_comm)

theorem numbered_itemTree :
    ∀ (item : SourceItem) (k : Nat) (scopes : List NodeId),
      Numbered name [itemTree name item k scopes] k item.declareCost
  | .unit nested, k, _ => numbered_unitTree nested k
  | .declaration .., _, _ => .leaf ..
  | .inst .., _, _ => .leaf ..
  | .generateIf .., _, _ => .leaf ..
  | .generateFor .., _, _ => .leaf ..
  | .generateBlock .., _, _ => .leaf ..
  | .malformed _, _, _ => .leaf ..

theorem numbered_itemTrees :
    ∀ (items : List SourceItem) (k q : Nat),
      Numbered name (itemTrees name items k q) k (declareCosts items)
  | [], _, _ => .nil
  | item :: rest, k, _ => (numbered_itemTree item k _).cons (numbered_itemTrees rest _ _)

theorem numbered_itemScopes :
    ∀ (item : SourceItem) (region : NodeId) (q : Nat),
      Numbered name (itemScopes name item region q) q item.expandCost
  | .unit _, _, _ => .nil
  | .declaration .., _, _ => .nil
  | .inst .., _, _ => .nil
  | .generateIf _ _ none _ _, _, _ => .nil
  | .generateIf _ _ (some true) thenBlock _, region, q =>
    numbered_blockTree thenBlock region .thenBranch q
  | .generateIf _ _ (some false) _ none, _, _ => .nil
  | .generateIf _ _ (some false) _ (some elseBlock), region, q =>
    numbered_blockTree elseBlock region .elseBranch q
  | .generateFor _ _ _ none _, _, _ => .nil
  | .generateFor _ _ _ (some iterations) block, region, q =>
    .spread (fun value k => numbered_blockTree block region (.iteration value) k) iterations q
  | .generateBlock _ _ block, region, q => numbered_blockTree block region .block q
  | .malformed _, _, _ => .nil

theorem numbered_scopeTrees :
    ∀ (items : List SourceItem) (k q : Nat),
      Numbered name (scopeTrees name items k q) q (expandCosts items)
  | [], _, _ => .nil
  | item :: rest, _, q => (numbered_itemScopes item _ q).append (numbered_scopeTrees rest _ _)

theorem numbered_blockTree :
    ∀ (source : SourceBlock) (region : NodeId) (branch : Branch) (k : Nat),
      Numbered name [blockTree name source region branch k] k source.cost
  | ⟨_, _, items⟩, _, _, k =>
    .root rfl (numbered_scope name (numbered_itemTrees items (k + 1) _)
      (numbered_scopeTrees items (k + 1) _))

end

/-- The numbers below a unit are those after the unit's own. -/
theorem numbered_owned (source : SourceUnit) (k : Nat) :
    ∃ n, source.cost = 1 + n ∧ Numbered name (unitTree name source k).owned (k + 1) n := by
  obtain ⟨n, hn⟩ : ∃ n, source.cost = 1 + n :=
    ⟨source.cost - 1, by have := source.cost_pos; omega⟩
  have numbered := numbered_unitTree name source k
  rw [hn] at numbered
  exact ⟨n, hn, numbered.owned (id_unitTree name source k)⟩

/-- All that is in a scope. -/
theorem numbered_arrange (items : List SourceItem) (k : Nat) :
    Numbered name (arrange (members name items k) (scopes name items k)) k
      (declareCosts items + expandCosts items) :=
  numbered_scope name (numbered_itemTrees name items k _) (numbered_scopeTrees name items k _)

end Layout

end DesignTree
