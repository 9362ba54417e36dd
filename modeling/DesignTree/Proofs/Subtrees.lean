import DesignTree.Proofs.Assembly.Session
import DesignTree.Proofs.Parts
/-!
# DesignTree.Proofs.Subtrees

What is below a unit or a generate scope has consecutive numbers.

A scope draws the numbers of its items first and those of the blocks in it next; a unit goes on
with its header. Whatever is nested in it is complete before another number is drawn outside. So a
hierarchy has the first of the numbers that its part of the source costs, and what can be reached
from it has the others. Two such ranges are nested or disjoint, and a number tells whether its node
is inside (`subtrees_have_consecutive_numbers`).
-/

namespace DesignTree

open NodeTree Layout

/-- The numbers that a part takes. -/
def SourcePart.cost : SourcePart → Nat
  | unit source => source.cost
  | block source => source.cost

namespace ElaboratedUnit

/-- The node is a unit or a generate scope, and is in the unit at some depth. -/
def Hierarchy (u : ElaboratedUnit) (node : Node) : Prop :=
  u.get? node.id = some node ∧ ∃ body, node.content.body? = some body

/-- The number is the node's own, or can be reached from the node. -/
def Within (u : ElaboratedUnit) (node : Node) (id : NodeId) : Prop :=
  id = node.id ∨ u.nodes.Reaches node.content.children id

/-- The node and all that can be reached from it have the `n` numbers from the node's own on. -/
structure Spans (u : ElaboratedUnit) (node : Node) (n : Nat) : Prop where
  within_iff : ∀ id, u.Within node id ↔ node.id.val ≤ id.val ∧ id.val < node.id.val + n
  found : ∀ id, u.Within node id → ∃ below, u.get? id = some below

variable {u : ElaboratedUnit} {x y : Node}

/-- What is inside something inside is inside. -/
theorem Within.trans (found : u.nodes.get? y.id = some y)
    (inside : u.nodes.Reaches x.content.children y.id) {id : NodeId} (h : u.Within y id) :
    u.Within x id := by
  rcases h with rfl | ⟨child, hchild, way⟩
  · exact .inr inside
  · obtain ⟨top, htop, down⟩ := inside
    rw [← NodeIndex.childrenAt_of_get? found] at hchild
    exact .inr ⟨top, htop, down.trans (.head hchild way)⟩

end ElaboratedUnit

/-- The layout of a part has consecutive numbers. -/
theorem Layout.Lays.numbered {name : Nat → NodeId} {part : SourcePart} {tree : NodeTree}
    (h : Lays name part tree) :
    ∃ k, tree.id = name k ∧ Numbered name [tree] k part.cost := by
  cases h with
  | unit => exact ⟨_, id_unitTree .., numbered_unitTree ..⟩
  | block => exact ⟨_, id_blockTree .., numbered_blockTree ..⟩

namespace LaidOut

variable {source : SourceUnit} {k : Nat} {u : ElaboratedUnit}

/-- What is inside the root of a tree is in the tree. -/
theorem within_iff {name : Nat → NodeId} (laid : LaidOut name source k u) {tree : NodeTree}
    (htree : tree ∈ subtreesOf [unitTree name source k]) (id : NodeId) :
    u.Within tree.node id ↔ id ∈ (nodesOf [tree]).map (·.id) := by
  have linked := linked_unitTree name source k
  have below := NodeIndex.reaches_map_id_iff (linked.owned htree) (laid.resolves htree)
  rw [← linked tree htree] at below
  rw [ElaboratedUnit.Within, below, nodesOf_singleton, nodes_eq, List.map_cons, List.mem_cons,
    lowerNodes]

/-- A part becomes a node with as many numbers as the part takes. -/
theorem spans (laid : LaidOut NodeId.mk source k u) (sound : source.audit.fault = none)
    {part : SourcePart} {node : Node} (becomes : u.Becomes source part node) :
    u.Spans node part.cost := by
  obtain ⟨tree, htree, lays, rfl⟩ := laid.exists_lays sound becomes
  obtain ⟨i, hid, numbered⟩ := lays.numbered
  have first : tree.node.id.val = i := congrArg NodeId.val hid
  refine ⟨fun id => ?_, fun id inside => ?_⟩
  · rw [laid.within_iff htree, numbered.mem_iff_val, first]
  · rw [laid.within_iff htree, nodesOf_singleton] at inside
    obtain ⟨below, hbelow, rfl⟩ := List.mem_map.mp inside
    have sub := ((subtrees_sublist _ htree).map node).subset hbelow
    exact ⟨below, (laid.get?_eq_some_iff IdCounter.schedule.name_injective).mpr ⟨sub, rfl⟩⟩

/-- A node in a unit that is not the first one is in the index. -/
theorem found_of_lt (laid : LaidOut NodeId.mk source k u) {x y : Node}
    (hx : u.get? x.id = some x) (hy : u.get? y.id = some y) (later : x.id.val < y.id.val) :
    u.nodes.get? y.id = some y := by
  have injective := IdCounter.schedule.name_injective
  rcases (ElaboratedUnit.get?_eq_some_iff (laid.own injective)).mp hy with found | ⟨rfl, -⟩
  · exact found
  · obtain ⟨i, first, -, hi⟩ := laid.exists_position_of_get? injective hx
    have own : u.node.id.val = k := congrArg NodeId.val laid.id_eq
    have other : x.id.val = i := congrArg NodeId.val hi
    omega

/-- Of two nodes that have consecutive numbers with what is below them, the later one is inside the
other with all that is below it, or nothing of it is. -/
theorem inside_or_disjoint (laid : LaidOut NodeId.mk source k u) {x y : Node} {n m : Nat}
    (hx : u.get? x.id = some x) (hy : u.get? y.id = some y) (spansx : u.Spans x n)
    (spansy : u.Spans y m) (before : x.id.val ≤ y.id.val) :
    (∀ id, u.Within y id → u.Within x id) ∨ ∀ id, ¬ (u.Within x id ∧ u.Within y id) := by
  rcases Nat.eq_or_lt_of_le before with same | later
  · obtain rfl : x = y := by
      rw [show x.id = y.id from congrArg NodeId.mk same, hy] at hx
      exact (Option.some.inj hx).symm
    exact .inl fun _ h => h
  by_cases inside : u.Within x y.id
  · have below := inside.resolve_left fun same => absurd (congrArg NodeId.val same) (by omega)
    exact .inl fun id => .trans (laid.found_of_lt hx hy later) below
  · refine .inr fun id both => inside ?_
    rw [spansx.within_iff, spansy.within_iff] at both
    rw [spansx.within_iff]
    omega

end LaidOut

/-- A unit or generate scope in a unit that was elaborated has, with all that can be reached from
it, the numbers from its own on, as many as its part of the source costs, and no others; and each of
them is the number of a node. Any two such hierarchies are nested or disjoint. -/
theorem subtrees_have_consecutive_numbers {source : SourceUnit} {ids left : IdCounter}
    {u : ElaboratedUnit} (h : source.elaborate ids = (.ok u, left)) :
    (∀ node, u.Hierarchy node →
      ∃ part, u.Becomes source part node ∧ 0 < part.cost ∧ u.Spans node part.cost) ∧
    ∀ x y, u.Hierarchy x → u.Hierarchy y →
      (∀ id, u.Within x id → u.Within y id) ∨ (∀ id, u.Within y id → u.Within x id) ∨
        ∀ id, ¬ (u.Within x id ∧ u.Within y id) := by
  obtain ⟨laid, -, -, sound⟩ := SourceUnit.laidOut h
  have spans : ∀ node, u.Hierarchy node →
      ∃ part, u.Becomes source part node ∧ 0 < part.cost ∧ u.Spans node part.cost := by
    rintro node ⟨hnode, body, hbody⟩
    have own := laid.own IdCounter.schedule.name_injective
    have here : node = u.node ∨ ∃ id, u.nodes.get? id = some node := by
      rcases (ElaboratedUnit.get?_eq_some_iff own).mp hnode with found | ⟨whole, -⟩
      · exact .inr ⟨node.id, found⟩
      · exact .inl whole
    obtain ⟨part, becomes⟩ := SourceUnit.ElaboratesTo.exists_becomes (.alone h) here hbody
    have spans := laid.spans sound becomes
    have nonempty := (spans.within_iff node.id).mp (.inl rfl)
    exact ⟨part, becomes, by omega, spans⟩
  refine ⟨spans, fun x y hx hy => ?_⟩
  obtain ⟨_, -, -, spansx⟩ := spans x hx
  obtain ⟨_, -, -, spansy⟩ := spans y hy
  rcases Nat.le_total x.id.val y.id.val with before | after
  · exact .inr (laid.inside_or_disjoint hx.1 hy.1 spansx spansy before)
  · rcases laid.inside_or_disjoint hy.1 hx.1 spansy spansx after with inside | apart
    · exact .inl inside
    · exact .inr (.inr fun id both => apart id ⟨both.2, both.1⟩)

/-- A loop around a module with a port, beside a block. The module in the first iteration and the
one in the second have numbers of their own. -/
theorem subtrees_of_nested_module :
    let nested : SourceUnit := ⟨.module, .empty, .dummy, .dummy, [.unnamed .dummy []], []⟩
    let loop : SourceItem :=
      .generateFor .dummy none .empty (some [4, 5]) ⟨.dummy, none, [.unit nested]⟩
    let block : SourceItem := .generateBlock .dummy none ⟨.dummy, none, []⟩
    let source : SourceUnit := ⟨.module, .empty, .dummy, .dummy, [], [loop, block]⟩
    ∃ u left scope first second, source.elaborate IdCounter.fresh = (.ok u, left) ∧
      u.get? ⟨4⟩ = some scope ∧ u.get? ⟨5⟩ = some first ∧ u.get? ⟨8⟩ = some second ∧
      (∃ n, u.Spans scope n) ∧
      ((∀ id, u.Within first id → u.Within second id) ∨
        (∀ id, u.Within second id → u.Within first id) ∨
        ∀ id, ¬ (u.Within first id ∧ u.Within second id)) := by
  intro nested loop block source
  have accepted : (source.elaborate IdCounter.fresh).1.isOk = true := by decide +kernel
  have bodies : ∀ id ∈ [NodeId.mk 4, ⟨5⟩, ⟨8⟩],
      (source.elaborate IdCounter.fresh).1.toOption.map (fun u =>
        (u.get? id).map fun node => (node.id, node.content.body?.isSome)) =
      some (some (id, true)) := by decide +kernel
  obtain ⟨u, left, h⟩ := exists_of_isOk accepted
  rw [h] at bodies
  have hierarchies : ∀ id ∈ [NodeId.mk 4, ⟨5⟩, ⟨8⟩],
      ∃ node, u.get? id = some node ∧ u.Hierarchy node := by
    intro id hid
    obtain ⟨node, found, shape⟩ := Option.map_eq_some_iff.mp (Option.some.inj (bodies id hid))
    injection shape with own body
    exact ⟨node, found, own ▸ found, Option.isSome_iff_exists.mp body⟩
  obtain ⟨scope, hscope, isScope⟩ := hierarchies ⟨4⟩ (by decide)
  obtain ⟨first, hfirst, isFirst⟩ := hierarchies ⟨5⟩ (by decide)
  obtain ⟨second, hsecond, isSecond⟩ := hierarchies ⟨8⟩ (by decide)
  obtain ⟨spans, apart⟩ := subtrees_have_consecutive_numbers h
  obtain ⟨part, -, -, spans⟩ := spans scope isScope
  exact ⟨u, left, scope, first, second, h, hscope, hfirst, hsecond, ⟨_, spans⟩,
    apart first second isFirst isSecond⟩

end DesignTree
