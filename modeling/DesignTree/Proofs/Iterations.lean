import DesignTree.Proofs.Layout.Renumbered
import DesignTree.Proofs.Layout.Shifted
import DesignTree.Proofs.Parts
/-!
# DesignTree.Proofs.Iterations

The iterations of a loop region.

Each iteration elaborates the same block again, on the numbers that come next. So the scope of a
later one, with all below it, is that of an earlier one with its numbers moved along by one
distance, and no link in the one leads into the other (`NodeIndex.Copied`). For layouts this is the
block laid out at a later position (`Layout.mapIds_blockTree_eq`); the rest is to find the scopes of
a marker among the trees of its unit (`LaidOut.exists_loop`).
-/

namespace DesignTree

open NodeTree Layout

/-- The number that is by a distance further on. -/
def NodeId.shift (distance : Nat) (id : NodeId) : NodeId := ⟨id.val + distance⟩

/-- Moves the given numbers along by a distance, and no others. -/
def shiftWithin (numbers : List NodeId) (distance : Nat) (id : NodeId) : NodeId :=
  if id ∈ numbers then id.shift distance else id

/-- The scopes of two iterations of a region are copies of each other: `numbers` are those of the
first scope and of all below it, and those of the second are by `distance` further on. -/
structure NodeIndex.Copied (index : NodeIndex) (region first second : NodeId) (value other : Int64)
    (numbers : List NodeId) (distance : Nat) : Prop where
  second_eq : second = first.shift distance
  walk_first : index.walk [first] = .ok numbers
  walk_second : index.walk [second] = .ok (numbers.map (shiftWithin numbers distance))
  /-- No number is reached twice, neither from one scope nor from both. -/
  nodup : (numbers ++ numbers.map (shiftWithin numbers distance)).Nodup
  /-- The scopes belong to the same region, each to its own iteration. -/
  tops : ∃ span scope, scope.region = region ∧ scope.branch = .iteration value ∧
    index.get? first = some ⟨first, span, .generateScope scope⟩ ∧
    index.get? second = some (Node.mapIds (shiftWithin numbers distance)
      ⟨first, span, .generateScope { scope with branch := .iteration other }⟩) ∧
    shiftWithin numbers distance region = region ∧
    scope.body.mapIds (shiftWithin numbers distance) = scope.body.mapIds (NodeId.shift distance)
  /-- Every node below the first scope has a copy, which differs in the numbers alone. -/
  lower : ∀ id ∈ numbers, id ≠ first → ∃ node, index.get? id = some node ∧
    index.get? (shiftWithin numbers distance id) =
      some (Node.mapIds (shiftWithin numbers distance) node) ∧
    -- The copy has no link of the original: every number in it was moved.
    Node.mapIds (shiftWithin numbers distance) node = Node.mapIds (NodeId.shift distance) node

namespace Layout

/-! ### A block at another position -/

section Moved

variable {block : SourceBlock} {region : NodeId} {branch : Branch} {k l : Nat}
  {f g : NodeId → NodeId}

/-- A block at another position is the block with its numbers moved. -/
theorem mapIds_blockTree_eq (hf : ∀ i < block.cost, f ⟨k + i⟩ = ⟨l + i⟩) :
    (blockTree NodeId.mk block region branch k).mapIds f =
      blockTree NodeId.mk block (f region) branch l := by
  rw [mapIds_blockTree]
  exact blockTree_eq_of_agree block (f region) branch hf

/-- The body of a scope and what is below it do not tell the scope's region and branch. -/
theorem inside_blockTree_eq (hf : ∀ i < block.cost, f ⟨k + i⟩ = ⟨l + i⟩) (region' : NodeId)
    (other : Branch) :
    (blockTree NodeId.mk block region' other l).node.content.body? =
        (blockTree NodeId.mk block region branch k).node.content.body?.map (Body.mapIds f) ∧
      nodesOf (blockTree NodeId.mk block region' other l).owned =
        (nodesOf (blockTree NodeId.mk block region branch k).owned).map (Node.mapIds f) := by
  have moved : (blockTree NodeId.mk block region branch k).mapIds f = _ := mapIds_blockTree_eq hf
  rw [blockTree_eq, blockTree_eq, mapIds_mk] at moved
  rw [← nodesOf_map_mapIds, blockTree_eq, blockTree_eq]
  exact ⟨(congrArg (·.node.content.body?) moved).symm, (congrArg (nodesOf ·.owned) moved).symm⟩

/-- Functions that move the numbers of a block alike change everything inside alike. -/
theorem mapIds_inside_congr (region : NodeId) (branch : Branch)
    (hf : ∀ i < block.cost, f ⟨k + i⟩ = ⟨l + i⟩)
    (hg : ∀ i < block.cost, g ⟨k + i⟩ = ⟨l + i⟩) :
    (blockTree NodeId.mk block region branch k).node.content.body?.map (Body.mapIds f) =
        (blockTree NodeId.mk block region branch k).node.content.body?.map (Body.mapIds g) ∧
      ∀ node ∈ nodesOf (blockTree NodeId.mk block region branch k).owned,
        Node.mapIds f node = Node.mapIds g node := by
  obtain ⟨body, lower⟩ := inside_blockTree_eq hf region branch
  obtain ⟨body', lower'⟩ := inside_blockTree_eq hg region branch
  exact ⟨body.symm.trans body', List.map_inj_left.mp (lower.symm.trans lower')⟩

end Moved

/-! ### The numbers of a scope -/

/-- The numbers of the scope that a block becomes and of all below it. -/
def scopeIds (block : SourceBlock) (region : NodeId) (branch : Branch) (k : Nat) : List NodeId :=
  (nodesOf [blockTree NodeId.mk block region branch k]).map (·.id)

section ScopeIds

variable (block : SourceBlock) (region : NodeId) (branch other : Branch) (k : Nat)

theorem scopeIds_eq : scopeIds block region branch k =
    ⟨k⟩ :: (nodesOf (blockTree NodeId.mk block region branch k).owned).map (·.id) := by
  rw [scopeIds, nodesOf_singleton, nodes_eq, List.map_cons]
  exact congrArg (· :: _) (id_blockTree NodeId.mk block region branch k)

theorem scopeIds_congr : scopeIds block region branch k = scopeIds block region other k := by
  rw [scopeIds_eq, scopeIds_eq, blockTree_eq, blockTree_eq]

theorem mem_scopeIds (id : NodeId) :
    id ∈ scopeIds block region branch k ↔ k ≤ id.val ∧ id.val < k + block.cost := by
  rw [scopeIds, (numbered_blockTree NodeId.mk block region branch k).mem_iff, List.mem_map]
  constructor
  · intro ⟨i, hi, same⟩
    rw [← same]
    exact List.mem_range'_1.mp hi
  · intro h
    exact ⟨id.val, List.mem_range'_1.mpr h, rfl⟩

theorem nodup_scopeIds : (scopeIds block region branch k).Nodup :=
  (numbered_blockTree NodeId.mk block region branch k).nodup IdCounter.schedule.name_injective

theorem walk_eq_scopeIds {index : NodeIndex}
    (resolves : index.Resolves [blockTree NodeId.mk block region branch k]) :
    index.walk [⟨k⟩] = .ok (scopeIds block region branch k) := by
  have walk := NodeIndex.walk_map_id (linked_blockTree NodeId.mk block region branch k) resolves
  rwa [List.map_singleton, id_blockTree] at walk

end ScopeIds

/-! ### Two iterations -/

section Copies

variable {block : SourceBlock} {region : NodeId} {branch other : Branch} {k distance : Nat}

theorem shiftWithin_inside : ∀ i < block.cost,
    shiftWithin (scopeIds block region branch k) distance ⟨k + i⟩ = ⟨k + distance + i⟩ := by
  intro i hi
  have taken : (⟨k + i⟩ : NodeId) ∈ scopeIds block region branch k :=
    (mem_scopeIds ..).mpr ⟨Nat.le_add_right k i, Nat.add_lt_add_left hi k⟩
  rw [shiftWithin, if_pos taken, NodeId.shift, Nat.add_right_comm]

/-- The scope's own region is before it, and stays. -/
theorem shiftWithin_before {id : NodeId} (before : id.val < k) :
    shiftWithin (scopeIds block region branch k) distance id = id :=
  if_neg fun h => Nat.not_lt.mpr ((mem_scopeIds ..).mp h).1 before

theorem blockTree_add_eq (before : region.val < k) :
    blockTree NodeId.mk block region other (k + distance) =
      (blockTree NodeId.mk block region other k).mapIds
        (shiftWithin (scopeIds block region branch k) distance) := by
  rw [mapIds_blockTree_eq shiftWithin_inside, shiftWithin_before before]

theorem scopeIds_add_eq (branch other : Branch) (before : region.val < k) :
    scopeIds block region other (k + distance) = (scopeIds block region branch k).map
      (shiftWithin (scopeIds block region branch k) distance) := by
  rw [scopeIds, blockTree_add_eq before, ← List.map_singleton, nodesOf_map_mapIds, List.map_map]
  rw [scopeIds_congr block region branch other, scopeIds, List.map_map]
  rfl

/-- Two layouts of a block for iterations of a region, the later one beyond the earlier one. -/
theorem copied_blockTree {index : NodeIndex} {value other : Int64} (before : region.val < k)
    (beyond : block.cost ≤ distance)
    (here : index.Resolves [blockTree NodeId.mk block region (.iteration value) k])
    (there : index.Resolves [blockTree NodeId.mk block region (.iteration other) (k + distance)]) :
    index.Copied region ⟨k⟩ ⟨k + distance⟩ value other
      (scopeIds block region (.iteration value) k) distance := by
  have copies :=
    @scopeIds_add_eq block region k distance (.iteration value) (.iteration other) before
  have moves := @shiftWithin_inside block region (.iteration value) k distance
  -- Moving all numbers, whichever they are, does the same to what is inside.
  have all : ∀ i < block.cost, NodeId.shift distance ⟨k + i⟩ = ⟨k + distance + i⟩ :=
    fun i _ => congrArg NodeId.mk (Nat.add_right_comm k i distance)
  obtain ⟨body, nodes⟩ := mapIds_inside_congr region (.iteration value) moves all
  refine ⟨rfl, ?_, ?_, ?_, ?_, ?_⟩
  · exact walk_eq_scopeIds _ _ _ _ here
  · rw [← copies]
    exact walk_eq_scopeIds _ _ _ _ there
  · rw [← copies]
    refine List.nodup_append.mpr ⟨nodup_scopeIds .., nodup_scopeIds .., ?_⟩
    intro id hid copy hcopy same
    have first := (mem_scopeIds ..).mp hid
    have second := (mem_scopeIds ..).mp (same ▸ hcopy)
    omega
  · have top := here.head
    have copy := there.head
    rw [id_blockTree, blockTree_eq] at top
    rw [id_blockTree, blockTree_add_eq before, node_mapIds, blockTree_eq] at copy
    rw [blockTree_eq] at body
    exact ⟨_, _, rfl, rfl, top, copy, shiftWithin_before before, Option.some.inj body⟩
  · intro id hid lower
    rw [scopeIds_eq] at hid
    obtain ⟨node, hnode, rfl⟩ := List.mem_map.mp ((List.mem_cons.mp hid).resolve_left lower)
    refine ⟨node, here.below node hnode, ?_, nodes node hnode⟩
    refine there.below (Node.mapIds (shiftWithin _ distance) node) ?_
    rw [(inside_blockTree_eq moves region _).2]
    exact List.mem_map_of_mem hnode

end Copies

/-! ### The scopes of a loop -/

theorem getElem?_spread {α β : Type} {cost : Nat} {make : α → Nat → β} (list : List α) (k i : Nat) :
    (spread cost make list k)[i]? = list[i]?.map fun a => make a (k + i * cost) := by
  induction list generalizing k i with
  | nil => rfl
  | cons a rest ih =>
    cases i with
    | zero => simp [spread]
    | succ i =>
      have position : k + cost + i * cost = k + (i + 1) * cost := by
        rw [Nat.succ_mul, Nat.add_assoc, Nat.add_comm cost]
      rw [spread, List.getElem?_cons_succ, List.getElem?_cons_succ, ih, position]

theorem length_spread {α β : Type} {cost : Nat} {make : α → Nat → β} (list : List α) (k : Nat) :
    (spread cost make list k).length = list.length := by
  induction list generalizing k with
  | nil => rfl
  | cons a rest ih => rw [spread, List.length_cons, List.length_cons, ih]

/-- The scopes that were made for the iterations of a loop. -/
def iterationTrees (block : SourceBlock) (region : NodeId) (iterations : List Int64) (q : Nat) :
    List NodeTree :=
  spread block.cost (fun value => blockTree NodeId.mk block region (.iteration value)) iterations q

theorem getElem?_iterationTrees (block : SourceBlock) (region : NodeId) {iterations : List Int64}
    (q : Nat) {i : Nat} {value : Int64} (h : iterations[i]? = some value) :
    (iterationTrees block region iterations q)[i]? =
      some (blockTree NodeId.mk block region (.iteration value) (q + i * block.cost)) := by
  rw [iterationTrees, getElem?_spread, h]
  rfl

/-- The marker of a loop lists the scopes of its iterations. -/
theorem exists_iterationTrees {item : SourceItem} {i j : Nat} {region : ForRegion}
    (before : i < j) (loop : (placedItem NodeId.mk item i j).node.content = .generateFor region) :
    ∃ block q, i < q ∧
      region.scopes = (iterationTrees block ⟨i⟩ region.iterations q).map NodeTree.id ∧
      iterationTrees block ⟨i⟩ region.iterations q ⊆ itemScopes NodeId.mk item ⟨i⟩ j := by
  cases item with
  | generateFor span label genvar iterations block =>
    cases iterations with
    | none =>
      cases loop
      exact ⟨block, j, before, rfl, List.nil_subset _⟩
    | some iterations =>
      cases loop
      exact ⟨block, j, before, rfl, List.Subset.refl _⟩
  | unit nested =>
    cases nested
    cases loop
  | _ => cases loop

theorem Outer.not_loop {tree : NodeTree} (h : Outer tree) {region : ForRegion}
    (loop : tree.node.content = .generateFor region) : False := by
  rw [Outer, loop] at h
  cases h.1

end Layout

/-- A loop of a unit, with the scopes of its iterations. -/
theorem LaidOut.exists_loop {source : SourceUnit} {k : Nat} {u : ElaboratedUnit}
    (h : LaidOut NodeId.mk source k u) (sound : source.audit.fault = none) {id : NodeId}
    {node : Node} {region : ForRegion} (found : u.nodes.get? id = some node)
    (loop : node.content = .generateFor region) :
    ∃ block q, id.val < q ∧
      region.scopes = (iterationTrees block id region.iterations q).map NodeTree.id ∧
      u.nodes.Resolves (iterationTrees block id region.iterations q) := by
  have hid := h.adds.id_eq found
  obtain ⟨tree, htree, rfl⟩ := h.exists_tree (.inr ⟨id, found⟩)
  -- The whole unit is no marker, so the marker is among what some other tree owns.
  rcases exists_owner htree with root | ⟨owner, howner, hsub⟩
  · rw [List.mem_singleton.mp root, h.node_eq] at loop
    cases loop
  cases sourced_unitTree k sound owner howner with
  | outer all =>
    have below := all.owned (head_mem_subtreesOf owner [])
    exact ((below tree (mem_subtreesOf_of_mem hsub)).not_loop loop).elim
  | leaf _ none =>
    rw [none] at hsub
    cases hsub
  | @part part _ lays =>
    obtain ⟨start, ports, assembled⟩ := lays.exists_assembled
    rcases assembled.mem_owned_iff.mp hsub with outer | member | scope
    · exact ((assembled.outer tree (mem_subtreesOf_of_mem outer)).not_loop loop).elim
    · obtain ⟨item, -, i, j, rfl, made, before, after⟩ := exists_item_of_mem member
      have own : (⟨i⟩ : NodeId) = id := (id_itemTree NodeId.mk item i _).symm.trans hid
      subst own
      obtain ⟨block, q, position, listed, among⟩ :=
        exists_iterationTrees (Nat.lt_of_lt_of_le before after) loop
      refine ⟨block, q, position, listed, (h.resolves howner).subset fun scope hscope => ?_⟩
      exact assembled.mem_owned_iff.mpr (.inr (.inr (made (among hscope))))
    · obtain ⟨-, inner, -, -, hinner⟩ :=
        exists_related_of_mem (lays_scopes (part.sound_items lays.sound).2) scope
      cases hinner with
      | unit =>
        rw [unitTree_eq] at loop
        cases loop
      | block =>
        rw [blockTree_eq] at loop
        cases loop

/-- The iterations of every loop in a unit that was elaborated are copies of each other. There is a
scope for each, in order; and of any two, the later one is the earlier one with all its numbers
moved along by one distance. -/
theorem iterations_are_copies {source : SourceUnit} {ids left : IdCounter} {u : ElaboratedUnit}
    (h : source.elaborate ids = (.ok u, left)) :
    ∀ id node region, u.nodes.get? id = some node → node.content = .generateFor region →
      region.scopes.length = region.iterations.length ∧
      ∀ (i j : Nat) (first second : NodeId) (value other : Int64), i < j →
        region.scopes[i]? = some first → region.scopes[j]? = some second →
        region.iterations[i]? = some value → region.iterations[j]? = some other →
        ∃ numbers distance, u.nodes.Copied id first second value other numbers distance := by
  intro id node region found loop
  obtain ⟨laid, -, -, sound⟩ := SourceUnit.laidOut h
  obtain ⟨block, q, position, listed, resolves⟩ := laid.exists_loop sound found loop
  refine ⟨?_, fun i j first second value other before hfirst hsecond hvalue hother => ?_⟩
  · rw [listed, List.length_map, iterationTrees, length_spread]
  obtain ⟨m, rfl⟩ := Nat.exists_eq_add_of_lt before
  have here := getElem?_iterationTrees block id q hvalue
  have there := getElem?_iterationTrees block id q hother
  have apart : q + (i + m + 1) * block.cost = q + i * block.cost + (m + 1) * block.cost := by
    rw [Nat.add_assoc i, Nat.add_mul, Nat.add_assoc]
  rw [apart] at there
  rw [listed, List.getElem?_map, here, Option.map_some, id_blockTree] at hfirst
  rw [listed, List.getElem?_map, there, Option.map_some, id_blockTree] at hsecond
  cases hfirst
  cases hsecond
  have beyond : block.cost ≤ (m + 1) * block.cost := Nat.le_mul_of_pos_left _ m.succ_pos
  have outside : id.val < q + i * block.cost := Nat.lt_of_lt_of_le position (Nat.le_add_right ..)
  exact ⟨_, _, copied_blockTree outside beyond (resolves.singleton (List.mem_of_getElem? here))
    (resolves.singleton (List.mem_of_getElem? there))⟩

/-- A loop around a loop around a module whose header refers to its own declaration. Each of the two
outer iterations takes ten numbers. -/
theorem iterations_of_nested_loops :
    let decl : SourceItem :=
      .declaration .dummy (.port ⟨.input, .net .wire, .implicit .dummy, [⟨.dummy, .empty, none⟩]⟩)
    let nested : SourceUnit :=
      ⟨.module, .empty, .dummy, .dummy, [.unnamed .dummy [⟨.dummy, .empty, []⟩]], [decl]⟩
    let inside : SourceItem := .generateFor .dummy none .empty (some [7, 8])
      ⟨.dummy, none, [.declaration .dummy (.proc .final)]⟩
    let loop : SourceItem :=
      .generateFor .dummy none .empty (some [4, 5]) ⟨.dummy, none, [.unit nested, inside]⟩
    let source : SourceUnit := ⟨.module, .empty, .dummy, .dummy, [], [loop]⟩
    let region : ForRegion := ⟨none, .empty, [4, 5], [⟨3⟩, ⟨13⟩]⟩
    ∃ u left node, source.elaborate IdCounter.fresh = (.ok u, left) ∧
      u.nodes.get? ⟨2⟩ = some node ∧ node.content = .generateFor region ∧
      ∃ numbers distance, u.nodes.Copied ⟨2⟩ ⟨3⟩ ⟨13⟩ 4 5 numbers distance := by
  intro decl nested inside loop source region
  have accepted : (source.elaborate IdCounter.fresh).1.isOk = true := by decide +kernel
  have marker : (source.elaborate IdCounter.fresh).1.toOption.map (fun u =>
      (u.nodes.get? ⟨2⟩).map (·.content)) = some (some (.generateFor region)) := by decide +kernel
  obtain ⟨u, left, h⟩ := exists_of_isOk accepted
  rw [h] at marker
  obtain ⟨node, found, content⟩ := Option.map_eq_some_iff.mp (Option.some.inj marker)
  obtain ⟨-, copies⟩ := iterations_are_copies h ⟨2⟩ node region found content
  exact ⟨u, left, node, h, found, content, copies 0 1 ⟨3⟩ ⟨13⟩ 4 5 Nat.one_pos rfl rfl rfl rfl⟩

end DesignTree
