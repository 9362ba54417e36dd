import DesignTree.Index.Basic
import Mathlib.Data.List.Basic
/-!
# DesignTree.Proofs.Index

What an index gains. `Adds before made after` says that `after` holds the entries of `before`
and the given nodes, each under its own number, and nothing else. It does not depend on the order
in which the nodes came in (`Adds.perm`), composes along a run (`Adds.append`), and is what
registering and merging amount to whenever they succeed.
-/

namespace DesignTree

/-- A map made of a list without a repeated key has the entries of the list. -/
theorem getElem?_ofList_eq_some_iff {α β : Type} [DecidableEq α] [Ord α] [Std.TransOrd α]
    [Std.LawfulEqOrd α] {entries : List (α × β)} (distinct : (entries.map (·.1)).Nodup) {key : α}
    {b : β} :
    (Std.ExtTreeMap.ofList entries : Std.ExtTreeMap α β)[key]? = some b ↔
      (key, b) ∈ entries := by
  have found : ∀ {key b}, (key, b) ∈ entries →
      (Std.ExtTreeMap.ofList entries : Std.ExtTreeMap α β)[key]? = some b := by
    intro key b h
    refine Std.ExtTreeMap.getElem?_ofList_of_mem Std.ReflOrd.compare_self ?_ h
    refine (List.pairwise_map.mp distinct).imp fun hne heq => hne ?_
    exact Std.LawfulEqOrd.eq_of_compare heq
  refine ⟨fun h => ?_, found⟩
  cases hkey : (entries.map (·.1)).contains key with
  | false =>
    rw [Std.ExtTreeMap.getElem?_ofList_of_contains_eq_false hkey] at h
    cases h
  | true =>
    obtain ⟨⟨key, value⟩, hmem, rfl⟩ := List.mem_map.mp (List.contains_iff_mem.mp hkey)
    rw [found hmem] at h
    cases h
    exact hmem

namespace NodeIndex

/-- The index `after` is `before` with the given nodes added under their own numbers. -/
def Adds (before : NodeIndex) (made : List Node) (after : NodeIndex) : Prop :=
  ∀ id node, after.get? id = some node ↔
    before.get? id = some node ∨ node ∈ made ∧ node.id = id

@[simp] theorem get?_empty (id : NodeId) : empty.get? id = none := Std.ExtTreeMap.getElem?_empty

theorem contains_eq_false {index : NodeIndex} {id : NodeId} :
    index.contains id = false ↔ index.get? id = none := by
  rw [contains, get?, Std.ExtTreeMap.contains_eq_isSome_getElem?, Option.isSome_eq_false_iff,
    Option.isNone_iff_eq_none]

theorem contains_eq_true {index : NodeIndex} {id : NodeId} :
    index.contains id = true ↔ ∃ node, index.get? id = some node := by
  rw [contains, get?, Std.ExtTreeMap.contains_eq_isSome_getElem?, Option.isSome_iff_exists]

theorem lookup_eq_ok_iff {index : NodeIndex} {id : NodeId} {node : Node} :
    index.lookup id = .ok node ↔ index.get? id = some node := by
  rw [lookup]
  cases index.get? id <;> simp

theorem mem_ids {index : NodeIndex} {id : NodeId} :
    id ∈ index.ids ↔ ∃ node, index.get? id = some node := by
  rw [ids, Std.ExtTreeMap.mem_keys, ← Std.ExtTreeMap.contains_iff_mem]
  exact contains_eq_true

theorem nodup_ids (index : NodeIndex) : index.ids.Nodup := by
  refine Std.ExtTreeMap.distinct_keys.imp fun {a b} hne heq => ?_
  subst heq
  exact hne Std.ReflOrd.compare_self

/-- Indexes with the same entries are equal. -/
theorem ext_get? {index other : NodeIndex} (h : ∀ id, index.get? id = other.get? id) :
    index = other := by
  obtain ⟨nodes⟩ := index
  obtain ⟨others⟩ := other
  exact congrArg NodeIndex.mk (Std.ExtTreeMap.ext_getElem? h)

/-- Indexes are compared entry by entry. -/
instance : DecidableEq NodeIndex := fun index other =>
  decidable_of_iff (index.nodes.toList = other.nodes.toList) <| by
    rw [Std.ExtTreeMap.toList_inj]
    exact ⟨fun h => congrArg NodeIndex.mk h, fun h => congrArg nodes h⟩

/-- What is found once an entry was written. -/
theorem get?_insert (index : NodeIndex) (key id : NodeId) (node : Node) :
    (⟨index.nodes.insert key node⟩ : NodeIndex).get? id =
      if key = id then some node else index.get? id := by
  rw [get?, Std.ExtTreeMap.getElem?_insert]
  simp only [Std.LawfulEqOrd.compare_eq_iff_eq]
  rfl

/-! ### Gaining nodes -/

namespace Adds

variable {before middle after : NodeIndex} {made more : List Node}

theorem refl (index : NodeIndex) : index.Adds [] index := by
  intro id node
  simp

theorem append (hmade : before.Adds made middle) (hmore : middle.Adds more after) :
    before.Adds (made ++ more) after := by
  intro id node
  rw [hmore id node, hmade id node, List.mem_append, or_and_right, or_assoc]

theorem perm (h : before.Adds made after) (hperm : made.Perm more) : before.Adds more after := by
  intro id node
  rw [h id node, hperm.mem_iff]

theorem get?_of_mem (h : before.Adds made after) {node : Node} (hnode : node ∈ made) :
    after.get? node.id = some node :=
  (h _ _).mpr (.inr ⟨hnode, rfl⟩)

theorem get?_of_get? (h : before.Adds made after) {id : NodeId} {node : Node}
    (hnode : before.get? id = some node) : after.get? id = some node :=
  (h _ _).mpr (.inl hnode)

/-- What was not there before and is not added is not there after. -/
theorem get?_eq_none (h : before.Adds made after) {id : NodeId} (hbefore : before.get? id = none)
    (hmade : ∀ node ∈ made, node.id ≠ id) : after.get? id = none := by
  refine Option.eq_none_iff_forall_ne_some.mpr fun node hnode => ?_
  rcases (h id node).mp hnode with hold | ⟨hnew, hid⟩
  · rw [hbefore] at hold
    cases hold
  · exact hmade node hnew hid

/-- An index that was empty has just the nodes that were added. -/
theorem get?_eq_some_iff (h : empty.Adds made after) {id : NodeId} {node : Node} :
    after.get? id = some node ↔ node ∈ made ∧ node.id = id := by
  simpa only [get?_empty, reduceCtorEq, false_or] using h id node

theorem id_eq (h : empty.Adds made after) {id : NodeId} {node : Node}
    (hnode : after.get? id = some node) : node.id = id :=
  (h.get?_eq_some_iff.mp hnode).2

/-- What an index becomes depends on what it gains alone. -/
theorem eq (h : before.Adds made middle) (h' : before.Adds made after) : middle = after := by
  refine ext_get? fun id => Option.ext fun node => ?_
  rw [h id node, h' id node]

end Adds

/-! ### Registering -/

theorem register_of_get?_eq_none {index : NodeIndex} {node : Node}
    (h : index.get? node.id = none) :
    ∃ after, index.register node = .ok after ∧ index.Adds [node] after := by
  refine ⟨⟨index.nodes.insert node.id node⟩, ?_, fun id other => ?_⟩
  · rw [register, contains_eq_false.mpr h]
    rfl
  · rw [get?_insert, List.mem_singleton]
    by_cases hid : node.id = id
    · subst hid
      rw [if_pos rfl, h, Option.some.injEq]
      exact ⟨fun e => .inr ⟨e.symm, congrArg Placed.id e.symm⟩,
        fun e => (e.resolve_left (Option.some_ne_none other ∘ Eq.symm)).1.symm⟩
    · have other_ne : ¬ (other = node ∧ other.id = id) := fun ⟨e, hother⟩ => hid (e ▸ hother)
      simp [hid, other_ne]

theorem adds_of_register {index after : NodeIndex} {node : Node}
    (h : index.register node = .ok after) :
    index.get? node.id = none ∧ index.Adds [node] after := by
  cases taken : index.contains node.id with
  | true => simp [register, taken] at h
  | false =>
    obtain ⟨other, hother, hadds⟩ := register_of_get?_eq_none (contains_eq_false.mp taken)
    rw [h] at hother
    cases hother
    exact ⟨contains_eq_false.mp taken, hadds⟩

/-- An index that takes a node is larger by one. -/
theorem size_of_register {index after : NodeIndex} {node : Node}
    (h : index.register node = .ok after) : after.size = index.size + 1 := by
  unfold register at h
  split at h
  · cases h
  next free =>
    cases h
    rw [size, Std.ExtTreeMap.size_insert]
    exact if_neg free

/-- A node is refused only because its number is taken. -/
theorem of_register_eq_error {index : NodeIndex} {node : Node} {e : DesignError}
    (h : index.register node = .error e) :
    e = .duplicateId node.id ∧ index.contains node.id = true := by
  unfold register at h
  split at h
  next taken =>
    cases h
    exact ⟨rfl, taken⟩
  · cases h

/-! ### Merging -/

/-- A merge succeeds only if no number is in both indexes, and then it has the entries of
both. -/
theorem get?_of_merge {index other merged : NodeIndex} (h : index.merge other = .ok merged) :
    (∀ id node, other.get? id = some node → index.get? id = none) ∧
      ∀ id node, merged.get? id = some node ↔
        index.get? id = some node ∨ other.get? id = some node := by
  unfold merge at h
  split at h
  next => cases h
  next disjoint =>
    cases h
    have apart : ∀ id node, other.get? id = some node → index.get? id = none := by
      intro id node hnode
      have free := List.find?_eq_none.mp disjoint id (mem_ids.mpr ⟨node, hnode⟩)
      exact contains_eq_false.mp (Bool.eq_false_iff.mpr free)
    refine ⟨apart, fun id node => ?_⟩
    have union : (⟨index.nodes ∪ other.nodes⟩ : NodeIndex).get? id =
        (other.get? id).or (index.get? id) := Std.ExtTreeMap.getElem?_union
    rw [union]
    cases hother : other.get? id with
    | none => simp
    | some entry => simp [apart id entry hother]

/-- Merged indexes have the sizes of both together. -/
theorem size_of_merge {index other merged : NodeIndex} (h : index.merge other = .ok merged) :
    merged.size = index.size + other.size := by
  obtain ⟨apart, -⟩ := get?_of_merge h
  unfold merge at h
  split at h
  · cases h
  next =>
    cases h
    refine Std.ExtTreeMap.size_union_of_not_mem fun id old new => ?_
    obtain ⟨node, hnode⟩ := contains_eq_true.mp (Std.ExtTreeMap.contains_iff_mem.mpr new)
    have free := contains_eq_false.mpr (apart id node hnode)
    exact Bool.false_ne_true (free.symm.trans (Std.ExtTreeMap.contains_iff_mem.mpr old))

/-- A merge that fails reports a number that is in both indexes. -/
theorem exists_of_merge_error {index other : NodeIndex} {e : DesignError}
    (h : index.merge other = .error e) :
    ∃ id, e = .duplicateId id ∧ index.contains id = true ∧ other.contains id = true := by
  unfold merge at h
  split at h
  next shared hshared =>
    cases h
    have listed := List.mem_of_find?_eq_some hshared
    exact ⟨shared, rfl, List.find?_some hshared, contains_eq_true.mpr (mem_ids.mp listed)⟩
  next => cases h

end NodeIndex

end DesignTree
