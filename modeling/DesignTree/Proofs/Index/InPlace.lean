import DesignTree.Index.InPlace
import DesignTree.Proofs.Index
/-!
# DesignTree.Proofs.Index.InPlace

Work on an index in place comes to what `register` and `merge` say, and a failure leaves the index
as it was. For a merge this is so because all numbers are compared first: what is then written,
entry by entry, hits nothing that is there (`run_absorb_of_ok`).
-/

namespace DesignTree.NodeIndex

variable {index after other merged : NodeIndex} {node : Node} {e : DesignError}

theorem run_enter_of_ok (h : index.register node = .ok after) :
    (enter node).run index = .ok () after := by
  unfold register at h
  rw [enter, EStateM.run_bind, EStateM.run_get]
  dsimp only
  split at h
  · cases h
  next free =>
    cases h
    rw [if_neg free]
    rfl

theorem run_enter_of_error (h : index.register node = .error e) :
    (enter node).run index = .error e index := by
  unfold register at h
  rw [enter, EStateM.run_bind, EStateM.run_get]
  dsimp only
  split at h
  next taken =>
    cases h
    rw [if_pos taken]
    rfl
  · cases h

/-- Entries with different numbers are all there once they are written, and beside them is what
they did not hit. -/
theorem run_overwrite (index : NodeIndex) {entries : List (NodeId × Node)}
    (distinct : (entries.map (·.1)).Nodup) :
    ∃ after, (overwrite entries).run index = .ok () after ∧ ∀ id node,
      after.get? id = some node ↔ (id, node) ∈ entries ∨
        id ∉ entries.map (·.1) ∧ index.get? id = some node := by
  induction entries generalizing index with
  | nil => exact ⟨index, rfl, by simp⟩
  | cons entry rest ih =>
    obtain ⟨key, value⟩ := entry
    obtain ⟨absent, distinct⟩ := List.nodup_cons.mp distinct
    obtain ⟨after, hrun, hafter⟩ := ih ⟨index.nodes.insert key value⟩ distinct
    refine ⟨after, hrun, fun id node => ?_⟩
    rw [hafter id node, get?_insert]
    by_cases same : key = id
    · -- The entry at the front was written first; the others have other numbers.
      subst same
      have elsewhere : (key, node) ∉ rest := fun h => absent (List.mem_map.mpr ⟨_, h, rfl⟩)
      simp [elsewhere, absent, eq_comm]
    · have other : id ≠ key := fun h => same h.symm
      simp [same, other]

theorem run_absorb_of_ok (h : index.merge other = .ok merged) :
    (absorb other).run index = .ok () merged := by
  obtain ⟨apart, hmerged⟩ := get?_of_merge h
  have keys : other.nodes.toList.map (·.1) = other.ids := Std.ExtTreeMap.map_fst_toList_eq_keys
  obtain ⟨after, hrun, hafter⟩ := run_overwrite index (keys ▸ other.nodup_ids)
  have same : after = merged := by
    refine ext_get? fun id => Option.ext fun node => ?_
    have entry : (id, node) ∈ other.nodes.toList ↔ other.get? id = some node :=
      Std.ExtTreeMap.mem_toList_iff_getElem?_eq_some
    rw [hafter id node, hmerged id node, keys, mem_ids, entry]
    constructor
    · rintro (new | ⟨-, old⟩)
      · exact .inr new
      · exact .inl old
    · rintro (old | new)
      · -- No entry is written over this one, for its number is not among the others.
        refine .inr ⟨fun ⟨found, hfound⟩ => ?_, old⟩
        exact Option.some_ne_none node (old.symm.trans (apart id found hfound))
      · exact .inl new
  cases disjoint : other.ids.find? index.contains with
  | some shared =>
    rw [merge, disjoint] at h
    cases h
  | none =>
    rw [absorb, EStateM.run_bind, EStateM.run_get]
    dsimp only
    rw [disjoint]
    exact same ▸ hrun

theorem run_absorb_of_error (h : index.merge other = .error e) :
    (absorb other).run index = .error e index := by
  cases hshared : other.ids.find? index.contains with
  | none =>
    rw [merge, hshared] at h
    cases h
  | some shared =>
    rw [merge, hshared] at h
    cases h
    rw [absorb, EStateM.run_bind, EStateM.run_get]
    dsimp only
    rw [hshared]
    rfl

end DesignTree.NodeIndex
