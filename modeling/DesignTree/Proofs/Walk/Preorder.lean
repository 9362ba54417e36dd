import DesignTree.Index.Walk
import DesignTree.Proofs.Index
import Mathlib.Data.List.Perm.Subperm
import Mathlib.Logic.Relation
import Mathlib.Order.WellFounded
/-!
# DesignTree.Proofs.Walk.Preorder

Walks over any index.

The pre-order listing of some numbers is what plain recursion would visit: each number, then the
listing of what its node owns, then the listing of the numbers after it (`NodeIndex.Preorder`).
There is one unless some way down never ends (`exists_preorder`), and at most one
(`Preorder.unique`).

A walk keeps a worklist instead, and a budget for each number on it. It visits the listing in order,
up to the first number that is not taken (`Preorder.walk_eq`). The budget plays no part in that: the
numbers on the way down to a visited one are taken and all different, so the way is not longer than
the index is large.
-/

namespace DesignTree.NodeIndex

/-- What the node with a number owns; there may be no such node. -/
def childrenAt (index : NodeIndex) (id : NodeId) : List NodeId :=
  match index.get? id with
  | some node => node.content.children
  | none => []

/-- The pre-order listing of some numbers. A number that is reached twice is listed twice. -/
inductive Preorder (index : NodeIndex) : List NodeId → List NodeId → Prop
  | nil : Preorder index [] []
  | cons {id : NodeId} {rest below later : List NodeId}
    (hbelow : Preorder index (index.childrenAt id) below) (hlater : Preorder index rest later) :
    Preorder index (id :: rest) (id :: (below ++ later))

/-- No way down from the given numbers goes on forever. -/
def Grounded (index : NodeIndex) (roots : List NodeId) : Prop :=
  ¬ ∃ chain : Nat → NodeId, chain 0 ∈ roots ∧
    ∀ n, chain (n + 1) ∈ index.childrenAt (chain n)

/-- There is a way down from one of the given numbers to a number. -/
def Reaches (index : NodeIndex) (roots : List NodeId) (id : NodeId) : Prop :=
  ∃ root ∈ roots, Relation.ReflTransGen (fun owner child => child ∈ index.childrenAt owner) root id

/-- The first of some numbers that is not taken. -/
def firstFree? (index : NodeIndex) (ids : List NodeId) : Option NodeId :=
  ids.find? fun id => !index.contains id

/-- A listing, as the result of a walk: an error at the first number that is not taken, if any. -/
def resultOf (index : NodeIndex) (listing : List NodeId) : Except DesignError (List NodeId) :=
  match index.firstFree? listing with
  | none => .ok listing
  | some id => .error (.unknownId id)

variable {index : NodeIndex}

theorem childrenAt_of_get? {id : NodeId} {node : Node} (found : index.get? id = some node) :
    index.childrenAt id = node.content.children := by
  rw [childrenAt, found]

/-! ### Listings -/

namespace Preorder

variable {roots listing other : List NodeId}

theorem unique (h : index.Preorder roots listing) (h' : index.Preorder roots other) :
    listing = other := by
  induction h generalizing other with
  | nil =>
    cases h'
    rfl
  | cons _ _ ihBelow ihLater =>
    cases h' with
    | cons hbelow hlater => rw [ihBelow hbelow, ihLater hlater]

/-- What is listed is what can be reached. -/
theorem mem_iff (h : index.Preorder roots listing) (id : NodeId) :
    id ∈ listing ↔ index.Reaches roots id := by
  induction h with
  | nil => simp [Reaches]
  | @cons root rest below later _ _ ihBelow ihLater =>
    have first : Relation.ReflTransGen (fun owner child => child ∈ index.childrenAt owner) root id ↔
        id = root ∨ id ∈ below := by
      rw [Relation.ReflTransGen.cases_head_iff, ihBelow]
      exact or_congr_left eq_comm
    rw [List.mem_cons, List.mem_append, ihLater, ← or_assoc, ← first]
    simp only [Reaches, List.mem_cons, or_and_right, exists_or, exists_eq_left]

theorem exists_of_forall
    (h : ∀ root ∈ roots, ∃ below, index.Preorder (index.childrenAt root) below) :
    ∃ listing, index.Preorder roots listing := by
  induction roots with
  | nil => exact ⟨[], .nil⟩
  | cons root rest ih =>
    obtain ⟨⟨below, hbelow⟩, hrest⟩ := List.forall_mem_cons.mp h
    obtain ⟨later, hlater⟩ := ih hrest
    exact ⟨_, .cons hbelow hlater⟩

/-- Where there is a listing, no way down is endless. -/
theorem grounded (h : index.Preorder roots listing) : index.Grounded roots := by
  have ends : ∀ root ∈ roots, Acc (fun child owner => child ∈ index.childrenAt owner) root := by
    induction h with
    | nil => nofun
    | cons _ _ ihBelow ihLater => exact List.forall_mem_cons.mpr ⟨.intro _ ihBelow, ihLater⟩
  intro ⟨chain, hroot, hchain⟩
  exact not_acc_iff_exists_descending_chain.mpr ⟨chain, rfl, hchain⟩ (ends _ hroot)

end Preorder

/-- Without an endless way down there is a listing. -/
theorem exists_preorder {roots : List NodeId} (h : index.Grounded roots) :
    ∃ listing, index.Preorder roots listing := by
  refine Preorder.exists_of_forall fun root hroot => ?_
  have ends : Acc (fun child owner => child ∈ index.childrenAt owner) root := by
    by_contra endless
    obtain ⟨chain, rfl, hchain⟩ := not_acc_iff_exists_descending_chain.mp endless
    exact h ⟨chain, hroot, hchain⟩
  clear hroot
  induction ends with
  | intro id _ ih => exact Preorder.exists_of_forall ih

/-! ### Listings as results -/

theorem firstFree?_of_missing {id : NodeId} {rest : List NodeId}
    (missing : index.get? id = none) : index.firstFree? (id :: rest) = some id := by
  rw [firstFree?, List.find?_cons_of_pos]
  simp [contains_eq_false.mpr missing]

theorem firstFree?_of_found {id : NodeId} {node : Node} {front back : List NodeId}
    (found : index.get? id = some node) : index.firstFree? (id :: (front ++ back)) =
      (index.firstFree? front).or (index.firstFree? back) := by
  rw [firstFree?, List.find?_cons_of_neg, List.find?_append]
  · rfl
  · simp [contains_eq_true.mpr ⟨node, found⟩]

theorem resultOf_of_taken {listing : List NodeId}
    (taken : ∀ id ∈ listing, ∃ node, index.get? id = some node) :
    index.resultOf listing = .ok listing := by
  have none : index.firstFree? listing = none := by
    simpa [firstFree?, contains_eq_true] using taken
  rw [resultOf, none]

theorem resultOf_of_missing {id : NodeId} {rest : List NodeId}
    (missing : index.get? id = none) : index.resultOf (id :: rest) = .error (.unknownId id) := by
  rw [resultOf, firstFree?_of_missing missing]

/-- A number that is taken, what is below it, and the rest, one after the other. -/
theorem resultOf_of_found {id : NodeId} {node : Node} {below later : List NodeId}
    (found : index.get? id = some node) : index.resultOf (id :: (below ++ later)) = (do
      let below ← index.resultOf below
      let later ← index.resultOf later
      return id :: (below ++ later)) := by
  rw [resultOf, resultOf, resultOf, firstFree?_of_found found]
  cases index.firstFree? below with
  | some free => rfl
  | none => cases index.firstFree? later <;> rfl

/-! ### The walk -/

theorem walkFrom_missing {budget : Nat} {id : NodeId} {pending : List (Nat × NodeId)}
    {visited : Array NodeId} (missing : index.get? id = none) :
    index.walkFrom ((budget, id) :: pending) visited = .error (.unknownId id) := by
  rw [walkFrom]
  split
  next => rfl
  next node present =>
    rw [missing] at present
    cases present

/-- One step of a walk: the number at the front is visited, and what its node owns comes next. -/
theorem walkFrom_cons {left : Nat} {id : NodeId} {node : Node} {pending : List (Nat × NodeId)}
    {visited : Array NodeId} (found : index.get? id = some node) :
    index.walkFrom ((left + 1, id) :: pending) visited =
      index.walkFrom (node.content.children.map (left, ·) ++ pending) (visited.push id) := by
  rw [walkFrom]
  split
  next missing =>
    rw [found] at missing
    cases missing
  next other present =>
    rw [found] at present
    cases present
    rfl

theorem length_ids (index : NodeIndex) : index.ids.length = index.size :=
  Std.ExtTreeMap.length_keys

/-- Different numbers that are taken are not more than the index has. -/
theorem length_le_size {taken : List NodeId} (distinct : taken.Nodup)
    (h : ∀ id ∈ taken, ∃ node, index.get? id = some node) : taken.length ≤ index.size := by
  have present : taken ⊆ index.ids := fun id hid => mem_ids.mpr (h id hid)
  exact length_ids index ▸ (List.subperm_of_subset distinct present).length_le

/-- A point in a walk where a listing comes next. `path` holds the owners that led there, on which
the budget was spent. Below each of them there is no less to list than what comes next, so none of
them can come up in it again. -/
structure Descent (index : NodeIndex) (budget : Nat) (path listing : List NodeId) : Prop where
  size_eq : budget + path.length = index.size
  distinct : path.Nodup
  taken : ∀ id ∈ path, ∃ node, index.get? id = some node
  longer : ∀ id ∈ path, ∀ below, index.Preorder (index.childrenAt id) below →
    listing.length ≤ below.length

namespace Descent

variable {budget : Nat} {path below later : List NodeId} {id : NodeId}

theorem start (listing : List NodeId) : index.Descent index.size [] listing where
  size_eq := Nat.add_zero _
  distinct := .nil
  taken := nofun
  longer := nofun

/-- From a number to what its node owns. -/
theorem down {node : Node} (h : index.Descent budget path (id :: (below ++ later)))
    (found : index.get? id = some node) (hbelow : index.Preorder (index.childrenAt id) below) :
    ∃ left, budget = left + 1 ∧ index.Descent left (id :: path) below := by
  have length : (id :: (below ++ later)).length = below.length + later.length + 1 := by
    rw [List.length_cons, List.length_append]
  -- An owner on the path has all that comes next below it, which is more than `id` itself has.
  have fresh : id ∉ path := by
    intro hid
    have bound := h.longer id hid below hbelow
    omega
  have distinct := List.nodup_cons.mpr ⟨fresh, h.distinct⟩
  have taken : ∀ other ∈ id :: path, ∃ node, index.get? other = some node :=
    List.forall_mem_cons.mpr ⟨⟨node, found⟩, h.taken⟩
  have fits := length_le_size distinct taken
  have size := h.size_eq
  rw [List.length_cons] at fits
  refine ⟨budget - 1, by omega, by rw [List.length_cons]; omega, distinct, taken, ?_⟩
  intro owner howner other hother
  rcases List.mem_cons.mp howner with rfl | above
  · rw [hbelow.unique hother]
  · have bound := h.longer owner above other hother
    omega

/-- On to the numbers after it. -/
theorem next (h : index.Descent budget path (id :: (below ++ later))) :
    index.Descent budget path later where
  size_eq := h.size_eq
  distinct := h.distinct
  taken := h.taken
  longer owner howner other hother := by
    have bound := h.longer owner howner other hother
    rw [List.length_cons, List.length_append] at bound
    omega

end Descent

/-- Numbers at the front of the worklist are visited as they are listed, each with all below it,
before what comes after them; unless one of them is not taken, which ends the walk. -/
theorem Preorder.walkFrom_eq {roots listing : List NodeId} (h : index.Preorder roots listing) :
    ∀ {budget : Nat} {path : List NodeId}, index.Descent budget path listing →
      ∀ (pending : List (Nat × NodeId)) (visited : Array NodeId),
      (∀ free, index.firstFree? listing = some free →
        index.walkFrom (roots.map (budget, ·) ++ pending) visited = .error (.unknownId free)) ∧
      (index.firstFree? listing = none →
        index.walkFrom (roots.map (budget, ·) ++ pending) visited =
          index.walkFrom pending (visited ++ listing.toArray)) := by
  induction h with
  | nil =>
    intro budget path _ pending visited
    simp [firstFree?]
  | @cons id rest below later hbelow hlater ihBelow ihLater =>
    intro budget path descent pending visited
    rw [List.map_cons, List.cons_append]
    cases found : index.get? id with
    | none =>
      rw [walkFrom_missing found, firstFree?_of_missing found]
      simp
    | some node =>
      -- There is budget left, however deep the walk is by now.
      obtain ⟨left, rfl, inner⟩ := descent.down found hbelow
      rw [walkFrom_cons found, ← childrenAt_of_get? found, firstFree?_of_found found]
      obtain ⟨stops, passes⟩ :=
        ihBelow inner (rest.map (left + 1, ·) ++ pending) (visited.push id)
      cases hfree : index.firstFree? below with
      | some free => simpa using stops free hfree
      | none =>
        rw [passes hfree, Option.none_or]
        have visits : visited.push id ++ below.toArray ++ later.toArray =
            visited ++ (id :: (below ++ later)).toArray := by
          simp
        rw [← visits]
        exact ihLater descent.next pending _

/-- A walk visits the listing of the numbers that it starts from. -/
theorem Preorder.walk_eq {roots listing : List NodeId} (h : index.Preorder roots listing) :
    index.walk roots = index.resultOf listing := by
  obtain ⟨stops, passes⟩ := h.walkFrom_eq (.start listing) [] #[]
  rw [List.append_nil] at stops passes
  rw [walk, resultOf]
  cases hfree : index.firstFree? listing with
  | some free => rw [stops free hfree]
  | none =>
    rw [passes hfree, walkFrom]
    simp

theorem unit_of_get? {id : NodeId} {node : Node} {u : DesignUnit}
    (found : index.get? id = some node) (h : node.content = .unit u) :
    index.unit id = .ok { node with content := u } := by
  simp only [unit, lookup, found, h, Content.asUnit?]

/-- A walk of units visits their listing as well. -/
theorem Preorder.walkUnits_eq {roots listing : List NodeId} (h : index.Preorder roots listing)
    (units : ∀ id ∈ roots, ∀ node, index.get? id = some node → ∃ u, node.content = .unit u) :
    index.walkUnits roots = index.resultOf listing := by
  induction h with
  | nil => rfl
  | @cons id rest below later hbelow _ _ ihLater =>
    obtain ⟨isUnit, units⟩ := List.forall_mem_cons.mp units
    rw [walkUnits]
    cases found : index.get? id with
    | none =>
      rw [resultOf_of_missing found, unit, lookup, found]
      rfl
    | some node =>
      obtain ⟨u, hu⟩ := isUnit node found
      have children : index.childrenAt id = u.ports ++ u.body.ids := by
        rw [childrenAt_of_get? found, hu, Content.children]
      rw [resultOf_of_found found, unit_of_get? found hu, ← hbelow.walk_eq, ← ihLater units,
        children]
      rfl

end DesignTree.NodeIndex
